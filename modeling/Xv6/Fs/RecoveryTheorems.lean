/-
Xv6.Fs.RecoveryTheorems — crashes lose whole operations or nothing.

§1 the steps of recovery, §2 what holds in every run, §3 a crash followed by
recovery, §4 whether a commit finds the buffers it needs.
-/
import Xv6.Fs.CommitTheorems

namespace Xv6.Fs

open Xv6.Lib Function

variable {L : LogLayout} {init : Nat → Block} {A : Finset Nat} {s s' : DiskSys} {P lh : List Nat}
  {current committed disk : Nat → Block} {b k t : Nat} {p : Nat} {i : Fin nbuf} {x : Buf}
  {E : Panic → Prop}

/-! ## §1 Recovery -/

/-- During recovery the log has entries but no operations. -/
theorem LogInv.recovering (hlh : lh.length ≤ logblocks) :
    LogInv ∅ { LogSys.start with log := { Log.empty with lh := lh } } where
  active p := by simp [LogSys.start, Doing.isOp]
  outstanding := rfl
  room := by simpa using hlh
  committing p h := by cases h
  alone _ := rfl
  one p q h := by cases h
  logged h := by cases h

theorem readHead_step (h : Inv L init A s) (hg : s.stage = .readHead) :
    Total (diskStep L .recover) s fun _ s' =>
      Inv L init ∅ s' ∧ s'.stage = .reinstall 0 ∧ s'.hist = s.hist := by
  obtain ⟨hls, hheld, hidle, lh, hlh, hdisk⟩ := h.staged hg
  have hpins : s.pins = [] := by
    unfold DiskSys.pins
    rw [hg]
  have hcache := h.cache
  rw [hpins, hheld] at hcache
  refine meets_read ?_
  rw [hg]
  refine Meets.seq (readHead_spec L hcache 0 (.inr (by decide)) rfl) ?_
  rintro lh' s1 ⟨rfl, h1, hd1, hr1, -⟩
  have hhead : headOf (overlay [] (s.hist.current init) s.disk L.logstart) = lh := hdisk.head
  rw [hhead]
  have hls' : { s1.ls with log := { s1.ls.log with lh := lh } } =
      { LogSys.start with log := { Log.empty with lh := lh } } := by
    rw [hr1.ls, hls]
    rfl
  refine meets_update (meets_modify ⟨⟨?_, ?_, fun q => ?_, ?_, ?_, ?_, ?_⟩, rfl,
    hr1.hist⟩)
  · rw [hls']
    exact .recovering hlh.length
  · rw [hr1.hist]
    exact h.hist.idle hidle
  · rw [hr1.ls, hls, hr1.hist, hidle.1 q]
    rfl
  · rw [hr1.held, hheld, hr1.hist, hd1]
    exact h1.congr rfl rfl
  · exact hlh
  · intro q i hq
    rw [hr1.held, hheld] at hq
    cases hq
  · rw [hls', hr1.hist, hd1, hr1.held]
    exact ⟨⟨lh, rfl⟩, hheld, hidle, Nat.zero_le _, hdisk⟩

theorem reinstall_step (h : Inv L init A s) (hg : s.stage = .reinstall t)
    (hb : s.ls.log.lh[t]? = some b) :
    Total (diskStep L .recover) s fun _ s' =>
      Inv L init A s' ∧ s'.stage = .reinstall (t + 1) ∧ s'.ls = s.ls ∧ s'.hist = s.hist := by
  obtain ⟨hls, hheld, hidle, hle, hdisk⟩ := h.staged hg
  have hpins : s.pins = [] := by
    unfold DiskSys.pins
    rw [hg]
  have hcache := h.cache
  rw [hpins, hheld] at hcache
  have hmem : b ∈ s.ls.log.lh := List.mem_of_getElem? hb
  have ht := h.lh.lt hb
  refine meets_read ?_
  rw [hg]
  dsimp only
  rw [hb]
  refine Meets.seq (installBlock_spec L hcache 0 (.inl ⟨rfl, rfl⟩) (h.lh.ne hmem ht)
    (.inr ⟨by decide, .inr (by decide)⟩) rfl (.inl rfl)) ?_
  rintro - s1 ⟨h1, hd1, hr1, hk1⟩
  have hlog : overlay [] (s.hist.current init) s.disk (L.logstart + t + 1) =
      s.hist.committed init b := hdisk.log hb
  rw [hlog] at h1 hd1
  refine meets_modify ⟨h.advance hr1 (hheld ▸ hk1) _ ?_ ?_, rfl, hr1.ls, hr1.hist⟩ <;> rw [hd1]
  · rw [hheld]
    exact h1
  · exact ⟨hls, hheld, hidle, getElem?_lt hb, hdisk.install h.lh hb⟩

theorem clear_step (h : Inv L init A s) (hg : s.stage = .reinstall t)
    (hb : s.ls.log.lh[t]? = none) :
    Total (diskStep L .recover) s fun _ s' =>
      Inv L init ∅ s' ∧ s'.stage = .run ∧ s'.ls = .start ∧ s'.hist = s.hist := by
  obtain ⟨⟨lh, hls⟩, hheld, hidle, hle, hdisk⟩ := h.staged hg
  have hlen : s.ls.log.lh.length ≤ t := List.getElem?_eq_none_iff.mp hb
  have hpins : s.pins = [] := by
    unfold DiskSys.pins
    rw [hg]
  have hcache := h.cache
  rw [hpins, hheld] at hcache
  have hls' : { s.ls with log := { s.ls.log with lh := [] } } = LogSys.start := by
    rw [hls]
    rfl
  refine meets_read ?_
  rw [hg]
  dsimp only
  rw [hb]
  refine meets_update ?_
  rw [hls']
  refine Meets.seq (writeHead_spec L (s := { s with ls := .start }) (hcache.congr rfl rfl) 0 []
    (.inr (by decide)) rfl) ?_
  rintro - s1 ⟨h1, hd1, hr1, -⟩
  have hdisk' := hdisk.clear (d := s.disk L.logstart) hlen
  refine meets_modify ⟨⟨?_, ?_, fun q => ?_, ?_, ?_, ?_, ?_⟩, rfl, hr1.ls, hr1.hist⟩
  · rw [hr1.ls]
    exact .start
  · rw [hr1.hist]
    exact h.hist.idle hidle
  · rw [hr1.hist, hr1.ls, hidle.1 q]
    rfl
  · rw [hr1.ls, hr1.held, hheld, hr1.hist, hd1]
    exact h1.congr rfl rfl
  · rw [hr1.ls]
    exact .nil
  · intro q i hq
    rw [hr1.held, hheld] at hq
    cases hq
  · rw [hr1.hist, hd1, hr1.held, hr1.ls]
    refine ⟨nofun, hdisk', fun c hc _ => ?_⟩
    rw [hidle.current_eq]
    exact hdisk'.home c hc (by simp)

theorem recover_step (h : Inv L init A s) :
    Total (diskStep L .recover) s fun _ s' => ∃ B, Inv L init B s' := by
  cases hg : s.stage with
  | readHead => exact (readHead_step h hg).imp fun _ _ hx => ⟨∅, hx.1⟩
  | reinstall t =>
    cases hb : s.ls.log.lh[t]? with
    | none => exact (clear_step h hg hb).imp fun _ _ hx => ⟨∅, hx.1⟩
    | some b => exact (reinstall_step h hg hb).imp fun _ _ hx => ⟨A, hx.1⟩
  | _ =>
    refine meets_read ?_
    rw [hg]
    exact meets_pure ⟨A, h⟩

/-! ## §2 Runs -/

/-- The panics that concurrent operations can run into. -/
def diskPanic (e : Panic) : Prop := e = .noBuffers ∨ e = .tooBig

theorem diskStep_spec (h : Inv L init A s) (a : Act) :
    Meets diskPanic (diskStep L a) s fun _ s' => ∃ B, Inv L init B s' := by
  cases a with
  | begin p => exact (begin_step h p).meets
  | bget p b => exact (bget_step h (.inl rfl) p b).imp fun _ _ hx => ⟨A, hx⟩
  | lock p b => exact (lock_step h p b).meets.imp fun _ _ hx => ⟨A, hx⟩
  | change p b f => exact (change_step h (.inr rfl) p b f).imp fun _ _ hx => ⟨A, hx⟩
  | brelse p b => exact (brelse_step h p b).meets.imp fun _ _ hx => ⟨A, hx⟩
  | finish p => exact (finish_step h p).meets
  | commit p =>
    by_cases hp : s.ls.doing p = .commit
    · exact (commit_step h hp (.inl (.inl rfl))).imp fun _ _ hx => ⟨A, hx.1⟩
    · refine meets_read ?_
      split
      · contradiction
      · exact meets_pure ⟨A, h⟩
  | «return» p => exact (return_step h p).meets
  | crash => exact (crash_step h).meets.imp fun _ _ hx => ⟨∅, hx.1⟩
  | recover => exact (recover_step h).meets

theorem diskRun_spec (acts : List Act) (h : Inv L init A s) :
    Meets diskPanic (diskRun L acts) s fun _ s' => ∃ B, Inv L init B s' := by
  induction acts generalizing A s with
  | nil => exact meets_pure ⟨A, h⟩
  | cons a as ih =>
    refine Meets.seq (diskStep_spec h a) ?_
    rintro - s1 ⟨B, h1⟩
    exact ih h1

theorem Image.inv (img : Image L) : Inv L img.disk ∅ img.boot where
  log := .start
  hist := ⟨fun _ he => absurd he List.not_mem_nil, fun _ hn => absurd hn List.not_mem_nil,
    fun _ hn => absurd hn List.not_mem_nil, nofun, nofun,
    fun _ he => absurd he List.not_mem_nil⟩
  ops _ := rfl
  cache := .boot
  lh := .nil
  held hp := absurd hp List.not_mem_nil
  stage := ⟨rfl, rfl, ⟨fun _ => rfl, rfl⟩, [], .nil, img.clean, fun _ _ _ => rfl,
    fun hx => by cases hx⟩

/-- Once the log is recovered, the cache and the disk together have the current
content of the home blocks, also while a commit is under way. -/
theorem Inv.overlay_current (h : Inv L init A s) (hboot : s.stage.booted = true) (hb : L.Home b) :
    overlay s.pins (s.hist.current init) s.disk b = s.hist.current init b := by
  by_cases hp : b ∈ s.pins
  · exact overlay_mem hp
  rw [overlay_not_mem hp]
  unfold DiskSys.pins at hp
  cases hg : s.stage with
  | run =>
    rw [hg] at hp
    exact (h.staged hg).2.2 b hb hp
  | log t =>
    rw [hg] at hp
    exact (h.staged hg).2.2.1 b hb hp
  | install t =>
    rw [hg] at hp
    obtain ⟨-, hidle, -, hdisk⟩ := h.staged hg
    rw [hidle.current_eq]
    exact hdisk.home b hb hp
  | _ =>
    rw [hg] at hboot
    cases hboot

/-- What the buffer cache promises to the file system. -/
structure Coherent (L : LogLayout) (init : Nat → Block) (s : DiskSys) : Prop where
  /-- No block is in two buffers. -/
  single : ∀ i j b, s.Has i b → s.Has j b → i = j
  /-- `refcnt` counts the processes that have the buffer, and the log. -/
  count : ∀ i, (s.buf i).refcnt = uses s.held s.pins i (s.buf i)
  /-- A sleep lock is with a process that has the buffer, and it has been read. -/
  owner : ∀ i p, (s.buf i).owner = some p → (p, i) ∈ s.held ∧ (s.buf i).valid = true
  /-- The blocks of the transaction stay in the cache until they are installed. -/
  pinned : ∀ b ∈ s.pins, ∃ i, s.Has i b ∧ (s.buf i).valid = true
  current : s.stage.booted = true → ∀ i b, s.Has i b → (s.buf i).valid = true → L.Home b →
    (s.buf i).data = s.hist.current init b

theorem cache_coherent (L : LogLayout) (img : Image L) (acts : List Act) :
    Meets diskPanic (diskRun L acts) img.boot fun _ s => Coherent L img.disk s := by
  refine (diskRun_spec acts img.inv).imp ?_
  rintro - s ⟨A, h⟩
  refine ⟨fun i j b => h.cache.uniq, h.cache.count, fun i p => h.cache.owner, h.cache.pinned,
    fun hboot i b hi hv hb => ?_⟩
  rw [h.cache.data hi hv, h.overlay_current hboot hb]

/-! ## §3 Recovery ends -/

/-- A system that runs has nothing to recover. -/
theorem recovered_run (n : Nat) (hg : s.stage = .run) :
    Total (diskRun L (List.replicate n .recover)) s fun _ s' => s' = s := by
  induction n with
  | zero => exact meets_pure rfl
  | succ n ih =>
    refine Meets.seq (P := fun _ s' => s' = s) (meets_read ?_) ?_
    · rw [hg]
      exact meets_pure rfl
    · rintro - s' rfl
      exact ih

theorem reinstall_run (n : Nat) (h : Inv L init A s) (hg : s.stage = .reinstall t)
    (hn : s.ls.log.lh.length < t + n) :
    Total (diskRun L (List.replicate n .recover)) s fun _ s' =>
      (∃ B, Inv L init B s') ∧ s'.stage = .run ∧ s'.hist = s.hist := by
  induction n generalizing s t with
  | zero =>
    have hs := h.staged hg
    have := hs.2.2.2.1
    omega
  | succ n ih =>
    cases hb : s.ls.log.lh[t]? with
    | none =>
      refine Meets.seq (clear_step h hg hb) ?_
      rintro - s1 ⟨h1, hg1, -, hh1⟩
      refine (recovered_run n hg1).imp ?_
      rintro - s' rfl
      exact ⟨⟨∅, h1⟩, hg1, hh1⟩
    | some b =>
      refine Meets.seq (reinstall_step h hg hb) ?_
      rintro - s1 ⟨h1, hg1, hl1, hh1⟩
      refine (ih h1 hg1 (by rw [hl1]; omega)).imp ?_
      rintro - s' ⟨h', hg', hh'⟩
      exact ⟨h', hg', hh'.trans hh1⟩

/-- Enough steps for the recovery of any log. -/
def recovery : List Act := List.replicate (logblocks + 2) .recover

theorem recovery_run (h : Inv L init A s) (hg : s.stage = .readHead) :
    Total (diskRun L recovery) s fun _ s' =>
      (∃ B, Inv L init B s') ∧ s'.stage = .run ∧ s'.hist = s.hist := by
  refine Meets.seq (readHead_step h hg) ?_
  rintro - s1 ⟨h1, hg1, hh1⟩
  refine (reinstall_run (logblocks + 1) h1 hg1 ?_).imp ?_
  · have := h1.lh.length
    omega
  · rintro - s' ⟨h', hg', hh'⟩
    exact ⟨h', hg', hh'.trans hh1⟩

/-- After a crash, recovery ends with what the committed operations made of the
home blocks. -/
theorem Inv.recovers (h : Inv L init A s) :
    ∃ s', (diskRun L (.crash :: recovery)).run s = .ok ((), s') ∧ s'.stage = .run ∧
      ∀ b, L.Home b → s'.disk b = s.hist.committed init b := by
  have hrun : Total (diskRun L (.crash :: recovery)) s fun _ s' =>
      (∃ B, Inv L init B s') ∧ s'.stage = .run ∧ s'.hist = s.hist.crash := by
    refine Meets.seq (crash_step h) ?_
    rintro - s1 ⟨h1, hg1, hh1⟩
    refine (recovery_run h1 hg1).imp ?_
    rintro - s' ⟨h', hg', hh'⟩
    exact ⟨h', hg', hh'.trans hh1⟩
  obtain ⟨⟨⟩, s', hok, ⟨B, h'⟩, hg', hh'⟩ := hrun.elim
  refine ⟨s', hok, hg', fun b hb => ?_⟩
  have hs := h'.stage
  rw [hg'] at hs
  have hdisk := hs.2.1.home b hb (by simp)
  rw [hh'] at hdisk
  exact hdisk

/-- A crash in any state that operations, crashes and recoveries reach leaves,
after recovery, what the committed operations made of the home blocks: all of
their changes and none of the others'. -/
theorem crash_atomicity (L : LogLayout) (img : Image L) (acts : List Act) :
    Meets diskPanic (diskRun L acts) img.boot fun _ s =>
      ∃ s', (diskRun L (.crash :: recovery)).run s = .ok ((), s') ∧ s'.stage = .run ∧
        ∀ b, L.Home b → s'.disk b = replay img.disk s.hist.events (fun n => n ∈ s.hist.done) b := by
  refine (diskRun_spec acts img.inv).imp ?_
  rintro - s ⟨A, h⟩
  exact h.recovers

/-! ## §4 Commits end -/

/-- Once the log is erased, `commit` has nothing left to do. -/
theorem erased_run (n : Nat) (hd : s.ls.doing p = .erased) :
    Total (diskRun L (List.replicate n (.commit p))) s fun _ s' => s'.ls.doing p = .erased := by
  induction n generalizing s with
  | zero => exact meets_pure hd
  | succ n ih =>
    refine Meets.seq (P := fun _ s' => s' = s) (meets_read ?_) ?_
    · rw [hd]
      exact meets_pure rfl
    · rintro - s' rfl
      exact ih hd

theorem commit_run (n : Nat) (h : Inv L init A s) (hp : s.ls.doing p = .commit) (hr : s.Room)
    (hn : s.rank ≤ n) :
    Total (diskRun L (List.replicate n (.commit p))) s fun _ s' => s'.ls.doing p = .erased := by
  induction n generalizing s with
  | zero =>
    rcases h.commit_stage hp with ⟨t, hg, ht⟩ | ⟨t, hg, ht⟩
    all_goals
      simp only [DiskSys.rank, hg] at hn
      omega
  | succ n ih =>
    refine Meets.seq (commit_step h hp (.inr hr)) ?_
    rintro - s1 ⟨h1, hadv⟩
    rcases hadv hr with hd | ⟨hl, hh, hlt⟩
    · exact erased_run n hd
    · refine ih h1 (hl ▸ hp) ⟨hh.trans hr.1, ?_⟩ (by omega)
      rw [hl]
      exact hr.2

/-- With every buffer pinned there is none for another block. -/
theorem Cache.full {view : Nat → Block} {H : List (Nat × Fin nbuf)} (h : Cache view H P s)
    (hP : P.Nodup) (hn : nbuf ≤ P.length) (hb : b ∉ P) {Q : Fin nbuf → DiskSys → Prop} :
    Meets (· = .noBuffers) (bget b) s Q := by
  have hpins : Finset.univ.filter (fun j => (s.buf j).dev = rootdev ∧ (s.buf j).blockno ∈ P) =
      Finset.univ := by
    refine Finset.eq_of_subset_of_card_le (Finset.subset_univ _) ?_
    have hcard : P.toFinset.card ≤ (Finset.univ.filter fun j =>
        (s.buf j).dev = rootdev ∧ (s.buf j).blockno ∈ P).card := by
      refine Finset.card_le_card_of_surjOn (fun j => (s.buf j).blockno) fun c hc => ?_
      have hcP : c ∈ P := List.mem_toFinset.mp hc
      obtain ⟨j, hj, -⟩ := h.pinned c hcP
      refine ⟨j, ?_, hj.2⟩
      rw [Finset.mem_coe, Finset.mem_filter]
      exact ⟨Finset.mem_univ j, hj.1, hj.2 ▸ hcP⟩
    rw [List.toFinset_card_of_nodup hP] at hcard
    exact hn.trans hcard
  have hall : ∀ j, (s.buf j).dev = rootdev ∧ (s.buf j).blockno ∈ P := by
    intro j
    have hj := Finset.mem_univ j
    rw [← hpins, Finset.mem_filter] at hj
    exact hj.2
  refine meets_read ?_
  cases hc : s.cached b with
  | some i =>
    have hi := DiskSys.cached_some hc
    exact absurd (hi.2 ▸ (hall i).2) hb
  | none =>
    cases hu : s.unusedBuf with
    | none => exact meets_throw rfl
    | some i =>
      have h0 := DiskSys.unusedBuf_some hu
      rw [h.count, uses, if_pos (hall i)] at h0
      omega

/-- `write_log` cannot read its first log block when every buffer is pinned. -/
theorem commit_full (h : Inv L init A s) (hp : s.ls.doing p = .commit)
    (hg : s.stage = .log 0) (hheld : s.held = []) (hn : nbuf ≤ s.ls.log.lh.length) :
    (diskStep L (.commit p)).run s = .error .noBuffers := by
  have hpins := DiskSys.pins_log hg
  have hcache := h.cache
  rw [hpins] at hcache
  have hlen : 0 < s.ls.log.lh.length := lt_of_lt_of_le (by decide) hn
  refine Meets.fails (meets_read ?_)
  rw [hp]
  refine meets_read ?_
  rw [hg]
  dsimp only
  rw [List.getElem?_eq_getElem hlen]
  refine meets_if (h.unlocked hheld _) ?_
  have hnot : L.logstart + 0 + 1 ∉ s.ls.log.lh := fun hx =>
    logBlock_not_home (k := 0) (by decide) (h.lh.home _ hx)
  exact Meets.seq (P := fun _ _ => False) (Meets.seq (P := fun _ _ => False)
    (Meets.seq (P := fun _ _ => False) (hcache.full h.lh.nodup hn hnot) nofun) nofun) nofun

/-- When no process has a buffer, a commit ends exactly if the transaction
leaves a buffer free: `NBUF` blocks are as many as the log may have. -/
theorem commit_buffers (L : LogLayout) (img : Image L) (acts : List Act) :
    Meets diskPanic (diskRun L acts) img.boot fun _ s =>
      ∀ p, s.ls.doing p = .commit → s.stage = .log 0 → s.held = [] →
        ((∃ s', (diskRun L (List.replicate (2 * s.ls.log.lh.length + 2) (.commit p))).run s =
            .ok ((), s') ∧ s'.ls.doing p = .erased) ↔ s.ls.log.lh.length < nbuf) := by
  refine (diskRun_spec acts img.inv).imp ?_
  rintro - s ⟨A, h⟩ p hp hg hheld
  refine ⟨?_, fun hlt => ?_⟩
  · rintro ⟨s', hok, -⟩
    by_contra hn
    have hfail := commit_full h hp hg hheld (by omega)
    rw [List.replicate_succ (n := 2 * s.ls.log.lh.length + 1), diskRun, StateT.run_bind, hfail]
      at hok
    cases hok
  · have hrank : s.rank ≤ 2 * s.ls.log.lh.length + 2 := by
      simp only [DiskSys.rank, hg]
      omega
    obtain ⟨⟨⟩, s', hok, hd⟩ := (commit_run _ h hp ⟨hheld, hlt⟩ hrank).elim
    exact ⟨s', hok, hd⟩

/-- A disk of zeroes. -/
def zeroImage : Image .mkfs where
  disk _ := fun _ => 0
  clean := by decide +kernel

/-- Process `p` runs an operation that logs ten blocks. -/
def logTen (p : Nat) : List Act :=
  (List.range 10).flatMap fun k =>
    let b := 100 + 10 * p + k
    [.bget p b, .lock p b, .change p b id, .brelse p b]

/-- Three operations fill the log; the last to end commits. -/
def fillTransaction : List Act :=
  recovery ++ [.begin 0, .begin 1, .begin 2] ++ logTen 0 ++ logTen 1 ++ logTen 2 ++
    [.finish 0, .finish 1, .finish 2]

theorem commit_no_buffers :
    ∃ s, (diskRun .mkfs fillTransaction).run zeroImage.boot = .ok ((), s) ∧
      s.ls.doing 2 = .commit ∧ s.stage = .log 0 ∧ s.held = [] ∧
      (diskStep .mkfs (.commit 2)).run s = .error .noBuffers := by
  obtain ⟨⟨⟩, s, hok, ht⟩ := run_of_endsIn (show endsIn (diskRun .mkfs fillTransaction)
    zeroImage.boot (fun _ s => decide (s.ls.doing 2 = .commit ∧ s.stage = .log 0 ∧ s.held = []) &&
      stopsWith (diskStep .mkfs (.commit 2)) s .noBuffers) = true by decide +kernel)
  rw [Bool.and_eq_true, decide_eq_true_iff] at ht
  exact ⟨s, hok, ht.1.1, ht.1.2.1, ht.1.2.2, run_of_stopsWith ht.2⟩

end Xv6.Fs
