/-
Xv6.Fs.CommitTheorems — each disk write of a commit keeps the invariant.

§1 what a write does to the disk and the cache's view of it, §2 the steps of
`commit`, which also bring the commit nearer to its end.
-/
import Xv6.Fs.OperationTheorems

namespace Xv6.Fs

open Xv6.Lib Function

variable {L : LogLayout} {init : Nat → Block} {A : Finset Nat} {s s' : DiskSys} {P lh : List Nat}
  {current committed disk : Nat → Block} {b k t : Nat} {p : Nat} {i : Fin nbuf} {x : Buf}
  {E : Panic → Prop} {d : Block} {h : Hist}

/-! ## §1 Disk writes -/

/-- A write outside the pinned blocks. -/
theorem overlay_write (hb : b ∉ P) :
    update (overlay P current disk) b d = overlay P current (update disk b d) := by
  funext c
  by_cases e : c = b
  · subst e
    rw [update_self, overlay_not_mem hb, update_self]
  · rw [update_of_ne e]
    unfold overlay
    rw [update_of_ne e]

/-- The last pinned copy of a block is written home. -/
theorem overlay_install (hb : b ∉ P) :
    update (overlay (b :: P) current disk) b d = overlay P current (update disk b d) := by
  funext c
  by_cases e : c = b
  · subst e
    rw [update_self, overlay_not_mem hb, update_self]
  · rw [update_of_ne e]
    have hiff : c ∈ b :: P ↔ c ∈ P := by rw [List.mem_cons, or_iff_right e]
    unfold overlay
    rw [update_of_ne e, if_congr hiff rfl rfl]

theorem Home.ne_log (hb : L.Home b) (hk : k < logblocks) : b ≠ L.logstart + k + 1 := by
  rintro rfl
  exact logBlock_not_home hk hb

theorem Home.ne_header (hb : L.Home b) : b ≠ L.logstart := by
  rintro rfl
  exact header_not_home hb

theorem getElem?_lt {l : List Nat} (h : l[k]? = some b) : k < l.length :=
  (List.getElem?_eq_some_iff.mp h).1

theorem HeadOk.lt (h : HeadOk L lh) (hk : lh[k]? = some b) : k < logblocks :=
  lt_of_lt_of_le (getElem?_lt hk) h.length

/-- A write to a log block while nothing is committed. -/
theorem DiskOk.write_log (h : DiskOk L [] 0 committed disk) (hk : k < logblocks) :
    DiskOk L [] 0 committed (update disk (L.logstart + k + 1) d) where
  head := by
    rw [update_of_ne (by omega)]
    exact h.head
  home b hb hx := by
    rw [update_of_ne (Home.ne_log hb hk)]
    exact h.home b hb hx
  log hx := by cases hx

theorem Inv.committing (h : Inv L init A s) (hp : s.ls.doing p = .commit) :
    A = ∅ ∧ ∀ q, s.hist.op q = none := by
  have hA := h.log.alone (h.log.committing p (by rw [hp]; rfl))
  refine ⟨hA, fun q => h.op_none ?_⟩
  have := h.log.active q
  rw [hA] at this
  simpa using this

/-- The blocks of processes stay in their buffers. -/
theorem Inv.held_of (h : Inv L init A s) (hk : Keeps s.held s s') (hh : s'.held = s.held) :
    ∀ {p i}, (p, i) ∈ s'.held → ∃ b, s'.Has i b ∧ L.Home b := by
  intro p i hp
  rw [hh] at hp
  obtain ⟨b, hb, hhome⟩ := h.held hp
  exact ⟨b, hk p i b hp hb, hhome⟩

/-- A block has been written, and the commit or the recovery goes on to stage `g`. -/
theorem Inv.advance (h : Inv L init A s) (hr : Rest s s') (hk : Keeps s.held s s') (g : Stage)
    (hcache : Cache (overlay (DiskSys.pins { s with stage := g }) (s.hist.current init) s'.disk)
      s.held (DiskSys.pins { s with stage := g }) s')
    (hstage : StageOk L init s.ls s.hist s'.disk s.held g) :
    Inv L init A { s' with stage := g } := by
  have hpins : DiskSys.pins { s' with stage := g } = DiskSys.pins { s with stage := g } := by
    simp only [DiskSys.pins, hr.ls]
  refine ⟨hr.ls ▸ h.log, ?_, fun q => ?_, ?_, hr.ls ▸ h.lh, h.held_of hk hr.held, ?_⟩
  · rw [hr.hist, hr.ls]
    exact h.hist
  · rw [hr.hist, hr.ls]
    exact h.ops q
  · rw [hpins, hr.hist, hr.held]
    exact hcache.congr rfl rfl
  · rw [hr.ls, hr.hist, hr.held]
    exact hstage

theorem DiskSys.pins_log (hg : s.stage = .log t) : s.pins = s.ls.log.lh := by
  unfold DiskSys.pins
  rw [hg]

/-! ## §2 The steps of `commit` -/

theorem writeLog_step (h : Inv L init A s) (p : Nat) (hg : s.stage = .log t)
    (hb : s.ls.log.lh[t]? = some b)
    (hE : E .noBuffers ∨ RoomFor s.held s.ls.log.lh b) :
    Meets E (do
      writeLogBlock L p t b
      setStage (.log (t + 1))) s fun _ s' =>
        Inv L init A s' ∧ s'.stage = .log (t + 1) ∧ s'.ls = s.ls ∧ s'.held = s.held ∧
          s'.hist = s.hist := by
  obtain ⟨hcom, hdisk, hclean, hle, hlog⟩ := h.staged hg
  have hpins := DiskSys.pins_log hg
  have hmem : b ∈ s.ls.log.lh := List.mem_of_getElem? hb
  have ht := h.lh.lt hb
  have hcache := h.cache
  rw [hpins] at hcache
  refine Meets.seq (writeLogBlock_spec L hcache p (h.lh.ne hmem ht) hE ?_ (.inr hmem)) ?_
  · rw [← hpins]
    exact h.overlay_log (logBlock_not_home ht)
  rintro - s1 ⟨h1, hd1, hr1, hk1⟩
  rw [overlay_mem hmem] at h1 hd1
  have hnot : L.logstart + t + 1 ∉ s.ls.log.lh := fun hx =>
    logBlock_not_home ht (h.lh.home _ hx)
  rw [overlay_write hnot] at h1
  rw [← hd1] at h1
  refine meets_modify ⟨h.advance hr1 hk1 _ h1 ?_, rfl, hr1.ls, hr1.held, hr1.hist⟩
  rw [hd1]
  refine ⟨hcom, hdisk.write_log ht, fun c hc hx => ?_, getElem?_lt hb, fun k c hk hc => ?_⟩
  · rw [update_of_ne (Home.ne_log hc ht)]
    exact hclean c hc hx
  · by_cases e : k = t
    · subst e
      rw [update_self]
      rw [hb] at hc
      cases hc
      rfl
    · rw [update_of_ne (by omega)]
      exact hlog k c (by omega) hc

/-- With nobody at work, what has ended is all there is to commit. -/
theorem Hist.commit_committed (hop : ∀ q, h.op q = none) :
    h.commit.committed init = h.current init := by
  refine replay_congr fun e _ => ?_
  rw [Bool.eq_iff_iff, Hist.live_iff, decide_eq_true_iff]
  simp [Hist.commit, hop]

theorem Hist.commit_idle (hop : ∀ q, h.op q = none) : h.commit.Idle := ⟨hop, rfl⟩

theorem HistOk.commit (hok : HistOk h lh) (hop : ∀ q, h.op q = none) :
    HistOk h.commit lh where
  events := hok.events
  done n hn := by
    rcases List.mem_append.mp hn with hn | hn
    · exact hok.done n hn
    · exact (hok.ended n hn).1
  ended n hn := absurd hn List.not_mem_nil
  op := fun {p n} hp => absurd ((hop p).symm.trans hp) (by simp)
  inj := fun {p q n} hp => absurd ((hop p).symm.trans hp) (by simp)
  logged e _ hx := by
    rcases hx with hx | ⟨q, hq⟩
    · exact absurd hx List.not_mem_nil
    · exact absurd ((hop q).symm.trans hq) (by simp)

/-- The header is written: the operations that have ended are committed. -/
theorem writeHead_step (h : Inv L init A s) (hp : s.ls.doing p = .commit)
    (hg : s.stage = .log t) (hb : s.ls.log.lh[t]? = none)
    (hE : E .noBuffers ∨ s.ls.log.lh.length + s.held.length < nbuf) :
    Meets E (do
      writeHead L p s.ls.log.lh
      setStage (.install 0)
      modify fun s => { s with hist := s.hist.commit }) s fun _ s' =>
        Inv L init A s' ∧ s'.stage = .install 0 ∧ s'.ls = s.ls ∧ s'.held = s.held := by
  obtain ⟨hcom, hdisk, hclean, hle, hlog⟩ := h.staged hg
  have hpins := DiskSys.pins_log hg
  have hop := (h.committing hp).2
  have hlen : s.ls.log.lh.length ≤ t := List.getElem?_eq_none_iff.mp hb
  have hcache := h.cache
  rw [hpins] at hcache
  have hview : s.disk L.logstart = overlay s.ls.log.lh (s.hist.current init) s.disk L.logstart := by
    rw [← hpins]
    exact h.overlay_log header_not_home
  refine Meets.seq (writeHead_spec L hcache p _ hE hview) ?_
  rintro - s1 ⟨h1, hd1, hr1, hk1⟩
  have hnot : L.logstart ∉ s.ls.log.lh := fun hx => header_not_home (h.lh.home _ hx)
  rw [overlay_write hnot] at h1
  have hcur : s.hist.commit.current init = s.hist.current init := by
    rw [(Hist.commit_idle hop).current_eq, Hist.commit_committed hop]
  refine meets_update (meets_modify ⟨⟨hr1.ls ▸ h.log, ?_, fun q => ?_, ?_,
    hr1.ls ▸ h.lh, h.held_of hk1 hr1.held, ?_⟩, rfl, hr1.ls, hr1.held⟩)
  · rw [hr1.hist, hr1.ls]
    exact h.hist.commit hop
  · rw [hr1.hist, hr1.ls]
    exact h.ops q
  · have hpins' : DiskSys.pins
        { s1 with stage := .install 0, hist := s1.hist.commit } = s.ls.log.lh := by
      simp only [DiskSys.pins, hr1.ls, List.drop_zero]
    rw [hpins']
    rw [hr1.hist, hd1, hr1.held, hcur]
    exact h1.congr rfl rfl
  · rw [hr1.ls, hr1.hist, hd1, hr1.held]
    refine ⟨hcom, Hist.commit_idle hop, Nat.zero_le _, ?_⟩
    rw [Hist.commit_committed hop]
    refine ⟨?_, fun c hc hx => ?_, fun {k c} hc => ?_⟩
    · rw [update_self]
      exact headOf_headBlock h.lh.length h.lh.small
    · rw [update_of_ne (Home.ne_header hc)]
      exact hclean c hc (by rwa [List.drop_zero] at hx)
    · rw [update_of_ne (by omega)]
      exact hlog k c (lt_of_lt_of_le (getElem?_lt hc) hlen) hc

/-- Operations that logged nothing leave nothing behind. -/
theorem skip_step (h : Inv L init A s) (hp : s.ls.doing p = .commit) (hg : s.stage = .log t)
    (hnil : s.ls.log.lh = []) :
    Total (do
      setLog s.ls.log p .erased
      setStage .run
      modify fun s => { s with hist := s.hist.skip }) s fun _ s' =>
        Inv L init A s' ∧ s'.ls.doing p = .erased := by
  obtain ⟨hcom, hdisk, hclean, hle, hlog⟩ := h.staged hg
  have hop := (h.committing hp).2
  have hpins := DiskSys.pins_log hg
  have hcur : s.hist.skip.current init = s.hist.current init := by
    refine replay_congr fun e he => Hist.live_congr ⟨?_, ?_⟩
    · rintro (hx | hx | ⟨q, hq⟩)
      · exact .inl hx
      · exact absurd hx List.not_mem_nil
      · exact .inr (.inr ⟨q, hq⟩)
    · rintro (hx | hx)
      · exact .inl hx
      · have := h.hist.logged e he hx
        rw [hnil] at this
        exact absurd this List.not_mem_nil
  have hlogs : LogInv A (s.ls.set s.ls.log p .erased) := by
    have := h.log.erase hp
    rwa [← hnil] at this
  refine meets_update (meets_update (meets_modify
    ⟨⟨hlogs, ?_, fun q => ?_, ?_, h.lh, h.held, ?_⟩, LogSys.set_same⟩))
  · refine ⟨h.hist.events, h.hist.done, fun n hn => absurd hn List.not_mem_nil,
      fun {q n} hq => absurd ((hop q).symm.trans hq) (by simp),
      fun {q r n} hq => absurd ((hop q).symm.trans hq) (by simp), fun e he hx => ?_⟩
    rcases hx with hx | hx
    · exact absurd hx List.not_mem_nil
    · exact h.hist.logged e he (.inr hx)
  · show (s.hist.op q).isSome = _
    rw [h.ops q]
    by_cases e : q = p
    · subst e
      rw [LogSys.set_same, hp]
      rfl
    · rw [LogSys.set_ne e]
  · rw [Inv.pins_run rfl]
    rw [hcur, LogSys.set_log, ← hpins]
    exact h.cache.congr rfl rfl
  · refine ⟨fun q => ?_, hdisk, ?_⟩
    · refine LogSys.set_ne_commit (by rintro ⟨⟩) (fun q e hq => ?_) q
      exact e (h.log.one q p (by rw [hq]; rfl) (by rw [hp]; rfl))
    · rw [hcur]
      exact hclean

/-- Entry `t` is copied home. -/
theorem DiskOk.install (h : DiskOk L lh t committed disk) (hlh : HeadOk L lh)
    (hb : lh[t]? = some b) : DiskOk L lh (t + 1) committed (update disk b (committed b)) where
  head := by
    rw [update_of_ne (Ne.symm (Home.ne_header (hlh.home b (List.mem_of_getElem? hb))))]
    exact h.head
  home c hc hx := by
    by_cases e : c = b
    · rw [e, update_self]
    · rw [update_of_ne e]
      refine h.home c hc fun hd => hx ?_
      rw [List.drop_eq_getElem_cons (getElem?_lt hb), (List.getElem?_eq_some_iff.mp hb).2,
        List.mem_cons, or_iff_right e] at hd
      exact hd
  log := by
    intro k c hc
    rw [update_of_ne (hlh.ne (List.mem_of_getElem? hb) (hlh.lt hc))]
    exact h.log hc

theorem drop_cons (hb : lh[t]? = some b) : lh.drop t = b :: lh.drop (t + 1) := by
  rw [List.drop_eq_getElem_cons (getElem?_lt hb), (List.getElem?_eq_some_iff.mp hb).2]

theorem HeadOk.not_mem_drop (h : HeadOk L lh) (hb : lh[t]? = some b) : b ∉ lh.drop (t + 1) := by
  have := h.nodup.sublist (List.drop_sublist t lh)
  rw [drop_cons hb, List.nodup_cons] at this
  exact this.1

theorem install_step (h : Inv L init A s) (p : Nat) (hg : s.stage = .install t)
    (hb : s.ls.log.lh[t]? = some b)
    (hE : E .noBuffers ∨ RoomFor s.held (s.ls.log.lh.drop t) b) :
    Meets E (do
      installBlock L p false t b
      setStage (.install (t + 1))) s fun _ s' =>
        Inv L init A s' ∧ s'.stage = .install (t + 1) ∧ s'.ls = s.ls ∧ s'.held = s.held := by
  obtain ⟨hcom, hidle, hle, hdisk⟩ := h.staged hg
  have hpins : s.pins = s.ls.log.lh.drop t := by
    unfold DiskSys.pins
    rw [hg]
  have hmem : b ∈ s.ls.log.lh := List.mem_of_getElem? hb
  have ht := h.lh.lt hb
  have hcache := h.cache
  have hnot := h.lh.not_mem_drop hb
  have hlogb := h.overlay_log (logBlock_not_home ht)
  rw [hpins] at hcache hlogb
  refine Meets.seq (installBlock_spec L hcache p (.inr ⟨rfl, drop_cons hb, hnot⟩)
    (h.lh.ne hmem ht) hE hlogb (.inr (by rw [drop_cons hb]; exact List.mem_cons_self ..))) ?_
  rintro - s1 ⟨h1, hd1, hr1, hk1⟩
  rw [← hlogb, hdisk.log hb] at h1 hd1
  rw [drop_cons hb, overlay_install hnot] at h1
  rw [← hd1] at h1
  refine meets_modify ⟨h.advance hr1 hk1 _ h1 ?_, rfl, hr1.ls, hr1.held⟩
  rw [hd1]
  exact ⟨hcom, hidle, getElem?_lt hb, hdisk.install h.lh hb⟩

/-- With all entries installed, the header can go. -/
theorem DiskOk.clear (h : DiskOk L lh t committed disk) (hle : lh.length ≤ t) :
    DiskOk L [] 0 committed (update disk L.logstart (headBlock [] d)) where
  head := by
    rw [update_self]
    exact headOf_headBlock (Nat.zero_le _) (fun b hb => absurd hb List.not_mem_nil)
  home b hb _ := by
    rw [update_of_ne (Home.ne_header hb)]
    refine h.home b hb ?_
    rw [List.drop_eq_nil_of_le hle]
    exact List.not_mem_nil
  log hx := by cases hx

theorem HistOk.idle {lh' : List Nat} (hok : HistOk h lh) (hi : h.Idle) : HistOk h lh' := by
  refine ⟨hok.events, hok.done, hok.ended, hok.op, hok.inj, fun e _ hx => ?_⟩
  rcases hx with hx | ⟨q, hq⟩
  · rw [hi.2] at hx
    exact absurd hx List.not_mem_nil
  · rw [hi.1 q] at hq
    cases hq

theorem erase_step (h : Inv L init A s) (hp : s.ls.doing p = .commit)
    (hg : s.stage = .install t) (hb : s.ls.log.lh[t]? = none)
    (hE : E .noBuffers ∨ s.held.length < nbuf) :
    Meets E (do
      setLog { s.ls.log with lh := [] } p .erased
      writeHead L p []
      setStage .run) s fun _ s' =>
        Inv L init A s' ∧ s'.ls.doing p = .erased := by
  obtain ⟨hcom, hidle, hle, hdisk⟩ := h.staged hg
  have hlen : s.ls.log.lh.length ≤ t := List.getElem?_eq_none_iff.mp hb
  have hpins : s.pins = [] := by
    unfold DiskSys.pins
    rw [hg]
    exact List.drop_eq_nil_of_le hlen
  have hcache := h.cache
  rw [hpins] at hcache
  refine meets_update ?_
  refine Meets.seq (writeHead_spec L (s := { s with
    ls := s.ls.set { s.ls.log with lh := [] } p .erased }) (hcache.congr rfl rfl) p []
    (hE.imp id fun hx => by simpa using hx) rfl) ?_
  rintro - s1 ⟨h1, hd1, hr1, hk1⟩
  have hlh : s1.ls.log.lh = [] := by rw [hr1.ls, LogSys.set_log]
  have hdisk' := hdisk.clear (d := s.disk L.logstart) hlen
  refine meets_modify ⟨⟨?_, ?_, fun q => ?_, ?_, ?_, h.held_of hk1 hr1.held, ?_⟩, ?_⟩
  · rw [hr1.ls]
    exact h.log.erase hp
  · rw [hr1.hist]
    exact h.hist.idle hidle
  · rw [hr1.hist, hr1.ls, h.ops q]
    by_cases e : q = p
    · subst e
      rw [LogSys.set_same, hp]
      rfl
    · rw [LogSys.set_ne e]
  · rw [Inv.pins_run rfl]
    rw [hlh, hr1.hist, hd1, hr1.held]
    exact h1.congr rfl rfl
  · rw [hlh]
    exact .nil
  · rw [hr1.hist, hd1, hr1.held, hr1.ls]
    refine ⟨fun q => ?_, hdisk', fun c hc _ => ?_⟩
    · refine LogSys.set_ne_commit (by rintro ⟨⟩) (fun q e hq => ?_) q
      exact e (h.log.one q p (by rw [hq]; rfl) (by rw [hp]; rfl))
    · rw [hidle.current_eq]
      exact hdisk'.home c hc (by simp)
  · rw [hr1.ls, LogSys.set_same]

/-- No process has a buffer, and the logged blocks leave one free. -/
def DiskSys.Room (s : DiskSys) : Prop := s.held = [] ∧ s.ls.log.lh.length < nbuf

/-- The steps a commit has still to make. -/
def DiskSys.rank (s : DiskSys) : Nat :=
  match s.stage with
  | .log t => 2 * s.ls.log.lh.length + 2 - t
  | .install t => s.ls.log.lh.length + 1 - t
  | _ => 0

/-- A step of the commit of `p` brings it nearer to its end. -/
def Advances (p : Nat) (s s' : DiskSys) : Prop :=
  s'.ls.doing p = .erased ∨ s'.ls = s.ls ∧ s'.held = s.held ∧ s'.rank < s.rank

theorem Inv.unlocked (h : Inv L init A s) (hh : s.held = []) (b : Nat) : s.unlocked b = true := by
  unfold DiskSys.unlocked
  cases hc : s.cached b with
  | none => rfl
  | some i =>
    cases ho : (s.buf i).owner with
    | none => simp [ho]
    | some q =>
      have := (h.cache.owner ho).1
      rw [hh] at this
      cases this

theorem Inv.commit_stage (h : Inv L init A s) (hp : s.ls.doing p = .commit) :
    (∃ t, s.stage = .log t ∧ t ≤ s.ls.log.lh.length) ∨
      ∃ t, s.stage = .install t ∧ t ≤ s.ls.log.lh.length := by
  have hs := h.stage
  have hb := h.booted_of_doing (by rw [hp]; rintro ⟨⟩)
  cases hg : s.stage with
  | readHead | reinstall t =>
    rw [hg] at hb
    cases hb
  | run =>
    rw [hg] at hs
    exact absurd hp (hs.1 p)
  | log t =>
    rw [hg] at hs
    exact .inl ⟨t, rfl, hs.2.2.2.1⟩
  | install t =>
    rw [hg] at hs
    exact .inr ⟨t, rfl, hs.2.2.1⟩

theorem commit_step (h : Inv L init A s) (hp : s.ls.doing p = .commit)
    (hE : E .noBuffers ∨ s.Room) :
    Meets E (diskStep L (.commit p)) s fun _ s' =>
      Inv L init A s' ∧ (s.Room → Advances p s s') := by
  refine meets_read ?_
  rw [hp]
  refine meets_read ?_
  rcases h.commit_stage hp with ⟨t, hg, ht⟩ | ⟨t, hg, ht⟩
  · rw [hg]
    dsimp only
    cases hb : s.ls.log.lh[t]? with
    | some b =>
      refine meets_ite (fun _ => ?_) (fun hn => meets_pure
        ⟨h, fun hr => absurd (h.unlocked hr.1 b) hn⟩)
      have hroom : E .noBuffers ∨ RoomFor s.held s.ls.log.lh b :=
        hE.imp id fun hr => ⟨by rw [hr.1]; exact hr.2, .inl (List.mem_of_getElem? hb)⟩
      refine (writeLog_step h p hg hb hroom).imp ?_
      rintro - s' ⟨h', hg', hl', hh', -⟩
      refine ⟨h', fun _ => .inr ⟨hl', hh', ?_⟩⟩
      simp only [DiskSys.rank, hg, hg', hl']
      omega
    | none =>
      refine meets_ite (fun hn => ?_) (fun hn => ?_)
      · refine (writeHead_step h hp hg hb (hE.imp id fun hr => ?_)).imp ?_
        · rw [hr.1]
          exact hr.2
        · rintro - s' ⟨h', hg', hl', hh'⟩
          refine ⟨h', fun _ => .inr ⟨hl', hh', ?_⟩⟩
          simp only [DiskSys.rank, hg, hg', hl']
          omega
      · refine (skip_step h hp hg (List.length_eq_zero_iff.mp (by omega))).meets.imp ?_
        rintro - s' ⟨h', hd'⟩
        exact ⟨h', fun _ => .inl hd'⟩
  · rw [hg]
    dsimp only
    cases hb : s.ls.log.lh[t]? with
    | some b =>
      refine meets_ite (fun _ => ?_) (fun hn => meets_pure
        ⟨h, fun hr => absurd (h.unlocked hr.1 b) hn⟩)
      have hroom : E .noBuffers ∨ RoomFor s.held (s.ls.log.lh.drop t) b := by
        refine hE.imp id fun hr => ⟨?_, .inl ?_⟩
        · rw [hr.1, List.length_drop]
          exact lt_of_le_of_lt (Nat.sub_le ..) hr.2
        · rw [drop_cons hb]
          exact List.mem_cons_self ..
      refine (install_step h p hg hb hroom).imp ?_
      rintro - s' ⟨h', hg', hl', hh'⟩
      refine ⟨h', fun _ => .inr ⟨hl', hh', ?_⟩⟩
      simp only [DiskSys.rank, hg, hg', hl']
      omega
    | none =>
      refine (erase_step h hp hg hb (hE.imp id fun hr => ?_)).imp ?_
      · rw [hr.1]
        exact Nat.lt_of_le_of_lt (Nat.zero_le _) hr.2
      · rintro - s' ⟨h', hd'⟩
        exact ⟨h', fun _ => .inl hd'⟩

end Xv6.Fs
