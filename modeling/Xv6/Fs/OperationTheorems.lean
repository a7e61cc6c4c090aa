/-
Xv6.Fs.OperationTheorems — operations keep the commit invariant.

§1 processes that read, §2 operations from `begin_op` to `end_op`, §3 crashes.
-/
import Xv6.Fs.CommitInvariant

namespace Xv6.Fs

open Xv6.Lib Function

variable {L : LogLayout} {init : Nat → Block} {A : Finset Nat} {s s' : DiskSys} {P lh : List Nat}
  {current committed disk : Nat → Block} {b k t : Nat} {p : Nat} {i : Fin nbuf} {x : Buf}
  {E : Panic → Prop} {h : Hist} {H : List (Nat × Fin nbuf)} {l : Log} {q n : Nat}
  {f : Block → Block}

/-! ## §1 Processes that read -/

/-- Once the system runs, who holds which buffer is no matter. -/
theorem StageOk.held {ls : LogSys} {g : Stage} {H' : List (Nat × Fin nbuf)}
    (hs : StageOk L init ls h disk H g) (hb : g.booted = true) :
    StageOk L init ls h disk H' g := by
  cases g with
  | readHead => cases hb
  | reinstall t => cases hb
  | run => exact hs
  | log t => exact hs
  | install t => exact hs

/-- Before the system runs nobody has a buffer or is in an operation. -/
theorem Inv.before_run (h : Inv L init A s) (hb : ¬ s.stage.booted = true) :
    s.held = [] ∧ ∀ p, s.ls.doing p = .nothing := by
  have hs := h.stage
  cases hg : s.stage with
  | readHead =>
    rw [hg] at hs
    exact ⟨hs.2.1, fun p => by rw [hs.1]; rfl⟩
  | reinstall t =>
    rw [hg] at hs
    obtain ⟨⟨lh, hl⟩, hheld, -⟩ := hs
    exact ⟨hheld, fun p => by rw [hl]; rfl⟩
  | _ => exact absurd (by rw [hg]; rfl) hb

theorem Inv.booted_of_doing (h : Inv L init A s) (hd : s.ls.doing p ≠ .nothing) :
    s.stage.booted = true := by
  by_contra hb
  exact hd ((h.before_run hb).2 p)

theorem Inv.booted (h : Inv L init A s) (hp : (p, i) ∈ s.held) : s.stage.booted = true := by
  by_contra hb
  rw [(h.before_run hb).1] at hp
  cases hp

theorem Inv.reader (h : Inv L init A s) (s' : DiskSys) (hr : Rest s s') (hd : s'.disk = s.disk)
    (hb : s.stage.booted = true)
    (hc : Cache (overlay s.pins (s.hist.current init) s.disk) H s.pins s')
    (hheld : ∀ {p i}, (p, i) ∈ H → ∃ b, s'.Has i b ∧ L.Home b) :
    Inv L init A { s' with held := H } := by
  have hpins : DiskSys.pins { s' with held := H } = s.pins := by
    simp only [DiskSys.pins, hr.stage, hr.ls]
  refine ⟨hr.ls ▸ h.log, ?_, ?_, ?_, hr.ls ▸ h.lh, hheld, ?_⟩
  · rw [hr.hist, hr.ls]
    exact h.hist
  · intro p
    rw [hr.hist, hr.ls]
    exact h.ops p
  · rw [hpins]
    rw [hr.hist, hd]
    exact ⟨hc.mem, hc.uniq, hc.data, hc.count, hc.owner, hc.pinned⟩
  · rw [hr.ls, hr.hist, hd, hr.stage]
    exact h.stage.held hb

theorem bget_step (h : Inv L init A s) (hE : E .noBuffers) (p b : Nat) :
    Meets E (diskStep L (.bget p b)) s fun _ s' => Inv L init A s' := by
  refine meets_read (meets_ite (fun hb => ?_) (fun _ => meets_pure h))
  refine Meets.seq (bget_spec h.cache p (.inl hE)) ?_
  rintro i s1 ⟨x, rfl, hgot, h1⟩
  refine meets_modify (h.reader (s.setBuf i x) ⟨rfl, rfl, rfl, rfl⟩ rfl hb.1 h1 ?_)
  intro q j hq
  by_cases e : j = i
  · subst e
    exact ⟨b, DiskSys.has_same.mpr ⟨hgot.dev, hgot.blockno⟩, hb.2⟩
  · have hq' : (q, j) ∈ s.held := by
      rcases List.mem_cons.mp hq with hq | hq
      · exact absurd (Prod.mk.inj hq).2 e
      · exact hq
    obtain ⟨c, hc, hhome⟩ := h.held hq'
    exact ⟨c, (DiskSys.has_ne e).mpr hc, hhome⟩

/-- A buffer somebody has asked for can be read from the disk unless it is
valid: a block that differs on the disk is pinned. -/
theorem Inv.readable (h : Inv L init A s) (hi : s.Has i b) :
    (s.buf i).valid = true ∨ s.disk b = overlay s.pins (s.hist.current init) s.disk b := by
  by_cases hb : b ∈ s.pins
  · exact .inl (h.cache.pinned_valid hi hb)
  · exact .inr (overlay_not_mem hb).symm

theorem lock_step (h : Inv L init A s) (p b : Nat) :
    Total (diskStep L (.lock p b)) s fun _ s' => Inv L init A s' := by
  refine meets_read ?_
  cases hc : s.cached b with
  | none => exact meets_pure h
  | some i =>
    have hi := DiskSys.cached_some hc
    refine meets_ite (fun hp => ?_) (fun _ => meets_pure h)
    refine (lockBuf_spec h.cache hi hp.1 (h.readable hi)).imp ?_
    rintro - s1 ⟨x, rfl, hl, h1⟩
    refine h.reader (s.setBuf i x) ⟨rfl, rfl, rfl, rfl⟩ rfl (h.booted hp.1) h1 ?_
    intro q j hq
    by_cases e : j = i
    · subst e
      obtain ⟨c, hc', hhome⟩ := h.held hq
      exact ⟨b, hl.has, hi.2 ▸ hc'.2 ▸ hhome⟩
    · obtain ⟨c, hc', hhome⟩ := h.held hq
      exact ⟨c, (DiskSys.has_ne e).mpr hc', hhome⟩

theorem brelse_step (h : Inv L init A s) (p b : Nat) :
    Total (diskStep L (.brelse p b)) s fun _ s' => Inv L init A s' := by
  refine meets_read ?_
  cases hc : s.cached b with
  | none => exact meets_pure h
  | some i =>
    have hi := DiskSys.cached_some hc
    refine meets_ite (fun hp => ?_) (fun _ => meets_pure h)
    have hmem := h.cache.owner hp
    refine Meets.seq (brelse_spec h.cache (p := p) (b := b) ⟨hi, hp, hmem.2⟩) ?_
    rintro - s1 ⟨h1, hd1, hr1, -, hk1⟩
    refine meets_modify ?_
    rw [hr1.held]
    refine h.reader s1 hr1 hd1 (h.booted hmem.1) h1 ?_
    intro q j hq
    obtain ⟨c, hc', hhome⟩ := h.held (List.mem_of_mem_erase hq)
    exact ⟨c, hk1 j c hc', hhome⟩

/-! ## §2 Operations -/

/-- Outside commits the system is in its normal stage. -/
theorem Inv.run_of_no_commit (h : Inv L init A s) (hb : s.stage.booted = true)
    (hno : ¬ ∃ p, s.ls.doing p = .commit) : s.stage = .run := by
  have hs := h.stage
  cases hg : s.stage with
  | readHead => rw [hg] at hb; cases hb
  | reinstall t => rw [hg] at hb; cases hb
  | run => rfl
  | log t => rw [hg] at hs; exact absurd hs.1 hno
  | install t => rw [hg] at hs; exact absurd hs.1 hno

theorem Inv.run_stage (h : Inv L init A s) (hb : s.stage.booted = true)
    (hc : s.ls.log.committing = false) : s.stage = .run := by
  refine h.run_of_no_commit hb ?_
  rintro ⟨p, hp⟩
  rw [h.log.committing p (by rw [hp]; rfl)] at hc
  cases hc

theorem Inv.staged {g : Stage} (h : Inv L init A s) (hg : s.stage = g) :
    StageOk L init s.ls s.hist s.disk s.held g :=
  hg ▸ h.stage

theorem Inv.pins_run (hg : s.stage = .run) : s.pins = s.ls.log.lh := by
  unfold DiskSys.pins
  rw [hg]

theorem Inv.op_none (h : Inv L init A s) (hd : (s.ls.doing p).isOp = false) :
    s.hist.op p = none := by
  have := h.ops p
  rw [hd] at this
  simpa using this

/-- The cache depends only on the buffers. -/
theorem Cache.congr {view : Nat → Block} (h : Cache view H P s) (hbuf : s'.buf = s.buf)
    (hord : s'.order = s.order) : Cache view H P s' := by
  have hhas : ∀ {i b}, s'.Has i b ↔ s.Has i b := by
    intro i b
    rw [DiskSys.Has, hbuf, DiskSys.Has]
  refine ⟨fun i => hord ▸ h.mem i, fun h1 h2 => h.uniq (hhas.mp h1) (hhas.mp h2),
    fun h1 h2 => ?_, fun i => ?_, fun h1 => ?_, fun b hb => ?_⟩
  · rw [hbuf] at h2 ⊢
    exact h.data (hhas.mp h1) h2
  · rw [hbuf]
    exact h.count i
  · rw [hbuf] at h1 ⊢
    exact h.owner h1
  · obtain ⟨i, hi, hv⟩ := h.pinned b hb
    exact ⟨i, hhas.mpr hi, by rw [hbuf]; exact hv⟩

theorem beginOp_some {l' : Log} (h : beginOp l = some l') :
    l'.lh = l.lh ∧ l.committing = false := by
  unfold beginOp at h
  split at h
  · cases h
  · rename_i hc
    split at h
    · cases h
    · cases h
      exact ⟨rfl, by simpa using hc⟩

theorem Hist.begin_op_self : (h.begin p).op p = some h.next := update_self ..

theorem Hist.begin_op_ne (hne : q ≠ p) : (h.begin p).op q = h.op q := update_of_ne hne ..

/-- A new operation has no changes yet. -/
theorem Hist.begin_current (init : Nat → Block) (hok : HistOk h lh) (hp : h.op p = none) :
    (h.begin p).current init = h.current init := by
  refine replay_congr fun e he => ?_
  have hlt := hok.events e he
  refine Hist.live_congr (or_congr Iff.rfl (or_congr Iff.rfl ⟨?_, ?_⟩))
  · rintro ⟨q, hq⟩
    by_cases e' : q = p
    · subst e'
      rw [Hist.begin_op_self, Option.some.injEq] at hq
      omega
    · rw [Hist.begin_op_ne e'] at hq
      exact ⟨q, hq⟩
  · rintro ⟨q, hq⟩
    refine ⟨q, ?_⟩
    rw [Hist.begin_op_ne]
    · exact hq
    · rintro rfl
      rw [hp] at hq
      cases hq

theorem HistOk.begin (hok : HistOk h lh) (hp : h.op p = none) :
    HistOk (h.begin p) lh where
  events e he := Nat.lt_succ_of_lt (hok.events e he)
  done n hn := Nat.lt_succ_of_lt (hok.done n hn)
  ended n hn := ⟨Nat.lt_succ_of_lt (hok.ended n hn).1, (hok.ended n hn).2⟩
  op := by
    intro q n hq
    by_cases e : q = p
    · subst e
      rw [Hist.begin_op_self, Option.some.injEq] at hq
      subst hq
      exact ⟨Nat.lt_succ_self _, fun hd => Nat.lt_irrefl _ (hok.done _ hd),
        fun hd => Nat.lt_irrefl _ (hok.ended _ hd).1⟩
    · rw [Hist.begin_op_ne e] at hq
      exact ⟨Nat.lt_succ_of_lt (hok.op hq).1, (hok.op hq).2⟩
  inj := by
    have hfresh : ∀ {q}, h.op q ≠ some h.next := fun hq => Nat.lt_irrefl _ (hok.op hq).1
    intro q r n hq hr
    by_cases e : q = p <;> by_cases e' : r = p
    · rw [e, e']
    · subst e
      rw [Hist.begin_op_self, Option.some.injEq] at hq
      rw [Hist.begin_op_ne e'] at hr
      exact absurd (hq ▸ hr) hfresh
    · subst e'
      rw [Hist.begin_op_self, Option.some.injEq] at hr
      rw [Hist.begin_op_ne e] at hq
      exact absurd (hr ▸ hq) hfresh
    · rw [Hist.begin_op_ne e] at hq
      rw [Hist.begin_op_ne e'] at hr
      exact hok.inj hq hr
  logged := by
    rintro e he (hend | ⟨q, hq⟩)
    · exact hok.logged e he (.inl hend)
    · by_cases e' : q = p
      · subst e'
        rw [Hist.begin_op_self, Option.some.injEq] at hq
        have := hok.events e he
        omega
      · rw [Hist.begin_op_ne e'] at hq
        exact hok.logged e he (.inr ⟨q, hq⟩)

theorem begin_step (h : Inv L init A s) (p : Nat) :
    Total (diskStep L (.begin p)) s fun _ s' => ∃ B, Inv L init B s' := by
  refine meets_read ?_
  cases hb : s.stage.booted with
  | false => exact meets_pure ⟨A, h⟩
  | true =>
    cases hd : s.ls.doing p with
    | nothing =>
      cases hl : beginOp s.ls.log with
      | none => exact meets_pure ⟨A, h⟩
      | some l =>
        obtain ⟨hlh, hc⟩ := beginOp_some hl
        have hg := h.run_stage hb hc
        have hop : s.hist.op p = none := h.op_none (by rw [hd]; rfl)
        have hcur := Hist.begin_current init h.hist hop
        obtain ⟨hno, hdisk, hclean⟩ := h.staged hg
        refine meets_set ⟨insert p A, ⟨h.log.begin hd hl, ?_, fun q => ?_, ?_, ?_, h.held, ?_⟩⟩
        · show HistOk _ l.lh
          rw [hlh]
          exact h.hist.begin hop
        · by_cases e : q = p
          · subst e
            rw [LogSys.set_same, Hist.begin_op_self]
            rfl
          · rw [LogSys.set_ne e, Hist.begin_op_ne e]
            exact h.ops q
        · have hpins : DiskSys.pins
              { s with ls := s.ls.set l p (.op []), hist := s.hist.begin p } = s.pins := by
            rw [Inv.pins_run hg, Inv.pins_run (by exact hg)]
            exact hlh
          rw [hpins]
          rw [hcur]
          exact h.cache.congr rfl rfl
        · show HeadOk L l.lh
          rw [hlh]
          exact h.lh
        · rw [hg]
          refine ⟨LogSys.set_ne_commit (by rintro ⟨⟩) fun q _ => hno q, hdisk, ?_⟩
          show Clean L l.lh _ _
          rw [hcur, hlh]
          exact hclean
    | _ => exact meets_pure ⟨A, h⟩

/-! ### Changing a block -/

theorem Hist.add_current (init : Nat → Block) (hp : h.op p = some n) :
    (h.add ⟨n, b, f⟩).current init =
      update (h.current init) b (f (h.current init b)) := by
  have hlive : h.live n = true := by
    exact Hist.live_iff.mpr (.inr (.inr ⟨p, hp⟩))
  exact replay_snoc (e := ⟨n, b, f⟩) hlive

theorem Hist.add_committed (hn : n ∉ h.done) :
    (h.add ⟨n, b, f⟩).committed init = h.committed init :=
  replay_snoc_skip (e := ⟨n, b, f⟩) (decide_eq_false hn)

theorem HistOk.add {lh' : List Nat} (hok : HistOk h lh) (hp : h.op p = some n)
    (hsub : ∀ c ∈ lh, c ∈ lh') (hb : b ∈ lh') :
    HistOk (h.add ⟨n, b, f⟩) lh' where
  events e he := by
    rcases List.mem_append.mp he with he | he
    · exact hok.events e he
    · rw [List.mem_singleton.mp he]
      exact (hok.op hp).1
  done := hok.done
  ended := hok.ended
  op := hok.op
  inj := hok.inj
  logged e he hx := by
    rcases List.mem_append.mp he with he | he
    · exact hsub _ (hok.logged e he hx)
    · rw [List.mem_singleton.mp he]
      exact hb

/-- A change to a logged block is a change to the current contents. -/
theorem overlay_change {lh' : List Nat} {d : Block} (hmem : ∀ c, c ∈ lh' ↔ c ∈ lh ∨ c = b) :
    update (overlay lh current disk) b d = overlay lh' (update current b d) disk := by
  funext c
  by_cases e : c = b
  · subst e
    rw [update_self, overlay_mem ((hmem c).mpr (.inr rfl)), update_self]
  · rw [update_of_ne e]
    by_cases hc : c ∈ lh
    · rw [overlay_mem hc, overlay_mem ((hmem c).mpr (.inl hc)), update_of_ne e]
    · rw [overlay_not_mem hc, overlay_not_mem]
      exact fun hx => ((hmem c).mp hx).elim hc e

/-- The state after a process changed and logged block `b`. -/
theorem Inv.change {A' : Finset Nat} {bs : List Nat} (h : Inv L init A s) (hg : s.stage = .run)
    (hi : s.Has i b) (hhome : L.Home b) (hop : s.hist.op p = some n)
    (hd : (s.ls.doing p).isOp = true) (hlog : LogInv A' (s.ls.set l p (.op bs)))
    (hmem : ∀ c, c ∈ l.lh ↔ c ∈ s.ls.log.lh ∨ c = b) (hnodup : l.lh.Nodup)
    (hcache : Cache (update (overlay s.ls.log.lh (s.hist.current init) s.disk) b
      (f (s.hist.current init b))) s.held l.lh (s.setBuf i x))
    (hx : x.dev = (s.buf i).dev ∧ x.blockno = (s.buf i).blockno) :
    Inv L init A' { s.setBuf i x with
      ls := s.ls.set l p (.op bs), hist := s.hist.add ⟨n, b, f⟩ } := by
  obtain ⟨hno, hdisk, hclean⟩ := h.staged hg
  have hcur := Hist.add_current init (b := b) (f := f) hop
  refine ⟨hlog, h.hist.add hop (fun c hc => (hmem c).mpr (.inl hc)) ((hmem b).mpr (.inr rfl)),
    fun q => ?_, ?_, ⟨fun c hc => ?_, hnodup, ?_⟩, fun {q j} hq => ?_, ?_⟩
  · show (s.hist.op q).isSome = _
    rw [h.ops q]
    by_cases e : q = p
    · subst e
      rw [LogSys.set_same, hd]
      rfl
    · rw [LogSys.set_ne e]
  · rw [Inv.pins_run (by exact hg)]
    rw [hcur, LogSys.set_log, DiskSys.setBuf_disk, ← overlay_change hmem]
    exact hcache.congr rfl rfl
  · rcases (hmem c).mp hc with hc | rfl
    · exact h.lh.home c hc
    · exact hhome
  · exact (Nat.le_add_right _ _).trans hlog.room
  · obtain ⟨c, hc, hch⟩ := h.held hq
    refine ⟨c, ?_, hch⟩
    show (s.setBuf i x).Has j c
    by_cases e : j = i
    · subst e
      rw [DiskSys.has_same, hx.1, hx.2]
      exact hc
    · rw [DiskSys.has_ne e]
      exact hc
  · show StageOk L init _ _ _ _ s.stage
    rw [hg]
    refine ⟨LogSys.set_ne_commit (by rintro ⟨⟩) fun q _ => hno q, ?_, fun c hc hcl => ?_⟩
    · rw [Hist.add_committed (h.hist.op hop).2.1]
      exact hdisk
    · have hcl' : c ∉ s.ls.log.lh ∧ c ≠ b := by
        rw [LogSys.set_log, hmem, not_or] at hcl
        exact hcl
      rw [hcur, update_of_ne hcl'.2]
      exact hclean c hc hcl'.1

theorem change_step (h : Inv L init A s) (hE : E .tooBig) (p b : Nat) (f : Block → Block) :
    Meets E (diskStep L (.change p b f)) s fun _ s' => Inv L init A s' := by
  refine meets_read ?_
  cases hc : s.cached b with
  | none => exact meets_pure h
  | some i =>
    cases hd : s.ls.doing p with
    | op bs =>
      cases hop : s.hist.op p with
      | none => exact meets_pure h
      | some n =>
        refine meets_ite (fun hcond => ?_) (fun _ => meets_pure h)
        have hi := DiskSys.cached_some hc
        obtain ⟨hheld, hvalid⟩ := h.cache.owner hcond.1
        have hhome : L.Home b := by
          obtain ⟨c, hc', hch⟩ := h.held hheld
          rw [← hi.2, hc'.2]
          exact hch
        have hg := h.run_stage (h.booted hheld) (h.log.not_committing (h.log.mem hd))
        have hclean := (h.staged hg).2.2
        -- what the buffer holds is the current contents of the block
        have hdata : (s.buf i).data = s.hist.current init b := by
          rw [h.cache.data hi hvalid, Inv.pins_run hg]
          by_cases hb : b ∈ s.ls.log.lh
          · exact overlay_mem hb
          · rw [overlay_not_mem hb, hclean b hhome hb]
        have hcache := h.cache.write hi (f (s.hist.current init b))
        rw [Inv.pins_run hg] at hcache
        refine meets_update ?_
        dsimp only
        rw [hdata]
        by_cases hlt : s.ls.log.lh.length < logblocks
        · obtain ⟨l, new, hl, hlog⟩ := h.log.logWrite hd hcond.2 hlt
          have hlw := hl
          rw [hl]
          unfold Fs.logWrite at hlw
          rw [if_neg (by omega)] at hlw
          split at hlw
          · cases hlw
          split at hlw
          · rename_i hb
            cases hlw
            refine Meets.bind (meets_lift_ok (meets_update (meets_modify ?_)))
            exact h.change hg hi hhome hop (by rw [hd]; rfl) hlog
              (fun c => ⟨.inl, fun hc' => hc'.elim id fun e => e ▸ hb⟩) h.lh.nodup hcache
              ⟨rfl, rfl⟩
          · rename_i hb
            cases hlw
            refine Meets.bind (meets_lift_ok (Meets.bind (meets_modify
              (meets_update (meets_modify ?_)))))
            have hi' : (s.setBuf i { s.buf i with data := f (s.hist.current init b) }).Has i b :=
              DiskSys.has_same.mpr hi
            have hpin := hcache.pin hi' (by rw [DiskSys.setBuf_same]; exact hvalid) hb
            rw [DiskSys.setBuf_same, DiskSys.setBuf_setBuf] at hpin
            have hinv := h.change hg hi hhome hop (by rw [hd]; rfl) hlog
              (fun c => by rw [List.mem_append, List.mem_singleton])
              (List.nodup_append.mpr ⟨h.lh.nodup, List.nodup_singleton b, fun c hc' d hd' e =>
                hb (by rw [List.mem_singleton.mp hd'] at e; exact e ▸ hc')⟩) hpin ⟨rfl, rfl⟩
            dsimp only [DiskSys.setBuf] at hinv ⊢
            rw [update_self, update_idem]
            exact hinv
        · have hpanic : Fs.logWrite b s.ls.log = .error .tooBig := if_pos (by omega)
          rw [hpanic]
          exact Meets.bind (meets_lift_error hE)
    | _ => exact meets_pure h

/-! ### Ending an operation -/

theorem Hist.finish_op_self : (h.finish p n).op p = none := update_self ..

theorem Hist.finish_op_ne (hne : q ≠ p) : (h.finish p n).op q = h.op q := update_of_ne hne ..

theorem Hist.finish_running {m : Nat} (hq : (h.finish p n).op q = some m) :
    q ≠ p ∧ h.op q = some m := by
  by_cases e : q = p
  · subst e
    rw [Hist.finish_op_self] at hq
    cases hq
  · rw [Hist.finish_op_ne e] at hq
    exact ⟨e, hq⟩

/-- An operation that waits for its commit is as visible as before. -/
theorem Hist.finish_current (init : Nat → Block) (hp : h.op p = some n) :
    (h.finish p n).current init = h.current init := by
  refine replay_congr fun e _ => Hist.live_congr (or_congr Iff.rfl ?_)
  constructor
  · rintro (hend | ⟨q, hq⟩)
    · rcases List.mem_append.mp hend with hend | hend
      · exact .inl hend
      · exact .inr ⟨p, by rw [List.mem_singleton.mp hend]; exact hp⟩
    · exact .inr ⟨q, (Hist.finish_running hq).2⟩
  · rintro (hend | ⟨q, hq⟩)
    · exact .inl (List.mem_append_left _ hend)
    · by_cases e : q = p
      · subst e
        rw [hp, Option.some.injEq] at hq
        exact .inl (List.mem_append_right _ (List.mem_singleton.mpr hq.symm))
      · exact .inr ⟨q, by rw [Hist.finish_op_ne e]; exact hq⟩

theorem HistOk.finish (hok : HistOk h lh) (hp : h.op p = some n) : HistOk (h.finish p n) lh where
  events := hok.events
  done := hok.done
  ended m hm := by
    rcases List.mem_append.mp hm with hm | hm
    · exact hok.ended m hm
    · rw [List.mem_singleton.mp hm]
      exact ⟨(hok.op hp).1, (hok.op hp).2.1⟩
  op := by
    intro q m hq
    obtain ⟨hne, hq⟩ := Hist.finish_running hq
    obtain ⟨h1, h2, h3⟩ := hok.op hq
    refine ⟨h1, h2, fun hm => ?_⟩
    rcases List.mem_append.mp hm with hm | hm
    · exact h3 hm
    · rw [List.mem_singleton.mp hm] at hq
      exact hne (hok.inj hq hp)
  inj := fun hq hr => hok.inj (Hist.finish_running hq).2 (Hist.finish_running hr).2
  logged e he hx := by
    refine hok.logged e he ?_
    rcases hx with hx | ⟨q, hq⟩
    · rcases List.mem_append.mp hx with hx | hx
      · exact .inl hx
      · exact .inr ⟨p, by rw [List.mem_singleton.mp hx]; exact hp⟩
    · exact .inr ⟨q, (Hist.finish_running hq).2⟩

theorem endOp_lh {l' : Log} {c : Bool} (h : endOp l = .ok (l', c)) : l'.lh = l.lh := by
  unfold endOp at h
  dsimp only at h
  split at h
  · cases h
  · split at h <;> cases h <;> rfl

theorem finish_step (h : Inv L init A s) (p : Nat) :
    Total (diskStep L (.finish p)) s fun _ s' => ∃ B, Inv L init B s' := by
  refine meets_read ?_
  cases hd : s.ls.doing p with
  | op bs =>
    cases hop : s.hist.op p with
    | none => exact meets_pure ⟨A, h⟩
    | some n =>
      obtain ⟨l, c, hl, hlog⟩ := h.log.finish hd
      have hb := h.booted_of_doing (by rw [hd]; rintro ⟨⟩)
      have hg := h.run_stage hb (h.log.not_committing (h.log.mem hd))
      obtain ⟨hno, hdisk, hclean⟩ := h.staged hg
      have hcur := Hist.finish_current init hop
      have hlh := endOp_lh hl
      -- the new state, in either stage
      have key : ∀ g : Stage, (∀ s' : DiskSys, s'.stage = g → s'.pins = s'.ls.log.lh) →
          StageOk L init (s.ls.set l p (if c then .commit else .nothing)) (s.hist.finish p n)
            s.disk s.held g →
          Inv L init (A.erase p) { s with
            ls := s.ls.set l p (if c then .commit else .nothing)
            hist := s.hist.finish p n
            stage := g } := by
        intro g hpins hstage
        refine ⟨hlog, ?_, fun q => ?_, ?_, ?_, h.held, hstage⟩
        · show HistOk _ l.lh
          rw [hlh]
          exact h.hist.finish hop
        · by_cases e : q = p
          · subst e
            rw [Hist.finish_op_self, LogSys.set_same]
            cases c <;> rfl
          · rw [Hist.finish_op_ne e, LogSys.set_ne e, h.ops q]
        · rw [hpins _ rfl]
          rw [hcur, LogSys.set_log, hlh, ← Inv.pins_run hg]
          exact h.cache.congr rfl rfl
        · show HeadOk L l.lh
          rw [hlh]
          exact h.lh
      have hclean' : Clean L (s.ls.set l p (if c then .commit else .nothing)).log.lh
          ((s.hist.finish p n).current init) s.disk := by
        rw [hcur, LogSys.set_log, hlh]
        exact hclean
      rw [hl]
      refine Meets.bind (meets_lift_ok (meets_update (meets_update ?_)))
      cases c with
      | true =>
        refine meets_modify ⟨_, key (.log 0) (fun s' hs' => ?_) ?_⟩
        · unfold DiskSys.pins
          rw [hs']
        · exact ⟨⟨p, LogSys.set_same⟩, hdisk, hclean', Nat.zero_le _,
            fun k b hk => absurd hk (Nat.not_lt_zero k)⟩
      | false =>
        refine meets_pure ⟨A.erase p, ?_⟩
        have hinv := key .run (fun s' hs' => Inv.pins_run hs')
          ⟨LogSys.set_ne_commit (by rintro ⟨⟩) fun q _ => hno q, hdisk, hclean'⟩
        rw [← hg] at hinv
        exact hinv
  | _ => exact meets_pure ⟨A, h⟩

theorem return_step (h : Inv L init A s) (p : Nat) :
    Total (diskStep L (.return p)) s fun _ s' => ∃ B, Inv L init B s' := by
  refine meets_read ?_
  cases hd : s.ls.doing p with
  | erased =>
    refine meets_modify ⟨A, h.log.return hd, h.hist, fun q => ?_, ?_, h.lh, h.held, ?_⟩
    · rw [h.ops q]
      by_cases e : q = p
      · subst e
        rw [LogSys.set_same, hd]
        rfl
      · rw [LogSys.set_ne e]
    · exact h.cache.congr rfl rfl
    · have hg : s.stage = .run := by
        refine h.run_of_no_commit (h.booted_of_doing (by rw [hd]; rintro ⟨⟩)) ?_
        rintro ⟨q, hq⟩
        have := h.log.one q p (by rw [hq]; rfl) (by rw [hd]; rfl)
        rw [this, hd] at hq
        cases hq
      obtain ⟨hno, hdisk⟩ := h.staged hg
      rw [hg]
      exact ⟨LogSys.set_ne_commit (by rintro ⟨⟩) fun q _ => hno q, hdisk⟩
  | _ => exact meets_pure ⟨A, h⟩

/-! ## §3 Crashes -/

theorem Cache.boot {view : Nat → Block} : Cache view [] [] (.boot disk h) where
  mem i := List.mem_reverse.mpr (List.mem_finRange i)
  uniq h1 := by cases h1.1
  data h1 := by cases h1.1
  count i := rfl
  owner h1 := by cases h1
  pinned b hb := by cases hb

theorem HistOk.crash (hok : HistOk h lh) : HistOk h.crash [] where
  events := hok.events
  done := hok.done
  ended n hn := by cases hn
  op hn := by cases hn
  inj hn := by cases hn
  logged e _ hx := by
    rcases hx with hx | ⟨q, hq⟩
    · cases hx
    · cases hq

/-- At every point the disk has all it takes to recover. -/
theorem Inv.recoverable (h : Inv L init A s) :
    ∃ lh, HeadOk L lh ∧ DiskOk L lh 0 (s.hist.committed init) s.disk := by
  have hs := h.stage
  have hdrop : ∀ {lh t}, DiskOk L lh t (s.hist.committed init) s.disk →
      DiskOk L lh 0 (s.hist.committed init) s.disk := by
    intro lh t hok
    refine ⟨hok.head, fun b hb hmem => hok.home b hb fun hx => ?_, hok.log⟩
    exact hmem (List.mem_of_mem_drop hx)
  cases hg : s.stage with
  | readHead =>
    rw [hg] at hs
    exact hs.2.2.2
  | reinstall t =>
    rw [hg] at hs
    exact ⟨_, h.lh, hdrop hs.2.2.2.2⟩
  | run =>
    rw [hg] at hs
    exact ⟨[], .nil, hs.2.1⟩
  | log t =>
    rw [hg] at hs
    exact ⟨[], .nil, hs.2.1⟩
  | install t =>
    rw [hg] at hs
    exact ⟨_, h.lh, hdrop hs.2.2.2⟩

theorem crash_step (h : Inv L init A s) :
    Total (diskStep L .crash) s fun _ s' =>
      Inv L init ∅ s' ∧ s'.stage = .readHead ∧ s'.hist = s.hist.crash := by
  refine meets_modify ⟨⟨LogInv.start, h.hist.crash, fun p => rfl, Cache.boot, .nil,
    fun hp => absurd hp List.not_mem_nil, ?_⟩, rfl, rfl⟩
  exact ⟨rfl, rfl, ⟨fun _ => rfl, rfl⟩, h.recoverable⟩

end Xv6.Fs
