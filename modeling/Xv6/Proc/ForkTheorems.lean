/-
Xv6.Proc.ForkTheorems — a new process appears with its parent.

Each step keeps the invariant and has one of four effects on the zombies and
on the trace. §1 effects, §2 the steps of `kfork`.
-/
import Xv6.Lib.RefCount
import Xv6.Proc.WaitInvariant

namespace Xv6.Wait

open Xv6.Lib Function
open Xv6.Vm (nproc)

variable {s s' : State} {p q i j np : Fin nproc} {c c' : Pc} {x : Proc} {addr k : Nat}
  {status : Int} {bad : Prop} {o : Option (Fin nproc)}

/-! ## §1 Effects -/

/-- The pid and status that slot `i` holds for `kwait`. -/
def State.left (s : State) (i : Fin nproc) : Option (Nat × Int) :=
  if (s.procs i).state = .zombie then some ((s.procs i).pid, (s.procs i).xstate) else none

/-- `kwait` of process `q` has a reason to return -1; `bad` if the status
could not be copied out. -/
def State.mayFail (s : State) (q : Fin nproc) (bad : Prop) : Prop :=
  (∀ i, (s.procs i).parent ≠ some q) ∨ (s.procs q).killed = true ∨
    bad ∧ ∃ i, (s.procs i).parent = some q ∧ (s.procs i).state = .zombie

/-- What a step does to the zombies and to the trace. -/
inductive Effect (bad : Prop) (s s' : State) : Prop where
  | none (trace : s'.trace = s.trace) (left : s'.left = s.left)
  | failed (q : Fin nproc) (trace : s'.trace = s.trace ++ [.failed q]) (left : s'.left = s.left)
      (why : s.mayFail q bad)
  | exited (p : Fin nproc) (pid : Nat) (status : Int)
      (trace : s'.trace = s.trace ++ [.exited pid status])
      (fresh : s.left p = .none) (left : s'.left = update s.left p (some (pid, status)))
  | waited (q i : Fin nproc) (pid : Nat) (xstate : Int) (stored : Bool)
      (trace : s'.trace = s.trace ++ [.waited q pid xstate stored])
      (call : ∃ addr k havekids, s.pc q = .scan addr k havekids ∧ stored = decide (addr ≠ 0))
      (parent : (s.procs i).parent = some q) (was : s.left i = some (pid, xstate))
      (left : s'.left = update s.left i .none)

/-- A record that is not a zombie's, before and after. -/
theorem left_setProc (h : (s.procs i).state ≠ .zombie) (hx : x.state ≠ .zombie) :
    (s.setProc i x).left = s.left := by
  funext q
  by_cases e : q = i
  · subst e
    simp [State.left, h, hx]
  · simp [State.left, State.setProc_ne e]

theorem left_soft (h : Soft (s.procs i) x) : (s.setProc i x).left = s.left := by
  funext q
  by_cases e : q = i
  · subst e
    simp only [State.left, State.setProc_self, h.pid, h.xstate]
    exact if_congr (h.kept (by simp) (by simp)) rfl rfl
  · simp [State.left, State.setProc_ne e]

theorem slot_some (h : slot k = some i) : k = i.val := by
  unfold slot at h
  split at h
  · cases h
    rfl
  · cases h

theorem slot_none (h : slot k = none) : ∀ i : Fin nproc, i.val < k := by
  unfold slot at h
  split at h
  · cases h
  · omega

/-! ## §2 `kfork` -/

/-- At a place without a lock or a child little is to be known. -/
theorem At.plain (hfits : c.fits (s.procs p).state) (hlock : s.lock ≠ some p)
    (hholds : c.holds = false) (hchan : ∀ addr, c ≠ .asleep addr) (hchild : c.child = none) :
    At s p c where
  fits := hfits
  lock := by simp [hholds, hlock]
  chan addr hc := absurd hc (hchan addr)
  child np hc := by simp [hchild] at hc
  fresh np hc := by simp [hc, Pc.child] at hchild
  started np hc := by simp [hc, Pc.child] at hchild
  knows := knows_of_not_holds hholds

theorem Inv.unlocked (h : Inv s) (hp : s.pc p = c) (hc : c.holds = false) : s.lock ≠ some p := by
  intro hl
  rw [(h.at_pc hp).lock.mpr hl] at hc
  cases hc

theorem Inv.not_waking (hp : s.pc p = c) (hc : ∀ status k j, c ≠ .wakeInit status k j)
    {P : Prop} : ∀ status k j, s.pc p = .wakeInit status k j → j ≤ s.initproc.val →
      s.dozes s.initproc → P :=
  fun status k j he => absurd (hp.symm.trans he) (hc status k j)

/-- A running process goes on at a place without a lock. -/
theorem Inv.goto_plain (h : Inv s) (hp : s.pc p = c) (hrun : (s.procs p).state = .running)
    (hc : c.holds = false) (hc' : c'.holds = false) (hfits : c'.fits .running)
    (hchan : ∀ addr, c' ≠ .asleep addr) (hchild : c'.child = none)
    (hexits : p = s.initproc → c'.exits = false) : Inv (s.goto p c') :=
  h.goto hchan (.plain (hrun ▸ hfits) (h.unlocked hp hc) hc' hchan hchild)
    (fun np hnp => by simp [hchild] at hnp) hexits
    (Inv.not_waking hp (by rintro _ _ _ rfl; cases hc))

/-- An unused slot changes, and stays unused or becomes a new process's. -/
theorem Inv.slot (h : Inv s) (hu : (s.procs i).state = .unused)
    (hx : x.state = .used ∨ x.state = .unused) (hpar : x.parent = none)
    (hc : c = .user ∨ c = .dead ∧ x.state = .unused) : Inv ((s.setProc i x).goto i c) := by
  have hnone := h.tree.orphan i hu
  have hne : ∀ np, (s.procs np).state ≠ .unused → np ≠ i := by
    rintro np hn rfl
    exact hn hu
  have hlock : s.lock ≠ some i := by
    intro hl
    have hfits := (h.places i).fits
    have hholds := (h.places i).lock.mpr hl
    cases hc : s.pc i <;> simp_all [Pc.fits, Pc.holds]
  have hx' : ¬ x.alive ∧ x.state ≠ .zombie := by
    rcases hx with e | e <;> simp [Proc.alive, e]
  have hcalm : Calm s ((s.setProc i x).goto i c) := by
    refine ⟨rfl, fun q => ?_, fun q hz => ?_, fun q hd => ?_⟩
    · exact State.setProc_parent (hpar.trans hnone.symm) q
    · by_cases e : q = i
      · subst e
        simp [hx'] at hz
      · simpa [State.setProc_ne e] using hz
    · have e : q ≠ i := by
        rintro rfl
        rcases hc with rfl | ⟨rfl, -⟩ <;> simpa using hd.1
      simpa [State.dozes, State.setProc_ne e, State.goto_ne e] using hd
  refine h.quiet (p := i) ⟨hcalm, fun q ha => ?_, fun q ha => .inl ?_, fun q hq => ?_, ?_⟩
    (fun q hq => State.goto_ne hq) (fun q hq => ?_) ?_ ?_ ?_
  · have e := hne q ha.not_unused
    simpa [State.setProc_ne e] using ha
  · have e : q ≠ i := by
      rintro rfl
      simp [hx'] at ha
    simpa [State.setProc_ne e] using ha
  · by_cases e : q = i
    · exact e ▸ hu
    · simpa [State.setProc_ne e] using hq
  · rintro ⟨q, status, k, j, hq, hj⟩ -
    have e : q ≠ i := by
      rintro rfl
      have := (h.at_pc hq).fits
      simp [hu, Pc.fits] at this
    exact ⟨q, status, k, j, (State.goto_ne e).trans hq, hj⟩
  · exact .other (fun r hr => State.setProc_ne hr) hq Iff.rfl (h.child_ne (by simp [hu]))
      fun _ => hcalm
  · rw [State.goto_self]
    rcases hc with rfl | ⟨rfl, e⟩
    · refine .plain ?_ hlock rfl (by simp) rfl
      rcases hx with e | e <;> simp [Pc.fits, e]
    · exact .plain (by simp [Pc.fits, e]) hlock rfl (by simp) rfl
  · rcases hc with rfl | ⟨rfl, -⟩ <;> simp [Pc.child]
  · rintro rfl
    exact absurd hu h.tree.alive.not_unused

/-- An unused slot has no process, or a process that has ended. -/
theorem Pc.fits_unused (h : c.fits .unused) : c = .user ∨ c = .dead := by
  cases c <;> simp_all [Pc.fits]

/-- A slot that is freed again. -/
theorem Inv.refree (h : Inv s) (hu : (s.procs i).state = .unused) (hx : x.state = .unused)
    (hpar : x.parent = none) : Inv (s.setProc i x) := by
  have hpc := Pc.fits_unused (hu ▸ (h.places i).fits)
  have h1 := h.slot (c := s.pc i) hu (.inr hx) hpar (hpc.imp id fun e => ⟨e, hx⟩)
  rwa [show (s.setProc i x).goto i (s.pc i) = s.setProc i x from State.goto_same] at h1

theorem alloc_step (h : Inv s) (hp : s.pc p = .alloc k) (hrun : (s.procs p).state = .running)
    (ok : Bool) :
    Inv (allocStep p k ok s) ∧ Effect bad s (allocStep p k ok s) := by
  unfold allocStep
  cases hk : slot k with
  | none =>
    exact ⟨h.goto_plain hp hrun rfl rfl (by simp [Pc.fits]) (by simp) rfl (by simp [Pc.exits]),
      .none rfl rfl⟩
  | some i =>
    dsimp only
    split
    · rename_i hu
      have h0 : Inv { s with nextpid := s.nextpid + 1, blamed := update s.blamed i false } :=
        h.congr rfl rfl rfl rfl
      have hne : p ≠ i := by
        rintro rfl
        rw [hu] at hrun
        cases hrun
      split
      · refine ⟨?_, .none rfl (left_setProc (by simp [hu]) (by simp))⟩
        refine Inv.goto (h0.slot hu (.inl rfl) (h.tree.orphan i hu) (.inl rfl)) (by simp) ?_
          (fun np hnp => .inl fun r hr => ?_) (by simp [Pc.exits]) ?_
        · refine ⟨?_, ?_, by simp, fun np hnp => ?_, fun np hnp => ?_, by simp, trivial⟩
          · simp [State.setProc_ne hne, hrun, Pc.fits]
          · simpa [Pc.holds] using h.unlocked hp rfl
          · cases hnp
            simp
          · cases hnp
            simpa using h.tree.orphan i hu
        · cases hnp
          by_cases e : r = i
          · subst e
            simp [Pc.child] at hr
          · rw [State.goto_ne e] at hr
            have := (h.places r).child i hr
            simp [hu] at this
        · refine Inv.not_waking (c := .alloc k) ?_ (by simp)
          rw [State.goto_ne hne]
          exact hp
      · refine ⟨?_, .none rfl (left_setProc (by simp [hu]) (by simp [Proc.freed]))⟩
        have h1 := h0.refree hu (x := Proc.freed { s.procs i with
          pid := s.nextpid, state := .used, priority := defaultPriority, readySince := 0 }) rfl rfl
        exact h1.goto_plain hp (by simp [State.setProc_ne hne, hrun]) rfl rfl (by simp [Pc.fits])
          (by simp) rfl (by simp [Pc.exits])
    · exact ⟨h.goto_plain hp hrun rfl rfl (by simp [Pc.fits]) (by simp) rfl (by simp [Pc.exits]),
        .none rfl rfl⟩

/-- A new parent for slot `i`. -/
theorem state_parent :
    ((s.setProc i { s.procs i with parent := o }).procs q).state = (s.procs q).state := by
  by_cases e : q = i
  · subst e
    simp
  · rw [State.setProc_ne e]

theorem alive_parent :
    ((s.setProc i { s.procs i with parent := o }).procs q).alive ↔ (s.procs q).alive := by
  simp only [Proc.alive, state_parent]

theorem chan_parent :
    ((s.setProc i { s.procs i with parent := o }).procs q).chan = (s.procs q).chan := by
  by_cases e : q = i
  · subst e
    simp
  · rw [State.setProc_ne e]

theorem dozes_parent (hd : (s.setProc i { s.procs i with parent := o }).dozes q) : s.dozes q :=
  ⟨hd.1, state_parent.symm.trans hd.2⟩

/-- Slot `i` gets the living parent `j`. -/
theorem Tree.setParent (h : Tree s) (hj : (s.procs j).alive) (hi : (s.procs i).state ≠ .unused) :
    Tree (s.setProc i { s.procs i with parent := some j }) where
  parent a b hab := by
    rw [alive_parent]
    by_cases e : a = i
    · subst e
      simp only [State.setProc_self, Option.some.injEq] at hab
      exact hab ▸ hj
    · rw [State.setProc_ne e] at hab
      exact h.parent a b hab
  orphan a ha := by
    rw [state_parent] at ha
    have e : a ≠ i := by
      rintro rfl
      exact hi ha
    rw [State.setProc_ne e]
    exact h.orphan a ha
  family a ha hl := by
    rw [alive_parent, state_parent] at hl
    by_cases e : a = i
    · subst e
      simp
    · rw [State.setProc_ne e]
      exact h.family a ha hl
  alive := (alive_parent).mpr h.alive

theorem adopt_step (h : Inv s) (hp : s.pc p = .adopt np) (hrun : (s.procs p).state = .running)
    (hl : s.lock = none) : Inv (adoptStep p np s) ∧ Effect bad s (adoptStep p np s) := by
  have hu := (h.at_pc hp).child np rfl
  refine ⟨?_, .none rfl (left_setProc (by simp [hu]) (by simp [hu]))⟩
  have htree := h.tree.setParent (i := np) (.inr (.inr hrun)) (by simp [hu])
  refine h.step (p := p) rfl (fun q hq => State.goto_ne hq) (fun q hq => ?_) ?_ ?_
    (fun _ => by simp [adoptStep, Pc.exits])
    ⟨htree.parent, htree.orphan, htree.family, htree.alive⟩ ?_
  · refine ⟨.inl (state_parent), ?_, Iff.rfl, fun m hm => ⟨state_parent, ?_⟩,
      fun hx => by simp [hl] at hx⟩
    · exact chan_parent
    · have e : m ≠ np := by
        rintro rfl
        exact hq (h.own q p m hm (by rw [hp]; rfl))
      simp [adoptStep, State.setProc_ne e]
  · simp only [adoptStep, State.goto_self]
    refine ⟨?_, by simp [Pc.holds, hl], by simp, fun m hm => ?_, by simp, fun m hm => ?_, trivial⟩
    · rw [State.goto_procs, state_parent, hrun]
      exact .inl rfl
    · cases hm
      rw [State.goto_procs, state_parent, hu]
    · cases hm
      simp
  · intro m hm
    simp only [adoptStep, State.goto_self] at hm
    exact .inr (by rw [hp]; exact hm)
  · intro i q hd hpar hz
    have hz' : (s.procs i).state = .zombie := (state_parent).symm.trans hz
    have e : i ≠ np := by
      rintro rfl
      rw [hu] at hz'
      cases hz'
    obtain ⟨hq, r, status, k, j, hr, hj⟩ := h.wakes i q
      (dozes_parent (dozes_goto (by simp) hd))
      (by simpa [adoptStep, State.setProc_ne e] using hpar) hz'
    refine ⟨hq, r, status, k, j, ?_, hj⟩
    have e' : r ≠ p := by
      rintro rfl
      rw [hp] at hr
      cases hr
    exact (State.goto_ne e').trans hr

theorem Pc.fits_used (h : c.fits .used) : c = .user := by
  cases c <;> simp_all [Pc.fits]

/-- A slot that nobody is working on any more becomes a process. -/
theorem Inv.born (h : Inv s) (hu : (s.procs i).state = .used) (hpar : (s.procs i).parent ≠ none)
    (hfree : ∀ r, (s.pc r).child ≠ some i) (hx : x.state = .runnable)
    (hx' : x.parent = (s.procs i).parent) : Inv (s.setProc i x) := by
  have hpc : s.pc i = .user := Pc.fits_used (hu ▸ (h.places i).fits)
  have hcalm : Calm s (s.setProc i x) := by
    refine ⟨rfl, State.setProc_parent hx', fun q hz => ?_, fun q hd => ⟨hd.1, ?_⟩⟩
    · by_cases e : q = i
      · subst e
        simp [hx] at hz
      · rwa [State.setProc_ne e] at hz
    · have e : q ≠ i := by
        rintro rfl
        obtain ⟨⟨addr, ha⟩, -⟩ := hd
        simp [hpc] at ha
      exact State.setProc_ne e ▸ hd.2
  refine h.quiet (p := i) ⟨hcalm, fun q ha => ?_, fun q ha => ?_, fun q hq => ?_, fun hw _ => hw⟩
    (fun _ _ => rfl) (fun q hq => ?_) ?_ (fun np hnp => .inr hnp) ?_
  · have e : q ≠ i := by
      rintro rfl
      exact ha.not_used hu
    rwa [State.setProc_ne e]
  · by_cases e : q = i
    · exact .inr (e ▸ hpar)
    · rw [State.setProc_ne e] at ha
      exact .inl ha
  · by_cases e : q = i
    · subst e
      simp [hx] at hq
    · rwa [State.setProc_ne e] at hq
  · exact .other (fun r hr => State.setProc_ne hr) hq Iff.rfl (hfree q) fun _ => hcalm
  · rw [State.setProc_pc, hpc]
    exact .plain (by simp [Pc.fits, hx]) (h.unlocked hpc rfl) rfl (by simp) rfl
  · rintro rfl
    exact h.init

/-- The new process is ready to run. -/
theorem start_step (h : Inv s) (hp : s.pc p = .start np) (hrun : (s.procs p).state = .running) :
    Inv (startStep p np s) ∧ Effect bad s (startStep p np s) := by
  have hu := (h.at_pc hp).child np rfl
  have hpar := (h.at_pc hp).started np rfl
  refine ⟨?_, .none rfl (left_setProc (by simp [hu]) (by simp))⟩
  have h1 : Inv (s.goto p .user) :=
    h.goto_plain hp hrun rfl rfl (by simp [Pc.fits]) (by simp) rfl (by simp [Pc.exits])
  refine h1.born hu (by simp [hpar]) (fun r hr => ?_) rfl rfl
  by_cases e : r = p
  · subst e
    simp [Pc.child] at hr
  · rw [State.goto_ne e] at hr
    exact e (h.own r p np hr (by rw [hp]; rfl))

end Xv6.Wait
