/-
Xv6.Proc.ExitTheorems — an exiting process leaves no child and no sleeping
parent behind.

§1 taking `wait_lock` and giving the children to init, §2 the loops of
`wakeup`, §3 the process becomes a zombie.
-/
import Xv6.Proc.ForkTheorems

namespace Xv6.Wait

open Xv6.Lib Function
open Xv6.Vm (nproc)

variable {s s' : State} {p q i j np : Fin nproc} {c c' : Pc} {x : Proc} {addr k : Nat}
  {status : Int} {bad : Prop} {o : Option (Fin nproc)}

/-! ## §1 Under the lock -/

theorem Pc.fits_of_holds (h : c.holds = true) {t : ProcState} : c.fits t ↔ t = .running := by
  cases c <;> first | rfl | cases h

theorem Pc.plain_of_holds (h : c.holds = true) :
    c.child = none ∧ (∀ addr, c ≠ .asleep addr) ∧ ∀ np, c ≠ .adopt np ∧ c ≠ .start np := by
  cases c <;> simp_all [Pc.holds, Pc.child]

/-- At a place under the lock there is what the process knows. -/
theorem At.held (hc : c.holds = true) (hl : s.lock = some p) (hrun : (s.procs p).state = .running)
    (hk : s.knows p c) : At s p c where
  fits := (Pc.fits_of_holds hc).mpr hrun
  lock := by simp [hc, hl]
  chan addr ha := absurd ha ((Pc.plain_of_holds hc).2.1 addr)
  child np hnp := by simp [(Pc.plain_of_holds hc).1] at hnp
  fresh np hnp := absurd hnp ((Pc.plain_of_holds hc).2.2 np).1
  started np hnp := absurd hnp ((Pc.plain_of_holds hc).2.2 np).2
  knows := hk

theorem Inv.exits_ne (h : Inv s) (hp : s.pc p = c) (hc : c.exits = true) : p ≠ s.initproc := by
  rintro rfl
  have := h.init
  rw [hp, hc] at this
  cases this

/-- The holder of the lock goes on. -/
theorem Inv.goto_held (h : Inv s) (hp : s.pc p = c) (hc : c.holds = true) (hc' : c'.holds = true)
    (hk : s.knows p c') (hexits : c'.exits = c.exits)
    (hwaking : s.WakesOn p c') :
    Inv (s.goto p c') := by
  have hat := h.at_pc hp
  refine h.goto (Pc.plain_of_holds hc').2.1
    (.held hc' (hat.lock.mp hc) ((Pc.fits_of_holds hc).mp hat.fits) hk)
    (fun np hnp => by simp [(Pc.plain_of_holds hc').1] at hnp) (fun e => ?_) hwaking
  cases hx : c.exits with
  | false => rw [hexits, hx]
  | true => exact absurd e (h.exits_ne hp hx)

/-- `acquire(&wait_lock)` in process `p`. -/
theorem Inv.acquire (h : Inv s) (hp : s.pc p = c) (hrun : (s.procs p).state = .running)
    (hc : c.holds = false) (hc' : c'.holds = true) (hk : s.knows p c')
    (hexits : c'.exits = c.exits) : Inv (acquireThen p c' s) := by
  unfold acquireThen
  split
  · rename_i hl
    refine h.moveTo (fun q hq => ?_) (Pc.plain_of_holds hc').2.1 ?_
      (fun np hnp => by simp [(Pc.plain_of_holds hc').1] at hnp) (fun e => ?_)
      (Inv.not_waking hp (by rintro _ _ _ rfl; cases hc))
    · simp [hl, Ne.symm hq]
    · refine .held hc' rfl hrun ?_
      exact Calm.knows (s := s) ⟨rfl, fun _ => rfl, fun _ => id, fun _ => id⟩ hk
    · cases hx : c.exits with
      | false => rw [hexits, hx]
      | true => exact absurd e (h.exits_ne hp hx)
  · exact h

theorem acquire_effect : Effect bad s (acquireThen p c' s) := by
  unfold acquireThen
  split
  · exact .none rfl rfl
  · exact .none rfl rfl

theorem Pc.child_cases (h : c.child = some np) : c = .adopt np ∨ c = .start np := by
  cases c <;> simp_all [Pc.child]

/-- Slot `i` is passed to init. -/
theorem reparent_slot (h : Inv s) (hp : s.pc p = .reparent status k) (hk : slot k = some i)
    (hpar : (s.procs i).parent = some p) :
    Inv ((s.setProc i { s.procs i with parent := some s.initproc }).goto p
      (.wakeInit status k 0)) := by
  have hat := h.at_pc hp
  have hl : s.lock = some p := hat.lock.mp rfl
  have hne := h.exits_ne hp rfl
  have htree := h.tree.setParent (i := i) h.tree.alive (fun hu => by
    simp [h.tree.orphan i hu] at hpar)
  refine h.step (p := p) rfl (fun q hq => State.goto_ne hq) (fun q hq => ?_) ?_ (by simp [Pc.child])
    (fun e => absurd e hne) ⟨htree.parent, htree.orphan, htree.family, htree.alive⟩ ?_
  · refine ⟨.inl state_parent, chan_parent, Iff.rfl, fun m hm => ⟨state_parent, ?_⟩, fun hx => ?_⟩
    · -- a child that is still being made has no parent, or one in `kfork`
      have e : m ≠ i := by
        rintro rfl
        rcases Pc.child_cases hm with e | e
        · simp [(h.at_pc e).fresh m rfl] at hpar
        · rw [(h.at_pc e).started m rfl, Option.some.injEq] at hpar
          exact hq hpar
      simp [State.setProc_ne e]
    · rw [hl, Option.some.injEq] at hx
      exact absurd hx.symm hq
  · rw [State.goto_self]
    refine .held rfl hl ?_ ⟨fun m hm => ?_, by simp⟩
    · rw [State.goto_procs, state_parent]
      exact hat.fits
    · by_cases e : m = i
      · subst e
        simp [Ne.symm hne]
      · have := slot_some hk
        rw [State.goto_procs, State.setProc_ne e]
        refine hat.knows m ?_
        omega
  · intro m q hd hq hz
    by_cases e : m = i
    · subst e
      simp only [State.goto_procs, State.setProc_self, Option.some.injEq] at hq
      exact ⟨hq.symm, p, status, k, 0, State.goto_self, Nat.zero_le _⟩
    · refine ⟨(h.wakes m q (dozes_parent (dozes_goto (by simp) hd)) ?_ ?_).1, p, status, k, 0,
        State.goto_self, Nat.zero_le _⟩
      · rwa [State.goto_procs, State.setProc_ne e] at hq
      · rwa [State.goto_procs, state_parent] at hz

theorem left_parent : (s.setProc i { s.procs i with parent := o }).left = s.left := by
  funext q
  by_cases e : q = i
  · subst e
    simp [State.left]
  · simp [State.left, State.setProc_ne e]

theorem reparent_step (h : Inv s) (hp : s.pc p = .reparent status k) :
    Inv (reparentStep p status k s) ∧ Effect bad s (reparentStep p status k s) := by
  have hknows := (h.at_pc hp).knows
  unfold reparentStep
  cases hk : slot k with
  | none =>
    refine ⟨h.goto_held hp rfl rfl ⟨fun i => hknows i (slot_none hk i), rfl, by simp⟩ rfl
      (Inv.not_waking hp (by simp)), .none rfl rfl⟩
  | some i =>
    dsimp only
    split
    · rename_i hpar
      exact ⟨reparent_slot h hp hk hpar, .none rfl left_parent⟩
    · rename_i hpar
      refine ⟨h.goto_held hp rfl rfl (fun m hm => ?_) rfl (Inv.not_waking hp (by simp)),
        .none rfl rfl⟩
      by_cases e : m = i
      · exact e ▸ hpar
      · have hki := slot_some hk
        exact hknows m (by omega)

/-! ## §2 Waking a parent -/

theorem wakeSlot_inv (h : Inv s) : Inv (wakeSlot p o j s) := by
  cases o with
  | none => exact h
  | some q => exact h.soft .wakeup

theorem wakeSlot_effect :
    (wakeSlot p o j s).trace = s.trace ∧ (wakeSlot p o j s).left = s.left := by
  cases o with
  | none => exact ⟨rfl, rfl⟩
  | some q => exact ⟨rfl, left_soft .wakeup⟩

theorem wakeSlot_calm : Calm s (wakeSlot p o j s) := by
  cases o with
  | none => exact ⟨rfl, fun _ => rfl, fun _ => id, fun _ => id⟩
  | some q => exact calm_soft .wakeup

theorem wakeSlot_pc : (wakeSlot p o j s).pc = s.pc := by
  cases o <;> rfl

/-- Whoever sleeps in `kwait` does so on its own slot, so `wakeup` finds it. -/
theorem wakeSlot_wakes (h : Inv s) (hne : q ≠ p) : ¬ (wakeSlot p (some q) q s).dozes q := by
  intro hd
  obtain ⟨⟨addr, ha⟩, hs⟩ := wakeSlot_calm.dozes q hd
  have hchan := (h.at_pc ha).chan addr rfl
  have hw := hd.2
  simp [wakeSlot, wakeup, hne, hs, hchan, Proc.makeRunnable] at hw

theorem wakeInit_step (h : Inv s) {j : Nat} (hp : s.pc p = .wakeInit status k j) :
    Inv (wakeInitStep p status k j s) ∧ Effect bad s (wakeInitStep p status k j s) := by
  have hknows := (h.at_pc hp).knows
  have hne := h.exits_ne hp rfl
  unfold wakeInitStep
  cases hj : slot j with
  | none =>
    refine ⟨h.goto_held hp rfl rfl (fun m hm => hknows.1 m (Nat.lt_succ_iff.mp hm)) rfl ?_,
      .none rfl rfl⟩
    intro status' k' j' he hle
    have := slot_none hj s.initproc
    rw [hp] at he
    cases he
    omega
  | some i =>
    have h1 : Inv (wakeSlot p (some s.initproc) i s) := wakeSlot_inv h
    have hp1 : (wakeSlot p (some s.initproc) i s).pc p = .wakeInit status k j := hp
    have hawake : s.initproc < j + 1 → ¬ (wakeSlot p (some s.initproc) i s).dozes s.initproc := by
      intro hlt hd
      rcases Nat.lt_succ_iff_lt_or_eq.mp hlt with hlt | heq
      · exact hknows.2 hlt (wakeSlot_calm.dozes _ hd)
      · have hi : i = s.initproc := Fin.ext ((slot_some hj).symm.trans heq.symm)
        rw [hi] at hd
        exact wakeSlot_wakes h (Ne.symm hne) hd
    refine ⟨h1.goto_held hp1 rfl rfl ⟨?_, hawake⟩ rfl ?_, .none wakeSlot_effect.1
      (wakeSlot_effect (o := some s.initproc)).2⟩
    · exact (wakeSlot_calm.knows (c := .wakeInit status k j) hknows).1
    · intro status' k' j' he hle hd
      rw [hp1] at he
      cases he
      refine ⟨status, k, j + 1, rfl, ?_⟩
      by_contra hlt
      exact hawake (Nat.not_le.mp hlt) hd

theorem wakeParent_step (h : Inv s) {j : Nat} (hp : s.pc p = .wakeParent status o j) :
    Inv (wakeParentStep p status o j s) ∧ Effect bad s (wakeParentStep p status o j s) := by
  have hknows := (h.at_pc hp).knows
  unfold wakeParentStep
  cases hj : slot j with
  | none =>
    refine ⟨h.goto_held hp rfl rfl ⟨hknows.1, fun q hq => ?_⟩ rfl (Inv.not_waking hp (by simp)),
      .none rfl rfl⟩
    exact hknows.2.2 q (hknows.2.1.symm.trans hq) (slot_none hj q)
  | some i =>
    have h1 : Inv (wakeSlot p o i s) := wakeSlot_inv h
    have hp1 : (wakeSlot p o i s).pc p = .wakeParent status o j := by rw [wakeSlot_pc, hp]
    have hcalm : Calm s (wakeSlot p o i s) := wakeSlot_calm
    obtain ⟨hall, hpar, hpast⟩ := hcalm.knows hknows
    refine ⟨h1.goto_held hp1 rfl rfl ⟨hall, hpar, fun q hq hlt => ?_⟩ rfl
      (Inv.not_waking hp1 (by simp)), .none wakeSlot_effect.1
        (wakeSlot_effect (p := p) (j := i) (s := s)).2⟩
    rcases Nat.lt_succ_iff_lt_or_eq.mp hlt with hlt | heq
    · exact hpast q hq hlt
    · have hi : i = q := Fin.ext ((slot_some hj).symm.trans heq.symm)
      have hne : q ≠ p := by
        rintro rfl
        exact hknows.1 q (hknows.2.1.trans hq)
      rw [hi, hq]
      exact wakeSlot_wakes h hne

/-! ## §3 The end of `kexit` -/

/-- Nobody is waking init while `p`, at another place, has the lock. -/
theorem Inv.no_waking (h : Inv s) (hp : s.pc p = c) (hc : c.holds = true)
    (hne : ∀ status k j, c ≠ .wakeInit status k j) : ¬ s.waking := by
  rintro ⟨r, status, k, j, hr, -⟩
  have hl := (h.at_pc hp).lock.mp hc
  rw [(h.at_pc hr).lock.mp rfl, Option.some.injEq] at hl
  rw [← hl, hr] at hp
  exact hne status k j hp.symm

theorem mark_step (h : Inv s) (hp : s.pc p = .mark status) :
    Inv (markStep p status s) ∧ Effect bad s (markStep p status s) := by
  have hat := h.at_pc hp
  have hl : s.lock = some p := hat.lock.mp rfl
  have hrun : (s.procs p).state = .running := hat.fits
  have hne := h.exits_ne hp rfl
  obtain ⟨hnone, hpar⟩ := hat.knows
  have hprocs : ∀ q, q ≠ p → (markStep p status s).procs q = s.procs q := fun q hq =>
    State.setProc_ne hq
  have hself : ((markStep p status s).procs p).state = .zombie ∧
      ((markStep p status s).procs p).parent = (s.procs p).parent := by
    simp [markStep, State.log]
  have hdozes : ∀ q, (markStep p status s).dozes q → s.dozes q := by
    rintro q ⟨⟨addr, ha⟩, hs⟩
    by_cases e : q = p
    · subst e
      simp [hself] at hs
    · exact ⟨⟨addr, (State.goto_ne e).symm.trans ha⟩, hprocs q e ▸ hs⟩
  constructor
  · refine h.step (p := p) rfl (fun q hq => State.goto_ne hq) (fun q hq => ?_) ?_ ?_
      (fun e => absurd e hne) ⟨fun i j hij => ?_, fun i hu => ?_, fun i hi hx => ?_, ?_⟩
      fun i q hd hiq hz => ?_
    · refine .other hprocs hq (by simp [markStep, State.log, hl, Ne.symm hq])
        (h.child_ne (by simp [hrun])) fun hx => ?_
      rw [hl, Option.some.injEq] at hx
      exact absurd hx.symm hq
    · have hpc : (markStep p status s).pc p = .dead := State.goto_self
      rw [hpc]
      exact .plain (.inl hself.1) (by simp [markStep, State.log]) rfl (by simp) rfl
    · have hpc : (markStep p status s).pc p = .dead := State.goto_self
      simp [hpc, Pc.child]
    · have hij' : (s.procs i).parent = some j := by
        by_cases e : i = p
        · rw [e] at hij ⊢
          exact hself.2.symm.trans hij
        · rwa [hprocs i e] at hij
      have e : j ≠ p := by
        rintro rfl
        exact hnone i hij'
      rw [hprocs j e]
      exact h.tree.parent i j hij'
    · have e : i ≠ p := by
        rintro rfl
        simp [hself] at hu
      rw [hprocs i e] at hu ⊢
      exact h.tree.orphan i hu
    · by_cases e : i = p
      · rw [e, hself.2]
        exact h.tree.family p hne (.inl (.inr (.inr hrun)))
      · rw [hprocs i e] at hx ⊢
        exact h.tree.family i hi hx
    · have e : s.initproc ≠ p := Ne.symm hne
      exact (hprocs _ e).symm ▸ h.tree.alive
    · by_cases e : i = p
      · rw [e, hself.2] at hiq
        exact absurd (hdozes q hd) (hpar q hiq)
      · rw [hprocs i e] at hiq hz
        exact absurd (h.wakes i q (hdozes q hd) hiq hz).2 (h.no_waking hp rfl (by simp))
  · refine .exited p (s.procs p).pid status rfl (by simp [State.left, hrun]) ?_
    funext q
    by_cases e : q = p
    · subst e
      simp [State.left, markStep, State.log]
    · rw [update_of_ne e]
      simp [State.left, hprocs q e]

end Xv6.Wait
