/-
Xv6.Sched.Snapshots — stamps and the snapshots of several CPUs.

A round uses one snapshot of `ticks` to its end. A process that it scans may have
been stamped by another CPU in the meantime, from a later snapshot. The difference
is then taken modulo 2^32, and the process counts as one that has waited for ages.
This does not happen as long as all CPUs in a round have the same snapshot, and so
not on one CPU.

A round also stamps a process that became RUNNABLE after the round began (§4). The
time from the snapshot to that moment then counts as waiting time.
-/
import Xv6.Sched.AgingTheorems

namespace Xv6.Sched

open Xv6.Lib Function
open Xv6.Vm (nproc)
open Xv6.Wait (slot first second)

variable {n : Nat} {s s' : State n} {i : Fin nproc} {t : Nat} {p : Proc} {a : Act n}

/-! ## §1 Aging over the integers -/

/-- The priority gets better by a level for each interval, down to 0. -/
def agedPriority (now : Nat) (p : Proc) : Int :=
  max 0 (p.priority - ((now : Int) - p.readySince) / agingInterval)

theorem effectivePriority_eq {now : Nat} (hnow : now < 2 ^ 32) (h : p.readySince ≤ now) :
    effectivePriority now p = agedPriority now p := by
  have hsub : sub32 now p.readySince = now - p.readySince := by
    unfold sub32
    omega
  simp only [effectivePriority, agedPriority, hsub, priorityMin, agingInterval]
  split <;> omega

/-- The next scans find stamps that are not ahead of their snapshots, and compute from them what
the integers give, no more levels than intervals have elapsed. -/
def Sound (s : State n) : Prop :=
  ∀ c now level i found, Scans s c now level i found →
    (stamp now (s.procs i)).readySince ≤ now ∧
    effectivePriority now (stamp now (s.procs i)) = agedPriority now (stamp now (s.procs i)) ∧
    (s.procs i).priority - effectivePriority now (stamp now (s.procs i)) ≤
      ((now - (stamp now (s.procs i)).readySince) / agingInterval : Nat)

theorem effectivePriority_sound {now : Nat} (hnow : now < 2 ^ 32) (h : p.readySince ≤ now) :
    effectivePriority now p = agedPriority now p ∧
      p.priority - effectivePriority now p ≤ ((now - p.readySince) / agingInterval : Nat) := by
  have heq := effectivePriority_eq hnow h
  refine ⟨heq, ?_⟩
  rw [heq, agedPriority]
  simp only [agingInterval]
  omega

/-! ## §2 One snapshot at a time -/

/-- The rounds that CPUs are in have the same snapshot. -/
def Together (s : State n) : Prop :=
  ∀ c d t u, (s.cpu c).snapshot = some t → (s.cpu d).snapshot = some u → t = u

/-- A snapshot of a round, or of one that begins now. -/
def Clock (s : State n) (t : Nat) : Prop := t = s.ticks ∨ ∃ c, (s.cpu c).snapshot = some t

/-- No snapshot is ahead of the clock, and no stamp ahead of a snapshot. -/
def Ordered (s : State n) : Prop :=
  ∀ t, Clock s t → t ≤ s.ticks ∧ ∀ i, (s.procs i).state = .runnable → (s.procs i).readySince ≤ t

theorem Ordered.next (h : Ordered s) (hst : Step a s s') (htog : Together s)
    (hticks : s.ticks ≤ s'.ticks) : Ordered s' := by
  intro t ht
  -- the clock that has gone on is not before the old one
  obtain ⟨u, hu, hle, hlast⟩ : ∃ u, Clock s u ∧ u ≤ t ∧ t ≤ s'.ticks := by
    rcases ht with rfl | ⟨c, hc⟩
    · exact ⟨s.ticks, .inl rfl, hticks, Nat.le_refl _⟩
    · have hclock : Clock s t := (hst.snapshot hc).elim (fun hc => .inr ⟨c, hc⟩) .inl
      exact ⟨t, hclock, Nat.le_refl t, (h t hclock).1.trans hticks⟩
  refine ⟨hlast, fun i hr => ?_⟩
  cases hst.seen i with
  | kept _ hwas _ e => exact e.trans_le (((h u hu).2 i hwas).trans hle)
  | apart _ _ hnow => exact (hnow hr).trans_le (Nat.zero_le t)
  | dispatched _ hnow => cases hnow.symm.trans hr
  | passed c now level found _ hsc _ e =>
    have hnowle : now ≤ u := by
      rcases hu with rfl | ⟨d, hd⟩
      · exact (h now (.inr ⟨c, hsc.snapshot⟩)).1
      · exact (htog c d now u hsc.snapshot hd).le
    rw [e]
    unfold stamp
    split
    · exact hnowle.trans hle
    · exact ((h u hu).2 i hsc.runnable).trans hle

theorem start_ordered : Ordered (start n) := by
  rintro t (rfl | ⟨c, ⟨⟩⟩)
  refine ⟨Nat.le_refl _, fun i hr => ?_⟩
  rw [start_aged.fresh i hr rfl]
  exact Nat.zero_le _

theorem stamp_priority {now : Nat} : (stamp now p).priority = p.priority := by
  unfold stamp
  split <;> rfl

theorem Ordered.sound (h : Ordered s) (haged : Aged s) : Sound s := by
  intro c now level i found hsc
  have hle : (stamp now (s.procs i)).readySince ≤ now := by
    unfold stamp
    split
    · exact Nat.le_refl now
    · exact (h now (.inr ⟨c, hsc.snapshot⟩)).2 i hsc.runnable
  have hsound := effectivePriority_sound (haged.snapshot c now hsc.snapshot) hle
  rw [stamp_priority] at hsound
  exact ⟨hle, hsound⟩

/-! ## §3 Runs -/

/-- In all states of a run. -/
def Always (acts : List (Act n)) (P : State n → Prop) : Prop :=
  ∀ bs cs, acts = bs ++ cs → ∀ s, Ends act bs (start n) s → P s

/-- The clock never goes back. -/
def NoWrap (acts : List (Act n)) : Prop :=
  ∀ bs a cs, acts = bs ++ a :: cs → ∀ s, Ends act bs (start n) s →
    ∀ s', (act a).run s = .ok ((), s') → s.ticks ≤ s'.ticks

/-- What the scheduler computes is right in all states of a run, if the rounds that are going on
at one time have one snapshot. -/
theorem aging_sound (n : Nat) (acts : List (Act n)) (hwrap : NoWrap acts)
    (htog : Always acts Together) : Always acts Sound := by
  intro bs cs e s hs
  have hord : Aged s ∧ Ordered s := by
    refine hs.along (I := fun s => Aged s ∧ Ordered s) (R := fun a s => Together s ∧
      ∀ s', (act a).run s = .ok ((), s') → s.ticks ≤ s'.ticks) ?_ ⟨start_aged, start_ordered⟩ e
        fun bs a cs e u hu => ⟨htog bs (a :: cs) e u hu, hwrap bs a cs e u hu⟩
    rintro a s t ⟨h, ho⟩ ⟨ht, hw⟩ ha
    exact ⟨(h.act ha).1, ho.next ((act_step h.inv a).post ha).2 ht (hw t ha)⟩
  exact hord.2.sound hord.1

theorem Step.ticks (h : Step a s s') : s'.ticks = s.ticks ∨ s'.ticks = (s.ticks + 1) % 2 ^ 32 := by
  cases h with
  | tick e =>
    subst e
    exact .inr rfl
  | _ =>
    rename_i e
    subst e
    exact .inl rfl

/-- The clock counts at most the steps of the run. -/
theorem ends_ticks {acts : List (Act n)} (h : Ends act acts (start n) s) :
    s.ticks ≤ acts.length := by
  induction acts using List.reverseRecOn generalizing s with
  | nil =>
    rw [ends_nil.mp h]
    exact Nat.le_refl 0
  | append_singleton acts a ih =>
    obtain ⟨u, hu, ha⟩ := ends_snoc.mp h
    have hle := ih hu
    have hticks := ((act_step (ends_aged hu).inv a).post ha).2.ticks
    rw [List.length_append, List.length_singleton]
    omega

theorem noWrap_of_length {acts : List (Act n)} (h : acts.length < 2 ^ 32) : NoWrap acts := by
  rintro bs a cs rfl s hs s' ha
  have hle := ends_ticks hs
  have hticks := ((act_step (ends_aged hs).inv a).post ha).2.ticks
  rw [List.length_append, List.length_cons] at h
  omega

theorem together_one (s : State 1) : Together s := by
  intro c d t u ht hu
  rw [Subsingleton.elim d c] at hu
  exact Option.some.inj (ht.symm.trans hu)

/-- On one CPU there is one round at a time. -/
theorem aging_sound_one_cpu : NoWrap childAtTickZero ∧ Always childAtTickZero Sound := by
  have hwrap : NoWrap childAtTickZero := noWrap_of_length (by decide +kernel)
  exact ⟨hwrap, aging_sound 1 childAtTickZero hwrap fun _ _ _ s _ => together_one s⟩

def cpuA : Fin 2 := ⟨1, Nat.one_lt_two⟩

def cpuB : Fin 2 := ⟨0, Nat.two_pos⟩

/-- CPU A begins a round, and after a tick CPU B, which counts it, begins another and stamps init.
CPU A then takes init for a process of the best priority. -/
theorem stale_snapshot_underflows :
    ∃ s, Ends act [.sched cpuA, .tick, .sched cpuB, .sched cpuB] (start 2) s ∧
      Scans s cpuA 0 0 first false ∧ (s.procs first).readySince = 1 ∧
      (s.procs first).priority = 2 ∧ effectivePriority 0 (stamp 0 (s.procs first)) = 0 ∧
      ¬ Sound s := by
  obtain ⟨⟨⟩, s, hok, ht⟩ := run_of_endsIn (show endsIn (script act [.sched cpuA, .tick,
    .sched cpuB, .sched cpuB]) (start 2) (fun _ s => decide (s.cpu cpuA = .scan 0 0 0 false ∧
      (s.procs first).state = .runnable ∧ (s.procs first).readySince = 1 ∧
      (s.procs first).priority = 2 ∧ effectivePriority 0 (stamp 0 (s.procs first)) = 0)) = true by
        decide +kernel)
  obtain ⟨hcpu, hrun, hsince, hprio, heff⟩ := of_decide_eq_true ht
  have hscan : Scans s cpuA 0 0 first false := ⟨hcpu, hrun⟩
  refine ⟨s, hok, hscan, hsince, hprio, heff, fun hs => ?_⟩
  have hle := (hs cpuA 0 0 first false hscan).1
  rw [stamp, if_neg (by omega), hsince] at hle
  omega

/-! ## §4 When a wait begins -/

/-- A state, with the ticks at which the processes have last become RUNNABLE. -/
structure Timed (n : Nat) where
  state : State n
  entered : Fin nproc → Nat

def timedStart (n : Nat) : Timed n := ⟨start n, fun _ => 0⟩

/-- After a step to state `s`. -/
def Timed.next (x : Timed n) (s : State n) : Timed n where
  state := s
  entered i := if (s.procs i).state = .runnable ∧ (x.state.procs i).state ≠ .runnable then s.ticks
    else x.entered i

def timed (a : Act n) : StateT (Timed n) (Except Wait.Panic) Unit := fun x =>
  ((act a).run x.state).map fun r => ((), x.next r.2)

variable {x x' : Timed n}

theorem timed_ok :
    (timed a).run x = .ok ((), x') ↔ ∃ s, (act a).run x.state = .ok ((), s) ∧ x' = x.next s := by
  show Except.map _ _ = _ ↔ _
  cases (act a).run x.state with
  | error e => simp [Except.map]
  | ok r => simp [Except.map, Prod.ext_iff, eq_comm]

theorem next_entered (hwas : (x.state.procs i).state = .runnable) :
    (x.next s).entered i = x.entered i := if_neg fun hx => hx.2 hwas

/-- No stamp is from before the wait. -/
def Counted (x : Timed n) : Prop :=
  ∀ i, (x.state.procs i).state = .runnable → (x.state.procs i).readySince ≠ 0 →
    x.entered i ≤ (x.state.procs i).readySince

/-- The next step is that of a round that began before a process became RUNNABLE. It scans this
process for the first time, at another level than its own. -/
def Early (a : Act n) (x : Timed n) : Prop :=
  ∃ c now level i found, a = .sched c ∧ Scans x.state c now level i found ∧
    effectivePriority now (stamp now (x.state.procs i)) ≠ level ∧
    (x.state.procs i).readySince = 0 ∧ now ≠ 0 ∧ now < x.entered i

theorem Counted.next (h : Counted x) (hst : Step a x.state s) (hno : ¬ Early a x) :
    Counted (x.next s) := by
  intro i hr hnz
  cases hst.seen i with
  | kept _ hwas _ e =>
    rw [next_entered hwas]
    exact e ▸ h i hwas (e ▸ hnz)
  | apart _ _ hnow => exact absurd (hnow hr) hnz
  | dispatched _ hnow => cases hnow.symm.trans hr
  | passed c now level found hscan hsc _ e =>
    rw [next_entered hsc.runnable]
    change (s.procs i).readySince ≠ 0 at hnz
    show _ ≤ (s.procs i).readySince
    by_cases h0 : (x.state.procs i).readySince = 0
    · simp only [e, stamp, h0, if_true] at hnz ⊢
      by_contra hlt
      exact hno ⟨c, now, level, i, found, hscan.1, hsc, hscan.2, h0, hnz, by omega⟩
    · rw [e, stamp, if_neg h0]
      exact h i hsc.runnable h0

/-- Such a step leaves a stamp from before the wait. -/
theorem Early.breaks (h : Early a x) : ∃ x', (timed a).run x = .ok ((), x') ∧ ¬ Counted x' := by
  obtain ⟨c, now, level, i, found, rfl, hsc, hl, h0, hnz, hlt⟩ := h
  have hpass : Total (act (.sched c)) x.state fun _ s =>
      s.procs i = stamp now (x.state.procs i) := by
    refine meets_read ?_
    rw [hsc.place]
    dsimp only
    rw [show slot i = some i from dif_pos i.isLt]
    refine meets_read (meets_if hsc.runnable ?_)
    refine Meets.bind (meets_set (meets_else hl (meets_modify ?_)))
    exact Wait.State.setProc_self ..
  obtain ⟨⟨⟩, s, hok, he⟩ := hpass.elim
  refine ⟨x.next s, timed_ok.mpr ⟨s, hok, rfl⟩, fun hc => ?_⟩
  have hstamp : (s.procs i).readySince = now := by simp [he, stamp, h0]
  have hrun : (s.procs i).state = .runnable := by rw [he, stamp_state, hsc.runnable]
  have hle : (x.next s).entered i ≤ (s.procs i).readySince := hc i hrun (hstamp ▸ hnz)
  rw [next_entered hsc.runnable, hstamp] at hle
  omega

/-- In all states of a run only time as RUNNABLE counts iff no round that began before a process
became RUNNABLE is the first to scan it and passes it. -/
theorem runnable_time_iff (n : Nat) (acts : List (Act n)) :
    (∀ bs cs, acts = bs ++ cs → ∀ x, Ends timed bs (timedStart n) x → Counted x) ↔
      ∀ bs a cs, acts = bs ++ a :: cs → ∀ x, Ends timed bs (timedStart n) x → ¬ Early a x := by
  constructor
  · intro hall bs a cs e x hx hearly
    obtain ⟨x', hok, hnot⟩ := hearly.breaks
    exact hnot (hall (bs ++ [a]) cs (by simp [e]) x' (ends_snoc.mpr ⟨x, hx, hok⟩))
  · intro hno bs cs e x hx
    have hcounted : Aged x.state ∧ Counted x := by
      refine hx.along (I := fun x => Aged x.state ∧ Counted x) (R := fun a x => ¬ Early a x) ?_
        ⟨start_aged, fun i hr hnz => absurd (start_aged.fresh i hr rfl) hnz⟩ e hno
      rintro a x x' ⟨h, hc⟩ hok ha
      obtain ⟨s, hs, rfl⟩ := timed_ok.mp ha
      exact ⟨(h.act hs).1, hc.next ((act_step h.inv a).post hs).2 hok⟩
    exact hcounted.2

/-- The third slot of the table. -/
def third : Fin nproc := ⟨2, by decide⟩

/-- After a tick in `scheduler()` a round begins, with snapshot 1. Init makes a child and is
interrupted, at tick 2. The round goes on with the child, which takes priority 4 and makes a child
of its own. After another interrupt the round comes to that one. -/
def childInLateRound : List (Act 1) :=
  .tick :: List.replicate 132 (.sched cpu0) ++ forks cpu0 first 4 ++ timer cpu0 first ++
    .sched cpu0 :: .setPriority cpu0 4 :: forks cpu0 second 5 ++ timer cpu0 second ++
    [.sched cpu0]

/-- The child of the child is stamped with the tick before the one it was made at. -/
theorem stamp_before_wait :
    ∃ x, Ends timed childInLateRound (timedStart 1) x ∧ x.state.ticks = 3 ∧
      (x.state.procs third).state = .runnable ∧ (x.state.procs third).readySince = 1 ∧
      x.entered third = 2 ∧ ¬ Counted x := by
  obtain ⟨⟨⟩, x, hok, ht⟩ := run_of_endsIn (show endsIn (script timed childInLateRound)
    (timedStart 1) (fun _ x => decide (x.state.ticks = 3 ∧
      (x.state.procs third).state = .runnable ∧ (x.state.procs third).readySince = 1 ∧
      x.entered third = 2)) = true by decide +kernel)
  obtain ⟨hticks, hrun, hsince, hentered⟩ := of_decide_eq_true ht
  refine ⟨x, hok, hticks, hrun, hsince, hentered, fun hc => ?_⟩
  have hle := hc third hrun (by omega)
  omega

end Xv6.Sched
