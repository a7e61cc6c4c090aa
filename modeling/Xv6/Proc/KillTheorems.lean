/-
Xv6.Proc.KillTheorems — who gets killed.

The pid of a free slot is 0, so `kkill(0)` finds free slots. Nothing clears
`killed` when such a slot is handed out. §1 what a step does to one slot,
§2 pids, §3 blame, §4 runs.
-/
import Xv6.Proc.Moves

namespace Xv6.Wait

open Xv6.Lib Function
open Xv6.Vm (nproc)

variable {s s' : State} {i : Fin nproc} {x y : Proc} {b b' : Bool} {n n' : Nat} {a : Act}
  {own runs stray : Prop}

/-! ## §1 What a step does to one slot -/

/-- How the record of a slot changes, and who is to blame for its `killed`.
`stray` if the slot is killed while it is free; `n` and `n'` are `nextpid` before
and after. -/
inductive Turn (stray : Prop) (n n' : Nat) (x y : Proc) (b b' : Bool) : Prop where
  | keep (pid : y.pid = x.pid) (unused : y.state = .unused ↔ x.state = .unused)
      (killed : y.killed = x.killed) (blamed : b' = b)
  | kill (pid : y.pid = x.pid) (unused : y.state = .unused ↔ x.state = .unused)
      (killed : y.killed = true) (blamed : b' = true) (strays : x.state = .unused → stray)
  | new (was : x.state = .unused) (used : y.state ≠ .unused) (pid : y.pid = n) (next : n < n')
      (killed : y.killed = x.killed) (blamed : b' = false)
  | free (unused : y.state = .unused) (pid : y.pid = 0) (killed : y.killed = false)

/-- A change of state from one use of the slot to another. -/
theorem Turn.move (hpid : y.pid = x.pid) (hkilled : y.killed = x.killed)
    (hx : x.state ≠ .unused) (hy : y.state ≠ .unused) (hb : b' = b) : Turn stray n n' x y b b' :=
  .keep hpid (by simp [hx, hy]) hkilled hb

theorem Moved.turn (h : Moved own runs stray n n' x y b b') : Turn stray n n' x y b b' := by
  cases h with
  | same e hb | relinked o e hb =>
    subst e
    exact .keep rfl Iff.rfl rfl hb
  | killed e hb hs =>
    subst e
    by_cases hsleep : x.state = .sleeping
    · exact .kill (by simp [Proc.kill, hsleep, Proc.makeRunnable])
        (by simp [Proc.kill, hsleep, Proc.makeRunnable])
        (by simp [Proc.kill, hsleep, Proc.makeRunnable]) hb hs
    · exact .kill (by simp [Proc.kill, hsleep]) (by simp [Proc.kill, hsleep])
        (by simp [Proc.kill, hsleep]) hb hs
  | taken hu e hb hn =>
    subst e
    exact .new hu (by simp) rfl hn rfl hb
  | freed _ e =>
    subst e
    exact .free rfl rfl rfl
  | woken hs e hb | yielded _ hs e hb =>
    subst e
    exact .move rfl rfl (by simp [hs]) (by simp [Proc.makeRunnable]) hb
  | started _ hs e hb | ran _ _ hs e hb | slept _ _ hs e hb | exited _ _ hs e hb =>
    subst e
    exact .move rfl rfl (by simp [hs]) (by simp) hb

/-! ## §2 Pids -/

/-- Free slots, and only they, have pid 0. -/
structure Named (s : State) : Prop where
  nextpid : 0 < s.nextpid
  pid : ∀ i, (s.procs i).pid = 0 ↔ (s.procs i).state = .unused

theorem Named.next (h : Named s) (ht : Moves a stray s s') : Named s' where
  nextpid := Nat.lt_of_lt_of_le h.nextpid ht.nextpid
  pid i := by
    cases (ht.slots i).turn with
    | keep hpid hu _ _ => rw [hpid, h.pid i, hu]
    | kill hpid hu _ _ _ => rw [hpid, h.pid i, hu]
    | new _ hu hpid _ _ _ =>
      have hn := h.nextpid
      simp only [hu, hpid, iff_false]
      omega
    | free hu hpid _ => simp [hu, hpid]

theorem Named.pid32 (h : Named s) (hu : (s.procs i).state = .unused) :
    (s.procs i).pid32 = 0 := by
  unfold Proc.pid32
  rw [(h.pid i).mpr hu]
  rfl

theorem act_turns (h : Inv s) (hn : Named s) (a : Act) :
    Meets (· = .initExiting) (act a) s fun _ s' => Moves a (Strays a s) s s' := by
  refine act_moves h a ?_
  rintro p ok k i rfl hrun hp hk hu
  rw [hn.pid32 hu, slot_some hk] at hp
  exact ⟨p, ok, i, rfl, hrun, hp, hu⟩

/-! ## §3 Blame -/

/-- Free slots are not killed, and who is killed was killed or faulted. -/
structure Blamed (s : State) : Prop where
  clean : ∀ i, (s.procs i).state = .unused → (s.procs i).killed = false
  killed : ∀ i, (s.procs i).killed = true → s.blamed i = true

theorem Blamed.next (h : Blamed s) (ht : Moves a stray s s') (hno : ¬ stray) : Blamed s' where
  clean i hu := by
    cases (ht.slots i).turn with
    | keep _ hu' hk _ => rw [hk, h.clean i (hu'.mp hu)]
    | kill _ hu' _ _ hs => exact absurd (hs (hu'.mp hu)) hno
    | new _ hu' _ _ _ _ => exact absurd hu hu'
    | free _ _ hk => exact hk
  killed i hi := by
    cases (ht.slots i).turn with
    | keep _ _ hk hb => rw [hb, h.killed i (hk ▸ hi)]
    | kill _ _ _ hb _ => exact hb
    | new hw _ _ _ hk _ =>
      rw [hk, h.clean i hw] at hi
      cases hi
    | free _ _ hk =>
      rw [hk] at hi
      cases hi

/-! ## §4 Runs -/

theorem run_kills (acts : List Act) (h : Inv s) (hn : Named s) :
    Meets (· = .initExiting) (run acts) s fun _ s' =>
      Named s' ∧ (NeverStrays acts s → Blamed s → Blamed s') := by
  induction acts generalizing s with
  | nil => exact meets_pure ⟨hn, fun _ hb => hb⟩
  | cons a as ih =>
    cases (act_spec h a).and (act_turns h hn a) with
    | error hrun he => exact Meets.bind (.error hrun he)
    | ok hrun hpost =>
      obtain ⟨⟨h1, -⟩, ht⟩ := hpost
      refine Meets.bind (.ok hrun ((ih h1 (hn.next ht)).imp ?_))
      rintro - s' ⟨hn', hb'⟩
      exact ⟨hn', fun hnever hb => hb' (hnever.2 _ hrun) (hb.next ht hnever.1)⟩

theorem start_named : Named start := by
  refine ⟨by decide, fun i => ?_⟩
  rcases start_slot i with ⟨-, e⟩ | ⟨-, e⟩ <;> simp [e, Proc.empty]

theorem start_blamed : Blamed start := by
  constructor <;> intro i <;> rcases start_slot i with ⟨-, e⟩ | ⟨-, e⟩ <;> simp [e, Proc.empty]

theorem findPid_some {procs : Table} {pid : Int} (h : findPid procs pid = some i) :
    (procs i).pid32 = pid := by
  have := List.find?_some h
  simpa using this

theorem findPid_none {procs : Table} {pid : Int} (h : findPid procs pid = none) (i : Fin nproc) :
    (procs i).pid32 ≠ pid := by
  have := List.find?_eq_none.mp h i (List.mem_finRange i)
  simpa using this

theorem findPid_first {procs : Table} {pid : Int} (h : findPid procs pid = some i) {j : Fin nproc}
    (hj : j < i) : (procs j).pid32 ≠ pid := by
  obtain ⟨-, m, hm, e, hnot⟩ := List.find?_eq_some_iff_getElem.mp h
  rw [List.getElem_finRange] at e
  subst e
  have := hnot j.val hj
  simpa using this

/-- Every free slot comes after a process with pid 0. -/
def Shielded (s : State) : Prop :=
  ∀ i, (s.procs i).state = .unused →
    ∃ j < i, (s.procs j).state ≠ .unused ∧ (s.procs j).pid32 = 0

/-- Then `kkill(0)` does not come to a free slot. -/
theorem Named.found_live (h : Named s) {pid : Int} (hf : findPid s.procs pid = some i)
    (hlive : pid ≠ 0 ∨ Shielded s) : (s.procs i).state ≠ .unused := by
  intro hu
  have h0 : pid = 0 := (findPid_some hf).symm.trans (h.pid32 hu)
  rcases hlive with hne | hall
  · exact hne h0
  · obtain ⟨k, hk, -, hzero⟩ := hall i hu
    exact findPid_first hf hk (hzero.trans h0.symm)

theorem killsLive_iff (h : Named s) (pid : Int) :
    KillsLive pid s.procs ↔ pid ≠ 0 ∨ Shielded s := by
  constructor
  · rintro ⟨hleft, -⟩
    by_contra hno
    simp only [Shielded, not_or, not_not, not_forall, not_exists, not_and] at hno
    obtain ⟨rfl, i, hu, hnone⟩ := hno
    cases hf : findPid s.procs 0 with
    | none => exact findPid_none hf i (h.pid32 hu)
    | some j =>
      have hle : j ≤ i := not_lt.mp fun hlt => findPid_first hf hlt (h.pid32 hu)
      have hj : (s.procs j).state ≠ .unused := fun hj => (hleft j hj).1 hf
      have hne : j ≠ i := by
        rintro rfl
        exact hj hu
      exact hnone j (lt_of_le_of_ne hle hne) hj (findPid_some hf)
  · intro hlive
    unfold KillsLive kkill
    cases hf : findPid s.procs pid with
    | none => simp
    | some j =>
      have hj := h.found_live hf hlive
      refine ⟨fun i hi => ?_, fun _ => ⟨j, hj, findPid_some hf⟩⟩
      have e : i ≠ j := by
        rintro rfl
        exact hj hi
      simp [e, Ne.symm e]

/-- `kkill` touches only processes unless it is asked for pid 0 and comes to a free
slot before a process whose number is 0 in 32 bits. As long as it never hits a
free slot so, every process starts with `killed` clear, and is found killed only
after a `kkill` of its pid or a fault. -/
theorem kill_live_only (acts : List Act) :
    Meets (· = .initExiting) (run acts) start fun _ s =>
      (∀ pid, KillsLive pid s.procs ↔ pid ≠ 0 ∨ Shielded s) ∧
      (NeverStrays acts start →
        (∀ i, (s.procs i).state = .unused → (s.procs i).killed = false) ∧
        ∀ i, (s.procs i).killed = true → s.blamed i = true) := by
  refine (run_kills acts start_inv start_named).imp ?_
  rintro - s ⟨hn, hb⟩
  refine ⟨fun pid => killsLive_iff hn pid, fun hnever => ?_⟩
  have h := hb hnever start_blamed
  exact ⟨h.clean, h.killed⟩

/-- The second slot of the table. -/
def second : Fin nproc := ⟨1, by decide⟩

/-- Init calls `kkill(0)`, then forks. -/
def killThenFork : List Act :=
  [.run first, .kill first 0, .step first true, .step first true,
    .fork first, .step first true, .step first true, .step first true, .step first true]

theorem kill_zero_kills_newborn :
    (start.procs second).state = .unused ∧
      ((kkill 0 start.procs).map fun procs => (procs second).killed) = some true ∧
      ∃ s, (run killThenFork).run start = .ok ((), s) ∧ (s.procs second).state = .runnable ∧
        (s.procs second).pid = 2 ∧ (s.procs second).killed = true ∧ s.blamed second = false := by
  refine ⟨by decide +kernel, by decide +kernel, ?_⟩
  obtain ⟨⟨⟩, s, hok, ht⟩ := run_of_endsIn (show endsIn (run killThenFork) start (fun _ s =>
    decide ((s.procs second).state = .runnable ∧ (s.procs second).pid = 2 ∧
      (s.procs second).killed = true ∧ s.blamed second = false)) = true by decide +kernel)
  exact ⟨s, hok, of_decide_eq_true ht⟩

end Xv6.Wait
