/-
Xv6.Proc.Pids — process ids are 32-bit ints.

In `Proc` a pid is the number of its allocation. `nextpid` and `p->pid` are of
type `int`, so what the kernel sees is that number in 32 bits (`Proc.pid32`), and
`nextpid` goes on from 2^31 - 1 to -2^31.

§1 pids that identify, §2 what one step does to the pids, §3 runs, §4 a run that
hands out any number.
-/
import Xv6.Lib.Script
import Xv6.Proc.KillTheorems

namespace Xv6.Wait

open Xv6.Lib Function
open Xv6.Vm (nproc)

variable {s s' : State} {p q i j np : Fin nproc} {c : Pc} {k n : Nat} {a : Act}

/-! ## §1 Pids that identify -/

/-- What `kfork` returns if it returns in this step, and the child it made. -/
def forkReturns (a : Act) (s : State) : Option (Int × Option (Fin nproc)) :=
  match a with
  | .step p ok =>
    if (s.procs p).state = .running then
      match s.pc p with
      | .alloc k =>
        match slot k with
        | none => some (-1, none)
        | some i => if (s.procs i).state = .unused ∧ ok = false then some (-1, none) else none
      | .start np => some ((s.procs np).pid32, some np)
      | _ => none
    else none
  | _ => none

/-- Pids tell the processes apart, and `kfork` returns a negative value only
without a child. -/
structure Identified (s : State) : Prop where
  distinct : ∀ i j, (s.procs i).state ≠ .unused → (s.procs j).state ≠ .unused →
    (s.procs i).pid32 = (s.procs j).pid32 → i = j
  positive : ∀ i, (s.procs i).state ≠ .unused → 0 < (s.procs i).pid32
  returned : ∀ a r child, forkReturns a s = some (r, child) → r < 0 → child = none

/-- If the step takes a slot into use, the pid that `allocpid` hands out is
positive and nobody has it. -/
def Fresh (a : Act) (s : State) : Prop :=
  ∀ s' i, (act a).run s = .ok ((), s') → (s.procs i).state = .unused →
    (s'.procs i).state ≠ .unused →
      0 < int32 s.nextpid ∧ ∀ j, (s.procs j).state ≠ .unused → (s.procs j).pid32 ≠ int32 s.nextpid

theorem int32_small (h : n < 2 ^ 31) : int32 n = n := by
  rw [int32, BitVec.toInt_ofInt, Int.bmod_eq_of_le] <;> omega

/-! ## §2 One step -/

/-- The slot that a step takes into use has the next pid, and the others
keep theirs. -/
theorem Moves.taken (ht : Moves a stray s s') (hi : (s.procs i).state = .unused)
    (hi' : (s'.procs i).state ≠ .unused) :
    (s'.procs i).pid = s.nextpid ∧ s.nextpid < s'.nextpid ∧
      ∀ j, j ≠ i → s'.procs j = s.procs j := by
  obtain ⟨m, hm⟩ := ht.only
  have e : i = m := by
    by_contra hne
    exact hi' (by rw [hm i hne, hi])
  subst e
  cases (ht.slots i).turn with
  | keep _ hu _ _ => exact absurd (hu.mpr hi) hi'
  | kill _ hu _ _ _ => exact absurd (hu.mpr hi) hi'
  | new _ _ hpid hnext _ _ => exact ⟨hpid, hnext, hm⟩
  | free hu _ _ => exact absurd hu hi'

/-- A slot in use before and after a step has kept its pid. -/
theorem Moves.pid_eq (ht : Moves a stray s s') (hi : (s.procs i).state ≠ .unused)
    (hi' : (s'.procs i).state ≠ .unused) : (s'.procs i).pid = (s.procs i).pid := by
  cases (ht.slots i).turn with
  | keep hpid _ _ _ => exact hpid
  | kill hpid _ _ _ _ => exact hpid
  | new hw _ _ _ _ _ => exact absurd hw hi
  | free hu _ _ => exact absurd hu hi'

/-! ## §3 Runs -/

/-- The numbers of the processes tell them apart. -/
structure Numbered (s : State) : Prop where
  below : ∀ i, (s.procs i).state ≠ .unused → 0 < (s.procs i).pid ∧ (s.procs i).pid < s.nextpid
  distinct : ∀ i j, (s.procs i).state ≠ .unused → (s.procs j).state ≠ .unused →
    (s.procs i).pid = (s.procs j).pid → i = j

/-- A property of the pids in use, for a reading `f` of the numbers: `f` tells
the next pid from those in use, or no slot is taken. -/
theorem Moves.distinct {f : Nat → Int} (ht : Moves a stray s s')
    (hold : ∀ i j, (s.procs i).state ≠ .unused → (s.procs j).state ≠ .unused →
      f (s.procs i).pid = f (s.procs j).pid → i = j)
    (hnew : ∀ i, (s.procs i).state = .unused → (s'.procs i).state ≠ .unused →
      ∀ j, (s.procs j).state ≠ .unused → f (s.procs j).pid ≠ f s.nextpid) (i j : Fin nproc)
    (hi : (s'.procs i).state ≠ .unused) (hj : (s'.procs j).state ≠ .unused)
    (he : f (s'.procs i).pid = f (s'.procs j).pid) : i = j := by
  by_cases ui : (s.procs i).state = .unused
  · obtain ⟨hpid, -, hrest⟩ := ht.taken ui hi
    by_contra hne
    rw [hrest j (Ne.symm hne)] at hj he
    rw [hpid] at he
    exact hnew i ui hi j hj he.symm
  · by_cases uj : (s.procs j).state = .unused
    · obtain ⟨hpid, -, hrest⟩ := ht.taken uj hj
      by_contra hne
      rw [hrest i hne] at hi he
      rw [hpid] at he
      exact hnew j uj hj i hi he
    · rw [ht.pid_eq ui hi, ht.pid_eq uj hj] at he
      exact hold i j ui uj he

theorem Numbered.next (h : Numbered s) (hn : Named s) (ht : Moves a stray s s') : Numbered s' where
  below i hi := by
    by_cases ui : (s.procs i).state = .unused
    · obtain ⟨hpid, hnext, -⟩ := ht.taken ui hi
      rw [hpid]
      exact ⟨hn.nextpid, hnext⟩
    · rw [ht.pid_eq ui hi]
      exact ⟨(h.below i ui).1, Nat.lt_of_lt_of_le (h.below i ui).2 ht.nextpid⟩
  distinct i j hi hj he := by
    refine ht.distinct (f := fun m => (m : Int)) ?_ ?_ i j hi hj (congrArg _ he)
    · intro i j ui uj e
      exact h.distinct i j ui uj (by simpa using e)
    · intro i _ _ j uj e
      have hlt := (h.below j uj).2
      omega

/-- `kfork` returns the pid of a slot in use, or -1. -/
theorem Inv.returned (h : Inv s) (hpos : ∀ i, (s.procs i).state ≠ .unused → 0 < (s.procs i).pid32)
    {r : Int} {child : Option (Fin nproc)} (hr : forkReturns a s = some (r, child)) (hneg : r < 0) :
    child = none := by
  unfold forkReturns at hr
  cases a with
  | step p ok =>
    dsimp only at hr
    split at hr
    · cases hc : s.pc p with
      | start np =>
        rw [hc] at hr
        simp only [Option.some.injEq, Prod.mk.injEq] at hr
        have hu := (h.at_pc hc).child np rfl
        have := hpos np (by simp [hu])
        omega
      | alloc k =>
        rw [hc] at hr
        dsimp only at hr
        split at hr
        · cases hr
          rfl
        · split at hr
          · cases hr
            rfl
          · cases hr
      | _ =>
        rw [hc] at hr
        cases hr
    · cases hr
  | _ => cases hr

/-- While the numbers fit an `int`. -/
theorem Numbered.identified (hn : Numbered s) (h : Inv s) (hlt : s.nextpid ≤ 2 ^ 31) :
    Identified s := by
  have heq : ∀ i, (s.procs i).state ≠ .unused → (s.procs i).pid32 = (s.procs i).pid := by
    intro i hi
    have := (hn.below i hi).2
    exact int32_small (by omega)
  have hpos : ∀ i, (s.procs i).state ≠ .unused → 0 < (s.procs i).pid32 := by
    intro i hi
    rw [heq i hi]
    exact_mod_cast (hn.below i hi).1
  refine ⟨fun i j hi hj he => ?_, hpos, fun a r child hr hneg => h.returned hpos hr hneg⟩
  rw [heq i hi, heq j hj] at he
  exact hn.distinct i j hi hj (by exact_mod_cast he)

theorem Identified.next (hs : Identified s) (ht : Moves a stray s s') (h' : Inv s')
    (hf : ∀ i, (s.procs i).state = .unused → (s'.procs i).state ≠ .unused →
      0 < int32 s.nextpid ∧
        ∀ j, (s.procs j).state ≠ .unused → (s.procs j).pid32 ≠ int32 s.nextpid) :
    Identified s' := by
  have hpos : ∀ i, (s'.procs i).state ≠ .unused → 0 < (s'.procs i).pid32 := by
    intro i hi
    by_cases ui : (s.procs i).state = .unused
    · have hpid := (ht.taken ui hi).1
      rw [Proc.pid32, hpid]
      exact (hf i ui hi).1
    · rw [Proc.pid32, ht.pid_eq ui hi]
      exact hs.positive i ui
  refine ⟨fun i j hi hj he => ?_, hpos, fun a r child hr hneg => h'.returned hpos hr hneg⟩
  exact ht.distinct (f := fun m => int32 m) hs.distinct (fun i ui hi => (hf i ui hi).2) i j hi hj he

/-- A pid that is not positive or already in use is seen after the step. -/
theorem Identified.fresh (hs' : Identified s') (ht : Moves a stray s s')
    (hi : (s.procs i).state = .unused) (hi' : (s'.procs i).state ≠ .unused) :
    0 < int32 s.nextpid ∧
      ∀ j, (s.procs j).state ≠ .unused → (s.procs j).pid32 ≠ int32 s.nextpid := by
  obtain ⟨hpid, -, hrest⟩ := ht.taken hi hi'
  have hself : (s'.procs i).pid32 = int32 s.nextpid := by rw [Proc.pid32, hpid]
  refine ⟨hself ▸ hs'.positive i hi', fun j hj he => ?_⟩
  have hne : j ≠ i := by
    rintro rfl
    exact hj hi
  have hsame : (s'.procs j).pid32 = (s.procs j).pid32 := by rw [Proc.pid32, hrest j hne, Proc.pid32]
  exact hne (hs'.distinct j i (by rwa [hrest j hne]) hi' (by rw [hsame, he, hself]))

/-- What holds in every run. -/
structure Listed (s : State) : Prop where
  inv : Inv s
  named : Named s
  numbered : Numbered s

theorem Listed.next (h : Listed s) (ha : (act a).run s = .ok ((), s')) :
    Listed s' ∧ Moves a True s s' := by
  obtain ⟨⟨h1, -⟩, ht⟩ := ((act_spec h.inv a).and
    (act_moves h.inv a fun _ _ _ _ _ _ _ _ _ => trivial)).post ha
  exact ⟨⟨h1, h.named.next ht, h.numbered.next h.named ht⟩, ht⟩

theorem start_listed : Listed start := by
  refine ⟨start_inv, start_named, fun i hi => ?_, fun i j hi hj _ => ?_⟩
  · rcases start_slot i with ⟨-, e⟩ | ⟨-, e⟩
    · rw [e]
      decide
    · simp [e, Proc.empty] at hi
  · rcases start_slot i with ⟨e, -⟩ | ⟨-, e⟩
    · rcases start_slot j with ⟨e', -⟩ | ⟨-, e'⟩
      · rw [e, e']
      · simp [e', Proc.empty] at hj
    · simp [e, Proc.empty] at hi

/-- Pids identify the processes in all states of a run iff every slot is taken
with a pid that is positive and not in use. That is so until 2^31 pids have been
handed out. -/
theorem pids_identify_iff_fresh (acts : List Act) :
    ((∀ bs cs, acts = bs ++ cs → ∀ s, Ends act bs start s → Identified s) ↔
      ∀ bs a cs, acts = bs ++ a :: cs → ∀ s, Ends act bs start s → Fresh a s) ∧
    ∀ s, Ends act acts start s → s.nextpid ≤ 2 ^ 31 → Identified s := by
  have hlisted : ∀ bs s, Ends act bs start s → Listed s := fun bs s hs =>
    hs.invariant (fun a s t h ha => (h.next ha).1) start_listed
  refine ⟨⟨fun hall bs a cs e s hs s' i ha hi hi' => ?_, fun hfresh bs cs e s hs => ?_⟩,
    fun s hs hlt => ?_⟩
  · have hs' : Identified s' := hall (bs ++ [a]) cs (by simp [e]) s' (ends_snoc.mpr ⟨s, hs, ha⟩)
    exact hs'.fresh ((hlisted bs s hs).next ha).2 hi hi'
  · refine (hs.along (I := fun s => Listed s ∧ Identified s) (R := Fresh) ?_ ?_ e hfresh).2
    · rintro a s t ⟨h, hid⟩ hf ha
      obtain ⟨h', ht⟩ := h.next ha
      exact ⟨h', hid.next ht h'.inv fun i => hf t i ha⟩
    · exact ⟨start_listed, start_listed.numbered.identified start_inv (by decide)⟩
  · have h := hlisted acts s hs
    exact h.numbered.identified h.inv hlt

/-! ## §4 Any number is handed out -/

/-- Init runs, the next slot is free, and the next pid is `n`. -/
structure Alone (n : Nat) (s : State) : Prop where
  init : (s.procs first).state = .running ∧ (s.procs first).pid = 1
  free : (s.procs second).state = .unused
  place : s.pc first = .user
  lock : s.lock = none
  nextpid : s.nextpid = n

theorem fork_run (h : s.inUser p) : (act (.fork p)).run s = .ok ((), s.goto p (.alloc 0)) := by
  have e : (act (.fork p)).run s = .ok ((), if s.inUser p then s.goto p (.alloc 0) else s) := rfl
  rw [e, if_pos h]

theorem step_run (h : (s.procs p).state = .running) (ok : Bool) :
    (act (.step p ok)).run s = .ok ((), pcStep p ok s) := by
  have e : (act (.step p ok)).run s =
      .ok ((), if (s.procs p).state = .running then pcStep p ok s else s) := rfl
  rw [e, if_pos h]

/-- `kfork` has passed the slot of init. -/
theorem Alone.search (h : Alone n s) :
    Ends act [.fork first, .step first true] s
      ((s.goto first (.alloc 0)).goto first (.alloc 1)) := by
  refine ends_cons.mpr ⟨_, fork_run ⟨h.init.1, h.place⟩,
    ends_cons.mpr ⟨_, step_run (by exact h.init.1) true, ?_⟩⟩
  have hslot : slot 0 = some first := by decide
  simp [pcStep, allocStep, hslot, h.init.1]

/-- A `kfork` that runs out of memory has used a pid. -/
theorem Alone.failed_fork (h : Alone n s) :
    ∃ t, Ends act ([.fork first, .step first true] ++ [.step first false]) s t ∧
      Alone (n + 1) t := by
  have hslot : slot 1 = some second := by decide
  have hne : first ≠ second := by decide
  refine ⟨_, ends_snoc.mpr ⟨_, h.search, step_run (by exact h.init.1) false⟩, ?_⟩
  simp only [pcStep, State.goto_self, allocStep, hslot, State.goto_procs, h.free]
  exact ⟨by simp [State.goto, State.setProc, hne, h.init], by simp [State.setProc, Proc.freed],
    by simp, h.lock, congrArg (· + 1) h.nextpid⟩

/-- Init forks until the pids before `n` are used up. -/
theorem Alone.reach (h : Alone n s) (k : Nat) : ∃ acts t, Ends act acts s t ∧ Alone (n + k) t := by
  induction k with
  | zero => exact ⟨[], s, ends_nil.mpr rfl, h⟩
  | succ k ih =>
    obtain ⟨acts, t, ht, halone⟩ := ih
    obtain ⟨u, hu, hnext⟩ := halone.failed_fork
    exact ⟨_, u, ends_append.mpr ⟨t, ht, hu⟩, hnext⟩

/-- The child gets the next pid, and `kfork` is about to return it. -/
theorem Alone.forks (h : Alone n s) :
    ∃ acts t, Ends act acts s t ∧ (t.procs first).state = .running ∧ (t.procs first).pid = 1 ∧
      (t.procs second).state = .used ∧ (t.procs second).pid = n ∧ t.pc first = .start second := by
  have hslot : slot 1 = some second := by decide
  have hne : first ≠ second := by decide
  refine ⟨[.fork first, .step first true] ++ [.step first true] ++ [.step first true], _,
    ends_snoc.mpr ⟨_, ends_snoc.mpr ⟨_, h.search, step_run (by exact h.init.1) true⟩,
      step_run ?_ true⟩, ?_⟩
  · simp only [pcStep, State.goto_self, allocStep, hslot, State.goto_procs, h.free]
    simp [State.setProc, hne, h.init]
  · simp only [pcStep, State.goto_self, allocStep, hslot, State.goto_procs, h.free]
    have hnext : ((s.goto first (.alloc 0)).goto first (.alloc 1)).nextpid = n := h.nextpid
    simp [adoptStep, State.setProc, hne, h.init, h.lock, hnext]

/-- Init is scheduled for the first time. -/
theorem start_alone : ∃ s, Ends act [.run first] start s ∧ Alone 2 s := by
  refine ⟨_, ends_cons.mpr ⟨_, rfl, ends_nil.mpr rfl⟩, ?_⟩
  exact ⟨by decide, by decide, rfl, rfl, rfl⟩

theorem start_forks (h : 2 ≤ n) :
    ∃ acts s, Ends act acts start s ∧ (s.procs first).state = .running ∧
      (s.procs first).pid = 1 ∧ (s.procs second).state = .used ∧ (s.procs second).pid = n ∧
      s.pc first = .start second := by
  obtain ⟨s1, hs1, h1⟩ := start_alone
  obtain ⟨acts2, s2, hs2, h2⟩ := h1.reach (n - 2)
  rw [Nat.add_sub_cancel' h] at h2
  obtain ⟨acts3, s3, hs3, h3⟩ := h2.forks
  exact ⟨_, s3, ends_append.mpr ⟨s2, ends_append.mpr ⟨s1, hs1, hs2⟩, hs3⟩, h3⟩

/-- With allocation number 2^31 the child's pid is negative, and `kfork` returns
it. With number 2^32 + 1 the child has the pid of init. -/
theorem pid_wraps_around :
    (∃ acts s, Ends act acts start s ∧ (s.procs second).state = .used ∧
      (s.procs second).pid32 = -2147483648 ∧
      forkReturns (.step first true) s = some (-2147483648, some second)) ∧
    ∃ acts s, Ends act acts start s ∧ (s.procs first).state = .running ∧
      (s.procs second).state = .used ∧ (s.procs second).pid32 = (s.procs first).pid32 := by
  constructor
  · obtain ⟨acts, s, hs, hrun, -, hused, hpid, hpc⟩ := start_forks (show 2 ≤ 2 ^ 31 by decide)
    have h32 : (s.procs second).pid32 = -2147483648 := by
      rw [Proc.pid32, hpid]
      decide
    refine ⟨acts, s, hs, hused, h32, ?_⟩
    simp [forkReturns, hrun, hpc, h32]
  · obtain ⟨acts, s, hs, hrun, hone, hused, hpid, -⟩ := start_forks (show 2 ≤ 2 ^ 32 + 1 by decide)
    refine ⟨acts, s, hs, hrun, hused, ?_⟩
    rw [Proc.pid32, Proc.pid32, hpid, hone]
    decide

end Xv6.Wait
