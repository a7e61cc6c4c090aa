/-
Xv6.Proc.Moves — what one step does to a record of the process table.

`Moved` lists the changes that the code of `kfork`, `kexit`, `kwait`, `kkill`,
`sleep`, `wakeup`, `yield` and the scheduler makes to one slot, and `act_moves`
says that there are no others. What is shown elsewhere about pids, kills and
waiting times follows from this.
-/
import Xv6.Proc.WaitTheorems

namespace Xv6.Wait

open Xv6.Lib Function
open Xv6.Vm (nproc)

variable {s s' : State} {p q i np : Fin nproc} {c : Pc} {x y : Proc} {k n n' : Nat} {a : Act}
  {own runs stray : Prop} {b b' : Bool}

/-- How the record of a slot changes, and who is to blame for its `killed`. `own` if the step is
one of that process, `runs` if the scheduler picks it, `stray` if it is killed while the slot is
free; `n` and `n'` are `nextpid` before and after. -/
inductive Moved (own runs stray : Prop) (n n' : Nat) (x y : Proc) (b b' : Bool) : Prop where
  | same (now : y = x) (blamed : b' = b)
  | relinked (parent : Option (Fin nproc)) (now : y = { x with parent := parent })
      (blamed : b' = b)
  | woken (was : x.state = .sleeping) (now : y = x.makeRunnable) (blamed : b' = b)
  | killed (now : y = x.kill) (blamed : b' = true) (strays : x.state = .unused → stray)
  | taken (was : x.state = .unused) (now : y =
      { x with pid := n, state := .used, priority := defaultPriority, readySince := 0 })
      (blamed : b' = false) (next : n < n')
  | freed (was : x.state = .unused ∨ x.state = .zombie) (now : y = x.freed)
  | started (priority : Int) (was : x.state = .used)
      (now : y = { x with priority := priority, readySince := 0, state := .runnable })
      (blamed : b' = b)
  | ran (runs : runs) (chan : Option Chan) (was : x.state = .runnable)
      (now : y = { x with state := .running, chan := chan }) (blamed : b' = b)
  | yielded (own : own) (was : x.state = .running) (now : y = x.makeRunnable) (blamed : b' = b)
  | slept (own : own) (chan : Chan) (was : x.state = .running)
      (now : y = { x with chan := some chan, state := .sleeping }) (blamed : b' = b)
  | exited (own : own) (status : Int) (was : x.state = .running)
      (now : y = { x with xstate := status, state := .zombie }) (blamed : b' = b)

/-- Whose code performs the step; the scheduler and the handlers of interrupts
are not processes. -/
def Act.actor : Act → Option (Fin nproc)
  | .fork p | .exit p _ | .wait p _ | .kill p _ | .step p _ | .yield p | .block p _ | .fault p =>
    some p
  | .run _ | .wake _ _ => none

/-- All slots move so in step `a`, and at most one of them changes. -/
structure Moves (a : Act) (stray : Prop) (s s' : State) : Prop where
  slots : ∀ i, Moved (a.actor = some i) (a = .run i) stray s.nextpid s'.nextpid (s.procs i)
    (s'.procs i) (s.blamed i) (s'.blamed i)
  nextpid : s.nextpid ≤ s'.nextpid
  only : ∃ i, ∀ q, q ≠ i → s'.procs q = s.procs q

/-- One slot changes, and one blame. -/
theorem Moves.slot (hprocs : ∀ q, q ≠ i → s'.procs q = s.procs q)
    (hblamed : ∀ q, q ≠ i → s'.blamed q = s.blamed q) (hn : s.nextpid ≤ s'.nextpid)
    (h : Moved (a.actor = some i) (a = .run i) stray s.nextpid s'.nextpid (s.procs i) (s'.procs i)
      (s.blamed i) (s'.blamed i)) : Moves a stray s s' := by
  refine ⟨fun q => ?_, hn, i, hprocs⟩
  by_cases e : q = i
  · exact e ▸ h
  · exact .same (hprocs q e) (hblamed q e)

/-- Only places, the lock or the trace change. -/
theorem Moves.none (hprocs : s'.procs = s.procs) (hblamed : s'.blamed = s.blamed)
    (hn : s'.nextpid = s.nextpid) : Moves a stray s s' :=
  ⟨fun q => .same (by rw [hprocs]) (by rw [hblamed]), Nat.le_of_eq hn.symm, first,
    fun q _ => by rw [hprocs]⟩

/-- One slot changes. -/
theorem Moves.one (hprocs : s'.procs = update s.procs i x) (hblamed : s'.blamed = s.blamed)
    (hn : s'.nextpid = s.nextpid) (h : Moved (a.actor = some i) (a = .run i) stray s.nextpid
      s.nextpid (s.procs i) x (s.blamed i) (s.blamed i)) : Moves a stray s s' := by
  refine .slot (i := i) (fun q hq => ?_) (fun q _ => by rw [hblamed]) (Nat.le_of_eq hn.symm) ?_
  · rw [hprocs, update_of_ne hq]
  · rw [hprocs, update_self, hblamed, hn]
    exact h

/-- One slot changes, and who is to blame for it. -/
theorem Moves.blame (hprocs : s'.procs = update s.procs i x)
    (hblamed : s'.blamed = update s.blamed i b) (hn : s.nextpid ≤ s'.nextpid)
    (h : Moved (a.actor = some i) (a = .run i) stray s.nextpid s'.nextpid (s.procs i) x
      (s.blamed i) b) : Moves a stray s s' := by
  refine .slot (i := i) (fun q hq => ?_) (fun q hq => ?_) hn ?_
  · rw [hprocs, update_of_ne hq]
  · rw [hblamed, update_of_ne hq]
  · rw [hprocs, hblamed, update_self, update_self]
    exact h

theorem wakeup_moved {procs : Table} {me : Option (Fin nproc)} {chan : Chan} :
    Moved own runs stray n n' (procs i) (wakeup me chan procs i) b b := by
  unfold wakeup
  split
  · rename_i hw
    exact .woken hw.2.1 rfl rfl
  · exact .same rfl rfl

theorem wakeSlot_moves {o : Option (Fin nproc)} :
    Moves a stray s ((wakeSlot p o i s).goto p c) := by
  cases o with
  | none => exact .none rfl rfl rfl
  | some q => exact .one rfl rfl rfl wakeup_moved

theorem alloc_moves (ok : Bool) : Moves a stray s (allocStep p k ok s) := by
  unfold allocStep
  cases slot k with
  | none => exact .none rfl rfl rfl
  | some i =>
    dsimp only
    split
    · rename_i hu
      split
      · exact .blame rfl rfl (Nat.le_succ _) (.taken hu rfl rfl (Nat.lt_succ_self _))
      · exact .blame rfl rfl (Nat.le_succ _) (.freed (.inl hu) rfl)
    · exact .none rfl rfl rfl

theorem scan_moves (addr : Nat) (havekids ok : Bool) :
    Moves a stray s (scanStep p addr k havekids ok s) := by
  unfold scanStep
  cases slot k with
  | none =>
    dsimp only
    split <;> exact .none rfl rfl rfl
  | some i =>
    dsimp only
    split
    · split
      · rename_i hz
        split
        · exact .none rfl rfl rfl
        · exact .one rfl rfl rfl (.freed (.inr hz) rfl)
      · exact .none rfl rfl rfl
    · exact .none rfl rfl rfl

theorem kill_moves (pid : Int)
    (h : ∀ i, slot k = some i → (s.procs i).state = .unused → (s.procs i).pid32 = pid → stray) :
    Moves a stray s (killStep p pid k s) := by
  unfold killStep
  cases hk : slot k with
  | none => exact .none rfl rfl rfl
  | some i =>
    dsimp only
    split
    · rename_i hpid
      exact .blame rfl rfl (Nat.le_refl _) (.killed rfl rfl fun hu => h i hk hu hpid)
    · exact .none rfl rfl rfl

theorem acquire_moves : Moves a stray s (acquireThen p c s) := by
  unfold acquireThen
  split <;> exact .none rfl rfl rfl

theorem pcStep_moves (h : Inv s) (hrun : (s.procs p).state = .running) (ok : Bool)
    (ha : a.actor = some p) (hstray : ∀ k i, s.pc p = .kill (s.procs i).pid32 k → slot k = some i →
      (s.procs i).state = .unused → stray) : Moves a stray s (pcStep p ok s) := by
  unfold pcStep
  cases hc : s.pc p with
  | alloc k => exact alloc_moves ok
  | adopt np =>
    dsimp only
    split
    · exact .one rfl rfl rfl (.relinked (some p) rfl rfl)
    · exact .none rfl rfl rfl
  | start np =>
    exact .one rfl rfl rfl (.started (s.procs p).priority ((h.at_pc hc).child np rfl) rfl rfl)
  | exit status => exact acquire_moves
  | reparent status k =>
    dsimp only
    unfold reparentStep
    cases slot k with
    | none => exact .none rfl rfl rfl
    | some i =>
      dsimp only
      split
      · exact .one rfl rfl rfl (.relinked (some s.initproc) rfl rfl)
      · exact .none rfl rfl rfl
  | wakeInit status k j =>
    dsimp only
    unfold wakeInitStep
    cases slot j with
    | none => exact .none rfl rfl rfl
    | some i => exact wakeSlot_moves
  | wakeParent status o j =>
    dsimp only
    unfold wakeParentStep
    cases slot j with
    | none => exact .none rfl rfl rfl
    | some i => exact wakeSlot_moves
  | mark status => exact .one rfl rfl rfl (.exited ha status hrun rfl rfl)
  | wait addr => exact acquire_moves
  | scan addr k havekids => exact scan_moves addr havekids ok
  | check addr =>
    dsimp only
    unfold checkStep
    split <;> exact .none rfl rfl rfl
  | sleep addr => exact .one rfl rfl rfl (.slept ha (.proc p) hrun rfl rfl)
  | kill pid k => exact kill_moves pid fun i hk hu he => hstray k i (by rw [hc, he]) hk hu
  | _ => exact .none rfl rfl rfl

/-- The process runs, and nothing else happens to the table. -/
structure Ran (p : Fin nproc) (s s' : State) : Prop where
  procs : ∃ chan, s'.procs = update s.procs p { s.procs p with state := .running, chan := chan }
  blamed : s'.blamed = s.blamed
  nextpid : s'.nextpid = s.nextpid

theorem resume_ran (hc : s.pc p ≠ .dead) : Total (resume p s) s fun s' _ => Ran p s s' := by
  unfold resume
  cases hpc : s.pc p with
  | dead => exact absurd hpc hc
  | asleep addr => exact meets_pure ⟨⟨none, rfl⟩, rfl, rfl⟩
  | blocked => exact meets_pure ⟨⟨none, rfl⟩, rfl, rfl⟩
  | _ => exact meets_pure ⟨⟨(s.procs p).chan, rfl⟩, rfl, rfl⟩

/-- The scheduler's change. -/
theorem run_ran (h : Inv s) (hr : (s.procs p).state = .runnable) :
    Total (act (.run p)) s fun _ s' => Inv s' ∧ Ran p s s' := by
  have hc : s.pc p ≠ .dead := by
    intro hc
    have hfits := (h.at_pc hc).fits
    simp [hr, Pc.fits] at hfits
  refine meets_read (meets_if hr ?_)
  refine Meets.seq ((resume_spec True h hr).and (resume_ran hc)) ?_
  rintro s1 - ⟨⟨h1, -⟩, hran⟩
  exact meets_set ⟨h1, hran⟩

theorem act_moves (h : Inv s) (a : Act) (hstray : ∀ p ok k i, a = .step p ok →
      (s.procs p).state = .running → s.pc p = .kill (s.procs i).pid32 k → slot k = some i →
      (s.procs i).state = .unused → stray) :
    Meets (· = .initExiting) (act a) s fun _ s' => Moves a stray s s' := by
  cases a with
  | fork p | wait p addr | kill p pid =>
    refine meets_modify ?_
    split <;> exact .none rfl rfl rfl
  | exit p status =>
    refine meets_read (meets_ite (fun _ => meets_ite (fun _ => meets_throw rfl)
      (fun _ => meets_set (.none rfl rfl rfl))) (fun _ => meets_pure (.none rfl rfl rfl)))
  | step p ok =>
    exact meets_modify_ite (fun hrun => pcStep_moves h hrun ok rfl fun k i =>
      hstray p ok k i rfl hrun) fun _ => .none rfl rfl rfl
  | run p =>
    by_cases hr : (s.procs p).state = .runnable
    · refine (run_ran h hr).meets.imp ?_
      rintro - s' ⟨-, ⟨chan, hprocs⟩, hblamed, hn⟩
      exact .one hprocs hblamed hn (.ran rfl chan hr rfl rfl)
    · refine meets_read (meets_else hr ?_)
      exact meets_pure (.none rfl rfl rfl)
  | yield p =>
    exact meets_modify_ite (fun hrun => .one rfl rfl rfl (.yielded rfl hrun.1 rfl rfl))
      fun _ => .none rfl rfl rfl
  | block p a =>
    exact meets_modify_ite (fun hin => .one rfl rfl rfl (.slept rfl (.addr a) hin.1 rfl rfl))
      fun _ => .none rfl rfl rfl
  | wake i a => exact meets_modify (.one rfl rfl rfl wakeup_moved)
  | fault p =>
    refine meets_modify_ite (fun hin => ?_) fun _ => .none rfl rfl rfl
    refine .blame rfl rfl (Nat.le_refl _) (.killed ?_ rfl fun hu => by simp [hin.1] at hu)
    simp [Proc.kill, hin.1]

/-- Who becomes RUNNABLE begins a new waiting period. -/
theorem Moved.begins (h : Moved own runs stray n n' x y b b') (hx : x.state ≠ .runnable)
    (hy : y.state = .runnable) : y.readySince = 0 := by
  cases h with
  | same e | relinked o e =>
    subst e
    exact absurd hy hx
  | killed e =>
    subst e
    by_cases hs : x.state = .sleeping
    · simp [Proc.kill, hs, Proc.makeRunnable]
    · simp [Proc.kill, hs, hx] at hy
  | woken hs e | started v hs e | yielded _ hs e =>
    subst e
    rfl
  | taken hs e | freed hs e | ran _ _ hs e | slept _ _ hs e | exited _ _ hs e =>
    subst e
    cases hy

/-- Only the scheduler takes a process out of RUNNABLE. -/
theorem Moved.waits (h : Moved own runs stray n n' x y b b') (hno : ¬ runs)
    (hx : x.state = .runnable) :
    y.state = .runnable ∧ y.readySince = x.readySince ∧ y.priority = x.priority := by
  cases h with
  | same e | relinked o e | killed e => simp [e, Proc.kill, hx]
  | ran hr => exact absurd hr hno
  | taken hs | freed hs | woken hs | started _ hs | yielded _ hs | slept _ _ hs | exited _ _ hs =>
    simp [hx] at hs

/-- Only the scheduler lets a process run, and it stops by a step of its own. -/
theorem Moved.running (h : Moved own runs stray n n' x y b b') (hown : ¬ own) (hno : ¬ runs) :
    y.state = .running ↔ x.state = .running := by
  cases h with
  | same e | relinked o e => rw [e]
  | killed e =>
    by_cases hs : x.state = .sleeping <;> simp [e, Proc.kill, hs, Proc.makeRunnable]
  | ran hr => exact absurd hr hno
  | yielded ho | slept ho | exited ho => exact absurd ho hown
  | freed hs e => rcases hs with hs | hs <;> simp [e, hs, Proc.freed]
  | taken hs e | woken hs e | started _ hs e => simp [e, hs, Proc.makeRunnable]

end Xv6.Wait
