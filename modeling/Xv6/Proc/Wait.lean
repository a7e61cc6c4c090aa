/-
Xv6.Proc.Wait — `kfork`, `kexit`, `kwait` and `kkill` on many CPUs, from
`kernel/proc.c`.

Each process has a place `Pc` in the code of these functions, and a step runs
one critical section: what a process does under `wait_lock` is cut at the
points where it takes or releases a `p->lock`. Steps of different processes
come in any order, so the number of CPUs does not matter. Which process runs
is left open, and so is whether memory can be allocated or copied.

`trace`, `blamed` are not in the kernel: they record what the calls returned
and which processes were killed or faulted since they were created.
-/
import Xv6.Lib.Outcome
import Xv6.Proc.Table

namespace Xv6.Wait

open Xv6.Vm (nproc)
open Function

/-! ## §1 State -/

/-- Where a process is. `k` and `j` are the next slots of loops over the
table. -/
inductive Pc where
  | user
  -- asleep on something other than a slot of the table
  | blocked
  -- `kfork`: look for a slot, set the child's parent, make it RUNNABLE
  | alloc (k : Nat)
  | adopt (np : Fin nproc)
  | start (np : Fin nproc)
  -- `kexit`
  | exit (status : Int)
  | reparent (status : Int) (k : Nat)
  | wakeInit (status : Int) (k j : Nat)
  | wakeParent (status : Int) (parent : Option (Fin nproc)) (j : Nat)
  | mark (status : Int)
  | dead
  -- `kwait`
  | wait (addr : Nat)
  | scan (addr k : Nat) (havekids : Bool)
  | check (addr : Nat)
  | sleep (addr : Nat)
  | asleep (addr : Nat)
  -- `kkill`
  | kill (pid : Int) (k : Nat)
  deriving DecidableEq, Repr

/-- What `kexit` and the returns of `kwait` leave in the trace. -/
inductive Event where
  | exited (pid : Nat) (xstate : Int)
  -- `kwait` of process `q` returns the pid; `stored` if the caller wants the status
  | waited (q : Fin nproc) (pid : Nat) (xstate : Int) (stored : Bool)
  -- it returns -1
  | failed (q : Fin nproc)
  deriving DecidableEq, Repr

inductive Panic where
  | initExiting
  | zombieExit
  deriving DecidableEq, Repr

structure State where
  procs : Table
  pc : Fin nproc → Pc
  initproc : Fin nproc
  nextpid : Nat
  /-- The holder of `wait_lock`. -/
  lock : Option (Fin nproc)
  trace : List Event
  blamed : Fin nproc → Bool

/-- The first slot of the table. -/
def first : Fin nproc := ⟨0, Vm.nproc_pos⟩

/-- `userinit` takes the first slot of the empty table. -/
def start : State where
  procs := update (fun _ => .empty) first
    { Proc.empty with pid := 1, priority := defaultPriority, state := .runnable }
  pc _ := .user
  initproc := first
  nextpid := 2
  lock := none
  trace := []
  blamed _ := false

abbrev W (α : Type) := StateT State (Except Panic) α

def State.setProc (s : State) (i : Fin nproc) (x : Proc) : State :=
  { s with procs := update s.procs i x }

def State.goto (s : State) (p : Fin nproc) (c : Pc) : State := { s with pc := update s.pc p c }

def State.log (s : State) (e : Event) : State := { s with trace := s.trace ++ [e] }

/-! ## §2 The critical sections -/

/-- Slot `k` of the table, if the loop has not come to its end. -/
def slot (k : Nat) : Option (Fin nproc) := if h : k < nproc then some ⟨k, h⟩ else none

/-- The next slot of `allocproc`, then the rest of `kfork` under the new
process's lock; `ok` if there is memory. -/
def allocStep (p : Fin nproc) (k : Nat) (ok : Bool) (s : State) : State :=
  match slot k with
  | none => s.goto p .user
  | some i =>
    if (s.procs i).state = .unused then
      let x := { s.procs i with
        pid := s.nextpid, state := .used, priority := defaultPriority, readySince := 0 }
      let s := { s with nextpid := s.nextpid + 1, blamed := update s.blamed i false }
      -- the new process's context starts at `forkret`
      if ok then ((s.setProc i x).goto i .user).goto p (.adopt i)
      else (s.setProc i x.freed).goto p .user
    else s.goto p (.alloc (k + 1))

def adoptStep (p np : Fin nproc) (s : State) : State :=
  (s.setProc np { s.procs np with parent := some p }).goto p (.start np)

def startStep (p np : Fin nproc) (s : State) : State :=
  (s.setProc np { s.procs np with
    priority := (s.procs p).priority, readySince := 0, state := .runnable }).goto p .user

section

variable (p : Fin nproc)

/-- The next slot of `reparent`'s loop. -/
def reparentStep (status : Int) (k : Nat) (s : State) : State :=
  match slot k with
  | none => s.goto p (.wakeParent status (s.procs p).parent 0)
  | some i =>
    if (s.procs i).parent = some p then
      (s.setProc i { s.procs i with parent := some s.initproc }).goto p (.wakeInit status k 0)
    else s.goto p (.reparent status (k + 1))

/-- The next slot of `wakeup(chan)`'s loop, for a process in `kwait`. -/
def wakeSlot (chan : Option (Fin nproc)) (j : Fin nproc) (s : State) : State :=
  match chan with
  | some q => s.setProc j (wakeup (some p) (.proc q) s.procs j)
  | none => s

def wakeInitStep (status : Int) (k j : Nat) (s : State) : State :=
  match slot j with
  | none => s.goto p (.reparent status (k + 1))
  | some i => (wakeSlot p (some s.initproc) i s).goto p (.wakeInit status k (j + 1))

def wakeParentStep (status : Int) (parent : Option (Fin nproc)) (j : Nat) (s : State) : State :=
  match slot j with
  | none => s.goto p (.mark status)
  | some i => (wakeSlot p parent i s).goto p (.wakeParent status parent (j + 1))

/-- The end of `kexit`: ZOMBIE, and `wait_lock` is free. -/
def markStep (status : Int) (s : State) : State :=
  ({ s.setProc p { s.procs p with xstate := status, state := .zombie } with lock := none }.goto p
    .dead).log (.exited (s.procs p).pid status)

/-- `kwait` returns and releases `wait_lock`. -/
def waitReturn (e : Event) (s : State) : State :=
  ({ s with lock := none }.goto p .user).log e

/-- The next slot of `kwait`'s loop; `ok` if the status can be copied out. -/
def scanStep (addr k : Nat) (havekids ok : Bool) (s : State) : State :=
  match slot k with
  | none =>
    if havekids then s.goto p (.check addr) else waitReturn p (.failed p) s
  | some i =>
    let x := s.procs i
    if x.parent = some p then
      if x.state = .zombie then
        if addr ≠ 0 ∧ ¬ ok then waitReturn p (.failed p) s
        else waitReturn p (.waited p x.pid x.xstate (addr ≠ 0)) (s.setProc i x.freed)
      else s.goto p (.scan addr (k + 1) true)
    else s.goto p (.scan addr (k + 1) havekids)

/-- `killed(p)` at the end of a round of `kwait`. -/
def checkStep (addr : Nat) (s : State) : State :=
  if (s.procs p).killed then waitReturn p (.failed p) s else s.goto p (.sleep addr)

/-- `sleep(p, &wait_lock)` until it gives up the CPU. -/
def sleepStep (addr : Nat) (s : State) : State :=
  { s.setProc p { s.procs p with chan := some (.proc p), state := .sleeping } with
    lock := none }.goto p (.asleep addr)

/-- The next slot of `kkill`'s loop. -/
def killStep (pid : Int) (k : Nat) (s : State) : State :=
  match slot k with
  | none => s.goto p .user
  | some i =>
    if (s.procs i).pid32 = pid then
      { s.setProc i (s.procs i).kill with blamed := update s.blamed i true }.goto p .user
    else s.goto p (.kill pid (k + 1))

/-- `acquire(&wait_lock)`; the step is not possible while it is taken. -/
def acquireThen (c : Pc) (s : State) : State :=
  if s.lock = none then { s with lock := some p }.goto p c else s

/-- The next critical section of process `p`. -/
def pcStep (ok : Bool) (s : State) : State :=
  match s.pc p with
  | .alloc k => allocStep p k ok s
  | .adopt np => if s.lock = none then adoptStep p np s else s
  | .start np => startStep p np s
  | .exit status => acquireThen p (.reparent status 0) s
  | .reparent status k => reparentStep p status k s
  | .wakeInit status k j => wakeInitStep p status k j s
  | .wakeParent status parent j => wakeParentStep p status parent j s
  | .mark status => markStep p status s
  | .wait addr => acquireThen p (.scan addr 0 false) s
  | .scan addr k havekids => scanStep p addr k havekids ok s
  | .check addr => checkStep p addr s
  | .sleep addr => sleepStep p addr s
  | .kill pid k => killStep p pid k s
  | .user | .blocked | .dead | .asleep _ => s

end

/-! ## §3 Runs -/

/-- Interrupts are off, so that the process keeps its CPU. -/
def Pc.holds : Pc → Bool
  | .reparent .. | .wakeInit .. | .wakeParent .. | .mark _ | .scan .. | .check _ | .sleep _ => true
  | _ => false

/-- What can happen next. -/
inductive Act where
  -- a process enters one of the functions
  | fork (p : Fin nproc)
  | exit (p : Fin nproc) (status : Int)
  | wait (p : Fin nproc) (addr : Nat)
  | kill (p : Fin nproc) (pid : Int)
  -- or goes on with it
  | step (p : Fin nproc) (ok : Bool)
  -- the scheduler picks it, a timer interrupt ends its turn
  | run (p : Fin nproc)
  | yield (p : Fin nproc)
  -- it waits for something else, which happens
  | block (p : Fin nproc) (a : Nat)
  | wake (i : Fin nproc) (a : Nat)
  -- `usertrap` kills it
  | fault (p : Fin nproc)
  deriving DecidableEq, Repr

/-- Process `p` runs outside these functions. -/
def State.inUser (s : State) (p : Fin nproc) : Prop :=
  (s.procs p).state = .running ∧ s.pc p = .user

instance (s : State) (p : Fin nproc) : Decidable (s.inUser p) := by
  unfold State.inUser
  infer_instance

/-- The end of `sched()` in process `p`: the rest of `sleep`, if it slept. -/
def resume (p : Fin nproc) (s : State) : W State :=
  let x := { s.procs p with state := .running }
  match s.pc p with
  | .asleep addr => return (s.setProc p { x with chan := none }).goto p (.wait addr)
  | .blocked => return (s.setProc p { x with chan := none }).goto p .user
  | .dead => throw .zombieExit
  | _ => return s.setProc p x

/-- One step; nothing happens if it is not possible. -/
def act : Act → W Unit
  | .fork p => modify fun s => if s.inUser p then s.goto p (.alloc 0) else s
  | .exit p status => do
    let s ← get
    if s.inUser p then
      if p = s.initproc then throw .initExiting else set (s.goto p (.exit status))
    else return
  | .wait p addr => modify fun s => if s.inUser p then s.goto p (.wait addr) else s
  | .kill p pid => modify fun s => if s.inUser p then s.goto p (.kill pid 0) else s
  | .step p ok => modify fun s => if (s.procs p).state = .running then pcStep p ok s else s
  | .run p => do
    let s ← get
    if (s.procs p).state = .runnable then set (← resume p s) else return
  | .yield p => modify fun s =>
    if (s.procs p).state = .running ∧ ¬ (s.pc p).holds then
      s.setProc p (s.procs p).makeRunnable
    else s
  | .block p a => modify fun s =>
    if s.inUser p then
      (s.setProc p { s.procs p with chan := some (.addr a), state := .sleeping }).goto p .blocked
    else s
  | .wake i a => modify fun s => s.setProc i (wakeup none (.addr a) s.procs i)
  | .fault p => modify fun s =>
    if s.inUser p then
      { s.setProc p { s.procs p with killed := true } with blamed := update s.blamed p true }
    else s

def run : List Act → W Unit
  | [] => return
  | a :: as => do
    act a
    run as

/-! ## §4 Killing -/

/-- The step is one of `kkill(0)`, at a slot that is not in use. -/
def Strays (a : Act) (s : State) : Prop :=
  ∃ p ok i, a = .step p ok ∧ (s.procs p).state = .running ∧ s.pc p = .kill 0 (i : Fin nproc).val ∧
    (s.procs i).state = .unused

/-- No step of the run is such a one. -/
def NeverStrays : List Act → State → Prop
  | [], _ => True
  | a :: as, s => ¬ Strays a s ∧ ∀ s', (act a).run s = .ok ((), s') → NeverStrays as s'

/-- `kkill(pid)` does not write to free slots, and finds only processes. -/
def KillsLive (pid : Int) (procs : Table) : Prop :=
  (∀ i, (procs i).state = .unused →
    findPid procs pid ≠ some i ∧ (kkill pid procs).getD procs i = procs i) ∧
    (kkill pid procs ≠ none → ∃ i, (procs i).state ≠ .unused ∧ (procs i).pid32 = pid)

end Xv6.Wait
