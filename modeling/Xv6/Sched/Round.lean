/-
Xv6.Sched.Round — `scheduler()` on any number of CPUs, from `kernel/proc.c`,
with the clock of `kernel/trap.c` and `sys_setpriority` of `kernel/sysproc.c`.

A CPU is in one of its rounds, or runs the process it has found. A round has one
snapshot of `ticks`, which it uses to its end, also after processes have run.
What the scheduler does for one slot is one step, as it holds the lock of that
slot; between such steps anything can happen: ticks, wakeups, steps of other
CPUs. The code of the processes is that of `Wait`.

`since` is not in the kernel: it is the snapshot of the first round that scanned
the process since it became RUNNABLE.
-/
import Xv6.Lib.Script
import Xv6.Proc.Moves

namespace Xv6.Sched

open Xv6.Lib Function
open Xv6.Vm (nproc)
open Xv6.Wait (slot first)

variable {n : Nat}

/-! ## §1 Aging -/

/-- A difference of type `uint`. -/
def sub32 (a b : Nat) : Nat := (a + 2 ^ 32 - b) % 2 ^ 32

/-- A zero value marks a new RUNNABLE waiting period. -/
def stamp (now : Nat) (p : Proc) : Proc :=
  if p.readySince = 0 then { p with readySince := now } else p

def effectivePriority (now : Nat) (p : Proc) : Int :=
  let waited := sub32 now p.readySince
  let agingSteps := waited / agingInterval
  let effective := p.priority - agingSteps
  if effective < priorityMin then priorityMin else effective

/-! ## §2 State -/

/-- What a CPU does. -/
inductive Cpu where
  -- at the head of the endless loop
  | top
  -- in a round, before slot `k` of a level; `found` is `level_found`
  | scan (now : Nat) (level : Int) (k : Nat) (found : Bool)
  -- it runs the process of slot `p`, which this level of a round has found
  | runs (now : Nat) (level : Int) (p : Fin nproc)
  -- `wfi` after a round that has found nothing
  | idle
  deriving DecidableEq, Repr

structure State (n : Nat) where
  base : Wait.State
  ticks : Nat
  cpu : Fin n → Cpu
  since : Fin nproc → Option Nat

/-- All CPUs enter `scheduler()` after `userinit`. -/
def start (n : Nat) : State n where
  base := Wait.start
  ticks := 0
  cpu _ := .top
  since _ := none

abbrev M (n : Nat) (α : Type) := StateT (State n) (Except Wait.Panic) α

def State.procs (s : State n) : Table := s.base.procs

def State.setBase (s : State n) (base : Wait.State) : State n := { s with base := base }

def State.setCpu (s : State n) (c : Fin n) (x : Cpu) : State n :=
  { s with cpu := update s.cpu c x }

def State.setSince (s : State n) (i : Fin nproc) (o : Option Nat) : State n :=
  { s with since := update s.since i o }

def onBase (x : Wait.W Unit) : M n Unit := focus State.base State.setBase x

/-! ## §3 Steps -/

/-- The body of the loop over the table, for slot `i`. -/
def scanSlot (c : Fin n) (now : Nat) (level : Int) (i : Fin nproc) (found : Bool) : M n Unit := do
  let s ← get
  if (s.procs i).state = .runnable then
    let p := stamp now (s.procs i)
    set (s.setBase (s.base.setProc i p))
    if effectivePriority now p = level then
      onBase (Wait.act (.run i))
      modify fun s => (s.setCpu c (.runs now level i)).setSince i none
    else
      modify fun s => (s.setCpu c (.scan now level (i + 1) found)).setSince i
        (some ((s.since i).getD now))
  else set (s.setCpu c (.scan now level (i + 1) found))

/-- The next step of `scheduler()`. -/
def schedStep (c : Fin n) : M n Unit := do
  let s ← get
  match s.cpu c with
  | .top => set (s.setCpu c (.scan s.ticks priorityMin 0 false))
  | .scan now level k found =>
    match slot k with
    | some i => scanSlot c now level i found
    | none =>
      if found then set (s.setCpu c .top)
      else if level < priorityMax then set (s.setCpu c (.scan now (level + 1) 0 false))
      else set (s.setCpu c .idle)
  | .runs .. => return
  | .idle => set (s.setCpu c .top)

/-- The process on CPU `c` goes on. If it stops running, `swtch` returns in
`scheduler()`, which goes on with the next slot. -/
def procStep (c : Fin n) (a : Wait.Act) : M n Unit := do
  match (← get).cpu c with
  | .runs now level p =>
    if a.actor = some p then
      onBase (Wait.act a)
      modify fun s =>
        if (s.procs p).state = .running then s else s.setCpu c (.scan now level (p + 1) true)
    else return
  | _ => return

/-- `sys_setpriority` of the process on CPU `c`. -/
def setPriority (c : Fin n) (priority : Int) : M n Unit := modify fun s =>
  match s.cpu c with
  | .runs _ _ p =>
    if s.base.pc p ≠ .user ∨ priority < priorityMin ∨ priority > priorityMax then s
    else s.setBase (s.base.setProc p { s.procs p with priority := priority })
  | _ => s

inductive Act (n : Nat) where
  -- `clockintr` counts. The rest of the interrupt are steps of their own, as other CPUs go on
  -- meanwhile: `wakeup(&ticks)`, and the `yield` of a process that it has interrupted
  | tick
  | sched (c : Fin n)
  | proc (c : Fin n) (a : Wait.Act)
  | setPriority (c : Fin n) (priority : Int)
  -- a handler of interrupts or another part of the kernel wakes slot `i`
  | wake (i : Fin nproc) (chan : Nat)
  deriving DecidableEq, Repr

def act : Act n → M n Unit
  | .tick => modify fun s => { s with ticks := (s.ticks + 1) % 2 ^ 32 }
  | .sched c => schedStep c
  | .proc c a => procStep c a
  | .setPriority c priority => setPriority c priority
  | .wake i chan => onBase (Wait.act (.wake i chan))

end Xv6.Sched
