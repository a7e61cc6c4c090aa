/-
Xv6.Proc.Table — the process table, from `kernel/proc.h` and
`kernel/proc.c`.

`Proc` has the fields of `struct proc` that the kernel's decisions read:
the scheduling fields, the links of `wait()`, and the address space. Null
pointers to pages are 0; a pointer to a table slot is its index. The
functions here only touch the table; each is one critical section of the
locks it takes, or several in a row for `wakeup`.
-/
import Mathlib.Data.List.FinRange
import Xv6.Vm.Riscv

namespace Xv6

open Xv6.Vm (nproc)
open Function

def priorityMin : Int := 0
def priorityMax : Int := 4
def defaultPriority : Int := 2
def agingInterval : Nat := 20

/-- `enum procstate`. -/
inductive ProcState where
  | unused
  | used
  | sleeping
  | runnable
  | running
  | zombie
  deriving DecidableEq, Repr

/-- What a process can sleep on: a slot of the table (in `wait()`), or the
address of something else. -/
inductive Chan where
  | proc (i : Fin nproc)
  | addr (a : Nat)
  deriving DecidableEq, Repr

structure Proc where
  state : ProcState
  chan : Option Chan
  killed : Bool
  xstate : Int
  pid : Nat
  priority : Int
  readySince : Nat
  parent : Option (Fin nproc)
  sz : Nat
  pagetable : Nat
  trapframe : Nat
  deriving DecidableEq, Repr

/-- The value an `int` has after a computation with result `n`. -/
def int32 (n : Int) : Int := (BitVec.ofInt 32 n).toInt

/-- `p->pid`: the number of the allocation, as far as an `int` holds it. -/
def Proc.pid32 (p : Proc) : Int := int32 p.pid

/-- A slot of the zero-initialised table. -/
def Proc.empty : Proc :=
  { state := .unused, chan := none, killed := false, xstate := 0, pid := 0, priority := 0,
    readySince := 0, parent := none, sz := 0, pagetable := 0, trapframe := 0 }

/-- The record `freeproc` leaves. -/
def Proc.freed (p : Proc) : Proc :=
  { p with
    trapframe := 0, pagetable := 0, sz := 0, pid := 0, parent := none, chan := none,
    killed := false, xstate := 0, priority := defaultPriority, readySince := 0,
    state := .unused }

abbrev Table := Fin nproc → Proc

/-- A new waiting period: the stamp is cleared and taken by the next scan. -/
def Proc.makeRunnable (p : Proc) : Proc := { p with readySince := 0, state := .runnable }

/-- `wakeup(chan)` called by `me`, or by no process. -/
def wakeup (me : Option (Fin nproc)) (chan : Chan) (procs : Table) : Table := fun i =>
  if some i ≠ me ∧ (procs i).state = .sleeping ∧ (procs i).chan = some chan then
    (procs i).makeRunnable
  else procs i

/-- One round of `reparent`'s loop, for slot `i`. -/
def reparentSlot (initproc : Option (Fin nproc)) (p : Fin nproc) (procs : Table) (i : Fin nproc) :
    Table :=
  if (procs i).parent = some p then
    let procs := update procs i { procs i with parent := initproc }
    match initproc with
    | some q => wakeup (some p) (.proc q) procs
    | none => procs
  else procs

/-- Pass `p`'s abandoned children to init. -/
def reparent (initproc : Option (Fin nproc)) (p : Fin nproc) (procs : Table) : Table :=
  (List.finRange nproc).foldl (reparentSlot initproc p) procs

/-- The first slot whose process has this pid. -/
def findPid (procs : Table) (pid : Int) : Option (Fin nproc) :=
  (List.finRange nproc).find? fun i => (procs i).pid32 = pid

/-- What `kkill` does to the process it finds. -/
def Proc.kill (p : Proc) : Proc :=
  let p := { p with killed := true }
  if p.state = .sleeping then p.makeRunnable else p

/-- `kkill(pid)`; `none` stands for -1. -/
def kkill (pid : Int) (procs : Table) : Option Table :=
  match findPid procs pid with
  | none => none
  | some i => some (update procs i (procs i).kill)

/-- The first slot that is not in use. -/
def findUnused (procs : Table) : Option (Fin nproc) :=
  (List.finRange nproc).find? fun i => (procs i).state = .unused

/-- The first zombie child of `p`. -/
def findZombie (procs : Table) (p : Fin nproc) : Option (Fin nproc) :=
  (List.finRange nproc).find? fun i => (procs i).parent = some p ∧ (procs i).state = .zombie

end Xv6
