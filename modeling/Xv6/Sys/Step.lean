/-
Xv6.Sys.Step — the system as a state machine.

An operation is a system call or a memory access of one process, a boot
step, or an allocation by kernel code that is not modelled. A process can
act while it is RUNNABLE or RUNNING; which one runs next is the scheduler's
choice, so here any of them may. An operation that is not possible in a
state leaves it unchanged and answers `idle`.

Addresses are 64-bit words and `int` arguments 32-bit words, as user code
passes them.
-/
import Xv6.Sys.Kernel

namespace Xv6

open Xv6.Vm Function

inductive Op where
  -- the next boot step after `kinit`
  | boot
  -- `kalloc` and `kfree` by other kernel code, under the name `k`
  | kalloc (k : Nat)
  | kfree (k : Nat)
  -- `allocproc` by itself
  | allocproc
  | fork (i : Fin nproc)
  | exit (i : Fin nproc) (status : Int)
  | wait (i : Fin nproc) (addr : Word)
  | sbrk (i : Fin nproc) (n : BitVec 32) (eager : Bool)
  | exec (i : Fin nproc) (path uargv : Word) (file : Option (List Byte))
  | kill (i : Fin nproc) (pid : Int)
  | load (i : Fin nproc) (va : Word)
  | store (i : Fin nproc) (va : Word) (b : Byte)
  -- a page fault whose access is not retried
  | fault (i : Fin nproc) (store : Bool) (va : Word)
  -- a system call that copies to or from user memory
  | copyout (i : Fin nproc) (va : Word) (src : List Byte)
  | copyin (i : Fin nproc) (va : Word) (len : Nat)
  | copyinstr (i : Fin nproc) (va : Word) (max : Nat)
  | pipe (i : Fin nproc) (fdarray : Word) (files : Bool) (fds : Option (Nat × Nat))
  -- the last descriptor of one end is closed
  | pipeclose (page : Nat) (writable : Bool)

/-- What an operation answers. -/
inductive Res where
  -- not possible in this state
  | idle
  -- done, with nothing to answer
  | done
  -- the process was killed, or its access had no page
  | killed
  | int (r : Int)
  | forked (child : Fin nproc)
  | wait (r : WaitResult)
  | byte (b : Byte)
  | bytes (r : Int) (bs : List Byte)

/-- The process that makes the operation. -/
def Op.actor : Op → Option (Fin nproc)
  | .boot | .kalloc _ | .kfree _ | .allocproc | .pipeclose _ _ => none
  | .fork i | .exit i _ | .wait i _ | .sbrk i _ _ | .exec i _ _ _ | .kill i _ | .load i _
  | .store i _ _ | .fault i _ _ | .copyout i _ _ | .copyin i _ _ | .copyinstr i _ _
  | .pipe i _ _ _ => some i

/-- A process that can act. -/
def Proc.ready (p : Proc) : Bool := p.state = .runnable ∨ p.state = .running

variable (L : Layout)

/-- The boot steps of `main` that allocate pages, in order. -/
def bootStep : K Unit := do
  match (← get).stage with
  | 0 =>
    kvminit L
    modify fun s => { s with stage := 1 }
  | 1 =>
    virtioDiskInit
    modify fun s => { s with stage := 2 }
  | 2 =>
    userinit L
    modify fun s => { s with stage := 3 }
  | _ => pure ()

def rawKalloc (k : Nat) : K Unit := do
  if (← get).raw k = none then
    let pa ← vm kalloc
    if pa = 0 then return
    else modify fun s => { s with raw := update s.raw k (some (pa / pgSize)) }
  else return

def rawKfree (k : Nat) : K Unit := do
  match (← get).raw k with
  | some p =>
    modify fun s => { s with raw := update s.raw k none }
    vm (kfree L (p * pgSize))
  | none => return

/-- An end of a pipe is closed once. -/
def closeEnd (page : Nat) (writable : Bool) : K Unit := do
  match (← get).pipes page with
  | some p => when (if writable then p.writeopen else p.readopen) (pipeclose L page writable)
  | none => return

/-- A system call of process `i`, with its answer. -/
def syscall {α : Type} (i : Fin nproc) (ans : α → Res) (x : K α) : K Res := do
  match ← usertrapSyscall i x with
  | some r => return ans r
  | none => return .killed

/-- The operation of a process that can act. -/
def act : Op → K Res
  | .fork i => syscall i (fun r => match r with
      | some (child, _) => .forked child
      | none => .int (-1)) (kfork L i)
  | .exit i status => do
    let alive ← exitIfKilled i
    when alive (kexit i status)
    return .done
  | .wait i addr => syscall i .wait (kwait L i addr.toNat)
  | .sbrk i n eager => syscall i .int (sysSbrk L i n.toInt eager)
  | .exec i path uargv file => syscall i .int (sysExec L i path.toNat uargv.toNat file)
  | .kill i pid => syscall i .int (sysKill pid)
  | .load i va => do
    match ← userLoad L i va.toNat 2 with
    | some b => return .byte b
    | none => return .killed
  | .store i va b => do
    if ← userStore L i va.toNat b 2 then return .done else return .killed
  | .fault i store va => do
    let _ ← usertrapFault L i store va.toNat
    return .done
  | .copyout i va src => syscall i .int (procCopyout L i va.toNat src)
  | .copyin i va len => syscall i (fun r => .bytes r.1 r.2) (procCopyin L i va.toNat len)
  | .copyinstr i va max => syscall i (fun r => .bytes r.1 r.2) (procCopyinstr i va.toNat max)
  | .pipe i fdarray files fds => syscall i .int (sysPipe L i fdarray.toNat files fds)
  | _ => return .idle

/-- One step. -/
def step (op : Op) : K Res :=
  match op with
  | .boot => do
    bootStep L
    return .done
  | .kalloc k => do
    rawKalloc k
    return .done
  | .kfree k => do
    rawKfree L k
    return .done
  | .allocproc => do
    let _ ← allocproc L
    return .done
  | .pipeclose page writable => do
    closeEnd L page writable
    return .done
  | op => do
    match op.actor with
    | some i => if (← getProc i).ready then act L op else return .idle
    | none => return .idle

/-- The state `kinit` is called in: `refcount[]`, `kmem` and `proc[]` are
zero, and memory holds anything. -/
def Sys.atReset (mem : Nat → Page) : Sys where
  mach := { mem := mem, refcount := fun _ => 0, freelist := 0 }
  procs := fun _ => .empty
  kernelPagetable := 0
  kstack := fun _ => none
  disk := fun _ => none
  pipes := fun _ => none
  raw := fun _ => none
  initproc := none
  nextpid := 1
  stage := 0

/-- The operations one after the other, with their answers. -/
def runOps : List Op → K (List Res)
  | [] => return []
  | op :: ops => do
    let r ← step L op
    let rs ← runOps ops
    return r :: rs

/-- A run of the system from reset: `kinit`, then the operations. -/
def run (ops : List Op) : K (List Res) := do
  vm (kinit L)
  runOps L ops

end Xv6
