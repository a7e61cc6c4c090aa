/-
Xv6.Sys.Kernel — the kernel operations that create, change and destroy
address spaces, from `kernel/proc.c`, `kernel/sysproc.c`, `kernel/sysfile.c`,
`kernel/pipe.c`, `kernel/trap.c` and the boot code.

`Sys` is the state they share: the machine, the process table, the kernel's
page table, and the pages the kernel holds elsewhere. Each operation runs to
its end without interruption. `myproc()` is the argument `i`.

Files, the file table and inodes are not modelled: an operation that
depends on them takes their answer as an argument.
-/
import Xv6.Proc.Table
import Xv6.Vm.Exec

namespace Xv6

open Xv6.Vm Xv6.Lib
open Function

/-- `struct pipe`, as far as its page's life depends on it. -/
structure Pipe where
  readopen : Bool
  writeopen : Bool
  deriving DecidableEq, Repr

/-- `kstack` remembers the page under each kernel stack, `disk` the three
rings of the disk driver, `pipes` the pages that hold pipes, and `raw` pages
taken by other kernel code. `stage` counts the boot steps done. -/
structure Sys where
  mach : Mach
  procs : Table
  kernelPagetable : Nat
  kstack : Fin nproc → Option Nat
  disk : Ring → Option Nat
  pipes : Nat → Option Pipe
  raw : Nat → Option Nat
  initproc : Option (Fin nproc)
  nextpid : Nat
  stage : Nat

def Sys.setMach (s : Sys) (m : Mach) : Sys := { s with mach := m }

def Sys.setProc (s : Sys) (i : Fin nproc) (p : Proc) : Sys :=
  { s with procs := update s.procs i p }

def Sys.setProcs (s : Sys) (procs : Table) : Sys := { s with procs := procs }

abbrev K (α : Type) := StateT Sys (Except Panic) α

/-- Run page-table code on the machine. -/
def vm {α : Type} (x : M α) : K α := focus Sys.mach Sys.setMach x

def getProc (i : Fin nproc) : K Proc := do
  return (← get).procs i

def modifyProc (i : Fin nproc) (f : Proc → Proc) : K Unit :=
  modify fun s => s.setProc i (f (s.procs i))

def modifyTable (g : Table → Table) : K Unit := modify fun s => s.setProcs (g s.procs)

/-- `if (b) x;`. -/
def when (b : Bool) (x : K Unit) : K Unit := if b then x else pure ()

def Proc.mm (p : Proc) : Mm := ⟨p.sz, p.pagetable⟩

variable (L : Layout)

/-! ## Processes -/

/-- Free a proc structure and the data hanging from it. -/
def freeproc (i : Fin nproc) : K Unit := do
  let p ← getProc i
  when (p.trapframe ≠ 0) (vm (kfree L p.trapframe))
  modifyProc i fun p => { p with trapframe := 0 }
  when (p.pagetable ≠ 0) (vm (procFreepagetable L p.pagetable p.sz))
  modifyProc i fun p =>
    { p with
      pagetable := 0, sz := 0, pid := 0, parent := none, chan := none, killed := false,
      xstate := 0, priority := defaultPriority, readySince := 0, state := .unused }

def allocpid : K Nat := do
  let s ← get
  set { s with nextpid := s.nextpid + 1 }
  return s.nextpid

/-- A new process in state USED, or `none`. -/
def allocproc : K (Option (Fin nproc)) := do
  match findUnused (← get).procs with
  | none => return none
  | some i =>
    let pid ← allocpid
    modifyProc i fun p =>
      { p with pid := pid, state := .used, priority := defaultPriority, readySince := 0 }
    let trapframe ← vm kalloc
    modifyProc i fun p => { p with trapframe := trapframe }
    if trapframe = 0 then
      freeproc L i
      return none
    else
      let pagetable ← vm (procPagetable L trapframe)
      modifyProc i fun p => { p with pagetable := pagetable }
      if pagetable = 0 then
        freeproc L i
        return none
      else return some i

/-- Word `k` of the trapframe page. -/
def setTrapframe (i : Fin nproc) (k : Fin 512) (w : Word) : K Unit := do
  let p ← getProc i
  vm (writePte ⟨p.trapframe / pgSize, k⟩ w)

/-- Words of `struct trapframe`: its byte offsets over 8. -/
def tfEpc : Fin 512 := ⟨3, by decide⟩
def tfSp : Fin 512 := ⟨6, by decide⟩
def tfA0 : Fin 512 := ⟨14, by decide⟩
def tfA1 : Fin 512 := ⟨15, by decide⟩

/-- The new slot and pid, or `none` for -1. -/
def kfork (i : Fin nproc) : K (Option (Fin nproc × Nat)) := do
  match ← allocproc L with
  | none => return none
  | some np =>
    let p ← getProc i
    let q ← getProc np
    if (← vm (uvmcopy L p.pagetable q.pagetable p.sz)) < 0 then
      freeproc L np
      return none
    else
      modifyProc np fun q => { q with sz := p.sz }
      -- copy saved user registers; fork returns 0 in the child
      vm do setPage q.trapframe (← readPage p.trapframe)
      setTrapframe np tfA0 0
      modifyProc np fun q => { q with parent := some i }
      modifyProc np fun q => { q with priority := p.priority, readySince := 0, state := .runnable }
      return some (np, q.pid)

/-- `wakeup(p->parent)`. -/
def wakeParent (i : Fin nproc) (procs : Table) : Table :=
  match (procs i).parent with
  | some q => wakeup (some i) (.proc q) procs
  | none => procs

/-- Exit the current process; it stays a zombie until its parent waits. -/
def kexit (i : Fin nproc) (status : Int) : K Unit := do
  let s ← get
  if s.initproc = some i then throw .initExiting
  else
    modifyTable (reparent s.initproc i)
    modifyTable (wakeParent i)
    modifyProc i fun p => { p with xstate := status, state := .zombie }

/-- How one pass over the table ends in `kwait`. -/
inductive WaitResult where
  | reaped (child : Fin nproc) (pid : Nat)
  -- the exit status could not be copied out
  | badAddr (child : Fin nproc)
  | noChild
  -- asleep until a child exits; the loop then starts over
  | blocked
  deriving DecidableEq, Repr

/-- `sizeof(pp->xstate)` bytes of the exit status. -/
def xstateBytes (x : Int) : List Byte := leBytes 4 (x % 2 ^ 32).toNat

/-- One pass of `kwait`'s loop. -/
def kwait (i : Fin nproc) (addr : Nat) : K WaitResult := do
  let s ← get
  match findZombie s.procs i with
  | some c =>
    let p := s.procs i
    let q := s.procs c
    let r ← if addr ≠ 0 then vm (copyout L p.mm p.pagetable addr (xstateBytes q.xstate)) else pure 0
    if r < 0 then return .badAddr c
    else
      freeproc L c
      return .reaped c q.pid
  | none =>
    if (∀ c, (s.procs c).parent ≠ some i) ∨ (s.procs i).killed then return .noChild
    else
      modifyProc i fun p => { p with chan := some (.proc i), state := .sleeping }
      return .blocked

/-! ## Growing and shrinking -/

/-- The `uint64` value of `sz + n` for an `int` `n`. -/
def addInt (sz : Nat) (n : Int) : Nat := (((sz : Int) + n) % 2 ^ 64).toNat

def growproc (i : Fin nproc) (n : Int) : K Int := do
  let p ← getProc i
  if n > 0 then
    if addInt p.sz n > trapframeVa then return -1
    else
      let sz ← vm (uvmalloc L p.pagetable p.sz (addInt p.sz n) pteW)
      if sz = 0 then return -1
      else
        modifyProc i fun p => { p with sz := sz }
        return 0
  else if n < 0 then
    let sz ← vm (uvmdealloc L p.pagetable p.sz (addInt p.sz n))
    modifyProc i fun p => { p with sz := sz }
    return 0
  else return 0

/-- `sbrk(n)`: the old size, or -1. -/
def sysSbrk (i : Fin nproc) (n : Int) (eager : Bool) : K Int := do
  let addr := (← getProc i).sz
  if eager ∨ n < 0 then
    if (← growproc L i n) < 0 then return -1 else return addr
  else if addInt addr n < addr then return -1
  else if addInt addr n > trapframeVa then return -1
  else
    modifyProc i fun p => { p with sz := addInt p.sz n }
    return addr

/-! ## exec -/

/-- `kexec` with its commit: `argc`, or -1. -/
def kexec (i : Fin nproc) (file : Option (List Byte)) (argv : List Nat) : K Int := do
  let p ← getProc i
  match ← vm (kexecImage L p.mm p.trapframe file argv) with
  | none => return -1
  | some img =>
    setTrapframe i tfA1 (BitVec.ofNat 64 img.sp)
    modifyProc i fun p => { p with pagetable := img.pagetable, sz := img.sz }
    setTrapframe i tfEpc (BitVec.ofNat 64 img.entry)
    setTrapframe i tfSp (BitVec.ofNat 64 img.sp)
    vm (procFreepagetable L p.pagetable p.sz)
    return img.argc

def maxPath : Nat := 128

/-- `sys_exec`: the path is read first, then each argument into a page of its
own; the pages are freed on both exits. `file` is what `namei` finds. -/
def sysExec (i : Fin nproc) (upath uargv : Nat) (file : Option (List Byte)) : K Int := do
  let p ← getProc i
  let (r, _) ← vm (copyinstr p.pagetable upath maxPath)
  if r < 0 then return -1
  else
    let (ok, argv) ← vm (fetchArgs L p.mm uargv maxArg 0 [])
    if ok then
      let ret ← kexec L i file argv
      vm (freeArgs L argv)
      return ret
    else
      vm (freeArgs L argv)
      return -1

/-! ## Pipes -/

/-- `pipealloc`: the page of the new pipe. `files` says whether `filealloc`
found two free files. -/
def pipealloc (files : Bool) : K (Option Nat) := do
  if !files then return none
  else
    let pi ← vm kalloc
    if pi = 0 then return none
    else
      modify fun s => { s with pipes := update s.pipes (pi / pgSize) (some ⟨true, true⟩) }
      return some (pi / pgSize)

/-- `pipeclose` of the write or the read end. -/
def pipeclose (pi : Nat) (writable : Bool) : K Unit := do
  match (← get).pipes pi with
  | none => return
  | some p =>
    let p := if writable then { p with writeopen := false } else { p with readopen := false }
    if !p.readopen && !p.writeopen then
      modify fun s => { s with pipes := update s.pipes pi none }
      vm (kfree L (pi * pgSize))
    else modify fun s => { s with pipes := update s.pipes pi (some p) }

/-- `sys_pipe` with the answers of `filealloc` and `fdalloc`. -/
def sysPipe (i : Fin nproc) (fdarray : Nat) (files : Bool) (fds : Option (Nat × Nat)) :
    K Int := do
  match ← pipealloc files with
  | none => return -1
  | some pi =>
    let close : K Int := do
      pipeclose L pi false
      pipeclose L pi true
      return -1
    match fds with
    | none => close
    | some (fd0, fd1) =>
      let p ← getProc i
      if (← vm (copyout L p.mm p.pagetable fdarray (leBytes 4 fd0))) < 0 then close
      else if (← vm (copyout L p.mm p.pagetable (u64 (fdarray + 4)) (leBytes 4 fd1))) < 0 then close
      else return 0

/-! ## User loads and stores -/

/-- `if (killed(p)) kexit(-1)`: whether the process goes on. -/
def exitIfKilled (i : Fin nproc) : K Bool := do
  if (← getProc i).killed then
    kexit i (-1)
    return false
  else return true

/-- `usertrap` on a system call: `none` if the process was killed before. -/
def usertrapSyscall {α : Type} (i : Fin nproc) (syscall : K α) : K (Option α) := do
  if ← exitIfKilled i then
    let r ← syscall
    let _ ← exitIfKilled i
    return some r
  else return none

/-- The two fault handlers that `usertrap` tries. `store` tells a store fault
(scause 15) from a load fault (13). -/
def handleFault (p : Mm) (store : Bool) (stval : Nat) : M Bool := do
  let r ← if store then cowfault L p.pagetable stval else pure 0
  if r ≠ 0 then return true
  else return (← vmfault L p p.pagetable stval) ≠ 0

/-- `usertrap` on a page fault: whether the process goes on. -/
def usertrapFault (i : Fin nproc) (store : Bool) (stval : Nat) : K Bool := do
  let p ← getProc i
  if ← vm (handleFault L p.mm store stval) then exitIfKilled i
  else
    modifyProc i fun p => { p with killed := true }
    exitIfKilled i

/-- A one-byte store, retried after each fault that was handled. -/
def userStore (i : Fin nproc) (va : Nat) (b : Byte) : Nat → K Bool
  | 0 => throw .outOfFuel
  | fuel + 1 => do
    let p ← getProc i
    match ← vm (mmu p.pagetable va pteW) with
    | some pa =>
      vm do setPage pa (setPageByte (← readPage pa) (va % pgSize) b)
      return true
    | none => if ← usertrapFault L i true va then userStore i va b fuel else return false

/-- A one-byte load. -/
def userLoad (i : Fin nproc) (va : Nat) : Nat → K (Option Byte)
  | 0 => throw .outOfFuel
  | fuel + 1 => do
    let p ← getProc i
    match ← vm (mmu p.pagetable va pteR) with
    | some pa => return some (pageByte (← vm (readPage pa)) (va % pgSize))
    | none => if ← usertrapFault L i false va then userLoad i va fuel else return none

/-! ## System calls that copy -/

/-- `copyout`, `copyin` and `copyinstr` on the memory of process `i`. -/
def procCopyout (i : Fin nproc) (va : Nat) (src : List Byte) : K Int := do
  let p ← getProc i
  vm (copyout L p.mm p.pagetable va src)

def procCopyin (i : Fin nproc) (va len : Nat) : K (Int × List Byte) := do
  let p ← getProc i
  vm (copyin L p.mm p.pagetable va len)

def procCopyinstr (i : Fin nproc) (va max : Nat) : K (Int × List Byte) := do
  let p ← getProc i
  vm (copyinstr p.pagetable va max)

def sysKill (pid : Int) : K Int := do
  let s ← get
  match kkill pid s.procs with
  | none => return -1
  | some procs =>
    set (s.setProcs procs)
    return 0

/-! ## Booting -/

def kvmmap (kpgtbl va pa sz : Nat) (perm : Word) : M Unit := do
  if (← mappages kpgtbl va sz pa perm) ≠ 0 then throw .kvmmap

/-- `proc_mapstacks` for the slots left. -/
def procMapstacks (kpgtbl : Nat) : List (Fin nproc) → K Unit
  | [] => return
  | i :: is => do
    let pa ← vm kalloc
    if pa = 0 then throw .procMapstacksKalloc
    else
      modify fun s => { s with kstack := update s.kstack i (some (pa / pgSize)) }
      vm (kvmmap kpgtbl (kstackVa i) pa pgSize (pteR ||| pteW))
      procMapstacks kpgtbl is

/-- `kvmmake`, with the table's address stored before it is filled. Clearing
page 0 traps if `kalloc` fails. -/
def kvminit : K Unit := do
  let kpgtbl ← vm kalloc
  if kpgtbl = 0 then throw .kerneltrap
  else
    vm (setPage kpgtbl (fillPage 0))
    modify fun s => { s with kernelPagetable := kpgtbl }
    vm (kvmmap kpgtbl uart0 uart0 pgSize (pteR ||| pteW))
    vm (kvmmap kpgtbl virtio0 virtio0 pgSize (pteR ||| pteW))
    vm (kvmmap kpgtbl plic plic 0x4000000 (pteR ||| pteW))
    vm (kvmmap kpgtbl kernBase kernBase (L.etext - kernBase) (pteR ||| pteX))
    vm (kvmmap kpgtbl L.etext L.etext (physTop - L.etext) (pteR ||| pteW))
    vm (kvmmap kpgtbl trampolineVa L.trampoline pgSize (pteR ||| pteX))
    procMapstacks kpgtbl (List.finRange nproc)

/-- The pages of `disk.desc`, `disk.avail` and `disk.used`. -/
def ringPages (desc avail used : Nat) : Ring → Option Nat
  | .desc => some (desc / pgSize)
  | .avail => some (avail / pgSize)
  | .used => some (used / pgSize)

/-- The part of `virtio_disk_init` that allocates the rings. -/
def virtioDiskInit : K Unit := do
  let desc ← vm kalloc
  let avail ← vm kalloc
  let used ← vm kalloc
  if desc = 0 ∨ avail = 0 ∨ used = 0 then throw .virtioDiskKalloc
  else
    vm (setPage desc (fillPage 0))
    vm (setPage avail (fillPage 0))
    vm (setPage used (fillPage 0))
    modify fun s => { s with disk := ringPages desc avail used }

/-- The first process; `p->cwd = namei("/")` traps if there is none. -/
def userinit : K Unit := do
  match ← allocproc L with
  | none => throw .kerneltrap
  | some i =>
    modify fun s => { s with initproc := some i }
    modifyProc i Proc.makeRunnable

end Xv6
