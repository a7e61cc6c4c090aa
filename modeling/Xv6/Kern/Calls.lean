/-
Xv6.Kern.Calls — `kfork` and `kexec` with their files, from `kernel/proc.c`
and `kernel/exec.c`.

`Xv6.Sys` has these calls as far as memory and processes go, `Xv6.Files` has
open files and inodes. Here the two states stand side by side, and the calls
are written out in the order of the source. `Kernel` also has what neither
part needs for itself: the names of processes, which inodes are locked, and
how often `begin_op` and `end_op` were called. `log.outstanding` is the
difference of the two.

As in the two parts, a call runs to its end without interruption, so an inode
lock that is asked for is free.
-/
import Xv6.Lib.Follow
import Xv6.Sys.Step
import Xv6.Files.Calls

namespace Xv6.Kern

open Xv6.Lib Xv6.Vm
open Xv6.Files (Superblock ninode)
open Function

structure Kernel where
  sys : Sys
  fs : Files.Fs
  name : Fin nproc → List Byte
  held : Fin ninode → Bool
  begun : Nat
  ended : Nat

inductive Panic where
  | mem (e : Vm.Panic)
  | files (e : Files.Panic)
  | iunlock
  deriving DecidableEq, Repr

abbrev KM (α : Type) := StateT Kernel (Except Panic) α

def Kernel.setSys (k : Kernel) (s : Sys) : Kernel := { k with sys := s }

def Kernel.setMach (k : Kernel) (m : Mach) : Kernel := { k with sys := k.sys.setMach m }

def Kernel.setFs (k : Kernel) (fs : Files.Fs) : Kernel := { k with fs := fs }

/-- Run code of one part. -/
def onSys {α : Type} (x : K α) : KM α := embed Kernel.sys Kernel.setSys .mem x

def onMach {α : Type} (x : M α) : KM α := embed (fun k => k.sys.mach) Kernel.setMach .mem x

def onFiles {α : Type} (x : Files.F α) : KM α := embed Kernel.fs Kernel.setFs .files x

def beginOp : KM Unit := modify fun k => { k with begun := k.begun + 1 }

def endOp : KM Unit := modify fun k => { k with ended := k.ended + 1 }

def ilock (ip : Fin ninode) : KM Unit := do
  modify fun k => { k with held := update k.held ip true }
  onFiles (Files.ilock ip)

def iunlock (ip : Fin ninode) : KM Unit := do
  let k ← get
  if !k.held ip ∨ (k.fs.itable ip).ref < 1 then throw .iunlock
  else modify fun k => { k with held := update k.held ip false }

def iunlockput (ip : Fin ninode) : KM Unit := do
  iunlock ip
  onFiles (Files.iput ip)

/-- `safestrcpy(s, t, n)`: at most `n - 1` characters. -/
def safestrcpy (t : List Byte) (n : Nat) : List Byte := t.take (n - 1)

def setName (i : Fin nproc) (t : List Byte) : KM Unit :=
  modify fun k => { k with name := update k.name i (safestrcpy t 16) }

variable (L : Layout) (sb : Superblock)

/-! ## fork -/

/-- The new slot and pid, or `none` for -1. -/
def kfork (i : Fin nproc) : KM (Option (Fin nproc × Nat)) := do
  match ← onSys (allocproc L) with
  | none => return none
  | some np =>
    let p ← onSys (getProc i)
    let q ← onSys (getProc np)
    if (← onMach (uvmcopy L p.pagetable q.pagetable p.sz)) < 0 then
      onSys (freeproc L np)
      return none
    else
      onSys (modifyProc np fun q => { q with sz := p.sz })
      -- copy saved user registers; fork returns 0 in the child
      onMach do setPage q.trapframe (← readPage p.trapframe)
      onSys (setTrapframe np tfA0 0)
      -- increment reference counts on open file descriptors
      onFiles (Files.forkFiles i np)
      setName np ((← get).name i)
      onSys (modifyProc np fun q => { q with parent := some i })
      onSys (modifyProc np fun q =>
        { q with priority := p.priority, readySince := 0, state := .runnable })
      return some (np, q.pid)

/-! ## exec -/

/-- `readi(ip, 0, dst, off, n)` into kernel memory: the return value, and the
bytes that were copied. -/
def readi (ip : Fin ninode) (off n : Nat) : KM (Int × List Byte) :=
  onFiles (Files.readInode sb ip (n % 2 ^ 32) (off % 2 ^ 32) (n % 2 ^ 32))

def loadsegLoop (pagetable va : Nat) (ip : Fin ninode) (offset sz : Nat) : Nat → Nat → KM Int
  | 0, _ => throw (.mem .outOfFuel)
  | fuel + 1, i =>
    if i < sz then do
      let pa ← onMach (walkaddr pagetable (u64 (va + i)))
      if pa = 0 then throw (.mem .loadsegAddr)
      else
        let n := if sz - i < pgSize then sz - i else pgSize
        let (r, bytes) ← readi sb ip (offset + i) n
        onMach do setPage pa (pageWrite (← readPage pa) 0 bytes)
        if r ≠ n then return -1
        else loadsegLoop pagetable va ip offset sz fuel ((i + pgSize) % 2 ^ 32)
    else return 0

/-- `offset` and `sz` are `uint`. -/
def loadseg (pagetable va : Nat) (ip : Fin ninode) (offset sz : Nat) : KM Int :=
  loadsegLoop sb pagetable va ip (offset % 2 ^ 32) (sz % 2 ^ 32) (sz % 2 ^ 32 / pgSize + 2) 0

/-- The loop over the program headers. The result says whether to go on, with
`sz` as it is then. -/
def loadSegments (pagetable : Nat) (ip : Fin ninode) : Nat → Nat → Nat → KM (Bool × Nat)
  | 0, _, sz => return (true, sz)
  | n + 1, off, sz => do
    let (r, hdr) ← readi sb ip off proghdrSize
    let ph := ProgHdr.ofBytes hdr
    if r ≠ proghdrSize then return (false, sz)
    else if ph.type ≠ elfProgLoad then loadSegments pagetable ip n (off + proghdrSize) sz
    else if ph.memsz < ph.filesz then return (false, sz)
    else if u64 (ph.vaddr + ph.memsz) < ph.vaddr then return (false, sz)
    else if ph.vaddr % pgSize ≠ 0 then return (false, sz)
    else
      let sz1 ← onMach (uvmalloc L pagetable sz (u64 (ph.vaddr + ph.memsz)) (flags2perm ph.flags))
      if sz1 = 0 then return (false, sz)
      else if (← loadseg sb pagetable ph.vaddr ip ph.off ph.filesz) < 0 then return (false, sz1)
      else loadSegments pagetable ip n (off + proghdrSize) sz1

/-- What is done with the file in the end. -/
def release (ip : Fin ninode) : KM Unit := do
  iunlockput ip
  endOp

/-- `kexec` from the point where the file is open and locked up to the commit:
the new image, or `none` for the `bad` exit. The file is released on the way. -/
def buildImage (p : Proc) (ip : Fin ninode) (argv : List Nat) : KM (Option Image) := do
  let (r, hdr) ← readi sb ip 0 elfhdrSize
  let elf := ElfHdr.ofBytes hdr
  if r ≠ elfhdrSize then
    release ip
    return none
  else if elf.magic ≠ elfMagic then
    release ip
    return none
  else
    let pagetable ← onMach (procPagetable L p.trapframe)
    if pagetable = 0 then
      release ip
      return none
    else
      let (ok, sz) ← loadSegments L sb pagetable ip elf.phnum elf.phoff 0
      if !ok then
        onMach (procFreepagetable L pagetable sz)
        release ip
        return none
      else
        release ip
        onMach (execStack L p.mm pagetable sz elf.entry argv)

/-- The path after its last slash. -/
def lastName (path : List Byte) : List Byte :=
  (path.reverse.takeWhile (· ≠ Files.slash)).reverse

/-- `argc`, or -1. `argv` are the addresses of the strings. -/
def kexec (i : Fin nproc) (path : List Byte) (argv : List Nat) : KM Int := do
  let p ← onSys (getProc i)
  beginOp
  match ← onFiles (Files.namei sb i path) with
  | none =>
    endOp
    return -1
  | some ip =>
    ilock ip
    match ← buildImage L sb p ip argv with
    | none => return -1
    | some img =>
      onSys (setTrapframe i tfA1 (BitVec.ofNat 64 img.sp))
      setName i (lastName path)
      onSys (modifyProc i fun p => { p with pagetable := img.pagetable, sz := img.sz })
      onSys (setTrapframe i tfEpc (BitVec.ofNat 64 img.entry))
      onSys (setTrapframe i tfSp (BitVec.ofNat 64 img.sp))
      onMach (procFreepagetable L p.pagetable p.sz)
      return img.argc

end Xv6.Kern
