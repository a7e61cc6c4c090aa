/-
Xv6.Vm.Exec — building a user image, from `kernel/exec.c`, and the process
page tables of `kernel/proc.c`.

A file is its bytes. `readi` takes `uint` offset and length; its answer is
the bytes it copied, whose number is its return value. The ELF headers are
read from those bytes at the offsets of `kernel/elf.h`.

`kexec` is split here at the point where it commits: `kexecImage` builds the
new image and cleans up after itself when it fails.
-/
import Xv6.Vm.PageTable

namespace Xv6.Vm

variable (L : Layout)

/-! ## Process page tables -/

/-- A page table without user memory, but with the trampoline and trapframe
pages; 0 if memory runs out. -/
def procPagetable (trapframe : Nat) : M Nat := do
  let pagetable ← uvmcreate
  if pagetable = 0 then return 0
  else if (← mappages pagetable trampolineVa pgSize L.trampoline (pteR ||| pteX)) < 0 then
    uvmfree L pagetable 0
    return 0
  else if (← mappages pagetable trapframeVa pgSize trapframe (pteR ||| pteW)) < 0 then
    uvmunmap L pagetable trampolineVa 1 false
    uvmfree L pagetable 0
    return 0
  else return pagetable

def procFreepagetable (pagetable sz : Nat) : M Unit := do
  uvmunmap L pagetable trampolineVa 1 false
  uvmunmap L pagetable trapframeVa 1 false
  uvmfree L pagetable sz

/-! ## Files and ELF headers -/

/-- A little-endian number. -/
def leNat : List Byte → Nat
  | [] => 0
  | b :: bs => b.toNat + 256 * leNat bs

/-- The `k` bytes of a number, lowest first. -/
def leBytes : Nat → Nat → List Byte
  | 0, _ => []
  | k + 1, n => BitVec.ofNat 8 n :: leBytes k (n / 256)

/-- The bytes `readi(ip, 0, dst, off, n)` copies to `dst`. -/
def readi (file : List Byte) (off n : Nat) : List Byte :=
  let off := off % 2 ^ 32
  let n := n % 2 ^ 32
  if off > file.length ∨ (off + n) % 2 ^ 32 < off then []
  else (file.drop off).take n

/-- The field of `k` bytes at offset `off` of a header. -/
def field (hdr : List Byte) (off k : Nat) : Nat := leNat ((hdr.drop off).take k)

def elfMagic : Nat := 0x464C457F
def elfProgLoad : Nat := 1
/-- `sizeof(struct elfhdr)` and `sizeof(struct proghdr)`. -/
def elfhdrSize : Nat := 64
def proghdrSize : Nat := 56

structure ElfHdr where
  magic : Nat
  entry : Nat
  phoff : Nat
  phnum : Nat
  deriving DecidableEq, Repr

def ElfHdr.ofBytes (b : List Byte) : ElfHdr :=
  { magic := field b 0 4, entry := field b 24 8, phoff := field b 32 8, phnum := field b 56 2 }

structure ProgHdr where
  type : Nat
  flags : Nat
  off : Nat
  vaddr : Nat
  filesz : Nat
  memsz : Nat
  deriving DecidableEq, Repr

def ProgHdr.ofBytes (b : List Byte) : ProgHdr :=
  { type := field b 0 4, flags := field b 4 4, off := field b 8 8, vaddr := field b 16 8,
    filesz := field b 32 8, memsz := field b 40 8 }

/-- Map ELF permissions to PTE permission bits. -/
def flags2perm (flags : Nat) : Word :=
  let perm : Word := if flags &&& 0x1 ≠ 0 then pteX else 0
  if flags &&& 0x2 ≠ 0 then perm ||| pteW else perm

/-! ## Loading -/

def loadsegLoop (pagetable va : Nat) (file : List Byte) (offset sz : Nat) : Nat → Nat → M Int
  | 0, _ => throw .outOfFuel
  | fuel + 1, i =>
    if i < sz then do
      let pa ← walkaddr pagetable (u64 (va + i))
      if pa = 0 then throw .loadsegAddr
      else
        let n := if sz - i < pgSize then sz - i else pgSize
        let bytes := readi file (offset + i) n
        setPage pa (pageWrite (← readPage pa) 0 bytes)
        if bytes.length ≠ n then return -1
        else loadsegLoop pagetable va file offset sz fuel ((i + pgSize) % 2 ^ 32)
    else return 0

/-- `offset` and `sz` are `uint`. -/
def loadseg (pagetable va : Nat) (file : List Byte) (offset sz : Nat) : M Int :=
  loadsegLoop pagetable va file (offset % 2 ^ 32) (sz % 2 ^ 32) (sz % 2 ^ 32 / pgSize + 2) 0

/-- `kexec`'s loop over the program headers that are left, from file offset
`off`. The result says whether to go on, with `sz` as it is then. -/
def loadSegments (pagetable : Nat) (file : List Byte) : Nat → Nat → Nat → M (Bool × Nat)
  | 0, _, sz => return (true, sz)
  | n + 1, off, sz => do
    let hdr := readi file off proghdrSize
    let ph := ProgHdr.ofBytes hdr
    if hdr.length ≠ proghdrSize then return (false, sz)
    else if ph.type ≠ elfProgLoad then loadSegments pagetable file n (off + proghdrSize) sz
    else if ph.memsz < ph.filesz then return (false, sz)
    else if u64 (ph.vaddr + ph.memsz) < ph.vaddr then return (false, sz)
    else if ph.vaddr % pgSize ≠ 0 then return (false, sz)
    else
      let sz1 ← uvmalloc L pagetable sz (u64 (ph.vaddr + ph.memsz)) (flags2perm ph.flags)
      if sz1 = 0 then return (false, sz)
      else if (← loadseg pagetable ph.vaddr file ph.off ph.filesz) < 0 then return (false, sz1)
      else loadSegments pagetable file n (off + proghdrSize) sz1

/-! ## The stack -/

/-- The NUL-terminated string in a kernel page. -/
def kstr (pa : Nat) : M (List Byte) := do
  return (pageRead (← readPage pa) 0 pgSize).takeWhile (· ≠ 0)

/-- Subtraction of `uint64` values. -/
def u64Sub (a b : Nat) : Nat := u64 (a + 2 ^ 64 - b)

/-- `sp -= n; sp -= sp % 16`. -/
def pushDown (sp n : Nat) : Nat := u64Sub sp n - u64Sub sp n % 16

/-- Copy the argument strings to the new stack: the stack pointer and the
addresses in `ustack[]`, or `none` for `goto bad`. -/
def pushArgs (p : Mm) (pagetable stackbase : Nat) :
    List Nat → Nat → Nat → List Nat → M (Option (Nat × List Nat))
  | [], _, sp, ustack => return some (sp, ustack)
  | arg :: argv, argc, sp, ustack =>
    if argc ≥ maxArg then return none
    else do
      let s ← kstr arg
      let sp := pushDown sp (s.length + 1)
      if sp < stackbase then return none
      else if (← copyout L p pagetable sp (s ++ [0])) < 0 then return none
      else pushArgs p pagetable stackbase argv (argc + 1) sp (ustack ++ [sp])

/-- What `kexec` commits to. -/
structure Image where
  pagetable : Nat
  sz : Nat
  entry : Nat
  sp : Nat
  argc : Nat
  deriving DecidableEq, Repr

/-- The `bad` exit once there is a page table. -/
def execBad (pagetable sz : Nat) : M (Option Image) := do
  procFreepagetable L pagetable sz
  return none

/-- The stack of the new image: a guard page, then `USERSTACK` pages with
the arguments. -/
def execStack (p : Mm) (pagetable sz : Nat) (entry : Nat) (argv : List Nat) :
    M (Option Image) := do
  let sz := pgRoundUp sz
  let sz1 ← uvmalloc L pagetable sz (u64 (sz + (userStack + 1) * pgSize)) pteW
  if sz1 = 0 then execBad L pagetable sz
  else
    let sz := sz1
    uvmclear pagetable (u64Sub sz ((userStack + 1) * pgSize))
    let stackbase := u64Sub sz (userStack * pgSize)
    match ← pushArgs L p pagetable stackbase argv 0 sz [] with
    | none => execBad L pagetable sz
    | some (sp, ustack) =>
      let sp := pushDown sp ((argv.length + 1) * 8)
      if sp < stackbase then execBad L pagetable sz
      else if (← copyout L p pagetable sp ((ustack ++ [0]).flatMap (leBytes 8))) < 0 then
        execBad L pagetable sz
      else return some ⟨pagetable, sz, entry, sp, argv.length⟩

/-- `kexec` up to the commit: the new image, or `none` with nothing left
behind. `trapframe` is `p->trapframe`; `p` are the fields of the process
that `copyout` may look at. -/
def kexecImage (p : Mm) (trapframe : Nat) (file : Option (List Byte)) (argv : List Nat) :
    M (Option Image) :=
  match file with
  | none => return none
  | some file => do
    let hdr := readi file 0 elfhdrSize
    let elf := ElfHdr.ofBytes hdr
    if hdr.length ≠ elfhdrSize then return none
    else if elf.magic ≠ elfMagic then return none
    else
      let pagetable ← procPagetable L trapframe
      if pagetable = 0 then return none
      else
        let (ok, sz) ← loadSegments L pagetable file elf.phnum elf.phoff 0
        if !ok then execBad L pagetable sz
        else execStack L p pagetable sz elf.entry argv

/-! ## Fetching arguments -/

/-- `fetchaddr`: the `uint64` at `addr`. -/
def fetchaddr (p : Mm) (addr : Nat) : M (Option Nat) :=
  if addr ≥ p.sz ∨ u64 (addr + 8) > p.sz then return none
  else do
    let (r, bytes) ← copyin L p p.pagetable addr 8
    if r ≠ 0 then return none else return some (leNat bytes)

/-- `fetchstr` into the kernel page `buf`: whether it succeeded. -/
def fetchstr (p : Mm) (addr buf max : Nat) : M Bool := do
  let (r, bytes) ← copyinstr p.pagetable addr max
  setPage buf (pageWrite (← readPage buf) 0 bytes)
  return !(r < 0)

/-- `sys_exec`'s loop from argument `i` on, with the pages allocated so far:
whether it reached the end of `argv`, and the pages. -/
def fetchArgs (p : Mm) (uargv : Nat) : Nat → Nat → List Nat → M (Bool × List Nat)
  | 0, _, argv => return (false, argv)
  | n + 1, i, argv => do
    match ← fetchaddr L p (u64 (uargv + 8 * i)) with
    | none => return (false, argv)
    | some uarg =>
      if uarg = 0 then return (true, argv)
      else
        let page ← kalloc
        if page = 0 then return (false, argv)
        else if ← fetchstr p uarg page pgSize then
          fetchArgs p uargv n (i + 1) (argv ++ [page])
        else return (false, argv ++ [page])

def freeArgs : List Nat → M Unit
  | [] => return
  | page :: argv => do
    kfree L page
    freeArgs argv

end Xv6.Vm
