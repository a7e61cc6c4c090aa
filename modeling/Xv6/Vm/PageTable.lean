/-
Xv6.Vm.PageTable — page tables and user memory, from `kernel/vm.c`.

Page tables live in physical memory: `walk` reads and writes the words of
table pages, and every pointer to an entry is the table page with the
index of the entry in it. A C function that returns 0 or -1 returns an
`Int` here, one that returns an address or 0 a `Nat`. The loops carry a
bound computed from their arguments; using it up stops with `outOfFuel`,
which the theorems show never happens.

`vmfault` reads `myproc()->sz` and `myproc()->pagetable`; these two fields
are passed as an `Mm`.
-/
import Xv6.Vm.Kalloc

namespace Xv6.Vm

open Function

/-- A `pte_t *`: the table page and the index of the entry. -/
structure PtePtr where
  page : Nat
  idx : Fin 512
  deriving DecidableEq, Repr

/-- The fields of `struct proc` that the fault handler reads. -/
structure Mm where
  sz : Nat
  pagetable : Nat
  deriving DecidableEq, Repr

def setWord (mem : Nat → Page) (page : Nat) (i : Fin 512) (w : Word) : Nat → Page :=
  update mem page (update (mem page) i w)

def readPte (ptr : PtePtr) : M Word := do
  return (← get).mem ptr.page ptr.idx

def writePte (ptr : PtePtr) (w : Word) : M Unit :=
  modify fun m => { m with mem := setWord m.mem ptr.page ptr.idx w }

def setPage (pa : Nat) (page : Page) : M Unit :=
  modify fun m => { m with mem := update m.mem (pa / pgSize) page }

def readPage (pa : Nat) : M Page := do
  return (← get).mem (pa / pgSize)

variable (L : Layout)

/-! ## Walking -/

def walkLoop (va : Nat) (alloc : Bool) : Nat → Nat → M (Option PtePtr)
  | 0, pagetable => return some ⟨pagetable / pgSize, px 0 va⟩
  | level + 1, pagetable => do
    let ptr : PtePtr := ⟨pagetable / pgSize, px (level + 1) va⟩
    let pte ← readPte ptr
    if hasFlag pte pteV then walkLoop va alloc level (pte2pa pte)
    else if !alloc then return none
    else
      let pagetable ← kalloc
      if pagetable = 0 then return none
      else
        setPage pagetable (fillPage 0)
        writePte ptr (pa2pte pagetable ||| pteV)
        walkLoop va alloc level pagetable

def walk (pagetable va : Nat) (alloc : Bool) : M (Option PtePtr) :=
  if va ≥ maxVa then throw .walk else walkLoop va alloc 2 pagetable

def walkaddr (pagetable va : Nat) : M Nat :=
  if va ≥ maxVa then return 0
  else do
    match ← walk pagetable va false with
    | none => return 0
    | some ptr =>
      let pte ← readPte ptr
      if !hasFlag pte pteV then return 0
      else if !hasFlag pte pteU then return 0
      else return pte2pa pte

def ismapped (pagetable va : Nat) : M Bool := do
  match ← walk pagetable va false with
  | none => return false
  | some ptr => return hasFlag (← readPte ptr) pteV

/-! ## Mapping and unmapping -/

def mappagesLoop (pagetable last : Nat) (perm : Word) : Nat → Nat → Nat → M Int
  | 0, _, _ => throw .outOfFuel
  | n + 1, a, pa => do
    match ← walk pagetable a true with
    | none => return -1
    | some ptr =>
      if hasFlag (← readPte ptr) pteV then throw .mappagesRemap
      else
        writePte ptr (pa2pte pa ||| perm ||| pteV)
        if a = last then return 0
        else mappagesLoop pagetable last perm n (u64 (a + pgSize)) (u64 (pa + pgSize))

def mappages (pagetable va size pa : Nat) (perm : Word) : M Int :=
  if va % pgSize ≠ 0 then throw .mappagesVa
  else if size % pgSize ≠ 0 then throw .mappagesSizeAligned
  else if size = 0 then throw .mappagesSize
  else mappagesLoop pagetable (u64 (va + size - pgSize)) perm (size / pgSize) va pa

/-- The body of `uvmunmap`'s loop: a missing entry is skipped. -/
def unmapPage (pagetable a : Nat) (doFree : Bool) : M Unit := do
  match ← walk pagetable a false with
  | none => return
  | some ptr =>
    let pte ← readPte ptr
    if !hasFlag pte pteV then return
    else
      if doFree then kfree L (pte2pa pte)
      writePte ptr 0

def uvmunmapLoop (pagetable bound : Nat) (doFree : Bool) : Nat → Nat → M Unit
  | 0, _ => return
  | n + 1, a =>
    if a < bound then do
      unmapPage L pagetable a doFree
      uvmunmapLoop pagetable bound doFree n (u64 (a + pgSize))
    else return

def uvmunmap (pagetable va npages : Nat) (doFree : Bool) : M Unit :=
  if va % pgSize ≠ 0 then throw .uvmunmapAligned
  else uvmunmapLoop L pagetable (u64 (va + npages * pgSize)) doFree npages va

/-- The `uint64` value of an `int` that was assigned `n`. -/
def u64OfInt32 (n : Nat) : Nat :=
  if n % 2 ^ 32 < 2 ^ 31 then n % 2 ^ 32 else 2 ^ 64 - 2 ^ 32 + n % 2 ^ 32

def uvmdealloc (pagetable oldsz newsz : Nat) : M Nat :=
  if newsz ≥ oldsz then return oldsz
  else do
    if pgRoundUp newsz < pgRoundUp oldsz then
      -- `int npages`
      let npages := u64OfInt32 ((pgRoundUp oldsz - pgRoundUp newsz) / pgSize)
      uvmunmap L pagetable (pgRoundUp newsz) npages true
    return newsz

def uvmallocLoop (pagetable oldsz newsz : Nat) (xperm : Word) : Nat → Nat → M Nat
  | 0, _ => throw .outOfFuel
  | n + 1, a =>
    if a < newsz then do
      let mem ← kalloc
      if mem = 0 then
        let _ ← uvmdealloc L pagetable a oldsz
        return 0
      else
        setPage mem (fillPage 0)
        if (← mappages pagetable a pgSize mem (pteR ||| pteU ||| xperm)) ≠ 0 then
          kfree L mem
          let _ ← uvmdealloc L pagetable a oldsz
          return 0
        else uvmallocLoop pagetable oldsz newsz xperm n (u64 (a + pgSize))
    else return newsz

def uvmalloc (pagetable oldsz newsz : Nat) (xperm : Word) : M Nat :=
  if newsz < oldsz then return oldsz
  else
    uvmallocLoop L pagetable (pgRoundUp oldsz) newsz xperm
      ((newsz - pgRoundUp oldsz) / pgSize + 2) (pgRoundUp oldsz)

def uvmcreate : M Nat := do
  let pagetable ← kalloc
  if pagetable = 0 then return 0
  else
    setPage pagetable (fillPage 0)
    return pagetable

/-- `freewalk`'s loop over the 512 entries of one table page, with `child`
for the recursive call. -/
def freewalkEntries (child : Nat → M Unit) (pagetable : Nat) : List (Fin 512) → M Unit
  | [] => return
  | i :: is => do
    let ptr : PtePtr := ⟨pagetable / pgSize, i⟩
    let pte ← readPte ptr
    if hasFlag pte pteV && !hasFlag pte (pteR ||| pteW ||| pteX) then
      -- this PTE points to a lower-level page table
      child (pte2pa pte)
      writePte ptr 0
    else if hasFlag pte pteV then throw .freewalkLeaf
    freewalkEntries child pagetable is

/-- The first argument bounds the depth of the recursion. -/
def freewalk : Nat → Nat → M Unit
  | 0, _ => throw .outOfFuel
  | depth + 1, pagetable => do
    freewalkEntries (freewalk depth) pagetable (List.finRange 512)
    kfree L pagetable

def uvmfree (pagetable sz : Nat) : M Unit := do
  if sz > 0 then uvmunmap L pagetable 0 (pgRoundUp sz / pgSize) true
  freewalk L 3 pagetable

/-! ## Copy-on-write fork -/

/-- A writable page becomes a read-only COW page in the parent's entry;
the flags to map it with in the child. -/
def downgrade (ptr : PtePtr) (pa : Nat) (flags : Word) : M Word :=
  if hasFlag flags pteW then do
    let flags := (flags &&& ~~~pteW) ||| pteCow
    writePte ptr (pa2pte pa ||| flags)
    return flags
  else return flags

/-- The body of `uvmcopy`'s loop for page `i`: the child maps the parent's
page, which is then counted once more. -/
def uvmcopyPage (old new i : Nat) : M Int := do
  match ← walk old i false with
  | none => return 0
  | some ptr =>
    let pte ← readPte ptr
    if !hasFlag pte pteV then return 0
    else
      let pa := pte2pa pte
      let flags ← downgrade ptr pa (pteFlags pte)
      if (← mappages new i pgSize pa flags) ≠ 0 then return -1
      else
        kaddref L pa
        return 0

def uvmcopyLoop (old new sz : Nat) : Nat → Nat → M Int
  | 0, _ => throw .outOfFuel
  | n + 1, i =>
    if i < sz then do
      if (← uvmcopyPage L old new i) ≠ 0 then
        uvmunmap L new 0 (i / pgSize) true
        return -1
      else uvmcopyLoop old new sz n (u64 (i + pgSize))
    else return 0

def uvmcopy (old new sz : Nat) : M Int :=
  uvmcopyLoop L old new sz (sz / pgSize + 2) 0

def uvmclear (pagetable va : Nat) : M Unit := do
  match ← walk pagetable va false with
  | none => throw .uvmclear
  | some ptr => writePte ptr ((← readPte ptr) &&& ~~~pteU)

/-! ## Faults -/

/-- Resolve a write fault on a copy-on-write page. -/
def cowfault (pagetable va : Nat) : M Nat :=
  if va ≥ maxVa then return 0
  else do
    match ← walk pagetable (pgRoundDown va) false with
    | none => return 0
    | some ptr =>
      let pte ← readPte ptr
      if !hasFlag pte pteV || !hasFlag pte pteU || !hasFlag pte pteCow then return 0
      else
        let pa := pte2pa pte
        let flags := (pteFlags pte ||| pteW) &&& ~~~pteCow
        if (← kgetref L pa) = 1 then
          -- the process already owns the only remaining reference
          writePte ptr (pa2pte pa ||| flags)
          return pa
        else
          let mem ← kalloc
          if mem = 0 then return 0
          else
            setPage mem (← readPage pa)
            writePte ptr (pa2pte mem ||| flags)
            kfree L pa
            return mem

/-- Allocate and map a lazily grown page. -/
def vmfault (p : Mm) (pagetable va : Nat) : M Nat :=
  if va ≥ p.sz then return 0
  else do
    let va := pgRoundDown va
    if ← ismapped pagetable va then return 0
    else
      let mem ← kalloc
      if mem = 0 then return 0
      else
        setPage mem (fillPage 0)
        if (← mappages p.pagetable va pgSize mem (pteW ||| pteU ||| pteR)) ≠ 0 then
          kfree L mem
          return 0
        else return mem

/-! ## Copying between kernel and user memory -/

def copyoutLoop (p : Mm) (pagetable : Nat) : Nat → Nat → List Byte → M Int
  | _, _, [] => return 0
  | 0, _, _ => throw .outOfFuel
  | fuel + 1, dstva, src => do
    let va0 := pgRoundDown dstva
    if va0 ≥ maxVa then return -1
    else
      let pa0 ← walkaddr pagetable va0
      let pa0 ← if pa0 = 0 then vmfault L p pagetable va0 else pure pa0
      if pa0 = 0 then return -1
      else
        match ← walk pagetable va0 false with
        | none => return -1
        | some ptr =>
          let pte ← readPte ptr
          if !hasFlag pte pteV || !hasFlag pte pteU then return -1
          else
            -- kernel writes must also resolve copy-on-write pages
            let pa0 ← if hasFlag pte pteCow then cowfault L pagetable va0 else pure pa0
            if pa0 = 0 then return -1
            else
              match ← if hasFlag pte pteCow then walk pagetable va0 false else pure (some ptr) with
              | none => throw .kerneltrap
              | some ptr =>
                -- forbid writes to genuinely read-only pages
                if !hasFlag (← readPte ptr) pteW then return -1
                else
                  let n := min (pgSize - (dstva - va0)) src.length
                  setPage pa0 (pageWrite (← readPage pa0) (dstva - va0) (src.take n))
                  copyoutLoop p pagetable fuel (u64 (va0 + pgSize)) (src.drop n)

/-- Copy the bytes of `src` to virtual address `dstva`. -/
def copyout (p : Mm) (pagetable dstva : Nat) (src : List Byte) : M Int :=
  copyoutLoop L p pagetable src.length dstva src

def copyinLoop (p : Mm) (pagetable : Nat) : Nat → Nat → Nat → List Byte → M (Int × List Byte)
  | _, _, 0, dst => return (0, dst)
  | 0, _, _, _ => throw .outOfFuel
  | fuel + 1, srcva, len, dst => do
    let va0 := pgRoundDown srcva
    let pa0 ← walkaddr pagetable va0
    let pa0 ← if pa0 = 0 then vmfault L p pagetable va0 else pure pa0
    if pa0 = 0 then return (-1, dst)
    else
      let n := min (pgSize - (srcva - va0)) len
      let bytes := pageRead (← readPage pa0) (srcva - va0) n
      copyinLoop p pagetable fuel (u64 (va0 + pgSize)) (len - n) (dst ++ bytes)

/-- Copy `len` bytes from virtual address `srcva`: the result code and the
bytes that reached `dst`. -/
def copyin (p : Mm) (pagetable srcva len : Nat) : M (Int × List Byte) :=
  copyinLoop L p pagetable len srcva len []

def copyinstrLoop (pagetable : Nat) : Nat → Nat → Nat → List Byte → M (Int × List Byte)
  | _, _, 0, dst => return (-1, dst)
  | 0, _, _, _ => throw .outOfFuel
  | fuel + 1, srcva, max, dst => do
    let va0 := pgRoundDown srcva
    let pa0 ← walkaddr pagetable va0
    if pa0 = 0 then return (-1, dst)
    else
      let n := min (pgSize - (srcva - va0)) max
      let bytes := pageRead (← readPage pa0) (srcva - va0) n
      -- copy up to the first NUL of this page's part
      let text := bytes.takeWhile (· ≠ 0)
      if text.length < bytes.length then return (0, dst ++ text ++ [0])
      else copyinstrLoop pagetable fuel (u64 (va0 + pgSize)) (max - n) (dst ++ text)

/-- Copy a string of at most `max` bytes from `srcva`. -/
def copyinstr (pagetable srcva max : Nat) : M (Int × List Byte) :=
  copyinstrLoop pagetable max srcva max []

/-! ## User accesses -/

/-- The Sv39 walk: the place of the entry for `va`, unless an entry above it
is invalid. A valid directory entry with access bits would be a superpage,
which this kernel never makes; it is not looked into. -/
def mmuLoop (va : Nat) : Nat → Nat → M (Option PtePtr)
  | 0, pagetable => return some ⟨pagetable / pgSize, px 0 va⟩
  | level + 1, pagetable => do
    let pte ← readPte ⟨pagetable / pgSize, px (level + 1) va⟩
    if hasFlag pte pteV && !hasFlag pte (pteR ||| pteW ||| pteX) then
      mmuLoop va level (pte2pa pte)
    else return none

/-- Bits 63 to 39 of a virtual address must all equal bit 38. -/
def canonical (va : Nat) : Bool := va < 2 ^ 38 ∨ 2 ^ 64 - 2 ^ 38 ≤ va

/-- The physical page a user access with permission `need` reaches. -/
def mmu (pagetable va : Nat) (need : Word) : M (Option Nat) :=
  if !canonical va then return none
  else do
    match ← mmuLoop va 2 pagetable with
    | none => return none
    | some ptr =>
      let pte ← readPte ptr
      if hasFlag pte pteV && hasFlag pte pteU && hasFlag pte need then return some (pte2pa pte)
      else return none

end Xv6.Vm
