/-
Xv6.Files.Inode — blocks, inodes and their contents, from `kernel/fs.c`.

The state is what the log layer below presents: the free map, the inodes and
the data blocks, as the operations so far have left them. The inode blocks
and the bitmap blocks are arrays here, one entry for an inode or a bit.
Functions that work on a locked in-memory inode take its fields as `ip` and
return them.
-/
import Xv6.Fs.Disk

namespace Xv6.Files

open Xv6.Fs (Block word)
open Function

/-! ## §1 The disk format -/

abbrev Byte := BitVec 8

def bsize : Nat := 1024
def ndirect : Nat := 12
def nindirect : Nat := 256
def maxfile : Nat := ndirect + nindirect

/-- Inodes per block, and bitmap bits per block. -/
def ipb : Nat := 16
def bpb : Nat := 8192

/-- The parts of a disk of `size` blocks, in the order of `fs.h`: boot block,
super block, log, inode blocks, bitmap, data. A directory entry has 16 bits
for an inode number. -/
structure Superblock where
  size : Nat
  ninodes : Nat
  nlog : Nat
  fits : 2 + nlog + (ninodes / ipb + 1) + (size / bpb + 1) ≤ size
  small : size < 2 ^ 31
  root : 1 < ninodes
  inums : ninodes ≤ 2 ^ 16

/-- The first data block. -/
def Superblock.nmeta (sb : Superblock) : Nat :=
  2 + sb.nlog + (sb.ninodes / ipb + 1) + (sb.size / bpb + 1)

/-- What `mkfs` computes. -/
def Superblock.mkfs : Superblock :=
  ⟨2000, 200, 31, by decide, by decide, by decide, by decide⟩

inductive FileType where
  | free
  | dir
  | file
  | device
  deriving DecidableEq, Repr

/-- `struct dinode`; its last address is that of the indirect block. -/
structure Dinode where
  type : FileType
  major : BitVec 16
  minor : BitVec 16
  nlink : BitVec 16
  size : Nat
  addrs : Fin 13 → Nat

/-- An inode that `memset` has cleared. -/
def Dinode.zero : Dinode :=
  { type := .free, major := 0, minor := 0, nlink := 0, size := 0, addrs := fun _ => 0 }

def indirect : Fin 13 := ⟨ndirect, by decide⟩

def Dinode.setAddr (ip : Dinode) (k : Fin 13) (b : Nat) : Dinode :=
  { ip with addrs := update ip.addrs k b }

/-! ## §2 Bytes of a block -/

/-- Byte `k` of a block of words, the least significant byte first. -/
def blockByte (b : Block) (k : Nat) : Byte :=
  BitVec.ofNat 8 ((word b (k / 4)).toNat / 256 ^ (k % 4))

def ofBytes (f : Nat → Byte) : Block := fun k =>
  BitVec.ofNat 32 ((f (4 * k)).toNat + 256 * (f (4 * k + 1)).toNat +
    256 ^ 2 * (f (4 * k + 2)).toNat + 256 ^ 3 * (f (4 * k + 3)).toNat)

/-- `memmove` of bytes into a block. -/
def blit (b : Block) (off : Nat) (bytes : List Byte) : Block := ofBytes fun k =>
  if off ≤ k ∧ k < off + bytes.length then bytes.getD (k - off) 0 else blockByte b k

def zeroBlock : Block := fun _ => 0

def setWord (b : Block) (k : Nat) (w : Nat) : Block := fun j =>
  if j.val = k then BitVec.ofNat 32 w else b j

/-! ## §3 The state -/

structure Store where
  bitmap : Nat → Bool
  dinodes : Nat → Dinode
  data : Nat → Block

inductive Panic where
  | freeingFree
  | bmapRange
  | noInodes
  | ilock
  | noType
  | dirlookupNotDir
  | dirlookupRead
  | dirlinkRead
  | isdiremptyRead
  | unlinkNlink
  | unlinkWritei
  | filedup
  | fileclose
  | fileread
  | filewrite
  deriving DecidableEq, Repr

abbrev B (α : Type) := StateT Store (Except Panic) α

variable (sb : Superblock)

/-! ## §4 Blocks -/

/-- A zeroed block, or 0. Both loops together go through all blocks. -/
def balloc : B Nat := do
  let st ← get
  match (List.range sb.size).find? fun b => !st.bitmap b with
  | some b =>
    set { st with bitmap := update st.bitmap b true, data := update st.data b zeroBlock }
    return b
  | none => return 0

def bfree (b : Nat) : B Unit := do
  let st ← get
  if st.bitmap b then set { st with bitmap := update st.bitmap b false }
  else throw .freeingFree

/-! ## §5 Inodes on the disk -/

def iupdate (inum : Nat) (ip : Dinode) : B Unit :=
  modify fun st => { st with dinodes := update st.dinodes inum ip }

/-- The number of a free inode, which is now allocated. -/
def ialloc (type : FileType) : B (Option Nat) := do
  let st ← get
  match (List.range sb.ninodes).find? fun i => 1 ≤ i ∧ (st.dinodes i).type = .free with
  | some inum =>
    iupdate inum { Dinode.zero with type := type }
    return some inum
  | none => return none

/-! ## §6 Contents -/

def readWord (b k : Nat) : B Nat := do
  return (word ((← get).data b) k).toNat

/-- Address `k` of an inode; a block is allocated for it if need be. -/
def inodeAddr (ip : Dinode) (k : Fin 13) : B (Nat × Dinode) := do
  if ip.addrs k = 0 then
    let addr ← balloc sb
    if addr = 0 then return (0, ip) else return (addr, ip.setAddr k addr)
  else return (ip.addrs k, ip)

/-- Address `k` of an indirect block, in the same way. -/
def indirectAddr (ind k : Nat) : B Nat := do
  let addr ← readWord ind k
  if addr = 0 then
    let addr ← balloc sb
    if addr = 0 then return 0
    else
      modify fun st => { st with data := update st.data ind (setWord (st.data ind) k addr) }
      return addr
  else return addr

/-- The address of block `bn` of an inode, which is allocated if need be; 0
if the disk is full. -/
def bmap (ip : Dinode) (bn : Nat) : B (Nat × Dinode) := do
  if h : bn < ndirect then inodeAddr sb ip ⟨bn, Nat.lt_succ_of_lt h⟩
  else if bn - ndirect < nindirect then
    let (ind, ip) ← inodeAddr sb ip indirect
    if ind = 0 then return (0, ip)
    else
      let addr ← indirectAddr sb ind (bn - ndirect)
      return (addr, ip)
  else throw .bmapRange

/-- Free the blocks whose addresses are not 0. -/
def freeBlocks : List Nat → B Unit
  | [] => return
  | b :: bs => do
    if b = 0 then freeBlocks bs
    else
      bfree b
      freeBlocks bs

/-- The words of a block, which are addresses if it is an indirect block. -/
def entries (b : Block) : List Nat := (List.finRange 256).map fun k => (b k).toNat

/-- The part of `itrunc` for the indirect block. -/
def freeIndirect (ip : Dinode) : B Unit := do
  if ip.addrs indirect = 0 then return
  else
    freeBlocks (entries ((← get).data (ip.addrs indirect)))
    bfree (ip.addrs indirect)

def itrunc (inum : Nat) (ip : Dinode) : B Dinode := do
  freeBlocks ((List.finRange ndirect).map fun k => ip.addrs (k.castSucc))
  freeIndirect ip
  let ip := { ip with addrs := fun _ => 0, size := 0 }
  iupdate inum ip
  return ip

/-- Where `either_copyin` copies from: `good` bytes can be read, all of them
if the source is in the kernel. -/
structure Src where
  bytes : List Byte
  good : Nat
  fits : good ≤ bytes.length

/-- The kernel's own buffer. -/
def Src.kernel (bytes : List Byte) : Src := ⟨bytes, bytes.length, Nat.le_refl _⟩

/-- The bytes from `off` on in the block at `addr`. -/
def readBlock (addr off n : Nat) : B (List Byte) := do
  let b := (← get).data addr
  return (List.range n).map fun k => blockByte b (off + k)

/-- The loop of `readi`; `good` bytes can be copied out. The result is `tot`
and what was copied. -/
def readLoop : Nat → Dinode → Nat → Nat → Nat → Nat → List Byte → B (Int × List Byte × Dinode)
  | 0, ip, _, _, _, tot, out => return (tot, out, ip)
  | fuel + 1, ip, good, off, n, tot, out => do
    if tot < n then
      let (addr, ip) ← bmap sb ip (off / bsize)
      if addr = 0 then return (tot, out, ip)
      else
        let m := min (n - tot) (bsize - off % bsize)
        let bytes ← readBlock addr (off % bsize) m
        if good < tot + m then return (-1, out ++ bytes.take (good - tot), ip)
        else readLoop fuel ip good (off + m) n (tot + m) (out ++ bytes)
    else return (tot, out, ip)

/-- `off` and `n` are of type `uint`. -/
def readi (ip : Dinode) (good off n : Nat) : B (Int × List Byte × Dinode) := do
  if off > ip.size ∨ (off + n) % 2 ^ 32 < off then return (0, [], ip)
  else
    let n := if off + n > ip.size then ip.size - off else n
    readLoop sb n ip good off n 0 []

/-- Copy bytes `tot` to `tot + m` of the source into a block; a copy that
fails has changed a part of it. -/
def copyinBlock (addr off : Nat) (src : Src) (tot m : Nat) : B Bool := do
  let bytes := (src.bytes.drop tot).take (min m (src.good - tot))
  modify fun st => { st with data := update st.data addr (blit (st.data addr) off bytes) }
  return tot + m ≤ src.good

/-- The loop of `writei`: `tot`, the offset it came to, and the inode. -/
def writeLoop : Nat → Dinode → Src → Nat → Nat → Nat → B (Nat × Nat × Dinode)
  | 0, ip, _, off, _, tot => return (tot, off, ip)
  | fuel + 1, ip, src, off, n, tot => do
    if tot < n then
      let (addr, ip) ← bmap sb ip (off / bsize)
      if addr = 0 then return (tot, off, ip)
      else
        let m := min (n - tot) (bsize - off % bsize)
        if ← copyinBlock addr (off % bsize) src tot m then
          writeLoop fuel ip src (off + m) n (tot + m)
        else return (tot, off, ip)
    else return (tot, off, ip)

def writei (inum : Nat) (ip : Dinode) (src : Src) (off n : Nat) : B (Int × Dinode) := do
  if off > ip.size ∨ (off + n) % 2 ^ 32 < off then return (-1, ip)
  else if off + n > maxfile * bsize then return (-1, ip)
  else
    let (tot, off, ip) ← writeLoop sb n ip src off n 0
    let ip := if off > ip.size then { ip with size := off } else ip
    iupdate inum ip
    return (tot, ip)

end Xv6.Files
