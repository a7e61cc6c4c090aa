/-
Xv6.Mkfs.Mkfs — the image builder, from `mkfs/mkfs.c`, and the image as the
kernel reads it.

An image is a file of blocks. The program runs on a host with the byte order of
the target, where `xint` and `xshort` change nothing. `read` may return an input
file in pieces of any size, so an input is given by its reads.
-/
import Xv6.Files.Dir
import Xv6.Files.BlockTheorems

namespace Xv6.Mkfs

open Xv6.Fs (Block word logblocks)
open Xv6.Files Function

/-! ## §1 The format -/

def fssize : Nat := 2000
def ninodes : Nat := 200
def nbitmap : Nat := fssize / bpb + 1
def ninodeblocks : Nat := ninodes / ipb + 1
def nlog : Nat := logblocks + 1
def nmeta : Nat := 2 + nlog + ninodeblocks + nbitmap
def nblocks : Nat := fssize - nmeta
def fsmagic : Nat := 0x10203040

/-- `struct superblock`. -/
structure Sb where
  magic : Nat
  size : Nat
  nblocks : Nat
  ninodes : Nat
  nlog : Nat
  logstart : Nat
  inodestart : Nat
  bmapstart : Nat
  deriving DecidableEq, Repr

def sb : Sb where
  magic := fsmagic
  size := fssize
  nblocks := nblocks
  ninodes := ninodes
  nlog := nlog
  logstart := 2
  inodestart := 2 + nlog
  bmapstart := 2 + nlog + ninodeblocks

def Sb.words (sb : Sb) : List Nat :=
  [sb.magic, sb.size, sb.nblocks, sb.ninodes, sb.nlog, sb.logstart, sb.inodestart, sb.bmapstart]

/-- `memmove` of a superblock into a block of zeroes. -/
def Sb.block (sb : Sb) : Block := fun k => BitVec.ofNat 32 (sb.words.getD k 0)

/-- The kernel's `readsb`. -/
def readsb (b : Block) : Sb where
  magic := (word b 0).toNat
  size := (word b 1).toNat
  nblocks := (word b 2).toNat
  ninodes := (word b 3).toNat
  nlog := (word b 4).toNat
  logstart := (word b 5).toNat
  inodestart := (word b 6).toNat
  bmapstart := (word b 7).toNat

/-- `IBLOCK` and `BBLOCK`. -/
def Sb.iblock (sb : Sb) (i : Nat) : Nat := i / ipb + sb.inodestart
def Sb.bblock (sb : Sb) (b : Nat) : Nat := b / bpb + sb.bmapstart

/-- `T_DIR`, `T_FILE` and `T_DEVICE`; 0 is a free inode. -/
def typeShort : FileType → BitVec 16
  | .free => 0
  | .dir => 1
  | .file => 2
  | .device => 3

def typeOf (t : BitVec 16) : FileType :=
  if t = 0 then .free else if t = 1 then .dir else if t = 2 then .file else .device

/-- The words of a `struct dinode`: two pairs of shorts, the size, addresses. -/
def dinodeWord (d : Dinode) (j : Nat) : BitVec 32 :=
  if j = 0 then d.major ++ typeShort d.type
  else if j = 1 then d.nlink ++ d.minor
  else if j = 2 then BitVec.ofNat 32 d.size
  else if h : j - 3 < 13 then BitVec.ofNat 32 (d.addrs ⟨j - 3, h⟩)
  else 0

def wordsPerDinode : Nat := 16

/-- `((struct dinode*)b)[k]`. -/
def dinodeOf (b : Block) (k : Nat) : Dinode where
  type := typeOf ((word b (k * wordsPerDinode)).setWidth 16)
  major := (word b (k * wordsPerDinode)).extractLsb' 16 16
  minor := (word b (k * wordsPerDinode + 1)).setWidth 16
  nlink := (word b (k * wordsPerDinode + 1)).extractLsb' 16 16
  size := (word b (k * wordsPerDinode + 2)).toNat
  addrs a := (word b (k * wordsPerDinode + 3 + a)).toNat

def putDinode (b : Block) (k : Nat) (d : Dinode) : Block := fun j =>
  if j / wordsPerDinode = k then dinodeWord d (j % wordsPerDinode) else b j

/-- `data[bi / 8] & (1 << (bi % 8))`. -/
def bitSet (b : Block) (bi : Nat) : Bool := blockByte b (bi / 8) &&& (1#8 <<< (bi % 8)) ≠ 0

/-- The parts of a disk, where the kernel looks for them. There is a bit for each
block of the disk, and an inode for each place in the inode blocks. -/
def storeOf (sb : Sb) (img : Nat → Block) : Store where
  bitmap b := b < sb.size && bitSet (img (sb.bblock b)) (b % bpb)
  dinodes i := if sb.iblock i < sb.bmapstart then dinodeOf (img (sb.iblock i)) (i % ipb) else .zero
  data := img

/-- The disk of a machine that starts with this image. -/
def mount (img : Nat → Block) : Store := storeOf (readsb (img 1)) img

/-! ## §2 Sectors and inodes -/

structure Mk where
  img : Nat → Block
  len : Nat
  freeinode : Nat
  freeblock : Nat

inductive Fail where
  -- assertions
  | rootino
  | slash
  | nameLength
  | maxfile
  | used
  -- `die("read")`
  | read
  deriving DecidableEq, Repr

abbrev M (α : Type) := StateT Mk (Except Fail) α

def wsect (sec : Nat) (buf : Block) : M Unit :=
  modify fun m => { m with img := update m.img sec buf, len := max m.len (sec + 1) }

def rsect (sec : Nat) : M Block := do
  let m ← get
  if sec < m.len then return m.img sec else throw .read

def winode (inum : Nat) (ip : Dinode) : M Unit := do
  let buf ← rsect (sb.iblock inum)
  wsect (sb.iblock inum) (putDinode buf (inum % ipb) ip)

def rinode (inum : Nat) : M Dinode := do
  let buf ← rsect (sb.iblock inum)
  return dinodeOf buf (inum % ipb)

def ialloc (type : FileType) : M Nat := do
  let inum := (← get).freeinode
  modify fun m => { m with freeinode := m.freeinode + 1 }
  winode inum { Dinode.zero with type := type, nlink := 1 }
  return inum

/-- `freeblock++`. -/
def takeBlock : M Nat := do
  let b := (← get).freeblock
  modify fun m => { m with freeblock := m.freeblock + 1 }
  return b

/-! ## §3 `iappend` -/

/-- The address of block `fbn`, which is allocated if need be. -/
def directAddr (din : Dinode) (k : Fin 13) : M (Nat × Dinode) := do
  if din.addrs k = 0 then
    let b ← takeBlock
    return (b, din.setAddr k b)
  else return (din.addrs k, din)

def wordAddr (ind k : Nat) : M Nat := do
  let words ← rsect ind
  if (word words k).toNat = 0 then
    let b ← takeBlock
    wsect ind (setWord words k b)
    return b
  else return (word words k).toNat

def appendAddr (din : Dinode) (fbn : Nat) : M (Nat × Dinode) := do
  if h : fbn < ndirect then directAddr din ⟨fbn, direct_index_lt h⟩
  else
    let (ind, din) ← directAddr din indirect
    let x ← wordAddr ind (fbn - ndirect)
    return (x, din)

/-- The loop of `iappend`, for the bytes `p` that are left. -/
def appendLoop : Nat → Dinode → Nat → List Byte → M (Dinode × Nat)
  | 0, din, off, _ => return (din, off)
  | fuel + 1, din, off, p => do
    if 0 < p.length then
      let fbn := off / bsize
      if fbn < maxfile then
        let (x, din) ← appendAddr din fbn
        let n1 := min p.length ((fbn + 1) * bsize - off)
        let buf ← rsect x
        wsect x (blit buf (off - fbn * bsize) (p.take n1))
        appendLoop fuel din (off + n1) (p.drop n1)
      else throw .maxfile
    else return (din, off)

def iappend (inum : Nat) (p : List Byte) : M Unit := do
  let din ← rinode inum
  let (din, off) ← appendLoop p.length din din.size p
  winode inum { din with size := off }

/-! ## §4 `main` -/

/-- A file on the command line: its path, and what successive calls of `read`
return, at most a block each. -/
structure Input where
  path : List Byte
  reads : List (List Byte)
  sizes : ∀ r ∈ reads, 0 < r.length ∧ r.length ≤ bsize

def Input.contents (f : Input) : List Byte := f.reads.flatten

/-- "user/" and '_'. -/
def userDir : List Byte := [0x75, 0x73, 0x65, 0x72, 0x2f]
def underscore : Byte := 0x5f

/-- The path without "user/". -/
def Input.base (f : Input) : List Byte :=
  if f.path.take 5 = userDir then f.path.drop 5 else f.path

/-- The name in the file system. -/
def Input.shortname (f : Input) : Name :=
  if f.base.head? = some underscore then f.base.drop 1 else f.base

def appendReads (inum : Nat) : List (List Byte) → M Unit
  | [] => return
  | r :: rs => do
    iappend inum r
    appendReads inum rs

def addFile (f : Input) : M Unit := do
  if slash ∈ f.base then throw .slash
  else if dirsiz < f.shortname.length then throw .nameLength
  else
    let inum ← ialloc .file
    iappend rootino (direntBytes inum f.shortname)
    appendReads inum f.reads

def addFiles : List Input → M Unit
  | [] => return
  | f :: fs => do
    addFile f
    addFiles fs

/-- `for(i = 0; i < FSSIZE; i++) wsect(i, zeroes)`. -/
def clear : Nat → M Unit
  | 0 => return
  | n + 1 => do
    clear n
    wsect n zeroBlock

def markBit (buf : Nat → Byte) (i : Nat) : Nat → Byte :=
  update buf (i / 8) (buf (i / 8) ||| (1#8 <<< (i % 8)))

/-- The blocks below `used` are marked in the first bitmap block. -/
def balloc (used : Nat) : M Unit := do
  if used < bpb then
    wsect sb.bmapstart (ofBytes ((List.range used).foldl markBit fun _ => 0))
  else throw .used

def main (files : List Input) : M Unit := do
  clear fssize
  wsect 1 sb.block
  let root ← ialloc .dir
  if root ≠ rootino then throw .rootino
  else
    iappend root (direntBytes root dotName)
    iappend root (direntBytes root dotdotName)
    addFiles files
    let din ← rinode root
    winode root { din with size := (din.size / bsize + 1) * bsize }
    balloc (← get).freeblock

/-- An empty file. -/
def Mk.start : Mk where
  img _ := zeroBlock
  len := 0
  freeinode := 1
  freeblock := nmeta

/-- The image, if there is one. -/
def mkfs (files : List Input) : Except Fail (Nat → Block) :=
  ((main files).run .start).map fun r => r.2.img

end Xv6.Mkfs
