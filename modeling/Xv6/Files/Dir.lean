/-
Xv6.Files.Dir — the inode table, directories and paths, from `kernel/fs.c`.

File-system calls run one after the other here, so the sleep locks of inodes
do not appear. There is one device.
-/
import Xv6.Files.Inode
import Xv6.Lib.Outcome
import Xv6.Vm.Riscv

namespace Xv6.Files

open Xv6.Lib (focus)
open Xv6.Vm (nproc)
open Function

/-! ## §1 The state -/

def ninode : Nat := 50
def nfile : Nat := 100
def nofile : Nat := 16
def rootino : Nat := 1

theorem ninode_pos : 0 < ninode := by decide

/-- `struct inode`: its place in the table, and a copy of the disk inode. -/
structure Inode where
  inum : Nat
  ref : Nat
  valid : Bool
  copy : Dinode

inductive FileKind where
  | none
  | inode
  | device
  deriving DecidableEq, Repr

/-- `struct file`, for files that are not pipes. -/
structure File where
  kind : FileKind
  ref : Nat
  readable : Bool
  writable : Bool
  ip : Fin ninode
  off : Nat
  major : BitVec 16

/-- The part of `struct proc` that has to do with files. -/
structure FProc where
  cwd : Fin ninode
  ofile : Fin nofile → Option (Fin nfile)

structure Fs where
  store : Store
  itable : Fin ninode → Inode
  ftable : Fin nfile → File
  procs : Fin nproc → Option FProc

abbrev F (α : Type) := StateT Fs (Except Panic) α

/-- Run a function of the layer below. -/
def onStore {α : Type} (x : B α) : F α := focus Fs.store (fun s st => { s with store := st }) x

def Fs.setInode (s : Fs) (i : Fin ninode) (x : Inode) : Fs :=
  { s with itable := update s.itable i x }

def modifyInode (i : Fin ninode) (f : Inode → Inode) : F Unit :=
  modify fun s => s.setInode i (f (s.itable i))

def getInode (i : Fin ninode) : F Inode := do
  return (← get).itable i

variable (sb : Superblock)

/-! ## §2 The inode table -/

/-- The entry for inode `inum`, with one more reference. -/
def iget (inum : Nat) : F (Fin ninode) := do
  let s ← get
  match (List.finRange ninode).find? fun i => 0 < (s.itable i).ref ∧ (s.itable i).inum = inum with
  | some i =>
    modifyInode i fun x => { x with ref := x.ref + 1 }
    return i
  | none =>
    match (List.finRange ninode).find? fun i => (s.itable i).ref = 0 with
    | some i =>
      modifyInode i fun x => { x with inum := inum, ref := 1, valid := false }
      return i
    | none => throw .noInodes

def idup (i : Fin ninode) : F (Fin ninode) := do
  modifyInode i fun x => { x with ref := x.ref + 1 }
  return i

/-- Read the inode from the disk if need be; the lock is free. -/
def ilock (i : Fin ninode) : F Unit := do
  let s ← get
  let x := s.itable i
  if x.ref < 1 then throw .ilock
  else if x.valid then return
  else
    modifyInode i fun x => { x with copy := s.store.dinodes x.inum, valid := true }
    if (s.store.dinodes x.inum).type = .free then throw .noType else return

/-- `ilock` and the fields that the caller reads. -/
def locked (i : Fin ninode) : F Dinode := do
  ilock i
  return (← getInode i).copy

/-- Change fields of a locked inode and `iupdate` it. -/
def updateInode (i : Fin ninode) (f : Dinode → Dinode) : F Unit := do
  let x ← getInode i
  modifyInode i fun x => { x with copy := f x.copy }
  onStore (iupdate x.inum (f x.copy))

/-- Drop a reference; without links, the last one frees the inode. -/
def iput (i : Fin ninode) : F Unit := do
  let x ← getInode i
  if x.ref = 1 ∧ x.valid ∧ x.copy.nlink = 0 then
    let ip ← onStore (itrunc x.inum x.copy)
    let ip := { ip with type := .free }
    onStore (iupdate x.inum ip)
    modifyInode i fun x => { x with copy := ip, valid := false }
    modifyInode i fun x => { x with ref := x.ref - 1 }
  else modifyInode i fun x => { x with ref := x.ref - 1 }

/-! ### Reading and writing through the table -/

def readInode (i : Fin ninode) (good off n : Nat) : F (Int × List Byte) := do
  let x ← getInode i
  let (r, bytes, ip) ← onStore (readi sb x.copy good off n)
  modifyInode i fun x => { x with copy := ip }
  return (r, bytes)

def writeInode (i : Fin ninode) (src : Src) (off n : Nat) : F Int := do
  let x ← getInode i
  let (r, ip) ← onStore (writei sb x.inum x.copy src off n)
  modifyInode i fun x => { x with copy := ip }
  return r

def truncInode (i : Fin ninode) : F Unit := do
  let x ← getInode i
  let ip ← onStore (itrunc x.inum x.copy)
  modifyInode i fun x => { x with copy := ip }

/-! ## §3 Directories -/

def dirsiz : Nat := 14
def direntSize : Nat := 16

/-- A name as the kernel passes it on: at most `DIRSIZ` bytes, none of them 0. -/
abbrev Name := List Byte

structure Dirent where
  inum : Nat
  name : Name
  deriving DecidableEq, Repr

/-- The bytes of a name field up to the first NUL. -/
def nameOf (bytes : List Byte) : Name := (bytes.take dirsiz).takeWhile (· ≠ 0)

def direntOf (bytes : List Byte) : Dirent :=
  { inum := (bytes.getD 0 0).toNat + 256 * (bytes.getD 1 0).toNat, name := nameOf (bytes.drop 2) }

/-- `strncpy` pads the name with NULs. -/
def direntBytes (inum : Nat) (name : Name) : List Byte :=
  [BitVec.ofNat 8 inum, BitVec.ofNat 8 (inum / 256)] ++
    (name.take dirsiz ++ List.replicate (dirsiz - name.length) 0)

/-- `namecmp(s, t) == 0`. -/
def sameName (s t : Name) : Bool := nameOf s = nameOf t

/-- The entry at `off`; `e` if it cannot be read. -/
def readDirent (dp : Fin ninode) (off : Nat) (e : Panic) : F Dirent := do
  let (r, bytes) ← readInode sb dp direntSize off direntSize
  if r ≠ direntSize then throw e else return direntOf bytes

/-- The offsets of the loops over a directory of this size. -/
def offsets (size : Nat) : List Nat :=
  (List.range ((size + direntSize - 1) / direntSize)).map (· * direntSize)

/-- The first entry among these offsets that has the name. -/
def lookupLoop (dp : Fin ninode) (name : Name) : List Nat → F (Option (Nat × Nat))
  | [] => return none
  | off :: offs => do
    let de ← readDirent sb dp off .dirlookupRead
    if de.inum = 0 then lookupLoop dp name offs
    else if sameName name de.name then return some (de.inum, off)
    else lookupLoop dp name offs

/-- The inode with this name in a directory, and the offset of its entry. -/
def dirlookup (dp : Fin ninode) (name : Name) : F (Option (Fin ninode × Nat)) := do
  let x ← getInode dp
  if x.copy.type ≠ .dir then throw .dirlookupNotDir
  else
    match ← lookupLoop sb dp name (offsets x.copy.size) with
    | some (inum, off) =>
      let ip ← iget inum
      return some (ip, off)
    | none => return none

/-- The first empty entry among these offsets. -/
def emptyLoop (dp : Fin ninode) : List Nat → F (Option Nat)
  | [] => return none
  | off :: offs => do
    let de ← readDirent sb dp off .dirlinkRead
    if de.inum = 0 then return some off else emptyLoop dp offs

/-- Write a new entry; -1 if the name exists or the disk is full. -/
def dirlink (dp : Fin ninode) (name : Name) (inum : Nat) : F Int := do
  match ← dirlookup sb dp name with
  | some (ip, _) =>
    iput ip
    return -1
  | none =>
    let offs := offsets (← getInode dp).copy.size
    let off := (← emptyLoop sb dp offs).getD (offs.length * direntSize)
    let r ← writeInode sb dp (.kernel (direntBytes inum name)) off direntSize
    if r ≠ direntSize then return -1 else return 0

/-- Are there entries at these offsets? -/
def emptyFrom (dp : Fin ninode) : List Nat → F Bool
  | [] => return true
  | off :: offs => do
    let de ← readDirent sb dp off .isdiremptyRead
    if de.inum ≠ 0 then return false else emptyFrom dp offs

/-- Is the directory empty except for "." and ".."? -/
def isdirempty (dp : Fin ninode) : F Bool := do
  emptyFrom sb dp ((offsets (← getInode dp).copy.size).drop 2)

/-! ## §4 Paths -/

def slash : Byte := 0x2f

def dotName : Name := [0x2e]
def dotdotName : Name := [0x2e, 0x2e]

/-- The next element of a path and the rest, without leading slashes. -/
def skipelem (path : List Byte) : Option (Name × List Byte) :=
  match path.dropWhile (· = slash) with
  | [] => none
  | c :: cs =>
    let s := c :: cs
    some ((s.takeWhile (· ≠ slash)).take dirsiz,
      (s.dropWhile (· ≠ slash)).dropWhile (· = slash))

/-- The loop of `namex`: the inode of the path, or its parent and last name. -/
def namexLoop (nameiparent : Bool) : Nat → List Byte → Fin ninode →
    F (Option (Fin ninode × Name))
  | 0, _, ip => do
    iput ip
    return none
  | fuel + 1, path, ip => do
    match skipelem path with
    | some (name, rest) =>
      let d ← locked ip
      if d.type ≠ .dir then
        iput ip
        return none
      else if nameiparent ∧ rest = [] then return some (ip, name)
      else
        match ← dirlookup sb ip name with
        | some (next, _) =>
          iput ip
          namexLoop nameiparent fuel rest next
        | none =>
          iput ip
          return none
    | none =>
      if nameiparent then
        iput ip
        return none
      else return some (ip, [])

def namex (cwd : Fin ninode) (nameiparent : Bool) (path : List Byte) :
    F (Option (Fin ninode × Name)) := do
  let ip ← if path.head? = some slash then iget rootino else idup cwd
  namexLoop sb nameiparent (path.length + 1) path ip

end Xv6.Files
