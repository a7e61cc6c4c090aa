/-
Xv6.Files.Calls — open files and the file-system calls, from `kernel/file.c`
and `kernel/sysfile.c`.

A call is made by a process; calls of different processes come one after the
other. `fork` and `exit` are here for what they do to open files and current
directories. Paths come from user memory: `none` if they cannot be read.
-/
import Xv6.Files.Dir

namespace Xv6.Files

open Xv6.Vm (nproc)
open Xv6.Fs (maxopblocks)
open Function

/-! ## §1 Open files -/

def ndev : Int := 10
def maxpath : Nat := 128

def Fs.setFile (s : Fs) (f : Fin nfile) (x : File) : Fs :=
  { s with ftable := update s.ftable f x }

def modifyFile (f : Fin nfile) (g : File → File) : F Unit :=
  modify fun s => s.setFile f (g (s.ftable f))

def getFile (f : Fin nfile) : F File := do
  return (← get).ftable f

def filealloc : F (Option (Fin nfile)) := do
  let s ← get
  match (List.finRange nfile).find? fun f => (s.ftable f).ref = 0 with
  | some f =>
    modifyFile f fun x => { x with ref := 1 }
    return some f
  | none => return none

def filedup (f : Fin nfile) : F Unit := do
  if (← getFile f).ref < 1 then throw .filedup
  else modifyFile f fun x => { x with ref := x.ref + 1 }

def fileclose (f : Fin nfile) : F Unit := do
  let x ← getFile f
  if x.ref < 1 then throw .fileclose
  else if x.ref > 1 then modifyFile f fun x => { x with ref := x.ref - 1 }
  else
    modifyFile f fun x => { x with ref := 0, kind := .none }
    if x.kind = .none then return else iput x.ip

variable (sb : Superblock)

/-- `n` is of type `int`; `good` bytes can be copied out, and `dev` is what a
device returns. -/
def fileread (f : Fin nfile) (n : Int) (good : Nat) (dev : Int) : F Int := do
  let x ← getFile f
  if ¬ x.readable then return -1
  else
    match x.kind with
    | .inode =>
      ilock x.ip
      let (r, _) ← readInode sb x.ip good x.off (n % 2 ^ 32).toNat
      if r > 0 then modifyFile f fun x => { x with off := x.off + r.toNat } else pure ()
      return r
    | .device => return dev
    | .none => throw .fileread

/-- The rest of a source from byte `i` on. -/
def Src.drop (src : Src) (i : Nat) : Src :=
  ⟨src.bytes.drop i, src.good - i, by rw [List.length_drop]; exact Nat.sub_le_sub_right src.fits i⟩

/-- The blocks of one transaction of `filewrite`. -/
def maxWrite : Nat := ((maxopblocks - 1 - 1 - 2) / 2) * bsize

/-- The loop of `filewrite`, which comes to byte `i`. -/
def filewriteLoop (f : Fin nfile) (src : Src) (n : Nat) : Nat → Nat → F Nat
  | 0, i => return i
  | fuel + 1, i => do
    if i < n then
      let n1 := min (n - i) maxWrite
      let x ← getFile f
      ilock x.ip
      let r ← writeInode sb x.ip (src.drop i) x.off n1
      if r > 0 then modifyFile f fun x => { x with off := x.off + r.toNat } else pure ()
      if r ≠ n1 then return i else filewriteLoop f src n fuel (i + n1)
    else return i

def filewrite (f : Fin nfile) (src : Src) (n : Int) (dev : Int) : F Int := do
  let x ← getFile f
  if ¬ x.writable then return -1
  else
    match x.kind with
    | .inode =>
      let i ← filewriteLoop sb f src n.toNat n.toNat 0
      return if (i : Int) = n then n else -1
    | .device => return dev
    | .none => throw .filewrite

/-! ## §2 Descriptors -/

def getProc (p : Fin nproc) : F FProc := do
  match (← get).procs p with
  | some x => return x
  | none => return ⟨⟨0, by decide⟩, fun _ => none⟩

def setProc (p : Fin nproc) (x : FProc) : F Unit :=
  modify fun s => { s with procs := update s.procs p (some x) }

def argfd (p : Fin nproc) (fd : Int) : F (Option (Fin nofile × Fin nfile)) := do
  let x ← getProc p
  if h : 0 ≤ fd ∧ fd < nofile then
    let k : Fin nofile := ⟨fd.toNat, by omega⟩
    return (x.ofile k).map fun f => (k, f)
  else return none

/-- The first free descriptor, which is now `f`. -/
def fdalloc (p : Fin nproc) (f : Fin nfile) : F (Option (Fin nofile)) := do
  let x ← getProc p
  match (List.finRange nofile).find? fun k => x.ofile k = none with
  | some k =>
    setProc p { x with ofile := update x.ofile k (some f) }
    return some k
  | none => return none

/-- `argstr`: a string of less than `MAXPATH` bytes. -/
def argstr (path : Option (List Byte)) : Option (List Byte) :=
  match path with
  | some s =>
    let s := s.takeWhile (· ≠ 0)
    if s.length < maxpath then some s else none
  | none => none

def namei (p : Fin nproc) (path : List Byte) : F (Option (Fin ninode)) := do
  match ← namex sb (← getProc p).cwd false path with
  | some (ip, _) => return some ip
  | none => return none

def nameiparent (p : Fin nproc) (path : List Byte) : F (Option (Fin ninode × Name)) := do
  namex sb (← getProc p).cwd true path

/-! ## §3 Calls on descriptors -/

def sysDup (p : Fin nproc) (fd : Int) : F Int := do
  match ← argfd p fd with
  | some (_, f) =>
    match ← fdalloc p f with
    | some k =>
      filedup f
      return k.val
    | none => return -1
  | none => return -1

def sysRead (p : Fin nproc) (fd n : Int) (good : Nat) (dev : Int) : F Int := do
  match ← argfd p fd with
  | some (_, f) => fileread sb f n good dev
  | none => return -1

def sysWrite (p : Fin nproc) (fd n : Int) (src : Src) (dev : Int) : F Int := do
  match ← argfd p fd with
  | some (_, f) => filewrite sb f src n dev
  | none => return -1

def sysClose (p : Fin nproc) (fd : Int) : F Int := do
  match ← argfd p fd with
  | some (k, f) =>
    let x ← getProc p
    setProc p { x with ofile := update x.ofile k none }
    fileclose f
    return 0
  | none => return -1

/-! ## §4 Calls on names -/

def sysLink (p : Fin nproc) (old new : Option (List Byte)) : F Int := do
  match argstr old, argstr new with
  | some old, some new =>
    match ← namei sb p old with
    | none => return -1
    | some ip =>
      if (← locked ip).type = .dir then
        iput ip
        return -1
      else
        updateInode ip fun d => { d with nlink := d.nlink + 1 }
        match ← nameiparent sb p new with
        | some (dp, name) =>
          ilock dp
          let r ← dirlink sb dp name (← getInode ip).inum
          iput dp
          if r < 0 then bad ip
          else
            iput ip
            return 0
        | none => bad ip
  | _, _ => return -1
where
  bad (ip : Fin ninode) : F Int := do
    ilock ip
    updateInode ip fun d => { d with nlink := d.nlink - 1 }
    iput ip
    return -1

/-- The end of `sys_unlink`: clear the entry at `off` for inode `ip`. -/
def removeEntry (dp ip : Fin ninode) (off : Nat) (isDir : Bool) : F Unit := do
  let r ← writeInode sb dp (.kernel (List.replicate direntSize 0)) off direntSize
  if r ≠ direntSize then throw .unlinkWritei
  else
    if isDir then updateInode dp fun d => { d with nlink := d.nlink - 1 } else pure ()
    iput dp
    updateInode ip fun d => { d with nlink := d.nlink - 1 }
    iput ip

def sysUnlink (p : Fin nproc) (path : Option (List Byte)) : F Int := do
  match argstr path with
  | none => return -1
  | some path =>
    match ← nameiparent sb p path with
    | none => return -1
    | some (dp, name) =>
      ilock dp
      if sameName name dotName ∨ sameName name dotdotName then
        iput dp
        return -1
      else
        match ← dirlookup sb dp name with
        | none =>
          iput dp
          return -1
        | some (ip, off) =>
          let d ← locked ip
          if d.nlink.toInt < 1 then throw .unlinkNlink
          else
            let empty ← if d.type = .dir then isdirempty sb ip else pure true
            if ¬ empty then
              iput ip
              iput dp
              return -1
            else
              removeEntry sb dp ip off (d.type = .dir)
              return 0

/-- The "." and ".." entries of a new directory. -/
def linkDots (dp ip : Fin ninode) : F Bool := do
  let r ← dirlink sb ip dotName (← getInode ip).inum
  if r < 0 then return false
  else
    let r ← dirlink sb ip dotdotName (← getInode dp).inum
    return ¬ r < 0

/-- The new inode, or the one that is there already. -/
def create (p : Fin nproc) (path : List Byte) (type : FileType) (major minor : BitVec 16) :
    F (Option (Fin ninode)) := do
  match ← nameiparent sb p path with
  | none => return none
  | some (dp, name) =>
    ilock dp
    match ← dirlookup sb dp name with
    | some (ip, _) =>
      iput dp
      let d ← locked ip
      if type = .file ∧ (d.type = .file ∨ d.type = .device) then return some ip
      else
        iput ip
        return none
    | none =>
      match ← onStore (ialloc sb type) with
      | none =>
        iput dp
        return none
      | some inum =>
        let ip ← iget inum
        ilock ip
        updateInode ip fun d => { d with major := major, minor := minor, nlink := 1 }
        let ok ← if type = .dir then linkDots sb dp ip else pure true
        if ¬ ok then fail ip dp
        else
          let r ← dirlink sb dp name inum
          if r < 0 then fail ip dp
          else
            if type = .dir then updateInode dp fun d => { d with nlink := d.nlink + 1 }
            else pure ()
            iput dp
            return some ip
where
  fail (ip dp : Fin ninode) : F (Option (Fin ninode)) := do
    updateInode ip fun d => { d with nlink := 0 }
    iput ip
    iput dp
    return none

def oWronly (omode : Nat) : Bool := omode.testBit 0
def oRdwr (omode : Nat) : Bool := omode.testBit 1
def oCreate (omode : Nat) : Bool := omode.testBit 9
def oTrunc (omode : Nat) : Bool := omode.testBit 10

/-- `sys_open` once it has the inode. -/
def openInode (p : Fin nproc) (ip : Fin ninode) (omode : Nat) : F Int := do
  let d := (← getInode ip).copy
  if d.type = .device ∧ (d.major.toInt < 0 ∨ d.major.toInt ≥ ndev) then
    iput ip
    return -1
  else
    match ← filealloc with
    | none =>
      iput ip
      return -1
    | some f =>
      match ← fdalloc p f with
      | none =>
        fileclose f
        iput ip
        return -1
      | some fd =>
        modifyFile f fun x =>
          if d.type = .device then { x with kind := .device, major := d.major }
          else { x with kind := .inode, off := 0 }
        modifyFile f fun x =>
          { x with
            ip := ip, readable := !oWronly omode, writable := oWronly omode || oRdwr omode }
        if oTrunc omode ∧ d.type = .file then truncInode ip else pure ()
        return fd.val

def sysOpen (p : Fin nproc) (path : Option (List Byte)) (omode : Nat) : F Int := do
  match argstr path with
  | none => return -1
  | some path =>
    if oCreate omode then
      match ← create sb p path .file 0 0 with
      | none => return -1
      | some ip => openInode p ip omode
    else
      match ← namei sb p path with
      | none => return -1
      | some ip =>
        let d ← locked ip
        if d.type = .dir ∧ omode ≠ 0 then
          iput ip
          return -1
        else openInode p ip omode

/-- `sys_mkdir` and `sys_mknod`. -/
def make (p : Fin nproc) (path : Option (List Byte)) (type : FileType) (major minor : BitVec 16) :
    F Int := do
  match argstr path with
  | none => return -1
  | some path =>
    match ← create sb p path type major minor with
    | none => return -1
    | some ip =>
      iput ip
      return 0

def sysMkdir (p : Fin nproc) (path : Option (List Byte)) : F Int := make sb p path .dir 0 0

def sysMknod (p : Fin nproc) (path : Option (List Byte)) (major minor : BitVec 16) : F Int :=
  make sb p path .device major minor

def sysChdir (p : Fin nproc) (path : Option (List Byte)) : F Int := do
  match argstr path with
  | none => return -1
  | some path =>
    match ← namei sb p path with
    | none => return -1
    | some ip =>
      if (← locked ip).type ≠ .dir then
        iput ip
        return -1
      else
        let x ← getProc p
        iput x.cwd
        setProc p { x with cwd := ip }
        return 0

/-! ## §5 Processes -/

/-- `filedup` on each open file. -/
def dupAll : List (Option (Fin nfile)) → F Unit
  | [] => return
  | none :: fs => dupAll fs
  | some f :: fs => do
    filedup f
    dupAll fs

/-- The part of `kfork` that makes process `q` share the files of `p`. -/
def forkFiles (p q : Fin nproc) : F Unit := do
  let x ← getProc p
  dupAll ((List.finRange nofile).map x.ofile)
  let cwd ← idup x.cwd
  setProc q { cwd := cwd, ofile := x.ofile }

/-- `fileclose` on each open file. -/
def closeAll (p : Fin nproc) : List (Fin nofile) → F Unit
  | [] => return
  | k :: ks => do
    let x ← getProc p
    match x.ofile k with
    | none => closeAll p ks
    | some f =>
      fileclose f
      setProc p { x with ofile := update x.ofile k none }
      closeAll p ks

/-- The part of `kexit` that closes the files of process `p`. -/
def exitFiles (p : Fin nproc) : F Unit := do
  closeAll p (List.finRange nofile)
  iput (← getProc p).cwd
  modify fun s => { s with procs := update s.procs p none }

/-! ## §6 Runs -/

inductive Call where
  | dup (fd : Int)
  | read (fd n : Int) (good : Nat) (dev : Int)
  | write (fd n : Int) (src : Src) (dev : Int)
  | close (fd : Int)
  | link (old new : Option (List Byte))
  | unlink (path : Option (List Byte))
  | open (path : Option (List Byte)) (omode : Nat)
  | mkdir (path : Option (List Byte))
  | mknod (path : Option (List Byte)) (major minor : BitVec 16)
  | chdir (path : Option (List Byte))
  -- the new process is `q`
  | fork (q : Fin nproc)
  | exit

/-- Process `p` makes a call; its result. -/
def call (p : Fin nproc) : Call → F Int
  | .dup fd => sysDup p fd
  | .read fd n good dev => sysRead sb p fd n good dev
  | .write fd n src dev => sysWrite sb p fd n src dev
  | .close fd => sysClose p fd
  | .link old new => sysLink sb p old new
  | .unlink path => sysUnlink sb p path
  | .open path omode => sysOpen sb p path omode
  | .mkdir path => sysMkdir sb p path
  | .mknod path major minor => sysMknod sb p path major minor
  | .chdir path => sysChdir sb p path
  | .fork q => do
    if (← get).procs q = none then
      forkFiles p q
      return 0
    else return -1
  | .exit => do
    exitFiles p
    return 0

/-- A call of a process that is there. -/
def step (p : Fin nproc) (c : Call) : F Unit := do
  if ((← get).procs p).isSome then
    let _ ← call sb p c
  else return

def run : List (Fin nproc × Call) → F Unit
  | [] => return
  | (p, c) :: cs => do
    step sb p c
    run cs

/-- The first process, in the root directory. -/
def boot (st : Store) : Fs where
  store := st
  itable := update (fun _ => ⟨0, 0, false, .zero⟩) ⟨0, by decide⟩ ⟨rootino, 1, false, .zero⟩
  ftable _ := ⟨.none, 0, false, false, ⟨0, by decide⟩, 0, 0⟩
  procs := update (fun _ => none) ⟨0, by decide⟩ (some ⟨⟨0, by decide⟩, fun _ => none⟩)

end Xv6.Files
