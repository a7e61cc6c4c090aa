/-
Xv6.Fs.Disk — the buffer cache, commit and recovery, from `kernel/bio.c`
and `kernel/log.c`.

The disk is an array of blocks, and a write of one block happens in full or
not at all. Any number of processes run on the cache and the log of
`Xv6.Fs.Log`; each step below is atomic and writes at most one block, so
that a crash can come between any two disk writes. During a commit no
operation runs, but processes may read.

`hist` is not in the code. It records what each operation changed and which
operations have been committed.
-/
import Xv6.Fs.Log

namespace Xv6.Fs

open Xv6.Lib Function

/-! ## §1 Blocks -/

/-- A block of 1024 bytes as 256 words of type `uint`. -/
abbrev Block := Fin 256 → BitVec 32

/-- The disk layout, as far as the log depends on it: a header block at
`logstart` and `LOGBLOCKS` blocks after it. -/
structure LogLayout where
  logstart : Nat
  size : Nat
  fits : logstart + logblocks < size
  small : size ≤ 2 ^ 32

/-- What `mkfs` computes. -/
def LogLayout.mkfs : LogLayout := ⟨2, 2000, by decide, by decide⟩

/-- A block outside the log. -/
def LogLayout.Home (L : LogLayout) (b : Nat) : Prop :=
  b < L.size ∧ ¬ (L.logstart ≤ b ∧ b ≤ L.logstart + logblocks)

instance (L : LogLayout) (b : Nat) : Decidable (L.Home b) := by
  unfold LogLayout.Home
  infer_instance

def word (d : Block) (k : Nat) : BitVec 32 := if h : k < 256 then d ⟨k, h⟩ else 0

/-- The block numbers in a header block: an `int` count and that many words. -/
def headOf (d : Block) : List Nat :=
  (List.range (word d 0).toInt.toNat).map fun k => (word d (k + 1)).toNat

/-- A header block with these block numbers; the words after them stay. -/
def headBlock (lh : List Nat) (d : Block) : Block := fun k =>
  if k.val = 0 then BitVec.ofNat 32 lh.length
  else if k.val ≤ lh.length then BitVec.ofNat 32 (lh.getD (k.val - 1) 0)
  else d k

/-! ## §2 The state -/

def rootdev : Nat := 1

/-- `struct buf`; `owner` is the process that holds its sleep lock. -/
structure Buf where
  valid : Bool
  dev : Nat
  blockno : Nat
  refcnt : Nat
  owner : Option Nat
  data : Block

def Buf.empty : Buf :=
  { valid := false, dev := 0, blockno := 0, refcnt := 0, owner := none, data := fun _ => 0 }

/-- Where the boot code, or the process that commits, is: before reading the
header, before installing entry `tail` of the log at boot, before writing
entry `tail` of the log in a commit, before installing it. -/
inductive Stage where
  | readHead
  | reinstall (tail : Nat)
  | run
  | log (tail : Nat)
  | install (tail : Nat)
  deriving DecidableEq, Repr

/-- One change that an operation made to a block. -/
structure Event where
  op : Nat
  block : Nat
  change : Block → Block

/-- Operations are numbered in the order they begin. `op p` is the one that
process `p` runs, `ended` lists those that wait for the next commit, `done`
those whose commit has reached the disk. -/
structure Hist where
  events : List Event
  next : Nat
  op : Nat → Option Nat
  ended : List Nat
  done : List Nat

def Hist.empty : Hist :=
  { events := [], next := 0, op := fun _ => none, ended := [], done := [] }

/-- Process `p` begins an operation. -/
def Hist.begin (h : Hist) (p : Nat) : Hist :=
  { h with op := update h.op p (some h.next), next := h.next + 1 }

def Hist.add (h : Hist) (e : Event) : Hist := { h with events := h.events ++ [e] }

/-- Operation `n` of process `p` ends. -/
def Hist.finish (h : Hist) (p n : Nat) : Hist :=
  { h with op := update h.op p none, ended := h.ended ++ [n] }

/-- The operations that have ended are on the disk. -/
def Hist.commit (h : Hist) : Hist := { h with done := h.done ++ h.ended, ended := [] }

/-- There was nothing to commit. -/
def Hist.skip (h : Hist) : Hist := { h with ended := [] }

def Hist.crash (h : Hist) : Hist := { h with op := fun _ => none, ended := [] }

/-- What the operations that satisfy `live` make of `init`, in the order of
their changes. -/
def replay (init : Nat → Block) (events : List Event) (live : Nat → Bool) : Nat → Block :=
  (events.filter fun e => live e.op).foldl
    (fun d e => update d e.block (e.change (d e.block))) init

/-- `order` lists the buffers from the most to the least recently used;
`held` lists who has called `bget` and not yet `brelse`. -/
structure DiskSys where
  disk : Nat → Block
  buf : Fin nbuf → Buf
  order : List (Fin nbuf)
  held : List (Nat × Fin nbuf)
  ls : LogSys
  stage : Stage
  hist : Hist

/-- The state in which the kernel finds itself at boot. -/
def DiskSys.boot (disk : Nat → Block) (hist : Hist) : DiskSys where
  disk := disk
  buf := fun _ => .empty
  -- `binit` puts each buffer in front of the ones before it
  order := (List.finRange nbuf).reverse
  held := []
  ls := .start
  stage := .readHead
  hist := hist

def DiskSys.setBuf (s : DiskSys) (i : Fin nbuf) (x : Buf) : DiskSys :=
  { s with buf := update s.buf i x }

abbrev DM (α : Type) := StateT DiskSys (Except Panic) α

def modifyBuf (i : Fin nbuf) (f : Buf → Buf) : DM Unit :=
  modify fun s => s.setBuf i (f (s.buf i))

/-! ## §3 The buffer cache -/

/-- The buffer with block `b`, if there is one. -/
def DiskSys.cached (s : DiskSys) (b : Nat) : Option (Fin nbuf) :=
  s.order.find? fun i => (s.buf i).dev = rootdev ∧ (s.buf i).blockno = b

/-- The least recently used buffer that is not in use. -/
def DiskSys.unusedBuf (s : DiskSys) : Option (Fin nbuf) :=
  s.order.reverse.find? fun i => (s.buf i).refcnt = 0

/-- `bget` up to `acquiresleep`. -/
def bget (b : Nat) : DM (Fin nbuf) := do
  let s ← get
  match s.cached b with
  | some i =>
    modifyBuf i fun x => { x with refcnt := x.refcnt + 1 }
    return i
  | none =>
    match s.unusedBuf with
    | some i =>
      modifyBuf i fun x => { x with dev := rootdev, blockno := b, valid := false, refcnt := 1 }
      return i
    | none => throw .noBuffers

/-- `bread` after `bget`: take the lock, which is free, and read the block. -/
def lockBuf (p : Nat) (i : Fin nbuf) : DM Unit := do
  let s ← get
  modifyBuf i fun x =>
    if x.valid then { x with owner := some p }
    else { x with owner := some p, data := s.disk x.blockno, valid := true }

def bread (p b : Nat) : DM (Fin nbuf) := do
  let i ← bget b
  lockBuf p i
  return i

def bwrite (p : Nat) (i : Fin nbuf) : DM Unit := do
  let s ← get
  if (s.buf i).owner ≠ some p then throw .bwrite
  else set { s with disk := update s.disk (s.buf i).blockno (s.buf i).data }

def brelse (p : Nat) (i : Fin nbuf) : DM Unit := do
  let s ← get
  if (s.buf i).owner ≠ some p then throw .brelse
  else
    let x := { s.buf i with owner := none, refcnt := (s.buf i).refcnt - 1 }
    let s := s.setBuf i x
    if x.refcnt = 0 then set { s with order := i :: s.order.erase i } else set s

def bpin (i : Fin nbuf) : DM Unit := modifyBuf i fun x => { x with refcnt := x.refcnt + 1 }

def bunpin (i : Fin nbuf) : DM Unit := modifyBuf i fun x => { x with refcnt := x.refcnt - 1 }

def copyBuf (dst src : Fin nbuf) : DM Unit := do
  let s ← get
  modifyBuf dst fun x => { x with data := (s.buf src).data }

/-! ## §4 Commit and recovery -/

variable (L : LogLayout)

/-- The body of `write_log`'s loop, with `b` the block of entry `tail`. -/
def writeLogBlock (p tail b : Nat) : DM Unit := do
  let dst ← bread p (L.logstart + tail + 1)
  let src ← bread p b
  copyBuf dst src
  bwrite p dst
  brelse p src
  brelse p dst

/-- The body of `install_trans`'s loop. -/
def installBlock (p : Nat) (recovering : Bool) (tail b : Nat) : DM Unit := do
  let lbuf ← bread p (L.logstart + tail + 1)
  let dbuf ← bread p b
  copyBuf dbuf lbuf
  bwrite p dbuf
  if recovering then pure () else bunpin dbuf
  brelse p lbuf
  brelse p dbuf

def readHead (p : Nat) : DM (List Nat) := do
  let i ← bread p L.logstart
  let lh := headOf ((← get).buf i).data
  brelse p i
  return lh

def writeHead (p : Nat) (lh : List Nat) : DM Unit := do
  let i ← bread p L.logstart
  modifyBuf i fun x => { x with data := headBlock lh x.data }
  bwrite p i
  brelse p i

def setLog (l : Log) (p : Nat) (d : Doing) : DM Unit :=
  modify fun s => { s with ls := s.ls.set l p d }

def setStage (g : Stage) : DM Unit := modify fun s => { s with stage := g }

/-- Nobody holds the lock of block `b`. -/
def DiskSys.unlocked (s : DiskSys) (b : Nat) : Bool :=
  match s.cached b with
  | some i => (s.buf i).owner = none
  | none => true

/-- The next disk write of `commit()`. -/
def commitStep (p : Nat) : DM Unit := do
  let s ← get
  let lh := s.ls.log.lh
  match s.stage with
  | .log tail =>
    match lh[tail]? with
    | some b =>
      if s.unlocked b then
        writeLogBlock L p tail b
        setStage (.log (tail + 1))
      else return
    | none =>
      if lh.length > 0 then
        writeHead L p lh
        setStage (.install 0)
        modify fun s => { s with hist := s.hist.commit }
      else
        setLog s.ls.log p .erased
        setStage .run
        modify fun s => { s with hist := s.hist.skip }
  | .install tail =>
    match lh[tail]? with
    | some b =>
      if s.unlocked b then
        installBlock L p false tail b
        setStage (.install (tail + 1))
      else return
    | none =>
      setLog { s.ls.log with lh := [] } p .erased
      writeHead L p []
      setStage .run
  | _ => return

/-- The next step of `recover_from_log`, in the first process. -/
def recoverStep : DM Unit := do
  let s ← get
  match s.stage with
  | .readHead =>
    let lh ← readHead L 0
    modify fun s => { s with ls := { s.ls with log := { s.ls.log with lh := lh } } }
    setStage (.reinstall 0)
  | .reinstall tail =>
    match s.ls.log.lh[tail]? with
    | some b =>
      installBlock L 0 true tail b
      setStage (.reinstall (tail + 1))
    | none =>
      modify fun s => { s with ls := { s.ls with log := { s.ls.log with lh := [] } } }
      writeHead L 0 []
      setStage .run
  | _ => return

/-! ## §5 Runs -/

/-- The steps of processes, which name buffers by their block, and crashes. -/
inductive Act where
  | begin (p : Nat)
  | bget (p b : Nat)
  | lock (p b : Nat)
  -- change the block and `log_write` it
  | change (p b : Nat) (f : Block → Block)
  | brelse (p b : Nat)
  | finish (p : Nat)
  | commit (p : Nat)
  | return (p : Nat)
  | crash
  | recover

def Stage.booted : Stage → Bool
  | .readHead => false
  | .reinstall _ => false
  | _ => true

/-- One step; nothing happens if it is not possible. -/
def diskStep : Act → DM Unit
  | .begin p => do
    let s ← get
    match s.stage.booted, s.ls.doing p, beginOp s.ls.log with
    | true, .nothing, some l =>
      set { s with ls := s.ls.set l p (.op []), hist := s.hist.begin p }
    | _, _, _ => return
  | .bget p b => do
    if (← get).stage.booted ∧ L.Home b then
      let i ← bget b
      modify fun s => { s with held := (p, i) :: s.held }
    else return
  | .lock p b => do
    let s ← get
    match s.cached b with
    | some i => if (p, i) ∈ s.held ∧ (s.buf i).owner = none then lockBuf p i else return
    | none => return
  | .change p b f => do
    let s ← get
    match s.cached b, s.ls.doing p, s.hist.op p with
    | some i, .op bs, some n =>
      if (s.buf i).owner = some p ∧ (b ∈ bs ∨ bs.length < maxopblocks) then
        modifyBuf i fun x => { x with data := f x.data }
        let (l, new) ← logWrite b s.ls.log
        setLog l p (.op (if b ∈ bs then bs else bs ++ [b]))
        if new then bpin i else pure ()
        modify fun s => { s with hist := s.hist.add ⟨n, b, f⟩ }
      else return
    | _, _, _ => return
  | .brelse p b => do
    let s ← get
    match s.cached b with
    | some i =>
      if (s.buf i).owner = some p then
        brelse p i
        modify fun s => { s with held := s.held.erase (p, i) }
      else return
    | none => return
  | .finish p => do
    let s ← get
    match s.ls.doing p, s.hist.op p with
    | .op _, some n =>
      let (l, doCommit) ← endOp s.ls.log
      setLog l p (if doCommit then .commit else .nothing)
      modify fun s => { s with hist := s.hist.finish p n }
      if doCommit then setStage (.log 0) else pure ()
    | _, _ => return
  | .commit p => do
    match (← get).ls.doing p with
    | .commit => commitStep L p
    | _ => return
  | .return p => do
    let s ← get
    match s.ls.doing p with
    | .erased => setLog (endCommit s.ls.log) p .nothing
    | _ => return
  | .crash => modify fun s => .boot s.disk s.hist.crash
  | .recover => recoverStep L

def diskRun : List Act → DM Unit
  | [] => return
  | a :: as => do
    diskStep L a
    diskRun as

/-- A disk with a clean log. -/
structure Image where
  disk : Nat → Block
  clean : headOf (disk L.logstart) = []

def Image.boot (img : Image L) : DiskSys := .boot img.disk .empty

end Xv6.Fs
