/-
Xv6.Fs.Log — admission to the log, from `kernel/log.c`.

`Log` has the fields of `struct log` that `begin_op`, `log_write` and
`end_op` decide on; `lh` lists the first `n` block numbers of the header.
Each function here is one critical section of `log.lock`.

`LogSys` is any number of processes that call them. An operation is what a
process does between its `begin_op` and its `end_op`; it logs at most
`MAXOPBLOCKS` different blocks, each as often as it likes. The disk and the
buffers are left to `Xv6.Fs.Disk`.
-/
import Xv6.Lib.Outcome

namespace Xv6.Fs

open Xv6.Lib Function

def maxopblocks : Nat := 10
def logblocks : Nat := maxopblocks * 3
def nbuf : Nat := maxopblocks * 3

/-- The panics of `log.c` and `bio.c`. -/
inductive Panic where
  -- "too big a transaction"
  | tooBig
  -- "log_write outside of trans"
  | outsideTrans
  -- "log.committing"
  | committing
  -- "bget: no buffers"
  | noBuffers
  -- "bwrite"
  | bwrite
  -- "brelse"
  | brelse
  deriving DecidableEq, Repr

structure Log where
  outstanding : Int
  committing : Bool
  lh : List Nat
  deriving DecidableEq, Repr

def Log.empty : Log := { outstanding := 0, committing := false, lh := [] }

/-! ## §1 The functions of the log -/

/-- One round of `begin_op`'s loop; `none` if the caller sleeps. -/
def beginOp (l : Log) : Option Log :=
  if l.committing then none
  else if l.lh.length + (l.outstanding + 1) * maxopblocks > logblocks then none
  else some { l with outstanding := l.outstanding + 1 }

/-- `end_op` up to `commit()`, with its `do_commit`. -/
def endOp (l : Log) : Except Panic (Log × Bool) :=
  let l := { l with outstanding := l.outstanding - 1 }
  if l.committing then .error .committing
  else if l.outstanding = 0 then .ok ({ l with committing := true }, true)
  else .ok (l, false)

/-- `end_op` after `commit()`. -/
def endCommit (l : Log) : Log := { l with committing := false }

/-- `log_write` of block `b`; true if the block is new in the log, so that
its buffer is to be pinned. -/
def logWrite (b : Nat) (l : Log) : Except Panic (Log × Bool) :=
  if l.lh.length ≥ logblocks then .error .tooBig
  else if l.outstanding < 1 then .error .outsideTrans
  -- log absorption
  else if b ∈ l.lh then .ok (l, false)
  else .ok ({ l with lh := l.lh ++ [b] }, true)

/-! ## §2 Processes -/

/-- What a process is doing, as far as the log is concerned: an operation
that has logged the blocks `bs`, or a commit before or after it erased the
header. -/
inductive Doing where
  | nothing
  | op (bs : List Nat)
  | commit
  | erased
  deriving DecidableEq, Repr

structure LogSys where
  log : Log
  doing : Nat → Doing

def LogSys.start : LogSys := { log := .empty, doing := fun _ => .nothing }

def LogSys.set (s : LogSys) (l : Log) (p : Nat) (d : Doing) : LogSys :=
  { log := l, doing := update s.doing p d }

inductive LogAct where
  | begin (p : Nat)
  | write (p b : Nat)
  | finish (p : Nat)
  -- `commit()` is done with the log, and `end_op` returns
  | erase (p : Nat)
  | return (p : Nat)
  deriving DecidableEq, Repr

abbrev LM (α : Type) := StateT LogSys (Except Panic) α

/-- One step; nothing happens if the process does not get there. -/
def logStep : LogAct → LM Unit
  | .begin p => do
    let s ← get
    match s.doing p, beginOp s.log with
    | .nothing, some l => set (s.set l p (.op []))
    | _, _ => return
  | .write p b => do
    let s ← get
    match s.doing p with
    | .op bs =>
      if b ∈ bs ∨ bs.length < maxopblocks then
        let (l, _) ← logWrite b s.log
        set (s.set l p (.op (if b ∈ bs then bs else bs ++ [b])))
      else return
    | _ => return
  | .finish p => do
    let s ← get
    match s.doing p with
    | .op _ =>
      let (l, doCommit) ← endOp s.log
      set (s.set l p (if doCommit then .commit else .nothing))
    | _ => return
  | .erase p => do
    let s ← get
    match s.doing p with
    | .commit => set (s.set { s.log with lh := [] } p .erased)
    | _ => return
  | .return p => do
    let s ← get
    match s.doing p with
    | .erased => set (s.set (endCommit s.log) p .nothing)
    | _ => return

def logRun : List LogAct → LM Unit
  | [] => return
  | a :: as => do
    logStep a
    logRun as

/-- An operation calls `log_write` on one of its own blocks again, while all of
the log's blocks are in use. -/
def OnFull (a : LogAct) (s : LogSys) : Prop :=
  ∃ p b bs, a = .write p b ∧ s.doing p = .op bs ∧ b ∈ bs ∧ s.log.lh.length = logblocks

/-- No step of the run is such a call. -/
def NeverOnFull : List LogAct → LogSys → Prop
  | [], _ => True
  | a :: as, s => ¬ OnFull a s ∧ ∀ s', (logStep a).run s = .ok ((), s') → NeverOnFull as s'

end Xv6.Fs
