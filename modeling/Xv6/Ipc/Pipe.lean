/-
Xv6.Ipc.Pipe — `pipewrite`, `piperead` and `pipeclose` under `pi->lock`, from
`kernel/pipe.c`.

One turn of a loop is one step, so that a kill can come between two bytes. The
user memory of a call is what `copyin` finds at `addr + i`, or where `copyout`
succeeds. Who may use which end, and that nobody does after `kfree`, is the
matter of the file layer: here any process can call anything at any time.

`writes`, `sent`, `tried` and `stored` are not in the kernel: they record the
calls of `pipewrite`, the bytes stored and the bytes offered to readers, in the
order of the lock, and whether a writer has stored a byte since it took the
lock.
-/
import Xv6.Lib.Monitor
import Xv6.Lib.Ring

namespace Xv6.Ipc

open Xv6.Lib Function

abbrev Byte := BitVec 8

def pipesize : Nat := 512

theorem pipesize_ne_zero : pipesize ≠ 0 := by decide

instance : NeZero pipesize := ⟨pipesize_ne_zero⟩

/-- The arguments of `pipewrite`; `copyin` fails where there is no byte. -/
structure Write where
  src : Nat → Option Byte
  n : Int

/-- The arguments of `piperead`; `copyout` succeeds at the good places. -/
structure Read where
  good : Nat → Bool
  n : Int

/-- `struct pipe` without its lock. -/
structure Pipe where
  data : Fin pipesize → Byte
  nread : BitVec 32
  nwrite : BitVec 32
  readopen : Bool
  writeopen : Bool
  freed : Bool
  writes : List Write
  sent : List (Nat × Byte)
  tried : List (Byte × Bool)

/-- What `pipealloc` makes of a page. -/
def pipealloc (page : Fin pipesize → Byte) : Pipe where
  data := page
  nread := 0
  nwrite := 0
  readopen := true
  writeopen := true
  freed := false
  writes := []
  sent := []
  tried := []

/-- `pi->data[pi->nwrite++ % PIPESIZE] = ch`, in call `id`. -/
def Pipe.put (d : Pipe) (id : Nat) (ch : Byte) : Pipe :=
  { d with
    data := update d.data (cellOf pipesize d.nwrite) ch, nwrite := d.nwrite + 1,
    sent := d.sent ++ [(id, ch)] }

/-- The byte that the next `copyout` is about. -/
def Pipe.head (d : Pipe) : Byte := d.data (cellOf pipesize d.nread)

/-- `copyout` of the next byte succeeds. -/
def Pipe.take (d : Pipe) : Pipe :=
  { d with nread := d.nread + 1, tried := d.tried ++ [(d.head, true)] }

/-- It fails. -/
def Pipe.miss (d : Pipe) : Pipe := { d with tried := d.tried ++ [(d.head, false)] }

/-- `&pi->nread` and `&pi->nwrite`. -/
inductive Chan where
  | nread
  | nwrite
  deriving DecidableEq, Repr

/-- Where a process is, with `pi->lock`. -/
inductive Place where
  -- the loop of `pipewrite`; after the `wakeup` on a full pipe; at its end, with its result
  | write (id : Nat) (w : Write) (i : Nat) (stored : Bool)
  | full (id : Nat) (w : Write) (i : Nat)
  | written (result : Int)
  -- the two loops of `piperead`; its end
  | read (r : Read)
  | copy (r : Read) (i : Nat)
  | copied (r : Read) (result : Int)
  -- `pipeclose`
  | close (writable : Bool)
  | closed

def writeBody (id : Nat) (w : Write) (i : Nat) (killed : Bool) (d : Pipe) :
    Pipe × Next Chan Place :=
  if (i : Int) < w.n then
    if d.readopen = false ∨ killed then (d, .leave)
    else if d.nwrite = d.nread + BitVec.ofNat 32 pipesize then (d, .wake .nread (.full id w i))
    else
      match w.src i with
      | none => (d, .wake .nread (.written i))
      | some ch => (d.put id ch, .goto (.write id w (i + 1) true))
  else (d, .wake .nread (.written i))

def readBody (r : Read) (killed : Bool) (d : Pipe) : Pipe × Next Chan Place :=
  if d.nread = d.nwrite ∧ d.writeopen then
    if killed then (d, .leave) else (d, .sleep .nread (.read r))
  else (d, .goto (.copy r 0))

def copyBody (r : Read) (i : Nat) (d : Pipe) : Pipe × Next Chan Place :=
  if (i : Int) < r.n then
    if d.nread = d.nwrite then (d, .wake .nwrite (.copied r i))
    else if r.good i then (d.take, .goto (.copy r (i + 1)))
    else (d.miss, .wake .nwrite (.copied r (if i = 0 then -1 else i)))
  else (d, .wake .nwrite (.copied r i))

def closeBody (writable : Bool) (d : Pipe) : Pipe × Next Chan Place :=
  if writable then ({ d with writeopen := false }, .wake .nread .closed)
  else ({ d with readopen := false }, .wake .nwrite .closed)

/-- `kfree(pi)` when both ends are closed. -/
def Pipe.unuse (d : Pipe) : Pipe :=
  if d.readopen = false ∧ d.writeopen = false then { d with freed := true } else d

def body : Place → Bool → Pipe → Pipe × Next Chan Place
  | .write id w i _, killed, d => writeBody id w i killed d
  | .full id w i, _, d => (d, .sleep .nwrite (.write id w i false))
  | .written _, _, d => (d, .leave)
  | .read r, killed, d => readBody r killed d
  | .copy r i, _, d => copyBody r i d
  | .copied .., _, d => (d, .leave)
  | .close writable, _, d => closeBody writable d
  | .closed, _, d => (d.unuse, .leave)

/-- The calls: each `pipewrite` has a number of its own. -/
def start : Place → Pipe → Option Pipe
  | .write id w 0 false, d =>
    if id = d.writes.length then some { d with writes := d.writes ++ [w] } else none
  | .read _, d | .close _, d => some d
  | _, _ => none

/-- A pipe and the processes that use it. -/
def pipe : Monitor Pipe Chan Place Empty where
  start := start
  body := body
  env e _ := nomatch e

abbrev State (n : Nat) := Monitor.State n Pipe Chan Place
abbrev Act (n : Nat) := Monitor.Act n Place Empty

def boot (n : Nat) (page : Fin pipesize → Byte) : State n := Monitor.init (pipealloc page)

end Xv6.Ipc
