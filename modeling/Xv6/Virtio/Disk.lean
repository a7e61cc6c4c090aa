/-
Xv6.Virtio.Disk — the driver of the virtio disk and the device, from
`kernel/virtio_disk.c`.

The driver's functions run under `vdisk_lock`; a step of `virtio_disk_rw` or of
`virtio_disk_intr` is what they do up to a `sleep`, to the end of a `wakeup`, or
to a store that the device can see. The device takes requests from the avail
ring and adds them to the used ring, in any order and at any time. Contents of
buffers and blocks are left out: only the device moves them.

`busy`, `ids`, `owner`, `posted`, `fetched`, `completed` and `consumed` are not in
the driver: they record which buffers are locked by callers, number the requests,
and keep what was published, taken, completed and seen to be completed. So is
the last argument of `chain`, the descriptors that are still to be freed.
-/
import Xv6.Lib.Monitor
import Xv6.Lib.Ring

namespace Xv6.Virtio

open Xv6.Lib Function

/-! ## §1 The shared memory -/

def num : Nat := 8

theorem num_ne_zero : num ≠ 0 := by decide

instance : NeZero num := ⟨num_ne_zero⟩

/-- What a descriptor points to: `&disk.ops[i]`, `b->data` or
`&disk.info[i].status`. -/
inductive Addr (B : Type) where
  | null
  | op (i : Nat)
  | data (b : B)
  | status (i : Nat)

/-- `struct virtq_desc`. -/
structure Desc (B : Type) where
  addr : Addr B
  len : Nat
  flags : BitVec 16
  next : Nat

def Desc.zero {B : Type} : Desc B where
  addr := .null
  len := 0
  flags := 0
  next := 0

/-- `VRING_DESC_F_NEXT` and `VRING_DESC_F_WRITE`. -/
def flagNext : BitVec 16 := 1
def flagWrite : BitVec 16 := 2

/-- `flag & VRING_DESC_F_NEXT`. -/
def Desc.more {B : Type} (x : Desc B) : Bool := x.flags &&& flagNext ≠ 0

/-- `struct virtio_blk_req`. -/
structure Op where
  type : BitVec 32
  sector : BitVec 64

structure Info (B : Type) where
  b : Option B
  status : BitVec 8

inductive Panic where
  | freeDesc1
  | freeDesc2
  | intrStatus
  -- a wild index or a null pointer in `virtio_disk_intr`
  | fault
  deriving DecidableEq, Repr

/-- `struct disk`, `b->disk`, and the device. -/
structure Disk (B : Type) where
  desc : Nat → Desc B
  availRing : Fin num → Nat
  availIdx : BitVec 16
  usedRing : Fin num → Nat
  usedTop : BitVec 16
  free : Nat → Bool
  usedIdx : BitVec 16
  info : Nat → Info B
  ops : Nat → Op
  flag : B → Bool
  panic : Option Panic
  -- how far the device has read the avail ring, and what it works on
  seen : BitVec 16
  taken : List Nat
  busy : B → Bool
  ids : Nat
  owner : Nat → Option (Nat × B)
  posted : List Nat
  fetched : List Nat
  completed : List (Option (Nat × B))
  consumed : List (Option (Nat × B))

/-- After `virtio_disk_init`. -/
def Disk.init (B : Type) : Disk B where
  desc _ := .zero
  availRing _ := 0
  availIdx := 0
  usedRing _ := 0
  usedTop := 0
  free _ := true
  usedIdx := 0
  info _ := ⟨none, 0⟩
  ops _ := ⟨0, 0⟩
  flag _ := false
  panic := none
  seen := 0
  taken := []
  busy _ := false
  ids := 0
  owner _ := none
  posted := []
  fetched := []
  completed := []
  consumed := []

variable {B : Type} [DecidableEq B]

/-! ## §2 Descriptors -/

/-- `alloc_desc`: the first free descriptor. -/
def allocDesc (free : Nat → Bool) : Option Nat := (List.range num).find? fun i => free i

/-- The first `k` calls of `alloc_desc`, up to one that fails: the descriptors,
and what is free then. -/
def allocDescs : Nat → (Nat → Bool) → List Nat × (Nat → Bool)
  | 0, free => ([], free)
  | k + 1, free =>
    match allocDesc free with
    | none => ([], free)
    | some i =>
      let r := allocDescs k (update free i false)
      (i :: r.1, r.2)

/-- `free_desc`, up to its `wakeup`. -/
def freeDesc (i : Nat) (d : Disk B) : Disk B :=
  if num ≤ i then { d with panic := some .freeDesc1 }
  else if d.free i then { d with panic := some .freeDesc2 }
  else { d with desc := update d.desc i .zero, free := update d.free i true }

/-! ## §3 The driver -/

/-- A call `virtio_disk_rw(b, write)`. -/
structure Req (B : Type) where
  id : Nat
  b : B
  write : Bool
  blockno : BitVec 32

/-- `idx[3]`. -/
structure Idx where
  i0 : Nat
  i1 : Nat
  i2 : Nat

def Idx.list (x : Idx) : List Nat := [x.i0, x.i1, x.i2]

/-- What one can sleep on: `&disk.free[0]`, or a buffer. -/
inductive Chan (B : Type) where
  | free
  | buf (b : B)
  deriving DecidableEq, Repr

/-- Where a process or a handler is, with `vdisk_lock`. -/
inductive Place (B : Type) where
  -- `alloc3_desc`; its `free_desc` calls when it fails
  | alloc (q : Req B)
  | undo (q : Req B) (left : List Nat)
  -- the request is written, put in the ring, published
  | fill (q : Req B) (x : Idx)
  | post (q : Req B) (x : Idx)
  | bump (q : Req B) (x : Idx)
  | wait (q : Req B) (x : Idx)
  -- it is done; `free_chain` at descriptor `i`
  | finish (q : Req B) (x : Idx)
  | chain (q : Req B) (i : Nat) (rest : List Nat)
  | done (q : Req B)
  -- `virtio_disk_intr`: its loop, and the end of a turn
  | intr
  | scan
  | scanned

abbrev Step (B : Type) := Disk B × Next (Chan B) (Place B)

def allocBody (q : Req B) (d : Disk B) : Step B :=
  let r := allocDescs 3 d.free
  let d := { d with free := r.2 }
  match r.1 with
  | [i0, i1, i2] => (d, .goto (.fill q ⟨i0, i1, i2⟩))
  | left => (d, .goto (.undo q left))

def undoBody (q : Req B) (left : List Nat) (d : Disk B) : Step B :=
  match left with
  | [] => (d, .sleep .free (.alloc q))
  | i :: left =>
    let d' := freeDesc i d
    if d'.panic = none then (d', .wake .free (.undo q left)) else (d', .goto (.undo q (i :: left)))

/-- `b->blockno * (BSIZE / 512)`. -/
def Req.sector (q : Req B) : BitVec 64 := (q.blockno * 2).setWidth 64

/-- Format the three descriptors, and record the buffer. -/
def fillBody (q : Req B) (x : Idx) (d : Disk B) : Step B :=
  let d := { d with
    ops := update d.ops x.i0 ⟨if q.write then 1 else 0, q.sector⟩
    desc := update (update (update d.desc
      x.i0 { addr := .op x.i0, len := 16, flags := flagNext, next := x.i1 })
      x.i1 { addr := .data q.b, len := 1024,
             flags := (if q.write then 0 else flagWrite) ||| flagNext, next := x.i2 })
      x.i2 { addr := .status x.i0, len := 1, flags := flagWrite, next := 0 }
    info := update d.info x.i0 ⟨some q.b, 0xff⟩
    flag := update d.flag q.b true }
  (d, .goto (.post q x))

/-- `disk.avail->ring[disk.avail->idx % NUM] = idx[0]`. -/
def postBody (q : Req B) (x : Idx) (d : Disk B) : Step B :=
  ({ d with availRing := update d.availRing (cellOf num d.availIdx) x.i0 }, .goto (.bump q x))

/-- `disk.avail->idx += 1`. -/
def bumpBody (q : Req B) (x : Idx) (d : Disk B) : Step B :=
  ({ d with
    availIdx := d.availIdx + 1
    owner := update d.owner x.i0 (some (q.id, q.b))
    posted := d.posted ++ [x.i0] }, .goto (.wait q x))

def waitBody (q : Req B) (x : Idx) (d : Disk B) : Step B :=
  if d.flag q.b then (d, .sleep (.buf q.b) (.wait q x)) else (d, .goto (.finish q x))

/-- `disk.info[idx[0]].b = 0`. -/
def finishBody (q : Req B) (x : Idx) (d : Disk B) : Step B :=
  ({ d with info := update d.info x.i0 { d.info x.i0 with b := none } },
    .goto (.chain q x.i0 [x.i1, x.i2]))

def chainBody (q : Req B) (i : Nat) (rest : List Nat) (d : Disk B) : Step B :=
  let d' := freeDesc i d
  if d'.panic = none then
    (d', .wake .free (if (d.desc i).more then .chain q (d.desc i).next rest.tail else .done q))
  else (d', .goto (.chain q i rest))

/-- One turn of `virtio_disk_intr`'s loop, up to its `wakeup`. -/
def scanBody (d : Disk B) : Step B :=
  if d.usedIdx = d.usedTop then (d, .leave)
  else
    let id := d.usedRing (cellOf num d.usedIdx)
    if num ≤ id then ({ d with panic := some .fault }, .goto .scan)
    else if (d.info id).status ≠ 0 then ({ d with panic := some .intrStatus }, .goto .scan)
    else
      match (d.info id).b with
      | none => ({ d with panic := some .fault }, .goto .scan)
      | some b =>
        ({ d with
          flag := update d.flag b false
          consumed := d.consumed ++ [(d.owner id).map fun r => (r.1, b)] },
          .wake (.buf b) .scanned)

/-- The code at a place. -/
def code (d : Disk B) : Place B → Step B
  | .alloc q => allocBody q d
  | .undo q left => undoBody q left d
  | .fill q x => fillBody q x d
  | .post q x => postBody q x d
  | .bump q x => bumpBody q x d
  | .wait q x => waitBody q x d
  | .finish q x => finishBody q x d
  | .chain q i rest => chainBody q i rest d
  | .done q => ({ d with busy := update d.busy q.b false }, .leave)
  | .intr => (d, .goto .scan)
  | .scan => scanBody d
  | .scanned => ({ d with usedIdx := d.usedIdx + 1 }, .goto .scan)

/-- After a panic nothing goes on. -/
def body (k : Place B) (d : Disk B) : Step B :=
  if d.panic = none then code d k else (d, .goto k)

/-- The calls: the caller of `virtio_disk_rw` has locked its buffer. -/
def start : Place B → Disk B → Option (Disk B)
  | .alloc q, d =>
    if q.id = d.ids ∧ d.busy q.b = false then
      some { d with ids := d.ids + 1, busy := update d.busy q.b true }
    else none
  | .intr, d => some d
  | _, _ => none

/-! ## §4 The device -/

inductive Dev where
  -- take the next entry of the avail ring
  | fetch
  -- complete one of the requests taken, with status 0
  | complete (j : Nat)
  deriving DecidableEq, Repr

def fetch (d : Disk B) : Disk B :=
  if d.seen = d.availIdx then d
  else
    let h := d.availRing (cellOf num d.seen)
    { d with seen := d.seen + 1, taken := d.taken ++ [h], fetched := d.fetched ++ [h] }

/-- Write the status byte where the third descriptor of the chain points. -/
def writeStatus (h : Nat) (d : Disk B) : Disk B :=
  match (d.desc (d.desc (d.desc h).next).next).addr with
  | .status i => { d with info := update d.info i { d.info i with status := 0 } }
  | _ => d

def complete (j : Nat) (d : Disk B) : Disk B :=
  match d.taken[j]? with
  | none => d
  | some h =>
    { writeStatus h d with
      usedRing := update d.usedRing (cellOf num d.usedTop) h
      usedTop := d.usedTop + 1
      taken := d.taken.eraseIdx j
      completed := d.completed ++ [d.owner h] }

def device : Dev → Disk B → Disk B
  | .fetch, d => fetch d
  | .complete j, d => complete j d

/-- The driver with its callers, the interrupt handlers and the device. -/
def virtio : Monitor (Disk B) (Chan B) (Place B) Dev where
  start := start
  body k _ d := body k d
  env := device

abbrev State (n : Nat) (B : Type) := Monitor.State n (Disk B) (Chan B) (Place B)
abbrev Act (n : Nat) (B : Type) := Monitor.Act n (Place B) Dev

def boot (n : Nat) (B : Type) : State n B := Monitor.init (.init B)

end Xv6.Virtio
