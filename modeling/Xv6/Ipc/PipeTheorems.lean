/-
Xv6.Ipc.PipeTheorems — a pipe is a queue, and nobody sleeps on it in vain.

§1 the ring: the bytes that are stored and not delivered are in it, in order,
although the counters wrap; §2 the places of the processes; §3 runs; §4 the
sleepers, and the one way to forget them.
-/
import Xv6.Ipc.Pipe

namespace Xv6.Ipc

open Xv6.Lib Function

/-! ## §1 The ring -/

/-- The bytes stored so far. -/
def Pipe.stream (d : Pipe) : List Byte := d.sent.map Prod.snd

/-- The bytes copied out. -/
def outOf (tried : List (Byte × Bool)) : List Byte := (tried.filter Prod.snd).map Prod.fst

def Pipe.got (d : Pipe) : List Byte := outOf d.tried

/-- The ring has what is stored and not delivered. -/
structure Pipe.Queue (d : Pipe) : Prop where
  ring : Ring d.data d.nread d.nwrite (d.stream.drop d.got.length)
  order : d.got = d.stream.take d.got.length
  /-- Whatever was offered to a reader was the next byte. -/
  offered : ∀ k x, d.tried[k]? = some x → d.stream[(outOf (d.tried.take k)).length]? = some x.1

variable {d : Pipe} {id : Nat} {ch : Byte}

theorem pipesize_dvd : pipesize ∣ 2 ^ 32 := by decide

theorem pipesize_lt : pipesize < 2 ^ 32 := by decide

theorem Pipe.Queue.le (h : d.Queue) : d.got.length ≤ d.stream.length := by
  have hlen := congrArg List.length h.order
  rw [List.length_take] at hlen
  omega

theorem Pipe.Queue.empty_iff (h : d.Queue) :
    d.nread = d.nwrite ↔ d.stream.length = d.got.length := by
  rw [h.ring.empty_iff pipesize_lt, List.drop_eq_nil_iff]
  have := h.le
  omega

/-- The counters are never far from each other. -/
theorem Pipe.Queue.size_le (h : d.Queue) : (d.nwrite - d.nread).toNat ≤ pipesize := by
  rw [h.ring.length pipesize_lt]
  exact h.ring.room

/-- The byte at the reading end is the next of the stream. -/
theorem Pipe.Queue.head (h : d.Queue) (hne : d.nread ≠ d.nwrite) :
    d.stream.drop d.got.length = d.head :: d.stream.drop (d.got.length + 1) ∧
      d.stream[d.got.length]? = some d.head := by
  have hlt : d.got.length < d.stream.length := by
    have hle := h.le
    have hlen := mt h.empty_iff.mpr hne
    omega
  have hdrop := List.drop_eq_getElem_cons hlt
  have hring := h.ring
  rw [hdrop] at hring
  have hhead : d.head = d.stream[d.got.length] := hring.head
  rw [hhead]
  exact ⟨hdrop, List.getElem?_eq_getElem hlt⟩

theorem stream_put : (d.put id ch).stream = d.stream ++ [ch] := by
  simp [Pipe.put, Pipe.stream]

theorem Pipe.Queue.put (h : d.Queue) (hne : d.nwrite ≠ d.nread + BitVec.ofNat 32 pipesize) :
    (d.put id ch).Queue := by
  have hroom : (d.stream.drop d.got.length).length < pipesize :=
    Nat.lt_of_le_of_ne h.ring.room fun heq => hne ((h.ring.full_iff pipesize_lt).mpr heq)
  refine ⟨?_, ?_, fun k x hx => ?_⟩
  · have hpush := h.ring.push (a := ch) pipesize_dvd hroom
    rw [← List.drop_append_of_le_length h.le] at hpush
    rw [stream_put]
    exact hpush
  · rw [stream_put]
    show d.got = (d.stream ++ [ch]).take d.got.length
    rw [List.take_append_of_le_length h.le]
    exact h.order
  · have hold := h.offered k x hx
    have hlt := (List.getElem?_eq_some_iff.mp hold).1
    rw [stream_put]
    show (d.stream ++ [ch])[(outOf (d.tried.take k)).length]? = some x.1
    rw [List.getElem?_append_left hlt]
    exact hold

theorem outOf_snoc (tried : List (Byte × Bool)) (b : Byte) (ok : Bool) :
    outOf (tried ++ [(b, ok)]) = if ok then outOf tried ++ [b] else outOf tried := by
  cases ok <;> simp [outOf]

section

variable (h : d.Queue) (hne : d.nread ≠ d.nwrite)
include h hne

/-- One more offer, of the byte at the reading end. -/
theorem Pipe.Queue.offer (ok : Bool) (k : Nat)
    (x : Byte × Bool) (hx : (d.tried ++ [(d.head, ok)])[k]? = some x) :
    d.stream[(outOf ((d.tried ++ [(d.head, ok)]).take k)).length]? = some x.1 := by
  by_cases hlast : k = d.tried.length
  · subst hlast
    rw [List.getElem?_concat_length] at hx
    cases hx
    rw [List.take_left]
    exact (h.head hne).2
  · have hk : k < d.tried.length := by
      have hk' := (List.getElem?_eq_some_iff.mp hx).1
      rw [List.length_append] at hk'
      have : k < d.tried.length + 1 := hk'
      omega
    rw [List.getElem?_append_left hk] at hx
    rw [List.take_append_of_le_length (Nat.le_of_lt hk)]
    exact h.offered k x hx

theorem Pipe.Queue.take : d.take.Queue := by
  obtain ⟨hdrop, hget⟩ := h.head hne
  have hgot : d.take.got = d.got ++ [d.head] := outOf_snoc d.tried d.head true
  have hlen : d.take.got.length = d.got.length + 1 := by simp [hgot]
  refine ⟨?_, ?_, h.offer hne true⟩
  · have hring := h.ring
    rw [hdrop] at hring
    rw [hlen]
    exact hring.pop
  · rw [hlen, hgot]
    show _ = d.stream.take (d.got.length + 1)
    rw [List.take_add_one, ← h.order, hget]
    rfl

theorem Pipe.Queue.miss : d.miss.Queue := by
  have hgot : d.miss.got = d.got := outOf_snoc d.tried d.head false
  refine ⟨?_, ?_, h.offer hne false⟩
  · rw [hgot]
    exact h.ring
  · rw [hgot]
    exact h.order

end

theorem pipealloc_queue (page : Fin pipesize → Byte) : (pipealloc page).Queue := by
  refine ⟨ring_nil page 0, rfl, fun k x hx => ?_⟩
  simp [pipealloc] at hx

/-! ## §2 The places -/

/-- The bytes that call `id` of `pipewrite` has stored. -/
def Pipe.bytesOf (d : Pipe) (id : Nat) : List Byte :=
  (d.sent.filter fun x => x.1 = id).map Prod.snd

/-- They are the first `i` bytes of its buffer. -/
def Pipe.Wrote (d : Pipe) (id : Nat) (w : Write) (i : Nat) : Prop :=
  (d.bytesOf id).map some = (List.range i).map w.src

/-- The call of `pipewrite` that a process is in, and its progress. -/
def Place.writing : Place → Option (Nat × Write × Nat)
  | .write id w i _ | .full id w i => some (id, w, i)
  | _ => none

/-- Places where a process always has the lock. -/
def Place.inner : Place → Bool
  | .write _ _ _ stored => stored
  | .read _ | .close _ => false
  | _ => true

/-- What a process has found out with the lock. -/
def Place.Knows (d : Pipe) : Place → Prop
  | .write _ _ _ stored => stored = true → d.readopen = true ∧ d.nread ≠ d.nwrite
  | .full .. => d.nwrite = d.nread + BitVec.ofNat 32 pipesize ∧ d.readopen = true
  | .copy _ i => i = 0 → d.nread = d.nwrite → d.writeopen = false
  | .copied r result => result = 0 → 0 < r.n → d.nread = d.nwrite ∧ d.writeopen = false
  | _ => True

variable {n : Nat}

structure Inv (v : Monitor.View n Pipe Place) : Prop where
  queue : v.data.Queue
  calls : ∀ id w, v.data.writes[id]? = some w → ∃ i, v.data.Wrote id w i
  fresh : ∀ id, v.data.writes.length ≤ id → v.data.bytesOf id = []
  mine : ∀ p k id w i, v.cont p = some k → k.writing = some (id, w, i) →
    v.data.writes[id]? = some w ∧ v.data.Wrote id w i
  own : ∀ p q k k' id w w' i i', v.cont p = some k → v.cont q = some k' →
    k.writing = some (id, w, i) → k'.writing = some (id, w', i') → p = q
  inner : ∀ p k, v.cont p = some k → k.inner = true → v.lock = some p ∧ k.Knows v.data

variable {v : Monitor.View n Pipe Place} {p q : Fin n} {k : Place} {w : Write} {r : Read} {i : Nat}
  {next : Next Chan Place} {s : State n}

theorem Inv.knows (h : Inv v) (hk : v.cont p = some k) : k.Knows v.data := by
  cases hin : k.inner with
  | true => exact (h.inner p k hk hin).2
  | false =>
    cases k with
    | write id w i stored =>
      have hs : stored = false := hin
      subst hs
      exact nofun
    | read r => exact trivial
    | close b => exact trivial
    | _ => cases hin

/-- A step of the process with the lock: it may store bytes of its own call. -/
theorem Inv.body (h : Inv v) (hl : v.lock = some p) (hk : v.cont p = some k) (hqueue : d.Queue)
    (hwrites : d.writes = v.data.writes)
    (hothers : ∀ id, (∀ w i, k.writing ≠ some (id, w, i)) → d.bytesOf id = v.data.bytesOf id)
    (hown : ∀ id w i, k.writing = some (id, w, i) → ∃ i, d.Wrote id w i)
    (hnext : ∀ k', next.cont = some k' →
      (∀ id w i, k'.writing = some (id, w, i) →
        (∃ i, k.writing = some (id, w, i)) ∧ d.Wrote id w i) ∧
      (k'.inner = true → next.keeps = true ∧ k'.Knows d)) :
    Inv (v.after p (d, next)) := by
  -- the call of another process is not that of `p`
  have hdiff : ∀ q k' id w i, q ≠ p → v.cont q = some k' → k'.writing = some (id, w, i) →
      ∀ w i, k.writing ≠ some (id, w, i) := fun q k' id w i hqp hq hw w' i' hw' =>
    hqp (h.own q p k' k id w w' i i' hq hk hw hw')
  refine ⟨hqueue, fun id w hid => ?_, fun id hid => ?_, fun q k' id w i hq hw => ?_,
    fun q q' k' k'' id w w' i i' hq hq' hw hw' => ?_, fun q k' hq hin => ?_⟩
  · by_cases hmine : ∃ w i, k.writing = some (id, w, i)
    · obtain ⟨w', i, hw⟩ := hmine
      have hid' := (h.mine p k id w' i hk hw).1
      have hid'' : v.data.writes[id]? = some w := hwrites ▸ hid
      rw [hid''] at hid'
      cases hid'
      exact hown id w i hw
    · obtain ⟨i, hi⟩ := h.calls id w (hwrites ▸ hid)
      refine ⟨i, ?_⟩
      show (d.bytesOf id).map some = _
      rw [hothers id fun w i hw => hmine ⟨w, i, hw⟩]
      exact hi
  · have hid' : v.data.writes.length ≤ id := hwrites ▸ hid
    rw [← h.fresh id hid']
    refine hothers id fun w i hw => ?_
    have hlt := (List.getElem?_eq_some_iff.mp (h.mine p k id w i hk hw).1).1
    omega
  · rcases cont_update hq with ⟨rfl, hn⟩ | ⟨hqp, hq⟩
    · obtain ⟨⟨i0, hw0⟩, hwrote⟩ := (hnext k' hn).1 id w i hw
      exact ⟨hwrites ▸ (h.mine q k id w i0 hk hw0).1, hwrote⟩
    · obtain ⟨hid, hwrote⟩ := h.mine q k' id w i hq hw
      refine ⟨hwrites ▸ hid, ?_⟩
      show (d.bytesOf id).map some = _
      rw [hothers id (hdiff q k' id w i hqp hq hw)]
      exact hwrote
  · rcases cont_update hq with ⟨rfl, hn⟩ | ⟨hqp, hold⟩
    · rcases cont_update hq' with ⟨rfl, _⟩ | ⟨hqp', hold'⟩
      · rfl
      · obtain ⟨⟨i0, hw0⟩, _⟩ := (hnext k' hn).1 id w i hw
        exact absurd hw0 (hdiff q' k'' id w' i' hqp' hold' hw' w i0)
    · rcases cont_update hq' with ⟨rfl, hn⟩ | ⟨_, hold'⟩
      · obtain ⟨⟨i0, hw0⟩, _⟩ := (hnext k'' hn).1 id w' i' hw'
        exact absurd hw0 (hdiff q k' id w i hqp hold hw w' i0)
      · exact h.own q q' k' k'' id w w' i i' hold hold' hw hw'
  · rcases cont_update hq with ⟨rfl, hn⟩ | ⟨hqp, hq⟩
    · obtain ⟨hkeeps, hknows⟩ := (hnext k' hn).2 hin
      exact ⟨if_pos hkeeps, hknows⟩
    · have hlq := (h.inner q k' hq hin).1
      rw [hl] at hlq
      exact absurd (Option.some.inj hlq).symm hqp

/-- A step that stores nothing. -/
theorem Inv.quiet (h : Inv v) (hl : v.lock = some p) (hk : v.cont p = some k) (hqueue : d.Queue)
    (hwrites : d.writes = v.data.writes) (hsent : d.sent = v.data.sent)
    (hnext : ∀ k', next.cont = some k' →
      (k'.writing = none ∨ k'.writing = k.writing) ∧
      (k'.inner = true → next.keeps = true ∧ k'.Knows d)) :
    Inv (v.after p (d, next)) := by
  have hbytes : ∀ id, d.bytesOf id = v.data.bytesOf id := fun id => by
    unfold Pipe.bytesOf
    rw [hsent]
  have hwrote : ∀ id w i, v.data.Wrote id w i → d.Wrote id w i := fun id w i hi => by
    unfold Pipe.Wrote
    rw [hbytes]
    exact hi
  refine h.body hl hk hqueue hwrites (fun id _ => hbytes id) (fun id w i hw => ?_)
    fun k' hn => ⟨fun id w i hw => ?_, (hnext k' hn).2⟩
  · exact ⟨i, hwrote id w i (h.mine p k id w i hk hw).2⟩
  · rcases (hnext k' hn).1 with hnone | hsame
    · rw [hnone] at hw
      cases hw
    · rw [hsame] at hw
      exact ⟨⟨i, hw⟩, hwrote id w i (h.mine p k id w i hk hw).2⟩

theorem bytesOf_put (id' : Nat) :
    (d.put id ch).bytesOf id' = if id = id' then d.bytesOf id' ++ [ch] else d.bytesOf id' := by
  unfold Pipe.bytesOf Pipe.put
  by_cases heq : id = id' <;> simp [heq]

theorem Pipe.Wrote.put (h : d.Wrote id w i) (hch : w.src i = some ch) :
    (d.put id ch).Wrote id w (i + 1) := by
  unfold Pipe.Wrote
  rw [bytesOf_put, if_pos rfl, List.map_append, List.range_succ, List.map_append, h]
  simp [hch]

theorem write_inv {stored : Bool} (h : Inv v) (hl : v.lock = some p)
    (hk : v.cont p = some (.write id w i stored)) (killed : Bool) :
    Inv (v.after p (writeBody id w i killed v.data)) := by
  unfold writeBody
  split
  case isFalse =>
    refine h.quiet hl hk h.queue rfl rfl fun k' hn => ?_
    cases hn
    exact ⟨.inl rfl, fun _ => ⟨rfl, trivial⟩⟩
  case isTrue =>
  split
  case isTrue => exact h.quiet hl hk h.queue rfl rfl nofun
  case isFalse hopen =>
  have hreadopen : v.data.readopen = true := by
    rw [not_or] at hopen
    simpa using hopen.1
  split
  case isTrue hfull =>
    refine h.quiet hl hk h.queue rfl rfl fun k' hn => ?_
    cases hn
    exact ⟨.inr rfl, fun _ => ⟨rfl, hfull, hreadopen⟩⟩
  case isFalse hroom =>
  split
  case h_1 =>
    refine h.quiet hl hk h.queue rfl rfl fun k' hn => ?_
    cases hn
    exact ⟨.inl rfl, fun _ => ⟨rfl, trivial⟩⟩
  case h_2 ch hch =>
    have hput := (h.mine p _ id w i hk rfl).2.put hch
    have hqueue : (v.data.put id ch).Queue := h.queue.put hroom
    refine h.body hl hk hqueue rfl (fun id' hne => ?_) (fun id' w' i' hw => ?_) fun k' hn => ?_
    · rw [bytesOf_put, if_neg]
      rintro rfl
      exact hne w i rfl
    · cases hw
      exact ⟨_, hput⟩
    · cases hn
      refine ⟨fun id' w' i' hw => ?_, fun _ => ⟨rfl, fun _ => ⟨hreadopen, fun he => ?_⟩⟩⟩
      · cases hw
        exact ⟨⟨i, rfl⟩, hput⟩
      · -- the pipe has at least the byte just stored
        have hlen := hqueue.empty_iff.mp he
        have hgot : (v.data.put id ch).got.length = v.data.got.length := rfl
        rw [hgot, stream_put, List.length_append] at hlen
        have hle := h.queue.le
        have hone : [ch].length = 1 := rfl
        omega

theorem read_inv (h : Inv v) (hl : v.lock = some p) (hk : v.cont p = some (.read r))
    (killed : Bool) :
    Inv (v.after p (readBody r killed v.data)) := by
  unfold readBody
  split
  case isTrue =>
    split
    case isTrue => exact h.quiet hl hk h.queue rfl rfl nofun
    case isFalse =>
      refine h.quiet hl hk h.queue rfl rfl fun k' hn => ?_
      cases hn
      exact ⟨.inl rfl, nofun⟩
  case isFalse hgo =>
    refine h.quiet hl hk h.queue rfl rfl fun k' hn => ?_
    cases hn
    refine ⟨.inl rfl, fun _ => ⟨rfl, fun _ he => ?_⟩⟩
    rw [not_and] at hgo
    simpa using hgo he

theorem copy_inv (h : Inv v) (hl : v.lock = some p) (hk : v.cont p = some (.copy r i)) :
    Inv (v.after p (copyBody r i v.data)) := by
  have hknows : i = 0 → v.data.nread = v.data.nwrite → v.data.writeopen = false := h.knows hk
  unfold copyBody
  split
  case isFalse hn =>
    refine h.quiet hl hk h.queue rfl rfl fun k' hk' => ?_
    cases hk'
    exact ⟨.inl rfl, fun _ => ⟨rfl, fun h0 hpos => absurd hpos (by omega)⟩⟩
  case isTrue =>
  split
  case isTrue he =>
    refine h.quiet hl hk h.queue rfl rfl fun k' hk' => ?_
    cases hk'
    refine ⟨.inl rfl, fun _ => ⟨rfl, fun h0 _ => ⟨he, hknows (by omega) he⟩⟩⟩
  case isFalse hne =>
  split
  case isTrue =>
    refine h.quiet hl hk (h.queue.take hne) rfl rfl fun k' hk' => ?_
    cases hk'
    exact ⟨.inl rfl, fun _ => ⟨rfl, fun h0 => absurd h0 (Nat.succ_ne_zero i)⟩⟩
  case isFalse =>
    refine h.quiet hl hk (h.queue.miss hne) rfl rfl fun k' hk' => ?_
    cases hk'
    refine ⟨.inl rfl, fun _ => ⟨rfl, fun h0 => ?_⟩⟩
    split at h0 <;> omega

theorem queue_congr {d' : Pipe} (h : d.Queue) (hdata : d'.data = d.data)
    (hnread : d'.nread = d.nread) (hnwrite : d'.nwrite = d.nwrite) (hsent : d'.sent = d.sent)
    (htried : d'.tried = d.tried) : d'.Queue := by
  have hstream : d'.stream = d.stream := congrArg (List.map Prod.snd) hsent
  have hgot : d'.got = d.got := congrArg outOf htried
  refine ⟨?_, ?_, ?_⟩
  · rw [hgot, hstream, hdata, hnread, hnwrite]
    exact h.ring
  · rw [hgot, hstream]
    exact h.order
  · rw [htried, hstream]
    exact h.offered

theorem close_inv {writable : Bool} (h : Inv v) (hl : v.lock = some p)
    (hk : v.cont p = some (.close writable)) :
    Inv (v.after p (closeBody writable v.data)) := by
  unfold closeBody
  split
  all_goals
    refine h.quiet hl hk (queue_congr h.queue rfl rfl rfl rfl rfl) rfl rfl fun k' hn => ?_
    cases hn
    exact ⟨.inl rfl, fun _ => ⟨rfl, trivial⟩⟩

theorem body_inv (h : Inv v) (hl : v.lock = some p) (hk : v.cont p = some k) (killed : Bool) :
    Inv (v.after p (body k killed v.data)) := by
  cases k with
  | write id w i stored => exact write_inv h hl hk killed
  | full id w i =>
    refine h.quiet hl hk h.queue rfl rfl fun k' hn => ?_
    cases hn
    exact ⟨.inr rfl, nofun⟩
  | written result => exact h.quiet hl hk h.queue rfl rfl nofun
  | read r => exact read_inv h hl hk killed
  | copy r i => exact copy_inv h hl hk
  | copied r result => exact h.quiet hl hk h.queue rfl rfl nofun
  | close writable => exact close_inv h hl hk
  | closed =>
    have hsame : v.data.unuse.Queue ∧ v.data.unuse.writes = v.data.writes ∧
        v.data.unuse.sent = v.data.sent := by
      unfold Pipe.unuse
      split
      · exact ⟨queue_congr h.queue rfl rfl rfl rfl rfl, rfl, rfl⟩
      · exact ⟨h.queue, rfl, rfl⟩
    exact h.quiet hl hk hsame.1 hsame.2.1 hsame.2.2 nofun

theorem start_inv (h : Inv v) (hd : start k v.data = some d) :
    Inv { v with data := d, cont := update v.cont p (some k) } := by
  -- a call of `piperead` or `pipeclose` changes nothing
  have hplain : k.writing = none → k.inner = false → d = v.data →
      Inv { v with data := d, cont := update v.cont p (some k) } := by
    rintro hw hin rfl
    refine ⟨h.queue, h.calls, h.fresh, fun q k' id w i hq hw' => ?_,
      fun q q' k' k'' id w w' i i' hq hq' hw' hw'' => ?_, fun q k' hq hin' => ?_⟩
    · rcases cont_update hq with ⟨_, ⟨⟩⟩ | ⟨_, hq⟩
      · rw [hw] at hw'
        cases hw'
      · exact h.mine q k' id w i hq hw'
    · rcases cont_update hq with ⟨_, ⟨⟩⟩ | ⟨_, hold⟩
      · rw [hw] at hw'
        cases hw'
      · rcases cont_update hq' with ⟨_, ⟨⟩⟩ | ⟨_, hold'⟩
        · rw [hw] at hw''
          cases hw''
        · exact h.own q q' k' k'' id w w' i i' hold hold' hw' hw''
    · rcases cont_update hq with ⟨_, ⟨⟩⟩ | ⟨_, hq⟩
      · rw [hin] at hin'
        cases hin'
      · exact h.inner q k' hq hin'
  unfold start at hd
  split at hd
  case h_1 id w =>
    split at hd
    case isFalse => cases hd
    case isTrue hid =>
    subst hid
    cases hd
    have hempty : v.data.bytesOf v.data.writes.length = [] := h.fresh _ (Nat.le_refl _)
    have hget : ∀ {id' : Nat} {w' : Write}, v.data.writes[id']? = some w' →
        (v.data.writes ++ [w])[id']? = some w' := fun {id' w'} hid => by
      rw [List.getElem?_append_left (List.getElem?_eq_some_iff.mp hid).1]
      exact hid
    have hlt : ∀ {q k' id' w' i'}, v.cont q = some k' → k'.writing = some (id', w', i') →
        id' ≠ v.data.writes.length := fun {q k' id' w' i'} hq hw =>
      Nat.ne_of_lt (List.getElem?_eq_some_iff.mp (h.mine q k' id' w' i' hq hw).1).1
    refine ⟨queue_congr h.queue rfl rfl rfl rfl rfl, fun id' w' hid => ?_, fun id' hid => ?_,
      fun q k' id' w' i' hq hw => ?_, fun q q' k' k'' id' w' w'' i' i'' hq hq' hw hw' => ?_,
      fun q k' hq hin => ?_⟩
    · by_cases hlast : id' = v.data.writes.length
      · subst hlast
        exact ⟨0, congrArg (List.map some) hempty⟩
      · have hlen := (List.getElem?_eq_some_iff.mp hid).1
        have hlen' : id' < v.data.writes.length + 1 := by simpa using hlen
        rw [List.getElem?_append_left (by omega)] at hid
        exact h.calls id' w' hid
    · have hlen : v.data.writes.length + 1 ≤ id' := by simpa using hid
      exact h.fresh id' (by omega)
    · rcases cont_update hq with ⟨_, ⟨⟩⟩ | ⟨_, hold⟩
      · cases hw
        exact ⟨List.getElem?_concat_length, congrArg (List.map some) hempty⟩
      · obtain ⟨hid, hwrote⟩ := h.mine q k' id' w' i' hold hw
        exact ⟨hget hid, hwrote⟩
    · rcases cont_update hq with ⟨hqp, ⟨⟩⟩ | ⟨_, hold⟩
      · cases hw
        rcases cont_update hq' with ⟨hqp', _⟩ | ⟨_, hold'⟩
        · rw [hqp, hqp']
        · exact absurd rfl (hlt hold' hw')
      · rcases cont_update hq' with ⟨_, ⟨⟩⟩ | ⟨_, hold'⟩
        · cases hw'
          exact absurd rfl (hlt hold hw)
        · exact h.own q q' k' k'' id' w' w'' i' i'' hold hold' hw hw'
    · rcases cont_update hq with ⟨_, ⟨⟩⟩ | ⟨_, hold⟩
      · cases hin
      · refine (h.inner q k' hold hin).imp_right fun hknows => ?_
        cases k' <;> exact hknows
  case h_2 => exact hplain rfl rfl (Option.some.inj hd).symm
  case h_3 => exact hplain rfl rfl (Option.some.inj hd).symm
  case h_4 => cases hd

/-! ## §3 Runs -/

theorem turn_inv {v' : Monitor.View n Pipe Place} (h : Inv v) (ht : pipe.Turn v v') : Inv v' := by
  cases ht with
  | start out can => exact start_inv h can
  | acquire free here =>
    refine ⟨h.queue, h.calls, h.fresh, h.mine, h.own, fun q k' hq hin => ?_⟩
    have hlq := (h.inner q k' hq hin).1
    rw [free] at hlq
    cases hlq
  | body killed holds here => exact body_inv h holds here killed
  | env e => cases e

theorem boot_inv (page : Fin pipesize → Byte) : Inv (boot n page).view := by
  have hout : ∀ {p k}, (boot n page).view.cont p ≠ some k := fun {_ _} h => by cases h
  refine ⟨pipealloc_queue page, fun id w h => ?_, fun _ _ => rfl, fun p k id w i h => ?_,
    fun p q k k' id w w' i i' h => ?_, fun p k h => ?_⟩
  · cases h
  · exact absurd h hout
  · exact absurd h hout
  · exact absurd h hout

theorem runs_inv (page : Fin pipesize → Byte) (acts : List (Act n)) :
    Inv (runs pipe.act acts (boot n page)).view :=
  Monitor.runs_view turn_inv acts (Monitor.locked_init _) (boot_inv page)

/-- A byte that could not be copied out is the next to be offered. -/
theorem Pipe.Queue.again (h : d.Queue) {k : Nat} {b : Byte} {x : Byte × Bool}
    (hb : d.tried[k]? = some (b, false)) (hx : d.tried[k + 1]? = some x) : x.1 = b := by
  have htake : d.tried.take (k + 1) = d.tried.take k ++ [(b, false)] := by
    rw [List.take_add_one, hb]
    rfl
  have hnext := h.offered (k + 1) x hx
  rw [htake, outOf_snoc, if_neg nofun, h.offered k (b, false) hb] at hnext
  exact (Option.some.inj hnext).symm

/-- A queue of bytes: what readers got is a prefix of what writers stored. -/
structure Fifo (s : State n) : Prop where
  size : (s.data.nwrite - s.data.nread).toNat ≤ pipesize
  got : s.data.got <+: s.data.stream
  /-- The bytes of one call of `pipewrite` appear in order. -/
  calls : ∀ id w, s.data.writes[id]? = some w →
    ∃ i, (s.data.bytesOf id).map some = (List.range i).map w.src
  again : ∀ k b x, s.data.tried[k]? = some (b, false) → s.data.tried[k + 1]? = some x → x.1 = b
  /-- `piperead` returns 0 at the end of the file only. -/
  eof : ∀ p r, s.place p = .inside (.copied r 0) → 0 < r.n →
    s.data.nread = s.data.nwrite ∧ s.data.writeopen = false

theorem Inv.fifo (h : Inv s.view) : Fifo s := by
  have hqueue : s.data.Queue := h.queue
  refine ⟨hqueue.size_le, ?_, h.calls, fun k b x hb hx => hqueue.again hb hx, fun p r hp hn => ?_⟩
  · rw [hqueue.order]
    exact List.take_prefix _ _
  · exact h.knows (Monitor.view_cont hp) rfl hn

theorem pipe_is_fifo (page : Fin pipesize → Byte) (acts : List (Act n)) :
    Fifo (runs pipe.act acts (boot n page)) := (runs_inv page acts).fifo

/-! ## §4 Sleepers -/

/-- Why a process may sleep. -/
def waits : Chan → Pipe → Prop
  | .nread, d => d.nread = d.nwrite ∧ d.writeopen = true
  | .nwrite, d => d.nwrite = d.nread + BitVec.ofNat 32 pipesize ∧ d.readopen = true

/-- The wakeups that a process with the lock has still to make. -/
def owes : Place → Pipe → Chan → Prop
  | .write _ _ _ stored, _, .nread => stored = true
  | .copy .., _, .nwrite => True
  | _, _, _ => False

/-- `pipewrite` finds out that its process was killed, after it has stored a
byte, and returns although a reader sleeps. -/
def Forgets (a : Act n) (s : State n) : Prop :=
  ∃ p id w i, a = .step p ∧ s.place p = .inside (.write id w i true) ∧ (i : Int) < w.n ∧
    s.killed p = true ∧ ∃ q, (s.place q).sleeps .nread

/-- A process that knows of no other debt settles it with one `wakeup`. -/
theorem settles_wake {c c' : Chan} {k' : Place} (hpaid : ∀ c', c' ≠ c → ¬ owes k d c')
    (h : waits c' d ∨ owes k d c') : Monitor.Next.settles waits owes d c' (.wake c k') := by
  by_cases hc : c' = c
  · exact .inr (.inl hc.symm)
  · exact .inl (h.resolve_right (hpaid c' hc))

theorem write_pays {stored : Bool} (h : Inv s.view)
    (hp : s.place p = .inside (.write id w i stored)) (hf : ¬ Forgets (.step p) s) :
    Monitor.Pays waits owes pipe s p := by
  have hknows : stored = true → s.data.readopen = true ∧ s.data.nread ≠ s.data.nwrite :=
    h.knows (Monitor.view_cont hp)
  have hpaid : ∀ c, c ≠ .nread → ¬ owes (.write id w i stored) s.data c := by
    intro c hc ho
    cases c with
    | nread => exact hc rfl
    | nwrite => exact ho
  intro k hk
  rw [hp] at hk
  cases hk
  show (∀ q c, _ → _ → Monitor.Next.settles waits owes (writeBody id w i (s.killed p) s.data).1 c
    (writeBody id w i (s.killed p) s.data).2) ∧ ∀ c k',
    (writeBody id w i (s.killed p) s.data).2 = .sleep c k' →
      waits c (writeBody id w i (s.killed p) s.data).1
  unfold writeBody
  split
  case isFalse => exact ⟨fun q c _ hold => settles_wake hpaid hold, nofun⟩
  case isTrue hn =>
  split
  case isTrue hend =>
    refine ⟨fun q c hq hold => ?_, nofun⟩
    rcases hold with hw | ho
    · exact hw
    · cases c with
      | nread =>
        have hs : stored = true := ho
        subst hs
        obtain ⟨hopen, _⟩ := hknows rfl
        refine absurd ⟨p, id, w, i, rfl, hp, hn, ?_, q, hq⟩ hf
        simpa [hopen] using hend
      | nwrite => exact ho.elim
  case isFalse =>
  split
  case isTrue => exact ⟨fun q c _ hold => settles_wake hpaid hold, nofun⟩
  case isFalse hroom =>
  split
  case h_1 => exact ⟨fun q c _ hold => settles_wake hpaid hold, nofun⟩
  case h_2 =>
    refine ⟨fun q c _ hold => ?_, nofun⟩
    cases c with
    | nread => exact .inr rfl
    | nwrite => exact absurd (hold.resolve_right fun ho => ho).1 hroom

theorem read_pays (killed : Bool) : (∀ c, waits c d ∨ owes (.read r) d c →
      Monitor.Next.settles waits owes (readBody r killed d).1 c (readBody r killed d).2) ∧
    ∀ c k', (readBody r killed d).2 = .sleep c k' → waits c (readBody r killed d).1 := by
  have hpaid : ∀ c, ¬ owes (.read r) d c := fun c ho => by cases c <;> exact ho
  unfold readBody
  split
  case isTrue hempty =>
    split
    case isTrue => exact ⟨fun c hold => hold.resolve_right (hpaid c), nofun⟩
    case isFalse =>
      refine ⟨fun c hold => hold.resolve_right (hpaid c), fun c k' hk => ?_⟩
      cases hk
      exact hempty
  case isFalse => exact ⟨fun c hold => .inl (hold.resolve_right (hpaid c)), nofun⟩

theorem copy_pays : (∀ c, waits c d ∨ owes (.copy r i) d c →
      Monitor.Next.settles waits owes (copyBody r i d).1 c (copyBody r i d).2) ∧
    ∀ c k', (copyBody r i d).2 = .sleep c k' → waits c (copyBody r i d).1 := by
  have hpaid : ∀ c, c ≠ .nwrite → ¬ owes (.copy r i) d c := by
    intro c hc ho
    cases c with
    | nread => exact ho
    | nwrite => exact hc rfl
  unfold copyBody
  split
  case isFalse => exact ⟨fun c hold => settles_wake hpaid hold, nofun⟩
  case isTrue =>
  split
  case isTrue => exact ⟨fun c hold => settles_wake hpaid hold, nofun⟩
  case isFalse hne =>
  split
  case isTrue =>
    refine ⟨fun c hold => ?_, nofun⟩
    cases c with
    | nread => exact absurd (hold.resolve_right fun ho => ho).1 hne
    | nwrite => exact .inr trivial
  case isFalse =>
    refine ⟨fun c hold => ?_, nofun⟩
    cases c with
    | nread => exact .inl (hold.resolve_right fun ho => ho)
    | nwrite => exact .inr (.inl rfl)

theorem close_pays {writable : Bool} : (∀ c, waits c d ∨ owes (.close writable) d c →
      Monitor.Next.settles waits owes (closeBody writable d).1 c (closeBody writable d).2) ∧
    ∀ c k', (closeBody writable d).2 = .sleep c k' → waits c (closeBody writable d).1 := by
  have hpaid : ∀ c, ¬ owes (.close writable) d c := fun c ho => by cases c <;> exact ho
  unfold closeBody
  split
  case isTrue =>
    refine ⟨fun c hold => ?_, nofun⟩
    cases c with
    | nread => exact .inr (.inl rfl)
    | nwrite => exact .inl (hold.resolve_right (hpaid _))
  case isFalse =>
    refine ⟨fun c hold => ?_, nofun⟩
    cases c with
    | nread => exact .inl (hold.resolve_right (hpaid _))
    | nwrite => exact .inr (.inl rfl)

theorem waits_unuse (c : Chan) : waits c d.unuse ↔ waits c d := by
  unfold Pipe.unuse
  split
  · cases c <;> rfl
  · rfl

/-- Every step but a forgetful one settles its debts. -/
theorem body_pays (h : Inv s.view) (hf : ¬ Forgets (.step p) s) :
    Monitor.Pays waits owes pipe s p := by
  intro k hp
  cases k with
  | write id w i stored => exact write_pays h hp hf _ hp
  | full id w i =>
    have hknows : waits .nwrite s.data := h.knows (Monitor.view_cont hp)
    refine ⟨fun q c _ hold => hold.resolve_right fun ho => ?_, fun c k' hk => ?_⟩
    · cases c <;> exact ho
    · cases hk
      exact hknows
  | written result =>
    refine ⟨fun q c _ hold => hold.resolve_right fun ho => ?_, nofun⟩
    cases c <;> exact ho
  | read r => exact ⟨fun q c _ => (read_pays _).1 c, (read_pays _).2⟩
  | copy r i => exact ⟨fun q c _ => copy_pays.1 c, copy_pays.2⟩
  | copied r result =>
    refine ⟨fun q c _ hold => hold.resolve_right fun ho => ?_, nofun⟩
    cases c <;> exact ho
  | close writable => exact ⟨fun q c _ => close_pays.1 c, close_pays.2⟩
  | closed =>
    refine ⟨fun q c _ hold => (waits_unuse c).mpr (hold.resolve_right fun ho => ?_), nofun⟩
    cases c <;> exact ho

theorem start_still {d' : Pipe} (h : start k d = some d') : Monitor.Still waits owes d d' := by
  have hsame : d'.nread = d.nread ∧ d'.nwrite = d.nwrite ∧ d'.readopen = d.readopen ∧
      d'.writeopen = d.writeopen := by
    unfold start at h
    split at h
    · split at h
      · cases h
        exact ⟨rfl, rfl, rfl, rfl⟩
      · cases h
    · cases h
      exact ⟨rfl, rfl, rfl, rfl⟩
    · cases h
      exact ⟨rfl, rfl, rfl, rfl⟩
    · cases h
  obtain ⟨hr, hw, hro, hwo⟩ := hsame
  refine ⟨fun c hc => ?_, fun k c hc => ?_⟩
  · cases c with
    | nread =>
      show d'.nread = d'.nwrite ∧ d'.writeopen = true
      rw [hr, hw, hwo]
      exact hc
    | nwrite =>
      show d'.nwrite = d'.nread + _ ∧ d'.readopen = true
      rw [hr, hw, hro]
      exact hc
  · cases k <;> cases c <;> exact hc

/-- With the lock free, nobody sleeps without a reason. -/
def Calm (s : State n) : Prop :=
  s.lock = none → ∀ q c, (s.place q).sleeps c → waits c s.data

structure Safe (s : State n) : Prop where
  inv : Inv s.view
  locked : s.Locked
  watched : s.Watched waits owes

theorem Safe.calm (h : Safe s) : Calm s := fun hfree _ _ hq => h.watched.free h.locked hfree hq

theorem boot_safe (page : Fin pipesize → Byte) : Safe (boot n page) :=
  ⟨boot_inv page, Monitor.locked_init _, Monitor.watched_init _⟩

theorem act_safe (a : Act n) (s : State n) (h : Safe s) (hf : ¬ Forgets a s) :
    Safe (pipe.act a s) := by
  refine ⟨?_, Monitor.locked_act a s h.locked, ?_⟩
  · rcases Monitor.act_turn h.locked a with hsame | ht
    · rw [hsame]
      exact h.inv
    · exact turn_inv h.inv ht
  · refine Monitor.watched_act start_still (fun e => nomatch e) h.watched h.locked a fun p hp => ?_
    subst hp
    exact body_pays h.inv hf

/-- A forgetful step leaves a reader asleep in front of a byte. -/
theorem Forgets.not_calm {a : Act n} (h : Safe s) (hf : Forgets a s) : ¬ Calm (pipe.act a s) := by
  obtain ⟨p, id, w, i, rfl, hp, hn, hkilled, q, hq⟩ := hf
  obtain ⟨_, hne⟩ : s.data.readopen = true ∧ s.data.nread ≠ s.data.nwrite :=
    h.inv.knows (Monitor.view_cont hp) rfl
  have hstep : pipe.act (.step p) s = { s.goto p .out with lock := none } := by
    have hbody : pipe.body (.write id w i true) (s.killed p) s.data = (s.data, .leave) := by
      show writeBody id w i (s.killed p) s.data = _
      unfold writeBody
      rw [if_pos hn, if_pos (.inr hkilled)]
    show pipe.step p s = _
    unfold Monitor.step
    rw [hp]
    show pipe.stepInside p _ s = _
    unfold Monitor.stepInside
    rw [hbody]
  have hqp : q ≠ p := by
    rintro rfl
    rw [hp] at hq
    exact hq
  intro hcalm
  rw [hstep] at hcalm
  exact hne (hcalm rfl q .nread (by simpa [hqp] using hq)).1

/-- No sleeper is forgotten in a run iff no step of it is forgetful. -/
theorem no_sleeper_forgotten (page : Fin pipesize → Byte) (acts : List (Act n)) :
    Along pipe.act (fun a s => ¬ Forgets a s) acts (boot n page) ↔
      ∀ as bs, acts = as ++ bs → Calm (runs pipe.act as (boot n page)) :=
  along_iff (fun _ => Safe.calm) act_safe (fun _ _ h hno => (not_not.mp hno).not_calm h) acts
    (boot_safe page)

def oneByte : Write where
  src _ := some 0x61
  n := 2

/-- Process 1 reads and falls asleep; process 0 writes two bytes and is killed
between them. -/
def killBetween : List (Act 2) :=
  [.call 1 (.read ⟨fun _ => true, 1⟩), .step 1, .step 1, .step 1,
    .call 0 (.write 0 oneByte 0 false), .step 0, .step 0, .kill 0, .step 0]

/-- The reader sleeps on, with a byte in the pipe and nobody to wake it. -/
theorem killed_writer_forgets :
    (runs pipe.act killBetween (boot 2 fun _ => 0)).lock = none ∧
    (runs pipe.act killBetween (boot 2 fun _ => 0)).place 1 =
      .asleep .nread (.read ⟨fun _ => true, 1⟩) ∧
    (runs pipe.act killBetween (boot 2 fun _ => 0)).data.nread ≠
      (runs pipe.act killBetween (boot 2 fun _ => 0)).data.nwrite := by
  refine ⟨by decide +kernel, rfl, by decide +kernel⟩

end Xv6.Ipc
