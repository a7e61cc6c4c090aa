/-
Xv6.Virtio.Protocol — what holds of the virtio disk after every run.

§1 nobody sleeps on the free list in vain, §2 what a step leaves alone: entries
of the rings that nobody has read yet, flags of other buffers, §3 the numbers of
the requests, §4 the protocol.
-/
import Xv6.Virtio.DiskTheorems

namespace Xv6.Virtio

open Xv6.Lib Function

variable {B : Type} {d d' : Disk B} {n : Nat}
  {v v' : Monitor.View n (Disk B) (Place B)} {p p' : Fin n} {k k' : Place B} {q q' : Req B}
  {x : Idx} {i h : Nat} {s : State n B}

/-! ## §1 Sleepers -/

/-- Why one sleeps: too few descriptors are free, or the request of the buffer
is not completed. -/
def waits : Chan B → Disk B → Prop
  | .free, d => freeCount d.free < 3
  | .buf b, d => d.flag b = true

/-- Nobody puts a `wakeup` off. -/
def owes (_ : Place B) (_ : Disk B) (_ : Chan B) : Prop := False

/-- What a body that starts with data `d` must leave. -/
def Settles (d : Disk B) (r : Step B) : Prop :=
  (∀ c, waits c d → Monitor.Next.settles waits owes r.1 c r.2) ∧
    ∀ c k', r.2 = .sleep c k' → waits c r.1

theorem settles_quiet {next : Next (Chan B) (Place B)} (h : ∀ c, waits c d → waits c d')
    (hno : ∀ c k', next = .sleep c k' → waits c d') : Settles d (d', next) := by
  refine ⟨fun c hc => ?_, hno⟩
  cases next with
  | goto k => exact .inl (h c hc)
  | wake c' k => exact .inl (h c hc)
  | sleep c' k => exact h c hc
  | leave => exact h c hc

theorem alloc_settles [DecidableEq B] : Settles d (allocBody q d) := by
  have hless : ∀ c, waits c d → waits c { d with free := (allocDescs 3 d.free).2 } := by
    intro c hc
    cases c with
    | free =>
      refine Nat.lt_of_le_of_lt (freeCount_mono fun i hi => ?_) hc
      exact (((allocDescs_spec 3 d.free).now i).mp hi).1
    | buf b => exact hc
  unfold allocBody
  dsimp only
  split
  · exact settles_quiet hless (by rintro _ _ ⟨⟩)
  · exact settles_quiet hless (by rintro _ _ ⟨⟩)

theorem freeDesc_flag [DecidableEq B] : (freeDesc i d).flag = d.flag := by
  unfold freeDesc
  split
  · rfl
  · split <;> rfl

/-- A `free_desc` is followed by a `wakeup`, unless it panics. -/
theorem freeDesc_settles [DecidableEq B] (hpanic : d.panic = none) (k k' : Place B) :
    Settles d (if (freeDesc i d).panic = none then (freeDesc i d, .wake .free k)
      else (freeDesc i d, .goto k')) := by
  split
  case isTrue =>
    refine ⟨fun c hc => ?_, by rintro _ _ ⟨⟩⟩
    cases c with
    | free => exact .inr (.inl rfl)
    | buf b =>
      refine .inl ?_
      show (freeDesc i d).flag b = true
      rw [freeDesc_flag]
      exact hc
  case isFalse hbad =>
    refine settles_quiet (fun c hc => ?_) (by rintro _ _ ⟨⟩)
    revert hbad
    unfold freeDesc
    split
    · exact fun _ => by cases c <;> exact hc
    · split
      · exact fun _ => by cases c <;> exact hc
      · exact fun hbad => absurd hpanic hbad

theorem undo_settles [DecidableEq B] {left : List Nat} (hpanic : d.panic = none)
    (hknows : Knows d (.undo q left)) : Settles d (undoBody q left d) := by
  cases left with
  | nil =>
    refine settles_quiet (fun _ => id) ?_
    rintro _ _ ⟨⟩
    exact hknows
  | cons i left => exact freeDesc_settles hpanic ..

theorem fill_settles [DecidableEq B] : Settles d (fillBody q x d) := by
  refine settles_quiet (fun c hc => ?_) (by rintro _ _ ⟨⟩)
  cases c with
  | free => exact hc
  | buf b =>
    show update d.flag q.b true b = true
    by_cases hb : b = q.b
    · rw [hb, update_self]
    · rw [update_of_ne hb]
      exact hc

theorem wait_settles [DecidableEq B] : Settles d (waitBody q x d) := by
  unfold waitBody
  split
  case isTrue hflag =>
    refine settles_quiet (fun _ => id) ?_
    rintro _ _ ⟨⟩
    exact hflag
  case isFalse => exact settles_quiet (fun _ => id) (by rintro _ _ ⟨⟩)

theorem scan_settles [DecidableEq B] : Settles d (scanBody d) := by
  have hsame : ∀ e c, waits c d → waits c { d with panic := e } := fun e c hc => by
    cases c <;> exact hc
  unfold scanBody
  split
  case isTrue => exact settles_quiet (fun _ => id) (by rintro _ _ ⟨⟩)
  case isFalse =>
  dsimp only
  split
  case isTrue => exact settles_quiet (hsame _) (by rintro _ _ ⟨⟩)
  case isFalse =>
  split
  case isTrue => exact settles_quiet (hsame _) (by rintro _ _ ⟨⟩)
  case isFalse =>
  split
  case h_1 => exact settles_quiet (hsame _) (by rintro _ _ ⟨⟩)
  case h_2 b _ =>
    refine ⟨fun c hc => ?_, by rintro _ _ ⟨⟩⟩
    cases c with
    | free => exact .inl hc
    | buf b' =>
      by_cases hb : b' = b
      · exact .inr (.inl (by rw [hb]))
      · refine .inl ?_
        show update d.flag b false b' = true
        rw [update_of_ne hb]
        exact hc

theorem code_settles [DecidableEq B] (hpanic : d.panic = none) (hknows : Knows d k) :
    Settles d (code d k) := by
  cases k with
  | alloc q => exact alloc_settles
  | undo q left => exact undo_settles hpanic hknows
  | fill q x => exact fill_settles
  | wait q x => exact wait_settles
  | chain q i rest => exact freeDesc_settles hpanic ..
  | scan => exact scan_settles
  | _ => exact settles_quiet (fun c hc => by cases c <;> exact hc) (by rintro _ _ ⟨⟩)

theorem body_pays [DecidableEq B] (h : Inv s.view) : Monitor.Pays waits owes virtio s p := by
  intro k hp
  have hknows : Knows s.data k := h.places.knows (Monitor.view_cont hp)
  have hbody : virtio.body k (s.killed p) s.data = code s.data k := if_pos h.panic
  obtain ⟨hsettles, hsleep⟩ := code_settles h.panic hknows
  rw [hbody]
  exact ⟨fun _ c _ hold => hsettles c (hold.resolve_right id), hsleep⟩

theorem still_of (hfree : d'.free = d.free) (hflag : d'.flag = d.flag) :
    Monitor.Still waits owes d d' := by
  refine ⟨fun c hc => ?_, fun _ _ ho => ho.elim⟩
  cases c with
  | free =>
    show freeCount d'.free < 3
    rw [hfree]
    exact hc
  | buf b =>
    show d'.flag b = true
    rw [hflag]
    exact hc

theorem start_eq [DecidableEq B] (h : start k d = some d') :
    ∃ busy, d' = { d with ids := d'.ids, busy := busy } ∧ d.ids ≤ d'.ids ∧
      ∀ q, k.req = some q → q.id = d.ids ∧ d'.ids = d.ids + 1 := by
  unfold start at h
  split at h
  case h_1 q =>
    split at h
    case isTrue hfresh =>
      cases h
      refine ⟨_, rfl, Nat.le_succ _, ?_⟩
      rintro q' ⟨⟩
      exact ⟨hfresh.1, rfl⟩
    case isFalse => cases h
  case h_2 =>
    cases h
    exact ⟨_, rfl, Nat.le_refl _, by rintro _ ⟨⟩⟩
  case h_3 => cases h

theorem start_still [DecidableEq B] (h : start k d = some d') : Monitor.Still waits owes d d' := by
  obtain ⟨busy, heq, _⟩ := start_eq h
  rw [heq]
  exact still_of rfl rfl

theorem writeStatus_eq : ∃ info, writeStatus h d = { d with info := info } := by
  unfold writeStatus
  split
  · exact ⟨_, rfl⟩
  · exact ⟨d.info, rfl⟩

/-- What the device does to the variables of the driver, and to the list of completed requests. -/
structure Apart (d d' : Disk B) : Prop where
  avail : d'.availRing = d.availRing
  consumed : d'.consumed = d.consumed
  flag : d'.flag = d.flag
  free : d'.free = d.free
  owner : d'.owner = d.owner
  ids : d'.ids = d.ids
  completed : ∀ r ∈ d'.completed, r ∈ d.completed ∨ ∃ h, r = d.owner h

theorem device_apart [DecidableEq B] (e : Dev) (d : Disk B) : Apart d (device e d) := by
  cases e with
  | fetch =>
    show Apart d (fetch d)
    unfold fetch
    split <;> exact ⟨rfl, rfl, rfl, rfl, rfl, rfl, fun _ => .inl⟩
  | complete j =>
    show Apart d (complete j d)
    unfold complete
    split
    · exact ⟨rfl, rfl, rfl, rfl, rfl, rfl, fun _ => .inl⟩
    · obtain ⟨info, heq⟩ := writeStatus_eq
      rw [heq]
      refine ⟨rfl, rfl, rfl, rfl, rfl, rfl, fun r hr => ?_⟩
      exact (List.mem_append.mp hr).imp_right fun hlast => ⟨_, List.mem_singleton.mp hlast⟩

theorem device_still [DecidableEq B] (e : Dev) (d : Disk B) :
    Monitor.Still waits owes d (device e d) :=
  still_of (device_apart e d).free (device_apart e d).flag

/-! ## §2 What a step leaves alone -/

/-- Only `post` writes to the avail ring, the driver never to the used ring, only
the handler clears flags, and only `bump` gives a chain an owner. -/
structure Frame (k : Place B) (d d' : Disk B) : Prop where
  avail : (∀ q x, k ≠ .post q x) → d'.availRing = d.availRing
  used : d'.usedRing = d.usedRing
  flags : k ≠ .scan → d'.consumed = d.consumed ∧ ∀ b, d.flag b = true → d'.flag b = true
  owner : (∀ q x, k ≠ .bump q x) → d'.owner = d.owner
  ids : d'.ids = d.ids
  completed : d'.completed = d.completed

/-- Most steps do none of it. -/
theorem Frame.of (havail : d'.availRing = d.availRing) (hused : d'.usedRing = d.usedRing)
    (hconsumed : d'.consumed = d.consumed) (hflag : ∀ b, d.flag b = true → d'.flag b = true)
    (howner : d'.owner = d.owner) (hids : d'.ids = d.ids) (hdone : d'.completed = d.completed) :
    Frame k d d' :=
  ⟨fun _ => havail, hused, fun _ => ⟨hconsumed, hflag⟩, fun _ => howner, hids, hdone⟩

theorem freeDesc_frame [DecidableEq B] : Frame k d (freeDesc i d) := by
  unfold freeDesc
  split
  · exact .of rfl rfl rfl (fun _ => id) rfl rfl rfl
  · split <;> exact .of rfl rfl rfl (fun _ => id) rfl rfl rfl

theorem code_frame [DecidableEq B] : Frame k d (code d k).1 := by
  cases k with
  | alloc q =>
    show Frame _ d (allocBody q d).1
    unfold allocBody
    dsimp only
    split <;> exact .of rfl rfl rfl (fun _ => id) rfl rfl rfl
  | undo q left =>
    cases left with
    | nil => exact .of rfl rfl rfl (fun _ => id) rfl rfl rfl
    | cons i left =>
      show Frame _ d (if (freeDesc i d).panic = none then _ else _ : Step B).1
      split <;> exact freeDesc_frame
  | fill q x =>
    refine .of rfl rfl rfl (fun b hb => ?_) rfl rfl rfl
    show update d.flag q.b true b = true
    by_cases hbq : b = q.b
    · rw [hbq, update_self]
    · rw [update_of_ne hbq]
      exact hb
  | post q x =>
    exact ⟨fun hno => absurd rfl (hno q x), rfl, fun _ => ⟨rfl, fun _ => id⟩, fun _ => rfl, rfl,
      rfl⟩
  | bump q x =>
    exact ⟨fun _ => rfl, rfl, fun _ => ⟨rfl, fun _ => id⟩, fun hno => absurd rfl (hno q x), rfl,
      rfl⟩
  | wait q x =>
    show Frame _ d (waitBody q x d).1
    unfold waitBody
    split <;> exact .of rfl rfl rfl (fun _ => id) rfl rfl rfl
  | chain q i rest =>
    show Frame _ d (if (freeDesc i d).panic = none then _ else _ : Step B).1
    split <;> exact freeDesc_frame
  | scan =>
    show Frame _ d (scanBody d).1
    unfold scanBody
    split
    case isTrue => exact .of rfl rfl rfl (fun _ => id) rfl rfl rfl
    case isFalse =>
    dsimp only
    split
    case isTrue => exact .of rfl rfl rfl (fun _ => id) rfl rfl rfl
    case isFalse =>
    split
    case isTrue => exact .of rfl rfl rfl (fun _ => id) rfl rfl rfl
    case isFalse =>
    split
    case h_1 => exact .of rfl rfl rfl (fun _ => id) rfl rfl rfl
    case h_2 => exact ⟨fun _ => rfl, rfl, fun hno => absurd rfl hno, fun _ => rfl, rfl, rfl⟩
  | _ => exact .of rfl rfl rfl (fun _ => id) rfl rfl rfl

theorem goes_on {k k' : Place B} {P : Prop} (h : k'.req = k.req) :
    (∀ l, some k' = some l → l.req = k.req) ∧ (some k' = none → P) := by
  refine ⟨?_, nofun⟩
  rintro _ ⟨⟩
  exact h

/-- A step goes on with the same request; only `done` ends one. -/
theorem code_req [DecidableEq B] :
    (∀ k', (code d k).2.cont = some k' → k'.req = k.req) ∧
      ((code d k).2.cont = none → k = .scan ∨ ∃ q, k = .done q) := by
  cases k with
  | alloc q =>
    show (∀ k', (allocBody q d).2.cont = some k' → _) ∧ ((allocBody q d).2.cont = none → _)
    unfold allocBody
    dsimp only
    split <;> exact goes_on rfl
  | undo q left =>
    cases left with
    | nil => exact goes_on rfl
    | cons i left =>
      show (∀ k', (undoBody q (i :: left) d).2.cont = some k' → _) ∧
        ((undoBody q (i :: left) d).2.cont = none → _)
      unfold undoBody
      dsimp only
      split <;> exact goes_on rfl
  | wait q x =>
    show (∀ k', (waitBody q x d).2.cont = some k' → _) ∧ ((waitBody q x d).2.cont = none → _)
    unfold waitBody
    split <;> exact goes_on rfl
  | chain q i rest =>
    show (∀ k', (chainBody q i rest d).2.cont = some k' → _) ∧
      ((chainBody q i rest d).2.cont = none → _)
    unfold chainBody
    dsimp only
    split
    · refine ⟨?_, by rintro ⟨⟩⟩
      rintro _ ⟨⟩
      split <;> rfl
    · exact goes_on rfl
  | done q => exact ⟨by rintro _ ⟨⟩, fun _ => .inr ⟨q, rfl⟩⟩
  | scan =>
    show (∀ k', (scanBody d).2.cont = some k' → _) ∧ _
    refine ⟨fun k' => ?_, fun _ => .inl rfl⟩
    unfold scanBody
    split
    case isTrue => rintro ⟨⟩
    case isFalse =>
    dsimp only
    split
    case isTrue => rintro ⟨⟩; rfl
    case isFalse =>
    split
    case isTrue => rintro ⟨⟩; rfl
    case isFalse =>
    split <;> (rintro ⟨⟩; rfl)
  | _ => exact goes_on rfl

theorem body_eq [DecidableEq B] (hv : Inv v) (killed : Bool) :
    virtio.body k killed v.data = code v.data k :=
  if_pos hv.panic

/-- The entries of the used ring are the completed requests that the handler has not seen. -/
theorem Inv.counts (hv : Inv v) (hno : ∀ p, v.cont p ≠ some .scanned) :
    (v.data.usedTop - v.data.usedIdx).toNat = v.data.completed.length - v.data.consumed.length := by
  obtain ⟨l, A, V, hf⟩ := hv.flow
  rcases hf.late with ⟨rfl, _⟩ | ⟨_, p, hp⟩
  · rw [hf.used.length num_lt, hf.completed]
    simp
  · exact absurd hp (hno p)

/-! ## §3 The numbers of the requests -/

/-- Numbers from `ids` on are not in use. -/
structure Fresh (v : Monitor.View n (Disk B) (Place B)) : Prop where
  calls : ∀ {p k q}, v.cont p = some k → k.req = some q → q.id < v.data.ids
  owner : ∀ {i id b}, v.data.owner i = some (id, b) → id < v.data.ids
  completed : ∀ {id b}, some (id, b) ∈ v.data.completed → id < v.data.ids

theorem turn_fresh [DecidableEq B] (hv : Inv v) (hf : Fresh v) (ht : virtio.Turn v v') :
    Fresh v' := by
  cases ht with
  | @start p k d out can =>
    obtain ⟨busy, heq, hle, hnew⟩ := start_eq can
    refine ⟨fun {p' k' q} hp' hq => ?_, fun {i id b} ho => ?_, fun {id b} hc => ?_⟩
    · show q.id < d.ids
      rcases cont_update hp' with ⟨_, hc⟩ | ⟨_, hold⟩
      · cases hc
        obtain ⟨hid, hids⟩ := hnew q hq
        omega
      · exact Nat.lt_of_lt_of_le (hf.calls hold hq) hle
    · have ho' : d.owner i = some (id, b) := ho
      rw [heq] at ho'
      exact Nat.lt_of_lt_of_le (hf.owner ho') hle
    · have hc' : some (id, b) ∈ d.completed := hc
      rw [heq] at hc'
      exact Nat.lt_of_lt_of_le (hf.completed hc') hle
  | acquire free here => exact ⟨hf.calls, hf.owner, hf.completed⟩
  | @body p k killed holds here =>
    rw [body_eq hv]
    have hframe : Frame k v.data (code v.data k).1 := code_frame
    refine ⟨fun {p' k' q} hp' hq => ?_, fun {i id b} ho => ?_, fun {id b} hc => ?_⟩
    · show q.id < (code v.data k).1.ids
      rw [hframe.ids]
      rcases cont_update hp' with ⟨_, hc⟩ | ⟨_, hold⟩
      · exact hf.calls here ((code_req.1 k' hc).symm.trans hq)
      · exact hf.calls hold hq
    · show id < (code v.data k).1.ids
      rw [hframe.ids]
      have ho' : (code v.data k).1.owner i = some (id, b) := ho
      by_cases hbump : ∃ q x, k = .bump q x
      · obtain ⟨q, x, rfl⟩ := hbump
        by_cases hi : i = x.i0
        · subst hi
          have hself : update v.data.owner x.i0 (some (q.id, q.b)) x.i0 = _ := update_self ..
          have hmine := hself.symm.trans ho'
          cases hmine
          exact hf.calls here rfl
        · exact hf.owner ((update_of_ne hi ..).symm.trans ho')
      · rw [hframe.owner fun q x he => hbump ⟨q, x, he⟩] at ho'
        exact hf.owner ho'
    · show id < (code v.data k).1.ids
      rw [hframe.ids]
      have hc' : some (id, b) ∈ (code v.data k).1.completed := hc
      rw [hframe.completed] at hc'
      exact hf.completed hc'
  | env e =>
    have hdev := device_apart e v.data
    refine ⟨fun {p' k' q} hp' hq => ?_, fun {i id b} ho => ?_, fun {id b} hc => ?_⟩
    · show q.id < (device e v.data).ids
      rw [hdev.ids]
      exact hf.calls hp' hq
    · show id < (device e v.data).ids
      rw [hdev.ids]
      exact hf.owner ((congrFun hdev.owner i).symm.trans ho)
    · show id < (device e v.data).ids
      rw [hdev.ids]
      rcases hdev.completed _ hc with hold | ⟨h, ho⟩
      · exact hf.completed hold
      · exact hf.owner ho.symm

theorem boot_fresh : Fresh (boot n B).view := by
  refine ⟨fun h => ?_, fun h => ?_, fun h => ?_⟩
  · cases h
  · cases h
  · cases h

/-! ## §4 The protocol -/

structure Safe (s : State n B) : Prop where
  locked : s.Locked
  inv : Inv s.view
  fresh : Fresh s.view
  watched : s.Watched waits owes

theorem act_safe [DecidableEq B] (a : Act n B) (s : State n B) (h : Safe s) :
    Safe (virtio.act a s) := by
  have hwatched : (virtio.act a s).Watched waits owes := by
    refine Monitor.watched_act start_still device_still h.watched h.locked a fun p hp => ?_
    exact body_pays h.inv
  rcases Monitor.act_turn h.locked a with hsame | ht
  · refine ⟨Monitor.locked_act a s h.locked, ?_, ?_, hwatched⟩
    · rw [hsame]
      exact h.inv
    · rw [hsame]
      exact h.fresh
  · exact ⟨Monitor.locked_act a s h.locked, turn_inv h.inv ht, turn_fresh h.inv h.fresh ht,
      hwatched⟩

theorem boot_safe : Safe (boot n B) :=
  ⟨Monitor.locked_init _, boot_inv, boot_fresh, Monitor.watched_init _⟩

end Xv6.Virtio
