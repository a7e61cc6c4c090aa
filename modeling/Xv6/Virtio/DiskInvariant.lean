/-
Xv6.Virtio.DiskInvariant — who has which descriptor, and where each request is.

A process without the lock is about to allocate, or waits for its request, so
that most of what is known of a place concerns the holder of the lock only. §1
free descriptors, §2 what is known at each place (`Places`), §3 the way of the
requests through the two rings (`Flow`), §4 steps that leave the rings alone.
-/
import Xv6.Virtio.Disk

namespace Xv6.Virtio

open Xv6.Lib Function

variable {B : Type} {d d' : Disk B} {i : Nat} {free : Nat → Bool}

/-! ## §1 Free descriptors -/

def freeCount (free : Nat → Bool) : Nat := (List.range num).countP fun i => free i

theorem allocDesc_some (h : allocDesc free = some i) : i < num ∧ free i = true :=
  ⟨List.mem_range.mp (List.mem_of_find?_eq_some h), List.find?_some h⟩

theorem allocDesc_none (h : allocDesc free = none) (hi : i < num) : free i = false := by
  have hno := List.find?_eq_none.mp h i (List.mem_range.mpr hi)
  simpa using hno

/-- The descriptors `l` are allocated, up to `k` of them. -/
structure Allocs (k : Nat) (free : Nat → Bool) (l : List Nat) (free' : Nat → Bool) : Prop where
  length : l.length ≤ k
  nodup : l.Nodup
  were : ∀ i ∈ l, i < num ∧ free i = true
  now : ∀ i, free' i = true ↔ free i = true ∧ i ∉ l
  short : l.length < k → ∀ i, i < num → free' i = false

theorem allocDescs_spec (k : Nat) (free : Nat → Bool) :
    Allocs k free (allocDescs k free).1 (allocDescs k free).2 := by
  induction k generalizing free with
  | zero =>
    exact ⟨Nat.le_refl _, List.nodup_nil, nofun, fun i => by simp [allocDescs], nofun⟩
  | succ k ih =>
    cases hi : allocDesc free with
    | none =>
      have heq : allocDescs (k + 1) free = ([], free) := by simp [allocDescs, hi]
      rw [heq]
      exact ⟨Nat.zero_le _, List.nodup_nil, nofun, fun i => by simp,
        fun _ i hlt => allocDesc_none hi hlt⟩
    | some i =>
      obtain ⟨hlt, hfree⟩ := allocDesc_some hi
      have h := ih (update free i false)
      have heq : allocDescs (k + 1) free =
          (i :: (allocDescs k (update free i false)).1, (allocDescs k (update free i
            false)).2) := by
        simp [allocDescs, hi]
      rw [heq]
      have hne : ∀ {j}, update free i false j = true → j ≠ i := fun {j} hj hji => by
        subst hji
        simp at hj
      refine ⟨Nat.succ_le_succ h.length, ?_, ?_, ?_, fun hs => h.short (Nat.lt_of_succ_lt_succ hs)⟩
      · exact List.nodup_cons.mpr ⟨fun hmem => hne (h.were i hmem).2 rfl, h.nodup⟩
      · intro j hj
        rcases List.mem_cons.mp hj with rfl | hj
        · exact ⟨hlt, hfree⟩
        · obtain ⟨hjlt, hjfree⟩ := h.were j hj
          rw [update_of_ne (hne hjfree)] at hjfree
          exact ⟨hjlt, hjfree⟩
      · intro j
        rw [h.now j]
        by_cases hj : j = i
        · subst hj
          simp
        · simp [hj]

theorem freeCount_mono {free' : Nat → Bool} (h : ∀ i, free' i = true → free i = true) :
    freeCount free' ≤ freeCount free :=
  List.countP_mono_left fun i _ => h i

theorem freeCount_zero (h : ∀ i, i < num → free i = false) : freeCount free = 0 := by
  refine List.countP_eq_zero.mpr fun i hi => ?_
  rw [h i (List.mem_range.mp hi)]
  nofun

theorem countP_update_le (l : List Nat) (hl : l.Nodup) (free : Nat → Bool) (i : Nat) :
    l.countP (fun j => update free i true j) ≤ l.countP (fun j => free j) + 1 := by
  induction l with
  | nil => simp
  | cons j l ih =>
    obtain ⟨hj, hl⟩ := List.nodup_cons.mp hl
    rw [List.countP_cons, List.countP_cons]
    by_cases hji : j = i
    · subst hji
      have hsame : l.countP (fun m => update free j true m) = l.countP (fun m => free m) :=
        List.countP_congr fun m hm => by
          have hmj : m ≠ j := fun e => hj (e ▸ hm)
          simp [hmj]
      rw [hsame, update_self, if_pos rfl]
      omega
    · have := ih hl
      rw [update_of_ne hji]
      omega

theorem freeCount_free (free : Nat → Bool) (i : Nat) :
    freeCount (update free i true) ≤ freeCount free + 1 :=
  countP_update_le _ List.nodup_range free i

/-! ## §2 Places -/

/-- The descriptors of a process. -/
def Place.held : Place B → List Nat
  | .undo _ left => left
  | .fill _ x | .post _ x | .bump _ x | .wait _ x | .finish _ x => x.list
  | .chain _ i rest => i :: rest
  | _ => []

/-- The request a process is in. -/
def Place.req : Place B → Option (Req B)
  | .alloc q | .undo q _ | .fill q _ | .post q _ | .bump q _ | .wait q _ | .finish q _
  | .chain q _ _ | .done q => some q
  | .intr | .scan | .scanned => none

/-- Places where one always has the lock. -/
def Place.inner : Place B → Bool
  | .alloc _ | .wait .. | .intr => false
  | _ => true

/-- The descriptors form a chain. -/
def Linked (desc : Nat → Desc B) : List Nat → Prop
  | [] => True
  | [i] => (desc i).more = false
  | i :: j :: l => (desc i).more = true ∧ (desc i).next = j ∧ Linked desc (j :: l)

/-- The chain of a request. -/
def Chained (d : Disk B) (x : Idx) : Prop :=
  Linked d.desc x.list ∧ (d.desc x.i2).addr = .status x.i0

/-- The interrupt handler has seen that the request is completed. -/
def Seen (d : Disk B) (q : Req B) : Prop := some (q.id, q.b) ∈ d.consumed

def Knows (d : Disk B) : Place B → Prop
  | .undo _ left => freeCount d.free + left.length < 3
  | .post q x => Chained d x ∧ (d.info x.i0).b = some q.b ∧ d.flag q.b = true
  | .bump q x => (Chained d x ∧ (d.info x.i0).b = some q.b ∧ d.flag q.b = true) ∧
      d.availRing (cellOf num d.availIdx) = x.i0
  | .wait q x => Chained d x ∧
      (d.flag q.b = true → (d.info x.i0).b = some q.b ∧ d.owner x.i0 = some (q.id, q.b)) ∧
      (d.flag q.b = false → Seen d q)
  | .finish q x => Linked d.desc x.list ∧ Seen d q
  | .chain q i rest => Linked d.desc (i :: rest) ∧ Seen d q
  | .done q => Seen d q
  | _ => True

variable {n : Nat} {v : Monitor.View n (Disk B) (Place B)} {p p' : Fin n} {k k' : Place B}
  {q q' : Req B} {x : Idx} {next : Next (Chan B) (Place B)}

structure Places (v : Monitor.View n (Disk B) (Place B)) : Prop where
  inner : ∀ {p k}, v.cont p = some k → k.inner = true → v.lock = some p
  range : ∀ {p k i}, v.cont p = some k → i ∈ k.held → i < num
  nodup : ∀ {p k}, v.cont p = some k → k.held.Nodup
  apart : ∀ {p p' k k' i}, v.cont p = some k → v.cont p' = some k' → i ∈ k.held → i ∈ k'.held →
    p = p'
  marks : ∀ i, i < num → (v.data.free i = false ↔ ∃ p k, v.cont p = some k ∧ i ∈ k.held)
  busy : ∀ {p k q}, v.cont p = some k → k.req = some q → v.data.busy q.b = true
  bufs : ∀ {p p' k k' q q'}, v.cont p = some k → v.cont p' = some k' → k.req = some q →
    k'.req = some q' → q.b = q'.b → p = p'
  knows : ∀ {p k}, v.cont p = some k → Knows v.data k

/-- Others, without the lock, are at one of three places. -/
theorem Places.outer (h : Places v) (hl : v.lock = some p) (hne : p' ≠ p)
    (hk : v.cont p' = some k') : k'.inner = false := by
  cases hin : k'.inner with
  | false => rfl
  | true =>
    have hlock := h.inner hk hin
    rw [hl] at hlock
    exact absurd (Option.some.inj hlock).symm hne

/-- A step of the holder of the lock. -/
theorem Places.step [DecidableEq B] (h : Places v) (hl : v.lock = some p) (hk : v.cont p = some k)
    (hinner : ∀ k', next.cont = some k' → k'.inner = true → next.keeps = true)
    (hheld : ∀ k', next.cont = some k' → k'.held.Nodup ∧
      ∀ i ∈ k'.held, i < num ∧ (i ∈ k.held ∨ v.data.free i = true))
    (hfree : ∀ i, i < num → (d'.free i = false ↔
      v.data.free i = false ∧ i ∉ k.held ∨ ∃ k', next.cont = some k' ∧ i ∈ k'.held))
    (hreq : ∀ k', next.cont = some k' → k'.req = k.req) (hbusy : d'.busy = v.data.busy ∨
      next.cont = none ∧ ∃ q, k.req = some q ∧ d'.busy = update v.data.busy q.b false)
    (hknows : ∀ k', next.cont = some k' → Knows d' k')
    (hothers : ∀ {p' q x}, p' ≠ p → v.cont p' = some (.wait q x) → Knows d' (.wait q x)) :
    Places (v.after p (d', next)) := by
  -- nobody else has a descriptor that is free
  have hheldBy : ∀ {p' k' i}, v.cont p' = some k' → i ∈ k'.held → v.data.free i = false :=
    fun hp' hi => (h.marks _ (h.range hp' hi)).mpr ⟨_, _, hp', hi⟩
  have hclash : ∀ {p' k' k'' i}, p' ≠ p → v.cont p' = some k' → next.cont = some k'' → i ∈ k'.held →
      i ∉ k''.held := by
    intro p' k' k'' i hne hp' hc hi hi'
    rcases ((hheld k'' hc).2 i hi').2 with hmine | hf
    · exact hne (h.apart hp' hk hi hmine)
    · rw [hheldBy hp' hi] at hf
      cases hf
  have hreqs : ∀ {p' k' q}, update v.cont p next.cont p' = some k' → k'.req = some q →
      ∃ k0, v.cont p' = some k0 ∧ k0.req = some q := by
    intro p' k' q hp' hq
    rcases cont_update hp' with ⟨rfl, hc⟩ | ⟨_, hold⟩
    · exact ⟨k, hk, hreq k' hc ▸ hq⟩
    · exact ⟨k', hold, hq⟩
  refine ⟨fun {p' k'} hp' hin => ?_, fun {p' k' i} hp' hi => ?_, fun {p' k'} hp' => ?_,
    fun {p' p'' k' k'' i} hp' hp'' hi hi' => ?_, fun i hi => ?_, fun {p' k' q} hp' hq => ?_,
    fun {p' p'' k' k'' q q'} hp' hp'' hq hq' hb => ?_, fun {p' k'} hp' => ?_⟩
  · rcases cont_update hp' with ⟨rfl, hc⟩ | ⟨hne, hold⟩
    · exact if_pos (hinner k' hc hin)
    · rw [h.outer hl hne hold] at hin
      cases hin
  · rcases cont_update hp' with ⟨rfl, hc⟩ | ⟨_, hold⟩
    · exact ((hheld k' hc).2 i hi).1
    · exact h.range hold hi
  · rcases cont_update hp' with ⟨rfl, hc⟩ | ⟨_, hold⟩
    · exact (hheld k' hc).1
    · exact h.nodup hold
  · rcases cont_update hp' with ⟨rfl, hc⟩ | ⟨hne, hold⟩
    · rcases cont_update hp'' with ⟨rfl, _⟩ | ⟨hne', hold'⟩
      · rfl
      · exact absurd hi (hclash hne' hold' hc hi')
    · rcases cont_update hp'' with ⟨rfl, hc'⟩ | ⟨_, hold'⟩
      · exact absurd hi' (hclash hne hold hc' hi)
      · exact h.apart hold hold' hi hi'
  · refine (hfree i hi).trans ?_
    constructor
    · rintro (⟨hf, hno⟩ | ⟨k', hc, hi'⟩)
      · obtain ⟨p', k', hp', hi'⟩ := (h.marks i hi).mp hf
        have hne : p' ≠ p := by
          rintro rfl
          rw [hk] at hp'
          cases hp'
          exact hno hi'
        exact ⟨p', k', (update_of_ne hne ..).trans hp', hi'⟩
      · exact ⟨p, k', (update_self ..).trans hc, hi'⟩
    · rintro ⟨p', k', hp', hi'⟩
      rcases cont_update hp' with ⟨rfl, hc⟩ | ⟨hne, hold⟩
      · exact .inr ⟨k', hc, hi'⟩
      · exact .inl ⟨hheldBy hold hi', fun hmine => hne (h.apart hold hk hi' hmine)⟩
  · obtain ⟨k0, hk0, hq0⟩ := hreqs hp' hq
    have hold := h.busy hk0 hq0
    rcases hbusy with hsame | ⟨hnone, r, hr, hupd⟩
    · show d'.busy q.b = true
      rw [hsame]
      exact hold
    · show d'.busy q.b = true
      have hne : p' ≠ p := by
        rintro rfl
        rcases cont_update hp' with ⟨_, hc⟩ | ⟨hne, _⟩
        · rw [hnone] at hc
          cases hc
        · exact hne rfl
      have hb : q.b ≠ r.b := fun hb => hne (h.bufs hk0 hk hq0 hr hb)
      rw [hupd, update_of_ne hb]
      exact hold
  · obtain ⟨k0, hk0, hq0⟩ := hreqs hp' hq
    obtain ⟨k1, hk1, hq1⟩ := hreqs hp'' hq'
    exact h.bufs hk0 hk1 hq0 hq1 hb
  · rcases cont_update hp' with ⟨rfl, hc⟩ | ⟨hne, hold⟩
    · exact hknows k' hc
    · have hout := h.outer hl hne hold
      cases k' with
      | alloc q => exact trivial
      | wait q x => exact hothers hne hold
      | intr => exact trivial
      | _ => cases hout

theorem Linked.congr {desc desc' : Nat → Desc B} {l : List Nat} (h : Linked desc l)
    (hsame : ∀ i ∈ l, desc' i = desc i) : Linked desc' l := by
  induction l with
  | nil => exact trivial
  | cons i l ih =>
    have hi := hsame i (List.mem_cons_self ..)
    cases l with
    | nil =>
      show (desc' i).more = false
      rw [hi]
      exact h
    | cons j l =>
      obtain ⟨hmore, hnext, hrest⟩ := h
      refine ⟨?_, ?_, ih hrest fun m hm => hsame m (List.mem_cons_of_mem _ hm)⟩
      · rw [hi]
        exact hmore
      · rw [hi]
        exact hnext

/-- What a process that waits knows only depends on its own descriptors and its
own buffer. -/
theorem knows_wait (h : Knows d (.wait q x)) (hdesc : ∀ i ∈ x.list, d'.desc i = d.desc i)
    (hinfo : (d'.info x.i0).b = (d.info x.i0).b) (howner : d'.owner x.i0 = d.owner x.i0)
    (hflag : d'.flag q.b = d.flag q.b) (hseen : Seen d q → Seen d' q) : Knows d' (.wait q x) := by
  obtain ⟨⟨hlinked, haddr⟩, htrue, hfalse⟩ := h
  refine ⟨⟨hlinked.congr hdesc, ?_⟩, ?_, ?_⟩
  · rw [hdesc x.i2 (by simp [Idx.list])]
    exact haddr
  · rw [hflag, hinfo, howner]
    exact htrue
  · rw [hflag]
    exact fun hf => hseen (hfalse hf)

/-! ## §3 The rings -/

/-- A process at this place waits for the completion of the chain at `h`. -/
def Counts (d : Disk B) (h : Nat) : Place B → Prop
  | .wait q x => x.i0 = h ∧ d.flag q.b = true
  | _ => False

section

variable (v)

def Waiting (h : Nat) : Prop :=
  ∃ p k, v.cont p = some k ∧ Counts v.data h k

/-- The requests are in the avail ring (`A`), in the device, or in the used ring
(`V`); `l` is what the handler has just seen there. -/
structure Flow (l A V : List Nat) : Prop where
  avail : Ring v.data.availRing v.data.seen v.data.availIdx A
  used : Ring v.data.usedRing v.data.usedIdx v.data.usedTop (l ++ V)
  late : l = [] ∧ (∀ p, v.cont p ≠ some .scanned) ∨
    (∃ h, h < num ∧ l = [h]) ∧ ∃ p, v.cont p = some .scanned
  nodup : (l ++ (A ++ v.data.taken ++ V)).Nodup
  who : ∀ h, h ∈ A ++ v.data.taken ++ V ↔ Waiting v h
  status : ∀ h ∈ V, (v.data.info h).status = 0
  completed : v.data.completed = v.data.consumed ++ V.map v.data.owner
  posted : v.data.posted = v.data.fetched ++ A

structure Inv : Prop where
  places : Places v
  flow : ∃ l A V, Flow v l A V
  panic : v.data.panic = none

end

variable {l A V : List Nat} {h : Nat}

theorem num_dvd : num ∣ 2 ^ 16 := by decide

theorem num_lt : num < 2 ^ 16 := by decide

theorem length_le_num (hn : l.Nodup) (hlt : ∀ i ∈ l, i < num) : l.length ≤ num := by
  have hsub : l ⊆ List.range num := fun i hi => List.mem_range.mpr (hlt i hi)
  have hlen := (List.subperm_of_subset hn hsub).length_le
  rwa [List.length_range] at hlen

/-- The head of a chain that is waited for belongs to one process only. -/
theorem Places.waiting (hp : Places v) (hw : Waiting v h) :
    ∃ p q x, v.cont p = some (.wait q x) ∧ x.i0 = h ∧ v.data.flag q.b = true ∧ h < num := by
  obtain ⟨p, k, hk, hc⟩ := hw
  cases k with
  | wait q x =>
    obtain ⟨rfl, hf⟩ := hc
    exact ⟨p, q, x, hk, rfl, hf, hp.range hk (by simp [Place.held, Idx.list])⟩
  | _ => exact hc.elim

/-- There is room for the chains of all who wait. -/
theorem Flow.length_le (hf : Flow v l A V) (hp : Places v) :
    l.length + (A.length + v.data.taken.length + V.length) ≤ num := by
  have hlen := length_le_num hf.nodup fun i hi => by
    rcases List.mem_append.mp hi with hl | hrest
    · rcases hf.late with ⟨rfl, _⟩ | ⟨⟨h, hlt, rfl⟩, _⟩
      · cases hl
      · rw [List.mem_singleton.mp hl]
        exact hlt
    · obtain ⟨_, _, _, _, _, _, hlt⟩ := hp.waiting ((hf.who i).mp hrest)
      exact hlt
  simp only [List.length_append] at hlen
  omega

/-- The descriptors that are waited for are not those of another process. -/
theorem Places.waiting_ne (hp : Places v) (hk : v.cont p = some k) (hi : i ∈ k.held)
    (hno : ∀ h, ¬ Counts v.data h k) : ¬ Waiting v i := by
  intro hw
  obtain ⟨p', q, x, hp', hx, hflag, _⟩ := hp.waiting hw
  have hpp : p' = p := hp.apart hp' hk (by simp [Place.held, Idx.list, hx]) hi
  subst hpp
  rw [hk] at hp'
  cases hp'
  exact hno i ⟨hx, hflag⟩

/-- And for one more, that nobody waits for. -/
theorem Flow.length_lt (hf : Flow v l A V) (hp : Places v) (hk : v.cont p = some k)
    (hi : i ∈ k.held) (hno : ∀ h, ¬ Counts v.data h k) (hl : l = []) :
    A.length + v.data.taken.length + V.length < num := by
  subst hl
  have hfresh : i ∉ A ++ v.data.taken ++ V :=
    fun hmem => hp.waiting_ne hk hi hno ((hf.who i).mp hmem)
  have hnodup : (i :: (A ++ v.data.taken ++ V)).Nodup := List.nodup_cons.mpr ⟨hfresh, hf.nodup⟩
  have hlen := length_le_num hnodup fun j hj => by
    rcases List.mem_cons.mp hj with rfl | hj
    · exact hp.range hk hi
    · obtain ⟨_, _, _, _, _, _, hlt⟩ := hp.waiting ((hf.who j).mp hj)
      exact hlt
  simp only [List.length_cons, List.length_append] at hlen
  omega

/-! ## §4 Steps that leave the rings alone -/

/-- What the rings and the device have. -/
def Disk.rings (d : Disk B) :=
  (d.availRing, d.availIdx, d.usedRing, d.usedTop, d.usedIdx, d.seen, d.taken, d.posted, d.fetched,
    d.completed, d.consumed)

theorem Flow.congr {v' : Monitor.View n (Disk B) (Place B)} (hf : Flow v l A V)
    (hrings : v'.data.rings = v.data.rings)
    (hlate : ∀ p, v'.cont p = some .scanned ↔ v.cont p = some .scanned)
    (hwho : ∀ h, Waiting v' h ↔ Waiting v h)
    (hinfo : ∀ h, Waiting v h → (v'.data.info h).status = (v.data.info h).status ∧
      v'.data.owner h = v.data.owner h) : Flow v' l A V := by
  simp only [Disk.rings, Prod.mk.injEq] at hrings
  obtain ⟨har, hai, hur, hut, hui, hseen, htaken, hposted, hfetched, hcompleted, hconsumed⟩ :=
    hrings
  have hV : ∀ h ∈ V, Waiting v h := fun h hh => (hf.who h).mp (List.mem_append_right _ hh)
  refine ⟨?_, ?_, ?_, ?_, ?_, fun h hh => ?_, ?_, ?_⟩
  · rw [har, hseen, hai]
    exact hf.avail
  · rw [hur, hui, hut]
    exact hf.used
  · simp only [ne_eq, hlate]
    exact hf.late
  · rw [htaken]
    exact hf.nodup
  · intro h
    rw [htaken, hwho]
    exact hf.who h
  · rw [(hinfo h (hV h hh)).1]
    exact hf.status h hh
  · have hmap : V.map v'.data.owner = V.map v.data.owner :=
      List.map_congr_left fun h hh => (hinfo h (hV h hh)).2
    rw [hcompleted, hconsumed, hmap]
    exact hf.completed
  · rw [hposted, hfetched]
    exact hf.posted

/-- Who waits after a step of the holder of the lock: those that did, and the
process itself if it goes to wait. -/
theorem waiting_add (hk : v.cont p = some k) (hno : ∀ h, ¬ Counts v.data h k)
    (hflag : ∀ {p' q x}, p' ≠ p → v.cont p' = some (.wait q x) → d'.flag q.b = v.data.flag q.b)
    (h : Nat) : Waiting (v.after p (d', next)) h ↔
      Waiting v h ∨ ∃ k', next.cont = some k' ∧ Counts d' h k' := by
  have hsame : ∀ {p' k'}, p' ≠ p → v.cont p' = some k' → (Counts d' h k' ↔ Counts v.data h k') := by
    intro p' k' hne hp'
    cases k' with
    | wait q x =>
      show x.i0 = h ∧ d'.flag q.b = true ↔ _
      rw [hflag hne hp']
      rfl
    | _ => exact Iff.rfl
  constructor
  · rintro ⟨p', k', hp', hc⟩
    rcases cont_update hp' with ⟨rfl, hn⟩ | ⟨hne, hold⟩
    · exact .inr ⟨k', hn, hc⟩
    · exact .inl ⟨p', k', hold, (hsame hne hold).mp hc⟩
  · rintro (⟨p', k', hp', hc⟩ | ⟨k', hn, hc⟩)
    · have hne : p' ≠ p := by
        rintro rfl
        rw [hk] at hp'
        cases hp'
        exact hno h hc
      exact ⟨p', k', (update_of_ne hne ..).trans hp', (hsame hne hp').mpr hc⟩
    · exact ⟨p, k', (update_self ..).trans hn, hc⟩

/-- A step that has nothing to do with waiting. -/
theorem waiting_after (hk : v.cont p = some k) (hno : ∀ h, ¬ Counts v.data h k)
    (hno' : ∀ k' h, next.cont = some k' → ¬ Counts d' h k')
    (hflag : ∀ {p' q x}, p' ≠ p → v.cont p' = some (.wait q x) → d'.flag q.b = v.data.flag q.b)
    (h : Nat) : Waiting (v.after p (d', next)) h ↔ Waiting v h :=
  (waiting_add hk hno hflag h).trans (or_iff_left fun ⟨k', hn, hc⟩ => hno' k' h hn hc)

/-- The handler is at the end of a turn only if it has the lock. -/
theorem scanned_after (hk : v.cont p = some k) (hno : k ≠ .scanned)
    (hno' : next.cont ≠ some .scanned) (p' : Fin n) :
    (v.after p (d', next)).cont p' = some .scanned ↔ v.cont p' = some .scanned := by
  constructor
  · intro hp'
    rcases cont_update hp' with ⟨rfl, hn⟩ | ⟨_, hold⟩
    · exact absurd hn hno'
    · exact hold
  · intro hp'
    have hne : p' ≠ p := by
      rintro rfl
      rw [hk] at hp'
      exact hno (Option.some.inj hp')
    exact (update_of_ne hne ..).trans hp'

end Xv6.Virtio
