/-
Xv6.Fs.CacheTheorems — what the buffer cache guarantees.

`Cache view H P s`: every valid buffer has the contents that `view` gives
its block, no block is in two buffers, and a buffer is counted once for each
entry of `H` (who has called `bget`) and once if its block is in `P` (the
blocks the log has pinned). A buffer that is counted keeps its block.

§1 reading the cache, §2 the functions of `bio.c`, §3 the loops of `log.c`.
-/
import Mathlib.Data.List.Count
import Mathlib.Data.Fintype.Card
import Mathlib.Data.Fintype.EquivFin
import Xv6.Fs.Disk

namespace Xv6.Fs

open Xv6.Lib Function

/-! ## §1 The invariant -/

/-- Buffer `i` is for block `b`. -/
def DiskSys.Has (s : DiskSys) (i : Fin nbuf) (b : Nat) : Prop :=
  (s.buf i).dev = rootdev ∧ (s.buf i).blockno = b

/-- How often the buffer is counted. -/
def uses (H : List (Nat × Fin nbuf)) (P : List Nat) (i : Fin nbuf) (x : Buf) : Nat :=
  H.countP (fun h => h.2 = i) + if x.dev = rootdev ∧ x.blockno ∈ P then 1 else 0

structure Cache (view : Nat → Block) (H : List (Nat × Fin nbuf)) (P : List Nat)
    (s : DiskSys) : Prop where
  mem : ∀ i, i ∈ s.order
  uniq : ∀ {i j b}, s.Has i b → s.Has j b → i = j
  data : ∀ {i b}, s.Has i b → (s.buf i).valid = true → (s.buf i).data = view b
  count : ∀ i, (s.buf i).refcnt = uses H P i (s.buf i)
  owner : ∀ {i p}, (s.buf i).owner = some p → (p, i) ∈ H ∧ (s.buf i).valid = true
  pinned : ∀ b ∈ P, ∃ i, s.Has i b ∧ (s.buf i).valid = true

variable {view : Nat → Block} {H : List (Nat × Fin nbuf)} {P : List Nat} {s s' : DiskSys}
  {i j : Fin nbuf} {x : Buf} {b p : Nat} {E : Panic → Prop} {H' : List (Nat × Fin nbuf)}
  {s'' : DiskSys}

section State

@[simp] theorem DiskSys.setBuf_disk : (s.setBuf i x).disk = s.disk := rfl

theorem DiskSys.setBuf_same : (s.setBuf i x).buf i = x := update_self ..

theorem DiskSys.setBuf_ne (h : j ≠ i) : (s.setBuf i x).buf j = s.buf j := update_of_ne h ..

theorem DiskSys.setBuf_setBuf {y : Buf} : (s.setBuf i x).setBuf i y = s.setBuf i y := by
  simp only [DiskSys.setBuf, update_idem]

theorem DiskSys.has_same : (s.setBuf i x).Has i b ↔ x.dev = rootdev ∧ x.blockno = b := by
  rw [DiskSys.Has, DiskSys.setBuf_same]

theorem DiskSys.has_ne (h : j ≠ i) : (s.setBuf i x).Has j b ↔ s.Has j b := by
  rw [DiskSys.Has, DiskSys.setBuf_ne h, DiskSys.Has]

end State

theorem DiskSys.cached_some (h : s.cached b = some i) : s.Has i b := by
  have := List.find?_some h
  simpa [DiskSys.Has] using this

theorem Cache.cached_none (h : Cache view H P s) (hn : s.cached b = none) : ¬ s.Has i b := by
  have := List.find?_eq_none.mp hn i (h.mem i)
  simpa [DiskSys.Has] using this

theorem Cache.unusedBuf_none (h : Cache view H P s) (hn : s.unusedBuf = none) :
    (s.buf i).refcnt ≠ 0 := by
  have := List.find?_eq_none.mp hn i (List.mem_reverse.mpr (h.mem i))
  simpa using this

theorem DiskSys.unusedBuf_some (h : s.unusedBuf = some i) : (s.buf i).refcnt = 0 := by
  have := List.find?_some h
  simpa using this

theorem uses_cons (h : Nat × Fin nbuf) :
    uses (h :: H) P i x = uses H P i x + if h.2 = i then 1 else 0 := by
  unfold uses
  rw [List.countP_cons]
  simp only [decide_eq_true_eq]
  omega

section

variable (h : Cache view H P s)
include h

/-- A buffer that is not counted is nobody's. -/
theorem Cache.free (h0 : (s.buf i).refcnt = 0) : (∀ h ∈ H, h.2 ≠ i) ∧ ∀ b, s.Has i b → b ∉ P := by
  rw [h.count i, uses, Nat.add_eq_zero_iff] at h0
  obtain ⟨hH, hP⟩ := h0
  refine ⟨fun e he hei => ?_, fun b hb hbP => ?_⟩
  · have := List.countP_eq_zero.mp hH e he
    simp [hei] at this
  · rw [if_pos ⟨hb.1, hb.2 ▸ hbP⟩] at hP
    cases hP

/-- A buffer somebody has called `bget` for is counted. -/
theorem Cache.used (hi : (p, i) ∈ H) : (s.buf i).refcnt ≠ 0 := fun h0 => (h.free h0).1 _ hi rfl

/-- Replace buffer `i`: what is left to check about it. -/
theorem Cache.set {view' : Nat → Block} {P' : List Nat}
    (hdev : x.dev = rootdev) (hb : x.blockno = b) (hother : ∀ j, j ≠ i → ¬ s.Has j b)
    (hview : ∀ {j c}, j ≠ i → s.Has j c → (s.buf j).valid = true → view' c = view c)
    (hdata : x.valid = true → x.data = view' b) (hcount : x.refcnt = uses H' P' i x)
    (huses : ∀ j, j ≠ i → uses H' P' j (s.buf j) = uses H P j (s.buf j))
    (howner : ∀ {p}, x.owner = some p → (p, i) ∈ H' ∧ x.valid = true)
    (hH : ∀ {p j}, j ≠ i → (p, j) ∈ H → (p, j) ∈ H')
    (hpinned : ∀ c ∈ P', c = b ∧ x.valid = true ∨ ∃ j, j ≠ i ∧ s.Has j c ∧ (s.buf j).valid = true) :
    Cache view' H' P' (s.setBuf i x) where
  mem := h.mem
  uniq := by
    intro j k c hj hk
    by_cases ej : j = i <;> by_cases ek : k = i
    · rw [ej, ek]
    · subst ej
      rw [DiskSys.has_same] at hj
      rw [DiskSys.has_ne ek] at hk
      exact absurd (hb ▸ hj.2 ▸ hk) (hother k ek)
    · subst ek
      rw [DiskSys.has_same] at hk
      rw [DiskSys.has_ne ej] at hj
      exact absurd (hb ▸ hk.2 ▸ hj) (hother j ej)
    · rw [DiskSys.has_ne ej] at hj
      rw [DiskSys.has_ne ek] at hk
      exact h.uniq hj hk
  data := by
    intro j c hj hv
    by_cases e : j = i
    · subst e
      rw [DiskSys.has_same] at hj
      rw [DiskSys.setBuf_same] at hv ⊢
      rw [hdata hv, ← hj.2, hb]
    · rw [DiskSys.has_ne e] at hj
      rw [DiskSys.setBuf_ne e] at hv ⊢
      rw [h.data hj hv, hview e hj hv]
  count := by
    intro j
    by_cases e : j = i
    · subst e
      rw [DiskSys.setBuf_same, hcount]
    · rw [DiskSys.setBuf_ne e, h.count, huses j e]
  owner := by
    intro j q hq
    by_cases e : j = i
    · subst e
      rw [DiskSys.setBuf_same] at hq ⊢
      exact howner hq
    · rw [DiskSys.setBuf_ne e] at hq ⊢
      exact ⟨hH e (h.owner hq).1, (h.owner hq).2⟩
  pinned := by
    intro c hc
    rcases hpinned c hc with ⟨rfl, hv⟩ | ⟨j, e, hj, hv⟩
    · exact ⟨i, DiskSys.has_same.mpr ⟨hdev, hb⟩, by rw [DiskSys.setBuf_same]; exact hv⟩
    · exact ⟨j, (DiskSys.has_ne e).mpr hj, by rw [DiskSys.setBuf_ne e]; exact hv⟩

/-- The blocks pinned by others stay where they are. -/
theorem Cache.pinned_ne (hi : s.Has i b) {c : Nat} (hc : c ∈ P)
    (hne : c ≠ b) : ∃ j, j ≠ i ∧ s.Has j c ∧ (s.buf j).valid = true := by
  obtain ⟨j, hj, hv⟩ := h.pinned c hc
  refine ⟨j, ?_, hj, hv⟩
  rintro rfl
  exact hne (hj.2.symm.trans hi.2)

theorem Cache.others (hi : s.Has i b) (j : Fin nbuf) (hj : j ≠ i) :
    ¬ s.Has j b := fun hb => hj (h.uniq hb hi)

/-- A pinned block is in its valid buffer. -/
theorem Cache.pinned_valid (hi : s.Has i b) (hb : b ∈ P) : (s.buf i).valid = true := by
  obtain ⟨j, hj, hv⟩ := h.pinned b hb
  rwa [h.uniq hj hi] at hv

end

/-! ## §2 The functions -/

/-- What `bget` does to buffer `i`. -/
structure Got (s : DiskSys) (i : Fin nbuf) (x : Buf) (b : Nat) : Prop where
  dev : x.dev = rootdev
  blockno : x.blockno = b
  owner : x.owner = (s.buf i).owner
  from_ : s.Has i b ∧ x.valid = (s.buf i).valid ∨
    (s.buf i).refcnt = 0 ∧ x.valid = false ∧ ∀ j, ¬ s.Has j b

theorem bget_spec (h : Cache view H P s) (p : Nat)
    (hE : E .noBuffers ∨ ∃ j, (s.buf j).refcnt = 0 ∨ s.Has j b) :
    Meets E (bget b) s fun i s' =>
      ∃ x, s' = s.setBuf i x ∧ Got s i x b ∧ Cache view ((p, i) :: H) P s' := by
  refine meets_read ?_
  cases hc : s.cached b with
  | some i =>
    have hi := DiskSys.cached_some hc
    refine meets_update (meets_pure ⟨_, rfl, ⟨hi.1, hi.2, rfl, .inl ⟨hi, rfl⟩⟩, ?_⟩)
    refine h.set hi.1 hi.2 (h.others hi) (fun _ _ _ => rfl) (fun hv => h.data hi hv) ?_
      (fun j hj => ?_) (fun hq => ⟨List.mem_cons_of_mem _ (h.owner hq).1, (h.owner hq).2⟩)
      (fun _ hm => List.mem_cons_of_mem _ hm) (fun c hcP => ?_)
    · show (s.buf i).refcnt + 1 = _
      rw [uses_cons, if_pos rfl, h.count]
      rfl
    · rw [uses_cons, if_neg (Ne.symm hj), Nat.add_zero]
    · by_cases e : c = b
      · subst e
        exact .inl ⟨rfl, h.pinned_valid hi hcP⟩
      · exact .inr (h.pinned_ne hi hcP e)
  | none =>
    have hno : ∀ j, ¬ s.Has j b := fun j => h.cached_none hc
    cases hu : s.unusedBuf with
    | none =>
      refine meets_throw (hE.resolve_right ?_)
      rintro ⟨j, hj | hj⟩
      · exact h.unusedBuf_none hu hj
      · exact hno j hj
    | some i =>
      have h0 := DiskSys.unusedBuf_some hu
      obtain ⟨hfree, hnp⟩ := h.free h0
      refine meets_update (meets_pure
        ⟨_, rfl, ⟨rfl, rfl, rfl, .inr ⟨h0, rfl, hno⟩⟩, ?_⟩)
      have hbP : b ∉ P := fun hb => by
        obtain ⟨j, hj, -⟩ := h.pinned b hb
        exact hno j hj
      refine h.set rfl rfl (fun j _ => hno j) (fun _ _ _ => rfl) (fun hv => by cases hv) ?_
        (fun j hj => ?_) (fun hq => absurd rfl (hfree _ (h.owner hq).1))
        (fun _ hm => List.mem_cons_of_mem _ hm) (fun c hcP => .inr ?_)
      · have hzero : H.countP (fun h => h.2 = i) = 0 :=
          List.countP_eq_zero.mpr fun e he => by simpa using hfree e he
        rw [uses_cons, if_pos rfl, uses, hzero, if_neg fun hx => hbP hx.2]
      · rw [uses_cons, if_neg (Ne.symm hj), Nat.add_zero]
      · obtain ⟨j, hj, hv⟩ := h.pinned c hcP
        refine ⟨j, ?_, hj, hv⟩
        rintro rfl
        exact hnp c hj hcP

/-- Buffer `i` is locked by `p` and has block `b`. -/
structure Locks (s : DiskSys) (p : Nat) (i : Fin nbuf) (b : Nat) : Prop where
  has : s.Has i b
  owner : (s.buf i).owner = some p
  valid : (s.buf i).valid = true

theorem lockBuf_spec (h : Cache view H P s) (hi : s.Has i b) (hp : (p, i) ∈ H)
    (hview : (s.buf i).valid = true ∨ s.disk b = view b) :
    Total (lockBuf p i) s fun _ s' =>
      ∃ x, s' = s.setBuf i x ∧ Locks s' p i b ∧ Cache view H P s' := by
  have key : ∀ x : Buf, x.dev = (s.buf i).dev → x.blockno = (s.buf i).blockno →
      x.refcnt = (s.buf i).refcnt → x.owner = some p → x.valid = true → x.data = view b →
      Locks (s.setBuf i x) p i b ∧ Cache view H P (s.setBuf i x) := by
    intro x h1 h2 h3 h4 h5 h6
    have hx : x.dev = rootdev ∧ x.blockno = b := ⟨h1.trans hi.1, h2.trans hi.2⟩
    refine ⟨⟨DiskSys.has_same.mpr hx, by rw [DiskSys.setBuf_same, h4],
      by rw [DiskSys.setBuf_same, h5]⟩, ?_⟩
    refine h.set hx.1 hx.2 (h.others hi) (fun _ _ _ => rfl) (fun _ => h6) ?_ (fun _ _ => rfl)
      (fun hq => ?_) (fun _ hm => hm) (fun c hcP => ?_)
    · rw [h3, h.count, uses, uses, h1, h2]
    · rw [h4] at hq
      cases hq
      exact ⟨hp, h5⟩
    · by_cases e : c = b
      · exact .inl ⟨e, h5⟩
      · exact .inr (h.pinned_ne hi hcP e)
  refine meets_read (meets_modify ⟨_, rfl, ?_⟩)
  dsimp only
  by_cases hv : (s.buf i).valid = true
  · rw [if_pos hv]
    exact key _ rfl rfl rfl rfl hv (h.data hi hv)
  · rw [if_neg hv]
    exact key _ rfl rfl rfl rfl rfl (by rw [hi.2]; exact hview.resolve_left hv)

/-- The buffers that are in use keep their blocks. -/
def Keeps (H : List (Nat × Fin nbuf)) (s s' : DiskSys) : Prop :=
  ∀ p i b, (p, i) ∈ H → s.Has i b → s'.Has i b

/-- All buffers keep their blocks. -/
def Fixed (s s' : DiskSys) : Prop := ∀ i b, s.Has i b → s'.Has i b

theorem Keeps.trans (h : Keeps H s s') (h' : Keeps H s' s'') : Keeps H s s'' :=
  fun p i b hp hb => h' p i b hp (h p i b hp hb)

theorem Keeps.mono (h : Keeps H' s s') (hsub : ∀ e ∈ H, e ∈ H') :
    Keeps H s s' := fun p i b hp hb => h p i b (hsub _ hp) hb

theorem Fixed.keeps (h : Fixed s s') : Keeps H s s' := fun _ i b _ hb => h i b hb

theorem Fixed.trans (h : Fixed s s') (h' : Fixed s' s'') : Fixed s s'' :=
  fun i b hb => h' i b (h i b hb)

theorem Fixed.setBuf (s : DiskSys) (i : Fin nbuf) (x : Buf) (hdev : x.dev = (s.buf i).dev)
    (hb : x.blockno = (s.buf i).blockno) : Fixed s (s.setBuf i x) := by
  intro j c hj
  by_cases e : j = i
  · subst e
    rw [DiskSys.has_same, hdev, hb]
    exact hj
  · exact (DiskSys.has_ne e).mpr hj

theorem bread_spec (h : Cache view H P s) (p : Nat)
    (hE : E .noBuffers ∨ ∃ j, (s.buf j).refcnt = 0 ∨ s.Has j b)
    (hview : s.disk b = view b ∨ b ∈ P) :
    Meets E (bread p b) s fun i s' =>
      ∃ x, s' = s.setBuf i x ∧ Locks s' p i b ∧ Cache view ((p, i) :: H) P s' ∧
        ((s.buf i).refcnt = 0 ∨ s.Has i b) ∧ Keeps H s s' := by
  refine Meets.seq (bget_spec h p hE) ?_
  rintro i s1 ⟨x, rfl, hgot, h1⟩
  have hi : (s.setBuf i x).Has i b := DiskSys.has_same.mpr ⟨hgot.dev, hgot.blockno⟩
  have hv : ((s.setBuf i x).buf i).valid = true ∨ (s.setBuf i x).disk b = view b := by
    rcases hview with hview | hb
    · exact .inr hview
    · exact .inl (h1.pinned_valid hi hb)
  refine Meets.seq (lockBuf_spec h1 hi (List.mem_cons_self ..) hv).meets ?_
  rintro - s2 ⟨y, rfl, hl, h2⟩
  have hfrom : (s.buf i).refcnt = 0 ∨ s.Has i b := by
    rcases hgot.from_ with ⟨hh, -⟩ | ⟨h0, -⟩
    · exact .inr hh
    · exact .inl h0
  refine meets_pure ⟨y, DiskSys.setBuf_setBuf, hl, h2, hfrom, ?_⟩
  intro q j c hq hj
  by_cases e : j = i
  · subst e
    rcases hfrom with h0 | hh
    · exact absurd h0 (h.used hq)
    · rw [← hj.2, hh.2]
      exact hl.has
  · rw [DiskSys.setBuf_setBuf]
    exact (DiskSys.has_ne e).mpr hj

/-- New contents for a buffer. -/
theorem Cache.write (h : Cache view H P s) (hi : s.Has i b) (d : Block) :
    Cache (update view b d) H P (s.setBuf i { s.buf i with data := d }) := by
  refine h.set hi.1 hi.2 (h.others hi) (fun {j c} hj hc _ => ?_)
    (fun _ => (update_self b d view).symm) (h.count i) (fun _ _ => rfl) h.owner
    (fun _ hm => hm) (fun c hcP => ?_)
  · refine update_of_ne ?_ _ _
    rintro rfl
    exact h.others hi j hj hc
  · by_cases e : c = b
    · subst e
      exact .inl ⟨rfl, h.pinned_valid hi hcP⟩
    · exact .inr (h.pinned_ne hi hcP e)

/-- The cache does not depend on the disk. -/
theorem Cache.disk (h : Cache view H P s) (d : Nat → Block) :
    Cache view H P { s with disk := d } := ⟨h.mem, h.uniq, h.data, h.count, h.owner, h.pinned⟩

theorem Locks.setBuf_ne (h : Locks s p i b) (hne : i ≠ j) : Locks (s.setBuf j x) p i b :=
  ⟨(DiskSys.has_ne hne).mpr h.has, by rw [DiskSys.setBuf_ne hne]; exact h.owner,
    by rw [DiskSys.setBuf_ne hne]; exact h.valid⟩

/-- The parts of the state that the cache does not touch. -/
structure Rest (s s' : DiskSys) : Prop where
  held : s'.held = s.held
  ls : s'.ls = s.ls
  stage : s'.stage = s.stage
  hist : s'.hist = s.hist

theorem Rest.refl : Rest s s := ⟨rfl, rfl, rfl, rfl⟩

theorem Rest.trans (h : Rest s s') (h' : Rest s' s'') : Rest s s'' :=
  ⟨h'.held.trans h.held, h'.ls.trans h.ls, h'.stage.trans h.stage, h'.hist.trans h.hist⟩

theorem Cache.order (h : Cache view H P s) {o : List (Fin nbuf)} (ho : ∀ i, i ∈ o) :
    Cache view H P { s with order := o } := ⟨ho, h.uniq, h.data, h.count, h.owner, h.pinned⟩

theorem countP_erase (hi : (p, i) ∈ H) (j : Fin nbuf) :
    (H.erase (p, i)).countP (fun h => h.2 = j) + (if i = j then 1 else 0) =
      H.countP (fun h => h.2 = j) := by
  have hperm := (List.perm_cons_erase hi).countP_eq (fun h => decide (h.2 = j))
  rw [hperm, List.countP_cons]
  simp

/-- Give the lock and the reference back. -/
theorem brelse_spec (h : Cache view H P s) (hl : Locks s p i b) :
    Total (brelse p i) s fun _ s' =>
      Cache view (H.erase (p, i)) P s' ∧ s'.disk = s.disk ∧ Rest s s' ∧
        (∀ j, j ≠ i → s'.buf j = s.buf j) ∧ Fixed s s' := by
  have hp : (p, i) ∈ H := (h.owner hl.owner).1
  have hi := hl.has
  refine meets_read ?_
  refine meets_ite (fun hne => absurd hl.owner hne) (fun _ => ?_)
  have hset : Cache view (H.erase (p, i)) P
      (s.setBuf i { s.buf i with owner := none, refcnt := (s.buf i).refcnt - 1 }) := by
    refine h.set hi.1 hi.2 (h.others hi) (fun _ _ _ => rfl) (fun hv => h.data hi hv) ?_
      (fun j hj => ?_) (fun hq => by cases hq) (fun {q j} hj hm => ?_) (fun c hcP => ?_)
    · have := countP_erase hp i
      rw [if_pos rfl] at this
      rw [h.count]
      unfold uses
      dsimp only
      omega
    · have := countP_erase hp j
      rw [if_neg (Ne.symm hj)] at this
      unfold uses
      omega
    · refine (List.mem_erase_of_ne ?_).mpr hm
      intro e
      exact hj (Prod.mk.inj e).2
    · by_cases e : c = b
      · subst e
        exact .inl ⟨rfl, h.pinned_valid hi hcP⟩
      · exact .inr (h.pinned_ne hi hcP e)
  have hkeep := Fixed.setBuf s i
    { s.buf i with owner := none, refcnt := (s.buf i).refcnt - 1 } rfl rfl
  refine meets_ite (fun _ => meets_set ?_) (fun _ => meets_set ?_)
  · refine ⟨hset.order fun j => ?_, rfl, ⟨rfl, rfl, rfl, rfl⟩,
      fun j hj => DiskSys.setBuf_ne hj, hkeep⟩
    by_cases e : j = i
    · subst e
      exact List.mem_cons_self ..
    · exact List.mem_cons_of_mem _ ((List.mem_erase_of_ne e).mpr (h.mem j))
  · exact ⟨hset, rfl, ⟨rfl, rfl, rfl, rfl⟩, fun j hj => DiskSys.setBuf_ne hj, hkeep⟩

theorem bwrite_spec (hl : Locks s p i b) :
    Total (bwrite p i) s fun _ s' => s' = { s with disk := update s.disk b (s.buf i).data } := by
  refine meets_read ?_
  refine meets_ite (fun hne => absurd hl.owner hne) (fun _ => meets_set ?_)
  rw [hl.has.2]

/-- Block `b` is pinned now or no longer. -/
theorem Cache.repin {P' : List Nat} {n : Nat} (h : Cache view H P s) (hi : s.Has i b)
    (hmem : ∀ c, c ≠ b → (c ∈ P' ↔ c ∈ P))
    (hn : n = H.countP (fun h => h.2 = i) + if b ∈ P' then 1 else 0)
    (hv : b ∈ P' → (s.buf i).valid = true) :
    Cache view H P' (s.setBuf i { s.buf i with refcnt := n }) := by
  refine h.set hi.1 hi.2 (h.others hi) (fun _ _ _ => rfl) (fun hv => h.data hi hv) ?_
    (fun j hj => ?_) h.owner (fun _ hm => hm) (fun c hcP => ?_)
  · simpa [uses, hi.1, hi.2] using hn
  · have hiff : (s.buf j).dev = rootdev ∧ (s.buf j).blockno ∈ P' ↔
        (s.buf j).dev = rootdev ∧ (s.buf j).blockno ∈ P :=
      and_congr_right fun hd => hmem _ fun e => h.others hi j hj ⟨hd, e⟩
    rw [uses, uses, if_congr hiff rfl rfl]
  · by_cases e : c = b
    · exact .inl ⟨e, hv (e ▸ hcP)⟩
    · exact .inr (h.pinned_ne hi ((hmem c e).mp hcP) e)

/-- One count more for a block that the log pins. -/
theorem Cache.pin (h : Cache view H P s) (hi : s.Has i b) (hv : (s.buf i).valid = true)
    (hb : b ∉ P) :
    Cache view H (P ++ [b]) (s.setBuf i { s.buf i with refcnt := (s.buf i).refcnt + 1 }) := by
  refine h.repin hi (fun c hc => by simp [hc]) ?_ fun _ => hv
  rw [h.count, uses, if_neg (by rw [hi.2]; exact fun hx => hb hx.2), if_pos (by simp)]

theorem Cache.unpin (h : Cache view H (b :: P) s) (hi : s.Has i b) (hb : b ∉ P) :
    Cache view H P (s.setBuf i { s.buf i with refcnt := (s.buf i).refcnt - 1 }) := by
  refine h.repin hi (fun c hc => by simp [hc]) ?_ fun hx => absurd hx hb
  rw [h.count, uses, if_pos ⟨hi.1, by rw [hi.2]; simp⟩, if_neg hb]
  rfl

/-! ## §3 The loops of the log -/

/-- Fewer uses than buffers leave a buffer free. -/
theorem Cache.room (h : Cache view H P s) (hlt : P.length + H.length < nbuf) :
    ∃ j, (s.buf j).refcnt = 0 ∨ s.Has j b := by
  by_contra hno
  have hcover : (Finset.univ : Finset (Fin nbuf)) ⊆ (H.map Prod.snd).toFinset ∪
        Finset.univ.filter fun j => (s.buf j).dev = rootdev ∧ (s.buf j).blockno ∈ P := by
    intro j _
    rw [Finset.mem_union, List.mem_toFinset, Finset.mem_filter]
    by_contra hj
    rw [not_or, not_and] at hj
    refine hno ⟨j, .inl ?_⟩
    rw [h.count, uses, if_neg (hj.2 (Finset.mem_univ j)), Nat.add_zero, List.countP_eq_zero]
    intro e he
    simp only [decide_eq_true_eq]
    rintro rfl
    exact hj.1 (List.mem_map_of_mem he)
  have hpins : (Finset.univ.filter fun j =>
      (s.buf j).dev = rootdev ∧ (s.buf j).blockno ∈ P).card ≤ P.toFinset.card := by
    refine Finset.card_le_card_of_injOn (fun j => (s.buf j).blockno) (fun j hj => ?_) ?_
    · rw [Finset.mem_coe, Finset.mem_filter] at hj
      exact List.mem_toFinset.mpr hj.2.2
    · intro j hj k hk e
      rw [Finset.mem_coe, Finset.mem_filter] at hj hk
      exact h.uniq ⟨hj.2.1, rfl⟩ ⟨hk.2.1, e.symm⟩
  have hcard := (Finset.card_le_card hcover).trans (Finset.card_union_le _ _)
  rw [Finset.card_univ, Fintype.card_fin] at hcard
  have h1 := List.toFinset_card_le (H.map Prod.snd)
  have h2 := List.toFinset_card_le P
  rw [List.length_map] at h1
  omega

/-- There are buffers for a log block and for block `b`. -/
def RoomFor (H : List (Nat × Fin nbuf)) (P : List Nat) (b : Nat) : Prop :=
  P.length + H.length < nbuf ∧ (b ∈ P ∨ P.length + H.length + 1 < nbuf)

variable {c : Nat}

/-- The two calls of `bread` at the start of both loops. -/
theorem bread_two (h : Cache view H P s) (p : Nat) (hcb : c ≠ b)
    (hE : E .noBuffers ∨ RoomFor H P b) (hc : s.disk c = view c)
    (hb : s.disk b = view b ∨ b ∈ P) {α : Type} {k : Fin nbuf → Fin nbuf → DM α}
    {Q : α → DiskSys → Prop}
    (hk : ∀ i j s', i ≠ j → Locks s' p i c → Locks s' p j b →
      Cache view ((p, j) :: (p, i) :: H) P s' → s'.disk = s.disk → Rest s s' → Keeps H s s' →
      Meets E (k i j) s' Q) :
    Meets E (do
      let i ← bread p c
      let j ← bread p b
      k i j) s Q := by
  refine Meets.seq (bread_spec h p (hE.imp id fun hr => h.room hr.1) (.inl hc)) ?_
  rintro i s1 ⟨x, rfl, hl1, h1, -, hk1⟩
  refine Meets.seq (bread_spec h1 p (hE.imp id fun hr => ?_) hb) ?_
  · rcases hr.2 with hbP | hlt
    · obtain ⟨j, hj, -⟩ := h1.pinned b hbP
      exact ⟨j, .inr hj⟩
    · exact h1.room (by rw [List.length_cons]; omega)
  rintro j s2 ⟨y, rfl, hl2, h2, hfrom, hk2⟩
  have hij : i ≠ j := by
    rintro rfl
    rcases hfrom with h0 | hh
    · exact h1.used (List.mem_cons_self ..) h0
    · exact hcb (hl1.has.2.symm.trans hh.2)
  exact hk i j _ hij (hl1.setBuf_ne hij) hl2 h2 rfl ⟨rfl, rfl, rfl, rfl⟩
    (hk1.trans (hk2.mono fun e he => List.mem_cons_of_mem _ he))

theorem Locks.write (h : Locks s p i b) (d : Block) :
    Locks (s.setBuf i { s.buf i with data := d }) p i b :=
  ⟨DiskSys.has_same.mpr h.has, by rw [DiskSys.setBuf_same]; exact h.owner,
    by rw [DiskSys.setBuf_same]; exact h.valid⟩

theorem Locks.disk (h : Locks s p i b) (d : Nat → Block) : Locks { s with disk := d } p i b :=
  ⟨h.has, h.owner, h.valid⟩

theorem Locks.congr (h : Locks s p i b) (he : s'.buf i = s.buf i) : Locks s' p i b := by
  refine ⟨?_, he ▸ h.owner, he ▸ h.valid⟩
  rw [DiskSys.Has, he]
  exact h.has

/-- Copy one buffer to another and write that one. -/
theorem copy_write (h : Cache view H P s) (hi : Locks s p i c) (hj : Locks s p j b)
    (hij : i ≠ j) {α : Type} {k : DM α} {Q : α → DiskSys → Prop}
    (hk : ∀ s', Locks s' p i c → Locks s' p j b → Cache (update view c (view b)) H P s' →
      s'.disk = update s.disk c (view b) → Rest s s' → Fixed s s' → Meets E k s' Q) :
    Meets E (do
      copyBuf i j
      bwrite p i
      k) s Q := by
  have hdata : (s.buf j).data = view b := h.data hj.has hj.valid
  refine Meets.bind (meets_read (meets_modify ?_))
  rw [hdata]
  have hi' := hi.write (view b)
  refine Meets.seq (bwrite_spec hi').meets ?_
  rintro - s1 rfl
  refine hk _ (hi'.disk _) ((hj.setBuf_ne (Ne.symm hij)).disk _) ((h.write hi.has _).disk _) ?_
    ⟨rfl, rfl, rfl, rfl⟩ (Fixed.setBuf s i { s.buf i with data := view b } rfl rfl)
  show update s.disk c ((s.setBuf i _).buf i).data = _
  rw [DiskSys.setBuf_same]

/-- Release two buffers. -/
theorem brelse_two (h : Cache view H P s) (hi : Locks s p i c) (hj : Locks s p j b)
    (hij : i ≠ j) :
    Total (do
      brelse p i
      brelse p j) s fun _ s' =>
        Cache view ((H.erase (p, i)).erase (p, j)) P s' ∧ s'.disk = s.disk ∧ Rest s s' ∧
          Fixed s s' := by
  refine Meets.seq (brelse_spec h hi) ?_
  rintro - s1 ⟨h1, hd1, hr1, hbuf, hk1⟩
  refine (brelse_spec h1 (hj.congr (hbuf j (Ne.symm hij)))).imp ?_
  rintro - s2 ⟨h2, hd2, hr2, -, hk2⟩
  exact ⟨h2, hd2.trans hd1, hr1.trans hr2, hk1.trans hk2⟩

variable (L : LogLayout) {tail : Nat}

theorem writeLogBlock_spec (h : Cache view H P s) (p : Nat) (hcb : L.logstart + tail + 1 ≠ b)
    (hE : E .noBuffers ∨ RoomFor H P b)
    (hc : s.disk (L.logstart + tail + 1) = view (L.logstart + tail + 1))
    (hb : s.disk b = view b ∨ b ∈ P) :
    Meets E (writeLogBlock L p tail b) s fun _ s' =>
      Cache (update view (L.logstart + tail + 1) (view b)) H P s' ∧
        s'.disk = update s.disk (L.logstart + tail + 1) (view b) ∧ Rest s s' ∧ Keeps H s s' := by
  refine bread_two h p hcb hE hc hb fun i j s1 hij hi hj h1 hd1 hr1 hk1 => ?_
  refine copy_write h1 hi hj hij fun s2 hi2 hj2 h2 hd2 hr2 hk2 => ?_
  refine (brelse_two h2 hj2 hi2 (Ne.symm hij)).meets.imp ?_
  rintro - s3 ⟨h3, hd3, hr3, hk3⟩
  rw [List.erase_cons_head, List.erase_cons_head] at h3
  exact ⟨h3, by rw [hd3, hd2, hd1], (hr1.trans hr2).trans hr3, hk1.trans (hk2.trans hk3).keeps⟩

theorem erase_second (hij : i ≠ j) : ((((p, j) :: (p, i) :: H).erase (p, i)).erase (p, j)) = H := by
  rw [List.erase_cons_tail (by simpa using Ne.symm hij), List.erase_cons_head, List.erase_cons_head]

/-- In recovery the pins stay; in a commit, block `b` is unpinned. -/
theorem installBlock_spec {P' : List Nat} (h : Cache view H P s) (p : Nat) {recovering : Bool}
    (hP : recovering = true ∧ P' = P ∨ recovering = false ∧ P = b :: P' ∧ b ∉ P')
    (hcb : L.logstart + tail + 1 ≠ b) (hE : E .noBuffers ∨ RoomFor H P b)
    (hc : s.disk (L.logstart + tail + 1) = view (L.logstart + tail + 1))
    (hb : s.disk b = view b ∨ b ∈ P) :
    Meets E (installBlock L p recovering tail b) s fun _ s' =>
      Cache (update view b (view (L.logstart + tail + 1))) H P' s' ∧
        s'.disk = update s.disk b (view (L.logstart + tail + 1)) ∧ Rest s s' ∧
        Keeps H s s' := by
  refine bread_two h p hcb hE hc hb fun i j s1 hij hi hj h1 hd1 hr1 hk1 => ?_
  refine copy_write h1 hj hi (Ne.symm hij) fun s2 hj2 hi2 h2 hd2 hr2 hk2 => ?_
  rcases hP with ⟨rfl, rfl⟩ | ⟨rfl, rfl, hb'⟩
  · refine (brelse_two h2 hi2 hj2 hij).meets.imp ?_
    rintro - s3 ⟨h3, hd3, hr3, hk3⟩
    rw [erase_second hij] at h3
    exact ⟨h3, by rw [hd3, hd2, hd1], (hr1.trans hr2).trans hr3, hk1.trans (hk2.trans hk3).keeps⟩
  · refine meets_update ?_
    have hj3 : Locks (s2.setBuf j { s2.buf j with refcnt := (s2.buf j).refcnt - 1 }) p j b :=
      ⟨DiskSys.has_same.mpr hj2.has, by rw [DiskSys.setBuf_same]; exact hj2.owner,
        by rw [DiskSys.setBuf_same]; exact hj2.valid⟩
    have hk2' := Fixed.setBuf s2 j { s2.buf j with refcnt := (s2.buf j).refcnt - 1 } rfl rfl
    refine (brelse_two (h2.unpin hj2.has hb') (hi2.setBuf_ne hij) hj3 hij).meets.imp ?_
    rintro - s3 ⟨h3, hd3, hr3, hk3⟩
    rw [erase_second hij] at h3
    exact ⟨h3, by rw [hd3]; exact hd2.trans (by rw [hd1]),
      (hr1.trans hr2).trans ⟨hr3.held, hr3.ls, hr3.stage, hr3.hist⟩,
      hk1.trans ((hk2.trans hk2').trans hk3).keeps⟩

theorem writeHead_spec (h : Cache view H P s) (p : Nat) (lh : List Nat)
    (hE : E .noBuffers ∨ P.length + H.length < nbuf)
    (hc : s.disk L.logstart = view L.logstart) :
    Meets E (writeHead L p lh) s fun _ s' =>
      Cache (update view L.logstart (headBlock lh (view L.logstart))) H P s' ∧
        s'.disk = update s.disk L.logstart (headBlock lh (view L.logstart)) ∧ Rest s s' ∧
        Keeps H s s' := by
  refine Meets.seq (bread_spec h p (hE.imp id h.room) (.inl hc)) ?_
  rintro i s1 ⟨x, rfl, hl, h1, -, hk1⟩
  refine meets_update ?_
  dsimp only
  rw [h1.data hl.has hl.valid]
  have hl2 := hl.write (headBlock lh (view L.logstart))
  refine Meets.seq (bwrite_spec hl2).meets ?_
  rintro - s2 rfl
  refine (brelse_spec ((h1.write hl.has _).disk _) (hl2.disk _)).meets.imp ?_
  rintro - s3 ⟨h3, hd3, hr3, -, hk3⟩
  rw [List.erase_cons_head] at h3
  refine ⟨h3, hd3.trans ?_, ⟨hr3.held, hr3.ls, hr3.stage, hr3.hist⟩,
    hk1.trans (Fixed.keeps fun j c hj => hk3 j c ?_)⟩
  · show update s.disk L.logstart _ = _
    rw [DiskSys.setBuf_same]
  · exact Fixed.setBuf (s.setBuf i x) i
      { (s.setBuf i x).buf i with data := headBlock lh (view L.logstart) } rfl rfl j c hj

theorem readHead_spec (h : Cache view H P s) (p : Nat)
    (hE : E .noBuffers ∨ P.length + H.length < nbuf)
    (hc : s.disk L.logstart = view L.logstart) :
    Meets E (readHead L p) s fun lh s' =>
      lh = headOf (view L.logstart) ∧ Cache view H P s' ∧ s'.disk = s.disk ∧ Rest s s' ∧
        Keeps H s s' := by
  refine Meets.seq (bread_spec h p (hE.imp id h.room) (.inl hc)) ?_
  rintro i s1 ⟨x, rfl, hl, h1, -, hk1⟩
  refine meets_read ?_
  rw [h1.data hl.has hl.valid]
  refine Meets.seq (brelse_spec h1 hl).meets ?_
  rintro - s2 ⟨h2, hd2, hr2, -, hk2⟩
  rw [List.erase_cons_head] at h2
  exact meets_pure ⟨rfl, h2, hd2, ⟨hr2.held, hr2.ls, hr2.stage, hr2.hist⟩, hk1.trans hk2.keeps⟩

end Xv6.Fs
