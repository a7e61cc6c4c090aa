/-
Xv6.Lib.RefCount — reference counting with exclusive and shared holders.

A pool of objects `P` is held in two ways. An exclusive holder (`own`)
has an object to itself. A shared reference (`ref`) may point at an object
that other shared references point at too. `Exact rc ref own` says that
the counters `rc` are exactly right: an exclusively held object has count
one, one holder and no shared reference; every other object's count is the
number of shared references to it, so a zero count means nobody holds it.

The lemmas below are the moves of such a pool: hand an unheld object to an
exclusive holder, turn an exclusive hold into a shared reference, copy a
shared reference, drop either kind. Each keeps `Exact` for the maps with
one entry updated.
-/
import Mathlib.Data.Fintype.Card

namespace Xv6.Lib

open Function

variable {R O P : Type} [Fintype R] [DecidableEq P] {ref : R → Option P} {p : P} {r' : R}

/-- The number of shared references to `p`. -/
def refs (ref : R → Option P) (p : P) : Nat :=
  (Finset.univ.filter fun r => ref r = some p).card

theorem refs_pos : 0 < refs ref p ↔ ∃ r, ref r = some p := by
  simp [refs, Finset.card_pos, Finset.Nonempty]

theorem refs_eq_zero : refs ref p = 0 ↔ ∀ r, ref r ≠ some p := by
  have h : 0 < refs ref p ↔ ∃ r, ref r = some p := refs_pos
  constructor
  · intro h0 r hr
    have := h.mpr ⟨r, hr⟩
    omega
  · intro hn
    by_contra hne
    obtain ⟨r, hr⟩ := h.mp (Nat.pos_of_ne_zero hne)
    exact hn r hr

/-- Two references to an object with at most one reference are the same. -/
theorem refs_le_one_unique (h : refs ref p ≤ 1) {r : R} (hr : ref r = some p)
    (hr' : ref r' = some p) : r = r' := by
  refine Finset.card_le_one.mp h r ?_ r' ?_
  · simp [hr]
  · simp [hr']

/-- References that `g` tells apart are no more than the values of `g`. -/
theorem refs_le_card {K : Type} [Fintype K] (g : R → K)
    (hg : ∀ r r', ref r = some p → ref r' = some p → g r = g r' → r = r') :
    refs ref p ≤ Fintype.card K := by
  refine Finset.card_le_card_of_injOn g (fun _ _ => Finset.mem_univ _) ?_
  intro r hr r' hr' he
  simp only [Finset.coe_filter, Finset.mem_univ, true_and, Set.mem_ofPred_eq] at hr hr'
  exact hg r r' hr hr' he

/-- A part of the references that has all those in use. -/
theorem refs_comp {R' : Type} [Fintype R'] {e : R' → R} (he : Function.Injective e)
    (hall : ∀ r p, ref r = some p → ∃ r', e r' = r) (p : P) :
    refs (ref ∘ e) p = refs ref p := by
  refine Finset.card_bij (fun r' _ => e r') ?_ (fun _ _ _ _ h => he h) ?_
  · simp
  · intro r hr
    simp only [Finset.mem_filter, Finset.mem_univ, true_and] at hr
    obtain ⟨r', rfl⟩ := hall r p hr
    exact ⟨r', by simpa using hr, rfl⟩

variable [DecidableEq R]

/-- Pointing a free reference at `p` adds one reference to `p`. -/
theorem refs_update_some {r : R} (h : ref r = none) (q : P) :
    refs (update ref r (some p)) q = refs ref q + if q = p then 1 else 0 := by
  unfold refs
  by_cases hq : q = p
  · subst hq
    have hset : (Finset.univ.filter fun x => update ref r (some q) x = some q)
        = insert r (Finset.univ.filter fun x => ref x = some q) := by
      ext x
      by_cases hx : x = r
      · subst hx; simp
      · simp [update, hx]
    rw [hset, Finset.card_insert_of_notMem (by simp [h])]
    simp
  · have hset : (Finset.univ.filter fun x => update ref r (some p) x = some q)
        = (Finset.univ.filter fun x => ref x = some q) := by
      ext x
      by_cases hx : x = r
      · subst hx; simp [h, Ne.symm hq]
      · simp [update, hx]
    rw [hset]
    simp [hq]

/-- Clearing a reference to `p` removes one reference to `p`. -/
theorem refs_update_none {r : R} (h : ref r = some p) (q : P) :
    refs (update ref r none) q + (if q = p then 1 else 0) = refs ref q := by
  have hback : update (update ref r none) r (some p) = ref := by
    rw [update_idem, ← h, update_eq_self]
  have h0 : update ref r none r = none := by simp
  have := refs_update_some (p := p) h0 q
  rw [hback] at this
  exact this.symm

/-- The two moves, for all counts at once. -/
theorem refs_add {r : R} (h : ref r = none) (p : P) :
    refs (update ref r (some p)) = update (refs ref) p (refs ref p + 1) := by
  funext q
  rw [refs_update_some h]
  by_cases hq : q = p
  · subst hq
    rw [if_pos rfl, update_self]
  · rw [if_neg hq, update_of_ne hq, Nat.add_zero]

theorem refs_remove {r : R} (h : ref r = some p) :
    refs (update ref r none) = update (refs ref) p (refs ref p - 1) := by
  funext q
  have hq := refs_update_none h q
  by_cases e : q = p
  · subst e
    rw [if_pos rfl] at hq
    rw [update_self, ← hq, Nat.add_sub_cancel]
  · rw [if_neg e, Nat.add_zero] at hq
    rw [update_of_ne e, hq]

/-- The counters are exactly right for the references and the owners. -/
structure Exact (rc : P → Int) (ref : R → Option P) (own : O → Option P) : Prop where
  own_inj : ∀ {o o' p}, own o = some p → own o' = some p → o = o'
  own_rc : ∀ {o p}, own o = some p → rc p = 1
  own_ref : ∀ {o p r}, own o = some p → ref r ≠ some p
  rc_ref : ∀ {p}, (∀ o, own o ≠ some p) → rc p = refs ref p

variable {rc : P → Int} {ref : R → Option P} {own : O → Option P}

omit [DecidableEq R] in
/-- The counts follow from the references and the owners. -/
theorem Exact.unique {rc' : P → Int} (h : Exact rc ref own) (h' : Exact rc' ref own) :
    rc' = rc := by
  funext p
  by_cases ho : ∃ o, own o = some p
  · obtain ⟨o, ho⟩ := ho
    rw [h.own_rc ho, h'.own_rc ho]
  · have hno : ∀ o, own o ≠ some p := fun o hp => ho ⟨o, hp⟩
    rw [h.rc_ref hno, h'.rc_ref hno]

omit [DecidableEq R] in
theorem Exact.rc_nonneg (h : Exact rc ref own) (p : P) : 0 ≤ rc p := by
  by_cases ho : ∃ o, own o = some p
  · obtain ⟨o, ho⟩ := ho
    rw [h.own_rc ho]; decide
  · rw [h.rc_ref (fun o hp => ho ⟨o, hp⟩)]
    exact Int.natCast_nonneg _

omit [DecidableEq R] in
/-- A shared reference keeps the count positive. -/
theorem Exact.ref_rc (h : Exact rc ref own) {r : R} (hr : ref r = some p) :
    rc p = refs ref p ∧ 1 ≤ rc p := by
  have hno : ∀ o, own o ≠ some p := fun o ho => h.own_ref ho hr
  have hpos : 0 < refs ref p := refs_pos.mpr ⟨r, hr⟩
  have := h.rc_ref hno
  omega

omit [DecidableEq R] in
/-- A zero count means nobody holds the object. -/
theorem Exact.unheld (h : Exact rc ref own) (h0 : rc p = 0) :
    (∀ o, own o ≠ some p) ∧ ∀ r, ref r ≠ some p := by
  refine ⟨fun o ho => ?_, fun r hr => ?_⟩
  · have := h.own_rc ho; omega
  · have := (h.ref_rc hr).2; omega

omit [DecidableEq R] in
/-- Owners keep what they have and some get an unheld object. -/
theorem Exact.grow {rc' : P → Int} {own' : O → Option P} (h : Exact rc ref own)
    (h' : Exact rc' ref own') (hkeep : ∀ {o p}, own o = some p → own' o = some p) (p : P) :
    rc' p = rc p ∨ rc p = 0 ∧ rc' p = 1 ∧ ∃ o, own o = none ∧ own' o = some p := by
  by_cases hold : ∃ o, own o = some p
  · obtain ⟨o, ho⟩ := hold
    rw [h.own_rc ho, h'.own_rc (hkeep ho)]
    exact .inl rfl
  have hno : ∀ o, own o ≠ some p := fun o ho => hold ⟨o, ho⟩
  by_cases hnew : ∃ o, own' o = some p
  · obtain ⟨o, ho⟩ := hnew
    have h0 : refs ref p = 0 := refs_eq_zero.mpr fun r => h'.own_ref ho
    refine .inr ⟨by rw [h.rc_ref hno, h0]; rfl, h'.own_rc ho, o, ?_, ho⟩
    refine Option.eq_none_iff_forall_ne_some.mpr fun q hq => hno o ?_
    rw [← ho, hkeep hq, hq]
  · rw [h.rc_ref hno, h'.rc_ref fun o ho => hnew ⟨o, ho⟩]
    exact .inl rfl

omit [DecidableEq R] in
/-- An object with count one has one shared reference, or an owner and none. -/
theorem Exact.sole (h : Exact rc ref own) {r : R} (h1 : rc p = 1) (hr : ref r = some p)
    (hr' : ref r' = some p) : r = r' := by
  have := (h.ref_rc hr).1
  exact refs_le_one_unique (by omega) hr hr'

omit [DecidableEq R] in
/-- The names of references and owners do not matter. -/
theorem Exact.comp (h : Exact rc ref own) {R' O' : Type} [Fintype R'] {e : R' → R} {g : O' → O}
    (he : Function.Bijective e) (hg : Function.Bijective g) : Exact rc (ref ∘ e) (own ∘ g) := by
  refine ⟨fun h1 h2 => hg.1 (h.own_inj h1 h2), fun ho => h.own_rc ho, fun ho => h.own_ref ho,
    fun {p} hp => ?_⟩
  have hown : ∀ o, own o ≠ some p := by
    intro o
    obtain ⟨o', rfl⟩ := hg.2 o
    exact hp o'
  have hcard : refs (ref ∘ e) p = refs ref p := by
    refine Finset.card_bijective e he (fun r => ?_)
    rw [Finset.mem_filter, Finset.mem_filter]
    simp only [Finset.mem_univ, true_and, comp_apply]
  rw [h.rc_ref hown, hcard]

variable [DecidableEq O]

omit [DecidableEq R] in
/-- Hand an unheld object to an exclusive holder. -/
theorem Exact.acquire (h : Exact rc ref own) {o : O} (h0 : rc p = 0) (ho : own o = none) :
    Exact (update rc p 1) ref (update own o (some p)) := by
  obtain ⟨hno, hnr⟩ := h.unheld h0
  constructor
  · intro o1 o2 q h1 h2
    by_cases e1 : o1 = o <;> by_cases e2 : o2 = o
    · rw [e1, e2]
    · subst e1
      simp only [update_self, Option.some.injEq] at h1
      simp only [update_of_ne e2] at h2
      subst h1
      exact absurd h2 (hno _)
    · subst e2
      simp only [update_self, Option.some.injEq] at h2
      simp only [update_of_ne e1] at h1
      subst h2
      exact absurd h1 (hno _)
    · simp only [update_of_ne e1] at h1
      simp only [update_of_ne e2] at h2
      exact h.own_inj h1 h2
  · intro o1 q h1
    by_cases hq : q = p
    · subst hq; simp
    · rw [update_of_ne hq]
      by_cases e1 : o1 = o
      · subst e1
        simp only [update_self, Option.some.injEq] at h1
        exact absurd h1.symm hq
      · simp only [update_of_ne e1] at h1
        exact h.own_rc h1
  · intro o1 q r h1
    by_cases e1 : o1 = o
    · subst e1
      simp only [update_self, Option.some.injEq] at h1
      subst h1
      exact hnr r
    · simp only [update_of_ne e1] at h1
      exact h.own_ref h1
  · intro q hq
    have hqp : q ≠ p := by
      intro e
      subst e
      exact hq o (by simp)
    rw [update_of_ne hqp]
    refine h.rc_ref (fun o1 h1 => ?_)
    by_cases e1 : o1 = o
    · subst e1; rw [ho] at h1; cases h1
    · exact hq o1 (by rw [update_of_ne e1]; exact h1)

omit [DecidableEq R] in
/-- What the other exclusive holders have once `o` let go of `p`. -/
theorem Exact.own_without (h : Exact rc ref own) {o o1 : O} {q : P} (ho : own o = some p)
    (h1 : update own o none o1 = some q) : own o1 = some q ∧ q ≠ p := by
  by_cases e1 : o1 = o
  · subst e1; simp at h1
  · rw [update_of_ne e1] at h1
    refine ⟨h1, ?_⟩
    rintro rfl
    exact e1 (h.own_inj h1 ho)

omit [DecidableEq R] in
/-- Drop an exclusive hold: the object becomes unheld. -/
theorem Exact.release (h : Exact rc ref own) {o : O} (ho : own o = some p) :
    Exact (update rc p 0) ref (update own o none) := by
  have hown {o1 : O} {q : P} (h1 : update own o none o1 = some q) := h.own_without ho h1
  constructor
  · intro o1 o2 q h1 h2
    exact h.own_inj (hown h1).1 (hown h2).1
  · intro o1 q h1
    rw [update_of_ne (hown h1).2]
    exact h.own_rc (hown h1).1
  · intro o1 q r h1
    exact h.own_ref (hown h1).1
  · intro q hq
    by_cases hqp : q = p
    · subst hqp
      rw [update_self]
      have : refs ref q = 0 := refs_eq_zero.mpr (fun r => h.own_ref ho)
      omega
    · rw [update_of_ne hqp]
      refine h.rc_ref (fun o1 h1 => ?_)
      have e1 : o1 ≠ o := by
        rintro rfl
        rw [ho] at h1
        exact hqp (Option.some.inj h1).symm
      exact hq o1 (by rw [update_of_ne e1]; exact h1)

omit [DecidableEq R] [DecidableEq O] in
theorem Exact.rc_back (h : Exact rc ref own) {o : O} (ho : own o = some p) :
    update (update rc p 0) p 1 = rc := by
  rw [update_idem, ← h.own_rc ho, update_eq_self]

omit [DecidableEq R] in
/-- Pass an exclusive hold on to another holder. -/
theorem Exact.move (h : Exact rc ref own) {o k : O} (ho : own o = some p) (hk : own k = none) :
    Exact rc ref (update (update own o none) k (some p)) := by
  have hne : k ≠ o := by
    rintro rfl
    rw [ho] at hk
    cases hk
  rw [← h.rc_back ho]
  exact (h.release ho).acquire (by simp) (by rw [update_of_ne hne, hk])

omit [DecidableEq O] in
/-- A new shared reference, to an object that nobody holds exclusively. -/
theorem Exact.refer (h : Exact rc ref own) {r : R} (hno : ∀ o, own o ≠ some p)
    (hr : ref r = none) : Exact (update rc p (rc p + 1)) (update ref r (some p)) own := by
  constructor
  · exact h.own_inj
  · intro o q ho
    have hqp : q ≠ p := by
      rintro rfl
      exact hno o ho
    rw [update_of_ne hqp]
    exact h.own_rc ho
  · intro o q r1 ho h1
    by_cases e : r1 = r
    · subst e
      simp only [update_self, Option.some.injEq] at h1
      subst h1
      exact hno o ho
    · rw [update_of_ne e] at h1
      exact h.own_ref ho h1
  · intro q hq
    rw [refs_update_some hr]
    by_cases hqp : q = p
    · subst hqp
      rw [update_self, h.rc_ref hq]
      simp
    · rw [update_of_ne hqp, h.rc_ref hq]
      simp [hqp]

/-- Turn an exclusive hold into the first shared reference. -/
theorem Exact.publish (h : Exact rc ref own) {o : O} {r : R} (ho : own o = some p)
    (hr : ref r = none) : Exact rc (update ref r (some p)) (update own o none) := by
  have hrc : update (update rc p 0) p (update rc p 0 p + 1) = rc := by
    rw [update_self, Int.zero_add, h.rc_back ho]
  rw [← hrc]
  exact (h.release ho).refer (fun _ h1 => (h.own_without ho h1).2 rfl) hr

omit [DecidableEq O] in
/-- Copy a shared reference. -/
theorem Exact.share (h : Exact rc ref own) {r : R} (hr : ref r = some p) (hr' : ref r' = none) :
    Exact (update rc p (rc p + 1)) (update ref r' (some p)) own :=
  h.refer (fun _ ho => h.own_ref ho hr) hr'

omit [DecidableEq O] in
/-- Drop a shared reference. -/
theorem Exact.drop (h : Exact rc ref own) {r : R} (hr : ref r = some p) :
    Exact (update rc p (rc p - 1)) (update ref r none) own := by
  have hno : ∀ o, own o ≠ some p := fun o ho => h.own_ref ho hr
  constructor
  · exact h.own_inj
  · intro o q ho
    have hqp : q ≠ p := by
      rintro rfl
      exact hno o ho
    rw [update_of_ne hqp]
    exact h.own_rc ho
  · intro o q r1 ho h1
    by_cases e : r1 = r
    · subst e; simp at h1
    · rw [update_of_ne e] at h1
      exact h.own_ref ho h1
  · intro q hq
    have hupd := refs_update_none hr q
    by_cases hqp : q = p
    · subst hqp
      rw [update_self, h.rc_ref hq]
      simp only [if_true] at hupd
      omega
    · rw [update_of_ne hqp, h.rc_ref hq]
      simp only [hqp, if_false] at hupd
      omega

end Xv6.Lib
