/-
Xv6.Lib.Slots — a table of slots that stands for a finite map.

A slot holds a key and a value, or is free. `Represents f m` says that the table
`f` has every key at most once and that `m` is the map from its keys to their
values. To fill a free slot with a new key adds one binding, and to free a slot
removes one.
-/
import Mathlib.Logic.Function.Basic

namespace Xv6.Lib

open Function

variable {I K V : Type}

structure Represents (f : I → Option (K × V)) (m : K → Option V) : Prop where
  distinct : ∀ {i j k v w}, f i = some (k, v) → f j = some (k, w) → i = j
  bound : ∀ k v, m k = some v ↔ ∃ i, f i = some (k, v)

variable {f : I → Option (K × V)} {m m' : K → Option V} {i : I} {k : K} {v : V}

theorem Represents.empty (h : ∀ i, f i = none) : Represents f fun _ => none := by
  refine ⟨fun {i j k v w} hi => ?_, fun k v => ⟨fun hm => ?_, fun ⟨i, hi⟩ => ?_⟩⟩
  · rw [h i] at hi
    cases hi
  · cases hm
  · rw [h i] at hi
    cases hi

/-- There is only one such map. -/
theorem Represents.unique (h : Represents f m) (h' : Represents f m') : m = m' := by
  funext k
  apply Option.ext
  intro v
  rw [h.bound, h'.bound]

theorem Represents.unbound (h : Represents f m) : m k = none ↔ ∀ i v, f i ≠ some (k, v) := by
  constructor
  · intro hm i v hi
    rw [(h.bound k v).mpr ⟨i, hi⟩] at hm
    cases hm
  · intro hno
    cases hm : m k with
    | none => rfl
    | some v =>
      obtain ⟨i, hi⟩ := (h.bound k v).mp hm
      exact absurd hi (hno i v)

variable [DecidableEq I] [DecidableEq K]

theorem Represents.put (h : Represents f m) (hi : f i = none) (hk : m k = none) :
    Represents (update f i (some (k, v))) (update m k (some v)) := by
  have hnew := h.unbound.mp hk
  -- a slot other than `i` is as before, and slot `i` has the new key
  have hslot : ∀ {j a w}, update f i (some (k, v)) j = some (a, w) →
      j = i ∧ a = k ∧ w = v ∨ j ≠ i ∧ a ≠ k ∧ f j = some (a, w) := by
    intro j a w hj
    by_cases e : j = i
    · rw [e, update_self] at hj
      cases hj
      exact .inl ⟨e, rfl, rfl⟩
    · rw [update_of_ne e] at hj
      refine .inr ⟨e, ?_, hj⟩
      rintro rfl
      exact hnew j w hj
  refine ⟨fun {a b x y z} ha hb => ?_, fun x y => ?_⟩
  · rcases hslot ha with ⟨rfl, rfl, rfl⟩ | ⟨_, hx, ha⟩
    · rcases hslot hb with ⟨rfl, _⟩ | ⟨_, hx, _⟩
      · rfl
      · exact absurd rfl hx
    · rcases hslot hb with ⟨_, rfl, _⟩ | ⟨_, _, hb⟩
      · exact absurd rfl hx
      · exact h.distinct ha hb
  · by_cases e : x = k
    · subst e
      rw [update_self]
      constructor
      · rintro hy
        cases hy
        exact ⟨i, update_self ..⟩
      · rintro ⟨j, hj⟩
        rcases hslot hj with ⟨_, _, rfl⟩ | ⟨_, hx, _⟩
        · rfl
        · exact absurd rfl hx
    · rw [update_of_ne e, h.bound]
      constructor
      · rintro ⟨j, hj⟩
        refine ⟨j, ?_⟩
        rw [update_of_ne, hj]
        rintro rfl
        rw [hi] at hj
        cases hj
      · rintro ⟨j, hj⟩
        rcases hslot hj with ⟨_, rfl, _⟩ | ⟨_, _, hj⟩
        · exact absurd rfl e
        · exact ⟨j, hj⟩

theorem Represents.clear (h : Represents f m) (hi : f i = some (k, v)) :
    Represents (update f i none) (update m k none) := by
  have hslot : ∀ {j a w}, update f i none j = some (a, w) ↔ j ≠ i ∧ f j = some (a, w) := by
    intro j a w
    by_cases e : j = i
    · rw [e, update_self]
      exact iff_of_false (by rintro ⟨⟩) fun hc => hc.1 rfl
    · rw [update_of_ne e]
      exact ⟨fun hj => ⟨e, hj⟩, fun hj => hj.2⟩
  refine ⟨fun ha hb => h.distinct (hslot.mp ha).2 (hslot.mp hb).2, fun x y => ?_⟩
  by_cases e : x = k
  · subst e
    rw [update_self]
    refine iff_of_false (by rintro ⟨⟩) ?_
    rintro ⟨j, hj⟩
    exact (hslot.mp hj).1 (h.distinct (hslot.mp hj).2 hi)
  · rw [update_of_ne e, h.bound]
    constructor
    · rintro ⟨j, hj⟩
      refine ⟨j, hslot.mpr ⟨?_, hj⟩⟩
      rintro rfl
      rw [hi] at hj
      cases hj
      exact e rfl
    · rintro ⟨j, hj⟩
      exact ⟨j, (hslot.mp hj).2⟩

end Xv6.Lib
