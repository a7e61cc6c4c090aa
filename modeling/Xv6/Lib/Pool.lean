/-
Xv6.Lib.Pool — objects that have at most one holder each.

Holders `O` may each have an object of `P`, `own o`. A mark `used p` tells
whether an object of the managed area is taken. In a `Pool` no two holders
share an object, holders have objects of the area only, and the marks are
exact: there are no taken objects without a holder.
-/
import Mathlib.Logic.Function.Basic

namespace Xv6.Lib

open Function

variable {O P : Type}

structure Pool (managed : P → Prop) (mark : P → Bool) (own : O → Option P) : Prop where
  inj : ∀ {o o' p}, own o = some p → own o' = some p → o = o'
  area : ∀ {o p}, own o = some p → managed p
  used : ∀ {p}, managed p → (mark p = true ↔ ∃ o, own o = some p)

variable {area : P → Prop} {used : P → Bool} {own : O → Option P} {o : O} {p : P}

theorem Pool.marked (h : Pool area used own) (ho : own o = some p) : used p = true :=
  (h.used (h.area ho)).mpr ⟨o, ho⟩

/-- A free object has no holder. -/
theorem Pool.unheld (h : Pool area used own) (hp : used p = false) (o : O) : own o ≠ some p := by
  intro ho
  rw [h.marked ho] at hp
  cases hp

variable [DecidableEq O] [DecidableEq P]

/-- A holder without an object takes a free one. -/
theorem Pool.take (h : Pool area used own) (hp : area p) (hfree : used p = false)
    (ho : own o = none) : Pool area (update used p true) (update own o (some p)) where
  inj := by
    intro a b q ha hb
    by_cases ea : a = o <;> by_cases eb : b = o
    · rw [ea, eb]
    · subst ea
      rw [update_self, Option.some.injEq] at ha
      rw [update_of_ne eb, ← ha] at hb
      exact absurd hb (h.unheld hfree b)
    · subst eb
      rw [update_self, Option.some.injEq] at hb
      rw [update_of_ne ea, ← hb] at ha
      exact absurd ha (h.unheld hfree a)
    · rw [update_of_ne ea] at ha
      rw [update_of_ne eb] at hb
      exact h.inj ha hb
  area := by
    intro a q ha
    by_cases ea : a = o
    · subst ea
      rw [update_self, Option.some.injEq] at ha
      exact ha ▸ hp
    · rw [update_of_ne ea] at ha
      exact h.area ha
  used := by
    intro q hq
    by_cases e : q = p
    · subst e
      rw [update_self]
      exact ⟨fun _ => ⟨o, update_self ..⟩, fun _ => rfl⟩
    · rw [update_of_ne e, h.used hq]
      constructor
      · rintro ⟨a, ha⟩
        have ea : a ≠ o := by
          rintro rfl
          rw [ho] at ha
          cases ha
        exact ⟨a, by rw [update_of_ne ea, ha]⟩
      · rintro ⟨a, ha⟩
        have ea : a ≠ o := by
          rintro rfl
          rw [update_self, Option.some.injEq] at ha
          exact e ha.symm
        exact ⟨a, by rwa [update_of_ne ea] at ha⟩

omit [DecidableEq P] in
/-- Those that still hold something once `o` has given its object back. -/
theorem held_of_given {a : O} (h : update own o none a = some p) : a ≠ o ∧ own a = some p := by
  by_cases e : a = o
  · rw [e, update_self] at h
    cases h
  · exact ⟨e, by rwa [update_of_ne e] at h⟩

/-- A holder gives its object back. -/
theorem Pool.give (h : Pool area used own) (ho : own o = some p) :
    Pool area (update used p false) (update own o none) where
  inj := fun ha hb => h.inj (held_of_given ha).2 (held_of_given hb).2
  area := fun ha => h.area (held_of_given ha).2
  used := by
    intro q hq
    by_cases e : q = p
    · subst e
      rw [update_self]
      refine ⟨fun hx => (Bool.false_ne_true hx).elim, ?_⟩
      rintro ⟨a, ha⟩
      obtain ⟨ea, ha⟩ := held_of_given ha
      exact absurd (h.inj ha ho) ea
    · rw [update_of_ne e, h.used hq]
      constructor
      · rintro ⟨a, ha⟩
        have ea : a ≠ o := by
          rintro rfl
          rw [ho, Option.some.injEq] at ha
          exact e ha.symm
        exact ⟨a, by rw [update_of_ne ea, ha]⟩
      · rintro ⟨a, ha⟩
        exact ⟨a, (held_of_given ha).2⟩

end Xv6.Lib
