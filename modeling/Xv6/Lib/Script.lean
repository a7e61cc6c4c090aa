/-
Xv6.Lib.Script — runs of a machine whose steps can fail.

`script act as` performs the steps one after the other and stops at the first
error; `Ends act as s t` says that it gets to its end, in state `t`. What every
step keeps holds at the end (`Ends.invariant`), also if it is kept only by steps
that meet a condition, and all of them do (`Ends.along`).
-/
import Xv6.Lib.Outcome

namespace Xv6.Lib

variable {α σ ε : Type} {act : α → StateT σ (Except ε) Unit} {a : α} {as bs cs : List α} {s t : σ}

def script (act : α → StateT σ (Except ε) Unit) : List α → StateT σ (Except ε) Unit
  | [] => return
  | a :: as => do
    act a
    script act as

/-- The run comes to its end, in state `t`. -/
def Ends (act : α → StateT σ (Except ε) Unit) (as : List α) (s t : σ) : Prop :=
  (script act as).run s = .ok ((), t)

@[simp] theorem ends_nil : Ends act [] s t ↔ t = s := by
  constructor
  · intro h
    cases h
    rfl
  · rintro rfl
    rfl

theorem ends_cons :
    Ends act (a :: as) s t ↔ ∃ u, (act a).run s = .ok ((), u) ∧ Ends act as u t := by
  constructor
  · intro h
    obtain ⟨⟨⟩, u, ha, hu⟩ := run_bind_elim h
    exact ⟨u, ha, hu⟩
  · rintro ⟨u, ha, hu⟩
    exact (run_bind_ok ha).trans hu

theorem ends_append : Ends act (as ++ bs) s t ↔ ∃ u, Ends act as s u ∧ Ends act bs u t := by
  induction as generalizing s with
  | nil => simp
  | cons a as ih =>
    rw [List.cons_append, ends_cons]
    constructor
    · rintro ⟨v, ha, hv⟩
      obtain ⟨u, hu, ht⟩ := ih.mp hv
      exact ⟨u, ends_cons.mpr ⟨v, ha, hu⟩, ht⟩
    · rintro ⟨u, hu, ht⟩
      obtain ⟨v, ha, hv⟩ := ends_cons.mp hu
      exact ⟨v, ha, ih.mpr ⟨u, hv, ht⟩⟩

theorem ends_snoc :
    Ends act (as ++ [a]) s t ↔ ∃ u, Ends act as s u ∧ (act a).run u = .ok ((), t) := by
  rw [ends_append]
  constructor
  · rintro ⟨u, hu, ht⟩
    obtain ⟨v, ha, hv⟩ := ends_cons.mp ht
    exact ⟨u, hu, by rw [ha, ends_nil.mp hv]⟩
  · rintro ⟨u, hu, ha⟩
    exact ⟨u, hu, ends_cons.mpr ⟨t, ha, ends_nil.mpr rfl⟩⟩

/-- What steps that meet a condition keep holds in all states of a run, if all of them
met it. -/
theorem Ends.along {I : σ → Prop} {R : α → σ → Prop}
    (hact : ∀ a s t, I s → R a s → (act a).run s = .ok ((), t) → I t) (h : Ends act bs s t)
    (hs : I s) (hall : as = bs ++ cs)
    (hok : ∀ bs a cs, as = bs ++ a :: cs → ∀ u, Ends act bs s u → R a u) : I t := by
  induction bs generalizing s as with
  | nil => exact ends_nil.mp h ▸ hs
  | cons a bs ih =>
    obtain ⟨u, ha, hu⟩ := ends_cons.mp h
    refine ih hu (hact a s u hs (hok [] a _ hall s (ends_nil.mpr rfl)) ha) rfl ?_
    intro bs' b cs' e v hv
    exact hok (a :: bs') b cs' (by rw [hall, List.cons_append, e]; rfl) v
      (ends_cons.mpr ⟨u, ha, hv⟩)

theorem Ends.invariant {I : σ → Prop} (hact : ∀ a s t, I s → (act a).run s = .ok ((), t) → I t)
    (h : Ends act as s t) (hs : I s) : I t := by
  have hact' : ∀ a s t, I s → True → (act a).run s = .ok ((), t) → I t :=
    fun a s t hs _ => hact a s t hs
  exact h.along hact' hs (List.append_nil _).symm fun _ _ _ _ _ _ => trivial

end Xv6.Lib
