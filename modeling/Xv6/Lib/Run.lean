/-
Xv6.Lib.Run — runs of a machine whose steps come from outside.

A machine is a function `act` that says what the next state is, given what
happens; where something cannot happen, the state stays as it is. A run is a
list of what happened. A property of all states is shown with `runs_invariant`;
`Along` states a condition on the steps of a run, and `runs_along` is the rule
for runs that keep to it.
-/
import Mathlib.Logic.Basic

namespace Xv6.Lib

variable {α σ : Type} {act : α → σ → σ}

/-- The state after a run. -/
def runs (act : α → σ → σ) : List α → σ → σ
  | [], s => s
  | a :: as, s => runs act as (act a s)

/-- Every step of the run is `ok` where it is taken. -/
def Along (act : α → σ → σ) (ok : α → σ → Prop) : List α → σ → Prop
  | [], _ => True
  | a :: as, s => ok a s ∧ Along act ok as (act a s)

@[simp] theorem runs_nil (s : σ) : runs act [] s = s := rfl

@[simp] theorem runs_cons (a : α) (as : List α) (s : σ) :
    runs act (a :: as) s = runs act as (act a s) := rfl

/-- What every step keeps holds after every run. -/
theorem runs_invariant {I : σ → Prop} (hact : ∀ a s, I s → I (act a s)) (as : List α) {s : σ}
    (h : I s) : I (runs act as s) := by
  induction as generalizing s with
  | nil => exact h
  | cons a as ih => exact ih (hact a s h)

/-- The same for runs whose steps meet a condition. -/
theorem runs_along {I : σ → Prop} {ok : α → σ → Prop} (hact : ∀ a s, I s → ok a s → I (act a s))
    (as : List α) {s : σ} (h : I s) (hok : Along act ok as s) : I (runs act as s) := by
  induction as generalizing s with
  | nil => exact h
  | cons a as ih => exact ih (hact a s h hok.1) hok.2

/-- If a step breaks `good` exactly when it is not `ok`, then a run has only
good states iff all its steps are ok. -/
theorem along_iff {I good : σ → Prop} {ok : α → σ → Prop} (hgood : ∀ s, I s → good s)
    (hact : ∀ a s, I s → ok a s → I (act a s)) (hbad : ∀ a s, I s → ¬ ok a s → ¬ good (act a s))
    (as : List α) {s : σ} (h : I s) :
    Along act ok as s ↔ ∀ bs cs, as = bs ++ cs → good (runs act bs s) := by
  constructor
  · intro hok bs cs heq
    subst heq
    have hbs : Along act ok bs s := by
      clear h
      induction bs generalizing s with
      | nil => exact trivial
      | cons b bs ih => exact ⟨hok.1, ih hok.2⟩
    exact hgood _ (runs_along hact bs h hbs)
  · intro hall
    induction as generalizing s with
    | nil => exact trivial
    | cons a as ih =>
      have hok : ok a s := Classical.byContradiction fun hno => hbad a s h hno (hall [a] as rfl)
      refine ⟨hok, ih (hact a s h hok) fun bs cs heq => ?_⟩
      subst heq
      exact hall (a :: bs) cs rfl

end Xv6.Lib
