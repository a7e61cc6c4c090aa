/-
Xv6.Lib.Erase — code with more state that, without it, is other code.

`Erases proj cut x y` says that a run of `x`, seen through `proj`, is a run of
`y`: it returns what `y` returns, and stops with an error that `cut` maps to the
error of `y`. An error that `cut` does not map is one of the added state.
-/
import Xv6.Lib.Outcome

namespace Xv6.Lib

variable {σ τ ε δ α β : Type} {proj : τ → σ} {cut : δ → Option ε} {x x' : StateT τ (Except δ) α}
  {y y' : StateT σ (Except ε) α}

structure Erases (proj : τ → σ) (cut : δ → Option ε) (x : StateT τ (Except δ) α)
    (y : StateT σ (Except ε) α) : Prop where
  run : ∀ s, Meets (fun e => ∀ e', cut e = some e' → y.run (proj s) = .error e') x s fun a s' =>
    y.run (proj s) = .ok (a, proj s')

theorem erases_pure (a : α) :
    Erases proj cut (pure a : StateT τ (Except δ) α) (pure a : StateT σ (Except ε) α) :=
  ⟨fun _ => meets_pure rfl⟩

theorem Erases.bind {f : α → StateT τ (Except δ) β} {k : α → StateT σ (Except ε) β}
    (hx : Erases proj cut x y) (hf : ∀ a, Erases proj cut (f a) (k a)) :
    Erases proj cut (x >>= f) (y >>= k) := by
  constructor
  intro s
  refine Meets.bind ((hx.run s).mono (fun a s1 hy => ?_) fun e he e' hc => ?_)
  · rw [run_bind_ok hy]
    exact (hf a).run s1
  · rw [StateT.run_bind, he e' hc]
    rfl

theorem Erases.ite {c : Prop} [Decidable c] (h : c → Erases proj cut x y)
    (h' : ¬ c → Erases proj cut x' y') :
    Erases proj cut (if c then x else x') (if c then y else y') := by
  by_cases hc : c
  · rw [if_pos hc, if_pos hc]
    exact h hc
  · rw [if_neg hc, if_neg hc]
    exact h' hc

/-- A step on the added state only. -/
theorem Erases.bind_pure {x : StateT τ (Except δ) Unit} {f : StateT τ (Except δ) α}
    (hx : Erases proj cut x (pure ())) (hf : Erases proj cut f y) :
    Erases proj cut (x >>= fun _ => f) y := by
  have h := hx.bind fun _ => hf
  rwa [pure_bind] at h

/-- Both run on parts that correspond. -/
theorem Erases.focus {σ' τ' : Type} {proj' : τ' → σ'} {g : τ' → τ} {p : τ' → τ → τ'}
    {g' : σ' → σ} {p' : σ' → σ → σ'} (h : Erases proj cut x y)
    (hget : ∀ s, proj (g s) = g' (proj' s))
    (hput : ∀ s t, proj' (p s t) = p' (proj' s) (proj t)) :
    Erases proj' cut (focus g p x) (focus g' p' y) := by
  constructor
  intro s
  have hrun := h.run (g s)
  rw [hget] at hrun
  refine meets_focus (hrun.mono (fun a t hy => ?_) fun e he e' hc => ?_)
  · rw [run_focus_ok hy, hput]
  · exact run_focus_error (he e' hc)

/-- What `y` does `x` does, if all errors are those of `y`. -/
theorem Erases.meets {x : StateT τ (Except ε) α} {E : ε → Prop} {s : τ} {P : α → σ → Prop}
    (h : Erases proj some x y) (hy : Meets E y (proj s) P) :
    Meets E x s fun a s' => P a (proj s') := by
  cases hy with
  | ok hrun hpost =>
    refine (h.run s).mono (fun a s' hx => ?_) fun e he => ?_
    · cases hrun.symm.trans hx
      exact hpost
    · cases hrun.symm.trans (he e rfl)
  | error hrun hE =>
    refine (h.run s).mono (fun a s' hx => ?_) fun e he => ?_
    · cases hrun.symm.trans hx
    · cases hrun.symm.trans (he e rfl)
      exact hE

end Xv6.Lib
