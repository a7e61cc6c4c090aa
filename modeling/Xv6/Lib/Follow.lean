/-
Xv6.Lib.Follow — code on a large state that follows code on a part of it.

A function of the system may call two components in turn, while all results
about one of them are about its own code. `Follows put err s s' X Y` says that
`X`, started with the large state `s` and any value of the part, does to the
part what `Y` does, and takes the rest of `s` to that of `s'`. Steps of `X` on
the rest are passed with `Follows.step`.
-/
import Xv6.Lib.Outcome

namespace Xv6.Lib

variable {σ τ ε δ α β : Type} {put : σ → τ → σ} {err : δ → ε} {s s' s'' : σ}
  {X : StateT σ (Except ε) α} {Y : StateT τ (Except δ) α} {F : α → StateT σ (Except ε) β}
  {proj : σ → τ} {a : α}

/-- What `Y` does to the part, as an outcome on the large state. -/
def carry (put : σ → τ → σ) (err : δ → ε) (s : σ) : Except δ (α × τ) → Except ε (α × σ)
  | .ok (a, t) => .ok (a, put s t)
  | .error e => .error (err e)

def Follows (put : σ → τ → σ) (err : δ → ε) (s s' : σ) (X : StateT σ (Except ε) α)
    (Y : StateT τ (Except δ) α) : Prop :=
  ∀ t, X.run (put s t) = carry put err s' (Y.run t)

theorem follows_pure (a : α) :
    Follows put err s s (pure a : StateT σ (Except ε) α) (pure a : StateT τ (Except δ) α) :=
  fun _ => rfl

theorem follows_throw (e : δ) : Follows put err s s' (throw (err e) : StateT σ (Except ε) α)
      (throw e : StateT τ (Except δ) α) :=
  fun _ => rfl

theorem Follows.bind {G : α → StateT τ (Except δ) β} (h : Follows put err s s' X Y)
    (hF : ∀ a, Follows put err s' s'' (F a) (G a)) :
    Follows put err s s'' (X >>= F) (Y >>= G) := by
  intro t
  rw [StateT.run_bind, StateT.run_bind, h t]
  cases Y.run t with
  | error e => rfl
  | ok r => exact hF r.1 r.2

theorem follows_ite {c d : Prop} [Decidable c] [Decidable d] {X' : StateT σ (Except ε) α}
    {Y' : StateT τ (Except δ) α} (hc : c ↔ d) (ht : c → Follows put err s s' X Y)
    (hf : ¬ c → Follows put err s s' X' Y') :
    Follows put err s s' (if c then X else X') (if d then Y else Y') := by
  by_cases h : c
  · rw [if_pos h, if_pos (hc.mp h)]
    exact ht h
  · rw [if_neg h, if_neg (mt hc.mpr h)]
    exact hf h

/-- Code of the part itself. -/
theorem follows_embed (hproj : ∀ t, proj (put s t) = t) (hput : ∀ t t', put (put s t) t' = put s t')
    (Y : StateT τ (Except δ) α) :
    Follows put err s s (embed proj put err Y) Y := by
  intro t
  show embed proj put err Y (put s t) = _
  unfold embed
  rw [hproj]
  cases Y.run t with
  | error e => rfl
  | ok r => exact congrArg (fun s' => Except.ok (r.1, s')) (hput t r.2)

/-- A first step that does not touch the part. -/
theorem Follows.step (hX : ∀ t, X.run (put s t) = .ok (a, put s' t)) {Y : StateT τ (Except δ) β}
    (h : Follows put err s' s'' (F a) Y) :
    Follows put err s s'' (X >>= F) Y := by
  intro t
  rw [run_bind_ok (hX t)]
  exact h t

theorem run_embed_ok {x : StateT τ (Except δ) α} {t : τ} (h : x.run (proj s) = .ok (a, t)) :
    (embed proj put err x).run s = .ok (a, put s t) := by
  show embed proj put err x s = _
  unfold embed
  rw [h]

/-- A run on a part that ended well. -/
theorem run_focus_elim {x : StateT τ (Except ε) α} (h : (focus proj put x).run s = .ok (a, s')) :
    ∃ t, x.run (proj s) = .ok (a, t) ∧ s' = put s t := by
  have h' : focus proj put x s = .ok (a, s') := h
  unfold focus at h'
  cases hx : x.run (proj s) with
  | error e =>
    rw [hx] at h'
    cases h'
  | ok r =>
    rw [hx] at h'
    cases h'
    exact ⟨r.2, rfl, rfl⟩

end Xv6.Lib
