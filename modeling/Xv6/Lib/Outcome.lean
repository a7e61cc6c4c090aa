/-
Xv6.Lib.Outcome — what a state-and-error program does from a state.

Kernel code is written below in `StateT σ (Except ε)`: a program reads and
changes a state `σ` and either returns or stops with an error `ε` (a
panic). `Meets E x s Q` says everything one run of `x` from `s` can do:
it returns with `Q` holding of the result and the final state, or it
stops with an error that `E` admits. With `E` empty (`Total`) it is total
correctness: the program returns.

A proof about a function peels its binds with `Meets.bind`, cites the
callee's own `Meets` lemma through `Meets.seq`, and never unfolds the
callee.
-/
import Mathlib.Algebra.Order.Ring.Int

namespace Xv6.Lib

variable {σ ε α β : Type} {x : StateT σ (Except ε) α} {s s' : σ} {Q Q' : α → σ → Prop} {e : ε}
  {E : ε → Prop} {a : α} {f k : α → StateT σ (Except ε) β} {τ : Type}

/-- `x` run from `s` returns with `Q`, or stops with an error of `E`. -/
inductive Meets (E : ε → Prop) (x : StateT σ (Except ε) α) (s : σ) (Q : α → σ → Prop) : Prop
  | ok {a : α} {s' : σ} (run : x.run s = .ok (a, s')) (post : Q a s')
  | error {e : ε} (run : x.run s = .error e) (admitted : E e)

/-- `x` run from `s` returns, with `Q` holding of the result. -/
abbrev Total (x : StateT σ (Except ε) α) (s : σ) (Q : α → σ → Prop) : Prop :=
  Meets (fun _ => False) x s Q

/-- A total run, as the equation that names its result. -/
theorem Total.elim (h : Total x s Q) : ∃ a s', x.run s = .ok (a, s') ∧ Q a s' := by
  cases h with
  | ok run post => exact ⟨_, _, run, post⟩
  | error _ admitted => exact admitted.elim

/-- A postcondition holds of the outcome. -/
theorem Meets.post {a : α} {t : σ} (h : Meets E x s Q) (hx : x.run s = .ok (a, t)) : Q a t := by
  cases h with
  | ok run post =>
    cases run.symm.trans hx
    exact post
  | error run _ => cases run.symm.trans hx

/-- A program without results stops with the one error it may stop with. -/
theorem Meets.fails (h : Meets (· = e) x s fun _ _ => False) : x.run s = .error e := by
  cases h with
  | ok _ post => exact post.elim
  | error run admitted => rw [run, admitted]

theorem Meets.mono {E' : ε → Prop} (h : Meets E x s Q) (hQ : ∀ a s', Q a s' → Q' a s')
    (hE : ∀ e, E e → E' e) : Meets E' x s Q' := by
  cases h with
  | ok run post => exact .ok run (hQ _ _ post)
  | error run admitted => exact .error run (hE _ admitted)

theorem Meets.imp (h : Meets E x s Q) (hQ : ∀ a s', Q a s' → Q' a s') :
    Meets E x s Q' :=
  h.mono hQ (fun _ he => he)

/-- A total run meets every error clause. -/
theorem Total.meets (h : Total x s Q) : Meets E x s Q :=
  Meets.mono h (fun _ _ hq => hq) (fun _ he => he.elim)

theorem Meets.and (h : Meets E x s Q) (h' : Meets E x s Q') :
    Meets E x s (fun a s' => Q a s' ∧ Q' a s') := by
  cases h with
  | ok run post =>
    cases h' with
    | ok run' post' =>
      rw [run] at run'
      cases run'
      exact .ok run ⟨post, post'⟩
    | error run' _ =>
      rw [run] at run'
      cases run'
  | error run admitted => exact .error run admitted

theorem meets_pure (h : Q a s) : Meets E (pure a : StateT σ (Except ε) α) s Q := .ok rfl h

theorem Meets.bind {Q : β → σ → Prop} (h : Meets E x s (fun a s' => Meets E (f a) s' Q)) :
    Meets E (x >>= f) s Q := by
  have step : (x >>= f).run s = x.run s >>= fun p => (f p.1).run p.2 := StateT.run_bind ..
  cases h with
  | ok run post =>
    rw [run] at step
    cases post with
    | ok run' post' => exact .ok (step.trans run') post'
    | error run' admitted => exact .error (step.trans run') admitted
  | error run admitted =>
    rw [run] at step
    exact .error step admitted

/-- Cite a callee's lemma, then continue from its postcondition. -/
theorem Meets.seq {P : α → σ → Prop} {Q : β → σ → Prop} (hx : Meets E x s P)
    (hf : ∀ a s', P a s' → Meets E (f a) s' Q) :
    Meets E (x >>= f) s Q :=
  Meets.bind (hx.imp hf)

theorem meets_get {Q : σ → σ → Prop} (h : Q s s) :
    Meets E (get : StateT σ (Except ε) σ) s Q := .ok rfl h

theorem meets_set {t : σ} {Q : PUnit → σ → Prop} (h : Q ⟨⟩ t) :
    Meets E (set t : StateT σ (Except ε) PUnit) s Q := .ok rfl h

theorem meets_modify {f : σ → σ} {Q : PUnit → σ → Prop} (h : Q ⟨⟩ (f s)) :
    Meets E (modify f : StateT σ (Except ε) PUnit) s Q := .ok rfl h

/-- Read the state, then continue. -/
theorem meets_read {f : σ → StateT σ (Except ε) β} {Q : β → σ → Prop} (h : Meets E (f s) s Q) :
    Meets E (get >>= f) s Q := Meets.bind (meets_get h)

/-- Change the state, then continue. -/
theorem meets_update {g : σ → σ} {f : PUnit → StateT σ (Except ε) β} {Q : β → σ → Prop}
    (h : Meets E (f ⟨⟩) (g s) Q) : Meets E (modify g >>= f) s Q := Meets.bind (meets_modify h)

theorem meets_throw (h : E e) : Meets E (throw e : StateT σ (Except ε) α) s Q := .error rfl h

theorem meets_lift_ok (h : Q a s) :
    Meets E (liftM (Except.ok a : Except ε α) : StateT σ (Except ε) α) s Q := .ok rfl h

theorem meets_lift_error (h : E e) :
    Meets E (liftM (Except.error e : Except ε α) : StateT σ (Except ε) α) s Q := .error rfl h

section

variable {c : Prop} [Decidable c] {y : StateT σ (Except ε) α}

/-- The branch that is taken is known. -/
theorem meets_if (hc : c) (h : Meets E x s Q) : Meets E (if c then x else y) s Q := by
  rw [if_pos hc]
  exact h

theorem meets_else (hc : ¬ c) (h : Meets E y s Q) : Meets E (if c then x else y) s Q := by
  rw [if_neg hc]
  exact h

/-- A change under a condition. -/
theorem meets_modify_ite {c : σ → Prop} [DecidablePred c] {g : σ → σ} {Q : PUnit → σ → Prop}
    (h : c s → Q ⟨⟩ (g s)) (h' : ¬ c s → Q ⟨⟩ s) :
    Meets E (modify fun s => if c s then g s else s) s Q := by
  refine meets_modify ?_
  split
  case isTrue hc => exact h hc
  case isFalse hc => exact h' hc

theorem meets_ite (ht : c → Meets E x s Q) (hf : ¬ c → Meets E y s Q) :
    Meets E (if c then x else y) s Q := by
  by_cases h : c
  · exact meets_if h (ht h)
  · exact meets_else h (hf h)

end

/-! ## If it returns -/

/-- If `x` run from `s` returns, then with `Q`; every error is admitted. -/
abbrev Returns (x : StateT σ (Except ε) α) (s : σ) (Q : α → σ → Prop) : Prop :=
  Meets (fun _ => True) x s Q

theorem Meets.returns (h : Meets E x s Q) :
    Returns x s Q := h.mono (fun _ _ hq => hq) fun _ _ => trivial

theorem returns_any (x : StateT σ (Except ε) α) (s : σ) : Returns x s fun _ _ => True := by
  cases h : x.run s with
  | ok r => exact .ok h trivial
  | error e => exact .error h trivial

/-! ## Runs that end well -/

theorem run_bind_ok (h : x.run s = .ok (a, s')) : (x >>= f).run s = (f a).run s' := by
  rw [StateT.run_bind, h]
  rfl

theorem run_bind_elim {b : β} (h : (x >>= f).run s = .ok (b, s')) :
    ∃ a t, x.run s = .ok (a, t) ∧ (f a).run t = .ok (b, s') := by
  cases hx : x.run s with
  | error e =>
    rw [StateT.run_bind, hx] at h
    cases h
  | ok r =>
    rw [run_bind_ok hx] at h
    exact ⟨r.1, r.2, rfl, h⟩

/-- The same where it is known what the first part does. -/
theorem run_next {b : β} (hx : x.run s = .ok (a, t)) (h : (x >>= f).run s = .ok (b, s')) :
    (f a).run t = .ok (b, s') :=
  (run_bind_ok hx).symm.trans h

theorem run_lift_elim {x : Except ε α} (h : (liftM x : StateT σ (Except ε) α).run s = .ok (a, s')) :
    x = .ok a ∧ s' = s := by
  cases x with
  | error e => cases h
  | ok b =>
    cases h
    exact ⟨rfl, rfl⟩

/-! ## Runs on given inputs -/

/-- The run stops with `e`; unlike the equation, this can be evaluated when
states cannot be compared. -/
def stopsWith [DecidableEq ε] (x : StateT σ (Except ε) α) (s : σ) (e : ε) : Bool :=
  match x.run s with
  | .error e' => e' = e
  | .ok _ => false

theorem run_of_stopsWith [DecidableEq ε] (h : stopsWith x s e = true) : x.run s = .error e := by
  unfold stopsWith at h
  split at h
  · rename_i e' hrun
    rw [hrun, of_decide_eq_true h]
  · cases h

/-- The run returns, and the state it ends in passes `test`. -/
def endsIn (x : StateT σ (Except ε) α) (s : σ) (test : α → σ → Bool) : Bool :=
  match x.run s with
  | .error _ => false
  | .ok (a, s') => test a s'

theorem run_of_endsIn {test : α → σ → Bool} (h : endsIn x s test = true) :
    ∃ a s', x.run s = .ok (a, s') ∧ test a s' = true := by
  unfold endsIn at h
  split at h
  · cases h
  · rename_i a s' hrun
    exact ⟨a, s', hrun, h⟩

/-! ## Parts of a state -/

/-- Run `x` on the part of the state that `proj` reads and `put` replaces. -/
def focus {τ : Type} (proj : σ → τ) (put : σ → τ → σ) (x : StateT τ (Except ε) α) :
    StateT σ (Except ε) α := fun s =>
  match x.run (proj s) with
  | .ok (a, t) => .ok (a, put s t)
  | .error e => .error e

theorem run_focus_ok {proj : σ → τ} {put : σ → τ → σ} {x : StateT τ (Except ε) α} {t : τ}
    (h : x.run (proj s) = .ok (a, t)) :
    (focus proj put x).run s = .ok (a, put s t) := by
  show (match x.run (proj s) with
    | .ok (a, t) => Except.ok (a, put s t)
    | .error e => .error e) = _
  rw [h]

theorem run_focus_error {proj : σ → τ} {put : σ → τ → σ} {x : StateT τ (Except ε) α}
    (h : x.run (proj s) = .error e) : (focus proj put x).run s = .error e := by
  show (match x.run (proj s) with
    | .ok (a, t) => Except.ok (a, put s t)
    | .error e => .error e) = _
  rw [h]

theorem meets_focus {proj : σ → τ} {put : σ → τ → σ} {x : StateT τ (Except ε) α}
    (h : Meets E x (proj s) fun a t => Q a (put s t)) : Meets E (focus proj put x) s Q := by
  cases h with
  | ok run post => exact .ok (run_focus_ok run) post
  | error run admitted => exact .error (run_focus_error run) admitted

theorem meets_focus_seq {proj : σ → τ} {put : σ → τ → σ} {x : StateT τ (Except ε) α}
    {P : α → τ → Prop} {Q : β → σ → Prop} (hx : Meets E x (proj s) P)
    (hk : ∀ a t, P a t → Meets E (k a) (put s t) Q) : Meets E (focus proj put x >>= k) s Q :=
  Meets.bind (meets_focus (hx.imp hk))

/-- The same for a part whose code has errors of its own. -/
def embed {τ δ : Type} (proj : σ → τ) (put : σ → τ → σ) (err : δ → ε)
    (x : StateT τ (Except δ) α) : StateT σ (Except ε) α := fun s =>
  match x.run (proj s) with
  | .ok (a, t) => .ok (a, put s t)
  | .error e => .error (err e)

theorem meets_embed {δ : Type} {proj : σ → τ} {put : σ → τ → σ} {err : δ → ε} {D : δ → Prop}
    {x : StateT τ (Except δ) α} (h : Meets D x (proj s) fun a t => Q a (put s t))
    (hE : ∀ e, D e → E (err e)) :
    Meets E (embed proj put err x) s Q := by
  cases h with
  | ok run post =>
    refine .ok ?_ post
    simp only [embed, StateT.run] at run ⊢
    rw [run]
  | error run admitted =>
    refine .error ?_ (hE _ admitted)
    simp only [embed, StateT.run] at run ⊢
    rw [run]

theorem meets_embed_seq {δ : Type} {proj : σ → τ} {put : σ → τ → σ} {err : δ → ε} {D : δ → Prop}
    {x : StateT τ (Except δ) α} {P : α → τ → Prop} {Q : β → σ → Prop} (hx : Meets D x (proj s) P)
    (hE : ∀ e, D e → E (err e)) (hk : ∀ a t, P a t → Meets E (k a) (put s t) Q) :
    Meets E (embed proj put err x >>= k) s Q :=
  Meets.bind (meets_embed (hx.imp hk) hE)

end Xv6.Lib
