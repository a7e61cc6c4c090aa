/-
Xv6.Lib.Monitor — threads that share data under one lock, with sleep and
wakeup.

A `Monitor` says what a thread does with the lock held: `body k` is the piece of
code at place `k`, and its result tells how the thread goes on. `sleep` gives the
lock up in two steps, as it takes the thread's own lock first, and `wakeup` visits
one thread after the other and waits for that lock. A thread that was killed
leaves its sleep at once. `env` is what happens to the data without the lock.

§1 the machine, §2 who holds the lock, §3 the machine seen through its data: a
property of lock, places and data needs a proof for the bodies only (`Turn`),
§4 a rule for sleepers: no thread is left asleep that should be awake.
-/
import Mathlib.Logic.Function.Basic
import Xv6.Lib.Run

namespace Xv6.Lib

open Function

/-- How a piece of code under the lock ends. -/
inductive Next (C K : Type) where
  | goto (k : K)
  | wake (c : C) (k : K)
  | sleep (c : C) (k : K)
  | leave
  deriving DecidableEq, Repr

/-- The place where the thread goes on. -/
def Next.cont {C K : Type} : Next C K → Option K
  | .goto k | .wake _ k | .sleep _ k => some k
  | .leave => none

/-- The thread keeps the lock. -/
def Next.keeps {C K : Type} : Next C K → Bool
  | .goto _ | .wake .. => true
  | .sleep .. | .leave => false

structure Monitor (D C K E : Type) where
  /-- A call that starts at `k`; it may not be possible now. -/
  start : K → D → Option D
  /-- The code at `k`, for a thread that was killed or not. -/
  body : K → Bool → D → D × Next C K
  env : E → D → D

/-- A place after a step of thread `p` is its new one, or an old one of another
thread. -/
theorem cont_update {n : Nat} {K : Type} {f : Fin n → Option K} {p q : Fin n} {x : Option K}
    {k : K} (h : update f p x q = some k) : q = p ∧ x = some k ∨ q ≠ p ∧ f q = some k := by
  by_cases hq : q = p
  · subst hq
    rw [update_self] at h
    exact .inl ⟨rfl, h⟩
  · rw [update_of_ne hq] at h
    exact .inr ⟨hq, h⟩

namespace Monitor

/-! ## §1 The machine -/

inductive Place (C K : Type) where
  | out
  -- about to take the lock
  | enter (k : K)
  | inside (k : K)
  -- in `wakeup(c)`, at thread `j`
  | waking (c : C) (j : Nat) (k : K)
  -- in `sleep(c)`, with its own lock and without the other
  | going (c : C) (k : K)
  | asleep (c : C) (k : K)
  deriving DecidableEq, Repr

structure State (n : Nat) (D C K : Type) where
  data : D
  lock : Option (Fin n)
  place : Fin n → Place C K
  killed : Fin n → Bool

inductive Act (n : Nat) (K E : Type) where
  | call (p : Fin n) (k : K)
  | step (p : Fin n)
  | kill (p : Fin n)
  -- the thread ends, and another takes its slot
  | renew (p : Fin n)
  | env (e : E)
  deriving DecidableEq, Repr

variable {n : Nat} {D C K E : Type} (M : Monitor D C K E)

def State.goto (s : State n D C K) (p : Fin n) (x : Place C K) : State n D C K :=
  { s with place := update s.place p x }

/-- What `wakeup(c)` does to a thread. -/
def Place.wakeup [DecidableEq C] (c : C) : Place C K → Place C K
  | .asleep c' k => if c' = c then .enter k else .asleep c' k
  | x => x

/-- What a kill does to a thread. -/
def Place.alert : Place C K → Place C K
  | .asleep _ k => .enter k
  | x => x

/-- The thread has its own lock. -/
def Place.goes : Place C K → Bool
  | .going .. => true
  | _ => false

def stepInside (p : Fin n) (k : K) (s : State n D C K) : State n D C K :=
  let r := M.body k (s.killed p) s.data
  let s := { s with data := r.1 }
  match r.2 with
  | .goto k' => s.goto p (.inside k')
  | .wake c k' => s.goto p (.waking c 0 k')
  | .sleep c k' => { s.goto p (.going c k') with lock := none }
  | .leave => { s.goto p .out with lock := none }

def stepWaking [DecidableEq C] (p : Fin n) (c : C) (j : Nat) (k : K) (s : State n D C K) :
    State n D C K :=
  if h : j < n then
    if (s.place ⟨j, h⟩).goes then s
    else (s.goto ⟨j, h⟩ ((s.place ⟨j, h⟩).wakeup c)).goto p (.waking c (j + 1) k)
  else s.goto p (.inside k)

/-- The next step of thread `p`. -/
def step [DecidableEq C] (p : Fin n) (s : State n D C K) : State n D C K :=
  match s.place p with
  | .enter k => if s.lock = none then { s.goto p (.inside k) with lock := some p } else s
  | .inside k => M.stepInside p k s
  | .waking c j k => stepWaking p c j k s
  | .going c k => s.goto p (.asleep c k)
  | .out | .asleep .. => s

/-- A thread outside starts a call. -/
def call (p : Fin n) (k : K) (s : State n D C K) : State n D C K :=
  match s.place p, M.start k s.data with
  | .out, some d => { s.goto p (.enter k) with data := d }
  | _, _ => s

def kill (p : Fin n) (s : State n D C K) : State n D C K :=
  if (s.place p).goes then s
  else { s.goto p (s.place p).alert with killed := update s.killed p true }

def renew (p : Fin n) (s : State n D C K) : State n D C K :=
  match s.place p with
  | .out => { s with killed := update s.killed p false }
  | _ => s

def act [DecidableEq C] : Act n K E → State n D C K → State n D C K
  | .call p k, s => M.call p k s
  | .step p, s => M.step p s
  | .kill p, s => kill p s
  | .renew p, s => renew p s
  | .env e, s => { s with data := M.env e s.data }

/-- Nobody is inside. -/
def init (d : D) : State n D C K where
  data := d
  lock := none
  place _ := .out
  killed _ := false

/-! ## §2 Who holds the lock -/

def Place.holds : Place C K → Bool
  | .inside _ | .waking .. => true
  | _ => false

/-- The lock is held by the thread that is inside. -/
def State.Locked (s : State n D C K) : Prop := ∀ p, s.lock = some p ↔ (s.place p).holds = true

variable {M} {s : State n D C K} {p q : Fin n} {x : Place C K} {c : C} {k : K}

@[simp] theorem goto_self : (s.goto p x).place p = x := update_self ..

@[simp] theorem goto_ne (h : q ≠ p) : (s.goto p x).place q = s.place q :=
  update_of_ne h ..

theorem goto_same : s.goto p (s.place p) = s := by
  unfold State.goto
  rw [update_eq_self]

@[simp] theorem holds_wakeup [DecidableEq C] (c : C) (x : Place C K) :
    (x.wakeup c).holds = x.holds := by
  cases x with
  | asleep c' k =>
    show (if c' = c then _ else _ : Place C K).holds = _
    split <;> rfl
  | _ => rfl

@[simp] theorem holds_alert (x : Place C K) : x.alert.holds = x.holds := by
  cases x <;> rfl

section

variable (h : s.Locked)
include h

theorem State.Locked.sole (hp : (s.place p).holds = true)
    (hq : (s.place q).holds = true) : p = q := by
  have hlp := (h p).mpr hp
  rw [(h q).mpr hq] at hlp
  exact (Option.some.inj hlp).symm

/-- A move that keeps or gives no lock. -/
theorem State.Locked.goto (hx : x.holds = (s.place p).holds) : (s.goto p x).Locked := by
  intro q
  by_cases hq : q = p
  · subst hq
    rw [goto_self, hx]
    exact h q
  · rw [goto_ne hq]
    exact h q

theorem State.Locked.release (hp : (s.place p).holds = true)
    (hx : x.holds = false) : ({ s.goto p x with lock := none } : State n D C K).Locked := by
  intro q
  by_cases hq : q = p
  · subst hq
    simp [hx]
  · rw [goto_ne hq]
    refine ⟨nofun, fun hholds => ?_⟩
    exact absurd (h.sole hholds hp) hq

theorem locked_inside (hp : s.place p = .inside k) : (M.stepInside p k s).Locked := by
  have hholds : (s.place p).holds = true := by rw [hp]; rfl
  have hdata : ∀ d, ({ s with data := d } : State n D C K).Locked := fun _ => h
  unfold stepInside
  dsimp only
  split
  · exact (hdata _).goto hholds.symm
  · exact (hdata _).goto hholds.symm
  · exact (hdata _).release hholds rfl
  · exact (hdata _).release hholds rfl

theorem locked_waking [DecidableEq C] {j : Nat} (hp : s.place p = .waking c j k) :
    (stepWaking p c j k s).Locked := by
  have hholds : (s.place p).holds = true := by rw [hp]; rfl
  unfold stepWaking
  split
  case isFalse => exact h.goto hholds.symm
  case isTrue hj =>
  split
  case isTrue => exact h
  case isFalse =>
  have hwoken := h.goto (holds_wakeup c (s.place ⟨j, hj⟩))
  refine hwoken.goto ?_
  by_cases hpj : p = ⟨j, hj⟩
  · subst hpj
    rw [goto_self, holds_wakeup]
    exact hholds.symm
  · rw [goto_ne hpj]
    exact hholds.symm

theorem locked_step [DecidableEq C] : (M.step p s).Locked := by
  unfold step
  split
  case h_1 k hp =>
    split
    case isFalse => exact h
    case isTrue hfree =>
      intro q
      by_cases hq : q = p
      · subst hq
        simp [Place.holds]
      · rw [goto_ne hq, ← h q, hfree]
        simp [Ne.symm hq]
  case h_2 k hp => exact locked_inside h hp
  case h_3 c j k hp => exact locked_waking h hp
  case h_4 c k hp => exact h.goto (by rw [hp]; rfl)
  all_goals exact h

end

theorem locked_act [DecidableEq C] (a : Act n K E) (s : State n D C K) (h : s.Locked) :
    (M.act a s).Locked := by
  cases a with
  | call p k =>
    show (M.call p k s).Locked
    unfold call
    split
    case h_1 hp _ => exact h.goto (by rw [hp]; rfl)
    case h_2 => exact h
  | step p => exact locked_step h
  | kill p =>
    show (kill p s).Locked
    unfold kill
    split
    · exact h
    · exact h.goto (holds_alert _)
  | renew p =>
    show (renew p s).Locked
    unfold renew
    split <;> exact h
  | env e => exact h

theorem locked_init (d : D) : (init d : State n D C K).Locked := by
  intro p
  simp [init, Place.holds]

/-! ## §3 The data -/

/-- The place where a thread goes on with the lock. -/
def Place.cont : Place C K → Option K
  | .out => none
  | .enter k | .inside k | .waking _ _ k | .going _ k | .asleep _ k => some k

/-- A state without sleep and wakeup. -/
structure View (n : Nat) (D K : Type) where
  data : D
  lock : Option (Fin n)
  cont : Fin n → Option K

def State.view (s : State n D C K) : View n D K where
  data := s.data
  lock := s.lock
  cont p := (s.place p).cont

theorem view_cont (h : s.place p = x) : s.view.cont p = x.cont := congrArg Place.cont h

/-- Thread `p` has run a body with this result. -/
def View.after (v : View n D K) (p : Fin n) (r : D × Next C K) : View n D K where
  data := r.1
  lock := if r.2.keeps then some p else none
  cont := update v.cont p r.2.cont

variable (M) in
/-- What a step can do to it. -/
inductive Turn : View n D K → View n D K → Prop
  | start {v : View n D K} {p : Fin n} {k : K} {d : D} (out : v.cont p = none)
      (can : M.start k v.data = some d) :
      Turn v { v with data := d, cont := update v.cont p (some k) }
  | acquire {v : View n D K} {p : Fin n} {k : K} (free : v.lock = none) (here : v.cont p = some k) :
      Turn v { v with lock := some p }
  | body {v : View n D K} {p : Fin n} {k : K} (killed : Bool) (holds : v.lock = some p)
      (here : v.cont p = some k) : Turn v (v.after p (M.body k killed v.data))
  | env {v : View n D K} (e : E) : Turn v { v with data := M.env e v.data }

theorem view_goto : (s.goto p x).view = { s.view with cont := update s.view.cont p x.cont } := by
  have hcont : (s.goto p x).view.cont = update s.view.cont p x.cont := by
    funext q
    by_cases hq : q = p
    · subst hq
      rw [update_self]
      exact congrArg Place.cont goto_self
    · rw [update_of_ne hq]
      exact congrArg Place.cont (goto_ne hq)
  rw [← hcont]
  rfl

theorem view_goto_same (h : x.cont = (s.place p).cont) : (s.goto p x).view = s.view := by
  rw [view_goto, h, show (s.place p).cont = s.view.cont p from rfl, update_eq_self]

@[simp] theorem cont_wakeup [DecidableEq C] (c : C) (x : Place C K) :
    (x.wakeup c).cont = x.cont := by
  cases x with
  | asleep c' k =>
    show (if c' = c then _ else _ : Place C K).cont = _
    split <;> rfl
  | _ => rfl

@[simp] theorem cont_alert (x : Place C K) : x.alert.cont = x.cont := by
  cases x <;> rfl

theorem inside_view (hl : s.lock = some p) (k : K) :
    (M.stepInside p k s).view = s.view.after p (M.body k (s.killed p) s.data) := by
  unfold stepInside View.after
  dsimp only
  cases (M.body k (s.killed p) s.data).2 with
  | goto k' => exact view_goto.trans (by rw [← hl]; rfl)
  | wake c k' => exact view_goto.trans (by rw [← hl]; rfl)
  | sleep c k' =>
    have hgo := congrArg View.cont
      (view_goto (s := { s with data := (M.body k (s.killed p) s.data).1 }) (p := p)
        (x := .going c k'))
    exact congrArg (View.mk _ none) hgo
  | leave =>
    have hgo := congrArg View.cont
      (view_goto (s := { s with data := (M.body k (s.killed p) s.data).1 }) (p := p) (x := .out))
    exact congrArg (View.mk _ none) hgo

theorem inside_turn (hl : s.lock = some p) (hp : s.place p = .inside k) :
    M.Turn s.view (M.stepInside p k s).view := by
  rw [inside_view hl]
  exact .body (s.killed p) hl (view_cont hp)

theorem waking_view [DecidableEq C] {j : Nat} (hp : s.place p = .waking c j k) :
    (stepWaking p c j k s).view = s.view := by
  unfold stepWaking
  split
  case isFalse => exact view_goto_same (by rw [hp]; rfl)
  case isTrue hj =>
  split
  case isTrue => rfl
  case isFalse =>
  refine (view_goto_same ?_).trans (view_goto_same (cont_wakeup ..))
  by_cases hpj : p = ⟨j, hj⟩
  · subst hpj
    rw [goto_self, cont_wakeup, hp]
    rfl
  · rw [goto_ne hpj, hp]
    rfl

/-- Every step is a turn, or only a matter of sleep and wakeup. -/
theorem act_turn [DecidableEq C] (hl : s.Locked) (a : Act n K E) :
    (M.act a s).view = s.view ∨ M.Turn s.view (M.act a s).view := by
  cases a with
  | call p k =>
    show (M.call p k s).view = s.view ∨ M.Turn s.view (M.call p k s).view
    unfold call
    split
    case h_1 d hp hd =>
      have hout : s.view.cont p = none := by
        show (s.place p).cont = none
        rw [hp]
        rfl
      have hview : ({ s.goto p (.enter k) with data := d } : State n D C K).view =
          { s.view with data := d, cont := update s.view.cont p (some k) } :=
        congrArg (View.mk d s.lock) (congrArg View.cont (view_goto (s := s) (x := .enter k)))
      rw [hview]
      exact .inr (.start hout hd)
    case h_2 => exact .inl rfl
  | step p =>
    show (M.step p s).view = s.view ∨ M.Turn s.view (M.step p s).view
    unfold step
    split
    case h_1 k hp =>
      split
      case isFalse => exact .inl rfl
      case isTrue hfree =>
        have hcont : s.view.cont p = some k := view_cont hp
        have hview : ({ s.goto p (.inside k) with lock := some p } : State n D C K).view =
            { s.view with lock := some p } :=
          congrArg (View.mk s.data (some p))
            (congrArg View.cont (view_goto_same (s := s) (x := .inside k) (by rw [hp]; rfl)))
        rw [hview]
        exact .inr (.acquire hfree hcont)
    case h_2 k hp => exact .inr (inside_turn ((hl p).mpr (by rw [hp]; rfl)) hp)
    case h_3 c j k hp => exact .inl (waking_view hp)
    case h_4 c k hp => exact .inl (view_goto_same (by rw [hp]; rfl))
    all_goals exact .inl rfl
  | kill p =>
    left
    show (kill p s).view = s.view
    unfold kill
    split
    · rfl
    · exact (view_goto_same (cont_alert (s.place p)) : (s.goto p (s.place p).alert).view = s.view)
  | renew p =>
    left
    show (renew p s).view = s.view
    unfold renew
    split <;> rfl
  | env e => exact .inr (.env e)

/-- The rule for properties of lock, places and data. -/
theorem runs_view [DecidableEq C] {J : View n D K → Prop}
    (hturn : ∀ {v v'}, J v → M.Turn v v' → J v') (as : List (Act n K E)) (hl : s.Locked)
    (hj : J s.view) : J (runs M.act as s).view := by
  have hboth : (runs M.act as s).Locked ∧ J (runs M.act as s).view := by
    refine runs_invariant (I := fun s : State n D C K => s.Locked ∧ J s.view) (fun a s h => ?_)
      as ⟨hl, hj⟩
    refine ⟨locked_act a s h.1, ?_⟩
    rcases act_turn h.1 a with hsame | ht
    · rw [hsame]
      exact h.2
    · exact hturn h.2 ht
  exact hboth.2

/-! ## §4 Sleepers -/

section Sleepers

variable (waits : C → D → Prop) (owes : K → D → C → Prop)

/-- The thread sleeps on `c`, or is about to. -/
def Place.sleeps (c : C) : Place C K → Prop
  | .going c' _ | .asleep c' _ => c' = c
  | _ => False

theorem sleeps_goto (hx : ∀ c, ¬ x.sleeps c) (h : ((s.goto p x).place q).sleeps c) :
    q ≠ p ∧ (s.place q).sleeps c := by
  by_cases hqp : q = p
  · subst hqp
    rw [goto_self] at h
    exact absurd h (hx c)
  · rw [goto_ne hqp] at h
    exact ⟨hqp, h⟩

/-- A thread with the lock will still wake thread `q`, if that sleeps on `c`. -/
def Place.due (d : D) (c : C) (q : Nat) : Place C K → Prop
  | .inside k => owes k d c
  | .waking c' j k => c' = c ∧ j ≤ q ∨ owes k d c
  | _ => False

/-- Who sleeps has a reason to, or will be woken. -/
def State.Watched (s : State n D C K) : Prop :=
  ∀ q c, (s.place q).sleeps c → waits c s.data ∨ ∃ p, (s.place p).due owes s.data c q

/-- What a body must leave behind for those who sleep on `c`. -/
def Next.settles (d : D) (c : C) : Next C K → Prop
  | .goto k => waits c d ∨ owes k d c
  | .wake c' k => waits c d ∨ c' = c ∨ owes k d c
  | .sleep .. | .leave => waits c d

/-- The body that thread `p` is at leaves nobody asleep without a reason. -/
def Pays (M : Monitor D C K E) (s : State n D C K) (p : Fin n) : Prop :=
  ∀ k, s.place p = .inside k →
    (∀ q c, (s.place q).sleeps c → waits c s.data ∨ owes k s.data c →
      Next.settles waits owes (M.body k (s.killed p) s.data).1 c
        (M.body k (s.killed p) s.data).2) ∧
    ∀ c k', (M.body k (s.killed p) s.data).2 = .sleep c k' →
      waits c (M.body k (s.killed p) s.data).1

/-- A change of the data that is nothing to sleepers. -/
def Still (d d' : D) : Prop :=
  (∀ c, waits c d → waits c d') ∧ ∀ k c, owes k d c → owes k d' c

variable {waits owes}

theorem Place.due.holds {d : D} {j : Nat} (h : x.due owes d c j) : x.holds = true := by
  cases x with
  | inside k => rfl
  | waking c' j k => rfl
  | _ => exact h.elim

section

variable (h : s.Watched waits owes)
include h

/-- With the lock free, sleepers have a reason. -/
theorem State.Watched.free (hl : s.Locked) (hfree : s.lock = none)
    (hq : (s.place q).sleeps c) : waits c s.data := by
  rcases h q c hq with hw | ⟨p, hp⟩
  · exact hw
  · have hheld := (hl p).mpr hp.holds
    rw [hfree] at hheld
    cases hheld

/-- With the lock taken, only its holder can owe a wakeup. -/
theorem State.Watched.held (hl : s.Locked)
    (hp : (s.place p).holds = true) (hq : (s.place q).sleeps c) :
    waits c s.data ∨ (s.place p).due owes s.data c q := by
  rcases h q c hq with hw | ⟨r, hr⟩
  · exact .inl hw
  · rw [← hl.sole hr.holds hp]
    exact .inr hr

theorem State.Watched.still {d : D} (hs : Still waits owes s.data d) :
    ({ s with data := d } : State n D C K).Watched waits owes := by
  intro q c hq
  rcases h q c hq with hw | ⟨r, hr⟩
  · exact .inl (hs.1 c hw)
  · refine .inr ⟨r, ?_⟩
    revert hr
    cases s.place r with
    | inside k => exact hs.2 k c
    | waking c' j k => exact Or.imp_right (hs.2 k c)
    | _ => exact id

/-- A move of a thread without the lock that puts nobody to sleep. -/
theorem State.Watched.move
    (hx : ∀ c, x.sleeps c → (s.place p).sleeps c) (hp : (s.place p).holds = false) :
    (s.goto p x).Watched waits owes := by
  intro q c hq
  have hq' : (s.place q).sleeps c := by
    by_cases hqp : q = p
    · subst hqp
      exact hx c (by simpa using hq)
    · simpa [hqp] using hq
  rcases h q c hq' with hw | ⟨r, hr⟩
  · exact .inl hw
  · refine .inr ⟨r, ?_⟩
    have hrp : r ≠ p := by
      rintro rfl
      rw [hr.holds] at hp
      cases hp
    rw [goto_ne hrp]
    exact hr

theorem watched_inside (hl : s.Locked) (hp : s.place p = .inside k)
    (hpays : Pays waits owes M s p) : (M.stepInside p k s).Watched waits owes := by
  obtain ⟨hsettle, hsleep⟩ := hpays k hp
  have hheld : (s.place p).holds = true := by rw [hp]; rfl
  -- what is left for those who slept before
  have hold : ∀ q c, q ≠ p → (s.place q).sleeps c →
      Next.settles waits owes (M.body k (s.killed p) s.data).1 c
        (M.body k (s.killed p) s.data).2 := by
    intro q c _ hq
    refine hsettle q c hq ?_
    have hw := h.held hl hheld hq
    rw [hp] at hw
    exact hw
  unfold stepInside
  dsimp only
  revert hold hsleep
  cases (M.body k (s.killed p) s.data).2 with
  | goto k' =>
    intro _ hold q c hq
    obtain ⟨hqp, hq⟩ := sleeps_goto (fun _ => id) hq
    refine (hold q c hqp hq).imp_right fun ho => ⟨p, ?_⟩
    rw [goto_self]
    exact ho
  | wake c' k' =>
    intro _ hold q c hq
    obtain ⟨hqp, hq⟩ := sleeps_goto (fun _ => id) hq
    refine (hold q c hqp hq).imp_right fun ho => ⟨p, ?_⟩
    rw [goto_self]
    exact ho.imp_left fun hc => ⟨hc, Nat.zero_le _⟩
  | sleep c' k' =>
    intro hsleep hold q c hq
    by_cases hqp : q = p
    · subst hqp
      have hc : c' = c := by simpa [Place.sleeps] using hq
      subst hc
      exact .inl (hsleep c' k' rfl)
    · exact .inl (hold q c hqp (by simpa [hqp] using hq))
  | leave =>
    intro _ hold q c hq
    obtain ⟨hqp, hq⟩ := sleeps_goto (fun _ => id) hq
    exact .inl (hold q c hqp hq)

end

/-- After `wakeup(c)` a thread does not sleep on `c`. -/
theorem sleeps_wakeup [DecidableEq C] {c' : C} (hgo : ¬ x.goes = true)
    (h : (x.wakeup c).sleeps c') : x.sleeps c' ∧ c ≠ c' := by
  cases x with
  | asleep c'' k =>
    simp only [Place.wakeup] at h
    split at h
    case isTrue => exact h.elim
    case isFalse hne =>
      have hc : c'' = c' := h
      subst hc
      exact ⟨rfl, Ne.symm hne⟩
  | going c'' k => exact absurd rfl hgo
  | _ => exact h.elim

theorem watched_waking [DecidableEq C] {j : Nat} (h : s.Watched waits owes) (hl : s.Locked)
    (hp : s.place p = .waking c j k) : (stepWaking p c j k s).Watched waits owes := by
  have hheld : (s.place p).holds = true := by rw [hp]; rfl
  have hold : ∀ q c', (s.place q).sleeps c' →
      waits c' s.data ∨ c = c' ∧ j ≤ q ∨ owes k s.data c' := by
    intro q c' hq
    have hw := h.held hl hheld hq
    rw [hp] at hw
    exact hw
  unfold stepWaking
  split
  case isFalse hj =>
    intro q c' hq
    obtain ⟨-, hq⟩ := sleeps_goto (fun _ => id) hq
    refine (hold q c' hq).imp_right fun ho => ⟨p, ?_⟩
    rw [goto_self]
    rcases ho with ⟨_, hle⟩ | ho
    · exact absurd (Nat.lt_of_le_of_lt hle q.isLt) hj
    · exact ho
  case isTrue hj =>
  split
  case isTrue => exact h
  case isFalse hgo =>
  intro q c' hq
  obtain ⟨-, hq⟩ := sleeps_goto (fun _ => id) hq
  have howes : c = c' ∧ j + 1 ≤ q ∨ owes k s.data c' →
      ∃ r, (((s.goto ⟨j, hj⟩ ((s.place ⟨j, hj⟩).wakeup c)).goto p (.waking c (j + 1) k)).place
        r).due owes s.data c' q := by
    intro ho
    refine ⟨p, ?_⟩
    rw [goto_self]
    exact ho
  by_cases hqj : q = ⟨j, hj⟩
  · subst hqj
    rw [goto_self] at hq
    obtain ⟨hq, hne⟩ := sleeps_wakeup hgo hq
    rcases hold _ c' hq with hw | ⟨hc, _⟩ | ho
    · exact .inl hw
    · exact absurd hc hne
    · exact .inr (howes (.inr ho))
  · rw [goto_ne hqj] at hq
    rcases hold q c' hq with hw | ⟨hc, hle⟩ | ho
    · exact .inl hw
    · have hval : q.val ≠ j := fun e => hqj (Fin.ext e)
      exact .inr (howes (.inl ⟨hc, by omega⟩))
    · exact .inr (howes (.inr ho))

theorem watched_step [DecidableEq C] (h : s.Watched waits owes) (hl : s.Locked)
    (hpays : Pays waits owes M s p) : (M.step p s).Watched waits owes := by
  unfold step
  split
  case h_1 k hp =>
    split
    case isFalse => exact h
    case isTrue hfree =>
      intro q c hq
      obtain ⟨-, hq⟩ := sleeps_goto (fun _ => id) hq
      exact .inl (h.free hl hfree hq)
  case h_2 k hp => exact watched_inside h hl hp hpays
  case h_3 c j k hp => exact watched_waking h hl hp
  case h_4 c k hp =>
    refine h.move (fun c' hc => ?_) (by rw [hp]; rfl)
    rw [hp]
    exact hc
  all_goals exact h

theorem sleeps_alert (h : x.alert.sleeps c) : x.sleeps c := by
  cases x with
  | asleep c' k => exact h.elim
  | _ => exact h

theorem alert_awake (h : x.holds = true) : x.alert = x := by
  cases x with
  | asleep c k => cases h
  | _ => rfl

theorem watched_kill (h : s.Watched waits owes) : (kill p s).Watched waits owes := by
  unfold kill
  split
  case isTrue => exact h
  case isFalse =>
    by_cases hp : (s.place p).holds = true
    · rw [alert_awake hp, goto_same]
      exact h
    · exact h.move (fun c hc => sleeps_alert hc) (by simpa using hp)

/-- The rule for sleepers. -/
theorem watched_act [DecidableEq C]
    (hstart : ∀ {k d d'}, M.start k d = some d' → Still waits owes d d')
    (henv : ∀ e d, Still waits owes d (M.env e d)) (h : s.Watched waits owes) (hl : s.Locked)
    (a : Act n K E) (hpays : ∀ p, a = .step p → Pays waits owes M s p) :
    (M.act a s).Watched waits owes := by
  cases a with
  | call p k =>
    show (M.call p k s).Watched waits owes
    unfold call
    split
    case h_1 d hp hd =>
      have hmove := h.move (p := p) (x := .enter k) (fun c hc => hc.elim) (by rw [hp]; rfl)
      exact hmove.still (hstart hd)
    case h_2 => exact h
  | step p => exact watched_step h hl (hpays p rfl)
  | kill p => exact watched_kill h
  | renew p =>
    show (renew p s).Watched waits owes
    unfold renew
    split <;> exact h
  | env e => exact h.still (henv e s.data)

theorem watched_init (d : D) : (init d : State n D C K).Watched waits owes := fun _ _ h => h.elim

end Sleepers

end Monitor

end Xv6.Lib
