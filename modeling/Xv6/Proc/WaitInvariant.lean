/-
Xv6.Proc.WaitInvariant — what holds between the critical sections of
`kfork`, `kexit`, `kwait` and `kkill`.

`At s p c` says what is known while process `p` is at place `c`; `Tree` is the
shape of the parent pointers. Most steps are quiet: they move no parent
pointer, make no zombie and put nobody to sleep in `kwait`, so what the holder
of `wait_lock` has found out stays true. §1 places, §2 the invariant, §3 the
frame rules, §4 the quiet moves.
-/
import Xv6.Proc.Wait

namespace Xv6

/-- SLEEPING, RUNNABLE or RUNNING. -/
def Proc.alive (x : Proc) : Prop :=
  x.state = .sleeping ∨ x.state = .runnable ∨ x.state = .running

theorem Proc.alive.not_unused {x : Proc} (h : x.alive) : x.state ≠ .unused := by
  rcases h with h | h | h <;> simp [h]

theorem Proc.alive.not_zombie {x : Proc} (h : x.alive) : x.state ≠ .zombie := by
  rcases h with h | h | h <;> simp [h]

theorem Proc.alive.not_used {x : Proc} (h : x.alive) : x.state ≠ .used := by
  rcases h with h | h | h <;> simp [h]

namespace Wait

open Xv6.Lib Function
open Xv6.Vm (nproc)

/-! ## §1 Places -/

/-- The states a place in the code goes with. -/
def Pc.fits : Pc → ProcState → Prop
  | .user, x => x ≠ .sleeping ∧ x ≠ .zombie
  | .blocked, x | .asleep _, x => x = .sleeping ∨ x = .runnable
  | .dead, x => x = .zombie ∨ x = .unused
  | .reparent .., x | .wakeInit .., x | .wakeParent .., x | .mark _, x | .scan .., x
  | .check _, x | .sleep _, x => x = .running
  | .alloc _, x | .adopt _, x | .start _, x | .exit _, x | .wait _, x | .kill .., x =>
    x = .running ∨ x = .runnable

/-- The slot a process in `kfork` has taken. -/
def Pc.child : Pc → Option (Fin nproc)
  | .adopt np | .start np => some np
  | _ => none

/-- A process in `kexit`. -/
def Pc.exits : Pc → Bool
  | .exit _ | .reparent .. | .wakeInit .. | .wakeParent .. | .mark _ | .dead => true
  | _ => false

/-- Process `q` sleeps in `kwait`. -/
def State.dozes (s : State) (q : Fin nproc) : Prop :=
  (∃ addr, s.pc q = .asleep addr) ∧ (s.procs q).state = .sleeping

/-- What a process that holds `wait_lock` has found out. -/
def State.knows (s : State) (p : Fin nproc) : Pc → Prop
  | .reparent _ k => ∀ i : Fin nproc, i < k → (s.procs i).parent ≠ some p
  | .wakeInit _ k j => (∀ i : Fin nproc, i ≤ k → (s.procs i).parent ≠ some p) ∧
      (s.initproc < j → ¬ s.dozes s.initproc)
  | .wakeParent _ parent j => (∀ i, (s.procs i).parent ≠ some p) ∧
      (s.procs p).parent = parent ∧ ∀ q, parent = some q → q < j → ¬ s.dozes q
  | .mark _ => (∀ i, (s.procs i).parent ≠ some p) ∧
      ∀ q, (s.procs p).parent = some q → ¬ s.dozes q
  | .scan _ k havekids => ∀ i : Fin nproc, i < k → (s.procs i).parent = some p →
      (s.procs i).state ≠ .zombie ∧ havekids = true
  | .check _ | .sleep _ => ∀ i, (s.procs i).parent = some p → (s.procs i).state ≠ .zombie
  | _ => True

/-! ## §2 The invariant -/

structure At (s : State) (p : Fin nproc) (c : Pc) : Prop where
  fits : c.fits (s.procs p).state
  lock : c.holds = true ↔ s.lock = some p
  chan : ∀ addr, c = .asleep addr → (s.procs p).chan = some (.proc p)
  child : ∀ np, c.child = some np → (s.procs np).state = .used
  fresh : ∀ np, c = .adopt np → (s.procs np).parent = none
  started : ∀ np, c = .start np → (s.procs np).parent = some p
  knows : s.knows p c

/-- Parents are alive; every process but init has one. -/
structure Tree (s : State) : Prop where
  parent : ∀ i j, (s.procs i).parent = some j → (s.procs j).alive
  orphan : ∀ i, (s.procs i).state = .unused → (s.procs i).parent = none
  family : ∀ i, i ≠ s.initproc → (s.procs i).alive ∨ (s.procs i).state = .zombie →
    (s.procs i).parent ≠ none
  alive : (s.procs s.initproc).alive

/-- Somebody in `reparent` has still to wake init. -/
def State.waking (s : State) : Prop :=
  ∃ p status k j, s.pc p = .wakeInit status k j ∧ j ≤ s.initproc.val

structure Inv (s : State) : Prop where
  places : ∀ p, At s p (s.pc p)
  own : ∀ p q np, (s.pc p).child = some np → (s.pc q).child = some np → p = q
  tree : Tree s
  init : (s.pc s.initproc).exits = false
  wakes : ∀ i q, s.dozes q → (s.procs i).parent = some q → (s.procs i).state = .zombie →
    q = s.initproc ∧ s.waking

variable {s s' : State} {p q i np : Fin nproc} {c c' : Pc} {x : Proc}

section State

@[simp] theorem State.setProc_self : (s.setProc i x).procs i = x := update_self ..

theorem State.setProc_ne (h : q ≠ i) : (s.setProc i x).procs q = s.procs q := update_of_ne h ..

theorem State.setProc_parent (h : x.parent = (s.procs i).parent) (q : Fin nproc) :
    ((s.setProc i x).procs q).parent = (s.procs q).parent := by
  by_cases e : q = i
  · rw [e, State.setProc_self, h]
  · rw [State.setProc_ne e]

@[simp] theorem State.setProc_pc : (s.setProc i x).pc = s.pc := rfl
@[simp] theorem State.setProc_lock : (s.setProc i x).lock = s.lock := rfl

@[simp] theorem State.goto_self : (s.goto p c).pc p = c := update_self ..

theorem State.goto_ne (h : q ≠ p) : (s.goto p c).pc q = s.pc q := update_of_ne h ..

theorem State.goto_same : s.goto p (s.pc p) = s := by simp [State.goto]

@[simp] theorem State.goto_procs : (s.goto p c).procs = s.procs := rfl
@[simp] theorem State.goto_lock : (s.goto p c).lock = s.lock := rfl

end State

theorem Inv.at_pc (h : Inv s) (hp : s.pc p = c) : At s p c := hp ▸ h.places p

/-! ## §3 Frame rules -/

/-- What the holder of `wait_lock` relies on. -/
structure Calm (s s' : State) : Prop where
  initproc : s'.initproc = s.initproc
  parent : ∀ i, (s'.procs i).parent = (s.procs i).parent
  zombie : ∀ i, (s'.procs i).state = .zombie → (s.procs i).state = .zombie
  dozes : ∀ q, s'.dozes q → s.dozes q

/-- A step that leaves the family as it is, apart from a new process. -/
structure Quiet (s s' : State) : Prop extends Calm s s' where
  alive : ∀ i, (s.procs i).alive → (s'.procs i).alive
  born : ∀ i, (s'.procs i).alive → (s.procs i).alive ∨ (s.procs i).parent ≠ none
  unused : ∀ i, (s'.procs i).state = .unused → (s.procs i).state = .unused
  waking : s.waking → s'.dozes s.initproc → s'.waking

/-- What another process's step leaves to process `q` at place `c`. -/
structure Frame (s s' : State) (q : Fin nproc) (c : Pc) : Prop where
  state : (s'.procs q).state = (s.procs q).state ∨
    (s.procs q).state = .sleeping ∧ (s'.procs q).state = .runnable
  chan : (s'.procs q).chan = (s.procs q).chan
  lock : s'.lock = some q ↔ s.lock = some q
  child : ∀ np, c.child = some np →
    (s'.procs np).state = (s.procs np).state ∧ (s'.procs np).parent = (s.procs np).parent
  held : s.lock = some q → Calm s s'

/-- Process `p`, which is no other process's child to be, has changed only. -/
theorem Frame.other (hprocs : ∀ r, r ≠ p → s'.procs r = s.procs r) (hq : q ≠ p)
    (hlock : s'.lock = some q ↔ s.lock = some q) (hchild : c.child ≠ some p)
    (hheld : s.lock = some q → Calm s s') : Frame s s' q c := by
  refine ⟨.inl (by rw [hprocs q hq]), by rw [hprocs q hq], hlock, fun np hnp => ?_, hheld⟩
  rw [hprocs np fun e => hchild (e ▸ hnp)]
  exact ⟨rfl, rfl⟩

theorem Calm.knows (h : Calm s s') (hk : s.knows p c) : s'.knows p c := by
  unfold State.knows at hk ⊢
  cases c with
  | reparent status k => simpa [h.parent] using hk
  | wakeInit status k j =>
    refine ⟨by simpa [h.parent] using hk.1, fun hj hd => ?_⟩
    rw [h.initproc] at hj hd
    exact hk.2 hj (h.dozes _ hd)
  | wakeParent status parent j =>
    refine ⟨by simpa [h.parent] using hk.1, by simpa [h.parent] using hk.2.1, ?_⟩
    exact fun q hq hj hd => hk.2.2 q hq hj (h.dozes q hd)
  | mark status =>
    refine ⟨by simpa [h.parent] using hk.1, fun q hq hd => ?_⟩
    rw [h.parent] at hq
    exact hk.2 q hq (h.dozes q hd)
  | scan addr k havekids =>
    intro i hi hpar
    rw [h.parent] at hpar
    exact ⟨fun hz => (hk i hi hpar).1 (h.zombie i hz), (hk i hi hpar).2⟩
  | check addr =>
    intro i hpar hz
    rw [h.parent] at hpar
    exact hk i hpar (h.zombie i hz)
  | sleep addr =>
    intro i hpar hz
    rw [h.parent] at hpar
    exact hk i hpar (h.zombie i hz)
  | _ => trivial

/-- Outside `wait_lock` there is nothing to know. -/
theorem knows_of_not_holds (h : c.holds = false) : s.knows p c := by
  cases c <;> trivial

theorem Pc.fits_wake (h : c.fits .sleeping) : c.fits .runnable := by
  cases c <;> simp_all [Pc.fits]

theorem At.frame (h : At s q c) (hf : Frame s s' q c) : At s' q c where
  fits := by
    rcases hf.state with he | ⟨hs, hr⟩
    · rw [he]
      exact h.fits
    · rw [hr]
      exact Pc.fits_wake (hs ▸ h.fits)
  lock := h.lock.trans hf.lock.symm
  chan addr hc := hf.chan.trans (h.chan addr hc)
  child np hc := (hf.child np hc).1.trans (h.child np hc)
  fresh np hc := (hf.child np (by rw [hc]; rfl)).2.trans (h.fresh np hc)
  started np hc := (hf.child np (by rw [hc]; rfl)).2.trans (h.started np hc)
  knows := by
    cases hh : c.holds with
    | false => exact knows_of_not_holds hh
    | true => exact (hf.held (h.lock.mp hh)).knows h.knows

theorem Quiet.tree (h : Quiet s s') (ht : Tree s) : Tree s' where
  parent i j hij := h.alive j (ht.parent i j ((h.parent i).symm.trans hij))
  orphan i hu := (h.parent i).trans (ht.orphan i (h.unused i hu))
  family i hi hl := by
    rw [h.initproc] at hi
    rw [h.parent]
    rcases hl with ha | hz
    · rcases h.born i ha with ha | hp
      · exact ht.family i hi (.inl ha)
      · exact hp
    · exact ht.family i hi (.inr (h.zombie i hz))
  alive := by
    rw [h.initproc]
    exact h.alive _ ht.alive

theorem Quiet.wakes (h : Quiet s s') (hinv : Inv s) {i q : Fin nproc} (hd : s'.dozes q)
    (hp : (s'.procs i).parent = some q) (hz : (s'.procs i).state = .zombie) :
    q = s'.initproc ∧ s'.waking := by
  rw [h.parent] at hp
  obtain ⟨hq, hw⟩ := hinv.wakes i q (h.dozes q hd) hp (h.zombie i hz)
  rw [h.initproc]
  exact ⟨hq, h.waking hw (hq ▸ hd)⟩

/-- The child that another process makes is not in use yet. -/
theorem Inv.child_ne (h : Inv s) (hp : (s.procs p).state ≠ .used) : (s.pc q).child ≠ some p :=
  fun hc => hp ((h.places q).child p hc)

/-- A step of process `p`: its own place, the frames of the others, and what
the step does to the family. -/
theorem Inv.step (h : Inv s) (hinit : s'.initproc = s.initproc)
    (hpc : ∀ q, q ≠ p → s'.pc q = s.pc q)
    (hframe : ∀ q, q ≠ p → Frame s s' q (s.pc q)) (hat : At s' p (s'.pc p))
    (hchild : ∀ np, (s'.pc p).child = some np → (∀ r, (s.pc r).child ≠ some np) ∨
      (s.pc p).child = some np)
    (hexits : p = s.initproc → (s'.pc p).exits = false) (htree : Tree s')
    (hwakes : ∀ i q, s'.dozes q → (s'.procs i).parent = some q →
      (s'.procs i).state = .zombie → q = s'.initproc ∧ s'.waking) : Inv s' where
  places q := by
    by_cases e : q = p
    · exact e ▸ hat
    · rw [hpc q e]
      exact (h.places q).frame (hframe q e)
  own a b np ha hb := by
    have hfresh : ∀ r, r ≠ p → (s'.pc p).child = some np → (s'.pc r).child = some np → False := by
      intro r hr hp hrc
      rw [hpc r hr] at hrc
      rcases hchild np hp with hnone | hsame
      · exact hnone r hrc
      · exact hr (h.own r p np hrc hsame)
    by_cases ea : a = p <;> by_cases eb : b = p
    · rw [ea, eb]
    · subst ea
      exact (hfresh b eb ha hb).elim
    · subst eb
      exact (hfresh a ea hb ha).elim
    · rw [hpc a ea] at ha
      rw [hpc b eb] at hb
      exact h.own a b np ha hb
  tree := htree
  init := by
    rw [hinit]
    by_cases e : s.initproc = p
    · rw [e]
      exact hexits e.symm
    · rw [hpc _ e]
      exact h.init
  wakes := hwakes

/-- A step that leaves the family as it is. -/
theorem Inv.quiet (h : Inv s) (hq : Quiet s s') (hpc : ∀ q, q ≠ p → s'.pc q = s.pc q)
    (hframe : ∀ q, q ≠ p → Frame s s' q (s.pc q)) (hat : At s' p (s'.pc p))
    (hchild : ∀ np, (s'.pc p).child = some np → (∀ r, (s.pc r).child ≠ some np) ∨
      (s.pc p).child = some np)
    (hexits : p = s.initproc → (s'.pc p).exits = false) : Inv s' :=
  h.step hq.initproc hpc hframe hat hchild hexits (hq.tree h.tree) fun _ _ => hq.wakes h

/-! ## §4 Quiet moves -/

/-- The invariant is about the table, the places and the lock only. -/
theorem Inv.congr (h : Inv s) (hprocs : s'.procs = s.procs) (hpc : s'.pc = s.pc)
    (hinit : s'.initproc = s.initproc) (hlock : s'.lock = s.lock) : Inv s' := by
  obtain ⟨procs', pc', initproc', n', lock', t', b'⟩ := s'
  cases hprocs
  cases hpc
  cases hinit
  cases hlock
  exact ⟨fun p => ⟨(h.places p).fits, (h.places p).lock, (h.places p).chan, (h.places p).child,
    (h.places p).fresh, (h.places p).started, (h.places p).knows⟩, h.own,
    ⟨h.tree.parent, h.tree.orphan, h.tree.family, h.tree.alive⟩, h.init, h.wakes⟩

/-- A change of a record that at most wakes the process. -/
structure Soft (x y : Proc) : Prop where
  state : y.state = x.state ∨ x.state = .sleeping ∧ y.state = .runnable
  parent : y.parent = x.parent
  chan : y.chan = x.chan
  pid : y.pid = x.pid
  xstate : y.xstate = x.xstate

theorem Soft.refl (x : Proc) : Soft x x := ⟨.inl rfl, rfl, rfl, rfl, rfl⟩

theorem Soft.wakeup {procs : Table} {me : Option (Fin nproc)} {chan : Chan} :
    Soft (procs i) (wakeup me chan procs i) := by
  unfold Xv6.wakeup
  split
  · rename_i hw
    exact ⟨.inr ⟨hw.2.1, rfl⟩, rfl, rfl, rfl, rfl⟩
  · exact .refl _

theorem Soft.kill : Soft x x.kill := by
  unfold Proc.kill
  dsimp only
  split
  · rename_i hs
    exact ⟨.inr ⟨hs, rfl⟩, rfl, rfl, rfl, rfl⟩
  · exact ⟨.inl rfl, rfl, rfl, rfl, rfl⟩

theorem Soft.alive {y : Proc} (h : Soft x y) : y.alive ↔ x.alive := by
  unfold Proc.alive
  rcases h.state with e | ⟨e, e'⟩ <;> simp_all

theorem Soft.kept {y : Proc} (h : Soft x y) {t : ProcState} (ht : t ≠ .sleeping)
    (ht' : t ≠ .runnable) : y.state = t ↔ x.state = t := by
  rcases h.state with e | ⟨e, e'⟩
  · rw [e]
  · constructor <;> rintro rfl <;> contradiction

theorem soft_setProc (hx : Soft (s.procs i) x) (q : Fin nproc) :
    Soft (s.procs q) ((s.setProc i x).procs q) := by
  by_cases e : q = i
  · subst e
    simpa using hx
  · rw [State.setProc_ne e]
    exact .refl _

theorem calm_soft (hx : Soft (s.procs i) x) : Calm s (s.setProc i x) := by
  have hall := soft_setProc hx
  refine ⟨rfl, fun q => (hall q).parent, fun q => ((hall q).kept (by simp) (by simp)).mp, ?_⟩
  rintro q ⟨hpc, hs⟩
  refine ⟨hpc, ?_⟩
  rcases (hall q).state with e | ⟨e, -⟩
  · rwa [e] at hs
  · exact e

theorem Inv.soft (h : Inv s) (hx : Soft (s.procs i) x) : Inv (s.setProc i x) := by
  have hall := soft_setProc hx
  have hcalm := calm_soft hx
  have hframe : ∀ q, Frame s (s.setProc i x) q (s.pc q) := by
    intro q
    refine ⟨(hall q).state, (hall q).chan, Iff.rfl, fun np hc => ⟨?_, (hall np).parent⟩,
      fun _ => hcalm⟩
    have hu := (h.places q).child np hc
    rw [hu]
    exact ((hall np).kept (by simp) (by simp)).mpr hu
  refine h.quiet (p := i) ⟨hcalm, fun q => (hall q).alive.mpr,
    fun q ha => .inl ((hall q).alive.mp ha),
    fun q => ((hall q).kept (by simp) (by simp)).mp, fun hw _ => hw⟩ (fun _ _ => rfl)
    (fun q _ => hframe q) ((h.places i).frame (hframe i)) (fun _ hc => .inr hc) ?_
  rintro rfl
  exact h.init

/-- A process that is about to wake init goes on with it. -/
def State.WakesOn (s : State) (p : Fin nproc) (c : Pc) : Prop :=
  ∀ status k j, s.pc p = .wakeInit status k j → j ≤ s.initproc.val → s.dozes s.initproc →
    ∃ status k j, c = .wakeInit status k j ∧ j ≤ s.initproc.val

/-- Nobody falls asleep by moving on. -/
theorem dozes_goto (hc : ∀ addr, c ≠ .asleep addr) (hd : (s.goto p c).dozes q) : s.dozes q := by
  obtain ⟨⟨addr, ha⟩, hs⟩ := hd
  by_cases e : q = p
  · subst e
    rw [State.goto_self] at ha
    exact absurd ha (hc addr)
  · rw [State.goto_ne e] at ha
    exact ⟨⟨addr, ha⟩, hs⟩

/-- Process `p` moves to another place and takes or releases `wait_lock`. -/
theorem Inv.moveTo {l : Option (Fin nproc)} (h : Inv s)
    (hl : ∀ q, q ≠ p → (l = some q ↔ s.lock = some q)) (hc : ∀ addr, c ≠ .asleep addr)
    (hat : At { s with lock := l } p c)
    (hchild : ∀ np, c.child = some np → (∀ r, (s.pc r).child ≠ some np) ∨
      (s.pc p).child = some np)
    (hexits : p = s.initproc → c.exits = false)
    (hwaking : s.WakesOn p c) :
    Inv ({ s with lock := l }.goto p c) := by
  have hdozes : ∀ q, ({ s with lock := l }.goto p c).dozes q → s.dozes q := fun q hd =>
    (dozes_goto hc hd : State.dozes { s with lock := l } q)
  have hcalm : Calm s ({ s with lock := l }.goto p c) := ⟨rfl, fun _ => rfl, fun _ => id, hdozes⟩
  refine h.quiet (p := p) ⟨hcalm, fun _ => id, fun _ => .inl, fun _ => id, ?_⟩
    (fun q hq => State.goto_ne hq) ?_ ?_ ?_ ?_
  · rintro ⟨q, status, k, j, hq, hj⟩ hd
    by_cases e : q = p
    · subst e
      obtain ⟨status', k', j', rfl, hj'⟩ := hwaking status k j hq hj (hdozes _ hd)
      exact ⟨q, status', k', j', State.goto_self, hj'⟩
    · exact ⟨q, status, k, j, (State.goto_ne e).trans hq, hj⟩
  · exact fun q hq => ⟨.inl rfl, rfl, hl q hq, fun _ _ => ⟨rfl, rfl⟩, fun _ => hcalm⟩
  · rw [State.goto_self]
    refine ⟨hat.fits, hat.lock, hat.chan, hat.child, hat.fresh, hat.started, ?_⟩
    exact Calm.knows (s := { s with lock := l }) ⟨rfl, fun _ => rfl, fun _ => id, hdozes⟩ hat.knows
  · rw [State.goto_self]
    exact hchild
  · rw [State.goto_self]
    exact hexits

/-- The same with the lock as it is. -/
theorem Inv.goto (h : Inv s) (hc : ∀ addr, c ≠ .asleep addr) (hat : At s p c)
    (hchild : ∀ np, c.child = some np → (∀ r, (s.pc r).child ≠ some np) ∨
      (s.pc p).child = some np)
    (hexits : p = s.initproc → c.exits = false)
    (hwaking : s.WakesOn p c) :
    Inv (s.goto p c) :=
  h.moveTo (l := s.lock) (fun _ _ => Iff.rfl) hc hat hchild hexits hwaking

/-- Process `p` starts or stops running outside `wait_lock`. -/
theorem Inv.turn (h : Inv s) (hx : x.alive) (hpar : x.parent = (s.procs p).parent)
    (halive : (s.procs p).alive) (hc : ∀ addr, c ≠ .asleep addr) (hfits : c.fits x.state)
    (hold : (s.pc p).holds = false) (hnew : c.holds = false)
    (hchild : c.child = none ∨ c = s.pc p)
    (hexits : p = s.initproc → c.exits = false) :
    Inv ((s.setProc p x).goto p c) := by
  have hlock : s.lock ≠ some p := fun hl => by
    rw [(h.places p).lock.mpr hl] at hold
    cases hold
  have hne : ∀ np, (s.procs np).state = .used → np ≠ p := by
    rintro np hu rfl
    exact halive.not_used hu
  have hown : ∀ np, c.child = some np → c = s.pc p ∧ (s.procs np).state = .used := by
    intro np hnp
    rcases hchild with e | e
    · rw [e] at hnp
      cases hnp
    · exact ⟨e, (h.places p).child np (e ▸ hnp)⟩
  have hcalm : Calm s ((s.setProc p x).goto p c) := by
    refine ⟨rfl, State.setProc_parent hpar, fun q hz => ?_, fun q hd => ?_⟩
    · by_cases e : q = p
      · subst e
        rw [State.goto_procs, State.setProc_self] at hz
        exact absurd hz hx.not_zombie
      · rwa [State.goto_procs, State.setProc_ne e] at hz
    · have e : q ≠ p := by
        rintro rfl
        obtain ⟨⟨addr, ha⟩, -⟩ := hd
        rw [State.goto_self] at ha
        exact hc addr ha
      obtain ⟨⟨addr, ha⟩, hs⟩ := hd
      rw [State.goto_ne e] at ha
      rw [State.goto_procs, State.setProc_ne e] at hs
      exact ⟨⟨addr, ha⟩, hs⟩
  refine h.quiet (p := p) ⟨hcalm, fun q ha => ?_, fun q ha => .inl ?_, fun q hu => ?_, ?_⟩
    (fun q hq => State.goto_ne hq) (fun q hq => ?_) ?_ ?_ ?_
  · by_cases e : q = p
    · subst e
      simpa using hx
    · rwa [State.goto_procs, State.setProc_ne e]
  · by_cases e : q = p
    · exact e ▸ halive
    · rwa [State.goto_procs, State.setProc_ne e] at ha
  · by_cases e : q = p
    · subst e
      rw [State.goto_procs, State.setProc_self] at hu
      exact absurd hu hx.not_unused
    · rwa [State.goto_procs, State.setProc_ne e] at hu
  · rintro ⟨q, status, k, j, hq, hj⟩ -
    have e : q ≠ p := by
      rintro rfl
      rw [hq] at hold
      cases hold
    exact ⟨q, status, k, j, (State.goto_ne e).trans hq, hj⟩
  · exact .other (fun r hr => State.setProc_ne hr) hq Iff.rfl (h.child_ne halive.not_used)
      fun _ => hcalm
  · rw [State.goto_self]
    refine ⟨by simpa using hfits, by simp [hnew, hlock], fun addr ha => absurd ha (hc addr),
      fun np hnp => ?_, fun np hnp => ?_, fun np hnp => ?_, knows_of_not_holds hnew⟩
    · have hu := hown np hnp
      rw [State.goto_procs, State.setProc_ne (hne np hu.2)]
      exact hu.2
    · have hu := hown np (by rw [hnp]; rfl)
      rw [State.goto_procs, State.setProc_ne (hne np hu.2)]
      exact (h.places p).fresh np (hu.1 ▸ hnp)
    · have hu := hown np (by rw [hnp]; rfl)
      rw [State.goto_procs, State.setProc_ne (hne np hu.2)]
      exact (h.places p).started np (hu.1 ▸ hnp)
  · intro np hnp
    rw [State.goto_self] at hnp
    exact .inr ((hown np hnp).1 ▸ hnp)
  · rw [State.goto_self]
    exact hexits

end Wait
end Xv6
