/-
Xv6.Sys.Invariant — what holds between operations.

`view` reads the owners of pages off the kernel's variables. `SysInv` is the
invariant of the memory (`Inv`) with what the process table adds to it: a
process has a page table and a trapframe unless it is UNUSED, its size is
within bounds and its pages lie below it. While an operation builds or frees
process `e` (`E = some e`), the first of these may not hold for `e`.

`Kept` says what an operation leaves alone: it may change the processes in
`A`; every other one keeps its memory, its entries and its state, except
that a sleeper may have been woken.
-/
import Xv6.Vm.ExecTheorems
import Xv6.Sys.Private

namespace Xv6

open Xv6.Vm Xv6.Lib
open Function

/-! ## §1 The state -/

section State

variable (s : Sys) (m m' : Mach) (i : Fin nproc) (p p' : Proc)

@[simp] theorem Sys.setMach_mach : (s.setMach m).mach = m := rfl
@[simp] theorem Sys.setMach_procs : (s.setMach m).procs = s.procs := rfl
@[simp] theorem Sys.setMach_setMach : (s.setMach m).setMach m' = s.setMach m' := rfl
@[simp] theorem Sys.setMach_self : s.setMach s.mach = s := rfl
@[simp] theorem Sys.setProc_mach : (s.setProc i p).mach = s.mach := rfl
@[simp] theorem Sys.setProc_procs : (s.setProc i p).procs = update s.procs i p := rfl

theorem Sys.setProc_same : (s.setProc i p).procs i = p := update_self ..

theorem Sys.setProc_ne {j : Fin nproc} (h : j ≠ i) : (s.setProc i p).procs j = s.procs j :=
  update_of_ne h ..

@[simp] theorem Sys.setProc_setProc : (s.setProc i p).setProc i p' = s.setProc i p' := by
  simp only [Sys.setProc, update_idem]

/-- Changes to the process table and to the machine commute. -/
@[simp] theorem Sys.setMach_setProc : (s.setMach m).setProc i p = (s.setProc i p).setMach m := rfl

end State

/-! ## §2 The owners -/

/-- The page a pointer names; null names none. -/
def pageOf (a : Nat) : Option Nat := if a = 0 then none else some (a / 4096)

@[simp] theorem pageOf_zero : pageOf 0 = none := rfl

theorem pageOf_mul {p : Nat} (h : 0 < p) : pageOf (4096 * p) = some p := by
  unfold pageOf
  rw [if_neg (by omega), Nat.mul_div_cancel_left p (by decide)]

theorem pageOf_ne {a : Nat} (h : a ≠ 0) : pageOf a = some (a / 4096) := if_neg h

/-- The page tables and pages that the kernel's variables point to. -/
def view (s : Sys) : View where
  root
    | .kernel => pageOf s.kernelPagetable
    | .proc i => pageOf (s.procs i).pagetable
    | .exec => none
  hnd
    | .trapframe i => pageOf (s.procs i).trapframe
    | .kstack i => s.kstack i
    | .pipe page => (s.pipes page).map fun _ => page
    | .disk k => s.disk k
    | .arg _ => none
    | .raw k => s.raw k
    | .held _ => none

@[simp] theorem view_setMach (s : Sys) (m : Mach) : view (s.setMach m) = view s := rfl

theorem View.ext {v v' : View} (hroot : ∀ t, v.root t = v'.root t)
    (hhnd : ∀ h, v.hnd h = v'.hnd h) : v = v' := by
  cases v
  cases v'
  simp only [View.mk.injEq]
  exact ⟨funext hroot, funext hhnd⟩

/-- Only the two pointers of a process matter for the view. -/
theorem view_setProc (s : Sys) (i : Fin nproc) (p : Proc) :
    view (s.setProc i p) =
      ((view s).setRoot (.proc i) (pageOf p.pagetable)).setHnd (.trapframe i)
        (pageOf p.trapframe) := by
  refine View.ext (fun t => ?_) (fun h => ?_)
  · cases t with
    | proc j =>
      by_cases hj : j = i
      · subst hj
        simp [view]
      · simp [view, hj]
    | _ => rfl
  · cases h with
    | trapframe j =>
      by_cases hj : j = i
      · subst hj
        simp [view]
      · simp [view, hj]
    | _ => rfl

theorem View.setHnd_same {v : View} {h : Handle} {x : Option Nat} (hx : v.hnd h = x) :
    v.setHnd h x = v := by
  subst hx
  cases v
  simp [View.setHnd]

theorem View.setRoot_same {v : View} {t : TableId} {x : Option Nat} (hx : v.root t = x) :
    v.setRoot t x = v := by
  subst hx
  cases v
  simp [View.setRoot]

theorem view_setProc_same {s : Sys} {i : Fin nproc} {p : Proc}
    (hpt : p.pagetable = (s.procs i).pagetable) (htf : p.trapframe = (s.procs i).trapframe) :
    view (s.setProc i p) = view s := by
  rw [view_setProc, hpt, htf]
  exact (congrArg (View.setHnd · _ _) (View.setRoot_same rfl)).trans (View.setHnd_same rfl)

theorem view_congr {s s' : Sys} (hk : s'.kernelPagetable = s.kernelPagetable)
    (hp : ∀ j, (s'.procs j).pagetable = (s.procs j).pagetable ∧
      (s'.procs j).trapframe = (s.procs j).trapframe)
    (hs : s'.kstack = s.kstack) (hd : s'.disk = s.disk) (hpi : s'.pipes = s.pipes)
    (hr : s'.raw = s.raw) : view s' = view s := by
  refine View.ext (fun t => ?_) (fun h => ?_)
  · cases t <;> simp [view, hk, hp]
  · cases h <;> simp [view, hp, hs, hd, hpi, hr]

/-! ## §3 The invariant -/

/-- What holds of a process at every point. -/
structure Parts (f : Entries) (i : Fin nproc) (p : Proc) : Prop where
  size : p.sz ≤ trapframeVa
  sized : Sized f (.proc i) p.sz
  table : p.pagetable % 4096 = 0
  frame : p.trapframe % 4096 = 0

/-- A process is UNUSED exactly if it has no page table and no trapframe;
then its size is 0. -/
structure Whole (p : Proc) : Prop where
  table : p.pagetable = 0 ↔ p.state = .unused
  frame : p.trapframe = 0 ↔ p.state = .unused
  size : p.state = .unused → p.sz = 0

/-- What exists at each boot stage. -/
structure Booting (s : Sys) : Prop where
  kernel : s.stage = 0 → s.kernelPagetable = 0 ∧ ∀ i, s.kstack i = none
  disk : s.stage ≤ 1 → ∀ k, s.disk k = none

structure SysInv (L : Layout) (E : Option (Fin nproc)) (f : Entries)
    (c : Slot → Page) (s : Sys) : Prop where
  inv : Inv L (view s) f c s.mach
  parts : ∀ i, Parts f i (s.procs i)
  whole : ∀ i, some i ≠ E → Whole (s.procs i)
  kstacks : ∀ i p, s.kstack i = some p → (f .kernel (kstackVa i / 4096)).map ppn = some p
  booting : Booting s

/-! ## §4 What operations leave alone -/

/-- A process as far as another one's operation can change it. -/
structure Same (p p' : Proc) : Prop where
  pagetable : p'.pagetable = p.pagetable
  trapframe : p'.trapframe = p.trapframe
  sz : p'.sz = p.sz
  state : p'.state = p.state ∨ p.state = .sleeping ∧ p'.state = .runnable

theorem Same.refl (p : Proc) : Same p p := ⟨rfl, rfl, rfl, .inl rfl⟩

theorem Same.trans {p p' p'' : Proc} (h : Same p p') (h' : Same p' p'') : Same p p'' := by
  refine ⟨h'.pagetable.trans h.pagetable, h'.trapframe.trans h.trapframe, h'.sz.trans h.sz, ?_⟩
  rcases h.state with e | ⟨e1, e2⟩ <;> rcases h'.state with e' | ⟨e1', e2'⟩
  · exact .inl (e'.trans e)
  · exact .inr ⟨e ▸ e1', e2'⟩
  · exact .inr ⟨e1, e'.trans e2⟩
  · rw [e2] at e1'
    cases e1'

theorem Same.unused {p p' : Proc} (h : Same p p') : p'.state = .unused ↔ p.state = .unused := by
  rcases h.state with e | ⟨e1, e2⟩
  · rw [e]
  · rw [e1, e2]
    simp

structure Kept (A : Fin nproc → Prop) (s s' : Sys) (f f' : Entries)
    (c c' : Slot → Page) : Prop where
  kernel : f' .kernel = f .kernel
  kernelPagetable : s'.kernelPagetable = s.kernelPagetable
  kstack : s'.kstack = s.kstack
  disk : s'.disk = s.disk
  stage : s'.stage = s.stage
  initproc : s'.initproc = s.initproc
  same : ∀ j, ¬ A j → Same (s.procs j) (s'.procs j)
  entries : ∀ j, ¬ A j → f' (.proc j) = f (.proc j)
  data : ∀ j, ¬ A j → ∀ vpn, c' (.proc j, vpn) = c (.proc j, vpn)

section

variable {A A' : Fin nproc → Prop} {s s' s'' : Sys} {f f' f'' : Entries}
  {c c' c'' : Slot → Page} {L : Layout} {E : Option (Fin nproc)} {i : Fin nproc} {m : Mach}

theorem Kept.refl : Kept A s s f f c c :=
  ⟨rfl, rfl, rfl, rfl, rfl, rfl, fun _ _ => .refl _, fun _ _ => rfl, fun _ _ _ => rfl⟩

theorem Kept.trans (h : Kept A s s' f f' c c') (h' : Kept A s' s'' f' f'' c' c'') :
    Kept A s s'' f f'' c c'' :=
  ⟨h'.kernel.trans h.kernel, h'.kernelPagetable.trans h.kernelPagetable,
    h'.kstack.trans h.kstack, h'.disk.trans h.disk, h'.stage.trans h.stage,
    h'.initproc.trans h.initproc, fun j hj => (h.same j hj).trans (h'.same j hj),
    fun j hj => (h'.entries j hj).trans (h.entries j hj),
    fun j hj vpn => (h'.data j hj vpn).trans (h.data j hj vpn)⟩

theorem Kept.mono (h : Kept A s s' f f' c c') (hA : ∀ j, A j → A' j) : Kept A' s s' f f' c c' :=
  ⟨h.kernel, h.kernelPagetable, h.kstack, h.disk, h.stage, h.initproc,
    fun j hj => h.same j (fun a => hj (hA j a)), fun j hj => h.entries j (fun a => hj (hA j a)),
    fun j hj => h.data j (fun a => hj (hA j a))⟩

theorem Parts.congr {p p' : Proc} (h : Parts f i p) (hs : Same p p')
    (hf : f' (.proc i) = f (.proc i)) : Parts f' i p' := by
  refine ⟨hs.sz ▸ h.size, fun vpn h1 h2 => ?_, hs.pagetable ▸ h.table, hs.trapframe ▸ h.frame⟩
  rw [hf]
  exact h.sized vpn (hs.sz ▸ h1) h2

theorem Whole.congr {p p' : Proc} (h : Whole p) (hs : Same p p') : Whole p' := by
  constructor
  · rw [hs.pagetable, hs.unused, h.table]
  · rw [hs.trapframe, hs.unused, h.frame]
  · rw [hs.sz, hs.unused]
    exact h.size

/-- The invariant after an operation that concerned the processes in `A`. -/
theorem SysInv.next {E' : Option (Fin nproc)} (h : SysInv L E f c s)
    (hk : Kept A s s' f f' c c') (hi : Inv L (view s') f' c' s'.mach)
    (hparts : ∀ j, A j → Parts f' j (s'.procs j))
    (hwhole : ∀ j, some j ≠ E' → (A j ∨ some j = E) → Whole (s'.procs j)) :
    SysInv L E' f' c' s' := by
  refine ⟨hi, fun j => ?_, fun j hj => ?_, ?_, ⟨?_, ?_⟩⟩
  · by_cases hA : A j
    · exact hparts j hA
    · exact (h.parts j).congr (hk.same j hA) (hk.entries j hA)
  · by_cases hA : A j ∨ some j = E
    · exact hwhole j hj hA
    · rw [not_or] at hA
      exact (h.whole j hA.2).congr (hk.same j hA.1)
  · rw [hk.kstack, hk.kernel]
    exact h.kstacks
  · rw [hk.stage, hk.kernelPagetable, hk.kstack]
    exact h.booting.kernel
  · rw [hk.stage, hk.disk]
    exact h.booting.disk

/-- Code that works on the memory of process `i` alone. -/
theorem Kept.memory (hother : ∀ t, t ≠ .proc i → f' t = f t)
    (hdata : AgreeOff c c' (.proc i)) : Kept (· = i) s (s.setMach m) f f' c c' := by
  refine ⟨hother _ (by simp), rfl, rfl, rfl, rfl, rfl, fun _ _ => .refl _, fun j hj => ?_,
    fun j hj vpn => ?_⟩
  · exact hother _ (by simpa using hj)
  · exact hdata _ (by simpa using hj)

theorem Kept.setProc (p : Proc) : Kept (· = i) s (s.setProc i p) f f c c := by
  refine ⟨rfl, rfl, rfl, rfl, rfl, rfl, fun j hj => ?_, fun _ _ => rfl, fun _ _ _ => rfl⟩
  rw [Sys.setProc_ne _ _ _ hj]
  exact .refl _

end

end Xv6
