/-
Xv6.Sys.Safety — what holds in every state the system can reach.

All results here are read off the invariant of `Xv6.Sys.StepTheorems`. A run
is `kinit` followed by any operations of any processes; it returns, or it
stops with one of the `runPanics`.

§1 what the hardware sees, §2 reference counts, §3 sharing, §4 sizes and
panics, §5 private memory.
-/
import Mathlib.Data.Set.Card
import Xv6.Sys.StepTheorems

namespace Xv6

open Xv6.Vm Xv6.Lib
open Function

variable {L : Layout} {f f' : Entries} {c c' : Slot → Page} {s s' : Sys}
  {i j : Fin nproc}

/-! ## §1 Page tables -/

/-- The leaf entry for page `vpn` in the table of process `i`. -/
def pte (s : Sys) (i : Fin nproc) (vpn : Nat) : Option Word :=
  lf s.mach.mem (view s) (.proc i) vpn

theorem SysInv.pte_eq (h : SysInv L none f c s) (i : Fin nproc) (vpn : Nat) :
    pte s i vpn = f (.proc i) vpn := by
  rw [pte, h.inv.lf_eq]

theorem SysInv.uleaf_pte (h : SysInv L none f c s) (i : Fin nproc) {vpn : Nat}
    (hv : vpn < userPages) : uleaf f (.proc i, ⟨vpn, hv⟩) = pte s i vpn := by
  rw [uleaf_eq (by simp) hv, h.pte_eq]

/-- How many user entries map physical page `p`. -/
def mappings (s : Sys) (p : Nat) : Nat :=
  refs (fun x : Fin nproc × Fin userPages => (pte s x.1 x.2).map ppn) p

/-- The kernel owners of page `p`: page-table pages, trapframes, kernel
stacks, pipes, arguments of exec, disk rings, and other kernel code. -/
def owners (s : Sys) (p : Nat) : Set Owner := {o | own s.mach.mem (view s) o = some p}

theorem SysInv.uref_pte (h : SysInv L none f c s) (i : Fin nproc) (v : Fin userPages) :
    uref f (.proc i, v) = (pte s i v).map ppn := by
  rw [← h.uleaf_pte i v.isLt]
  rfl

/-- Every user entry that counts belongs to a process. -/
theorem SysInv.uref_proc (h : SysInv L none f c s) {sl : Slot} {p : Nat}
    (hs : uref f sl = some p) : ∃ i, (.proc i, sl.2) = sl := by
  obtain ⟨t, v⟩ := sl
  cases t with
  | kernel => simp [uref, uleaf] at hs
  | exec =>
    have hnone : f .exec v = none := h.inv.root_none rfl v
    simp [uref, uleaf, hnone] at hs
  | proc i => exact ⟨i, rfl⟩

/-- The references that the counters count are the user entries. -/
theorem SysInv.refs_eq (h : SysInv L none f c s) (p : Nat) : refs (uref f) p = mappings s p := by
  have hcomp : (fun x : Fin nproc × Fin userPages => (pte s x.1 x.2).map ppn) =
      uref f ∘ fun x => (.proc x.1, x.2) := by
    funext x
    exact (h.uref_pte x.1 x.2).symm
  unfold mappings
  rw [hcomp, refs_comp]
  · rintro ⟨i, v⟩ ⟨j, w⟩ he
    obtain ⟨h1, rfl⟩ := Prod.mk.inj he
    cases h1
    rfl
  · intro sl q hs
    obtain ⟨i, hi⟩ := h.uref_proc hs
    exact ⟨(i, sl.2), hi⟩

/-! ## §2 Reference counts -/

theorem SysInv.owners_le (h : SysInv L none f c s) (p : Nat) : (owners s p).encard ≤ 1 :=
  Set.encard_le_one_iff.mpr fun _ _ h1 h2 => h.inv.base.exact.own_inj h1 h2

/-- A count is the number of user entries or, for a page the kernel owns, 1. -/
theorem SysInv.count (h : SysInv L none f c s) (p : Nat) :
    s.mach.refcount p = mappings s p + (owners s p).ncard ∧
      (mappings s p = 0 ∨ owners s p = ∅) := by
  have hex := h.inv.base.exact
  rcases (owners s p).eq_empty_or_nonempty with he | ⟨o, ho⟩
  · refine ⟨?_, .inr he⟩
    have hno : ∀ o, own s.mach.mem (view s) o ≠ some p := by
      intro o ho
      have : o ∈ owners s p := ho
      rw [he] at this
      exact this
    rw [hex.rc_ref hno, h.refs_eq, he, Set.ncard_empty, Nat.cast_zero, add_zero]
  · have hone : owners s p = {o} := by
      ext o'
      exact ⟨fun ho' => hex.own_inj ho' ho, fun e => by rw [Set.mem_singleton_iff.mp e]; exact ho⟩
    have hzero : mappings s p = 0 := by
      rw [← h.refs_eq, refs_eq_zero]
      exact fun r => hex.own_ref ho
    refine ⟨?_, .inl hzero⟩
    rw [hex.own_rc ho, hzero, hone, Set.ncard_singleton]
    rfl

/-- In every state the system reaches, each usable page is counted exactly:
by its user entries or by its one kernel owner, and it is on the free list,
once, exactly if there is neither. -/
theorem refcounts_exact (L : Layout) (mem : Nat → Page) (ops : List Op) :
    Meets (· ∈ runPanics) (run L ops) (Sys.atReset mem) fun _ s =>
      (∃ fl, FreeChain s.mach.mem s.mach.freelist fl ∧ (∀ p ∈ fl, L.Usable p) ∧
        ∀ p, L.Usable p →
          s.mach.refcount p = mappings s p + (owners s p).ncard ∧
          (mappings s p = 0 ∨ owners s p = ∅) ∧
          (owners s p).encard ≤ 1 ∧
          fl.count p = if s.mach.refcount p = 0 then 1 else 0) ∧
      -- a kernel stack is what the kernel's table maps at its address
      ∀ i p, s.kstack i = some p →
        (lf s.mach.mem (view s) .kernel (kstackVa i / pgSize)).map ppn = some p := by
  refine (run_spec L mem ops).imp ?_
  rintro _ s ⟨f, c, a, h, -, -⟩
  obtain ⟨fl, hchain, hnd, hfl⟩ := h.inv.base.free
  refine ⟨⟨fl, hchain, fun p hp => ((hfl p).mp hp).1, fun p hp => ?_⟩, ?_⟩
  · obtain ⟨hcount, hexcl⟩ := h.count p
    refine ⟨hcount, hexcl, h.owners_le p, ?_⟩
    split
    · rename_i h0
      exact List.count_eq_one_of_mem hnd ((hfl p).mpr ⟨hp, h0⟩)
    · rename_i h0
      exact List.count_eq_zero_of_not_mem fun hmem => h0 ((hfl p).mp hmem).2
  · rw [h.inv.lf_eq, pgSize_eq]
    exact h.kstacks

/-! ## §3 Sharing -/

/-- No page is counted more often than there are processes. -/
theorem SysInv.count_le (h : SysInv L none f c s) (p : Nat) : s.mach.refcount p ≤ nproc := by
  have hex := h.inv.base.exact
  by_cases ho : ∃ o, own s.mach.mem (view s) o = some p
  · obtain ⟨o, ho⟩ := ho
    rw [hex.own_rc ho]
    decide
  · rw [hex.rc_ref fun o hp => ho ⟨o, hp⟩, h.refs_eq]
    -- entries for one page sit at one virtual page, so their processes differ
    have hle : mappings s p ≤ Fintype.card (Fin nproc) := by
      refine refs_le_card Prod.fst ?_
      rintro ⟨i, v⟩ ⟨j, v'⟩ hx hy he
      obtain ⟨w, hw, hwp⟩ := Option.map_eq_some_iff.mp hx
      obtain ⟨w', hw', hwp'⟩ := Option.map_eq_some_iff.mp hy
      have hvv := h.inv.cow.same ((h.uleaf_pte i v.isLt).trans hw)
        ((h.uleaf_pte j v'.isLt).trans hw') (hwp'.trans hwp.symm)
      exact Prod.ext he hvv.symm
    exact Int.ofNat_le.mpr hle

/-- The page of a writable entry is counted once. -/
theorem SysInv.count_writable (h : SysInv L none f c s) {sl : Slot} {w : Word}
    (hleaf : uleaf f sl = some w) (hW : hasFlag w pteW = true) : s.mach.refcount (ppn w) = 1 := by
  have hsole : ∀ sl', uref f sl' = some (ppn w) → sl' = sl := by
    intro sl' hsl
    obtain ⟨w', hw', hp⟩ := uref_some hsl
    exact h.inv.cow.excl hleaf hW hw' hp
  obtain ⟨hrc, hpos⟩ := h.inv.base.exact.ref_rc (uref_of_uleaf hleaf)
  have hle : refs (uref f) (ppn w) ≤ Fintype.card Unit :=
    refs_le_card (fun _ => ()) fun x y hx hy _ => (hsole x hx).trans (hsole y hy).symm
  rw [Fintype.card_unit] at hle
  omega

/-- In every state the system reaches, a writable user entry is the only
user entry for its page, and the page is counted once; no entry is writable
and marked for copying; a page is shared only at one virtual page. -/
theorem writable_exclusive (L : Layout) (mem : Nat → Page) (ops : List Op) :
    Meets (· ∈ runPanics) (run L ops) (Sys.atReset mem) fun _ s =>
      (∀ i vpn w, vpn < userPages → pte s i vpn = some w →
        (hasFlag w pteW = true → s.mach.refcount (ppn w) = 1 ∧
          ∀ j vpn' w', vpn' < userPages → pte s j vpn' = some w' → ppn w' = ppn w →
            j = i ∧ vpn' = vpn) ∧
        ¬ (hasFlag w pteW = true ∧ hasFlag w pteCow = true) ∧
        ∀ j vpn' w', vpn' < userPages → pte s j vpn' = some w' → ppn w' = ppn w → vpn' = vpn) ∧
      ∀ p, 0 ≤ s.mach.refcount p ∧ s.mach.refcount p ≤ nproc := by
  refine (run_spec L mem ops).imp ?_
  rintro _ s ⟨f, c, a, h, -, -⟩
  refine ⟨fun i vpn w hv hw => ?_, fun p => ⟨h.inv.base.exact.rc_nonneg p, h.count_le p⟩⟩
  have hleaf := (h.uleaf_pte i hv).trans hw
  refine ⟨fun hW => ?_, fun hWC => ?_, fun j vpn' w' hv' hw' hp => ?_⟩
  · refine ⟨h.count_writable hleaf hW, fun j vpn' w' hv' hw' hp => ?_⟩
    obtain ⟨h1, h2⟩ := Prod.mk.inj (h.inv.cow.excl hleaf hW ((h.uleaf_pte j hv').trans hw') hp)
    cases h1
    exact ⟨rfl, congrArg Fin.val h2⟩
  · rw [h.inv.cow.wcow hleaf hWC.1] at hWC
    exact absurd hWC.2 (by decide)
  · have he := h.inv.cow.same hleaf ((h.uleaf_pte j hv').trans hw') hp
    exact congrArg Fin.val he

/-! ## §4 Sizes and panics -/

/-- The panics of the memory code, and the bounds of the model's loops. -/
def vmPanics : List Panic :=
  [.walk, .mappagesRemap, .mappagesVa, .mappagesSizeAligned, .mappagesSize, .uvmunmapAligned,
    .freewalkLeaf, .uvmclear, .loadsegAddr, .kfree, .kfreeRefcount, .kaddref, .kaddrefRefcount,
    .kgetref, .outOfFuel]

theorem runPanics_vm {e : Panic} (h : e ∈ runPanics) : e ∉ vmPanics := by
  revert h
  cases e <;> decide

/-- No sequence of operations reaches a panic of the memory code, and every
size and every mapping is within its bounds. Once the system is booted, the
only panic left is that of init exiting. -/
theorem vm_panics_unreachable (L : Layout) (mem : Nat → Page) (ops : List Op) :
    Meets (fun e => e ∈ runPanics ∧ e ∉ vmPanics) (run L ops) (Sys.atReset mem) fun _ s =>
      (∀ i, (s.procs i).sz ≤ trapframeVa ∧
        ∀ vpn, vpn < userPages → pgRoundUp (s.procs i).sz ≤ vpn * pgSize → pte s i vpn = none) ∧
      ∀ op, Meets (fun e => e = .initExiting ∨ e ∈ bootPanics ∧ s.stage < 3) (step L op) s
        fun _ _ => True := by
  refine (run_spec L mem ops).mono ?_ (fun e he => ⟨he, runPanics_vm he⟩)
  rintro _ s ⟨f, c, a, h, -, -⟩
  refine ⟨fun i => ⟨(h.parts i).size, fun vpn hv hle => ?_⟩, fun op => ?_⟩
  · rw [pgRoundUp_eq (h.parts i).size, pgSize_eq] at hle
    rw [h.pte_eq]
    exact (h.parts i).sized vpn (by omega) hv
  · refine (step_spec h op).mono (fun _ _ _ => trivial) (fun e he => ?_)
    rcases he with he | ⟨-, he, hst⟩
    · exact .inl he
    · exact .inr ⟨he, hst⟩

/-! ## §5 Private memory -/

/-- The byte that process `j` reads at `va`: the lookup of the hardware, then
physical memory. -/
def userByte (s : Sys) (j : Fin nproc) (va : Word) : Option Byte :=
  match (mmu (s.procs j).pagetable va.toNat pteR).run s.mach with
  | .ok (some pa, m) => some (pageByte (m.mem (pa / pgSize)) (va.toNat % pgSize))
  | _ => none

theorem SysInv.userByte_eq (h : SysInv L none f c s) (hu : (s.procs j).state ≠ .unused)
    (va : Word) :
    userByte s j va =
      (Vm.access f (.proc j) va.toNat pteR).map fun _ => ubyte c (.proc j) va.toNat := by
  obtain ⟨r, m, hrun, rfl, rfl⟩ := (h.mmu (h.used hu).1 va.isLt pteR).elim
  unfold userByte
  rw [hrun]
  cases ha : Vm.access f (.proc j) va.toNat pteR with
  | none => rfl
  | some p =>
    obtain ⟨w, hv, hw, -, rfl⟩ := h.access ha
    simp only [Option.map_some, mul_div_pgSize]
    exact congrArg some (h.byte hv hw)

/-- A step leaves what the other live processes read alone. -/
theorem Stepped.userByte_eq {op : Op} {r : Res} (h : SysInv L none f c s)
    (hst : Stepped L op f c s r f' c' s') (hj : op.actor ≠ some j) (hl : (s.procs j).live)
    (va : Word) : userByte s' j va = userByte s j va := by
  have hu' : (s'.procs j).state ≠ .unused := mt (hst.same j hj hl).unused.mp hl.1
  have ha : Vm.access f' (.proc j) va.toNat pteR = Vm.access f (.proc j) va.toNat pteR := by
    unfold Vm.access
    rw [hst.entries j hj hl]
  rw [hst.inv.userByte_eq hu', h.userByte_eq hl.1, ha,
    ubyte_congr fun hv => hst.data j hj hl ⟨_, hv⟩]

/-- Copy-on-write memory behaves as private memory. Every run follows the
private model with the same answers, and what a process reads in the end is
what it has there. From the state reached, no step of one process changes a
byte that another live process reads. -/
theorem cow_refines_private (L : Layout) (mem : Nat → Page) (ops : List Op) :
    Meets (· ∈ runPanics) (run L ops) (Sys.atReset mem) fun rs s =>
      (∃ a, PRuns (fun _ => .empty) ops rs a ∧
        ∀ j va b, (s.procs j).state ≠ .unused → userByte s j va = some b →
          (a j).byte va.toNat = b) ∧
      ∀ op, Meets (Admitted op s) (step L op) s fun _ s' =>
        ∀ j va, op.actor ≠ some j → (s.procs j).live → userByte s' j va = userByte s j va := by
  refine (run_spec L mem ops).imp ?_
  rintro rs s ⟨f, c, a, h, ha, hruns⟩
  refine ⟨⟨a, hruns, fun j va b hu hb => ?_⟩, fun op => ?_⟩
  · rw [h.userByte_eq hu] at hb
    obtain ⟨p, -, rfl⟩ := Option.map_eq_some_iff.mp hb
    exact (ha j).byte _
  · refine (step_spec h op).imp ?_
    rintro r s' ⟨f', c', hst⟩ j va hj hl
    exact hst.userByte_eq h hj hl va

end Xv6
