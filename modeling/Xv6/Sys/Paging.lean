/-
Xv6.Sys.Paging — what a page fault and `sbrk` do to the pages of a process.

Both end in one of two ways: they do all that was asked, or they leave the
process's memory as it was. Which of the two it is depends only on the entry
of the page, on the size of the process and on the free pages: `avail` counts
these, and `lack` the table pages that a walk would have to add. A call that
gives up may keep such table pages, but nothing is mapped through them.
§1 faults, §2 `sbrk`.
-/
import Xv6.Sys.Copying

namespace Xv6

open Xv6.Vm Xv6.Lib

variable {L : Layout} {f f' : Entries} {c c' : Slot → Page} {s s' : Sys} {i : Fin nproc}

/-! ## §1 Faults -/

/-- The faults that do not kill: a store to a page that is marked for copying
and has no other user or a free page for the copy, and an access below the
size to a page that is not mapped while there is memory for it. -/
def Resolvable (L : Layout) (s : Sys) (i : Fin nproc) (store : Bool) (va : Nat) : Prop :=
  store = true ∧ (∃ w, pte s i (va / pgSize) = some w ∧ hasFlag w pteU = true ∧
      hasFlag w pteCow = true ∧ (s.mach.refcount (ppn w) = 1 ∨ 0 < avail L s.mach)) ∨
    va < (s.procs i).sz ∧ pte s i (va / pgSize) = none ∧
      1 + lack s.mach.mem (view s) (.proc i) {va / pgSize} ≤ avail L s.mach

/-- The entry for `va` serves the access, and no other entry shares its page. -/
def Served (s : Sys) (i : Fin nproc) (va : Nat) (need : Word) : Prop :=
  ∃ w, pte s i (va / pgSize) = some w ∧ hasFlag w pteV = true ∧ hasFlag w pteU = true ∧
    hasFlag w need = true ∧ s.mach.refcount (ppn w) = 1

/-- All that is new is table pages of process `i` that lead to no entry. -/
structure TablesOnly (s s' : Sys) (i : Fin nproc) : Prop where
  entries : ∀ j vpn, pte s' j vpn = pte s j vpn
  counts : ∀ p, s'.mach.refcount p = s.mach.refcount p ∨
    s.mach.refcount p = 0 ∧ s'.mach.refcount p = 1 ∧ ∃ o, o.In (.proc i) ∧
      own s'.mach.mem (view s') o = some p ∧
      ∀ vpn, o ∈ tablesTo (.proc i) {vpn} → pte s' i vpn = none

theorem SysInv.handled_iff (h : SysInv L none f c s) {store : Bool} {va : Nat} :
    Handled L f s i store va ↔ Resolvable L s i store va := by
  simp only [Handled, Copyable, Fillable, Resolvable, h.pte_eq, pgSize_eq]

/-- A page that has no table on the way to it is not mapped. -/
theorem pte_of_table {o : Owner} (ho : own s.mach.mem (view s) o = none) {vpn : Nat}
    (hmem : o ∈ tablesTo (.proc i) {vpn}) : pte s i vpn = none := by
  refine lf_none_of_low ?_
  simp only [tablesTo, Finset.singleton_biUnion, Finset.mem_insert, Finset.mem_singleton] at hmem
  rcases hmem with rfl | rfl
  · exact own_low_none ho _
  · exact ho

theorem FaultPost.tablesOnly {va : Nat} {m : Mach} (hp : FaultPost L f c s i va false f' m)
    (h : SysInv L none f c s) (h' : SysInv L none f' c (s.setMach m)) :
    TablesOnly s (s.setMach m) i := by
  obtain ⟨rfl, hkeep⟩ := hp.same rfl
  have hpte : ∀ j vpn, pte (s.setMach m) j vpn = pte s j vpn := fun j vpn => by
    rw [h'.pte_eq, h.pte_eq]
  refine ⟨hpte, fun p => ?_⟩
  rcases h.inv.base.exact.grow h'.inv.base.exact hkeep p with heq | ⟨h0, h1, o, hnone, ho⟩
  · exact .inl heq
  refine .inr ⟨h0, h1, o, ?_, ho, fun vpn hmem => ?_⟩
  · by_contra hin
    have hmine : ¬ Mine (.proc i) o := by
      rintro (rfl | hin')
      · cases ho
      · exact hin hin'
    have hrole := hp.spares.role hmine
    rw [hnone] at hrole
    exact Option.some_ne_none p (ho.symm.trans hrole)
  · rw [hpte]
    exact pte_of_table hnone hmem

/-- What `usertrap` decides about a fault at `va`. -/
structure FaultEnd (L : Layout) (s : Sys) (i : Fin nproc) (store : Bool) (va : Nat) (r : Bool)
    (m : Mach) : Prop where
  spared : r = true ↔ Resolvable L s i store va
  served : r = true → Served (s.setMach m) i va (if store then pteW else pteR) ∧
    Total (mmu (s.procs i).pagetable va (if store then pteW else pteR)) m fun pa _ => pa ≠ none
  killed : r = false → TablesOnly s (s.setMach m) i
  -- text and guard pages, and all from the trapframe on
  always : (∃ w, pte s i (va / pgSize) = some w ∧
      (hasFlag w pteU = false ∨ hasFlag w pteCow = false)) ∨ trapframeVa ≤ va → r = false

/-- In every state the system reaches, a load or store fault of a process is
resolved exactly if it can be. The access then succeeds, on a page that is the
process's own; otherwise the process is killed, and no entry and no count
changes but for table pages that lead nowhere. -/
theorem faults_resolved_or_killed (L : Layout) (mem : Nat → Page) (ops : List Op) :
    Meets (· ∈ runPanics) (run L ops) (Sys.atReset mem) fun _ s =>
      ∀ i store (va : Word), (s.procs i).state ≠ .unused →
        Total (handleFault L (s.procs i).mm store va.toNat) s.mach
          (FaultEnd L s i store va.toNat) := by
  refine (run_spec L mem ops).imp ?_
  rintro _ s ⟨f, c, a, h, -, -⟩ i store va hu
  refine (handleFault_spec h hu store va.toNat).imp ?_
  rintro r m ⟨hiff, f', hp⟩
  rw [h.handled_iff] at hiff
  obtain ⟨h', -⟩ := h.faulted hp.inv hp.faulted .refl
  refine ⟨hiff, fun hr => ?_, ?_, fun hbad => ?_⟩
  · obtain ⟨hv, w, hw, hU, hW⟩ := hp.entry hr
    have hleaf : lf m.mem (view s) (.proc i) (va.toNat / 4096) = some w := by
      rw [hp.inv.lf_eq, hw]
    have hneed : hasFlag w (if store = true then pteW else pteR) = true := by
      split
      · exact hW
      · exact (hp.inv.base.shape.leaf hleaf).1
    have hone : m.refcount (ppn w) = 1 := h'.count_writable ((uleaf_eq (by simp) hv).trans hw) hW
    obtain ⟨-, -, -, -, hV⟩ := lf_some hleaf
    refine ⟨⟨w, by rw [h'.pte_eq, pgSize_eq, hw], hV, hU, hneed, hone⟩, ?_⟩
    refine (h'.mmu (i := i) (h.used hu).1 va.isLt _).imp ?_
    rintro pa m2 ⟨-, rfl⟩
    rw [access_some.mpr ⟨w, hw, hU, hneed, rfl⟩]
    exact Option.some_ne_none _
  · rintro rfl
    exact hp.tablesOnly h h'
  · by_contra hr
    rcases hiff.mp (by simpa using hr) with ⟨-, w, hw, hU, hC, -⟩ | ⟨hlt, hnone, -⟩
    · rcases hbad with ⟨w', hw', hno⟩ | hge
      · cases hw.symm.trans hw'
        simp [hU, hC] at hno
      · rw [h.pte_eq, pgSize_eq] at hw
        rw [trapframeVa_eq] at hge
        rw [(h.inv.base.shape.leaf (h.inv.lf_eq ▸ hw)).2 (.inr (by rw [userPages_eq]; omega))] at hU
        cases hU
    · rcases hbad with ⟨w', hw', -⟩ | hge
      · cases hnone.symm.trans hw'
      · have := (h.parts i).size
        omega

end Xv6
