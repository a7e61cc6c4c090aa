/-
Xv6.Sys.ProcTheorems — creating, ending and reaping processes.

One lemma for each function of `kernel/proc.c` that makes or frees a process,
over `SysInv` and `Kept`. Each failure exit gives back what was taken, so a
failed call leaves the entries and the contents of every table as they were,
but for the parent's entries that a fork has made copy-on-write.
-/
import Xv6.Sys.Invariant

namespace Xv6

open Xv6.Vm Xv6.Lib
open Function

/-! ## §1 Rules -/

section Rules

variable {α : Type} {s : Sys} {E : Panic → Prop} {i : Fin nproc} {Q : Unit → Sys → Prop}

theorem meets_vm {x : M α} {Q : α → Sys → Prop}
    (h : Meets E x s.mach fun a m => Q a (s.setMach m)) : Meets E (vm x) s Q := meets_focus h

/-- Cite a lemma about page-table code, then continue with its machine. -/
theorem meets_vm_seq {β : Type} {x : M α} {k : α → K β} {P : α → Mach → Prop}
    {Q : β → Sys → Prop} (hx : Meets E x s.mach P)
    (hk : ∀ a m, P a m → Meets E (k a) (s.setMach m) Q) : Meets E (vm x >>= k) s Q :=
  meets_focus_seq hx hk

theorem meets_getProc {k : Proc → K α} {Q : α → Sys → Prop} (h : Meets E (k (s.procs i)) s Q) :
    Meets E (getProc i >>= k) s Q := Meets.bind (.ok rfl h)

theorem meets_modifyProc {g : Proc → Proc} (h : Q () (s.setProc i (g (s.procs i)))) :
    Meets E (modifyProc i g) s Q := .ok rfl h

theorem meets_modifyTable {g : Table → Table} (h : Q () (s.setProcs (g s.procs))) :
    Meets E (modifyTable g) s Q := .ok rfl h

theorem meets_when {b : Bool} {x : K Unit} (ht : b = true → Meets E x s Q) (hf : b = false → Q () s)
    : Meets E (when b x) s Q :=
  meets_ite ht (fun h => meets_pure (hf (by simpa using h)))

end Rules

variable {L : Layout} {f f' : Entries} {c c' : Slot → Page} {s s' : Sys}
  {i : Fin nproc} {E : Option (Fin nproc)} {m : Mach} {p : Proc} {np : Fin nproc}

/-- The page table of a process that has one. -/
theorem SysInv.root (h : SysInv L E f c s) (h0 : (s.procs i).pagetable ≠ 0) :
    ∃ pg, 0 < pg ∧ (s.procs i).pagetable = 4096 * pg ∧ (view s).root (.proc i) = some pg := by
  have := (h.parts i).table
  exact ⟨(s.procs i).pagetable / 4096, by omega, by omega, pageOf_ne h0⟩

/-- The trapframe of a process that has one. -/
theorem SysInv.frame (h : SysInv L E f c s) (h0 : (s.procs i).trapframe ≠ 0) :
    ∃ tf, 0 < tf ∧ (s.procs i).trapframe = 4096 * tf ∧ (view s).hnd (.trapframe i) = some tf := by
  have := (h.parts i).frame
  exact ⟨(s.procs i).trapframe / 4096, by omega, by omega, pageOf_ne h0⟩

/-! ## §2 Freeing -/

/-- What slot `i` owns: its page table and its trapframe, and the page held
while they are made. -/
def SlotOwns (i : Fin nproc) (o : Owner) : Prop := Mine (.proc i) o ∨ o = .hnd (.trapframe i)

theorem Vm.Spares.slot {v v' : View} {m' : Mach} (h : Spares L (Mine (.proc i)) v m v' m') :
    Spares L (SlotOwns i) v m v' m' := h.mono (fun _ => .inl)

/-- Only slot `i` and what it owns have changed. -/
structure OnlySlot (L : Layout) (i : Fin nproc) (s s' : Sys) : Prop where
  procs : ∀ j, j ≠ i → s'.procs j = s.procs j
  spares : Spares L (SlotOwns i) (view s) s.mach (view s') s'.mach

theorem OnlySlot.trans {s'' : Sys} (h : OnlySlot L i s s') (h' : OnlySlot L i s' s'') :
    OnlySlot L i s s'' :=
  ⟨fun j hj => (h'.procs j hj).trans (h.procs j hj), h.spares.trans h'.spares⟩

/-- `freeproc`'s first part: the trapframe page. -/
theorem freeTrapframe_spec (h : SysInv L E f c s) :
    Total (when ((s.procs i).trapframe ≠ 0) (vm (kfree L (s.procs i).trapframe))) s fun _ s' =>
      ∃ m, s' = s.setMach m ∧ Inv L ((view s).setHnd (.trapframe i) none) f c m ∧
        Spares L (SlotOwns i) (view s) s.mach ((view s).setHnd (.trapframe i) none) m := by
  refine meets_when (fun h0 => meets_vm ?_) (fun h0 => ?_)
  · obtain ⟨tf, -, htf, hh⟩ := h.frame (of_decide_eq_true h0)
    rw [htf]
    refine (h.inv.kfree_hnd hh).imp ?_
    rintro - m ⟨hi, hs⟩
    exact ⟨m, rfl, hi, hs.mono (fun _ => .inr)⟩
  · refine ⟨s.mach, rfl, ?_⟩
    rw [View.setHnd_same]
    · exact ⟨h.inv, .refl⟩
    · show pageOf (s.procs i).trapframe = none
      rw [not_not.mp (of_decide_eq_false h0), pageOf_zero]

/-- `freeproc`'s second part: the page table, once the view is `v`. -/
theorem freePagetable_spec (h : SysInv L E f c s) {v : View} (hv : v.root = (view s).root)
    {s1 : Sys} (hi : Inv L v f c s1.mach) :
    Total (when ((s.procs i).pagetable ≠ 0)
      (vm (procFreepagetable L (s.procs i).pagetable (s.procs i).sz))) s1 fun _ s' =>
      ∃ m, s' = s1.setMach m ∧ Inv L (v.setRoot (.proc i) none) (update f (.proc i) fun _ => none)
        (clearTable c (.proc i)) m ∧
        Spares L (SlotOwns i) v s1.mach (v.setRoot (.proc i) none) m := by
  refine meets_when (fun h0 => meets_vm ?_) (fun h0 => ⟨s1.mach, rfl, ?_⟩)
  · obtain ⟨pg, -, hpg, hr⟩ := h.root (of_decide_eq_true h0)
    rw [hpg]
    refine (procFreepagetable_spec hi (hv ▸ hr) (by simp) (h.parts i).size (h.parts i).sized).imp ?_
    rintro - m ⟨hi, hs⟩
    exact ⟨m, rfl, hi, hs.slot⟩
  · have hr : v.root (.proc i) = none := by
      rw [hv]
      show pageOf (s.procs i).pagetable = none
      rw [not_not.mp (of_decide_eq_false h0), pageOf_zero]
    rw [View.setRoot_same hr, (hi.cleared hr).1, (hi.cleared hr).2]
    exact ⟨hi, .refl⟩

theorem Parts.freed (p : Proc) : Parts (update f (.proc i) fun _ => none) i p.freed := by
  refine ⟨Nat.zero_le _, fun vpn _ _ => ?_, rfl, rfl⟩
  rw [update_self]

theorem Whole.freed (p : Proc) : Whole p.freed :=
  ⟨⟨fun _ => rfl, fun _ => rfl⟩, ⟨fun _ => rfl, fun _ => rfl⟩, fun _ => rfl⟩

theorem Kept.freed (p : Proc) :
    Kept (· = i) s ((s.setProc i p).setMach m) f (update f (.proc i) fun _ => none) c
      (clearTable c (.proc i)) :=
  (Kept.setProc p).trans (Kept.memory (fun _ ht => update_of_ne ht _ _) fun _ hs => if_neg hs)

/-- `freeproc` gives back all pages of the process. -/
theorem freeproc_spec (h : SysInv L (some i) f c s) :
    Total (freeproc L i) s fun _ s' =>
      ∃ m, s' = (s.setProc i (s.procs i).freed).setMach m ∧
        SysInv L none (update f (.proc i) fun _ => none) (clearTable c (.proc i)) s' ∧
        OnlySlot L i s s' := by
  refine meets_getProc ?_
  refine Meets.seq (freeTrapframe_spec h) ?_
  rintro - s1 ⟨m1, rfl, hi1, hs1⟩
  refine Meets.bind (meets_modifyProc ?_)
  refine Meets.seq (freePagetable_spec (v := (view s).setHnd (.trapframe i) none) h rfl hi1) ?_
  rintro - s2 ⟨m2, rfl, hi2, hs2⟩
  refine meets_modifyProc ?_
  simp only [Sys.setMach_setMach, Sys.setMach_procs, Sys.setMach_setProc, Sys.setProc_setProc,
    Sys.setProc_same]
  refine ⟨m2, rfl, h.next (Kept.freed _) ?_ ?_ ?_, ⟨fun j hj => ?_, ?_⟩⟩
  · rw [view_setMach, view_setProc]
    exact hi2
  · rintro j rfl
    rw [Sys.setMach_procs, Sys.setProc_same]
    exact .freed (s.procs j)
  · rintro j - hj
    have hj : j = i := by simpa using hj
    subst hj
    rw [Sys.setMach_procs, Sys.setProc_same]
    exact .freed (s.procs j)
  · rw [Sys.setMach_procs, Sys.setProc_ne _ _ _ hj]
  · rw [view_setMach, view_setProc]
    exact hs1.trans hs2

/-! ## §3 Creating -/

theorem findUnused_some {procs : Table} (h : findUnused procs = some i) :
    (procs i).state = .unused := by
  simpa using List.find?_some h

/-- A slot that is not in use owns nothing. -/
theorem SysInv.unused (h : SysInv L E f c s) (hE : some i ≠ E)
    (hu : (s.procs i).state = .unused) :
    (s.procs i).pagetable = 0 ∧ (s.procs i).trapframe = 0 ∧ (s.procs i).sz = 0 ∧
      (view s).root (.proc i) = none ∧ (view s).hnd (.trapframe i) = none := by
  have hw := h.whole i hE
  have h1 := hw.table.mpr hu
  have h2 := hw.frame.mpr hu
  refine ⟨h1, h2, hw.size hu, ?_, ?_⟩
  · show pageOf (s.procs i).pagetable = none
    rw [h1, pageOf_zero]
  · show pageOf (s.procs i).trapframe = none
    rw [h2, pageOf_zero]

/-- A slot was freed again before anything was stored in its page table. -/
theorem SysInv.freed_none {s0 : Sys} (h : SysInv L none f c s0) (hu : (s0.procs i).state = .unused)
    (hfree : SysInv L none (update f (.proc i) fun _ => none) (clearTable c (.proc i))
      ((s0.setProc i p).setMach m)) :
    SysInv L none f c ((s0.setProc i p).setMach m) ∧
      Kept (· = i) s0 ((s0.setProc i p).setMach m) f f c c := by
  obtain ⟨-, -, -, hroot, -⟩ := h.unused (by simp) hu
  have hk : Kept (· = i) s0 ((s0.setProc i p).setMach m) f (update f (.proc i) fun _ => none) c
    (clearTable c (.proc i)) := Kept.freed p
  rw [(h.inv.cleared hroot).1, (h.inv.cleared hroot).2] at hfree hk
  exact ⟨hfree, hk⟩

section

variable (L f c s)

/-- Two ways `allocproc` ends. `q` is the record it leaves. -/
def AllocprocPost (r : Option (Fin nproc)) (s' : Sys) : Prop :=
  (r = none ∧ SysInv L none f c s' ∧ ∃ A : Fin nproc → Prop, Kept A s s' f f c c ∧
    ∀ j, A j → (s.procs j).state = .unused ∧ (s'.procs j).state = .unused) ∨
  ∃ i f', r = some i ∧ SysInv L none f' c s' ∧ Kept (· = i) s s' f f' c c ∧
    (s.procs i).state = .unused ∧ (s'.procs i).state = .used ∧
    (s'.procs i).sz = 0 ∧ Sized f' (.proc i) 0

/-- The same, with what `allocproc` leaves alone: all but one free slot. -/
def AllocprocEnd (i : Fin nproc) (r : Option (Fin nproc)) (s' : Sys) : Prop :=
  AllocprocPost L f c s r s' ∧ OnlySlot L i s s' ∧ (r = none ∨ r = some i)

end

/-- The record `allocproc` fills in before it allocates. -/
def Proc.claimed (p : Proc) (pid : Nat) : Proc :=
  { p with pid := pid, state := .used, priority := defaultPriority, readySince := 0 }

section

variable (h : SysInv L none f c s)
include h

/-- A new record that owns what `trapframe` names. -/
theorem SysInv.claim (hu : (s.procs i).state = .unused)
    (hp : p.pagetable = 0) (hsz : p.sz = 0) {tf : Nat} (htf : p.trapframe = 4096 * tf)
    (hi : Inv L ((view s).setHnd (.trapframe i) (pageOf (4096 * tf))) f c m) :
    SysInv L (some i) f c ((s.setProc i p).setMach m) := by
  obtain ⟨-, -, -, hroot, -⟩ := h.unused (by simp) hu
  have hk : Kept (· = i) s ((s.setProc i p).setMach m) f f c c :=
    (Kept.setProc p).trans (Kept.memory (fun _ _ => rfl) .refl)
  refine h.next hk ?_ ?_ (fun j hj hA => ?_)
  · rw [view_setMach, view_setProc, hp, htf, pageOf_zero, View.setRoot_same hroot]
    exact hi
  · rintro j rfl
    rw [Sys.setMach_procs, Sys.setProc_same]
    refine ⟨by rw [hsz]; exact Nat.zero_le _, fun vpn _ _ => ?_, by rw [hp], by rw [htf]; omega⟩
    exact h.inv.root_none hroot vpn
  · rcases hA with rfl | hA
    · exact absurd rfl hj
    · cases hA

/-- The failure exits of `allocproc`, with record `p` in the slot. -/
theorem allocproc_fail (hu : (s.procs i).state = .unused)
    (h1 : SysInv L (some i) f c ((s.setProc i p).setMach m))
    (hs1 : OnlySlot L i s ((s.setProc i p).setMach m)) :
    Total (do
      freeproc L i
      return none) ((s.setProc i p).setMach m) (AllocprocEnd L f c s i) := by
  refine Meets.seq (freeproc_spec h1) ?_
  rintro - s2 ⟨m2, rfl, h2, hs2⟩
  have hs := hs1.trans hs2
  simp only [Sys.setMach_setMach, Sys.setMach_procs, Sys.setMach_setProc, Sys.setProc_setProc,
    Sys.setProc_same] at h2 hs ⊢
  obtain ⟨h3, hk3⟩ := h.freed_none hu h2
  refine meets_pure ⟨.inl ⟨rfl, h3, _, hk3, ?_⟩, hs, .inl rfl⟩
  rintro j rfl
  refine ⟨hu, ?_⟩
  rw [Sys.setMach_procs, Sys.setProc_same]
  rfl

/-- `allocproc` after it took a pid. -/
theorem allocproc_slot (hu : (s.procs i).state = .unused) (pid : Nat) :
    Total (do
      modifyProc i fun p =>
        { p with pid := pid, state := .used, priority := defaultPriority, readySince := 0 }
      let trapframe ← vm kalloc
      modifyProc i fun p => { p with trapframe := trapframe }
      if trapframe = 0 then
        freeproc L i
        return none
      else
        let pagetable ← vm (procPagetable L trapframe)
        modifyProc i fun p => { p with pagetable := pagetable }
        if pagetable = 0 then
          freeproc L i
          return none
        else return some i) s (AllocprocEnd L f c s i) := by
  obtain ⟨hpt, htf, hsz, hroot, hhnd⟩ := h.unused (by simp) hu
  refine Meets.bind (meets_modifyProc ?_)
  refine meets_vm_seq (h.inv.kalloc hhnd) ?_
  rintro r m1 h1
  refine Meets.bind (meets_modifyProc ?_)
  simp only [Sys.setMach_procs, Sys.setMach_setProc, Sys.setProc_setProc, Sys.setProc_same]
  -- a new record in the slot, with what it owns
  have honly : ∀ {p : Proc} {m : Mach},
      Spares L (SlotOwns i) (view s) s.mach (((view s).setHnd (.trapframe i)
        (pageOf p.trapframe)).setRoot (.proc i) (pageOf p.pagetable)) m →
      OnlySlot L i s ((s.setProc i p).setMach m) := by
    intro p m hs
    refine ⟨fun j hj => ?_, ?_⟩
    · rw [Sys.setMach_procs, Sys.setProc_ne _ _ _ hj]
    · rw [view_setMach, view_setProc]
      exact hs
  rcases h1 with ⟨rfl, rfl, -⟩ | ⟨tf, rfl, hu1, hi1, -, hs1, -⟩
  · refine meets_if rfl (allocproc_fail h hu ?_ (honly ?_))
    · refine h.claim hu (by exact hpt) (by exact hsz) (Nat.mul_zero 4096).symm ?_
      rw [Nat.mul_zero, pageOf_zero, View.setHnd_same hhnd]
      exact h.inv
    · rw [pageOf_zero, View.setHnd_same hhnd, hpt, pageOf_zero, View.setRoot_same hroot]
      exact .refl
  have hs1' : Spares L (SlotOwns i) (view s) s.mach
      ((view s).setHnd (.trapframe i) (some tf)) m1 := hs1.any.set_hnd (.inr rfl) (some tf)
  have hpos := hu1.pos
  refine meets_else (by omega) ?_
  have hroot1 : ((view s).setHnd (.trapframe i) (some tf)).root (.proc i) = none := hroot
  refine meets_vm_seq (procPagetable_spec hi1 rfl hroot1 (by simp) tf) ?_
  intro r m2 h2
  refine Meets.bind (meets_modifyProc ?_)
  simp only [Sys.setMach_procs, Sys.setMach_setProc, Sys.setProc_setProc, Sys.setProc_same,
    Sys.setMach_setMach]
  rcases h2 with ⟨rfl, hi2, hs2⟩ | ⟨pg, f2, rfl, hu2, hi2, hother, hsized, hs2⟩
  · refine meets_if rfl (allocproc_fail h hu ?_ (honly ?_))
    · refine h.claim hu rfl (by exact hsz) rfl ?_
      rw [pageOf_mul hpos]
      exact hi2
    · rw [pageOf_mul hpos, pageOf_zero, View.setRoot_same hroot1]
      exact hs1'.trans hs2.slot
  have hpos2 := hu2.pos
  refine meets_else (by omega) ?_
  have hk : Kept (· = i) s ((s.setProc i { (s.procs i).claimed pid with
      pagetable := 4096 * pg, trapframe := 4096 * tf }).setMach m2) f f2 c c :=
    (Kept.setProc _).trans (Kept.memory hother .refl)
  refine meets_pure ⟨.inr ⟨i, f2, rfl, h.next hk ?_ ?_ ?_, hk, hu, ?_, ?_, hsized⟩, honly ?_,
    .inr rfl⟩
  · rw [view_setMach, view_setProc, pageOf_mul hpos2, pageOf_mul hpos]
    exact hi2
  · rintro j rfl
    rw [Sys.setMach_procs, Sys.setProc_same]
    refine ⟨?_, ?_, ?_, ?_⟩
    · rw [hsz]
      exact Nat.zero_le _
    · rw [hsz]
      exact hsized
    · exact Nat.mul_mod_right 4096 pg
    · exact Nat.mul_mod_right 4096 tf
  · rintro j - hj
    have hj : j = i := by simpa using hj
    subst hj
    rw [Sys.setMach_procs, Sys.setProc_same]
    refine ⟨⟨fun e => ?_, fun e => ?_⟩, ⟨fun e => ?_, fun e => ?_⟩, fun e => ?_⟩
    · simp only [] at e
      omega
    · cases e
    · simp only [] at e
      omega
    · cases e
    · cases e
  · rw [Sys.setMach_procs, Sys.setProc_same]
  · rw [Sys.setMach_procs, Sys.setProc_same]
    exact hsz
  · rw [pageOf_mul hpos, pageOf_mul hpos2]
    exact hs1'.trans hs2.slot

/-- `allocproc`: a process with an empty page table, or nothing changed. -/
theorem allocproc_end :
    Total (allocproc L) s fun r s' => (r = none ∧ s' = s) ∨
      ∃ i, (s.procs i).state = .unused ∧ AllocprocEnd L f c s i r s' := by
  refine meets_read ?_
  cases hfind : findUnused s.procs with
  | none => exact meets_pure (.inl ⟨rfl, rfl⟩)
  | some i =>
    refine Meets.bind (meets_read (Meets.bind (meets_set (meets_pure ?_))))
    -- the pid counter plays no part in the invariant
    have h1 : SysInv L none f c { s with nextpid := s.nextpid + 1 } :=
      ⟨h.inv, h.parts, h.whole, h.kstacks, ⟨h.booting.kernel, h.booting.disk⟩⟩
    have hk1 : ∀ {A : Fin nproc → Prop} {s' : Sys} {f' : Entries}
        {c' : Slot → Page}, Kept A { s with nextpid := s.nextpid + 1 } s' f f' c c' →
        Kept A s s' f f' c c' :=
      fun hk => ⟨hk.kernel, hk.kernelPagetable, hk.kstack, hk.disk, hk.stage, hk.initproc,
        hk.same, hk.entries, hk.data⟩
    refine (allocproc_slot (i := i) h1 (findUnused_some hfind) s.nextpid).imp ?_
    rintro r s' ⟨hpost, hslot, hr⟩
    refine .inr ⟨i, findUnused_some hfind, ?_, ⟨hslot.procs, hslot.spares⟩, hr⟩
    rcases hpost with ⟨rfl, h', A, hk, hA⟩ | ⟨j, f', rfl, h', hk, hrest⟩
    · exact .inl ⟨rfl, h', A, hk1 hk, hA⟩
    · exact .inr ⟨j, f', rfl, h', hk1 hk, hrest⟩

theorem allocproc_spec : Total (allocproc L) s (AllocprocPost L f c s) := by
  refine (allocproc_end h).imp ?_
  rintro r s' (⟨rfl, rfl⟩ | ⟨i, -, hpost, -⟩)
  · exact .inl ⟨rfl, h, fun _ => False, .refl, fun _ hj => hj.elim⟩
  · exact hpost

end

/-! ## §4 Fork -/

/-- The contents with table `np` a copy of table `i`. -/
def forkCopy (c : Slot → Page) (i np : Fin nproc) : Slot → Page :=
  fun sl => if sl.1 = .proc np then c (.proc i, sl.2) else c sl

section

variable (L f c s i)

/-- How `kfork` by process `i` ends. -/
def ForkPost (r : Option (Fin nproc × Nat)) (s' : Sys) : Prop :=
  ∃ f', Same (s.procs i) (s'.procs i) ∧
    ((r = none ∧ SysInv L none f' c s' ∧ ∃ A : Fin nproc → Prop, Kept A s s' f f' c c ∧
      ∀ j, A j → j = i ∨ (s.procs j).state = .unused ∧ (s'.procs j).state = .unused) ∨
    ∃ np pid, r = some (np, pid) ∧ np ≠ i ∧ (s.procs np).state = .unused ∧
      SysInv L none f' (forkCopy c i np) s' ∧
      Kept (fun j => j = i ∨ j = np) s s' f f' c (forkCopy c i np) ∧
      (s'.procs np).sz = (s.procs i).sz ∧ (s'.procs np).state = .runnable)

/-- What a failed fork leaves: nothing has changed, or slot `np` was taken and
freed again and some of the parent's entries are downgraded. -/
def ForkUndone (s' : Sys) : Prop :=
  s' = s ∨ ∃ np f', np ≠ i ∧ (s.procs np).state = .unused ∧ (s'.procs np).state = .unused ∧
    OnlySlot L np s s' ∧ SysInv L none f' c s' ∧ Downed f f' (.proc i) ∧
    ∀ t, t ≠ .proc i → f' t = f t

end

/-- What `uvmcopy` keeps, as seen from the process table. -/
theorem Kept.forked {a : Nat} (hf : Forked f f' (.proc i) (.proc np) a)
    (hc : ∀ j vpn, j ≠ np → c' (.proc j, vpn) = c (.proc j, vpn)) :
    Kept (fun j => j = i ∨ j = np) s (s.setMach m) f f' c c' := by
  refine ⟨hf.other (by simp) (by simp), rfl, rfl, rfl, rfl, rfl, fun _ _ => .refl _,
    fun j hj => ?_, fun j hj vpn => ?_⟩ <;> rw [not_or] at hj
  · exact hf.other (by simpa using hj.1) (by simpa using hj.2)
  · exact hc j vpn hj.2

theorem Sized.forked {sz a : Nat} (h : Sized f (.proc i) sz)
    (hf : Forked f f' (.proc i) (.proc np) a) : Sized f' (.proc i) sz :=
  fun vpn h1 h2 => hf.parent.mpr (h vpn h1 h2)

/-- A process that is not UNUSED has both pointers. -/
theorem SysInv.used (h : SysInv L none f c s) (hu : (s.procs i).state ≠ .unused) :
    (s.procs i).pagetable ≠ 0 ∧ (s.procs i).trapframe ≠ 0 :=
  ⟨fun e => hu ((h.whole i (by simp)).table.mp e), fun e => hu ((h.whole i (by simp)).frame.mp e)⟩

/-- Writing the trapframe page of a process. -/
theorem SysInv.write_frame (h : SysInv L E f c s) (h0 : (s.procs i).trapframe ≠ 0) (page : Page) :
    SysInv L E f c (s.setMach { s.mach with
      mem := update s.mach.mem ((s.procs i).trapframe / pgSize) page }) := by
  obtain ⟨tf, -, htf, hh⟩ := h.frame h0
  rw [htf, mul_div_pgSize]
  exact ⟨h.inv.write_hnd hh page, h.parts, h.whole, h.kstacks, ⟨h.booting.kernel, h.booting.disk⟩⟩

/-- A record may change in everything but its pointers. -/
theorem SysInv.setProc {E' : Option (Fin nproc)} (h : SysInv L E f c s)
    (hpt : p.pagetable = (s.procs i).pagetable) (htf : p.trapframe = (s.procs i).trapframe)
    (hparts : Parts f i p) (hwhole : some i ≠ E' → Whole p)
    (hE : ∀ j, j ≠ i → some j ≠ E' → some j ≠ E) : SysInv L E' f c (s.setProc i p) := by
  refine ⟨?_, fun j => ?_, fun j hj => ?_, h.kstacks, ⟨h.booting.kernel, h.booting.disk⟩⟩
  · rw [view_setProc_same hpt htf]
    exact h.inv
  · by_cases hji : j = i
    · subst hji
      rwa [Sys.setProc_same]
    · rw [Sys.setProc_ne _ _ _ hji]
      exact h.parts j
  · by_cases hji : j = i
    · subst hji
      rw [Sys.setProc_same]
      exact hwhole hj
    · rw [Sys.setProc_ne _ _ _ hji]
      exact h.whole j (hE j hji hj)

/-- A record whose state and memory fields stay. -/
theorem SysInv.touch (h : SysInv L none f c s) (hs : Same (s.procs i) p) :
    SysInv L none f c (s.setProc i p) :=
  h.setProc hs.pagetable hs.trapframe ((h.parts i).congr hs rfl)
    (fun _ => (h.whole i (by simp)).congr hs) (fun _ _ h => h)

/-- A used process stays whole in any other used state. -/
theorem Whole.state (h : Whole p) (hu : p.state ≠ .unused) {p' : Proc}
    (hpt : p'.pagetable = p.pagetable) (htf : p'.trapframe = p.trapframe) (hu' : p'.state ≠ .unused)
    : Whole p' :=
  ⟨⟨fun e => absurd (h.table.mp (hpt ▸ e)) hu, fun e => absurd e hu'⟩,
    ⟨fun e => absurd (h.frame.mp (htf ▸ e)) hu, fun e => absurd e hu'⟩, fun e => absurd e hu'⟩

/-- The end of `kfork`, once the child's memory is there. -/
theorem kfork_finish (h : SysInv L none f c s) (hu : (s.procs np).state ≠ .unused) {tf tf' : Nat}
    (htf : (s.procs np).trapframe = tf') {parent : Fin nproc} {prio : Int} {pid : Nat} :
    Total (do
      vm do setPage tf' (← readPage tf)
      setTrapframe np tfA0 0
      modifyProc np fun q => { q with parent := some parent }
      modifyProc np fun q => { q with priority := prio, readySince := 0, state := .runnable }
      return some (np, pid)) s fun r s' =>
        r = some (np, pid) ∧ SysInv L none f c s' ∧ Kept (· = np) s s' f f c c ∧
          (s'.procs np).sz = (s.procs np).sz ∧ (s'.procs np).state = .runnable := by
  have h0 := (h.used hu).2
  subst htf
  refine meets_vm_seq (P := fun _ m => m = { s.mach with
    mem := update s.mach.mem ((s.procs np).trapframe / pgSize) (s.mach.mem (tf / pgSize)) })
    (.ok rfl rfl) ?_
  rintro - m1 rfl
  have h1 := h.write_frame h0 (s.mach.mem (tf / pgSize))
  refine Meets.bind (meets_getProc (meets_vm (meets_writePte ?_)))
  have h2 := h1.write_frame h0 (update (update s.mach.mem ((s.procs np).trapframe / pgSize)
    (s.mach.mem (tf / pgSize)) ((s.procs np).trapframe / pgSize)) tfA0 0)
  refine Meets.bind (meets_modifyProc (Meets.bind (meets_modifyProc (meets_pure ?_))))
  simp only [Sys.setMach_procs, Sys.setMach_setProc, Sys.setProc_setProc, Sys.setProc_same,
    Sys.setMach_setMach, true_and, and_true]
  refine ⟨?_, (Kept.setProc _).trans (Kept.memory (fun _ _ => rfl) .refl)⟩
  refine SysInv.setProc (i := np) h2 rfl rfl ?_ (fun _ => ?_) (fun _ _ h => h)
  · obtain ⟨a1, a2, a3, a4⟩ := h.parts np
    exact ⟨a1, a2, a3, a4⟩
  · exact (h.whole np (by simp)).state hu rfl rfl (by simp)

/-- The child that `allocproc` gave: it is in use and has no memory yet. -/
structure Born (L : Layout) (f : Entries) (c : Slot → Page) (s : Sys) (i np : Fin nproc)
    (f1 : Entries) (s1 : Sys) : Prop where
  inv : SysInv L none f1 c s1
  kept : Kept (· = np) s s1 f f1 c c
  ne : np ≠ i
  free : (s.procs np).state = .unused
  used : (s1.procs np).state ≠ .unused
  empty : ∀ vpn, vpn < userPages → f1 (.proc np) vpn = none
  only : OnlySlot L np s s1

section

variable {f1 f2 : Entries} {s1 : Sys} {m2 : Mach} {a : Nat} (hb : Born L f c s i np f1 s1)
  (hf2 : Forked f1 f2 (.proc i) (.proc np) a)
include hb hf2

/-- The parent's record after `uvmcopy`. -/
theorem Born.parent : Parts f2 i (s1.procs i) :=
  have h := hb.inv.parts i
  ⟨h.size, Sized.forked h.sized hf2, h.table, h.frame⟩

/-- The child's, once it has a size that covers what was copied. -/
theorem Born.child {sz : Nat} (hsz : sz ≤ trapframeVa) (ha : a ≤ upPage sz) :
    Parts f2 np { (s1.procs np) with sz := sz } := by
  have h := hb.inv.parts np
  refine ⟨hsz, fun vpn h1 h2 => ?_, h.table, h.frame⟩
  rw [hf2.rest (ha.trans h1)]
  exact hb.empty vpn h2

/-- `uvmcopy` succeeded and the child has the parent's size. -/
theorem Born.copied (hi2 : Inv L (view s1) f2 (forkCopy c i np) m2)
    (ha : a ≤ upPage (s1.procs i).sz) :
    SysInv L none f2 (forkCopy c i np)
        ((s1.setMach m2).setProc np { (s1.procs np) with sz := (s1.procs i).sz }) ∧
      Kept (fun j => j = i ∨ j = np) s1
        ((s1.setMach m2).setProc np { (s1.procs np) with sz := (s1.procs i).sz }) f1 f2 c
        (forkCopy c i np) := by
  have hk2 : Kept (fun j => j = i ∨ j = np) s1 (s1.setMach m2) f1 f2 c (forkCopy c i np) :=
    Kept.forked hf2 (fun j vpn hj => if_neg (by simpa using hj))
  have hk3 := hk2.trans ((Kept.setProc (s := s1.setMach m2) (f := f2) (c := forkCopy c i np)
    { (s1.procs np) with sz := (s1.procs i).sz }).mono (fun _ => .inr))
  refine ⟨hb.inv.next hk3 ?_ ?_ ?_, hk3⟩
  · rw [view_setProc_same (by rfl) (by rfl), view_setMach]
    exact hi2
  · rintro j (rfl | rfl)
    · rw [Sys.setProc_ne _ _ _ (Ne.symm hb.ne)]
      exact hb.parent hf2
    · rw [Sys.setProc_same]
      exact hb.child hf2 (hb.inv.parts i).size ha
  · rintro j - (hj | hj)
    · by_cases hjn : j = np
      · subst hjn
        rw [Sys.setProc_same]
        exact (hb.inv.whole j (by simp)).state hb.used rfl rfl hb.used
      · rw [Sys.setProc_ne _ _ _ hjn]
        exact hb.inv.whole j (by simp)
    · cases hj

/-- `uvmcopy` failed: the child is freed again. -/
theorem Born.undo (h : SysInv L none f c s) (hi2 : Inv L (view s1) f2 c m2)
    (hs2 : Spares L (Mine (.proc np)) (view s1) s1.mach (view s1) m2)
    (hd2 : Downed f1 f2 (.proc i)) (ha : a = 0) :
    Total (do
      freeproc L np
      return none) (s1.setMach m2) fun r s' =>
        ForkPost L f c s i r s' ∧ (r = none → ForkUndone L f c s i s') := by
  subst ha
  have hne := hb.ne
  have hk2 : Kept (fun j => j = i ∨ j = np) s1 (s1.setMach m2) f1 f2 c c :=
    Kept.forked hf2 (fun _ _ _ => rfl)
  have h2 : SysInv L (some np) f2 c (s1.setMach m2) := by
    refine hb.inv.next hk2 hi2 ?_ (fun j _ _ => hb.inv.whole j (by simp))
    rintro j (rfl | rfl)
    · exact hb.parent hf2
    · exact hb.child hf2 (hb.inv.parts j).size (Nat.zero_le _)
  refine Meets.seq (freeproc_spec h2) ?_
  rintro - s3 ⟨m3, rfl, h3, honly3⟩
  have honly2 : OnlySlot L np s1 (s1.setMach m2) := ⟨fun _ _ => rfl, hs2.slot⟩
  have honly := (hb.only.trans honly2).trans honly3
  have hk3 := Kept.freed (i := np) (s := s1.setMach m2) (f := f2) (c := c) (m := m3)
    ((s1.setMach m2).procs np).freed
  rw [hb.inv.inv.clearTable_eq hb.empty] at h3 hk3
  have hk : Kept (fun j => j = i ∨ j = np) s _ f _ c c :=
    (hb.kept.mono (fun _ => .inr)).trans (hk2.trans (hk3.mono (fun _ => .inr)))
  have hfreed : ((((s1.setMach m2).setProc np
      ((s1.setMach m2).procs np).freed).setMach m3).procs np).state = .unused := by
    rw [Sys.setMach_procs, Sys.setProc_same]
    rfl
  refine meets_pure ⟨⟨_, (hb.kept.same i hne.symm).trans (hk3.same i hne.symm),
    .inl ⟨rfl, h3, _, hk, ?_⟩⟩,
    fun _ => .inr ⟨np, _, hne, hb.free, hfreed, honly, h3, fun vpn => ?_, fun t ht => ?_⟩⟩
  · rintro j (rfl | rfl)
    · exact .inl rfl
    · exact .inr ⟨hb.free, hfreed⟩
  · rw [update_of_ne (by simpa using hne.symm), ← hb.kept.entries i hne.symm]
    exact hd2 vpn
  · by_cases hnp : t = .proc np
    · subst hnp
      obtain ⟨-, -, -, hroot, -⟩ := h.unused (by simp) hb.free
      rw [update_self]
      exact (funext (h.inv.root_none hroot)).symm
    · rw [update_of_ne hnp, hf2.other ht hnp]
      cases t with
      | kernel => exact hb.kept.kernel
      | proc j => exact hb.kept.entries j (by simpa using hnp)
      | exec => rw [funext (hb.inv.inv.root_none rfl), funext (h.inv.root_none rfl)]

end

/-- `kfork` by a process that is in use. -/
theorem kfork_end (h : SysInv L none f c s) (hu : (s.procs i).state ≠ .unused) :
    Total (kfork L i) s fun r s' =>
      ForkPost L f c s i r s' ∧ (r = none → ForkUndone L f c s i s') := by
  refine Meets.seq (allocproc_end h) ?_
  rintro r s1 (⟨rfl, rfl⟩ | ⟨np, hfree, ⟨rfl, h1, A, hk1, hA⟩ |
    ⟨_, f1, rfl, h1, hk1, hunused, hused, hsz0, hsized⟩, honly1, hres⟩)
  · exact meets_pure ⟨⟨f, .refl _, .inl ⟨rfl, h, fun _ => False, .refl, fun _ hj => hj.elim⟩⟩,
      fun _ => .inl rfl⟩
  · have hi : ¬ A i := fun e => hu (hA i e).1
    have hne : np ≠ i := by
      rintro rfl
      exact hu hfree
    have hstill : (s1.procs np).state = .unused := by
      by_cases hin : A np
      · exact (hA np hin).2
      · exact (hk1.same np hin).unused.mpr hfree
    exact meets_pure ⟨⟨f, hk1.same i hi, .inl ⟨rfl, h1, A, hk1, fun j hj => .inr (hA j hj)⟩⟩,
      fun _ => .inr ⟨np, f, hne, hfree, hstill, honly1, h1, .refl, fun _ _ => rfl⟩⟩
  obtain rfl : np = _ := (Option.some.inj (hres.resolve_left (by simp))).symm
  have hne : np ≠ i := by
    rintro rfl
    exact hu hunused
  have hnp : (s1.procs np).state ≠ .unused := by
    rw [hused]
    simp
  have hb : Born L f c s i np f1 s1 :=
    ⟨h1, hk1, hne, hunused, hnp, fun vpn hv => hsized vpn (Nat.zero_le _) hv, honly1⟩
  have hsame := hk1.same i hne.symm
  have hu1 : (s1.procs i).state ≠ .unused := fun e => hu (hsame.unused.mp e)
  obtain ⟨pg, -, hpg, hr⟩ := h1.root (h1.used hu1).1
  obtain ⟨pg', -, hpg', hr'⟩ := h1.root (h1.used hnp).1
  have hparts := h1.parts i
  refine meets_getProc (meets_getProc ?_)
  refine meets_vm_seq (P := fun r m' => ∃ f', Spares L (Mine (.proc np)) (view s1) s1.mach (view s1)
    m' ∧ CopyEnd L (view s1) f1 c (.proc i) (.proc np) (s1.procs i).sz f' r m') ?_ ?_
  · rw [hpg, hpg']
    exact uvmcopy_end h1.inv hr hr' (by simp) (by simp) (by simpa using hne) hparts.size
      hparts.sized hb.empty
  rintro r m2 ⟨f2, hs2, hd2, ⟨rfl, hi2, hf2⟩ | ⟨rfl, hi2, hf2⟩⟩
  · -- the child's memory is a copy of the parent's
    refine Meets.bind (meets_modifyProc ?_)
    obtain ⟨h3, hk3⟩ := hb.copied hf2 hi2 le_rfl
    have htf3 : (((s1.setMach m2).setProc np
        { (s1.procs np) with sz := (s1.procs i).sz }).procs np).trapframe =
        (s1.procs np).trapframe := by rw [Sys.setProc_same]
    refine (kfork_finish h3 (by rw [Sys.setProc_same]; exact hnp) htf3).imp ?_
    rintro r s4 ⟨rfl, h4, hk4, hsz4, hst4⟩
    have hk : Kept (fun j => j = i ∨ j = np) s s4 f f2 c (forkCopy c i np) :=
      (hk1.mono (fun _ => .inr)).trans (hk3.trans (hk4.mono (fun _ => .inr)))
    have hsame4 : Same (s.procs i) (s4.procs i) := by
      have := hk4.same i hne.symm
      rw [Sys.setProc_ne _ _ _ hne.symm] at this
      exact hsame.trans this
    rw [Sys.setProc_same] at hsz4
    exact ⟨⟨f2, hsame4, .inr ⟨np, _, rfl, hne, hunused, h4, hk, hsz4.trans hsame.sz, hst4⟩⟩,
      fun e => by cases e⟩
  · exact hb.undo hf2 h hi2 hs2 hd2 rfl

/-! ## §5 Exit -/

theorem wakeup_same (me : Option (Fin nproc)) (ch : Chan) (procs : Table) (j : Fin nproc) :
    Same (procs j) (wakeup me ch procs j) := by
  unfold wakeup
  split
  · rename_i hj
    exact ⟨rfl, rfl, rfl, .inr ⟨hj.2.1, rfl⟩⟩
  · exact .refl _

theorem reparentSlot_same (ip : Option (Fin nproc)) (p : Fin nproc) (procs : Table)
    (i j : Fin nproc) : Same (procs j) (reparentSlot ip p procs i j) := by
  have hgive : Same (procs j) (update procs i { procs i with parent := ip } j) := by
    by_cases hj : j = i
    · subst hj
      rw [update_self]
      exact ⟨rfl, rfl, rfl, .inl rfl⟩
    · rw [update_of_ne hj]
      exact .refl _
  unfold reparentSlot
  split
  · cases ip with
    | none => exact hgive
    | some q => exact hgive.trans (wakeup_same _ _ _ j)
  · exact .refl _

/-- `reparent` changes nobody's memory and at most wakes sleepers. -/
theorem reparent_same (ip : Option (Fin nproc)) (p : Fin nproc) (procs : Table) (j : Fin nproc) :
    Same (procs j) (reparent ip p procs j) := by
  unfold reparent
  generalize List.finRange nproc = is
  induction is generalizing procs with
  | nil => exact .refl _
  | cons i is ih => exact (reparentSlot_same ip p procs i j).trans (ih _)

theorem wakeParent_same (i : Fin nproc) (procs : Table) (j : Fin nproc) :
    Same (procs j) (wakeParent i procs j) := by
  unfold wakeParent
  cases (procs i).parent with
  | none => exact .refl _
  | some q => exact wakeup_same _ _ _ j

/-- A table in which every process is as before, but for wakeups. -/
theorem SysInv.procs (h : SysInv L none f c s) {procs : Table}
    (hs : ∀ j, Same (s.procs j) (procs j)) :
    SysInv L none f c (s.setProcs procs) ∧ Kept (fun _ => False) s (s.setProcs procs) f f c c := by
  have hk : Kept (fun _ => False) s (s.setProcs procs) f f c c :=
    ⟨rfl, rfl, rfl, rfl, rfl, rfl, fun j _ => hs j, fun _ _ => rfl, fun _ _ _ => rfl⟩
  have hview : view (s.setProcs procs) = view s :=
    view_congr rfl (fun j => ⟨(hs j).pagetable, (hs j).trapframe⟩) rfl rfl rfl rfl
  refine ⟨h.next hk (hview ▸ h.inv) (fun j hj => hj.elim) (fun j _ hj => ?_), hk⟩
  rcases hj with hj | hj
  · exact hj.elim
  · cases hj

/-- `kexit`: init panics; any other process becomes a zombie that keeps its
memory. -/
theorem kexit_spec (h : SysInv L none f c s) (hu : (s.procs i).state ≠ .unused) (status : Int) :
    Meets (· = .initExiting) (kexit i status) s fun _ s' =>
      SysInv L none f c s' ∧ Kept (· = i) s s' f f c c ∧ (s'.procs i).sz = (s.procs i).sz ∧
        (s'.procs i).state = .zombie := by
  refine meets_read (meets_ite (fun _ => meets_throw rfl) (fun _ => ?_))
  refine Meets.bind (meets_modifyTable (Meets.bind (meets_modifyTable (meets_modifyProc ?_))))
  obtain ⟨h1, hk1⟩ := h.procs (reparent_same s.initproc i s.procs)
  obtain ⟨h2, hk2⟩ := h1.procs (wakeParent_same i _)
  have hk12 := hk1.trans hk2
  have hsame := hk12.same i (fun h => h)
  generalize (s.setProcs (reparent s.initproc i s.procs)).setProcs
    (wakeParent i (s.setProcs (reparent s.initproc i s.procs)).procs) = s2 at h2 hk12 hsame ⊢
  have hu2 : (s2.procs i).state ≠ .unused := fun e => hu (hsame.unused.mp e)
  refine ⟨h2.setProc rfl rfl ?_ (fun _ => ?_) (fun _ _ h => h), ?_, ?_, ?_⟩
  · obtain ⟨a1, a2, a3, a4⟩ := h2.parts i
    exact ⟨a1, a2, a3, a4⟩
  · exact (h2.whole i (by simp)).state hu2 rfl rfl (by simp)
  · exact (hk12.mono (fun _ h => h.elim)).trans (Kept.setProc _)
  · rw [Sys.setProc_same]
    exact hsame.sz
  · rw [Sys.setProc_same]

end Xv6
