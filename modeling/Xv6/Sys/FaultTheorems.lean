/-
Xv6.Sys.FaultTheorems — user loads and stores, and the page faults they
take.

A faulting access is retried once: the handler either makes it possible or
kills the process. Then pipes, which only move pages between the kernel and
the allocator.
-/
import Xv6.Sys.CallTheorems

namespace Xv6

open Xv6.Vm Xv6.Lib
open Function

variable {L : Layout} {f f' : Entries} {c c' : Slot → Page} {s s' : Sys}
  {i : Fin nproc} {va : Nat} {w : Word} {fds : Option (Nat × Nat)}

/-! ## §1 How the accesses end -/

/-- Process `i` is as it was, but may have become a zombie. -/
structure Exited (L : Layout) (f f' : Entries) (c : Slot → Page) (s s' : Sys)
    (i : Fin nproc) : Prop where
  inv : SysInv L none f' c s'
  kept : Kept (· = i) s s' f f' c c
  sz : (s'.procs i).sz = (s.procs i).sz

section

variable (L f c s i)

/-- What a fault leaves: the same contents, and an entry that a store (or a
load) can use, or the same entries and the same tables. -/
structure FaultPost (va : Nat) (r : Bool) (f' : Entries) (m : Mach) : Prop where
  inv : Inv L (view s) f' c m
  faulted : Faulted f f' (.proc i) (s.procs i).sz
  spares : Spares L (Mine (.proc i)) (view s) s.mach (view s) m
  entry : r = true → va / 4096 < userPages ∧ ∃ w, f' (.proc i) (va / 4096) = some w ∧
    hasFlag w pteU = true ∧ hasFlag w pteW = true
  same : r = false → f' = f ∧ Holds (view s) s.mach m

/-- The one-byte store reaches process `i`'s page and no other. -/
def StorePost (va : Nat) (b : Byte) (r : Bool) (s' : Sys) : Prop :=
  (r = true ∧ s'.procs = s.procs ∧ ∃ f' c', SysInv L none f' c' s' ∧
    Kept (· = i) s s' f f' c c' ∧ Poked c c' (.proc i) va [b]) ∨
  r = false ∧ ∃ f', Exited L f f' c s s' i

/-- The byte `b` has been stored at `va`. -/
def Stored (va : Nat) (b : Byte) (r : Bool) (s' : Sys) : Prop :=
  r = true ∧ s'.procs = s.procs ∧ ∃ f' c', SysInv L none f' c' s' ∧
    Kept (· = i) s s' f f' c c' ∧ Poked c c' (.proc i) va [b]

/-- The byte a load sees is the one at `va` in process `i`'s memory. -/
def LoadPost (va : Nat) (r : Option Byte) (s' : Sys) : Prop :=
  (r = some (ubyte c (.proc i) va) ∧ s'.procs = s.procs ∧ ∃ f', SysInv L none f' c s' ∧
    Kept (· = i) s s' f f' c c) ∨
  r = none ∧ ∃ f', Exited L f f' c s s' i

/-- How `sys_pipe` ends: stretches of the two descriptors were written. -/
def PipePost (va : Nat) (fds : Option (Nat × Nat)) (s' : Sys) : Prop :=
  s'.procs = s.procs ∧ ∃ f' c1 c' k0 k1, SysInv L none f' c' s' ∧ Kept (· = i) s s' f f' c c' ∧
    Poked c c1 (.proc i) va ((fdBytes fds).1.take k0) ∧
    Poked c1 c' (.proc i) (u64 (va + 4)) ((fdBytes fds).2.take k1)

end

/-! ## §2 Leaving the kernel -/

/-- `if (killed(p)) kexit(-1)`. -/
theorem exitIfKilled_spec (h : SysInv L none f c s) (hu : (s.procs i).state ≠ .unused) :
    Meets (· = .initExiting) (exitIfKilled i) s fun r s' =>
      (r = true ∧ s' = s ∧ (s.procs i).killed = false) ∨ r = false ∧ Exited L f f c s s' i := by
  refine meets_getProc (meets_ite (fun _ => ?_)
    (fun hk => meets_pure (.inl ⟨rfl, rfl, by simpa using hk⟩)))
  refine Meets.seq (kexit_spec h hu (-1)) ?_
  rintro - s1 ⟨h1, hk1, hsz, -⟩
  exact meets_pure (.inr ⟨rfl, h1, hk1, hsz⟩)

/-- A system call with a lemma of its own, as `usertrap` makes it. After the
call the process may still have to exit. -/
theorem usertrapSyscall_spec {α : Type} {x : K α} {Q : α → Sys → Prop}
    (h : SysInv L none f c s) (hu : (s.procs i).state ≠ .unused)
    (hx : Meets (· = .initExiting) x s fun r s1 => (s1.procs i).state ≠ .unused ∧
      ∃ f1 c1, SysInv L none f1 c1 s1 ∧ ∀ s', s' = s1 ∨ Exited L f1 f1 c1 s1 s' i → Q r s')
    {P : Option α → Sys → Prop} (hnone : ∀ s', Exited L f f c s s' i → P none s')
    (hsome : ∀ r s', Q r s' → P (some r) s') :
    Meets (· = .initExiting) (usertrapSyscall i x) s P := by
  refine Meets.seq (exitIfKilled_spec h hu) ?_
  rintro r s0 (⟨rfl, rfl, -⟩ | ⟨rfl, hex⟩)
  · refine Meets.seq hx ?_
    rintro r s1 ⟨hu1, f1, c1, h1, hQ⟩
    refine Meets.seq (exitIfKilled_spec h1 hu1) ?_
    rintro b s2 (⟨-, rfl, -⟩ | ⟨-, hex⟩)
    · exact meets_pure (hsome r _ (hQ _ (.inl rfl)))
    · exact meets_pure (hsome r _ (hQ _ (.inr hex)))
  · exact meets_else (by decide) (meets_pure (hnone s0 hex))

/-! ## §3 Faults -/

/-- The faults that are handled: a store to a page that can be copied, and an
access to a page that can be filled. -/
def Handled (L : Layout) (f : Entries) (s : Sys) (i : Fin nproc) (store : Bool)
    (va : Nat) : Prop :=
  store = true ∧ Copyable L f s.mach (.proc i) (va / 4096) ∨
    Fillable L (view s) f s.mach (.proc i) (s.procs i).sz va

theorem handleFault_spec (h : SysInv L none f c s) (hu : (s.procs i).state ≠ .unused)
    (store : Bool) (va : Nat) :
    Total (handleFault L (s.procs i).mm store va) s.mach fun r m =>
      (r = true ↔ Handled L f s i store va) ∧ ∃ f', FaultPost L f c s i va r f' m := by
  obtain ⟨pg, -, hpg, hr⟩ := h.root (h.used hu).1
  have hsize := (h.parts i).size
  have hlast : (store = true → ¬ Copyable L f s.mach (.proc i) (va / 4096)) →
      Total (do
        return decide ((← vmfault L (s.procs i).mm (s.procs i).mm.pagetable va) ≠ 0)) s.mach
        fun r m => (r = true ↔ Handled L f s i store va) ∧ ∃ f', FaultPost L f c s i va r f' m := by
    intro hno
    unfold Proc.mm
    rw [hpg]
    refine Meets.seq (vmfault_spec h.inv hr (by simp) rfl hsize va) ?_
    rintro r m' ⟨⟨rfl, hi', hnot, hkeep⟩ | ⟨p, hfill, rfl, hpos, hp, hi'⟩, hs⟩
    · refine meets_pure ⟨⟨nofun, ?_⟩, f, hi', .refl, hs, nofun, fun _ => ⟨rfl, hkeep⟩⟩
      rintro (⟨hst, hcopy⟩ | hfill)
      · exact absurd hcopy (hno hst)
      · exact absurd hfill hnot
    · have hlt := hfill.1
      rw [trapframeVa_eq] at hsize
      have hv : va / 4096 < userPages := by rw [userPages_eq]; omega
      rw [decide_eq_true hpos]
      refine meets_pure ⟨iff_of_true rfl (.inr hfill), _, hi', Faulted.entry hv (.inr (by omega)),
        hs, fun _ => ⟨hv, _, setEntry_self, ?_, ?_⟩, nofun⟩
      · rw [hasFlag_mkPte _ _ (by decide)]
        decide
      · rw [hasFlag_mkPte _ _ (by decide)]
        decide
  unfold handleFault
  cases store with
  | false =>
    exact Meets.bind (meets_pure (meets_ite (fun h => absurd rfl h) (fun _ => hlast nofun)))
  | true =>
    have hcow : (s.procs i).mm.pagetable = 4096 * pg := hpg
    rw [hcow] at hlast ⊢
    refine Meets.seq (cowfault_spec h.inv hr (by simp) rfl va) ?_
    rintro r m1 (⟨rfl, rfl, hno⟩ | ⟨w, w', hv, hw, -, -, hpos, hW, hU, hi1, -, hs1, hcopy⟩)
    · exact meets_ite (fun h => absurd rfl h) (fun _ => hlast fun _ => hno)
    · refine meets_if hpos (meets_pure ⟨iff_of_true rfl (.inl ⟨rfl, hcopy⟩), _, hi1,
        Faulted.entry hv (.inl ?_), hs1, fun _ => ⟨hv, w', setEntry_self, hU, hW⟩, nofun⟩)
      rw [hw]
      exact Option.some_ne_none w

/-- Process `i` is as it was, and can store at `va`. -/
structure Resolved (L : Layout) (f f' : Entries) (c : Slot → Page) (s s' : Sys)
    (i : Fin nproc) (va : Nat) : Prop where
  inv : SysInv L none f' c s'
  kept : Kept (· = i) s s' f f' c c
  procs : s'.procs = s.procs
  user : va / 4096 < userPages
  entry : ∃ w, f' (.proc i) (va / 4096) = some w ∧ hasFlag w pteU = true ∧ hasFlag w pteW = true

theorem usertrapFault_spec (h : SysInv L none f c s) (hu : (s.procs i).state ≠ .unused)
    (store : Bool) (va : Nat) :
    Meets (· = .initExiting) (usertrapFault L i store va) s fun r s' =>
      ∃ f', (r = true ∧ Resolved L f f' c s s' i va) ∨ r = false ∧ Exited L f f' c s s' i := by
  refine meets_getProc ?_
  refine meets_vm_seq (handleFault_spec h hu store va).meets ?_
  rintro r m ⟨-, f1, hi1, hf1, -, hentry, -⟩
  obtain ⟨h1, hk1⟩ := h.faulted hi1 hf1 .refl
  cases r with
  | true =>
    obtain ⟨hv, w, hw⟩ := hentry rfl
    refine (exitIfKilled_spec h1 hu).imp ?_
    rintro r s2 (⟨rfl, rfl, -⟩ | ⟨rfl, hex⟩)
    · exact ⟨f1, .inl ⟨rfl, h1, hk1, rfl, hv, w, hw⟩⟩
    · exact ⟨f1, .inr ⟨rfl, hex.inv, hk1.trans hex.kept, hex.sz⟩⟩
  | false =>
    refine Meets.bind (meets_modifyProc ?_)
    have h2 := h1.touch (i := i) (p := { s.procs i with killed := true }) ⟨rfl, rfl, rfl, .inl rfl⟩
    refine (exitIfKilled_spec (i := i) h2 (by rw [Sys.setProc_same]; exact hu)).imp ?_
    rintro r s2 (⟨-, -, hno⟩ | ⟨rfl, hex⟩)
    · rw [Sys.setProc_same] at hno
      cases hno
    · refine ⟨f1, .inr ⟨rfl, hex.inv, (hk1.trans (Kept.setProc _)).trans hex.kept, ?_⟩⟩
      rw [hex.sz, Sys.setProc_same]

/-! ## §4 Loads and stores -/

/-- The access itself, through a writable entry. -/
theorem store_hit (h : SysInv L none f c s) (hv : va / 4096 < userPages)
    (hw : f (.proc i) (va / 4096) = some w) (hW : hasFlag w pteW = true) (b : Byte) :
    Total (do
      vm do setPage (4096 * ppn w) (setPageByte (← readPage (4096 * ppn w)) (va % pgSize) b)
      return true) s (Stored L f c s i va b) := by
  have hs : uleaf f (.proc i, ⟨va / 4096, hv⟩) = some w := by
    exact hw
  have hi := h.inv.store hs hW (pageWrite (s.mach.mem (ppn w)) (va % 4096) [b])
  have hpage : s.mach.mem (ppn w) = c (.proc i, ⟨va / 4096, hv⟩) := by
    rw [h.inv.data, content_some (uref_of_uleaf hs)]
  obtain ⟨h1, hk1⟩ := h.memory (i := i) hi (fun _ _ => rfl) (h.parts i).sized (.update rfl _)
  refine Meets.bind (meets_vm (Meets.bind (meets_readPage (meets_setPage (meets_pure
    ⟨rfl, rfl, f, _, h1, hk1, ?_⟩)))))
  have hpoke := poked_page (c := c) (t := .proc i) hv (va % 4096) [b]
    (by simp only [List.length_singleton]; omega)
  rw [hpage]
  rwa [show va / 4096 * 4096 + va % 4096 = va by omega] at hpoke

/-- The hardware's lookup for process `i`. -/
theorem SysInv.mmu (h : SysInv L none f c s) (h0 : (s.procs i).pagetable ≠ 0) (hva : va < 2 ^ 64)
    (need : Word) :
    Total (mmu (s.procs i).pagetable va need) s.mach fun r m =>
      m = s.mach ∧ r = (access f (.proc i) va need).map (4096 * ·) := by
  obtain ⟨pg, -, hpg, hr⟩ := h.root h0
  rw [hpg]
  exact mmu_spec h.inv.base.shape h.inv.lf_eq hr hva need

/-- A page that a user access reaches is a user page. -/
theorem SysInv.access (h : SysInv L none f c s) {p : Nat} {need : Word}
    (ha : access f (.proc i) va need = some p) :
    ∃ w, va / 4096 < userPages ∧ f (.proc i) (va / 4096) = some w ∧ hasFlag w need = true ∧
      ppn w = p := by
  obtain ⟨w, hw, hU, hneed, hp⟩ := access_some.mp ha
  refine ⟨w, ?_, hw, hneed, hp⟩
  by_contra hv
  have := (h.inv.base.shape.leaf (h.inv.lf_eq ▸ hw)).2 (.inr (Nat.le_of_not_lt hv))
  rw [hU] at this
  cases this

/-- The retry after a fault that was handled succeeds. -/
theorem userStore_retry {s1 : Sys} (hres : Resolved L f f' c s s1 i va)
    (h0 : (s.procs i).pagetable ≠ 0) (hva : va < 2 ^ 64) (b : Byte) :
    Total (userStore L i va b 1) s1 (Stored L f c s i va b) := by
  obtain ⟨w, hw, hU, hW⟩ := hres.entry
  have ha1 := access_some.mpr ⟨w, hw, hU, hW, rfl⟩
  have h01 : (s1.procs i).pagetable ≠ 0 := by rw [hres.procs]; exact h0
  refine meets_getProc (meets_vm_seq (hres.inv.mmu h01 hva pteW) ?_)
  rintro r m ⟨rfl, rfl⟩
  rw [ha1]
  refine (store_hit hres.inv hres.user hw hW b).imp ?_
  rintro r s2 ⟨rfl, hp2, f2, c2, h2, hk2, hpoke⟩
  exact ⟨rfl, hp2.trans hres.procs, f2, c2, h2, hres.kept.trans hk2, hpoke⟩

theorem userStore_spec (h : SysInv L none f c s) (hu : (s.procs i).state ≠ .unused)
    (hva : va < 2 ^ 64) (b : Byte) :
    Meets (· = .initExiting) (userStore L i va b 2) s (StorePost L f c s i va b) := by
  have h0 := (h.used hu).1
  refine meets_getProc (meets_vm_seq (h.mmu h0 hva pteW).meets ?_)
  rintro r m ⟨rfl, rfl⟩
  cases ha : Vm.access f (.proc i) va pteW with
  | some p =>
    obtain ⟨w, hv, hw, hW, rfl⟩ := h.access ha
    exact ((store_hit h hv hw hW b).meets).imp (fun _ _ => .inl)
  | none =>
    refine Meets.seq (usertrapFault_spec h hu true va) ?_
    rintro r s1 ⟨f1, ⟨rfl, hres⟩ | ⟨rfl, hex⟩⟩
    · exact ((userStore_retry hres h0 hva b).meets).imp (fun _ _ => .inl)
    · exact meets_else (by decide) (meets_pure (.inr ⟨rfl, f1, hex⟩))

/-- A store through an entry that is writable, or that is marked for copying
and needs no copy, always succeeds. -/
theorem userStore_open (h : SysInv L none f c s) (hu : (s.procs i).state ≠ .unused)
    (hlive : (s.procs i).killed = false) (hva : va < 2 ^ 64) (b : Byte)
    (hw : f (.proc i) (va / 4096) = some w) (hU : hasFlag w pteU = true)
    (hopen : hasFlag w pteW = true ∨ hasFlag w pteCow = true ∧ s.mach.refcount (ppn w) = 1) :
    Total (userStore L i va b 2) s (Stored L f c s i va b) := by
  have h0 := (h.used hu).1
  refine meets_getProc (meets_vm_seq (h.mmu h0 hva pteW) ?_)
  rintro r m ⟨rfl, rfl⟩
  cases ha : Vm.access f (.proc i) va pteW with
  | some p =>
    obtain ⟨w, hv, hw, hW, rfl⟩ := h.access ha
    exact store_hit h hv hw hW b
  | none =>
    have hsole : Copyable L f s.mach (.proc i) (va / 4096) := by
      rcases hopen with hW | ⟨hC, hone⟩
      · have := access_some.mpr ⟨w, hw, hU, hW, rfl⟩
        rw [this] at ha
        cases ha
      · exact ⟨w, hw, hU, hC, .inl hone⟩
    refine Meets.seq (P := fun r s1 => r = true ∧ ∃ f1, Resolved L f f1 c s s1 i va) ?_ ?_
    · refine meets_getProc (meets_vm_seq (handleFault_spec h hu true va) ?_)
      rintro r m ⟨hiff, f1, hi1, hf1, -, hentry, -⟩
      obtain ⟨h1, hk1⟩ := h.faulted hi1 hf1 .refl
      cases r with
      | false => exact absurd (hiff.mpr (.inl ⟨rfl, hsole⟩)) (by decide)
      | true =>
        obtain ⟨hv, hw1⟩ := hentry rfl
        refine meets_getProc (meets_ite (fun hk => ?_) (fun _ => meets_pure
          ⟨rfl, f1, h1, hk1, rfl, hv, hw1⟩))
        rw [Sys.setMach_procs, Sys.setMach_procs, hlive] at hk
        cases hk
    · rintro r s1 ⟨rfl, f1, hres⟩
      exact meets_if rfl (userStore_retry hres h0 hva b)

theorem SysInv.byte (h : SysInv L none f c s) (hv : va / 4096 < userPages)
    (hw : f (.proc i) (va / 4096) = some w) :
    pageByte (s.mach.mem (ppn w)) (va % 4096) = ubyte c (.proc i) va := by
  have hs : uleaf f (.proc i, ⟨va / 4096, hv⟩) = some w := by
    exact hw
  rw [ubyte, dif_pos hv, h.inv.data, content_some (uref_of_uleaf hs)]

theorem load_hit (h : SysInv L none f c s) (hv : va / 4096 < userPages)
    (hw : f (.proc i) (va / 4096) = some w) :
    Total (do return some (pageByte (← vm (readPage (4096 * ppn w))) (va % pgSize))) s
      fun r s' => r = some (ubyte c (.proc i) va) ∧ s' = s := by
  refine meets_vm_seq (meets_readPage (Q := fun pg m => pg = s.mach.mem (ppn w) ∧ m = s.mach)
    ⟨rfl, rfl⟩) ?_
  rintro pg m ⟨rfl, rfl⟩
  exact meets_pure ⟨congrArg some (h.byte hv hw), rfl⟩

theorem userLoad_spec (h : SysInv L none f c s) (hu : (s.procs i).state ≠ .unused)
    (hva : va < 2 ^ 64) :
    Meets (· = .initExiting) (userLoad L i va 2) s (LoadPost L f c s i va) := by
  have h0 := (h.used hu).1
  refine meets_getProc (meets_vm_seq (h.mmu h0 hva pteR).meets ?_)
  rintro r m ⟨rfl, rfl⟩
  cases ha : Vm.access f (.proc i) va pteR with
  | some p =>
    obtain ⟨w, hv, hw, -, rfl⟩ := h.access ha
    refine ((load_hit h hv hw).meets).imp ?_
    rintro r s' ⟨rfl, rfl⟩
    exact .inl ⟨rfl, rfl, f, h, .refl⟩
  | none =>
    refine Meets.seq (usertrapFault_spec h hu false va) ?_
    rintro r s1 ⟨f1, ⟨rfl, hres⟩ | ⟨rfl, hex⟩⟩
    · obtain ⟨w, hw, hU, -⟩ := hres.entry
      have hR := (hres.inv.inv.base.shape.leaf (hres.inv.inv.lf_eq ▸ hw)).1
      have ha1 := access_some.mpr ⟨w, hw, hU, hR, rfl⟩
      have h01 : (s1.procs i).pagetable ≠ 0 := by rw [hres.procs]; exact h0
      refine meets_getProc (meets_vm_seq (hres.inv.mmu h01 hva pteR).meets ?_)
      rintro r m ⟨rfl, rfl⟩
      rw [ha1]
      refine ((load_hit hres.inv hres.user hw).meets).imp ?_
      rintro r s' ⟨rfl, rfl⟩
      exact .inl ⟨rfl, hres.procs, f1, hres.inv, hres.kept⟩
    · exact meets_else (by decide) (meets_pure (.inr ⟨rfl, f1, hex⟩))

/-! ## §5 Pages held by the kernel -/

/-- Nothing changed for any process. -/
structure Idle (L : Layout) (f : Entries) (c : Slot → Page) (s s' : Sys) : Prop where
  inv : SysInv L none f c s'
  kept : Kept (fun _ => False) s s' f f c c
  procs : s'.procs = s.procs

theorem Idle.refl (h : SysInv L none f c s) : Idle L f c s s := ⟨h, .refl, rfl⟩

theorem Idle.trans {s'' : Sys} (h : Idle L f c s s') (h' : Idle L f c s' s'') : Idle L f c s s'' :=
  ⟨h'.inv, h.kept.trans h'.kept, h'.procs.trans h.procs⟩

/-- The kernel took or gave back pages. -/
theorem SysInv.idle (h : SysInv L none f c s) (hi : Inv L (view s') f c s'.mach)
    (hp : s'.procs = s.procs) (hk : s'.kernelPagetable = s.kernelPagetable)
    (hs : s'.kstack = s.kstack) (hd : s'.disk = s.disk) (hst : s'.stage = s.stage)
    (hin : s'.initproc = s.initproc) : Idle L f c s s' := by
  have hkept : Kept (fun _ => False) s s' f f c c :=
    ⟨rfl, hk, hs, hd, hst, hin, fun j _ => by rw [hp]; exact .refl _, fun _ _ => rfl,
      fun _ _ _ => rfl⟩
  refine ⟨h.next hkept hi (fun _ hj => hj.elim) (fun j _ hj => ?_), hkept, hp⟩
  rw [hp]
  exact h.whole j (by simp)

theorem view_setRaw (s : Sys) (k : Nat) (x : Option Nat) :
    view { s with raw := update s.raw k x } = (view s).setHnd (.raw k) x := by
  refine View.ext (fun t => rfl) (fun hd => ?_)
  cases hd with
  | raw j =>
    by_cases hj : j = k
    · subst hj
      simp [view]
    · simp [view, hj]
  | _ => rfl

theorem rawKalloc_spec (h : SysInv L none f c s) (k : Nat) :
    Total (rawKalloc k) s fun _ s' => Idle L f c s s' := by
  refine meets_read (meets_ite (fun hk => ?_) (fun _ => meets_pure (.refl h)))
  have hhnd : (view s).hnd (.raw k) = none := hk
  refine meets_vm_seq (h.inv.kalloc hhnd) ?_
  rintro r m (⟨rfl, rfl, -⟩ | ⟨p, rfl, hu, hi, -⟩)
  · exact meets_if rfl (meets_pure (.refl h))
  · have := hu.pos
    refine meets_else (by omega) (meets_modify ?_)
    rw [mul_div_pgSize]
    refine h.idle ?_ rfl rfl rfl rfl rfl rfl
    exact (view_setRaw (s.setMach m) k (some p)).symm ▸ hi

theorem rawKfree_spec (h : SysInv L none f c s) (k : Nat) :
    Total (rawKfree L k) s fun _ s' => Idle L f c s s' := by
  refine meets_read ?_
  cases hk : s.raw k with
  | none => exact meets_pure (.refl h)
  | some p =>
    have hhnd : (view s).hnd (.raw k) = some p := hk
    refine meets_update (meets_vm ?_)
    rw [pgSize_eq, Nat.mul_comm]
    refine (h.inv.kfree_hnd hhnd).imp ?_
    rintro - m ⟨hi, -⟩
    refine h.idle ?_ rfl rfl rfl rfl rfl rfl
    exact (view_setRaw s k none).symm ▸ hi

/-! ## §6 Pipes -/

theorem view_setPipe (s : Sys) (pi : Nat) (x : Option Pipe) :
    view { s with pipes := update s.pipes pi x } =
      (view s).setHnd (.pipe pi) (x.map fun _ => pi) := by
  refine View.ext (fun t => rfl) (fun hd => ?_)
  cases hd with
  | pipe q =>
    by_cases hq : q = pi
    · subst hq
      simp [view]
    · simp [view, hq]
  | _ => rfl

theorem pipealloc_spec (h : SysInv L none f c s) (files : Bool) :
    Total (pipealloc files) s fun _ s' => Idle L f c s s' := by
  refine meets_ite (fun _ => meets_pure (.refl h)) (fun _ => ?_)
  refine meets_vm_seq (h.inv.kalloc (h := .held 0) rfl) ?_
  rintro r m (⟨rfl, rfl, -⟩ | ⟨p, rfl, hu, hi, -⟩)
  · exact meets_if rfl (meets_pure (.refl h))
  · have := hu.pos
    refine meets_else (by omega) (meets_update (meets_pure ?_))
    rw [mul_div_pgSize]
    refine h.idle ?_ rfl rfl rfl rfl rfl rfl
    -- a page that was free holds no pipe
    have hfree : ((view s).setHnd (.held 0) (some p)).hnd (.pipe p) = none := by
      by_contra hne
      obtain ⟨q, hq⟩ := Option.ne_none_iff_exists'.mp hne
      have hqp : q = p := by
        have : (s.pipes p).map (fun _ => p) = some q := hq
        rw [Option.map_eq_some_iff] at this
        obtain ⟨-, -, rfl⟩ := this
        rfl
      subst hqp
      have hd := hi.base.distinct (o := .hnd (.held 0)) (k := .hnd (.pipe q)) (p := q)
        (by simp [own]) hq
      cases hd
    have hi2 := hi.move_hnd (h := .held 0) (k := .pipe p) (p := p) (by simp) hfree
    rw [View.setHnd_back rfl] at hi2
    exact (view_setPipe (s.setMach m) p (some ⟨true, true⟩)).symm ▸ hi2

theorem pipeclose_spec (h : SysInv L none f c s) (pi : Nat) (writable : Bool) :
    Total (pipeclose L pi writable) s fun _ s' => Idle L f c s s' := by
  refine meets_read ?_
  cases hp : s.pipes pi with
  | none => exact meets_pure (.refl h)
  | some p =>
    have hhnd : (view s).hnd (.pipe pi) = some pi := by simp [view, hp]
    refine meets_ite (fun _ => ?_) (fun _ => ?_)
    · refine meets_update (meets_vm ?_)
      rw [pgSize_eq, Nat.mul_comm]
      refine (h.inv.kfree_hnd hhnd).imp ?_
      rintro - m ⟨hi, -⟩
      refine h.idle ?_ rfl rfl rfl rfl rfl rfl
      exact (view_setPipe s pi none).symm ▸ hi
    · refine meets_modify (h.idle ?_ rfl rfl rfl rfl rfl rfl)
      rw [view_setPipe, Option.map_some, View.setHnd_same hhnd]
      exact h.inv

theorem PipePost.none_written (h : Idle L f c s s') : PipePost L f c s i va fds s' := by
  refine ⟨h.procs, f, c, c, 0, 0, h.inv, h.kept.mono (fun _ h => h.elim), ?_, ?_⟩ <;>
  · exact Poked.nil

/-- Both ends are closed again. -/
theorem closeBoth_spec {pi : Nat} (h : PipePost L f c s i va fds s') :
    Total (do
      pipeclose L pi false
      pipeclose L pi true
      return (-1 : Int)) s' fun _ s'' => PipePost L f c s i va fds s'' := by
  obtain ⟨hp, f', c1, c', k0, k1, h', hk, h0, h1⟩ := h
  refine Meets.seq (pipeclose_spec h' pi false) ?_
  intro _ s2 hi2
  refine Meets.seq (pipeclose_spec hi2.inv pi true) ?_
  intro _ s3 hi3
  have hi := hi2.trans hi3
  exact meets_pure ⟨hi.procs.trans hp, f', c1, c', k0, k1, hi.inv,
    hk.trans (hi.kept.mono fun _ h => h.elim), h0, h1⟩

theorem sysPipe_spec (h : SysInv L none f c s) (hu : (s.procs i).state ≠ .unused) (va : Nat)
    (files : Bool) (fds : Option (Nat × Nat)) :
    Total (sysPipe L i va files fds) s fun _ s' => PipePost L f c s i va fds s' := by
  refine Meets.seq (pipealloc_spec h files) ?_
  intro r s1 hi1
  have hk1 : Kept (· = i) s s1 f f c c := hi1.kept.mono (fun _ h => h.elim)
  cases r with
  | none => exact meets_pure (.none_written hi1)
  | some pi =>
    cases fds with
    | none => exact closeBoth_spec (.none_written hi1)
    | some fd =>
      have hu1 : (s1.procs i).state ≠ .unused := by rw [hi1.procs]; exact hu
      refine meets_getProc ?_
      refine Meets.seq (procCopyout_spec hi1.inv hu1 va _) ?_
      rintro r s2 ⟨m2, f2, c2, k0, rfl, h2, hk2, hpoke0, hr⟩
      have hpost : PipePost L f c s i va (some fd) (s1.setMach m2) := by
        refine ⟨hi1.procs, f2, c2, c2, k0, 0, h2, hk1.trans hk2, hpoke0, ?_⟩
        exact Poked.nil
      refine meets_ite (fun _ => closeBoth_spec hpost) (fun _ => ?_)
      refine Meets.seq (procCopyout_spec (s := s1.setMach m2) h2 hu1 (u64 (va + 4)) _) ?_
      rintro r s3 ⟨m3, f3, c3, k1, rfl, h3, hk3, hpoke1, hr1⟩
      have hpost3 : PipePost L f c s i va (some fd) ((s1.setMach m2).setMach m3) :=
        ⟨hi1.procs, f3, c2, c3, k0, k1, h3, (hk1.trans hk2).trans hk3, hpoke0, hpoke1⟩
      exact meets_ite (fun _ => closeBoth_spec hpost3) (fun _ => meets_pure hpost3)

end Xv6
