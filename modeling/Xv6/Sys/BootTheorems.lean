/-
Xv6.Sys.BootTheorems — booting establishes the invariant.

`kinit` leaves every usable page free. `kvminit` builds the kernel's page
table and the kernel stacks, `virtioDiskInit` takes the rings of the disk,
`userinit` makes the first process. Each may run out of memory, and then the
kernel panics: these are the panics in `bootPanics`, and there are no others.
-/
import Xv6.Sys.FaultTheorems

namespace Xv6

open Xv6.Vm Xv6.Lib
open Function

variable {L : Layout} {f f' : Entries} {c c' : Slot → Page} {s s' : Sys}
  {m m' : Mach} {v : View} {pg : Nat}

/-- The ends of a boot that does not get its memory. -/
def bootPanics : List Panic := [.kvmmap, .procMapstacksKalloc, .virtioDiskKalloc, .kerneltrap]

/-! ## §1 Reset -/

theorem own_atReset (mem mem' : Nat → Page) (o : Owner) :
    own mem' (view (Sys.atReset mem)) o = none := by
  cases o with
  | hnd h => cases h <;> rfl
  | root t => cases t <;> rfl
  | mid t i => cases t <;> rfl
  | low t i j => cases t <;> rfl

theorem lf_atReset (mem mem' : Nat → Page) :
    lf mem' (view (Sys.atReset mem)) = fun _ _ => none := by
  funext t vpn
  exact lf_none_of_low (own_atReset ..)

/-- A machine where nothing is held. -/
theorem inv_atReset (mem : Nat → Page) (hf : FreeOk L m) (hr : ∀ p, m.refcount p = 0) :
    Inv L (view (Sys.atReset mem)) (fun _ _ => none) (fun _ => zeroPage) m := by
  have hown := own_atReset mem m.mem
  have href : ∀ sl, uref (fun _ _ => none) sl = none := by
    simp [uref, uleaf]
  refine ⟨lf_atReset .., ⟨⟨?_, ?_, ?_, ?_⟩, hf, ?_, ⟨?_, ?_, ?_, ?_⟩⟩, ⟨?_, ?_, ?_⟩, ?_⟩
  · intro o o' p h
    simp [hown] at h
  · intro o p h
    simp [hown] at h
  · intro o p r h
    simp [hown] at h
  · intro p _
    rw [hr p, refs_eq_zero.mpr fun r => by simp [href]]
    rfl
  · intro p h
    exact absurd (hr p) h
  · intro t q i h
    have := hown (.root t)
    rw [own, h] at this
    cases this
  · intro t i q j h
    simp [hown] at h
  · intro t i _
    exact hown _
  · intro t vpn w h
    simp [lf_atReset] at h
  · intro sl sl' w w' h
    simp [uleaf] at h
  · intro sl w h
    simp [uleaf] at h
  · intro sl sl' w w' h
    simp [uleaf] at h
  · intro sl
    exact (content_none (href sl)).symm

/-- `kinit` establishes the invariant. -/
theorem kinit_inv (mem : Nat → Page) :
    Total (vm (kinit L)) (Sys.atReset mem) fun _ s =>
      SysInv L none (fun _ _ => none) (fun _ => zeroPage) s ∧ s.procs = fun _ => .empty := by
  refine meets_vm ((kinit_spec (fun _ => rfl) rfl).mono ?_ (fun _ h => h))
  rintro _ m ⟨hf, hr⟩
  refine ⟨⟨inv_atReset mem hf hr, fun i => ?_, fun i _ => ?_, ?_, ⟨?_, ?_⟩⟩, rfl⟩
  · exact ⟨Nat.zero_le _, fun _ _ _ => rfl, rfl, rfl⟩
  · exact ⟨⟨fun _ => rfl, fun _ => rfl⟩, ⟨fun _ => rfl, fun _ => rfl⟩, fun _ => rfl⟩
  · intro i p h
    cases h
  · exact fun _ => ⟨rfl, fun _ => rfl⟩
  · exact fun _ _ => rfl

/-! ## §2 The kernel's page table -/

/-- `f'` is `f` with kernel pages mapped at `[va, va + sz)`. -/
structure KernelMapped (f f' : Entries) (va sz pa : Nat) (perm : Word) : Prop where
  user : ∀ t, t ≠ .kernel → f' t = f t
  out : ∀ vpn, ¬ (va / 4096 ≤ vpn ∧ vpn < (va + sz) / 4096) → f' .kernel vpn = f .kernel vpn
  entry : ∀ vpn, va / 4096 ≤ vpn → vpn < (va + sz) / 4096 →
    f' .kernel vpn = some (mkPte (pa / 4096 + (vpn - va / 4096)) perm)

theorem uleaf_kernel {a b : Nat} {g : Nat → Option Word} :
    uleaf (setRange f .kernel a b g) = uleaf f := by
  funext sl
  unfold uleaf
  split
  · rfl
  · rename_i ht
    rw [setRange_table ht]

theorem kvmmap_spec (hi : Inv L v f c m) (hr : v.root .kernel = some pg) {va sz pa : Nat}
    {perm : Word} (hR : hasFlag perm pteR = true) (hU : hasFlag perm pteU = false)
    (ha : va % 4096 = 0) (hs : sz % 4096 = 0) (hp : pa % 4096 = 0) (h0 : 0 < sz)
    (hva : va + sz ≤ maxVa) (hpa : pa ≤ physTop)
    (hfree : ∀ vpn, va / 4096 ≤ vpn → vpn < (va + sz) / 4096 → f .kernel vpn = none) :
    Meets (· ∈ bootPanics) (kvmmap (4096 * pg) va pa sz perm) m fun _ m' =>
      ∃ f', Inv L v f' c m' ∧ KernelMapped f f' va sz pa perm := by
  obtain ⟨n, rfl⟩ : ∃ n, sz = n * 4096 := ⟨sz / 4096, by omega⟩
  obtain ⟨p, rfl⟩ : ∃ p, pa = 4096 * p := ⟨pa / 4096, by omega⟩
  have hend : (va + n * 4096) / 4096 = va / 4096 + n := by omega
  have hleaf : ∀ q vpn, LeafOk .kernel vpn (mkPte q perm) := by
    intro q vpn
    refine ⟨?_, fun _ => ?_⟩
    · rw [hasFlag_mkPte _ _ (by decide), hR, Bool.true_or]
    · rw [hasFlag_mkPte _ _ (by decide), hU]
      decide
  refine Meets.seq (mappages_range hi.base hr ha (by omega) hva (by
    simp only [maxVa_eq] at hva
    simp only [physTop_eq] at hpa
    omega) (fun k hk => ⟨?_, hleaf _ _⟩)).meets ?_
  · rw [hi.lf_eq]
    exact hfree _ (by omega) (by omega)
  · intro r m1 hpost
    refine meets_ite (fun _ => meets_throw (by decide)) (fun hz => meets_pure ?_)
    obtain ⟨hb, hu, hlf⟩ := hpost (by simpa using hz)
    rw [hi.lf_eq] at hlf
    refine ⟨_, hi.priv uleaf_kernel hb hu.toUntouched hlf, ⟨fun t ht => setRange_table ht, ?_, ?_⟩⟩
    · intro vpn hv
      rw [hend] at hv
      exact setRange_out hv
    · intro vpn h1 h2
      rw [hend] at h2
      rw [setRange_in h1 h2, Nat.mul_div_cancel_left p (by decide)]

/-! ## §3 Kernel stacks -/

theorem kstackVa_eq (i : Fin nproc) : kstackVa i = 4096 * (67108861 - 2 * i.val) := by
  unfold kstackVa
  simp only [trampolineVa_eq, pgSize_eq]
  omega

/-- What mapping the kernel stacks leaves: only the machine and `kstack`
change, and each stack that was set is mapped. -/
def StacksPost (L : Layout) (f : Entries) (c : Slot → Page) (s : Sys)
    (s' : Sys) : Prop :=
  ∃ m ks f', s' = ({ s with kstack := ks }).setMach m ∧ Inv L (view s') f' c m ∧
    (∀ t, t ≠ .kernel → f' t = f t) ∧
    ∀ (i : Fin nproc) p, ks i = some p → (f' .kernel (kstackVa i / 4096)).map ppn = some p

theorem view_setKstack (s : Sys) (i : Fin nproc) (x : Option Nat) :
    view { s with kstack := update s.kstack i x } = (view s).setHnd (.kstack i) x := by
  refine View.ext (fun _ => rfl) (fun h => ?_)
  cases h with
  | kstack j =>
    by_cases hj : j = i
    · subst hj
      simp [view]
    · simp [view, hj]
  | _ => rfl

theorem procMapstacks_spec (is : List (Fin nproc)) :
    ∀ {s : Sys} {f : Entries}, Inv L (view s) f c s.mach →
    (view s).root .kernel = some pg → is.Nodup →
    (∀ i ∈ is, s.kstack i = none ∧ f .kernel (kstackVa i / 4096) = none) →
    (∀ i p, s.kstack i = some p → (f .kernel (kstackVa i / 4096)).map ppn = some p) →
    Meets (· ∈ bootPanics) (procMapstacks (4096 * pg) is) s fun _ s' => StacksPost L f c s s' := by
  induction is with
  | nil =>
    intro s f hi _ _ _ hks
    exact meets_pure ⟨s.mach, s.kstack, f, rfl, hi, fun _ _ => rfl, hks⟩
  | cons i is ih =>
    intro s f hi hr hnd hfree hks
    obtain ⟨hni, hnd⟩ := List.nodup_cons.mp hnd
    obtain ⟨hknone, hfnone⟩ := hfree i (by simp)
    have hva := kstackVa_eq i
    refine meets_vm_seq (hi.kalloc (h := .kstack i) hknone).meets ?_
    rintro r m1 (⟨rfl, rfl, -⟩ | ⟨p, rfl, hu, hi1, -⟩)
    · exact meets_if rfl (meets_throw (by decide))
    · have hp := hu.pos
      refine meets_else (by omega) ?_
      refine meets_update ?_
      rw [mul_div_pgSize]
      have hview := view_setKstack (s.setMach m1) i (some p)
      rw [view_setMach] at hview
      rw [← hview] at hi1
      refine meets_vm_seq (kvmmap_spec hi1 hr
        (by decide) (by decide) (by omega) (by decide) (by omega) (by decide)
        (by simp only [maxVa_eq, pgSize_eq]; omega)
        (by have := hu.lt; simp only [physTop_eq]; omega) (fun vpn h1 h2 => ?_)) ?_
      · rw [pgSize_eq] at h2
        rw [show vpn = kstackVa i / 4096 by omega]
        exact hfnone
      · rintro _ m2 ⟨f2, hi2, hm⟩
        have hat : f2 .kernel (kstackVa i / 4096) = some (mkPte p (pteR ||| pteW)) := by
          rw [hm.entry _ (Nat.le_refl _) (by rw [pgSize_eq]; omega), Nat.sub_self,
            Nat.mul_div_cancel_left p (by decide), Nat.add_zero]
        have hother : ∀ j, j ≠ i → f2 .kernel (kstackVa j / 4096) =
            f .kernel (kstackVa j / 4096) := by
          intro j hj
          have := kstackVa_eq j
          have : j.val < 64 := j.isLt
          refine hm.out _ ?_
          rw [pgSize_eq]
          omega
        refine (ih (s := ({ s with kstack := update s.kstack i (some p) }).setMach m2) hi2 hr hnd
          (fun j hj => ?_) (fun j q hq => ?_)).mono ?_ (fun _ h => h)
        · have hji : j ≠ i := by
            rintro rfl
            exact hni hj
          obtain ⟨h1, h2⟩ := hfree j (by simp [hj])
          exact ⟨(update_of_ne hji ..).trans h1, (hother j hji).trans h2⟩
        · by_cases hji : j = i
          · subst hji
            have hpq : some p = some q := (update_self j _ s.kstack).symm.trans hq
            cases hpq
            rw [hat, Option.map_some, ppn_mkPte hu.lt_ppn (by decide)]
          · rw [hother j hji]
            exact hks j q ((update_of_ne hji _ s.kstack).symm.trans hq)
        · rintro _ s3 ⟨m3, ks, f3, rfl, hi3, huser, hks3⟩
          exact ⟨m3, ks, f3, rfl, hi3, fun t ht => (huser t ht).trans (hm.user t ht), hks3⟩

/-- The whole of `kvminit`. -/
theorem kvminit_spec (hi : Inv L (view s) f c s.mach) (hk : s.kernelPagetable = 0)
    (hks : ∀ i, s.kstack i = none) :
    Meets (· ∈ bootPanics) (kvminit L) s fun _ s' =>
      ∃ kp, StacksPost L f c { s with kernelPagetable := kp } s' := by
  have hroot : (view s).root .kernel = none := by
    rw [show (view s).root .kernel = pageOf s.kernelPagetable from rfl, hk, pageOf_zero]
  have hclear := hi.root_none hroot
  have hL1 := L.trampoline_aligned
  have hL2 := L.kernBase_le
  have hL3 := L.etext_eq
  have hL4 := L.etext_le
  have hL5 := L.kend_le
  simp only [physTop_eq, kernBase] at hL2 hL5
  refine meets_vm_seq (hi.kalloc (h := .held 0) rfl).meets ?_
  rintro r m1 (⟨rfl, rfl, -⟩ | ⟨pg, rfl, hu, hi1, -⟩)
  · exact meets_if rfl (meets_throw (by decide))
  have hpos := hu.pos
  have hend : L.etext + 4096 ≤ 2281701376 := by
    have h1 := hu.1
    have h2 := hu.2
    rw [pgRoundUp_of_lt (by omega)] at h1
    simp only [physTop_eq] at h2
    omega
  refine meets_else (by omega) ?_
  refine meets_vm_seq (meets_setPage (Q := fun _ m => m = _) rfl) ?_
  rintro _ _ rfl
  refine meets_update ?_
  obtain ⟨hi2, -⟩ := hi1.new_root (t := .kernel) rfl hroot
  have hview : view ({ s with kernelPagetable := 4096 * pg }) =
      (view s).setRoot .kernel (some pg) := by
    refine View.ext (fun t => ?_) (fun _ => rfl)
    cases t with
    | kernel => simp [view, pageOf_mul hpos]
    | _ => rfl
  rw [← hview] at hi2
  have hr : (view ({ s with kernelPagetable := 4096 * pg })).root .kernel = some pg :=
    pageOf_mul hpos
  -- the six mappings are disjoint, and all lie below the kernel stacks or at the very top
  refine meets_vm_seq (kvmmap_spec hi2 hr (by decide) (by decide) (by decide) (by decide)
    (by decide) (by decide) (by decide) (by decide) (fun vpn _ _ => hclear vpn)) ?_
  rintro _ m3 ⟨f3, hi3, hm3⟩
  have hc3 : ∀ vpn, vpn ≠ 65536 → f3 .kernel vpn = none := fun vpn h =>
    (hm3.out vpn (by simp only [uart0, pgSize_eq]; omega)).trans (hclear vpn)
  refine meets_vm_seq (kvmmap_spec hi3 hr (by decide) (by decide) (by decide) (by decide)
    (by decide) (by decide) (by decide) (by decide)
    (fun vpn h1 h2 => hc3 vpn (by simp only [virtio0, pgSize_eq] at h1 h2; omega))) ?_
  rintro _ m4 ⟨f4, hi4, hm4⟩
  have hc4 : ∀ vpn, vpn < 65536 ∨ 65538 ≤ vpn → f4 .kernel vpn = none := fun vpn h =>
    (hm4.out vpn (by simp only [virtio0, pgSize_eq]; omega)).trans (hc3 vpn (by omega))
  refine meets_vm_seq (kvmmap_spec hi4 hr (by decide) (by decide) (by decide) (by decide)
    (by decide) (by decide) (by decide) (by decide)
    (fun vpn h1 h2 => hc4 vpn (by simp only [plic] at h1 h2; omega))) ?_
  rintro _ m5 ⟨f5, hi5, hm5⟩
  have hc5 : ∀ vpn, 65538 ≤ vpn → f5 .kernel vpn = none := fun vpn h =>
    (hm5.out vpn (by simp only [plic]; omega)).trans (hc4 vpn (by omega))
  refine meets_vm_seq (kvmmap_spec hi5 hr (by decide) (by decide) (by decide)
    (by simp only [kernBase]; omega) (by decide) (by simp only [kernBase]; omega)
    (by simp only [kernBase, maxVa_eq]; omega) (by decide)
    (fun vpn h1 h2 => hc5 vpn (by simp only [kernBase] at h1 h2; omega))) ?_
  rintro _ m6 ⟨f6, hi6, hm6⟩
  have hc6 : ∀ vpn, L.etext / 4096 ≤ vpn → f6 .kernel vpn = none := fun vpn h =>
    (hm6.out vpn (by simp only [kernBase]; omega)).trans (hc5 vpn (by omega))
  refine meets_vm_seq (kvmmap_spec hi6 hr (by decide) (by decide) (by omega)
    (by simp only [physTop_eq]; omega) (by omega) (by simp only [physTop_eq]; omega)
    (by simp only [physTop_eq, maxVa_eq]; omega) (by simp only [physTop_eq]; omega)
    (fun vpn h1 _ => hc6 vpn h1)) ?_
  rintro _ m7 ⟨f7, hi7, hm7⟩
  have hc7 : ∀ vpn, 557056 ≤ vpn → f7 .kernel vpn = none := fun vpn h =>
    (hm7.out vpn (by simp only [physTop_eq]; omega)).trans (hc6 vpn (by omega))
  refine meets_vm_seq (kvmmap_spec hi7 hr (by decide) (by decide) (by decide) (by decide)
    (by omega) (by decide) (by decide) (by simp only [physTop_eq]; omega)
    (fun vpn h1 _ => hc7 vpn (by simp only [trampolineVa_eq] at h1; omega))) ?_
  rintro _ m8 ⟨f8, hi8, hm8⟩
  have hc8 : ∀ vpn, 557056 ≤ vpn → vpn < 67108863 → f8 .kernel vpn = none := fun vpn h h' =>
    (hm8.out vpn (by simp only [trampolineVa_eq, pgSize_eq]; omega)).trans (hc7 vpn h)
  refine (procMapstacks_spec (List.finRange nproc)
    (s := ({ s with kernelPagetable := 4096 * pg }).setMach m8) hi8 hr
    (List.nodup_finRange nproc) (fun i _ => ⟨hks i, hc8 _ ?_ ?_⟩)
    (fun i p h => absurd ((hks i).symm.trans h) (by simp))).mono ?_ (fun _ h => h)
  · have : i.val < 64 := i.isLt
    rw [kstackVa_eq]
    omega
  · rw [kstackVa_eq]
    omega
  · rintro _ s' ⟨m9, ks, f9, rfl, hi9, huser, hks9⟩
    refine ⟨4096 * pg, m9, ks, f9, rfl, hi9, fun t ht => ?_, hks9⟩
    rw [huser t ht, hm8.user t ht, hm7.user t ht, hm6.user t ht, hm5.user t ht, hm4.user t ht,
      hm3.user t ht]

/-! ## §4 The disk's rings -/

/-- `kalloc` for handle `h`, whether it succeeds or not. -/
theorem kalloc_pageOf (hi : Inv L v f c m) {h : Handle} (hh : v.hnd h = none) :
    Total kalloc m fun r m' => r % 4096 = 0 ∧ Inv L (v.setHnd h (pageOf r)) f c m' := by
  refine (hi.kalloc hh).mono ?_ (fun _ h => h)
  rintro r m' (⟨rfl, rfl, -⟩ | ⟨p, rfl, hu, hi1, -⟩)
  · rw [pageOf_zero, View.setHnd_same hh]
    exact ⟨rfl, hi⟩
  · rw [pageOf_mul hu.pos]
    exact ⟨by omega, hi1⟩

/-- The rings as the view sees them. -/
def rings (v : View) (desc avail used : Nat) : View :=
  ((v.setHnd (.disk .desc) (pageOf desc)).setHnd (.disk .avail) (pageOf avail)).setHnd
    (.disk .used) (pageOf used)

theorem view_setDisk {desc avail used : Nat} (h0 : desc ≠ 0) (h1 : avail ≠ 0) (h2 : used ≠ 0) :
    view { s with disk := ringPages desc avail used } = rings (view s) desc avail used := by
  refine View.ext (fun _ => rfl) (fun h => ?_)
  cases h with
  | disk k =>
    cases k with
    | desc => simp [view, rings, ringPages, pageOf_ne h0]
    | avail => simp [view, rings, ringPages, pageOf_ne h1]
    | used => simp [view, rings, ringPages, pageOf_ne h2]
  | _ => simp [view, rings]

/-- Clearing one of the rings. -/
theorem Inv.clear_ring (hi : Inv L v f c m) {k : Ring} {pa : Nat} (h0 : pa ≠ 0)
    (ha : pa % 4096 = 0) (hh : v.hnd (.disk k) = pageOf pa) :
    Total (setPage pa (fillPage 0)) m fun _ m' => Inv L v f c m' := by
  rw [pageOf_ne h0] at hh
  obtain ⟨p, rfl⟩ : ∃ p, pa = 4096 * p := ⟨pa / 4096, by omega⟩
  rw [Nat.mul_div_cancel_left p (by decide)] at hh
  exact meets_setPage (hi.write_hnd hh (fillPage 0))

theorem virtioDiskInit_spec (hi : Inv L (view s) f c s.mach) (hd : ∀ k, s.disk k = none) :
    Meets (· ∈ bootPanics) virtioDiskInit s fun _ s' =>
      ∃ m d, s' = ({ s with disk := d }).setMach m ∧ Inv L (view s') f c m := by
  refine meets_vm_seq (kalloc_pageOf hi (h := .disk .desc) (hd .desc)).meets ?_
  rintro desc m1 ⟨ha0, hi1⟩
  refine meets_vm_seq (kalloc_pageOf hi1 (h := .disk .avail)
    (by simpa [view] using hd .avail)).meets ?_
  rintro avail m2 ⟨ha1, hi2⟩
  refine meets_vm_seq (kalloc_pageOf hi2 (h := .disk .used)
    (by simpa [view] using hd .used)).meets ?_
  rintro used m3 ⟨ha2, hi3⟩
  refine meets_ite (fun _ => meets_throw (by decide)) (fun hne => ?_)
  simp only [not_or] at hne
  obtain ⟨h0, h1, h2⟩ := hne
  refine meets_vm_seq (Inv.clear_ring hi3 (k := .desc) h0 ha0 (by simp)).meets ?_
  intro _ m4 hi4
  refine meets_vm_seq (Inv.clear_ring hi4 (k := .avail) h1 ha1 (by simp)).meets ?_
  intro _ m5 hi5
  refine meets_vm_seq (Inv.clear_ring hi5 (k := .used) h2 ha2 (by simp)).meets ?_
  intro _ m6 hi6
  refine meets_modify ⟨m6, _, rfl, ?_⟩
  rw [view_setDisk h0 h1 h2]
  exact hi6

/-! ## §5 The boot steps -/

/-- What a boot step leaves for the processes: at most one new one, with
nothing in its memory. -/
def BootPost (L : Layout) (f : Entries) (c : Slot → Page) (s s' : Sys) : Prop :=
  ∃ f', SysInv L none f' c s' ∧ ∃ A : Fin nproc → Prop,
    (∀ j, A j → (s.procs j).state = .unused ∧ (s'.procs j).sz = 0) ∧
    ∀ j, ¬ A j → Same (s.procs j) (s'.procs j) ∧ f' (.proc j) = f (.proc j)

theorem userinit_spec (h : SysInv L none f c s) :
    Meets (· ∈ bootPanics) (userinit L) s fun _ s' =>
      BootPost L f c s s' ∧ s'.stage = s.stage := by
  refine Meets.seq (allocproc_spec h).meets ?_
  rintro r s1 (⟨rfl, -⟩ | ⟨i, f1, rfl, h1, hk, hu, hstate, hsz, -⟩)
  · exact meets_throw (by decide)
  · refine meets_update (meets_modifyProc ?_)
    have h2 : SysInv L none f1 c { s1 with initproc := some i } :=
      ⟨h1.inv, h1.parts, h1.whole, h1.kstacks, ⟨h1.booting.kernel, h1.booting.disk⟩⟩
    have hp := h1.parts i
    refine ⟨⟨f1, h2.setProc rfl rfl ⟨hp.size, hp.sized, hp.table, hp.frame⟩
      (fun _ => (h1.whole i (by simp)).state (by simp [hstate]) rfl rfl
        (by simp [Proc.makeRunnable]))
      (fun _ _ h => h), (· = i), ?_, fun j hj => ⟨?_, hk.entries j hj⟩⟩, hk.stage⟩
    · rintro j rfl
      rw [Sys.setProc_same]
      exact ⟨hu, hsz⟩
    · rw [Sys.setProc_ne _ _ _ hj]
      exact hk.same j hj

theorem bootStep_spec (h : SysInv L none f c s) :
    Meets (fun e => e ∈ bootPanics ∧ s.stage < 3) (bootStep L) s fun _ s' =>
      BootPost L f c s s' := by
  refine meets_read ?_
  split
  · rename_i hst
    obtain ⟨hk0, hks⟩ := h.booting.kernel hst
    refine Meets.seq ((kvminit_spec h.inv hk0 hks).mono (fun _ _ h => h)
      (fun _ he => ⟨he, by omega⟩)) ?_
    rintro _ s1 ⟨kp, m1, ks, f1, rfl, hi1, huser, hks1⟩
    refine meets_modify ⟨f1, ⟨hi1, fun i => ?_, h.whole, hks1, ⟨?_, ?_⟩⟩, fun _ => False,
      fun _ h => h.elim, fun j _ => ⟨.refl _, huser _ (by simp)⟩⟩
    · exact (h.parts i).congr (.refl _) (huser _ (by simp))
    · intro h1
      cases h1
    · intro _
      exact h.booting.disk (by omega)
  · refine Meets.seq ((virtioDiskInit_spec h.inv (h.booting.disk (by omega))).mono
      (fun _ _ h => h) (fun _ he => ⟨he, by omega⟩)) ?_
    rintro _ s1 ⟨m1, d, rfl, hi1⟩
    refine meets_modify ⟨f, ⟨hi1, h.parts, h.whole, h.kstacks, ⟨?_, ?_⟩⟩, fun _ => False,
      fun _ h => h.elim, fun j _ => ⟨.refl _, rfl⟩⟩
    · intro h1
      cases h1
    · intro h1
      exact absurd (show 2 ≤ 1 from h1) (by decide)
  · refine Meets.seq ((userinit_spec h).mono (fun _ _ h => h) (fun _ he => ⟨he, by omega⟩)) ?_
    rintro _ s1 ⟨⟨f1, h1, A, hA, hother⟩, hstage⟩
    refine meets_modify ⟨f1, ⟨h1.inv, h1.parts, h1.whole, h1.kstacks, ⟨?_, ?_⟩⟩, A, hA, hother⟩
    · intro h1
      cases h1
    · intro h1
      exact absurd (show 3 ≤ 1 from h1) (by decide)
  · exact meets_pure ⟨f, h, fun _ => False, fun _ h => h.elim, fun j _ => ⟨.refl _, rfl⟩⟩

end Xv6
