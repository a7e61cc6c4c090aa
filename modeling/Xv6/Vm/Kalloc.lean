/-
Xv6.Vm.Kalloc — the physical page allocator with reference counts,
from `kernel/kalloc.c`.

The free list is threaded through the free pages themselves: a free page's
first word is the address of the next free page, as `struct run` has it.
`Mach` is what the allocator and the page-table code share: physical
memory, the reference counters and the head of the free list. Each
function below is one critical section of `kmem.lock`; the junk `kalloc`
writes after releasing the lock goes to a page nobody else can name.

§1 is the code, §2 the list the free pages form (`FreeOk`) and what each
function does to it.
-/
import Mathlib.Data.Finset.Card
import Mathlib.Data.Finset.Range
import Xv6.Lib.Outcome
import Xv6.Vm.Riscv

namespace Xv6.Vm

open Xv6.Lib Function

/-! ## §1 The allocator -/

/-- The `panic` calls of the modelled code; `kerneltrap` is also where a
null entry pointer would end, and `outOfFuel` stands for a model loop that
used up its bound. -/
inductive Panic where
  | walk
  | mappagesVa
  | mappagesSizeAligned
  | mappagesSize
  | mappagesRemap
  | uvmunmapAligned
  | freewalkLeaf
  | uvmclear
  | loadsegAddr
  | kfree
  | kfreeRefcount
  | kaddref
  | kaddrefRefcount
  | kgetref
  | kvmmap
  | procMapstacksKalloc
  | virtioDiskKalloc
  | initExiting
  | kerneltrap
  | outOfFuel
  deriving DecidableEq, Repr

/-- The addresses `kernel.ld` provides, with what the script guarantees. -/
structure Layout where
  trampoline : Nat
  etext : Nat
  kend : Nat
  trampoline_aligned : trampoline % 4096 = 0
  kernBase_le : kernBase ≤ trampoline
  etext_eq : etext = trampoline + 4096
  etext_le : etext ≤ kend
  kend_le : kend ≤ physTop

/-- Seven pages of text before the trampoline, and data after it. -/
instance : Inhabited Layout where
  default :=
    { trampoline := kernBase + 0x7000, etext := kernBase + 0x8000, kend := kernBase + 0x24000
      trampoline_aligned := by decide, kernBase_le := by decide, etext_eq := by decide
      etext_le := by decide, kend_le := by decide }

/-- Physical memory by page number, `refcount[]` and `kmem.freelist`. -/
structure Mach where
  mem : Nat → Page
  refcount : Nat → Int
  freelist : Nat

abbrev M (α : Type) := StateT Mach (Except Panic) α

variable (L : Layout)

/-- The address check shared by `kfree`, `kaddref` and `kgetref`. -/
def badPa (pa : Nat) : Bool := pa % pgSize ≠ 0 ∨ pa < L.kend ∨ pa ≥ physTop

def kfree (pa : Nat) : M Unit := do
  if badPa L pa then throw .kfree
  else
    let index := pa / pgSize
    let m ← get
    if m.refcount index < 1 then throw .kfreeRefcount
    else
      let m1 := { m with refcount := update m.refcount index (m.refcount index - 1) }
      -- another page table still refers to this physical page
      if m1.refcount index > 0 then set m1
      else
        -- junk, then the link of `struct run`
        let page := update (fillPage 1) 0 (BitVec.ofNat 64 m1.freelist)
        set { m1 with mem := update m1.mem index page, freelist := pa }

/-- Returns 0 if the memory cannot be allocated. -/
def kalloc : M Nat := do
  let m ← get
  let r := m.freelist
  if r ≠ 0 then
    set { m with
      freelist := (m.mem (r / pgSize) 0).toNat
      refcount := update m.refcount (r / pgSize) 1
      mem := update m.mem (r / pgSize) (fillPage 5) }
    return r
  else return 0

def kaddref (pa : Nat) : M Unit := do
  let index := pa / pgSize
  if badPa L pa then throw .kaddref
  else
    let m ← get
    if m.refcount index < 1 then throw .kaddrefRefcount
    else set { m with refcount := update m.refcount index (m.refcount index + 1) }

def kgetref (pa : Nat) : M Int := do
  let index := pa / pgSize
  if badPa L pa then throw .kgetref
  else return (← get).refcount index

def freerangeLoop (paEnd : Nat) : Nat → Nat → M Unit
  | 0, _ => throw .outOfFuel
  | n + 1, p =>
    if p + pgSize ≤ paEnd then do
      kfree L p
      freerangeLoop paEnd n (p + pgSize)
    else return

def freerange (paStart paEnd : Nat) : M Unit :=
  freerangeLoop L paEnd ((paEnd - pgRoundUp paStart) / pgSize + 1) (pgRoundUp paStart)

/-- `kinit`'s own loop: every usable page starts at one reference, so that
`kfree` can reduce it to zero. -/
def kinitRefs (refcount : Nat → Int) : Nat → Int := fun p =>
  if pgRoundUp L.kend ≤ p * pgSize ∧ p * pgSize + pgSize ≤ physTop then 1 else refcount p

def kinit : M Unit := do
  modify fun m => { m with refcount := kinitRefs L m.refcount }
  freerange L L.kend physTop

/-! ## §2 The free list -/

/-- A page the allocator may hand out. -/
def Layout.Usable (p : Nat) : Prop := pgRoundUp L.kend ≤ p * 4096 ∧ p * 4096 + 4096 ≤ physTop

/-- The free pages reached from `head` through the links, in order. -/
def FreeChain (mem : Nat → Page) : Nat → List Nat → Prop
  | head, [] => head = 0
  | head, p :: ps => head = 4096 * p ∧ FreeChain mem (mem p 0).toNat ps

/-- The free list holds exactly the usable pages with count zero, once each. -/
def FreeOk (m : Mach) : Prop :=
  ∃ fl, FreeChain m.mem m.freelist fl ∧ fl.Nodup ∧ ∀ p, p ∈ fl ↔ L.Usable p ∧ m.refcount p = 0

variable {L} {p : Nat} {m : Mach}

theorem Layout.Usable.pos (h : L.Usable p) : 0 < p := by
  have h1 := h.1
  have h3 := L.etext_eq
  have h4 := L.etext_le
  have h5 := L.kend_le
  rw [pgRoundUp_of_lt (by simp only [physTop_eq] at h5; omega)] at h1
  omega

theorem Layout.Usable.lt (h : L.Usable p) : p < 557056 := by
  have := h.2
  simp only [physTop_eq] at this
  omega

theorem Layout.Usable.lt_ppn (h : L.Usable p) : p < 2 ^ 44 := by
  have := h.lt
  omega

/-- A usable page passes the address check. -/
theorem Layout.Usable.not_badPa (h : L.Usable p) : badPa L (4096 * p) = false := by
  have h1 := h.1
  have h2 := h.2
  have h5 := L.kend_le
  rw [pgRoundUp_of_lt (by simp only [physTop_eq] at h5; omega)] at h1
  simp only [physTop_eq] at h2
  refine decide_eq_false ?_
  simp only [pgSize_eq, physTop_eq]
  omega

theorem freeChain_frame {mem mem' : Nat → Page} : ∀ (fl : List Nat) (head : Nat),
    (∀ p ∈ fl, mem' p = mem p) → FreeChain mem head fl → FreeChain mem' head fl
  | [], _, _, h => h
  | p :: ps, head, hm, h => by
    refine ⟨h.1, ?_⟩
    rw [hm p (by simp)]
    exact freeChain_frame ps _ (fun q hq => hm q (by simp [hq])) h.2

/-- Writing pages that are not free leaves the free list alone. -/
theorem FreeOk.frame {m' : Mach} (h : FreeOk L m) (hf : m'.freelist = m.freelist)
    (hr : ∀ p, m'.refcount p = 0 ↔ m.refcount p = 0)
    (hm : ∀ p, L.Usable p → m.refcount p = 0 → m'.mem p = m.mem p) : FreeOk L m' := by
  obtain ⟨fl, hc, hn, hfl⟩ := h
  refine ⟨fl, ?_, hn, fun p => by rw [hfl p, hr p]⟩
  rw [hf]
  refine freeChain_frame fl _ (fun p hp => ?_) hc
  obtain ⟨h1, h2⟩ := (hfl p).mp hp
  exact hm p h1 h2

instance : DecidablePred L.Usable := fun _ => inferInstanceAs (Decidable (_ ∧ _))

def freePages (L : Layout) (m : Mach) : Finset Nat :=
  (Finset.range 557056).filter fun p => L.Usable p ∧ m.refcount p = 0

/-- The number of free pages. -/
def avail (L : Layout) (m : Mach) : Nat := (freePages L m).card

theorem mem_freePages : p ∈ freePages L m ↔ L.Usable p ∧ m.refcount p = 0 := by
  simp only [freePages, Finset.mem_filter, Finset.mem_range, and_iff_right_iff_imp]
  intro h
  exact h.1.lt

theorem avail_acquire {m' : Mach} (hu : L.Usable p) (h0 : m.refcount p = 0)
    (h : m'.refcount = update m.refcount p 1) : avail L m = avail L m' + 1 := by
  have hmem : p ∈ freePages L m := mem_freePages.mpr ⟨hu, h0⟩
  have hset : freePages L m' = (freePages L m).erase p := by
    ext q
    rw [Finset.mem_erase, mem_freePages, mem_freePages, h]
    by_cases hq : q = p
    · simp [hq]
    · simp [hq]
  rw [avail, avail, hset, Finset.card_erase_add_one hmem]

/-- What `kalloc` does: nothing when no page is free, else it takes one
free page, counts it once and fills it with junk. -/
theorem kalloc_spec (h : FreeOk L m) :
    Total kalloc m fun r m' =>
      (r = 0 ∧ m' = m ∧ avail L m = 0) ∨
      ∃ p, r = 4096 * p ∧ L.Usable p ∧ m.refcount p = 0 ∧ FreeOk L m' ∧
        m'.mem = update m.mem p (fillPage 5) ∧ m'.refcount = update m.refcount p 1 := by
  obtain ⟨fl, hc, hn, hfl⟩ := h
  refine meets_read ?_
  cases fl with
  | nil =>
    have h0 : m.freelist = 0 := hc
    have hnone : freePages L m = ∅ := Finset.eq_empty_of_forall_notMem fun p hp =>
      List.not_mem_nil ((hfl p).mpr (mem_freePages.mp hp))
    refine meets_ite (fun hne => absurd h0 hne) (fun _ => meets_pure (.inl ⟨rfl, rfl, ?_⟩))
    rw [avail, hnone, Finset.card_empty]
  | cons p ps =>
    obtain ⟨hhead, hrest⟩ := hc
    obtain ⟨hu, h0⟩ := (hfl p).mp (by simp)
    have hp := hu.pos
    have hdiv : m.freelist / pgSize = p := by rw [hhead, pgSize_eq]; omega
    refine meets_if (by omega) ?_
    refine Meets.bind (meets_set (meets_pure (.inr ⟨p, hhead, hu, h0, ?_, ?_, ?_⟩)))
    · refine ⟨ps, ?_, (List.nodup_cons.mp hn).2, fun q => ?_⟩
      · simp only [hdiv]
        refine freeChain_frame ps _ (fun q hq => ?_) hrest
        have : q ≠ p := by
          rintro rfl
          exact (List.nodup_cons.mp hn).1 hq
        rw [update_of_ne this]
      · simp only [hdiv]
        by_cases hqp : q = p
        · subst hqp
          simp [(List.nodup_cons.mp hn).1]
        · rw [update_of_ne hqp, ← hfl q]
          simp [hqp]
    · simp only [hdiv]
    · simp only [hdiv]

/-- What `kfree` does to a page with a reference: drop one reference, and
on the last one junk the page and push it on the free list. -/
theorem kfree_spec (h : FreeOk L m) (hu : L.Usable p) (hrc : 1 ≤ m.refcount p) :
    Total (kfree L (4096 * p)) m fun _ m' =>
      FreeOk L m' ∧ m'.refcount = update m.refcount p (m.refcount p - 1) ∧
      (∀ q, q ≠ p → m'.mem q = m.mem q) ∧ (m.refcount p ≠ 1 → m'.mem = m.mem) := by
  have hdiv : 4096 * p / pgSize = p := by rw [pgSize_eq]; omega
  unfold kfree
  rw [hu.not_badPa]
  simp only [Bool.false_eq_true, if_false, hdiv]
  refine meets_read ?_
  refine meets_else (by omega) ?_
  simp only [update_self]
  refine meets_ite (fun hpos => ?_) (fun hz => ?_)
  · refine meets_set ⟨h.frame rfl (fun q => ?_) (fun q _ _ => rfl), rfl, fun _ _ => rfl,
      fun _ => rfl⟩
    by_cases hqp : q = p
    · subst hqp; simp only [update_self]; omega
    · simp only [update_of_ne hqp]
  · have h1 : m.refcount p = 1 := by omega
    refine meets_set ⟨?_, rfl, fun q hq => update_of_ne hq _ _, fun hne => absurd h1 hne⟩
    obtain ⟨fl, hc, hn, hfl⟩ := h
    have hpn : p ∉ fl := by
      intro hp
      have := ((hfl p).mp hp).2
      omega
    refine ⟨p :: fl, ⟨rfl, ?_⟩, List.nodup_cons.mpr ⟨hpn, hn⟩, fun q => ?_⟩
    · have hlink : (BitVec.ofNat 64 m.freelist).toNat = m.freelist := by
        apply Nat.mod_eq_of_lt
        cases fl with
        | nil => rw [show m.freelist = 0 from hc]; decide
        | cons q qs =>
          have := ((hfl q).mp (by simp)).1.lt
          rw [hc.1]
          omega
      simp only [update_self, hlink]
      refine freeChain_frame fl _ (fun q hq => ?_) hc
      have : q ≠ p := by
        rintro rfl
        exact hpn hq
      rw [update_of_ne this]
    · by_cases hqp : q = p
      · subst hqp
        simp only [List.mem_cons, true_or, update_self, true_iff]
        exact ⟨hu, by omega⟩
      · simp only [List.mem_cons, hqp, false_or, update_of_ne hqp]
        exact hfl q

theorem kaddref_spec (h : FreeOk L m) (hu : L.Usable p) (hrc : 1 ≤ m.refcount p) :
    Total (kaddref L (4096 * p)) m fun _ m' =>
      FreeOk L m' ∧ m'.refcount = update m.refcount p (m.refcount p + 1) ∧ m'.mem = m.mem := by
  have hdiv : 4096 * p / pgSize = p := by rw [pgSize_eq]; omega
  unfold kaddref
  simp only [hu.not_badPa, Bool.false_eq_true, if_false, hdiv]
  refine meets_read ?_
  refine meets_else (by omega) (meets_set ⟨?_, rfl, rfl⟩)
  refine h.frame rfl (fun q => ?_) (fun q _ _ => rfl)
  by_cases hqp : q = p
  · subst hqp; simp only [update_self]; omega
  · simp only [update_of_ne hqp]

theorem kgetref_spec (hu : L.Usable p) :
    Total (kgetref L (4096 * p)) m fun n m' => n = m.refcount p ∧ m' = m := by
  have hdiv : 4096 * p / pgSize = p := by rw [pgSize_eq]; omega
  unfold kgetref
  simp only [hu.not_badPa, Bool.false_eq_true, if_false, hdiv]
  exact meets_read (meets_pure ⟨rfl, rfl⟩)

/-- The pages from `q` on still have their first reference; the ones before
are on the free list. -/
theorem freerangeLoop_spec (n : Nat) : ∀ {m : Mach} {q : Nat}, FreeOk L m →
    pgRoundUp L.kend ≤ 4096 * q → 4096 * q ≤ physTop → physTop < 4096 * q + 4096 * n →
    (∀ p, L.Usable p → q ≤ p → m.refcount p = 1) →
    (∀ p, ¬ (L.Usable p ∧ q ≤ p) → m.refcount p = 0) →
    Total (freerangeLoop L physTop n (4096 * q)) m fun _ m' =>
      FreeOk L m' ∧ ∀ p, m'.refcount p = 0 := by
  induction n with
  | zero =>
    omega
  | succ n ih =>
    intro m q h hq hend hn h1 h0
    refine meets_ite (fun hle => ?_) (fun hgt => ?_)
    · rw [pgSize_eq] at hle
      have hu : L.Usable q := ⟨by omega, by omega⟩
      have hq1 := h1 q hu (Nat.le_refl q)
      refine Meets.seq (kfree_spec h hu (by omega)) ?_
      rintro _ m1 ⟨hf1, hr1, -, -⟩
      rw [pgSize_eq, show 4096 * q + 4096 = 4096 * (q + 1) from rfl]
      refine ih hf1 (by omega) (by omega) (by omega) (fun p hp hle => ?_) (fun p hp => ?_)
      · rw [hr1, update_of_ne (by omega)]
        exact h1 p hp (by omega)
      · rw [hr1]
        by_cases hpq : p = q
        · subst hpq
          rw [update_self, hq1]
          rfl
        · rw [update_of_ne hpq]
          exact h0 p (fun hc => hp ⟨hc.1, by omega⟩)
    · rw [pgSize_eq] at hgt
      refine meets_pure ⟨h, fun p => h0 p ?_⟩
      rintro ⟨hu, hle⟩
      have := hu.2
      omega

/-- After `kinit` every usable page is free and no page is counted. -/
theorem kinit_spec (hr : ∀ p, m.refcount p = 0) (hf : m.freelist = 0) :
    Total (kinit L) m fun _ m' => FreeOk L m' ∧ ∀ p, m'.refcount p = 0 := by
  have hend := L.kend_le
  have hround : pgRoundUp L.kend = 4096 * (pgRoundUp L.kend / 4096) ∧
      pgRoundUp L.kend ≤ physTop := by
    rw [pgRoundUp_of_lt (by simp only [physTop_eq] at hend; omega)]
    simp only [physTop_eq] at hend ⊢
    omega
  have hone : ∀ p, L.Usable p → kinitRefs L m.refcount p = 1 := fun p hp => if_pos hp
  have hzero : ∀ p, ¬ L.Usable p → kinitRefs L m.refcount p = 0 :=
    fun p hp => (if_neg hp).trans (hr p)
  unfold kinit freerange
  refine meets_update ?_
  rw [hround.1]
  refine freerangeLoop_spec _ ⟨[], hf, List.nodup_nil, fun p => ?_⟩ (by omega) (by omega) ?_
    (fun p hp _ => hone p hp) (fun p hp => hzero p fun hu => hp ⟨hu, ?_⟩)
  · simp only [List.not_mem_nil, false_iff, not_and]
    intro hu h0
    rw [hone p hu] at h0
    cases h0
  · rw [pgSize_eq]
    omega
  · have := hu.1
    omega

end Xv6.Vm
