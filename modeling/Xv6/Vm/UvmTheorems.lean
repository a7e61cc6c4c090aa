/-
Xv6.Vm.UvmTheorems — growing, shrinking and freeing user memory.

Each lemma says what one function of `kernel/vm.c` does to the entries `f`
and the contents `c` of `Inv`. Growing maps zero pages where nothing was
mapped, so no page reads differently; shrinking makes the pages it takes
away read as zero. A failing `uvmalloc` puts everything back.

`uvmalloc` is not told where user memory ends. It stays below the trapframe
either because its caller checked the new size, or because the pages below
are all mapped: their physical pages are distinct, so the machine runs out
of memory long before.
-/
import Mathlib.Order.Interval.Finset.Nat
import Mathlib.Data.Fintype.Card
import Xv6.Vm.UserMemory

namespace Xv6.Vm

open Xv6.Lib Function

variable {L : Layout} {v : View} {f g : Entries} {c : Slot → Page}
  {m : Mach} {t : TableId} {pg va : Nat} {sz a b : Nat} {perm : Word} {m0 : Mach}

/-- The pages that `sz` bytes take. -/
def upPage (sz : Nat) : Nat := (sz + 4095) / 4096

theorem pgRoundUp_eq (h : sz ≤ trapframeVa) : pgRoundUp sz = upPage sz * 4096 := by
  rw [trapframeVa_eq] at h
  exact pgRoundUp_of_lt (by omega)

theorem upPage_le (h : sz ≤ trapframeVa) : upPage sz ≤ userPages := by
  rw [trapframeVa_eq] at h
  rw [userPages_eq, upPage]
  omega

/-- The step of the loops over pages does not wrap around. -/
theorem u64_next (h : a < userPages) : u64 (a * 4096 + pgSize) = (a + 1) * 4096 := by
  rw [userPages_eq] at h
  rw [u64_of_lt (by rw [pgSize_eq]; omega), pgSize_eq]
  omega

/-- The contents with the pages `a ≤ vpn < b` of `t` reading as zero. -/
def zeroRange (c : Slot → Page) (t : TableId) (a b : Nat) : Slot → Page :=
  fun s => if s.1 = t ∧ a ≤ s.2.val ∧ s.2.val < b then zeroPage else c s

theorem zeroRange_empty (h : b ≤ a) : zeroRange c t a b = c :=
  funext fun _ => if_neg (fun e => by omega)

theorem zeroRange_cons (h : a < b) (hv : a < userPages) :
    zeroRange (update c (t, ⟨a, hv⟩) zeroPage) t (a + 1) b = zeroRange c t a b := by
  funext s
  unfold zeroRange
  by_cases hs : s = (t, ⟨a, hv⟩)
  · subst hs
    rw [if_neg (by simp), update_self, if_pos ⟨rfl, Nat.le_refl a, h⟩]
  · rw [update_of_ne hs]
    have hne : s.1 = t → s.2.val ≠ a := fun h1 h2 => hs (Prod.ext h1 (Fin.ext h2))
    by_cases ht : s.1 = t
    · have := hne ht
      by_cases hin : a + 1 ≤ s.2.val ∧ s.2.val < b
      · rw [if_pos ⟨ht, hin⟩, if_pos ⟨ht, by omega, hin.2⟩]
      · rw [if_neg (fun e => hin e.2), if_neg (fun e => hin ⟨by omega, e.2.2⟩)]
    · rw [if_neg (fun e => ht e.1), if_neg (fun e => ht e.1)]

theorem zeroRange_same (h : ∀ s : Slot, s.1 = t → a ≤ s.2.val → s.2.val < b → c s = zeroPage) :
    zeroRange c t a b = c := by
  funext s
  unfold zeroRange
  split
  · rename_i hs
    exact (h s hs.1 hs.2.1 hs.2.2).symm
  · rfl

/-- A page without an entry reads as zero. -/
theorem Inv.zero_of_none (hi : Inv L v f c m) {s : Slot} (h : f s.1 s.2 = none) :
    c s = zeroPage := by
  rw [hi.data s, content_none]
  refine uref_none_of_uleaf ?_
  unfold uleaf
  rw [h, ite_self]

/-! ## Unmapping -/

theorem uvmunmapLoop_spec (hr : v.root t = some pg) (ht : t ≠ .kernel) (n : Nat) :
    ∀ {a : Nat} {f : Entries} {c : Slot → Page} {m : Mach},
    Inv L v f c m → a % 4096 = 0 → a + n * 4096 ≤ trapframeVa →
    Total (uvmunmapLoop L (4096 * pg) (a + n * 4096) true n a) m fun _ m' =>
      Inv L v (setRange f t (a / 4096) (a / 4096 + n) (fun _ => none))
        (zeroRange c t (a / 4096) (a / 4096 + n)) m' ∧ Spares L (fun _ => False) v m v m' := by
  induction n with
  | zero =>
    intro a f c m hi ha hle
    refine meets_pure ?_
    rw [Nat.add_zero, setRange_empty (Nat.le_refl _), zeroRange_empty (Nat.le_refl _)]
    exact ⟨hi, .refl⟩
  | succ n ih =>
    intro a f c m hi ha hle
    have hle' := hle
    rw [trapframeVa_eq] at hle'
    have hv : a / 4096 < userPages := by rw [userPages_eq]; omega
    unfold uvmunmapLoop
    rw [if_pos (by omega)]
    refine Meets.seq (hi.unmap hr ht hv) ?_
    rintro - m1 ⟨hi1, hs1⟩
    have hnext : u64 (a + pgSize) = a + 4096 := u64_of_lt (by rw [pgSize_eq]; omega)
    have hdiv : (a + 4096) / 4096 = a / 4096 + 1 := by omega
    rw [hnext, show a + (n + 1) * 4096 = a + 4096 + n * 4096 by omega]
    refine (ih hi1 (by omega) (by rw [trapframeVa_eq]; omega)).imp ?_
    rintro - m2 ⟨hi2, hs2⟩
    have hf := setRange_cons (f := f) (t := t) (a := a / 4096) (b := a / 4096 + (n + 1))
      (g := fun _ => none) (by omega)
    have hc := zeroRange_cons (c := c) (t := t) (a := a / 4096) (b := a / 4096 + (n + 1))
      (by omega) hv
    rw [hdiv, show a / 4096 + 1 + n = a / 4096 + (n + 1) by omega, hf, hc] at hi2
    exact ⟨hi2, hs1.trans hs2⟩

section

variable (hi : Inv L v f c m) (hr : v.root t = some pg)
include hi hr

/-- `uvmunmap` of user pages, freeing them. -/
theorem uvmunmap_free (ht : t ≠ .kernel) {n : Nat}
    (ha : va % 4096 = 0) (hle : va + n * 4096 ≤ trapframeVa) :
    Total (uvmunmap L (4096 * pg) va n true) m fun _ m' =>
      Inv L v (setRange f t (va / 4096) (va / 4096 + n) (fun _ => none))
        (zeroRange c t (va / 4096) (va / 4096 + n)) m' ∧ Spares L (fun _ => False) v m v m' := by
  have hle' := hle
  rw [trapframeVa_eq] at hle'
  have hb : u64 (va + n * pgSize) = va + n * 4096 := u64_of_lt (by rw [pgSize_eq]; omega)
  unfold uvmunmap
  rw [if_neg (by rw [pgSize_eq]; omega), hb]
  exact uvmunmapLoop_spec hr ht n hi ha hle

/-- `uvmunmap` of one page above the user pages, which is not counted. -/
theorem uvmunmap_priv (ha : va % 4096 = 0)
    (hva : va < maxVa) (hpriv : userPages ≤ va / 4096) :
    Total (uvmunmap L (4096 * pg) va 1 false) m fun _ m' =>
      Inv L v (setEntry f t (va / 4096) none) c m' ∧ Spares L (fun _ => False) v m v m' := by
  have hmax := hva
  rw [maxVa_eq] at hmax
  have hb : u64 (va + 1 * pgSize) = va + 4096 := by
    rw [u64_of_lt (by rw [pgSize_eq]; omega), pgSize_eq]
  unfold uvmunmap
  rw [if_neg (by rw [pgSize_eq]; omega), hb]
  unfold uvmunmapLoop
  rw [if_pos (by omega)]
  refine Meets.seq (unmapPage_keep hi.base hr hva) ?_
  rintro - m' ⟨hb', hu, hlf, hs⟩
  exact meets_pure ⟨hi.priv (uleaf_setEntry_priv (.inr hpriv)) hb' hu.toUntouched
    (by rw [hlf, hi.lf_eq]), hs⟩

/-- `uvmdealloc` takes away the pages above the new size. -/
theorem uvmdealloc_spec (ht : t ≠ .kernel)
    {oldsz newsz : Nat} (hold : oldsz ≤ trapframeVa) :
    Total (uvmdealloc L (4096 * pg) oldsz newsz) m fun r m' =>
      r = min oldsz newsz ∧
        Inv L v (setRange f t (upPage newsz) (upPage oldsz) (fun _ => none))
          (zeroRange c t (upPage newsz) (upPage oldsz)) m' ∧
        Spares L (fun _ => False) v m v m' := by
  have hempty : upPage oldsz ≤ upPage newsz →
      Inv L v (setRange f t (upPage newsz) (upPage oldsz) (fun _ => none))
        (zeroRange c t (upPage newsz) (upPage oldsz)) m := by
    intro h
    rw [setRange_empty h, zeroRange_empty h]
    exact hi
  refine meets_ite (fun hge => ?_) (fun hlt => ?_)
  · refine meets_pure ⟨by omega, hempty ?_, .refl⟩
    unfold upPage
    omega
  · have hnew : newsz ≤ trapframeVa := by omega
    have hold' := upPage_le hold
    rw [userPages_eq] at hold'
    rw [pgRoundUp_eq hold, pgRoundUp_eq hnew]
    by_cases hpages : upPage newsz < upPage oldsz
    · have hdiv : (upPage oldsz * 4096 - upPage newsz * 4096) / pgSize =
          upPage oldsz - upPage newsz := by rw [pgSize_eq]; omega
      have hint : u64OfInt32 (upPage oldsz - upPage newsz) = upPage oldsz - upPage newsz := by
        unfold u64OfInt32
        rw [if_pos (by omega)]
        omega
      rw [if_pos (by omega), hdiv, hint]
      refine Meets.seq (uvmunmap_free hi hr ht (by omega) (by rw [trapframeVa_eq]; omega)) ?_
      rintro - m' ⟨hi', hs'⟩
      rw [show upPage newsz * 4096 / 4096 = upPage newsz by omega,
        show upPage newsz + (upPage oldsz - upPage newsz) = upPage oldsz by omega] at hi'
      exact meets_pure ⟨by omega, hi', hs'⟩
    · rw [if_neg (by omega)]
      exact Meets.bind (meets_pure (meets_pure ⟨by omega, hempty (by omega), .refl⟩))

end

/-! ## Growing -/

/-- The pages `a ≤ vpn < b` of `t` got entries with flags `perm` for pages
that were free; no other entry changed. -/
structure Grown (f f' : Entries) (t : TableId) (a b : Nat) (perm : Word) : Prop where
  out : ∀ {t' vpn}, ¬ (t' = t ∧ a ≤ vpn ∧ vpn < b) → f' t' vpn = f t' vpn
  new : ∀ {n}, a ≤ n → n < b → ∃ p, f' t n = some (mkPte p perm)
  fresh : Private f t → Private f' t

theorem Grown.refl (h : b ≤ a) : Grown f f t a b perm :=
  ⟨fun _ => rfl, fun h1 h2 => by omega, fun h => h⟩

theorem Grown.snoc {p : Nat} (h : Grown f g t a b perm) (hab : a ≤ b) (ht : t ≠ .kernel)
    (hb : b < userPages) (hp : p < 2 ^ 44) (hperm : Low perm) (hfresh : ∀ s, uref g s ≠ some p) :
    Grown f (setEntry g t b (some (mkPte p perm))) t a (b + 1) perm := by
  refine ⟨?_, ?_, fun hpriv => (h.fresh hpriv).set ht hb ?_⟩
  · intro t' vpn hout
    have hne : ¬ (t' = t ∧ vpn = b) := by
      rintro ⟨rfl, rfl⟩
      exact hout ⟨rfl, hab, Nat.lt_succ_self _⟩
    refine (if_neg hne).trans (h.out ?_)
    rintro ⟨h1, h2, h3⟩
    exact hout ⟨h1, h2, by omega⟩
  · intro vpn h1 h2
    by_cases hv : vpn = b
    · subst hv
      exact ⟨p, setEntry_self⟩
    · rw [setEntry_vpn hv]
      exact h.new h1 (by omega)
  · rwa [ppn_mkPte hp hperm]

/-- Taking away the new pages gives the old entries back. -/
theorem Grown.undo (h : Grown f g t a b perm) (hnone : ∀ vpn, a ≤ vpn → vpn < b → f t vpn = none) :
    setRange g t a b (fun _ => none) = f := by
  funext t' vpn
  unfold setRange
  split
  · rename_i hin
    rw [hin.1, hnone vpn hin.2.1 hin.2.2]
  · rename_i hout
    exact h.out hout

/-- Pages mapped without a gap from 0 use distinct physical pages. -/
theorem Inv.mapped_bound (hi : Inv L v f c m) (ht : t ≠ .kernel) {k : Nat} (hk : k ≤ userPages)
    (hall : ∀ vpn, vpn < k → f t vpn ≠ none) : k ≤ 557056 := by
  have hpage : ∀ i : Fin k, ∃ w, uleaf f (t, ⟨i.val, Nat.lt_of_lt_of_le i.isLt hk⟩) = some w := by
    intro i
    rw [uleaf_eq ht]
    exact Option.ne_none_iff_exists'.mp (hall i.val i.isLt)
  choose w hw using hpage
  have husable : ∀ i, ppn (w i) < 557056 := fun i =>
    (hi.base.ref_usable (uref_of_uleaf (hw i))).lt
  have hinj : Function.Injective fun i : Fin k => (⟨ppn (w i), husable i⟩ : Fin 557056) := by
    intro i j h
    have hp : ppn (w j) = ppn (w i) := (Fin.mk.inj h).symm
    have hsame := hi.cow.same (hw i) (hw j) hp
    exact Fin.ext (Fin.mk.inj hsame).symm
  have := Fintype.card_le_of_injective _ hinj
  rwa [Fintype.card_fin, Fintype.card_fin] at this

/-- Either the caller checked the new size, or the pages below are mapped. -/
def GrowOk (f : Entries) (t : TableId) (oldsz newsz : Nat) : Prop :=
  newsz ≤ trapframeVa ∨ ∀ vpn, vpn < upPage oldsz → f t vpn ≠ none

/-- `PTE_R | PTE_U | xperm` for the flags that growing uses. -/
theorem permOk_user {xperm : Word} (hlow : Low xperm) (hcow : hasFlag xperm pteCow = false) :
    PermOk (pteR ||| pteU ||| xperm) := by
  refine ⟨Low.or (by decide) hlow, ?_, fun _ => ?_⟩
  · rw [hasFlag_or_left, show hasFlag (pteR ||| pteU) pteR = true by decide, Bool.true_or]
  · rw [hasFlag_or_left, hcow]
    decide

/-- The free pages that mapping the pages from `a` up to `b` takes: the pages
themselves, and the tables on the way to them that are missing. -/
def need (mem : Nat → Page) (v : View) (t : TableId) (a b : Nat) : Nat :=
  (b - a) + lack mem v t (Finset.Ico a b)

/-- The pages from `a0` up to `a` are mapped, of those up to `b`. -/
structure Drawn (L : Layout) (v : View) (t : TableId) (a0 b : Nat) (m0 : Mach) (a : Nat)
    (m : Mach) : Prop where
  count : avail L m0 + lack m.mem v t (Finset.Ico a0 b) =
    avail L m + lack m0.mem v t (Finset.Ico a0 b) + (a - a0)
  low : ∀ {vpn}, a0 ≤ vpn → vpn < a → own m.mem v (lowOf t vpn) ≠ none
  keep : Holds v m0 m

theorem Drawn.refl : Drawn L v t a b m a m :=
  ⟨by rw [Nat.sub_self, Nat.add_zero], fun h1 h2 => absurd h1 (by omega), id⟩

theorem Drawn.snoc {a0 : Nat} (h : Drawn L v t a0 b m0 a m) (ha0 : a0 ≤ a) (hab : a < b)
    (hm : Mapped L v t a m m') : Drawn L v t a0 b m0 (a + 1) m' := by
  have hstep := hm.counts _ (Finset.mem_Ico.mpr ⟨ha0, hab⟩)
  have hcount := h.count
  refine ⟨by omega, fun {vpn} h1 h2 => ?_, fun ho => hm.keep (h.keep ho)⟩
  by_cases hv : vpn = a
  · exact hv ▸ hm.low
  · obtain ⟨q, hq⟩ := Option.ne_none_iff_exists'.mp (h.low h1 (by omega))
    rw [hm.keep hq]
    exact Option.some_ne_none q

/-- The next page cannot be mapped. -/
theorem Drawn.short {a0 : Nat} (h : Drawn L v t a0 b m0 a m) (ha0 : a0 ≤ a) (hab : a < b)
    (hm : avail L m < 1 + lack m.mem v t {a}) :
    avail L m0 < need m0.mem v t a0 b := by
  have hle : lack m.mem v t {a} ≤ lack m.mem v t (Finset.Ico a0 b) :=
    lack_mono (Finset.singleton_subset_iff.mpr (Finset.mem_Ico.mpr ⟨ha0, hab⟩))
  have hcount := h.count
  unfold need
  omega

theorem Drawn.done (h : Drawn L v t a b m0 b m) : need m0.mem v t a b ≤ avail L m0 := by
  have hcount := h.count
  have hzero : lack m.mem v t (Finset.Ico a b) = 0 := lack_zero fun vpn hv =>
    h.low (Finset.mem_Ico.mp hv).1 (Finset.mem_Ico.mp hv).2
  unfold need
  omega

/-- What growing to `newsz` bytes leaves: nothing changed and the result is
0, as there is not enough memory, or the pages from `a0` on are there. -/
def AllocPost (L : Layout) (v : View) (f : Entries) (c : Slot → Page)
    (t : TableId) (a0 newsz : Nat) (perm : Word) (m : Mach) (r : Nat) (m' : Mach) : Prop :=
  (r = 0 ∧ Inv L v f c m' ∧ avail L m < need m.mem v t a0 (upPage newsz) ∧ Holds v m m') ∨
    ∃ f', r = newsz ∧ newsz ≤ trapframeVa ∧ Inv L v f' c m' ∧
      Grown f f' t a0 (upPage newsz) perm ∧ need m.mem v t a0 (upPage newsz) ≤ avail L m ∧
      Holds v m m'

section Alloc

variable (hr : v.root t = some pg) (ht : t ≠ .kernel) {a0 newsz : Nat}
  (hnone : ∀ vpn, a0 ≤ vpn → vpn < userPages → f t vpn = none)
  (hzero : ∀ s : Slot, s.1 = t → a0 ≤ s.2.val → c s = zeroPage)

include hr ht hnone hzero

/-- The failure exit of `uvmalloc`'s loop. -/
theorem uvmalloc_undo {perm : Word} {a : Nat} (hi : Inv L v g c m) (ha : a ≤ userPages)
    (hg : Grown f g t a0 a perm) {m0 : Mach} (hs : Spares L (Mine t) v m0 v m)
    (hn : avail L m0 < need m0.mem v t a0 (upPage newsz)) (hk : Holds v m0 m) :
    Total (do
      let _ ← uvmdealloc L (4096 * pg) (a * 4096) (a0 * 4096)
      return 0) m fun r m' =>
        AllocPost L v f c t a0 newsz perm m0 r m' ∧ Spares L (Mine t) v m0 v m' := by
  have hle : a * 4096 ≤ trapframeVa := by
    rw [userPages_eq] at ha
    rw [trapframeVa_eq]
    omega
  refine Meets.seq (uvmdealloc_spec hi hr ht hle) ?_
  rintro r m' ⟨-, hi', hs'⟩
  rw [show upPage (a0 * 4096) = a0 by unfold upPage; omega,
    show upPage (a * 4096) = a by unfold upPage; omega,
    hg.undo (fun vpn h1 h2 => hnone vpn h1 (by omega)),
    zeroRange_same (fun s h1 h2 _ => hzero s h1 h2)] at hi'
  refine meets_pure ⟨.inl ⟨rfl, hi', hn, fun ho => ?_⟩, hs.trans hs'.any⟩
  rw [hs'.role id]
  exact hk ho

/-- `uvmalloc`'s loop at page `a`, with enough fuel for the pages left. -/
theorem uvmallocLoop_spec (hheld : v.hnd (.held 0) = none) {xperm : Word}
    (hperm : PermOk (pteR ||| pteU ||| xperm))
    (hgrow : newsz ≤ trapframeVa ∨ ∀ vpn, vpn < a0 → f t vpn ≠ none) {m0 : Mach} (n : Nat) :
    ∀ {a : Nat} {g : Entries} {m : Mach}, Inv L v g c m →
    Spares L (Mine t) v m0 v m →
    a0 ≤ a → a ≤ userPages → Grown f g t a0 a (pteR ||| pteU ||| xperm) →
    Drawn L v t a0 (upPage newsz) m0 a m →
    newsz + 4096 ≤ a * 4096 + n * 4096 → a * 4096 < newsz + 4096 →
    Total (uvmallocLoop L (4096 * pg) (a0 * 4096) newsz xperm n (a * 4096)) m fun r m' =>
      AllocPost L v f c t a0 newsz (pteR ||| pteU ||| xperm) m0 r m' ∧
        Spares L (Mine t) v m0 v m' := by
  induction n with
  | zero =>
    omega
  | succ n ih =>
    intro a g m hi hs ha0 ha hg hd hfuel hlt
    have ha' := ha
    rw [userPages_eq] at ha'
    refine meets_ite (fun hmore => ?_) (fun hdone => ?_)
    · -- there is room for the page: by the caller's check, or by counting pages
      have hroom : a < userPages := by
        rw [userPages_eq]
        rcases hgrow with h | h
        · rw [trapframeVa_eq] at h
          omega
        · have := hi.mapped_bound ht ha (fun vpn hv => by
            by_cases hin : a0 ≤ vpn
            · obtain ⟨p, hp⟩ := hg.new hin hv
              rw [hp]
              simp
            · rw [hg.out (by omega)]
              exact h vpn (by omega))
          omega
      have hroom' := hroom
      rw [userPages_eq] at hroom'
      have hdiv : a * 4096 / 4096 = a := by omega
      have hab : a < upPage newsz := by
        unfold upPage
        omega
      refine alloc_map hi hr ht hheld (by omega) (by rw [trapframeVa_eq]; omega) ?_ hperm
        (fun h0 => uvmalloc_undo hr ht hnone hzero hi ha hg hs (hd.short ha0 hab (by omega))
          hd.keep)
        (fun m' hi' hs' hn hk => uvmalloc_undo hr ht hnone hzero hi' ha hg (hs.trans hs')
          (hd.short ha0 hab (hdiv ▸ hn)) fun ho => hk (hd.keep ho))
        (fun p m' hu hfresh hi' hs' hm' => ?_)
      · rw [hdiv, hg.out (by omega)]
        exact hnone a ha0 hroom
      · have hfuel' : newsz + 4096 ≤ (a + 1) * 4096 + n * 4096 := by
          rw [Nat.succ_mul, Nat.add_assoc, Nat.add_comm 4096, ← Nat.succ_mul]
          exact hfuel
        rw [hdiv] at hi' hm'
        rw [u64_next hroom]
        have hg' := hg.snoc ha0 ht hroom hu.lt_ppn hperm.low hfresh
        exact ih hi' (hs.trans hs') (Nat.le_succ_of_le ha0) hroom hg' (hd.snoc ha0 hab hm')
          hfuel' (by
          rw [Nat.succ_mul]
          exact Nat.add_lt_add_right hmore 4096)
    · have hlast : a = upPage newsz := by
        unfold upPage
        omega
      refine meets_pure ⟨.inr ⟨g, rfl, ?_, hi, hlast ▸ hg, (hlast ▸ hd).done, hd.keep⟩, hs⟩
      rw [trapframeVa_eq]
      omega

end Alloc

/-- `uvmalloc`: the three ways it returns. -/
theorem uvmalloc_spec (hi : Inv L v f c m) (hr : v.root t = some pg) (ht : t ≠ .kernel)
    (hheld : v.hnd (.held 0) = none) {oldsz newsz : Nat} {xperm : Word}
    (hold : oldsz ≤ trapframeVa) (hperm : PermOk (pteR ||| pteU ||| xperm))
    (hnone : ∀ vpn, upPage oldsz ≤ vpn → vpn < userPages → f t vpn = none)
    (hgrow : GrowOk f t oldsz newsz) :
    Total (uvmalloc L (4096 * pg) oldsz newsz xperm) m fun r m' =>
      (newsz < oldsz ∧ r = oldsz ∧ m' = m) ∨
      oldsz ≤ newsz ∧
        AllocPost L v f c t (upPage oldsz) newsz (pteR ||| pteU ||| xperm) m r m' ∧
        Spares L (Mine t) v m v m' := by
  refine meets_ite (fun hlt => meets_pure (.inl ⟨hlt, rfl, rfl⟩)) (fun hge => ?_)
  have hzero : ∀ s : Slot, s.1 = t → upPage oldsz ≤ s.2.val → c s = zeroPage := by
    rintro ⟨_, vpn⟩ rfl h
    exact hi.zero_of_none (hnone vpn h vpn.isLt)
  rw [pgRoundUp_eq hold]
  have hfuel : newsz + 4096 ≤
      upPage oldsz * 4096 + ((newsz - upPage oldsz * 4096) / pgSize + 2) * 4096 := by
    rw [pgSize_eq]
    omega
  have hlt : upPage oldsz * 4096 < newsz + 4096 := by
    unfold upPage
    omega
  refine (uvmallocLoop_spec hr ht hnone hzero hheld hperm hgrow _ hi .refl (Nat.le_refl _)
    (upPage_le hold) (Grown.refl (Nat.le_refl _)) .refl hfuel hlt).imp ?_
  intro r m' h
  exact .inr ⟨by omega, h⟩

/-! ## Creating and freeing tables -/

/-- A page that the kernel holds becomes an empty table. -/
theorem Inv.new_root {p : Nat} (hi : Inv L (v.setHnd (.held 0) (some p)) f c m)
    (hheld : v.hnd (.held 0) = none) (hroot : v.root t = none) :
    Inv L (v.setRoot t (some p)) f c { m with mem := update m.mem p (fillPage 0) } ∧
      Spares L (Mine t) (v.setHnd (.held 0) (some p)) m (v.setRoot t (some p))
        { m with mem := update m.mem p (fillPage 0) } := by
  have hh : (v.setHnd (.held 0) (some p)).hnd (.held 0) = some p := by simp
  have hi2 := hi.write_hnd hh (fillPage 0)
  have hempty : Empty (update m.mem p (fillPage 0) p) := by
    rw [update_self]
    exact empty_zero
  obtain ⟨hb, hlf, hs⟩ := hi2.base.link_root (t := t) hh hempty hroot
  rw [View.setHnd_back hheld] at hb hlf hs
  obtain ⟨-, -, -, hs1⟩ := hi.base.write_hnd hh (fillPage 0)
  refine ⟨⟨hlf.trans hi2.lf_eq, hb, hi.cow, hi2.data⟩, hs1.mine_of_held.trans (hs.mono ?_)⟩
  rintro o (rfl | rfl)
  · exact .inl rfl
  · exact .inr rfl

theorem uvmcreate_spec (hi : Inv L v f c m) (hheld : v.hnd (.held 0) = none)
    (hroot : v.root t = none) :
    Total uvmcreate m fun r m' =>
      (r = 0 ∧ m' = m) ∨
      ∃ p, r = 4096 * p ∧ L.Usable p ∧ Inv L (v.setRoot t (some p)) f c m' ∧
        Spares L (Mine t) v m (v.setRoot t (some p)) m' := by
  refine Meets.seq (hi.kalloc hheld) ?_
  rintro r m1 (⟨rfl, rfl, -⟩ | ⟨p, rfl, hu, hi1, -, hs1, -⟩)
  · exact meets_if rfl (meets_pure (.inl ⟨rfl, rfl⟩))
  · have := hu.pos
    refine meets_else (by omega) (Meets.bind (meets_setPage (meets_pure ?_)))
    obtain ⟨hi2, hs2⟩ := hi1.new_root hheld hroot
    exact .inr ⟨p, rfl, hu, hi2, (hs1.any.set_hnd (.inl rfl) (some p)).trans hs2⟩

/-- The contents with all of table `t` reading as zero. -/
def clearTable (c : Slot → Page) (t : TableId) : Slot → Page :=
  fun s => if s.1 = t then zeroPage else c s

/-- `uvmfree` of a table whose entries all lie below `sz`. -/
theorem uvmfree_spec (hi : Inv L v f c m) (hr : v.root t = some pg) (ht : t ≠ .kernel)
    (hsz : sz ≤ trapframeVa) (hnone : ∀ vpn, upPage sz ≤ vpn → f t vpn = none) :
    Total (uvmfree L (4096 * pg) sz) m fun _ m' =>
      Inv L (v.setRoot t none) (update f t fun _ => none) (clearTable c t) m' ∧
        Spares L (Mine t) v m (v.setRoot t none) m' := by
  have hf : setRange f t 0 (upPage sz) (fun _ => none) = update f t fun _ => none := by
    funext t' vpn
    by_cases htt : t' = t
    · subst htt
      rw [update_self]
      by_cases hv : vpn < upPage sz
      · exact setRange_in (Nat.zero_le _) hv
      · rw [setRange_out (by omega), hnone vpn (by omega)]
    · rw [setRange_table htt, update_of_ne htt]
  have hc : zeroRange c t 0 (upPage sz) = clearTable c t := by
    funext s
    unfold zeroRange clearTable
    by_cases hs : s.1 = t
    · rw [if_pos hs]
      by_cases hv : s.2.val < upPage sz
      · rw [if_pos ⟨hs, Nat.zero_le _, hv⟩]
      · rw [if_neg (fun e => hv e.2.2)]
        exact hi.zero_of_none (by rw [hs]; exact hnone _ (by omega))
    · rw [if_neg hs, if_neg (fun e => hs e.1)]
  have hwalk : ∀ m1, Inv L v (setRange f t 0 (upPage sz) fun _ => none)
      (zeroRange c t 0 (upPage sz)) m1 → Spares L (fun _ => False) v m v m1 →
      Total (freewalk L 3 (4096 * pg)) m1 fun _ m' =>
        Inv L (v.setRoot t none) (update f t fun _ => none) (clearTable c t) m' ∧
          Spares L (Mine t) v m (v.setRoot t none) m' := by
    intro m1 hi1 hs1
    rw [hf, hc] at hi1
    refine (freewalk_spec hi1.base hr (fun vpn => ?_)).imp ?_
    · rw [hi1.lf_eq, update_self]
    · rintro - m' ⟨hb, hu, hlf, hs⟩
      refine ⟨⟨hlf.trans hi1.lf_eq, hb, hi1.cow, fun s => ?_⟩, hs1.any.trans hs.mine_of_table⟩
      rw [hi1.data s]
      exact (content_congr rfl (fun p hp => hu.ref hp)).symm
  refine meets_ite (fun _ => ?_) (fun h0 => hwalk m ?_ .refl)
  · have hn := upPage_le hsz
    rw [userPages_eq] at hn
    rw [pgRoundUp_eq hsz, show upPage sz * 4096 / pgSize = upPage sz by rw [pgSize_eq]; omega]
    refine Meets.seq (uvmunmap_free hi hr ht (by omega) (by rw [trapframeVa_eq]; omega)) ?_
    rintro - m1 ⟨hi1, hs1⟩
    rw [show 0 / 4096 = 0 from rfl, Nat.zero_add] at hi1
    exact hwalk m1 hi1 hs1
  · have h0' : upPage sz = 0 := by unfold upPage; omega
    rw [h0', setRange_empty (Nat.le_refl 0), zeroRange_empty (Nat.le_refl 0)]
    exact hi

/-- `uvmclear` on a mapped user page. -/
theorem uvmclear_spec (hi : Inv L v f c m) (hr : v.root t = some pg) (ht : t ≠ .kernel)
    (hv : va / 4096 < userPages) {w : Word} (hw : f t (va / 4096) = some w) :
    Total (uvmclear (4096 * pg) va) m fun _ m' =>
      Inv L v (setEntry f t (va / 4096) (some (w &&& ~~~pteU))) c m' ∧
        Spares L (fun _ => False) v m v m' := by
  have hmax : va < maxVa := by
    rw [userPages_eq] at hv
    rw [maxVa_eq]
    omega
  have hleaf := hi.lf_eq ▸ hw
  obtain ⟨hR, hU⟩ := hi.base.shape.leaf hleaf
  obtain ⟨-, -, -, -, hV⟩ := lf_some hleaf
  refine walk_found hr hmax hleaf fun q ho hq _ => ?_
  · refine meets_readPte (meets_writePte ?_)
    rw [hq]
    have hok : LeafOk t (va / 4096) (w &&& ~~~pteU) :=
      ⟨by rw [hasFlag_clear w (by decide), hR], fun _ => hasFlag_clear_self w pteU⟩
    refine ⟨hi.reflag ht hv hw ?_ ?_ hok (fun hW => ?_) (fun s hs hp => ?_) ho,
      (hi.base.write_leaf (vpn_lt_cube hmax) ho (fun _ => hok)).2.2.2⟩
    · exact ppn_and_not_low w (by decide)
    · rw [hasFlag_clear w (by decide), hV]
    · rw [hasFlag_clear w (by decide)] at hW ⊢
      exact hi.cow.wcow (by rw [uleaf_eq ht hv, hw]) hW
    · rw [hasFlag_clear w (by decide)]
      by_contra hW
      obtain ⟨w', hw', hpp⟩ := uref_some hp
      exact hs (hi.cow.excl (by rw [uleaf_eq ht hv, hw]) (by simpa using hW) hw' hpp)

end Xv6.Vm
