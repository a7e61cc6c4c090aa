/-
Xv6.Vm.UserMemory — the invariant of user memory between two calls into
the page-table code.

`Inv L v f c m` describes a machine state by two functions: `f` is the
entry of every virtual page of every table, and `c` is the contents of
every user page, a page without an entry reading as zero. All counted
references are the user entries themselves. `Cow` is what copy-on-write
needs of them: a writable entry is the only one for its page, no entry is
both writable and marked for copying, and tables share pages only at the
same virtual page.

§1 the copy-on-write condition, §2 the invariant, §3 the moves: getting and
giving back pages, changing one entry, storing.
-/
import Xv6.Vm.UnmapTheorems

namespace Xv6.Vm

open Xv6.Lib Function

/-! ## §1 Copy-on-write entries -/

structure Cow (g : Slot → Option Word) : Prop where
  excl : ∀ {s s' w w'}, g s = some w → hasFlag w pteW = true → g s' = some w' →
    ppn w' = ppn w → s' = s
  wcow : ∀ {s w}, g s = some w → hasFlag w pteW = true → hasFlag w pteCow = false
  same : ∀ {s r w w'}, g s = some w → g r = some w' → ppn w' = ppn w → r.2 = s.2

variable {g : Slot → Option Word} {s : Slot} {w perm : Word} {mem : Nat → Page} {p : Nat}
  {h : Handle}

theorem Cow.remove (h : Cow g) (s : Slot) : Cow (update g s none) := by
  have hsub : ∀ {s' w}, update g s none s' = some w → g s' = some w := by
    intro s' w hw
    by_cases e : s' = s
    · rw [e, update_self] at hw
      cases hw
    · rw [update_of_ne e] at hw
      exact hw
  exact ⟨fun h1 hW h2 => h.excl (hsub h1) hW (hsub h2), fun h1 => h.wcow (hsub h1),
    fun h1 h2 => h.same (hsub h1) (hsub h2)⟩

/-- Setting one entry. Other entries for the same page must be at the same
virtual page, and then none of them is writable. -/
theorem Cow.set (h : Cow g) (hw : hasFlag w pteW = true → hasFlag w pteCow = false)
    (hx : ∀ s' w', s' ≠ s → g s' = some w' → ppn w' = ppn w →
      hasFlag w pteW = false ∧ hasFlag w' pteW = false ∧ s'.2 = s.2) :
    Cow (update g s (some w)) := by
  constructor
  · intro s1 s2 w1 w2 h1 hW h2 hp
    by_cases e1 : s1 = s <;> by_cases e2 : s2 = s
    · rw [e1, e2]
    · rw [e1, update_self] at h1
      rw [update_of_ne e2] at h2
      cases h1
      rw [(hx s2 w2 e2 h2 hp).1] at hW
      cases hW
    · rw [update_of_ne e1] at h1
      rw [e2, update_self] at h2
      cases h2
      rw [(hx s1 w1 e1 h1 hp.symm).2.1] at hW
      cases hW
    · rw [update_of_ne e1] at h1
      rw [update_of_ne e2] at h2
      exact h.excl h1 hW h2 hp
  · intro s1 w1 h1
    by_cases e1 : s1 = s
    · rw [e1, update_self] at h1
      cases h1
      exact hw
    · rw [update_of_ne e1] at h1
      exact h.wcow h1
  · intro s1 s2 w1 w2 h1 h2 hp
    by_cases e1 : s1 = s <;> by_cases e2 : s2 = s
    · rw [e1, e2]
    · rw [e1, update_self] at h1
      rw [update_of_ne e2] at h2
      cases h1
      rw [e1]
      exact (hx s2 w2 e2 h2 hp).2.2
    · rw [update_of_ne e1] at h1
      rw [e2, update_self] at h2
      cases h2
      rw [e2]
      exact (hx s1 w1 e1 h1 hp.symm).2.2.symm
    · rw [update_of_ne e1] at h1
      rw [update_of_ne e2] at h2
      exact h.same h1 h2 hp

/-! ## §2 The invariant -/

/-- The page a user slot reads: the physical page its entry names, or zeros. -/
def content (mem : Nat → Page) (f : Entries) (s : Slot) : Page :=
  match uref f s with
  | some p => mem p
  | none => zeroPage

structure Inv (L : Layout) (v : View) (f : Entries) (c : Slot → Page)
    (m : Mach) : Prop where
  lf_eq : lf m.mem v = f
  base : Base L m v (uref f)
  cow : Cow (uleaf f)
  data : ∀ s, c s = content m.mem f s

variable {L : Layout} {v : View} {f : Entries} {c : Slot → Page}
  {m m' : Mach} {t : TableId} {pg va vpn : Nat}

theorem content_some (h : uref f s = some p) : content mem f s = mem p := by
  simp only [content, h]

theorem content_none (h : uref f s = none) : content mem f s = zeroPage := by
  simp only [content, h]

theorem content_congr {mem' : Nat → Page} {f' : Entries} (hf : uref f' s = uref f s)
    (hm : ∀ p, uref f s = some p → mem' p = mem p) :
    content mem' f' s = content mem f s := by
  unfold content
  rw [hf]
  cases h : uref f s with
  | none => rfl
  | some p => exact hm p h

theorem uref_of_uleaf (h : uleaf f s = some w) : uref f s = some (ppn w) := by
  simp only [uref, h, Option.map_some]

theorem uref_none_of_uleaf (h : uleaf f s = none) : uref f s = none := by
  simp only [uref, h, Option.map_none]

theorem uleaf_eq (ht : t ≠ .kernel) (hv : vpn < userPages) :
    uleaf f (t, ⟨vpn, hv⟩) = f t vpn := if_neg ht

/-- A page that the kernel holds is not mapped by any user entry. -/
theorem Inv.hnd_fresh (hi : Inv L v f c m) (hh : v.hnd h = some p) (s : Slot) :
    uref f s ≠ some p := hi.base.exact.own_ref (o := .hnd h) hh

/-! ## §3 Moves -/

/-- What a call that works on table `t` may change: the pages of the table,
and the page it holds meanwhile. -/
def Mine (t : TableId) (o : Owner) : Prop := o = .hnd (.held 0) ∨ o.In t

section Mine

variable {v' : View}

theorem Spares.mine_of_table (h : Spares L (Owner.In t) v m v' m') :
    Spares L (Mine t) v m v' m' := h.mono (fun _ => .inr)

theorem Spares.mine_of_held (h : Spares L (· = .hnd (.held 0)) v m v' m') :
    Spares L (Mine t) v m v' m' := h.mono (fun _ => .inl)

end Mine

theorem View.setHnd_back (hh : v.hnd h = none) (x : Option Nat) :
    (v.setHnd h x).setHnd h none = v := by
  cases v with
  | mk root hnd =>
    simp only [View.setHnd, update_idem] at hh ⊢
    rw [← hh, update_eq_self]

theorem View.setRoot_back (hr : v.root t = none) (x : Option Nat) :
    (v.setRoot t x).setRoot t none = v := by
  cases v with
  | mk root hnd =>
    simp only [View.setRoot, update_idem, View.mk.injEq, and_true]
    rw [← hr, update_eq_self]

theorem Inv.kalloc (hi : Inv L v f c m) (hh : v.hnd h = none) :
    Total kalloc m fun r m' =>
      (r = 0 ∧ m' = m ∧ avail L m = 0) ∨
      ∃ p, r = 4096 * p ∧ L.Usable p ∧ Inv L (v.setHnd h (some p)) f c m' ∧
        Quiet m m' v (uref f) ∧ Spares L (fun _ => False) v m v m' ∧
        avail L m = avail L m' + 1 := by
  refine (hi.base.kalloc hh).imp ?_
  rintro r m' (⟨rfl, rfl, h0⟩ | ⟨p, rfl, hu, hb, hq, hs⟩)
  · exact .inl ⟨rfl, rfl, h0⟩
  · refine .inr ⟨p, rfl, hu, ⟨hq.lf_eq.trans hi.lf_eq, hb, hi.cow, fun s => ?_⟩, hq, hs⟩
    rw [hi.data s, content_congr rfl (fun p hp => hq.ref hp)]

theorem Inv.kfree_hnd (hi : Inv L v f c m) (hh : v.hnd h = some p) :
    Total (kfree L (4096 * p)) m fun _ m' => Inv L (v.setHnd h none) f c m' ∧
      Spares L (· = .hnd h) v m (v.setHnd h none) m' := by
  refine (hi.base.kfree_hnd hh).imp ?_
  rintro - m' ⟨hb, hq, hs⟩
  refine ⟨⟨hq.lf_eq.trans hi.lf_eq, hb, hi.cow, fun s => ?_⟩, hs⟩
  rw [hi.data s, content_congr rfl (fun p hp => hq.ref hp)]

theorem Inv.write_hnd (hi : Inv L v f c m) (hh : v.hnd h = some p) (page : Page) :
    Inv L v f c { m with mem := update m.mem p page } := by
  obtain ⟨hb, hlf, href, -⟩ := hi.base.write_hnd hh page
  refine ⟨hlf.trans hi.lf_eq, hb, hi.cow, fun s => ?_⟩
  rw [hi.data s, content_congr rfl (fun p hp => href hp)]

/-- A held page changes hands. -/
theorem Inv.move_hnd (hi : Inv L v f c m) {k : Handle} (hh : v.hnd h = some p) (hk : v.hnd k = none)
    : Inv L ((v.setHnd h none).setHnd k (some p)) f c m := by
  refine ⟨hi.lf_eq, ⟨?_, hi.base.free, hi.base.usable, ?_⟩, hi.cow, hi.data⟩
  · rw [own_set_hnd, own_set_hnd]
    exact hi.base.exact.move (o := .hnd h) (k := .hnd k) hh hk
  · exact (hi.base.shape.set_hnd h none).set_hnd k (some p)

/-- The flags of an entry for a user page. -/
structure PermOk (perm : Word) : Prop where
  low : Low perm
  read : hasFlag perm pteR = true
  cow : hasFlag perm pteW = true → hasFlag perm pteCow = false

theorem PermOk.leafOk (h : PermOk perm) (ht : t ≠ .kernel) (hv : vpn < userPages) (p : Nat) :
    LeafOk t vpn (mkPte p perm) := by
  refine ⟨?_, fun hk => ?_⟩
  · rw [hasFlag_mkPte _ _ (by decide), h.read, Bool.true_or]
  · rcases hk with hk | hk
    · exact absurd hk ht
    · omega

theorem PermOk.mkPte_cow (h : PermOk perm) (hW : hasFlag (mkPte p perm) pteW = true) :
    hasFlag (mkPte p perm) pteCow = false := by
  rw [hasFlag_mkPte _ _ (by decide), show hasFlag pteV pteW = false by decide, Bool.or_false] at hW
  rw [hasFlag_mkPte _ _ (by decide), h.cow hW]
  decide

/-- A held zero page was entered for a page that had no entry. -/
theorem Inv.enter (hi : Inv L v f c m) (hh : v.hnd h = some p) (hzero : m.mem p = zeroPage)
    (ht : t ≠ .kernel) (hv : vpn < userPages) (hnone : f t vpn = none) (hperm : PermOk perm)
    (hb : Base L m' v (uref f)) (hu : Untouched m m' v (uref f))
    (hlf : lf m'.mem v = setEntry f t vpn (some (mkPte p perm))) :
    Inv L (v.setHnd h none) (setEntry f t vpn (some (mkPte p perm))) c m' := by
  have hp : p < 2 ^ 44 := (hi.base.own_usable (o := .hnd h) hh).lt_ppn
  have hnoneS : uleaf f (t, ⟨vpn, hv⟩) = none := by rw [uleaf_eq ht hv, hnone]
  have href : uref (setEntry f t vpn (some (mkPte p perm))) =
      update (uref f) (t, ⟨vpn, hv⟩) (some p) := by
    rw [uref_setEntry ht hv, Option.map_some, ppn_mkPte hp hperm.low]
  refine ⟨hlf, ?_, ?_, fun s => ?_⟩
  · rw [href]
    exact hb.publish hh (uref_none_of_uleaf hnoneS)
  · rw [uleaf_setEntry ht hv]
    refine hi.cow.set hperm.mkPte_cow (fun s' w' _ hs' hpp => ?_)
    rw [ppn_mkPte hp hperm.low] at hpp
    exact absurd ((uref_of_uleaf hs').trans (by rw [hpp])) (hi.hnd_fresh hh s')
  · by_cases hs : s = (t, ⟨vpn, hv⟩)
    · subst hs
      rw [hi.data, content_none (uref_none_of_uleaf hnoneS),
        content_some (p := p) (by rw [href, update_self]), hu.hnd hh, hzero]
    · rw [hi.data s]
      refine (content_congr ?_ (fun q hq => hu.ref hq)).symm
      rw [href, update_of_ne hs]

/-- A page was taken and mapped at `vpn`, with the tables it takes. -/
structure Mapped (L : Layout) (v : View) (t : TableId) (vpn : Nat) (m m' : Mach) : Prop where
  counts : Counts L v t vpn 1 m m'
  low : own m'.mem v (lowOf t vpn) ≠ none
  keep : Holds v m m'

theorem Mapped.enough (h : Mapped L v t vpn m m') : 1 + lack m.mem v t {vpn} ≤ avail L m := by
  have hcount := h.counts {vpn} (Finset.mem_singleton_self vpn)
  have hzero : lack m'.mem v t {vpn} = 0 := lack_zero fun a ha => by
    rw [Finset.mem_singleton.mp ha]
    exact h.low
  omega

/-- The common part of `uvmalloc` and `vmfault`: allocate a page, zero it and
map it, giving it back if `mappages` fails. -/
theorem alloc_map (hi : Inv L v f c m) (hr : v.root t = some pg) (ht : t ≠ .kernel)
    (hheld : v.hnd (.held 0) = none) (ha : va % 4096 = 0) (hva : va < trapframeVa)
    (hnone : f t (va / 4096) = none) (hperm : PermOk perm) {α : Type} {kmem kfail : M α}
    {k : Nat → M α} {Q : α → Mach → Prop} (hmem : avail L m = 0 → Total kmem m Q)
    (hfail : ∀ m', Inv L v f c m' → Spares L (Mine t) v m v m' →
      avail L m < 1 + lack m.mem v t {va / 4096} → Holds v m m' → Total kfail m' Q)
    (hok : ∀ p m', L.Usable p → (∀ s, uref f s ≠ some p) →
      Inv L v (setEntry f t (va / 4096) (some (mkPte p perm))) c m' →
      Spares L (Mine t) v m v m' → Mapped L v t (va / 4096) m m' → Total (k (4096 * p)) m' Q) :
    Total (do
      let mem ← kalloc
      if mem = 0 then kmem
      else
        setPage mem (fillPage 0)
        if (← mappages (4096 * pg) va pgSize mem perm) ≠ 0 then
          kfree L mem
          kfail
        else k mem) m Q := by
  rw [trapframeVa_eq] at hva
  have hvpn : va / 4096 < userPages := by rw [userPages_eq]; omega
  refine Meets.seq (hi.kalloc hheld) ?_
  rintro r m1 (⟨rfl, rfl, h0⟩ | ⟨p, rfl, hu, hi1, -, hs1, hone⟩)
  · exact meets_if rfl (hmem h0)
  have := hu.pos
  refine meets_else (by omega) (Meets.bind (meets_setPage ?_))
  have hh : (v.setHnd (.held 0) (some p)).hnd (.held 0) = some p := by simp
  have hi2 := hi1.write_hnd hh (fillPage 0)
  obtain ⟨-, -, -, hs2⟩ := hi1.base.write_hnd hh (fillPage 0)
  -- up to here no table changed
  have hown : ∀ o, o ≠ .hnd (.held 0) →
      own (update m1.mem p (fillPage 0)) (v.setHnd (.held 0) (some p)) o = own m.mem v o := by
    intro o ho
    rw [hs2.role ho, own_set_hnd, update_of_ne ho, hs1.role id]
  have hlack : ∀ S, lack (update m1.mem p (fillPage 0)) (v.setHnd (.held 0) (some p)) t S =
      lack m.mem v t S := fun S =>
    lack_congr fun o ho => hown o (by rintro rfl; exact ho)
  have hs12 := (hs1.any.set_hnd (A := Mine t) (.inl rfl) (some p)).trans hs2.mine_of_held
  have hlf2 :
      lf (update m1.mem p (fillPage 0)) (v.setHnd (.held 0) (some p)) t (va / 4096) = none :=
    (congrFun (congrFun hi2.lf_eq t) _).trans hnone
  refine Meets.seq (mappages_page hi2.base hr (by rw [maxVa_eq]; omega) ha hlf2
    (hperm.leafOk ht hvpn p)) ?_
  rintro r m3 ⟨hb3, hu3, hs3, hpost⟩
  have hkeep : ∀ {o q}, own m.mem v o = some q → o ≠ .hnd (.held 0) ∧
      own m3.mem (v.setHnd (.held 0) (some p)) o = some q := by
    intro o q ho
    have hne : o ≠ .hnd (.held 0) := by
      rintro rfl
      exact Option.some_ne_none q (ho.symm.trans hheld)
    exact ⟨hne, hu3.keep ((hown o hne).trans ho)⟩
  rcases hpost with ⟨rfl, hlf3, hc3, hlow3⟩ | ⟨rfl, hlf3, hshort⟩
  · refine meets_ite (fun h => absurd rfl h) (fun _ => hok p m3 hu (hi1.hnd_fresh hh) ?_ ?_
      ⟨fun S hS => ?_, hlow3, fun ho => ?_⟩)
    · rw [hi2.lf_eq] at hlf3
      have := hi2.enter hh (by simp [zeroPage]) ht hvpn hnone hperm hb3 hu3.toUntouched hlf3
      rwa [View.setHnd_back hheld] at this
    · have := (hs12.trans hs3.mine_of_table).set_hnd (.inl rfl) none
      rwa [View.setHnd_back hheld] at this
    · have hcount := hc3 S hS
      rw [hlack, lack_setHnd] at hcount
      have hsame : avail L { m1 with mem := update m1.mem p (fillPage 0) } = avail L m1 := rfl
      omega
    · obtain ⟨hne, ho3⟩ := hkeep ho
      rwa [own_set_hnd, update_of_ne hne] at ho3
  · have hi3 : Inv L (v.setHnd (.held 0) (some p)) f c m3 := by
      refine ⟨hlf3.trans hi2.lf_eq, hb3, hi.cow, fun s => ?_⟩
      rw [hi2.data s, content_congr rfl (fun p hp => hu3.ref hp)]
    refine Meets.seq (hi3.kfree_hnd hh) ?_
    rintro - m4 ⟨hi4, hs4⟩
    rw [View.setHnd_back hheld] at hi4 hs4
    rw [hlack] at hshort
    refine hfail m4 hi4 ((hs12.trans hs3.mine_of_table).trans hs4.mine_of_held) ?_ (fun ho => ?_)
    · have hsame : avail L { m1 with mem := update m1.mem p (fillPage 0) } = avail L m1 := rfl
      omega
    · obtain ⟨hne, ho3⟩ := hkeep ho
      rwa [hs4.role hne]

/-- Giving back one user page. -/
theorem Inv.unmap (hi : Inv L v f c m) (hr : v.root t = some pg) (ht : t ≠ .kernel)
    (hv : va / 4096 < userPages) :
    Total (unmapPage L (4096 * pg) va true) m fun _ m' =>
      Inv L v (setEntry f t (va / 4096) none) (update c (t, ⟨va / 4096, hv⟩) zeroPage) m' ∧
        Spares L (fun _ => False) v m v m' := by
  have hmax : va < maxVa := by
    rw [userPages_eq] at hv
    rw [maxVa_eq]
    omega
  have href : uref (setEntry f t (va / 4096) none) =
      update (uref f) (t, ⟨va / 4096, hv⟩) none := uref_setEntry ht hv
  refine (unmapPage_free hi.base hr hmax (r := (t, ⟨va / 4096, hv⟩)) ?_).imp ?_
  · rw [uref, uleaf_eq ht hv, hi.lf_eq]
  · rintro - m' ⟨hb, hu, hlf, hspares⟩
    rw [hi.lf_eq] at hlf
    refine ⟨⟨hlf, by rw [href]; exact hb, ?_, fun s => ?_⟩, hspares⟩
    · rw [uleaf_setEntry ht hv]
      exact hi.cow.remove _
    · by_cases hs : s = (t, ⟨va / 4096, hv⟩)
      · subst hs
        rw [update_self, content_none (by rw [href, update_self])]
      · rw [update_of_ne hs, hi.data s]
        refine (content_congr ?_ (fun q hq => hu.ref (r := s) ?_)).symm
        · rw [href, update_of_ne hs]
        · rw [update_of_ne hs]
          exact hq

/-- An entry for the same page as before refers to nothing new. -/
theorem uref_reflag (ht : t ≠ .kernel) (hv : vpn < userPages) {w' : Word} (hw : f t vpn = some w)
    (hppn : ppn w' = ppn w) :
    uref (setEntry f t vpn (some w')) = uref f := by
  have hs : uleaf f (t, ⟨vpn, hv⟩) = some w := by rw [uleaf_eq ht hv, hw]
  rw [uref_setEntry ht hv, Option.map_some, hppn, ← uref_of_uleaf hs, update_eq_self]

/-- Changing the flags of a user entry. It may become writable only if no
other entry refers to the page. -/
theorem Inv.reflag (hi : Inv L v f c m) (ht : t ≠ .kernel) (hv : vpn < userPages) {u : Word}
    (hw : f t vpn = some w) (hppn : ppn u = ppn w) (hV : hasFlag u pteV = true)
    (hok : LeafOk t vpn u) (hcow : hasFlag u pteW = true → hasFlag u pteCow = false)
    (hexcl : ∀ s, s ≠ (t, ⟨vpn, hv⟩) → uref f s = some (ppn w) → hasFlag u pteW = false) {q : Nat}
    (ho : own m.mem v (lowOf t vpn) = some q) :
    Inv L v (setEntry f t vpn (some u)) c
      { m with mem := setWord m.mem q (vidx 0 vpn) u } := by
  have hcube : vpn < 512 ^ 3 := by
    rw [userPages_eq] at hv
    omega
  obtain ⟨hb, hu, hlf, -⟩ := hi.base.write_leaf hcube ho (fun _ => hok)
  have hs : uleaf f (t, ⟨vpn, hv⟩) = some w := by rw [uleaf_eq ht hv, hw]
  have href := uref_reflag ht hv hw hppn
  refine ⟨?_, by rw [href]; exact hb, ?_, fun s => ?_⟩
  · rw [hi.lf_eq, valid_eq_some.mpr ⟨rfl, hV⟩] at hlf
    exact hlf
  · rw [uleaf_setEntry ht hv]
    refine hi.cow.set hcow (fun s' x hne hx hp => ?_)
    rw [hppn] at hp
    refine ⟨hexcl s' hne ((uref_of_uleaf hx).trans (by rw [hp])), ?_, hi.cow.same hs hx hp⟩
    by_contra hW
    exact hne (hi.cow.excl hx (by simpa using hW) hs hp.symm).symm
  · rw [hi.data s]
    exact (content_congr (by rw [href]) (fun p hp => hu.ref hp)).symm

/-- A write to a page that only slot `s` refers to changes no other slot. -/
theorem Inv.store_sole (hi : Inv L v f c m) (hs : uleaf f s = some w)
    (hsole : ∀ s', uref f s' = some (ppn w) → s' = s) (page : Page) :
    Inv L v f (update c s page) { m with mem := update m.mem (ppn w) page } := by
  have href := uref_of_uleaf hs
  obtain ⟨hb, hlf, -⟩ := hi.base.write_ref href page
  refine ⟨hlf.trans hi.lf_eq, hb, hi.cow, fun s' => ?_⟩
  by_cases e : s' = s
  · subst e
    rw [update_self, content_some href]
    exact (update_self (ppn w) page m.mem).symm
  · rw [update_of_ne e, hi.data s']
    refine (content_congr rfl (fun p hp => update_of_ne ?_ _ _)).symm
    rintro rfl
    exact e (hsole s' hp)

/-- A store through a writable entry changes that page and no other one. -/
theorem Inv.store (hi : Inv L v f c m) (hs : uleaf f s = some w) (hW : hasFlag w pteW = true)
    (page : Page) :
    Inv L v f (update c s page) { m with mem := update m.mem (ppn w) page } := by
  refine hi.store_sole hs (fun s' hs' => ?_) page
  obtain ⟨w', hw', hpp⟩ := uref_some hs'
  exact hi.cow.excl hs hW hw' hpp

/-- Entries changed that belong to no user page. -/
theorem Inv.priv {f' : Entries} (hi : Inv L v f c m)
    (hul : uleaf f' = uleaf f) (hb : Base L m' v (uref f)) (hu : Untouched m m' v (uref f))
    (hlf : lf m'.mem v = f') : Inv L v f' c m' := by
  have href : uref f' = uref f := by
    unfold uref
    rw [hul]
  refine ⟨hlf, by rw [href]; exact hb, by rw [hul]; exact hi.cow, fun s => ?_⟩
  rw [hi.data s]
  exact (content_congr (by rw [href]) (fun p hp => hu.ref hp)).symm

/-! ## §4 Tables that share nothing -/

/-- No page of table `t` is mapped anywhere else. -/
def Private (f : Entries) (t : TableId) : Prop :=
  ∀ (s s' : Slot) (p : Nat), s.1 = t → uref f s = some p → uref f s' = some p → s' = s

/-- Mapping a page that nothing refers to keeps a table private. -/
theorem Private.set (h : Private f t) (ht : t ≠ .kernel) (hv : vpn < userPages)
    (hfresh : ∀ s, uref f s ≠ some (ppn w)) : Private (setEntry f t vpn (some w)) t := by
  intro s s' p hs hp hp'
  rw [uref_setEntry ht hv, Option.map_some] at hp hp'
  rw [update_apply] at hp hp'
  split at hp <;> split at hp'
  · rename_i e e'
    rw [e, e']
  · cases hp
    exact absurd hp' (hfresh s')
  · cases hp'
    exact absurd hp (hfresh s)
  · exact h s s' p hs hp hp'

end Xv6.Vm
