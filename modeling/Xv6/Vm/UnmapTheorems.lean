/-
Xv6.Vm.UnmapTheorems — taking mappings and tables apart.

`unmapPage` clears an entry. With `do_free` it also drops the reference
that counted the entry; without it (the trampoline and trapframe pages) the
counters stay. `freewalk` on a table without entries frees its pages from
the bottom up: a child page is freed before the entry that names it is
cleared, so the two together are one step of the accounting.
-/
import Xv6.Vm.WalkTheorems

namespace Xv6.Vm

open Xv6.Lib Function

variable {R : Type} [Fintype R] {P : TableId → Nat → Word → Prop} {L : Layout} {m : Mach}
  {v : View} {ρ : R → Option Nat} {t : TableId} {pg va : Nat} {i : Fin 512} {c : Nat → M Unit}
  {d : Nat} {Q : Unit → Mach → Prop}

/-! ## One page -/

theorem unmapPage_spec (hr : v.root t = some pg) (hva : va < maxVa) {doFree : Bool}
    (hno : lf m.mem v t (va / 4096) = none → Q () m)
    (hyes : ∀ q w, own m.mem v (lowOf t (va / 4096)) = some q → lf m.mem v t (va / 4096) = some w →
      Total (do
        if doFree then kfree L (pte2pa w)
        writePte ⟨q, vidx 0 (va / 4096)⟩ 0) m Q) :
    Total (unmapPage L (4096 * pg) va doFree) m Q := by
  refine walk_then hr hva (fun hn => meets_pure (hno hn)) (fun q ho hlf => ?_)
  refine meets_readPte ?_
  refine meets_ite (fun hV => ?_) (fun hV => ?_)
  · rw [valid_eq_none.mpr (by simpa using hV)] at hlf
    exact meets_pure (hno hlf)
  · rw [valid_eq_some.mpr ⟨rfl, by simpa using hV⟩] at hlf
    exact hyes q _ ho hlf

/-- Clearing an entry without touching the counters. -/
theorem unmapPage_keep (hb : Forest P L m v ρ) (hr : v.root t = some pg) (hva : va < maxVa) :
    Total (unmapPage L (4096 * pg) va false) m fun _ m' =>
      Forest P L m' v ρ ∧ Stable m m' v ρ ∧
        lf m'.mem v = setEntry (lf m.mem v) t (va / 4096) none ∧
        Spares L (fun _ => False) v m v m' := by
  refine unmapPage_spec hr hva (fun hn => ?_) fun q w ho _ => ?_
  · exact ⟨hb, Quiet.refl.toStable, (setEntry_same hn).symm, .refl⟩
  · refine Meets.bind (meets_pure (meets_writePte ?_))
    exact hb.write_leaf (vpn_lt_cube hva) ho (fun h => by cases h)

/-- Clearing an entry and dropping the reference `r` that counted it. -/
theorem unmapPage_free [DecidableEq R] (hb : Forest P L m v ρ) (hr : v.root t = some pg)
    (hva : va < maxVa) {r : R} (hρ : ρ r = (lf m.mem v t (va / 4096)).map ppn) :
    Total (unmapPage L (4096 * pg) va true) m fun _ m' =>
      Forest P L m' v (update ρ r none) ∧ Stable m m' v (update ρ r none) ∧
        lf m'.mem v = setEntry (lf m.mem v) t (va / 4096) none ∧
        Spares L (fun _ => False) v m v m' := by
  refine unmapPage_spec hr hva (fun hn => ?_) fun q w ho hlf => ?_
  · rw [hn, Option.map_none] at hρ
    rw [show update ρ r none = ρ by rw [← hρ, update_eq_self]]
    exact ⟨hb, Quiet.refl.toStable, (setEntry_same hn).symm, .refl⟩
  · rw [hlf, Option.map_some] at hρ
    simp only [if_true, pte2pa_eq]
    refine Meets.seq (hb.kfree_ref hρ) ?_
    rintro - m1 ⟨hb1, hq1, hs1⟩
    obtain ⟨hb2, hu2, hlf2, hs2⟩ := hb1.write_leaf (vpn_lt_cube hva) (hq1.keep ho) (w := 0#64)
      (fun h => by cases h)
    refine meets_writePte ⟨hb2, hq1.toStable.trans hu2, hlf2.trans ?_, hs1.trans hs2⟩
    rw [hq1.lf_eq, valid_zero]

/-! ## A table without entries -/

/-- The page of level-0 indices `i`, `j` and entry `k`. -/
theorem exists_vpn (i j k : Fin 512) :
    ∃ vpn, vpn < 512 ^ 3 ∧ vidx 2 vpn = i ∧ vidx 1 vpn = j ∧ vidx 0 vpn = k := by
  refine ⟨i.val * 512 ^ 2 + j.val * 512 + k.val, ?_, ?_, ?_, ?_⟩
  · omega
  · exact Fin.ext (by simp only [vidx]; omega)
  · exact Fin.ext (by simp only [vidx]; omega)
  · exact Fin.ext (by simp only [vidx]; omega)

/-- In a table without entries every level-0 page is empty. -/
theorem low_empty {mem : Nat → Page} (hno : ∀ vpn, lf mem v t vpn = none) {j : Fin 512} {q : Nat}
    (ho : own mem v (.low t i j) = some q) : Empty (mem q) := by
  intro k
  obtain ⟨vpn, hv, rfl, rfl, rfl⟩ := exists_vpn i j k
  have := hno vpn
  rw [lf_of_low hv ho] at this
  exact valid_eq_none.mp this

theorem freewalkEntries_empty {p : Nat} (he : Empty (m.mem p)) (is : List (Fin 512)) :
    Total (freewalkEntries c (4096 * p) is) m fun _ m' => m' = m := by
  induction is with
  | nil => exact meets_pure rfl
  | cons i is ih =>
    refine meets_readPte ?_
    simp only [mul_div_pgSize, he i, Bool.false_and, Bool.false_eq_true, if_false]
    exact Meets.bind (meets_pure ih)

/-- `freewalk` of an empty page is `kfree`. -/
theorem freewalk_empty {p : Nat} (he : Empty (m.mem p)) (h : Total (kfree L (4096 * p)) m Q) :
    Total (freewalk L (d + 1) (4096 * p)) m Q := by
  refine Meets.seq (freewalkEntries_empty he _) ?_
  rintro - m' rfl
  exact h

/-- One entry of `freewalk`'s loop that names a child page, with the rest of
the loop as `k`: `child` frees the page, then the entry is cleared. -/
theorem freewalk_entry {k : M Unit} (hV : hasFlag (m.mem pg i) pteV = true)
    (hdir : hasFlag (m.mem pg i) pteRwx = false)
    (hchild : Total (c (4096 * ppn (m.mem pg i))) m fun _ m1 =>
      Total k { m1 with mem := setWord m1.mem pg i 0#64 } Q) :
    Total (do
      let pte ← readPte ⟨4096 * pg / pgSize, i⟩
      if hasFlag pte pteV && !hasFlag pte (pteR ||| pteW ||| pteX) then
        c (pte2pa pte)
        writePte ⟨4096 * pg / pgSize, i⟩ 0
      else if hasFlag pte pteV then throw .freewalkLeaf
      k) m Q := by
  refine meets_readPte ?_
  simp only [mul_div_pgSize]
  have hc :
      (hasFlag (m.mem pg i) pteV && !hasFlag (m.mem pg i) (pteR ||| pteW ||| pteX)) = true := by
    rw [hV, show hasFlag (m.mem pg i) (pteR ||| pteW ||| pteX) = false from hdir]
    rfl
  rw [if_pos hc, pte2pa_eq]
  refine Meets.seq hchild ?_
  intro _ m1 h
  exact Meets.bind (meets_writePte h)

/-- The table pages of the owners in `A` may go, and `o` is gone. No entry
changes. -/
structure Pruned (P : TableId → Nat → Word → Prop) (L : Layout) (A : Owner → Prop) (m m' : Mach)
    (v : View) (ρ : R → Option Nat) (o : Owner) : Prop extends Untouched m m' v ρ where
  base : Forest P L m' v ρ
  lf_eq : lf m'.mem v = lf m.mem v
  spares : Spares L A v m v m'
  gone : own m'.mem v o = none

/-- The loop over the page of `k` frees all pages below it, if `c` frees one
of them with what is below it, and its entry is cleared then. -/
theorem freewalkEntries_spec {k : Owner} {kid : Fin 512 → Owner} {A : Fin 512 → Owner → Prop}
    {B : Owner → Prop} (hkid : ∀ i, (kid i).up = some (k, i)) (hA : ∀ {i i'}, A i (kid i') → i' = i)
    (hAk : ∀ i, ¬ A i k) (hAB : ∀ {i o}, A i o → B o)
    (hc : ∀ {m i p}, Forest P L m v ρ → own m.mem v k = some pg → own m.mem v (kid i) = some p →
      (∀ vpn, lf m.mem v t vpn = none) → Total (c (4096 * p)) m fun _ m1 =>
        Pruned P L (A i) m { m1 with mem := setWord m1.mem pg i 0#64 } v ρ (kid i))
    (is : List (Fin 512)) :
    ∀ {m : Mach}, Forest P L m v ρ → own m.mem v k = some pg → (∀ vpn, lf m.mem v t vpn = none) →
    Total (freewalkEntries c (4096 * pg) is) m fun _ m' =>
      Forest P L m' v ρ ∧ Untouched m m' v ρ ∧ lf m'.mem v = lf m.mem v ∧ Spares L B v m v m' ∧
      ∀ i, (own m.mem v (kid i) = none ∨ i ∈ is) → own m'.mem v (kid i) = none := by
  induction is with
  | nil =>
    intro m hb hk hno
    refine meets_pure ⟨hb, Quiet.refl.toUntouched, rfl, .refl, ?_⟩
    rintro i (h | h)
    · exact h
    · cases h
  | cons i is ih =>
    intro m hb hk hno
    have hown : own m.mem v (kid i) = child m.mem pg i := by
      rw [own_up (hkid i), hk, Option.bind_some]
    by_cases hV : hasFlag (m.mem pg i) pteV = true
    · refine freewalk_entry hV (hb.shape.dir (hkid i) hk hV) ?_
      refine (hc hb hk (hown.trans (child_eq_some.mpr ⟨hV, rfl⟩)) hno).imp ?_
      intro _ m1 hp
      refine (ih hp.base ((hp.spares.role (hAk i)).trans hk) (by rw [hp.lf_eq]; exact hno)).imp ?_
      rintro - m' ⟨hb', hu', hlf', hs', hgone⟩
      refine ⟨hb', hp.toUntouched.trans hu', hlf'.trans hp.lf_eq,
        (hp.spares.mono fun _ h => hAB h).trans hs', fun i' hi' => hgone i' ?_⟩
      by_cases hii : i' = i
      · subst hii
        exact .inl hp.gone
      · rw [hp.spares.role (fun h => hii (hA h))]
        simpa [hii] using hi'
    · have hV' : hasFlag (m.mem pg i) pteV = false := by simpa using hV
      refine meets_readPte ?_
      simp only [mul_div_pgSize, hV', Bool.false_and, Bool.false_eq_true, if_false]
      refine Meets.bind (meets_pure ((ih hb hk hno).imp ?_))
      rintro - m' ⟨hb', hu', hlf', hs', hgone⟩
      refine ⟨hb', hu', hlf', hs', fun i' hi' => hgone i' ?_⟩
      by_cases hii : i' = i
      · subst hii
        exact .inl (hown.trans (child_eq_none.mpr hV'))
      · simpa [hii] using hi'

/-- The loop over a level-1 page. -/
theorem freewalk_mid (hb : Forest P L m v ρ) (hmid : own m.mem v (.mid t i) = some pg)
    (hno : ∀ vpn, lf m.mem v t vpn = none) :
    Total (freewalkEntries (freewalk L (d + 1)) (4096 * pg) (List.finRange 512)) m fun _ m' =>
      Forest P L m' v ρ ∧ Untouched m m' v ρ ∧ lf m'.mem v = lf m.mem v ∧
      Spares L (fun o => ∃ j, o = .low t i j) v m v m' ∧
      ∀ j, (own m.mem v (.low t i j) = none ∨ j ∈ List.finRange 512) →
        own m'.mem v (.low t i j) = none := by
  refine freewalkEntries_spec (A := fun j o => o = .low t i j) (fun _ => rfl) (by simp) (by simp)
    (fun h => ⟨_, h⟩) (fun hb hmid hlow hno => ?_) _ hb hmid hno
  have he := low_empty hno hlow
  refine freewalk_empty he ((hb.unlink rfl hmid hlow ?_ fun _ _ _ _ => he).imp ?_)
  · rintro (_ | _ | _ | _) _ ⟨⟩
  · rintro - m1 ⟨hu, hs⟩
    exact ⟨hu.toUntouched, hu.base, hu.lf_eq, hs, by rw [hu.own_eq, update_self]⟩

/-- The loop over a root frees everything below it. -/
theorem freewalk_root_entries (hb : Forest P L m v ρ) (hroot : v.root t = some pg)
    (hno : ∀ vpn, lf m.mem v t vpn = none) :
    Total (freewalkEntries (freewalk L (d + 2)) (4096 * pg) (List.finRange 512)) m fun _ m' =>
      Forest P L m' v ρ ∧ Untouched m m' v ρ ∧ lf m'.mem v = lf m.mem v ∧
      Spares L (Owner.In t) v m v m' ∧
      ∀ i, (own m.mem v (.mid t i) = none ∨ i ∈ List.finRange 512) →
        own m'.mem v (.mid t i) = none := by
  refine freewalkEntries_spec (k := .root t) (A := fun i o => o = .mid t i ∨ ∃ j, o = .low t i j)
    (fun _ => rfl) (by simp) (by simp) (by rintro i o (rfl | ⟨j, rfl⟩) <;> rfl)
    (fun {m i p} hb hroot hmid hno => ?_) _ hb hroot hno
  refine Meets.seq (freewalk_mid hb hmid hno) ?_
  rintro - m1 ⟨hb1, hu1, hlf1, hs1, hlow1⟩
  have hmid1 : own m1.mem v (.mid t i) = some p := (hs1.role (by simp)).trans hmid
  refine (hb1.unlink (k := .root t) rfl hroot hmid1 ?_ (by simp)).imp ?_
  · rintro (_ | _ | ⟨_, _, j⟩ | _) _ ⟨⟩
    exact hlow1 j (.inr (List.mem_finRange j))
  · rintro - m2 ⟨hu2, hs2⟩
    exact ⟨hu1.trans hu2.toUntouched, hu2.base, hu2.lf_eq.trans hlf1,
      (hs1.mono fun _ h => .inr h).trans (hs2.mono fun _ h => .inl h),
      by rw [hu2.own_eq, update_self]⟩

/-- `freewalk` frees every page of a table without entries. -/
theorem freewalk_spec (hb : Forest P L m v ρ) (hroot : v.root t = some pg)
    (hno : ∀ vpn, lf m.mem v t vpn = none) :
    Total (freewalk L 3 (4096 * pg)) m fun _ m' =>
      Forest P L m' (v.setRoot t none) ρ ∧ Untouched m m' v ρ ∧
        lf m'.mem (v.setRoot t none) = lf m.mem v ∧
        Spares L (Owner.In t) v m (v.setRoot t none) m' := by
  refine Meets.seq (freewalk_root_entries hb hroot hno) ?_
  rintro - m1 ⟨hb1, hu1, hlf1, hs1, hmid1⟩
  refine (hb1.kfree_root hroot (fun i => hmid1 i (.inr (List.mem_finRange i)))).imp ?_
  rintro - m2 ⟨hb2, hu2, hlf2, hs2⟩
  exact ⟨hb2, hu1.trans hu2, hlf2.trans hlf1, hs1.trans (hs2.mono (fun o h => h ▸ rfl))⟩

end Xv6.Vm
