/-
Xv6.Vm.WalkTheorems — what `walk`, `mappages`, `uvmunmap` and `freewalk`
do to the tables, for any family of counted references.

`walk` finds the entry that `lf` reads, or, when it allocates, links in
zeroed table pages and changes no entry. `mappages` fills entries that were
invalid. `unmapPage` drops a reference and clears an entry, and `freewalk`
takes a table without entries apart. None of them panics.
-/
import Xv6.Vm.Base

namespace Xv6.Vm

open Xv6.Lib Function

/-! ## Memory accesses -/

section Rules

variable {E : Panic → Prop} {m : Mach} {Q : Unit → Mach → Prop}

theorem meets_readPte {α : Type} {ptr : PtePtr} {k : Word → M α} {Q : α → Mach → Prop}
    (h : Meets E (k (m.mem ptr.page ptr.idx)) m Q) : Meets E (readPte ptr >>= k) m Q :=
  Meets.bind (.ok rfl h)

theorem meets_writePte {ptr : PtePtr} {w : Word}
    (h : Q () { m with mem := setWord m.mem ptr.page ptr.idx w }) :
    Meets E (writePte ptr w) m Q := .ok rfl h

theorem mul_div_pgSize (p : Nat) : 4096 * p / pgSize = p := by
  rw [pgSize_eq]
  omega

theorem meets_setPage {p : Nat} {page : Page} (h : Q () { m with mem := update m.mem p page }) :
    Meets E (setPage (4096 * p) page) m Q := by
  unfold setPage
  rw [mul_div_pgSize]
  exact meets_modify h

theorem meets_readPage {p : Nat} {Q : Page → Mach → Prop} (h : Q (m.mem p) m) :
    Meets E (readPage (4096 * p)) m Q := by
  unfold readPage
  rw [mul_div_pgSize]
  exact meets_read (meets_pure h)

end Rules

variable {R : Type} [Fintype R] {P : TableId → Nat → Word → Prop} {L : Layout} {m m' : Mach}
  {v : View} {ρ : R → Option Nat} {t : TableId} {pg va : Nat} {vpn p : Nat} {perm : Word}

/-! ## Walking -/

/-- The role of the table page that holds the entry for `vpn`. -/
abbrev lowOf (t : TableId) (vpn : Nat) : Owner := .low t (vidx 2 vpn) (vidx 1 vpn)

theorem vpn_lt (hva : va < maxVa) : va / 4096 < 67108864 := by
  rw [maxVa_eq] at hva
  omega

theorem vpn_lt_cube (hva : va < maxVa) : va / 4096 < 512 ^ 3 := by
  have := vpn_lt hva
  omega

theorem vidx_two_lt (hva : va < maxVa) : (vidx 2 (va / 4096)).val < 256 := by
  have := vpn_lt hva
  simp only [vidx]
  omega

/-- A walk that goes down where an entry of a table passes `test`, which all valid ones do, finds
the place of the last one and changes nothing. -/
theorem find_entry (loop : Nat → Nat → M (Option PtePtr)) (test : Word → Bool)
    (hlast : ∀ pa, loop 0 pa = pure (some ⟨pa / pgSize, px 0 va⟩))
    (hdown : ∀ l pa, loop (l + 1) pa = do
      let pte ← readPte ⟨pa / pgSize, px (l + 1) va⟩
      if test pte then loop l (pte2pa pte) else return none)
    (hr : v.root t = some pg) (htop : test (m.mem pg (vidx 2 (va / 4096))) =
      hasFlag (m.mem pg (vidx 2 (va / 4096))) pteV)
    (hnext : ∀ {q}, own m.mem v (.mid t (vidx 2 (va / 4096))) = some q →
      test (m.mem q (vidx 1 (va / 4096))) = hasFlag (m.mem q (vidx 1 (va / 4096))) pteV) :
    Total (loop 2 (4096 * pg)) m fun r m' =>
      m' = m ∧ r = (own m.mem v (lowOf t (va / 4096))).map fun q => ⟨q, vidx 0 (va / 4096)⟩ := by
  rw [hdown]
  refine meets_readPte ?_
  simp only [mul_div_pgSize, px_eq, htop]
  refine meets_ite (fun hV => ?_) (fun hV => ?_)
  · have hmid : own m.mem v (.mid t (vidx 2 (va / 4096))) =
        some (ppn (m.mem pg (vidx 2 (va / 4096)))) := by
      rw [own_mid hr]
      exact child_eq_some.mpr ⟨hV, rfl⟩
    rw [pte2pa_eq, hdown]
    refine meets_readPte ?_
    simp only [mul_div_pgSize, px_eq, own_low hmid, hnext hmid]
    refine meets_ite (fun hV1 => ?_) (fun hV1 => ?_)
    · rw [child_eq_some.mpr ⟨hV1, rfl⟩, pte2pa_eq, hlast]
      refine meets_pure ⟨rfl, ?_⟩
      simp only [mul_div_pgSize, px_eq, Option.map_some]
    · rw [child_eq_none.mpr (by simpa using hV1)]
      exact meets_pure ⟨rfl, rfl⟩
  · have hmid : own m.mem v (.mid t (vidx 2 (va / 4096))) = none := by
      rw [own_mid hr]
      exact child_eq_none.mpr (by simpa using hV)
    rw [own_low_none hmid]
    exact meets_pure ⟨rfl, rfl⟩

/-- `walk` without `alloc` finds the place of the entry and changes nothing. -/
theorem walk_find (hr : v.root t = some pg) (hva : va < maxVa) :
    Total (walk (4096 * pg) va false) m fun r m' =>
      m' = m ∧ r = (own m.mem v (lowOf t (va / 4096))).map fun q => ⟨q, vidx 0 (va / 4096)⟩ := by
  unfold walk
  rw [if_neg (by omega)]
  exact find_entry (walkLoop va false) (hasFlag · pteV) (fun _ => rfl) (fun _ _ => rfl) hr rfl
    fun _ => rfl

/-- The table pages on the way to the pages `S`. -/
def tablesTo (t : TableId) (S : Finset Nat) : Finset Owner :=
  S.biUnion fun vpn => {.mid t (vidx 2 vpn), lowOf t vpn}

/-- How many of them are not there. -/
def lack (mem : Nat → Page) (v : View) (t : TableId) (S : Finset Nat) : Nat :=
  ((tablesTo t S).filter fun o => own mem v o = none).card

/-- Table pages on the way to `vpn` come out of the free pages, and `n`
pages more. -/
def Counts (L : Layout) (v : View) (t : TableId) (vpn n : Nat) (m m' : Mach) : Prop :=
  ∀ S, vpn ∈ S → avail L m + lack m'.mem v t S = avail L m' + lack m.mem v t S + n

theorem Counts.refl : Counts L v t vpn 0 m m := fun _ _ => (Nat.add_zero _).symm

section Lack

variable {S : Finset Nat} {mem mem' : Nat → Page} {vpn : Nat}

theorem lack_mono {S' : Finset Nat} (h : S ⊆ S') : lack mem v t S ≤ lack mem v t S' :=
  Finset.card_le_card (Finset.filter_subset_filter _
    (Finset.biUnion_subset_biUnion_of_subset_left _ h))

/-- A walk to `vpn` is missing its last table. -/
theorem lack_pos (hlow : own mem v (lowOf t vpn) = none) (h : vpn ∈ S) : 0 < lack mem v t S := by
  refine Finset.card_pos.mpr ⟨lowOf t vpn, Finset.mem_filter.mpr ⟨?_, hlow⟩⟩
  exact Finset.mem_biUnion.mpr ⟨vpn, h, by simp⟩

/-- The last tables are there, and so is what is above them. -/
theorem lack_zero (h : ∀ vpn ∈ S, own mem v (lowOf t vpn) ≠ none) : lack mem v t S = 0 := by
  refine Finset.card_eq_zero.mpr (Finset.filter_eq_empty_iff.mpr fun o ho hnone => ?_)
  simp only [tablesTo, Finset.mem_biUnion, Finset.mem_insert, Finset.mem_singleton] at ho
  obtain ⟨vpn, hvpn, rfl | rfl⟩ := ho
  · exact h vpn hvpn (own_low_none hnone _)
  · exact h vpn hvpn hnone

theorem lack_congr {v' : View} (h : ∀ o, o.In t → own mem' v' o = own mem v o) :
    lack mem' v' t S = lack mem v t S := by
  refine congrArg _ (Finset.filter_congr fun o ho => ?_)
  simp only [tablesTo, Finset.mem_biUnion, Finset.mem_insert, Finset.mem_singleton] at ho
  obtain ⟨vpn, -, rfl | rfl⟩ := ho
  · rw [h (.mid t _) rfl]
  · rw [h (lowOf t _) rfl]

theorem lack_setHnd (h : Handle) (x : Option Nat) :
    lack mem (v.setHnd h x) t S = lack mem v t S := by
  refine lack_congr fun o ho => ?_
  rw [own_set_hnd, update_of_ne]
  rintro rfl
  exact ho

theorem Linked.counts {o : Owner} {p : Nat} (h : Linked P L m m' v ρ o p)
    (ho : o = .mid t (vidx 2 vpn) ∨ o = lowOf t vpn) : Counts L v t vpn 0 m m' := by
  intro S hS
  have hset : ((tablesTo t S).filter fun k => own m'.mem v k = none) =
      ((tablesTo t S).filter fun k => own m.mem v k = none).erase o := by
    ext k
    simp only [h.own_eq, Finset.mem_filter, Finset.mem_erase]
    by_cases hk : k = o
    · simp [hk]
    · simp [hk]
  have hmem : o ∈ (tablesTo t S).filter fun k => own m.mem v k = none :=
    Finset.mem_filter.mpr ⟨Finset.mem_biUnion.mpr ⟨vpn, hS, by simpa using ho⟩, h.vacant⟩
  have := Finset.card_erase_add_one hmem
  have := h.taken
  unfold lack
  rw [hset]
  omega

end Lack

/-- The branch of `walk` that links in a table page, with the rest of the
walk as `k`. -/
theorem walk_link (hb : Forest P L m v ρ) {i : Fin 512} {k : Nat → M (Option PtePtr)}
    {Q : Option PtePtr → Mach → Prop} (hnone : avail L m = 0 → Q none m)
    (hsome : ∀ p m1, L.Usable p → m.refcount p = 0 → FreeOk L m1 →
      m1.mem = update m.mem p (fillPage 5) → m1.refcount = update m.refcount p 1 →
      Total (k (4096 * p)) (linkPage m1 p pg i) Q) :
    Total (do
      let pagetable ← kalloc
      if pagetable = 0 then return none
      else
        setPage pagetable (fillPage 0)
        writePte ⟨pg, i⟩ (pa2pte pagetable ||| pteV)
        k pagetable) m Q := by
  refine Meets.seq (kalloc_spec hb.free) ?_
  rintro r m1 (⟨rfl, rfl, hempty⟩ | ⟨p, rfl, hu, h0, hf, hm, hrc⟩)
  · exact meets_if rfl (meets_pure (hnone hempty))
  · have := hu.pos
    refine meets_else (by omega) ?_
    refine Meets.bind (meets_setPage (Meets.bind (meets_writePte ?_)))
    exact hsome p m1 hu h0 hf hm hrc

/-- What `walk` with `alloc` does: no entry changes, and it returns 0 only
when no page is left for a table. -/
structure Walked (P : TableId → Nat → Word → Prop) (L : Layout) (v : View) (ρ : R → Option Nat)
    (t : TableId) (vpn : Nat) (m : Mach) (r : Option PtePtr) (m' : Mach) : Prop where
  base : Forest P L m' v ρ
  quiet : Quiet m m' v ρ
  spares : Spares L (Owner.In t) v m v m'
  counts : Counts L v t vpn 0 m m'
  result : (r = none ∧ avail L m' = 0 ∧ own m'.mem v (lowOf t vpn) = none) ∨
    ∃ q, own m'.mem v (lowOf t vpn) = some q ∧ r = some ⟨q, vidx 0 vpn⟩

theorem Walked.short (h : Walked P L v ρ t vpn m none m') : avail L m < lack m.mem v t {vpn} := by
  rcases h.result with ⟨-, hnone, hlow⟩ | ⟨q, -, hq⟩
  · have := h.counts {vpn} (Finset.mem_singleton_self vpn)
    have := lack_pos hlow (Finset.mem_singleton_self vpn)
    omega
  · cases hq

theorem walk_alloc (hb : Forest P L m v ρ) (hr : v.root t = some pg) (hva : va < maxVa) :
    Total (walk (4096 * pg) va true) m (Walked P L v ρ t (va / 4096) m) := by
  -- the last level, from a state where the level-1 page is there
  have hlast : ∀ {m : Mach} {mid : Nat}, Forest P L m v ρ →
      own m.mem v (.mid t (vidx 2 (va / 4096))) = some mid →
      Total (walkLoop va true 1 (4096 * mid)) m (Walked P L v ρ t (va / 4096) m) := by
    intro m mid hb hmid
    refine meets_readPte ?_
    simp only [mul_div_pgSize, px_eq]
    refine meets_ite (fun hV => ?_) (fun hV => ?_)
    · rw [pte2pa_eq]
      refine meets_pure ⟨hb, Quiet.refl, .refl, .refl,
        .inr ⟨ppn (m.mem mid (vidx 1 (va / 4096))), ?_, ?_⟩⟩
      · rw [own_low hmid]
        exact child_eq_some.mpr ⟨hV, rfl⟩
      · simp only [mul_div_pgSize, px_eq]
    · have hlow : own m.mem v (lowOf t (va / 4096)) = none := by
        rw [own_low hmid]
        exact child_eq_none.mpr (by simpa using hV)
      refine walk_link hb (fun h0 => ⟨hb, Quiet.refl, .refl, .refl, .inl ⟨rfl, h0, hlow⟩⟩)
        (fun p m1 hu h0 hf hm hrc => ?_)
      have hl := link_dir hb (o := lowOf t (va / 4096)) rfl hmid hlow (by simp) hu h0 hf hm hrc
      have hsp := hl.spares (linkPage_raw hm hu (hb.own_usable hmid))
      unfold walkLoop
      refine meets_pure ⟨hl.base, hl.toQuiet, hsp.mono (fun o h => h ▸ rfl), hl.counts (.inr rfl),
        .inr ⟨p, ?_, ?_⟩⟩
      · rw [hl.own_eq, update_self]
      · simp only [mul_div_pgSize, px_eq]
  unfold walk
  rw [if_neg (by omega)]
  refine meets_readPte ?_
  simp only [mul_div_pgSize, px_eq]
  refine meets_ite (fun hV => ?_) (fun hV => ?_)
  · rw [pte2pa_eq]
    refine hlast hb ?_
    rw [own_mid hr]
    exact child_eq_some.mpr ⟨hV, rfl⟩
  · have hmid : own m.mem v (.mid t (vidx 2 (va / 4096))) = none := by
      rw [own_mid hr]
      exact child_eq_none.mpr (by simpa using hV)
    refine walk_link hb (fun h0 => ⟨hb, Quiet.refl, .refl, .refl,
      .inl ⟨rfl, h0, own_low_none hmid _⟩⟩) (fun p m1 hu h0 hf hm hrc => ?_)
    have hl := link_dir hb (k := .root t) rfl hr hmid (by rintro _ _ ⟨⟩; exact vidx_two_lt hva)
      hu h0 hf hm hrc
    have hsp := hl.spares (linkPage_raw hm hu (hb.own_usable (o := .root t) hr))
    refine (hlast hl.base (by rw [hl.own_eq, update_self])).imp ?_
    rintro r m' ⟨hb', hq', hsp', hc', h⟩
    refine ⟨hb', hl.toQuiet.trans hq', (hsp.mono (fun o h => h ▸ rfl)).trans hsp',
      fun S hS => ?_, h⟩
    have hfirst := hl.counts (.inl rfl) S hS
    have hrest := hc' S hS
    omega

/-- A lookup, by what it finds: no entry page, or the place that holds the
entry `lf` reads. -/
theorem walk_then (hr : v.root t = some pg) (hva : va < maxVa) {α : Type} {E : Panic → Prop}
    {k : Option PtePtr → M α} {Q : α → Mach → Prop}
    (hnone : lf m.mem v t (va / 4096) = none → Meets E (k none) m Q)
    (hsome : ∀ q, own m.mem v (lowOf t (va / 4096)) = some q →
      lf m.mem v t (va / 4096) = valid (m.mem q (vidx 0 (va / 4096))) →
      Meets E (k (some ⟨q, vidx 0 (va / 4096)⟩)) m Q) :
    Meets E (walk (4096 * pg) va false >>= k) m Q := by
  refine Meets.seq (walk_find hr hva).meets ?_
  rintro r m' ⟨rfl, rfl⟩
  cases h : own m'.mem v (lowOf t (va / 4096)) with
  | none => exact hnone (lf_none_of_low h)
  | some q => exact hsome q h (lf_of_low (vpn_lt_cube hva) h)

/-- The same where the entry is known. -/
theorem walk_found {w : Word} (hr : v.root t = some pg) (hva : va < maxVa)
    (hlf : lf m.mem v t (va / 4096) = some w) {α : Type} {E : Panic → Prop}
    {k : Option PtePtr → M α} {Q : α → Mach → Prop}
    (h : ∀ q, own m.mem v (lowOf t (va / 4096)) = some q → m.mem q (vidx 0 (va / 4096)) = w →
      hasFlag w pteV = true → Meets E (k (some ⟨q, vidx 0 (va / 4096)⟩)) m Q) :
    Meets E (walk (4096 * pg) va false >>= k) m Q := by
  refine walk_then hr hva (fun hn => ?_) fun q ho hq => ?_
  · rw [hlf] at hn
    cases hn
  · rw [hlf] at hq
    obtain ⟨hword, hV⟩ := valid_eq_some.mp hq.symm
    exact h q ho hword (hword ▸ hV)

/-- The physical address of a user page, 0 if there is none. -/
def userAddr (mem : Nat → Page) (v : View) (t : TableId) (vpn : Nat) : Nat :=
  match lf mem v t vpn with
  | some w => if hasFlag w pteU then 4096 * ppn w else 0
  | none => 0

theorem userAddr_none {mem : Nat → Page} (h : lf mem v t vpn = none) :
    userAddr mem v t vpn = 0 := by
  unfold userAddr
  rw [h]

theorem userAddr_some {mem : Nat → Page} {w : Word} (h : lf mem v t vpn = some w) :
    userAddr mem v t vpn = if hasFlag w pteU then 4096 * ppn w else 0 := by
  unfold userAddr
  rw [h]

theorem walkaddr_spec (hs : Shape P m.mem v) (hr : v.root t = some pg) (va : Nat) :
    Total (walkaddr (4096 * pg) va) m fun r m' => m' = m ∧ r = userAddr m.mem v t (va / 4096) := by
  refine meets_ite (fun hge => ?_) (fun hlt => ?_)
  · refine meets_pure ⟨rfl, (userAddr_none ?_).symm⟩
    cases h : lf m.mem v t (va / 4096) with
    | none => rfl
    | some w =>
      have := hs.lf_lt h
      rw [maxVa_eq] at hge
      omega
  · refine walk_then hr (by omega) (fun hn => ?_) (fun q ho hlf => ?_)
    · exact meets_pure ⟨rfl, (userAddr_none hn).symm⟩
    · refine meets_readPte ?_
      refine meets_ite (fun hV => ?_) (fun hV => ?_)
      · rw [valid_eq_none.mpr (by simpa using hV)] at hlf
        exact meets_pure ⟨rfl, (userAddr_none hlf).symm⟩
      · rw [valid_eq_some.mpr ⟨rfl, by simpa using hV⟩] at hlf
        rw [userAddr_some hlf]
        refine meets_ite (fun hU => ?_) (fun hU => ?_)
        · exact meets_pure ⟨rfl, by rw [if_neg (by simpa using hU)]⟩
        · exact meets_pure ⟨rfl, by rw [if_pos (by simpa using hU), pte2pa_eq]⟩

theorem ismapped_spec (hr : v.root t = some pg) (hva : va < maxVa) :
    Total (ismapped (4096 * pg) va) m fun r m' =>
      m' = m ∧ r = (lf m.mem v t (va / 4096)).isSome := by
  refine walk_then hr hva (fun hn => ?_) (fun q ho hlf => ?_)
  · exact meets_pure ⟨rfl, by rw [hn]; rfl⟩
  · refine meets_readPte (meets_pure ⟨rfl, ?_⟩)
    rw [hlf]
    unfold valid
    split
    · assumption
    · simp_all

/-! ## Mapping -/

/-- The entry `mappages` writes. -/
def mkPte (p : Nat) (perm : Word) : Word := pa2pte (4096 * p) ||| perm ||| pteV

theorem hasFlag_mkPte (p : Nat) (perm : Word) {f : Word} (hf : Low f) :
    hasFlag (mkPte p perm) f = (hasFlag perm f || hasFlag pteV f) := by
  unfold mkPte
  rw [BitVec.or_assoc, hasFlag_mk _ _ hf, hasFlag_or_left]

theorem ppn_mkPte (hp : p < 2 ^ 44) (hperm : Low perm) : ppn (mkPte p perm) = p := by
  unfold mkPte
  rw [BitVec.or_assoc, ppn_mk hp (hperm.or (by decide))]

theorem valid_mkPte (p : Nat) (perm : Word) : valid (mkPte p perm) = some (mkPte p perm) := by
  rw [valid_eq_some]
  refine ⟨rfl, ?_⟩
  rw [hasFlag_mkPte _ _ (by decide), Bool.or_eq_true]
  exact .inr (by decide)

/-- The body of `mappages`' loop, with the rest of the loop as `k`. -/
theorem mappages_step (hb : Forest P L m v ρ) (hr : v.root t = some pg) (hva : va < maxVa)
    (hnone : lf m.mem v t (va / 4096) = none) (hok : P t (va / 4096) (mkPte p perm)) {k : M Int}
    {Q : Int → Mach → Prop}
    (hfail : ∀ m', Forest P L m' v ρ → Quiet m m' v ρ → Spares L (Owner.In t) v m v m' →
      avail L m < lack m.mem v t {va / 4096} → Q (-1) m')
    (hmap : ∀ m', Forest P L m' v ρ → Stable m m' v ρ → Spares L (Owner.In t) v m v m' →
      lf m'.mem v = setEntry (lf m.mem v) t (va / 4096) (some (mkPte p perm)) →
      Counts L v t (va / 4096) 0 m m' → own m'.mem v (lowOf t (va / 4096)) ≠ none →
      Total k m' Q) :
    Total (do
      match ← walk (4096 * pg) va true with
      | none => return -1
      | some ptr =>
        if hasFlag (← readPte ptr) pteV then throw .mappagesRemap
        else
          writePte ptr (pa2pte (4096 * p) ||| perm ||| pteV)
          k) m Q := by
  refine Meets.seq (walk_alloc hb hr hva) ?_
  intro r m1 hw
  have ⟨hb1, hq1, hs1, hc1, hres⟩ := hw
  rcases hres with ⟨rfl, -⟩ | ⟨q, ho, rfl⟩
  · exact meets_pure (hfail m1 hb1 hq1 hs1 hw.short)
  · refine meets_readPte ?_
    have hlf : valid (m1.mem q (vidx 0 (va / 4096))) = none := by
      rw [← lf_of_low (vpn_lt_cube hva) ho, hq1.lf_eq, hnone]
    refine meets_ite (fun hV => ?_) (fun _ => ?_)
    · rw [valid_eq_none.mp hlf] at hV
      cases hV
    · refine Meets.bind (meets_writePte ?_)
      obtain ⟨hb2, hu2, hlf2, hs2⟩ := hb1.write_leaf (vpn_lt_cube hva) ho (w := mkPte p perm)
        (fun _ => hok)
      refine hmap _ hb2 (hq1.toStable.trans hu2) (hs1.trans hs2.any) (hlf2.trans ?_)
        (fun S hS => ?_) ?_
      · rw [valid_mkPte, hq1.lf_eq]
      · exact (congrArg _ (lack_congr fun o _ => hs2.role id)).trans (hc1 S hS)
      · exact (hu2.keep ho).trans_ne (Option.some_ne_none q)

/-- `mappages` of one page that is not mapped yet. -/
theorem mappages_page (hb : Forest P L m v ρ) (hr : v.root t = some pg) (hva : va < maxVa)
    (ha : va % 4096 = 0) (hnone : lf m.mem v t (va / 4096) = none)
    (hok : P t (va / 4096) (mkPte p perm)) :
    Total (mappages (4096 * pg) va pgSize (4096 * p) perm) m fun r m' =>
      Forest P L m' v ρ ∧ Stable m m' v ρ ∧ Spares L (Owner.In t) v m v m' ∧
        (r = 0 ∧ lf m'.mem v = setEntry (lf m.mem v) t (va / 4096) (some (mkPte p perm)) ∧
            Counts L v t (va / 4096) 0 m m' ∧ own m'.mem v (lowOf t (va / 4096)) ≠ none ∨
          r = -1 ∧ lf m'.mem v = lf m.mem v ∧ avail L m < lack m.mem v t {va / 4096}) := by
  unfold mappages
  rw [if_neg (by rw [pgSize_eq]; omega), if_neg (by simp), if_neg (by simp)]
  have hlast : u64 (va + pgSize - pgSize) = va := by
    rw [Nat.add_sub_cancel]
    exact u64_of_lt (by rw [maxVa_eq] at hva; omega)
  rw [hlast, show pgSize / pgSize = 0 + 1 from rfl]
  refine mappages_step hb hr hva hnone hok (fun m' hb' hq hs hn => ?_)
    (fun m' hb' hu hs hlf hc hlow => ?_)
  · exact ⟨hb', hq.toStable, hs, .inr ⟨rfl, hq.lf_eq, hn⟩⟩
  · rw [if_pos rfl]
    exact meets_pure ⟨hb', hu, hs, .inl ⟨rfl, hlf, hc, hlow⟩⟩

theorem mappagesLoop_spec (n : Nat) :
    ∀ {m : Mach} {va p : Nat}, Forest P L m v ρ → v.root t = some pg → va % 4096 = 0 →
    va + n * 4096 < maxVa →
    4096 * p + n * 4096 < 2 ^ 64 →
    (∀ k ≤ n, lf m.mem v t (va / 4096 + k) = none ∧
      P t (va / 4096 + k) (mkPte (p + k) perm)) →
    Total (mappagesLoop (4096 * pg) (va + n * 4096) perm (n + 1) va (4096 * p)) m fun r m' =>
      r = 0 → Forest P L m' v ρ ∧ Stable m m' v ρ ∧
        lf m'.mem v = setRange (lf m.mem v) t (va / 4096) (va / 4096 + n + 1)
          (fun vpn => some (mkPte (p + (vpn - va / 4096)) perm)) := by
  induction n with
  | zero =>
    intro m va p hb hr ha hva hp hpages
    obtain ⟨hnone, hok⟩ := hpages 0 (Nat.le_refl 0)
    refine mappages_step hb hr (by omega) hnone hok (fun m' hb' hq _ _ => ?_)
      (fun m' hb' hu _ hlf _ _ => ?_)
    · intro h
      cases h
    · rw [if_pos (by omega)]
      refine meets_pure (fun _ => ⟨hb', hu, ?_⟩)
      rw [hlf, ← setRange_cons (Nat.lt_succ_self _), setRange_empty (Nat.le_refl _)]
      simp
  | succ n ih =>
    intro m va p hb hr ha hva hp hpages
    unfold mappagesLoop
    obtain ⟨hnone, hok⟩ := hpages 0 (Nat.zero_le _)
    refine mappages_step hb hr (by omega) hnone hok (fun m' hb' hq _ _ => ?_)
      (fun m' hb' hu _ hlf _ _ => ?_)
    · intro h
      cases h
    · rw [maxVa_eq] at hva
      have hva' : u64 (va + pgSize) = va + 4096 := u64_of_lt (by rw [pgSize_eq]; omega)
      have hp' : u64 (4096 * p + pgSize) = 4096 * (p + 1) := by
        rw [u64_of_lt (by rw [pgSize_eq]; omega), pgSize_eq]
        omega
      rw [if_neg (by omega), hva', hp', show va + (n + 1) * 4096 = va + 4096 + n * 4096 by omega]
      have hdiv : (va + 4096) / 4096 = va / 4096 + 1 := by omega
      refine (ih hb' hr (by omega) (by rw [maxVa_eq]; omega) (by omega) (fun k hk => ?_)).imp ?_
      · obtain ⟨hk1, hk2⟩ := hpages (k + 1) (by omega)
        rw [hdiv, hlf, setEntry_vpn (by omega), Nat.add_assoc, Nat.add_assoc, Nat.add_comm 1 k]
        exact ⟨hk1, hk2⟩
      · intro r m'' h hr0
        obtain ⟨hb'', hu'', hlf''⟩ := h hr0
        refine ⟨hb'', hu.trans hu'', ?_⟩
        rw [hlf'', hdiv, hlf, ← setRange_cons (a := va / 4096) (by omega)]
        funext t' vpn'
        unfold setRange
        rw [show va / 4096 + 1 + n + 1 = va / 4096 + (n + 1) + 1 by omega]
        split
        · dsimp only
          rw [show p + 1 + (vpn' - (va / 4096 + 1)) = p + (vpn' - va / 4096) by omega]
        · simp

/-- `mappages` of a range of pages none of which is mapped yet. -/
theorem mappages_range (hb : Forest P L m v ρ) (hr : v.root t = some pg) (ha : va % 4096 = 0)
    {n : Nat} (hn : 0 < n) (hva : va + n * 4096 ≤ maxVa) (hp : 4096 * p + n * 4096 < 2 ^ 64)
    (hpages : ∀ k < n, lf m.mem v t (va / 4096 + k) = none ∧
      P t (va / 4096 + k) (mkPte (p + k) perm)) :
    Total (mappages (4096 * pg) va (n * 4096) (4096 * p) perm) m fun r m' =>
      r = 0 → Forest P L m' v ρ ∧ Stable m m' v ρ ∧
        lf m'.mem v = setRange (lf m.mem v) t (va / 4096) (va / 4096 + n)
          (fun vpn => some (mkPte (p + (vpn - va / 4096)) perm)) := by
  obtain ⟨n, rfl⟩ : ∃ k, n = k + 1 := ⟨n - 1, by omega⟩
  rw [maxVa_eq] at hva
  have hp' : 4096 * p + n * 4096 < 2 ^ 64 := Nat.lt_of_le_of_lt (by omega) hp
  have hva' : va + n * 4096 < maxVa := by rw [maxVa_eq]; omega
  have hlast : u64 (va + (n + 1) * 4096 - pgSize) = va + n * 4096 := by
    rw [u64_of_lt (by rw [pgSize_eq]; omega), pgSize_eq]
    omega
  have hfuel : (n + 1) * 4096 / pgSize = n + 1 := by rw [pgSize_eq]; omega
  have hsize : ¬ (n + 1) * 4096 % pgSize ≠ 0 := by rw [pgSize_eq]; omega
  have hpos : ¬ (n + 1) * 4096 = 0 := by omega
  unfold mappages
  rw [if_neg (by rw [pgSize_eq]; omega), if_neg hsize, if_neg hpos, hlast, hfuel]
  exact mappagesLoop_spec n hb hr ha hva' hp' (fun k hk => hpages k (Nat.lt_succ_of_le hk))

end Xv6.Vm
