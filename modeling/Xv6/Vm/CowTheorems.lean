/-
Xv6.Vm.CowTheorems — copy-on-write fork and the two fault handlers.

`uvmcopy` gives the child the parent's entries and makes every writable one
read-only on both sides; the child then reads what the parent reads. It
never changes what an existing page reads, whether it succeeds or fails.
`cowfault` ends the sharing of one page, by making the entry writable when
it is the last one or by copying, and `vmfault` maps a zero page where there
was none: neither changes what any page reads.
-/
import Xv6.Vm.UvmTheorems

namespace Xv6.Vm

open Xv6.Lib Function

variable {L : Layout} {v : View} {f g : Entries} {c : Slot → Page}
  {m m' : Mach} {t t' : TableId} {pg pg' va : Nat} {fl w : Word} {a : Nat}

/-! ## Flags -/

/-- The flags `uvmcopy` gives a writable page. -/
def downFlags (w : Word) : Word := (pteFlags w &&& ~~~pteW) ||| pteCow

/-- The flags `cowfault` gives a page. -/
def upFlags (w : Word) : Word := (pteFlags w ||| pteW) &&& ~~~pteCow

theorem low_downFlags (w : Word) : Low (downFlags w) := ((low_pteFlags w).and _).or (by decide)

theorem low_upFlags (w : Word) : Low (upFlags w) := ((low_pteFlags w).or (by decide)).and _

theorem hasFlag_downFlags (w : Word) (h1 : 0x3FF#64 &&& fl = fl) (h2 : ~~~pteW &&& fl = fl)
    (h3 : hasFlag pteCow fl = false) :
    hasFlag (downFlags w) fl = hasFlag w fl := by
  rw [downFlags, hasFlag_or_left, hasFlag_clear _ h2, hasFlag_pteFlags w h1, h3, Bool.or_false]

theorem downFlags_W (w : Word) : hasFlag (downFlags w) pteW = false := by
  rw [downFlags, hasFlag_or_left, hasFlag_clear_self]
  decide

theorem downFlags_Cow (w : Word) : hasFlag (downFlags w) pteCow = true := by
  rw [downFlags, hasFlag_or_left, show hasFlag pteCow pteCow = true by decide, Bool.or_true]

theorem hasFlag_upFlags (w : Word) (h1 : 0x3FF#64 &&& fl = fl) (h2 : ~~~pteCow &&& fl = fl)
    (h3 : hasFlag pteW fl = false) :
    hasFlag (upFlags w) fl = hasFlag w fl := by
  rw [upFlags, hasFlag_clear _ h2, hasFlag_or_left, hasFlag_pteFlags w h1, h3, Bool.or_false]

theorem upFlags_W (w : Word) : hasFlag (upFlags w) pteW = true := by
  rw [upFlags, hasFlag_clear _ (by decide), hasFlag_or_left,
    show hasFlag pteW pteW = true by decide, Bool.or_true]

theorem upFlags_Cow (w : Word) : hasFlag (upFlags w) pteCow = false := hasFlag_clear_self _ _

/-! ## Fork -/

/-- The word an entry has after `uvmcopy` saw it. -/
def downWord (w : Word) : Word :=
  if hasFlag w pteW then pa2pte (4096 * ppn w) ||| downFlags w else w

/-- The flags the child's entry gets. -/
def childFlags (w : Word) : Word := if hasFlag w pteW then downFlags w else pteFlags w

theorem downWord_W (w : Word) : hasFlag (downWord w) pteW = false := by
  unfold downWord
  split
  · rw [hasFlag_mk _ _ (by decide), downFlags_W]
  · simp_all

theorem downWord_flag (w : Word) (hlow : Low fl) (h1 : 0x3FF#64 &&& fl = fl)
    (h2 : ~~~pteW &&& fl = fl) (h3 : hasFlag pteCow fl = false) :
    hasFlag (downWord w) fl = hasFlag w fl := by
  unfold downWord
  split
  · rw [hasFlag_mk _ _ hlow, hasFlag_downFlags w h1 h2 h3]
  · rfl

theorem ppn_downWord (h : ppn w < 2 ^ 44) : ppn (downWord w) = ppn w := by
  unfold downWord
  split
  · exact ppn_mk h (low_downFlags w)
  · rfl

theorem permOk_childFlags (hR : hasFlag w pteR = true) : PermOk (childFlags w) := by
  unfold childFlags
  split
  · refine ⟨low_downFlags w, ?_, fun h => ?_⟩
    · rw [hasFlag_downFlags w (by decide) (by decide) (by decide), hR]
    · rw [downFlags_W] at h
      cases h
  · rename_i hW
    refine ⟨low_pteFlags w, by rw [hasFlag_pteFlags w (by decide), hR], fun h => ?_⟩
    rw [hasFlag_pteFlags w (by decide)] at h
    exact absurd h hW

theorem childFlags_W (w : Word) : hasFlag (childFlags w) pteW = false := by
  unfold childFlags
  split
  · exact downFlags_W w
  · rename_i hW
    rw [hasFlag_pteFlags w (by decide)]
    simpa using hW

/-- The downgrade of the parent's entry. -/
theorem downgrade_spec (hi : Inv L v f c m) (ht : t ≠ .kernel) {q : Nat} (hv : a < userPages)
    (hw : f t a = some w) (ho : own m.mem v (lowOf t a) = some q) :
    Total (downgrade ⟨q, vidx 0 a⟩ (4096 * ppn w) (pteFlags w)) m fun r m' =>
      r = childFlags w ∧ Inv L v (setEntry f t a (some (downWord w))) c m' ∧
        Spares L (fun _ => False) v m v m' := by
  have hs : uleaf f (t, ⟨a, hv⟩) = some w := by rw [uleaf_eq ht hv, hw]
  have hp : ppn w < 2 ^ 44 := (hi.base.ref_usable (uref_of_uleaf hs)).lt_ppn
  obtain ⟨hR, hU⟩ := hi.base.shape.leaf (hi.lf_eq ▸ hw)
  obtain ⟨-, -, -, -, hV⟩ := lf_some (hi.lf_eq ▸ hw)
  unfold downgrade
  rw [hasFlag_pteFlags w (by decide)]
  refine meets_ite (fun hW => ?_) (fun hW => ?_)
  · have hcube : a < 512 ^ 3 := by
      rw [userPages_eq] at hv
      omega
    refine Meets.bind (meets_writePte (meets_pure ⟨by rw [childFlags, if_pos hW]; rfl, ?_⟩))
    have hdown : downWord w = pa2pte (4096 * ppn w) ||| downFlags w := if_pos hW
    have hflag : ∀ {fl : Word}, Low fl → 0x3FF#64 &&& fl = fl → ~~~pteW &&& fl = fl →
        hasFlag pteCow fl = false → hasFlag (downWord w) fl = hasFlag w fl :=
      fun h0 h1 h2 h3 => downWord_flag w h0 h1 h2 h3
    have hok : LeafOk t a (downWord w) :=
      ⟨by rw [hflag (by decide) (by decide) (by decide) (by decide), hR],
        fun h => by rw [hflag (by decide) (by decide) (by decide) (by decide), hU h]⟩
    have hi' := hi.reflag ht hv hw (u := downWord w) (ppn_downWord hp)
      (by rw [hflag (by decide) (by decide) (by decide) (by decide), hV]) hok
      (fun h => by rw [downWord_W] at h; cases h) (fun _ _ _ => downWord_W w) ho
    obtain ⟨-, -, -, hs'⟩ := hi.base.write_leaf hcube ho (fun _ => hok)
    rw [hdown] at hi' hs' ⊢
    exact ⟨hi', hs'⟩
  · refine meets_pure ⟨by rw [childFlags, if_neg hW], ?_, .refl⟩
    rw [downWord, if_neg hW, setEntry_same hw]
    exact hi

/-- The parent's page entered for the child and counted once more. -/
theorem Inv.share (hi : Inv L v f c m) (ht : t ≠ .kernel) (ht' : t' ≠ .kernel) (hv : a < userPages)
    {perm : Word} (hw : f t a = some w) (hW : hasFlag w pteW = false) (hnone : f t' a = none)
    (hperm : PermOk perm) (hpW : hasFlag perm pteW = false) (hb : Base L m' v (uref f))
    (hu : Untouched m m' v (uref f))
    (hlf : lf m'.mem v = setEntry f t' a (some (mkPte (ppn w) perm))) :
    Total (kaddref L (4096 * ppn w)) m' fun _ m'' =>
      Inv L v (setEntry f t' a (some (mkPte (ppn w) perm)))
        (update c (t', ⟨a, hv⟩) (c (t, ⟨a, hv⟩))) m'' ∧ Spares L (fun _ => False) v m' v m'' := by
  have hs : uleaf f (t, ⟨a, hv⟩) = some w := by rw [uleaf_eq ht hv, hw]
  have hs' : uref f (t', ⟨a, hv⟩) = none := uref_none_of_uleaf (by rw [uleaf_eq ht' hv, hnone])
  have hp : ppn w < 2 ^ 44 := (hi.base.ref_usable (uref_of_uleaf hs)).lt_ppn
  have hppn := ppn_mkPte hp hperm.low
  have href : uref (setEntry f t' a (some (mkPte (ppn w) perm))) =
      update (uref f) (t', ⟨a, hv⟩) (some (ppn w)) := by
    rw [uref_setEntry ht' hv, Option.map_some, hppn]
  refine (hb.kaddref (uref_of_uleaf hs) hs').imp ?_
  rintro - m'' ⟨hb'', hm⟩
  refine ⟨⟨by rw [hm, hlf], by rw [href]; exact hb'', ?_, fun s => ?_⟩, .of_mem hm⟩
  · rw [uleaf_setEntry ht' hv]
    refine hi.cow.set hperm.mkPte_cow (fun s x _ hx hpp => ?_)
    rw [hppn] at hpp
    have hsame : s.2 = ⟨a, hv⟩ := hi.cow.same hs hx hpp
    refine ⟨?_, ?_, hsame⟩
    · rw [hasFlag_mkPte _ _ (by decide), hpW]
      decide
    · -- a writable entry for this page would be the parent's own
      by_contra hxW
      have hst := hi.cow.excl hx (by simpa using hxW) hs hpp.symm
      rw [← hst, hs] at hx
      cases hx
      exact hxW hW
  · rw [hm]
    by_cases e : s = (t', ⟨a, hv⟩)
    · subst e
      rw [update_self, content_some (p := ppn w) (by rw [href, update_self]),
        hi.data, content_some (uref_of_uleaf hs), hu.ref (uref_of_uleaf hs)]
    · rw [update_of_ne e, hi.data s]
      refine (content_congr ?_ (fun p hp => hu.ref hp)).symm
      rw [href, update_of_ne e]

/-- What copying the pages below `a` of table `t` does to the entries: the
parent keeps its pages, the child has the same ones. -/
structure Forked (f f' : Entries) (t t' : TableId) (a : Nat) : Prop where
  other : ∀ {t''}, t'' ≠ t → t'' ≠ t' → f' t'' = f t''
  priv : ∀ {vpn}, userPages ≤ vpn → f' t vpn = f t vpn
  parent : ∀ {vpn}, f' t vpn = none ↔ f t vpn = none
  child : ∀ {vpn}, vpn < a → (f' t' vpn = none ↔ f t vpn = none)
  rest : ∀ {vpn}, a ≤ vpn → f' t' vpn = f t' vpn

theorem Forked.zero : Forked f f t t' 0 :=
  ⟨fun _ _ => rfl, fun _ => rfl, Iff.rfl, fun h => absurd h (Nat.not_lt_zero _), fun _ => rfl⟩

/-- A page the parent does not have. -/
theorem Forked.skip (h : Forked f g t t' a) (hf : f t a = none) (hf' : f t' a = none) :
    Forked f g t t' (a + 1) := by
  refine ⟨h.other, h.priv, h.parent, fun {vpn} hv => ?_, fun hv => h.rest (by omega)⟩
  by_cases e : vpn = a
  · subst e
    rw [h.rest (Nat.le_refl _), hf, hf']
  · exact h.child (by omega)

/-- The parent's entry rewritten. -/
theorem Forked.down {w1 : Word} (h : Forked f g t t' a) (hne : t' ≠ t) (hv : a < userPages)
    (hw : g t a = some w) :
    Forked f (setEntry g t a (some w1)) t t' a := by
  refine ⟨fun h1 h2 => ?_, fun {vpn} hp => ?_, fun {vpn} => ?_, fun {vpn} hv' => ?_,
    fun {vpn} hv' => ?_⟩
  · rw [setEntry_table h1, h.other h1 h2]
  · rw [setEntry_vpn (by omega), h.priv hp]
  · rw [← h.parent]
    by_cases e : vpn = a
    · subst e
      rw [setEntry_self, hw]
      simp
    · rw [setEntry_vpn e]
  · rw [setEntry_table hne, h.child hv']
  · rw [setEntry_table hne, h.rest hv']

/-- The child's entry made. -/
theorem Forked.copy {w2 : Word} (h : Forked f g t t' a) (hne : t' ≠ t) (hw : g t a = some w) :
    Forked f (setEntry g t' a (some w2)) t t' (a + 1) := by
  refine ⟨fun h1 h2 => ?_, fun hp => ?_, ?_, fun {vpn} hv' => ?_, fun {vpn} hv' => ?_⟩
  · rw [setEntry_table h2, h.other h1 h2]
  · rw [setEntry_table (Ne.symm hne), h.priv hp]
  · rw [setEntry_table (Ne.symm hne)]
    exact h.parent
  · by_cases e : vpn = a
    · subst e
      rw [setEntry_self, ← h.parent, hw]
      simp
    · rw [setEntry_vpn e, h.child (by omega)]
  · rw [setEntry_vpn (by omega), h.rest (by omega)]

/-- The child's entries taken away again. -/
theorem Forked.undo (h : Forked f g t t' a) (hne : t' ≠ t)
    (hchild : ∀ vpn, vpn < a → f t' vpn = none) :
    Forked f (setRange g t' 0 a fun _ => none) t t' 0 := by
  refine ⟨fun h1 h2 => ?_, fun hp => ?_, ?_, fun h => absurd h (Nat.not_lt_zero _),
    fun {vpn} _ => ?_⟩
  · rw [setRange_table h2, h.other h1 h2]
  · rw [setRange_table (Ne.symm hne), h.priv hp]
  · rw [setRange_table (Ne.symm hne)]
    exact h.parent
  · by_cases hin : vpn < a
    · rw [setRange_in (Nat.zero_le _) hin, hchild vpn hin]
    · rw [setRange_out (by omega), h.rest (by omega)]

/-- Each of the parent's entries is as it was, or downgraded. -/
def Downed (f f' : Entries) (t : TableId) : Prop :=
  ∀ vpn, f' t vpn = f t vpn ∨ ∃ w, f t vpn = some w ∧ f' t vpn = some (downWord w)

theorem Downed.refl : Downed f f t := fun _ => .inl rfl

theorem Downed.congr {f' : Entries} (h : Downed f g t) (hf : f' t = g t) :
    Downed f f' t := fun vpn => by
  rw [hf]
  exact h vpn

theorem downWord_idem (w : Word) : downWord (downWord w) = downWord w :=
  if_neg (by rw [downWord_W]; simp)

theorem Downed.down (h : Downed f g t) (hw : g t a = some w) :
    Downed f (setEntry g t a (some (downWord w))) t := by
  intro vpn
  by_cases e : vpn = a
  · subst e
    rw [setEntry_self]
    rcases h vpn with h1 | ⟨w1, h1, h2⟩
    · exact .inr ⟨w, by rw [← h1, hw], rfl⟩
    · rw [hw] at h2
      obtain rfl := Option.some.inj h2
      exact .inr ⟨w1, h1, by rw [downWord_idem]⟩
  · rw [setEntry_vpn e]
    exact h vpn

/-- The contents when the child has copies of the pages below `a`. -/
def copied (c : Slot → Page) (t t' : TableId) (a : Nat) : Slot → Page :=
  fun s => if s.1 = t' ∧ s.2.val < a then c (t, s.2) else c s

theorem copied_zero : copied c t t' 0 = c :=
  funext fun _ => if_neg (fun e => absurd e.2 (Nat.not_lt_zero _))

theorem copied_succ (hne : t' ≠ t) (hv : a < userPages) :
    update (copied c t t' a) (t', ⟨a, hv⟩) (copied c t t' a (t, ⟨a, hv⟩)) =
      copied c t t' (a + 1) := by
  funext s
  have hpar : copied c t t' a (t, ⟨a, hv⟩) = c (t, ⟨a, hv⟩) := if_neg (fun e => hne e.1.symm)
  rw [hpar]
  by_cases e : s = (t', ⟨a, hv⟩)
  · subst e
    rw [update_self]
    exact (if_pos ⟨rfl, Nat.lt_succ_self a⟩).symm
  · rw [update_of_ne e]
    have hva : s.1 = t' → s.2.val ≠ a := fun h1 h2 => e (Prod.ext h1 (Fin.ext h2))
    unfold copied
    by_cases hin : s.1 = t' ∧ s.2.val < a
    · rw [if_pos hin, if_pos ⟨hin.1, by omega⟩]
    · rw [if_neg hin, if_neg]
      rintro ⟨h1, h2⟩
      exact hin ⟨h1, by have := hva h1; omega⟩

section Fork

variable (hr : v.root t = some pg) (hr' : v.root t' = some pg') (ht : t ≠ .kernel)
  (ht' : t' ≠ .kernel) (hne : t' ≠ t)
  (hchild : ∀ vpn, vpn < userPages → f t' vpn = none)

include hr hr' ht ht' hne hchild

/-- The body of `uvmcopy`'s loop. -/
theorem uvmcopyPage_spec {a : Nat} (hv : a < userPages) (hi : Inv L v g (copied c t t' a) m)
    (hg : Forked f g t t' a) (hd : Downed f g t) :
    Total (uvmcopyPage L (4096 * pg) (4096 * pg') (a * 4096)) m fun r m' =>
      ∃ g', Downed f g' t ∧ Spares L (Mine t') v m v m' ∧
        ((r = 0 ∧ Inv L v g' (copied c t t' (a + 1)) m' ∧ Forked f g' t t' (a + 1)) ∨
        (r = -1 ∧ Inv L v g' (copied c t t' a) m' ∧ Forked f g' t t' a)) := by
  have hmax : a * 4096 < maxVa := by
    rw [userPages_eq] at hv
    rw [maxVa_eq]
    omega
  have hdiv : a * 4096 / 4096 = a := by omega
  -- a page without an entry reads as zero on both sides
  have hskip : g t a = none → Inv L v g (copied c t t' (a + 1)) m ∧ Forked f g t t' (a + 1) := by
    intro hn
    refine ⟨?_, hg.skip (hg.parent.mp hn) (hchild a hv)⟩
    have hz : copied c t t' a (t, ⟨a, hv⟩) = copied c t t' a (t', ⟨a, hv⟩) := by
      rw [hi.zero_of_none (s := (t, ⟨a, hv⟩)) hn, hi.zero_of_none (s := (t', ⟨a, hv⟩))]
      rw [hg.rest (Nat.le_refl a), hchild a hv]
    rw [← copied_succ hne hv, hz, update_eq_self]
    exact hi
  refine walk_then hr hmax (fun hn => ?_) (fun q ho hlf => ?_)
  · rw [hdiv, hi.lf_eq] at hn
    exact meets_pure ⟨g, hd, .refl, .inl ⟨rfl, hskip hn⟩⟩
  · rw [hdiv] at ho hlf ⊢
    rw [hi.lf_eq] at hlf
    refine meets_readPte ?_
    refine meets_ite (fun hV => ?_) (fun hV => ?_)
    · rw [valid_eq_none.mpr (by simpa using hV)] at hlf
      exact meets_pure ⟨g, hd, .refl, .inl ⟨rfl, hskip hlf⟩⟩
    · rw [valid_eq_some.mpr ⟨rfl, by simpa using hV⟩] at hlf
      generalize m.mem q (vidx 0 a) = w at hlf
      rw [pte2pa_eq]
      have hs : uleaf g (t, ⟨a, hv⟩) = some w := by rw [uleaf_eq ht hv, hlf]
      have hp : ppn w < 2 ^ 44 := (hi.base.ref_usable (uref_of_uleaf hs)).lt_ppn
      have hperm := permOk_childFlags (hi.base.shape.leaf (hi.lf_eq ▸ hlf)).1
      refine Meets.seq (downgrade_spec hi ht hv hlf ho) ?_
      rintro r m1 ⟨rfl, hi1, hs1⟩
      have hg1 : Forked f (setEntry g t a (some (downWord w))) t t' a := hg.down hne hv hlf
      have hd1 : Downed f (setEntry g t a (some (downWord w))) t := hd.down hlf
      have hnone1 : setEntry g t a (some (downWord w)) t' a = none := by
        rw [setEntry_table hne, hg.rest (Nat.le_refl a), hchild a hv]
      refine Meets.seq (mappages_page hi1.base hr' hmax (by omega) ?_
        (hdiv.symm ▸ hperm.leafOk ht' hv (ppn w))) ?_
      · rw [hdiv, hi1.lf_eq, hnone1]
      rintro r m2 ⟨hb2, hu2, hs2, ⟨rfl, hlf2, -⟩ | ⟨rfl, hlf2, -⟩⟩
      · rw [hi1.lf_eq, hdiv, ← ppn_downWord hp] at hlf2
        have hshare := hi1.share ht ht' hv setEntry_self (downWord_W w) hnone1 hperm
          (childFlags_W w) hb2 hu2.toUntouched hlf2
        rw [ppn_downWord hp, copied_succ hne hv] at hshare
        refine Meets.seq hshare ?_
        rintro - m3 ⟨hi3, hs3⟩
        exact meets_pure ⟨_, hd1.congr (setEntry_table (Ne.symm hne)),
          (hs1.any.trans hs2.mine_of_table).trans hs3.any,
          .inl ⟨rfl, hi3, hg1.copy hne setEntry_self⟩⟩
      · refine meets_if (by decide) (meets_pure ⟨_, hd1, hs1.any.trans hs2.mine_of_table,
          .inr ⟨rfl, ?_, hg1⟩⟩)
        refine ⟨hlf2.trans hi1.lf_eq, hb2, hi1.cow, fun s => ?_⟩
        rw [hi1.data s]
        exact (content_congr rfl (fun p hp => hu2.ref hp)).symm

/-- The same, with the entries `f'` that are left, of which each of the
parent's is as it was or downgraded. -/
def CopyEnd (L : Layout) (v : View) (f : Entries) (c : Slot → Page)
    (t t' : TableId) (sz : Nat) (f' : Entries) (r : Int) (m' : Mach) : Prop :=
  Downed f f' t ∧
    ((r = 0 ∧ Inv L v f' (fun s => if s.1 = t' then c (t, s.2) else c s) m' ∧
      Forked f f' t t' (upPage sz)) ∨
    (r = -1 ∧ Inv L v f' c m' ∧ Forked f f' t t' 0))

theorem uvmcopyLoop_spec {sz : Nat} (hsz : sz ≤ trapframeVa)
    (hzero : ∀ s : Slot, s.1 = t' → c s = zeroPage)
    (hsized : ∀ s : Slot, s.1 = t → upPage sz ≤ s.2.val → c s = zeroPage) (n : Nat) :
    ∀ {a : Nat} {g : Entries} {m : Mach},
    Inv L v g (copied c t t' a) m → Forked f g t t' a → Downed f g t → a ≤ upPage sz →
    upPage sz < a + n →
    Total (uvmcopyLoop L (4096 * pg) (4096 * pg') sz n (a * 4096)) m
      fun r m' => ∃ f', Spares L (Mine t') v m v m' ∧ CopyEnd L v f c t t' sz f' r m' := by
  have hup := upPage_le hsz
  induction n with
  | zero =>
    omega
  | succ n ih =>
    intro a g m hi hg hd ha hfuel
    refine meets_ite (fun hlt => ?_) (fun hge => ?_)
    · have hmore : a < upPage sz := by unfold upPage; omega
      have hv : a < userPages := by omega
      refine Meets.seq (uvmcopyPage_spec hr hr' ht ht' hne hchild hv hi hg hd) ?_
      rintro r m1 ⟨g', hd1, hs1, ⟨rfl, hi1, hg1⟩ | ⟨rfl, hi1, hg1⟩⟩
      · rw [u64_next hv]
        refine (ih hi1 hg1 hd1 hmore (by omega)).imp ?_
        rintro r m2 ⟨f', hs2, hend⟩
        exact ⟨f', hs1.trans hs2, hend⟩
      · rw [show a * 4096 / pgSize = a by rw [pgSize_eq]; omega]
        have hle : 0 + a * 4096 ≤ trapframeVa := by
          rw [userPages_eq] at hv
          omega
        refine Meets.seq (uvmunmap_free hi1 hr' ht' (by omega) hle) ?_
        rintro - m2 ⟨hi2, hs2⟩
        rw [show 0 / 4096 = 0 from rfl, Nat.zero_add] at hi2
        have hc : zeroRange (copied c t t' a) t' 0 a = c := by
          funext s
          unfold zeroRange copied
          by_cases hin : s.1 = t' ∧ 0 ≤ s.2.val ∧ s.2.val < a
          · rw [if_pos hin, hzero s hin.1]
          · rw [if_neg hin, if_neg (fun e => hin ⟨e.1, Nat.zero_le _, e.2⟩)]
        rw [hc] at hi2
        exact meets_pure ⟨_, hs1.trans hs2.any, hd1.congr (setRange_table (Ne.symm hne)),
          .inr ⟨rfl, hi2, hg1.undo hne (fun vpn h => hchild vpn (Nat.lt_trans h hv))⟩⟩
    · have hlast : a = upPage sz := by unfold upPage at ha ⊢; omega
      refine meets_pure ⟨g, .refl, hd, .inl ⟨rfl, ?_, hlast ▸ hg⟩⟩
      have hc : copied c t t' a = fun s => if s.1 = t' then c (t, s.2) else c s := by
        funext s
        unfold copied
        by_cases hs : s.1 = t'
        · rw [if_pos hs]
          by_cases hin : s.2.val < a
          · rw [if_pos ⟨hs, hin⟩]
          · rw [if_neg (fun e => hin e.2), hzero s hs,
            hsized (t, s.2) rfl (hlast ▸ Nat.le_of_not_lt hin)]
        · rw [if_neg hs, if_neg (fun e => hs e.1)]
      rw [← hc]
      exact hi

end Fork

/-- `uvmcopy` into a table without user pages. -/
theorem uvmcopy_end (hi : Inv L v f c m) (hr : v.root t = some pg) (hr' : v.root t' = some pg')
    (ht : t ≠ .kernel) (ht' : t' ≠ .kernel) (hne : t' ≠ t) {sz : Nat} (hsz : sz ≤ trapframeVa)
    (hsized : ∀ vpn, upPage sz ≤ vpn → vpn < userPages → f t vpn = none)
    (hchild : ∀ vpn, vpn < userPages → f t' vpn = none) :
    Total (uvmcopy L (4096 * pg) (4096 * pg') sz) m fun r m' =>
      ∃ f', Spares L (Mine t') v m v m' ∧ CopyEnd L v f c t t' sz f' r m' := by
  have hfuel : upPage sz < 0 + (sz / pgSize + 2) := by
    unfold upPage
    rw [pgSize_eq]
    omega
  have := uvmcopyLoop_spec (L := L) (f := f) (c := c) hr hr' ht ht' hne hchild hsz ?_ ?_ _
    (a := 0) (by rw [copied_zero]; exact hi) Forked.zero .refl (Nat.zero_le _) hfuel
  · rwa [Nat.zero_mul] at this
  · rintro ⟨_, vpn⟩ rfl
    exact hi.zero_of_none (hchild vpn vpn.isLt)
  · rintro ⟨_, vpn⟩ rfl h
    exact hi.zero_of_none (hsized vpn h vpn.isLt)

/-! ## Faults -/

/-- A held copy of the page takes the place of the page itself, and the
reference to the old page is dropped. -/
theorem Inv.replace (hi : Inv L v f c m) (ht : t ≠ .kernel) {q : Nat} (hv : a < userPages)
    {u : Word} (hw : f t a = some w) {h : Handle} (hh : v.hnd h = some (ppn u))
    (hcopy : m.mem (ppn u) = m.mem (ppn w)) (hV : hasFlag u pteV = true) (hok : LeafOk t a u)
    (hcow : hasFlag u pteW = true → hasFlag u pteCow = false)
    (ho : own m.mem v (lowOf t a) = some q) :
    Total (kfree L (4096 * ppn w)) { m with mem := setWord m.mem q (vidx 0 a) u } fun _ m' =>
      Inv L (v.setHnd h none) (setEntry f t a (some u)) c m' ∧
        Spares L (fun _ => False) v m v m' := by
  have hcube : a < 512 ^ 3 := by
    rw [userPages_eq] at hv
    omega
  have hs : uleaf f (t, ⟨a, hv⟩) = some w := by rw [uleaf_eq ht hv, hw]
  obtain ⟨hb1, hu1, hlf1, hs1⟩ := hi.base.write_leaf hcube ho (fun _ => hok)
  rw [hi.lf_eq, valid_eq_some.mpr ⟨rfl, hV⟩] at hlf1
  have href : uref (setEntry f t a (some u)) = update (uref f) (t, ⟨a, hv⟩) (some (ppn u)) := by
    rw [uref_setEntry ht hv, Option.map_some]
  refine (hb1.kfree_ref (uref_of_uleaf hs)).imp ?_
  rintro - m' ⟨hb2, hq2, hs2⟩
  refine ⟨⟨hq2.lf_eq.trans hlf1, ?_, ?_, fun s => ?_⟩, hs1.trans hs2⟩
  · have := hb2.publish hh (r := (t, ⟨a, hv⟩)) (update_self ..)
    rw [update_idem, ← href] at this
    exact this
  · rw [uleaf_setEntry ht hv]
    refine hi.cow.set hcow (fun s' x _ hx hpp => ?_)
    exact absurd ((uref_of_uleaf hx).trans (by rw [hpp])) (hi.hnd_fresh hh s')
  · by_cases e : s = (t, ⟨a, hv⟩)
    · subst e
      rw [content_some (by rw [href, update_self]), hi.data,
        content_some (uref_of_uleaf hs), hq2.hnd hh, hu1.hnd hh, hcopy]
    · rw [hi.data s]
      refine (content_congr ?_ (fun p hp => ?_)).symm
      · rw [href, update_of_ne e]
      · rw [hq2.ref (r := s) (by rw [update_of_ne e]; exact hp), hu1.ref hp]

/-- The entry is marked for copying, and no other shares its page or a page
is free. -/
def Copyable (L : Layout) (f : Entries) (m : Mach) (t : TableId) (vpn : Nat) : Prop :=
  ∃ w, f t vpn = some w ∧ hasFlag w pteU = true ∧ hasFlag w pteCow = true ∧
    (m.refcount (ppn w) = 1 ∨ 0 < avail L m)

/-- How a fault on page `a` of table `t` ends: it gives up and changes nothing,
or the faulting entry is writable now, alone in naming its page, and reads what
it read before. -/
def CowEnd (L : Layout) (v : View) (f : Entries) (c : Slot → Page) (m : Mach) (t : TableId)
    (a r : Nat) (m' : Mach) : Prop :=
  (r = 0 ∧ m' = m ∧ ¬ Copyable L f m t a) ∨
  ∃ w w', a < userPages ∧ f t a = some w ∧ hasFlag w pteCow = true ∧
    r = 4096 * ppn w' ∧ r ≠ 0 ∧ hasFlag w' pteW = true ∧ hasFlag w' pteU = true ∧
    Inv L v (setEntry f t a (some w')) c m' ∧ hasFlag w pteU = true ∧
    Spares L (Mine t) v m v m' ∧ Copyable L f m t a

/-- The entry for page `p` that either branch of `cowfault` writes. -/
structure Regained (t : TableId) (a : Nat) (w' : Word) (p : Nat) : Prop where
  page : ppn w' = p
  write : hasFlag w' pteW = true
  cow : hasFlag w' pteCow = false
  valid : hasFlag w' pteV = true
  user : hasFlag w' pteU = true
  leaf : LeafOk t a w'

section

variable (ht : t ≠ .kernel) (hv : a < userPages) (hU : hasFlag w pteU = true)
include ht hv hU

theorem upFlags_regained {p : Nat} (hp : p < 2 ^ 44) (hV : hasFlag w pteV = true)
    (hR : hasFlag w pteR = true) : Regained t a (pa2pte (4096 * p) ||| upFlags w) p := by
  have hflag : ∀ {fl : Word}, Low fl → 0x3FF#64 &&& fl = fl → ~~~pteCow &&& fl = fl →
      hasFlag pteW fl = false → hasFlag (pa2pte (4096 * p) ||| upFlags w) fl = hasFlag w fl := by
    intro fl h0 h1 h2 h3
    rw [hasFlag_mk _ _ h0, hasFlag_upFlags w h1 h2 h3]
  refine ⟨ppn_mk hp (low_upFlags w), ?_, ?_, ?_, ?_, ?_, fun h => ?_⟩
  · rw [hasFlag_mk _ _ (by decide), upFlags_W]
  · rw [hasFlag_mk _ _ (by decide), upFlags_Cow]
  · rw [hflag (by decide) (by decide) (by decide) (by decide), hV]
  · rw [hflag (by decide) (by decide) (by decide) (by decide), hU]
  · rw [hflag (by decide) (by decide) (by decide) (by decide), hR]
  · rcases h with h | h
    · exact absurd h ht
    · omega

variable {q : Nat} (hi : Inv L v f c m) (hw : f t a = some w) (hC : hasFlag w pteCow = true)
  (href : uref f (t, ⟨a, hv⟩) = some (ppn w)) (ho : own m.mem v (lowOf t a) = some q)
include hi hw hC href ho

/-- The last reference: the entry becomes writable in place. -/
theorem cowfault_sole {w' : Word} (h1 : m.refcount (ppn w) = 1) (hw' : Regained t a w' (ppn w)) :
    CowEnd L v f c m t a (4096 * ppn w) { m with mem := setWord m.mem q (vidx 0 a) w' } := by
  have hcube : a < 512 ^ 3 := by
    rw [userPages_eq] at hv
    omega
  obtain ⟨-, -, -, hs⟩ := hi.base.write_leaf hcube ho (fun _ => hw'.leaf)
  refine .inr ⟨w, w', hv, hw, hC, by rw [hw'.page], ?_, hw'.write, hw'.user, ?_, hU, hs.any,
    w, hw, hU, hC, .inl h1⟩
  · have := (hi.base.ref_usable href).pos
    omega
  · refine hi.reflag ht hv hw hw'.page hw'.valid hw'.leaf (fun _ => hw'.cow) (fun s hs' hp => ?_) ho
    exact absurd (hi.base.exact.sole h1 hp href) hs'

/-- Still shared: the page is copied, then the old reference is dropped. -/
theorem cowfault_copy (hheld : v.hnd (.held 0) = none) (h1 : m.refcount (ppn w) ≠ 1)
    (hw' : ∀ p, p < 2 ^ 44 → Regained t a (pa2pte (4096 * p) ||| upFlags w) p) :
    Total (do
      let mem ← kalloc
      if mem = 0 then return 0
      else
        setPage mem (← readPage (4096 * ppn w))
        writePte ⟨q, vidx 0 a⟩ (pa2pte mem ||| upFlags w)
        kfree L (4096 * ppn w)
        return mem) m (CowEnd L v f c m t a) := by
  refine Meets.seq (hi.kalloc hheld) ?_
  rintro r m1 (⟨rfl, rfl, hnone⟩ | ⟨p, rfl, hu, hi1, hq1, hs1, hone⟩)
  · refine meets_if rfl (meets_pure (.inl ⟨rfl, rfl, ?_⟩))
    rintro ⟨w', hw', -, -, hone | hfree⟩
    · obtain rfl : w = w' := Option.some.inj (hw.symm.trans hw')
      exact h1 hone
    · omega
  · have hpos := hu.pos
    refine meets_else (by omega) (Meets.bind (meets_readPage ?_))
    refine Meets.bind (meets_setPage (Meets.bind (meets_writePte ?_)))
    have hh : (v.setHnd (.held 0) (some p)).hnd (.held 0) = some p := by simp
    have hp := hw' p hu.lt_ppn
    have hfresh : ppn w ≠ p := fun e => hi1.hnd_fresh hh _ (href.trans (by rw [e]))
    have ho1 := own_write_data (hi1.base.hnd_notTable hh)
      (fun q hq => update_of_ne hq (m1.mem (ppn w)) m1.mem)
    refine Meets.seq ((hi1.write_hnd hh (m1.mem (ppn w))).replace ht hv hw
      (u := pa2pte (4096 * p) ||| upFlags w) (by rw [hp.page]; exact hh) ?_ hp.valid hp.leaf
      (fun _ => hp.cow) (by rw [ho1]; exact hq1.keep ho)) ?_
    · rw [hp.page]
      dsimp only
      rw [update_self, update_of_ne hfresh]
    · rintro - m2 ⟨hi2, hs2⟩
      rw [View.setHnd_back hheld] at hi2
      obtain ⟨-, -, -, hsw⟩ := hi1.base.write_hnd hh (m1.mem (ppn w))
      have hs := ((hs1.any.set_hnd (A := Mine t) (.inl rfl) (some p)).trans
        hsw.mine_of_held).trans hs2.any
      have hs' := hs.set_hnd (.inl rfl) none
      rw [View.setHnd_back hheld] at hs'
      exact meets_pure (.inr ⟨w, _, hv, hw, hC, by rw [hp.page], by omega, hp.write, hp.user, hi2,
        hU, hs', w, hw, hU, hC, .inr (by omega)⟩)

end

/-- A write fault anywhere. -/
theorem cowfault_spec (hi : Inv L v f c m) (hr : v.root t = some pg) (ht : t ≠ .kernel)
    (hheld : v.hnd (.held 0) = none) (va : Nat) :
    Total (cowfault L (4096 * pg) va) m (CowEnd L v f c m t (va / 4096)) := by
  refine meets_ite (fun hge => meets_pure (.inl ⟨rfl, rfl, ?_⟩)) (fun hlt => ?_)
  · rintro ⟨w, hw, hU, -⟩
    rw [maxVa_eq] at hge
    rw [(hi.base.shape.leaf (hi.lf_eq ▸ hw)).2 (.inr (by rw [userPages_eq]; omega))] at hU
    cases hU
  have hmax : pgRoundDown va < maxVa := by
    rw [pgRoundDown_eq]
    omega
  refine walk_then hr hmax (fun hn => meets_pure (.inl ⟨rfl, rfl, ?_⟩)) (fun q ho hlf => ?_)
  · rintro ⟨w, hw, -⟩
    rw [pgRoundDown_div, hi.lf_eq, hw] at hn
    cases hn
  rw [pgRoundDown_div] at ho hlf ⊢
  refine meets_readPte ?_
  refine meets_ite (fun hflags => meets_pure (.inl ⟨rfl, rfl, ?_⟩)) (fun hflags => ?_)
  · rintro ⟨w, hw, hU, hC, -⟩
    rw [hi.lf_eq, hw] at hlf
    obtain ⟨rfl, hV⟩ := valid_eq_some.mp hlf.symm
    rw [hV, hU, hC] at hflags
    cases hflags
  simp only [Bool.or_eq_true, Bool.not_eq_true', not_or, Bool.not_eq_false] at hflags
  obtain ⟨⟨hV, hU⟩, hC⟩ := hflags
  rw [valid_eq_some.mpr ⟨rfl, hV⟩] at hlf
  have hleaf := hlf
  rw [hi.lf_eq] at hlf
  generalize m.mem q (vidx 0 (va / 4096)) = w at hleaf hlf hV hU hC
  obtain ⟨hR, hpriv⟩ := hi.base.shape.leaf hleaf
  have hv : va / 4096 < userPages := by
    by_contra hge
    rw [hpriv (.inr (by omega))] at hU
    cases hU
  have hs : uleaf f (t, ⟨va / 4096, hv⟩) = some w := by rw [uleaf_eq ht hv, hlf]
  have href := uref_of_uleaf hs
  have hw' := fun p hp => upFlags_regained ht hv hU (p := p) hp hV hR
  rw [pte2pa_eq]
  refine Meets.seq (hi.base.kgetref href) ?_
  rintro n m0 ⟨rfl, rfl⟩
  refine meets_ite (fun h1 => ?_) (fun h1 => ?_)
  · refine Meets.bind (meets_writePte (meets_pure ?_))
    exact cowfault_sole ht hv hU hi hlf hC href ho h1 (hw' _ (hi.base.ref_usable href).lt_ppn)
  · exact cowfault_copy ht hv hU hi hlf hC href ho hheld h1 hw'

/-- The page is below `sz` and not mapped, and there is memory for it and for
the tables it takes. -/
def Fillable (L : Layout) (v : View) (f : Entries) (m : Mach) (t : TableId)
    (sz va : Nat) : Prop :=
  va < sz ∧ f t (va / 4096) = none ∧ 1 + lack m.mem v t {va / 4096} ≤ avail L m

/-- `vmfault` on the process's own table: it gives up, and changes no entry
and no table, or it maps a zero page below `sz` where there was none. -/
theorem vmfault_spec (hi : Inv L v f c m) (hr : v.root t = some pg) (ht : t ≠ .kernel)
    (hheld : v.hnd (.held 0) = none) {sz : Nat} (hsz : sz ≤ trapframeVa) (va : Nat) :
    Total (vmfault L ⟨sz, 4096 * pg⟩ (4096 * pg) va) m fun r m' =>
      ((r = 0 ∧ Inv L v f c m' ∧ ¬ Fillable L v f m t sz va ∧ Holds v m m') ∨
      ∃ p, Fillable L v f m t sz va ∧ r = 4096 * p ∧ r ≠ 0 ∧ p < 2 ^ 44 ∧
        Inv L v (setEntry f t (va / 4096) (some (mkPte p (pteW ||| pteU ||| pteR)))) c m') ∧
      Spares L (Mine t) v m v m' := by
  refine meets_ite (fun hge => meets_pure ⟨.inl ⟨rfl, hi, fun h => absurd h.1 ?_, id⟩, .refl⟩)
    (fun hlt => ?_)
  · exact Nat.not_lt.mpr hge
  dsimp only at hlt ⊢
  rw [trapframeVa_eq] at hsz
  have hle : pgRoundDown va ≤ va ∧ pgRoundDown va % 4096 = 0 := by
    rw [pgRoundDown_eq]
    omega
  refine Meets.seq (ismapped_spec hr (by rw [maxVa_eq]; omega)) ?_
  rintro r m1 ⟨rfl, rfl⟩
  rw [pgRoundDown_div, hi.lf_eq]
  refine meets_ite (fun hsome => meets_pure ⟨.inl ⟨rfl, hi, fun h => ?_, id⟩, .refl⟩)
    (fun hnone => ?_)
  · rw [h.2.1] at hsome
    cases hsome
  have hnone' : f t (va / 4096) = none := by simpa using hnone
  refine alloc_map hi hr ht hheld hle.2 (by rw [trapframeVa_eq]; omega)
    (by rw [pgRoundDown_div, hnone']) ⟨by decide, by decide, by decide⟩
    (fun h0 => meets_pure ⟨.inl ⟨rfl, hi, fun h => ?_, id⟩, .refl⟩)
    (fun m' hi' hs' hn hkeep => meets_pure ⟨.inl ⟨rfl, hi', fun h => ?_, hkeep⟩, hs'⟩)
    (fun p m' hu _ hi' hs' hm' => meets_pure ⟨.inr ?_, hs'⟩)
  · have := h.2.2
    omega
  · have := h.2.2
    rw [pgRoundDown_div] at hn
    omega
  · have hpos := hu.pos
    rw [pgRoundDown_div] at hi' hm'
    exact ⟨p, ⟨by omega, hnone', hm'.enough⟩, rfl, by omega, hu.lt_ppn, hi'⟩

end Xv6.Vm
