/-
Xv6.Vm.ExecTheorems — building a user image.

The image is built in a table of its own, `t`. Nothing there is shared with
another table (`Private`), so writes to it change no other table's memory,
whatever flags its entries have. `Loaded` is what the loop over the program
headers keeps: the pages below `sz` are all mapped, and nothing else is.
-/
import Xv6.Vm.CopyTheorems
import Xv6.Vm.Exec

namespace Xv6.Vm

open Xv6.Lib Function

variable {L : Layout} {v : View} {f f' g : Entries} {c c' c'' : Slot → Page}
  {m m' : Mach} {t : TableId} {pg va sz : Nat} {p : Mm} {file src : List Byte} {off n sp base : Nat}
  {strs : List (List Byte)}

/-! ## Process page tables -/

theorem vpn_trampoline : trampolineVa / 4096 = 67108863 := rfl

theorem vpn_trapframe : trapframeVa / 4096 = 67108862 := rfl

/-- The user pages of table `t` all lie below `sz`. -/
def Sized (f : Entries) (t : TableId) (sz : Nat) : Prop :=
  ∀ vpn, upPage sz ≤ vpn → vpn < userPages → f t vpn = none

/-- The two contents agree outside table `t`. -/
def AgreeOff (c c' : Slot → Page) (t : TableId) : Prop := ∀ s : Slot, s.1 ≠ t → c' s = c s

theorem AgreeOff.refl : AgreeOff c c t := fun _ _ => rfl

theorem AgreeOff.trans (h : AgreeOff c c' t) (h' : AgreeOff c' c'' t) : AgreeOff c c'' t :=
  fun s hs => (h' s hs).trans (h s hs)

theorem AgreeOff.update {s : Slot} (hs : s.1 = t) (page : Page) :
    AgreeOff c (update c s page) t := by
  intro s' hs'
  rw [update_of_ne]
  rintro rfl
  exact hs' hs

/-- Contents that differ from `c` by a write to process memory. -/
theorem Poked.agreeOff {bs : List Byte} (h : Poked c c' t va bs) : AgreeOff c c' t := by
  rintro ⟨t', vpn⟩ hne
  refine page_ext (fun b hb => ?_)
  have := h t' (vpn.val * 4096 + b)
  rw [if_neg (fun e => hne e.1)] at this
  have hdiv : (vpn.val * 4096 + b) / 4096 = vpn.val := by omega
  have hmod : (vpn.val * 4096 + b) % 4096 = b := by omega
  unfold ubyte at this
  rw [dif_pos (by rw [hdiv]; exact vpn.isLt), dif_pos (by rw [hdiv]; exact vpn.isLt)] at this
  simpa only [hdiv, hmod] using this

theorem Pokes.agreeOff {ws : List (Nat × List Byte)} (h : Pokes t ws c c') : AgreeOff c c' t := by
  induction h with
  | nil => exact .refl
  | cons hp _ ih => exact hp.agreeOff.trans ih

theorem Faulted.sized (h : Faulted f f' t sz) (hs : Sized f t sz) : Sized f' t sz := by
  intro vpn h1 h2
  by_contra hne
  rcases h.low hne with h3 | h3
  · exact h3 (hs vpn h1 h2)
  · unfold upPage at h1
    omega

section

variable (hi : Inv L v f c m)
include hi

/-- A table that does not exist has no entries. -/
theorem Inv.root_none (hr : v.root t = none) (vpn : Nat) : f t vpn = none := by
  rw [← hi.lf_eq]
  apply lf_none_of_low
  simp only [own, hr, Option.bind_none]

/-- Clearing a table without user pages changes nothing. -/
theorem Inv.clearTable_eq (hnone : ∀ vpn, vpn < userPages → f t vpn = none) :
    clearTable c t = c := by
  funext s
  unfold clearTable
  split
  · rename_i hs
    exact (hi.zero_of_none (by rw [hs]; exact hnone _ s.2.isLt)).symm
  · rfl

/-- Nor does clearing a table that is not there. -/
theorem Inv.cleared (hr : v.root t = none) :
    (update f t fun _ => none) = f ∧ clearTable c t = c := by
  have hnone := hi.root_none hr
  exact ⟨by rw [← funext hnone, update_eq_self], hi.clearTable_eq fun vpn _ => hnone vpn⟩

/-- Mapping one page above the user pages. -/
theorem mappages_priv (hr : v.root t = some pg) (hva : va < maxVa)
    (ha : va % 4096 = 0) (hpriv : userPages ≤ va / 4096) (hnone : f t (va / 4096) = none) {p : Nat}
    {perm : Word} (hR : hasFlag perm pteR = true) (hU : hasFlag perm pteU = false) :
    Total (mappages (4096 * pg) va pgSize (4096 * p) perm) m fun r m' =>
      ((r = 0 ∧ Inv L v (setEntry f t (va / 4096) (some (mkPte p perm))) c m') ∨
        r = -1 ∧ Inv L v f c m') ∧ Spares L (Mine t) v m v m' := by
  have hok : LeafOk t (va / 4096) (mkPte p perm) := by
    refine ⟨?_, fun _ => ?_⟩
    · rw [hasFlag_mkPte _ _ (by decide), hR, Bool.true_or]
    · rw [hasFlag_mkPte _ _ (by decide), hU]
      decide
  refine (mappages_page hi.base hr hva ha (by rw [hi.lf_eq, hnone]) hok).imp ?_
  rintro r m' ⟨hb, hu, hs, ⟨rfl, hlf, -⟩ | ⟨rfl, hlf, -⟩⟩
  · exact ⟨.inl ⟨rfl, hi.priv (uleaf_setEntry_priv (.inr hpriv)) hb hu.toUntouched
      (by rw [hlf, hi.lf_eq])⟩, hs.mine_of_table⟩
  · exact ⟨.inr ⟨rfl, hi.priv rfl hb hu.toUntouched (by rw [hlf, hi.lf_eq])⟩, hs.mine_of_table⟩

/-- Freeing a table with nothing in it, just after it was made. -/
theorem uvmfree_new {p : Nat} (hr : v.root t = none) (ht : t ≠ .kernel)
    (hi' : Inv L (v.setRoot t (some p)) f c m') :
    Total (uvmfree L (4096 * p) 0) m' fun _ m'' => Inv L v f c m'' ∧
      Spares L (Mine t) (v.setRoot t (some p)) m' v m'' := by
  have hr' : (v.setRoot t (some p)).root t = some p := by simp
  refine (uvmfree_spec hi' hr' ht (Nat.zero_le _) (fun vpn _ => hi.root_none hr vpn)).imp ?_
  rintro - m'' ⟨hi'', hs''⟩
  rw [View.setRoot_back hr] at hi'' hs''
  rw [(hi.cleared hr).1, (hi.cleared hr).2] at hi''
  exact ⟨hi'', hs''⟩

/-- `proc_pagetable`: a table without user pages, or nothing. -/
theorem procPagetable_spec (hheld : v.hnd (.held 0) = none)
    (hr : v.root t = none) (ht : t ≠ .kernel) (tf : Nat) :
    Total (procPagetable L (4096 * tf)) m fun r m' =>
      (r = 0 ∧ Inv L v f c m' ∧ Spares L (Mine t) v m v m') ∨
      ∃ p f', r = 4096 * p ∧ L.Usable p ∧ Inv L (v.setRoot t (some p)) f' c m' ∧
        (∀ t', t' ≠ t → f' t' = f t') ∧ Sized f' t 0 ∧
        Spares L (Mine t) v m (v.setRoot t (some p)) m' := by
  obtain ⟨tp, htp⟩ : ∃ tp, L.trampoline = 4096 * tp :=
    ⟨L.trampoline / 4096, by have := L.trampoline_aligned; omega⟩
  refine Meets.seq (uvmcreate_spec hi hheld hr) ?_
  rintro r m1 (⟨rfl, rfl⟩ | ⟨p, rfl, hu, hi1, hs1⟩)
  · exact meets_if rfl (meets_pure (.inl ⟨rfl, hi, .refl⟩))
  have hpos := hu.pos
  have hr1 : (v.setRoot t (some p)).root t = some p := by simp
  refine meets_else (by omega) ?_
  rw [htp]
  refine Meets.seq (mappages_priv hi1 hr1 (by decide) (by decide) (by decide)
    (hi.root_none hr _) (by decide) (by decide)) ?_
  rintro r m2 ⟨⟨rfl, hi2⟩ | ⟨rfl, hi2⟩, hs2⟩
  · rw [vpn_trampoline] at hi2
    refine Meets.seq (mappages_priv hi2 hr1 (by decide) (by decide) (by decide)
      (by rw [vpn_trapframe, setEntry_vpn (by decide)]; exact hi.root_none hr _) (by decide)
      (by decide)) ?_
    rintro r m3 ⟨⟨rfl, hi3⟩ | ⟨rfl, hi3⟩, hs3⟩
    · refine meets_pure (.inr ⟨p, _, rfl, hu, hi3, fun t' ht' => ?_, fun vpn _ hv => ?_,
        (hs1.trans hs2).trans hs3⟩)
      · rw [setEntry_table ht', setEntry_table ht']
      · rw [userPages_eq] at hv
        rw [setEntry_vpn (by rw [vpn_trapframe]; omega), setEntry_vpn (by omega)]
        exact hi.root_none hr vpn
    · refine Meets.seq (uvmunmap_priv hi3 hr1 (by decide) (by decide) (by decide)) ?_
      rintro - m4 ⟨hi4, hs4⟩
      have hback : setEntry (setEntry f t 67108863 (some (mkPte tp (pteR ||| pteX)))) t
          (trampolineVa / 4096) none = f := by
        rw [vpn_trampoline]
        funext t' vpn
        by_cases h : t' = t ∧ vpn = 67108863
        · rw [h.1, h.2, setEntry_self, hi.root_none hr]
        · exact (if_neg h).trans (if_neg h)
      rw [hback] at hi4
      refine Meets.seq (uvmfree_new hi hr ht hi4) ?_
      rintro - m5 ⟨hi5, hs5⟩
      exact meets_pure (.inl ⟨rfl, hi5, (((hs1.trans hs2).trans hs3).trans hs4.any).trans hs5⟩)
  · refine Meets.seq (uvmfree_new hi hr ht hi2) ?_
    rintro - m3 ⟨hi3, hs3⟩
    exact meets_pure (.inl ⟨rfl, hi3, (hs1.trans hs2).trans hs3⟩)

/-- `proc_freepagetable` of a table whose user pages lie below `sz`. -/
theorem procFreepagetable_spec (hr : v.root t = some pg) (ht : t ≠ .kernel)
    (hsz : sz ≤ trapframeVa) (hsized : Sized f t sz) :
    Total (procFreepagetable L (4096 * pg) sz) m fun _ m' =>
      Inv L (v.setRoot t none) (update f t fun _ => none) (clearTable c t) m' ∧
        Spares L (Mine t) v m (v.setRoot t none) m' := by
  refine Meets.seq (uvmunmap_priv hi hr (by decide) (by decide) (by decide)) ?_
  rintro - m1 ⟨hi1, hs1⟩
  refine Meets.seq (uvmunmap_priv hi1 hr (by decide) (by decide) (by decide)) ?_
  rintro - m2 ⟨hi2, hs2⟩
  rw [vpn_trampoline, vpn_trapframe] at hi2
  refine (uvmfree_spec hi2 hr ht hsz (fun vpn hv => ?_)).imp ?_
  · by_cases h1 : vpn = 67108862
    · rw [h1, setEntry_self]
    rw [setEntry_vpn h1]
    by_cases h2 : vpn = 67108863
    · rw [h2, setEntry_self]
    rw [setEntry_vpn h2]
    by_cases h3 : vpn < userPages
    · exact hsized vpn hv h3
    · -- no entry lies above the trampoline's
      by_contra hne
      obtain ⟨w, hw⟩ := Option.ne_none_iff_exists'.mp hne
      rw [← hi.lf_eq] at hw
      have := hi.base.shape.lf_lt hw
      rw [userPages_eq] at h3
      omega
  · rintro - m3 ⟨hi3, hs3⟩
    have hcl : (update (setEntry (setEntry f t 67108863 none) t 67108862 none) t fun _ => none) =
        update f t fun _ => none := by
      funext t'
      by_cases htt : t' = t
      · rw [htt, update_self, update_self]
      · rw [update_of_ne htt, update_of_ne htt, setEntry_table htt, setEntry_table htt]
    rw [hcl] at hi3
    exact ⟨hi3, (hs1.any.trans hs2.any).trans hs3⟩

end

/-! ## Loading segments -/

theorem leNat_lt (bs : List Byte) : leNat bs < 256 ^ bs.length := by
  induction bs with
  | nil => exact Nat.one_pos
  | cons b bs ih =>
    rw [leNat, List.length_cons, Nat.pow_succ]
    omega

theorem field_lt (hdr : List Byte) (off : Nat) : field hdr off 8 < 2 ^ 64 := by
  refine Nat.lt_of_lt_of_le (leNat_lt _) (Nat.pow_le_pow_right (by decide) (?_ : _ ≤ 8))
  rw [List.length_take]
  exact Nat.min_le_left _ _

/-- A read that is not short reads the file, as long as the sizes fit into
32 bits. -/
theorem readi_full (hoff : off < 2 ^ 32) (hn : n < 2 ^ 32) (hlen : (readi file off n).length = n)
    (h0 : 0 < n) :
    readi file off n = (file.drop off).take n ∧ off + n ≤ file.length := by
  unfold readi at hlen ⊢
  dsimp only at hlen ⊢
  rw [Nat.mod_eq_of_lt hoff, Nat.mod_eq_of_lt hn] at hlen ⊢
  split at hlen
  · rw [List.length_nil] at hlen
    omega
  · rename_i hgood
    rw [if_neg hgood]
    rw [List.length_take, List.length_drop] at hlen
    exact ⟨rfl, by omega⟩

/-- Reads never return more than was asked for. -/
theorem readi_length_le (file : List Byte) (off n : Nat) : (readi file off n).length ≤ n := by
  unfold readi
  dsimp only
  split
  · exact Nat.zero_le _
  · rw [List.length_take]
    exact Nat.le_trans (Nat.min_le_left _ _) (Nat.mod_le _ _)

/-- What `loadseg` left: with the result 0, the bytes `bs` at `va`. -/
def SegPost (c c' : Slot → Page) (t : TableId) (va n : Nat) (r : Int) (bytes : List Byte → Prop) :
    Prop :=
  r = -1 ∨ r = 0 ∧ ∃ bs, bs.length = n ∧ Poked c c' t va bs ∧ bytes bs

/-- `loadseg`'s loop at offset `i` of a segment whose pages are mapped. -/
theorem loadsegLoop_spec (hr : v.root t = some pg) (ht : t ≠ .kernel) (hpriv : Private f t)
    (hva : va % 4096 = 0) {offset : Nat} (hoff : offset < 2 ^ 32) (hbig : sz + 4096 ≤ 2 ^ 32)
    (hle : va + sz ≤ trapframeVa)
    (hmap : ∀ vpn, vpn * 4096 < va + sz → ∃ w, f t vpn = some w ∧ hasFlag w pteU = true)
    (fuel : Nat) : ∀ {i : Nat} {c : Slot → Page} {m : Mach}, Inv L v f c m → i % 4096 = 0 →
    i < sz + 4096 → sz + 4096 ≤ i + fuel * 4096 →
    Total (loadsegLoop (4096 * pg) va file offset sz fuel i) m fun r m' =>
      ∃ c', Inv L v f c' m' ∧ AgreeOff c c' t ∧ Spares L (fun _ => False) v m v m' ∧
        SegPost c c' t (va + i) (sz - i) r fun bs => file.length < 2 ^ 32 →
          (i = 0 ∨ offset + i ≤ file.length) → bs = (file.drop (offset + i)).take (sz - i) := by
  rw [trapframeVa_eq] at hle
  induction fuel with
  | zero => intro i c m hi hal hlt hfuel; omega
  | succ fuel ih =>
    intro i c m hi hal hlt hfuel
    refine meets_ite (fun hmore => ?_) (fun hdone => meets_pure ⟨c, hi, .refl, .refl,
      .inr ⟨rfl, [], by rw [List.length_nil]; omega, .nil, fun _ _ => ?_⟩⟩)
    · have hu64 : u64 (va + i) = va + i := u64_of_lt (by omega)
      have hv : (va + i) / 4096 < userPages := by rw [userPages_eq]; omega
      obtain ⟨w, hw, hU⟩ := hmap ((va + i) / 4096) (by omega)
      have hs : uleaf f (t, ⟨(va + i) / 4096, hv⟩) = some w := by rw [uleaf_eq ht hv, hw]
      have hpos := (hi.base.ref_usable (uref_of_uleaf hs)).pos
      refine Meets.seq (walkaddr_spec hi.base.shape hr _) ?_
      rintro r m1 ⟨rfl, rfl⟩
      rw [hu64, userAddr_some (by rw [hi.lf_eq]; exact hw), if_pos hU]
      refine meets_else (by omega) ?_
      refine Meets.bind (meets_readPage (Meets.bind (meets_setPage ?_)))
      generalize hn : (if sz - i < pgSize then sz - i else pgSize) = n
      have hn' : 0 < n ∧ n ≤ 4096 ∧ n ≤ sz - i ∧ (n = 4096 ∨ n = sz - i) := by
        rw [pgSize_eq] at hn
        split at hn <;> omega
      generalize hbytes : readi file (offset + i) n = bytes
      have hshort : bytes.length ≤ n := by rw [← hbytes]; exact readi_length_le _ _ _
      obtain ⟨-, -, hs1⟩ := hi.base.write_ref (uref_of_uleaf hs)
        (pageWrite (m1.mem (ppn w)) 0 bytes)
      have hi' := hi.store_sole hs (fun s' hs' => hpriv _ s' _ rfl (uref_of_uleaf hs) hs')
        (pageWrite (m1.mem (ppn w)) 0 bytes)
      have hpoke : Poked c (update c (t, ⟨(va + i) / 4096, hv⟩)
          (pageWrite (m1.mem (ppn w)) 0 bytes)) t (va + i) bytes := by
        have := poked_page (c := c) (t := t) hv 0 bytes (by omega)
        rwa [hi.data, content_some (uref_of_uleaf hs), show (va + i) / 4096 * 4096 + 0 = va + i by
          omega] at this
      refine meets_ite (fun _ => meets_pure ⟨_, hi', .update rfl _, hs1, .inl rfl⟩)
        (fun hfull => ?_)
      have hfull' : bytes.length = n := by simpa using hfull
      rw [pgSize_eq, Nat.mod_eq_of_lt (by omega)]
      have hfuel' : sz + 4096 ≤ i + 4096 + fuel * 4096 := by
        rw [Nat.add_assoc, Nat.add_comm 4096, ← Nat.succ_mul]
        exact hfuel
      refine (ih hi' (by omega) (by omega) hfuel').imp ?_
      rintro r m2 ⟨c2, hi2, h2, hs2, hend⟩
      refine ⟨c2, hi2, (AgreeOff.update rfl _).trans h2, hs1.trans hs2, ?_⟩
      rcases hend with rfl | ⟨rfl, bs, hlen, hbs, hread⟩
      · exact .inl rfl
      refine .inr ⟨rfl, bytes ++ bs, by rw [List.length_append]; omega, ?_, fun hfile hin => ?_⟩
      · -- the chunk fills its page, or it is the last one
        refine hpoke.append ?_
        by_cases hpage : n = 4096
        · rw [hfull', hpage, Nat.add_assoc]
          exact hbs
        · obtain rfl : bs = [] := List.length_eq_zero_iff.mp (by omega)
          exact hbs.empty
      · have hlt32 : offset + i < 2 ^ 32 := by omega
        obtain ⟨hchunk, hroom⟩ := readi_full hlt32 (n := n) (by omega)
          (by rw [hbytes, hfull']) hn'.1
        rw [← hbytes, hchunk]
        by_cases hpage : n = 4096
        · have hsplit : sz - i = n + (sz - (i + 4096)) := by omega
          have hnext : offset + (i + 4096) = offset + i + n := by omega
          have hin' : offset + (i + 4096) ≤ file.length := by rw [hnext]; exact hroom
          have hrest := hread hfile (Or.inr hin')
          rw [hrest, hsplit, List.take_add, List.drop_drop, hnext]
        · obtain rfl : bs = [] := List.length_eq_zero_iff.mp (by omega)
          rw [List.append_nil]
          congr 1
          omega
    · rw [show sz - i = 0 by omega, List.take_zero]

/-- The image so far: table `t` has the pages below `sz` and no others, all
to itself, and the other tables are as they were. -/
structure Loaded (f f' : Entries) (t : TableId) (sz : Nat) : Prop where
  other : ∀ t', t' ≠ t → f' t' = f t'
  size : sz ≤ trapframeVa
  sized : Sized f' t sz
  full : ∀ vpn, vpn < upPage sz → ∃ w, f' t vpn = some w ∧ hasFlag w pteU = true
  alone : Private f' t

theorem Loaded.mapped (h : Loaded f f' t sz) (vpn : Nat) (hv : vpn < upPage sz) :
    f' t vpn ≠ none := by
  obtain ⟨w, hw, -⟩ := h.full vpn hv
  rw [hw]
  exact Option.some_ne_none w

/-- The pages of a table with all pages below `sz` mapped fit into memory. -/
theorem Loaded.bound (h : Loaded f f' t sz) (hi : Inv L v f' c m) (ht : t ≠ .kernel) :
    sz ≤ 2281701376 := by
  have := hi.mapped_bound ht (upPage_le h.size) h.mapped
  unfold upPage at this
  omega

/-- `uvmalloc` on the image. -/
theorem Loaded.grow {f1 : Entries} {newsz : Nat} {perm : Word}
    (h : Loaded f f1 t sz) (hle : sz ≤ newsz) (hnew : newsz ≤ trapframeVa)
    (hg : Grown f1 f' t (upPage sz) (upPage newsz) (pteR ||| pteU ||| perm)) :
    Loaded f f' t newsz := by
  have hup : upPage sz ≤ upPage newsz := by
    unfold upPage
    omega
  refine ⟨fun t' ht' => ?_, hnew, fun vpn h1 h2 => ?_, fun vpn h1 => ?_, hg.fresh h.alone⟩
  · rw [← h.other t' ht']
    funext vpn
    exact hg.out (fun hin => ht' hin.1)
  · rw [hg.out (by omega)]
    exact h.sized vpn (by omega) h2
  · by_cases hin : upPage sz ≤ vpn
    · obtain ⟨p, hp⟩ := hg.new hin h1
      refine ⟨_, hp, ?_⟩
      rw [hasFlag_mkPte _ _ (by decide), hasFlag_or_left,
        show hasFlag (pteR ||| pteU) pteU = true by decide, Bool.true_or, Bool.true_or]
    · rw [hg.out (by omega)]
      exact h.full vpn (by omega)

theorem permOk_flags2perm (flags : Nat) : PermOk (pteR ||| pteU ||| flags2perm flags) := by
  have h : Low (flags2perm flags) ∧ hasFlag (flags2perm flags) pteCow = false := by
    unfold flags2perm
    split <;> split <;> decide
  exact permOk_user h.1 h.2

/-- The pages of a loaded segment are mapped for `loadseg`. -/
theorem loadseg_spec (hi : Inv L v f' c m) (hr : v.root t = some pg) (ht : t ≠ .kernel)
    (hl : Loaded f f' t sz) (hva : va % 4096 = 0) {filesz : Nat} (hle : va + filesz ≤ sz) :
    Total (loadseg (4096 * pg) va file off filesz) m fun r m' =>
      ∃ c', Inv L v f' c' m' ∧ AgreeOff c c' t ∧ Spares L (fun _ => False) v m v m' ∧
        SegPost c c' t va filesz r fun bs => file.length < 2 ^ 32 →
          bs = (file.drop (off % 2 ^ 32)).take filesz := by
  have hsz := hl.bound hi ht
  have hsize := hl.size
  have hmod : filesz % 2 ^ 32 = filesz := Nat.mod_eq_of_lt (by omega)
  unfold loadseg
  rw [hmod]
  refine (loadsegLoop_spec hr ht hl.alone hva (Nat.mod_lt _ (by decide)) (by omega) (by omega)
    (fun vpn hv => ?_) _ hi rfl (by omega) ?_).imp ?_
  · refine hl.full vpn ?_
    unfold upPage
    omega
  · rw [pgSize_eq]
    omega
  · rintro r m' ⟨c', hi', hc', hs', hend⟩
    refine ⟨c', hi', hc', hs', ?_⟩
    rcases hend with h | ⟨h, bs, hlen, hbs, hread⟩
    · exact .inl h
    · exact .inr ⟨h, bs, hlen, hbs, fun hfile => hread hfile (.inl rfl)⟩

/-- The program headers of the loop, read as it reads them. -/
def progHdrs (file : List Byte) : Nat → Nat → List ProgHdr
  | 0, _ => []
  | n + 1, off =>
    ProgHdr.ofBytes (readi file off proghdrSize) :: progHdrs file n (off + proghdrSize)

/-- What loading the segments does to the entries and the contents of table
`t`, and to the size. A segment below the size so far maps no new page. -/
inductive Loads (file : List Byte) (t : TableId) :
    List ProgHdr → Entries → (Slot → Page) → Nat →
      Entries → (Slot → Page) → Nat → Prop
  | nil {f : Entries} {c : Slot → Page} {sz : Nat} :
      Loads file t [] f c sz f c sz
  | skip {ph : ProgHdr} {phs : List ProgHdr} {f f' : Entries}
      {c c' : Slot → Page} {sz sz' : Nat} (htype : ph.type ≠ elfProgLoad)
      (hs : Loads file t phs f c sz f' c' sz') : Loads file t (ph :: phs) f c sz f' c' sz'
  | load {ph : ProgHdr} {phs : List ProgHdr} {f f1 f' : Entries}
      {c c1 c' : Slot → Page} {sz sz1 sz' : Nat} {bs : List Byte} (htype : ph.type = elfProgLoad)
      (hmem : ph.filesz ≤ ph.memsz) (hal : ph.vaddr % 4096 = 0)
      (hmap : ph.vaddr + ph.memsz < sz ∧ sz1 = sz ∧ f1 = f ∨
        sz ≤ ph.vaddr + ph.memsz ∧ sz1 = ph.vaddr + ph.memsz ∧
          Grown f f1 t (upPage sz) (upPage sz1) (pteR ||| pteU ||| flags2perm ph.flags))
      (hlen : bs.length = ph.filesz) (hpoke : Poked c c1 t ph.vaddr bs)
      (hread : file.length < 2 ^ 32 → bs = (file.drop (ph.off % 2 ^ 32)).take ph.filesz)
      (hs : Loads file t phs f1 c1 sz1 f' c' sz') : Loads file t (ph :: phs) f c sz f' c' sz'

/-- All program headers were read, and their segments loaded. -/
def SegsPost (file : List Byte) (t : TableId) (n off : Nat) (f : Entries)
    (c : Slot → Page) (sz : Nat) (f' : Entries) (c' : Slot → Page)
    (sz' : Nat) : Prop :=
  (∀ k, k < n → (readi file (off + k * proghdrSize) proghdrSize).length = proghdrSize) ∧
    Loads file t (progHdrs file n off) f c sz f' c' sz'

/-- One header more at the front. -/
theorem SegsPost.cons {sz' : Nat} {f1 : Entries} {c1 : Slot → Page} {sz1 : Nat}
    (h : SegsPost file t n (off + proghdrSize) f1 c1 sz1 f' c' sz')
    (hlen : (readi file off proghdrSize).length = proghdrSize)
    (hload : Loads file t (progHdrs file n (off + proghdrSize)) f1 c1 sz1 f' c' sz' →
      Loads file t (progHdrs file (n + 1) off) f c sz f' c' sz') :
    SegsPost file t (n + 1) off f c sz f' c' sz' := by
  refine ⟨fun k hk => ?_, hload h.2⟩
  cases k with
  | zero => rw [Nat.zero_mul, Nat.add_zero, hlen]
  | succ k =>
    have := h.1 k (by omega)
    rwa [Nat.add_assoc, Nat.add_comm proghdrSize, ← Nat.succ_mul] at this

/-- The loop over the program headers. -/
theorem loadSegments_spec (hr : v.root t = some pg) (ht : t ≠ .kernel)
    (hheld : v.hnd (.held 0) = none) (n : Nat) :
    ∀ {off sz : Nat} {f' : Entries} {c : Slot → Page} {m : Mach},
    Inv L v f' c m → Loaded f f' t sz →
    Total (loadSegments L (4096 * pg) file n off sz) m fun r m' =>
      ∃ f'' c', Inv L v f'' c' m' ∧ Loaded f f'' t r.2 ∧ AgreeOff c c' t ∧
        Spares L (Mine t) v m v m' ∧ (r.1 = true → SegsPost file t n off f' c sz f'' c' r.2) := by
  induction n with
  | zero =>
    intro off sz f' c m hi hl
    exact meets_pure ⟨f', c, hi, hl, .refl, .refl, fun _ =>
      ⟨fun k hk => absurd hk (Nat.not_lt_zero k), .nil⟩⟩
  | succ n ih =>
    intro off sz f' c m hi hl
    unfold loadSegments
    dsimp only
    generalize hph : ProgHdr.ofBytes (readi file off proghdrSize) = ph
    have hstop : ∀ {sz1 : Nat} {f1 : Entries} {c1 : Slot → Page} {m1 : Mach},
        Inv L v f1 c1 m1 → Loaded f f1 t sz1 → AgreeOff c c1 t → Spares L (Mine t) v m v m1 →
        Total (pure (false, sz1) : M (Bool × Nat)) m1 fun r m' =>
          ∃ f'' c', Inv L v f'' c' m' ∧ Loaded f f'' t r.2 ∧ AgreeOff c c' t ∧
            Spares L (Mine t) v m v m' ∧
            (r.1 = true → SegsPost file t (n + 1) off f' c sz f'' c' r.2) :=
      fun hi1 hl1 hc1 hs1 => meets_pure ⟨_, _, hi1, hl1, hc1, hs1, fun h => by cases h⟩
    refine meets_ite (fun _ => hstop hi hl .refl .refl) (fun hfull => ?_)
    have hfull' : (readi file off proghdrSize).length = proghdrSize := by simpa using hfull
    refine meets_ite (fun htype => ?_) (fun htype => ?_)
    · refine (ih hi hl).imp ?_
      rintro r m' ⟨f'', c', hi', hl', hc', hs', hend⟩
      refine ⟨f'', c', hi', hl', hc', hs', fun hok => (hend hok).cons hfull' (fun h => ?_)⟩
      rw [progHdrs, hph]
      exact .skip htype h
    refine meets_ite (fun _ => hstop hi hl .refl .refl) (fun hfile => ?_)
    refine meets_ite (fun _ => hstop hi hl .refl .refl) (fun hwrap => ?_)
    refine meets_ite (fun _ => hstop hi hl .refl .refl) (fun hal => ?_)
    have hm : ph.memsz < 2 ^ 64 := by rw [← hph]; exact field_lt _ _
    have hend : u64 (ph.vaddr + ph.memsz) = ph.vaddr + ph.memsz := by
      unfold u64 at hwrap ⊢
      omega
    rw [pgSize_eq] at hal
    rw [hend]
    refine Meets.seq (uvmalloc_spec hi hr ht hheld hl.size (permOk_flags2perm ph.flags) hl.sized
      (.inr hl.mapped)) ?_
    -- go on with the image at its size after `uvmalloc`
    have hload : ∀ {sz1 : Nat} {f1 : Entries} {m1 : Mach},
        Inv L v f1 c m1 → Loaded f f1 t sz1 → Spares L (Mine t) v m v m1 →
        (ph.vaddr + ph.memsz < sz ∧ sz1 = sz ∧ f1 = f' ∨
          sz ≤ ph.vaddr + ph.memsz ∧ sz1 = ph.vaddr + ph.memsz ∧
            Grown f' f1 t (upPage sz) (upPage sz1) (pteR ||| pteU ||| flags2perm ph.flags)) →
        Total (do
          if (← loadseg (4096 * pg) ph.vaddr file ph.off ph.filesz) < 0 then return (false, sz1)
          else loadSegments L (4096 * pg) file n (off + proghdrSize) sz1) m1 fun r m' =>
            ∃ f'' c', Inv L v f'' c' m' ∧ Loaded f f'' t r.2 ∧ AgreeOff c c' t ∧
              Spares L (Mine t) v m v m' ∧
              (r.1 = true → SegsPost file t (n + 1) off f' c sz f'' c' r.2) := by
      intro sz1 f1 m1 hi1 hl1 hs1 hmap
      refine Meets.seq (loadseg_spec hi1 hr ht hl1 (by omega) (by omega)) ?_
      rintro r m2 ⟨c2, hi2, h2, hs2, rfl | ⟨rfl, bs, hlen, hpoke, hread⟩⟩
      · exact meets_if (by decide) (hstop hi2 hl1 h2 (hs1.trans hs2.any))
      refine (ih hi2 hl1).imp ?_
      rintro r m3 ⟨f3, c3, hi3, hl3, h3, hs3, hend3⟩
      refine ⟨f3, c3, hi3, hl3, h2.trans h3, (hs1.trans hs2.any).trans hs3, fun hok =>
        (hend3 hok).cons hfull' (fun h => ?_)⟩
      rw [progHdrs, hph]
      exact .load (by simpa using htype) (by omega) (by omega) hmap hlen hpoke hread h
    rintro r m1 (⟨hlt, rfl, rfl⟩ | ⟨hge, ⟨rfl, hi1, -⟩ | ⟨f1, rfl, hle1, hi1, hg, -⟩, hs1⟩)
    · exact meets_ite (fun _ => hstop hi hl .refl .refl)
        (fun _ => hload hi hl .refl (.inl ⟨hlt, rfl, rfl⟩))
    · exact meets_if rfl (hstop hi1 hl .refl hs1)
    · have hl1 := hl.grow hge hle1 hg
      refine meets_ite (fun h0 => ?_) (fun _ => hload hi1 hl1 hs1 (.inr ⟨hge, rfl, hg⟩))
      obtain rfl : sz = ph.vaddr + ph.memsz := by omega
      exact hstop hi1 hl1 .refl hs1

/-! ## The stack -/

/-- `copyout` beyond the address space fails at once. -/
theorem copyout_high {dstva : Nat} (hva : maxVa ≤ dstva) (hsrc : src ≠ []) :
    Total (copyout L p (4096 * pg) dstva src) m fun r m' => r = -1 ∧ m' = m := by
  cases src with
  | nil => exact absurd rfl hsrc
  | cons b bs =>
    unfold copyout
    refine meets_if ?_ (meets_pure ⟨rfl, rfl⟩)
    rw [maxVa_eq] at hva ⊢
    rw [pgRoundDown_eq]
    omega

/-- `copyout` within one page that is mapped writable: no fault is taken,
so that it does not matter whose page table it is. -/
theorem copyout_within (hi : Inv L v f c m) (hr : v.root t = some pg) (ht : t ≠ .kernel)
    {dstva : Nat} {w : Word} (hv : dstva / 4096 < userPages) (hw : f t (dstva / 4096) = some w)
    (hU : hasFlag w pteU = true) (hW : hasFlag w pteW = true) (hsrc : src ≠ [])
    (hlen : dstva % 4096 + src.length ≤ 4096) :
    Total (copyout L p (4096 * pg) dstva src) m fun r m' =>
      r = 0 ∧ ∃ c', Inv L v f c' m' ∧ Poked c c' t dstva src ∧
        Spares L (fun _ => False) v m v m' := by
  have hv' := hv
  rw [userPages_eq] at hv'
  have hs : uleaf f (t, ⟨dstva / 4096, hv⟩) = some w := by rw [uleaf_eq ht hv, hw]
  have hC : hasFlag w pteCow = false := hi.cow.wcow hs hW
  have hpos := (hi.base.ref_usable (uref_of_uleaf hs)).pos
  have hlf : lf m.mem v t (pgRoundDown dstva / 4096) = some w := by
    rw [pgRoundDown_div, hi.lf_eq, hw]
  have hdown : pgRoundDown dstva < maxVa := by
    rw [pgRoundDown_eq, maxVa_eq]
    omega
  cases src with
  | nil => exact absurd rfl hsrc
  | cons b bs =>
    have hn : min (pgSize - (dstva - pgRoundDown dstva)) (b :: bs).length = (b :: bs).length := by
      rw [pgSize_eq, pgRoundDown_eq]
      omega
    unfold copyout
    refine meets_else (by omega) ?_
    refine Meets.seq (walkaddr_spec hi.base.shape hr _) ?_
    rintro r m1 ⟨rfl, rfl⟩
    rw [userAddr_some hlf, if_pos hU]
    refine meets_else (by omega) ?_
    refine Meets.bind (meets_pure (meets_else (by omega) ?_))
    refine walk_found hr hdown hlf fun q ho hword hV => ?_
    refine meets_readPte ?_
    rw [hword, hV, hU, hC]
    refine Meets.bind (meets_pure (meets_else (by omega) ?_))
    refine Meets.bind (meets_pure (meets_readPte ?_))
    rw [hword, hW, hn]
    refine Meets.bind (meets_readPage (Meets.bind (meets_setPage ?_)))
    rw [List.drop_length, List.take_length]
    unfold copyoutLoop
    have hpoke := poked_page (c := c) (t := t) hv (dstva - pgRoundDown dstva) (b :: bs) (by
      rw [pgRoundDown_eq]
      omega)
    rw [pgRoundDown_add, hi.data, content_some (uref_of_uleaf hs)] at hpoke
    obtain ⟨-, -, hsp⟩ := hi.base.write_ref (uref_of_uleaf hs)
      (pageWrite (m1.mem (ppn w)) (dstva - pgRoundDown dstva) (b :: bs))
    exact meets_pure ⟨rfl, _, hi.store hs hW _, hpoke, hsp⟩

theorem pushDown_le (hn : n ≤ sp) (hsp : sp < 2 ^ 64) : pushDown sp n + n ≤ sp := by
  unfold pushDown u64Sub u64
  omega

/-- A push that wraps below address 0 ends far above the address space. -/
theorem pushDown_wrap (hn : sp < n) (hbig : n ≤ 2 ^ 32) : maxVa ≤ pushDown sp n := by
  rw [maxVa_eq]
  unfold pushDown u64Sub u64
  omega

theorem leBytes_length (k n : Nat) : (leBytes k n).length = k := by
  induction k generalizing n with
  | zero => rfl
  | succ k ih => rw [leBytes, List.length_cons, ih]

/-- Page `vpn` of table `t` is a stack page: the user may write it. -/
def StackPage (f : Entries) (t : TableId) (vpn : Nat) : Prop :=
  vpn < userPages ∧ ∃ w, f t vpn = some w ∧ hasFlag w pteU = true ∧ hasFlag w pteW = true

theorem pushDown_aligned (sp n : Nat) : pushDown sp n % 16 = 0 := by
  unfold pushDown
  omega

/-- One push: fail, or write `src` inside the stack page at `base`. -/
theorem push_spec (hi : Inv L v f c m) (hr : v.root t = some pg) (ht : t ≠ .kernel)
    (hbase : base % 4096 = 0) (hpage : StackPage f t (base / 4096)) (hsp : sp ≤ base + 4096)
    (hsrc : src ≠ []) (hlen : src.length ≤ 2 ^ 32) {α : Type} {kfail : M α} {k : M α}
    {Q : α → Mach → Prop} (hfail : Total kfail m Q)
    (hok : ∀ c' m', base ≤ pushDown sp src.length → pushDown sp src.length + src.length ≤ sp →
      Inv L v f c' m' → Poked c c' t (pushDown sp src.length) src →
      Spares L (fun _ => False) v m v m' → Total k m' Q) :
    Total (if pushDown sp src.length < base then kfail
      else do
        if (← copyout L p (4096 * pg) (pushDown sp src.length) src) < 0 then kfail else k) m Q := by
  obtain ⟨hv, w, hw, hU, hW⟩ := hpage
  have hv' := hv
  rw [userPages_eq] at hv'
  have hpos : 0 < src.length := List.length_pos_iff.mpr hsrc
  refine meets_ite (fun _ => hfail) (fun hge => ?_)
  by_cases hwrap : sp < src.length
  · refine Meets.seq (copyout_high (pushDown_wrap hwrap hlen) hsrc) ?_
    rintro r m' ⟨rfl, rfl⟩
    exact meets_if (by decide) hfail
  · have hle : pushDown sp src.length + src.length ≤ sp := pushDown_le (by omega) (by omega)
    have hdiv : pushDown sp src.length / 4096 = base / 4096 := by omega
    refine Meets.seq (copyout_within hi hr ht (by rw [hdiv]; exact hv) (by rw [hdiv]; exact hw) hU
      hW hsrc (by omega)) ?_
    rintro r m' ⟨rfl, c', hi', hc', hs'⟩
    exact meets_else (by decide) (hok c' m' (by omega) hle hi' hc' hs')

/-- The NUL-terminated string in the kernel page at `arg`. -/
def argStr (mem : Nat → Page) (arg : Nat) : List Byte :=
  (pageRead (mem (arg / pgSize)) 0 pgSize).takeWhile (· ≠ 0)

/-- The strings pushed from `sp` down, each at its address; the last one is
at `sp'`. -/
inductive Pushes (base : Nat) : List (List Byte) → Nat → List Nat → Nat → Prop
  | nil {sp : Nat} : Pushes base [] sp [] sp
  | cons {s : List Byte} {strs : List (List Byte)} {sp sp' : Nat} {us : List Nat}
      (hin : base ≤ pushDown sp (s.length + 1))
      (hroom : pushDown sp (s.length + 1) + (s.length + 1) ≤ sp)
      (hs : Pushes base strs (pushDown sp (s.length + 1)) us sp') :
      Pushes base (s :: strs) sp (pushDown sp (s.length + 1) :: us) sp'

theorem Pushes.le {sp' : Nat} {us : List Nat} (h : Pushes base strs sp us sp') (hb : base ≤ sp) :
    base ≤ sp' ∧ sp' ≤ sp ∧ us.length = strs.length := by
  induction h with
  | nil => exact ⟨hb, Nat.le_refl _, rfl⟩
  | cons hin hroom _ ih =>
    obtain ⟨h1, h2, h3⟩ := ih hin
    exact ⟨h1, by omega, by rw [List.length_cons, List.length_cons, h3]⟩

/-- The argument strings as they are written, each with its NUL. -/
def argWrites (us : List Nat) (strs : List (List Byte)) : List (Nat × List Byte) :=
  us.zip (strs.map (· ++ [0]))

/-- The strings are those of the argument pages, if these are held. -/
def ArgStrs (v : View) (mem : Nat → Page) (argv : List Nat) (strs : List (List Byte)) : Prop :=
  List.Forall₂ (fun arg s => (∃ h, h ≠ .held 0 ∧ v.hnd h = some (arg / pgSize)) →
    s = argStr mem arg) argv strs

/-- Held pages keep their strings. -/
theorem ArgStrs.before {argv : List Nat} {v' : View} (h : ArgStrs v' m'.mem argv strs)
    (hs : Spares L (Mine t) v m v' m') :
    ArgStrs v m.mem argv strs := by
  refine List.Forall₂.imp (fun arg s hstr => ?_) h
  rintro ⟨k, hk, hh⟩
  have hmine : ¬ Mine t (.hnd k) := by
    rintro (e | e)
    · exact hk (Owner.hnd.inj e)
    · exact e
  have hk' : v'.hnd k = some (arg / pgSize) := (hs.role hmine).trans hh
  rw [hstr ⟨k, hk, hk'⟩, argStr, argStr, hs.hnd hmine hh]

/-- The argument strings stay inside the stack page. -/
theorem pushArgs_spec (hr : v.root t = some pg) (ht : t ≠ .kernel) (hbase : base % 4096 = 0)
    (hpage : StackPage f t (base / 4096)) (argv : List Nat) :
    ∀ {argc sp : Nat} {ustack : List Nat} {c : Slot → Page} {m : Mach}, Inv L v f c m →
    sp ≤ base + 4096 → argc ≤ maxArg → ustack.length = argc →
    Total (pushArgs L p (4096 * pg) base argv argc sp ustack) m fun r m' =>
      ∃ c' ws, Inv L v f c' m' ∧ Pokes t ws c c' ∧ Spares L (fun _ => False) v m v m' ∧
        (∀ w ∈ ws, base ≤ w.1) ∧
        (r = none ∨ ∃ sp' us strs, r = some (sp', ustack ++ us) ∧
          (ustack ++ us).length ≤ maxArg ∧ us.length = argv.length ∧ Pushes base strs sp us sp' ∧
          ws = argWrites us strs ∧ ArgStrs v m.mem argv strs) := by
  induction argv with
  | nil =>
    intro argc sp ustack c m hi h2 hargc hus
    exact meets_pure ⟨c, [], hi, .nil, .refl, by simp, .inr ⟨sp, [], [], by simp,
      by rw [List.append_nil]; omega, rfl, .nil, rfl, .nil⟩⟩
  | cons arg argv ih =>
    intro argc sp ustack c m hi h2 hargc hus
    refine meets_ite (fun _ => meets_pure ⟨c, [], hi, .nil, .refl, by simp, .inl rfl⟩)
      (fun hlt => ?_)
    refine Meets.bind (Meets.bind (meets_read (meets_pure (meets_pure ?_))))
    generalize hstr : (pageRead (m.mem (arg / pgSize)) 0 pgSize).takeWhile (· ≠ 0) = str
    have hlen : str.length ≤ 4096 := by
      rw [← hstr]
      refine Nat.le_trans (List.takeWhile_sublist _).length_le ?_
      rw [pageRead, List.length_map, List.length_range, pgSize_eq]
    have hlen1 : str.length + 1 = (str ++ [0]).length := by
      rw [List.length_append]
      rfl
    rw [hlen1]
    refine push_spec hi hr ht hbase hpage h2 (by simp) (by omega)
      (meets_pure ⟨c, [], hi, .nil, .refl, by simp, .inl rfl⟩)
      (fun c' m' hin hroom hi' hpoke hs' => ?_)
    rw [← hlen1] at hin hroom hpoke ⊢
    refine (ih hi' (by omega) (by omega) (by rw [List.length_append, hus]; rfl)).imp ?_
    rintro r m'' ⟨c'', ws, hi'', hws, hs'', hbelow, hend⟩
    refine ⟨c'', (pushDown sp (str.length + 1), str ++ [0]) :: ws, hi'', .cons hpoke hws,
      hs'.trans hs'', ?_, ?_⟩
    · intro w hw
      rcases List.mem_cons.mp hw with rfl | hw
      · exact hin
      · exact hbelow w hw
    rcases hend with h | ⟨sp', us, strs, h, h3, h4, h5, rfl, h6⟩
    · exact .inl h
    · refine .inr ⟨sp', pushDown sp (str.length + 1) :: us, str :: strs, ?_, ?_, ?_,
        .cons hin hroom h5, rfl, .cons (fun _ => hstr.symm) (h6.before (t := t) hs'.any)⟩
      · rw [h, List.append_assoc]
        rfl
      · rw [List.append_assoc] at h3
        exact h3
      · rw [List.length_cons, List.length_cons, h4]

/-- How the stack of an image came about: two pages above the image of
`sz` bytes, the lower one closed to the user, and the arguments in the
upper one. -/
structure Stacked (argv : List Nat) (v : View) (mem : Nat → Page) (t : TableId)
    (f1 : Entries) (c1 : Slot → Page) (sz : Nat) (img : Image)
    (f' : Entries) (c' : Slot → Page) (strs : List (List Byte))
    (us : List Nat) (sp : Nat) : Prop where
  size : img.sz = upPage sz * 4096 + 8192
  below : ∀ vpn, vpn < upPage sz → f' t vpn = f1 t vpn
  guard : ∃ w, f' t (upPage sz) = some w ∧ hasFlag w pteU = false
  stack : StackPage f' t (upPage sz + 1)
  strings : ArgStrs v mem argv strs
  count : us.length = argv.length
  pushes : Pushes (upPage sz * 4096 + 4096) strs (upPage sz * 4096 + 8192) us sp
  spEq : img.sp = pushDown sp ((argv.length + 1) * 8)
  spIn : upPage sz * 4096 + 4096 ≤ img.sp
  spRoom : img.sp + (argv.length + 1) * 8 ≤ sp
  argc : img.argc = argv.length
  writes : Pokes t (argWrites us strs ++ [(img.sp, (us ++ [0]).flatMap (leBytes 8))]) c1 c'

/-- How the whole image came about, from a file that is not too big. -/
structure Imaged (file : List Byte) (argv : List Nat) (v : View) (mem : Nat → Page) (t : TableId)
    (c : Slot → Page) (img : Image) (f' : Entries) (c' : Slot → Page)
    (f0 f1 : Entries) (c1 : Slot → Page) (sz : Nat)
    (strs : List (List Byte)) (us : List Nat) (sp : Nat) : Prop
    extends Stacked argv v mem t f1 c1 sz img f' c' strs us sp where
  header : (readi file 0 elfhdrSize).length = elfhdrSize
  magic : (ElfHdr.ofBytes (readi file 0 elfhdrSize)).magic = elfMagic
  entry : img.entry = (ElfHdr.ofBytes (readi file 0 elfhdrSize)).entry
  fresh : Sized f0 t 0
  loads : SegsPost file t (ElfHdr.ofBytes (readi file 0 elfhdrSize)).phnum
    (ElfHdr.ofBytes (readi file 0 elfhdrSize)).phoff f0 c 0 f1 c1 sz

/-- The entries of an image of `u` pages that has its guard page and its stack
page. -/
structure StackRoom (f f' f2 : Entries) (t : TableId) (u : Nat) : Prop where
  other : ∀ t', t' ≠ t → f2 t' = f t'
  top : u * 4096 + 8192 ≤ trapframeVa
  sized : Sized f2 t (u * 4096 + 8192)
  below : ∀ vpn, vpn < u → f2 t vpn = f' t vpn
  guard : ∃ w, f2 t u = some w ∧ hasFlag w pteU = false
  stack : StackPage f2 t (u + 1)

/-- The size may be rounded up. -/
theorem Loaded.round (hl : Loaded f f' t sz) : Loaded f f' t (upPage sz * 4096) := by
  have hup := upPage_le hl.size
  rw [userPages_eq] at hup
  have hupup : upPage (upPage sz * 4096) = upPage sz := by
    unfold upPage
    omega
  refine ⟨hl.other, by rw [trapframeVa_eq]; omega, ?_, ?_, hl.alone⟩
  · unfold Sized
    rw [hupup]
    exact hl.sized
  · rw [hupup]
    exact hl.full

/-- Two new pages, the lower of them not for the user. -/
theorem Loaded.stackRoom {f1 : Entries} {u : Nat} {w : Word} (hl : Loaded f f' t (u * 4096))
    (htop : u * 4096 + 8192 ≤ trapframeVa)
    (hg : Grown f' f1 t (upPage (u * 4096)) (upPage (u * 4096 + 8192)) (pteR ||| pteU ||| pteW)) :
    StackRoom f f' (setEntry f1 t u (some (w &&& ~~~pteU))) t u := by
  have hl2 := hl.grow (Nat.le_add_right ..) htop hg
  have hlow : upPage (u * 4096) = u := by
    unfold upPage
    omega
  have hhigh : upPage (u * 4096 + 8192) = u + 2 := by
    unfold upPage
    omega
  obtain ⟨pg1, hp1⟩ := hg.new (n := u + 1) (by omega) (by omega)
  refine ⟨fun t' ht' => ?_, htop, fun vpn h1 h2 => ?_, fun vpn hv => ?_,
    ⟨_, setEntry_self .., hasFlag_clear_self _ _⟩, ?_,
    mkPte pg1 (pteR ||| pteU ||| pteW), ?_, ?_, ?_⟩
  · rw [setEntry_table ht', hl2.other t' ht']
  · rw [setEntry_vpn (by omega)]
    exact hl2.sized vpn h1 h2
  · rw [setEntry_vpn (by omega)]
    exact hg.out (by omega)
  · rw [trapframeVa_eq] at htop
    rw [userPages_eq]
    omega
  · rw [setEntry_vpn (by omega), hp1]
  · rw [hasFlag_mkPte _ _ (by decide)]
    decide
  · rw [hasFlag_mkPte _ _ (by decide)]
    decide

/-- What a call of `kexecImage` from `m` on leaves: everything as it was, or
the image, as `built` describes it. -/
def ImageEnd (L : Layout) (v : View) (f : Entries) (c : Slot → Page)
    (t : TableId) (m : Mach) (built : Image → Entries → (Slot → Page) → Prop)
    (r : Option Image) (m' : Mach) : Prop :=
  (r = none ∧ Inv L v f c m' ∧ Spares L (Mine t) v m v m') ∨
    ∃ img p f' c', r = some img ∧ img.pagetable = 4096 * p ∧ L.Usable p ∧
      Inv L (v.setRoot t (some p)) f' c' m' ∧ (∀ t', t' ≠ t → f' t' = f t') ∧
      img.sz ≤ trapframeVa ∧ Sized f' t img.sz ∧ AgreeOff c c' t ∧
      Spares L (Mine t) v m (v.setRoot t (some p)) m' ∧ built img f' c'

section Image

variable {p : Nat} (hi0 : Inv L v f c m) (hr0 : v.root t = none) (ht : t ≠ .kernel)
  {built : Image → Entries → (Slot → Page) → Prop}
include hi0 hr0 ht

/-- The `bad` exit leaves nothing behind. -/
theorem execBad_spec (hi : Inv L (v.setRoot t (some p)) f' c' m')
    (hother : ∀ t', t' ≠ t → f' t' = f t') (hsz : sz ≤ trapframeVa) (hsized : Sized f' t sz)
    (hc : AgreeOff c c' t) (hs : Spares L (Mine t) v m (v.setRoot t (some p)) m') :
    Total (execBad L (4096 * p) sz) m' (ImageEnd L v f c t m built) := by
  have hr : (v.setRoot t (some p)).root t = some p := by simp
  have hf : (update f' t fun _ => none) = f := by
    funext t'
    by_cases h : t' = t
    · rw [h, update_self]
      exact (funext (hi0.root_none hr0)).symm
    · rw [update_of_ne h, hother t' h]
  have hcl : clearTable c' t = c := by
    rw [← (hi0.cleared hr0).2]
    funext s
    unfold clearTable
    split
    · rfl
    · rename_i hs
      exact hc s hs
  refine Meets.seq (procFreepagetable_spec hi hr ht hsz hsized) ?_
  rintro - m'' ⟨hi'', hs''⟩
  rw [View.setRoot_back hr0] at hi'' hs''
  rw [hf, hcl] at hi''
  exact meets_pure (.inl ⟨rfl, hi'', hs.trans hs''⟩)

/-- The arguments go onto the stack. -/
theorem execArgs_spec (hu : L.Usable p) (hi : Inv L (v.setRoot t (some p)) f2 c' m')
    (hf : StackRoom f f' f2 t (upPage sz)) (hc : AgreeOff c c' t)
    (hs : Spares L (Mine t) v m (v.setRoot t (some p)) m')
    {pm : Mm} {entry : Nat} {argv : List Nat} (hA : upPage sz * 4096 = A)
    (hbuilt : ∀ img c2 strs us sp, img.entry = entry →
      Stacked argv v m.mem t f' c' sz img f2 c2 strs us sp → built img f2 c2) :
    Total (do
      match ← pushArgs L pm (4096 * p) (A + 4096) argv 0 (A + 8192) [] with
      | none => execBad L (4096 * p) (A + 8192)
      | some (sp, ustack) =>
        let sp := pushDown sp ((argv.length + 1) * 8)
        if sp < A + 4096 then execBad L (4096 * p) (A + 8192)
        else if (← copyout L pm (4096 * p) sp ((ustack ++ [0]).flatMap (leBytes 8))) < 0 then
          execBad L (4096 * p) (A + 8192)
        else return some ⟨4096 * p, A + 8192, entry, sp, argv.length⟩) m'
      (ImageEnd L v f c t m built) := by
  have hr : (v.setRoot t (some p)).root t = some p := by simp
  have htop := hf.top
  have hsized := hf.sized
  rw [hA] at htop hsized
  have hpage : StackPage f2 t ((A + 4096) / 4096) := by
    rw [show (A + 4096) / 4096 = upPage sz + 1 by omega]
    exact hf.stack
  have hbad : ∀ c3 m3, Inv L (v.setRoot t (some p)) f2 c3 m3 → AgreeOff c c3 t →
      Spares L (fun _ => False) (v.setRoot t (some p)) m' (v.setRoot t (some p)) m3 →
      Total (execBad L (4096 * p) (A + 8192)) m3 (ImageEnd L v f c t m built) :=
    fun c3 m3 hi3 hc3 hs3 =>
      execBad_spec hi0 hr0 ht hi3 hf.other htop hsized hc3 (hs.trans hs3.any)
  refine Meets.seq (pushArgs_spec hr ht (by omega) hpage argv hi (by omega) (Nat.zero_le _) rfl) ?_
  rintro r m3 ⟨c3, ws, hi3, hws, hs3, -, rfl | ⟨sp, us, strs, rfl, hmax, hlen, hpush, rfl, hstr⟩⟩
  · exact hbad c3 m3 hi3 (hc.trans hws.agreeOff) hs3
  · rw [List.nil_append] at hmax ⊢
    have hwords : ((us ++ [0]).flatMap (leBytes 8)).length = (argv.length + 1) * 8 := by
      rw [List.length_flatMap]
      simp only [leBytes_length, List.map_const', List.sum_replicate, List.length_append,
        List.length_singleton, hlen]
      rw [Nat.nsmul_eq_mul]
    obtain ⟨hsp1, hsp2, -⟩ := hpush.le (by omega)
    unfold maxArg at hmax
    rw [← hwords]
    refine push_spec hi3 hr ht (by omega) hpage (by omega) ?_ ?_
      (hbad c3 m3 hi3 (hc.trans hws.agreeOff) hs3)
      (fun c4 m4 hin hroom hi4 hc4 hs4 => meets_pure (.inr ⟨_, p, f2, c4, rfl, rfl, hu, hi4,
        hf.other, htop, hsized, (hc.trans hws.agreeOff).trans hc4.agreeOff,
        (hs.trans hs3.any).trans hs4.any, ?_⟩))
    · intro h
      rw [h] at hwords
      simp at hwords
    · omega
    · rw [hwords] at hin hroom
      exact hbuilt _ c4 strs us sp rfl
        { size := by rw [hA], below := hf.below, guard := hf.guard, stack := hf.stack,
          strings := hstr.before hs, count := hlen, pushes := by rw [hA]; exact hpush,
          spEq := by rw [hwords], spIn := by dsimp only; rw [hA, hwords]; exact hin,
          spRoom := by dsimp only; rw [hwords]; exact hroom, argc := rfl,
          writes := hws.append (.cons hc4 .nil) }

/-- The stack is added to a loaded image. -/
theorem execStack_spec (hu : L.Usable p) (hheld : v.hnd (.held 0) = none)
    (hi : Inv L (v.setRoot t (some p)) f' c' m') (hl : Loaded f f' t sz) (hc : AgreeOff c c' t)
    (hs : Spares L (Mine t) v m (v.setRoot t (some p)) m')
    {pm : Mm} {entry : Nat} {argv : List Nat}
    (hbuilt : ∀ img f2 c2 strs us sp, img.entry = entry →
      Stacked argv v m.mem t f' c' sz img f2 c2 strs us sp → built img f2 c2) :
    Total (execStack L pm (4096 * p) sz entry argv) m' (ImageEnd L v f c t m built) := by
  have hr : (v.setRoot t (some p)).root t = some p := by simp
  obtain ⟨A, hA⟩ : ∃ A, upPage sz * 4096 = A := ⟨_, rfl⟩
  have hl1 := hl.round
  rw [hA] at hl1
  have hle := hl1.size
  rw [trapframeVa_eq] at hle
  have hnew : u64 (A + (userStack + 1) * pgSize) = A + 8192 := by
    rw [u64_of_lt (by unfold userStack; rw [pgSize_eq]; omega)]
    rfl
  unfold execStack
  rw [pgRoundUp_eq hl.size, hA]
  dsimp only
  rw [hnew]
  refine Meets.seq (uvmalloc_spec hi hr ht hheld hl1.size
    (by exact permOk_user (by decide) (by decide)) hl1.sized (.inr hl1.mapped)) ?_
  rintro r m1 (⟨hlt, -, -⟩ | ⟨-, ⟨rfl, hi1, -⟩ | ⟨f1, rfl, hle1, hi1, hg, -⟩, hs1⟩)
  · omega
  · exact meets_if rfl (execBad_spec hi0 hr0 ht hi1 hl.other hl1.size hl1.sized hc (hs.trans hs1))
  have htop := hle1
  rw [trapframeVa_eq] at htop
  have hguard : u64Sub (A + 8192) ((userStack + 1) * pgSize) = A := by
    unfold u64Sub u64 userStack
    rw [pgSize_eq]
    omega
  have hstack : u64Sub (A + 8192) (userStack * pgSize) = A + 4096 := by
    unfold u64Sub u64 userStack
    rw [pgSize_eq]
    omega
  rw [hguard, hstack]
  have hgdiv : A / 4096 = upPage sz := by omega
  obtain ⟨pg0, hp0⟩ := hg.new (n := A / 4096) (by unfold upPage; omega) (by unfold upPage; omega)
  refine Meets.seq (uvmclear_spec hi1 hr ht (by rw [userPages_eq]; omega) hp0) ?_
  rintro - m2 ⟨hi2, hs2⟩
  rw [hgdiv] at hi2
  subst hA
  exact execArgs_spec hi0 hr0 ht hu hi2 (hl1.stackRoom hle1 hg) hc ((hs.trans hs1).trans hs2.any)
    rfl fun img c2 strs us sp => hbuilt img _ c2 strs us sp

end Image

/-- `kexec` up to its commit. -/
theorem kexecImage_end (hi : Inv L v f c m) (hheld : v.hnd (.held 0) = none)
    (hr : v.root t = none) (ht : t ≠ .kernel) (pm : Mm) (tf : Nat) (file : Option (List Byte))
    (argv : List Nat) :
    Total (kexecImage L pm (4096 * tf) file argv) m
      (ImageEnd L v f c t m fun img f' c' => ∃ bytes f0 f1 c1 sz strs us sp, file = some bytes ∧
        Imaged bytes argv v m.mem t c img f' c' f0 f1 c1 sz strs us sp) := by
  cases file with
  | none => exact meets_pure (.inl ⟨rfl, hi, .refl⟩)
  | some file =>
    refine meets_ite (fun _ => meets_pure (.inl ⟨rfl, hi, .refl⟩)) (fun hhdr => ?_)
    refine meets_ite (fun _ => meets_pure (.inl ⟨rfl, hi, .refl⟩)) (fun hmagic => ?_)
    refine Meets.seq (procPagetable_spec hi hheld hr ht tf) ?_
    rintro r m1 (⟨rfl, hi1, hs1⟩ | ⟨p, f1, rfl, hu, hi1, hother, hsized, hs1⟩)
    · exact meets_if rfl (meets_pure (.inl ⟨rfl, hi1, hs1⟩))
    have hpos := hu.pos
    refine meets_else (by omega) ?_
    have hr1 : (v.setRoot t (some p)).root t = some p := by simp
    have hl1 : Loaded f f1 t 0 := by
      refine ⟨hother, Nat.zero_le _, hsized, fun vpn hv => absurd hv (Nat.not_lt_zero _), ?_⟩
      intro s s' q hs hq
      have hnone : uref f1 s = none := by
        unfold uref uleaf
        split
        · rfl
        · rw [hs, hsized s.2 (Nat.zero_le _) s.2.isLt]
          rfl
      rw [hnone] at hq
      cases hq
    refine Meets.seq (loadSegments_spec hr1 ht hheld _ hi1 hl1) ?_
    rintro ⟨ok, sz⟩ m2 ⟨f2, c2, hi2, hl2, hc2, hs2, hsegs⟩
    refine meets_ite (fun _ => ?_) (fun hok => ?_)
    · exact execBad_spec hi hr ht hi2 hl2.other hl2.size hl2.sized hc2 (hs1.trans hs2)
    · refine execStack_spec hi hr ht hu hheld hi2 hl2 hc2 (hs1.trans hs2)
        (fun img f3 c3 strs us sp hentry hst => ?_)
      exact ⟨file, f1, f2, c2, sz, strs, us, sp, rfl, hst, by simpa using hhdr,
        by simpa using hmagic, hentry, hsized, hsegs (by simpa using hok)⟩

/-! ## Argument pages -/

/-- The argument pages `ps` are held, from argument `k` on. -/
def View.holdArgs (v : View) (k : Nat) (ps : List Nat) : View where
  root := v.root
  hnd
    | .arg j => if j < k then none else ps[j - k]?
    | h => v.hnd h

section Args

variable (hargs : ∀ k, v.hnd (.arg k) = none)

/-- `h` is no argument's handle. -/
theorem View.holdArgs_hnd {k : Nat} {ps : List Nat} {h : Handle} (hne : ∀ j, h ≠ .arg j) :
    (v.holdArgs k ps).hnd h = v.hnd h := by
  cases h with
  | arg j => exact absurd rfl (hne j)
  | _ => rfl

include hargs in
theorem View.holdArgs_nil (k : Nat) : v.holdArgs k [] = v := by
  cases v with
  | mk root hnd =>
    refine View.mk.injEq .. |>.mpr ⟨rfl, funext fun h => ?_⟩
    cases h with
    | arg j =>
      rw [show hnd (.arg j) = none from hargs j]
      simp
    | _ => rfl

theorem View.holdArgs_snoc (ps : List Nat) (p : Nat) :
    (v.holdArgs 0 ps).setHnd (.arg ps.length) (some p) = v.holdArgs 0 (ps ++ [p]) := by
  refine View.mk.injEq .. |>.mpr ⟨rfl, funext fun h => ?_⟩
  cases h with
  | arg j =>
    by_cases hj : j = ps.length
    · subst hj
      simp [View.holdArgs]
    · rw [update_of_ne (by simpa using hj)]
      simp only [View.holdArgs, Nat.not_lt_zero, if_false, Nat.sub_zero]
      by_cases hlt : j < ps.length
      · rw [List.getElem?_append_left hlt]
      · rw [List.getElem?_eq_none (by omega), List.getElem?_eq_none (by simp; omega)]
  | _ => rfl

theorem View.holdArgs_tail (k p : Nat) (ps : List Nat) :
    (v.holdArgs k (p :: ps)).setHnd (.arg k) none = v.holdArgs (k + 1) ps := by
  refine View.mk.injEq .. |>.mpr ⟨rfl, funext fun h => ?_⟩
  cases h with
  | arg j =>
    by_cases hj : j = k
    · subst hj
      simp [View.holdArgs]
    · rw [update_of_ne (by simpa using hj)]
      simp only [View.holdArgs]
      by_cases hlt : j < k
      · rw [if_pos hlt, if_pos (by omega)]
      · rw [if_neg hlt, if_neg (by omega), show j - k = j - (k + 1) + 1 by omega,
          List.getElem?_cons_succ]
  | _ => rfl

theorem fetchaddr_spec (hi : Inv L v f c m) (hr : v.root t = some pg) (ht : t ≠ .kernel)
    (hheld : v.hnd (.held 0) = none) (hsz : sz ≤ trapframeVa) (addr : Nat) :
    Total (fetchaddr L ⟨sz, 4096 * pg⟩ addr) m fun _ m' =>
      ∃ f', Inv L v f' c m' ∧ Faulted f f' t sz := by
  refine meets_ite (fun _ => meets_pure ⟨f, hi, .refl⟩) (fun _ => ?_)
  refine Meets.seq (copyin_spec hi hr ht hheld hsz _ _) ?_
  rintro ⟨r, bytes⟩ m' ⟨f', k, hi', hf', -⟩
  exact meets_ite (fun _ => meets_pure ⟨f', hi', hf'⟩) (fun _ => meets_pure ⟨f', hi', hf'⟩)

theorem fetchstr_spec (hi : Inv L v f c m) (hr : v.root t = some pg) (ht : t ≠ .kernel) {h : Handle}
    {buf : Nat} (hh : v.hnd h = some buf) (addr max : Nat) :
    Total (fetchstr ⟨sz, 4096 * pg⟩ addr (4096 * buf) max) m fun _ m' => Inv L v f c m' := by
  refine Meets.seq (copyinstr_spec hi hr ht addr max) ?_
  rintro ⟨r, bytes⟩ m' ⟨rfl, -⟩
  exact Meets.bind (meets_readPage (Meets.bind (meets_setPage (meets_pure (hi.write_hnd hh _)))))

/-- The pages `sys_exec` has collected are the ones it holds. -/
theorem fetchArgs_spec (hr : v.root t = some pg) (ht : t ≠ .kernel)
    (hheld : v.hnd (.held 0) = none) (hsz : sz ≤ trapframeVa) {uargv : Nat} (n : Nat) :
    ∀ {i : Nat} {f : Entries} {ps : List Nat} {m : Mach},
    Inv L (v.holdArgs 0 ps) f c m →
    Total (fetchArgs L ⟨sz, 4096 * pg⟩ uargv n i (ps.map (4096 * ·))) m fun r m' =>
      ∃ f' ps', Inv L (v.holdArgs 0 ps') f' c m' ∧ Faulted f f' t sz ∧
        r.2 = ps'.map (4096 * ·) := by
  induction n with
  | zero =>
    intro i f ps m hi
    exact meets_pure ⟨f, ps, hi, .refl, rfl⟩
  | succ n ih =>
    intro i f ps m hi
    have hheld' : (v.holdArgs 0 ps).hnd (.held 0) = none := by
      rw [View.holdArgs_hnd (by simp), hheld]
    refine Meets.seq (fetchaddr_spec hi hr ht hheld' hsz _) ?_
    rintro r m1 ⟨f1, hi1, hf1⟩
    cases r with
    | none => exact meets_pure ⟨f1, ps, hi1, hf1, rfl⟩
    | some uarg =>
      refine meets_ite (fun _ => meets_pure ⟨f1, ps, hi1, hf1, rfl⟩) (fun _ => ?_)
      have hfree : (v.holdArgs 0 ps).hnd (.arg ps.length) = none := by simp [View.holdArgs]
      refine Meets.seq (hi1.kalloc hfree) ?_
      rintro r m2 (⟨rfl, rfl, -⟩ | ⟨p, rfl, hu, hi2, -⟩)
      · exact meets_if rfl (meets_pure ⟨f1, ps, hi1, hf1, rfl⟩)
      have := hu.pos
      refine meets_else (by omega) ?_
      rw [View.holdArgs_snoc] at hi2
      have hh : (v.holdArgs 0 (ps ++ [p])).hnd (.arg ps.length) = some p := by
        simp [View.holdArgs]
      have hmap : ps.map (4096 * ·) ++ [4096 * p] = (ps ++ [p]).map (4096 * ·) := by simp
      refine Meets.seq (fetchstr_spec hi2 hr ht hh uarg pgSize) ?_
      intro r m3 hi3
      rw [hmap]
      refine meets_ite (fun _ => ?_) (fun _ => meets_pure ⟨f1, ps ++ [p], hi3, hf1, rfl⟩)
      refine (ih hi3).imp ?_
      rintro r m4 ⟨f4, ps4, hi4, hf4, hps⟩
      exact ⟨f4, ps4, hi4, hf1.trans hf4, hps⟩

include hargs in
/-- Every argument page is given back. -/
theorem freeArgs_spec (ps : List Nat) : ∀ {k : Nat} {m : Mach}, Inv L (v.holdArgs k ps) f c m →
    Total (freeArgs L (ps.map (4096 * ·))) m fun _ m' => Inv L v f c m' := by
  induction ps with
  | nil =>
    intro k m hi
    rw [View.holdArgs_nil hargs] at hi
    exact meets_pure hi
  | cons p ps ih =>
    intro k m hi
    have hh : (v.holdArgs k (p :: ps)).hnd (.arg k) = some p := by simp [View.holdArgs]
    refine Meets.seq (hi.kfree_hnd hh) ?_
    rintro - m1 ⟨hi1, -⟩
    rw [View.holdArgs_tail] at hi1
    exact ih hi1

end Args

/-! ## Committing -/

/-- The view in which table `t` goes by the name `σ t` had before. -/
def View.relabel (v : View) (σ : TableId ≃ TableId) : View := { v with root := v.root ∘ σ }

def Owner.relabel (σ : TableId ≃ TableId) : Owner → Owner
  | .root t => .root (σ t)
  | .mid t i => .mid (σ t) i
  | .low t i j => .low (σ t) i j
  | .hnd h => .hnd h

def Slot.relabel (σ : TableId ≃ TableId) (s : Slot) : Slot := (σ s.1, s.2)

section Relabel

variable {σ : TableId ≃ TableId} {mem : Nat → Page}

theorem Owner.relabel_symm (o : Owner) : (o.relabel σ.symm).relabel σ = o := by
  cases o <;> simp [Owner.relabel]

theorem Owner.relabel_injective : Injective (Owner.relabel σ) := by
  refine Function.LeftInverse.injective (g := Owner.relabel σ.symm) (fun o => ?_)
  cases o <;> simp [Owner.relabel]

theorem Slot.relabel_injective : Injective (Slot.relabel σ) := by
  intro s s' h
  simp only [Slot.relabel, Prod.mk.injEq, EmbeddingLike.apply_eq_iff_eq] at h
  exact Prod.ext h.1 h.2

theorem own_relabel (o : Owner) : own mem (v.relabel σ) o = own mem v (o.relabel σ) := by
  cases o <;> rfl

theorem lf_relabel (t : TableId) : lf mem (v.relabel σ) t = lf mem v (σ t) := rfl

variable (hσ : ∀ t, σ t = .kernel ↔ t = .kernel)
include hσ

theorem uleaf_relabel (s : Slot) : uleaf (f ∘ σ) s = uleaf f (s.relabel σ) := by
  unfold uleaf Slot.relabel
  by_cases h : s.1 = .kernel
  · rw [if_pos h, if_pos ((hσ _).mpr h)]
  · rw [if_neg h, if_neg (fun e => h ((hσ _).mp e))]
    rfl

theorem uref_relabel (s : Slot) : uref (f ∘ σ) s = uref f (s.relabel σ) := by
  unfold uref
  rw [uleaf_relabel hσ]

/-- Renaming user tables keeps the invariant. -/
theorem Inv.relabel (hi : Inv L v f c m) : Inv L (v.relabel σ) (f ∘ σ) (c ∘ Slot.relabel σ) m := by
  have href : uref (f ∘ σ) = uref f ∘ Slot.relabel σ := funext (uref_relabel hσ)
  refine ⟨?_, ⟨?_, hi.base.free, hi.base.usable, ?_⟩, ?_, fun s => ?_⟩
  · funext t
    rw [lf_relabel, hi.lf_eq]
    rfl
  · rw [href, show own m.mem (v.relabel σ) = own m.mem v ∘ Owner.relabel σ from funext own_relabel]
    refine hi.base.exact.comp ⟨Slot.relabel_injective, fun s => ⟨(σ.symm s.1, s.2), ?_⟩⟩
      ⟨Owner.relabel_injective, fun o => ⟨_, Owner.relabel_symm o⟩⟩
    exact Prod.ext (σ.apply_symm_apply s.1) rfl
  · have hs := hi.base.shape
    refine ⟨fun i h => hs.dirMid i h, fun j h => hs.dirLow (t := σ _) j (own_relabel _ ▸ h),
      fun t i h => (own_relabel _).trans (hs.top (σ t) i h), fun h => ?_⟩
    obtain ⟨hR, hU⟩ := hs.leaf h
    exact ⟨hR, fun hk => hU (hk.imp_left (hσ _).mpr)⟩
  · rw [show uleaf (f ∘ σ) = uleaf f ∘ Slot.relabel σ from funext (uleaf_relabel hσ)]
    constructor
    · intro s s' w w' h1 hW h2 hp
      exact Slot.relabel_injective (hi.cow.excl h1 hW h2 hp)
    · intro s w h
      exact hi.cow.wcow h
    · intro s s' w w' h1 h2 hp
      exact hi.cow.same (s := s.relabel σ) (r := s'.relabel σ) h1 h2 hp
  · rw [comp_apply, hi.data, content, content, uref_relabel hσ]

end Relabel

/-- `kexec`'s commit: the new table takes the name of the old one, `t`. -/
theorem Inv.commit {p : Nat} (hi : Inv L (v.setRoot .exec (some p)) f' c' m) (ht : t ≠ .kernel)
    (hte : t ≠ .exec) (hr : v.root t = some pg) (hother : ∀ t', t' ≠ .exec → f' t' = f t')
    (hc : AgreeOff c c' .exec) :
    ∃ f'' c'', Inv L ((v.setRoot t (some p)).setRoot .exec (some pg)) f'' c'' m ∧
      (∀ t', t' ≠ t → t' ≠ .exec → f'' t' = f t') ∧ f'' t = f' .exec ∧ f'' .exec = f t ∧
      (∀ sl : Slot, sl.1 ≠ t → sl.1 ≠ .exec → c'' sl = c sl) ∧
      ∀ vpn, c'' (t, vpn) = c' (.exec, vpn) := by
  have hσ : ∀ t', Equiv.swap t .exec t' = .kernel ↔ t' = .kernel := by
    intro t'
    rw [Equiv.swap_apply_def]
    split
    · rename_i e
      simp [e, ht]
    · split
      · rename_i e
        simp [e, ht]
      · rfl
  have hview : (v.setRoot .exec (some p)).relabel (Equiv.swap t .exec) =
      (v.setRoot t (some p)).setRoot .exec (some pg) := by
    have hroot : update v.root .exec (some p) ∘ Equiv.swap t .exec =
        update (update v.root t (some p)) .exec (some pg) := by
      funext t'
      rw [comp_apply]
      by_cases h1 : t' = t
      · rw [h1, Equiv.swap_apply_left, update_self, update_of_ne hte, update_self]
      by_cases h2 : t' = .exec
      · rw [h2, Equiv.swap_apply_right, update_self, update_of_ne hte, hr]
      · rw [Equiv.swap_apply_of_ne_of_ne h1 h2, update_of_ne h2, update_of_ne h2, update_of_ne h1]
    simp only [View.relabel, View.setRoot, hroot]
  have hnew := hi.relabel hσ
  rw [hview] at hnew
  refine ⟨_, _, hnew, fun t' h1 h2 => ?_, ?_, ?_, fun sl h1 h2 => ?_, fun vpn => ?_⟩
  · rw [comp_apply, Equiv.swap_apply_of_ne_of_ne h1 h2, hother t' h2]
  · rw [comp_apply, Equiv.swap_apply_left]
  · rw [comp_apply, Equiv.swap_apply_right, hother _ hte]
  · rw [comp_apply, Slot.relabel, Equiv.swap_apply_of_ne_of_ne h1 h2]
    exact hc sl h2
  · rw [comp_apply, Slot.relabel, Equiv.swap_apply_left]

end Xv6.Vm
