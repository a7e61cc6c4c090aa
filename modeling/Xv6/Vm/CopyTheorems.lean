/-
Xv6.Vm.CopyTheorems — copying between the kernel and user memory.

`ubyte c t va` is the byte at user address `va` of table `t`. `copyout`
changes a stretch of bytes of one table and nothing else, even when it
stops early; `copyin` and `copyinstr` return the bytes that are there. The
pages they fault in on the way read as zero before and after.
-/
import Mathlib.Data.List.GetD
import Mathlib.Data.List.TakeWhile
import Xv6.Vm.CowTheorems

namespace Xv6.Vm

open Xv6.Lib Function

variable {L : Layout} {v : View} {f f' f'' g : Entries}
  {c c' c'' : Slot → Page} {m m' : Mach} {t : TableId} {pg va sz : Nat}
  {ws : List (Nat × List Byte)} {vpn n pa len dstva : Nat} {w : Word} {src : List Byte}

/-! ## Bytes -/

/-- The byte at user address `va`. -/
def ubyte (c : Slot → Page) (t : TableId) (va : Nat) : Byte :=
  if h : va / 4096 < userPages then pageByte (c (t, ⟨va / 4096, h⟩)) (va % 4096) else 0#8

/-- `c'` is `c` with the bytes `bs` written at `va` of table `t`. -/
def Poked (c c' : Slot → Page) (t : TableId) (va : Nat) (bs : List Byte) : Prop :=
  ∀ t' a, ubyte c' t' a =
    if t' = t ∧ va ≤ a ∧ a < va + bs.length then bs.getD (a - va) 0 else ubyte c t' a

theorem Poked.nil : Poked c c t va [] := by
  intro t' a
  rw [if_neg]
  rintro ⟨-, h1, h2⟩
  simp only [List.length_nil] at h2
  omega

theorem Poked.append {bs bs' : List Byte} (h : Poked c c' t va bs)
    (h' : Poked c' c'' t (va + bs.length) bs') : Poked c c'' t va (bs ++ bs') := by
  intro t' a
  rw [h' t' a, h t' a, List.length_append]
  by_cases ht : t' = t
  · by_cases h1 : va + bs.length ≤ a ∧ a < va + bs.length + bs'.length
    · rw [if_pos ⟨ht, h1⟩, if_pos ⟨ht, by omega⟩, List.getD_append_right _ _ _ _ (by omega),
        Nat.sub_add_eq]
    · rw [if_neg (fun e => h1 e.2)]
      by_cases h2 : va ≤ a ∧ a < va + bs.length
      · rw [if_pos ⟨ht, h2⟩, if_pos ⟨ht, by omega⟩, List.getD_append _ _ _ _ (by omega)]
      · rw [if_neg (fun e => h2 e.2), if_neg (fun e => by omega)]
  · rw [if_neg (fun e => ht e.1), if_neg (fun e => ht e.1), if_neg (fun e => ht e.1)]

/-- Writing nothing, wherever that is. -/
theorem Poked.empty {va' : Nat} (h : Poked c c' t va []) : Poked c c' t va' [] := by
  intro t' a
  rw [h t' a, if_neg (by simp), if_neg (by simp)]

/-- `c'` is `c` with the writes made one after the other. -/
inductive Pokes (t : TableId) : List (Nat × List Byte) → (Slot → Page) → (Slot → Page) → Prop
  | nil {c : Slot → Page} : Pokes t [] c c
  | cons {va : Nat} {bs : List Byte} {ws : List (Nat × List Byte)} {c c' c'' : Slot → Page}
      (h : Poked c c' t va bs) (hs : Pokes t ws c' c'') : Pokes t ((va, bs) :: ws) c c''

theorem Pokes.append {ws' : List (Nat × List Byte)} (h : Pokes t ws c c') (h' : Pokes t ws' c' c'')
    : Pokes t (ws ++ ws') c c'' := by
  induction h with
  | nil => exact h'
  | cons hp _ ih => exact .cons hp (ih h')

/-- The bytes of a write. -/
def Covers (w : Nat × List Byte) (a : Nat) : Prop := w.1 ≤ a ∧ a < w.1 + w.2.length

/-- A byte that no write covers is as it was. -/
theorem Pokes.out (h : Pokes t ws c c') {t' : TableId} {a : Nat}
    (ha : t' = t → ∀ w ∈ ws, ¬ Covers w a) : ubyte c' t' a = ubyte c t' a := by
  induction h with
  | nil => rfl
  | @cons va bs ws c c' c'' hp _ ih =>
    rw [ih (fun e w hw => ha e w (List.mem_cons_of_mem _ hw)), hp t' a, if_neg]
    rintro ⟨e, h1, h2⟩
    exact ha e (va, bs) List.mem_cons_self ⟨h1, h2⟩

/-- Of writes that do not overlap, each one can be read back. -/
theorem Pokes.read (h : Pokes t ws c c')
    (hd : ws.Pairwise fun w w' => ∀ a, Covers w a → ¬ Covers w' a) {w : Nat × List Byte}
    (hw : w ∈ ws) {a : Nat} (ha : Covers w a) : ubyte c' t a = w.2.getD (a - w.1) 0 := by
  induction h with
  | nil => cases hw
  | @cons va bs ws c c' c'' hp hs ih =>
    rw [List.pairwise_cons] at hd
    rcases List.mem_cons.mp hw with rfl | hmem
    · rw [hs.out (fun _ w' hw' => hd.1 w' hw' a ha), hp t a, if_pos ⟨rfl, ha⟩]
    · exact ih hd.2 hmem

/-- Writing part of one page. -/
theorem poked_page (hv : vpn < userPages) (off : Nat) (bs : List Byte)
    (hlen : off + bs.length ≤ 4096) :
    Poked c (update c (t, ⟨vpn, hv⟩) (pageWrite (c (t, ⟨vpn, hv⟩)) off bs)) t (vpn * 4096 + off)
      bs := by
  intro t' a
  unfold ubyte
  by_cases ha : a / 4096 < userPages
  · rw [dif_pos ha, dif_pos ha]
    by_cases hs : ((t', ⟨a / 4096, ha⟩) : Slot) = (t, ⟨vpn, hv⟩)
    · obtain ⟨rfl, h2⟩ := Prod.mk.inj hs
      have hvpn : a / 4096 = vpn := Fin.mk.inj h2
      rw [hs, update_self, pageByte_pageWrite bs _ _ _ hlen (by omega)]
      by_cases hin : off ≤ a % 4096 ∧ a % 4096 < off + bs.length
      · rw [if_pos hin, if_pos ⟨rfl, by omega⟩]
        congr 1
        omega
      · rw [if_neg hin, if_neg (fun e => by omega)]
    · rw [update_of_ne hs, if_neg]
      rintro ⟨rfl, h1, h2⟩
      exact hs (Prod.ext rfl (Fin.ext (show a / 4096 = vpn by omega)))
  · rw [dif_neg ha, dif_neg ha, if_neg]
    rintro ⟨rfl, h1, h2⟩
    exact ha (show a / 4096 < userPages by omega)

/-- Reading part of one page. -/
theorem pageRead_ubyte {off : Nat} (hv : vpn < userPages) (hlen : off + n ≤ 4096) :
    pageRead (c (t, ⟨vpn, hv⟩)) off n =
      (List.range n).map fun k => ubyte c t (vpn * 4096 + off + k) := by
  refine List.map_congr_left (fun k hk => ?_)
  have hk' := List.mem_range.mp hk
  have h1 : (vpn * 4096 + off + k) / 4096 = vpn := by omega
  have h2 : (vpn * 4096 + off + k) % 4096 = off + k := by omega
  unfold ubyte
  rw [dif_pos (by rw [h1]; exact hv), h2]
  congr 3
  exact Fin.ext h1.symm

/-! ## Entries that faults may add -/

/-- Table `t` may have got entries for pages below `sz`, and entries of its
user pages may have been rewritten; nothing else changed. -/
structure Faulted (f f' : Entries) (t : TableId) (sz : Nat) : Prop where
  other : ∀ {t'}, t' ≠ t → f' t' = f t'
  priv : ∀ {vpn}, userPages ≤ vpn → f' t vpn = f t vpn
  stay : ∀ {vpn}, f t vpn ≠ none → f' t vpn ≠ none
  low : ∀ {vpn}, f' t vpn ≠ none → f t vpn ≠ none ∨ vpn * 4096 < sz

theorem Faulted.refl : Faulted f f t sz := ⟨fun _ => rfl, fun _ => rfl, fun h => h, .inl⟩

theorem Faulted.trans (h : Faulted f f' t sz) (h' : Faulted f' f'' t sz) : Faulted f f'' t sz := by
  refine ⟨fun ht => (h'.other ht).trans (h.other ht), fun hp => (h'.priv hp).trans (h.priv hp),
    fun hn => h'.stay (h.stay hn), fun hn => ?_⟩
  rcases h'.low hn with h1 | h1
  · exact h.low h1
  · exact .inr h1

theorem Faulted.entry (hv : vpn < userPages) (h : f t vpn ≠ none ∨ vpn * 4096 < sz) :
    Faulted f (setEntry f t vpn (some w)) t sz := by
  refine ⟨fun ht => setEntry_table ht, fun hp => setEntry_vpn (by omega), fun {vpn'} hn => ?_,
    fun {vpn'} hn => ?_⟩
  · by_cases e : vpn' = vpn
    · subst e
      simp
    · rwa [setEntry_vpn e]
  · by_cases e : vpn' = vpn
    · subst e
      exact h
    · rw [setEntry_vpn e] at hn
      exact .inl hn

/-- The entries that are not marked for copying are as they were. -/
def Sealed (f f' : Entries) (t : TableId) : Prop :=
  ∀ vpn w, f t vpn = some w → ¬ (hasFlag w pteU = true ∧ hasFlag w pteCow = true) →
    f' t vpn = some w

theorem Sealed.refl : Sealed f f t := fun _ _ h _ => h

theorem Sealed.trans (h : Sealed f f' t) (h' : Sealed f' f'' t) : Sealed f f'' t :=
  fun vpn w hw hn => h' vpn w (h vpn w hw hn) hn

theorem Sealed.fresh {x : Option Word} (hnone : f t vpn = none) :
    Sealed f (setEntry f t vpn x) t := by
  intro vpn' w hw _
  have hne : vpn' ≠ vpn := by
    rintro rfl
    rw [hnone] at hw
    cases hw
  rw [setEntry_vpn hne, hw]

theorem Sealed.copied {x : Option Word} (hw : f t vpn = some w) (hU : hasFlag w pteU = true)
    (hC : hasFlag w pteCow = true) :
    Sealed f (setEntry f t vpn x) t := by
  intro vpn' w' hw' hn
  have hne : vpn' ≠ vpn := by
    rintro rfl
    rw [hw] at hw'
    cases hw'
    exact hn ⟨hU, hC⟩
  rw [setEntry_vpn hne, hw']

/-- The entry `w` was there, or a fault has just made it. -/
def Arrived (f f' : Entries) (t : TableId) (vpn : Nat) (w : Word) : Prop :=
  f' = f ∨ f t vpn = none ∧ f' = setEntry f t vpn (some w) ∧ hasFlag w pteW = true

theorem Arrived.sealed (h : Arrived f f' t vpn w) : Sealed f f' t := by
  rcases h with rfl | ⟨hnone, rfl, -⟩
  · exact .refl
  · exact .fresh hnone

theorem Arrived.other {vpn' : Nat} (h : Arrived f f' t vpn w) (hne : vpn' ≠ vpn) :
    f' t vpn' = f t vpn' := by
  rcases h with rfl | ⟨-, rfl, -⟩
  · rfl
  · exact setEntry_vpn hne

/-! ## Finding the page -/

/-- The user page that an address is in, after faults. -/
structure Found (L : Layout) (v : View) (f : Entries) (c : Slot → Page)
    (t : TableId) (sz vpn pa : Nat) (f' : Entries) (w : Word) (m' : Mach) : Prop where
  inv : Inv L v f' c m'
  faulted : Faulted f f' t sz
  user : vpn < userPages
  entry : f' t vpn = some w
  flagU : hasFlag w pteU = true
  addr : pa = 4096 * ppn w
  pos : pa ≠ 0

theorem Found.leaf (h : Found L v f c t sz vpn pa f' w m') (ht : t ≠ .kernel) :
    uleaf f' (t, ⟨vpn, h.user⟩) = some w := by
  rw [uleaf_eq ht, h.entry]

/-- The page that was found holds what the slot reads. -/
theorem Found.data (h : Found L v f c t sz vpn pa f' w m') (ht : t ≠ .kernel) :
    m'.mem (ppn w) = c (t, ⟨vpn, h.user⟩) := by
  rw [h.inv.data, content_some (uref_of_uleaf (h.leaf ht))]

/-- A user address that `walkaddr` finds. -/
theorem Inv.found (hi : Inv L v f c m) (sz : Nat) (h0 : userAddr m.mem v t vpn ≠ 0) :
    ∃ w, Found L v f c t sz vpn (userAddr m.mem v t vpn) f w m := by
  cases hlf : lf m.mem v t vpn with
  | none => exact absurd (userAddr_none hlf) h0
  | some w =>
    have haddr := userAddr_some hlf
    by_cases hU : hasFlag w pteU = true
    · rw [if_pos hU] at haddr
      have hv : vpn < userPages := by
        by_contra hge
        rw [(hi.base.shape.leaf hlf).2 (.inr (by omega))] at hU
        cases hU
      exact ⟨w, hi, Faulted.refl, hv, by rw [← hi.lf_eq, hlf], hU, haddr, h0⟩
    · rw [if_neg hU] at haddr
      exact absurd haddr h0

/-- The user page of `vpn` is there. -/
def Resident (f : Entries) (t : TableId) (vpn : Nat) : Prop :=
  ∃ w, f t vpn = some w ∧ hasFlag w pteU = true

/-- A resident user page is found where it is. -/
theorem Inv.find_resident (hi : Inv L v f c m) (ht : t ≠ .kernel) (h : Resident f t vpn) :
    userAddr m.mem v t vpn ≠ 0 := by
  obtain ⟨w, hw, hU⟩ := h
  have hlf : lf m.mem v t vpn = some w := by rw [hi.lf_eq, hw]
  have hv : vpn < userPages := by
    by_contra hge
    rw [(hi.base.shape.leaf hlf).2 (.inr (by omega))] at hU
    cases hU
  have hs : uleaf f (t, ⟨vpn, hv⟩) = some w := by rw [uleaf_eq ht hv, hw]
  have := (hi.base.ref_usable (uref_of_uleaf hs)).pos
  rw [userAddr_some hlf, if_pos hU]
  omega

/-- The start of the loops of `copyin` and `copyout`: the page of `va`, faulted
in if need be. -/
theorem find_page (hi : Inv L v f c m) (hr : v.root t = some pg) (ht : t ≠ .kernel)
    (hheld : v.hnd (.held 0) = none) (hsz : sz ≤ trapframeVa) (hvpn : va / 4096 = vpn) {α : Type}
    {kfail : M α} {k : Nat → M α} {Q : α → Mach → Prop}
    (hfail : ∀ m', Inv L v f c m' → ¬ Resident f t vpn → Spares L (Mine t) v m v m' →
      Total kfail m' Q)
    (hok : ∀ f' w m' pa, Found L v f c t sz vpn pa f' w m' → Arrived f f' t vpn w →
      (Resident f t vpn → f' = f ∧ m' = m) → Spares L (Mine t) v m v m' → Total (k pa) m' Q) :
    Total (do
      let pa0 ← walkaddr (4096 * pg) va
      let pa0 ← if pa0 = 0 then vmfault L ⟨sz, 4096 * pg⟩ (4096 * pg) va else pure pa0
      if pa0 = 0 then kfail else k pa0) m Q := by
  subst hvpn
  refine Meets.seq (walkaddr_spec hi.base.shape hr va) ?_
  rintro r m1 ⟨rfl, rfl⟩
  by_cases h0 : userAddr m1.mem v t (va / 4096) = 0
  · have hno : ¬ Resident f t (va / 4096) := fun hres => hi.find_resident ht hres h0
    rw [if_pos h0]
    refine Meets.seq (vmfault_spec hi hr ht hheld hsz va) ?_
    rintro r m2 ⟨⟨rfl, hi2, -⟩ | ⟨p, ⟨hlt, hnone, -⟩, rfl, hpos, hp, hi2⟩, hs2⟩
    · exact meets_if rfl (hfail m2 hi2 hno hs2)
    · refine meets_else hpos ?_
      have hv : va / 4096 < userPages := by
        rw [trapframeVa_eq] at hsz
        rw [userPages_eq]
        omega
      refine hok _ _ m2 _ ⟨hi2, Faulted.entry hv (.inr (by omega)), hv, setEntry_self, ?_, ?_, hpos⟩
        (.inr ⟨hnone, rfl, ?_⟩) (fun hres => absurd hres hno) hs2
      · rw [hasFlag_mkPte _ _ (by decide)]
        decide
      · rw [ppn_mkPte hp (by decide)]
      · rw [hasFlag_mkPte _ _ (by decide)]
        decide
  · rw [if_neg h0]
    refine Meets.bind (meets_pure (meets_else h0 ?_))
    obtain ⟨w, hf⟩ := hi.found sz h0
    exact hok f w m1 _ hf (.inl rfl) (fun _ => ⟨rfl, rfl⟩) .refl

/-- The part of a copy of `len` bytes at `va` that lies in one page. -/
theorem chunk_bounds (hlen : 0 < len) (hn : min (pgSize - (va - pgRoundDown va)) len = n) :
    va - pgRoundDown va + n ≤ 4096 ∧ 0 < n ∧ n ≤ len := by
  rw [pgRoundDown_eq] at *
  rw [pgSize_eq] at *
  omega

/-- Where the rest of a copy starts. -/
theorem chunk_next (hn : min (pgSize - (va - pgRoundDown va)) len = n) (hne : n ≠ len)
    (hv : va / 4096 < userPages) : u64 (pgRoundDown va + pgSize) = va + n := by
  have : pgRoundDown va = va / 4096 * 4096 := rfl
  rw [this, u64_next hv]
  rw [this, pgSize_eq] at hn
  omega

/-! ## copyin -/

/-- The bytes at `va` and after it. -/
def ubytes (c : Slot → Page) (t : TableId) (va n : Nat) : List Byte :=
  (List.range n).map fun k => ubyte c t (va + k)

theorem ubytes_append (a b : Nat) :
    ubytes c t va a ++ ubytes c t (va + a) b = ubytes c t va (a + b) := by
  unfold ubytes
  rw [List.range_add, List.map_append, List.map_map]
  congr 1
  refine List.map_congr_left (fun k _ => ?_)
  simp only [comp_apply, Nat.add_assoc]

theorem ubytes_length (n : Nat) : (ubytes c t va n).length = n := by
  simp [ubytes]

theorem ubytes_take {k : Nat} (h : k ≤ n) : (ubytes c t va n).take k = ubytes c t va k := by
  obtain ⟨j, rfl⟩ := Nat.exists_eq_add_of_le h
  rw [← ubytes_append k j]
  exact List.take_left' (ubytes_length k)

/-- The bytes up to and with the first NUL. -/
theorem takeWhile_snoc_zero {bs : List Byte}
    (h : (bs.takeWhile (· ≠ 0)).length < bs.length) :
    bs.take ((bs.takeWhile (· ≠ 0)).length + 1) = bs.takeWhile (· ≠ 0) ++ [0] := by
  induction bs with
  | nil => simp at h
  | cons b bs ih =>
    by_cases hb : b = 0
    · subst hb
      simp
    · rw [List.takeWhile_cons_of_pos (by simpa using hb)] at h ⊢
      rw [List.length_cons, List.take_succ_cons, ih (by simpa using h), List.cons_append]

/-- The bytes read from a page that was found. -/
theorem Found.read (h : Found L v f c t sz (va / 4096) pa f' w m') (ht : t ≠ .kernel)
    (hn : va - pgRoundDown va + n ≤ 4096) :
    pageRead (m'.mem (ppn w)) (va - pgRoundDown va) n = ubytes c t va n := by
  rw [h.data ht, pageRead_ubyte h.user hn, pgRoundDown_add, ubytes]

/-- `copyin`'s loop returns the bytes that are there, all of them if it
returns 0, and changes no byte. It has nothing to do but to read if all pages are
resident. -/
theorem copyinLoop_spec (hr : v.root t = some pg) (ht : t ≠ .kernel)
    (hheld : v.hnd (.held 0) = none) (hsz : sz ≤ trapframeVa) (fuel : Nat) :
    ∀ {f : Entries} {m : Mach} {srcva len : Nat} {dst : List Byte},
    Inv L v f c m → len ≤ fuel →
    Total (copyinLoop L ⟨sz, 4096 * pg⟩ (4096 * pg) fuel srcva len dst) m fun r m' =>
      ∃ f' k, Inv L v f' c m' ∧ Faulted f f' t sz ∧ r.2 = dst ++ ubytes c t srcva k ∧
        (r.1 = 0 ∧ k = len ∨ r.1 = -1 ∧ k ≤ len) ∧
        ((∀ a, srcva ≤ a → a < srcva + len → Resident f t (a / 4096)) → m' = m ∧ r.1 = 0) := by
  induction fuel with
  | zero =>
    intro f m srcva len dst hi hlen
    obtain rfl : len = 0 := by omega
    exact meets_pure ⟨f, 0, hi, .refl, by simp [ubytes], .inl ⟨rfl, rfl⟩, fun _ => ⟨rfl, rfl⟩⟩
  | succ fuel ih =>
    intro f m srcva len dst hi hlen
    cases len with
    | zero =>
      exact meets_pure ⟨f, 0, hi, .refl, by simp [ubytes], .inl ⟨rfl, rfl⟩, fun _ => ⟨rfl, rfl⟩⟩
    | succ len =>
      unfold copyinLoop
      refine find_page hi hr ht hheld hsz (pgRoundDown_div srcva) (fun m' hi' hno _ => ?_)
        (fun f' w m' pa hf _ hsame _ => ?_)
      · exact meets_pure ⟨f, 0, hi', .refl, by simp [ubytes], .inr ⟨rfl, by omega⟩,
          fun hres => absurd (hres srcva (Nat.le_refl _) (by omega)) hno⟩
      · rw [hf.addr]
        refine Meets.bind (meets_readPage ?_)
        generalize hn : min (pgSize - (srcva - pgRoundDown srcva)) (len + 1) = n
        obtain ⟨hin, hpos, hle⟩ := chunk_bounds (Nat.succ_pos len) hn
        rw [hf.read ht hin]
        refine (ih hf.inv (by omega)).imp ?_
        rintro r m'' ⟨f'', k, hi'', hf'', hbytes, hk, hrest⟩
        refine ⟨f'', n + k, hi'', hf.faulted.trans hf'', ?_, by omega, fun hres => ?_⟩
        · rw [hbytes, List.append_assoc]
          congr 1
          by_cases hne : n = len + 1
          · obtain rfl : k = 0 := by omega
            simp [ubytes]
          · rw [chunk_next hn hne hf.user]
            exact ubytes_append n k
        · obtain ⟨rfl, rfl⟩ := hsame (hres srcva (Nat.le_refl _) (by omega))
          refine hrest fun a h1 h2 => hres a ?_ ?_
          all_goals
            by_cases hne : n = len + 1
            · omega
            · rw [chunk_next hn hne hf.user] at h1 h2
              omega

/-- `copyin` from a process's own memory. -/
theorem copyin_spec (hi : Inv L v f c m) (hr : v.root t = some pg) (ht : t ≠ .kernel)
    (hheld : v.hnd (.held 0) = none) (hsz : sz ≤ trapframeVa) (srcva len : Nat) :
    Total (copyin L ⟨sz, 4096 * pg⟩ (4096 * pg) srcva len) m fun r m' =>
      ∃ f' k, Inv L v f' c m' ∧ Faulted f f' t sz ∧ r.2 = ubytes c t srcva k ∧
        (r.1 = 0 ∧ k = len ∨ r.1 = -1 ∧ k ≤ len) ∧
        ((∀ a, srcva ≤ a → a < srcva + len → Resident f t (a / 4096)) → m' = m ∧ r.1 = 0) := by
  refine (copyinLoop_spec hr ht hheld hsz len hi (Nat.le_refl len)).imp ?_
  rintro r m' ⟨f', k, hi', hf', hbytes, hk⟩
  exact ⟨f', k, hi', hf', by rw [hbytes, List.nil_append], hk⟩

/-! ## copyinstr -/

/-- `copyinstr`'s loop returns bytes that are there, ending in the first NUL
if it returns 0, and changes nothing. -/
theorem copyinstrLoop_spec (hi : Inv L v f c m) (hr : v.root t = some pg) (ht : t ≠ .kernel)
    (fuel : Nat) : ∀ {srcva max : Nat} {dst : List Byte}, max ≤ fuel →
    Total (copyinstrLoop (4096 * pg) fuel srcva max dst) m fun r m' =>
      m' = m ∧ ∃ k, k ≤ max ∧ r.2 = dst ++ ubytes c t srcva k ∧
        (r.1 = 0 ∧ (∃ text, r.2 = dst ++ text ++ [0] ∧ ∀ b ∈ text, b ≠ 0) ∨ r.1 = -1) := by
  induction fuel with
  | zero =>
    intro srcva max dst hlen
    obtain rfl : max = 0 := by omega
    exact meets_pure ⟨rfl, 0, Nat.le_refl 0, by simp [ubytes], .inr rfl⟩
  | succ fuel ih =>
    intro srcva max dst hlen
    cases max with
    | zero =>
      exact meets_pure ⟨rfl, 0, Nat.le_refl 0, by simp [ubytes], .inr rfl⟩
    | succ max =>
      unfold copyinstrLoop
      refine Meets.seq (walkaddr_spec hi.base.shape hr _) ?_
      rintro r m1 ⟨rfl, rfl⟩
      rw [pgRoundDown_div]
      refine meets_ite (fun _ => ?_) (fun h0 => ?_)
      · exact meets_pure ⟨rfl, 0, Nat.zero_le _, by simp [ubytes], .inr rfl⟩
      obtain ⟨w, hf⟩ := hi.found 0 h0
      rw [hf.addr]
      refine Meets.bind (meets_readPage ?_)
      generalize hn : min (pgSize - (srcva - pgRoundDown srcva)) (max + 1) = n
      obtain ⟨hin, hpos, hle⟩ := chunk_bounds (Nat.succ_pos max) hn
      rw [hf.read ht hin]
      refine meets_ite (fun hnul => ?_) (fun hall => ?_)
      · -- the NUL is in this page
        have htext := takeWhile_snoc_zero hnul
        rw [ubytes_length] at hnul
        rw [ubytes_take (by omega)] at htext
        refine meets_pure ⟨rfl, ((ubytes c t srcva n).takeWhile (· ≠ 0)).length + 1, by omega,
          by rw [htext, List.append_assoc], .inl ⟨rfl, _, rfl, fun b hb => ?_⟩⟩
        simpa using List.mem_takeWhile_imp hb
      · -- no NUL in this page: go on with the next one
        have htext : (ubytes c t srcva n).takeWhile (· ≠ 0) = ubytes c t srcva n :=
          (List.takeWhile_prefix _).eq_of_length_le (by omega)
        rw [htext]
        refine (ih (by omega)).imp ?_
        rintro r m2 ⟨rfl, k, hk, hbytes, hend⟩
        refine ⟨rfl, n + k, by omega, ?_, ?_⟩
        · rw [hbytes, List.append_assoc]
          congr 1
          by_cases hne : n = max + 1
          · obtain rfl : k = 0 := by omega
            simp [ubytes]
          · rw [chunk_next hn hne hf.user]
            exact ubytes_append n k
        · rcases hend with ⟨h0, text, htail, hnz⟩ | h1
          · refine .inl ⟨h0, ubytes c t srcva n ++ text, by rw [htail]; simp, fun b hb => ?_⟩
            rcases List.mem_append.mp hb with hb | hb
            · rw [← htext] at hb
              simpa using List.mem_takeWhile_imp hb
            · exact hnz b hb
          · exact .inr h1

theorem copyinstr_spec (hi : Inv L v f c m) (hr : v.root t = some pg) (ht : t ≠ .kernel)
    (srcva max : Nat) :
    Total (copyinstr (4096 * pg) srcva max) m fun r m' =>
      m' = m ∧ ∃ k, k ≤ max ∧ r.2 = ubytes c t srcva k ∧
        (r.1 = 0 ∧ (∃ text, r.2 = text ++ [0] ∧ ∀ b ∈ text, b ≠ 0) ∨ r.1 = -1) := by
  exact (copyinstrLoop_spec hi hr ht max (Nat.le_refl max)).imp (fun r m' h => by simpa using h)

/-! ## copyout -/

section

variable (L v f c t) (sz dstva : Nat) (src : List Byte)

/-- How `copyout` ends: it wrote the first `k` bytes. The pages written to are
writable user pages now, no other entry than a missing or a copy-on-write one
was touched, and a copy that failed stopped where a page starts. -/
structure CopiedOut (f' : Entries) (c' : Slot → Page) (k : Nat) (r : Int) (m' : Mach) : Prop where
  inv : Inv L v f' c' m'
  faulted : Faulted f f' t sz
  kept : Sealed f f' t
  outside : ∀ vpn, (∀ a, dstva ≤ a → a < dstva + k → a / 4096 ≠ vpn) → f' t vpn = f t vpn
  poked : Poked c c' t dstva (src.take k)
  opened : ∀ a, dstva ≤ a → a < dstva + k →
    ∃ w, f' t (a / 4096) = some w ∧ hasFlag w pteU = true ∧ hasFlag w pteW = true
  ends : r = 0 ∧ k = src.length ∨
    r = -1 ∧ k < src.length ∧ (k = 0 ∨ (dstva + k) % 4096 = 0)

/-- What a call from `m` on leaves. -/
def CopyoutDone (m : Mach) (r : Int) (m' : Mach) : Prop :=
  ∃ f' c' k, CopiedOut L v f c t sz dstva src f' c' k r m' ∧ Spares L (Mine t) v m v m'

end

theorem CopyoutDone.stop {m0 : Mach} (hi : Inv L v f c m) (hs : Spares L (Mine t) v m0 v m)
    (hsrc : 0 < src.length) :
    CopyoutDone L v f c t sz dstva src m0 (-1) m :=
  ⟨f, c, 0, ⟨hi, .refl, .refl, fun _ _ => rfl, by rw [List.take_zero]; exact Poked.nil,
    fun a h1 h2 => by omega, .inr ⟨rfl, hsrc, .inl rfl⟩⟩, hs⟩

/-- The write of one chunk through a writable entry, with the rest of the
loop as `k`. -/
theorem copyout_chunk (hi : Inv L v f' c m) (ht : t ≠ .kernel) (hf : Faulted f f' t sz)
    (hkept : Sealed f f' t) {m0 : Mach} (hs0 : Spares L (Mine t) v m0 v m) (hsrc : 0 < src.length)
    (hother : ∀ vpn, vpn ≠ dstva / 4096 → f' t vpn = f t vpn) (hv : dstva / 4096 < userPages)
    (hw : f' t (dstva / 4096) = some w) (hU : hasFlag w pteU = true) (hW : hasFlag w pteW = true)
    (hn : min (pgSize - (dstva - pgRoundDown dstva)) src.length = n) {k : M Int}
    (hk : ∀ c' m', Inv L v f' c' m' →
      Total k m' (CopyoutDone L v f' c' t sz (u64 (pgRoundDown dstva + pgSize)) (src.drop n) m')) :
    Total (do
      setPage (4096 * ppn w)
        (pageWrite (← readPage (4096 * ppn w)) (dstva - pgRoundDown dstva) (src.take n))
      k) m (CopyoutDone L v f c t sz dstva src m0) := by
  obtain ⟨hin, hpos, hle⟩ := chunk_bounds hsrc hn
  have hs : uleaf f' (t, ⟨dstva / 4096, hv⟩) = some w := by rw [uleaf_eq ht hv, hw]
  refine Meets.bind (meets_readPage (Meets.bind (meets_setPage ?_)))
  have hpage : m.mem (ppn w) = c (t, ⟨dstva / 4096, hv⟩) := by
    rw [hi.data, content_some (uref_of_uleaf hs)]
  have hlen : (src.take n).length = n := by rw [List.length_take]; omega
  have hva := pgRoundDown_add dstva
  have hpoke := poked_page (c := c) (t := t) hv (dstva - pgRoundDown dstva) (src.take n) (by omega)
  rw [hva] at hpoke
  obtain ⟨-, -, hs1⟩ := hi.base.write_ref (uref_of_uleaf hs)
    (pageWrite (m.mem (ppn w)) (dstva - pgRoundDown dstva) (src.take n))
  rw [hpage] at hs1 ⊢
  refine (hk _ _ (hi.store hs hW _)).imp ?_
  rintro r m' ⟨f'', c'', j, h, hs2⟩
  have hend := h.ends
  rw [List.length_drop] at hend
  -- the page just written is not touched again
  have hnc : ¬ (hasFlag w pteU = true ∧ hasFlag w pteCow = true) := by
    rintro ⟨-, hC⟩
    rw [hi.cow.wcow hs hW] at hC
    cases hC
  have hchunk : ∀ a, dstva ≤ a → a < dstva + n →
      ∃ w, f'' t (a / 4096) = some w ∧ hasFlag w pteU = true ∧ hasFlag w pteW = true := by
    intro a h1 h2
    have hsame : a / 4096 = dstva / 4096 := by omega
    exact ⟨w, by rw [hsame]; exact h.kept _ _ hw hnc, hU, hW⟩
  refine ⟨f'', c'', n + j, ⟨h.inv, hf.trans h.faulted, hkept.trans h.kept, ?_, ?_, ?_, ?_⟩,
    (hs0.trans hs1.any).trans hs2⟩
  · intro vpn hout
    rw [← hother vpn (fun e => hout dstva (Nat.le_refl _) (by omega) e.symm)]
    refine h.outside vpn (fun a h1 h2 => ?_)
    by_cases hne : n = src.length
    · omega
    · rw [chunk_next hn hne hv] at h1 h2
      exact hout a (by omega) (by omega)
  · have hpoke'' := h.poked
    rw [List.take_add]
    by_cases hne : n = src.length
    · obtain rfl : j = 0 := by omega
      rw [List.take_zero] at hpoke'' ⊢
      rw [List.append_nil]
      intro t' a
      rw [hpoke'' t' a, if_neg, hpoke t' a]
      rintro ⟨-, h1, h2⟩
      simp only [List.length_nil] at h2
      omega
    · rw [chunk_next hn hne hv] at hpoke''
      rw [← hlen] at hpoke''
      refine hpoke.append ?_
      rw [hlen] at hpoke'' ⊢
      exact hpoke''
  · intro a h1 h2
    by_cases hin' : a < dstva + n
    · exact hchunk a h1 hin'
    · have hne : n ≠ src.length := by omega
      have hopen := h.opened
      rw [chunk_next hn hne hv] at hopen
      exact hopen a (by omega) (by omega)
  · rcases hend with ⟨hr, hj⟩ | ⟨hr, hj, hb⟩
    · exact .inl ⟨hr, by omega⟩
    · have hne : n ≠ src.length := by omega
      have hnext := chunk_next hn hne hv
      rw [hnext] at hb
      refine .inr ⟨hr, by omega, .inr ?_⟩
      rcases hb with rfl | hb
      · have : pgRoundDown dstva = dstva / 4096 * 4096 := rfl
        rw [this, u64_next hv] at hnext
        omega
      · rw [← Nat.add_assoc]
        exact hb

/-- `copyout`'s loop writes a stretch of bytes from `dstva` on. -/
theorem copyoutLoop_spec (hr : v.root t = some pg) (ht : t ≠ .kernel)
    (hheld : v.hnd (.held 0) = none) (hsz : sz ≤ trapframeVa) (fuel : Nat) :
    ∀ {f : Entries} {c : Slot → Page} {m : Mach} {dstva : Nat}
      {src : List Byte}, Inv L v f c m → src.length ≤ fuel →
    Total (copyoutLoop L ⟨sz, 4096 * pg⟩ (4096 * pg) fuel dstva src) m
      (CopyoutDone L v f c t sz dstva src m) := by
  have hdone : ∀ {f : Entries} {c : Slot → Page} {m : Mach} {dstva : Nat},
      Inv L v f c m → CopyoutDone L v f c t sz dstva [] m 0 m := fun hi =>
    ⟨_, _, 0, ⟨hi, Faulted.refl, Sealed.refl, fun _ _ => rfl,
      by rw [List.take_zero]; exact Poked.nil, fun a h1 h2 => by omega, .inl ⟨rfl, rfl⟩⟩, .refl⟩
  induction fuel with
  | zero =>
    intro f c m dstva src hi hlen
    obtain rfl : src = [] := List.length_eq_zero_iff.mp (by omega)
    exact meets_pure (hdone hi)
  | succ fuel ih =>
    intro f c m dstva src hi hlen
    cases src with
    | nil =>
      exact meets_pure (hdone hi)
    | cons b bs =>
      have hsrc : 0 < (b :: bs).length := Nat.succ_pos _
      unfold copyoutLoop
      refine meets_ite (fun _ => meets_pure (.stop hi .refl hsrc)) (fun hmax => ?_)
      refine find_page hi hr ht hheld hsz (pgRoundDown_div dstva)
        (fun m' hi' _ hs' => meets_pure (.stop hi' hs' hsrc))
        (fun f1 w m1 pa hf harr _ hs1 => ?_)
      have hk1 := harr.sealed
      -- a page that a fault has just made can be written
      have hstop : (hasFlag w pteCow = true ∨ hasFlag w pteW = false) →
          CopyoutDone L v f c t sz dstva (b :: bs) m (-1) m1 := by
        intro hw
        rcases harr with rfl | ⟨-, -, hW⟩
        · exact .stop hf.inv hs1 hsrc
        · have hC := hf.inv.cow.wcow (hf.leaf ht) hW
          rw [hC, hW] at hw
          rcases hw with hw | hw <;> cases hw
      -- the entry that `walk` finds is the one that was found
      have hlf : lf m1.mem v t (pgRoundDown dstva / 4096) = some w := by
        rw [pgRoundDown_div, hf.inv.lf_eq, hf.entry]
      refine walk_found hr (by omega) hlf fun q ho hword hV => ?_
      refine meets_readPte ?_
      rw [hword, hV, hf.flagU]
      obtain ⟨hin, hpos, hle⟩ := @chunk_bounds dstva _ _ hsrc rfl
      -- the write, through entry `w'` for page `ppn w'`
      have hwrite : ∀ {f2 : Entries} {m2 : Mach} {w' : Word},
          Inv L v f2 c m2 → Faulted f f2 t sz → Sealed f f2 t → Spares L (Mine t) v m v m2 →
          (∀ vpn, vpn ≠ dstva / 4096 → f2 t vpn = f t vpn) →
          f2 t (dstva / 4096) = some w' → hasFlag w' pteU = true → hasFlag w' pteW = true →
          Total (do
            setPage (4096 * ppn w') (pageWrite (← readPage (4096 * ppn w'))
              (dstva - pgRoundDown dstva)
              ((b :: bs).take (min (pgSize - (dstva - pgRoundDown dstva)) (b :: bs).length)))
            copyoutLoop L ⟨sz, 4096 * pg⟩ (4096 * pg) fuel (u64 (pgRoundDown dstva + pgSize))
              ((b :: bs).drop (min (pgSize - (dstva - pgRoundDown dstva)) (b :: bs).length))) m2
            (CopyoutDone L v f c t sz dstva (b :: bs) m) := by
        intro f2 m2 w' hi2 hf2 hk2 hs2 hother hw' hU hW
        refine copyout_chunk hi2 ht hf2 hk2 hs2 hsrc hother hf.user hw' hU hW rfl
          (fun c' m' hi' => ih hi' ?_)
        rw [List.length_drop]
        omega
      by_cases hC : hasFlag w pteCow = true
      · rw [if_pos hC]
        refine Meets.seq (cowfault_spec hf.inv hr ht hheld (pgRoundDown dstva)) ?_
        rintro r m2 (⟨rfl, rfl, -⟩ | ⟨w1, w', hv, hw1, -, rfl, hpos', hW, hU, hi2, -, hs2, -⟩)
        · exact meets_if rfl (meets_pure (hstop (.inl hC)))
        · refine meets_else hpos' ?_
          refine meets_if hC ?_
          rw [pgRoundDown_div] at hi2
          have hlf2 : lf m2.mem v t (pgRoundDown dstva / 4096) = some w' := by
            rw [pgRoundDown_div, hi2.lf_eq, setEntry_self]
          refine walk_found hr (by omega) hlf2 fun q' ho' hword' _ => ?_
          refine meets_readPte ?_
          rw [hword', hW]
          refine hwrite hi2 (hf.faulted.trans (Faulted.entry hf.user (.inl ?_)))
            (hk1.trans (.copied hf.entry hf.flagU hC)) (hs1.trans hs2)
            (fun vpn hne => (setEntry_vpn hne).trans (harr.other hne)) setEntry_self hU hW
          rw [hf.entry]
          simp
      · rw [if_neg hC]
        refine Meets.bind (meets_pure (meets_else hf.pos ?_))
        refine meets_else hC ?_
        refine Meets.bind (meets_pure (meets_readPte ?_))
        rw [hword, hf.addr]
        refine meets_ite (fun hW => meets_pure (hstop (.inr (by simpa using hW)))) (fun hW => ?_)
        exact hwrite hf.inv hf.faulted hk1 hs1 (fun _ => harr.other) hf.entry hf.flagU
          (by simpa using hW)

/-- `copyout` to a process's own memory. -/
theorem copyout_end (hi : Inv L v f c m) (hr : v.root t = some pg) (ht : t ≠ .kernel)
    (hheld : v.hnd (.held 0) = none) (hsz : sz ≤ trapframeVa) (dstva : Nat) (src : List Byte) :
    Total (copyout L ⟨sz, 4096 * pg⟩ (4096 * pg) dstva src) m
      (CopyoutDone L v f c t sz dstva src m) := by
  exact copyoutLoop_spec hr ht hheld hsz src.length hi (Nat.le_refl _)

/-! ## User accesses -/

/-- The page an access with permission `need` at `va` reaches. -/
def access (f : Entries) (t : TableId) (va : Nat) (need : Word) : Option Nat :=
  (f t (va / 4096)).bind fun w => if hasFlag w pteU && hasFlag w need then some (ppn w) else none

theorem access_some {need : Word} {p : Nat} :
    access f t va need = some p ↔ ∃ w, f t (va / 4096) = some w ∧ hasFlag w pteU = true ∧
      hasFlag w need = true ∧ ppn w = p := by
  unfold access
  rw [Option.bind_eq_some_iff]
  refine exists_congr fun w => and_congr_right fun _ => ?_
  by_cases h : (hasFlag w pteU && hasFlag w need) = true
  · rw [Bool.and_eq_true] at h
    simp [h.1, h.2]
  · rw [if_neg h]
    rw [Bool.and_eq_true] at h
    simp only [reduceCtorEq, false_iff]
    rintro ⟨h1, h2, -⟩
    exact h ⟨h1, h2⟩

/-- The hardware's walk ends where `walk` does. -/
theorem mmuLoop_spec (hs : Shape LeafOk m.mem v) (hr : v.root t = some pg) :
    Total (mmuLoop va 2 (4096 * pg)) m fun r m' =>
      m' = m ∧ r = (own m.mem v (lowOf t (va / 4096))).map fun q => ⟨q, vidx 0 (va / 4096)⟩ := by
  have hdir : ∀ {w : Word}, (hasFlag w pteV = true → hasFlag w pteRwx = false) →
      (hasFlag w pteV && !hasFlag w (pteR ||| pteW ||| pteX)) = hasFlag w pteV := by
    intro w hw
    cases hV : hasFlag w pteV with
    | false => rfl
    | true => exact congrArg not (hw hV)
  exact find_entry (mmuLoop va) (fun w => hasFlag w pteV && !hasFlag w (pteR ||| pteW ||| pteX))
    (fun _ => rfl) (fun _ _ => rfl) hr (hdir (hs.dirMid _ hr)) fun h => hdir (hs.dirLow _ h)

/-- A user access at a 64-bit address, seen through the entries. -/
theorem mmu_spec (hs : Shape LeafOk m.mem v) (hlf : lf m.mem v = f) (hr : v.root t = some pg)
    (hva : va < 2 ^ 64) (need : Word) :
    Total (mmu (4096 * pg) va need) m fun r m' =>
      m' = m ∧ r = (access f t va need).map (4096 * ·) := by
  have hnone : ¬ va < 2 ^ 38 → access f t va need = none := by
    intro hge
    have hf : f t (va / 4096) = none := by
      by_contra hne
      obtain ⟨w, hw⟩ := Option.ne_none_iff_exists'.mp hne
      rw [← hlf] at hw
      have := hs.lf_lt hw
      omega
    rw [access, hf, Option.bind_none]
  refine meets_ite (fun hcan => meets_pure ⟨rfl, ?_⟩) (fun hcan => ?_)
  · rw [hnone, Option.map_none]
    simp [canonical] at hcan
    omega
  · refine Meets.seq (mmuLoop_spec hs hr) ?_
    rintro r m1 ⟨rfl, rfl⟩
    by_cases hlt : va < 2 ^ 38
    · have hcube : va / 4096 < 512 ^ 3 := by omega
      cases ho : own m1.mem v (lowOf t (va / 4096)) with
      | none =>
        have hf : f t (va / 4096) = none := by rw [← hlf]; exact lf_none_of_low ho
        refine meets_pure ⟨rfl, ?_⟩
        rw [access, hf]
        rfl
      | some q =>
        have hf : f t (va / 4096) = valid (m1.mem q (vidx 0 (va / 4096))) := by
          rw [← hlf, lf_of_low hcube ho]
        refine meets_readPte ?_
        rw [access, hf]
        cases hV : hasFlag (m1.mem q (vidx 0 (va / 4096))) pteV with
        | false =>
          rw [valid_eq_none.mpr hV]
          exact meets_else (by simp) (meets_pure ⟨rfl, rfl⟩)
        | true =>
          rw [valid_eq_some.mpr ⟨rfl, hV⟩, Option.bind_some, Bool.true_and]
          refine meets_ite (fun h => meets_pure ⟨rfl, ?_⟩) (fun h => meets_pure ⟨rfl, ?_⟩)
          · rw [if_pos h, Option.map_some, pte2pa_eq]
          · rw [if_neg h, Option.map_none]
    · -- the upper half of the address space has no entries
      have htop : own m1.mem v (lowOf t (va / 4096)) = none := by
        refine own_low_none (hs.top t _ ?_) _
        have h64 : 2 ^ 64 - 2 ^ 38 ≤ va := by
          by_contra hc
          exact hcan (by simp [canonical]; omega)
        show 256 ≤ va / 4096 / 512 ^ 2 % 512
        omega
      rw [htop, hnone hlt]
      exact meets_pure ⟨rfl, rfl⟩

end Xv6.Vm
