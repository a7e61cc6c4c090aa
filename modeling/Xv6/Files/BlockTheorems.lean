/-
Xv6.Files.BlockTheorems — every data block has one owner.

`Owned sb ino st` is about inodes `ino`, which may be ahead of those on the
disk while an inode is locked: the addresses in them and in their indirect
blocks are distinct data blocks, the bitmap marks exactly these, and no file
has a hole. §1 bytes, §2 addresses, §3 the invariant, §4 allocation, §5
`bmap`, §6 `itrunc` and `ialloc`.
-/
import Mathlib.Data.List.Nodup
import Xv6.Files.Inode
import Xv6.Lib.Outcome
import Xv6.Lib.Pool

namespace Xv6.Files

open Xv6.Lib Function
open Xv6.Fs (Block word)

/-! ## §1 Bytes -/

theorem blockByte_ofBytes (f : Nat → Byte) {k : Nat} (hk : k < bsize) :
    blockByte (ofBytes f) k = f k := by
  have hk' : k < 1024 := hk
  have hw : word (ofBytes f) (k / 4) = ofBytes f ⟨k / 4, by omega⟩ := dif_pos (by omega)
  apply BitVec.eq_of_toNat_eq
  rw [blockByte, hw, ofBytes, BitVec.toNat_ofNat, BitVec.toNat_ofNat]
  dsimp only
  -- `k` is the first, second, third or last byte of its word
  have hcases : k % 4 = 0 ∨ k % 4 = 1 ∨ k % 4 = 2 ∨ k % 4 = 3 := by omega
  rcases hcases with e | e | e | e
  · rw [e]
    nth_rewrite 5 [show k = 4 * (k / 4) by omega]
    omega
  · rw [e]
    nth_rewrite 5 [show k = 4 * (k / 4) + 1 by omega]
    omega
  · rw [e]
    nth_rewrite 5 [show k = 4 * (k / 4) + 2 by omega]
    omega
  · rw [e]
    nth_rewrite 5 [show k = 4 * (k / 4) + 3 by omega]
    omega

theorem blockByte_blit (b : Block) (off : Nat) (bytes : List Byte) {k : Nat} (hk : k < bsize) :
    blockByte (blit b off bytes) k =
      if off ≤ k ∧ k < off + bytes.length then bytes.getD (k - off) 0 else blockByte b k :=
  blockByte_ofBytes _ hk

@[simp] theorem blockByte_zeroBlock (k : Nat) : blockByte zeroBlock k = 0 := by
  unfold blockByte word zeroBlock
  split <;> simp

/-! ## §2 Addresses -/

/-- The places for addresses: those in an inode, those in its indirect block. -/
abbrev Slot := Fin 13 ⊕ Fin 256

def Dinode.ptr (ip : Dinode) (data : Nat → Block) : Slot → Nat
  | .inl k => ip.addrs k
  | .inr j => if ip.addrs indirect = 0 then 0 else (data (ip.addrs indirect) j).toNat

theorem direct_index_lt {bn : Nat} (h : bn < ndirect) : bn < 13 := Nat.lt_succ_of_lt h

theorem word_index_lt (bn : Nat) : (bn - ndirect) % 256 < 256 := Nat.mod_lt _ (by decide)

/-- The place of the address of block `bn`. -/
def slotOf (bn : Nat) : Slot :=
  if h : bn < ndirect then .inl ⟨bn, direct_index_lt h⟩
  else .inr ⟨(bn - ndirect) % 256, word_index_lt bn⟩

def Dinode.blockAt (ip : Dinode) (data : Nat → Block) (bn : Nat) : Nat := ip.ptr data (slotOf bn)

theorem slotOf_ne_indirect (bn : Nat) : slotOf bn ≠ .inl indirect := by
  unfold slotOf
  split
  · rename_i h
    intro e
    have hv := congrArg Fin.val (Sum.inl.inj e)
    have : bn = 12 := hv
    have : bn < 12 := h
    omega
  · exact Sum.inr_ne_inl

variable {a : Nat} {E : Panic → Prop} {o : Nat × Slot} {st1 st2 : Store} {O : Type}

theorem slotOf_inj {b : Nat} (ha : a < maxfile) (hb : b < maxfile) (h : slotOf a = slotOf b) :
    a = b := by
  have ha' : a < 268 := ha
  have hb' : b < 268 := hb
  unfold slotOf at h
  split at h <;> split at h
  · exact congrArg Fin.val (Sum.inl.inj h)
  · cases h
  · cases h
  · rename_i h1 h2
    have hv := congrArg Fin.val (Sum.inr.inj h)
    have h1' : ¬ a < 12 := h1
    have h2' : ¬ b < 12 := h2
    have hv' : (a - 12) % 256 = (b - 12) % 256 := hv
    omega

/-- An address, if it is not 0. -/
def nonzero (b : Nat) : Option Nat := if b = 0 then none else some b

@[simp] theorem nonzero_zero : nonzero 0 = none := rfl

theorem nonzero_some {b : Nat} : nonzero a = some b ↔ a = b ∧ a ≠ 0 := by
  unfold nonzero
  split
  · simp_all
  · simp_all

theorem nonzero_none : nonzero a = none ↔ a = 0 := by
  unfold nonzero
  split <;> simp_all

/-- The block that an inode has at a place. -/
def owner (ino : Nat → Dinode) (data : Nat → Block) (o : Nat × Slot) : Option Nat :=
  if (ino o.1).type = .free then none else nonzero ((ino o.1).ptr data o.2)

/-! ## §3 The invariant -/

variable (sb : Superblock)

def Superblock.Area (b : Nat) : Prop := sb.nmeta ≤ b ∧ b < sb.size

structure Owned (ino : Nat → Dinode) (st : Store) : Prop where
  pool : Pool sb.Area st.bitmap (owner ino st.data)
  reserved : ∀ b, b < sb.nmeta → st.bitmap b = true
  inums : ∀ i, (ino i).type ≠ .free → 1 ≤ i ∧ i < sb.ninodes
  full : ∀ i bn, (ino i).type ≠ .free → bn * bsize < (ino i).size →
    (ino i).blockAt st.data bn ≠ 0
  size : ∀ i, (ino i).type ≠ .free → (ino i).size ≤ maxfile * bsize

/-- There is no block left. -/
def Full (st : Store) : Prop := ∀ b, b < sb.size → st.bitmap b = true

variable {sb} {ino ino' : Nat → Dinode} {st st' : Store} {i b bn : Nat} {ip : Dinode} {k : Slot}
  {data data' : Nat → Block}

theorem owner_some : owner ino data (i, k) = some b ↔
    (ino i).type ≠ .free ∧ (ino i).ptr data k = b ∧ b ≠ 0 := by
  unfold owner
  split
  · simp_all
  · rename_i h
    rw [nonzero_some]
    simp only [ne_eq, h, not_false_eq_true, true_and]
    constructor
    · rintro ⟨rfl, h0⟩
      exact ⟨rfl, h0⟩
    · rintro ⟨rfl, h0⟩
      exact ⟨rfl, h0⟩

theorem owner_none (h : (ino i).type ≠ .free) :
    owner ino data (i, k) = none ↔ (ino i).ptr data k = 0 := by
  unfold owner
  rw [if_neg h, nonzero_none]

theorem owner_of_alloc (h : (ino i).type ≠ .free) :
    owner ino data (i, k) = nonzero ((ino i).ptr data k) := if_neg h

theorem owner_indirect (h : (ino i).type ≠ .free) (h0 : (ino i).addrs indirect ≠ 0) :
    owner ino data (i, .inl indirect) = some ((ino i).addrs indirect) :=
  owner_some.mpr ⟨h, rfl, h0⟩

theorem Superblock.two_le_nmeta (sb : Superblock) : 2 ≤ sb.nmeta := by
  simp only [Superblock.nmeta, Nat.add_assoc]
  exact Nat.le_add_right ..

theorem Superblock.Area.ne_zero (hb : sb.Area b) : b ≠ 0 := by
  have h1 := hb.1
  have h2 := sb.two_le_nmeta
  omega

/-- An indirect block keeps its words: so do the addresses in it. -/
theorem ptr_congr (data' data : Nat → Block) (k : Slot)
    (h : ip.addrs indirect ≠ 0 → data' (ip.addrs indirect) = data (ip.addrs indirect)) :
    ip.ptr data' k = ip.ptr data k := by
  cases k with
  | inl k => rfl
  | inr j =>
    unfold Dinode.ptr
    dsimp only
    split
    · rfl
    · rename_i h0
      rw [h h0]

/-- A block changes that is not an indirect block. -/
theorem owner_update_data (h : ∀ j, owner ino data (j, .inl indirect) ≠ some b) (d : Block) :
    owner ino (update data b d) = owner ino data := by
  funext ⟨i, k⟩
  unfold owner
  split
  · rfl
  · rename_i ht
    rw [ptr_congr (update data b d) data]
    intro h0
    rw [update_of_ne]
    rintro rfl
    exact h i (owner_indirect ht h0)

/-! ## §4 Allocation -/

/-- The state after block `b` was allocated. -/
def Store.taken (st : Store) (b : Nat) : Store :=
  { st with bitmap := update st.bitmap b true, data := update st.data b zeroBlock }

theorem balloc_spec (h : Owned sb ino st) :
    Meets E (balloc sb) st fun b st' =>
      b = 0 ∧ st' = st ∧ Full sb st ∨ sb.Area b ∧ st.bitmap b = false ∧ st' = st.taken b := by
  refine meets_read ?_
  cases hf : (List.range sb.size).find? fun b => !st.bitmap b with
  | none =>
    refine meets_pure (.inl ⟨rfl, rfl, fun b hb => ?_⟩)
    simpa using List.find?_eq_none.mp hf b (List.mem_range.mpr hb)
  | some b =>
    have hb : st.bitmap b = false := by simpa using List.find?_some hf
    have hlt := List.mem_range.mp (List.mem_of_find?_eq_some hf)
    refine Meets.bind (meets_set (meets_pure (.inr ⟨⟨?_, hlt⟩, hb, rfl⟩)))
    by_contra hn
    rw [h.reserved b (by omega)] at hb
    cases hb

/-! ### Changes of hands -/

/-- The blocks of inodes other than `i` do not depend on inode `i`. -/
theorem owner_update_ne (ho : o.1 ≠ i) : owner (update ino i ip) data o = owner ino data o := by
  unfold owner
  rw [update_of_ne ho]

theorem owner_update_self :
    owner (update ino i ip) data (i, k) =
      if ip.type = .free then none else nonzero (ip.ptr data k) := by
  unfold owner
  rw [update_self]

/-- Owners, sizes and marks as they were: the invariant too. -/
theorem Owned.congr (h : Owned sb ino st) (hown : owner ino' st'.data = owner ino st.data)
    (hbit : st'.bitmap = st.bitmap)
    (hino : ∀ j, (ino' j).type ≠ .free → (ino j).type ≠ .free ∧ (ino' j).size = (ino j).size) :
    Owned sb ino' st' := by
  refine ⟨?_, fun b hb => ?_, fun j hj => ?_, fun j bn hj hbn => ?_, fun j hj => ?_⟩
  · rw [hown, hbit]
    exact h.pool
  · rw [hbit]
    exact h.reserved b hb
  · exact h.inums j (hino j hj).1
  · obtain ⟨hj', hsize⟩ := hino j hj
    have hold := h.full j bn hj' (hsize ▸ hbn)
    have hold' : owner ino st.data (j, slotOf bn) ≠ none := by
      rwa [Ne, owner_none hj']
    rw [← hown, Ne, owner_none hj] at hold'
    exact hold'
  · obtain ⟨hj', hsize⟩ := hino j hj
    rw [hsize]
    exact h.size j hj'

/-- Inode `i` may have got blocks: all holders keep theirs, and the blocks of those that are not
in `X` have the contents they had. -/
structure Extends (X : Nat × Slot → Prop) (i : Nat) (ino : Nat → Dinode) (st : Store)
    (ino' : Nat → Dinode) (st' : Store) : Prop where
  others : ∀ j, j ≠ i → ino' j = ino j
  same : ∃ addrs, ino' i = { ino i with addrs := addrs }
  keeps : ∀ {o b}, owner ino st.data o = some b → owner ino' st'.data o = some b
  data : ∀ {o b}, owner ino st.data o = some b → ¬ X o → st'.data b = st.data b
  dinodes : st'.dinodes = st.dinodes

/-- Only the indirect block of `i` has changed. -/
abbrev Ext (i : Nat) := Extends (· = (i, .inl indirect)) i

variable {X : Nat × Slot → Prop}

theorem Extends.refl : Extends X i ino st ino st :=
  ⟨fun _ _ => rfl, ⟨_, rfl⟩, fun h => h, fun _ _ => rfl, rfl⟩

theorem Extends.trans {ino1 ino2 : Nat → Dinode} (h : Extends X i ino st ino1 st1)
    (h' : Extends X i ino1 st1 ino2 st2) : Extends X i ino st ino2 st2 where
  others j hj := (h'.others j hj).trans (h.others j hj)
  same := by
    obtain ⟨a, ha⟩ := h.same
    obtain ⟨a', ha'⟩ := h'.same
    exact ⟨a', by rw [ha', ha]⟩
  keeps ho := h'.keeps (h.keeps ho)
  data ho hne := (h'.data (h.keeps ho) hne).trans (h.data ho hne)
  dinodes := h'.dinodes.trans h.dinodes

theorem Extends.type (h : Extends X i ino st ino' st') (j : Nat) :
    (ino' j).type = (ino j).type := by
  by_cases e : j = i
  · obtain ⟨a, ha⟩ := h.same
    rw [e, ha]
  · rw [h.others j e]

theorem Extends.size (h : Extends X i ino st ino' st') (j : Nat) :
    (ino' j).size = (ino j).size := by
  by_cases e : j = i
  · obtain ⟨a, ha⟩ := h.same
    rw [e, ha]
  · rw [h.others j e]

/-- Block `b`, which was free, becomes the one at place `k` of inode `i`;
nothing else changes hands. -/
theorem Owned.take (h : Owned sb ino st) (hb : sb.Area b) (hfree : st.bitmap b = false)
    (hk : owner ino st.data (i, k) = none)
    (hown : owner (update ino i ip) st'.data = update (owner ino st.data) (i, k) (some b))
    (hbit : st'.bitmap = update st.bitmap b true)
    (hip : ∃ addrs, ip = { ino i with addrs := addrs })
    (hdata : ∀ {o b}, owner ino st.data o = some b → o ≠ (i, .inl indirect) →
      st'.data b = st.data b) (hdin : st'.dinodes = st.dinodes) :
    Owned sb (update ino i ip) st' ∧ Ext i ino st (update ino i ip) st' := by
  have hkeep : ∀ {o c}, owner ino st.data o = some c →
      owner (update ino i ip) st'.data o = some c := by
    intro o c ho
    rw [hown, update_of_ne, ho]
    rintro rfl
    rw [hk] at ho
    cases ho
  have hext : Ext i ino st (update ino i ip) st' := by
    refine ⟨fun j hj => update_of_ne hj .., ?_, hkeep, hdata, hdin⟩
    rw [update_self]
    exact hip
  refine ⟨⟨?_, fun c hc => ?_, fun j hj => ?_, fun j bn hj hbn => ?_, fun j hj => ?_⟩, hext⟩
  · rw [hown, hbit]
    exact h.pool.take hb hfree hk
  · rw [hbit]
    by_cases e : c = b
    · rw [e, update_self]
    · rw [update_of_ne e]
      exact h.reserved c hc
  · exact h.inums j (hext.type j ▸ hj)
  · rw [hext.size] at hbn
    have hold := h.full j bn (hext.type j ▸ hj) hbn
    have hnew := hkeep (owner_some.mpr ⟨hext.type j ▸ hj, rfl, hold⟩)
    rw [Dinode.blockAt, (owner_some.mp hnew).2.1]
    exact hold
  · rw [hext.size]
    exact h.size j (hext.type j ▸ hj)

/-! ## §5 `bmap` -/

/-- A new indirect block has no addresses yet. -/
theorem owner_setAddr (ht : (ino i).type ≠ .free) {d : Fin 13} (hb : b ≠ 0)
    (hind : d = indirect → (ino i).addrs indirect = 0 ∧ data b = zeroBlock) :
    owner (update ino i ((ino i).setAddr d b)) data =
      update (owner ino data) (i, .inl d) (some b) := by
  funext ⟨j, k⟩
  by_cases e : j = i
  · subst e
    rw [owner_update_self, if_neg (show ((ino j).setAddr d b).type ≠ .free from ht)]
    by_cases ek : k = .inl d
    · rw [ek, update_self]
      simp only [Dinode.ptr, Dinode.setAddr, update_self]
      exact nonzero_some.mpr ⟨rfl, hb⟩
    · rw [update_of_ne (by simpa using ek), owner_of_alloc ht]
      cases k with
      | inl l =>
        have hl : l ≠ d := fun hl => ek (hl ▸ rfl)
        simp only [Dinode.ptr, Dinode.setAddr, update_of_ne hl]
      | inr l =>
        by_cases hd : d = indirect
        · obtain ⟨h0, hzero⟩ := hind hd
          simp only [hd, Dinode.ptr, Dinode.setAddr, update_self, h0, if_neg hb, if_true, hzero]
          rfl
        · simp only [Dinode.ptr, Dinode.setAddr, update_of_ne (Ne.symm hd)]
  · rw [owner_update_ne e, update_of_ne (by simp [e])]

/-- An address is written into the indirect block of inode `i`. -/
theorem owner_setWord
    (hinj : ∀ {o o' c}, owner ino data o = some c → owner ino data o' = some c → o = o')
    (ht : (ino i).type ≠ .free) (h0 : (ino i).addrs indirect ≠ 0) (l : Fin 256) (hb : sb.Area b) :
    owner ino (update data ((ino i).addrs indirect)
        (setWord (data ((ino i).addrs indirect)) l b)) =
      update (owner ino data) (i, .inr l) (some b) := by
  have hlt : b % 2 ^ 32 = b := Nat.mod_eq_of_lt (by have := hb.2; have := sb.small; omega)
  funext ⟨j, k⟩
  by_cases e : j = i
  · subst e
    rw [owner_of_alloc ht]
    cases k with
    | inl d =>
      rw [update_of_ne (by simp), owner_of_alloc ht]
      rfl
    | inr d =>
      simp only [Dinode.ptr, if_neg h0, update_self, setWord]
      by_cases ed : d = l
      · rw [ed, update_self, if_pos rfl, BitVec.toNat_ofNat, hlt]
        exact nonzero_some.mpr ⟨rfl, hb.ne_zero⟩
      · rw [if_neg (fun hv => ed (Fin.ext hv)), update_of_ne (by simpa using ed), owner_of_alloc ht]
        simp only [Dinode.ptr, if_neg h0]
  · rw [update_of_ne (by simp [e])]
    unfold owner
    split
    · rfl
    · rename_i hj
      rw [ptr_congr _ data]
      intro hj0
      rw [update_of_ne]
      intro heq
      have hsame := hinj (owner_indirect hj hj0) (heq ▸ owner_indirect ht h0)
      exact e (congrArg Prod.fst hsame)

/-- A new block is nobody's. -/
theorem Owned.owner_taken (h : Owned sb ino st) (hfree : st.bitmap b = false) :
    owner ino (st.taken b).data = owner ino st.data :=
  owner_update_data (fun _ => h.pool.unheld hfree _) zeroBlock

theorem Owned.data_taken (h : Owned sb ino st) (hfree : st.bitmap b = false) {c : Nat}
    (ho : owner ino st.data o = some c) : (st.taken b).data c = st.data c := by
  refine update_of_ne ?_ ..
  rintro rfl
  exact h.pool.unheld hfree o ho

/-- What `bmap` and its parts leave: inode `i` is `ip` now and may have got
blocks. -/
def Grown (sb : Superblock) (i : Nat) (ino : Nat → Dinode) (st : Store) (ip : Dinode)
    (st' : Store) : Prop :=
  Owned sb (update ino i ip) st' ∧ Ext i ino st (update ino i ip) st'

theorem Grown.refl (h : Owned sb ino st) : Grown sb i ino st (ino i) st := by
  unfold Grown
  rw [update_eq_self]
  exact ⟨h, .refl⟩

theorem Grown.trans {ip1 ip2 : Dinode} (h : Grown sb i ino st ip1 st1)
    (h' : Grown sb i (update ino i ip1) st1 ip2 st2) : Grown sb i ino st ip2 st2 := by
  unfold Grown at h'
  rw [update_idem] at h'
  exact ⟨h'.1, h.2.trans h'.2⟩

section

variable (h : Owned sb ino st) (ht : (ino i).type ≠ .free)
include h ht

theorem Grown.addr {d : Fin 13}
    (h0 : (ino i).addrs d = 0) (hb : sb.Area b) (hfree : st.bitmap b = false) :
    Grown sb i ino st ((ino i).setAddr d b) (st.taken b) := by
  refine h.take (k := .inl d) hb hfree ((owner_none ht).mpr h0) ?_ rfl ⟨_, rfl⟩
    (fun ho _ => h.data_taken hfree ho) rfl
  have hzero : (st.taken b).data b = zeroBlock := update_self ..
  rw [owner_setAddr ht hb.ne_zero fun hd => ⟨hd ▸ h0, hzero⟩, h.owner_taken hfree]

theorem Grown.word (h0 : (ino i).addrs Files.indirect ≠ 0) (l : Fin 256)
    (hl : (st.data ((ino i).addrs Files.indirect) l).toNat = 0) (hb : sb.Area b)
    (hfree : st.bitmap b = false) :
    Grown sb i ino st (ino i)
      { st.taken b with
        data := update (st.taken b).data ((ino i).addrs Files.indirect)
          (setWord ((st.taken b).data ((ino i).addrs Files.indirect)) l b) } := by
  have hnone : owner ino st.data (i, .inr l) = none := by
    rw [owner_none ht]
    simp only [Dinode.ptr, if_neg h0, hl]
  refine h.take (k := .inr l) hb hfree hnone ?_ rfl ⟨_, rfl⟩ ?_ rfl
  · rw [update_eq_self, ← h.owner_taken hfree]
    exact owner_setWord (by rw [h.owner_taken hfree]; exact h.pool.inj) ht h0 l hb
  · intro o c ho hne
    have hc : c ≠ (ino i).addrs Files.indirect := by
      rintro rfl
      exact hne (h.pool.inj ho (owner_indirect ht h0))
    rw [← h.data_taken hfree ho]
    exact update_of_ne hc ..

theorem inodeAddr_spec (d : Fin 13) :
    Meets E (inodeAddr sb (ino i) d) st fun r st' =>
      Grown sb i ino st r.2 st' ∧ r.1 = r.2.addrs d ∧ (r.1 = 0 → Full sb st') ∧
      ((ino i).addrs d ≠ 0 → r.2 = ino i ∧ st' = st) := by
  refine meets_ite (fun h0 => ?_) (fun h0 => ?_)
  · refine (balloc_spec h).seq fun b st' hb => ?_
    rcases hb with ⟨rfl, rfl, hfull⟩ | ⟨hb, hfree, rfl⟩
    · exact meets_pure ⟨.refl h, h0.symm, fun _ => hfull, fun hn => absurd h0 hn⟩
    · rw [if_neg hb.ne_zero]
      refine meets_pure ⟨.addr h ht h0 hb hfree, ?_, fun hb0 => absurd hb0 hb.ne_zero,
        fun hn => absurd h0 hn⟩
      simp only [Dinode.setAddr, update_self]
  · exact meets_pure ⟨.refl h, rfl, fun hb0 => absurd hb0 h0, fun _ => ⟨rfl, rfl⟩⟩

theorem indirectAddr_spec (h0 : (ino i).addrs indirect ≠ 0) (l : Fin 256) :
    Meets E (indirectAddr sb ((ino i).addrs indirect) l) st fun addr st' =>
      Grown sb i ino st (ino i) st' ∧ addr = (ino i).ptr st'.data (.inr l) ∧
      (addr = 0 → Full sb st') ∧ ((ino i).ptr st.data (.inr l) ≠ 0 → st' = st) := by
  have hptr : ∀ d : Nat → Block, (ino i).ptr d (.inr l) = (d ((ino i).addrs indirect) l).toNat :=
    fun d => if_neg h0
  have hword : word (st.data ((ino i).addrs indirect)) l = st.data ((ino i).addrs indirect) l :=
    dif_pos l.isLt
  refine Meets.bind (meets_read (meets_pure ?_))
  rw [hword]
  refine meets_ite (fun hz => ?_) (fun hz => ?_)
  · refine (balloc_spec h).seq fun b st' hb => ?_
    rcases hb with ⟨rfl, rfl, hfull⟩ | ⟨hb, hfree, rfl⟩
    · refine meets_pure ⟨.refl h, ?_, fun _ => hfull, fun hn => absurd ((hptr _).trans hz) hn⟩
      rw [hptr, hz]
    · rw [if_neg hb.ne_zero]
      refine meets_update (meets_pure ⟨.word h ht h0 l hz hb hfree, ?_,
        fun hb0 => absurd hb0 hb.ne_zero, fun hn => absurd ((hptr _).trans hz) hn⟩)
      rw [hptr]
      simp only [update_self, setWord, if_true, BitVec.toNat_ofNat]
      exact (Nat.mod_eq_of_lt (by have := hb.2; have := sb.small; omega)).symm
  · exact meets_pure ⟨.refl h, (hptr _).symm, fun hz0 => absurd hz0 hz, fun _ => rfl⟩

end

theorem slotOf_direct (h : bn < ndirect) : slotOf bn = .inl ⟨bn, Nat.lt_succ_of_lt h⟩ := dif_pos h

theorem slotOf_indirect (h : ¬ bn < ndirect) (hbn : bn - ndirect < 256) :
    slotOf bn = .inr ⟨bn - ndirect, hbn⟩ := by
  unfold slotOf
  rw [dif_neg h]
  congr 2
  exact Nat.mod_eq_of_lt hbn

/-- The block is there, or the disk is full. A block that was there is
returned without any change. -/
theorem bmap_spec (h : Owned sb ino st) (ht : (ino i).type ≠ .free) (hbn : bn < maxfile) :
    Meets E (bmap sb (ino i) bn) st fun r st' =>
      Grown sb i ino st r.2 st' ∧ (r.1 ≠ 0 → r.2.blockAt st'.data bn = r.1) ∧
      (r.1 = 0 → Full sb st') ∧
      ((ino i).blockAt st.data bn ≠ 0 → r = ((ino i).blockAt st.data bn, ino i) ∧ st' = st) := by
  unfold bmap Dinode.blockAt
  by_cases hd : bn < ndirect
  · rw [dif_pos hd, slotOf_direct hd]
    refine (inodeAddr_spec h ht _).imp fun ⟨addr, ip⟩ st' ⟨hg, hr, hfull, hsame⟩ => ?_
    refine ⟨hg, fun _ => hr.symm, hfull, fun hn => ?_⟩
    obtain ⟨rfl, rfl⟩ := hsame hn
    exact ⟨Prod.ext hr rfl, rfl⟩
  · have hl : bn - ndirect < 256 := by
      have : bn < ndirect + 256 := hbn
      omega
    rw [dif_neg hd, if_pos (show bn - ndirect < nindirect from hl), slotOf_indirect hd hl]
    refine (inodeAddr_spec h ht indirect).seq fun ⟨ind, ip⟩ st1 hind => ?_
    dsimp only at hind ⊢
    obtain ⟨hgrown, rfl, hfull, hsame⟩ := hind
    have hstay : (ino i).ptr st.data (.inr ⟨bn - ndirect, hl⟩) ≠ 0 → ip = ino i ∧ st1 = st := by
      intro hn
      refine hsame (fun h0 => hn ?_)
      simp only [Dinode.ptr, if_pos h0]
    refine meets_ite (fun h0 => ?_) (fun h0 => ?_)
    · refine meets_pure ⟨hgrown, fun hn => absurd rfl hn, fun _ => hfull h0, fun hn => ?_⟩
      obtain ⟨rfl, rfl⟩ := hstay hn
      exact absurd (if_pos h0) hn
    · have hself : update ino i ip i = ip := update_self ..
      have hspec := indirectAddr_spec (E := E) hgrown.1 (by rw [hgrown.2.type]; exact ht)
        (hself.symm ▸ h0) ⟨bn - ndirect, hl⟩
      rw [hself] at hspec
      refine hspec.seq fun addr st' ⟨hg, haddr, hfull', hsame'⟩ => ?_
      refine meets_pure ⟨hgrown.trans hg, fun _ => haddr.symm, hfull', fun hn => ?_⟩
      obtain ⟨rfl, rfl⟩ := hstay hn
      obtain rfl := hsame' hn
      exact ⟨Prod.ext haddr rfl, rfl⟩

/-! ## §6 `itrunc` and `ialloc` -/

/-- Only bits of data blocks have changed. -/
structure Frees (sb : Superblock) (st st' : Store) : Prop where
  bits : ∀ b, ¬ sb.Area b → st'.bitmap b = st.bitmap b
  data : st'.data = st.data
  dinodes : st'.dinodes = st.dinodes

theorem Frees.refl : Frees sb st st := ⟨fun _ _ => rfl, rfl, rfl⟩

theorem Frees.trans (h : Frees sb st st1) (h' : Frees sb st1 st2) :
    Frees sb st st2 :=
  ⟨fun b hb => (h'.bits b hb).trans (h.bits b hb), h'.data.trans h.data,
    h'.dinodes.trans h.dinodes⟩

/-- The holders `os` have given their blocks back. -/
def without {O : Type} [DecidableEq O] (own : O → Option Nat) (os : List O) (o : O) : Option Nat :=
  if o ∈ os then none else own o

theorem without_cons [DecidableEq O] (own : O → Option Nat) (o : O) (os : List O) :
    without (update own o none) os = without own (o :: os) := by
  funext a
  unfold without
  by_cases e : a = o
  · simp [e]
  · simp [e]

theorem bfree_spec [DecidableEq O] {own : O → Option Nat} {o : O} (hp : Pool sb.Area st.bitmap own)
    (ho : own o = some b) :
    Meets E (bfree b) st fun _ st' =>
      Pool sb.Area st'.bitmap (update own o none) ∧ Frees sb st st' := by
  refine meets_read ?_
  rw [hp.marked ho, if_pos rfl]
  refine meets_set ⟨hp.give ho, fun c hc => update_of_ne ?_ .., rfl, rfl⟩
  rintro rfl
  exact hc (hp.area ho)

theorem freeBlocks_spec [DecidableEq O] (os : List O) {own : O → Option Nat}
    (hp : Pool sb.Area st.bitmap own) (hnd : os.Nodup) :
    Meets E (freeBlocks (os.map fun o => (own o).getD 0)) st fun _ st' =>
      Pool sb.Area st'.bitmap (without own os) ∧ Frees sb st st' := by
  induction os generalizing own st with
  | nil =>
    refine meets_pure ⟨?_, .refl⟩
    exact (funext fun _ => rfl : without own [] = own) ▸ hp
  | cons o os ih =>
    obtain ⟨ho, hnd⟩ := List.nodup_cons.mp hnd
    -- the addresses of the others are those from before `o` gave up its block
    have hrest : (os.map fun a => (own a).getD 0) =
        os.map fun a => (update own o none a).getD 0 := by
      refine List.map_congr_left fun a ha => ?_
      rw [update_of_ne]
      rintro rfl
      exact ho ha
    simp only [List.map_cons, freeBlocks]
    rw [hrest, ← without_cons]
    cases hown : own o with
    | none =>
      have hsame : update own o none = own := by rw [← hown, update_eq_self]
      rw [hsame]
      exact ih hp hnd
    | some b =>
      rw [Option.getD_some, if_neg (hp.area hown).ne_zero]
      refine (bfree_spec hp hown).seq fun _ st1 ⟨hp1, h1⟩ => ?_
      exact (ih hp1 hnd).imp fun _ st' ⟨hp', h'⟩ => ⟨hp', h1.trans h'⟩

/-- The places of inode `i` that `itrunc` goes through, in two parts. -/
def directSlots (i : Nat) : List (Nat × Slot) :=
  (List.finRange ndirect).map fun k => (i, .inl k.castSucc)

def indirectSlots (i : Nat) : List (Nat × Slot) := (List.finRange 256).map fun k => (i, .inr k)

theorem nonzero_getD (a : Nat) : (nonzero a).getD 0 = a := by
  unfold nonzero
  split
  · rename_i h
    rw [h]
    rfl
  · rfl

theorem directSlots_addrs (data : Nat → Block) (ht : (ino i).type ≠ .free) :
    ((List.finRange ndirect).map fun k => (ino i).addrs k.castSucc) =
      (directSlots i).map fun o => (owner ino data o).getD 0 := by
  rw [directSlots, List.map_map]
  refine List.map_congr_left fun k _ => ?_
  rw [comp_apply, owner_of_alloc ht, nonzero_getD]
  rfl

theorem indirectSlots_addrs (ht : (ino i).type ≠ .free) (h0 : (ino i).addrs indirect ≠ 0) :
    entries (data ((ino i).addrs indirect)) =
      (indirectSlots i).map fun o => (owner ino data o).getD 0 := by
  rw [indirectSlots, List.map_map, entries]
  refine List.map_congr_left fun k _ => ?_
  rw [comp_apply, owner_of_alloc ht, nonzero_getD]
  simp only [Dinode.ptr, if_neg h0]

theorem directSlots_nodup (i : Nat) : (directSlots i).Nodup := by
  refine List.Nodup.map ?_ (List.nodup_finRange _)
  intro a b h
  exact Fin.castSucc_inj.mp (Sum.inl.inj (congrArg Prod.snd h))

theorem indirectSlots_nodup (i : Nat) : (indirectSlots i).Nodup := by
  refine List.Nodup.map ?_ (List.nodup_finRange _)
  intro a b h
  exact Sum.inr.inj (congrArg Prod.snd h)

theorem mem_directSlots : o ∈ directSlots i ↔ ∃ d : Fin 13, d ≠ indirect ∧ o = (i, .inl d) := by
  constructor
  · intro h
    obtain ⟨k, _, rfl⟩ := List.mem_map.mp h
    exact ⟨k.castSucc, Fin.ne_of_val_ne (Nat.ne_of_lt k.isLt), rfl⟩
  · rintro ⟨d, hd, rfl⟩
    have hlt : d.val < 12 := by
      have h2 : d.val ≠ 12 := fun e => hd (Fin.ext e)
      omega
    exact List.mem_map.mpr ⟨⟨d.val, hlt⟩, List.mem_finRange _, rfl⟩

theorem mem_indirectSlots : o ∈ indirectSlots i ↔ ∃ l, o = (i, .inr l) := by
  constructor
  · intro h
    obtain ⟨k, _, rfl⟩ := List.mem_map.mp h
    exact ⟨k, rfl⟩
  · rintro ⟨l, rfl⟩
    exact List.mem_map.mpr ⟨l, List.mem_finRange _, rfl⟩

/-- An inode without blocks. -/
def Dinode.emptied (ip : Dinode) : Dinode := { ip with addrs := fun _ => 0, size := 0 }

theorem Dinode.ptr_emptied (ip : Dinode) (data : Nat → Block) (k : Slot) :
    ip.emptied.ptr data k = 0 := by
  cases k with
  | inl d => rfl
  | inr l => rfl

/-- Only inode `i` has lost its blocks. -/
theorem Owned.bare (h : Owned sb ino st) (hi : 1 ≤ i ∧ i < sb.ninodes)
    (hptr : ∀ k, ip.ptr st'.data k = 0) (hsize : ip.size = 0)
    (hp : Pool sb.Area st'.bitmap fun o => if o.1 = i then none else owner ino st.data o)
    (hfrees : Frees sb st st') : Owned sb (update ino i ip) st' := by
  have hown : owner (update ino i ip) st'.data =
      fun o => if o.1 = i then none else owner ino st.data o := by
    funext ⟨j, k⟩
    by_cases e : j = i
    · subst e
      rw [owner_update_self, hptr, if_pos rfl]
      exact ite_self _
    · rw [owner_update_ne e, if_neg e, hfrees.data]
  have hino : ∀ j, j ≠ i → update ino i ip j = ino j := fun j hj => update_of_ne hj ..
  refine ⟨hown ▸ hp, fun b hb => ?_, fun j hj => ?_, fun j bn hj hbn => ?_, fun j hj => ?_⟩
  · rw [hfrees.bits b fun ha => absurd ha.1 (Nat.not_le.mpr hb)]
    exact h.reserved b hb
  · by_cases e : j = i
    · exact e ▸ hi
    · exact h.inums j (hino j e ▸ hj)
  · by_cases e : j = i
    · subst e
      rw [update_self, hsize] at hbn
      exact absurd hbn (Nat.not_lt_zero _)
    · rw [hino j e] at hj hbn ⊢
      rw [hfrees.data]
      exact h.full j bn hj hbn
  · by_cases e : j = i
    · subst e
      rw [update_self, hsize]
      exact Nat.zero_le _
    · rw [hino j e] at hj ⊢
      exact h.size j hj

/-- Without the direct blocks of `i`, and nothing at its other places: none
of the blocks of `i`. -/
theorem without_all {own own' : Nat × Slot → Option Nat}
    (hdirect : ∀ d, d ≠ indirect → own' (i, .inl d) = none) (hind : own' (i, .inl indirect) = none)
    (hword : ∀ l, own' (i, .inr l) = none) (hother : ∀ o, o.1 ≠ i → own' o = own o) :
    own' = fun o => if o.1 = i then none else own o := by
  funext ⟨j, k⟩
  by_cases e : j = i
  · subst e
    rw [if_pos rfl]
    cases k with
    | inl d =>
      by_cases hd : d = indirect
      · rw [hd, hind]
      · exact hdirect d hd
    | inr l => exact hword l
  · rw [if_neg e]
    exact hother _ e

/-- Once its direct blocks are free, so are the blocks of the indirect block
and the indirect block itself. -/
theorem freeIndirect_spec (ht : (ino i).type ≠ .free)
    (hp : Pool sb.Area st.bitmap (without (owner ino st.data) (directSlots i))) :
    Meets E (freeIndirect (ino i)) st fun _ st' =>
      Pool sb.Area st'.bitmap (fun o => if o.1 = i then none else owner ino st.data o) ∧
      Frees sb st st' := by
  have hdirect : ∀ d, d ≠ indirect →
      without (owner ino st.data) (directSlots i) (i, .inl d) = none :=
    fun d hd => if_pos (mem_directSlots.mpr ⟨d, hd, rfl⟩)
  have hword : ∀ l, without (owner ino st.data) (directSlots i) (i, .inr l) =
      owner ino st.data (i, .inr l) :=
    fun l => if_neg (by simp [mem_directSlots])
  have hind : without (owner ino st.data) (directSlots i) (i, .inl indirect) =
      owner ino st.data (i, .inl indirect) :=
    if_neg (by simp [mem_directSlots])
  have hother : ∀ o : Nat × Slot, o.1 ≠ i →
      without (owner ino st.data) (directSlots i) o = owner ino st.data o := by
    refine fun o ho => if_neg fun hm => ?_
    obtain ⟨d, _, rfl⟩ := mem_directSlots.mp hm
    exact ho rfl
  refine meets_ite (fun h0 => ?_) (fun h0 => ?_)
  · refine meets_pure ⟨?_, .refl⟩
    rw [← without_all hdirect (hind.trans ((owner_none ht).mpr h0))
      (fun l => (hword l).trans ((owner_none ht).mpr (if_pos h0))) hother]
    exact hp
  · refine meets_read ?_
    have hlist : entries (st.data ((ino i).addrs indirect)) = (indirectSlots i).map fun o =>
        (without (owner ino st.data) (directSlots i) o).getD 0 := by
      rw [indirectSlots_addrs ht h0]
      refine List.map_congr_left fun o ho => ?_
      obtain ⟨l, rfl⟩ := mem_indirectSlots.mp ho
      rw [hword]
    rw [hlist]
    refine (freeBlocks_spec _ hp (indirectSlots_nodup i)).seq fun _ st1 ⟨hp1, h1⟩ => ?_
    have hkeep : ∀ d, without (without (owner ino st.data) (directSlots i)) (indirectSlots i)
        (i, .inl d) = without (owner ino st.data) (directSlots i) (i, .inl d) :=
      fun d => if_neg (by simp [mem_indirectSlots])
    have hhold := (hkeep indirect).trans (hind.trans (owner_indirect ht h0))
    refine (bfree_spec hp1 hhold).imp fun _ st2 ⟨hp2, h2⟩ => ⟨?_, h1.trans h2⟩
    rw [← without_all (fun d hd => ?_) (update_self ..) (fun l => ?_) (fun o ho => ?_)]
    · exact hp2
    · rw [update_of_ne (by simpa using hd), hkeep, hdirect d hd]
    · rw [update_of_ne (by simp)]
      exact if_pos (mem_indirectSlots.mpr ⟨l, rfl⟩)
    · rw [update_of_ne (fun e => ho (congrArg Prod.fst e))]
      refine Eq.trans (if_neg fun hm => ?_) (hother o ho)
      obtain ⟨l, rfl⟩ := mem_indirectSlots.mp hm
      exact ho rfl

/-- The blocks of a truncated inode are free, all others are as before. -/
theorem itrunc_spec (h : Owned sb ino st) (ht : (ino i).type ≠ .free) :
    Meets E (itrunc i (ino i)) st fun ip st' =>
      ip = (ino i).emptied ∧ Owned sb (update ino i ip) st' ∧ st'.data = st.data ∧
      st'.dinodes = update st.dinodes i ip ∧ ∀ b, ¬ sb.Area b → st'.bitmap b = st.bitmap b := by
  unfold itrunc
  rw [directSlots_addrs st.data ht]
  refine (freeBlocks_spec _ h.pool (directSlots_nodup i)).seq fun _ st1 ⟨hp1, h1⟩ => ?_
  rw [← h1.data] at hp1
  refine (freeIndirect_spec ht hp1).seq fun _ st2 ⟨hp2, h2⟩ => ?_
  rw [h1.data] at hp2
  have hemp := h.bare (h.inums i ht) ((ino i).ptr_emptied _) rfl hp2 (h1.trans h2)
  refine meets_update (meets_pure ⟨rfl, ?_, (h1.trans h2).data, ?_, (h1.trans h2).bits⟩)
  · exact hemp.congr rfl rfl fun j hj => ⟨hj, rfl⟩
  · rw [← (h1.trans h2).dinodes]

theorem Dinode.ptr_zero {type : FileType} (data : Nat → Block) (k : Slot) :
    ({ Dinode.zero with type := type } : Dinode).ptr data k = 0 := by
  cases k with
  | inl d => rfl
  | inr l => rfl

/-- A new inode has no blocks. -/
theorem Owned.alloc (h : Owned sb ino st) (hfree : (ino i).type = .free)
    (hi : 1 ≤ i ∧ i < sb.ninodes)
    {type : FileType} : Owned sb (update ino i { Dinode.zero with type := type }) st := by
  have hown : owner ino st.data = fun o => if o.1 = i then none else owner ino st.data o := by
    funext o
    split
    · rename_i e
      rw [owner, e, if_pos hfree]
    · rfl
  exact h.bare hi (Dinode.ptr_zero st.data) rfl (hown ▸ h.pool) .refl

/-- The type, link count and device numbers of an inode have nothing to do
with its blocks, as long as a free inode has none. -/
theorem Owned.retype (h : Owned sb ino st) (haddrs : ip.addrs = (ino i).addrs)
    (hsize : ip.size = (ino i).size)
    (htype : ip.type = (ino i).type ∨ ip.type = .free ∧ (ino i).addrs = fun _ => 0) :
    Owned sb (update ino i ip) st := by
  have hptr : ∀ k, ip.ptr st.data k = (ino i).ptr st.data k := by
    intro k
    unfold Dinode.ptr
    rw [haddrs]
  refine h.congr ?_ rfl (fun j hj => ?_)
  · funext ⟨j, k⟩
    by_cases e : j = i
    · subst e
      rw [owner_update_self, hptr, owner]
      rcases htype with ht | ⟨ht, h0⟩
      · rw [ht]
      · have hz : (ino j).ptr st.data k = 0 := by
          cases k with
          | inl d => exact congrFun h0 d
          | inr l => exact if_pos (congrFun h0 indirect)
        simp only [hz, nonzero_zero, ite_self]
    · exact owner_update_ne e
  · by_cases e : j = i
    · subst e
      rw [update_self] at hj ⊢
      rcases htype with ht | ⟨ht, _⟩
      · exact ⟨ht ▸ hj, hsize⟩
      · exact absurd ht hj
    · rw [update_of_ne e] at hj ⊢
      exact ⟨hj, rfl⟩

def Dinode.freed (ip : Dinode) : Dinode := { ip.emptied with type := .free }

/-- A truncated inode can be freed. -/
theorem Owned.free (h : Owned sb (update ino i (ino i).emptied) st) :
    Owned sb (update ino i (ino i).freed) st := by
  have hself : update ino i (ino i).emptied i = (ino i).emptied := update_self ..
  have hfreed : Owned sb (update (update ino i (ino i).emptied) i (ino i).freed) st :=
    h.retype (by rw [hself]; rfl) (by rw [hself]; rfl) (.inr ⟨rfl, by rw [hself]; rfl⟩)
  rwa [update_idem] at hfreed

theorem ialloc_spec (h : Owned sb st.dinodes st) (type : FileType) :
    Meets E (ialloc sb type) st fun r st' =>
      r = none ∧ st' = st ∨
      ∃ i, r = some i ∧ 1 ≤ i ∧ (st.dinodes i).type = .free ∧
        st' = { st with dinodes := update st.dinodes i { Dinode.zero with type := type } } ∧
        Owned sb st'.dinodes st' := by
  refine meets_read ?_
  cases hf : (List.range sb.ninodes).find? fun i => 1 ≤ i ∧ (st.dinodes i).type = .free with
  | none => exact meets_pure (.inl ⟨rfl, rfl⟩)
  | some i =>
    have hi : 1 ≤ i ∧ (st.dinodes i).type = .free := by simpa using List.find?_some hf
    have hlt := List.mem_range.mp (List.mem_of_find?_eq_some hf)
    refine meets_update (meets_pure (.inr ⟨i, rfl, hi.1, hi.2, rfl, ?_⟩))
    exact (h.alloc hi.2 ⟨hi.1, hlt⟩).congr rfl rfl fun j hj => ⟨hj, rfl⟩

end Xv6.Files
