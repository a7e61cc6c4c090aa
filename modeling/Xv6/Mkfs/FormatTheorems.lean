/-
Xv6.Mkfs.FormatTheorems — what is written in the format is read back.

§1 the superblock, §2 inodes in a block, §3 the bitmap.
-/
import Xv6.Mkfs.Mkfs

namespace Xv6.Mkfs

open Xv6.Fs (Block word)
open Xv6.Files Function

/-! ## §1 The superblock -/

theorem readsb_block : readsb sb.block = sb := by decide +kernel

theorem nmeta_eq : nmeta = 47 := by decide

theorem bmapstart_eq : sb.bmapstart = 46 := by decide

theorem inodestart_eq : sb.inodestart = 33 := by decide

/-! ## §2 Inodes in a block -/

theorem typeOf_typeShort (t : FileType) : typeOf (typeShort t) = t := by
  cases t <;> decide

/-- The fields fit into their words. -/
structure Dinode.Fits (d : Dinode) : Prop where
  size : d.size < 2 ^ 32
  addrs : ∀ k, d.addrs k < 2 ^ 32

theorem toNat_pair (x y : BitVec 16) : (x ++ y : BitVec 32).toNat = 2 ^ 16 * x.toNat + y.toNat := by
  rw [BitVec.toNat_append, ← Nat.shiftLeft_add_eq_or_of_lt y.isLt, Nat.shiftLeft_eq, Nat.mul_comm]

theorem low_pair (x y : BitVec 16) : (x ++ y : BitVec 32).setWidth 16 = y := by
  apply BitVec.eq_of_toNat_eq
  rw [BitVec.toNat_setWidth, toNat_pair, Nat.mul_add_mod, Nat.mod_eq_of_lt y.isLt]

theorem high_pair (x y : BitVec 16) : (x ++ y : BitVec 32).extractLsb' 16 16 = x := by
  apply BitVec.eq_of_toNat_eq
  rw [BitVec.extractLsb'_toNat, toNat_pair, Nat.shiftRight_eq_div_pow, Nat.mul_add_div (by decide),
    Nat.div_eq_of_lt y.isLt, Nat.add_zero, Nat.mod_eq_of_lt x.isLt]

theorem word_putDinode (b : Block) {k k' j : Nat} (d : Dinode) (hk : k' < ipb)
    (hj : j < wordsPerDinode) :
    word (putDinode b k d) (k' * wordsPerDinode + j) =
      if k' = k then dinodeWord d j else word b (k' * wordsPerDinode + j) := by
  unfold ipb at hk
  unfold wordsPerDinode at *
  have hlt : k' * 16 + j < 256 := by omega
  have hdiv : (k' * 16 + j) / 16 = k' := by omega
  have hmod : (k' * 16 + j) % 16 = j := by omega
  unfold word
  rw [dif_pos hlt, dif_pos hlt]
  simp only [putDinode, wordsPerDinode, hdiv, hmod]

theorem dinodeOf_putDinode (b : Block) {k k' : Nat} {d : Dinode} (hd : Dinode.Fits d)
    (hk : k' < ipb) :
    dinodeOf (putDinode b k d) k' = if k' = k then d else dinodeOf b k' := by
  have h0 := word_putDinode b (k := k) d hk (j := 0) (by decide)
  have h1 := word_putDinode b (k := k) d hk (j := 1) (by decide)
  have h2 := word_putDinode b (k := k) d hk (j := 2) (by decide)
  have ha : ∀ a : Fin 13, word (putDinode b k d) (k' * wordsPerDinode + 3 + a) =
      if k' = k then dinodeWord d (3 + a) else word b (k' * wordsPerDinode + 3 + a) := by
    intro a
    rw [Nat.add_assoc]
    exact word_putDinode b d hk (by unfold wordsPerDinode; omega)
  rw [Nat.add_zero] at h0
  unfold dinodeOf
  simp only [h0, h1, h2, ha]
  split
  case isFalse => rfl
  case isTrue =>
    have haddr : ∀ a : Fin 13, (dinodeWord d (3 + a)).toNat = d.addrs a := by
      intro a
      have hword : dinodeWord d (3 + a) = BitVec.ofNat 32 (d.addrs a) := by
        unfold dinodeWord
        have hsub : 3 + a.val - 3 = a.val := by omega
        rw [if_neg (by omega), if_neg (by omega), if_neg (by omega), dif_pos (by omega)]
        simp only [hsub]
      rw [hword, BitVec.toNat_ofNat, Nat.mod_eq_of_lt (hd.addrs a)]
    have hsize : (dinodeWord d 2).toNat = d.size := by
      show (BitVec.ofNat 32 d.size).toNat = _
      rw [BitVec.toNat_ofNat, Nat.mod_eq_of_lt hd.size]
    simp only [haddr, hsize]
    simp only [dinodeWord, if_true, Nat.one_ne_zero, if_false, low_pair, high_pair,
      typeOf_typeShort]

/-! ## §3 The bitmap -/

theorem bitSet_iff (b : Block) (bi : Nat) :
    bitSet b bi = (blockByte b (bi / 8)).getLsbD (bi % 8) := by
  have hlt : bi % 8 < 8 := Nat.mod_lt _ (by decide)
  unfold bitSet
  rw [← BitVec.twoPow_eq, BitVec.and_twoPow]
  cases (blockByte b (bi / 8)).getLsbD (bi % 8) with
  | false => simp
  | true =>
    have hne : BitVec.twoPow 8 (bi % 8) ≠ 0#8 := by
      intro h0
      have hbit := congrArg (fun x => x.getLsbD (bi % 8)) h0
      simp [hlt] at hbit
    simpa using hne

theorem getLsbD_markBit (buf : Nat → Byte) (i k : Nat) {j : Nat} (hj : j < 8) :
    (markBit buf i k).getLsbD j = ((buf k).getLsbD j || decide (8 * k + j = i)) := by
  unfold markBit
  by_cases hk : k = i / 8
  · subst hk
    rw [update_self, BitVec.getLsbD_or, ← BitVec.twoPow_eq, BitVec.getLsbD_twoPow]
    have hiff : (i % 8 = j) ↔ 8 * (i / 8) + j = i := by omega
    have hlt : i % 8 < 8 := Nat.mod_lt _ (by decide)
    simp [hj, hiff, hlt]
  · rw [update_of_ne hk]
    have hne : ¬ 8 * k + j = i := by omega
    simp [hne]

theorem getLsbD_marked (n k : Nat) {j : Nat} (hj : j < 8) :
    ((List.range n).foldl markBit (fun _ => 0) k).getLsbD j = decide (8 * k + j < n) := by
  induction n with
  | zero => simp
  | succ n ih =>
    rw [List.range_succ, List.foldl_append]
    show (markBit _ n k).getLsbD j = _
    rw [getLsbD_markBit _ _ _ hj, ih, ← Bool.decide_or]
    congr 1
    exact propext (by omega)

/-- The bits that `balloc` sets. -/
theorem bitSet_marked (n : Nat) {bi : Nat} (hb : bi < bpb) :
    bitSet (ofBytes ((List.range n).foldl markBit fun _ => 0)) bi = decide (bi < n) := by
  unfold bpb at hb
  rw [bitSet_iff, blockByte_ofBytes _ (by unfold bsize; omega),
    getLsbD_marked _ _ (Nat.mod_lt _ (by decide)), Nat.div_add_mod]

end Xv6.Mkfs
