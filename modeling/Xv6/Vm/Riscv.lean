/-
Xv6.Vm.Riscv — machine words, pages and page-table entries, from
`kernel/riscv.h`, `kernel/memlayout.h` and `kernel/param.h`.

A physical page is 512 little-endian 64-bit words; a byte of a page is a
byte of one of its words. A page-table entry is a word. Addresses are
natural numbers: a `uint64` expression that can wrap in C is reduced with
`u64` where it is computed.

The lemmas say what the entry macros do to the parts of an entry: the page
it names (`ppn`) and its flag bits.
-/
import Mathlib.Algebra.Order.Ring.Int

namespace Xv6.Vm

abbrev Word := BitVec 64
abbrev Byte := BitVec 8

/-! ## Constants -/

def pgSize : Nat := 4096
def maxVa : Nat := 2 ^ 38
def trampolineVa : Nat := maxVa - pgSize
def trapframeVa : Nat := trampolineVa - pgSize
def kernBase : Nat := 0x80000000
def physTop : Nat := kernBase + 128 * 1024 * 1024

def uart0 : Nat := 0x10000000
def virtio0 : Nat := 0x10001000
def plic : Nat := 0x0c000000

/-- The pages the disk and its driver share. -/
inductive Ring where
  | desc
  | avail
  | used
  deriving DecidableEq, Repr

/-- `KSTACK(p)`: each stack has an invalid guard page above it. -/
def kstackVa (p : Nat) : Nat := trampolineVa - (p + 1) * 2 * pgSize

def nproc : Nat := 64
def maxArg : Nat := 32
def userStack : Nat := 1

theorem nproc_pos : 0 < nproc := by decide

@[simp] theorem pgSize_eq : pgSize = 4096 := rfl
@[simp] theorem maxVa_eq : maxVa = 274877906944 := rfl
@[simp] theorem trampolineVa_eq : trampolineVa = 274877902848 := rfl
@[simp] theorem trapframeVa_eq : trapframeVa = 274877898752 := rfl
@[simp] theorem physTop_eq : physTop = 2281701376 := rfl

/-- The number of user pages below the trapframe. -/
def userPages : Nat := trapframeVa / pgSize

@[simp] theorem userPages_eq : userPages = 67108862 := rfl

/-! ## `uint64` arithmetic -/

/-- The value of a `uint64` expression. -/
def u64 (n : Nat) : Nat := n % 2 ^ 64

theorem u64_of_lt {n : Nat} (h : n < 2 ^ 64) : u64 n = n := Nat.mod_eq_of_lt h

def pgRoundUp (sz : Nat) : Nat := u64 (sz + pgSize - 1) / pgSize * pgSize
def pgRoundDown (a : Nat) : Nat := a / pgSize * pgSize

theorem pgRoundUp_of_lt {sz : Nat} (h : sz + 4095 < 2 ^ 64) :
    pgRoundUp sz = (sz + 4095) / 4096 * 4096 := by
  unfold pgRoundUp
  rw [u64_of_lt (by simp only [pgSize_eq]; omega)]
  rfl

theorem pgRoundDown_eq (va : Nat) : pgRoundDown va = va / 4096 * 4096 := rfl

theorem pgRoundDown_div (va : Nat) : pgRoundDown va / 4096 = va / 4096 :=
  Nat.mul_div_cancel _ (by decide)

theorem pgRoundDown_add (va : Nat) : va / 4096 * 4096 + (va - pgRoundDown va) = va :=
  Nat.add_sub_of_le (Nat.div_mul_le_self ..)

/-! ## Pages and bytes -/

/-- A physical page: 512 words. -/
abbrev Page := Fin 512 → Word

/-- Byte `k` of a word, the least significant byte first. -/
def byteOf (w : Word) (k : Nat) : Byte := w.extractLsb' (8 * k) 8

def setByte (w : Word) (k : Nat) (b : Byte) : Word :=
  (w &&& ~~~((BitVec.allOnes 8).setWidth 64 <<< (8 * k))) ||| (b.setWidth 64 <<< (8 * k))

/-- Bit `n` of a word with byte `k` replaced. -/
theorem getLsbD_setByte (w : Word) (k : Nat) (b : Byte) {n : Nat} (hn : n < 64) :
    (setByte w k b).getLsbD n =
      if 8 * k ≤ n ∧ n < 8 * k + 8 then b.getLsbD (n - 8 * k) else w.getLsbD n := by
  simp only [setByte, BitVec.getLsbD_or, BitVec.getLsbD_and, BitVec.getLsbD_not,
    BitVec.getLsbD_shiftLeft, BitVec.getLsbD_setWidth, BitVec.getLsbD_allOnes, hn]
  by_cases h1 : 8 * k ≤ n
  · by_cases h2 : n < 8 * k + 8
    · simp [h1, h2, show ¬ n < 8 * k by omega, show n - 8 * k < 64 by omega,
        show n - 8 * k < 8 by omega]
    · have hb : b.getLsbD (n - 8 * k) = false := BitVec.getLsbD_of_ge _ _ (by omega)
      simp [h2, hb, show ¬ n - 8 * k < 8 by omega]
  · simp [h1, show n < 8 * k by omega]

theorem byteOf_setByte (w : Word) {j k : Nat} (hj : j < 8) (b : Byte) :
    byteOf (setByte w k b) j = if j = k then b else byteOf w j := by
  apply BitVec.eq_of_getLsbD_eq
  intro i hi
  rw [byteOf, BitVec.getLsbD_extractLsb', getLsbD_setByte _ _ _ (by omega)]
  by_cases hjk : j = k
  · subst hjk
    simp [hi]
  · rw [if_neg (by omega), if_neg hjk, byteOf, BitVec.getLsbD_extractLsb']

/-- The word of a page that holds byte `off`. -/
def wordIdx (off : Nat) : Fin 512 := ⟨off / 8 % 512, by omega⟩

def pageByte (pg : Page) (off : Nat) : Byte := byteOf (pg (wordIdx off)) (off % 8)

def setPageByte (pg : Page) (off : Nat) (b : Byte) : Page :=
  Function.update pg (wordIdx off) (setByte (pg (wordIdx off)) (off % 8) b)

variable {a b : Nat} {w f : Word}

theorem wordIdx_inj (ha : a < 4096) (hb : b < 4096) (h : wordIdx a = wordIdx b) (hm : a % 8 = b % 8)
    : a = b := by
  simp only [wordIdx, Fin.mk.injEq] at h
  omega

theorem pageByte_setPageByte (pg : Page) (ha : a < 4096) (hb : b < 4096) (x : Byte) :
    pageByte (setPageByte pg a x) b = if b = a then x else pageByte pg b := by
  unfold pageByte setPageByte
  by_cases hw : wordIdx b = wordIdx a
  · rw [hw, Function.update_self]
    rw [byteOf_setByte _ (by omega)]
    by_cases hm : b % 8 = a % 8
    · rw [if_pos hm, if_pos (wordIdx_inj hb ha hw hm)]
    · rw [if_neg hm, if_neg (by rintro rfl; exact hm rfl)]
  · rw [Function.update_of_ne hw, if_neg (by rintro rfl; exact hw rfl)]

/-- A word is determined by its bytes, and a page by its bytes. -/
theorem word_ext {w' : Word} (h : ∀ k < 8, byteOf w k = byteOf w' k) : w = w' := by
  apply BitVec.eq_of_getLsbD_eq
  intro n hn
  have hbit : ∀ x : Word, (byteOf x (n / 8)).getLsbD (n % 8) = x.getLsbD n := by
    intro x
    rw [byteOf, BitVec.getLsbD_extractLsb', show 8 * (n / 8) + n % 8 = n by omega]
    simp [show n % 8 < 8 by omega]
  rw [← hbit w, ← hbit w', h (n / 8) (by omega)]

theorem page_ext {pg pg' : Page} (h : ∀ b < 4096, pageByte pg b = pageByte pg' b) : pg = pg' := by
  funext i
  refine word_ext (fun k hk => ?_)
  have hword : wordIdx (8 * i.val + k) = i := by
    apply Fin.ext
    show (8 * i.val + k) / 8 % 512 = i.val
    omega
  have := h (8 * i.val + k) (by omega)
  rwa [pageByte, pageByte, hword, show (8 * i.val + k) % 8 = k by omega] at this

/-- `memset(pa, c, PGSIZE)`. -/
def fillPage (c : Byte) : Page := fun _ => c.setWidth 64 * 0x0101010101010101#64

def zeroPage : Page := fillPage 0

@[simp] theorem zeroPage_apply (i : Fin 512) : zeroPage i = 0#64 := by
  simp [zeroPage, fillPage]

theorem pageByte_zeroPage (off : Nat) : pageByte zeroPage off = 0#8 := by
  simp [pageByte, byteOf]

/-- `memmove(page + off, src, n)` for the `n` bytes of `src`. -/
def pageWrite (pg : Page) (off : Nat) : List Byte → Page
  | [] => pg
  | b :: bs => pageWrite (setPageByte pg off b) (off + 1) bs

/-- `memmove(dst, page + off, n)`: the bytes it copies. -/
def pageRead (pg : Page) (off n : Nat) : List Byte :=
  (List.range n).map fun k => pageByte pg (off + k)

theorem pageByte_pageWrite (bs : List Byte) : ∀ (pg : Page) (off b : Nat),
    off + bs.length ≤ 4096 → b < 4096 →
    pageByte (pageWrite pg off bs) b =
      if off ≤ b ∧ b < off + bs.length then bs.getD (b - off) 0 else pageByte pg b := by
  induction bs with
  | nil => intro pg off b _ _; simp [pageWrite, show ¬ (off ≤ b ∧ b < off) by omega]
  | cons x bs ih =>
    intro pg off b hlen hb
    simp only [List.length_cons] at hlen ⊢
    rw [pageWrite, ih _ _ _ (by omega) hb]
    by_cases h1 : off + 1 ≤ b ∧ b < off + 1 + bs.length
    · rw [if_pos h1, if_pos (by omega)]
      obtain ⟨k, hk⟩ : ∃ k, b - off = k + 1 := ⟨b - off - 1, by omega⟩
      rw [hk, List.getD_cons_succ]
      congr 1
      omega
    · rw [if_neg h1, pageByte_setPageByte pg (by omega) hb]
      by_cases h2 : b = off
      · subst h2; simp
      · rw [if_neg h2, if_neg (by omega)]

/-! ## Page-table entries -/

def pteV : Word := 1#64 <<< 0
def pteR : Word := 1#64 <<< 1
def pteW : Word := 1#64 <<< 2
def pteX : Word := 1#64 <<< 3
def pteU : Word := 1#64 <<< 4
/-- Reserved software bit: page shared through copy-on-write. -/
def pteCow : Word := 1#64 <<< 8

/-- `(pte & flag) != 0`. -/
def hasFlag (pte flag : Word) : Bool := pte &&& flag != 0#64

def pa2pte (pa : Nat) : Word := (BitVec.ofNat 64 pa >>> 12) <<< 10

def pte2pa (pte : Word) : Nat := ((pte >>> 10) <<< 12).toNat

def pteFlags (pte : Word) : Word := pte &&& 0x3FF#64

def px (level va : Nat) : Fin 512 :=
  ⟨(va >>> (12 + 9 * level)) &&& 0x1FF, by
    have : (va >>> (12 + 9 * level)) &&& 0x1FF ≤ 0x1FF := Nat.and_le_right
    omega⟩

/-- The physical page number an entry names. -/
def ppn (pte : Word) : Nat := pte2pa pte / pgSize

/-- Only the ten flag bits of the word may be set. -/
def Low (f : Word) : Prop := f.toNat < 1024

instance (f : Word) : Decidable (Low f) := inferInstanceAs (Decidable (f.toNat < 1024))

/-! ### Flag bits -/

theorem hasFlag_eq_false : hasFlag w f = false ↔ w &&& f = 0#64 := by
  simp [hasFlag]

theorem hasFlag_or_left (w a b : Word) : hasFlag (a ||| b) w = (hasFlag a w || hasFlag b w) := by
  rw [Bool.eq_iff_iff]
  simp only [hasFlag, BitVec.and_or_distrib_right, bne_iff_ne, ne_eq, Bool.or_eq_true,
    BitVec.or_eq_zero_iff, Decidable.not_and_iff_not_or_not]

theorem hasFlag_and (w g f : Word) : hasFlag (w &&& g) f = hasFlag w (g &&& f) := by
  simp only [hasFlag, BitVec.and_assoc]

/-- Clearing a flag leaves the disjoint ones. -/
theorem hasFlag_clear {g : Word} (w : Word) (h : ~~~f &&& g = g) :
    hasFlag (w &&& ~~~f) g = hasFlag w g := by
  rw [hasFlag_and, h]

theorem hasFlag_clear_self (w f : Word) : hasFlag (w &&& ~~~f) f = false := by
  rw [hasFlag_and, hasFlag_eq_false]
  simp

theorem Low.getLsbD (h : Low f) {k : Nat} (hk : 10 ≤ k) : f.getLsbD k = false := by
  rw [BitVec.getLsbD, Nat.testBit_lt_two_pow]
  exact Nat.lt_of_lt_of_le h (Nat.pow_le_pow_right (by decide) hk : 2 ^ 10 ≤ 2 ^ k)

theorem Low.or {g : Word} (hf : Low f) (hg : Low g) : Low (f ||| g) := by
  exact Nat.or_lt_two_pow (n := 10) hf hg

theorem Low.and (hf : Low f) (g : Word) : Low (f &&& g) := by
  exact Nat.lt_of_le_of_lt Nat.and_le_left hf

theorem low_pteFlags (w : Word) : Low (pteFlags w) := by
  exact Nat.lt_of_le_of_lt Nat.and_le_right (by decide)

/-- `PTE_FLAGS` keeps every flag. -/
theorem hasFlag_pteFlags (w : Word) (h : 0x3FF#64 &&& f = f) :
    hasFlag (pteFlags w) f = hasFlag w f := by
  rw [pteFlags, hasFlag_and, h]

theorem hasFlag_pa2pte (pa : Nat) (hf : Low f) : hasFlag (pa2pte pa) f = false := by
  rw [hasFlag_eq_false]
  apply BitVec.eq_of_getLsbD_eq
  intro i _
  by_cases hi : i < 10
  · simp only [pa2pte, BitVec.getLsbD_and, BitVec.getLsbD_shiftLeft, hi, decide_true,
      Bool.not_true, Bool.and_false, Bool.false_and, BitVec.getLsbD_zero]
  · rw [BitVec.getLsbD_and, hf.getLsbD (Nat.le_of_not_lt hi)]
    simp

/-- The flags of an entry made by `PA2PTE(pa) | flags`. -/
theorem hasFlag_mk (pa : Nat) (g : Word) (hf : Low f) :
    hasFlag (pa2pte pa ||| g) f = hasFlag g f := by
  rw [hasFlag_or_left, hasFlag_pa2pte pa hf, Bool.false_or]

/-! ### The page an entry names -/

theorem pte2pa_eq (w : Word) : pte2pa w = 4096 * ppn w := by
  unfold ppn pte2pa
  simp only [BitVec.toNat_shiftLeft, BitVec.toNat_ushiftRight, Nat.shiftLeft_eq,
    Nat.shiftRight_eq_div_pow, pgSize_eq]
  omega

theorem ppn_congr {w' : Word} (h : ∀ k, 10 ≤ k → w.getLsbD k = w'.getLsbD k) : ppn w = ppn w' := by
  have hs : w >>> 10 = w' >>> 10 := by
    apply BitVec.eq_of_getLsbD_eq
    intro i _
    simp only [BitVec.getLsbD_ushiftRight]
    exact h _ (by omega)
  rw [ppn, ppn, pte2pa, pte2pa, hs]

/-- Changing flag bits leaves the page alone. -/
theorem ppn_or_low (w : Word) (hf : Low f) : ppn (w ||| f) = ppn w := ppn_congr fun k hk => by
    rw [BitVec.getLsbD_or, hf.getLsbD hk, Bool.or_false]

theorem ppn_and_not_low (w : Word) (hf : Low f) : ppn (w &&& ~~~f) = ppn w :=
  ppn_congr fun k hk => by
    rw [BitVec.getLsbD_and, BitVec.getLsbD_not, hf.getLsbD hk]
    by_cases h64 : k < 64
    · simp only [h64, decide_true, Bool.not_false, Bool.and_true]
    · simp [BitVec.getLsbD_of_ge _ _ (Nat.le_of_not_lt h64)]

/-- `PTE2PA(PA2PTE(pa))` for a page below the 44-bit limit of an entry. -/
theorem ppn_pa2pte {p : Nat} (hp : p < 2 ^ 44) : ppn (pa2pte (4096 * p)) = p := by
  unfold ppn pte2pa pa2pte
  simp only [BitVec.toNat_shiftLeft, BitVec.toNat_ushiftRight, BitVec.toNat_ofNat,
    Nat.shiftLeft_eq, Nat.shiftRight_eq_div_pow, pgSize_eq]
  omega

theorem ppn_mk {p : Nat} (hp : p < 2 ^ 44) (hf : Low f) : ppn (pa2pte (4096 * p) ||| f) = p := by
  rw [ppn_or_low _ hf, ppn_pa2pte hp]

/-! ### Virtual page numbers -/

/-- The three table indices of virtual page `vpn`. -/
def vidx (level vpn : Nat) : Fin 512 := ⟨vpn / 512 ^ level % 512, Nat.mod_lt _ (by decide)⟩

theorem px_eq (level va : Nat) : px level va = vidx level (va / 4096) := by
  apply Fin.ext
  show (va >>> (12 + 9 * level)) &&& 0x1FF = va / 4096 / 512 ^ level % 512
  rw [show (0x1FF : Nat) = 2 ^ 9 - 1 from rfl, Nat.and_two_pow_sub_one_eq_mod,
    Nat.shiftRight_eq_div_pow, Nat.pow_add, Nat.div_div_eq_div_mul, Nat.pow_mul]

/-- The indices determine the page number below the table's reach. -/
theorem vidx_inj (ha : a < 512 ^ 3) (hb : b < 512 ^ 3) (h2 : vidx 2 a = vidx 2 b)
    (h1 : vidx 1 a = vidx 1 b) (h0 : vidx 0 a = vidx 0 b) : a = b := by
  simp only [vidx, Fin.mk.injEq] at h2 h1 h0
  omega

end Xv6.Vm
