/-
Xv6.User.Printf — `printint` of kernel/printk.c and of user/printf.c.

The two differ in the letters of their digits. `buf[i++] = c` is `store`, which
fails outside of the twenty bytes of `buf`; the characters are printed from the
last to the first. §1 the code, §2 numerals, §3 the digits, §4 what is printed.
-/
import Mathlib.Data.Nat.Digits.Lemmas

namespace Xv6.User

/-! ## §1 The code -/

/-- `char buf[20]` up to index `i`, and `buf[i++] = c`. -/
def store (buf : List Char) (c : Char) : Option (List Char) :=
  if buf.length < 20 then some (buf ++ [c]) else none

/-- `do buf[i++] = digits[x % base]; while ((x /= base) != 0);`. -/
def digitLoop (digits : List Char) (base : Nat) : Nat → Nat → List Char → Option (List Char)
  | 0, _, _ => none
  | fuel + 1, x, buf => do
    let buf ← store buf (← digits[x % base]?)
    if x / base ≠ 0 then digitLoop digits base fuel (x / base) buf else return buf

def printint (digits : List Char) (xx : BitVec 64) (base : Nat) (sign : Bool) :
    Option (List Char) := do
  let neg := sign && xx.slt 0
  let x := if neg then -xx else xx
  let buf ← digitLoop digits base 64 x.toNat []
  let buf ← if neg then store buf '-' else pure buf
  return buf.reverse

def lowerDigits : List Char := "0123456789abcdef".toList

def upperDigits : List Char := "0123456789ABCDEF".toList

/-- `printint` of kernel/printk.c, -/
def Kernel.printint : BitVec 64 → Nat → Bool → Option (List Char) := User.printint lowerDigits

/-- and of user/printf.c. -/
def Vprintf.printint : BitVec 64 → Nat → Bool → Option (List Char) := User.printint upperDigits

/-- `%d`, `%u` and `%x`, with or without `l` or `ll`. -/
inductive Format where
  | d
  | u
  | x
  deriving DecidableEq, Repr

def Format.base : Format → Nat
  | .d | .u => 10
  | .x => 16

def Format.sign : Format → Bool
  | .d => true
  | .u | .x => false

/-! ## §2 Numerals -/

def Format.value (f : Format) (xx : BitVec 64) : Int := if f.sign then xx.toInt else xx.toNat

/-- The value of a string of digits, -/
def valueOf (digits : List Char) (base : Nat) (s : List Char) : Nat :=
  s.foldl (fun n c => n * base + digits.idxOf c) 0

/-- and of one with a sign. -/
def decode (digits : List Char) (base : Nat) : List Char → Int
  | '-' :: s => -valueOf digits base s
  | s => valueOf digits base s

/-- `s` is a numeral: digits of the base without leading zeros, after a minus for a value
below zero. -/
structure Numeral (digits : List Char) (base : Nat) (v : Int) (s : List Char) : Prop where
  decodes : decode digits base s = v
  canonical : ∃ ds, s = (if v < 0 then ['-'] else []) ++ ds ∧ ds ≠ [] ∧
    (∀ c ∈ ds, c ∈ digits.take base) ∧ (ds.head? = some '0' → ds = ['0'])

/-! ## §3 The digits -/

/-- The digits of `x`, the last one first. -/
def digitsOf (base x : Nat) : List Nat := if x = 0 then [0] else Nat.digits base x

def letter (digits : List Char) (k : Nat) : Char := digits.getD k '0'

variable {digits : List Char} {base x n : Nat}

theorem digitsOf_small (hb : 1 < base) (h : x / base = 0) : digitsOf base x = [x % base] := by
  have hx : x < base := (Nat.div_eq_zero_iff_lt (by omega)).mp h
  rw [digitsOf, Nat.mod_eq_of_lt hx]
  split
  · simp [*]
  · exact Nat.digits_of_lt base x (by assumption) hx

theorem digitsOf_step (hb : 1 < base) (h : x / base ≠ 0) :
    digitsOf base x = x % base :: digitsOf base (x / base) := by
  have hx : x ≠ 0 := by
    rintro rfl
    exact h (Nat.zero_div base)
  rw [digitsOf, if_neg hx, digitsOf, if_neg h, Nat.digits_def' hb (Nat.pos_of_ne_zero hx)]

/-- A number below `base ^ n` has at most `n` digits, and there is room for them. -/
theorem digitLoop_eq (fuel : Nat) (buf : List Char) (hb : 1 < base) (hd : base ≤ digits.length)
    (hfuel : n ≤ fuel) (hx : x < base ^ n) (hroom : buf.length + n ≤ 20) (hn : 0 < n) :
    ∃ ds, ds = (digitsOf base x).map (letter digits) ∧ ds.length ≤ n ∧
      digitLoop digits base fuel x buf = some (buf ++ ds) := by
  induction fuel generalizing x buf n with
  | zero => omega
  | succ fuel ih =>
    have hmod : x % base < digits.length := Nat.lt_of_lt_of_le (Nat.mod_lt _ (by omega)) hd
    have hstep : digitLoop digits base (fuel + 1) x buf =
        if x / base ≠ 0 then digitLoop digits base fuel (x / base) (buf ++ [digits[x % base]])
        else some (buf ++ [digits[x % base]]) := by
      simp [digitLoop, store, hmod, show buf.length < 20 by omega]
    rw [hstep]
    by_cases hq : x / base = 0
    · refine ⟨_, rfl, ?_, by simp [digitsOf_small hb hq, hq, letter, hmod]⟩
      simp [digitsOf_small hb hq]
      omega
    · obtain ⟨n, rfl⟩ : ∃ m, n = m + 1 := ⟨n - 1, by omega⟩
      have hsmall : x / base < base ^ n := Nat.div_lt_of_lt_mul (by rwa [← Nat.pow_succ'])
      have hpos : 0 < n := by
        by_contra h0
        obtain rfl : n = 0 := by omega
        exact hq (Nat.lt_one_iff.mp hsmall)
      obtain ⟨ds, hds, hlen, hloop⟩ := ih (buf ++ [digits[x % base]]) (by omega) hsmall
        (by simp; omega) hpos
      refine ⟨digits[x % base] :: ds, by simp [digitsOf_step hb hq, hds, letter, hmod],
        by simpa using hlen, ?_⟩
      simp [hq, hloop]

theorem digitsOf_lt (hb : 1 < base) : ∀ k ∈ digitsOf base x, k < base := by
  intro k hk
  unfold digitsOf at hk
  split at hk
  · simp at hk
    omega
  · exact Nat.digits_lt_base hb hk

theorem digitsOf_ne_nil : digitsOf base x ≠ [] := by
  unfold digitsOf
  split
  · simp
  · exact Nat.digits_ne_nil_iff_ne_zero.mpr (by assumption)

theorem ofDigits_digitsOf (base x : Nat) : Nat.ofDigits base (digitsOf base x) = x := by
  unfold digitsOf
  split
  · simp [*]
  · exact Nat.ofDigits_digits base x

/-- The first digit is zero for zero only. -/
theorem digitsOf_head (h : (digitsOf base x).getLast? = some 0) : digitsOf base x = [0] := by
  unfold digitsOf at h ⊢
  split
  · rfl
  · rename_i hx
    rw [if_neg hx, List.getLast?_eq_some_getLast (Nat.digits_ne_nil_iff_ne_zero.mpr hx)] at h
    exact absurd (Option.some.inj h) (Nat.getLast_digit_ne_zero base hx)

/-- Different digits have different letters, and no letter is a minus. -/
structure Letters (digits : List Char) (base : Nat) : Prop where
  many : base ≤ digits.length
  index : ∀ k, k < base → digits.idxOf (letter digits k) = k
  zero : letter digits 0 = '0'
  minus : ∀ k, k < base → letter digits k ≠ '-'

/-! ## §4 What is printed -/

theorem valueOf_digits (h : Letters digits base) (l : List Nat) (hl : ∀ k ∈ l, k < base) :
    valueOf digits base ((l.map (letter digits)).reverse) = Nat.ofDigits base l := by
  induction l with
  | nil => rfl
  | cons k l ih =>
    have hrest := ih fun j hj => hl j (List.mem_cons_of_mem k hj)
    rw [valueOf] at hrest ⊢
    simp only [List.map_cons, List.reverse_cons, List.foldl_append, hrest, List.foldl_cons,
      List.foldl_nil, h.index k (hl k List.mem_cons_self), Nat.ofDigits_cons]
    ring

theorem decode_of_ne {s : List Char} (h : s.head? ≠ some '-') :
    decode digits base s = valueOf digits base s := by
  unfold decode
  split
  · exact absurd rfl h
  · rfl

/-- What is printed for `x`, with or without a minus. -/
theorem numeral_digits (h : Letters digits base) (hb : 1 < base) (neg : Bool)
    (hneg : neg = true → x ≠ 0) :
    Numeral digits base (if neg then -(x : Int) else x)
      ((if neg then ['-'] else []) ++ ((digitsOf base x).map (letter digits)).reverse) := by
  have hlt := digitsOf_lt (x := x) hb
  have hval := valueOf_digits h (digitsOf base x) hlt
  rw [ofDigits_digitsOf] at hval
  have hletter : ∀ c ∈ (digitsOf base x).map (letter digits),
      ∃ k, k < base ∧ letter digits k = c := by
    intro c hc
    obtain ⟨k, hk, rfl⟩ := List.mem_map.mp hc
    exact ⟨k, hlt k hk, rfl⟩
  have hsign : (if neg then -(x : Int) else x) < 0 ↔ neg = true := by
    cases neg with
    | false => simp
    | true => simpa using Nat.pos_of_ne_zero (hneg rfl)
  refine ⟨?_, _, by simp only [hsign]; rfl, by simpa using digitsOf_ne_nil, fun c hc => ?_,
    fun h0 => ?_⟩
  · cases neg with
    | true => simp [decode, hval]
    | false =>
      rw [if_neg (by decide), if_neg (by decide), List.nil_append, decode_of_ne fun hm => ?_, hval]
      obtain ⟨k, hk, hc⟩ := hletter '-' (List.mem_reverse.mp (List.mem_of_mem_head? hm))
      exact h.minus k hk hc
  · obtain ⟨k, hk, rfl⟩ := hletter c (List.mem_reverse.mp hc)
    have hlen := h.many
    have hk' : k < digits.length := by omega
    refine List.mem_take_iff_getElem.mpr ⟨k, by omega, ?_⟩
    simp [letter, hk']
  · rw [List.head?_reverse, List.getLast?_map, Option.map_eq_some_iff] at h0
    obtain ⟨k, hlast, hk⟩ := h0
    have hk0 : k = 0 := by
      have hi := h.index k (hlt k (List.mem_of_getLast? hlast))
      rw [hk, ← h.zero, h.index 0 (by omega)] at hi
      exact hi.symm
    rw [digitsOf_head (hk0 ▸ hlast)]
    simpa using h.zero

theorem letters (f : Format) : Letters lowerDigits f.base ∧ Letters upperDigits f.base := by
  cases f <;> refine ⟨⟨?_, ?_, ?_, ?_⟩, ?_, ?_, ?_, ?_⟩ <;> decide

/-- The most negative value wraps around to its own size. -/
theorem toNat_neg_of_msb {xx : BitVec 64} (h : xx.msb = true) :
    ((-xx).toNat : Int) = -xx.toInt ∧ (-xx).toNat ≠ 0 ∧ (-xx).toNat ≤ 2 ^ 63 := by
  have hint := BitVec.toInt_eq_msb_cond xx
  rw [if_pos h] at hint
  have hneg := BitVec.toNat_neg xx
  have hmsb := BitVec.msb_eq_decide xx
  rw [h] at hmsb
  simp at hmsb
  omega

theorem printint_numeral (xx : BitVec 64) (f : Format) (h : Letters digits f.base) :
    ∃ s, printint digits xx f.base f.sign = some s ∧ Numeral digits f.base (f.value xx) s := by
  have hb : 1 < f.base := by cases f <;> decide
  have hmsb : xx.slt 0 = xx.msb := BitVec.slt_zero_eq_msb
  by_cases hneg : f.sign = true ∧ xx.msb = true
  · obtain ⟨hsign, hm⟩ := hneg
    obtain ⟨hval, hzero, hle⟩ := toNat_neg_of_msb hm
    have hbase : f.base = 10 := by cases f <;> first | rfl | cases hsign
    -- nineteen digits leave a place for the minus
    obtain ⟨ds, rfl, hlen, hloop⟩ := digitLoop_eq (n := 19) (x := (-xx).toNat) 64 [] hb
      h.many (by decide) (by rw [hbase]; omega) (by decide) (by decide)
    have hvalue : f.value xx = -((-xx).toNat : Int) := by
      rw [Format.value, if_pos hsign]
      omega
    refine ⟨_, ?_, hvalue ▸ numeral_digits h hb true fun _ => hzero⟩
    rw [printint, hsign, hmsb, hm]
    simp only [Bool.and_self, if_true, hloop, List.nil_append, Option.bind_eq_bind,
      Option.bind_some, store, if_pos (Nat.lt_succ_of_le hlen)]
    simp
  · have hbig : xx.toNat < f.base ^ 20 := by
      cases f <;> simp only [Format.base] <;> omega
    obtain ⟨ds, rfl, -, hloop⟩ := digitLoop_eq 64 [] hb h.many (by decide) hbig (by decide)
      (by decide)
    have hvalue : f.value xx = xx.toNat := by
      unfold Format.value
      split
      · rename_i hsign
        exact BitVec.toInt_eq_toNat_of_msb (by simpa [hsign] using hneg)
      · rfl
    refine ⟨_, ?_, hvalue ▸ numeral_digits h hb false (by simp)⟩
    have hfalse : (f.sign && xx.msb) = false := by simpa using hneg
    rw [printint, hmsb, hfalse]
    simp [hloop]

/-- For every value and format, both versions of `printint` print the numeral of the value, and
do not leave their buffer. -/
theorem printint_canonical (xx : BitVec 64) (f : Format) :
    (∃ s, Kernel.printint xx f.base f.sign = some s ∧
      Numeral lowerDigits f.base (f.value xx) s) ∧
    ∃ s, Vprintf.printint xx f.base f.sign = some s ∧
      Numeral upperDigits f.base (f.value xx) s :=
  ⟨printint_numeral xx f (letters f).1, printint_numeral xx f (letters f).2⟩

end Xv6.User
