/-
Xv6.User.Ulib — strings in memory, and `strchr` and `memmove` of user/ulib.c,
with `memmove` of kernel/string.c.

Memory is a function from addresses to bytes, and addresses are numbers: no
range wraps, nor does the pointer to its end. `Str mem p l` says that the
string `l` stands at `p`, with its NUL. Searches get a bound on the number of
bytes they look at; on a string that fits they do not reach it.
-/
import Mathlib.Logic.Function.Basic
import Xv6.Vm.Riscv

namespace Xv6.User

open Xv6.Vm (Byte)
open Function

abbrev Mem := Nat → Byte

/-- `while (n-- > 0) *dst++ = *src++`. -/
def copyUp : Nat → Nat → Nat → Mem → Mem
  | 0, _, _, mem => mem
  | n + 1, dst, src, mem => copyUp n (dst + 1) (src + 1) (update mem dst (mem src))

/-- `while (n-- > 0) *--dst = *--src`, from the ends of the two ranges. -/
def copyDown : Nat → Nat → Nat → Mem → Mem
  | 0, _, _, mem => mem
  | n + 1, dst, src, mem => copyDown n dst src (update mem (dst + n) (mem (src + n)))

def memmove (mem : Mem) (dst src n : Nat) : Mem :=
  if src > dst then copyUp n dst src mem else copyDown n dst src mem

/-- `memmove` of kernel/string.c. -/
def Kernel.memmove (mem : Mem) (dst src n : Nat) : Mem :=
  if n = 0 then mem
  else if src < dst ∧ src + n > dst then copyDown n dst src mem
  else copyUp n dst src mem

/-- `strchr`: the address of the first `c` from `s` on, before the NUL. -/
def strchr (mem : Mem) (c : Byte) : Nat → Nat → Option Nat
  | 0, _ => none
  | n + 1, s => if mem s = 0 then none else if mem s = c then some s else strchr mem c n (s + 1)

/-- The string at `s`, as its readers see it. -/
def cstr (mem : Mem) : Nat → Nat → List Byte
  | 0, _ => []
  | n + 1, s => if mem s = 0 then [] else mem s :: cstr mem n (s + 1)

/-- The `n` bytes from `p` on. -/
def bytesAt (mem : Mem) (p n : Nat) : List Byte := (List.range' p n).map mem

/-- Memory with the bytes `l` at `a`. -/
def fill (mem : Mem) (a : Nat) (l : List Byte) : Mem :=
  fun x => if a ≤ x then l.getD (x - a) (mem x) else mem x

def Str (mem : Mem) : Nat → List Byte → Prop
  | p, [] => mem p = 0
  | p, b :: l => mem p = b ∧ b ≠ 0 ∧ Str mem (p + 1) l

variable {mem mem' : Mem} {p n : Nat} {c : Byte} {l r : List Byte}

/-! ## `memmove` -/

/-- What is written is not read again: it lies below the source, or behind its end. -/
theorem copyUp_apply (n : Nat) {dst src : Nat} (mem : Mem) (h : dst ≤ src ∨ src + n ≤ dst)
    (a : Nat) :
    copyUp n dst src mem a = if dst ≤ a ∧ a < dst + n then mem (src + (a - dst)) else mem a := by
  induction n generalizing dst src mem with
  | zero => rw [copyUp, if_neg (by omega)]
  | succ n ih =>
    rw [copyUp, ih _ (by omega)]
    by_cases ha : a = dst
    · rw [if_neg (by omega), if_pos (by omega), ha, update_self, Nat.sub_self, Nat.add_zero]
    · rw [update_of_ne ha]
      by_cases hin : dst ≤ a ∧ a < dst + (n + 1)
      · rw [if_pos (by omega), if_pos hin, update_of_ne (by omega),
          show src + 1 + (a - (dst + 1)) = src + (a - dst) by omega]
      · rw [if_neg (by omega), if_neg hin]

theorem copyDown_apply (n : Nat) {dst src : Nat} (mem : Mem) (h : src ≤ dst) (a : Nat) :
    copyDown n dst src mem a = if dst ≤ a ∧ a < dst + n then mem (src + (a - dst)) else mem a := by
  induction n generalizing mem with
  | zero => rw [copyDown, if_neg (by omega)]
  | succ n ih =>
    rw [copyDown, ih]
    by_cases ha : a = dst + n
    · rw [if_neg (by omega), if_pos (by omega), ha, update_self, Nat.add_sub_cancel_left]
    · rw [update_of_ne ha]
      by_cases hin : dst ≤ a ∧ a < dst + n
      · rw [if_pos hin, if_pos (by omega), update_of_ne (by omega)]
      · rw [if_neg hin, if_neg (by omega)]

/-- The destination gets what the source was, however the two overlap. -/
theorem memmove_apply (mem : Mem) (dst src n a : Nat) :
    memmove mem dst src n a =
      if dst ≤ a ∧ a < dst + n then mem (src + (a - dst)) else mem a := by
  unfold memmove
  split
  · exact copyUp_apply n mem (by omega) a
  · exact copyDown_apply n mem (by omega) a

theorem kernel_memmove_apply (mem : Mem) (dst src n a : Nat) :
    Kernel.memmove mem dst src n a =
      if dst ≤ a ∧ a < dst + n then mem (src + (a - dst)) else mem a := by
  unfold Kernel.memmove
  split
  · rw [if_neg (by omega)]
  · split
    · exact copyDown_apply n mem (by omega) a
    · exact copyUp_apply n mem (by omega) a

/-- The destination is what the source was, and every other byte is as it was. -/
structure Moved (mem mem' : Mem) (dst src n : Nat) : Prop where
  copied : ∀ k, k < n → mem' (dst + k) = mem (src + k)
  kept : ∀ a, ¬ (dst ≤ a ∧ a < dst + n) → mem' a = mem a

theorem Moved.of_apply {dst src : Nat} (h : ∀ a, mem' a =
    if dst ≤ a ∧ a < dst + n then mem (src + (a - dst)) else mem a) : Moved mem mem' dst src n := by
  constructor
  · intro k hk
    rw [h, if_pos (by omega), Nat.add_sub_cancel_left]
  · intro a ha
    rw [h, if_neg ha]

/-- Both versions of `memmove` move the bytes, wherever the two ranges are. -/
theorem memmove_overlap_safe (mem : Mem) (dst src n : Nat) :
    Moved mem (Kernel.memmove mem dst src n) dst src n ∧
      Moved mem (memmove mem dst src n) dst src n :=
  ⟨.of_apply (kernel_memmove_apply mem dst src n), .of_apply (memmove_apply mem dst src n)⟩

/-! ## Strings -/

theorem bytesAt_succ (mem : Mem) (p n : Nat) :
    bytesAt mem p (n + 1) = mem p :: bytesAt mem (p + 1) n := rfl

theorem bytesAt_congr {q : Nat} (h : ∀ k, k < n → mem' (q + k) = mem (p + k)) :
    bytesAt mem' q n = bytesAt mem p n := by
  simp only [bytesAt, List.range'_eq_map_range, List.map_map]
  exact List.map_congr_left fun k hk => h k (List.mem_range.mp hk)

theorem bytesAt_add (mem : Mem) (p m n : Nat) :
    bytesAt mem p (m + n) = bytesAt mem p m ++ bytesAt mem (p + m) n := by
  rw [bytesAt, ← List.range'_append_1, List.map_append]
  rfl

theorem bytesAt_fill (mem : Mem) (a : Nat) (l : List Byte) :
    bytesAt (fill mem a l) a l.length = l := by
  refine List.ext_getElem (by simp [bytesAt]) fun k _ hk => ?_
  simp [bytesAt, fill, hk]

theorem str_of_bytes (h : bytesAt mem p l.length = l) (h0 : mem (p + l.length) = 0)
    (hl : 0 ∉ l) : Str mem p l := by
  induction l generalizing p with
  | nil => exact h0
  | cons b l ih =>
    obtain ⟨hb, hrest⟩ := List.cons_eq_cons.mp h
    refine ⟨hb, fun e => hl (e ▸ List.mem_cons_self), ih hrest ?_ fun h => hl (.tail b h)⟩
    rw [← h0, List.length_cons, Nat.add_assoc, Nat.add_comm 1]

theorem Str.bytes (h : Str mem p (l ++ r)) : bytesAt mem p l.length = l := by
  induction l generalizing p with
  | nil => rfl
  | cons b l ih => rw [List.length_cons, bytesAt_succ, h.1, ih h.2.2]

theorem Str.drop (h : Str mem p (l ++ r)) : Str mem (p + l.length) r := by
  induction l generalizing p with
  | nil => exact h
  | cons b l ih =>
    rw [List.length_cons, Nat.add_comm l.length, ← Nat.add_assoc]
    exact ih h.2.2

theorem Str.congr (h : Str mem p l) (hm : ∀ a, p ≤ a → mem' a = mem a) : Str mem' p l := by
  induction l generalizing p with
  | nil => exact (hm p (Nat.le_refl p)).trans h
  | cons b l ih =>
    exact ⟨(hm p (Nat.le_refl p)).trans h.1, h.2.1, ih h.2.2 fun a ha => hm a (by omega)⟩

/-- A NUL in the place of a character ends the string there. -/
theorem Str.cut (h : Str mem p (l ++ c :: r)) : Str (update mem (p + l.length) 0) p l := by
  induction l generalizing p with
  | nil => exact update_self ..
  | cons b l ih =>
    refine ⟨?_, h.2.1, ?_⟩
    · rw [update_of_ne (by rw [List.length_cons]; omega), h.1]
    · rw [List.length_cons, Nat.add_comm l.length, ← Nat.add_assoc]
      exact ih h.2.2

theorem Str.cstr (h : Str mem p l) (hn : l.length < n) : User.cstr mem n p = l := by
  induction l generalizing p n with
  | nil =>
    obtain ⟨n, rfl⟩ : ∃ k, n = k + 1 := ⟨n - 1, by omega⟩
    exact if_pos h
  | cons b l ih =>
    rw [List.length_cons] at hn
    obtain ⟨n, rfl⟩ : ∃ k, n = k + 1 := ⟨n - 1, by omega⟩
    rw [User.cstr, h.1, if_neg h.2.1, ih h.2.2 (by omega)]

theorem Str.strchr_none (h : Str mem p l) (hc : c ∉ l) : strchr mem c n p = none := by
  induction l generalizing p n with
  | nil => cases n <;> simp [strchr, show mem p = 0 from h]
  | cons b l ih =>
    rw [List.mem_cons, not_or] at hc
    cases n with
    | zero => rfl
    | succ n => rw [strchr, h.1, if_neg h.2.1, if_neg (Ne.symm hc.1), ih h.2.2 hc.2]

theorem Str.strchr_some (h : Str mem p (l ++ c :: r)) (hc : c ∉ l) (hn : l.length < n) :
    strchr mem c n p = some (p + l.length) := by
  induction l generalizing p n with
  | nil =>
    obtain ⟨n, rfl⟩ : ∃ k, n = k + 1 := ⟨n - 1, by omega⟩
    rw [strchr, h.1, if_neg h.2.1, if_pos rfl]
    rfl
  | cons b l ih =>
    rw [List.mem_cons, not_or] at hc
    rw [List.length_cons] at hn ⊢
    obtain ⟨n, rfl⟩ : ∃ k, n = k + 1 := ⟨n - 1, by omega⟩
    rw [strchr, h.1, if_neg h.2.1, if_neg (Ne.symm hc.1), ih h.2.2 hc.2 (by omega)]
    congr 1
    omega

end Xv6.User
