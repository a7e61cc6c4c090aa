/-
Xv6.Lib.Ring — ring buffers whose counters run freely.

A ring has `N` cells and two counters of `w` bits that are only ever
incremented; cell `x % N` belongs to count `x`. `N` divides `2 ^ w`, so that the
cells go on in order when a counter wraps. `Ring cell lo hi l` says that the
cells from `lo` up to `hi` hold the list `l`: a push adds to its end, a pop takes
its head, and the tests on the counters tell whether it is empty or full.
-/
import Mathlib.Data.BitVec
import Mathlib.Data.Nat.ModEq

namespace Xv6.Lib

open Function

variable {α : Type} {w N : Nat} [NeZero N]

/-- `x % N`. -/
def cellOf (N : Nat) [NeZero N] {w : Nat} (x : BitVec w) : Fin N := Fin.ofNat N x.toNat

structure Ring (cell : Fin N → α) (lo hi : BitVec w) (l : List α) : Prop where
  size : hi = lo + BitVec.ofNat w l.length
  room : l.length ≤ N
  cells : ∀ j a, l[j]? = some a → cell (cellOf N (lo + BitVec.ofNat w j)) = a

variable {cell : Fin N → α} {lo hi : BitVec w} {l : List α} {a : α}

theorem cellOf_add_val (hN : N ∣ 2 ^ w) (x : BitVec w) (j : Nat) :
    (cellOf N (x + BitVec.ofNat w j)).val = (x.toNat + j) % N := by
  show (x + BitVec.ofNat w j).toNat % N = _
  rw [BitVec.toNat_add, BitVec.toNat_ofNat, Nat.add_mod_mod, Nat.mod_mod_of_dvd _ hN]

/-- Counts that are less than `N` apart have different cells. -/
theorem cellOf_ne (hN : N ∣ 2 ^ w) (x : BitVec w) {j m : Nat} (hlt : j < m) (hnear : m < j + N) :
    cellOf N (x + BitVec.ofNat w j) ≠ cellOf N (x + BitVec.ofNat w m) := by
  intro heq
  have hval := congrArg Fin.val heq
  rw [cellOf_add_val hN, cellOf_add_val hN] at hval
  have hmod : j ≡ m [MOD N] := Nat.ModEq.add_left_cancel' x.toNat hval
  have hdvd := (Nat.modEq_iff_dvd' (Nat.le_of_lt hlt)).mp hmod
  have hzero := Nat.eq_zero_of_dvd_of_lt hdvd (by omega)
  omega

theorem ring_nil (cell : Fin N → α) (x : BitVec w) : Ring cell x x [] :=
  ⟨by simp, Nat.zero_le _, nofun⟩

/-- The cell of the upper counter is not in use, unless the ring is full. -/
theorem Ring.write (hN : N ∣ 2 ^ w) (h : Ring cell lo hi l) (hroom : l.length < N) :
    Ring (update cell (cellOf N hi) a) lo hi l := by
  refine ⟨h.size, h.room, fun j b hb => ?_⟩
  have hlt := (List.getElem?_eq_some_iff.mp hb).1
  rw [h.size, update_of_ne (cellOf_ne hN lo hlt (by omega))]
  exact h.cells j b hb

/-- Increment the upper counter, once its cell is written. -/
theorem Ring.publish (h : Ring cell lo hi l) (hroom : l.length < N) (ha : cell (cellOf N hi) = a) :
    Ring cell lo (hi + 1) (l ++ [a]) := by
  have hlen : (l ++ [a]).length = l.length + 1 := by simp
  refine ⟨?_, by omega, fun j b hb => ?_⟩
  · rw [hlen, BitVec.ofNat_add, h.size, BitVec.add_assoc]
    rfl
  · by_cases hj : j = l.length
    · subst hj
      rw [List.getElem?_concat_length] at hb
      rw [← h.size, ha]
      exact Option.some.inj hb
    · have hlt : j < l.length := by
        have := (List.getElem?_eq_some_iff.mp hb).1
        omega
      rw [List.getElem?_append_left hlt] at hb
      exact h.cells j b hb

/-- Both at once. -/
theorem Ring.push (hN : N ∣ 2 ^ w) (h : Ring cell lo hi l) (hroom : l.length < N) :
    Ring (update cell (cellOf N hi) a) lo (hi + 1) (l ++ [a]) :=
  (h.write hN hroom).publish hroom (update_self ..)

/-- The first element is in the cell of the lower counter. -/
theorem Ring.head (h : Ring cell lo hi (a :: l)) : cell (cellOf N lo) = a := by
  have hcell := h.cells 0 a rfl
  rwa [show lo + BitVec.ofNat w 0 = lo by simp] at hcell

theorem Ring.pop (h : Ring cell lo hi (a :: l)) : Ring cell (lo + 1) hi l := by
  refine ⟨?_, Nat.le_of_succ_le h.room, fun j b hb => ?_⟩
  · rw [h.size, List.length_cons, Nat.add_comm, BitVec.ofNat_add, BitVec.add_assoc]
    rfl
  · have hcell := h.cells (j + 1) b hb
    rwa [Nat.add_comm, BitVec.ofNat_add, ← BitVec.add_assoc] at hcell

section

variable (hw : N < 2 ^ w) (h : Ring cell lo hi l)
include hw h

/-- The counters tell the number of elements. -/
theorem Ring.length : (hi - lo).toNat = l.length := by
  have hroom := h.room
  rw [h.size, BitVec.add_comm, BitVec.add_sub_cancel, BitVec.toNat_ofNat,
    Nat.mod_eq_of_lt (Nat.lt_of_le_of_lt hroom hw)]

theorem Ring.empty_iff : lo = hi ↔ l = [] := by
  constructor
  · rintro rfl
    have hlen := h.length hw
    rw [BitVec.sub_self] at hlen
    exact List.length_eq_zero_iff.mp hlen.symm
  · rintro rfl
    have hsize := h.size
    simpa using hsize.symm

theorem Ring.full_iff : hi = lo + BitVec.ofNat w N ↔ l.length = N := by
  constructor
  · intro hfull
    have hlen := h.length hw
    rw [hfull, BitVec.add_comm, BitVec.add_sub_cancel, BitVec.toNat_ofNat,
      Nat.mod_eq_of_lt hw] at hlen
    exact hlen.symm
  · intro hlen
    rw [h.size, hlen]

end

end Xv6.Lib
