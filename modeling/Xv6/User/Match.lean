/-
Xv6.User.Match — the pattern matcher of user/grep.c.

A NUL-terminated string is the list of its characters, so that `*text == '\0'`
is a test for the empty list. `matchstar` gets `matchhere` of the rest of the
pattern as an argument, since it calls it for nothing else.

§1 the matcher, §2 what a pattern means, §3 that the two agree.
-/
import Xv6.Vm.Riscv

namespace Xv6.User

open Xv6.Vm (Byte)

/-! ## §1 The matcher -/

def caret : Byte := 94
def dot : Byte := 46
def asterisk : Byte := 42
def dollar : Byte := 36

/-- `matchstar`: `here` is `matchhere` of the pattern after the star. -/
def matchstar (here : List Byte → Bool) (c : Byte) : List Byte → Bool
  | [] => here []
  | t :: text => here (t :: text) || ((t = c || c = dot) && matchstar here c text)

def matchhere : List Byte → List Byte → Bool
  | [], _ => true
  | [c], text =>
    if c = dollar then text.isEmpty
    else match text with
      | [] => false
      | t :: _ => c = dot || c = t
  | c :: d :: re, text =>
    if d = asterisk then matchstar (matchhere re) c text
    else match text with
      | [] => false
      | t :: text => (c = dot || c = t) && matchhere (d :: re) text

/-- The loop of `match` over the suffixes of the text. -/
def matchLoop (re : List Byte) : List Byte → Bool
  | [] => matchhere re []
  | t :: text => matchhere re (t :: text) || matchLoop re text

/-- `match`. -/
def matchText : List Byte → List Byte → Bool
  | [], text => matchLoop [] text
  | c :: re, text => if c = caret then matchhere re text else matchLoop (c :: re) text

/-! ## §2 Patterns -/

/-- An item of a pattern. -/
inductive Item where
  | many (c : Byte)
  | eol
  | any
  | lit (c : Byte)
  deriving DecidableEq, Repr

/-- A character without a star. -/
def Item.single (c : Byte) : Item := if c = dot then .any else .lit c

/-- The items of a pattern. A star counts only as the second character of an
item, and `$` only at the end. -/
def items : List Byte → List Item
  | [] => []
  | [c] => if c = dollar then [.eol] else [.single c]
  | c :: d :: re => if d = asterisk then .many c :: items re else .single c :: items (d :: re)

/-- The item matches `taken`, with `rest` after it. -/
def Item.Takes (taken rest : List Byte) : Item → Prop
  | .many c => ∀ b ∈ taken, c = dot ∨ b = c
  | .eol => taken = [] ∧ rest = []
  | .any => ∃ b, taken = [b]
  | .lit c => taken = [c]

/-- The items match `taken`, with `rest` after it. -/
def Takes (rest : List Byte) : List Item → List Byte → Prop
  | [], taken => taken = []
  | i :: is, taken => ∃ a b, taken = a ++ b ∧ i.Takes a (b ++ rest) ∧ Takes rest is b

/-- The items match a beginning of the text. -/
def Begins (is : List Item) (text : List Byte) : Prop :=
  ∃ taken rest, text = taken ++ rest ∧ Takes rest is taken

/-- What `match` is for: the pattern matches at the start of a suffix of the
text, of the whole text if it begins with `^`. -/
def Found (re text : List Byte) : Prop :=
  if re.head? = some caret then Begins (items re.tail) text
  else ∃ skipped suffix, text = skipped ++ suffix ∧ Begins (items re) suffix

/-! ## §3 The matcher finds what the pattern means -/

theorem begins_nil (text : List Byte) : Begins [] text := ⟨[], text, rfl, rfl⟩

theorem begins_cons {i : Item} {is : List Item} {text : List Byte} :
    Begins (i :: is) text ↔ ∃ a b, text = a ++ b ∧ i.Takes a b ∧ Begins is b := by
  constructor
  · rintro ⟨_, rest, rfl, a, b, rfl, hi, his⟩
    exact ⟨a, b ++ rest, List.append_assoc .., hi, b, rest, rfl, his⟩
  · rintro ⟨a, _, rfl, hi, b, rest, rfl, his⟩
    exact ⟨a ++ b, rest, (List.append_assoc ..).symm, a, b, rfl, hi, his⟩

theorem begins_eol {text : List Byte} : Begins [.eol] text ↔ text = [] := by
  rw [begins_cons]
  constructor
  · rintro ⟨a, b, rfl, ⟨rfl, rfl⟩, -⟩
    rfl
  · rintro rfl
    exact ⟨[], [], rfl, ⟨rfl, rfl⟩, begins_nil []⟩

/-- A single character matches the first one of a text. -/
theorem begins_single {c : Byte} {is : List Item} {text : List Byte} :
    Begins (.single c :: is) text ↔
      ∃ t rest, text = t :: rest ∧ (c = dot ∨ c = t) ∧ Begins is rest := by
  rw [begins_cons]
  unfold Item.single
  split
  · rename_i hc
    constructor
    · rintro ⟨_, b, rfl, ⟨t, rfl⟩, his⟩
      exact ⟨t, b, rfl, .inl hc, his⟩
    · rintro ⟨t, b, rfl, -, his⟩
      exact ⟨[t], b, rfl, ⟨t, rfl⟩, his⟩
  · rename_i hc
    constructor
    · rintro ⟨_, b, rfl, rfl, his⟩
      exact ⟨c, b, rfl, .inr rfl, his⟩
    · rintro ⟨t, b, rfl, hct, his⟩
      exact ⟨[t], b, rfl, by rw [hct.resolve_left hc]; rfl, his⟩

/-- `matchstar` tries every number of characters that the star may take. -/
theorem matchstar_iff (here : List Byte → Bool) (c : Byte) (text : List Byte) :
    matchstar here c text = true ↔
      ∃ a b, text = a ++ b ∧ (Item.many c).Takes a b ∧ here b = true := by
  induction text with
  | nil =>
    constructor
    · intro h
      exact ⟨[], [], rfl, by simp [Item.Takes], h⟩
    · rintro ⟨a, b, hab, -, h⟩
      obtain ⟨rfl, rfl⟩ := List.append_eq_nil_iff.mp hab.symm
      exact h
  | cons t text ih =>
    simp only [matchstar, Bool.or_eq_true, Bool.and_eq_true, decide_eq_true_eq, ih]
    constructor
    · rintro (h | ⟨ht, a, b, rfl, ha, h⟩)
      · exact ⟨[], t :: text, rfl, by simp [Item.Takes], h⟩
      · refine ⟨t :: a, b, rfl, fun x hx => ?_, h⟩
        rcases List.mem_cons.mp hx with rfl | hx
        · exact ht.symm
        · exact ha x hx
    · rintro ⟨_ | ⟨x, a⟩, b, hab, ha, h⟩
      · exact .inl (by rw [hab]; exact h)
      · obtain ⟨rfl, rfl⟩ := List.cons_eq_cons.mp hab
        exact .inr ⟨(ha t List.mem_cons_self).symm, a, b, rfl,
          fun x hx => ha x (List.mem_cons_of_mem t hx), h⟩

theorem matchhere_iff (re text : List Byte) :
    matchhere re text = true ↔ Begins (items re) text := by
  induction re using items.induct generalizing text with
  | case1 => simp [matchhere, items, begins_nil]
  | case2 => simp [matchhere, items, begins_eol]
  | case3 c hc => cases text <;> simp [matchhere, items, hc, begins_single, begins_nil]
  | case4 c re ih =>
    simp only [matchhere, items, if_true, matchstar_iff, begins_cons, ih]
  | case5 c d re hd ih =>
    rw [items, if_neg hd, begins_single]
    cases text <;> simp [matchhere, hd, ih]

theorem matchLoop_iff (re text : List Byte) :
    matchLoop re text = true ↔
      ∃ skipped suffix, text = skipped ++ suffix ∧ Begins (items re) suffix := by
  induction text with
  | nil =>
    rw [matchLoop, matchhere_iff]
    constructor
    · intro h
      exact ⟨[], [], rfl, h⟩
    · rintro ⟨a, b, hab, h⟩
      obtain ⟨rfl, rfl⟩ := List.append_eq_nil_iff.mp hab.symm
      exact h
  | cons t text ih =>
    rw [matchLoop, Bool.or_eq_true, matchhere_iff, ih]
    constructor
    · rintro (h | ⟨a, b, rfl, h⟩)
      · exact ⟨[], t :: text, rfl, h⟩
      · exact ⟨t :: a, b, rfl, h⟩
    · rintro ⟨_ | ⟨x, a⟩, b, hab, h⟩
      · exact .inl (by rw [hab]; exact h)
      · obtain ⟨rfl, rfl⟩ := List.cons_eq_cons.mp hab
        exact .inr ⟨a, b, rfl, h⟩

/-- `match` terminates and returns 1 exactly if the pattern is found. -/
theorem match_iff_found (re text : List Byte) : matchText re text = true ↔ Found re text := by
  cases re with
  | nil => exact matchLoop_iff [] text
  | cons c re =>
    unfold matchText Found
    by_cases hc : c = caret
    · simp [hc, matchhere_iff]
    · simp [hc, matchLoop_iff]

end Xv6.User
