/-
Xv6.User.Grep — the lines that user/grep.c prints.

`grep` reads into a buffer of 1024 bytes, looks for newlines in it, and moves
what is left of an unfinished line to the front. A read returns at least one
byte and at most what is asked for, as long as there are bytes; `split` says how
many. A line that fills the buffer leaves no room for a read, which then
returns 0 and ends the loop.

§1 the loops, §2 lines, §3 what is printed.
-/
import Xv6.User.Match
import Xv6.User.Ulib

namespace Xv6.User

open Xv6.Vm (Byte)
open Function

/-! ## §1 The loops -/

def bufSize : Nat := 1024

def newline : Byte := 10

/-- The loop over the newlines of the buffer: the buffer, `p` and the output
after it. -/
def lineLoop (pattern : List Byte) : Nat → Mem → Nat → List Byte → Mem × Nat × List Byte
  | 0, buf, p, out => (buf, p, out)
  | fuel + 1, buf, p, out =>
    match strchr buf newline bufSize p with
    | none => (buf, p, out)
    | some q =>
      let buf := update buf q 0
      if matchText pattern (cstr buf bufSize p) then
        let buf := update buf q newline
        lineLoop pattern fuel buf (q + 1) (out ++ bytesAt buf p (q + 1 - p))
      else lineLoop pattern fuel buf (q + 1) out

/-- What a `read` of `n` bytes returns, when it is given `k` bytes. -/
def readSize (k n : Nat) (file : List Byte) : Nat := min (max 1 k) (min n file.length)

def grepLoop (pattern : List Byte) (split : Nat → Nat) :
    Nat → Nat → List Byte → Mem → Nat → List Byte → List Byte
  | 0, _, _, _, _, out => out
  | fuel + 1, i, file, buf, m, out =>
    let n := readSize (split i) (bufSize - m - 1) file
    if n > 0 then
      let buf := update (fill buf m (file.take n)) (m + n) 0
      let (buf, p, out) := lineLoop pattern bufSize buf 0 out
      if m + n > 0 then
        grepLoop pattern split fuel (i + 1) (file.drop n) (memmove buf 0 p (m + n - p)) (m + n - p)
          out
      else grepLoop pattern split fuel (i + 1) (file.drop n) buf (m + n) out
    else out

/-- `grep` on a file, from any state of the buffer: what it writes. Every read
takes a byte, so that there are at most as many as bytes, and the last one. -/
def grep (pattern : List Byte) (split : Nat → Nat) (file : List Byte) (buf : Mem) : List Byte :=
  grepLoop pattern split (file.length + 1) 0 file buf 0 []

/-! ## §2 Lines -/

/-- The lines that end with a newline, without it. -/
def lines (text : List Byte) : List (List Byte) := (text.splitOn newline).dropLast

/-- The lines that match, each with its newline. -/
def printed (pattern : List Byte) (ls : List (List Byte)) : List Byte :=
  (ls.filter (matchText pattern)).flatMap (· ++ [newline])

/-- The line fits into the buffer. -/
def short (l : List Byte) : Bool := l.length < bufSize - 1

variable {pattern l r text out : List Byte} {ls : List (List Byte)}

theorem beq_newline (h : newline ∉ l) : ∀ x ∈ l, (x == newline) = false :=
  fun _ hx => beq_eq_false_iff_ne.mpr fun e => h (e ▸ hx)

theorem lines_of_notMem (h : newline ∉ l) : lines l = [] := by
  rw [lines, List.splitOn, List.splitOnP_eq_singleton (beq_newline h)]
  rfl

theorem lines_cons (h : newline ∉ l) (r : List Byte) :
    lines (l ++ newline :: r) = l :: lines r := by
  rw [lines, List.splitOn, List.splitOnP_append_cons_of_forall_mem (beq_newline h) newline
    (by simp), List.dropLast_cons_of_ne_nil (List.splitOnP_ne_nil _ _)]
  rfl

theorem lines_join (h : ∀ l ∈ ls, newline ∉ l) (r : List Byte) :
    lines (ls.flatMap (· ++ [newline]) ++ r) = ls ++ lines r := by
  induction ls with
  | nil => rfl
  | cons l ls ih =>
    rw [List.forall_mem_cons] at h
    simp only [List.flatMap_cons, List.append_assoc, List.cons_append, List.nil_append]
    rw [lines_cons h.1, ih h.2]

/-- The first line does not fit. -/
theorem takeWhile_long (h : newline ∉ l) (hlong : bufSize - 1 ≤ l.length) :
    (lines (l ++ r)).takeWhile short = [] := by
  by_cases hr : newline ∈ r
  · obtain ⟨a, b, rfl, ha⟩ := List.eq_append_cons_of_mem hr
    rw [← List.append_assoc, lines_cons (by simp [h, ha]), List.takeWhile_cons_of_neg]
    simp only [short, List.length_append, decide_eq_true_eq]
    omega
  · rw [lines_of_notMem (by simp [h, hr]), List.takeWhile_nil]

theorem printed_append (pattern : List Byte) (ls ls' : List (List Byte)) :
    printed pattern (ls ++ ls') = printed pattern ls ++ printed pattern ls' := by
  simp [printed]

theorem printed_cons (pattern l : List Byte) (ls : List (List Byte)) :
    printed pattern (l :: ls) =
      (if matchText pattern l then l ++ [newline] else []) ++ printed pattern ls := by
  unfold printed
  rw [List.filter_cons]
  split <;> simp

theorem printed_eq_nil : printed pattern ls = [] ↔ ∀ l ∈ ls, matchText pattern l = false := by
  simp [printed]

/-! ## §3 What is printed -/

/-- The loop over the newlines takes the lines `ls` and leaves `tail`. -/
structure Taken (pattern : List Byte) (rest : List Byte) (p : Nat) (out : List Byte)
    (ls : List (List Byte)) (tail : List Byte) (s : Mem × Nat × List Byte) : Prop where
  rest_eq : rest = ls.flatMap (· ++ [newline]) ++ tail
  whole : ∀ l ∈ ls, newline ∉ l
  unfinished : newline ∉ tail
  place : s.2.1 + tail.length = p + rest.length
  str : Str s.1 s.2.1 tail
  output : s.2.2 = out ++ printed pattern ls

theorem lineLoop_taken (pattern : List Byte) (fuel : Nat) {buf : Mem} {p : Nat} {rest : List Byte}
    (h : Str buf p rest) (hfuel : rest.length < fuel) (hsize : rest.length < bufSize)
    (out : List Byte) :
    ∃ ls tail, Taken pattern rest p out ls tail (lineLoop pattern fuel buf p out) := by
  induction fuel generalizing buf p rest out with
  | zero => omega
  | succ fuel ih =>
    by_cases hnl : newline ∈ rest
    · obtain ⟨l, r, rfl, hl⟩ := List.eq_append_cons_of_mem hnl
      simp only [List.length_append, List.length_cons] at hfuel hsize
      have hstr : ∀ x, Str (update buf (p + l.length) x) (p + l.length + 1) r := fun x =>
        (h.drop.2.2).congr fun a ha => update_of_ne (by omega) ..
      have hline : bytesAt (update (update buf (p + l.length) 0) (p + l.length) newline) p
          (p + l.length + 1 - p) = l ++ [newline] := by
        have hwhole := Str.bytes (l := l ++ [newline]) (r := r) (by simpa using h)
        rw [update_idem, show p + l.length + 1 - p = (l ++ [newline]).length by
          simp; omega]
        refine Eq.trans (bytesAt_congr fun k _ => ?_) hwhole
        by_cases hk : p + k = p + l.length
        · rw [hk, update_self, h.drop.1]
        · rw [update_of_ne hk]
      rw [lineLoop, h.strchr_some hl (by omega)]
      simp only [h.cut.cstr (n := bufSize) (by omega)]
      -- the rest of the loop, whatever was printed
      have hrest : ∀ (buf' : Mem) out', Str buf' (p + l.length + 1) r →
          out' = out ++ (if matchText pattern l then l ++ [newline] else []) →
          ∃ ls tail, Taken pattern (l ++ newline :: r) p out ls tail
            (lineLoop pattern fuel buf' (p + l.length + 1) out') := by
        intro buf' out' hbuf hout
        obtain ⟨ls, tail, ht⟩ := ih hbuf (by omega) (by omega) out'
        have hplace := ht.place
        refine ⟨l :: ls, tail, ?_, List.forall_mem_cons.mpr ⟨hl, ht.whole⟩, ht.unfinished, ?_,
          ht.str, ?_⟩
        · rw [ht.rest_eq]
          simp
        · simp only [List.length_append, List.length_cons]
          omega
        · rw [ht.output, hout, printed_cons, List.append_assoc]
      split
      · rename_i hm
        rw [hline]
        exact hrest _ _ (by rw [update_idem]; exact hstr _) (by rw [if_pos hm])
      · rename_i hm
        exact hrest _ _ (hstr _) (by rw [if_neg hm, List.append_nil])
    · rw [lineLoop, h.strchr_none hnl]
      exact ⟨[], rest, rfl, by simp, hnl, rfl, h, by simp [printed]⟩

theorem grepLoop_eq (fuel : Nat) (split : Nat → Nat) {i : Nat} {file pend : List Byte} {buf : Mem}
    (hbuf : bytesAt buf 0 pend.length = pend) (hroom : pend.length < bufSize)
    (hpend : newline ∉ pend) (hnul : 0 ∉ pend ++ file) (hfuel : file.length < fuel)
    (out : List Byte) :
    grepLoop pattern split fuel i file buf pend.length out =
      out ++ printed pattern ((lines (pend ++ file)).takeWhile short) := by
  induction fuel generalizing i file pend buf out with
  | zero => omega
  | succ fuel ih =>
    rw [grepLoop]
    generalize hn : readSize (split i) (bufSize - pend.length - 1) file = n
    simp only [readSize] at hn
    dsimp only
    by_cases hpos : 0 < n
    · rw [if_pos hpos, if_pos (by omega)]
      have htake : (file.take n).length = n := by rw [List.length_take]; omega
      have hlen : (pend ++ file.take n).length = pend.length + n := by
        rw [List.length_append, htake]
      have hfile : pend ++ file = (pend ++ file.take n) ++ file.drop n := by
        rw [List.append_assoc, List.take_append_drop]
      have hstr : Str (update (fill buf pend.length (file.take n)) (pend.length + n) 0) 0
          (pend ++ file.take n) := by
        refine str_of_bytes ?_ ?_ fun h0 => hnul (hfile ▸ List.mem_append_left _ h0)
        · rw [hlen, bytesAt_add, Nat.zero_add]
          congr 1
          · refine Eq.trans (bytesAt_congr fun k hk => ?_) hbuf
            rw [update_of_ne (by omega), fill, if_neg (by omega)]
          · refine Eq.trans (bytesAt_congr fun k hk => update_of_ne (by omega) ..) ?_
            have hfill := bytesAt_fill buf pend.length (file.take n)
            rwa [htake] at hfill
        · rw [hlen, Nat.zero_add, update_self]
      obtain ⟨ls, tail, ht⟩ := lineLoop_taken pattern bufSize hstr (by omega) (by omega) out
      generalize lineLoop pattern bufSize _ 0 out = s at ht ⊢
      have hplace := ht.place
      rw [hlen] at hplace
      rw [show pend.length + n - s.2.1 = tail.length by omega, ih ?_ (by omega) ht.unfinished ?_ ?_]
      · rw [hfile, ht.rest_eq, List.append_assoc, lines_join ht.whole,
          List.takeWhile_append_of_pos, printed_append, ht.output, List.append_assoc]
        intro l hl
        have hmem := List.sublist_flatten_of_mem (List.mem_map_of_mem (f := (· ++ [newline])) hl)
        have hle := hmem.length_le
        rw [← List.flatMap_def] at hle
        have htot := congrArg List.length ht.rest_eq
        simp only [List.length_append, List.length_singleton] at hle htot
        simp only [short, decide_eq_true_eq]
        omega
      · refine Eq.trans (bytesAt_congr fun k hk => ?_) (Str.bytes (r := []) (by simpa using ht.str))
        rw [memmove_apply, if_pos (by omega), Nat.zero_add, Nat.sub_zero]
      · rw [hfile, ht.rest_eq, List.append_assoc] at hnul
        exact fun h0 => hnul (List.mem_append_right _ h0)
      · rw [List.length_drop]
        omega
    · rw [if_neg hpos]
      by_cases hf : file = []
      · rw [hf, List.append_nil, lines_of_notMem hpend]
        simp [printed]
      · have := List.length_pos_iff.mpr hf
        rw [takeWhile_long hpend (by omega)]
        simp [printed]

theorem grep_eq (split : Nat → Nat) (htext : 0 ∉ text) (buf : Mem) :
    grep pattern split text buf = printed pattern ((lines text).takeWhile short) := by
  have h := @grepLoop_eq pattern (text.length + 1) split 0 text [] buf rfl (by decide) (by simp)
    htext (by omega) []
  simpa [grep] using h

/-- `grep` prints exactly the lines that match, however the reads split the
text, iff no line matches from the first one on that does not fit into the
buffer. -/
theorem grep_exact_iff (pattern : List Byte) (split : Nat → Nat) (text : { l : List Byte // 0 ∉ l })
    (buf : Mem) :
    grep pattern split text buf = printed pattern (lines text) ↔
      ∀ l ∈ (lines text.1).dropWhile short, matchText pattern l = false := by
  rw [grep_eq split text.2, ← printed_eq_nil]
  nth_rewrite 2 [← List.takeWhile_append_dropWhile (p := short) (l := lines text.1)]
  rw [printed_append, List.self_eq_append_right]

/-- A line of 1023 characters is lost, with the empty pattern. -/
theorem grep_long_line_lost :
    grep [] (fun _ => 1023) (List.replicate 1023 97 ++ [newline]) (fun _ => 0) = [] ∧
      printed [] (lines (List.replicate 1023 97 ++ [newline])) ≠ [] := by
  have hmem : ∀ x ∈ List.replicate 1023 (97 : Byte), x = 97 := fun x => List.eq_of_mem_replicate
  have hlen : (List.replicate 1023 (97 : Byte)).length = 1023 := List.length_replicate
  generalize List.replicate 1023 (97 : Byte) = l at hmem hlen ⊢
  have hline : lines (l ++ [newline]) = [l] := by
    rw [lines_cons fun h => absurd (hmem _ h) (by decide), lines_of_notMem List.not_mem_nil]
  constructor
  · rw [grep_eq, hline, List.takeWhile_cons_of_neg]
    · rfl
    · simp [short, hlen, bufSize]
    · intro h
      rcases List.mem_append.mp h with h | h
      · exact absurd (hmem _ h) (by decide)
      · exact absurd (List.mem_singleton.mp h) (by decide)
  · rw [hline, Ne, printed_eq_nil]
    cases l <;> simp [matchText, matchLoop, matchhere]

end Xv6.User
