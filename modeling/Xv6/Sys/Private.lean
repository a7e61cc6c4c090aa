/-
Xv6.Sys.Private — what the memory system is for.

Here every process owns its memory alone: a `Space` maps page numbers to
contents, a page that was never touched reads as zero, and fork copies the
whole map. There are no page tables, no physical pages and no sharing.

`PStep` says what each operation does to these maps, given what it answered.
An operation may fail for lack of memory; then it answers so and changes
nothing, or has written only the start of what it was to write. `PRuns` is a
run of such steps.
-/
import Xv6.Sys.Step

namespace Xv6

open Xv6.Vm Function

/-! ## Private memory -/

/-- The memory of one process. -/
structure Space where
  size : Nat
  pages : Nat → Option Page

namespace Space

def empty : Space := ⟨0, fun _ => none⟩

/-- A page; absent ones are zero. -/
def page (sp : Space) (vpn : Nat) : Page := (sp.pages vpn).getD zeroPage

def byte (sp : Space) (va : Nat) : Byte := pageByte (sp.page (va / 4096)) (va % 4096)

def bytes (sp : Space) (va n : Nat) : List Byte := (List.range n).map fun k => sp.byte (va + k)

def poke (sp : Space) (va : Nat) (b : Byte) : Space :=
  { sp with
    pages := update sp.pages (va / 4096) (some (setPageByte (sp.page (va / 4096)) (va % 4096) b)) }

def write (sp : Space) (va : Nat) : List Byte → Space
  | [] => sp
  | b :: bs => (sp.poke va b).write (va + 1) bs

/-- A new size: the pages that lie wholly above it are dropped. -/
def resize (sp : Space) (n : Nat) : Space :=
  ⟨n, fun vpn => if vpn * 4096 < n then sp.pages vpn else none⟩

@[simp] theorem byte_empty (va : Nat) : empty.byte va = 0 := pageByte_zeroPage _

theorem byte_poke (sp : Space) (va a : Nat) (b : Byte) :
    (sp.poke va b).byte a = if a = va then b else sp.byte a := by
  by_cases hp : a / 4096 = va / 4096
  · have hpage : (sp.poke va b).page (a / 4096) =
        setPageByte (sp.page (a / 4096)) (va % 4096) b := by
      rw [hp]
      simp only [page, poke, update_self, Option.getD_some]
    rw [byte, hpage, pageByte_setPageByte _ (Nat.mod_lt _ (by decide)) (Nat.mod_lt _ (by decide))]
    by_cases ha : a = va
    · rw [if_pos (by rw [ha]), if_pos ha]
    · rw [if_neg (by omega), if_neg ha]
      rfl
  · rw [if_neg (by rintro rfl; exact hp rfl)]
    simp only [byte, page, poke, update_of_ne hp]

@[simp] theorem size_write (bs : List Byte) : ∀ (sp : Space) (va : Nat),
    (sp.write va bs).size = sp.size := by
  induction bs with
  | nil => exact fun _ _ => rfl
  | cons b bs ih => exact fun sp va => ih _ _

theorem byte_write (bs : List Byte) : ∀ (sp : Space) (va a : Nat),
    (sp.write va bs).byte a =
      if va ≤ a ∧ a < va + bs.length then bs.getD (a - va) 0 else sp.byte a := by
  induction bs with
  | nil =>
    intro sp va a
    rw [if_neg (by simp only [List.length_nil]; omega)]
    rfl
  | cons b bs ih =>
    intro sp va a
    rw [write, ih, byte_poke]
    simp only [List.length_cons]
    by_cases h0 : a = va
    · subst h0
      rw [if_neg (by omega), if_pos rfl, if_pos (by omega), Nat.sub_self, List.getD_cons_zero]
    · by_cases h1 : va + 1 ≤ a ∧ a < va + 1 + bs.length
      · rw [if_pos h1, if_pos (by omega), show a - va = a - (va + 1) + 1 by omega,
          List.getD_cons_succ]
      · rw [if_neg h1, if_neg h0, if_neg (by omega)]

theorem byte_resize (sp : Space) (n va : Nat) :
    (sp.resize n).byte va = if va / 4096 * 4096 < n then sp.byte va else 0 := by
  by_cases h : va / 4096 * 4096 < n
  · simp only [byte, page, resize, if_pos h]
  · simp only [byte, page, resize, if_neg h, Option.getD_none, pageByte_zeroPage]
    rfl

end Space

/-! ## Steps -/

/-- The memory of every process. -/
abbrev Private := Fin nproc → Space

def Private.write (a : Private) (i : Fin nproc) (va : Nat) (bs : List Byte) : Private :=
  update a i ((a i).write va bs)

/-- The new size that `sbrk(n)` asks for. A shrink below zero changes nothing. -/
def newSize (sz : Nat) (n : Int) : Nat := if 0 ≤ (sz : Int) + n then (sz + n).toNat else sz

/-- The bytes of the two descriptors that `pipe` stores. -/
def fdBytes : Option (Nat × Nat) → List Byte × List Byte
  | some (fd0, fd1) => (leBytes 4 fd0, leBytes 4 fd1)
  | none => ([], [])

inductive PStep (a : Private) : Op → Res → Private → Prop
  -- the operation was not possible, or its process was killed instead
  | idle (op) : PStep a op .idle a
  | killed (op) : PStep a op .killed a
  | boot : PStep a .boot .done a
  | kalloc (k) : PStep a (.kalloc k) .done a
  | kfree (k) : PStep a (.kfree k) .done a
  | allocproc : PStep a .allocproc .done a
  | pipeclose (page w) : PStep a (.pipeclose page w) .done a
  | exit (i status) : PStep a (.exit i status) .done a
  | kill (i pid r) : PStep a (.kill i pid) (.int r) a
  | fault (i store va) : PStep a (.fault i store va) .done a
  -- the child gets a copy of its own
  | fork (i child) (h : child ≠ i) : PStep a (.fork i) (.forked child) (update a child (a i))
  | forkFail (i) : PStep a (.fork i) (.int (-1)) a
  | load (i va) : PStep a (.load i va) (.byte ((a i).byte va.toNat)) a
  | store (i va b) : PStep a (.store i va b) .done (a.write i va.toNat [b])
  | copyout (i va src) : PStep a (.copyout i va src) (.int 0) (a.write i va.toNat src)
  | copyoutFail (i va src k) :
      PStep a (.copyout i va src) (.int (-1)) (a.write i va.toNat (src.take k))
  | copyin (i va len) : PStep a (.copyin i va len) (.bytes 0 ((a i).bytes va.toNat len)) a
  | copyinFail (i va len k) (h : k ≤ len) :
      PStep a (.copyin i va len) (.bytes (-1) ((a i).bytes va.toNat k)) a
  -- a string ends with its first zero byte
  | copyinstr (i va max text) (h : ∀ b ∈ text, b ≠ 0) (hlen : text.length < max)
      (hread : text ++ [0] = (a i).bytes va.toNat (text.length + 1)) :
      PStep a (.copyinstr i va max) (.bytes 0 (text ++ [0])) a
  | copyinstrFail (i va max k) (h : k ≤ max) :
      PStep a (.copyinstr i va max) (.bytes (-1) ((a i).bytes va.toNat k)) a
  | sbrk (i n eager) :
      PStep a (.sbrk i n eager) (.int (a i).size)
        (update a i ((a i).resize (newSize (a i).size n.toInt)))
  | sbrkFail (i n eager) : PStep a (.sbrk i n eager) (.int (-1)) a
  -- any image
  | exec (i path uargv file r) (h : 0 ≤ r) (sp : Space) :
      PStep a (.exec i path uargv file) (.int r) (update a i sp)
  | execFail (i path uargv file) : PStep a (.exec i path uargv file) (.int (-1)) a
  -- the exit status is stored, then the child is gone
  | reap (i addr child pid status) (h : child ≠ i) :
      PStep a (.wait i addr) (.wait (.reaped child pid))
        (update (a.write i addr.toNat (if addr.toNat ≠ 0 then xstateBytes status else []))
          child .empty)
  | waitBad (i addr child status k) :
      PStep a (.wait i addr) (.wait (.badAddr child))
        (a.write i addr.toNat ((xstateBytes status).take k))
  | waitNone (i addr) : PStep a (.wait i addr) (.wait .noChild) a
  | waitBlocked (i addr) : PStep a (.wait i addr) (.wait .blocked) a
  | pipe (i va files fds r k0 k1) :
      PStep a (.pipe i va files fds) (.int r)
        ((a.write i va.toNat ((fdBytes fds).1.take k0)).write i (u64 (va.toNat + 4))
          ((fdBytes fds).2.take k1))

/-- A run: the operations, their answers, and the memory in the end. -/
inductive PRuns : Private → List Op → List Res → Private → Prop
  | nil (a) : PRuns a [] [] a
  | cons {a a' a'' op r ops rs} (h : PStep a op r a') (hs : PRuns a' ops rs a'') :
      PRuns a (op :: ops) (r :: rs) a''

end Xv6
