/-
Xv6.Files.DirMap — a directory is a finite map.

The entries in use of a directory are slots that hold a name and an inode number.
A lookup finds the value of the map; `dirlink` adds one binding, in the first free
slot or at the end; `sys_unlink` clears one slot. Starting from a new directory, no
name is ever there twice.
§1 names, as `strncmp` and `strncpy` see them, §2 slots, §3 the operations, §4 runs.
-/
import Xv6.Files.RoomTheorems
import Xv6.Files.Safety
import Xv6.Lib.Slots

namespace Xv6.Files

open Xv6.Lib Function

/-! ## §1 Names -/

/-- `strncmp`, where the strings begin at `p` and at `q`. -/
def strncmp : (Nat → Byte) → (Nat → Byte) → Nat → Int
  | _, _, 0 => 0
  | p, q, n + 1 =>
    if p 0 ≠ 0 ∧ p 0 = q 0 then strncmp (fun k => p (k + 1)) (fun k => q (k + 1)) n
    else (p 0).toNat - (q 0).toNat

/-- The bytes that `strncpy` writes. -/
def strncpy : (Nat → Byte) → Nat → List Byte
  | _, 0 => []
  | t, n + 1 =>
    t 0 :: if t 0 ≠ 0 then strncpy (fun k => t (k + 1)) n else List.replicate n 0

/-- The string at `p`, of at most `n` bytes. -/
def strAt : (Nat → Byte) → Nat → List Byte
  | _, 0 => []
  | p, n + 1 => if p 0 ≠ 0 then p 0 :: strAt (fun k => p (k + 1)) n else []

theorem strAt_nul {p : Nat → Byte} {n : Nat} (h : p 0 = 0) : strAt p (n + 1) = [] :=
  if_neg (not_not.mpr h)

theorem strAt_cons {p : Nat → Byte} {n : Nat} (h : p 0 ≠ 0) :
    strAt p (n + 1) = p 0 :: strAt (fun k => p (k + 1)) n := if_pos h

theorem strncmp_eq_zero (n : Nat) : ∀ p q : Nat → Byte,
    strncmp p q n = 0 ↔ strAt p n = strAt q n := by
  induction n with
  | zero => exact fun p q => iff_of_true rfl rfl
  | succ n ih =>
    intro p q
    unfold strncmp
    by_cases hsame : p 0 = q 0
    · by_cases h0 : p 0 = 0
      · rw [if_neg fun h => h.1 h0, strAt_nul h0, strAt_nul (hsame ▸ h0), hsame]
        exact iff_of_true (by omega) rfl
      · rw [if_pos ⟨h0, hsame⟩, strAt_cons h0, strAt_cons (hsame ▸ h0), ih, hsame,
          List.cons_inj_right]
    · have hne : (p 0).toNat ≠ (q 0).toNat := fun h => hsame (BitVec.eq_of_toNat_eq h)
      rw [if_neg fun h => hsame h.2]
      refine iff_of_false (by omega) ?_
      by_cases hp : p 0 = 0
      · rw [strAt_nul hp, strAt_cons fun h => hsame (hp.trans h.symm)]
        exact (List.cons_ne_nil _ _).symm
      · by_cases hq : q 0 = 0
        · rw [strAt_nul hq, strAt_cons hp]
          exact List.cons_ne_nil _ _
        · rw [strAt_cons hp, strAt_cons hq]
          exact fun h => hsame (List.cons.inj h).1

theorem strncpy_eq (n : Nat) : ∀ t : Nat → Byte,
    strncpy t n = strAt t n ++ List.replicate (n - (strAt t n).length) 0 := by
  induction n with
  | zero => exact fun _ => rfl
  | succ n ih =>
    intro t
    unfold strncpy
    by_cases h0 : t 0 = 0
    · rw [if_neg (not_not.mpr h0), strAt_nul h0, h0]
      rfl
    · rw [if_pos h0, strAt_cons h0, ih, List.cons_append, List.length_cons, Nat.add_sub_add_right]

theorem strAt_getD (n : Nat) : ∀ l : List Byte, strAt (l.getD · 0) n = (l.take n).takeWhile
    (· ≠ 0) := by
  induction n with
  | zero => exact fun l => by simp [strAt]
  | succ n ih =>
    intro l
    cases l with
    | nil => simp [strAt]
    | cons a l =>
      have hrest : (fun k => (a :: l).getD (k + 1) 0) = (l.getD · 0) := by
        funext k
        rw [List.getD_cons_succ]
      by_cases h0 : a = 0
      · rw [strAt_nul h0]
        simp [h0]
      · rw [strAt_cons h0, hrest, ih, List.take_succ_cons, List.takeWhile_cons_of_pos]
        · rfl
        · simpa using h0

/-- `namecmp` of two name fields. -/
theorem namecmp_sameName (s t : Name) :
    strncmp (s.getD · 0) (t.getD · 0) dirsiz = 0 ↔ sameName s t = true := by
  rw [strncmp_eq_zero, strAt_getD, strAt_getD, sameName, decide_eq_true_eq]
  rfl

/-- The name of a new entry is copied by `strncpy`. -/
theorem direntBytes_strncpy (inum : Nat) (name : Name) (h : 0 ∉ name) :
    direntBytes inum name = [BitVec.ofNat 8 inum, BitVec.ofNat 8 (inum / 256)] ++
      strncpy (name.getD · 0) dirsiz := by
  have hall : (name.take dirsiz).takeWhile (· ≠ 0) = name.take dirsiz := by
    rw [List.takeWhile_eq_self_iff]
    intro b hb
    rw [decide_eq_true_eq]
    rintro rfl
    exact h (List.mem_of_mem_take hb)
  rw [strncpy_eq, strAt_getD, hall, direntBytes, List.length_take]
  congr 3
  omega

/-- A name: at most `DIRSIZ` bytes, none of them 0. -/
structure FileName where
  bytes : List Byte
  short : bytes.length ≤ dirsiz
  proper : 0 ∉ bytes
  deriving DecidableEq

theorem nameOf_short (name : Name) : (nameOf name).length ≤ dirsiz :=
  Nat.le_trans (List.takeWhile_sublist _).length_le (List.length_take_le ..)

theorem nameOf_proper (name : Name) : 0 ∉ nameOf name := by
  intro h
  have := List.mem_takeWhile_imp h
  simp at this

/-- The name in a name field. -/
def FileName.read (field : Name) : FileName :=
  ⟨nameOf field, nameOf_short field, nameOf_proper field⟩

theorem FileName.nameOf_bytes (x : FileName) : nameOf x.bytes = x.bytes := by
  rw [nameOf, List.take_of_length_le x.short, List.takeWhile_eq_self_iff]
  intro b hb
  rw [decide_eq_true_eq]
  rintro rfl
  exact x.proper hb

theorem FileName.read_eq {x : FileName} {field : Name} :
    FileName.read field = x ↔ sameName x.bytes field = true := by
  rw [sameName, decide_eq_true_eq, x.nameOf_bytes]
  constructor
  · rintro rfl
    rfl
  · intro h
    cases x
    simp only [FileName.read, FileName.mk.injEq]
    exact h.symm

/-! ## §2 Slots -/

/-- What an entry binds, if it is in use. -/
def Dirent.binding (de : Dirent) : Option (FileName × Nat) :=
  if de.inum = 0 then none else some (.read de.name, de.inum)

/-- Slot `k` of directory `d`. -/
def Store.slot (st : Store) (d k : Nat) : Option (FileName × Nat) :=
  (st.entry d k).bind Dirent.binding

/-- The map of a directory: the inode of the first entry with the name. -/
def Store.bindings (st : Store) (d : Nat) (x : FileName) : Option Nat := st.lookup d x.bytes

variable {sb : Superblock} {g : Prop} {c : Cnt} {s s' : Fs} {st st' : Store} {e : Fin ninode}
  {d k i : Nat} {x : FileName} {E : Panic → Prop} {m : FileName → Option Nat}

theorem binding_some {de : Dirent} : de.binding = some (x, i) ↔ de.has x.bytes ∧ de.inum = i := by
  unfold Dirent.binding Dirent.has
  by_cases h0 : de.inum = 0
  · rw [if_pos h0]
    exact iff_of_false (by rintro ⟨⟩) fun h => h.1.1 h0
  · rw [if_neg h0, Option.some.injEq, Prod.mk.injEq, FileName.read_eq]
    exact ⟨fun h => ⟨⟨h0, h.1⟩, h.2⟩, fun h => ⟨h.1.2, h.2⟩⟩

theorem slot_some : st.slot d k = some (x, i) ↔
    ∃ de, st.entry d k = some de ∧ de.has x.bytes ∧ de.inum = i := by
  simp only [Store.slot, Option.bind_eq_some_iff, binding_some]

theorem slot_none : st.slot d k = none ↔ Vacant st.view d k := by
  unfold Store.slot Vacant
  cases he : st.entry d k with
  | none => exact iff_of_true rfl fun de hde => by cases he.symm.trans hde
  | some de =>
    have hde : ∀ de', st.view.entry d k = some de' ↔ de = de' := by
      intro de'
      rw [show st.view.entry d k = some de from he, Option.some.injEq]
    simp only [hde, Option.bind_some, Dirent.binding, forall_eq']
    by_cases h0 : de.inum = 0
    · simp [h0]
    · simp [h0]

/-- If no name is there twice, `bindings` is the map of the slots. -/
theorem bindings_represents (h : Represents (st.slot d) m) :
    Represents (st.slot d) (st.bindings d) := by
  refine ⟨h.distinct, fun x i => ?_⟩
  unfold Store.bindings Store.lookup
  rw [Option.bind_eq_some_iff]
  constructor
  · rintro ⟨k, hk, hi⟩
    obtain ⟨de, hde, hhas⟩ := find_some hk
    rw [hde, Option.map_some, Option.some.injEq] at hi
    exact ⟨k, slot_some.mpr ⟨de, hde, hhas, hi⟩⟩
  · rintro ⟨k, hk⟩
    obtain ⟨de, hde, hhas, hi⟩ := slot_some.mp hk
    cases hf : st.find d x.bytes with
    | none => exact absurd hhas (find_none hf k de hde)
    | some l =>
      obtain ⟨de', hde', hhas'⟩ := find_some hf
      obtain rfl : l = k := h.distinct (slot_some.mpr ⟨de', hde', hhas', rfl⟩) hk
      refine ⟨l, rfl, ?_⟩
      rw [hde, Option.map_some, hi]

theorem bindings_eq (h : Represents (st.slot d) m) :
    st.bindings d = m := (bindings_represents h).unique h

theorem slot_setEntry {de : Dirent} (h : st'.view = st.view.setEntry d k de) :
    st'.slot d = update (st.slot d) k de.binding := by
  funext l
  have hl : st'.entry d l = (st.view.setEntry d k de).entry d l := by rw [← h]; rfl
  unfold Store.slot
  rw [hl]
  by_cases e : l = k
  · subst e
    rw [entry_setEntry_self, update_self, Option.bind_some]
  · rw [entry_setEntry_ne _ e, update_of_ne e]
    rfl

theorem slot_view (h : st'.view = st.view) : st'.slot d = st.slot d := by
  funext l
  have hl : st'.entry d l = st.entry d l := congrFun (congrFun (congrArg View.entry h) d) l
  rw [Store.slot, hl, Store.slot]

/-! ## §3 The operations -/

/-- An inode number as it fits into an entry. -/
abbrev Inum := { i : Nat // 0 < i ∧ i < 2 ^ 16 }

inductive DirOp where
  | link (name : FileName) (inum : Inum)
  | lookup (name : FileName)
  -- clear the entry, as `sys_unlink` does
  | clear (name : FileName)

inductive DirResult where
  | status (r : Int)
  -- the inode number and the offset of the entry
  | found (r : Option (Nat × Nat))

/-- An operation on the directory in table entry `dp`; a reference that `dirlookup` has
taken is put back. -/
def dirOp (sb : Superblock) (dp : Fin ninode) : DirOp → F DirResult
  | .link name inum => do
    let r ← dirlink sb dp name.bytes inum
    return .status r
  | .lookup name => do
    match ← dirlookup sb dp name.bytes with
    | none => return .found none
    | some (ip, off) =>
      let inum := (← getInode ip).inum
      iput ip
      return .found (some (inum, off))
  | .clear name => do
    match ← dirlookup sb dp name.bytes with
    | none => return .found none
    | some (ip, off) =>
      let inum := (← getInode ip).inum
      let r ← writeInode sb dp (.kernel (List.replicate direntSize 0)) off direntSize
      if r ≠ direntSize then throw .unlinkWritei
      else
        iput ip
        return .found (some (inum, off))

def dirOps (sb : Superblock) (dp : Fin ninode) : List DirOp → F (List DirResult)
  | [] => return []
  | op :: ops => do
    let r ← dirOp sb dp op
    let rs ← dirOps sb dp ops
    return r :: rs

/-- There is an empty entry. -/
def Store.HasEmpty (st : Store) (d : Nat) : Prop :=
  ∃ k, (k + 1) * direntSize ≤ (st.dinodes d).size ∧ st.slot d k = none

/-- There is no place behind the last entry: the directory has its full size, or there are
too few free blocks. -/
def Store.Stuck (sb : Superblock) (st : Store) (d : Nat) : Prop :=
  (st.dinodes d).size + direntSize > maxfile * bsize ∨
    st.room sb < (st.dinodes d).lacks st.data ((st.dinodes d).size / bsize)

/-- What an operation returns and does to the map of the directory. -/
def DirOp.Spec (sb : Superblock) (d : Nat) (st : Store) : DirOp → DirResult → Store → Prop
  | .lookup x, r, st' =>
    st' = st ∧ (st.bindings d x = none ∧ r = .found none ∨
      ∃ i k, st.bindings d x = some i ∧ r = .found (some (i, k * direntSize)) ∧
        st.slot d k = some (x, i))
  | .clear x, r, st' =>
    (st'.dinodes d).size = (st.dinodes d).size ∧
    st'.bindings d = update (st.bindings d) x none ∧
    (st.bindings d x = none ∧ r = .found none ∨
      ∃ i k, st.bindings d x = some i ∧ r = .found (some (i, k * direntSize)) ∧
        st'.slot d = update (st.slot d) k none)
  | .link x i, r, st' =>
    (r = .status (-1) ∧ (st.bindings d x ≠ none ∨ ¬ st.HasEmpty d ∧ st.Stuck sb d) ∧
      st'.bindings d = st.bindings d ∧ (st'.dinodes d).size = (st.dinodes d).size) ∨
    r = .status 0 ∧ ¬ (st.bindings d x ≠ none ∨ ¬ st.HasEmpty d ∧ st.Stuck sb d) ∧
      st'.bindings d = update (st.bindings d) x (some i.val) ∧
      (st.HasEmpty d → (st'.dinodes d).size = (st.dinodes d).size) ∧
      (¬ st.HasEmpty d → (st'.dinodes d).size = (st.dinodes d).size + direntSize)

/-- Entry `e` of the table is the locked inode of directory `d`, whose names are
distinct. -/
structure Directory (sb : Superblock) (c : Cnt) (e : Fin ninode) (d : Nat) (s : Fs) : Prop where
  table : Table sb False c s
  valid : (s.itable e).valid = true
  inum : s.inum e = d
  dir : (s.store.dinodes d).type = .dir
  aligned : direntSize ∣ (s.store.dinodes d).size
  map : Represents (s.store.slot d) (s.store.bindings d)

section

variable (h : Directory sb c e d s) (he : 0 < c e)
include h he

/-- The disk has not changed. -/
theorem Directory.same {c' : Cnt} (ht : Table sb False c' s') (hk : Keeps c s s')
    (hst : s'.store = s.store) : Directory sb c' e d s' := by
  refine ⟨ht, hk.valid e he h.valid, (hk.same he).trans h.inum, ?_, ?_, ?_⟩
  · rw [hst]
    exact h.dir
  · rw [hst]
    exact h.aligned
  · rw [hst]
    exact h.map

/-- The entries have changed, and now are slots for `m`. -/
theorem Directory.written (ht : Table sb False c s')
    (hk : Keeps c s s') (hsize : direntSize ∣ (s'.store.dinodes d).size)
    (hm : Represents (s'.store.slot d) m) :
    Directory sb c e d s' := by
  have htype := hk.type e he
  rw [show (s.itable e).inum = d from h.inum, h.dir] at htype
  exact ⟨ht, hk.valid e he h.valid, (hk.same he).trans h.inum, htype (by rintro ⟨⟩), hsize,
    bindings_represents hm⟩

theorem Directory.dirlookup (hroom : ∃ a, c a = 0)
    (x : FileName) :
    Total (Files.dirlookup sb e x.bytes) s fun r s' =>
      Keeps c s s' ∧ s'.store = s.store ∧
      (r = none ∧ s.store.bindings d x = none ∧ s' = s ∨
        ∃ a i k, r = some (a, k * direntSize) ∧ s.store.bindings d x = some i ∧
          s.store.slot d k = some (x, i) ∧ s'.inum a = i ∧ Table sb False (more c a) s' ∧
          (c a = 0 → (s'.itable a).valid = false)) := by
  obtain ⟨a, ha⟩ := hroom
  have hinum := h.inum
  refine (dirlookup_meets h.table he h.valid (by rw [hinum]; exact h.dir) False.elim x.bytes
    (fun hd => hd (by rw [hinum]; exact h.aligned)) fun hall => ?_).imp
    fun r s' ⟨hk, hst, hr⟩ => ⟨hk, hst, ?_⟩
  · have := hall a
    omega
  rw [hinum] at hr
  rcases hr with ⟨rfl, hf, rfl⟩ | ⟨a, k, de, rfl, hf, hde, hhas, hin, ht, hnew⟩
  · exact .inl ⟨rfl, lookup_none.mpr hf, rfl⟩
  · exact .inr ⟨a, de.inum, k, rfl, lookup_some hf hde, slot_some.mpr ⟨de, hde, hhas, rfl⟩, hin,
      ht, hnew⟩

end

/-- An entry that is there can be written again. -/
theorem Directory.rewritable (h : Directory sb c e d s)
    (hk : (k + 1) * direntSize ≤ (s.store.dinodes d).size) :
    ¬ (s.store.dinodes d).refuses (k * direntSize) direntSize ∧
      (s.store.dinodes d).lacks s.store.data (k * direntSize / bsize) ≤ s.store.room sb := by
  have ht : (s.store.dinodes d).type ≠ .free := by
    rw [h.dir]
    rintro ⟨⟩
  have hmax := h.table.owned.size d ht
  rw [Nat.succ_mul] at hk
  have hpos : 0 < direntSize := by decide
  constructor
  · have : maxfile * bsize < 2 ^ 32 := by decide
    unfold Dinode.refuses
    omega
  · rw [lacks_present (h.table.owned.blockAt_ne_zero ht (by omega))]
    exact Nat.zero_le _

/-- An entry of a directory is written whole, if there is a block for it. -/
theorem Directory.writeEntry (h : Directory sb c e d s) (he : 0 < c e) (k : Nat)
    {bytes : List Byte} (hlen : bytes.length = direntSize) :
    Total (writeInode sb e (.kernel bytes) (k * direntSize) direntSize) s fun r s' =>
      Table sb False c s' ∧ Keeps c s s' ∧
      (r = direntSize ↔ ¬ (s.store.dinodes d).refuses (k * direntSize) direntSize ∧
        (s.store.dinodes d).lacks s.store.data (k * direntSize / bsize) ≤ s.store.room sb) ∧
      (r ≠ direntSize → s'.store.slot d = s.store.slot d ∧
        (s'.store.dinodes d).size = (s.store.dinodes d).size) ∧
      (r = direntSize → s'.store.slot d = update (s.store.slot d) k (direntOf bytes).binding ∧
        (s'.store.dinodes d).size = max (s.store.dinodes d).size ((k + 1) * direntSize)) ∧
      ∀ a, (s'.itable a).valid = (s.itable a).valid := by
  have hinum := h.inum
  have hone : k * direntSize % bsize + direntSize ≤ bsize := by
    unfold direntSize bsize
    omega
  refine ((writeEntry_spec h.table he h.valid (by rw [hinum]; exact h.dir) k hlen).and
    (writeInode_room h.table he h.valid hlen (by decide) hone)).imp ?_
  rintro r s' ⟨⟨ht, hk, hvalid, hview⟩, hroom⟩
  rw [show (s.itable e).inum = d from hinum] at hroom
  rw [hinum] at hview
  refine ⟨ht, hk, hroom, fun hr => ?_, fun hr => ?_, hvalid⟩
  · rcases hview with ⟨_, hv, hsize⟩ | ⟨hr', _⟩
    · exact ⟨slot_view hv, hsize⟩
    · exact absurd hr' hr
  · rcases hview with ⟨hr', _⟩ | ⟨_, _, hv, hsize⟩
    · exact absurd hr hr'
    · exact ⟨slot_setEntry hv, hsize⟩

theorem lookupOp_spec (h : Directory sb c e d s) (he : 0 < c e) (hroom : ∃ a, c a = 0)
    (x : FileName) :
    Total (dirOp sb e (.lookup x)) s fun r s' =>
      Directory sb c e d s' ∧ (DirOp.lookup x).Spec sb d s.store r s'.store := by
  refine (h.dirlookup he hroom x).seq fun r s1 ⟨hk, hst, hr⟩ => ?_
  rcases hr with ⟨rfl, hnone, rfl⟩ | ⟨a, i, k, rfl, hi, hslot, hin, ht, hnew⟩
  · exact meets_pure ⟨h, rfl, .inl ⟨hnone, rfl⟩⟩
  · refine Meets.bind (meets_getInode ?_)
    refine (iput_found ht hnew).seq fun _ s2 ⟨ht2, hk2, hst2⟩ => ?_
    have hstore := hst2.trans hst
    refine meets_pure ⟨h.same he ht2 (hk.trans hk2 fun _ ha => ha) hstore, hstore,
      .inr ⟨i, k, hi, ?_, hslot⟩⟩
    rw [show (s1.itable a).inum = i from hin]

theorem binding_cleared : (direntOf (List.replicate direntSize 0)).binding = none := by
  rfl

theorem clearOp_spec (h : Directory sb c e d s) (he : 0 < c e) (hroom : ∃ a, c a = 0)
    (x : FileName) :
    Total (dirOp sb e (.clear x)) s fun r s' =>
      Directory sb c e d s' ∧ (DirOp.clear x).Spec sb d s.store r s'.store := by
  refine (h.dirlookup he hroom x).seq fun r s1 ⟨hk, hst, hr⟩ => ?_
  rcases hr with ⟨rfl, hnone, rfl⟩ | ⟨a, i, k, rfl, hi, hslot, hin, ht, hnew⟩
  · refine meets_pure ⟨h, rfl, ?_, .inl ⟨hnone, rfl⟩⟩
    rw [← hnone, update_eq_self]
  · refine Meets.bind (meets_getInode ?_)
    have he1 : 0 < more c a e := pos_more he
    refine ((h.same he ht hk hst).writeEntry he1 k (by decide)).seq ?_
    rintro r s2 ⟨ht2, hk2, hroom2, -, hyes, hvalid⟩
    -- the entry is there, so its block is, and the write succeeds
    rw [hst] at hroom2 hyes
    obtain ⟨de, hde, -, -⟩ := slot_some.mp hslot
    obtain ⟨-, hle, -⟩ := entry_some hde
    have hdone : r = direntSize := hroom2.mpr (h.rewritable hle)
    obtain ⟨hslots, hsize⟩ := hyes hdone
    rw [if_neg (not_not.mpr hdone)]
    rw [binding_cleared] at hslots
    rw [Nat.max_eq_left hle] at hsize
    refine (iput_found ht2 fun h0 => (hvalid a).trans (hnew h0)).seq fun _ s3 ⟨ht3, hk3, hst3⟩ => ?_
    have hmap : Represents (s3.store.slot d) (update (s.store.bindings d) x none) := by
      rw [hst3, hslots]
      exact h.map.clear hslot
    have hkeep : Keeps c s s3 := (hk.trans hk2 fun _ => pos_more).trans hk3 fun _ ha => ha
    refine meets_pure ⟨h.written he ht3 hkeep ?_ hmap, ?_, bindings_eq hmap,
      .inr ⟨i, k, hi, ?_, ?_⟩⟩
    · rw [hst3, hsize]
      exact h.aligned
    · rw [hst3, hsize]
    · rw [show (s1.itable a).inum = i from hin]
    · rw [hst3, hslots]

theorem binding_new (x : FileName) (i : Inum) :
    (direntOf (direntBytes i.val x.bytes)).binding = some (x, i.val) := by
  have hi := i.2
  rw [direntOf_direntBytes, binding_some, Nat.mod_eq_of_lt hi.2]
  refine ⟨⟨?_, ?_⟩, rfl⟩
  · exact Nat.pos_iff_ne_zero.mp hi.1
  · rw [sameName, decide_eq_true_eq, nameOf_nameOf]

/-- The first entry that is not in use is one of the directory, or the directory is full up
to its end. -/
theorem FirstVacant.place (h : FirstVacant st.view d k)
    (hal : direntSize ∣ (st.dinodes d).size) (hk : k * direntSize ≤ (st.dinodes d).size) :
    (k + 1) * direntSize ≤ (st.dinodes d).size ∧ st.HasEmpty d ∨
      k * direntSize = (st.dinodes d).size ∧ ¬ st.HasEmpty d := by
  rcases Nat.eq_or_lt_of_le hk with heq | hlt
  · refine .inr ⟨heq, ?_⟩
    rintro ⟨l, hl, hnone⟩
    have hlk : l < k := by
      unfold direntSize at hl heq
      omega
    obtain ⟨de, hde, h0⟩ := h.2 l hlk
    exact h0 (slot_none.mp hnone de hde)
  · have hle : (k + 1) * direntSize ≤ (st.dinodes d).size := by
      unfold direntSize at *
      omega
    exact .inl ⟨hle, k, hle, slot_none.mpr h.1⟩

/-- A new entry can be written, unless the directory has to grow and cannot. -/
theorem Directory.room_iff (h : Directory sb c e d s) (hv : FirstVacant s.view d k)
    (hk : k * direntSize ≤ (s.store.dinodes d).size) :
    (¬ (s.store.dinodes d).refuses (k * direntSize) direntSize ∧
        (s.store.dinodes d).lacks s.store.data (k * direntSize / bsize) ≤ s.store.room sb) ↔
      ¬ (¬ s.store.HasEmpty d ∧ s.store.Stuck sb d) := by
  rcases hv.place h.aligned hk with ⟨hle, hemp⟩ | ⟨heq, hemp⟩
  · exact iff_of_true (h.rewritable hle) fun hc => hc.1 hemp
  · have hsmall : maxfile * bsize + direntSize < 2 ^ 32 := by decide
    rw [heq]
    unfold Dinode.refuses Store.Stuck
    simp only [hemp, not_false_eq_true, true_and]
    omega

theorem linkOp_spec (h : Directory sb c e d s) (he : 0 < c e) (hroom : ∃ a, c a = 0)
    (x : FileName) (i : Inum) :
    Total (dirOp sb e (.link x i)) s fun r s' =>
      Directory sb c e d s' ∧ (DirOp.link x i).Spec sb d s.store r s'.store := by
  have hinum := h.inum
  have hal : direntSize ∣ (s.store.dinodes (s.inum e)).size := by
    rw [hinum]
    exact h.aligned
  have hlink : Total (dirlink sb e x.bytes i.val) s fun r s' =>
      Directory sb c e d s' ∧ (DirOp.link x i).Spec sb d s.store (.status r) s'.store := by
    refine dirlink_meets h.table he h.valid (by rw [hinum]; exact h.dir) False.elim x.bytes i.val
      (fun hd => absurd hal hd) (fun hall => ?_) ?_ ?_
    · obtain ⟨a, ha⟩ := hroom
      have := hall a
      omega
    · intro k s' hf ht hk hst
      rw [hinum] at hf
      refine ⟨h.same he ht hk hst, .inl ⟨rfl, .inl fun hb => ?_, by rw [hst], by rw [hst]⟩⟩
      rw [lookup_none.mp hb] at hf
      cases hf
    · intro hf k hk hvac
      rw [hinum] at hf hk hvac
      have hal' := h.aligned
      have hle : k * direntSize ≤ (s.store.dinodes d).size := by
        unfold direntSize at hk hal' ⊢
        omega
      have hslot : s.store.slot d k = none := slot_none.mpr (hvac hle).1
      have hunbound : s.store.bindings d x = none := lookup_none.mpr hf
      refine (h.writeEntry he k (direntBytes_length i.val x.bytes)).imp ?_
      rintro r s' ⟨ht, hk', hroom', hno, hyes, -⟩
      -- the entry fails exactly if the directory had to grow and could not
      have hdone : r = direntSize ↔ ¬ (s.store.bindings d x ≠ none ∨
          ¬ s.store.HasEmpty d ∧ s.store.Stuck sb d) := by
        rw [hroom', h.room_iff (hvac hle) hle]
        simp only [hunbound, ne_eq, not_true_eq_false, false_or]
      by_cases hr : r = direntSize
      · obtain ⟨hslots, hsize⟩ := hyes hr
        rw [binding_new] at hslots
        have hmap : Represents (s'.store.slot d) (update (s.store.bindings d) x (some i.val)) := by
          rw [hslots]
          exact h.map.put hslot hunbound
        rw [if_neg (not_not.mpr hr)]
        rcases (hvac hle).place hal' hle with ⟨hin, hemp⟩ | ⟨heq, hemp⟩
        · rw [Nat.max_eq_left hin] at hsize
          exact ⟨h.written he ht hk' (by rw [hsize]; exact hal') hmap,
            .inr ⟨rfl, hdone.mp hr, bindings_eq hmap, fun _ => hsize, fun hno => absurd hemp hno⟩⟩
        · rw [Nat.succ_mul, heq, Nat.max_eq_right (Nat.le_add_right ..)] at hsize
          refine ⟨h.written he ht hk' ?_ hmap,
            .inr ⟨rfl, hdone.mp hr, bindings_eq hmap, fun hyes => absurd hyes hemp, fun _ => hsize⟩⟩
          rw [hsize]
          exact Nat.dvd_add hal' (Nat.dvd_refl _)
      · obtain ⟨hslots, hsize⟩ := hno hr
        have hmap : Represents (s'.store.slot d) (s.store.bindings d) := by
          rw [hslots]
          exact h.map
        rw [if_pos hr]
        refine ⟨h.written he ht hk' (by rw [hsize]; exact hal') hmap,
          .inl ⟨rfl, ?_, bindings_eq hmap, hsize⟩⟩
        exact not_not.mp fun hc => hr (hdone.mpr hc)
  exact hlink.seq fun r s' hr => meets_pure hr

/-! ## §4 Runs -/

theorem dirOp_spec (h : Directory sb c e d s) (he : 0 < c e) (hroom : ∃ a, c a = 0) (op : DirOp) :
    Total (dirOp sb e op) s fun r s' => Directory sb c e d s' ∧ op.Spec sb d s.store r
      s'.store := by
  cases op with
  | link x i => exact linkOp_spec h he hroom x i
  | lookup x => exact lookupOp_spec h he hroom x
  | clear x => exact clearOp_spec h he hroom x

theorem dirOps_spec (he : 0 < c e) (hroom : ∃ a, c a = 0) (ops : List DirOp) : ∀ {s : Fs},
    Directory sb c e d s → Total (dirOps sb e ops) s fun _ s' => Directory sb c e d s' := by
  induction ops with
  | nil => exact fun h => meets_pure h
  | cons op ops ih =>
    intro s h
    refine (dirOp_spec h he hroom op).seq fun r s1 ⟨h1, _⟩ => ?_
    exact (ih h1).seq fun rs s2 h2 => meets_pure h2

/-- A new directory: the inode is locked and has no entries yet. There is an entry of the
table left for lookups. -/
structure EmptyDir (sb : Superblock) where
  fs : Fs
  refs : Cnt
  dp : Fin ninode
  table : Table sb False refs fs
  held : 0 < refs dp
  room : ∃ e, refs e = 0
  valid : (fs.itable dp).valid = true
  dir : (fs.store.dinodes (fs.inum dp)).type = .dir
  empty : (fs.store.dinodes (fs.inum dp)).size = 0

theorem EmptyDir.directory (dir : EmptyDir sb) :
    Directory sb dir.refs dir.dp (dir.fs.inum dir.dp) dir.fs := by
  refine ⟨dir.table, dir.valid, rfl, dir.dir, ?_, ?_⟩
  · rw [dir.empty]
    exact Nat.dvd_zero _
  · refine bindings_represents (.empty fun k => slot_none.mpr fun de hde => ?_)
    obtain ⟨-, hle, -⟩ := entry_some hde
    rw [dir.empty] at hle
    unfold direntSize at hle
    omega

/-- Whatever has been done to a new directory, its slots have distinct names, and every
operation reads and changes the map as it should. -/
theorem directory_is_finite_map (dir : EmptyDir sb) (ops : List DirOp) :
    Total (dirOps sb dir.dp ops) dir.fs fun _ s =>
      Represents (s.store.slot (dir.fs.inum dir.dp)) (s.store.bindings (dir.fs.inum dir.dp)) ∧
      direntSize ∣ (s.store.dinodes (dir.fs.inum dir.dp)).size ∧
      ∀ op, Total (dirOp sb dir.dp op) s fun r s' =>
        op.Spec sb (dir.fs.inum dir.dp) s.store r s'.store := by
  refine (dirOps_spec dir.held dir.room ops dir.directory).imp fun _ s h => ⟨h.map, h.aligned, ?_⟩
  intro op
  exact (dirOp_spec h dir.held dir.room op).imp fun _ _ hr => hr.2

/-- The first steps of `create`, for a directory. -/
def newDir (sb : Superblock) : F (Option (Fin ninode)) := do
  match ← onStore (ialloc sb .dir) with
  | none => return none
  | some inum =>
    let ip ← iget inum
    ilock ip
    return some ip

/-- What `create` has then is a new directory. -/
theorem newDir_spec (h : Table sb g c s) :
    Meets (fun _ => True) (newDir sb) s fun r s' => ∀ ip, r = some ip →
      Table sb False (more c ip) s' ∧ (s'.itable ip).valid = true ∧
      (s'.store.dinodes (s'.inum ip)).type = .dir ∧ (s'.store.dinodes (s'.inum ip)).size = 0 := by
  refine meets_focus_seq (ialloc_spec h.owned .dir) fun r st hr => ?_
  rcases hr with ⟨rfl, rfl⟩ | ⟨i, rfl, -, hfree, rfl, hown⟩
  · exact meets_pure fun ip hip => by cases hip
  · refine (iget_meets (h.alloc hfree hown) i False.elim fun _ => trivial).seq
      fun ip s1 ⟨h1, _, hst1, hin1, _⟩ => ?_
    refine (ilock_meets h1 (by simp) fun _ => trivial).seq fun _ s2 ⟨h2, hk2, hst2, hv2⟩ => ?_
    refine meets_pure fun ip' hip' => ?_
    cases hip'
    have hself : s2.store.dinodes (s2.inum ip) = { Dinode.zero with type := .dir } := by
      rw [hk2.same (by simp), hst2, hst1, Fs.inum, hin1]
      exact update_self ..
    refine ⟨h2, hv2, ?_, ?_⟩
    · rw [hself]
    · rw [hself]
      rfl

theorem newDir_boot : Nonempty (EmptyDir .mkfs) := by
  obtain ⟨r, s, hrun, htest⟩ := run_of_endsIn (show endsIn (newDir .mkfs) (boot mkfsVolume.store)
    (fun r s => r.isSome && decide (∃ e, (s.itable e).ref = 0)) = true by decide +kernel)
  rw [Bool.and_eq_true, decide_eq_true_eq] at htest
  obtain ⟨hsome, e, he⟩ := htest
  obtain ⟨ip, rfl⟩ := Option.isSome_iff_exists.mp hsome
  have hpost := (newDir_spec (boot_inv (g := False) mkfsVolume.toImage False.elim).table).post hrun
  obtain ⟨ht, hv, hdir, hsize⟩ := hpost ip rfl
  exact ⟨s, _, ip, ht, by simp, ⟨e, (ht.refs e).symm.trans he⟩, hv, hdir, hsize⟩

end Xv6.Files
