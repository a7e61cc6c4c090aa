/-
Xv6.Files.DirTheorems — directories.

A lookup finds an entry with the name or tells that there is none; `dirlink`
adds one entry to the view or none. §1 loops over a directory, §2 `dirlookup`
and `dirlink`.
-/
import Xv6.Files.EntryTheorems

namespace Xv6.Files

open Xv6.Lib Function

variable {sb : Superblock} {g : Prop} {c c' : Cnt} {s s' : Fs} {e e' : Fin ninode} {d k : Nat}
  {E : Panic → Prop} {st : Store} {name : Name}

/-- The inode of an entry of the table. -/
abbrev Fs.inum (s : Fs) (e : Fin ninode) : Nat := (s.itable e).inum

/-- The view of the disk. -/
abbrev Fs.view (s : Fs) : View := s.store.view

theorem view_of_store (h : s'.store = s.store) : s'.view = s.view := congrArg Store.view h

theorem Keeps.same (h : Keeps c s s') (he : 0 < c e) : s'.inum e = s.inum e := h.inum e he

/-- Every entry names an allocated inode that has links; so has every
directory. -/
structure Sound (v : View) : Prop where
  alloc : ∀ {d k de}, v.entry d k = some de → de.inum ≠ 0 → v.type de.inum ≠ .free
  linked : ∀ {d k de}, v.entry d k = some de → de.inum ≠ 0 → v.nlink de.inum ≠ 0
  dirs : ∀ {d}, v.type d = .dir → v.nlink d ≠ 0
  root : v.type rootino = .dir

/-! ## §1 Loops over a directory -/

theorem readable_direntSize {ip : Dinode} (h : ip.readable (k * direntSize) direntSize =
    direntSize) :
    (k + 1) * direntSize ≤ ip.size := by
  unfold Dinode.readable at h
  rw [Nat.succ_mul]
  split at h
  · cases h
  · omega

/-- The loops go through all entries. -/
theorem mem_range_of_entry {de : Dirent} (h : st.entry d k = some de) :
    k ∈ List.range (((st.dinodes d).size + direntSize - 1) / direntSize) := by
  have hle := (entry_some h).2.1
  rw [List.mem_range]
  unfold direntSize at *
  omega

/-- They do not go beyond the end. -/
theorem lt_size_of_mem {size : Nat} (h : k ∈ List.range ((size + direntSize - 1) / direntSize)) :
    k * direntSize < size := by
  rw [List.mem_range] at h
  unfold direntSize at *
  omega

/-- An entry that is in use under this name. -/
def Dirent.has (de : Dirent) (name : Name) : Prop := de.inum ≠ 0 ∧ sameName name de.name = true

instance (de : Dirent) (name : Name) : Decidable (de.has name) := by
  unfold Dirent.has
  infer_instance

/-- Entry `k` of directory `d` is in use under this name. -/
def Store.hasAt (st : Store) (d : Nat) (name : Name) (k : Nat) : Bool :=
  (st.entry d k).any fun de => de.has name

theorem hasAt_iff : st.hasAt d name k = true ↔ ∃ de, st.entry d k = some de ∧ de.has name := by
  simp [Store.hasAt, Option.any_eq_true]

/-- The first entry with this name. -/
def Store.find (st : Store) (d : Nat) (name : Name) : Option Nat :=
  (List.range (((st.dinodes d).size + direntSize - 1) / direntSize)).find? (st.hasAt d name)

/-- The inode that the first entry with this name is for. -/
def Store.lookup (st : Store) (d : Nat) (name : Name) : Option Nat :=
  (st.find d name).bind fun k => (st.entry d k).map Dirent.inum

/-- An entry of a directory that is in use. -/
def Used (v : View) (d k : Nat) : Prop := ∃ de, v.entry d k = some de ∧ de.inum ≠ 0

/-- One that is not in use, or the one after the last. -/
def Vacant (v : View) (d k : Nat) : Prop := ∀ de, v.entry d k = some de → de.inum = 0

section

variable (h : Table sb g c s) (he : 0 < c e) (hv : (s.itable e).valid = true)
  (hdir : (s.store.dinodes (s.inum e)).type = .dir)
include h he hv hdir

/-- An entry that begins before the end of the directory can be read, unless the
directory ends inside it. -/
theorem readDirent_meets (hk : k * direntSize < (s.store.dinodes (s.inum e)).size) {p : Panic}
    (hE : ¬ direntSize ∣ (s.store.dinodes (s.inum e)).size → E p) :
    Meets E (readDirent sb e (k * direntSize) p) s fun de s' =>
      s' = s ∧ s.store.entry (s.inum e) k = some de := by
  have hsize := h.owned.size _ (h.sync e he hv).2
  refine (readInode_spec h he hv _ _ _).seq fun ⟨r, bytes⟩ s1 ⟨hs, hr⟩ => ?_
  subst hs
  obtain ⟨hr, hbytes⟩ := hr (Nat.le_refl _)
  dsimp only at hr hbytes ⊢
  refine meets_ite (fun hne => meets_throw (hE fun hdvd => hne ?_)) fun heq =>
    meets_pure ⟨rfl, ?_⟩
  · have hk' : k * direntSize < (s1.store.dinodes (s1.itable e).inum).size := hk
    have hdvd' : direntSize ∣ (s1.store.dinodes (s1.itable e).inum).size := hdvd
    rw [hr, Dinode.readable]
    unfold direntSize at *
    have hmax : maxfile * bsize < 2 ^ 32 - 16 := by decide
    rw [if_neg (by omega), Nat.min_eq_left (by omega)]
  · have hfull : (s1.store.dinodes (s1.inum e)).readable (k * direntSize) direntSize =
        direntSize := by
      rw [hr] at heq
      exact Int.ofNat.inj (not_not.mp heq)
    rw [hbytes, hfull]
    exact if_pos ⟨hdir, readable_direntSize hfull⟩

theorem lookupLoop_meets (name : Name)
    (hE : ¬ direntSize ∣ (s.store.dinodes (s.inum e)).size → E .dirlookupRead) (ks : List Nat)
    (hks : ∀ k ∈ ks, k * direntSize < (s.store.dinodes (s.inum e)).size) :
    Meets E (lookupLoop sb e name (ks.map (· * direntSize))) s fun r s' =>
      s' = s ∧ r = (ks.find? (s.store.hasAt (s.inum e) name)).bind fun k =>
        (s.store.entry (s.inum e) k).map fun de => (de.inum, k * direntSize) := by
  induction ks with
  | nil => exact meets_pure ⟨rfl, rfl⟩
  | cons k ks ih =>
    refine (readDirent_meets h he hv hdir (hks k List.mem_cons_self) hE).seq
      fun de s1 ⟨hs, hde⟩ => ?_
    subst hs
    -- the entry is another one, and the rest of the loop decides
    have hskip : ¬ de.has name → Meets E (lookupLoop sb e name (ks.map (· * direntSize))) s1
        fun r s' => s' = s1 ∧ r = ((k :: ks).find? (s1.store.hasAt (s1.inum e) name)).bind
          fun k => (s1.store.entry (s1.inum e) k).map fun de => (de.inum, k * direntSize) := by
      intro hnot
      have hno : ¬ s1.store.hasAt (s1.inum e) name k = true := by
        rw [Store.hasAt, hde, Option.any_some, decide_eq_true_eq]
        exact hnot
      rw [List.find?_cons_of_neg hno]
      exact ih fun l hl => hks l (List.mem_cons_of_mem k hl)
    refine meets_ite (fun h0 => hskip fun hh => hh.1 h0) fun h0 => ?_
    refine meets_ite (fun hsame => ?_) fun hsame => hskip fun hh => hsame hh.2
    have hyes : s1.store.hasAt (s1.inum e) name k = true := hasAt_iff.mpr ⟨de, hde, h0, hsame⟩
    rw [List.find?_cons_of_pos hyes, Option.bind_some, hde]
    exact meets_pure ⟨rfl, rfl⟩

/-- The loop comes to the first entry that is not in use. -/
theorem emptyLoop_spec
    (hE : ¬ direntSize ∣ (s.store.dinodes (s.inum e)).size → E .dirlinkRead) (n : Nat) :
    ∀ m : Nat, (∀ k, k < m + n → k * direntSize < (s.store.dinodes (s.inum e)).size) →
    Meets E (emptyLoop sb e ((List.range' m n).map (· * direntSize))) s fun r s' =>
      s' = s ∧ (r = none → ∀ k, m ≤ k → k < m + n → Used s.view (s.inum e) k) ∧
      ∀ off, r = some off → ∃ k, m ≤ k ∧ k < m + n ∧ off = k * direntSize ∧
        Vacant s.view (s.inum e) k ∧
        ∀ l, m ≤ l → l < k → Used s.view (s.inum e) l := by
  induction n with
  | zero =>
    intro m _
    refine meets_pure ⟨rfl, fun _ k h1 h2 => absurd h1 (by omega), fun off hr => ?_⟩
    cases hr
  | succ n ih =>
    intro m hlt
    refine (readDirent_meets h he hv hdir (hlt m (by omega)) hE).seq fun de s1 ⟨hs, hde⟩ => ?_
    subst hs
    refine meets_ite (fun h0 => ?_) (fun h0 => ?_)
    · refine meets_pure ⟨rfl, fun hr => ?_, fun off hr => ?_⟩
      · cases hr
      cases hr
      refine ⟨m, Nat.le_refl _, by omega, rfl, fun de' hde' => ?_,
        fun l h1 h2 => absurd h1 (by omega)⟩
      have := hde.symm.trans hde'
      cases this
      exact h0
    · -- entry `m` is in use, and the rest of the loop decides
      have hused : ∀ l, m ≤ l → (m + 1 ≤ l → Used s1.view (s1.inum e) l) →
          Used s1.view (s1.inum e) l := by
        intro l hl hrest
        rcases Nat.eq_or_lt_of_le hl with rfl | hlt
        · exact ⟨de, hde, h0⟩
        · exact hrest hlt
      refine (ih (m + 1) fun k hk => hlt k (by omega)).imp
        fun r s' ⟨h1, h2, h3⟩ => ⟨h1, fun hr k hk hlt => ?_, fun off hr => ?_⟩
      · exact hused k hk fun hk' => h2 hr k hk' (by omega)
      · obtain ⟨k, hk, hkn, hoff, hvac, hall⟩ := h3 off hr
        exact ⟨k, by omega, by omega, hoff, hvac, fun l hl hlt => hused l hl fun hl' => hall l hl'
          hlt⟩

theorem emptyFrom_spec
    (hE : ¬ direntSize ∣ (s.store.dinodes (s.inum e)).size → E .isdiremptyRead) (ks : List Nat)
    (hks : ∀ k ∈ ks, k * direntSize < (s.store.dinodes (s.inum e)).size) :
    Meets E (emptyFrom sb e (ks.map (· * direntSize))) s fun r s' =>
      s' = s ∧ (r = true → ∀ k ∈ ks, ∀ de, s.store.entry (s.inum e) k = some de → de.inum = 0) := by
  induction ks with
  | nil => exact meets_pure ⟨rfl, fun _ k hk => absurd hk List.not_mem_nil⟩
  | cons k ks ih =>
    refine (readDirent_meets h he hv hdir (hks k List.mem_cons_self) hE).seq
      fun de s1 ⟨hs, hde⟩ => ?_
    subst hs
    refine meets_ite (fun _ => meets_pure ⟨rfl, fun hr => ?_⟩) (fun h0 => ?_)
    · cases hr
    refine (ih fun l hl => hks l (List.mem_cons_of_mem k hl)).imp
      fun r s' ⟨h1, h2⟩ => ⟨h1, fun hr l hl de' hde' => ?_⟩
    rcases List.mem_cons.mp hl with rfl | hl
    · rw [hde] at hde'
      cases hde'
      exact not_not.mp h0
    · exact h2 hr l hl de' hde'

theorem isdirempty_spec :
    Meets (Allowed g) (isdirempty sb e) s fun r s' =>
      s' = s ∧ (r = true → ∀ k de, 2 ≤ k → s.store.entry (s.inum e) k = some de → de.inum = 0) := by
  refine Meets.bind (meets_getInode ?_)
  rw [(h.sync e he hv).1, offsets, ← List.map_drop]
  refine (emptyFrom_spec h he hv hdir (fun _ => .other (by decide)) _
    fun k hk => lt_size_of_mem (List.mem_of_mem_drop hk)).imp
    fun r s' ⟨h1, h2⟩ => ⟨h1, fun hr k de hk hde => ?_⟩
  refine h2 hr k ?_ de hde
  have hmem : k < ((s.store.dinodes (s.inum e)).size + direntSize - 1) / direntSize :=
    List.mem_range.mp (mem_range_of_entry hde)
  rw [List.mem_drop_iff_getElem]
  refine ⟨k - 2, by rw [List.length_range]; omega, ?_⟩
  rw [List.getElem_range]
  omega

end

/-! ## §2 `dirlookup` and `dirlink` -/

/-- There is no entry with this name. -/
def Absent (v : View) (d : Nat) (name : Name) : Prop :=
  ∀ k de, v.entry d k = some de → ¬ de.has name

theorem find_none (h : st.find d name = none) : Absent st.view d name := by
  intro k de hde hhas
  have := List.find?_eq_none.mp h k (mem_range_of_entry hde)
  exact this (hasAt_iff.mpr ⟨de, hde, hhas⟩)

theorem find_some (h : st.find d name = some k) :
    ∃ de, st.entry d k = some de ∧ de.has name := hasAt_iff.mp (List.find?_some h)

theorem lookup_none : st.lookup d name = none ↔ st.find d name = none := by
  unfold Store.lookup
  cases hf : st.find d name with
  | none => exact iff_of_true rfl rfl
  | some k =>
    obtain ⟨de, hde, -⟩ := find_some hf
    rw [Option.bind_some, hde]
    exact iff_of_false (by rintro ⟨⟩) (by rintro ⟨⟩)

theorem lookup_some {de : Dirent} (hf : st.find d name = some k) (hde : st.entry d k = some de) :
    st.lookup d name = some de.inum := by
  rw [Store.lookup, hf, Option.bind_some, hde, Option.map_some]

section

variable (h : Table sb g c s) (he : 0 < c e) (hv : (s.itable e).valid = true)
include h he hv

/-- `dirlookup` takes a reference to the inode of the first entry with the name. If the
inode was not in use, its copy is not valid yet. -/
theorem dirlookup_meets (hdir : (s.store.dinodes (s.inum e)).type = .dir)
    (hlive : g → ∀ k de, s.store.entry (s.inum e) k = some de → de.inum ≠ 0 →
      (s.store.dinodes de.inum).type ≠ .free) (name : Name)
    (hread : ¬ direntSize ∣ (s.store.dinodes (s.inum e)).size → E .dirlookupRead)
    (hfull : (∀ a, 0 < c a) → E .noInodes) :
    Meets E (dirlookup sb e name) s fun r s' =>
      Keeps c s s' ∧ s'.store = s.store ∧
      (r = none ∧ s.store.find (s.inum e) name = none ∧ s' = s ∨
        ∃ a k de, r = some (a, k * direntSize) ∧ s.store.find (s.inum e) name = some k ∧
          s.store.entry (s.inum e) k = some de ∧ de.has name ∧ s'.inum a = de.inum ∧
          Table sb g (more c a) s' ∧ (c a = 0 → (s'.itable a).valid = false)) := by
  refine Meets.bind (meets_getInode ?_)
  rw [(h.sync e he hv).1, if_neg (not_not.mpr hdir)]
  refine (lookupLoop_meets h he hv hdir name hread _ fun _ => lt_size_of_mem).seq
    fun r s1 ⟨hs, hr⟩ => ?_
  subst hs
  cases hf : s1.store.find (s1.inum e) name with
  | none =>
    rw [show List.find? _ _ = none from hf, Option.bind_none] at hr
    subst hr
    exact meets_pure ⟨.refl, rfl, .inl ⟨rfl, rfl, rfl⟩⟩
  | some k =>
    obtain ⟨de, hde, hhas⟩ := find_some hf
    rw [show List.find? _ _ = some k from hf, Option.bind_some, hde, Option.map_some] at hr
    subst hr
    refine (iget_meets h de.inum (fun hg => hlive hg k de hde hhas.1) hfull).seq
      fun a s' ⟨ht, hk, hst, hin, _, hnew⟩ => ?_
    exact meets_pure ⟨hk, hst, .inr ⟨a, k, de, rfl, rfl, hde, hhas, hin, ht, hnew⟩⟩

theorem dirlookup_spec (hg : g → Sound s.view) (name : Name) :
    Meets (Allowed g) (dirlookup sb e name) s fun r s' =>
      Keeps c s s' ∧ s'.store = s.store ∧ (s.store.dinodes (s.inum e)).type = .dir ∧
      (r = none → s' = s ∧ Absent s.view (s.inum e) name) ∧
      (∀ a off, r = some (a, off) → Table sb g (more c a) s' ∧
        ∃ k de, off = k * direntSize ∧ s.store.entry (s.inum e) k = some de ∧
          de.inum = s'.inum a ∧ de.has name) := by
  by_cases hdir : (s.store.dinodes (s.inum e)).type = .dir
  · refine (dirlookup_meets h he hv hdir (fun hg' k de hde => (hg hg').alloc hde) name
      (fun _ => .other (by decide)) fun _ => .other (by decide)).imp
      fun r s' ⟨hk, hst, hr⟩ => ⟨hk, hst, hdir, ?_⟩
    rcases hr with ⟨rfl, hf, rfl⟩ | ⟨a, k, de, rfl, _, hde, hhas, hin, ht, _⟩
    · refine ⟨fun _ => ⟨rfl, find_none hf⟩, fun a off hr => ?_⟩
      cases hr
    · refine ⟨fun hr => ?_, fun a' off hr => ?_⟩
      · cases hr
      cases hr
      exact ⟨ht, k, de, rfl, hde, hin.symm, hhas⟩
  · refine Meets.bind (meets_getInode ?_)
    rw [(h.sync e he hv).1, if_pos hdir]
    exact meets_throw (.other (by decide))

omit h he hv in
/-- The reference that `dirlookup` has taken is put back; nothing is freed. -/
theorem iput_found {a : Fin ninode} (h : Table sb g (more c a) s)
    (hnew : c a = 0 → (s.itable a).valid = false) :
    Meets E (iput a) s fun _ s' => Table sb g c s' ∧ Keeps c s s' ∧ s'.store = s.store := by
  refine (iput_spec h (by simp)).imp fun _ s' ⟨ht, hk, _, hkeep⟩ => ?_
  rw [less_more] at ht hk
  refine ⟨ht, hk, hkeep ?_⟩
  rintro ⟨h1, hv, _⟩
  rw [more_self] at h1
  rw [hnew (by omega)] at hv
  cases hv

/-- The kernel writes 16 bytes at the place of an entry: all of them or none. -/
theorem writeEntry_spec (hdir : (s.store.dinodes (s.inum e)).type = .dir) (k : Nat)
    {bytes : List Byte} (hlen : bytes.length = direntSize) :
    Meets E (writeInode sb e (.kernel bytes) (k * direntSize) direntSize) s fun r s' =>
      Table sb g c s' ∧ Keeps c s s' ∧ (∀ a, (s'.itable a).valid = (s.itable a).valid) ∧
      (r ≠ direntSize ∧ s'.view = s.view ∧
          (s'.store.dinodes (s.inum e)).size = (s.store.dinodes (s.inum e)).size ∨
        r = direntSize ∧ k * direntSize ≤ (s.store.dinodes (s.inum e)).size ∧
          s'.view = s.view.setEntry (s.inum e) k (direntOf bytes) ∧
          (s'.store.dinodes (s.inum e)).size =
            max (s.store.dinodes (s.inum e)).size ((k + 1) * direntSize)) := by
  refine (writeInode_meets h he hv _ _ _).imp fun r s' hr => ?_
  rcases hr with ⟨-, rfl, rfl⟩ | ⟨t, ip, st, rfl, rfl, hoff, hw, ht⟩
  · exact ⟨h, .refl, fun _ => rfl, .inl ⟨by decide, rfl, rfl⟩⟩
  · refine ⟨ht, .change c s e hw.types, fun _ => valid_change .., ?_⟩
    obtain ⟨addrs, hip⟩ := hw.same
    have hsize : (st.dinodes (s.inum e)).size = max (s.store.dinodes (s.inum e)).size
        (k * direntSize + t) := by
      rw [hw.dinodes, update_self, hip]
    have hgood : direntSize ≤ (Src.kernel bytes).good := Nat.le_of_eq hlen.symm
    have hblock : k * direntSize % bsize + direntSize ≤ bsize := by
      unfold direntSize bsize
      omega
    rcases hw.once hgood hblock with rfl | rfl
    · exact .inl ⟨by decide, hw.view_none hgood hoff, hsize.trans (Nat.max_eq_left hoff)⟩
    · refine .inr ⟨rfl, hoff, ?_, hsize.trans (by rw [Nat.succ_mul])⟩
      have hview := hw.view_entry hgood hoff hdir
      rwa [show (Src.kernel bytes).bytes = bytes from rfl,
        List.take_of_length_le (Nat.le_of_eq hlen)] at hview

/-- The first entry that is not in use. -/
def FirstVacant (v : View) (d k : Nat) : Prop := Vacant v d k ∧ ∀ l, l < k → Used v d l

/-- The place for a new entry, which is behind the end only if the directory ends
inside an entry. -/
theorem vacant_spec (hdir : (s.store.dinodes (s.inum e)).type = .dir)
    (hE : ¬ direntSize ∣ (s.store.dinodes (s.inum e)).size → E .dirlinkRead) :
    Meets E (emptyLoop sb e (offsets (s.store.dinodes (s.inum e)).size)) s fun r s' =>
      s' = s ∧ ∃ k, r.getD ((offsets (s.store.dinodes (s.inum e)).size).length * direntSize) =
        k * direntSize ∧
        k ≤ ((s.store.dinodes (s.inum e)).size + direntSize - 1) / direntSize ∧
        (k * direntSize ≤ (s.store.dinodes (s.inum e)).size →
          FirstVacant s.view (s.inum e) k) := by
  rw [offsets, List.range_eq_range']
  refine (emptyLoop_spec h he hv hdir hE _ 0 fun k hk => lt_size_of_mem ?_).imp
    fun r s' ⟨hs, hnone, hsome⟩ => ⟨hs, ?_⟩
  · rw [List.mem_range]
    omega
  cases r with
  | none =>
    refine ⟨_, rfl, ?_, fun hle => ⟨fun de hde => ?_, fun l hl => ?_⟩⟩
    · rw [List.length_map, List.length_range']
    · have hlt := List.mem_range.mp (mem_range_of_entry hde)
      rw [List.length_map, List.length_range'] at hlt
      omega
    · rw [List.length_map, List.length_range'] at hl
      exact hnone rfl l (Nat.zero_le _) (by omega)
  | some off =>
    obtain ⟨k, _, hlt, rfl, hvac, hall⟩ := hsome off rfl
    exact ⟨k, rfl, by omega, fun _ => ⟨hvac, fun l hl => hall l (Nat.zero_le _) hl⟩⟩

/-- The rule for `dirlink`: the name is there already, or what remains is to write
the entry. -/
theorem dirlink_meets (hdir : (s.store.dinodes (s.inum e)).type = .dir)
    (hlive : g → ∀ k de, s.store.entry (s.inum e) k = some de → de.inum ≠ 0 →
      (s.store.dinodes de.inum).type ≠ .free) (name : Name) (inum : Nat)
    (hread : ¬ direntSize ∣ (s.store.dinodes (s.inum e)).size → E .dirlookupRead ∧ E .dirlinkRead)
    (hfull : (∀ a, 0 < c a) → E .noInodes) {Q : Int → Fs → Prop}
    (hfound : ∀ k s', s.store.find (s.inum e) name = some k → Table sb g c s' → Keeps c s s' →
      s'.store = s.store → Q (-1) s') (hnew : s.store.find (s.inum e) name = none → ∀ k,
      k ≤ ((s.store.dinodes (s.inum e)).size + direntSize - 1) / direntSize →
      (k * direntSize ≤ (s.store.dinodes (s.inum e)).size → FirstVacant s.view (s.inum e) k) →
      Meets E (writeInode sb e (.kernel (direntBytes inum name)) (k * direntSize) direntSize) s
        fun r s' => Q (if r ≠ direntSize then -1 else 0) s') :
    Meets E (dirlink sb e name inum) s Q := by
  refine (dirlookup_meets h he hv hdir hlive name (fun hd => (hread hd).1) hfull).seq
    fun r s1 ⟨hk, hst, hr⟩ => ?_
  rcases hr with ⟨rfl, hf, rfl⟩ | ⟨a, k, de, rfl, hf, _, _, _, ht, hold⟩
  · refine Meets.bind (meets_getInode ?_)
    rw [(h.sync e he hv).1]
    refine (vacant_spec h he hv hdir fun hd => (hread hd).2).seq
      fun r s2 ⟨hs, k, hoff, hle, hvac⟩ => ?_
    subst hs
    rw [hoff]
    refine (hnew hf k hle hvac).seq fun r s' hq => ?_
    split
    · rename_i hr
      rw [if_pos hr] at hq
      exact meets_pure hq
    · rename_i hr
      rw [if_neg hr] at hq
      exact meets_pure hq
  · refine (iput_found ht hold).seq fun _ s2 ⟨ht2, hk2, hst2⟩ => ?_
    exact meets_pure (hfound k s2 hf ht2 (hk.trans hk2 fun _ ha => ha) (hst2.trans hst))

theorem dirlink_spec (hg : g → Sound s.view) (name : Name) (inum : Nat) :
    Meets (Allowed g) (dirlink sb e name inum) s fun r s' =>
      Table sb g c s' ∧ Keeps c s s' ∧
      (r = -1 ∧ s'.view = s.view ∨
        r = 0 ∧ Absent s.view (s.inum e) name ∧ ∃ k, FirstVacant s.view (s.inum e) k ∧
          s'.view = s.view.setEntry (s.inum e) k ⟨inum % 2 ^ 16, nameOf name⟩) := by
  by_cases hdir : (s.store.dinodes (s.inum e)).type = .dir
  · refine dirlink_meets h he hv hdir (fun hg' k de hde => (hg hg').alloc hde) name inum
      (fun _ => ⟨.other (by decide), .other (by decide)⟩) (fun _ => .other (by decide)) ?_ ?_
    · intro k s' _ ht hk hst
      exact ⟨ht, hk, .inl ⟨rfl, view_of_store hst⟩⟩
    · intro hf k _ hvac
      refine (writeEntry_spec h he hv hdir k (direntBytes_length inum name)).imp
        fun r s' ⟨ht, hk', _, hr⟩ => ⟨ht, hk', ?_⟩
      rcases hr with ⟨hr, hview, _⟩ | ⟨hr, hle, hview, _⟩
      · rw [if_pos hr]
        exact .inl ⟨rfl, hview⟩
      · rw [if_neg (not_not.mpr hr)]
        refine .inr ⟨rfl, find_none hf, k, hvac hle, ?_⟩
        rw [hview, direntOf_direntBytes]
  · -- `dirlookup` panics
    refine Meets.bind (Meets.bind (meets_getInode ?_))
    rw [(h.sync e he hv).1, if_pos hdir]
    exact meets_throw (.other (by decide))

end

end Xv6.Files
