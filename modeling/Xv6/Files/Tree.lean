/-
Xv6.Files.Tree — what a well-formed directory tree is, and the changes that
keep it one.

A directory has "." and ".." as its first two entries; a directory other than
the root has exactly one more name, in its parent. `Tree` adds the law of link
counts: the count of an inode is the number of entries that name it, without
the "." entries. `ahead` is an inode whose count is one ahead of its entries,
in the middle of a call. The changes are those of the calls: a name is added
to a file or removed, a file appears or goes, a directory is made or removed.
§1 names, §2 the shape of a tree, §3 changes of the shape, §4 link counts,
§5 changes of the tree.
-/
import Mathlib.Data.Fintype.Prod
import Xv6.Files.DirTheorems
import Xv6.Lib.RefCount

namespace Xv6.Files

open Xv6.Lib Function

/-- The entries that a directory can have. -/
def nentries : Nat := maxfile * bsize / direntSize

variable {n : Nat} {v : View} {d d' k k' i j : Nat} {de : Dirent} {x : Name} {type : FileType}
  {w : View} {dot dotdot name : Name} {a b : Nat} {r : Fin n × Fin nentries} {m : BitVec 16}

/-! ## §1 Names -/

/-- Entry `k` of directory `d` names inode `i`. -/
def View.Names (v : View) (d k i : Nat) : Prop :=
  ∃ de, v.entry d k = some de ∧ de.inum = i ∧ i ≠ 0

/-- The name in entry `k` of directory `d`. -/
def View.Called (v : View) (d k : Nat) (x : Name) : Prop :=
  ∃ de, v.entry d k = some de ∧ sameName de.name x = true

theorem View.Names.inj (h : v.Names d k i) (h' : v.Names d k j) : i = j := by
  obtain ⟨de, he, rfl, _⟩ := h
  obtain ⟨de', he', rfl, _⟩ := h'
  rw [he] at he'
  cases he'
  rfl

theorem Vacant.not_names (h : Vacant v d k) : ¬ v.Names d k i := by
  rintro ⟨de, he, rfl, h0⟩
  exact h0 (h de he)

theorem names_setEntry_self : (v.setEntry d k de).Names d k i ↔ de.inum = i ∧ i ≠ 0 := by
  unfold View.Names
  rw [entry_setEntry_self]
  simp

theorem entry_setEntry_other (h : ¬ (d' = d ∧ k' = k)) :
    (v.setEntry d k de).entry d' k' = v.entry d' k' := by
  by_cases hd : d' = d
  · subst hd
    exact entry_setEntry_ne v (fun hk => h ⟨rfl, hk⟩) _ _
  · rw [entry_setEntry_dir v hd]

theorem names_setEntry_other (h : ¬ (d' = d ∧ k' = k)) :
    (v.setEntry d k de).Names d' k' i ↔ v.Names d' k' i := by
  unfold View.Names
  rw [entry_setEntry_other h]

/-- An entry is written at a place that was vacant. -/
theorem names_setEntry_add (hnot : ∀ j, ¬ v.Names d k j) (hi0 : de.inum ≠ 0) :
    (v.setEntry d k de).Names a b j ↔ a = d ∧ b = k ∧ j = de.inum ∨ v.Names a b j := by
  by_cases e : a = d ∧ b = k
  · obtain ⟨rfl, rfl⟩ := e
    rw [names_setEntry_self]
    constructor
    · rintro ⟨rfl, _⟩
      exact .inl ⟨rfl, rfl, rfl⟩
    · rintro (⟨_, _, rfl⟩ | ho)
      · exact ⟨rfl, hi0⟩
      · exact absurd ho (hnot j)
  · rw [names_setEntry_other e]
    refine ⟨.inr, ?_⟩
    rintro (⟨h1, h2, _⟩ | ho)
    · exact absurd ⟨h1, h2⟩ e
    · exact ho

/-- An entry is cleared. -/
theorem names_setEntry_zero :
    (v.setEntry d k ⟨0, []⟩).Names a b j ↔ ¬ (a = d ∧ b = k) ∧ v.Names a b j := by
  by_cases e : a = d ∧ b = k
  · obtain ⟨rfl, rfl⟩ := e
    rw [names_setEntry_self]
    simp [eq_comm]
  · simp [names_setEntry_other e, e]

theorem called_setEntry_self : (v.setEntry d k de).Called d k x ↔ sameName de.name x = true := by
  unfold View.Called
  rw [entry_setEntry_self]
  simp

theorem called_setEntry_other (h : ¬ (d' = d ∧ k' = k)) :
    (v.setEntry d k de).Called d' k' x ↔ v.Called d' k' x := by
  unfold View.Called
  rw [entry_setEntry_other h]

theorem names_alloc : (v.alloc i type).Names d k j ↔ d ≠ i ∧ v.Names d k j := by
  unfold View.Names
  by_cases h : d = i
  · subst h
    rw [entry_alloc_self]
    simp
  · rw [entry_alloc_ne v h]
    simp [h]

theorem called_alloc (h : d ≠ i) : (v.alloc i type).Called d k x ↔ v.Called d k x := by
  unfold View.Called
  rw [entry_alloc_ne v h]

theorem names_free : (v.free i).Names d k j ↔ d ≠ i ∧ v.Names d k j :=
  (names_alloc : (v.alloc i .free).Names d k j ↔ _)

theorem called_free (h : d ≠ i) : (v.free i).Called d k x ↔ v.Called d k x :=
  (called_alloc h : (v.alloc i .free).Called d k x ↔ _)

/-! ## §2 The shape of a tree -/

structure Shape (n : Nat) (v : View) : Prop where
  inside : ∀ {d k i}, v.Names d k i → d < n ∧ k < nentries
  isdir : ∀ {d k i}, v.Names d k i → v.type d = .dir
  alloc : ∀ {d k i}, v.Names d k i → v.type i ≠ .free
  dot : ∀ {d}, v.type d = .dir → v.Names d 0 d ∧ v.Called d 0 dotName
  dotdot : ∀ {d}, v.type d = .dir → (∃ p, v.Names d 1 p) ∧ v.Called d 1 dotdotName
  plain : ∀ {d k i}, 2 ≤ k → v.Names d k i →
    ¬ v.Called d k dotName ∧ ¬ v.Called d k dotdotName
  parent : ∀ {p k d}, 2 ≤ k → v.Names p k d → v.type d = .dir → d ≠ rootino ∧ v.Names d 1 p
  once : ∀ {p k p' k' d}, 2 ≤ k → 2 ≤ k' → v.Names p k d → v.Names p' k' d →
    v.type d = .dir → p = p' ∧ k = k'
  named : ∀ {d}, v.type d = .dir → d ≠ rootino → ∃ p k, 2 ≤ k ∧ v.Names p k d
  root : v.type rootino = .dir ∧ v.Names rootino 1 rootino

/-- A new entry comes after "." and "..". -/
theorem Shape.two_le (h : Shape n v) (hd : v.type d = .dir) (hvac : Vacant v d k) : 2 ≤ k := by
  obtain ⟨p, hp⟩ := (h.dotdot hd).1
  have h0 : k ≠ 0 := by
    rintro rfl
    exact hvac.not_names (h.dot hd).1
  have h1 : k ≠ 1 := by
    rintro rfl
    exact hvac.not_names hp
  omega

/-- Nobody names a free inode. -/
theorem dir_ne_free (hd : v.type d = .dir) (hi : v.type i = .free) : d ≠ i := by
  rintro rfl
  cases hd.symm.trans hi

theorem Shape.unnamed (h : Shape n v) (hi : v.type i = .free) : ¬ v.Names d k i :=
  fun hn => h.alloc hn hi

/-- A directory other than the root has no other names than that in its
parent and the ".." entries of its own subdirectories. -/
theorem Shape.dotdot_of (h : Shape n v) (hn : v.Names d 1 i) (hd : d ≠ rootino) :
    ∃ k, 2 ≤ k ∧ v.Names i k d := by
  have hdir := h.isdir hn
  obtain ⟨p, k, hk, hp⟩ := h.named hdir hd
  obtain rfl := (h.parent hk hp hdir).2.inj hn
  exact ⟨k, hk, hp⟩

/-! ## §3 Changes of the shape -/

/-- The type of a file other than a directory, and link counts, do not
matter. -/
theorem Shape.setNlink (h : Shape n v) (i : Nat) (m : BitVec 16) : Shape n (v.setNlink i m) :=
  ⟨h.inside, h.isdir, h.alloc, h.dot, h.dotdot, h.plain, h.parent, h.once, h.named, h.root⟩

/-- Names of files come and go; those of directories and the first two entries stay. -/
theorem Shape.refile (h : Shape n v) (htype : w.type = v.type)
    (hkeep : ∀ {a b j}, v.type j = .dir ∨ b < 2 → (w.Names a b j ↔ v.Names a b j))
    (hnew : ∀ {a b j}, w.Names a b j → v.Names a b j ∨
      (a < n ∧ b < nentries) ∧ v.type a = .dir ∧ v.type j ≠ .free)
    (hcalled : ∀ {a b x}, b < 2 → (w.Called a b x ↔ v.Called a b x))
    (hplain : ∀ {a b j}, 2 ≤ b → w.Names a b j →
      ¬ w.Called a b dotName ∧ ¬ w.Called a b dotdotName) : Shape n w where
  inside hn := (hnew hn).elim h.inside fun hx => hx.1
  isdir hn := htype ▸ (hnew hn).elim h.isdir fun hx => hx.2.1
  alloc hn := htype ▸ (hnew hn).elim h.alloc fun hx => hx.2.2
  dot hd := by
    rw [htype] at hd
    exact ⟨(hkeep (.inl hd)).mpr (h.dot hd).1, (hcalled (by omega)).mpr (h.dot hd).2⟩
  dotdot hd := by
    rw [htype] at hd
    obtain ⟨⟨p, hp⟩, hc⟩ := h.dotdot hd
    exact ⟨⟨p, (hkeep (.inr (by omega))).mpr hp⟩, (hcalled (by omega)).mpr hc⟩
  plain := hplain
  parent hk hn hd := by
    rw [htype] at hd
    obtain ⟨hr, hp⟩ := h.parent hk ((hkeep (.inl hd)).mp hn) hd
    exact ⟨hr, (hkeep (.inr (by omega))).mpr hp⟩
  once h1 h2 hn hn' hd := by
    rw [htype] at hd
    exact h.once h1 h2 ((hkeep (.inl hd)).mp hn) ((hkeep (.inl hd)).mp hn') hd
  named hd hr := by
    rw [htype] at hd
    obtain ⟨p, k, hk, hp⟩ := h.named hd hr
    exact ⟨p, k, hk, (hkeep (.inl hd)).mpr hp⟩
  root := by
    rw [htype]
    exact ⟨h.root.1, (hkeep (.inr (by omega))).mpr h.root.2⟩

/-- A file gets a name. -/
theorem Shape.link (h : Shape n v) (hd : v.type d = .dir) (hdn : d < n) (hkn : k < nentries)
    (hvac : Vacant v d k) (hit : v.type de.inum ≠ .free)
    (hidir : v.type de.inum ≠ .dir) (hdot : sameName de.name dotName ≠ true)
    (hdotdot : sameName de.name dotdotName ≠ true) : Shape n (v.setEntry d k de) := by
  have hk2 := h.two_le hd hvac
  -- an entry of the new view is the new one, or one of the old
  have hcase : ∀ {a b j}, (v.setEntry d k de).Names a b j →
      a = d ∧ b = k ∧ j = de.inum ∨ ¬ (a = d ∧ b = k) ∧ v.Names a b j := by
    intro a b j hn
    by_cases he : a = d ∧ b = k
    · obtain ⟨rfl, rfl⟩ := he
      exact .inl ⟨rfl, rfl, (names_setEntry_self.mp hn).1.symm⟩
    · exact .inr ⟨he, (names_setEntry_other he).mp hn⟩
  refine h.refile rfl (fun {a b j} hj => ⟨fun hn => ?_, fun hn => ?_⟩) (fun {a b j} hn => ?_)
    (fun hb => called_setEntry_other (by omega)) fun {a b j} hb hn => ?_
  · rcases hcase hn with ⟨rfl, rfl, rfl⟩ | ⟨_, ho⟩
    · exact hj.elim (fun hj => absurd hj hidir) fun hb => absurd hb (by omega)
    · exact ho
  · refine (names_setEntry_other ?_).mpr hn
    rintro ⟨rfl, rfl⟩
    exact hvac.not_names hn
  · rcases hcase hn with ⟨rfl, rfl, rfl⟩ | ⟨_, ho⟩
    · exact .inr ⟨⟨hdn, hkn⟩, hd, hit⟩
    · exact .inl ho
  · rcases hcase hn with ⟨rfl, rfl, rfl⟩ | ⟨hne, ho⟩
    · rw [called_setEntry_self, called_setEntry_self]
      exact ⟨hdot, hdotdot⟩
    · rw [called_setEntry_other hne, called_setEntry_other hne]
      exact h.plain hb ho

/-- A file loses a name. -/
theorem Shape.unlink (h : Shape n v) (hk : 2 ≤ k) (hn : v.Names d k i) (hi : v.type i ≠ .dir) :
    Shape n (v.setEntry d k ⟨0, []⟩) := by
  refine h.refile rfl (fun {a b j} hj => ?_) (fun hx => .inl (names_setEntry_zero.mp hx).2)
    (fun hb => called_setEntry_other (by omega)) fun hb hx => ?_
  · rw [names_setEntry_zero]
    refine ⟨fun hx => hx.2, fun hx => ⟨?_, hx⟩⟩
    rintro ⟨rfl, rfl⟩
    exact hj.elim (fun hj => hi (hx.inj hn ▸ hj)) fun hb => absurd hb (by omega)
  · obtain ⟨hne, ho⟩ := names_setEntry_zero.mp hx
    rw [called_setEntry_other hne, called_setEntry_other hne]
    exact h.plain hb ho

/-- The same directories with the same entries. -/
theorem Shape.retype (h : Shape n v) (hn : ∀ {d k j}, w.Names d k j ↔ v.Names d k j)
    (hc : ∀ {d k x}, v.type d = .dir → (w.Called d k x ↔ v.Called d k x))
    (ht : ∀ {d}, w.type d = .dir ↔ v.type d = .dir)
    (ha : ∀ {d k j}, v.Names d k j → w.type j ≠ .free) : Shape n w := by
  refine ⟨fun h' => h.inside (hn.mp h'), fun h' => ht.mpr (h.isdir (hn.mp h')),
    fun h' => ha (hn.mp h'), fun hd => ?_, fun hd => ?_, fun hk h' => ?_, fun hk h' hdir => ?_,
    fun h1 h2 h' h'' hdir => h.once h1 h2 (hn.mp h') (hn.mp h'') (ht.mp hdir),
    fun hdir hne => ?_, ⟨ht.mpr h.root.1, hn.mpr h.root.2⟩⟩
  · obtain ⟨h1, h2⟩ := h.dot (ht.mp hd)
    exact ⟨hn.mpr h1, (hc (ht.mp hd)).mpr h2⟩
  · obtain ⟨⟨p, hp⟩, h2⟩ := h.dotdot (ht.mp hd)
    exact ⟨⟨p, hn.mpr hp⟩, (hc (ht.mp hd)).mpr h2⟩
  · have hdir := h.isdir (hn.mp h')
    rw [hc hdir, hc hdir]
    exact h.plain hk (hn.mp h')
  · obtain ⟨hr, hp⟩ := h.parent hk (hn.mp h') (ht.mp hdir)
    exact ⟨hr, hn.mpr hp⟩
  · obtain ⟨p, k, hk, hp⟩ := h.named (ht.mp hdir) hne
    exact ⟨p, k, hk, hn.mpr hp⟩

theorem type_alloc_ne (h : j ≠ i) : (v.alloc i type).type j = v.type j := update_of_ne h ..

theorem type_alloc_self : (v.alloc i type).type i = type := update_self ..

theorem type_free_ne (h : j ≠ i) : (v.free i).type j = v.type j := update_of_ne h ..

theorem type_free_self : (v.free i).type i = .free := update_self ..

/-- Something that is not a directory, and that nobody names, becomes another. -/
theorem Shape.replace (h : Shape n v) (hi : v.type i ≠ .dir) (hun : ∀ {d k}, ¬ v.Names d k i)
    (htype : type ≠ .dir) : Shape n (v.alloc i type) := by
  have hne : ∀ {d}, v.type d = .dir → d ≠ i := by
    rintro d hd rfl
    exact hi hd
  refine h.retype ?_ (fun hd => called_alloc (hne hd)) ?_ (fun {d k j} hn => ?_)
  · intro d k j
    rw [names_alloc]
    exact ⟨fun hx => hx.2, fun hx => ⟨hne (h.isdir hx), hx⟩⟩
  · intro d
    by_cases e : d = i
    · subst e
      rw [type_alloc_self]
      exact iff_of_false htype hi
    · rw [type_alloc_ne e]
  · have e : j ≠ i := by
      rintro rfl
      exact hun hn
    rw [type_alloc_ne e]
    exact h.alloc hn

/-- A new file, which nobody names yet. -/
theorem Shape.newFile (h : Shape n v) (hi : v.type i = .free) (htype : type ≠ .dir) :
    Shape n (v.alloc i type) := h.replace (by rw [hi]; nofun) (h.unnamed hi) htype

/-- A file goes that nobody names. -/
theorem Shape.freeFile (h : Shape n v) (hi : v.type i ≠ .dir) (hun : ∀ {d k}, ¬ v.Names d k i) :
    Shape n (v.free i) := by
  have h' : Shape n (v.alloc i .free) := h.replace hi hun nofun
  exact h'.retype Iff.rfl (fun _ => Iff.rfl) Iff.rfl h'.alloc

/-- A new directory `i` with its two entries, and its name in `d`. -/
def View.mkdir (v : View) (d k i : Nat) (dot dotdot name : Name) : View :=
  (((v.alloc i .dir).setEntry i 0 ⟨i, dot⟩).setEntry i 1 ⟨d, dotdot⟩).setEntry d k ⟨i, name⟩

theorem names_mkdir (hdi : d ≠ i) (hd0 : d ≠ 0) (hi0 : i ≠ 0) (hvac : ∀ j, ¬ v.Names d k j)
    (hfree : ∀ b j, ¬ v.Names i b j) :
    (v.mkdir d k i dot dotdot name).Names a b j ↔
      a = i ∧ b = 0 ∧ j = i ∨ a = i ∧ b = 1 ∧ j = d ∨ a = d ∧ b = k ∧ j = i ∨ v.Names a b j := by
  have hnone : ∀ {b j}, ¬ (v.alloc i .dir).Names i b j := fun hx => (names_alloc.mp hx).1 rfl
  unfold View.mkdir
  rw [names_setEntry_add ?_ hi0, names_setEntry_add ?_ hd0, names_setEntry_add ?_ hi0, names_alloc]
  · have halloc : a ≠ i ∧ v.Names a b j ↔ v.Names a b j := by
      refine ⟨fun hx => hx.2, fun hx => ⟨?_, hx⟩⟩
      rintro rfl
      exact hfree b j hx
    rw [halloc]
    tauto
  · exact fun _ => hnone
  · intro z hz
    exact hnone ((names_setEntry_other (by omega)).mp hz)
  · intro z hz
    rw [names_setEntry_other fun e => hdi e.1, names_setEntry_other fun e => hdi e.1,
      names_alloc] at hz
    exact hvac z hz.2

theorem called_mkdir_other (ha : a ≠ i) (hab : ¬ (a = d ∧ b = k)) :
    (v.mkdir d k i dot dotdot name).Called a b x ↔ v.Called a b x := by
  unfold View.mkdir
  rw [called_setEntry_other hab, called_setEntry_other fun h => ha h.1,
    called_setEntry_other fun h => ha h.1, called_alloc ha]

theorem type_mkdir_ne (h : j ≠ i) :
    (v.mkdir d k i dot dotdot name).type j = v.type j := update_of_ne h ..

theorem type_mkdir_self : (v.mkdir d k i dot dotdot name).type i = .dir := update_self ..

/-- A tree with one directory more: `w` has the entries of `v`, "." and ".."
in `i`, and a name for `i` in `d`. -/
theorem Shape.addDir (h : Shape n v) (hi : v.type i = .free) (hin : i < n) (hd : v.type d = .dir)
    (hk : 2 ≤ k) (hkn : k < nentries) (hnames : ∀ {a b j}, w.Names a b j ↔
      a = i ∧ b = 0 ∧ j = i ∨ a = i ∧ b = 1 ∧ j = d ∨ a = d ∧ b = k ∧ j = i ∨ v.Names a b j)
    (hself : w.type i = .dir) (hother : ∀ {a}, a ≠ i → w.type a = v.type a)
    (hcalled : ∀ {a b x}, a ≠ i → ¬ (a = d ∧ b = k) → (w.Called a b x ↔ v.Called a b x))
    (hdot : w.Called i 0 dotName) (hdotdot : w.Called i 1 dotdotName)
    (hname : ¬ w.Called d k dotName ∧ ¬ w.Called d k dotdotName) : Shape n w := by
  have hkeep : ∀ {a b j}, v.Names a b j → w.Names a b j :=
    fun hn => hnames.mpr (.inr (.inr (.inr hn)))
  have hne : ∀ {a b j}, v.Names a b j → j ≠ i := by
    rintro a b j hn rfl
    exact h.unnamed hi hn
  have hdir : ∀ {a}, w.type a = .dir → a = i ∨ a ≠ i ∧ v.type a = .dir := by
    intro a ha
    by_cases e : a = i
    · exact .inl e
    · exact .inr ⟨e, hother e ▸ ha⟩
  have hold : ∀ {a}, v.type a = .dir → a ≠ i ∧ w.type a = .dir := by
    intro a ha
    exact ⟨dir_ne_free ha hi, (hother (dir_ne_free ha hi)).trans ha⟩
  -- a name of a directory other than `i` is an old one
  have holdName : ∀ {a b j}, 2 ≤ b → w.Names a b j → j ≠ i → v.Names a b j := by
    intro a b j hb hn hj
    rcases hnames.mp hn with ⟨_, hb0, _⟩ | ⟨_, hb1, _⟩ | ⟨_, _, hji⟩ | ho
    · omega
    · omega
    · exact absurd hji hj
    · exact ho
  -- the only name of `i` is the new one
  have hnewName : ∀ {a b}, 2 ≤ b → w.Names a b i → a = d ∧ b = k := by
    intro a b hb hn
    rcases hnames.mp hn with ⟨_, hb0, _⟩ | ⟨_, hb1, _⟩ | ⟨ha, hbk, _⟩ | ho
    · omega
    · omega
    · exact ⟨ha, hbk⟩
    · exact absurd rfl (hne ho)
  refine ⟨fun hn => ?_, fun hn => ?_, fun hn => ?_, fun ha => ?_, fun ha => ?_,
    fun {a b j} hb hn => ?_, fun {p b a} hb hn ha => ?_, fun {p b p' b' a} h1 h2 hn hn' ha => ?_,
    fun {a} ha hr => ?_, ?_⟩
  · rcases hnames.mp hn with ⟨rfl, rfl, _⟩ | ⟨rfl, rfl, _⟩ | ⟨rfl, rfl, _⟩ | ho
    · exact ⟨hin, by decide⟩
    · exact ⟨hin, by decide⟩
    · exact ⟨(h.inside (h.dot hd).1).1, hkn⟩
    · exact h.inside ho
  · rcases hnames.mp hn with ⟨rfl, _⟩ | ⟨rfl, _⟩ | ⟨rfl, _⟩ | ho
    · exact hself
    · exact hself
    · exact (hold hd).2
    · exact (hold (h.isdir ho)).2
  · rcases hnames.mp hn with ⟨_, _, rfl⟩ | ⟨_, _, rfl⟩ | ⟨_, _, rfl⟩ | ho
    · rw [hself]
      nofun
    · rw [(hold hd).2]
      nofun
    · rw [hself]
      nofun
    · rw [hother (hne ho)]
      exact h.alloc ho
  · rcases hdir ha with rfl | ⟨hai, ha⟩
    · exact ⟨hnames.mpr (.inl ⟨rfl, rfl, rfl⟩), hdot⟩
    · exact ⟨hkeep (h.dot ha).1, (hcalled hai (by omega)).mpr (h.dot ha).2⟩
  · rcases hdir ha with rfl | ⟨hai, ha⟩
    · exact ⟨⟨d, hnames.mpr (.inr (.inl ⟨rfl, rfl, rfl⟩))⟩, hdotdot⟩
    · obtain ⟨⟨p, hp⟩, hc⟩ := h.dotdot ha
      exact ⟨⟨p, hkeep hp⟩, (hcalled hai (by omega)).mpr hc⟩
  · by_cases e : a = d ∧ b = k
    · rw [e.1, e.2]
      exact hname
    · have hj : j ≠ i := by
        rintro rfl
        exact e (hnewName hb hn)
      have ho := holdName hb hn hj
      rw [hcalled (hold (h.isdir ho)).1 e, hcalled (hold (h.isdir ho)).1 e]
      exact h.plain hb ho
  · by_cases e : a = i
    · subst e
      obtain ⟨rfl, rfl⟩ := hnewName hb hn
      refine ⟨?_, hnames.mpr (.inr (.inl ⟨rfl, rfl, rfl⟩))⟩
      exact (dir_ne_free h.root.1 hi).symm
    · obtain ⟨hr, hp⟩ := h.parent hb (holdName hb hn e) (hother e ▸ ha)
      exact ⟨hr, hkeep hp⟩
  · by_cases e : a = i
    · subst e
      obtain ⟨rfl, rfl⟩ := hnewName h1 hn
      obtain ⟨rfl, rfl⟩ := hnewName h2 hn'
      exact ⟨rfl, rfl⟩
    · exact h.once h1 h2 (holdName h1 hn e) (holdName h2 hn' e) (hother e ▸ ha)
  · rcases hdir ha with rfl | ⟨_, ha⟩
    · exact ⟨d, k, hk, hnames.mpr (.inr (.inr (.inl ⟨rfl, rfl, rfl⟩)))⟩
    · obtain ⟨p, b, hb, hp⟩ := h.named ha hr
      exact ⟨p, b, hb, hkeep hp⟩
  · exact ⟨(hold h.root.1).2, hkeep h.root.2⟩

theorem Shape.mkdir (h : Shape n v) (hi : v.type i = .free) (hi0 : i ≠ 0) (hin : i < n)
    (hd : v.type d = .dir) (hvac : Vacant v d k) (hkn : k < nentries)
    (hdot : sameName dot dotName = true) (hdotdot : sameName dotdot dotdotName = true)
    (hname : sameName name dotName ≠ true) (hname' : sameName name dotdotName ≠ true) :
    Shape n (v.mkdir d k i dot dotdot name) := by
  have hk2 := h.two_le hd hvac
  have hdi := dir_ne_free hd hi
  obtain ⟨_, _, _, hd0⟩ := (h.dot hd).1
  refine h.addDir hi hin hd hk2 hkn (names_mkdir hdi hd0 hi0 (fun _ => hvac.not_names) ?_)
    type_mkdir_self type_mkdir_ne called_mkdir_other ?_ ?_ ?_
  · exact fun b j hn => dir_ne_free (h.isdir hn) hi rfl
  · unfold View.mkdir
    rw [called_setEntry_other fun e => hdi e.1.symm, called_setEntry_other (by omega),
      called_setEntry_self]
    exact hdot
  · unfold View.mkdir
    rw [called_setEntry_other fun e => hdi e.1.symm, called_setEntry_self]
    exact hdotdot
  · unfold View.mkdir
    rw [called_setEntry_self, called_setEntry_self]
    exact ⟨hname, hname'⟩

/-- Directory `i` has no entries besides "." and "..". -/
def View.Empty (v : View) (i : Nat) : Prop := ∀ k j, 2 ≤ k → ¬ v.Names i k j

/-- Who names an empty directory: itself, and its parent once. -/
theorem Shape.names_empty (h : Shape n v) (hk : 2 ≤ k) (hn : v.Names d k i) (hi : v.type i = .dir)
    (hempty : v.Empty i) (hab : v.Names a b i) :
    a = i ∧ b = 0 ∨ a = d ∧ b = k := by
  have hb : b = 0 ∨ b = 1 ∨ 2 ≤ b := by omega
  rcases hb with rfl | rfl | hb
  · exact .inl ⟨(h.dot (h.isdir hab)).1.inj hab, rfl⟩
  · exfalso
    by_cases hr : a = rootino
    · subst hr
      exact (h.parent hk hn hi).1 (h.root.2.inj hab).symm
    · obtain ⟨l, hl, hc⟩ := h.dotdot_of hab hr
      exact hempty l a hl hc
  · exact .inr (h.once hb hk hab hn hi)

theorem Shape.rmdir (h : Shape n v) (hk : 2 ≤ k) (hn : v.Names d k i) (hi : v.type i = .dir)
    (hempty : v.Empty i) : Shape n ((v.setEntry d k ⟨0, []⟩).free i) := by
  have hnames : ∀ {a b j}, ((v.setEntry d k ⟨0, []⟩).free i).Names a b j ↔
      a ≠ i ∧ ¬ (a = d ∧ b = k) ∧ v.Names a b j := by
    intro a b j
    rw [names_free, names_setEntry_zero]
  have hcalled : ∀ {a b x}, a ≠ i → ¬ (a = d ∧ b = k) →
      (((v.setEntry d k ⟨0, []⟩).free i).Called a b x ↔ v.Called a b x) := by
    intro a b x ha hab
    rw [called_free ha, called_setEntry_other hab]
  have hdir : ∀ {a}, ((v.setEntry d k ⟨0, []⟩).free i).type a = .dir → a ≠ i ∧ v.type a = .dir := by
    intro a ha
    have e : a ≠ i := by
      rintro rfl
      rw [type_free_self] at ha
      cases ha
    rw [type_free_ne e] at ha
    exact ⟨e, ha⟩
  -- what is left names neither `i` nor anything through the entry that went
  have hne : ∀ {a b j}, a ≠ i → ¬ (a = d ∧ b = k) → v.Names a b j → j ≠ i := by
    rintro a b j ha hab hj rfl
    rcases h.names_empty hk hn hi hempty hj with ⟨rfl, _⟩ | hdk
    · exact ha rfl
    · exact hab hdk
  have hroot := (h.parent hk hn hi).1
  refine ⟨fun hx => h.inside (hnames.mp hx).2.2, fun hx => ?_, fun hx => ?_, fun ha => ?_,
    fun ha => ?_, fun hb hx => ?_, fun hb hx ha => ?_, fun h1 h2 hx hx' ha => ?_, fun ha hr => ?_,
    ?_⟩
  · obtain ⟨ha, _, hx⟩ := hnames.mp hx
    rw [type_free_ne ha]
    exact h.isdir hx
  · obtain ⟨ha, hab, hx⟩ := hnames.mp hx
    rw [type_free_ne (hne ha hab hx)]
    exact h.alloc hx
  · obtain ⟨hai, ha⟩ := hdir ha
    have hab : ∀ {a}, ¬ (a = d ∧ 0 = k) := by omega
    exact ⟨hnames.mpr ⟨hai, hab, (h.dot ha).1⟩, (hcalled hai hab).mpr (h.dot ha).2⟩
  · obtain ⟨hai, ha⟩ := hdir ha
    have hab : ∀ {a}, ¬ (a = d ∧ 1 = k) := by omega
    obtain ⟨⟨p, hp⟩, hc⟩ := h.dotdot ha
    exact ⟨⟨p, hnames.mpr ⟨hai, hab, hp⟩⟩, (hcalled hai hab).mpr hc⟩
  · obtain ⟨ha, hab, hx⟩ := hnames.mp hx
    rw [hcalled ha hab, hcalled ha hab]
    exact h.plain hb hx
  · obtain ⟨_, _, hx⟩ := hnames.mp hx
    obtain ⟨hai, ha⟩ := hdir ha
    obtain ⟨hr, hp⟩ := h.parent hb hx ha
    exact ⟨hr, hnames.mpr ⟨hai, by omega, hp⟩⟩
  · exact h.once h1 h2 (hnames.mp hx).2.2 (hnames.mp hx').2.2 (hdir ha).2
  · obtain ⟨hai, ha⟩ := hdir ha
    obtain ⟨p, b, hb, hp⟩ := h.named ha hr
    refine ⟨p, b, hb, hnames.mpr ⟨?_, ?_, hp⟩⟩
    · rintro rfl
      exact hempty b _ hb hp
    · rintro ⟨rfl, rfl⟩
      exact hai (hp.inj hn)
  · refine ⟨(type_free_ne hroot.symm).trans h.root.1, hnames.mpr ⟨hroot.symm, by omega, h.root.2⟩⟩

/-! ## §4 Link counts -/

/-- The inode that an entry other than "." names. -/
def View.target (v : View) (n : Nat) (r : Fin n × Fin nentries) : Option Nat :=
  if r.2.val = 0 then none else (v.entry r.1 r.2).bind fun de => nonzero de.inum

/-- The number of entries other than "." that name inode `i`. -/
def View.links (v : View) (n i : Nat) : Nat := refs (v.target n) i

theorem target_some : v.target n r = some i ↔ r.2.val ≠ 0 ∧ v.Names r.1 r.2 i := by
  unfold View.target View.Names
  split
  · rename_i h0
    simp [h0]
  · rename_i h0
    cases v.entry r.1 r.2 with
    | none => simp
    | some de =>
      simp only [Option.bind_some, nonzero_some, ne_eq, h0, not_false_eq_true, true_and,
        Option.some.injEq, exists_eq_left']
      constructor
      · rintro ⟨rfl, h⟩
        exact ⟨rfl, h⟩
      · rintro ⟨rfl, h⟩
        exact ⟨rfl, h⟩

theorem target_none (h : ∀ j, ¬ v.Names r.1 r.2 j) : v.target n r = none := by
  cases ht : v.target n r with
  | none => rfl
  | some j => exact absurd (target_some.mp ht).2 (h j)

/-- Two views that name the same give the same counts. -/
theorem target_congr (h : ∀ {a b j}, b ≠ 0 → (w.Names a b j ↔ v.Names a b j)) :
    w.target n = v.target n := by
  funext r
  cases ht : v.target n r with
  | some j =>
    obtain ⟨h0, hn⟩ := target_some.mp ht
    exact target_some.mpr ⟨h0, (h h0).mpr hn⟩
  | none =>
    cases hw : w.target n r with
    | none => rfl
    | some j =>
      obtain ⟨h0, hn⟩ := target_some.mp hw
      rw [target_some.mpr ⟨h0, (h h0).mp hn⟩] at ht
      cases ht

theorem links_congr (h : ∀ {a b j}, b ≠ 0 → (w.Names a b j ↔ v.Names a b j)) :
    w.links n i = v.links n i := by
  unfold View.links
  rw [target_congr h]

/-- One entry more, which names `i`. -/
theorem links_add (hd : d < n) (hk : k < nentries) (hk0 : k ≠ 0) (hnot : ∀ j, ¬ v.Names d k j)
    (h : ∀ {a b j}, b ≠ 0 → (w.Names a b j ↔ a = d ∧ b = k ∧ j = i ∨ v.Names a b j)) (j : Nat) :
    w.links n j = v.links n j + if j = i then 1 else 0 := by
  have htarget : w.target n = update (v.target n) (⟨d, hd⟩, ⟨k, hk⟩) (some i) := by
    funext r
    by_cases e : r = (⟨d, hd⟩, ⟨k, hk⟩)
    · subst e
      rw [update_self]
      exact target_some.mpr ⟨hk0, (h hk0).mpr (.inl ⟨rfl, rfl, rfl⟩)⟩
    · rw [update_of_ne e]
      have hiff : ∀ j, r.2.val ≠ 0 → (w.Names r.1 r.2 j ↔ v.Names r.1 r.2 j) := by
        intro j h0
        rw [h h0]
        refine ⟨?_, .inr⟩
        rintro (⟨ha, hb, _⟩ | ho)
        · exact absurd (Prod.ext (Fin.ext ha) (Fin.ext hb)) e
        · exact ho
      cases ht : v.target n r with
      | some j =>
        obtain ⟨h0, hn⟩ := target_some.mp ht
        exact target_some.mpr ⟨h0, (hiff j h0).mpr hn⟩
      | none =>
        cases hw : w.target n r with
        | none => rfl
        | some j =>
          obtain ⟨h0, hn⟩ := target_some.mp hw
          rw [target_some.mpr ⟨h0, (hiff j h0).mp hn⟩] at ht
          cases ht
  unfold View.links
  rw [htarget]
  exact refs_update_some (target_none hnot) j

theorem Shape.links_pos (h : Shape n v) (hn : v.Names d k i) (hk : k ≠ 0) : 0 < v.links n i := by
  obtain ⟨hd, hk'⟩ := h.inside hn
  exact refs_pos.mpr ⟨(⟨d, hd⟩, ⟨k, hk'⟩), target_some.mpr ⟨hk, hn⟩⟩

theorem Shape.unnamed_of_links (h : Shape n v) (hz : v.links n i = 0) (hi : v.type i ≠ .dir) :
    ¬ v.Names d k i := by
  intro hn
  by_cases hk : k = 0
  · subst hk
    obtain rfl := (h.dot (h.isdir hn)).1.inj hn
    exact hi (h.isdir hn)
  · have := h.links_pos hn hk
    omega

theorem links_unnamed (h : ∀ d k, ¬ v.Names d k i) : v.links n i = 0 :=
  refs_eq_zero.mpr fun r hr => h r.1 r.2 (target_some.mp hr).2

/-! ### The counts of directories -/

/-- What tells the links of a directory apart: a subdirectory has a place in
it, the root comes from ".." in the root, and the name of the directory itself
is one. -/
def View.Place (v : View) (d : Nat) (r : Fin n × Fin nentries) (k : Fin nentries) : Prop :=
  r.2.val = 1 ∧ 2 ≤ k.val ∧ v.Names d k r.1 ∨ r.2.val = 1 ∧ r.1.val = rootino ∧ k.val = 0 ∨
    2 ≤ r.2.val ∧ k.val = 1

theorem Shape.place (h : Shape n v) (hr : v.target n r = some d) : ∃ k, v.Place d r k := by
  obtain ⟨h0, hn⟩ := target_some.mp hr
  by_cases h1 : r.2.val = 1
  · rw [h1] at hn
    by_cases hroot : r.1.val = rootino
    · exact ⟨⟨0, by decide⟩, .inr (.inl ⟨h1, hroot, rfl⟩)⟩
    · obtain ⟨k, hk, hk'⟩ := h.dotdot_of hn hroot
      exact ⟨⟨k, (h.inside hk').2⟩, .inl ⟨h1, hk, hk'⟩⟩
  · exact ⟨⟨1, by decide⟩, .inr (.inr ⟨by omega, rfl⟩)⟩

theorem Shape.place_inj (h : Shape n v) (hd : v.type d = .dir) {r' : Fin n × Fin nentries}
    {k : Fin nentries} (hr : v.target n r = some d) (hr' : v.target n r' = some d)
    (hk : v.Place d r k) (hk' : v.Place d r' k) : r = r' := by
  have hn := (target_some.mp hr).2
  have hn' := (target_some.mp hr').2
  rcases hk with ⟨h1, h2, hp⟩ | ⟨h1, h2, h3⟩ | ⟨h1, h2⟩
  · rcases hk' with ⟨h1', _, hp'⟩ | ⟨_, _, h3'⟩ | ⟨_, h2'⟩
    · exact Prod.ext (Fin.ext (hp.inj hp')) (Fin.ext (h1.trans h1'.symm))
    · omega
    · omega
  · rcases hk' with ⟨_, h2', _⟩ | ⟨h1', h2', _⟩ | ⟨_, h2'⟩
    · omega
    · exact Prod.ext (Fin.ext (h2.trans h2'.symm)) (Fin.ext (h1.trans h1'.symm))
    · omega
  · rcases hk' with ⟨_, h2', _⟩ | ⟨_, _, h3'⟩ | ⟨h1', _⟩
    · omega
    · omega
    · obtain ⟨e1, e2⟩ := h.once h1 h1' hn hn' hd
      exact Prod.ext (Fin.ext e1) (Fin.ext e2)

/-- A directory has no more links than a directory can have entries. -/
theorem Shape.links_dir_le (h : Shape n v) (hd : v.type d = .dir) : v.links n d ≤ nentries := by
  let place : Fin n × Fin nentries → Fin nentries := fun r =>
    if hr : v.target n r = some d then Classical.choose (h.place hr) else ⟨0, by decide⟩
  have hplace : ∀ r, v.target n r = some d → v.Place d r (place r) := by
    intro r hr
    simp only [place, dif_pos hr]
    exact Classical.choose_spec (h.place hr)
  have hle : refs (v.target n) d ≤ Fintype.card (Fin nentries) :=
    refs_le_card place fun r r' hr hr' heq =>
      h.place_inj hd hr hr' (hplace r hr) (heq ▸ hplace r' hr')
  rwa [Fintype.card_fin] at hle

/-! ## §5 Changes of the tree -/

/-- By how much the count of `i` is ahead. -/
def lead (ahead : Option Nat) (i : Nat) : Nat := if ahead = some i then 1 else 0

structure Tree (n : Nat) (ahead : Option Nat) (v : View) : Prop where
  shape : Shape n v
  law : ∀ i, v.type i ≠ .free → v.nlink i = BitVec.ofNat 16 (v.links n i + lead ahead i)

variable {a b : Option Nat}

@[simp] theorem lead_none (i : Nat) : lead none i = 0 := rfl

theorem lead_some (i j : Nat) : lead (some i) j = if j = i then 1 else 0 := by
  simp [lead, eq_comm]

@[simp] theorem lead_self (i : Nat) : lead (some i) i = 1 := by simp [lead]

/-- At most the count of `i` is ahead. -/
def Only (a : Option Nat) (i : Nat) : Prop := ∀ j, a = some j → j = i

theorem Only.none : Only none i := nofun

theorem Only.self : Only (some i) i := fun _ h => (Option.some.inj h).symm

theorem Only.lead (h : Only a i) (hj : j ≠ i) : lead a j = 0 := if_neg fun e => hj (h j e)

theorem nlink_setNlink_ne (h : j ≠ i) : (v.setNlink i m).nlink j = v.nlink j := update_of_ne h ..

theorem nlink_setNlink_self : (v.setNlink i m).nlink i = m := update_self ..

theorem Tree.setNlink (h : Tree n a v) (ha : Only a i) (hb : Only b i)
    (hm : m = BitVec.ofNat 16 (v.links n i + lead b i)) :
    Tree n b (v.setNlink i m) := by
  refine ⟨h.shape.setNlink i m, fun j hj => ?_⟩
  have hlinks : (v.setNlink i m).links n j = v.links n j := rfl
  rw [hlinks]
  by_cases e : j = i
  · rw [e, nlink_setNlink_self, hm]
  · rw [nlink_setNlink_ne e, h.law j hj, ha.lead e, hb.lead e]

/-- `nlink++` before a name is added. -/
theorem Tree.ahead (h : Tree n none v) (hi : v.type i ≠ .free) :
    Tree n (some i) (v.setNlink i (v.nlink i + 1)) := by
  refine h.setNlink .none .self ?_
  rw [h.law i hi, lead_none, lead_self, Nat.add_zero, BitVec.ofNat_add]
  rfl

/-- `nlink--` after one was removed. -/
theorem Tree.back (h : Tree n (some i) v) (hi : v.type i ≠ .free) :
    Tree n none (v.setNlink i (v.nlink i - 1)) := by
  refine h.setNlink .self .none ?_
  rw [h.law i hi, lead_none, lead_self, Nat.add_zero, BitVec.ofNat_add]
  exact BitVec.add_sub_cancel ..

theorem links_setEntry (hd : d < n) (hk : k < nentries) (hk0 : k ≠ 0)
    (hnot : ∀ j, ¬ v.Names d k j) (hi0 : de.inum ≠ 0) (j : Nat) :
    (v.setEntry d k de).links n j = v.links n j + if j = de.inum then 1 else 0 :=
  links_add hd hk hk0 hnot (fun _ => names_setEntry_add hnot hi0) j

theorem Tree.link (h : Tree n (some de.inum) v) (hd : v.type d = .dir) (hkn : k < nentries)
    (hvac : Vacant v d k) (hi : v.type de.inum ≠ .free) (hi0 : de.inum ≠ 0)
    (hidir : v.type de.inum ≠ .dir) (hdot : sameName de.name dotName ≠ true)
    (hdotdot : sameName de.name dotdotName ≠ true) : Tree n none (v.setEntry d k de) := by
  have hdn := (h.shape.inside (h.shape.dot hd).1).1
  have hk := h.shape.two_le hd hvac
  refine ⟨h.shape.link hd hdn hkn hvac hi hidir hdot hdotdot, fun j hj => ?_⟩
  have hlaw := h.law j hj
  rwa [lead_some, ← links_setEntry hdn hkn (by omega) (fun _ => hvac.not_names) hi0] at hlaw

/-- An entry of the view without the one that is cleared. -/
theorem names_clear {x y z : Nat} (hn : v.Names d k i) :
    v.Names x y z ↔ x = d ∧ y = k ∧ z = i ∨ (v.setEntry d k ⟨0, []⟩).Names x y z := by
  rw [names_setEntry_zero]
  constructor
  · intro hz
    by_cases e : x = d ∧ y = k
    · obtain ⟨rfl, rfl⟩ := e
      exact .inl ⟨rfl, rfl, hz.inj hn⟩
    · exact .inr ⟨e, hz⟩
  · rintro (⟨rfl, rfl, rfl⟩ | ⟨_, hz⟩)
    · exact hn
    · exact hz

/-- The counts before an entry is cleared. -/
theorem Shape.links_clear (h : Shape n v) (hn : v.Names d k i) (hk : k ≠ 0) (j : Nat) :
    v.links n j = (v.setEntry d k ⟨0, []⟩).links n j + if j = i then 1 else 0 := by
  obtain ⟨hdn, hkn⟩ := h.inside hn
  exact links_add hdn hkn hk (fun z hz => (names_setEntry_zero.mp hz).1 ⟨rfl, rfl⟩)
    (fun _ => names_clear hn) j

theorem Tree.unlink (h : Tree n none v) (hk : 2 ≤ k) (hn : v.Names d k i)
    (hi : v.type i ≠ .dir) : Tree n (some i) (v.setEntry d k ⟨0, []⟩) := by
  refine ⟨h.shape.unlink hk hn hi, fun j hj => ?_⟩
  have hlaw := h.law j hj
  rwa [lead_none, Nat.add_zero, h.shape.links_clear hn (by omega) j, ← lead_some] at hlaw

theorem Shape.links_free_file (h : Shape n v) (hi : v.type i ≠ .dir) (j : Nat) :
    (v.free i).links n j = v.links n j := by
  refine links_congr fun {x y z} _ => ?_
  rw [names_free]
  refine ⟨fun hx => hx.2, fun hx => ⟨?_, hx⟩⟩
  rintro rfl
  exact hi (h.isdir hx)

theorem Shape.links_alloc (h : Shape n v) (hi : v.type i = .free) (type : FileType) (j : Nat) :
    (v.alloc i type).links n j = v.links n j := by
  refine links_congr fun {x y z} _ => ?_
  rw [names_alloc]
  exact ⟨fun hx => hx.2, fun hx => ⟨dir_ne_free (h.isdir hx) hi, hx⟩⟩

/-- A new file is in the table with one link before it has a name. -/
theorem Tree.newFile (h : Tree n none v) (hi : v.type i = .free) (htype : type ≠ .dir) :
    Tree n (some i) ((v.alloc i type).setNlink i 1) := by
  refine ⟨(h.shape.newFile hi htype).setNlink i 1, fun j hj => ?_⟩
  have hlinks : ((v.alloc i type).setNlink i 1).links n j = v.links n j :=
    h.shape.links_alloc hi type j
  rw [hlinks]
  by_cases e : j = i
  · subst e
    rw [nlink_setNlink_self, links_unnamed fun _ _ => h.shape.unnamed hi, lead_self]
    rfl
  · rw [nlink_setNlink_ne e, Only.self.lead e]
    have hjt : (v.alloc i type).type j = v.type j := type_alloc_ne e
    have hjn : (v.alloc i type).nlink j = v.nlink j := update_of_ne e ..
    rw [hjn, h.law j (hjt ▸ hj), lead_none]

theorem Tree.freeFile (h : Tree n a v) (ha : Only a i) (hi : v.type i ≠ .dir)
    (hz : v.links n i = 0) : Tree n none (v.free i) := by
  refine ⟨h.shape.freeFile hi (h.shape.unnamed_of_links hz hi), fun j hj => ?_⟩
  have e : j ≠ i := by
    rintro rfl
    exact hj type_free_self
  rw [h.shape.links_free_file hi]
  have hlaw := h.law j (type_free_ne e ▸ hj)
  rwa [ha.lead e] at hlaw

/-- The counts of a new directory and of its parent. -/
theorem Shape.links_mkdir (h : Shape n v) (hi : v.type i = .free) (hi0 : i ≠ 0) (hin : i < n)
    (hd : v.type d = .dir) (hvac : Vacant v d k) (hkn : k < nentries) (j : Nat) :
    (v.mkdir d k i dot dotdot name).links n j =
      v.links n j + (if j = d then 1 else 0) + if j = i then 1 else 0 := by
  obtain ⟨_, _, _, hd0⟩ := (h.dot hd).1
  have hdn := (h.inside (h.dot hd).1).1
  have hk := h.two_le hd hvac
  have hdi := dir_ne_free hd hi
  have hnone : ∀ {y z}, ¬ (v.alloc i .dir).Names i y z := fun hx => (names_alloc.mp hx).1 rfl
  unfold View.mkdir
  rw [links_setEntry hdn hkn (by omega) ?_ hi0, links_setEntry hin (by decide) (by decide) ?_ hd0]
  · have hdots : ((v.alloc i .dir).setEntry i 0 ⟨i, dot⟩).links n j = v.links n j :=
      (links_congr fun hy => names_setEntry_other fun e => hy e.2).trans
        (h.links_alloc hi .dir j)
    rw [hdots]
  · intro z hz
    rw [names_setEntry_other (by omega)] at hz
    exact hnone hz
  · intro z hz
    rw [names_setEntry_other fun e => hdi e.1, names_setEntry_other fun e => hdi e.1,
      names_alloc] at hz
    exact hvac.not_names hz.2

/-- A directory is made: its count is 1, that of its parent one more. -/
theorem Tree.mkdir (h : Tree n none v) (hi : v.type i = .free) (hi0 : i ≠ 0) (hin : i < n)
    (hd : v.type d = .dir) (hvac : Vacant v d k) (hkn : k < nentries)
    (hdot : sameName dot dotName = true) (hdotdot : sameName dotdot dotdotName = true)
    (hname : sameName name dotName ≠ true) (hname' : sameName name dotdotName ≠ true) :
    Tree n none (((v.mkdir d k i dot dotdot name).setNlink i 1).setNlink d (v.nlink d + 1)) := by
  have hdi := dir_ne_free hd hi
  refine ⟨((h.shape.mkdir hi hi0 hin hd hvac hkn hdot hdotdot hname hname').setNlink i 1).setNlink
    d _, fun j hj => ?_⟩
  have hlinks : (((v.mkdir d k i dot dotdot name).setNlink i 1).setNlink d
      (v.nlink d + 1)).links n j = _ := h.shape.links_mkdir hi hi0 hin hd hvac hkn j
  rw [hlinks, lead_none, Nat.add_zero]
  by_cases e : j = d
  · subst e
    rw [nlink_setNlink_self, h.law j (by rw [hd]; nofun), lead_none, if_pos rfl, if_neg hdi,
      Nat.add_zero, Nat.add_zero, BitVec.ofNat_add]
    rfl
  · rw [nlink_setNlink_ne e, if_neg e]
    by_cases e' : j = i
    · subst e'
      rw [nlink_setNlink_self, links_unnamed fun _ _ => h.shape.unnamed hi, if_pos rfl]
      rfl
    · have hjt : (v.mkdir d k i dot dotdot name).type j = v.type j := type_mkdir_ne e'
      have hjn : (v.mkdir d k i dot dotdot name).nlink j = v.nlink j := update_of_ne e' ..
      rw [nlink_setNlink_ne e', hjn, h.law j (hjt ▸ hj), if_neg e', lead_none]

/-- The counts before an empty directory goes. -/
theorem Shape.links_rmdir (h : Shape n v) (hk : 2 ≤ k) (hn : v.Names d k i)
    (hi : v.type i = .dir) (hempty : v.Empty i) (j : Nat) :
    v.links n j = ((v.setEntry d k ⟨0, []⟩).free i).links n j + (if j = d then 1 else 0) +
      if j = i then 1 else 0 := by
  have hp := (h.parent hk hn hi).2
  obtain ⟨hin, h1⟩ := h.inside hp
  rw [h.links_clear hn (by omega) j]
  congr 1
  refine links_add hin h1 (by decide) (fun z hz => (names_free.mp hz).1 rfl)
    (fun {x y z} hy => ?_) j
  rw [names_free]
  by_cases e : x = i
  · subst e
    -- besides ".", only ".." is left in the directory
    have hdi : ¬ (x = d ∧ y = k) := by
      rintro ⟨rfl, rfl⟩
      exact hempty y _ hk hn
    rw [names_setEntry_other hdi]
    constructor
    · intro hz
      have hy1 : y = 1 := by
        by_contra hne
        exact hempty y z (by omega) hz
      subst hy1
      exact .inl ⟨rfl, rfl, hz.inj hp⟩
    · rintro (⟨_, rfl, rfl⟩ | ⟨hx, _⟩)
      · exact hp
      · exact absurd rfl hx
  · constructor
    · exact fun hz => .inr ⟨e, hz⟩
    · rintro (⟨hx, _⟩ | ⟨_, hz⟩)
      · exact absurd hx e
      · exact hz

/-- An empty directory goes, and its parent loses a link. -/
theorem Tree.rmdir (h : Tree n none v) (hk : 2 ≤ k) (hn : v.Names d k i) (hi : v.type i = .dir)
    (hempty : v.Empty i) :
    Tree n none ((((v.setEntry d k ⟨0, []⟩).setNlink d (v.nlink d - 1)).setNlink i m).free i) := by
  have hshape := h.shape.rmdir hk hn hi hempty
  refine ⟨⟨hshape.inside, hshape.isdir, hshape.alloc, hshape.dot, hshape.dotdot, hshape.plain,
    hshape.parent, hshape.once, hshape.named, hshape.root⟩, fun j hj => ?_⟩
  have e : j ≠ i := by
    rintro rfl
    exact hj type_free_self
  have hlaw := h.law j (type_free_ne e ▸ hj)
  rw [lead_none, Nat.add_zero, h.shape.links_rmdir hk hn hi hempty j, if_neg e,
    Nat.add_zero] at hlaw
  show (((v.setEntry d k ⟨0, []⟩).setNlink d (v.nlink d - 1)).setNlink i m).nlink j =
    BitVec.ofNat 16 (((v.setEntry d k ⟨0, []⟩).free i).links n j)
  rw [nlink_setNlink_ne e]
  by_cases ed : j = d
  · subst ed
    rw [nlink_setNlink_self, hlaw, if_pos rfl, BitVec.ofNat_add]
    exact BitVec.add_sub_cancel ..
  · rw [nlink_setNlink_ne ed]
    rwa [if_neg ed, Nat.add_zero] at hlaw

/-- The name of an empty directory is its only link. -/
theorem Tree.nlink_empty (h : Tree n none v) (hk : 2 ≤ k) (hn : v.Names d k i)
    (hi : v.type i = .dir) (hempty : v.Empty i) : v.nlink i = 1 := by
  have hdi : i ≠ d := by
    rintro rfl
    exact hempty k _ hk hn
  have hzero : ((v.setEntry d k ⟨0, []⟩).free i).links n i = 0 :=
    links_unnamed fun _ _ => (h.shape.rmdir hk hn hi hempty).unnamed type_free_self
  rw [h.law i (by rw [hi]; nofun), h.shape.links_rmdir hk hn hi hempty, hzero, if_neg hdi,
    if_pos rfl]
  rfl

/-- A directory has a link: the root from itself, another from its parent. -/
theorem Tree.nlink_dir (h : Tree n none v) (hd : v.type d = .dir) : v.nlink d ≠ 0 := by
  have hpos : 0 < v.links n d := by
    by_cases hroot : d = rootino
    · subst hroot
      exact h.shape.links_pos h.shape.root.2 (by decide)
    · obtain ⟨p, l, hl, hn⟩ := h.shape.named hd hroot
      exact h.shape.links_pos hn (by omega)
  have hle := h.shape.links_dir_le hd
  have hn : nentries < 2 ^ 16 := by decide
  rw [h.law d (by rw [hd]; nofun), lead_none, Nat.add_zero]
  intro hz
  have hz' := congrArg BitVec.toNat hz
  exact absurd hz' (by simp; omega)

/-! ## §6 Counts in range -/

/-- No directory is without links, and no file has more names than a link
count can tell. -/
structure Good (n : Nat) (v : View) : Prop where
  dirs : ∀ {d}, v.type d = .dir → v.nlink d ≠ 0
  files : ∀ {i}, v.type i ≠ .free → v.type i ≠ .dir → v.links n i ≤ 32767

theorem Tree.links_le (h : Tree n a v) (hg : Good n v) (hi : v.type i ≠ .free) :
    v.links n i ≤ 32767 := by
  by_cases hd : v.type i = .dir
  · have := h.shape.links_dir_le hd
    have hn : nentries ≤ 32767 := by decide
    omega
  · exact hg.files hi hd

/-- A count that is 0 is right, and one that is not 0 as well. -/
theorem Tree.nlink_eq_zero (h : Tree n a v) (hg : Good n v) (hi : v.type i ≠ .free) :
    v.nlink i = 0 ↔ v.links n i = 0 ∧ lead a i = 0 := by
  have hle := h.links_le hg hi
  have hlead : lead a i ≤ 1 := by
    unfold lead
    split <;> omega
  rw [h.law i hi]
  constructor
  · intro hz
    have hn := congrArg BitVec.toNat hz
    simp at hn
    omega
  · rintro ⟨h1, h2⟩
    rw [h1, h2]
    rfl

theorem Tree.nlink_ne_zero (h : Tree n a v) (hg : Good n v) (hn : v.Names d k i) :
    v.nlink i ≠ 0 := by
  by_cases hi : v.type i = .dir
  · exact hg.dirs hi
  · intro hz
    have := (h.nlink_eq_zero hg (h.shape.alloc hn)).mp hz
    exact h.shape.unnamed_of_links this.1 hi hn

theorem Tree.nlink_toInt (h : Tree n none v) (hg : Good n v) (hi : v.type i ≠ .free) :
    (v.nlink i).toInt = v.links n i := by
  have hle := h.links_le hg hi
  rw [h.law i hi, lead_none, Nat.add_zero, BitVec.toInt_eq_toNat_of_lt]
  · rw [BitVec.toNat_ofNat, Nat.mod_eq_of_lt (by omega)]
  · rw [BitVec.toNat_ofNat, Nat.mod_eq_of_lt (by omega)]
    omega

theorem Tree.sound (h : Tree n a v) (hg : Good n v) : Sound v where
  alloc he h0 := h.shape.alloc ⟨_, he, rfl, h0⟩
  linked he h0 := h.nlink_ne_zero hg ⟨_, he, rfl, h0⟩
  dirs hd := hg.dirs hd
  root := h.shape.root.1

end Xv6.Files
