/-
Xv6.Files.Walk — walks along a path.

A path is a list of names, and a walk along it is a fold of lookups; `namex`
comes to the inode at the end of the walk, or stops before the last name if
that is in a directory. On the way it only takes and drops references, and an
inode without links may go away with the last one. Where entries name allocated
inodes with links (`Sound`), a walk never meets a free inode and frees none.
§1 the names of a path, §2 walks, §3 inodes that go away, §4 `namex`.
-/
import Xv6.Files.DirTheorems

namespace Xv6.Files

open Xv6.Lib Function

/-! ## §1 The names of a path -/

/-- The parts of a path between slashes, cut to `DIRSIZ` bytes. -/
def names (path : List Byte) : List Name :=
  ((path.splitOnP (· = slash)).filter (· ≠ [])).map (List.take dirsiz)

/-- The names that `skipelem` returns one after the other. -/
def elements : Nat → List Byte → List Name
  | 0, _ => []
  | fuel + 1, path =>
    match skipelem path with
    | none => []
    | some (name, rest) => name :: elements fuel rest

theorem names_slash (path : List Byte) : names (slash :: path) = names path := by
  have h : (([] : List Byte) ++ slash :: path).splitOnP (· = slash) =
      [].splitOnP (· = slash) ++ path.splitOnP (· = slash) :=
    List.splitOnP_append_cons [] path (by simp)
  rw [List.nil_append, List.splitOnP_nil] at h
  simp [names, h]

theorem names_dropWhile (path : List Byte) : names (path.dropWhile (· = slash)) = names path := by
  induction path with
  | nil => rfl
  | cons b path ih =>
    by_cases hb : b = slash
    · subst hb
      rw [List.dropWhile_cons_of_pos (by simp), names_slash, ih]
    · rw [List.dropWhile_cons_of_neg (by simpa using hb)]

theorem names_nil : names [] = [] := by
  simp [names]

/-- A path that does not begin with a slash begins with a name. -/
theorem names_cons {b : Byte} (hb : b ≠ slash) (path : List Byte) :
    names (b :: path) = (((b :: path).takeWhile (· ≠ slash)).take dirsiz) ::
      names ((b :: path).dropWhile (· ≠ slash)) := by
  have hword : ∀ x ∈ (b :: path).takeWhile (· ≠ slash), decide (x = slash) = false := by
    intro x hx
    have := List.mem_takeWhile_imp hx
    simpa using this
  have hne : (b :: path).takeWhile (· ≠ slash) ≠ [] := by
    rw [List.takeWhile_cons_of_pos (by simpa using hb)]
    exact List.cons_ne_nil _ _
  have hsplit := List.takeWhile_append_dropWhile (p := fun x : Byte => decide (x ≠ slash))
    (l := b :: path)
  cases hrest : (b :: path).dropWhile (· ≠ slash) with
  | nil =>
    rw [hrest, List.append_nil] at hsplit
    have hone := List.splitOnP_eq_singleton hword
    rw [hsplit] at hone
    rw [names, hone, names_nil, hsplit]
    simp
  | cons sep rest =>
    have hsep : sep = slash := by
      have := List.head?_dropWhile_not (fun x : Byte => decide (x ≠ slash)) (b :: path)
      rw [hrest] at this
      simpa using this
    subst hsep
    rw [hrest] at hsplit
    have hfirst := List.splitOnP_append_cons_of_forall_mem hword slash (by simp) rest
    rw [hsplit] at hfirst
    rw [names_slash, names, hfirst, List.filter_cons_of_pos (by simpa using hne), List.map_cons]
    rfl

theorem names_cons_ne_nil {b : Byte} (hb : b ≠ slash) (path : List Byte) :
    names (b :: path) ≠ [] := by
  rw [names_cons hb]
  exact List.cons_ne_nil _ _

theorem head_dropWhile {b : Byte} {path rest : List Byte}
    (h : path.dropWhile (· = slash) = b :: rest) : b ≠ slash := by
  have := List.head?_dropWhile_not (fun x : Byte => decide (x = slash)) path
  rw [h] at this
  simpa using this

theorem skipelem_none {path : List Byte} (h : skipelem path = none) : names path = [] := by
  unfold skipelem at h
  split at h
  · rename_i hd
    rw [← names_dropWhile, hd, names_nil]
  · cases h

/-- `skipelem` takes the first name off a path; nothing is left if it was the last. -/
theorem skipelem_some {path rest : List Byte} {name : Name}
    (h : skipelem path = some (name, rest)) :
    names path = name :: names rest ∧ rest.length < path.length ∧
      (rest = [] ↔ names rest = []) := by
  unfold skipelem at h
  split at h
  · cases h
  · rename_i b bs hd
    have hb := head_dropWhile hd
    obtain ⟨rfl, rfl⟩ := h
    refine ⟨?_, ?_, ?_⟩
    · rw [← names_dropWhile path, hd, names_cons hb, names_dropWhile]
    · have h1 := (List.dropWhile_sublist (fun x : Byte => decide (x = slash))
        (l := (b :: bs).dropWhile (· ≠ slash))).length_le
      have h2 : ((b :: bs).dropWhile (· ≠ slash)).length ≤ bs.length := by
        rw [List.dropWhile_cons_of_pos (by simpa using hb)]
        exact (List.dropWhile_sublist _).length_le
      have h3 := (List.dropWhile_sublist (fun x : Byte => decide (x = slash)) (l := path)).length_le
      rw [hd, List.length_cons] at h3
      omega
    · constructor
      · intro hnil
        rw [hnil, names_nil]
      · intro hnone
        cases hr : ((b :: bs).dropWhile (· ≠ slash)).dropWhile (· = slash) with
        | nil => rfl
        | cons a as =>
          rw [hr] at hnone
          exact absurd hnone (names_cons_ne_nil (head_dropWhile hr) as)

theorem elements_names (fuel : Nat) : ∀ path : List Byte, path.length < fuel →
    elements fuel path = names path := by
  induction fuel with
  | zero => exact fun _ h => absurd h (Nat.not_lt_zero _)
  | succ fuel ih =>
    intro path hlen
    unfold elements
    split
    · rename_i h
      exact (skipelem_none h).symm
    · rename_i name rest h
      obtain ⟨hnames, hlt, -⟩ := skipelem_some h
      rw [hnames, ih rest (by omega)]

/-! ## §2 Walks -/

/-- Look up one name after the other, from directory `d`. -/
def Store.walk (st : Store) : Nat → List Name → Option Nat
  | d, [] => some d
  | d, x :: xs =>
    if (st.dinodes d).type = .dir then (st.lookup d x).bind fun i => st.walk i xs else none

/-- The same, up to the last name if `np`. -/
def Store.resolve (st : Store) (np : Bool) : Nat → List Name → Option (Nat × Name)
  | d, [] => if np then none else some (d, [])
  | d, x :: xs =>
    if (st.dinodes d).type = .dir then
      if np ∧ xs = [] then some (d, x) else (st.lookup d x).bind fun i => st.resolve np i xs
    else none

variable {sb : Superblock} {g C : Prop} {E : Panic → Prop} {c : Cnt} {s s' : Fs} {st st' : Store}
  {e : Fin ninode} {d i k : Nat} {x : Name} {xs ys : List Name}

theorem walk_cons (hd : (st.dinodes d).type = .dir) :
    st.walk d (x :: xs) = (st.lookup d x).bind fun i => st.walk i xs := if_pos hd

theorem walk_append (xs ys : List Name) : ∀ d,
    st.walk d (xs ++ ys) = (st.walk d xs).bind fun i => st.walk i ys := by
  induction xs with
  | nil => exact fun d => rfl
  | cons x xs ih =>
    intro d
    simp only [List.cons_append, Store.walk]
    split
    · rw [Option.bind_assoc]
      exact congrArg _ (funext ih)
    · rfl

theorem resolve_namei (xs : List Name) : ∀ d,
    st.resolve false d xs = (st.walk d xs).map fun i => (i, []) := by
  induction xs with
  | nil => exact fun d => rfl
  | cons x xs ih =>
    intro d
    simp only [Store.resolve, Store.walk]
    split
    · rw [if_neg (by simp), Option.map_bind]
      exact congrArg _ (funext ih)
    · rfl

theorem resolve_nameiparent (x : Name) (xs : List Name) : ∀ d,
    st.resolve true d (xs ++ [x]) = (st.walk d xs).bind fun i =>
      if (st.dinodes i).type = .dir then some (i, x) else none := by
  induction xs with
  | nil =>
    simp [Store.resolve, Store.walk]
  | cons y xs ih =>
    intro d
    simp only [List.cons_append, Store.resolve, Store.walk]
    split
    · rw [if_neg (by simp), Option.bind_assoc]
      exact congrArg _ (funext ih)
    · rfl

/-- A walk fails at a name that is not in a directory, or is not there. -/
theorem walk_eq_none (xs : List Name) (d : Nat) : st.walk d xs = none ↔
    ∃ ys x zs i, xs = ys ++ x :: zs ∧ st.walk d ys = some i ∧
      ((st.dinodes i).type ≠ .dir ∨ st.lookup i x = none) := by
  constructor
  · intro hnone
    induction xs generalizing d with
    | nil => cases hnone
    | cons x xs ih =>
      by_cases hd : (st.dinodes d).type = .dir
      · rw [walk_cons hd] at hnone
        cases hl : st.lookup d x with
        | none => exact ⟨[], x, xs, d, rfl, rfl, .inr hl⟩
        | some j =>
          rw [hl, Option.bind_some] at hnone
          obtain ⟨ys, y, zs, i, rfl, hi, hy⟩ := ih j hnone
          refine ⟨x :: ys, y, zs, i, rfl, ?_, hy⟩
          rw [walk_cons hd, hl, Option.bind_some, hi]
      · exact ⟨[], x, xs, d, rfl, rfl, .inl hd⟩
  · rintro ⟨ys, x, zs, i, rfl, hi, hx⟩
    rw [walk_append, hi, Option.bind_some, Store.walk]
    rcases hx with hx | hx
    · rw [if_neg hx]
    · rw [hx, Option.bind_none, ite_self]

/-! ## §3 Inodes that go away -/

/-- Some inodes without links have been freed. -/
structure Fades (st st' : Store) : Prop where
  data : st'.data = st.data
  inodes : ∀ i, st'.dinodes i = st.dinodes i ∨
    (st'.dinodes i).type = .free ∧ (st.dinodes i).nlink = 0

theorem Fades.refl : Fades st st := ⟨rfl, fun _ => .inl rfl⟩

theorem Fades.of_eq (h : st' = st) : Fades st st' := h ▸ .refl

theorem Fades.trans {st1 : Store} (h : Fades st st1) (h' : Fades st1 st') : Fades st st' := by
  refine ⟨h'.data.trans h.data, fun i => ?_⟩
  rcases h.inodes i with e | ⟨hf, hn⟩
  · rw [← e]
    exact h'.inodes i
  · rcases h'.inodes i with e | ⟨hf', -⟩
    · exact .inr ⟨e ▸ hf, hn⟩
    · exact .inr ⟨hf', hn⟩

/-- An inode that is still there is as it was. -/
theorem Fades.dinode (h : Fades st st') (hi : (st'.dinodes i).type ≠ .free) :
    st'.dinodes i = st.dinodes i := (h.inodes i).resolve_right fun hf => hi hf.1

theorem Fades.entry (h : Fades st st') (hd : (st'.dinodes d).type ≠ .free) :
    st'.entry d = st.entry d := by
  funext k
  rw [Store.entry, Store.entry, h.dinode hd, h.data]

theorem Fades.find (h : Fades st st') (hd : (st'.dinodes d).type ≠ .free) (x : Name) :
    st'.find d x = st.find d x := by
  have hat : st'.hasAt d x = st.hasAt d x := by
    funext k
    rw [Store.hasAt, Store.hasAt, h.entry hd]
  rw [Store.find, Store.find, hat, h.dinode hd]

theorem iput_fades (h : Table sb g (more c e) s) :
    Meets E (iput e) s fun _ s' =>
      Table sb g c s' ∧ Keeps c s s' ∧ Fades s.store s'.store ∧
      ((s.store.dinodes (s.inum e)).nlink ≠ 0 → s'.store = s.store) := by
  refine (iput_spec h (by simp)).imp fun _ s' ⟨ht, hk, hfreed, hkeep⟩ => ?_
  rw [less_more] at ht hk
  refine ⟨ht, hk, ?_, fun hn => hkeep fun hl => hn hl.2.2⟩
  by_cases hlast : Last (more c e) s e
  · obtain ⟨hdin, hdata⟩ := hfreed hlast
    refine ⟨hdata, fun i => ?_⟩
    rw [hdin]
    by_cases hi : i = s.inum e
    · rw [hi, update_self]
      exact .inr ⟨rfl, hlast.2.2⟩
    · rw [update_of_ne hi]
      exact .inl rfl
  · exact .of_eq (hkeep hlast)

/-- A reference is dropped to an inode that has links. -/
theorem iput_linked (h : Table sb g (more c e) s) (hg : g → s.view.nlink (s.inum e) ≠ 0) :
    Meets E (iput e) s fun _ s' =>
      Table sb g c s' ∧ Keeps c s s' ∧ (g → s'.store = s.store) ∧ Fades s.store s'.store :=
  (iput_fades h).imp fun _ _ ⟨ht, hk, hf, hkeep⟩ => ⟨ht, hk, fun hg' => hkeep (hg hg'), hf⟩

/-! ## §4 `namex` -/

/-- What a walk relies on where `C` holds, and the panics it may come to. -/
structure Guide (g C : Prop) (E : Panic → Prop) (c : Cnt) (st : Store) : Prop where
  calm : g → C
  sound : C → Sound st.view
  noType : ¬ C → E .noType
  read : ∀ {d}, (st.dinodes d).type = .dir → ¬ direntSize ∣ (st.dinodes d).size →
    E .dirlookupRead
  full : ∀ {e}, (∀ a, 0 < more c e a) → E .noInodes

/-- Where a walk has come to, and what it has left behind. -/
structure Came (sb : Superblock) (g C : Prop) (c : Cnt) (np : Bool) (st : Store) (d : Nat)
    (xs : List Name) (s : Fs) (r : Option (Fin ninode × Name)) (s' : Fs) : Prop where
  keeps : Keeps c s s'
  fades : Fades st s'.store
  calm : C → s'.store = st
  result : (r.map fun q => (s'.inum q.1, q.2)) = st.resolve np d xs
  failed : r = none → Table sb g c s'
  reached : ∀ q, r = some q → Table sb g (more c q.1) s' ∧ (C → s'.view.nlink (s'.inum q.1) ≠ 0) ∧
    (np = true → s'.view.type (s'.inum q.1) = .dir)

/-- What was kept before the walk came here. -/
theorem Came.since {r : Option (Fin ninode × Name)} {np : Bool}
    (hk : Keeps c s s1) (h : Came sb g C c np st d xs s1 r s') : Came sb g C c np st d xs s r s' :=
  { h with keeps := hk.trans h.keeps fun _ ha => ha }

/-- A walk that is at table entry `e`. -/
structure At (sb : Superblock) (g C : Prop) (c : Cnt) (st : Store) (e : Fin ninode) (s : Fs) :
    Prop where
  table : Table sb g (more c e) s
  fades : Fades st s.store
  calm : C → s.store = st ∧ st.view.type (s.inum e) ≠ .free ∧ st.view.nlink (s.inum e) ≠ 0

section

variable {np : Bool} (h : At sb g C c st e s)
include h

theorem At.linked (hc : C) : s.view.nlink (s.inum e) ≠ 0 := by
  obtain ⟨hst, -, hn⟩ := h.calm hc
  rw [Fs.view, hst]
  exact hn

/-- The walk ends here without a result. -/
theorem At.stop (hnone : st.resolve np (s.inum e) xs = none) :
    Meets E (do iput e; return none) s (Came sb g C c np st (s.inum e) xs s) := by
  refine (iput_fades h.table).seq fun _ s2 ⟨h2, hk2, hf2, hkeep⟩ => ?_
  refine meets_pure ⟨hk2, h.fades.trans hf2, fun hc => ?_, hnone.symm, fun _ => h2,
    fun q hq => by cases hq⟩
  rw [hkeep (h.linked hc), (h.calm hc).1]

/-- The walk ends here, with `x` left. -/
theorem At.done {x : Name} (hres : st.resolve np (s.inum e) xs = some (s.inum e, x))
    (hdir : np = true → s.view.type (s.inum e) = .dir) :
    Came sb g C c np st (s.inum e) xs s (some (e, x)) s := by
  refine ⟨.refl, h.fades, fun hc => (h.calm hc).1, hres.symm, fun hr => ?_, fun q hq => ?_⟩
  · cases hr
  · cases hq
    exact ⟨h.table, h.linked, hdir⟩

/-- The directory is locked. -/
theorem At.lock (hguide : Guide g C E c st) :
    Meets E (locked e) s fun dp s1 => At sb g C c st e s1 ∧ Keeps c s s1 ∧
      s1.inum e = s.inum e ∧ (s1.itable e).valid = true ∧
      dp = st.dinodes (s1.inum e) ∧ s1.store.dinodes (s1.inum e) = st.dinodes (s1.inum e) ∧
      dp.type ≠ .free := by
  refine (locked_meets h.table (by simp) fun hfree => hguide.noType fun hc => ?_).imp
    fun dp s1 ⟨h1, hk1, hst1, hv1, hdp, hlive⟩ => ?_
  · obtain ⟨hst, ht, -⟩ := h.calm hc
    rw [hst] at hfree
    exact ht hfree
  have hin1 : s1.inum e = s.inum e := hk1.same (by simp)
  subst hdp
  have hsame := h.fades.dinode hlive
  refine ⟨⟨h1, hst1 ▸ h.fades, fun hc => ?_⟩, hk1.mono fun _ => pos_more, hin1, hv1, ?_, ?_, hlive⟩
  · rw [hst1, hin1]
    exact h.calm hc
  · rw [hin1]
    exact hsame
  · rw [hst1, hin1]
    exact hsame

/-- On to the inode that was found. -/
theorem At.next (hguide : Guide g C E c st) {k : Nat} {de : Dirent} {x : Name}
    (hde : st.entry (s.inum e) k = some de) (hhas : de.has x)
    (h2 : Table sb g (more (more c e) a) s2)
    (hk2 : Keeps (more c e) s s2) (hst2 : s2.store = s.store) (hin2 : s2.inum a = de.inum) :
    Meets E (iput e) s2 fun _ s3 =>
      At sb g C c st a s3 ∧ Keeps c s s3 ∧ s3.inum a = de.inum := by
  rw [more_comm] at h2
  refine (iput_fades h2).imp fun _ s3 ⟨h3, hk3, hf3, hkeep⟩ => ?_
  have hin3 : s3.inum a = de.inum := (hk3.same (by simp)).trans hin2
  refine ⟨⟨h3, h.fades.trans (hst2 ▸ hf3), fun hc => ?_⟩,
    (hk2.mono fun _ => pos_more).trans (hk3.mono fun _ => pos_more) fun _ ha => ha, hin3⟩
  obtain ⟨hst, -, hn⟩ := h.calm hc
  rw [hin3]
  refine ⟨(hkeep ?_).trans (hst2.trans hst), (hguide.sound hc).alloc hde hhas.1,
    (hguide.sound hc).linked hde hhas.1⟩
  rw [hst2, hst, hk2.same (by simp)]
  exact hn

end

theorem namexLoop_came (hguide : Guide g C E c st) (np : Bool) (fuel : Nat) :
    ∀ (path : List Byte) {e : Fin ninode} {s : Fs}, path.length < fuel → At sb g C c st e s →
    Meets E (namexLoop sb np fuel path e) s
      (Came sb g C c np st (s.inum e) (names path) s) := by
  induction fuel with
  | zero => exact fun _ _ _ h => absurd h (Nat.not_lt_zero _)
  | succ fuel ih =>
    intro path e s hlen h
    unfold namexLoop
    cases hskip : skipelem path with
    | none =>
      have hnames := skipelem_none hskip
      refine meets_ite (fun hnp => h.stop ?_) fun hnp => meets_pure (h.done ?_ fun hnp' => ?_)
      · rw [hnames]
        exact if_pos hnp
      · rw [hnames]
        exact if_neg hnp
      · exact absurd hnp' hnp
    | some p =>
      obtain ⟨name, rest⟩ := p
      obtain ⟨hnames, hlt, hlast⟩ := skipelem_some hskip
      refine (h.lock hguide).seq fun dp s1 ⟨h1, hk1, hin1, hv1, hdp, hsame, hlive⟩ => ?_
      subst hdp
      rw [← hin1]
      refine Meets.imp ?_ fun r s2 => Came.since hk1
      refine meets_ite (fun hdir => h1.stop ?_) fun hdir => ?_
      · rw [hnames, Store.resolve, if_neg hdir]
      replace hdir := not_not.mp hdir
      have hdir1 : (s1.store.dinodes (s1.inum e)).type = .dir := by rw [hsame, hdir]
      have hres : st.resolve np (s1.inum e) (names path) =
          if np = true ∧ names rest = [] then some (s1.inum e, name)
          else (st.lookup (s1.inum e) name).bind fun i => st.resolve np i (names rest) := by
        rw [hnames, Store.resolve, if_pos hdir]
      refine meets_ite (fun hend => meets_pure (h1.done ?_ fun _ => hdir1)) fun hend => ?_
      · rw [hlast] at hend
        rw [hres, if_pos hend]
      rw [hlast] at hend
      rw [if_neg hend] at hres
      refine (dirlookup_meets h1.table (by simp) hv1 hdir1 (fun hg k de hde h0 => ?_) name
        (fun hd => ?_) hguide.full).seq fun r s2 ⟨hk2, hst2, hr⟩ => ?_
      · have hc := hguide.calm hg
        rw [(h1.calm hc).1] at hde ⊢
        exact (hguide.sound hc).alloc hde h0
      · rw [hsame] at hd
        exact hguide.read hdir hd
      have hfree : (s1.store.dinodes (s1.inum e)).type ≠ .free := by rw [hsame]; exact hlive
      rw [h1.fades.find hfree, h1.fades.entry hfree] at hr
      rcases hr with ⟨rfl, hnone, rfl⟩ | ⟨a, k, de, rfl, hk, hde, hhas, hin2, h2, -⟩
      · refine h1.stop ?_
        rw [hres, lookup_none.mpr hnone, Option.bind_none]
      · rw [lookup_some hk hde, Option.bind_some] at hres
        refine (h1.next hguide hde hhas h2 hk2 hst2 hin2).seq fun _ s3 ⟨h3, hk3, hin3⟩ => ?_
        refine (ih rest (by omega) h3).imp fun r s4 h4 => ?_
        rw [hin3] at h4
        exact { h4.since hk3 with result := h4.result.trans hres.symm }

/-- Where a walk begins. -/
def Fs.start (s : Fs) (cwd : Fin ninode) (path : List Byte) : Nat :=
  if path.head? = some slash then rootino else s.inum cwd

theorem namex_came (h : Table sb g c s) (hguide : Guide g C E c s.store) {cwd : Fin ninode}
    (hcwd : 0 < c cwd)
    (hcalm : C → s.view.type (s.inum cwd) ≠ .free ∧ s.view.nlink (s.inum cwd) ≠ 0) (np : Bool)
    (path : List Byte) :
    Meets E (namex sb cwd np path) s
      (Came sb g C c np s.store (s.start cwd path) (names path) s) := by
  have hwalk : ∀ {e : Fin ninode} {s1 : Fs}, Table sb g (more c e) s1 → Keeps c s s1 →
      s1.store = s.store → s1.inum e = s.start cwd path →
      (C → s.view.type (s1.inum e) ≠ .free ∧ s.view.nlink (s1.inum e) ≠ 0) →
      Meets E (namexLoop sb np (path.length + 1) path e) s1
        (Came sb g C c np s.store (s.start cwd path) (names path) s) := by
    intro e s1 h1 hk1 hst1 hin1 hlive
    rw [← hin1]
    exact (namexLoop_came hguide np _ path (Nat.lt_succ_self _)
      ⟨h1, .of_eq hst1, fun hc => ⟨hst1, hlive hc⟩⟩).imp fun _ _ => Came.since hk1
  unfold namex
  split
  · rename_i hslash
    have hstart : s.start cwd path = rootino := if_pos hslash
    have hroot : C → s.view.type rootino ≠ .free := fun hc hfree => by
      cases hfree.symm.trans (hguide.sound hc).root
    refine (iget_meets h rootino (fun hg => hroot (hguide.calm hg)) fun hall =>
      hguide.full (e := cwd) fun a => pos_more (hall a)).seq fun e s1 hpost => ?_
    obtain ⟨h1, hk, hst, hi, _⟩ := hpost
    refine hwalk h1 hk hst (hi.trans hstart.symm) fun hc => ?_
    rw [Fs.inum, hi]
    exact ⟨hroot hc, (hguide.sound hc).dirs (hguide.sound hc).root⟩
  · rename_i hslash
    have hstart : s.start cwd path = s.inum cwd := if_neg hslash
    refine (idup_spec h hcwd).seq fun e s1 hpost => ?_
    obtain ⟨he, h1, hk, hst, hi⟩ := hpost
    subst he
    refine hwalk h1 hk hst (hi.trans hstart.symm) fun hc => ?_
    rw [Fs.inum, hi]
    exact hcalm hc

end Xv6.Files
