/-
Xv6.Files.Paths — which inode a path names.

`namei` comes to the inode at the end of the walk along a path; `nameiparent`
stops before the last name, if that is in a directory. Both take one reference,
to the inode that they return, and in a well-formed tree neither of them
panics.
-/
import Mathlib.Algebra.BigOperators.Fin
import Xv6.Files.Safety

namespace Xv6.Files

open Xv6.Lib
open Xv6.Vm (nproc)

variable {sb : Superblock} {c : Cnt} {s s' : Fs} {st : Store} {e : Fin ninode} {d w : Nat}

/-! ## §1 Calm states -/

/-- A state in which nothing can go wrong on the way: entries are for allocated inodes with
links, directories end with an entry, `w` is the current directory, and the table has two free
entries. -/
structure Calm (c : Cnt) (st : Store) (w : Nat) : Prop where
  sound : Sound st.view
  cwd : (st.dinodes w).type = .dir
  aligned : ∀ d, (st.dinodes d).type = .dir → direntSize ∣ (st.dinodes d).size
  room : ∃ a b, a ≠ b ∧ c a = 0 ∧ c b = 0

theorem Calm.vacant (h : Calm c st w) (e : Fin ninode) : ¬ ∀ a, 0 < more c e a := by
  intro hall
  obtain ⟨a, b, hab, ha, hb⟩ := h.room
  by_cases hae : a = e
  · have hbe : b ≠ e := fun h => hab (hae.trans h.symm)
    have := hall b
    rw [more_of_ne hbe] at this
    omega
  · have := hall a
    rw [more_of_ne hae] at this
    omega

/-- The other way round: what goes wrong does so in a state that is not calm. -/
theorem Calm.guide : Guide False (Calm c st w) (fun _ => ¬ Calm c st w) c st where
  calm := False.elim
  sound hc := hc.sound
  noType hno := hno
  read hd hnd hc := hnd (hc.aligned _ hd)
  full hall hc := hc.vacant _ hall

theorem namex_calm (h : Table sb False c s) {cwd : Fin ninode} (hcwd : 0 < c cwd) (np : Bool)
    (path : List Byte) :
    Meets (fun _ => ¬ Calm c s.store (s.inum cwd)) (namex sb cwd np path) s
      (Came sb False (Calm c s.store (s.inum cwd)) c np s.store (s.start cwd path) (names path)
        s) := by
  refine namex_came h Calm.guide hcwd (fun hc => ⟨?_, hc.sound.dirs hc.cwd⟩) np path
  rw [show s.view.type (s.inum cwd) = .dir from hc.cwd]
  rintro ⟨⟩

/-! ## §2 References -/

/-- The references to inode `i`. -/
def Fs.refsTo (s : Fs) (i : Nat) : Nat := ∑ e, if s.inum e = i then (s.itable e).ref else 0

/-- Only the inode that is returned has one more reference. -/
theorem Came.refsTo {np : Bool} {xs : List Name} {r : Option (Fin ninode × Name)}
    {C : Prop} (h : Table sb False c s) (hc : Came sb False C c np st d xs s r s') (i : Nat) :
    s'.refsTo i = s.refsTo i + if (r.map fun q => s'.inum q.1) = some i then 1 else 0 := by
  -- entries in use are for the same inodes as before
  have hsame : ∀ a, (if s'.inum a = i then c a else 0) = if s.inum a = i then (s.itable a).ref else
    0 := by
    intro a
    rw [h.refs]
    rcases Nat.eq_zero_or_pos (c a) with h0 | hpos
    · rw [h0, ite_self, ite_self]
    · rw [hc.keeps.same hpos]
  cases r with
  | none =>
    rw [Option.map_none, if_neg (by rintro ⟨⟩), Nat.add_zero]
    refine Finset.sum_congr rfl fun a _ => ?_
    rw [(hc.failed rfl).refs, hsame]
  | some q =>
    have ht := (hc.reached q rfl).1
    simp only [Option.map_some, Option.some.injEq]
    have hone : (if s'.inum q.1 = i then 1 else 0) =
        ∑ a, if a = q.1 then (if s'.inum a = i then 1 else 0) else 0 := by
      rw [Finset.sum_ite_eq' Finset.univ q.1, if_pos (Finset.mem_univ _)]
    rw [hone, Fs.refsTo, Fs.refsTo, ← Finset.sum_add_distrib]
    refine Finset.sum_congr rfl fun a _ => ?_
    rw [ht.refs, ← hsame]
    unfold more
    by_cases ha : a = q.1
    · by_cases hi : s'.inum a = i
      · simp [ha, ha ▸ hi]
      · simp [ha, ha ▸ hi]
    · simp [ha]

/-- A process in a state of the system. -/
structure Caller (sb : Superblock) where
  fs : Fs
  p : Fin nproc
  proc : FProc
  inv : Inv sb False fs
  running : fs.procs p = some proc

/-- The first process, after boot. -/
def bootCaller (im : Image sb) : Caller sb where
  fs := boot im.store
  p := initproc
  proc := ⟨rootEntry, fun _ => none⟩
  inv := boot_inv im False.elim
  running := rfl

/-- The inode that the caller's walks along a path begin with. -/
def Caller.start (u : Caller sb) (path : List Byte) : Nat := u.fs.start u.proc.cwd path

/-- Nothing can go wrong on the way. -/
abbrev Caller.Calm (u : Caller sb) : Prop :=
  Files.Calm (refs u.fs.held) u.fs.store (u.fs.inum u.proc.cwd)

theorem namei_came (u : Caller sb) (path : List Byte) :
    Meets (fun _ => ¬ u.Calm) (namei sb u.p path) u.fs fun r s' =>
      (r.map s'.inum) = u.fs.store.walk (u.start path) (names path) ∧
      ∀ i, s'.refsTo i = u.fs.refsTo i + if (r.map s'.inum) = some i then 1 else 0 := by
  have ht := u.inv.table
  refine Meets.bind (getProc_spec u.running ?_)
  refine (namex_calm ht (held_pos (held_cwd u.running)) false path).seq fun r s' hc => ?_
  have hresult := hc.result
  rw [resolve_namei] at hresult
  have hrefs := hc.refsTo ht
  cases r with
  | none =>
    refine meets_pure ⟨?_, hrefs⟩
    exact (Option.map_eq_none_iff.mp hresult.symm).symm
  | some q =>
    refine meets_pure ⟨?_, hrefs⟩
    obtain ⟨i, hi, hq⟩ := Option.map_eq_some_iff.mp hresult.symm
    rw [show u.fs.store.walk (u.start path) (names path) = some i from hi, (Prod.mk.inj hq).1]
    rfl

theorem nameiparent_came (u : Caller sb) (path : List Byte) :
    Meets (fun _ => ¬ u.Calm) (nameiparent sb u.p path) u.fs fun r s' =>
      (r.map fun q => (s'.inum q.1, q.2)) = ((names path).getLast?.bind fun x =>
        (u.fs.store.walk (u.start path) (names path).dropLast).bind fun i =>
          if (u.fs.store.dinodes i).type = .dir then some (i, x) else none) ∧
      ∀ i, s'.refsTo i = u.fs.refsTo i + if (r.map fun q => s'.inum q.1) = some i then 1 else
        0 := by
  have ht := u.inv.table
  refine Meets.bind (getProc_spec u.running ?_)
  refine (namex_calm ht (held_pos (held_cwd u.running)) true path).imp fun r s' hc =>
    ⟨hc.result.trans ?_, hc.refsTo ht⟩
  rcases List.eq_nil_or_concat (names path) with hnil | ⟨xs, x, hx⟩
  · rw [hnil]
    rfl
  · rw [hx, List.concat_eq_append, resolve_nameiparent, List.getLast?_append, List.dropLast_concat]
    rfl

/-- It is so after boot, in a file system without files. -/
theorem boot_calm (hsize : sb.nmeta < sb.size) :
    (bootCaller (rootVolume sb hsize).toImage).Calm := by
  show Calm (refs (boot (rootStore sb)).held) (rootStore sb) rootino
  have hroot : (rootStore sb).view.type rootino = .dir := by
    rfl
  have hlink : (rootStore sb).view.nlink rootino ≠ 0 := by
    show (1 : BitVec 16) ≠ 0
    decide
  have hself : ∀ {d k de}, (rootStore sb).view.entry d k = some de → de.inum = rootino := by
    intro d k de hde
    rcases (rootStore_entry hde).2 with ⟨-, rfl⟩ | ⟨-, rfl⟩
    · rfl
    · rfl
  have honly : ∀ {d}, (rootStore sb).view.type d = .dir → d = rootino := by
    intro d hd
    have hused : ((rootStore sb).dinodes d).type ≠ .free := by
      rw [show ((rootStore sb).dinodes d).type = .dir from hd]
      rintro ⟨⟩
    exact rootStore_type hused
  refine ⟨⟨fun hde _ => ?_, fun hde _ => ?_, fun hd => ?_, hroot⟩, hroot, fun d hd => ?_, ?_⟩
  · rw [hself hde, hroot]
    rintro ⟨⟩
  · rw [hself hde]
    exact hlink
  · rw [honly hd]
    exact hlink
  · rw [honly hd, rootStore_root]
    exact Nat.dvd_mul_left ..
  · refine ⟨⟨1, by decide⟩, ⟨2, by decide⟩, by decide, ?_, ?_⟩
    · rw [boot_refs, if_neg (by decide)]
    · rw [boot_refs, if_neg (by decide)]

/-- In every state, a path is the list of its names; `namei` folds lookups over them, and fails
where a name is not there or not in a directory; `nameiparent` returns the directory that all
names but the last lead to, if it is one. The inode that is returned has one more reference,
and no other. There is no panic in a well-formed tree with room in the table. -/
theorem paths_fold_lookups (u : Caller sb) (path : List Byte) :
    elements (path.length + 1) path = names path ∧
    (Meets (fun _ => ¬ u.Calm) (namei sb u.p path) u.fs fun r s' =>
      (r.map s'.inum) = u.fs.store.walk (u.start path) (names path) ∧
      (r = none ↔ ∃ xs x ys i, names path = xs ++ x :: ys ∧
        u.fs.store.walk (u.start path) xs = some i ∧
        ((u.fs.store.dinodes i).type ≠ .dir ∨ u.fs.store.lookup i x = none)) ∧
      ∀ i, s'.refsTo i = u.fs.refsTo i + if (r.map s'.inum) = some i then 1 else 0) ∧
    Meets (fun _ => ¬ u.Calm) (nameiparent sb u.p path) u.fs fun r s' =>
      (names path = [] → r = none) ∧
      (∀ xs x, names path = xs ++ [x] →
        (r.map fun q => (s'.inum q.1, q.2)) = (u.fs.store.walk (u.start path) xs).bind fun i =>
          if (u.fs.store.dinodes i).type = .dir then some (i, x) else none) ∧
      (∀ q, r = some q → u.fs.store.walk (u.start path) (names path) =
        u.fs.store.lookup (s'.inum q.1) q.2) ∧
      ∀ i, s'.refsTo i = u.fs.refsTo i + if (r.map fun q => s'.inum q.1) = some i then 1 else
        0 := by
  refine ⟨elements_names _ path (Nat.lt_succ_self _), (namei_came u path).imp ?_,
    (nameiparent_came u path).imp ?_⟩
  · rintro r s' ⟨hr, hrefs⟩
    refine ⟨hr, ?_, hrefs⟩
    rw [← walk_eq_none, ← hr, Option.map_eq_none_iff]
  · rintro r s' ⟨hr, hrefs⟩
    have hlast : ∀ xs x, names path = xs ++ [x] →
        (r.map fun q => (s'.inum q.1, q.2)) = (u.fs.store.walk (u.start path) xs).bind fun i =>
          if (u.fs.store.dinodes i).type = .dir then some (i, x) else none := by
      intro xs x hx
      rw [hr, hx, List.getLast?_append, List.dropLast_concat]
      rfl
    refine ⟨fun hnil => ?_, hlast, fun q hq => ?_, hrefs⟩
    · rw [hnil] at hr
      exact Option.map_eq_none_iff.mp hr
    · rcases List.eq_nil_or_concat (names path) with hnil | ⟨xs, x, hx⟩
      · rw [hnil, hq] at hr
        cases hr
      · rw [List.concat_eq_append] at hx
        have h := (hlast xs x hx).symm
        rw [hq, Option.map_some, Option.bind_eq_some_iff] at h
        obtain ⟨i, hi, hdir⟩ := h
        by_cases hd : (u.fs.store.dinodes i).type = .dir
        · rw [if_pos hd, Option.some.injEq, Prod.mk.injEq] at hdir
          rw [hx, walk_append, hi, Option.bind_some, walk_cons hd, ← hdir.1, ← hdir.2]
          cases u.fs.store.lookup i x with
          | none => rfl
          | some j => rfl
        · rw [if_neg hd] at hdir
          cases hdir

/-- A path through a file: "/f/a". -/
def throughFile : List Byte := [slash, 0x66, slash, 0x61]

/-- All names but the last lead to the file, and `nameiparent` does not return it. -/
theorem nameiparent_through_file :
    ∃ s s', (run .mkfs [(initproc, .open (path [nameF]) 0x202)]).run (boot mkfsVolume.store) =
        .ok ((), s) ∧
      names throughFile = [nameF, nameA] ∧ s.store.walk rootino [nameF] = some 2 ∧
      (nameiparent .mkfs initproc throughFile).run s = .ok (none, s') := by
  obtain ⟨⟨⟩, s, hrun, htest⟩ := run_of_endsIn (show endsIn
    (run .mkfs [(initproc, .open (path [nameF]) 0x202)]) (boot mkfsVolume.store)
    (fun _ s => decide (s.store.walk rootino [nameF] = some 2) &&
      endsIn (nameiparent .mkfs initproc throughFile) s fun r _ => r.isNone) = true by
        decide +kernel)
  rw [Bool.and_eq_true, decide_eq_true_eq] at htest
  obtain ⟨r, s', hrun', hr⟩ := run_of_endsIn htest.2
  rw [Option.isNone_iff_eq_none] at hr
  subst hr
  exact ⟨s, s', hrun, by decide +kernel, htest.1, hrun'⟩

end Xv6.Files
