/-
Xv6.Files.LinkTheorems — `sys_link` and `sys_unlink`.

Both end with the inode table as it was, but for the references they were
called with, and with a well-formed tree; after `sys_unlink` there may be a
directory besides that someone still uses, without links (`Grove`).
When such a call gives up it may have done a good part of its work: `sys_link`
has raised a link count, and `dirlink` may have run out of blocks. Then names,
link counts and the set of allocated inodes are as before, except that the call
may have dropped the last reference to an inode that had no links (`Fade`).
§1 frames, §2 what a failed call leaves, §3 the caller, §4 dropping a file,
§5 `sys_link`, §6 `sys_unlink`.
-/
import Xv6.Files.Calls
import Xv6.Files.Tree
import Xv6.Files.Walk

namespace Xv6.Files

open Xv6.Lib Function
open Xv6.Vm (nproc)

variable {sb : Superblock} {g : Prop} {c c' : Cnt} {s s' s1 s2 : Fs} {e e' : Fin ninode}
  {p : Fin nproc} {x : FProc} {v v' w : View} {st st' : Store} {d i k n : Nat} {E : Panic → Prop}
  {dp ip : Fin ninode}

/-! ## §1 Frames -/

/-- Entries in use are of the same inodes, which have the same types. -/
structure Frame (g : Prop) (c : Cnt) (s s' : Fs) : Prop where
  keeps : Keeps c s s'
  types : g → ∀ e, 0 < c e → s'.view.type (s.inum e) = s.view.type (s.inum e)

theorem Frame.refl : Frame g c s s := ⟨.refl, fun _ _ _ => rfl⟩

theorem Frame.trans (h : Frame g c s s1) (h' : Frame g c' s1 s2) (hc : ∀ e, 0 < c e → 0 < c' e) :
    Frame g c s s2 where
  keeps := h.keeps.trans h'.keeps hc
  types hg e he := by
    have h2 := h'.types hg e (hc e he)
    rw [h.keeps.same he] at h2
    rw [h2, h.types hg e he]

theorem Frame.mono (h : Frame g c s s') (hc : ∀ e, 0 < c' e → 0 < c e) : Frame g c' s s' :=
  ⟨h.keeps.mono hc, fun hg e he => h.types hg e (hc e he)⟩

theorem Frame.of_view (hk : Keeps c s s') (hv : g → s'.view = s.view) : Frame g c s s' :=
  ⟨hk, fun hg _ _ => by rw [hv hg]⟩

theorem Frame.of_store (hk : Keeps c s s') (hst : g → s'.store = s.store) : Frame g c s s' :=
  .of_view hk fun hg => view_of_store (hst hg)

theorem Frame.of_more (h : Frame g (more c e) s s') : Frame g c s s' := h.mono fun _ => pos_more

/-- Only the link count of an inode in the table has changed. -/
theorem Frame.change_nlink {m : BitVec 16} {j : Nat} (hv : st.view = s.view.setNlink j m) :
    Frame g c s (s.change e st) :=
  have htype : ∀ i, (st.dinodes i).type = (s.store.dinodes i).type :=
    fun i => congrFun (congrArg View.type hv) i
  ⟨.change c s e htype, fun _ _ _ => htype _⟩

/-- Every directory but the root has links. -/
def Linked (v : View) : Prop := ∀ d, v.type d = .dir → d ≠ rootino → v.nlink d ≠ 0

/-- `w` is the linked part of `v`, which is a tree. The rest is a directory that has been removed
and is still in use; it has no links, and what its entries name are directories. -/
structure LinkedPart (n : Nat) (w v : View) : Prop where
  tree : Tree n none w
  whole : Linked v → w = v
  alloc : ∀ {j}, w.type j ≠ .free → v.type j ≠ .free
  same : ∀ {j}, v.type j ≠ .dir ∨ v.nlink j ≠ 0 → w.type j = v.type j ∧ w.nlink j = v.nlink j
  entry : ∀ {d k de}, w.entry d k = some de → v.entry d k = some de
  names : ∀ {d k j}, v.Names d k j → w.Names d k j ∨ v.type j = .dir

def Grove (n : Nat) (v : View) : Prop := ∃ w, LinkedPart n w v

theorem Tree.grove (h : Tree n none v) : Grove n v :=
  ⟨v, h, fun _ => rfl, fun hj => hj, fun _ => ⟨rfl, rfl⟩, fun he => he, .inl⟩

theorem Grove.tree (h : Grove n v) (hl : Linked v) : Tree n none v := by
  obtain ⟨w, hw⟩ := h
  exact hw.whole hl ▸ hw.tree

/-- The end of a call that was made with `c` references, or of a part of one. -/
structure Done (sb : Superblock) (g : Prop) (c : Cnt) (s s' : Fs) : Prop where
  table : Table sb g c s'
  frame : Frame g c s s'
  tree : g → Grove sb.ninodes s'.view

theorem Done.after (h : Done sb g c s1 s2) (hf : Frame g c s s1) : Done sb g c s s2 :=
  ⟨h.table, hf.trans h.frame fun _ ha => ha, h.tree⟩

/-- Nothing has happened to the disk. -/
theorem Done.same (ht : Table sb g c s') (hk : Keeps c s s') (hst : g → s'.store = s.store)
    (hg : g → Tree sb.ninodes none s.view) : Done sb g c s s' :=
  ⟨ht, .of_store hk hst, fun hg' => view_of_store (hst hg') ▸ (hg hg').grove⟩

/-! ## §2 What a failed call leaves -/

/-- Inode `i` has the type, the link count and the entries it had. -/
structure Untouched (v v' : View) (i : Nat) : Prop where
  type : v'.type i = v.type i
  nlink : v'.nlink i = v.nlink i
  entry : v'.entry i = v.entry i

/-- Inode `i` is as it was, or it is free and was free before or had no links. -/
def Fade (v v' : View) (i : Nat) : Prop :=
  Untouched v v' i ∨ v'.type i = .free ∧ (v.type i = .free ∨ v.nlink i = 0)

theorem Fade.refl (v : View) (i : Nat) : Fade v v i := .inl ⟨rfl, rfl, rfl⟩

theorem Fade.trans (h : Fade v w i) (h' : Fade w v' i) : Fade v v' i := by
  rcases h with hsame | ⟨hfree, hold⟩
  · rcases h' with hsame' | ⟨hfree', hold'⟩
    · exact .inl ⟨hsame'.type.trans hsame.type, hsame'.nlink.trans hsame.nlink,
        hsame'.entry.trans hsame.entry⟩
    · rw [hsame.type, hsame.nlink] at hold'
      exact .inr ⟨hfree', hold'⟩
  · rcases h' with hsame' | ⟨hfree', _⟩
    · exact .inr ⟨hsame'.type.trans hfree, hold⟩
    · exact .inr ⟨hfree', hold⟩

/-- An inode that is still allocated is as it was. -/
theorem Fade.untouched (h : Fade v v' i) (hi : v'.type i ≠ .free) : Untouched v v' i :=
  h.resolve_right fun hf => hi hf.1

theorem Fades.fade (h : Fades st st') (i : Nat) : Fade st.view st'.view i := by
  by_cases hi : (st'.dinodes i).type = .free
  · rcases h.inodes i with heq | ⟨_, hn⟩
    · rw [heq] at hi
      exact .inr ⟨(congrArg Dinode.type heq).trans hi, .inl hi⟩
    · exact .inr ⟨hi, .inr hn⟩
  · exact .inl ⟨congrArg Dinode.type (h.dinode hi), congrArg Dinode.nlink (h.dinode hi), h.entry hi⟩

/-- The end of a call that returns `r`. -/
structure Closed (sb : Superblock) (g : Prop) (c : Cnt) (s : Fs) (r : Int) (s' : Fs) : Prop
    extends Done sb g c s s' where
  undone : r = -1 → ∀ j, Fade s.view s'.view j

theorem Closed.after {r : Int} (h : Closed sb g c s1 r s2) (hf : Frame g c s s1)
    (hfade : ∀ j, Fade s.view s1.view j) : Closed sb g c s r s2 :=
  ⟨h.toDone.after hf, fun hr j => (hfade j).trans (h.undone hr j)⟩

/-- The inodes in use are allocated. -/
def Alive (c : Cnt) (s : Fs) : Prop := ∀ e, 0 < c e → s.view.type (s.inum e) ≠ .free

theorem Alive.mono (h : Alive c s) (hc : ∀ e, 0 < c' e → 0 < c e) : Alive c' s :=
  fun e he => h e (hc e he)

theorem Alive.keeps (h : Alive c s) (hk : Keeps c s s') : Alive c s' := by
  intro e he
  rw [hk.same he]
  show (s'.store.dinodes (s.itable e).inum).type ≠ .free
  rw [hk.type e he (h e he)]
  exact h e he

/-- A locked inode is allocated. -/
theorem Alive.more (h : Alive c s) (ht : Table sb g (more c e) s)
    (hv : (s.itable e).valid = true) : Alive (more c e) s := by
  intro a ha
  by_cases hae : a = e
  · rw [hae]
    exact (ht.sync e (by simp) hv).2
  · rw [more_of_ne hae] at ha
    exact h a ha

/-! ## §3 The caller -/

/-- A process that is about to look up a path. -/
structure Ready (sb : Superblock) (g : Prop) (c : Cnt) (p : Fin nproc) (x : FProc) (s : Fs) :
    Prop where
  table : Table sb g c s
  proc : s.procs p = some x
  cwd : 0 < c x.cwd
  sound : g → Sound s.view
  linked : g → s.view.nlink (s.inum x.cwd) ≠ 0

/-- After a walk to inode `e`, which is now locked. -/
structure Arrived (sb : Superblock) (g : Prop) (c : Cnt) (e : Fin ninode) (s s' : Fs) : Prop where
  table : Table sb g (more c e) s'
  keeps : Keeps c s s'
  store : g → s'.store = s.store
  valid : (s'.itable e).valid = true
  linked : g → s'.view.nlink (s'.inum e) ≠ 0
  fades : Fades s.store s'.store

section

variable (h : Table sb g (more c e) s1) (hk : Keeps c s s1) (hst : g → s1.store = s.store)
  (hl : g → s1.view.nlink (s1.inum e) ≠ 0) (hf : Fades s.store s1.store)
include h hk hst hl hf

theorem ilock_arrived : Meets (Allowed g) (ilock e) s1 fun _ s2 => Arrived sb g c e s s2 := by
  refine (ilock_spec h (by simp)).imp fun _ s2 ⟨h2, hk2, hst2, hv2⟩ => ⟨h2,
    hk.trans hk2 fun _ => pos_more, fun hg => hst2.trans (hst hg), hv2, fun hg => ?_, hst2 ▸ hf⟩
  rw [hk2.same (by simp), view_of_store hst2]
  exact hl hg

theorem locked_arrived : Meets (Allowed g) (locked e) s1 fun dn s2 => Arrived sb g c e s s2 ∧
    dn.type ≠ .free ∧ s2.store.dinodes (s2.inum e) = dn := by
  refine (ilock_arrived h hk hst hl hf).seq fun _ s2 h2 => ?_
  obtain ⟨hcopy, halloc⟩ := h2.table.sync e (by simp) h2.valid
  refine Meets.bind (meets_getInode (meets_pure ⟨h2, ?_, hcopy.symm⟩))
  rw [hcopy]
  exact halloc

end

theorem getProc_spec (hp : s.procs p = some x) {Q : FProc → Fs → Prop} (h : Q x s) :
    Meets E (getProc p) s Q := by
  refine meets_read ?_
  rw [hp]
  exact meets_pure h

section

variable (h : Ready sb g c p x s)
include h

theorem Ready.guide : Guide g g (Allowed g) c s.store where
  calm := id
  sound := h.sound
  noType hno := .noType hno
  read _ _ := .other (by decide)
  full _ := .other (by decide)

theorem Ready.namex (np : Bool) (path : List Byte) : Meets (Allowed g) (namex sb x.cwd np path) s
      (Came sb g g c np s.store (s.start x.cwd path) (names path) s) :=
  namex_came h.table h.guide h.cwd (fun hg => ⟨h.table.live hg x.cwd h.cwd, h.linked hg⟩) np path

theorem nameiparent_spec (path : List Byte) : Meets (Allowed g) (nameiparent sb p path) s
      (Came sb g g c true s.store (s.start x.cwd path) (names path) s) :=
  Meets.bind (getProc_spec h.proc (h.namex true path))

theorem namei_spec (path : List Byte) :
    Meets (Allowed g) (namei sb p path) s fun r s' =>
      Keeps c s s' ∧ (g → s'.store = s.store) ∧ (r = none → Table sb g c s') ∧
      (∀ e, r = some e → Table sb g (more c e) s' ∧ (g → s'.view.nlink (s'.inum e) ≠ 0)) ∧
      Fades s.store s'.store := by
  refine Meets.bind (getProc_spec h.proc ?_)
  refine (h.namex false path).seq fun r s' hc => ?_
  cases r with
  | none => exact meets_pure ⟨hc.keeps, hc.calm, fun _ => hc.failed rfl, nofun, hc.fades⟩
  | some q =>
    refine meets_pure ⟨hc.keeps, hc.calm, nofun, fun e he => ?_, hc.fades⟩
    cases he
    obtain ⟨ht, hl, _⟩ := hc.reached q rfl
    exact ⟨ht, hl⟩

/-- The caller can look up another path, as long as the disk is sound. -/
theorem Ready.step (hk : Keeps c s s') (ht : Table sb g c' s')
    (hc : ∀ e, 0 < c e → 0 < c' e) (hs : g → Sound s'.view)
    (hn : g → s'.view.nlink (s.inum x.cwd) ≠ 0) : Ready sb g c' p x s' where
  table := ht
  proc := hk.procs ▸ h.proc
  cwd := hc _ h.cwd
  sound := hs
  linked hg := by
    rw [hk.same h.cwd]
    exact hn hg

end

/-! ## §4 Dropping a file -/

theorem Freed.view (h : Freed i s s') : s'.view = s.view.free i := view_free h.dinodes h.data

/-- The last reference is gone: entries still in use are of other inodes. -/
theorem Frame.freed (h : Table sb g (more c e) s) (hlast : Last (more c e) s e)
    (hk : Keeps c s s') (hf : Freed (s.inum e) s s') : Frame g c s s' := by
  refine ⟨hk, fun _ a ha => ?_⟩
  have hne : a ≠ e := by
    rintro rfl
    have := hlast.1
    rw [more_self] at this
    omega
  have hin : s.inum a ≠ s.inum e := fun heq => hne (h.uniq a e (pos_more ha) (by simp) heq)
  rw [hf.view, type_free_ne hin]

theorem Tree.good_free (h : Tree n none v) (hg : Good n v) (hi : v.type i ≠ .dir) :
    Good n (v.free i) := by
  have hne : ∀ {j}, (v.free i).type j ≠ .free → j ≠ i := by
    rintro j hj rfl
    exact hj type_free_self
  refine ⟨fun {j} hj => ?_, fun {j} hj hd => ?_⟩
  · have hj' : j ≠ i := hne (by rw [hj]; nofun)
    exact hg.dirs (type_free_ne hj' ▸ hj)
  · have hj' : j ≠ i := hne hj
    rw [h.shape.links_free_file hi]
    exact hg.files (type_free_ne hj' ▸ hj) (type_free_ne hj' ▸ hd)

/-- A reference is dropped; a file without links may go with it. -/
theorem iput_tree (h : Table sb g (more c e) s)
    (hg : g → Tree sb.ninodes none s.view ∧ Good sb.ninodes s.view) :
    Meets E (iput e) s fun _ s' =>
      Table sb g c s' ∧ Frame g c s s' ∧
      (g → Tree sb.ninodes none s'.view ∧ Good sb.ninodes s'.view) ∧ Fades s.store s'.store := by
  refine ((iput_spec h (by simp)).and (iput_fades h)).imp
    fun _ s' ⟨⟨_, _, hfreed, hkeep⟩, ht, hk, hfades, _⟩ => ?_
  by_cases hlast : Last (more c e) s e
  · have hf := hfreed hlast
    refine ⟨ht, .freed h hlast hk hf, fun hg' => ?_, hfades⟩
    obtain ⟨htree, hgood⟩ := hg hg'
    have halloc : s.view.type (s.inum e) ≠ .free := (h.sync e (by simp) hlast.2.1).2
    have hfile : s.view.type (s.inum e) ≠ .dir := fun hd => hgood.dirs hd hlast.2.2
    rw [hf.view]
    exact ⟨htree.freeFile .none hfile ((htree.nlink_eq_zero hgood halloc).mp hlast.2.2).1,
      htree.good_free hgood hfile⟩
  · refine ⟨ht, .of_store hk fun _ => hkeep hlast, fun hg' => ?_, hfades⟩
    rw [view_of_store (hkeep hlast)]
    exact hg hg'

/-- The link count of a locked inode is set. -/
theorem setNlink_spec (h : Table sb g c s) (he : 0 < c e) (hv : (s.itable e).valid = true)
    (f : BitVec 16 → BitVec 16) :
    Meets E (updateInode e fun d => { d with nlink := f d.nlink }) s fun _ s' =>
      Table sb g c s' ∧ Frame g c s s' ∧ s'.inum e = s.inum e ∧ (s'.itable e).valid = true ∧
      s'.view = s.view.setNlink (s.inum e) (f (s.view.nlink (s.inum e))) := by
  refine (updateInode_spec (f := fun d => { d with nlink := f d.nlink }) h he hv
    fun _ => ⟨rfl, rfl, rfl⟩).imp fun _ s' ⟨hs, ht⟩ => ?_
  have hview : (s.store.setDinode (s.inum e) { s.store.dinodes (s.inum e) with
      nlink := f (s.store.dinodes (s.inum e)).nlink }).view =
      s.view.setNlink (s.inum e) (f (s.view.nlink (s.inum e))) := view_setNlink rfl rfl rfl
  subst hs
  exact ⟨ht, .change_nlink hview, inum_change .., by rw [valid_change, hv], hview⟩

theorem Good.setNlink (h : Good n v) (hi : v.type i ≠ .dir) (m : BitVec 16) :
    Good n (v.setNlink i m) := by
  refine ⟨fun {d} hd => ?_, h.files⟩
  have hne : d ≠ i := by
    rintro rfl
    exact hi hd
  rw [nlink_setNlink_ne hne]
  exact h.dirs hd

/-! ## §5 `sys_link` -/

/-- The link count of inode `i` is one ahead. -/
structure Ahead (i : Nat) (v w : View) : Prop where
  others : ∀ j, j ≠ i → Fade v w j
  type : w.type i = v.type i
  nlink : w.nlink i = v.nlink i + 1
  entry : w.entry i = v.entry i

theorem Ahead.start (v : View) (i : Nat) : Ahead i v (v.setNlink i (v.nlink i + 1)) where
  others _ hj := .inl ⟨rfl, nlink_setNlink_ne hj, rfl⟩
  type := rfl
  nlink := nlink_setNlink_self
  entry := rfl

/-- The inode is in use meanwhile, so that nothing happens to it. -/
theorem Ahead.fade (h : Ahead i v w) (hf : ∀ j, Fade w v' j) (hi : v'.type i ≠ .free) :
    Ahead i v v' := by
  have hself := (hf i).untouched hi
  exact ⟨fun j hj => (h.others j hj).trans (hf j), hself.type.trans h.type,
    hself.nlink.trans h.nlink, hself.entry.trans h.entry⟩

/-- One link less, and all is as it was. -/
theorem Ahead.back (h : Ahead i v w) (j : Nat) : Fade v (w.setNlink i (w.nlink i - 1)) j := by
  by_cases hj : j = i
  · subst hj
    refine .inl ⟨h.type, ?_, h.entry⟩
    rw [nlink_setNlink_self, h.nlink, BitVec.add_sub_cancel]
  · exact (h.others j hj).trans (.inl ⟨rfl, nlink_setNlink_ne hj, rfl⟩)

theorem bad_spec (h : Table sb g (more c e) s)
    (hg : g → Tree sb.ninodes (some (s.inum e)) s.view ∧ Good sb.ninodes s.view ∧
      s.view.type (s.inum e) ≠ .dir) :
    Meets (Allowed g) (sysLink.bad e) s fun _ s' =>
      Done sb g c s s' ∧ ∀ v, Ahead (s.inum e) v s.view → ∀ j, Fade v s'.view j := by
  refine (ilock_spec h (by simp)).seq fun _ s1 ⟨h1, hk1, hst1, hv1⟩ => ?_
  refine (setNlink_spec h1 (by simp) hv1 (· - 1)).seq fun _ s2 ⟨h2, hf2, _, _, hview⟩ => ?_
  have hi1 : s1.inum e = s.inum e := hk1.same (by simp)
  have hv : s1.view = s.view := view_of_store hst1
  rw [hi1, hv] at hview
  refine (iput_tree h2 fun hg' => ?_).seq fun _ s3 ⟨h3, hf3, hg3, hfades⟩ => ?_
  · obtain ⟨htree, hgood, hdir⟩ := hg hg'
    rw [hview]
    have halloc : s.view.type (s.inum e) ≠ .free := h.live hg' e (by simp)
    exact ⟨htree.back halloc, hgood.setNlink hdir _⟩
  · have hf1 : Frame g (more c e) s s1 := .of_store hk1 fun _ => hst1
    have hdone : Done sb g c s2 s3 := ⟨h3, hf3, fun hg' => (hg3 hg').1.grove⟩
    refine meets_pure ⟨hdone.after (hf1.trans hf2 fun _ ha => ha).of_more, fun v ha j => ?_⟩
    have hback := ha.back j
    rw [← hview] at hback
    exact hback.trans (hfades.fade j)

/-- A file has no more entries than its blocks can hold. -/
theorem Owned.inside {de : Dirent} (h : Owned sb st.dinodes st) (he : st.view.entry d k = some de) :
    d < sb.ninodes ∧ k < nentries := by
  obtain ⟨hdir, hsize, _⟩ := entry_some he
  have ht : (st.dinodes d).type ≠ .free := by
    rw [hdir]
    nofun
  have hmax := h.size d ht
  refine ⟨(h.inums d ht).2, ?_⟩
  unfold nentries maxfile bsize direntSize ndirect nindirect at *
  omega

/-- An inode number fits in an entry. -/
theorem Owned.inum_mod (h : Owned sb st.dinodes st) (ht : st.view.type i ≠ .free) :
    i % 2 ^ 16 = i ∧ i ≠ 0 := by
  have hi := h.inums i ht
  have := sb.inums
  exact ⟨Nat.mod_eq_of_lt (by omega), by omega⟩

/-- A name that a directory does not have is not "." or "..". -/
theorem Shape.absent_plain (h : Shape n v) (hd : v.type d = .dir) {name : Name}
    (habs : Absent v d name) :
    sameName (nameOf name) dotName ≠ true ∧ sameName (nameOf name) dotdotName ≠ true := by
  rw [sameName_nameOf, sameName_nameOf]
  constructor
  · intro hsame
    obtain ⟨⟨de, he, hin, h0⟩, de', he', hc⟩ := h.dot hd
    rw [he] at he'
    cases he'
    rw [sameName_comm] at hc
    exact habs 0 de he ⟨hin ▸ h0, sameName_trans hsame hc⟩
  · intro hsame
    obtain ⟨⟨q, de, he, hin, h0⟩, de', he', hc⟩ := h.dotdot hd
    rw [he] at he'
    cases he'
    rw [sameName_comm] at hc
    exact habs 1 de he ⟨hin ▸ h0, sameName_trans hsame hc⟩

/-- The part of `sys_link` that writes the entry. -/
theorem linkEntry_spec (h : Table sb g (more (more c ip) dp) s) (hval : (s.itable ip).valid = true)
    (hg : g → Tree sb.ninodes (some (s.inum ip)) s.view ∧ Good sb.ninodes s.view ∧
      s.view.type (s.inum ip) ≠ .dir ∧ s.view.type (s.inum dp) = .dir) (name : Name) :
    Meets (Allowed g) (do
      ilock dp
      let r ← dirlink sb dp name (← getInode ip).inum
      iput dp
      if r < 0 then sysLink.bad ip
      else
        iput ip
        return 0) s fun r s' => Done sb g c s s' ∧
      (r = -1 → ∀ v, Ahead (s.inum ip) v s.view → ∀ j, Fade v s'.view j) := by
  have hpos : 0 < more (more c ip) dp ip := pos_more (by simp)
  refine (ilock_spec h (by simp)).seq fun _ s1 ⟨h1, hk1, hst1, hv1⟩ => ?_
  have hview1 : s1.view = s.view := view_of_store hst1
  have hdp1 : s1.inum dp = s.inum dp := hk1.same (by simp)
  have hip1 : s1.inum ip = s.inum ip := hk1.same hpos
  refine Meets.bind (meets_getInode ?_)
  have hsound : g → Sound s1.view := fun hg' => by
    rw [hview1]
    exact (hg hg').1.sound (hg hg').2.1
  refine (dirlink_spec h1 (by simp) hv1 hsound name _).seq fun r s2 ⟨h2, hk2, hr⟩ => ?_
  have hdp2 : s2.inum dp = s.inum dp := (hk2.same (by simp)).trans hdp1
  have hip2 : s2.inum ip = s.inum ip := (hk2.same hpos).trans hip1
  -- whether or not there is an entry now, types and link counts are as before
  have hfields : g → s2.view.type = s.view.type ∧ s2.view.nlink = s.view.nlink := by
    intro hg'
    rcases hr with ⟨_, hv⟩ | ⟨_, _, k, _, hv⟩
    · rw [hv, hview1]
      exact ⟨rfl, rfl⟩
    · rw [hv, hview1]
      exact ⟨rfl, rfl⟩
  have hf2 : Frame g (more (more c ip) dp) s s2 :=
    ⟨hk1.trans hk2 fun _ ha => ha, fun hg' e _ => by rw [(hfields hg').1]⟩
  refine (iput_linked h2 fun hg' => ?_).seq fun _ s3 ⟨h3, hk3, hst3, hfades3⟩ => ?_
  · rw [(hfields hg').2, hdp2]
    exact (hg hg').2.1.dirs (hg hg').2.2.2
  have hip3 : s3.inum ip = s.inum ip := (hk3.same (by simp)).trans hip2
  have hview3 : g → s3.view = s2.view := fun hg' => view_of_store (hst3 hg')
  have hf3 : Frame g (more c ip) s s3 := hf2.of_more.trans (.of_store hk3 hst3) fun _ ha => ha
  rcases hr with ⟨rfl, hv⟩ | ⟨rfl, habs, k, hvac, hv⟩
  · refine (bad_spec h3 fun hg' => ?_).imp
      fun _ s4 ⟨h4, hback⟩ => ⟨h4.after hf3.of_more, fun _ v ha => hback v ?_⟩
    · rw [hview3 hg', hip3, hv, hview1]
      exact ⟨(hg hg').1, (hg hg').2.1, (hg hg').2.2.1⟩
    · have hused : s3.view.type (s3.inum ip) ≠ .free :=
        (h3.sync ip (by simp) (hf3.keeps.valid ip (by simp) hval)).2
      rw [hip3] at hused ⊢
      rw [← hview1, ← hv] at ha
      exact ha.fade hfades3.fade hused
  · refine (iput_linked h3 fun hg' => ?_).seq fun _ s4 ⟨h4, hk4, hst4, _⟩ => ?_
    · obtain ⟨htree, hgood, _, _⟩ := hg hg'
      rw [hview3 hg', (hfields hg').2, hip3]
      intro hz
      have := (htree.nlink_eq_zero hgood (h.live hg' ip hpos)).mp hz
      rw [lead_self] at this
      exact absurd this.2 (by decide)
    · refine meets_pure ⟨⟨h4, hf3.of_more.trans (.of_store hk4 hst4) fun _ ha => ha,
        fun hg' => ?_⟩, fun hr => absurd hr (by decide)⟩
      obtain ⟨htree, _, hdir, hdp⟩ := hg hg'
      have hview4 : s4.view = s2.view := (view_of_store (hst4 hg')).trans (hview3 hg')
      have halloc : s.view.type (s.inum ip) ≠ .free := h.live hg' ip hpos
      obtain ⟨hmod, h0⟩ := h.owned.inum_mod halloc
      rw [show (s1.itable ip).inum = s.inum ip from hip1, hdp1, hview1, hmod] at hv
      rw [hdp1, hview1] at habs hvac
      have hkn := (h2.owned.inside (hv ▸ entry_setEntry_self ..)).2
      obtain ⟨hdot, hdotdot⟩ := htree.shape.absent_plain hdp habs
      rw [hview4, hv]
      exact (htree.link hdp hkn hvac.1 halloc h0 hdir hdot hdotdot).grove

theorem sysLink_spec (h : Ready sb g c p x s)
    (hg : g → Tree sb.ninodes none s.view ∧ Good sb.ninodes s.view)
    (old new : Option (List Byte)) :
    Meets (Allowed g) (sysLink sb p old new) s fun r s' => Closed sb g c s r s' := by
  unfold sysLink
  split
  case h_2 => exact meets_pure ⟨⟨h.table, .refl, fun hg' => (hg hg').1.grove⟩, fun _ => .refl _⟩
  case h_1 old new _ _ =>
  refine (namei_spec h old).seq fun r s1 ⟨hk1, hst1, hnone, hsome, hfades1⟩ => ?_
  cases r with
  | none =>
    exact meets_pure ⟨.same (hnone rfl) hk1 hst1 fun hg' => (hg hg').1, fun _ => hfades1.fade⟩
  | some ip =>
    obtain ⟨h1, hl1⟩ := hsome ip rfl
    refine (locked_arrived h1 hk1 hst1 hl1 hfades1).seq fun dn s2 ⟨hs2, halloc, hdn⟩ => ?_
    obtain ⟨h2, hk2, hst2, hv2, hl2, hfades2⟩ := hs2
    have hf2 : Frame g c s s2 := .of_store hk2 hst2
    have hview2 : g → s2.view = s.view := fun hg' => view_of_store (hst2 hg')
    have htype : s2.view.type (s2.inum ip) = dn.type := congrArg Dinode.type hdn
    by_cases hdir : dn.type = .dir
    · rw [if_pos hdir]
      refine (iput_linked h2 hl2).seq fun _ s3 ⟨h3, hk3, hst3, hfades3⟩ => ?_
      refine meets_pure (Closed.after ⟨.same h3 hk3 hst3 fun hg' => ?_, fun _ => hfades3.fade⟩
        hf2 hfades2.fade)
      rw [hview2 hg']
      exact (hg hg').1
    · rw [if_neg hdir]
      refine (setNlink_spec h2 (by simp) hv2 (· + 1)).seq fun _ s3 ⟨h3, hf3, hip3, hv3, hview⟩ => ?_
      have hahead : Ahead (s3.inum ip) s2.view s3.view := by
        rw [hview, hip3]
        exact .start ..
      have hg3 : g → Tree sb.ninodes (some (s3.inum ip)) s3.view ∧ Good sb.ninodes s3.view ∧
          s3.view.type (s3.inum ip) ≠ .dir := fun hg' => by
        have hgood : Good sb.ninodes s2.view := hview2 hg' ▸ (hg hg').2
        have htree : Tree sb.ninodes none s2.view := hview2 hg' ▸ (hg hg').1
        rw [hip3, hview]
        exact ⟨htree.ahead (htype ▸ halloc), hgood.setNlink (htype ▸ hdir) _, htype ▸ hdir⟩
      have hf : Frame g c s s3 := hf2.trans hf3.of_more fun _ ha => ha
      have hready : Ready sb g (more c ip) p x s3 := by
        refine h.step hf.keeps h3 (fun _ => pos_more) (fun hg' => (hg3 hg').1.sound (hg3 hg').2.1)
          fun hg' hz => ?_
        by_cases heq : s.inum x.cwd = s3.inum ip
        · rw [heq] at hz
          have hlive := h3.live hg' ip (by simp)
          have := ((hg3 hg').1.nlink_eq_zero (hg3 hg').2.1 hlive).mp hz
          rw [lead_self] at this
          exact absurd this.2 (by decide)
        · rw [hview, nlink_setNlink_ne (hip3 ▸ heq), hview2 hg'] at hz
          exact h.linked hg' hz
      refine (nameiparent_spec hready new).seq
        fun r s4 ⟨hk4, hfades4, hst4, _, hnone4, hsome4⟩ => ?_
      have hip4 : s4.inum ip = s3.inum ip := hk4.same (by simp)
      have hv4 := hk4.valid ip (by simp) hv3
      have hahead4 : s4.view.type (s4.inum ip) ≠ .free →
          Ahead (s4.inum ip) s2.view s4.view := fun hused => by
        rw [hip4] at hused ⊢
        exact hahead.fade hfades4.fade hused
      have hf4 : Frame g c s s4 := hf.trans (Frame.of_store hk4 hst4).of_more fun _ ha => ha
      have hview4 : g → s4.view = s3.view := fun hg' => view_of_store (hst4 hg')
      cases r with
      | none =>
        have h4 := hnone4 rfl
        have hundo := hahead4 (h4.sync ip (by simp) hv4).2
        refine (bad_spec h4 fun hg' => ?_).imp fun _ s5 ⟨h5, hback⟩ =>
          ⟨h5.after hf4, fun _ j => (hfades2.fade j).trans (hback _ hundo j)⟩
        rw [hip4, hview4 hg']
        exact hg3 hg'
      | some q =>
        obtain ⟨h4, _, hdp⟩ := hsome4 q rfl
        have hundo := hahead4 (h4.sync ip (pos_more (by simp)) hv4).2
        refine (linkEntry_spec h4 hv4 (fun hg' => ?_) q.2).imp fun _ s5 ⟨h5, hback⟩ =>
          ⟨h5.after hf4, fun hr j => (hfades2.fade j).trans (hback hr _ hundo j)⟩
        obtain ⟨htree, hgood, hfile⟩ := hg3 hg'
        rw [hip4, ← hview4 hg'] at *
        exact ⟨htree, hgood, hfile, hdp rfl⟩

/-! ## §6 `sys_unlink` -/

/-- What `sys_unlink` does for entry `k` of directory `d`, which names inode
`i`, before it drops `d`, -/
def View.clear (v : View) (d k i : Nat) : View :=
  if v.type i = .dir then (v.setEntry d k ⟨0, []⟩).setNlink d (v.nlink d - 1)
  else v.setEntry d k ⟨0, []⟩

/-- and before it drops `i`. -/
def View.unlink (v : View) (d k i : Nat) : View := (v.clear d k i).setNlink i (v.nlink i - 1)

theorem clear_file (hi : v.type i ≠ .dir) : v.clear d k i = v.setEntry d k ⟨0, []⟩ := if_neg hi

theorem clear_dir (hi : v.type i = .dir) :
    v.clear d k i = (v.setEntry d k ⟨0, []⟩).setNlink d (v.nlink d - 1) := if_pos hi

theorem type_clear : (v.clear d k i).type = v.type := by
  unfold View.clear
  split <;> rfl

theorem type_unlink : (v.unlink d k i).type = v.type := type_clear

/-- What there is to know about the entry before it is removed. -/
structure Removable (n : Nat) (v : View) (d k i : Nat) : Prop where
  tree : Tree n none v
  good : Good n v
  two : 2 ≤ k
  names : v.Names d k i
  empty : v.type i = .dir → v.Empty i

section

variable (h : Removable n v d k i)
include h

theorem Removable.ne (hi : v.type i = .dir) : d ≠ i := by
  rintro rfl
  exact h.empty hi k _ h.two h.names

theorem Removable.good_clear : Good n (v.setEntry d k ⟨0, []⟩) := by
  refine ⟨h.good.dirs, fun {j} hj hdir => ?_⟩
  have hle := h.good.files hj hdir
  rw [h.tree.shape.links_clear h.names (by have := h.two; omega) j] at hle
  omega

theorem Removable.tree_file (hi : v.type i ≠ .dir) : Tree n none (v.unlink d k i) := by
  unfold View.unlink
  rw [clear_file hi]
  exact (h.tree.unlink h.two h.names hi).back (h.tree.shape.alloc h.names)

theorem Removable.nlink_dir (hi : v.type i = .dir) : (v.unlink d k i).nlink i = 0 := by
  unfold View.unlink
  rw [nlink_setNlink_self, h.tree.nlink_empty h.two h.names hi (h.empty hi)]
  rfl

/-- The inode goes with its last link. -/
theorem Removable.tree_free (hz : (v.unlink d k i).nlink i = 0) :
    Tree n none ((v.unlink d k i).free i) := by
  by_cases hi : v.type i = .dir
  · unfold View.unlink
    rw [clear_dir hi]
    exact h.tree.rmdir h.two h.names hi (h.empty hi)
  · have htree := h.tree_file hi
    have hgood : Good n (v.unlink d k i) := by
      unfold View.unlink
      rw [clear_file hi]
      exact h.good_clear.setNlink hi _
    have halloc : (v.unlink d k i).type i ≠ .free := by
      rw [type_unlink]
      exact h.tree.shape.alloc h.names
    have hdir : (v.unlink d k i).type i ≠ .dir := by
      rw [type_unlink]
      exact hi
    exact htree.freeFile .none hdir ((htree.nlink_eq_zero hgood halloc).mp hz).1

/-- The parent of a directory has another link. -/
theorem Removable.parent (hi : v.type i = .dir) : v.nlink d - 1 ≠ 0 := by
  have hdi := h.ne hi
  have htree := h.tree_free (h.nlink_dir hi)
  have hd : ((v.unlink d k i).free i).type d = .dir := by
    rw [type_free_ne hdi, type_unlink]
    exact h.tree.shape.isdir h.names
  have hnlink : ((v.unlink d k i).free i).nlink d = v.nlink d - 1 := by
    show ((v.clear d k i).setNlink i _).nlink d = _
    rw [nlink_setNlink_ne hdi, clear_dir hi, nlink_setNlink_self]
  rw [← hnlink]
  exact htree.nlink_dir hd

/-- The rest is a tree also where the inode stays. -/
theorem Removable.grove : Grove n (v.unlink d k i) := by
  by_cases hi : v.type i = .dir
  · have hz := h.nlink_dir hi
    have hshape := h.tree.shape
    have htype : (v.unlink d k i).type i = .dir := (congrFun type_unlink i).trans hi
    refine ⟨(v.unlink d k i).free i, h.tree_free hz, fun hl => ?_, fun {j} hj => ?_,
      fun {j} hj => ?_, fun {a b de} he => ?_, fun {a b j} hn => ?_⟩
    · exact absurd hz (hl i htype (hshape.parent h.two h.names hi).1)
    · have hne : j ≠ i := fun e => hj (e ▸ type_free_self)
      rwa [type_free_ne hne] at hj
    · have hne : j ≠ i := by
        rintro rfl
        exact hj.elim (fun hd => hd htype) fun hl => hl hz
      exact ⟨type_free_ne hne, rfl⟩
    · have hne : a ≠ i := by
        rintro rfl
        cases (entry_free_self ..).symm.trans he
      rwa [entry_free_ne _ hne] at he
    · by_cases hne : a = i
      · subst hne
        -- the first two entries are all it has, for itself and for its parent
        have hold : v.Names a b j := by
          unfold View.unlink at hn
          rw [clear_dir hi] at hn
          exact (names_setEntry_zero.mp hn).2
        rw [type_unlink]
        have hb : b < 2 := Nat.lt_of_not_le fun hb => h.empty hi b j hb hold
        obtain rfl | rfl : b = 0 ∨ b = 1 := by omega
        · rw [hold.inj (hshape.dot hi).1]
          exact .inr hi
        · rw [hold.inj (hshape.parent h.two h.names hi).2]
          exact .inr (hshape.isdir h.names)
      · exact .inl (names_free.mpr ⟨hne, hn⟩)
  · exact (h.tree_file hi).grove

/-- Neither drop comes too early. -/
theorem Removable.nlink_clear :
    (v.clear d k i).nlink d ≠ 0 ∧ (v.clear d k i).nlink i = v.nlink i := by
  by_cases hi : v.type i = .dir
  · rw [clear_dir hi, nlink_setNlink_self, nlink_setNlink_ne (h.ne hi).symm]
    exact ⟨h.parent hi, rfl⟩
  · rw [clear_file hi]
    exact ⟨h.good.dirs (h.tree.shape.isdir h.names), rfl⟩

end

/-- The end of `sys_unlink`, once the entry is clear. -/
theorem dropBoth_spec (h : Table sb g (more (more c dp) ip) s) (hv : (s.itable ip).valid = true)
    (hg : g → Removable sb.ninodes v (s.inum dp) k (s.inum ip) ∧
      s.view = v.clear (s.inum dp) k (s.inum ip)) :
    Meets E (do
      iput dp
      updateInode ip fun d => { d with nlink := d.nlink - 1 }
      iput ip) s fun _ s' => Done sb g c s s' := by
  rw [more_comm] at h
  refine (iput_linked h fun hg' => ?_).seq fun _ s1 ⟨h1, hk1, hst1, _⟩ => ?_
  · rw [(hg hg').2]
    exact (hg hg').1.nlink_clear.1
  have hip1 : s1.inum ip = s.inum ip := hk1.same (by simp)
  refine (setNlink_spec h1 (by simp) (hk1.valid ip (by simp) hv) (· - 1)).seq
    fun _ s2 ⟨h2, hf2, hip2, _, hview⟩ => ?_
  have hf : Frame g c s s2 := ((Frame.of_store hk1 hst1).trans hf2 fun _ ha => ha).of_more
  have hview2 : g → s2.view = v.unlink (s.inum dp) k (s.inum ip) := fun hg' => by
    obtain ⟨hrem, hclear⟩ := hg hg'
    rw [hview, hip1, view_of_store (hst1 hg'), hclear, hrem.nlink_clear.2]
    rfl
  refine (iput_spec h2 (by simp)).imp fun _ s3 ⟨h3, hk3, hfreed, hkeep⟩ => ?_
  rw [less_more] at h3 hk3
  by_cases hlast : Last (more c ip) s2 ip
  · refine Done.after ⟨h3, .freed h2 hlast hk3 (hfreed hlast), fun hg' => ?_⟩ hf
    have hz : s2.view.nlink (s2.inum ip) = 0 := hlast.2.2
    have hin : s2.inum ip = s.inum ip := hip2.trans hip1
    rw [hin, hview2 hg'] at hz
    rw [(hfreed hlast).view, hview2 hg']
    exact hin ▸ ((hg hg').1.tree_free hz).grove
  · refine Done.after ⟨h3, .of_store hk3 fun _ => hkeep hlast, fun hg' => ?_⟩ hf
    rw [view_of_store (hkeep hlast), hview2 hg']
    exact (hg hg').1.grove

theorem removeEntry_spec (h : Table sb g (more (more c dp) ip) s) (hdv : (s.itable dp).valid = true)
    (hiv : (s.itable ip).valid = true) (hdir : (s.store.dinodes (s.inum dp)).type = .dir)
    (hg : g → Removable sb.ninodes s.view (s.inum dp) k (s.inum ip)) {isDir : Bool}
    (hisDir : isDir = true ↔ s.view.type (s.inum ip) = .dir) :
    Meets (Allowed g) (removeEntry sb dp ip (k * direntSize) isDir) s
      fun _ s' => Done sb g c s s' := by
  have hdp : 0 < more (more c dp) ip dp := pos_more (by simp)
  have hip : 0 < more (more c dp) ip ip := by simp
  refine (writeEntry_spec h hdp hdv hdir k (by decide)).seq fun r s1 ⟨h1, hk1, _, hr⟩ => ?_
  rcases hr with ⟨hr, _⟩ | ⟨hr, _, hview1, _⟩
  · rw [if_pos hr]
    exact meets_throw (.other (by decide))
  rw [if_neg (not_not_intro hr)]
  have hf1 : Frame g (more (more c dp) ip) s s1 := ⟨hk1, fun _ _ _ => by rw [hview1]; rfl⟩
  have hdv1 := hk1.valid dp hdp hdv
  have hiv1 := hk1.valid ip hip hiv
  have hdp1 : s1.inum dp = s.inum dp := hk1.same hdp
  have hip1 : s1.inum ip = s.inum ip := hk1.same hip
  cases isDir with
  | false =>
    refine (dropBoth_spec (v := s.view) (k := k) h1 hiv1 fun hg' => ?_).imp
      fun _ s2 h2 => h2.after hf1.of_more.of_more
    rw [hdp1, hip1, hview1, clear_file fun ht => nomatch hisDir.mpr ht]
    exact ⟨hg hg', rfl⟩
  | true =>
    refine (setNlink_spec h1 hdp hdv1 (· - 1)).seq fun _ s2 ⟨h2, hf2, hdp2, _, hview2⟩ => ?_
    have hf : Frame g c s s2 := (hf1.trans hf2 fun _ ha => ha).of_more.of_more
    refine (dropBoth_spec (v := s.view) (k := k) h2 (hf2.keeps.valid ip hip hiv1) fun hg' => ?_).imp
      fun _ s3 h3 => h3.after hf
    rw [hdp2, hdp1, hf2.keeps.same hip, hip1, hview2, hdp1, hview1, clear_dir (hisDir.mp rfl)]
    exact ⟨hg hg', rfl⟩

/-- The first two entries have the names that `sys_unlink` refuses. -/
theorem Shape.two_le_of_has (h : Shape n v) (hd : v.type d = .dir) {de : Dirent} {name : Name}
    (he : v.entry d k = some de) (hhas : de.has name)
    (hname : ¬ (sameName name dotName = true ∨ sameName name dotdotName = true)) : 2 ≤ k := by
  by_contra hk
  have h01 : k = 0 ∨ k = 1 := by omega
  rcases h01 with rfl | rfl
  · obtain ⟨_, de', he', hcalled⟩ := h.dot hd
    cases he.symm.trans he'
    exact hname (.inl (sameName_trans hhas.2 hcalled))
  · obtain ⟨_, de', he', hcalled⟩ := h.dotdot hd
    cases he.symm.trans he'
    exact hname (.inr (sameName_trans hhas.2 hcalled))

/-- `sys_unlink` once it knows whether a directory is empty. -/
theorem unlinkEmpty_spec (h : Table sb g (more (more c dp) ip) s) (hdv : (s.itable dp).valid = true)
    (hiv : (s.itable ip).valid = true) (hdir : (s.store.dinodes (s.inum dp)).type = .dir)
    (hn : s.view.Names (s.inum dp) k (s.inum ip))
    (hg : g → Tree sb.ninodes none s.view ∧ Good sb.ninodes s.view ∧ 2 ≤ k) (empty isDir : Bool)
    (hempty : empty = true → s.view.type (s.inum ip) = .dir → s.view.Empty (s.inum ip))
    (hisDir : isDir = true ↔ s.view.type (s.inum ip) = .dir) :
    Meets (Allowed g) (if ¬ empty then do
        iput ip
        iput dp
        return (-1 : Int)
      else do
        removeEntry sb dp ip (k * direntSize) isDir
        return 0) s fun r s' => Closed sb g c s r s' := by
  cases empty with
  | false =>
    refine (iput_linked h fun hg' => ?_).seq fun _ s1 ⟨h1, hk1, hst1, hfades1⟩ => ?_
    · obtain ⟨htree, hgood, _⟩ := hg hg'
      exact htree.nlink_ne_zero hgood hn
    refine (iput_linked h1 fun hg' => ?_).seq fun _ s2 ⟨h2, hk2, hst2, hfades2⟩ => ?_
    · rw [hk1.same (by simp), view_of_store (hst1 hg')]
      exact (hg hg').2.1.dirs hdir
    · exact meets_pure ⟨.same h2 ((hk1.mono fun _ => pos_more).trans hk2 fun _ ha => ha)
        (fun hg' => (hst2 hg').trans (hst1 hg')) fun hg' => (hg hg').1,
        fun _ => (hfades1.trans hfades2).fade⟩
  | true =>
    refine (removeEntry_spec h hdv hiv hdir (fun hg' => ?_) hisDir).seq
      fun _ s3 h3 => meets_pure ⟨h3, fun hr => absurd hr (by decide)⟩
    obtain ⟨htree, hgood, hk⟩ := hg hg'
    exact ⟨htree, hgood, hk, hn, hempty rfl⟩

/-- `sys_unlink` once it has found the entry. -/
theorem unlinkFound_spec (h : Table sb g (more (more c dp) ip) s) (hdv : (s.itable dp).valid = true)
    (hdir : (s.store.dinodes (s.inum dp)).type = .dir) (hn : s.view.Names (s.inum dp) k (s.inum ip))
    (hg : g → Tree sb.ninodes none s.view ∧ Good sb.ninodes s.view ∧ 2 ≤ k) :
    Meets (Allowed g) (do
      let d ← locked ip
      if d.nlink.toInt < 1 then throw .unlinkNlink
      else
        let empty ← if d.type = .dir then isdirempty sb ip else pure true
        if ¬ empty then
          iput ip
          iput dp
          return -1
        else
          removeEntry sb dp ip (k * direntSize) (d.type = .dir)
          return 0) s fun r s' => Closed sb g c s r s' := by
  have hdp : 0 < more (more c dp) ip dp := pos_more (by simp)
  have hip : 0 < more (more c dp) ip ip := by simp
  refine (locked_spec h hip).seq fun dn s1 ⟨h1, hk1, hst1, hv1, hdn, halloc⟩ => ?_
  have hview1 : s1.view = s.view := view_of_store hst1
  have hdp1 : s1.inum dp = s.inum dp := hk1.same hdp
  have hip1 : s1.inum ip = s.inum ip := hk1.same hip
  have htype : s1.view.type (s1.inum ip) = dn.type := by
    rw [hip1, hview1, hdn]
    rfl
  have hf1 : Frame g c s s1 := (Frame.of_store hk1 fun _ => hst1).of_more.of_more
  split
  case isTrue hlt =>
    refine meets_throw ⟨nofun, fun hg' => ⟨nofun, fun _ => ?_⟩, by decide⟩
    obtain ⟨htree, hgood, hk⟩ := hg hg'
    have hpos := htree.shape.links_pos hn (by omega)
    have hint := htree.nlink_toInt hgood (htree.shape.alloc hn)
    have hnl : s.view.nlink (s.inum ip) = dn.nlink := by
      rw [hdn]
      rfl
    rw [hnl] at hint
    omega
  case isFalse =>
  have hrest := fun empty hempty => (unlinkEmpty_spec (k := k) h1 (hk1.valid dp hdp hdv) hv1
    (hdp1 ▸ hst1 ▸ hdir) (hdp1 ▸ hip1 ▸ hview1 ▸ hn) (hview1 ▸ hg) empty (dn.type = .dir)
    hempty (by rw [htype, decide_eq_true_iff])).imp
      fun _ s2 h2 => h2.after hf1 fun j => hview1 ▸ .refl _ j
  split
  case isTrue hd =>
    refine (isdirempty_spec h1 hip hv1 (htype.trans hd)).seq fun r s' ⟨hs, hr⟩ => ?_
    subst hs
    refine hrest r ?_
    rintro hr' _ l j hl ⟨de, he, rfl, h0⟩
    exact h0 (hr hr' l de hl he)
  case isFalse hd => exact Meets.bind (meets_pure (hrest true fun _ hd' => absurd (htype ▸ hd') hd))

theorem sysUnlink_spec (h : Ready sb g c p x s)
    (hg : g → Tree sb.ninodes none s.view ∧ Good sb.ninodes s.view) (path : Option (List Byte)) :
    Meets (Allowed g) (sysUnlink sb p path) s fun r s' => Closed sb g c s r s' := by
  unfold sysUnlink
  split
  case h_1 =>
    exact meets_pure ⟨.same h.table .refl (fun _ => rfl) fun hg' => (hg hg').1, fun _ => .refl _⟩
  case h_2 path _ =>
  refine (nameiparent_spec h path).seq fun r s1 ⟨hk1, hfades1, hst1, _, hnone, hsome⟩ => ?_
  cases r with
  | none =>
    exact meets_pure ⟨.same (hnone rfl) hk1 hst1 fun hg' => (hg hg').1, fun _ => hfades1.fade⟩
  | some q =>
    obtain ⟨dp, name⟩ := q
    obtain ⟨h1, hl1, _⟩ := hsome _ rfl
    refine (ilock_arrived h1 hk1 hst1 hl1 hfades1).seq
      fun _ s2 ⟨h2, hk, hst, hv2, hl2, hfades2⟩ => ?_
    have hg2 : g → Tree sb.ninodes none s2.view ∧ Good sb.ninodes s2.view := fun hg' => by
      rw [view_of_store (hst hg')]
      exact hg hg'
    -- `iput(dp)` and return -1
    have hput : ∀ s3, s3 = s2 → Meets (Allowed g) (do
        iput dp
        return (-1 : Int)) s3 fun r s' => Closed sb g c s r s' := by
      rintro s3 rfl
      refine (iput_linked h2 hl2).seq fun _ s4 ⟨h4, hk4, hst4, hfades4⟩ => ?_
      exact meets_pure ⟨.same h4 (hk.trans hk4 fun _ ha => ha)
        (fun hg' => (hst4 hg').trans (hst hg')) fun hg' => (hg hg').1,
        fun _ => (hfades2.trans hfades4).fade⟩
    split
    case isTrue => exact hput s2 rfl
    case isFalse hname =>
    refine (dirlookup_spec h2 (by simp) hv2 (fun hg' => (hg2 hg').1.sound (hg2 hg').2) name).seq
      fun r s3 ⟨hk3, hst3, hdir3, hnone3, hsome3⟩ => ?_
    cases r with
    | none => exact hput s3 (hnone3 rfl).1
    | some q =>
      obtain ⟨ip, off⟩ := q
      obtain ⟨h3, k, de, hoff, he, hin, hhas⟩ := hsome3 ip off rfl
      subst hoff
      have hdp3 : s3.inum dp = s2.inum dp := hk3.same (by simp)
      have hview3 : s3.view = s2.view := view_of_store hst3
      refine (unlinkFound_spec (k := k) h3 (hk3.valid dp (by simp) hv2) ?_ ?_ fun hg' => ?_).imp
        fun _ s4 h4 => h4.after ((Frame.of_store hk hst).trans
          (Frame.of_store hk3 fun _ => hst3).of_more fun _ ha => ha) fun j =>
            hview3 ▸ hfades2.fade j
      · rw [hdp3, hst3]
        exact hdir3
      · rw [hdp3, hview3, ← hin]
        exact ⟨de, he, rfl, hhas.1⟩
      · rw [hview3]
        exact ⟨(hg2 hg').1, (hg2 hg').2, (hg2 hg').1.shape.two_le_of_has hdir3 he hhas hname⟩

end Xv6.Files
