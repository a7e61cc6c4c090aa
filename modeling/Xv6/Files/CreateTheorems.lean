/-
Xv6.Files.CreateTheorems — `create`, as `sys_open`, `sys_mkdir` and `sys_mknod`
call it.

A new inode has no name for a while: it is in the table, its link count says
1, and the tree has to do without it. `create` then gives it a name, or frees
it again when the disk is full.
§1 the new inode, §2 giving up, §3 "." and "..", §4 the name.
-/
import Xv6.Files.LinkTheorems

namespace Xv6.Files

open Xv6.Lib Function
open Xv6.Vm (nproc)

variable {sb : Superblock} {g : Prop} {c c' : Cnt} {s s' s1 s2 : Fs} {e e' : Fin ninode}
  {p : Fin nproc} {x : FProc} {v w : View} {d i j k n : Nat} {type : FileType} {E : Panic → Prop}
  {dp ip : Fin ninode} {name : Name} {s0 : Fs}

/-! ## §1 The new inode -/

/-- `ialloc` has taken inode `i`. -/
def Fs.alloc (s : Fs) (i : Nat) (type : FileType) : Fs :=
  { s with store := s.store.setDinode i { Dinode.zero with type := type } }

/-- A view with a new inode that is not linked in yet. -/
abbrev View.fresh (v : View) (i : Nat) (type : FileType) : View := (v.alloc i type).setNlink i 1

theorem view_fsAlloc (s : Fs) (i : Nat) (type : FileType) :
    (s.alloc i type).view = s.view.alloc i type := view_alloc type

theorem nlink_fresh_ne (h : j ≠ i) : (v.fresh i type).nlink j = v.nlink j := by
  rw [nlink_setNlink_ne h]
  exact update_of_ne h ..

theorem dinodes_alloc_ne (h : j ≠ i) : (s.alloc i type).store.dinodes j = s.store.dinodes j :=
  update_of_ne h ..

/-- After `ialloc` the table is as good as before, but the new inode has no
links and no reference. -/
theorem Table.alloc (h : Table sb g c s) (hi : s.view.type i = .free)
    (hown : Owned sb (s.alloc i type).store.dinodes (s.alloc i type).store) :
    Table sb False c (s.alloc i type) where
  owned := hown
  refs := h.refs
  sync e he hv := by
    obtain ⟨hcopy, htype⟩ := h.sync e he hv
    have hne : s.inum e ≠ i := by
      rintro rfl
      exact htype hi
    have hsame : (s.alloc i type).store.dinodes (s.inum e) = s.store.dinodes (s.inum e) :=
      dinodes_alloc_ne hne
    exact ⟨hcopy.trans hsame.symm, fun hfree => htype (hsame ▸ hfree)⟩
  uniq := h.uniq
  live := False.elim
  orphans := False.elim

/-- Once the new inode has a link and a reference, the table is good again. -/
theorem Table.fresh (h : Table sb g c s) (h' : Table sb False (more c e) s') (hk : Keeps c s s')
    (hc : g → c e = 0) (hin : s'.inum e = i) (htype : type ≠ .free)
    (hview : s'.view = s.view.fresh i type) : Table sb g (more c e) s' := by
  have hself : s'.view.type i = type := by
    rw [hview]
    exact type_alloc_self
  have hother : ∀ j, j ≠ i → s'.view.type j = s.view.type j ∧ s'.view.nlink j = s.view.nlink j :=
    fun j hj => by
      rw [hview]
      exact ⟨type_alloc_ne hj, nlink_fresh_ne hj⟩
  refine { h' with live := fun hg a ha => ?_, orphans := fun hg j hj hz => ?_ }
  · show s'.view.type (s'.inum a) ≠ .free
    by_cases hai : s'.inum a = i
    · rw [hai, hself]
      exact htype
    · have hne : a ≠ e := by
        rintro rfl
        exact hai hin
      rw [more_of_ne hne] at ha
      rw [(hother _ hai).1, hk.same ha]
      exact h.live hg a ha
  · have hji : j ≠ i := by
      rintro rfl
      have hone : s'.view.nlink j = 1 := by
        rw [hview]
        exact nlink_setNlink_self
      rw [show (s'.store.dinodes j).nlink = 1 from hone] at hz
      exact absurd hz (by decide)
    have hj' : s.view.type j ≠ .free := (hother j hji).1 ▸ hj
    have hz' : s.view.nlink j = 0 := (hother j hji).2 ▸ hz
    obtain ⟨a, ha, hv, hin'⟩ := h.orphans hg j hj' hz'
    exact ⟨a, pos_more ha, hk.valid a ha hv, (hk.inum a ha).trans hin'⟩

/-- `iget`, `ilock` and the first `iupdate` of `create`. -/
theorem newInode_spec (h : Table sb g c s) (hi : s.view.type i = .free) (htype : type ≠ .free)
    (hown : Owned sb (s.alloc i type).store.dinodes (s.alloc i type).store)
    (major minor : BitVec 16) (hE : E .noInodes) {α : Type} {k : Fin ninode → F α}
    {Q : α → Fs → Prop} (hk : ∀ e s', Table sb g (more c e) s' → Keeps c s s' → s'.inum e = i →
      (s'.itable e).valid = true → s'.view = s.view.fresh i type →
      ((∀ a, 0 < c a → s.inum a ≠ i) → c e = 0) → Meets E (k e) s' Q) :
    Meets E (do
      let ip ← iget i
      ilock ip
      updateInode ip fun d => { d with major := major, minor := minor, nlink := 1 }
      k ip) (s.alloc i type) Q := by
  have h0 := h.alloc hi hown
  refine (iget_meets h0 i False.elim fun _ => hE).seq
    fun e s1 ⟨h1, hk1, hst1, hin1, hfresh, _⟩ => ?_
  have hself : s1.view.type i = type := by
    rw [view_of_store hst1, view_fsAlloc]
    exact type_alloc_self
  refine (ilock_meets h1 (by simp) fun hfree => ?_).seq fun _ s2 ⟨h2, hk2, hst2, hv2⟩ => ?_
  · rw [hin1] at hfree
    exact absurd (hself.symm.trans hfree) htype
  refine (updateInode_spec (f := fun d => { d with major := major, minor := minor, nlink := 1 })
    h2 (by simp) hv2 fun _ => ⟨rfl, rfl, rfl⟩).seq fun _ s3 ⟨hs3, h3⟩ => ?_
  have hin2 : s2.inum e = i := (hk2.same (by simp)).trans hin1
  have hview2 : s2.view = s.view.alloc i type :=
    (view_of_store hst2).trans ((view_of_store hst1).trans (view_fsAlloc ..))
  have hkeeps : Keeps c s s3 := by
    have hk0 : Keeps c s s1 := Keeps.store hk1 fun a _ hused => by
      have hne : (s.itable a).inum ≠ i := fun heq => hused (heq ▸ hi)
      exact update_of_ne hne ..
    have hk3 : Keeps (more c e) s2 s3 := by
      rw [hs3]
      exact .change _ s2 e (type_update rfl)
    exact hk0.trans ((hk2.trans hk3 fun _ ha => ha).mono fun _ => pos_more) fun _ ha => ha
  have hview3 : s3.view = s.view.fresh i type := by
    have hset : s3.view = s2.view.setNlink i 1 := by
      rw [hs3, ← hin2]
      exact view_setNlink rfl rfl rfl
    rw [hset, hview2]
  have hin3 : s3.inum e = i := by
    rw [hs3]
    exact (inum_change ..).trans hin2
  have hc : g → c e = 0 := fun hg => hfresh fun e' he' heq =>
    h.live hg e' he' (show s.view.type _ = _ from (congrArg s.view.type heq).trans hi)
  refine hk e s3 (h.fresh h3 hkeeps hc hin3 htype hview3) hkeeps hin3 ?_ hview3 hfresh
  rw [hs3, valid_change]
  exact hv2

/-! ## §2 Giving up -/

/-- View `w` is view `v` with another inode `i`. -/
structure Adds (i : Nat) (v w : View) : Prop where
  free : v.type i = .free
  none : ∀ k, v.entry i k = none
  type : ∀ {j}, j ≠ i → w.type j = v.type j
  nlink : ∀ {j}, j ≠ i → w.nlink j = v.nlink j
  entry : ∀ {j}, j ≠ i → w.entry j = v.entry j

theorem Adds.fresh {st : Store} (h : st.view.type i = .free) (type : FileType) :
    Adds i st.view (st.view.fresh i type) where
  free := h
  none := entry_none fun hd => nomatch h.symm.trans hd
  type := type_alloc_ne
  nlink := nlink_fresh_ne
  entry hj := entry_alloc_ne _ hj type

theorem Adds.setEntry (h : Adds i v w) (k : Nat) (de : Dirent) : Adds i v (w.setEntry i k de) :=
  { h with entry := fun hj => (entry_setEntry_dir w hj k de).trans (h.entry hj) }

theorem Adds.setNlink (h : Adds i v w) (m : BitVec 16) : Adds i v (w.setNlink i m) :=
  { h with nlink := fun hj => (nlink_setNlink_ne hj).trans (h.nlink hj) }

theorem Adds.release (h : Adds i v w) : Adds i v (w.free i) :=
  { h with
    type := fun hj => (type_free_ne hj).trans (h.type hj)
    entry := fun hj => (entry_free_ne w hj).trans (h.entry hj) }

theorem Adds.ne (h : Adds i v w) (hj : v.type j ≠ .free) : j ≠ i := by
  rintro rfl
  exact hj h.free

/-- While the inode has no entries of its own, names are as before. -/
theorem Adds.names (h : Adds i v w) (hw : ∀ k, w.entry i k = Option.none) :
    w.Names d k j ↔ v.Names d k j := by
  unfold View.Names
  by_cases hd : d = i
  · subst hd
    rw [hw, h.none]
  · rw [h.entry hd]

/-- Entries in use are not of the new inode. -/
theorem Frame.adds (ht : Table sb g c s) (hk : Keeps c s s') (h : g → Adds i s.view s'.view) :
    Frame g c s s' :=
  ⟨hk, fun hg e he => (h hg).type ((h hg).ne (ht.live hg e he))⟩

/-- A free inode has nothing to do with the tree. -/
theorem Adds.tree (h : Adds i v w) (hi : w.type i = .free) (hw : ∀ k, w.entry i k = Option.none)
    (ht : Tree n Option.none v) (hg : Good n v) : Tree n Option.none w ∧ Good n w := by
  have hdir : ∀ {j}, w.type j = .dir ↔ v.type j = .dir := by
    intro j
    by_cases hj : j = i
    · subst hj
      rw [hi, h.free]
    · rw [h.type hj]
  have hne : ∀ {j}, w.type j ≠ .free → j ≠ i := by
    rintro j hj rfl
    exact hj hi
  have hlinks : ∀ j, w.links n j = v.links n j := fun j => links_congr fun _ => h.names hw
  refine ⟨⟨ht.shape.retype (h.names hw) (fun {d k x} hd => ?_) hdir fun hn => ?_, fun j hj => ?_⟩,
    fun {j} hd => ?_, fun {j} hj hd => ?_⟩
  · have hd' : d ≠ i := h.ne (by rw [hd]; nofun)
    unfold View.Called
    rw [h.entry hd']
  · rw [h.type (h.ne (ht.shape.alloc hn))]
    exact ht.shape.alloc hn
  · rw [h.nlink (hne hj), hlinks]
    exact ht.law j (h.type (hne hj) ▸ hj)
  · rw [h.nlink (h.ne (by rw [hdir.mp hd]; nofun))]
    exact hg.dirs (hdir.mp hd)
  · rw [hlinks]
    exact hg.files (h.type (hne hj) ▸ hj) fun hd' => hd (hdir.mpr hd')

/-- What `create` knows while it has inode `ip` without a name. -/
structure Pending (sb : Superblock) (c : Cnt) (v : View) (dp ip : Fin ninode) (s : Fs) : Prop where
  tree : Tree sb.ninodes none v
  good : Good sb.ninodes v
  adds : Adds (s.inum ip) v s.view
  dir : v.type (s.inum dp) = .dir
  first : more c dp ip = 0

/-- The inode loses its link and its only reference, and is free again. -/
theorem dropNew_spec (h : Table sb g (more c e) s) (hv : (s.itable e).valid = true) {α : Type}
    {k : F α} {Q : α → Fs → Prop} (hk : ∀ s', Table sb g c s' → Keeps c s s' →
      (c e = 0 → s'.view = (s.view.setNlink (s.inum e) 0).free (s.inum e)) → Meets E k s' Q) :
    Meets E (do
      updateInode e fun d => { d with nlink := 0 }
      iput e
      k) s Q := by
  have he : 0 < more c e e := by simp
  refine (setNlink_spec h he hv fun _ => 0).seq fun _ s1 ⟨h1, hf1, hin1, hv1, hview1⟩ => ?_
  refine (iput_spec h1 he).seq fun _ s2 ⟨h2, hk2, hfreed, _⟩ => ?_
  rw [less_more] at h2 hk2
  refine hk s2 h2 ((hf1.keeps.mono fun _ => pos_more).trans hk2 fun _ ha => ha) fun hc => ?_
  have hlast : Last (more c e) s1 e := by
    refine ⟨by rw [more_self, hc], hv1, ?_⟩
    show s1.view.nlink (s1.inum e) = 0
    rw [hin1, hview1, nlink_setNlink_self]
  rw [(hfreed hlast).view, hview1]
  exact congrArg _ hin1

/-- Without the new inode everything is as it was. -/
theorem Adds.undone (h : Adds i v w) (hi : w.type i = .free) (j : Nat) : Fade v w j := by
  by_cases hj : j = i
  · subst hj
    exact .inr ⟨hi, .inl h.free⟩
  · exact .inl ⟨h.type hj, h.nlink hj, h.entry hj⟩

/-! ## §3 "." and ".." -/

theorem Sound.setEntry (h : Sound v) {de : Dirent}
    (hde : de.inum ≠ 0 → v.type de.inum ≠ .free ∧ v.nlink de.inum ≠ 0) :
    Sound (v.setEntry d k de) := by
  have hentry : ∀ {a b de'}, (v.setEntry d k de).entry a b = some de' → de'.inum ≠ 0 →
      v.type de'.inum ≠ .free ∧ v.nlink de'.inum ≠ 0 := by
    intro a b de' he h0
    by_cases hab : a = d ∧ b = k
    · obtain ⟨rfl, rfl⟩ := hab
      rw [entry_setEntry_self] at he
      cases he
      exact hde h0
    · rw [entry_setEntry_other hab] at he
      exact ⟨h.alloc he h0, h.linked he h0⟩
  exact ⟨fun he h0 => (hentry he h0).1, fun he h0 => (hentry he h0).2, h.dirs, h.root⟩

theorem Adds.sound (h : Adds i v w) (hv : Sound v) (hw : ∀ k, w.entry i k = Option.none)
    (hn : w.nlink i ≠ 0) : Sound w := by
  have hold : ∀ {a b de}, w.entry a b = some de → v.entry a b = some de := by
    intro a b de he
    by_cases ha : a = i
    · subst ha
      rw [hw] at he
      cases he
    · rwa [h.entry ha] at he
  have hne : ∀ {a b de}, w.entry a b = some de → de.inum ≠ 0 → de.inum ≠ i := fun he h0 =>
    h.ne (hv.alloc (hold he) h0)
  refine ⟨fun he h0 => ?_, fun he h0 => ?_, fun {d} hd => ?_, ?_⟩
  · rw [h.type (hne he h0)]
    exact hv.alloc (hold he) h0
  · rw [h.nlink (hne he h0)]
    exact hv.linked (hold he) h0
  · by_cases hdi : d = i
    · exact hdi ▸ hn
    · rw [h.nlink hdi]
      exact hv.dirs (h.type hdi ▸ hd)
  · rw [h.type (h.ne (by rw [hv.root]; nofun))]
    exact hv.root

/-- The first entry of a directory without entries, -/
theorem FirstVacant.zero (h : FirstVacant v d k) (hv : ∀ l, v.entry d l = none) : k = 0 := by
  by_contra hk
  obtain ⟨de, he, _⟩ := h.2 0 (by omega)
  rw [hv] at he
  cases he

/-- and the next one. -/
theorem FirstVacant.one {de : Dirent} (h : FirstVacant (v.setEntry d 0 de) d k)
    (hv : ∀ l, v.entry d l = none) (hde : de.inum ≠ 0) : k = 1 := by
  have h0 : k ≠ 0 := by
    rintro rfl
    exact hde (h.1 de (entry_setEntry_self ..))
  by_contra hk
  obtain ⟨de', he, _⟩ := h.2 1 (by omega)
  rw [entry_setEntry_ne v (by decide), hv] at he
  cases he

def View.dots (v : View) (d i : Nat) : View :=
  (v.setEntry i 0 ⟨i, nameOf dotName⟩).setEntry i 1 ⟨d, nameOf dotdotName⟩

/-- Only entries of the new directory change, whether or not there is room. -/
theorem linkDots_spec (h : Table sb g c s) (hdp : 0 < c dp) (hip : 0 < c ip)
    (hv : (s.itable ip).valid = true)
    (hg : g → Sound s.view ∧ (∀ k, s.view.entry (s.inum ip) k = none) ∧
      s.view.nlink (s.inum ip) ≠ 0 ∧ s.view.nlink (s.inum dp) ≠ 0) :
    Meets (Allowed g) (linkDots sb dp ip) s fun ok s' =>
      Table sb g c s' ∧ Keeps c s s' ∧
      (∀ v, Adds (s.inum ip) v s.view → Adds (s.inum ip) v s'.view) ∧
      (g → ok = true → s'.view = s.view.dots (s.inum dp) (s.inum ip) ∧ Sound s'.view) := by
  refine Meets.bind (meets_getInode ?_)
  refine (dirlink_spec h hip hv (fun hg' => (hg hg').1) dotName _).seq fun r s1 ⟨h1, hk1, hr⟩ => ?_
  rcases hr with ⟨rfl, hview⟩ | ⟨rfl, _, k, hvac, hview⟩
  · refine meets_pure ⟨h1, hk1, fun v hadds => ?_, fun _ => nofun⟩
    rw [hview]
    exact hadds
  · have hdp1 : s1.inum dp = s.inum dp := hk1.same hdp
    have hip1 : s1.inum ip = s.inum ip := hk1.same hip
    have hfirst : g → s1.view = s.view.setEntry (s.inum ip) 0 ⟨s.inum ip, nameOf dotName⟩ :=
      fun hg' => by
        have hmod := (h.owned.inum_mod (h.live hg' ip hip)).1
        rw [hview, hvac.zero (hg hg').2.1, hmod]
    have hsound1 : g → Sound s1.view := fun hg' => by
      rw [hfirst hg']
      exact (hg hg').1.setEntry fun _ => ⟨h.live hg' ip hip, (hg hg').2.2.1⟩
    refine Meets.bind (meets_getInode ?_)
    refine (dirlink_spec h1 hip (hk1.valid ip hip hv) hsound1 dotdotName _).seq
      fun r s2 ⟨h2, hk2, hr⟩ => meets_pure ⟨h2, hk1.trans hk2 fun _ ha => ha, ?_⟩
    rcases hr with ⟨rfl, hview2⟩ | ⟨rfl, _, l, hvac2, hview2⟩
    · refine ⟨fun v hadds => ?_, fun _ => nofun⟩
      rw [hview2, hview]
      exact hadds.setEntry _ _
    · refine ⟨fun v hadds => ?_, fun hg' _ => ?_⟩
      · rw [hview2, hip1, hview]
        exact (hadds.setEntry _ _).setEntry _ _
      obtain ⟨hmod, _⟩ := h.owned.inum_mod (h.live hg' dp hdp)
      obtain ⟨_, hip0⟩ := h.owned.inum_mod (h.live hg' ip hip)
      have hsecond : s2.view = s.view.dots (s.inum dp) (s.inum ip) := by
        rw [hip1, hfirst hg'] at hvac2
        rw [hview2, hip1, hfirst hg', hvac2.one (hg hg').2.1 hip0,
          show (s1.itable dp).inum = s.inum dp from hdp1, hmod]
        rfl
      rw [hsecond]
      refine ⟨rfl, ?_⟩
      have hsound := hsound1 hg'
      rw [hfirst hg'] at hsound
      exact hsound.setEntry fun _ => ⟨h.live hg' dp hdp, (hg hg').2.2.2⟩

/-! ## §4 The name -/

/-- The tree before the new inode gets its name, -/
def View.started (v : View) (d i : Nat) (type : FileType) : View :=
  if type = .dir then (v.fresh i type).dots d i else v.fresh i type

/-- and after that. -/
def View.named (v : View) (d k i : Nat) (type : FileType) (name : Name) : View :=
  if type = .dir then
    ((v.started d i type).setEntry d k ⟨i, name⟩).setNlink d (v.nlink d + 1)
  else (v.started d i type).setEntry d k ⟨i, name⟩

theorem started_dir : v.started d i .dir = (v.fresh i .dir).dots d i := if_pos rfl

theorem started_file (h : type ≠ .dir) : v.started d i type = v.fresh i type := if_neg h

theorem named_dir : v.named d k i .dir name =
    ((v.started d i .dir).setEntry d k ⟨i, name⟩).setNlink d (v.nlink d + 1) := if_pos rfl

theorem named_file (h : type ≠ .dir) :
    v.named d k i type name = (v.started d i type).setEntry d k ⟨i, name⟩ := if_neg h

theorem Tree.named (h : Tree n none v) (hi : v.type i = .free) (hi0 : i ≠ 0) (hin : i < n)
    (hd : v.type d = .dir) (hvac : Vacant v d k) (hkn : k < nentries) (habs : Absent v d name)
    (htype : type ≠ .free) :
    Tree n none (v.named d k i type (nameOf name)) := by
  obtain ⟨hdot, hdotdot⟩ := h.shape.absent_plain hd habs
  have hdi : d ≠ i := by
    rintro rfl
    exact nomatch hi.symm.trans hd
  by_cases ht : type = .dir
  · subst ht
    exact h.mkdir hi hi0 hin hd hvac hkn (by decide) (by decide) hdot hdotdot
  · rw [named_file ht, started_file ht]
    have hentry : (v.fresh i type).entry d = v.entry d := entry_alloc_ne v hdi type
    have hself : (v.fresh i type).type i = type := type_alloc_self
    refine Tree.link (h.newFile hi ht) ((type_alloc_ne hdi).trans hd) hkn ?_
      (fun hf => htype (hself.symm.trans hf)) hi0 (fun hf => ht (hself.symm.trans hf)) hdot hdotdot
    intro de he
    rw [hentry] at he
    exact hvac de he

theorem type_named_ne (h : j ≠ i) : (v.named d k i type name).type j = v.type j := by
  unfold View.named View.started
  split <;> exact type_alloc_ne h

theorem type_named_self : (v.named d k i type name).type i = type := by
  unfold View.named View.started
  split <;> exact type_alloc_self

theorem nlink_named_self (h : i ≠ d) : (v.named d k i type name).nlink i = 1 := by
  unfold View.named View.started
  split
  · exact (nlink_setNlink_ne h).trans nlink_setNlink_self
  · exact nlink_setNlink_self

/-- `create` returns inode `e`. -/
structure Made (sb : Superblock) (g : Prop) (c : Cnt) (type : FileType) (s : Fs) (e : Fin ninode)
    (s' : Fs) : Prop where
  table : Table sb g (more c e) s'
  frame : Frame g c s s'
  tree : g → Tree sb.ninodes none s'.view
  valid : (s'.itable e).valid = true
  linked : g → s'.view.nlink (s'.inum e) ≠ 0
  file : g → type = .file → s'.view.type (s'.inum e) ≠ .dir

def Created (sb : Superblock) (g : Prop) (c : Cnt) (type : FileType) (s : Fs)
    (r : Option (Fin ninode)) (s' : Fs) : Prop :=
  (r = none → Done sb g c s s') ∧ ∀ e, r = some e → Made sb g c type s e s'

/-- A `create` that fails leaves the names of view `v` alone. -/
def Undone (v : View) (r : Option (Fin ninode)) (s' : Fs) : Prop :=
  r = none → ∀ j, Fade v s'.view j

theorem Created.none (h : Done sb g c s s') : Created sb g c type s none s' := ⟨fun _ => h, nofun⟩

theorem Created.some (h : Made sb g c type s e s') : Created sb g c type s (some e) s' :=
  ⟨nofun, fun _ he => by cases he; exact h⟩

/-- `create` gives up, and no trace of a new inode is left. -/
theorem fail_spec (h0 : Table sb g c s0) (hk : Keeps c s0 s)
    (h : Table sb g (more (more c dp) ip) s) (hv : (s.itable ip).valid = true)
    (hg : g → Pending sb c s0.view dp ip s) :
    Meets E (create.fail ip dp) s fun r s' => Created sb g c type s0 r s' ∧
      ∀ v, Adds (s.inum ip) v s.view → more c dp ip = 0 → Undone v r s' := by
  have hdp : 0 < more c dp dp := by simp
  refine dropNew_spec h hv fun s2 h2 hk2 hfree => ?_
  have hadds : ∀ v, Adds (s.inum ip) v s.view → more c dp ip = 0 →
      Adds (s.inum ip) v s2.view ∧ s2.view.type (s.inum ip) = .free := by
    intro v hadds hfirst
    rw [hfree hfirst]
    exact ⟨(hadds.setNlink 0).release, type_free_self⟩
  have hadds2 : g → Adds (s.inum ip) s0.view s2.view := fun hg' =>
    (hadds _ (hg hg').adds (hg hg').first).1
  refine (iput_linked h2 fun hg' => ?_).seq fun _ s3 ⟨h3, hk3, hst3, hfades⟩ => ?_
  · rw [hk2.same hdp, (hadds2 hg').nlink ((hadds2 hg').ne (by rw [(hg hg').dir]; nofun))]
    exact (hg hg').good.dirs (hg hg').dir
  have hkeeps : Keeps c s0 s3 :=
    hk.trans ((hk2.mono fun _ => pos_more).trans hk3 fun _ ha => ha) fun _ ha => ha
  have hview3 : g → s3.view = s2.view := fun hg' => view_of_store (hst3 hg')
  refine meets_pure ⟨.none ⟨h3, .adds h0 hkeeps fun hg' => hview3 hg' ▸ hadds2 hg',
    fun hg' => ?_⟩, fun v hv' hfirst _ j => ?_⟩
  · obtain ⟨htree, hgood, hnew, _, hfirst⟩ := hg hg'
    rw [hview3 hg']
    refine ((hadds2 hg').tree (hadds _ hnew hfirst).2 ?_ htree hgood).1.grove
    rw [hfree hfirst]
    exact entry_free_self _ _
  · obtain ⟨hadds', hgone⟩ := hadds v hv' hfirst
    exact (hadds'.undone hgone j).trans (hfades.fade j)

/-- The end of `create`, once the entry is there. -/
theorem finish_spec (h0 : Table sb g c s0) (hk : Keeps c s0 s)
    (h : Table sb g (more (more c dp) ip) s) (hv : (s.itable ip).valid = true) (hdp : s.inum dp = d)
    (hip : s.inum ip = i) (hg : g → s0.view.type i = .free ∧ s0.view.type d = .dir ∧
      Tree sb.ninodes .none (s0.view.named d k i type name) ∧
      s.view = s0.view.named d k i type name) :
    Meets E (do
      iput dp
      return some ip) s fun r s' => Created sb g c type s0 r s' ∧ r ≠ .none := by
  rw [more_comm] at h
  have hne : g → d ≠ i := by
    rintro hg' rfl
    exact nomatch (hg hg').1.symm.trans (hg hg').2.1
  refine (iput_linked h fun hg' => ?_).seq
    fun _ s1 ⟨h1, hk1, hst1, _⟩ => meets_pure ⟨.some ?_, nofun⟩
  · obtain ⟨_, hdir, htree, hview⟩ := hg hg'
    rw [hview, hdp]
    refine htree.nlink_dir ?_
    rw [type_named_ne (hne hg')]
    exact hdir
  have hip1 : s1.inum ip = i := (hk1.same (by simp)).trans hip
  have hview1 : g → s1.view = s0.view.named d k i type name := fun hg' =>
    (view_of_store (hst1 hg')).trans (hg hg').2.2.2
  have hkeeps : Keeps c s0 s1 := hk.trans hk1 fun _ => pos_more
  refine ⟨h1, ⟨hkeeps, fun hg' a ha => ?_⟩, fun hg' => ?_, hk1.valid ip (by simp) hv, fun hg' => ?_,
    fun hg' ht => ?_⟩
  · have hai : s0.inum a ≠ i := fun heq =>
      h0.live hg' a ha (show s0.view.type (s0.inum a) = .free from heq ▸ (hg hg').1)
    rw [hview1 hg', type_named_ne hai]
  · rw [hview1 hg']
    exact (hg hg').2.2.1
  · rw [hview1 hg', hip1, nlink_named_self (hne hg').symm]
    decide
  · rw [hview1 hg', hip1, type_named_self, ht]
    nofun

theorem Pending.ne (h : Pending sb c v dp ip s) : s.inum dp ≠ s.inum ip :=
  h.adds.ne (by rw [h.dir]; nofun)

/-- What `dirlink` found in the directory holds without the new inode. -/
theorem Pending.tree_named (h : Pending sb c v dp ip s) (ht : Table sb g (more (more c dp) ip) s)
    (halloc : s.view.type (s.inum ip) ≠ .free) (habs : Absent s.view (s.inum dp) name)
    (hvac : Vacant s.view (s.inum dp) k) (hk : k < nentries) (htype : type ≠ .free) :
    Tree sb.ninodes none (v.named (s.inum dp) k (s.inum ip) type (nameOf name)) := by
  have hentry : s.view.entry (s.inum dp) = v.entry (s.inum dp) := h.adds.entry h.ne
  have hin := ht.owned.inums _ halloc
  refine h.tree.named h.adds.free (by omega) hin.2 h.dir (fun de he => ?_) hk (fun l de he => ?_)
    htype
  · exact hvac de (hentry ▸ he)
  · exact habs l de (hentry ▸ he)

/-- `create` from the second `dirlink` on, or without it. -/
theorem giveName_spec (h0 : Table sb g c s0) (hk : Keeps c s0 s)
    (h : Table sb g (more (more c dp) ip) s) (hv : (s.itable ip).valid = true)
    (hdv : (s.itable dp).valid = true) (htype : type ≠ .free)
    (hg : g → Pending sb c s0.view dp ip s) (ok : Bool)
    (hok : ok = true → g → s.view = s0.view.started (s.inum dp) (s.inum ip) type ∧ Sound s.view)
    (name : Name) :
    Meets (Allowed g) (do
      if ¬ ok then create.fail ip dp
      else
        let r ← dirlink sb dp name (s.inum ip)
        if r < 0 then create.fail ip dp
        else
          if type = .dir then updateInode dp fun d => { d with nlink := d.nlink + 1 }
          else pure ()
          iput dp
          return some ip) s fun r s' => Created sb g c type s0 r s' ∧
      ∀ v, Adds (s.inum ip) v s.view → more c dp ip = 0 → Undone v r s' := by
  cases ok with
  | false => exact fail_spec h0 hk h hv hg
  | true =>
    have hip : 0 < more (more c dp) ip ip := by simp
    have hdp : 0 < more (more c dp) ip dp := pos_more (by simp)
    refine (dirlink_spec h hdp hdv (fun hg' => (hok rfl hg').2) name _).seq
      fun r s1 ⟨h1, hk1, hr⟩ => ?_
    have hip1 : s1.inum ip = s.inum ip := hk1.same hip
    have hdp1 : s1.inum dp = s.inum dp := hk1.same hdp
    have hkeeps : Keeps c s0 s1 :=
      hk.trans (hk1.mono fun _ ha => pos_more (pos_more ha)) fun _ ha => ha
    have hv1 := hk1.valid ip hip hv
    rcases hr with ⟨rfl, hview⟩ | ⟨rfl, habs, k, hvac, hview⟩
    · rw [← hip1, ← hview]
      refine fail_spec h0 hkeeps h1 hv1 fun hg' => ?_
      obtain ⟨htree, hgood, hadds, hdir, hfirst⟩ := hg hg'
      exact ⟨htree, hgood, by rw [hip1, hview]; exact hadds, by rw [hdp1]; exact hdir, hfirst⟩
    · have hg1 : g → s1.view = (s0.view.started (s.inum dp) (s.inum ip) type).setEntry (s.inum dp) k
          ⟨s.inum ip, nameOf name⟩ := fun hg' => by
        rw [hview, (hok rfl hg').1, (h.owned.inum_mod (h.live hg' ip hip)).1]
      have htree : g → Tree sb.ninodes none
          (s0.view.named (s.inum dp) k (s.inum ip) type (nameOf name)) := fun hg' =>
        (hg hg').tree_named h (h.live hg' ip hip) habs hvac.1
          (h1.owned.inside (hview ▸ entry_setEntry_self ..)).2 htype
      have hnamed : ∀ r s', Created sb g c type s0 r s' ∧ r ≠ none → Created sb g c type s0 r s' ∧
          ∀ v, Adds (s.inum ip) v s.view → more c dp ip = 0 → Undone v r s' :=
        fun r s' h' => ⟨h'.1, fun _ _ _ hr => absurd hr h'.2⟩
      by_cases hd : type = .dir
      · subst hd
        refine (setNlink_spec h1 hdp (hk1.valid dp hdp hdv) (· + 1)).seq
          fun _ s2 ⟨h2, hf2, hdp2, _, hview2⟩ => ?_
        refine (finish_spec h0
          (hkeeps.trans (hf2.keeps.mono fun _ ha => pos_more (pos_more ha)) fun _ ha => ha) h2
          (hf2.keeps.valid ip hip hv1) (hdp2.trans hdp1) ((hf2.keeps.same hip).trans hip1)
          fun hg' => ⟨(hg hg').adds.free, (hg hg').dir, htree hg', ?_⟩).imp hnamed
        have hnlink : s1.view.nlink (s.inum dp) = s0.view.nlink (s.inum dp) := by
          rw [hview]
          exact (hg hg').adds.nlink (hg hg').ne
        rw [hview2, hdp1, hnlink, hg1 hg', named_dir]
      · rw [if_neg hd]
        refine (finish_spec h0 hkeeps h1 hv1 hdp1 hip1 fun hg' =>
          ⟨(hg hg').adds.free, (hg hg').dir, htree hg', ?_⟩).imp hnamed
        rw [hg1 hg', named_file hd]

/-! ## §5 `create` -/

/-- The name exists. -/
theorem existing_spec (hk : Keeps c s0 s) (hst : g → s.store = s0.store)
    (h : Table sb g (more (more c dp) ip) s)
    (hg : g → Tree sb.ninodes none s0.view ∧ s.view.nlink (s.inum dp) ≠ 0 ∧
      s.view.nlink (s.inum ip) ≠ 0) :
    Meets (Allowed g) (do
      iput dp
      let d ← locked ip
      if type = .file ∧ (d.type = .file ∨ d.type = .device) then return some ip
      else
        iput ip
        return none) s fun r s' => Created sb g c type s0 r s' ∧ Undone s.view r s' := by
  rw [more_comm] at h
  refine (iput_linked h fun hg' => (hg hg').2.1).seq fun _ s1 ⟨h1, hk1, hst1, hfades1⟩ => ?_
  refine (locked_spec h1 (by simp)).seq fun dn s2 ⟨h2, hk2, hst2, hv2, hdn, _⟩ => ?_
  have hip1 : s1.inum ip = s.inum ip := hk1.same (by simp)
  have hip2 : s2.inum ip = s1.inum ip := hk2.same (by simp)
  have hkeeps : Keeps c s0 s2 :=
    hk.trans ((hk1.trans hk2 fun _ ha => ha).mono fun _ => pos_more) fun _ ha => ha
  have hstore : g → s2.store = s0.store := fun hg' => hst2.trans ((hst1 hg').trans (hst hg'))
  have hl2 : g → s2.view.nlink (s2.inum ip) ≠ 0 := fun hg' => by
    rw [hip2, hip1, view_of_store hst2, view_of_store (hst1 hg')]
    exact (hg hg').2.2
  split
  case isTrue hty =>
    refine meets_pure ⟨.some ⟨h2, .of_store hkeeps hstore, fun hg' => ?_, hv2, hl2, fun _ _ hd =>
      ?_⟩, nofun⟩
    · rw [view_of_store (hstore hg')]
      exact (hg hg').1
    · rw [hip2, view_of_store hst2] at hd
      rw [show dn.type = .dir from hdn ▸ hd] at hty
      rcases hty.2 with h' | h' <;> cases h'
  case isFalse =>
    refine (iput_linked h2 hl2).seq fun _ s3 ⟨h3, hk3, hst3, hfades3⟩ => ?_
    rw [hst2] at hfades3
    exact meets_pure ⟨.none (.same h3 (hkeeps.trans hk3 fun _ ha => ha)
      (fun hg' => (hst3 hg').trans (hstore hg')) fun hg' => (hg hg').1),
      fun _ => (hfades1.trans hfades3).fade⟩

/-- The name does not exist, and there is an inode for it. -/
theorem createNew_spec (h0 : Table sb g c s0) (hk : Keeps c s0 s) (hst : g → s.store = s0.store)
    (h : Table sb g (more c dp) s) (hdv : (s.itable dp).valid = true) (hi : s.view.type i = .free)
    (htype : type ≠ .free) (hown : Owned sb (s.alloc i type).store.dinodes (s.alloc i type).store)
    (hg : g → Tree sb.ninodes none s.view ∧ Good sb.ninodes s.view ∧
      s.view.type (s.inum dp) = .dir) (name : Name) (major minor : BitVec 16) :
    Meets (Allowed g) (do
      let ip ← iget i
      ilock ip
      updateInode ip fun d => { d with major := major, minor := minor, nlink := 1 }
      let ok ← if type = .dir then linkDots sb dp ip else pure true
      if ¬ ok then create.fail ip dp
      else
        let r ← dirlink sb dp name i
        if r < 0 then create.fail ip dp
        else
          if type = .dir then updateInode dp fun d => { d with nlink := d.nlink + 1 }
          else pure ()
          iput dp
          return some ip) (s.alloc i type) fun r s' => Created sb g c type s0 r s' ∧
      (Alive (more c dp) s → Undone s.view r s') := by
  refine newInode_spec h hi htype hown major minor (.other (by decide))
    fun ip s1 h1 hk1 hip1 hv1 hview1 hfresh => ?_
  have hip : 0 < more (more c dp) ip ip := by simp
  have hdp : 0 < more (more c dp) ip dp := pos_more (by simp)
  have hdp1 : s1.inum dp = s.inum dp := hk1.same (by simp)
  have hkeeps : Keeps c s0 s1 := hk.trans hk1 fun _ => pos_more
  have hpend : g → Pending sb c s0.view dp ip s1 := fun hg' => by
    obtain ⟨htree, hgood, hdir⟩ := hg hg'
    rw [view_of_store (hst hg')] at htree hgood hdir hi hview1
    refine ⟨htree, hgood, ?_, hdp1 ▸ hdir, hfresh fun a ha heq => ?_⟩
    · rw [hip1, hview1]
      exact .fresh hi type
    · exact h.live hg' a ha (by rw [show (s.itable a).inum = i from heq, hst hg']; exact hi)
  have hnone : ∀ k, s1.view.entry i k = none := fun k => by
    rw [hview1]
    exact entry_alloc_self s.view i k type
  have hone : s1.view.nlink i ≠ 0 := by
    rw [hview1, nlink_setNlink_self]
    decide
  have hsound : g → Sound s1.view := fun hg' => by
    have hadds := (hpend hg').adds
    rw [hip1] at hadds
    exact hadds.sound ((hpend hg').tree.sound (hpend hg').good) hnone hone
  subst hip1
  -- no entry in use is of the new inode, so that its reference is the only one
  have hnew : Adds (s1.inum ip) s.view s1.view := by
    rw [hview1]
    exact .fresh hi type
  have hfirst : Alive (more c dp) s → more c dp ip = 0 := fun ha =>
    hfresh fun a hpos heq => ha a hpos (heq ▸ hi)
  by_cases hd : type = .dir
  · subst hd
    refine (linkDots_spec h1 hdp hip hv1 fun hg' => ⟨hsound hg', hnone, hone, ?_⟩).seq
      fun ok s2 ⟨h2, hk2, hadds2, hg2⟩ => ?_
    · rw [(hpend hg').adds.nlink (hpend hg').ne]
      exact (hpend hg').good.dirs (hpend hg').dir
    have hdp2 : s2.inum dp = s1.inum dp := hk2.same hdp
    have hip2 : s2.inum ip = s1.inum ip := hk2.same hip
    rw [← hip2] at hadds2 hnew ⊢
    refine (giveName_spec h0 (hkeeps.trans (hk2.mono fun _ ha => pos_more (pos_more ha))
      fun _ ha => ha) h2 (hk2.valid ip hip hv1) (hk2.valid dp hdp (hk1.valid dp (by simp) hdv))
      htype (fun hg' => ?_) ok (fun hok hg' => ?_) name).imp
      fun _ _ h' => ⟨h'.1, fun ha => h'.2 _ (hadds2 _ hnew) (hfirst ha)⟩
    · obtain ⟨htree, hgood, hadds, hdir, hfirst⟩ := hpend hg'
      exact ⟨htree, hgood, hadds2 _ (hip2 ▸ hadds), hdp2 ▸ hdir, hfirst⟩
    · obtain ⟨hview2, hsound2⟩ := hg2 hg' hok
      refine ⟨?_, hsound2⟩
      rw [hview2, hview1, hdp2, hip2, started_dir, view_of_store (hst hg')]
  · rw [if_neg hd]
    refine (giveName_spec h0 hkeeps h1 hv1 (hk1.valid dp (by simp) hdv) htype hpend true
      (fun _ hg' => ⟨?_, hsound hg'⟩) name).imp
      fun _ _ h' => ⟨h'.1, fun ha => h'.2 _ hnew (hfirst ha)⟩
    rw [hview1, started_file hd, view_of_store (hst hg')]

theorem create_spec (h : Ready sb g c p x s)
    (hg : g → Tree sb.ninodes none s.view ∧ Good sb.ninodes s.view) (path : List Byte)
    (htype : type ≠ .free) (major minor : BitVec 16) :
    Meets (Allowed g) (create sb p path type major minor) s
      fun r s' => Created sb g c type s r s' ∧ (Alive c s → Undone s.view r s') := by
  refine (nameiparent_spec h path).seq fun r s1 ⟨hk1, hfades1, hst1, _, hnone, hsome⟩ => ?_
  cases r with
  | none =>
    exact meets_pure ⟨.none (.same (hnone rfl) hk1 hst1 fun hg' => (hg hg').1),
      fun _ _ => hfades1.fade⟩
  | some q =>
    obtain ⟨dp, name⟩ := q
    obtain ⟨h1, hl1, _⟩ := hsome _ rfl
    have hdp : 0 < more c dp dp := by simp
    refine (ilock_arrived h1 hk1 hst1 hl1 hfades1).seq
      fun _ s2 ⟨h2, hk, hst, hv2, hl2, hfades2⟩ => ?_
    have hafter : ∀ {r s'}, Undone s2.view r s' → Undone s.view r s' := fun hu hr j =>
      (hfades2.fade j).trans (hu hr j)
    have hg2 : g → Tree sb.ninodes none s2.view ∧ Good sb.ninodes s2.view := fun hg' => by
      rw [view_of_store (hst hg')]
      exact hg hg'
    have hsound : g → Sound s2.view := fun hg' => (hg2 hg').1.sound (hg2 hg').2
    refine (dirlookup_spec h2 hdp hv2 hsound name).seq
      fun r s3 ⟨hk3, hst3, hdir3, hnone3, hsome3⟩ => ?_
    cases r with
    | some q =>
      obtain ⟨ip, off⟩ := q
      obtain ⟨h3, k, de, _, he, hin, hhas⟩ := hsome3 ip off rfl
      refine (existing_spec (hk.trans hk3 fun _ => pos_more)
        (fun hg' => hst3.trans (hst hg')) h3 fun hg' => ⟨(hg hg').1, ?_, ?_⟩).imp
        fun _ _ h' => ⟨h'.1, fun _ => hafter (view_of_store hst3 ▸ h'.2)⟩
      · rw [hk3.same hdp, view_of_store hst3]
        exact hl2 hg'
      · rw [← hin, view_of_store hst3]
        exact (hsound hg').linked he hhas.1
    | none =>
      obtain ⟨rfl, _⟩ := hnone3 rfl
      refine meets_focus_seq (ialloc_spec h2.owned type) fun r st hr => ?_
      rcases hr with ⟨rfl, rfl⟩ | ⟨i, rfl, _, hfree, rfl, hown⟩
      · refine (iput_linked h2 hl2).seq fun _ s4 ⟨h4, hk4, hst4, hfades4⟩ => ?_
        exact meets_pure ⟨.none (.same h4 (hk.trans hk4 fun _ ha => ha)
          (fun hg' => (hst4 hg').trans (hst hg')) fun hg' => (hg hg').1),
          fun _ => hafter fun _ => hfades4.fade⟩
      · exact (createNew_spec h.table hk hst h2 hv2 hfree htype hown
          (fun hg' => ⟨(hg2 hg').1, (hg2 hg').2, hdir3⟩) name major minor).imp
          fun _ _ h' => ⟨h'.1, fun ha => hafter (h'.2 ((ha.keeps hk).more h2 hv2))⟩

end Xv6.Files
