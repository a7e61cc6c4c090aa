/-
Xv6.Files.Safety — what holds of the file system in every run from boot.

Blocks always have exactly one owner. The directory tree and the link counts
are right as long as no directory is removed while a process uses it, and no
file has more names than a link count can tell; runs that break either rule
are shown below.
§1 runs, §2 boot, §3 blocks and references, §4 directory entries, §5 link counts.
-/
import Xv6.Files.FileTheorems
import Xv6.Files.Volume

namespace Xv6.Files

open Xv6.Lib Function
open Xv6.Vm (nproc)

variable {sb : Superblock} {g : Prop} {s s' : Fs} {p : Fin nproc} {x : FProc} {v : View} {n : Nat}
  {e : Fin ninode} {i d k : Nat}

/-! ## §1 Runs -/

/-- Before every call of the run, directories have links and counts are in
range. -/
def GoodRun (sb : Superblock) : List (Fin nproc × Call) → Fs → Prop
  | [], _ => True
  | (p, a) :: cs, s =>
    Good sb.ninodes s.view ∧ ∀ s', (step sb p a).run s = .ok ((), s') → GoodRun sb cs s'

theorem run_spec (cs : List (Fin nproc × Call)) : ∀ {s : Fs}, Ended sb g s →
    (g → GoodRun sb cs s) →
    Meets (Allowed g) (run sb cs) s fun _ s' => Ended sb g s' ∧ Lives s s' := by
  induction cs with
  | nil => exact fun h _ => meets_pure ⟨h, .refl⟩
  | cons a cs ih =>
    intro s h hg
    obtain ⟨p, a⟩ := a
    cases step_spec (h.settled fun hg' => (hg hg').1) p a with
    | error hrun hE => exact Meets.bind (.error hrun hE)
    | ok hrun hpost =>
      obtain ⟨hend, hl⟩ := hpost
      exact Meets.bind (.ok hrun ((ih hend fun hg' => (hg hg').2 _ hrun).imp
        fun _ _ ⟨hs', hl'⟩ => ⟨hs', hl.trans hl'⟩))

/-! ## §2 Boot -/

/-- The first process. -/
def initproc : Fin nproc := ⟨0, Vm.nproc_pos⟩

/-- The entry of the root directory in the inode table. -/
def rootEntry : Fin ninode := ⟨0, ninode_pos⟩

theorem boot_procs_ne (st : Store) (hp : p ≠ initproc) : (boot st).procs p = none := by
  have hne : p ≠ ⟨0, by decide⟩ := hp
  simp [boot, hne]

theorem boot_ref_ne (st : Store) (he : e ≠ rootEntry) : ((boot st).itable e).ref = 0 := by
  have hne : e ≠ ⟨0, by decide⟩ := he
  simp [boot, hne]

theorem boot_held (st : Store) : (boot st).held = update (fun _ => none) (.inr initproc)
    (some rootEntry) := by
  funext r
  cases r with
  | inl f => rfl
  | inr p =>
    by_cases hp : p = initproc
    · subst hp
      rfl
    · have hne : (.inr p : Holder) ≠ .inr initproc := fun he => hp (Sum.inr.inj he)
      rw [update_of_ne hne]
      show ((boot st).procs p).map FProc.cwd = none
      rw [boot_procs_ne st hp]
      rfl

theorem boot_refs (st : Store) (e : Fin ninode) :
    refs (boot st).held e = if e = rootEntry then 1 else 0 := by
  have h0 : refs (fun _ : Holder => (none : Option (Fin ninode))) e = 0 :=
    refs_eq_zero.mpr fun _ => nofun
  rw [boot_held, refs_update_some rfl, h0, Nat.zero_add]

theorem boot_fds (st : Store) (f : Fin nfile) : refs (boot st).fds f = 0 := by
  refine refs_eq_zero.mpr fun d hd => ?_
  unfold Fs.fds at hd
  by_cases hp : d.1 = initproc
  · rw [hp] at hd
    cases hd
  · rw [boot_procs_ne st hp] at hd
    cases hd

theorem boot_root {st : Store} (h : 0 < refs (boot st).held e) : e = rootEntry := by
  rw [boot_refs] at h
  by_contra hne
  rw [if_neg hne] at h
  exact absurd h (by decide)

theorem boot_inv (im : Image sb)
    (hg : g → Tree sb.ninodes none im.store.view ∧
      ∀ i, im.store.view.type i ≠ .free → im.store.view.nlink i ≠ 0) :
    Inv sb g (boot im.store) where
  table :=
    { owned := im.owned
      refs := fun e => by
        rw [boot_refs]
        by_cases he : e = rootEntry
        · subst he
          rfl
        · rw [if_neg he, boot_ref_ne im.store he]
      sync := fun e he hv => by
        rw [boot_root he] at hv
        cases hv
      uniq := fun e e' he he' _ => (boot_root he).trans (boot_root he').symm
      live := fun hg' e he => by
        rw [boot_root he]
        show im.store.view.type rootino ≠ .free
        rw [(hg hg').1.shape.root.1]
        nofun
      orphans := fun hg' i hi hz => absurd hz ((hg hg').2 i hi) }
  uses :=
    { count := fun f => (boot_fds im.store f).symm
      idle := fun _ => iff_of_true rfl rfl
      writers := fun _ _ => nofun
      cwds := fun hg' p x hx => by
        have hcwd := boot_root (held_pos (held_cwd hx))
        rw [hcwd]
        exact (hg hg').1.shape.root.1 }

/-- The same without anything about the tree. -/
theorem run_counts (im : Image sb) (cs : List (Fin nproc × Call)) :
    Meets (Allowed False) (run sb cs) (boot im.store) fun _ s => Inv sb False s :=
  (run_spec cs ⟨boot_inv im False.elim, False.elim⟩ False.elim).imp fun _ _ h => h.1.inv

/-! ## §3 Blocks and references -/

/-- Every block that an inode refers to is a data block and has one place, and
the bitmap has exactly these blocks and the metadata. -/
theorem blocks_have_one_owner (im : Image sb) (cs : List (Fin nproc × Call)) :
    Meets (· ≠ .freeingFree) (run sb cs) (boot im.store) fun _ s =>
      (∀ o b, owner s.store.dinodes s.store.data o = some b → sb.nmeta ≤ b ∧ b < sb.size) ∧
      (∀ o o' b, owner s.store.dinodes s.store.data o = some b →
        owner s.store.dinodes s.store.data o' = some b → o = o') ∧
      ∀ b, b < sb.size → (s.store.bitmap b = true ↔
        b < sb.nmeta ∨ ∃ o, owner s.store.dinodes s.store.data o = some b) := by
  refine (run_counts im cs).mono ?_ fun e he => he.1
  intro _ s h
  have hown := h.table.owned
  refine ⟨fun o b ho => hown.pool.area ho, fun o o' b ho ho' => hown.pool.inj ho ho',
    fun b hb => ?_⟩
  by_cases hm : b < sb.nmeta
  · simp [hm, hown.reserved b hm]
  · rw [hown.pool.used ⟨Nat.le_of_not_lt hm, hb⟩]
    simp [hm]

/-- Every reference is counted, and what the tables have of an inode is what the
disk has. -/
structure Counted (s : Fs) : Prop where
  inodes : ∀ e, (s.itable e).ref = refs s.held e
  files : ∀ f, (s.ftable f).ref = refs s.fds f
  closed : ∀ f, (s.ftable f).ref = 0 ↔ (s.ftable f).kind = .none
  single : ∀ e e', (s.itable e).ref ≠ 0 → (s.itable e').ref ≠ 0 →
    (s.itable e).inum = (s.itable e').inum → e = e'
  copy : ∀ e, (s.itable e).ref ≠ 0 → (s.itable e).valid = true →
    (s.itable e).copy = s.store.dinodes (s.itable e).inum

theorem references_exact (im : Image sb) (cs : List (Fin nproc × Call)) :
    Meets (· ∉ [.ilock, .filedup, .fileclose, .fileread, .filewrite]) (run sb cs)
      (boot im.store) fun _ s => Counted s := by
  refine (run_counts im cs).mono ?_ fun e he => he.counts
  intro _ s ⟨ht, hu⟩
  have hpos : ∀ e, (s.itable e).ref ≠ 0 → 0 < refs s.held e := by
    intro e he
    rw [← ht.refs e]
    exact Nat.pos_of_ne_zero he
  exact ⟨ht.refs, hu.count, hu.idle, fun e e' he he' => ht.uniq e e' (hpos e he) (hpos e' he'),
    fun e he hv => (ht.sync e (hpos e he) hv).1⟩

/-! ## §4 Directory entries -/

/-- The run lemma for a well-formed tree. -/
theorem run_good (vol : Volume sb) (cs : List (Fin nproc × Call)) :
    Meets (fun e => GoodRun sb cs (boot vol.store) → e ≠ .noType ∧ e ≠ .unlinkNlink) (run sb cs)
      (boot vol.store) fun _ s => Ended sb (GoodRun sb cs (boot vol.store)) s :=
  (run_spec cs ⟨boot_inv vol.toImage fun _ => ⟨vol.tree, vol.linked⟩, fun _ => vol.tree.grove⟩
    fun hg => hg).mono (fun _ _ h => h.1) fun _ he => he.2

/-- Every entry in use names an inode in use, unless a directory has been
removed while a process used it. -/
theorem entries_name_inodes (vol : Volume sb) (cs : List (Fin nproc × Call)) :
    Meets (fun e => GoodRun sb cs (boot vol.store) → e ≠ .noType) (run sb cs) (boot vol.store)
      fun _ s => GoodRun sb cs (boot vol.store) →
        ∀ d k de, s.store.entry d k = some de → de.inum ≠ 0 →
          (s.store.dinodes de.inum).type ≠ .free := by
  refine (run_good vol cs).mono (fun _ s h hg d k de he h0 => ?_) fun e he hg => (he hg).1
  obtain ⟨w, hw⟩ := h.tree hg
  have hn : s.view.Names d k de.inum := ⟨de, he, rfl, h0⟩
  rcases hw.names hn with hn' | hd
  · exact hw.alloc (hw.tree.shape.alloc hn')
  · exact fun hf => nomatch hd.symm.trans hf

/-- A path, as bytes. -/
def path (names : List Name) : Option (List Byte) := some (names.flatMap fun x => slash :: x)

def nameA : Name := [0x61]
def nameB : Name := [0x62]

/-- `mkdir` /a and /a/b, `chdir` to /a/b, then `unlink` both. -/
def removeNested : List (Fin nproc × Call) :=
  [.mkdir (path [nameA]), .mkdir (path [nameA, nameB]), .chdir (path [nameA, nameB]),
    .unlink (path [nameA, nameB]), .unlink (path [nameA])].map fun c => (initproc, c)

def mkfsVolume : Volume .mkfs := rootVolume .mkfs (by decide)

/-- The current directory still has ".." for its parent, which is gone; to look
it up is a panic. -/
theorem removed_parent_dangles :
    (∃ s, (run .mkfs removeNested).run (boot mkfsVolume.store) = .ok ((), s) ∧
      s.store.entry 3 1 = some ⟨2, dotdotName⟩ ∧ (s.store.dinodes 2).type = .free ∧
      ((s.procs initproc).map fun x => s.inum x.cwd) = some 3) ∧
    (run .mkfs (removeNested ++ [(initproc, .open (some dotdotName) 0)])).run
      (boot mkfsVolume.store) = .error .noType := by
  constructor
  · obtain ⟨⟨⟩, s, hok, ht⟩ := run_of_endsIn (show endsIn (run .mkfs removeNested)
      (boot mkfsVolume.store) (fun _ s => decide (s.store.entry 3 1 = some ⟨2, dotdotName⟩ ∧
        (s.store.dinodes 2).type = .free ∧
        ((s.procs initproc).map fun x => s.inum x.cwd) = some 3)) = true by decide +kernel)
    exact ⟨s, hok, of_decide_eq_true ht⟩
  · exact run_of_stopsWith (by decide +kernel)

/-! ## §5 Link counts -/

/-- The inode that an entry names. -/
def View.named? (v : View) (n : Nat) (r : Fin n × Fin nentries) : Option Nat :=
  (v.entry r.1 r.2).bind fun de => nonzero de.inum

/-- The number of entries that name inode `i`. -/
def View.count (v : View) (n i : Nat) : Nat := refs (v.named? n) i

theorem named?_some {r : Fin n × Fin nentries} : v.named? n r = some i ↔ v.Names r.1 r.2 i := by
  unfold View.named? View.Names
  cases v.entry r.1 r.2 with
  | none => simp
  | some de =>
    simp only [Option.bind_some, nonzero_some, Option.some.injEq, exists_eq_left']
    exact ⟨fun ⟨h, h0⟩ => ⟨h, h ▸ h0⟩, fun ⟨h, h0⟩ => ⟨h, h ▸ h0⟩⟩

/-- A file is never ".". -/
theorem Shape.count_file (h : Shape n v) (hi : v.type i ≠ .dir) : v.count n i = v.links n i := by
  unfold View.count View.links refs
  congr 1
  ext r
  simp only [Finset.mem_filter, Finset.mem_univ, true_and]
  rw [named?_some, target_some]
  refine ⟨fun hn => ⟨fun hk => hi ?_, hn⟩, fun ht => ht.2⟩
  rw [hk] at hn
  have hd := h.isdir hn
  rw [hn.inj (h.dot hd).1]
  exact hd

/-- A name of a file is in the third entry of a directory or later. -/
theorem Shape.two_le_file (h : Shape n v) (hn : v.Names d k i) (hi : v.type i ≠ .dir) : 2 ≤ k := by
  by_contra hk
  have h01 : k = 0 ∨ k = 1 := by omega
  have hd := h.isdir hn
  rcases h01 with rfl | rfl
  · rw [hn.inj (h.dot hd).1] at hi
    exact hi hd
  · by_cases hroot : d = rootino
    · rw [hroot] at hn
      rw [hn.inj h.root.2] at hi
      exact hi h.root.1
    · obtain ⟨l, _, hl⟩ := h.dotdot_of hn hroot
      exact hi (h.isdir hl)

/-- Link counts account for every inode in use. -/
structure LinksAccount (sb : Superblock) (s : Fs) : Prop where
  files : ∀ i, (s.store.dinodes i).type ≠ .free → (s.store.dinodes i).type ≠ .dir →
    (s.store.dinodes i).nlink.toInt = s.view.count sb.ninodes i
  named : ∀ i, (s.store.dinodes i).type ≠ .free → i ≠ rootino →
    0 < (s.store.dinodes i).nlink.toInt → ∃ d k de, s.store.entry d k = some de ∧ de.inum = i ∧
      sameName de.name dotName = false ∧ sameName de.name dotdotName = false
  held : ∀ i, (s.store.dinodes i).type ≠ .free → (s.store.dinodes i).nlink = 0 →
    (∃ p x, s.procs p = some x ∧ s.inum x.cwd = i) ∨
    ∃ p x k f, s.procs p = some x ∧ x.ofile k = some f ∧ (s.ftable f).kind ≠ .none ∧
      s.inum (s.ftable f).ip = i

theorem Shape.plain_name (h : Shape n v) (hk : 2 ≤ k) (hn : v.Names d k i) :
    ∃ d k de, v.entry d k = some de ∧ de.inum = i ∧ sameName de.name dotName = false ∧
      sameName de.name dotdotName = false := by
  obtain ⟨hdot, hdotdot⟩ := h.plain hk hn
  obtain ⟨de, he, hin, _⟩ := hn
  refine ⟨d, k, de, he, hin, ?_, ?_⟩
  · exact Bool.eq_false_iff.mpr fun hs => hdot ⟨de, he, hs⟩
  · exact Bool.eq_false_iff.mpr fun hs => hdotdot ⟨de, he, hs⟩

/-- What the invariant says about references, in terms of processes. -/
theorem Inv.holder (h : Inv sb g s) (he : 0 < refs s.held e) :
    (∃ p x, s.procs p = some x ∧ x.cwd = e) ∨
    ∃ p x k f, s.procs p = some x ∧ x.ofile k = some f ∧ (s.ftable f).kind ≠ .none ∧
      (s.ftable f).ip = e := by
  obtain ⟨r, hr⟩ := refs_pos.mp he
  cases r with
  | inr p =>
    obtain ⟨x, hx, hcwd⟩ := Option.map_eq_some_iff.mp
      (show (s.procs p).map FProc.cwd = some e from hr)
    exact .inl ⟨p, x, hx, hcwd⟩
  | inl f =>
    have hkind : (s.ftable f).kind ≠ .none := by
      intro hk
      rw [show s.held (.inl f) = none from if_pos hk] at hr
      cases hr
    have hip : (s.ftable f).ip = e := Option.some.inj ((held_file hkind).symm.trans hr)
    have hpos : 0 < refs s.fds f := by
      rw [← h.uses.count f]
      exact Nat.pos_of_ne_zero fun h0 => hkind ((h.uses.idle f).mp h0)
    obtain ⟨⟨p, k⟩, hfd⟩ := refs_pos.mp hpos
    obtain ⟨x, hx, hk⟩ := Option.bind_eq_some_iff.mp hfd
    exact .inr ⟨p, x, k, f, hx, hk, hkind, hip⟩

/-- A 16-bit count is right up to 32767. -/
theorem Tree.nlink_iff (h : Tree n none v) (hi : v.type i ≠ .free) (hd : v.type i ≠ .dir) :
    (v.nlink i).toInt = v.count n i ↔ v.count n i ≤ 32767 := by
  rw [h.shape.count_file hd]
  constructor
  · have hlt : (v.nlink i).toInt < 32768 := BitVec.toInt_lt (x := v.nlink i)
    omega
  · intro hle
    rw [h.law i hi, lead_none, Nat.add_zero, BitVec.toInt_eq_toNat_of_lt]
    · rw [BitVec.toNat_ofNat, Nat.mod_eq_of_lt (by omega)]
    · rw [BitVec.toNat_ofNat, Nat.mod_eq_of_lt (by omega)]
      omega

/-- Every inode with links has a name. -/
theorem Tree.exists_name (h : Tree n none v) (hi : v.type i ≠ .free) (hroot : i ≠ rootino)
    (hz : v.nlink i ≠ 0) : ∃ d k, 2 ≤ k ∧ v.Names d k i := by
  by_cases hd : v.type i = .dir
  · exact h.shape.named hd hroot
  · have hlinks : 0 < v.links n i := by
      refine Nat.pos_of_ne_zero fun h0 => hz ?_
      rw [h.law i hi, h0]
      rfl
    obtain ⟨r, hr⟩ := refs_pos.mp hlinks
    have hn := (target_some.mp hr).2
    exact ⟨_, _, h.shape.two_le_file hn hd, hn⟩

/-- A removed directory names no files. -/
theorem LinkedPart.count_eq {w : View} (h : LinkedPart n w v) (hd : v.type i ≠ .dir) :
    w.count n i = v.count n i := by
  unfold View.count refs
  congr 1
  ext r
  simp only [Finset.mem_filter, Finset.mem_univ, true_and]
  rw [named?_some, named?_some]
  exact ⟨fun ⟨de, he, hin⟩ => ⟨de, h.entry he, hin⟩, fun hn => (h.names hn).resolve_right hd⟩

theorem Ended.accounts (h : Ended sb g s) (hg : g)
    (hrange : ∀ i, s.view.type i ≠ .free → s.view.type i ≠ .dir →
      s.view.count sb.ninodes i ≤ 32767) : LinksAccount sb s := by
  obtain ⟨w, hw⟩ := h.tree hg
  refine ⟨fun i hi hd => ?_, fun i hi hroot hpos => ?_, fun i hi hz => ?_⟩
  · obtain ⟨ht, hl⟩ := hw.same (.inl hd)
    rw [← hw.count_eq hd, ← show w.nlink i = (s.store.dinodes i).nlink from hl]
    refine (hw.tree.nlink_iff (ht ▸ hi) (ht ▸ hd)).mpr ?_
    rw [hw.count_eq hd]
    exact hrange i hi hd
  · have hz : s.view.nlink i ≠ 0 := by
      intro h0
      rw [show (s.store.dinodes i).nlink = 0 from h0] at hpos
      exact absurd hpos (by decide)
    obtain ⟨ht, hl⟩ := hw.same (.inr hz)
    obtain ⟨d, k, hk, hn⟩ := hw.tree.exists_name (ht ▸ hi) hroot (hl ▸ hz)
    obtain ⟨d, k, de, he, hplain⟩ := hw.tree.shape.plain_name hk hn
    exact ⟨d, k, de, hw.entry he, hplain⟩
  · obtain ⟨e, he, _, hin⟩ := h.inv.table.orphans hg i hi hz
    rcases h.inv.holder he with ⟨p, x, hx, hcwd⟩ | ⟨p, x, k, f, hx, hk, hkind, hip⟩
    · exact .inl ⟨p, x, hx, by rw [hcwd]; exact hin⟩
    · exact .inr ⟨p, x, k, f, hx, hk, hkind, by rw [hip]; exact hin⟩

/-- Counts, names and references are right after every run that keeps to the
rules, as long as no file has got more names than a count can tell. -/
theorem link_counts_account (vol : Volume sb) (cs : List (Fin nproc × Call)) :
    Meets (fun e => GoodRun sb cs (boot vol.store) → e ≠ .unlinkNlink) (run sb cs)
      (boot vol.store) fun _ s => GoodRun sb cs (boot vol.store) →
        (∀ i, s.view.type i ≠ .free → s.view.type i ≠ .dir →
          s.view.count sb.ninodes i ≤ 32767) → LinksAccount sb s :=
  (run_good vol cs).mono (fun _ _ h hg => h.accounts hg) fun _ he hg => (he hg).2

def nameF : Name := [0x66]

/-- `mkdir` /a, `chdir` to it and `unlink` it, create "f" there, close it and
leave. -/
def createInRemoved : List (Fin nproc × Call) :=
  [.mkdir (path [nameA]), .chdir (path [nameA]), .unlink (path [nameA]),
    .open (some nameF) 0x202, .close 0, .chdir (some [slash])].map fun c => (initproc, c)

/-- No entry names inode `i`, as far as the directories have one block. -/
def unnamed (sb : Superblock) (st : Store) (i : Nat) : Bool :=
  (List.range sb.ninodes).all fun d => decide ((st.dinodes d).type ≠ .dir) ||
    (decide ((st.dinodes d).size ≤ bsize) &&
      (List.range (bsize / direntSize)).all fun k => (st.entry d k).all fun de => de.inum != i)

theorem unnamed_spec {st : Store} (h : unnamed sb st i = true) (hown : Owned sb st.dinodes st)
    {de : Dirent} (he : st.entry d k = some de) :
    de.inum ≠ i := by
  obtain ⟨hdir, hsize, _⟩ := entry_some he
  have hd := (hown.inside he).1
  have hcheck := List.all_eq_true.mp h d (List.mem_range.mpr hd)
  simp only [hdir, ne_eq, not_true_eq_false, decide_false, Bool.false_or, Bool.and_eq_true,
    decide_eq_true_eq] at hcheck
  have hk : k < bsize / direntSize := by
    unfold bsize direntSize at *
    omega
  have hentry := List.all_eq_true.mp hcheck.2 k (List.mem_range.mpr hk)
  rw [he] at hentry
  simpa using hentry

/-- The file keeps its link although nothing names it and nobody holds it. -/
theorem created_in_removed_is_lost :
    ∃ s, (run .mkfs createInRemoved).run (boot mkfsVolume.store) = .ok ((), s) ∧
      (s.store.dinodes 3).type = .file ∧ (s.store.dinodes 3).nlink = 1 ∧
      (∀ d k de, s.store.entry d k = some de → de.inum ≠ 3) ∧
      ¬ LinksAccount .mkfs s := by
  obtain ⟨⟨⟩, s, hok, ht⟩ := run_of_endsIn (show endsIn (run .mkfs createInRemoved)
    (boot mkfsVolume.store) (fun _ s => decide ((s.store.dinodes 3).type = .file ∧
      (s.store.dinodes 3).nlink = 1) && unnamed .mkfs s.store 3) = true by decide +kernel)
  rw [Bool.and_eq_true, decide_eq_true_eq] at ht
  obtain ⟨⟨htype, hnlink⟩, hun⟩ := ht
  have hown : Owned .mkfs s.store.dinodes s.store :=
    ((run_counts mkfsVolume.toImage createInRemoved).post hok).table.owned
  have hnone : ∀ d k de, s.store.entry d k = some de → de.inum ≠ 3 := fun d k de he =>
    unnamed_spec hun hown he
  refine ⟨s, hok, htype, hnlink, hnone, fun h => ?_⟩
  obtain ⟨d, k, de, he, hin, _⟩ := h.named 3 (by rw [htype]; nofun) (by decide)
    (by rw [hnlink]; decide)
  exact hnone d k de he hin

end Xv6.Files
