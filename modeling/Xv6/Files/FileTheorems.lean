/-
Xv6.Files.FileTheorems — open files, descriptors and current directories.

Between calls the references in the inode table are those of the open files
and of the processes' current directories, and the references in the file
table are the descriptors.
§1 who holds what, §2 the invariant, §3 files, §4 calls on descriptors,
§5 calls that open, make and change directories, §6 `fork` and `exit`.
-/
import Mathlib.Data.Fintype.Sum
import Xv6.Files.CreateTheorems

namespace Xv6.Files

open Xv6.Lib Function
open Xv6.Vm (nproc)

/-! ## §1 Who holds what -/

/-- An inode is held by an open file, or as a current directory. -/
abbrev Holder := Fin nfile ⊕ Fin nproc

def Fs.held (s : Fs) : Holder → Option (Fin ninode)
  | .inl f => if (s.ftable f).kind = .none then none else some (s.ftable f).ip
  | .inr p => (s.procs p).map FProc.cwd

/-- A file is held by the descriptors of the processes. -/
def Fs.fds (s : Fs) (d : Fin nproc × Fin nofile) : Option (Fin nfile) :=
  (s.procs d.1).bind fun x => x.ofile d.2

def Fs.withProc (s : Fs) (p : Fin nproc) (y : Option FProc) : Fs :=
  { s with procs := update s.procs p y }

variable {sb : Superblock} {g : Prop} {c c' : Cnt} {s s' s1 s2 : Fs} {e e' : Fin ninode}
  {p q : Fin nproc} {x : FProc} {y : Option FProc} {f : Fin nfile} {F : Fin nfile → Nat} {z : File}
  {k : Fin nofile} {n : Nat} {v : View} {r : Holder} {held : Holder → Option (Fin ninode)}
  {E : Panic → Prop} {Q : Unit → Fs → Prop} {ip : Fin ninode} {o : Fin nofile → Option (Fin nfile)}

@[simp] theorem ftable_setFile_self (s : Fs) (f : Fin nfile) (z : File) :
    (s.setFile f z).ftable f = z := update_self ..

theorem held_setFile (s : Fs) (f : Fin nfile) (z : File) :
    (s.setFile f z).held =
      update s.held (.inl f) (if z.kind = .none then none else some z.ip) := by
  funext r
  cases r with
  | inl f' =>
    by_cases h : f' = f
    · subst h
      simp [Fs.held, Fs.setFile]
    · simp [Fs.held, Fs.setFile, h]
  | inr p => exact (update_of_ne Sum.inr_ne_inl ..).symm

theorem held_withProc (s : Fs) (p : Fin nproc) (y : Option FProc) :
    (s.withProc p y).held = update s.held (.inr p) (y.map FProc.cwd) := by
  funext r
  cases r with
  | inl f => exact (update_of_ne Sum.inl_ne_inr ..).symm
  | inr p' =>
    by_cases h : p' = p
    · subst h
      simp [Fs.held, Fs.withProc]
    · simp [Fs.held, Fs.withProc, h]

theorem held_file (h : (s.ftable f).kind ≠ .none) : s.held (.inl f) = some (s.ftable f).ip :=
  if_neg h

theorem held_cwd (h : s.procs p = some x) : s.held (.inr p) = some x.cwd := by
  show (s.procs p).map FProc.cwd = _
  rw [h]
  rfl

theorem held_pos (h : s.held r = some e) : 0 < refs s.held e := refs_pos.mpr ⟨r, h⟩

theorem held_keeps (h : Keeps c s s') : s'.held = s.held := by
  unfold Fs.held
  rw [h.ftable, h.procs]

/-- One descriptor changes. -/
theorem fds_withProc (h : s.procs p = some x) (o : Option (Fin nfile)) :
    (s.withProc p (some { x with ofile := update x.ofile k o })).fds = update s.fds (p, k) o := by
  funext d
  by_cases hp : d.1 = p
  · by_cases hk : d.2 = k
    · have hd : d = (p, k) := Prod.ext hp hk
      subst hd
      simp [Fs.fds, Fs.withProc]
    · rw [update_of_ne fun hd => hk (congrArg Prod.snd hd)]
      simp [Fs.fds, Fs.withProc, hp, hk, h]
  · rw [update_of_ne fun hd => hp (congrArg Prod.fst hd)]
    simp [Fs.fds, Fs.withProc, hp]

theorem refs_hold (h : held r = none) (e : Fin ninode) :
    refs (update held r (some e)) = more (refs held) e :=
  funext fun a => refs_update_some h a

theorem more_drop (h : held r = some e) :
    more (refs (update held r none)) e = refs held :=
  funext fun a => refs_update_none h a

/-- One reference takes the place of another. -/
theorem more_change (h : held r = some e) (e' : Fin ninode) :
    more (refs (update held r (some e'))) e = more (refs held) e' := by
  have hnone : update held r none r = none := update_self ..
  have hsome : update held r (some e') = update (update held r none) r (some e') := by
    rw [update_idem]
  rw [hsome, refs_hold hnone, more_comm, more_drop h]

/-! ## §2 The invariant -/

/-- What files and processes rely on; `F` is the number of references that
each file has. -/
structure Uses (g : Prop) (F : Fin nfile → Nat) (s : Fs) : Prop where
  count : ∀ f, (s.ftable f).ref = F f
  idle : ∀ f, (s.ftable f).ref = 0 ↔ (s.ftable f).kind = .none
  writers : g → ∀ f, (s.ftable f).kind = .inode → (s.ftable f).writable = true →
    s.view.type (s.inum (s.ftable f).ip) ≠ .dir
  cwds : g → ∀ p x, s.procs p = some x → s.view.type (s.inum x.cwd) = .dir

structure Accounted (sb : Superblock) (g : Prop) (F : Fin nfile → Nat) (s : Fs) : Prop where
  table : Table sb g (refs s.held) s
  uses : Uses g F s

/-- The invariant between calls. -/
abbrev Inv (sb : Superblock) (g : Prop) (s : Fs) : Prop := Accounted sb g (refs s.fds) s

/-- A tree whose counts are in range. -/
abbrev Sane (n : Nat) (v : View) : Prop := Tree n none v ∧ Good n v

theorem Uses.frame (h : Uses g F s) (hf : Frame g (refs s.held) s s') : Uses g F s' where
  count := hf.keeps.ftable ▸ h.count
  idle := hf.keeps.ftable ▸ h.idle
  writers hg a hk hw := by
    rw [hf.keeps.ftable] at hk hw ⊢
    have hpos := held_pos (held_file (s := s) (f := a) (by rw [hk]; nofun))
    rw [hf.keeps.same hpos, hf.types hg _ hpos]
    exact h.writers hg a hk hw
  cwds hg a x hx := by
    rw [hf.keeps.procs] at hx
    have hpos := held_pos (held_cwd hx)
    rw [hf.keeps.same hpos, hf.types hg _ hpos]
    exact h.cwds hg a x hx

theorem Uses.setFile (h : Uses g F s) (f : Fin nfile) (hidle : z.ref = 0 ↔ z.kind = .none)
    (hw : g → z.kind = .inode → z.writable = true → s.view.type (s.inum z.ip) ≠ .dir) :
    Uses g (update F f z.ref) (s.setFile f z) := by
  have hself := ftable_setFile_self s f z
  have hne : ∀ {a}, a ≠ f → (s.setFile f z).ftable a = s.ftable a := fun ha =>
    update_of_ne ha ..
  refine ⟨fun a => ?_, fun a => ?_, fun hg a hk hwr => ?_, h.cwds⟩
  all_goals by_cases haf : a = f
  · subst haf
    rw [hself, update_self]
  · rw [hne haf, update_of_ne haf]
    exact h.count a
  · subst haf
    rw [hself]
    exact hidle
  · rw [hne haf]
    exact h.idle a
  · subst haf
    rw [hself] at hk hwr ⊢
    exact hw hg hk hwr
  · rw [hne haf] at hk hwr ⊢
    exact h.writers hg a hk hwr

theorem Uses.withProc (h : Uses g F s) (p : Fin nproc)
    (hy : g → ∀ x, y = some x → s.view.type (s.inum x.cwd) = .dir) :
    Uses g F (s.withProc p y) := by
  refine ⟨h.count, h.idle, h.writers, fun hg a x hx => ?_⟩
  by_cases ha : a = p
  · subst ha
    exact hy hg x ((update_self (β := fun _ => Option FProc) ..).symm.trans hx)
  · exact h.cwds hg a x ((update_of_ne (β := fun _ => Option FProc) ha ..).symm.trans hx)

theorem Table.setFile (h : Table sb g c s) (f : Fin nfile) (z : File) :
    Table sb g c (s.setFile f z) := ⟨h.owned, h.refs, h.sync, h.uniq, h.live, h.orphans⟩

theorem Table.withProc (h : Table sb g c s) (p : Fin nproc) (y : Option FProc) :
    Table sb g c (s.withProc p y) := ⟨h.owned, h.refs, h.sync, h.uniq, h.live, h.orphans⟩

theorem Frame.withProc (h : Frame g c s s') (p : Fin nproc) (y : Option FProc) :
    Frame g c (s.withProc p y) (s'.withProc p y) := by
  have hprocs : (s'.withProc p y).procs = (s.withProc p y).procs := by
    show update s'.procs p y = update s.procs p y
    rw [h.keeps.procs]
  exact ⟨⟨h.keeps.inum, h.keeps.valid, h.keeps.type, h.keeps.ftable, hprocs⟩, h.types⟩

/-- A call that leaves files and processes alone. -/
theorem Accounted.frame (h : Accounted sb g F s) (ht : Table sb g (refs s.held) s')
    (hf : Frame g (refs s.held) s s') : Accounted sb g F s' :=
  ⟨held_keeps hf.keeps ▸ ht, h.uses.frame hf⟩

/-- A process changes what it holds after a call of its own. -/
theorem Uses.swap (h : Uses g F s) (hy : g → ∀ x, y = some x → s.view.type (s.inum x.cwd) = .dir)
    (ht : Table sb g (refs (s.withProc p y).held) s')
    (hf : Frame g (refs (s.withProc p y).held) s s') : Accounted sb g F (s'.withProc p y) := by
  have hf' := hf.withProc p y
  exact ⟨held_keeps hf'.keeps ▸ ht.withProc p y, (h.withProc p hy).frame hf'⟩

theorem fds_congr (h : s'.procs = s.procs) : s'.fds = s.fds := by
  unfold Fs.fds
  rw [h]

theorem Accounted.inv (h : Accounted sb g F s) (hF : refs s.fds = F) : Inv sb g s := by
  subst hF
  exact h

theorem Inv.frame (h : Inv sb g s) (ht : Table sb g (refs s.held) s')
    (hf : Frame g (refs s.held) s s') : Inv sb g s' :=
  (Accounted.frame h ht hf).inv (by rw [fds_congr hf.keeps.procs])

/-- What files and current directories refer to is still allocated. -/
def Lives (s s' : Fs) : Prop := Alive (refs s.held) s → Alive (refs s'.held) s'

theorem Lives.refl : Lives s s := id

theorem Lives.trans (h : Lives s s1) (h' : Lives s1 s2) : Lives s s2 := fun ha => h' (h ha)

theorem Keeps.lives (h : Keeps (refs s.held) s s') : Lives s s' := by
  intro ha
  rw [held_keeps h]
  exact ha.keeps h

theorem Inv.ready (h : Inv sb g s) (hg : g → Sane sb.ninodes s.view) (hp : s.procs p = some x) :
    Ready sb g (refs s.held) p x s where
  table := h.table
  proc := hp
  cwd := held_pos (held_cwd hp)
  sound hg' := (hg hg').1.sound (hg hg').2
  linked hg' := (hg hg').2.dirs (h.uses.cwds hg' p x hp)

/-! ## §3 Files -/

theorem meets_getFile {Q : File → Fs → Prop} (h : Q (s.ftable f) s) :
    Meets E (getFile f) s Q := meets_read (meets_pure h)

theorem meets_modifyFile {m : File → File} (h : Q () (s.setFile f (m (s.ftable f)))) :
    Meets E (modifyFile f m) s Q := meets_modify h

/-- The same inode is open in the same way. -/
def File.like (z z' : File) : Prop :=
  z.kind = z'.kind ∧ z.ip = z'.ip ∧ z.writable = z'.writable

theorem held_like (h : z.like (s.ftable f)) : (s.setFile f z).held = s.held := by
  rw [held_setFile, h.1, h.2.1]
  exact update_eq_self (.inl f) s.held

theorem Lives.like (h : z.like (s.ftable f)) : Lives s (s.setFile f z) := by
  intro ha
  rw [held_like h]
  exact ha

/-- The offset of a file changes, or its number of references. -/
theorem Accounted.like (h : Accounted sb g F s) (hz : z.like (s.ftable f))
    (hidle : z.ref = 0 ↔ z.kind = .none) : Accounted sb g (update F f z.ref) (s.setFile f z) := by
  refine ⟨held_like hz ▸ h.table.setFile f z, h.uses.setFile f hidle fun hg hk hw => ?_⟩
  rw [hz.2.1]
  exact h.uses.writers hg f (hz.1 ▸ hk) (hz.2.2 ▸ hw)

/-- Only the offset changes. -/
theorem Accounted.setOff (h : Accounted sb g F s) (off : Nat) :
    Accounted sb g F (s.setFile f { s.ftable f with off := off }) := by
  have hlike := h.like (f := f) (z := { s.ftable f with off := off }) ⟨rfl, rfl, rfl⟩
    (h.uses.idle f)
  rwa [show ({ s.ftable f with off := off } : File).ref = F f from h.uses.count f,
    update_eq_self] at hlike

theorem held_setOfile (hp : s.procs p = some x) (o : Fin nofile → Option (Fin nfile)) :
    (s.withProc p (some { x with ofile := o })).held = s.held := by
  rw [held_withProc]
  exact (congrArg _ (held_cwd hp).symm).trans (update_eq_self ..)

theorem Lives.setOfile (hp : s.procs p = some x) (o : Fin nofile → Option (Fin nfile)) :
    Lives s (s.withProc p (some { x with ofile := o })) := by
  intro ha
  rw [held_setOfile hp o]
  exact ha

/-- A process changes its descriptors. -/
theorem Accounted.setOfile (h : Accounted sb g F s) (hp : s.procs p = some x)
    (o : Fin nofile → Option (Fin nfile)) :
    Accounted sb g F (s.withProc p (some { x with ofile := o })) := by
  refine ⟨held_setOfile hp o ▸ h.table.withProc p _, h.uses.withProc p fun hg x' hx => ?_⟩
  cases hx
  exact h.uses.cwds hg p x hp

/-- A file that is referred to has been opened. -/
theorem Accounted.kind_ne_none (h : Accounted sb g F s) (hf : 0 < F f) :
    (s.ftable f).kind ≠ .none := by
  intro hk
  have h0 := (h.uses.idle f).mpr hk
  rw [h.uses.count f] at h0
  omega

theorem fileclose_spec (h : Accounted sb g F s) (hf : 0 < F f) (hg : g → Sane sb.ninodes s.view) :
    Meets E (fileclose f) s fun _ s' =>
      Accounted sb g (update F f (F f - 1)) s' ∧ s'.procs = s.procs ∧
      (g → Sane sb.ninodes s'.view) ∧ Lives s s' := by
  have href := h.uses.count f
  refine Meets.bind (meets_getFile ?_)
  rw [if_neg (by omega)]
  split
  case isTrue hgt =>
    refine meets_modifyFile ⟨?_, rfl, hg, .like ⟨rfl, rfl, rfl⟩⟩
    rw [← href]
    exact h.like (z := { s.ftable f with ref := (s.ftable f).ref - 1 }) ⟨rfl, rfl, rfl⟩
      (iff_of_false (by show (s.ftable f).ref - 1 ≠ 0; omega) (h.kind_ne_none hf))
  case isFalse hle =>
    have hone : F f - 1 = 0 := by omega
    rw [hone]
    refine Meets.bind (meets_modifyFile ?_)
    have huses := h.uses.setFile (z := { s.ftable f with ref := 0, kind := .none }) f
      (iff_of_true rfl rfl) nofun
    have hheld := held_setFile s f { s.ftable f with ref := 0, kind := .none }
    rw [if_pos rfl] at hheld
    have hk := h.kind_ne_none hf
    rw [if_neg hk]
    have hdrop : more (refs (s.setFile f { s.ftable f with ref := 0, kind := .none }).held)
        (s.ftable f).ip = refs s.held := by
      rw [hheld, more_drop (held_file hk)]
    have htable := h.table.setFile f { s.ftable f with ref := 0, kind := .none }
    rw [← hdrop] at htable
    refine (iput_tree htable hg).imp fun _ s1 ⟨h1, hf1, hg1, _⟩ =>
      ⟨⟨?_, huses.frame hf1⟩, hf1.keeps.procs, hg1, fun ha => hf1.keeps.lives ?_⟩
    · rw [held_keeps hf1.keeps]
      exact h1
    · rw [← hdrop] at ha
      exact ha.mono fun _ => pos_more

/-- What a call on an open file leaves behind. -/
structure Kept (sb : Superblock) (g : Prop) (F : Fin nfile → Nat) (s s' : Fs) : Prop where
  books : Accounted sb g F s'
  procs : s'.procs = s.procs
  view : g → s'.view = s.view
  lives : Lives s s'

theorem Kept.refl (h : Accounted sb g F s) : Kept sb g F s s := ⟨h, rfl, fun _ => rfl, .refl⟩

theorem Kept.trans {F' : Fin nfile → Nat} (h : Kept sb g F s s1) (h' : Kept sb g F' s1 s2) :
    Kept sb g F' s s2 :=
  ⟨h'.books, h'.procs.trans h.procs, fun hg => (h'.view hg).trans (h.view hg),
    h.lives.trans h'.lives⟩

theorem Kept.setOff (h : Kept sb g F s s') (off : Nat) :
    Kept sb g F s (s'.setFile f { s'.ftable f with off := off }) :=
  ⟨h.books.setOff _, h.procs, h.view, h.lives.trans (.like ⟨rfl, rfl, rfl⟩)⟩

/-- `ilock` on the inode of an open file. -/
theorem ilockFile_spec (h : Accounted sb g F s) (hk : (s.ftable f).kind = .inode) :
    Meets (Allowed g) (ilock (s.ftable f).ip) s fun _ s' =>
      Kept sb g F s s' ∧ s'.ftable = s.ftable ∧ 0 < refs s'.held (s.ftable f).ip ∧
      (s'.itable (s.ftable f).ip).valid = true := by
  have hpos := held_pos (held_file (s := s) (f := f) (by rw [hk]; nofun))
  refine (ilock_spec h.table hpos).imp fun _ s1 ⟨h1, hk1, hst1, hv1⟩ => ?_
  exact ⟨⟨h.frame h1 (.of_store hk1 fun _ => hst1), hk1.procs, fun _ => view_of_store hst1,
    hk1.lives⟩, hk1.ftable, held_keeps hk1 ▸ hpos, hv1⟩

theorem fileread_spec (h : Accounted sb g F s) (hf : 0 < F f) (n : Int) (good : Nat) (dev : Int) :
    Meets (Allowed g) (fileread sb f n good dev) s fun _ s' => Kept sb g F s s' := by
  refine Meets.bind (meets_getFile ?_)
  split
  case isTrue => exact meets_pure (.refl h)
  case isFalse =>
  split
  case h_2 => exact meets_pure (.refl h)
  case h_3 hk => exact absurd hk (h.kind_ne_none hf)
  case h_1 hk =>
    refine (ilockFile_spec h hk).seq fun _ s1 ⟨h1, _, hpos, hv⟩ => ?_
    refine (readInode_spec h1.books.table hpos hv _ _ _).seq fun r s2 ⟨hs, _⟩ => ?_
    subst hs
    dsimp only
    split
    · exact Meets.bind (meets_modifyFile (meets_pure (h1.setOff _)))
    · exact meets_pure h1

/-- A write to the inode of an open file, which is not a directory. -/
theorem writeFile_spec (h : Accounted sb g F s) (hk : (s.ftable f).kind = .inode)
    (hw : (s.ftable f).writable = true) (hpos : 0 < refs s.held (s.ftable f).ip)
    (hv : (s.itable (s.ftable f).ip).valid = true) (src : Src) (off n : Nat) :
    Meets E (writeInode sb (s.ftable f).ip src off n) s fun _ s' =>
      Kept sb g F s s' ∧ s'.ftable = s.ftable := by
  refine (writeInode_meets h.table hpos hv src off n).imp fun r s1 hr => ?_
  rcases hr with ⟨-, -, rfl⟩ | ⟨t, ip, st, _, rfl, _, hwrote, htable⟩
  · exact ⟨.refl h, rfl⟩
  · have hview : g → (s.change (s.ftable f).ip st).view = s.view := fun hg =>
      hwrote.view_file (h.uses.writers hg f hk hw)
    have hkeeps := Keeps.change (refs s.held) s (s.ftable f).ip hwrote.types
    exact ⟨⟨h.frame htable (.of_view hkeeps hview), rfl, hview, hkeeps.lives⟩, rfl⟩

theorem filewriteLoop_spec (src : Src) (n : Nat) : ∀ (fuel i : Nat) {s : Fs},
    Accounted sb g F s → (s.ftable f).kind = .inode → (s.ftable f).writable = true →
    Meets (Allowed g) (filewriteLoop sb f src n fuel i) s fun _ s' => Kept sb g F s s' := by
  intro fuel
  induction fuel with
  | zero => exact fun i s h _ _ => meets_pure (.refl h)
  | succ fuel ih =>
    intro i s h hk hw
    unfold filewriteLoop
    split
    case isFalse => exact meets_pure (.refl h)
    case isTrue =>
    refine Meets.bind (meets_getFile ?_)
    refine (ilockFile_spec h hk).seq fun _ s1 ⟨h1, hft1, hpos, hv⟩ => ?_
    rw [← hft1] at hk hw hpos hv ⊢
    refine (writeFile_spec h1.books hk hw hpos hv _ _ _).seq fun r s2 ⟨h2, hft2⟩ => ?_
    rw [← hft2] at hk hw
    replace h2 := h1.trans h2
    -- the offset, and then the next round
    have hnext : ∀ s3, Kept sb g F s s3 → (s3.ftable f).kind = .inode →
        (s3.ftable f).writable = true →
        Meets (Allowed g) (if r ≠ ↑(min (n - i) maxWrite) then pure i
          else filewriteLoop sb f src n fuel (i + min (n - i) maxWrite)) s3
          fun _ s' => Kept sb g F s s' := by
      intro s3 h3 hk3 hw3
      split
      · exact meets_pure h3
      · exact (ih _ h3.books hk3 hw3).imp fun _ s4 h4 => h3.trans h4
    dsimp only
    split
    · refine Meets.bind (meets_modifyFile (hnext _ (h2.setOff _) ?_ ?_))
      · rw [ftable_setFile_self]
        exact hk
      · rw [ftable_setFile_self]
        exact hw
    · exact hnext s2 h2 hk hw

theorem filewrite_spec (h : Accounted sb g F s) (hf : 0 < F f) (src : Src) (n dev : Int) :
    Meets (Allowed g) (filewrite sb f src n dev) s fun _ s' => Kept sb g F s s' := by
  refine Meets.bind (meets_getFile ?_)
  split
  case isTrue => exact meets_pure (.refl h)
  case isFalse hw =>
  split
  case h_2 => exact meets_pure (.refl h)
  case h_3 hk => exact absurd hk (h.kind_ne_none hf)
  case h_1 hk =>
    have hw' : (s.ftable f).writable = true := by simpa using hw
    exact (filewriteLoop_spec src _ _ 0 h hk hw').seq fun _ s1 h1 => meets_pure h1

theorem filedup_spec (h : Accounted sb g F s) (hf : 0 < F f) :
    Meets (Allowed g) (filedup f) s fun _ s' => Kept sb g (update F f (F f + 1)) s s' := by
  have hcount := h.uses.count f
  refine Meets.bind (meets_getFile ?_)
  split
  · omega
  · refine meets_modifyFile ⟨?_, rfl, fun _ => rfl, .like ⟨rfl, rfl, rfl⟩⟩
    rw [← h.uses.count f]
    exact h.like (z := { s.ftable f with ref := (s.ftable f).ref + 1 }) ⟨rfl, rfl, rfl⟩
      (iff_of_false nofun (h.kind_ne_none hf))

/-! ## §4 Calls on descriptors -/

theorem argfd_seq {y : Option (Fin nofile × Fin nfile) → Files.F Int} {Q : Int → Fs → Prop}
    (hp : s.procs p = some x) (fd : Int) (hnone : Meets E (y none) s Q)
    (hsome : ∀ k f, x.ofile k = some f → Meets E (y (some (k, f))) s Q) :
    Meets E (argfd p fd >>= y) s Q := by
  refine Meets.bind (Meets.bind (getProc_spec hp ?_))
  split
  · refine meets_pure ?_
    cases ho : x.ofile _ with
    | none => exact hnone
    | some f => exact hsome _ f ho
  · exact meets_pure hnone

theorem meets_setProc (h : Q () (s.withProc p (some x))) :
    Meets E (setProc p x) s Q := meets_modify h

section

variable (hp : s.procs p = some x)
include hp

theorem fdalloc_spec (f : Fin nfile) :
    Meets E (fdalloc p f) s fun r s' =>
      r = none ∧ s' = s ∨ ∃ k, r = some k ∧ x.ofile k = none ∧
        s' = s.withProc p (some { x with ofile := update x.ofile k (some f) }) := by
  refine Meets.bind (getProc_spec hp ?_)
  cases hf : (List.finRange nofile).find? fun k => x.ofile k = none with
  | none => exact meets_pure (.inl ⟨rfl, rfl⟩)
  | some k =>
    have hk : x.ofile k = none := by simpa using List.find?_some hf
    exact Meets.bind (meets_setProc (meets_pure (.inr ⟨k, rfl, hk, rfl⟩)))

theorem fds_some : s.fds (p, k) = x.ofile k := by
  unfold Fs.fds
  rw [hp]
  rfl

theorem fds_pos (hk : x.ofile k = some f) : 0 < refs s.fds f :=
  refs_pos.mpr ⟨(p, k), (fds_some hp).trans hk⟩

/-- A new descriptor is one more reference to its file, -/
theorem refs_fds_more (hk : x.ofile k = none) (f : Fin nfile) :
    refs (s.withProc p (some { x with ofile := update x.ofile k (some f) })).fds =
      update (refs s.fds) f (refs s.fds f + 1) := by
  rw [fds_withProc hp, refs_add ((fds_some hp).trans hk)]

/-- and a closed one is one less. -/
theorem refs_fds_less (hk : x.ofile k = some f) :
    refs (s.withProc p (some { x with ofile := update x.ofile k none })).fds =
      update (refs s.fds) f (refs s.fds f - 1) := by
  rw [fds_withProc hp, refs_remove ((fds_some hp).trans hk)]

end

/-- The end of a call after which the tree is sane. -/
structure Settled (sb : Superblock) (g : Prop) (s' : Fs) : Prop where
  inv : Inv sb g s'
  sane : g → Sane sb.ninodes s'.view

theorem Kept.settled (h : Kept sb g (refs s.fds) s s') (hg : g → Sane sb.ninodes s.view) :
    Settled sb g s' ∧ Lives s s' :=
  ⟨⟨h.books.inv (by rw [fds_congr h.procs]), fun hg' => h.view hg' ▸ hg hg'⟩, h.lives⟩

section

variable (h : Settled sb g s) (hp : s.procs p = some x)
include h hp

theorem sysDup_spec (fd : Int) :
    Meets (Allowed g) (sysDup p fd) s fun _ s' => Settled sb g s' ∧ Lives s s' := by
  refine argfd_seq hp fd (meets_pure ⟨h, .refl⟩) fun k f hk => ?_
  refine (fdalloc_spec hp f).seq fun r s2 hs => ?_
  rcases hs with ⟨rfl, rfl⟩ | ⟨l, rfl, hl, rfl⟩
  · exact meets_pure ⟨h, .refl⟩
  · have hbooks : Accounted sb g (refs s.fds) _ := h.inv.setOfile hp (update x.ofile l (some f))
    refine (filedup_spec hbooks (fds_pos hp hk)).seq fun _ s3 h3 => meets_pure ?_
    refine ⟨⟨h3.books.inv ?_, fun hg => h3.view hg ▸ h.sane hg⟩,
      (Lives.setOfile hp _).trans h3.lives⟩
    rw [fds_congr h3.procs, refs_fds_more hp hl f]

theorem sysRead_spec (fd n : Int) (good : Nat)
    (dev : Int) : Meets (Allowed g) (sysRead sb p fd n good dev) s fun _ s' => Settled sb g s' ∧
      Lives s s' :=
  argfd_seq hp fd (meets_pure ⟨h, .refl⟩) fun _ _ hk =>
    (fileread_spec h.inv (fds_pos hp hk) n good dev).imp fun _ _ h2 => h2.settled h.sane

theorem sysWrite_spec (fd n : Int) (src : Src)
    (dev : Int) : Meets (Allowed g) (sysWrite sb p fd n src dev) s fun _ s' => Settled sb g s' ∧
      Lives s s' :=
  argfd_seq hp fd (meets_pure ⟨h, .refl⟩) fun _ _ hk =>
    (filewrite_spec h.inv (fds_pos hp hk) src n dev).imp fun _ _ h2 => h2.settled h.sane

theorem sysClose_spec (fd : Int) :
    Meets (Allowed g) (sysClose p fd) s fun _ s' => Settled sb g s' ∧ Lives s s' := by
  refine argfd_seq hp fd (meets_pure ⟨h, .refl⟩) fun k f hk => ?_
  refine Meets.bind (getProc_spec hp (Meets.bind (meets_setProc ?_)))
  have hbooks : Accounted sb g (refs s.fds) _ := h.inv.setOfile hp (update x.ofile k none)
  refine (fileclose_spec hbooks (fds_pos hp hk) h.sane).seq
    fun _ s2 ⟨h2, hpr2, hg2, hl2⟩ => meets_pure ⟨⟨h2.inv ?_, hg2⟩, (Lives.setOfile hp _).trans hl2⟩
  rw [fds_congr hpr2, refs_fds_less hp hk]

end

/-! ## §5 Calls on names -/

/-- The end of a call that may have removed a directory. -/
structure Ended (sb : Superblock) (g : Prop) (s' : Fs) : Prop where
  inv : Inv sb g s'
  tree : g → Grove sb.ninodes s'.view

theorem Settled.ended (h : Settled sb g s) : Ended sb g s := ⟨h.inv, fun hg => (h.sane hg).1.grove⟩

theorem Ended.settled (h : Ended sb g s) (hg : g → Good sb.ninodes s.view) : Settled sb g s :=
  ⟨h.inv, fun hg' => ⟨(h.tree hg').tree fun _ hd _ => (hg hg').dirs hd, hg hg'⟩⟩

theorem Done.ended (h : Done sb g (refs s.held) s s') (hi : Inv sb g s) :
    Ended sb g s' ∧ Lives s s' :=
  ⟨⟨hi.frame h.table h.frame, h.tree⟩, h.frame.keeps.lives⟩

/-- A new inode that nobody keeps. -/
theorem Made.iput {type : FileType} (h : Made sb g c type s e s') :
    Meets E (iput e) s' fun _ s'' => Done sb g c s s'' := by
  refine (iput_linked h.table h.linked).imp fun _ s2 ⟨h2, hk2, hst2, _⟩ => ?_
  exact Done.after (.same h2 hk2 hst2 h.tree) h.frame

theorem make_spec (h : Settled sb g s) (hp : s.procs p = some x) (path : Option (List Byte))
    {type : FileType} (htype : type ≠ .free) (major minor : BitVec 16) :
    Meets (Allowed g) (make sb p path type major minor) s fun _ s' => Ended sb g s' ∧ Lives s
      s' := by
  unfold make
  split
  · exact meets_pure ⟨h.ended, .refl⟩
  · refine (create_spec (h.inv.ready h.sane hp) h.sane _ htype major minor).seq
      fun r s1 ⟨⟨hnone, hsome⟩, _⟩ => ?_
    cases r with
    | none => exact meets_pure ((hnone rfl).ended h.inv)
    | some ip => exact (hsome ip rfl).iput.seq fun _ s2 h2 => meets_pure (h2.ended h.inv)

theorem fds_cwd (hpr : s'.procs = s.procs) (hp : s.procs p = some x) (ip : Fin ninode) :
    (s'.withProc p (some { x with cwd := ip })).fds = s.fds := by
  funext d
  by_cases hd : d.1 = p
  · simp [Fs.fds, Fs.withProc, hd, hp]
  · simp [Fs.fds, Fs.withProc, hd, hpr]

theorem setFile_setFile (s : Fs) (f : Fin nfile) (z z' : File) :
    (s.setFile f z).setFile f z' = s.setFile f z' := by
  unfold Fs.setFile
  rw [update_idem]

theorem setFile_withProc (s : Fs) (f : Fin nfile) (z : File) (p : Fin nproc) (y : Option FProc) :
    (s.withProc p y).setFile f z = (s.setFile f z).withProc p y := rfl

/-- A call that has looked up inode `ip` and has it locked. -/
structure Holding (sb : Superblock) (g : Prop) (ip : Fin ninode) (s : Fs) : Prop where
  table : Table sb g (more (refs s.held) ip) s
  uses : Uses g (refs s.fds) s
  valid : (s.itable ip).valid = true
  linked : g → s.view.nlink (s.inum ip) ≠ 0
  tree : g → Tree sb.ninodes none s.view

/-- It can let go of the inode. -/
theorem Holding.drop (h : Holding sb g ip s) {α : Type} (a : α) :
    Meets E (do
      iput ip
      return a) s fun _ s' => Ended sb g s' ∧ Lives s s' := by
  refine (iput_linked h.table h.linked).seq fun _ s1 ⟨h1, hk1, hst1, _⟩ => meets_pure ?_
  have hbooks : Accounted sb g (refs s.fds) s1 :=
    ⟨held_keeps hk1 ▸ h1, h.uses.frame (.of_store hk1 hst1)⟩
  refine ⟨⟨hbooks.inv (by rw [fds_congr hk1.procs]), fun hg' => ?_⟩, hk1.lives⟩
  rw [view_of_store (hst1 hg')]
  exact (h.tree hg').grove

/-- A path leads nowhere, or to an inode that `ilock` then holds. -/
theorem namei_holding (h : Settled sb g s) (hp : s.procs p = some x) (path : List Byte) :
    Meets (Allowed g) (namei sb p path) s fun r s1 => (r = none → Ended sb g s1 ∧ Lives s s1) ∧
      ∀ ip, r = some ip → Meets (Allowed g) (locked ip) s1 fun dn s2 => Holding sb g ip s2 ∧
        Keeps (refs s.held) s s2 ∧ (g → s2.store = s.store) ∧
        s2.store.dinodes (s2.inum ip) = dn := by
  refine (namei_spec (h.inv.ready h.sane hp) path).imp fun r s1 ⟨hk1, hst1, hnone, hsome, hf1⟩ => ?_
  have hg1 : g → Tree sb.ninodes none s.view := fun hg' => (h.sane hg').1
  refine ⟨fun hr => Done.ended (.same (hnone hr) hk1 hst1 hg1) h.inv, fun ip hr => ?_⟩
  obtain ⟨h1, hl1⟩ := hsome ip hr
  refine (locked_arrived h1 hk1 hst1 hl1 hf1).imp
    fun dn s2 ⟨⟨h2, hk, hst, hv2, hl2, _⟩, _, hdn⟩ => ⟨?_, hk, hst, hdn⟩
  refine ⟨held_keeps hk ▸ h2, ?_, hv2, hl2, fun hg' => ?_⟩
  · rw [fds_congr hk.procs]
    exact h.inv.uses.frame (.of_store hk hst)
  · rw [view_of_store (hst hg')]
    exact hg1 hg'

theorem sysChdir_spec (h : Settled sb g s) (hp : s.procs p = some x) (path : Option (List Byte)) :
    Meets (Allowed g) (sysChdir sb p path) s fun _ s' => Ended sb g s' ∧ Lives s s' := by
  unfold sysChdir
  split
  · exact meets_pure ⟨h.ended, .refl⟩
  · refine (namei_holding h hp _).seq fun r s1 ⟨hnone, hsome⟩ => ?_
    cases r with
    | none => exact meets_pure (hnone rfl)
    | some ip =>
      refine (hsome ip rfl).seq fun dn s2 ⟨h2, hk, hst, hdn⟩ => ?_
      split
      case isTrue =>
        exact (h2.drop (-1 : Int)).imp fun _ _ ⟨h3, hl3⟩ => ⟨h3, hk.lives.trans hl3⟩
      case isFalse hdir =>
        have hp2 : s2.procs p = some x := hk.procs ▸ hp
        have hmore : more (refs (s2.withProc p (some { x with cwd := ip })).held) x.cwd =
            more (refs s2.held) ip := by
          rw [held_withProc, Option.map_some, more_change (held_cwd hp2)]
        refine Meets.bind (getProc_spec hp2 ?_)
        refine (iput_linked (hmore ▸ h2.table) fun hg' => ?_).seq fun _ s3 hs3 => ?_
        · rw [view_of_store (hst hg'), hk.same (held_pos (held_cwd hp))]
          exact (h.sane hg').2.dirs (h.inv.uses.cwds hg' p x hp)
        obtain ⟨h3, hk3, hst3, _⟩ := hs3
        refine Meets.bind (meets_setProc (meets_pure ⟨⟨?_, fun hg' => ?_⟩, ?_⟩))
        · refine (h2.uses.swap (fun hg' x' hx => ?_) h3 (.of_store hk3 hst3)).inv ?_
          · cases hx
            exact (congrArg Dinode.type hdn).trans (not_not.mp hdir)
          · rw [fds_cwd hk3.procs hp2]
        · show Grove sb.ninodes s3.view
          rw [view_of_store (hst3 hg')]
          exact (h2.tree hg').grove
        · refine hk.lives.trans (.trans (fun ha => ?_)
            ((Frame.of_store hk3 hst3).withProc p _).keeps.lives)
          exact (hmore ▸ ha.more h2.table h2.valid).mono fun _ => pos_more

/-- A file that has been allocated and not opened is closed. -/
theorem fileclose_unused (href : (s.ftable f).ref = 1) (hk : (s.ftable f).kind = .none) :
    Meets E (fileclose f) s fun _ s' =>
      s' = s.setFile f { s.ftable f with ref := 0, kind := .none } := by
  refine Meets.bind (meets_getFile ?_)
  rw [href, hk]
  exact Meets.bind (meets_modifyFile (meets_pure rfl))

theorem filealloc_spec :
    Meets E filealloc s fun r s' =>
      r = none ∧ s' = s ∨ ∃ f, r = some f ∧ (s.ftable f).ref = 0 ∧
        s' = s.setFile f { s.ftable f with ref := 1 } := by
  refine meets_read ?_
  cases hf : (List.finRange nfile).find? fun f => (s.ftable f).ref = 0 with
  | none => exact meets_pure (.inl ⟨rfl, rfl⟩)
  | some f =>
    have href : (s.ftable f).ref = 0 := by simpa using List.find?_some hf
    exact Meets.bind (meets_modifyFile (meets_pure (.inr ⟨f, rfl, href, rfl⟩)))

/-- `itrunc` of a file does not show in the tree. -/
theorem truncFile_spec (h : Accounted sb g F s) (hpos : 0 < refs s.held ip)
    (hv : (s.itable ip).valid = true) (hfile : s.view.type (s.inum ip) ≠ .dir) :
    Meets E (truncInode ip) s fun _ s' =>
      Accounted sb g F s' ∧ s'.procs = s.procs ∧ s'.view = s.view ∧ Lives s s' := by
  refine (truncInode_spec h.table hpos hv).imp fun _ s1 ⟨st, hs, hdata, hdin, ht⟩ => ?_
  have hview : s1.view = s.view := by
    rw [hs]
    show st.view = s.view
    exact view_hidden hdin (fun _ _ _ => by rw [hdata]) rfl rfl hfile
  have hkeeps : Keeps (refs s.held) s s1 := by
    rw [hs]
    refine .change _ s ip fun j => ?_
    have hsame : (s.store.dinodes (s.inum ip)).emptied.type = _ := rfl
    rw [hdin]
    exact type_update hsame j
  exact ⟨h.frame ht (.of_view hkeeps fun _ => hview), hkeeps.procs, hview, hkeeps.lives⟩

section

variable (h : Holding sb g ip s) (hp : s.procs p = some x)
include h hp

/-- The new file is what holds the inode now. -/
theorem Holding.held_opened (href : (s.ftable f).ref = 0) (hkind : z.kind ≠ .none) (hip : z.ip = ip)
    (o : Fin nofile → Option (Fin nfile)) :
    refs ((s.withProc p (some { x with ofile := o })).setFile f z).held =
      more (refs s.held) ip := by
  have hnone : s.held (.inl f) = none := if_pos ((h.uses.idle f).mp href)
  rw [held_setFile, if_neg hkind, hip, held_setOfile hp o, refs_hold hnone]

/-- The file and the descriptor are filled in. -/
theorem Holding.opened (hk : x.ofile k = none)
    (href : (s.ftable f).ref = 0) (hz : z.ref = 1) (hkind : z.kind ≠ .none) (hip : z.ip = ip)
    (hw : g → z.writable = true → s.view.type (s.inum ip) ≠ .dir) :
    Inv sb g ((s.withProc p (some { x with ofile := update x.ofile k (some f) })).setFile f z) := by
  have hcount : refs s.fds f = 0 := (h.uses.count f).symm.trans href
  have hheld := h.held_opened hp href hkind hip (update x.ofile k (some f))
  have huses := (h.uses.withProc p (y := some { x with ofile := update x.ofile k (some f) })
    fun hg' x' hx => by cases hx; exact h.uses.cwds hg' p x hp).setFile (z := z) f
    (by simp [hz, hkind]) fun hg' _ hwr => hip ▸ hw hg' hwr
  refine Accounted.inv ⟨hheld ▸ (h.table.withProc p _).setFile f z, huses⟩ ?_
  show refs (s.withProc p (some { x with ofile := update x.ofile k (some f) })).fds = _
  rw [refs_fds_more hp hk f, hz, hcount]

theorem Holding.lives (href : (s.ftable f).ref = 0) (hkind : z.kind ≠ .none) (hip : z.ip = ip)
    (o : Fin nofile → Option (Fin nfile)) :
    Lives s ((s.withProc p (some { x with ofile := o })).setFile f z) := by
  intro ha
  rw [h.held_opened hp href hkind hip o]
  exact ha.more h.table h.valid

/-- The end of `sys_open`, which may truncate a file. -/
theorem Holding.finish (hk : x.ofile k = none)
    (href : (s.ftable f).ref = 0) (hz : z.ref = 1) (hkind : z.kind ≠ .none) (hip : z.ip = ip)
    (hw : g → z.writable = true → s.view.type (s.inum ip) ≠ .dir) (t : Bool) {α : Type} (a : α) :
    Meets E (if t = true ∧ (s.itable ip).copy.type = .file then do
        truncInode ip
        return a
      else return a)
      ((s.withProc p (some { x with ofile := update x.ofile k (some f) })).setFile f z)
      fun _ s' => Ended sb g s' ∧ Lives s s' := by
  have hinv := h.opened hp hk href hz hkind hip hw
  have hl := h.lives hp href hkind hip (update x.ofile k (some f))
  split
  case isTrue hcond =>
    have hfile : s.view.type (s.inum ip) ≠ .dir := by
      have htype := hcond.2
      rw [(h.table.sync ip (by simp) h.valid).1] at htype
      intro hd
      cases htype.symm.trans hd
    have hpos : 0 < refs
        ((s.withProc p (some { x with ofile := update x.ofile k (some f) })).setFile f z).held
          ip := by
      refine held_pos (r := .inl f) ?_
      rw [held_setFile, if_neg hkind, update_self, hip]
    refine (truncFile_spec hinv hpos h.valid hfile).seq fun _ s1 hs1 => meets_pure ?_
    obtain ⟨h1, hpr1, hview1, hl1⟩ := hs1
    refine ⟨⟨h1.inv (by rw [fds_congr hpr1]), fun hg' => ?_⟩, hl.trans hl1⟩
    rw [hview1]
    exact (h.tree hg').grove
  case isFalse => exact meets_pure ⟨⟨hinv, fun hg' => (h.tree hg').grove⟩, hl⟩

theorem openInode_spec (omode : Nat)
    (hw : g → (oWronly omode || oRdwr omode) = true → s.view.type (s.inum ip) ≠ .dir) :
    Meets (Allowed g) (openInode p ip omode) s fun _ s' => Ended sb g s' ∧ Lives s s' := by
  refine Meets.bind (meets_getInode ?_)
  dsimp only
  split
  case isTrue => exact h.drop (-1 : Int)
  case isFalse =>
  refine filealloc_spec.seq fun r s1 hs1 => ?_
  rcases hs1 with ⟨rfl, rfl⟩ | ⟨f, rfl, href, rfl⟩
  · exact h.drop (-1 : Int)
  have hp1 : (s.setFile f { s.ftable f with ref := 1 }).procs p = some x := hp
  refine (fdalloc_spec hp1 f).seq fun r s2 hs2 => ?_
  rcases hs2 with ⟨rfl, rfl⟩ | ⟨k, rfl, hk, rfl⟩
  · have hkind := (h.uses.idle f).mp href
    refine (fileclose_unused (by rw [ftable_setFile_self])
      (by rw [ftable_setFile_self]; exact hkind)
      ).seq fun _ s2 hs2 => ?_
    rw [setFile_setFile, ftable_setFile_self] at hs2
    -- the file table is as it was
    have hsame : s2 = s := by
      rw [hs2, ← href, ← hkind]
      unfold Fs.setFile
      rw [update_eq_self]
    rw [hsame]
    exact h.drop (-1 : Int)
  · refine Meets.bind (meets_modifyFile (Meets.bind (meets_modifyFile ?_)))
    rw [setFile_setFile, ← setFile_withProc, setFile_setFile, ftable_setFile_self,
      ftable_setFile_self]
    refine h.finish hp hk href ?_ ?_ rfl hw _ _
    · split <;> rfl
    · split <;> (intro hn; cases hn)

end

theorem sysOpen_spec (h : Settled sb g s) (hp : s.procs p = some x) (path : Option (List Byte))
    (omode : Nat) :
    Meets (Allowed g) (sysOpen sb p path omode) s fun _ s' => Ended sb g s' ∧ Lives s s' := by
  unfold sysOpen
  split
  case h_1 => exact meets_pure ⟨h.ended, .refl⟩
  case h_2 path _ =>
  split
  case isTrue =>
    refine (create_spec (h.inv.ready h.sane hp) h.sane path (by decide) 0 0).seq
      fun r s1 ⟨⟨hnone, hsome⟩, _⟩ => ?_
    cases r with
    | none => exact meets_pure ((hnone rfl).ended h.inv)
    | some ip =>
      have hmade := hsome ip rfl
      have hkeeps := hmade.frame.keeps
      have hhold : Holding sb g ip s1 := by
        refine ⟨held_keeps hkeeps ▸ hmade.table, ?_, hmade.valid, hmade.linked, hmade.tree⟩
        rw [fds_congr hkeeps.procs]
        exact h.inv.uses.frame hmade.frame
      refine (openInode_spec hhold (hkeeps.procs ▸ hp) omode fun hg' _ => hmade.file hg' rfl).imp ?_
      exact fun _ _ ⟨h2, hl2⟩ => ⟨h2, hkeeps.lives.trans hl2⟩
  case isFalse =>
    refine (namei_holding h hp path).seq fun r s1 ⟨hnone, hsome⟩ => ?_
    cases r with
    | none => exact meets_pure (hnone rfl)
    | some ip =>
      refine (hsome ip rfl).seq fun dn s2 ⟨hhold, hk, _, hdn⟩ => ?_
      split
      case isTrue =>
        exact (hhold.drop (-1 : Int)).imp fun _ _ ⟨h3, hl3⟩ => ⟨h3, hk.lives.trans hl3⟩
      case isFalse hcond =>
        refine (openInode_spec hhold (hk.procs ▸ hp) omode fun hg' hwr hdir => hcond ⟨?_, ?_⟩).imp
          fun _ _ ⟨h3, hl3⟩ => ⟨h3, hk.lives.trans hl3⟩
        · exact (congrArg Dinode.type hdn).symm.trans hdir
        · rintro rfl
          cases hwr

/-! ## §6 `fork` and `exit` -/

/-- The descriptors `ks` of process `q` become those of `o`. -/
def fill (m : Fin nproc × Fin nofile → Option (Fin nfile)) (q : Fin nproc)
    (o : Fin nofile → Option (Fin nfile)) (ks : List (Fin nofile))
    (d : Fin nproc × Fin nofile) : Option (Fin nfile) :=
  if d.1 = q ∧ d.2 ∈ ks then o d.2 else m d

theorem fill_cons {m : Fin nproc × Fin nofile → Option (Fin nfile)} {ks : List (Fin nofile)} :
    fill (update m (q, k) (o k)) q o ks = fill m q o (k :: ks) := by
  funext d
  unfold fill
  by_cases hd : d = (q, k)
  · subst hd
    simp
  · rw [update_of_ne hd]
    have hiff : d.1 = q ∧ d.2 ∈ k :: ks ↔ d.1 = q ∧ d.2 ∈ ks := by
      simp only [List.mem_cons, and_congr_right_iff]
      intro hq
      exact or_iff_right fun hk => hd (Prod.ext hq hk)
    simp only [hiff]

/-- `dupAll` counts the descriptors that a child is going to have. -/
theorem dupAll_spec (q : Fin nproc) :
    ∀ (ks : List (Fin nofile)) {m : Fin nproc × Fin nofile → Option (Fin nfile)} {s : Fs},
    ks.Nodup → (∀ k ∈ ks, m (q, k) = none) → (∀ k f, o k = some f → 0 < refs m f) →
    Accounted sb g (refs m) s →
    Meets (Allowed g) (dupAll (ks.map o)) s fun _ s' => Kept sb g (refs (fill m q o ks)) s s' := by
  intro ks
  induction ks with
  | nil =>
    intro m s _ _ _ h
    have hfill : fill m q o [] = m := funext fun d => if_neg (by simp)
    rw [hfill]
    exact meets_pure (.refl h)
  | cons k ks ih =>
    intro m s hnd hnone hused h
    obtain ⟨hk, hnd'⟩ := List.nodup_cons.mp hnd
    have hnone' : ∀ l ∈ ks, update m (q, k) (o k) (q, l) = none := fun l hl => by
      have hne : (q, l) ≠ (q, k) := fun he => hk ((Prod.mk.inj he).2 ▸ hl)
      rw [update_of_ne hne]
      exact hnone l (List.mem_cons_of_mem k hl)
    have hmk := hnone k List.mem_cons_self
    rw [← fill_cons]
    cases ho : o k with
    | none =>
      have hsame : update m (q, k) none = m := by
        rw [← hmk]
        exact update_eq_self ..
      rw [ho, hsame] at hnone'
      rw [hsame, List.map_cons, ho]
      exact ih hnd' hnone' hused h
    | some f =>
      rw [ho] at hnone'
      rw [List.map_cons, ho]
      refine (filedup_spec h (hused k f ho)).seq fun _ s1 h1 => ?_
      rw [← refs_add hmk] at h1
      have hused' : ∀ l f', o l = some f' → 0 < refs (update m (q, k) (some f)) f' := by
        intro l f' hl
        rw [refs_update_some hmk]
        exact Nat.lt_of_lt_of_le (hused l f' hl) (Nat.le_add_right ..)
      exact (ih hnd' hnone' hused' h1.books).imp fun _ s2 h2 => h1.trans h2

theorem fill_all (hpr : s'.procs = s.procs) :
    fill s.fds q x.ofile (List.finRange nofile) = (s'.withProc q (some x)).fds := by
  funext d
  by_cases hd : d.1 = q
  · simp [fill, Fs.fds, Fs.withProc, hd]
  · simp [fill, Fs.fds, Fs.withProc, hd, hpr]

theorem forkFiles_spec (h : Settled sb g s) (hp : s.procs p = some x) (hq : s.procs q = none) :
    Meets (Allowed g) (forkFiles p q) s fun _ s' => Settled sb g s' ∧ Lives s s' := by
  refine Meets.bind (getProc_spec hp ?_)
  have hnone : ∀ k ∈ List.finRange nofile, s.fds (q, k) = none := fun k _ => by
    unfold Fs.fds
    rw [hq]
    rfl
  refine (dupAll_spec q _ (List.nodup_finRange nofile) hnone (fun _ _ => fds_pos hp) h.inv).seq
    fun _ s1 ⟨h1, hpr1, hview1, hl1⟩ => ?_
  have hp1 : s1.procs p = some x := hpr1 ▸ hp
  have hq1 : s1.procs q = none := hpr1 ▸ hq
  refine (idup_spec h1.table (held_pos (held_cwd hp1))).seq fun cwd s2 ⟨hcwd, h2, hk2, hst2, _⟩ =>
    ?_
  subst hcwd
  have hfree : s1.held (.inr q) = none := by
    show (s1.procs q).map FProc.cwd = none
    rw [hq1]
    rfl
  have hheld : refs (s1.withProc q (some x)).held = more (refs s1.held) x.cwd := by
    rw [held_withProc, Option.map_some, refs_hold hfree]
  have hpos : ∀ a, 0 < more (refs s1.held) x.cwd a → 0 < refs s1.held a := fun a ha => by
    by_cases hac : a = x.cwd
    · rw [hac]
      exact held_pos (held_cwd hp1)
    · rwa [more_of_ne hac] at ha
  have hf2 : Frame g (more (refs s1.held) x.cwd) s1 s2 :=
    (Frame.of_store hk2 fun _ => hst2).mono hpos
  rw [← hheld] at h2 hf2 hpos
  refine meets_setProc ⟨⟨(h1.uses.swap (fun hg x' hx => ?_) h2 hf2).inv ?_, fun hg => ?_⟩, ?_⟩
  · cases hx
    exact h1.uses.cwds hg p x hp1
  · rw [fill_all (hk2.procs.trans hpr1)]
  · show Sane sb.ninodes s2.view
    rw [view_of_store hst2, hview1 hg]
    exact h.sane hg
  · have hl : Lives s1 (s1.withProc q (some x)) := fun ha => ha.mono hpos
    exact hl1.trans (hl.trans (hf2.withProc q _).keeps.lives)

theorem closeAll_spec : ∀ (ks : List (Fin nofile)) {s : Fs} {x : FProc}, Settled sb g s →
    s.procs p = some x → Meets (Allowed g) (closeAll p ks) s fun _ s' =>
      Settled sb g s' ∧ Lives s s' ∧ ∃ x', s'.procs p = some x' ∧
        ∀ k, k ∈ ks ∨ x.ofile k = none → x'.ofile k = none := by
  intro ks
  induction ks with
  | nil =>
    refine fun {s x} h hp => meets_pure ⟨h, .refl, x, hp, fun k hk => ?_⟩
    simpa using hk
  | cons k ks ih =>
    intro s x h hp
    refine Meets.bind (getProc_spec hp ?_)
    cases hk : x.ofile k with
    | none =>
      refine (ih h hp).imp fun _ s1 ⟨h1, hl1, x1, hp1, hnone⟩ =>
        ⟨h1, hl1, x1, hp1, fun l hl => hnone l ?_⟩
      rcases hl with hl | hl
      · rcases List.mem_cons.mp hl with rfl | hl
        · exact .inr hk
        · exact .inl hl
      · exact .inr hl
    | some f =>
      refine (fileclose_spec h.inv (fds_pos hp hk) h.sane).seq fun _ s1 ⟨h1, hpr1, hg1, hl1⟩ => ?_
      have hp1 : s1.procs p = some x := hpr1 ▸ hp
      have hsettled : Settled sb g
          (s1.withProc p (some { x with ofile := update x.ofile k none })) := by
        refine ⟨(h1.setOfile hp1 _).inv ?_, hg1⟩
        rw [refs_fds_less hp1 hk, fds_congr hpr1]
      have hp2 : (s1.withProc p (some { x with ofile := update x.ofile k none })).procs p =
          some { x with ofile := update x.ofile k none } := update_self ..
      refine Meets.bind (meets_setProc ((ih hsettled hp2).imp
        fun _ s2 ⟨h2, hl2, x2, hp2', hnone⟩ =>
          ⟨h2, hl1.trans ((Lives.setOfile hp1 _).trans hl2), x2, hp2', fun l hl => hnone l ?_⟩))
      by_cases hlk : l = k
      · right
        rw [hlk]
        exact update_self ..
      · rcases hl with hl | hl
        · exact .inl ((List.mem_cons.mp hl).resolve_left hlk)
        · right
          exact (update_of_ne hlk ..).trans hl

theorem fds_exit (hp : s.procs p = some x) (hnone : ∀ k, x.ofile k = none)
    (hpr : s'.procs = s.procs) : (s'.withProc p none).fds = s.fds := by
  funext d
  by_cases hd : d.1 = p
  · simp [Fs.fds, Fs.withProc, hd, hp, hnone]
  · simp [Fs.fds, Fs.withProc, hd, hpr]

theorem exitFiles_spec (h : Settled sb g s) (hp : s.procs p = some x) :
    Meets (Allowed g) (exitFiles p) s fun _ s' => Settled sb g s' ∧ Lives s s' := by
  refine (closeAll_spec (List.finRange nofile) h hp).seq fun _ s1 ⟨h1, hl1, x1, hp1, hnone⟩ => ?_
  refine Meets.bind (getProc_spec hp1 ?_)
  have hdrop : more (refs (s1.withProc p none).held) x1.cwd = refs s1.held := by
    rw [held_withProc, Option.map_none, more_drop (held_cwd hp1)]
  have htable := h1.inv.table
  rw [← hdrop] at htable
  refine (iput_tree htable h1.sane).seq fun _ s2 ⟨h2, hf2, hg2, _⟩ => ?_
  refine meets_modify ⟨⟨(h1.inv.uses.swap (y := none) (fun _ _ => nofun) h2 hf2).inv ?_, hg2⟩, ?_⟩
  · rw [fds_exit hp1 (fun k => hnone k (.inl (List.mem_finRange k))) hf2.keeps.procs]
  · have hl : Lives s1 (s1.withProc p none) := fun ha => by
      rw [← hdrop] at ha
      exact ha.mono fun _ => pos_more
    exact hl1.trans (hl.trans (hf2.withProc p none).keeps.lives)

/-! ## §7 Runs -/

/-- Every call keeps the invariant, and keeps the tree unless it leaves a
directory without links. -/
theorem call_spec (h : Settled sb g s) (hp : s.procs p = some x) (a : Call) :
    Meets (Allowed g) (call sb p a) s fun _ s' => Ended sb g s' ∧ Lives s s' := by
  have hready := h.inv.ready h.sane hp
  cases a with
  | dup fd => exact (sysDup_spec h hp fd).imp fun _ _ h' => ⟨h'.1.ended, h'.2⟩
  | read fd n good dev => exact (sysRead_spec h hp fd n good dev).imp fun _ _ h' =>
      ⟨h'.1.ended, h'.2⟩
  | write fd n src dev => exact (sysWrite_spec h hp fd n src dev).imp fun _ _ h' =>
      ⟨h'.1.ended, h'.2⟩
  | close fd => exact (sysClose_spec h hp fd).imp fun _ _ h' => ⟨h'.1.ended, h'.2⟩
  | link old new =>
    exact (sysLink_spec hready h.sane old new).imp fun _ _ h' => h'.toDone.ended h.inv
  | unlink path => exact (sysUnlink_spec hready h.sane path).imp fun _ _ h' => h'.toDone.ended h.inv
  | «open» path omode => exact sysOpen_spec h hp path omode
  | mkdir path => exact make_spec h hp path (by decide) 0 0
  | mknod path major minor => exact make_spec h hp path (by decide) major minor
  | chdir path => exact sysChdir_spec h hp path
  | fork q =>
    refine meets_read ?_
    split
    case isTrue hq => exact (forkFiles_spec h hp hq).seq fun _ _ h' => meets_pure ⟨h'.1.ended, h'.2⟩
    case isFalse => exact meets_pure ⟨h.ended, .refl⟩
  | exit => exact (exitFiles_spec h hp).seq fun _ _ h' => meets_pure ⟨h'.1.ended, h'.2⟩

theorem step_spec (h : Settled sb g s) (p : Fin nproc) (a : Call) :
    Meets (Allowed g) (step sb p a) s fun _ s' => Ended sb g s' ∧ Lives s s' := by
  refine meets_read ?_
  split
  case isTrue hp =>
    obtain ⟨x, hx⟩ := Option.isSome_iff_exists.mp hp
    exact (call_spec h hx a).seq fun _ _ h' => meets_pure h'
  case isFalse => exact meets_pure ⟨h.ended, .refl⟩

end Xv6.Files
