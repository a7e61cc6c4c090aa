/-
Xv6.Files.Reclaim — orphaned inodes are freed at boot, from `kernel/fs.c`.

A crash can leave inodes that have no links but were in use when the machine
stopped. `fsinit` calls `ireclaim`, which frees them: it takes a reference to
each and drops it again, and dropping the last one frees the inode.
§1 the code, §2 one inode, §3 the whole table of inodes.
-/
import Xv6.Files.Safety

namespace Xv6.Files

open Xv6.Lib Function
open Xv6.Vm (nproc)

/-! ## §1 The code -/

/-- Allocated without links. -/
def Dinode.orphan (d : Dinode) : Bool := d.type ≠ .free ∧ d.nlink = 0

/-- The body of `ireclaim`'s loop. -/
def reclaimInode (inum : Nat) : F Unit := do
  if ((← get).store.dinodes inum).orphan then
    let ip ← iget inum
    ilock ip
    iput ip
  else return

def reclaimLoop : List Nat → F Unit
  | [] => return
  | inum :: inums => do
    reclaimInode inum
    reclaimLoop inums

/-- `ireclaim` looks at every inode but inode 0. -/
def ireclaim (sb : Superblock) : F Unit := reclaimLoop (List.range' 1 (sb.ninodes - 1))

variable {sb : Superblock} {g : Prop} {c : Cnt} {s s' : Fs} {e : Fin ninode} {i inum : Nat}

/-! ## §2 One inode -/

theorem orphan_iff {d : Dinode} : d.orphan = true ↔ d.type ≠ .free ∧ d.nlink = 0 := by
  simp [Dinode.orphan]

/-- What becomes of an inode. -/
def Dinode.reclaimed (d : Dinode) : Dinode := if d.orphan then d.freed else d

/-- The inodes in `P` have been reclaimed. -/
structure Reclaimed (sb : Superblock) (c : Cnt) (P : Nat → Prop) (s s' : Fs) : Prop where
  table : Table sb False c s'
  keeps : Keeps c s s'
  data : s'.store.data = s.store.data
  bits : ∀ b, ¬ sb.Area b → s'.store.bitmap b = s.store.bitmap b
  done : ∀ i, P i → s'.store.dinodes i = (s.store.dinodes i).reclaimed
  rest : ∀ i, ¬ P i → s'.store.dinodes i = s.store.dinodes i

theorem Reclaimed.refl (h : Table sb False c s) : Reclaimed sb c (fun _ => False) s s :=
  ⟨h, .refl, rfl, fun _ _ => rfl, fun _ hp => hp.elim, fun _ _ => rfl⟩

theorem iput_bits (h : Table sb g c s) (he : 0 < c e) {E : Panic → Prop} :
    Meets E (iput e) s fun _ s' => ∀ b, ¬ sb.Area b → s'.store.bitmap b = s.store.bitmap b := by
  refine Meets.bind (meets_getInode (meets_ite (fun hlast => ?_) fun _ => ?_))
  · have hsync := h.sync e he hlast.2.1
    rw [hsync.1]
    refine meets_focus_seq (itrunc_spec h.owned hsync.2) fun ip st ⟨_, _, _, _, hst⟩ => ?_
    refine meets_focus_seq (meets_modify (Q := fun _ st' => st'.bitmap = st.bitmap) rfl)
      fun _ st' hst' => ?_
    refine Meets.bind (meets_modifyInode (meets_modifyInode fun b hb => ?_))
    show st'.bitmap b = _
    rw [hst']
    exact hst b hb
  · exact meets_modifyInode fun _ _ => rfl

theorem reclaimInode_spec (h : Table sb False c s) (hroom : ∃ e, c e = 0)
    (hheld : ∀ e, 0 < c e → (s.itable e).inum = inum → (s.store.dinodes inum).orphan = false) :
    Total (reclaimInode inum) s fun _ s' => Reclaimed sb c (· = inum) s s' := by
  refine meets_read (meets_ite (fun ho => ?_) fun ho => ?_)
  · obtain ⟨htype, hnlink⟩ := orphan_iff.mp ho
    have hE : (∀ e, 0 < c e) → False := by
      intro hall
      obtain ⟨e, he⟩ := hroom
      exact absurd (hall e) (by omega)
    refine (iget_meets h inum False.elim hE).seq fun e s1 ⟨h1, hk1, hst1, hin1, hfresh, _⟩ => ?_
    have hc : c e = 0 := hfresh fun e' he' heq => by
      rw [hheld e' he' heq] at ho
      cases ho
    have hpos : 0 < more c e e := by
      rw [more_self]
      exact Nat.succ_pos _
    have htype1 : (s1.store.dinodes (s1.itable e).inum).type = .free → False := by
      rw [hin1, hst1]
      exact htype
    refine (ilock_meets h1 hpos htype1).seq fun _ s2 ⟨h2, hk2, hst2, hv2⟩ => ?_
    have hin2 : (s2.itable e).inum = inum := (hk2.inum e hpos).trans hin1
    have hstore : s2.store = s.store := hst2.trans hst1
    -- the reference just taken is the last one
    have hlast : Last (more c e) s2 e := by
      refine ⟨by rw [more_self, hc], hv2, ?_⟩
      rw [hin2, hstore]
      exact hnlink
    refine ((iput_spec h2 hpos).and (iput_bits h2 hpos)).imp
      fun _ s3 ⟨⟨h3, hk3, hfreed, _⟩, hbits⟩ => ?_
    obtain ⟨hdin, hdata⟩ := hfreed hlast
    rw [less_more] at h3 hk3
    rw [hin2, hstore] at hdin
    rw [hstore] at hdata hbits
    refine ⟨h3, (hk1.trans hk2 fun _ => pos_more).trans hk3
      (fun _ hx => hx), hdata, hbits, fun i hi => ?_, fun i hi => ?_⟩
    · rw [hdin, hi, update_self, Dinode.reclaimed, if_pos ho]
    · rw [hdin, update_of_ne hi]
  · refine meets_pure ⟨h, .refl, rfl, fun _ _ => rfl, fun i hi => ?_, fun _ _ => rfl⟩
    rw [hi, Dinode.reclaimed, if_neg ho]

/-! ## §3 The whole table of inodes -/

theorem Reclaimed.trans {P P' : Nat → Prop} {s1 : Fs} (h : Reclaimed sb c P s s1)
    (h' : Reclaimed sb c P' s1 s') (hd : ∀ i, P i → ¬ P' i) :
    Reclaimed sb c (fun i => P i ∨ P' i) s s' where
  table := h'.table
  keeps := h.keeps.trans h'.keeps fun _ hx => hx
  data := h'.data.trans h.data
  bits b hb := (h'.bits b hb).trans (h.bits b hb)
  done i hi := by
    by_cases hp : P i
    · rw [h'.rest i (hd i hp), h.done i hp]
    · rw [h'.done i (hi.resolve_left hp), h.rest i hp]
  rest i hi := by
    rw [h'.rest i fun hp => hi (.inr hp), h.rest i fun hp => hi (.inl hp)]

theorem Reclaimed.congr {P P' : Nat → Prop} (h : Reclaimed sb c P s s') (hP : ∀ i, P i ↔ P' i) :
    Reclaimed sb c P' s s' :=
  ⟨h.table, h.keeps, h.data, h.bits, fun i hi => h.done i ((hP i).mpr hi),
    fun i hi => h.rest i (mt (hP i).mp hi)⟩

theorem reclaimLoop_spec (inums : List Nat) (hnd : inums.Nodup) (hroom : ∃ e, c e = 0) :
    ∀ {s : Fs}, Table sb False c s →
    (∀ i ∈ inums, ∀ e, 0 < c e → (s.itable e).inum = i → (s.store.dinodes i).orphan = false) →
    Total (reclaimLoop inums) s fun _ s' => Reclaimed sb c (· ∈ inums) s s' := by
  induction inums with
  | nil =>
    intro s h _
    exact meets_pure ((Reclaimed.refl h).congr fun i => by simp)
  | cons inum inums ih =>
    intro s h hheld
    obtain ⟨hnot, hnd⟩ := List.nodup_cons.mp hnd
    refine (reclaimInode_spec h hroom (hheld inum (List.mem_cons_self ..))).seq fun _ s1 h1 => ?_
    refine (ih hnd h1.table fun i hi e he hin => ?_).imp fun _ s2 h2 => ?_
    · have hne : i ≠ inum := fun heq => hnot (heq ▸ hi)
      rw [h1.rest i hne]
      refine hheld i (List.mem_cons_of_mem _ hi) e he ?_
      rw [← h1.keeps.inum e he]
      exact hin
    · exact (h1.trans h2 fun i hi hmem => hnot (hi ▸ hmem)).congr fun i => by simp

/-- What a crash leaves once the log is recovered: blocks have owners, and the
root directory has a link. -/
structure Crashed (sb : Superblock) extends Image sb where
  root : (store.dinodes rootino).nlink ≠ 0

theorem boot_table (im : Image sb) : Table sb False (refs (boot im.store).held) (boot im.store) :=
  (boot_inv im False.elim).table

theorem ireclaim_spec (im : Crashed sb) :
    Total (ireclaim sb) (boot im.store) fun _ s =>
      Reclaimed sb (refs (boot im.store).held) (fun i => 1 ≤ i ∧ i < sb.ninodes)
        (boot im.store) s := by
  have hroom : ∃ e, refs (boot im.store).held e = 0 := by
    refine ⟨⟨1, by decide⟩, ?_⟩
    rw [boot_refs, if_neg (by decide)]
  refine (reclaimLoop_spec _ List.nodup_range' hroom (boot_table im.toImage)
    fun i _ e he hin => ?_).imp fun _ s h => h.congr fun i => ?_
  · have hi : i = rootino := by
      rw [← hin, boot_root he]
      rfl
    rw [← Bool.not_eq_true, orphan_iff, hi]
    exact fun hz => im.root hz.2
  · rw [List.mem_range'_1]
    omega

/-- Owners are those of the inodes that stay. -/
theorem Reclaimed.owner (h : Reclaimed sb c (fun i => 1 ≤ i ∧ i < sb.ninodes) s s')
    (hown : Owned sb s.store.dinodes s.store) (o : Nat × Slot) :
    owner s'.store.dinodes s'.store.data o =
      if (s.store.dinodes o.1).orphan then none
      else owner s.store.dinodes s.store.data o := by
  by_cases hi : 1 ≤ o.1 ∧ o.1 < sb.ninodes
  · have hd := h.done o.1 hi
    unfold Dinode.reclaimed at hd
    unfold Files.owner
    rw [hd, h.data]
    split <;> simp [Dinode.freed, *]
  · have hfree : (s.store.dinodes o.1).type = .free :=
      Classical.byContradiction fun ht => hi (hown.inums _ ht)
    simp [Files.owner, h.rest o.1 hi, hfree]

/-- After `ireclaim` no inode in use is without links. The blocks of the
orphans are free, and nothing else has changed: not the other inodes, not their
contents, no other bit of the bitmap, no reference in the inode table. -/
theorem orphans_are_reclaimed (im : Crashed sb) :
    Total (ireclaim sb) (boot im.store) fun _ s =>
      (∀ i, (s.store.dinodes i).type ≠ .free → (s.store.dinodes i).nlink ≠ 0) ∧
      (∀ i k b, (im.store.dinodes i).orphan → owner im.store.dinodes im.store.data (i, k) = some b →
        s.store.bitmap b = false) ∧
      (∀ i, (im.store.dinodes i).nlink ≠ 0 → s.store.dinodes i = im.store.dinodes i) ∧
      s.store.data = im.store.data ∧
      (∀ b, (∀ i k, (im.store.dinodes i).orphan →
          owner im.store.dinodes im.store.data (i, k) ≠ some b) →
        s.store.bitmap b = im.store.bitmap b) ∧
      ∀ e, (s.itable e).ref = ((boot im.store).itable e).ref := by
  refine (ireclaim_spec im).imp fun _ s h => ?_
  have hown := im.owned
  have howner := h.owner hown
  have hpool := h.table.owned.pool
  refine ⟨fun i ht hz => ?_, fun i k b ho hb => ?_, fun i hn => ?_, h.data, fun b hb => ?_,
    fun e => ?_⟩
  · have hi := h.table.owned.inums i ht
    have hd := h.done i hi
    unfold Dinode.reclaimed at hd
    split at hd
    case isTrue ho =>
      rw [hd] at ht
      exact ht rfl
    case isFalse ho =>
      rw [hd] at ht hz
      exact ho (orphan_iff.mpr ⟨ht, hz⟩)
  · rw [Bool.eq_false_iff]
    intro hused
    obtain ⟨o, ho'⟩ := (hpool.used (hown.pool.area hb)).mp hused
    rw [howner o] at ho'
    split at ho'
    case isTrue => cases ho'
    case isFalse hno =>
      rw [hown.pool.inj ho' hb] at hno
      exact hno ho
  · by_cases hi : 1 ≤ i ∧ i < sb.ninodes
    · rw [h.done i hi]
      exact if_neg fun ho => hn (orphan_iff.mp ho).2
    · exact h.rest i hi
  · by_cases harea : sb.Area b
    · rw [Bool.eq_iff_iff, hpool.used harea, hown.pool.used harea]
      refine exists_congr fun o => ?_
      rw [howner o]
      split
      case isTrue ho => simpa using hb o.1 o.2 ho
      case isFalse => exact Iff.rfl
    · exact h.bits b harea
  · rw [h.table.refs, (boot_table im.toImage).refs]

/-- "f" is created, written and removed, and it stays open. -/
def openRemoved : List (Fin nproc × Call) :=
  [.open (path [nameF]) 0x202, .write 0 1 (.kernel [1]) 0, .unlink (path [nameF])].map
    fun c => (initproc, c)

/-- The machine stops then, and "f" is an orphan with a block. The next boot frees the
block. -/
theorem removed_is_reclaimed :
    ∃ (s s' : Fs) (b : Nat), (run .mkfs openRemoved).run (boot mkfsVolume.store) = .ok ((), s) ∧
      (s.store.dinodes 2).orphan ∧
      owner s.store.dinodes s.store.data (2, .inl 0) = some b ∧ s.store.bitmap b = true ∧
      (ireclaim .mkfs).run (boot s.store) = .ok ((), s') ∧ s'.store.bitmap b = false := by
  obtain ⟨⟨⟩, s, hrun, htest⟩ := run_of_endsIn (show endsIn (run .mkfs openRemoved)
    (boot mkfsVolume.store) (fun _ s => decide ((s.store.dinodes rootino).nlink ≠ 0 ∧
      (s.store.dinodes 2).orphan ∧
      (owner s.store.dinodes s.store.data (2, .inl 0)).any s.store.bitmap)) = true
    by decide +kernel)
  obtain ⟨hroot, horphan, hany⟩ := of_decide_eq_true htest
  obtain ⟨b, hb, hused⟩ := (Option.any_eq_true _ _).mp hany
  have hinv := (run_counts mkfsVolume.toImage openRemoved).post hrun
  obtain ⟨⟨⟩, s', hboot, -, hfree, -⟩ :=
    Total.elim (orphans_are_reclaimed ⟨⟨s.store, hinv.table.owned⟩, hroot⟩)
  exact ⟨s, s', b, hrun, horphan, hb, hused, hboot, hfree 2 _ b horphan hb⟩

end Xv6.Files
