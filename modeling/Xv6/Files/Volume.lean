/-
Xv6.Files.Volume — a well-formed file system, and the smallest one.

A volume is a disk whose blocks have owners and whose inodes form a tree in
which everything has a name: what `mkfs` makes, or a shutdown leaves behind.
§1 volumes, §2 the blocks of a file system without files, §3 its tree.
-/
import Xv6.Files.Tree

namespace Xv6.Files

open Xv6.Lib Function
open Xv6.Fs (Block)

variable {sb : Superblock}

/-! ## §1 Volumes -/

/-- A file system with a tree in which everything has a name. -/
structure Volume (sb : Superblock) extends Image sb where
  tree : Tree sb.ninodes none store.view
  linked : ∀ i, store.view.type i ≠ .free → store.view.nlink i ≠ 0

/-! ## §2 The blocks of a file system without files -/

/-- The block of a root directory without files. -/
def rootBlock : Block :=
  blit (blit zeroBlock 0 (direntBytes rootino dotName)) direntSize (direntBytes rootino dotdotName)

def rootDinode (b : Nat) : Dinode :=
  { Dinode.zero with
    type := .dir, nlink := 1, size := 2 * direntSize,
    addrs := fun k => if k.val = 0 then b else 0 }

/-- A file system without files. -/
def rootStore (sb : Superblock) : Store where
  bitmap b := b ≤ sb.nmeta
  dinodes := update (fun _ => .zero) rootino (rootDinode sb.nmeta)
  data := update (fun _ => zeroBlock) sb.nmeta rootBlock

theorem rootStore_root : (rootStore sb).dinodes rootino = rootDinode sb.nmeta := by
  simp [rootStore]

theorem rootStore_type {i : Nat} (h : ((rootStore sb).dinodes i).type ≠ .free) : i = rootino := by
  by_contra hne
  exact h (by simp [rootStore, hne, Dinode.zero])

theorem rootDinode_ptr {b : Nat} {data : Nat → Block} {k : Slot} :
    (rootDinode b).ptr data k = if k = .inl ⟨0, by decide⟩ then b else 0 := by
  cases k with
  | inl k =>
    by_cases hk : k = ⟨0, by decide⟩
    · simp [Dinode.ptr, rootDinode]
    · have hval : k.val ≠ 0 := fun h => hk (Fin.ext h)
      rw [if_neg fun h => hk (Sum.inl.inj h)]
      exact if_neg hval
  | inr j => simp [Dinode.ptr, rootDinode, indirect, ndirect]

theorem rootStore_owner {o : Nat × Slot} {b : Nat}
    (h : owner (rootStore sb).dinodes (rootStore sb).data o = some b) :
    o = (rootino, .inl ⟨0, by decide⟩) ∧ b = sb.nmeta := by
  obtain ⟨i, k⟩ := o
  obtain ⟨htype, hptr, hb⟩ := owner_some.mp h
  have hi := rootStore_type htype
  subst hi
  rw [rootStore_root, rootDinode_ptr] at hptr
  split at hptr
  case isTrue hk => exact ⟨by rw [hk], hptr.symm⟩
  case isFalse => exact absurd hptr.symm hb

theorem rootStore_owned (h : sb.nmeta < sb.size) :
    Owned sb (rootStore sb).dinodes (rootStore sb) := by
  refine ⟨⟨fun ho ho' => ?_, fun ho => ?_, fun {b} hb => ?_⟩, fun b hb => ?_, fun i hi => ?_,
    fun i bn hi hbn => ?_, fun i hi => ?_⟩
  · exact (rootStore_owner ho).1.trans (rootStore_owner ho').1.symm
  · rw [(rootStore_owner ho).2]
    exact ⟨Nat.le_refl _, h⟩
  · constructor
    · intro hmark
      have hle : b ≤ sb.nmeta := of_decide_eq_true hmark
      have hb0 := hb.ne_zero
      refine ⟨(rootino, .inl ⟨0, by decide⟩), owner_some.mpr ⟨?_, ?_, hb0⟩⟩
      · nofun
      · exact Nat.le_antisymm hb.1 hle
    · rintro ⟨o, ho⟩
      rw [(rootStore_owner ho).2]
      exact decide_eq_true (Nat.le_refl _)
  · exact decide_eq_true (Nat.le_of_lt hb)
  · rw [rootStore_type hi]
    exact ⟨by decide, sb.root⟩
  · have hi' := rootStore_type hi
    subst hi'
    have hbn0 : bn = 0 := by
      have hlt : bn * bsize < 2 * direntSize := hbn
      unfold bsize direntSize at hlt
      omega
    subst hbn0
    show (rootDinode sb.nmeta).ptr _ (slotOf 0) ≠ 0
    rw [rootDinode_ptr, if_pos (by decide)]
    have := sb.two_le_nmeta
    omega
  · rw [rootStore_type hi, rootStore_root]
    show 2 * direntSize ≤ maxfile * bsize
    decide

theorem rootStore_byteAt {x : Nat} (hx : x < bsize) :
    (rootDinode sb.nmeta).byteAt (rootStore sb).data x = blockByte rootBlock x := by
  unfold Dinode.byteAt Dinode.blockAt
  rw [Nat.div_eq_of_lt hx, Nat.mod_eq_of_lt hx, rootDinode_ptr, if_pos (by decide)]
  simp [rootStore]

/-! ## §3 Its tree -/

/-- The two entries are "." and "..". -/
theorem rootStore_entry {d k : Nat} {de : Dirent} (h : (rootStore sb).view.entry d k = some de) :
    d = rootino ∧ (k = 0 ∧ de = ⟨rootino, dotName⟩ ∨ k = 1 ∧ de = ⟨rootino, dotdotName⟩) := by
  have h' : (rootStore sb).entry d k = some de := h
  obtain ⟨hdir, hsize, hde⟩ := entry_some h'
  have hd : d = rootino := rootStore_type (by rw [hdir]; nofun)
  subst hd
  rw [rootStore_root] at hsize hde
  have hk : (k + 1) * direntSize ≤ 2 * direntSize := hsize
  have hbytes : (rootDinode sb.nmeta).bytes (rootStore sb).data (k * direntSize) direntSize =
      (List.range direntSize).map fun j => blockByte rootBlock (k * direntSize + j) := by
    refine List.map_congr_left fun j hj => rootStore_byteAt ?_
    have := List.mem_range.mp hj
    unfold bsize direntSize at *
    omega
  rw [hbytes] at hde
  have hcases : k = 0 ∨ k = 1 := by
    unfold direntSize at hk
    omega
  refine ⟨rfl, ?_⟩
  rcases hcases with rfl | rfl
  · exact .inl ⟨rfl, hde.trans (by decide)⟩
  · exact .inr ⟨rfl, hde.trans (by decide)⟩

theorem rootStore_names {d k i : Nat} (h : (rootStore sb).view.Names d k i) :
    d = rootino ∧ k < 2 ∧ i = rootino := by
  obtain ⟨de, he, rfl, h0⟩ := h
  obtain ⟨hd, hk⟩ := rootStore_entry he
  rcases hk with ⟨rfl, rfl⟩ | ⟨rfl, rfl⟩
  · exact ⟨hd, by decide, rfl⟩
  · exact ⟨hd, by decide, rfl⟩

/-- The two entries of the root. -/
theorem rootStore_dots : (rootStore sb).view.entry rootino 0 = some ⟨rootino, dotName⟩ ∧
    (rootStore sb).view.entry rootino 1 = some ⟨rootino, dotdotName⟩ := by
  have hdir : ∀ k, (k + 1) * direntSize ≤ 2 * direntSize →
      ∃ de, (rootStore sb).view.entry rootino k = some de := fun k hk => by
    refine ⟨_, if_pos ⟨?_, ?_⟩⟩
    · rfl
    · exact hk
  constructor
  · obtain ⟨de, he⟩ := hdir 0 (by decide)
    obtain ⟨_, ⟨_, rfl⟩ | ⟨h, _⟩⟩ := rootStore_entry he
    · exact he
    · cases h
  · obtain ⟨de, he⟩ := hdir 1 (by decide)
    obtain ⟨_, ⟨h, _⟩ | ⟨_, rfl⟩⟩ := rootStore_entry he
    · cases h
    · exact he

theorem rootStore_shape : Shape sb.ninodes (rootStore sb).view := by
  have hdir : ∀ {d}, (rootStore sb).view.type d = .dir → d = rootino := fun {d} hd =>
    rootStore_type (show (rootStore sb).view.type d ≠ .free by rw [hd]; nofun)
  have hroot : (rootStore sb).view.type rootino = .dir := by
    rfl
  obtain ⟨hdot, hdotdot⟩ : (rootStore sb).view.entry rootino 0 = some ⟨rootino, dotName⟩ ∧
      (rootStore sb).view.entry rootino 1 = some ⟨rootino, dotdotName⟩ := rootStore_dots
  have hself : (rootStore sb).view.Names rootino 1 rootino := ⟨_, hdotdot, rfl, by decide⟩
  refine ⟨fun h => ?_, fun h => ?_, fun h => ?_, fun h => ?_, fun h => ?_, fun hk h => ?_,
    fun hk h => ?_, fun hk _ h => ?_, fun h hne => ?_, hroot, hself⟩
  · obtain ⟨rfl, hk, _⟩ := rootStore_names h
    exact ⟨sb.root, Nat.lt_trans hk (by decide)⟩
  · rw [(rootStore_names h).1]
    exact hroot
  · rw [(rootStore_names h).2.2, hroot]
    nofun
  · rw [hdir h]
    exact ⟨⟨_, hdot, rfl, by decide⟩, _, hdot, by decide⟩
  · rw [hdir h]
    exact ⟨⟨_, hself⟩, _, hdotdot, by decide⟩
  · exact absurd (rootStore_names h).2.1 (by omega)
  · exact absurd (rootStore_names h).2.1 (by omega)
  · exact absurd (rootStore_names h).2.1 (by omega)
  · exact absurd (hdir h) hne

/-- The root's own ".." is its only link. -/
theorem rootStore_links : (rootStore sb).view.links sb.ninodes rootino = 1 := by
  have h0 : refs (fun _ : Fin sb.ninodes × Fin nentries => (none : Option Nat)) rootino = 0 :=
    refs_eq_zero.mpr fun _ => nofun
  have htarget : (rootStore sb).view.target sb.ninodes =
      update (fun _ => none) (⟨rootino, sb.root⟩, ⟨1, by decide⟩) (some rootino) := by
    funext r
    by_cases hr : r = (⟨rootino, sb.root⟩, ⟨1, by decide⟩)
    · subst hr
      exact target_some.mpr ⟨Nat.one_ne_zero, _, rootStore_dots.2, rfl, by decide⟩
    · rw [update_of_ne hr]
      cases ht : (rootStore sb).view.target sb.ninodes r with
      | none => rfl
      | some j =>
        obtain ⟨hk, hn⟩ := target_some.mp ht
        obtain ⟨hd, hk2, _⟩ := rootStore_names hn
        refine absurd (Prod.ext (Fin.ext hd) (Fin.ext ?_)) hr
        show r.2.val = 1
        omega
  unfold View.links
  rw [htarget, refs_update_some rfl, h0, if_pos rfl]

/-- A disk on which only the root directory has a block. -/
def rootVolume (sb : Superblock) (h : sb.nmeta < sb.size) : Volume sb where
  store := rootStore sb
  owned := rootStore_owned h
  tree := by
    refine ⟨rootStore_shape, fun i hi => ?_⟩
    have hi' := rootStore_type hi
    subst hi'
    rw [rootStore_links]
    show ((rootStore sb).dinodes rootino).nlink = 1
    rw [rootStore_root]
    rfl
  linked i hi := by
    have hi' := rootStore_type hi
    subst hi'
    show ((rootStore sb).dinodes rootino).nlink ≠ 0
    rw [rootStore_root]
    show (1 : BitVec 16) ≠ 0
    decide

end Xv6.Files
