/-
Xv6.Files.LinkRange — the range of a link count, which has 16 bits.

Under `link` and `unlink` alone no directory is ever removed while it is in
use, so only the number of names of a file matters: its count is right exactly
as long as it has at most 32767 names.
§1 runs of `link` and `unlink`, §2 a file with 32767 names.
-/
import Mathlib.Order.Interval.Finset.Nat
import Xv6.Files.Safety

namespace Xv6.Files

open Xv6.Lib Function
open Xv6.Fs (Block)
open Xv6.Vm (nproc)

variable {sb : Superblock} {g : Prop} {s s' : Fs} {p : Fin nproc} {v : View} {n : Nat} {st : Store}

/-! ## §1 Runs of `link` and `unlink` -/

inductive NameCall where
  | link (old new : Option (List Byte))
  | unlink (path : Option (List Byte))

def NameCall.call : NameCall → Call
  | .link old new => .link old new
  | .unlink path => .unlink path

def nameCalls (cs : List (Fin nproc × NameCall)) : List (Fin nproc × Call) :=
  cs.map fun c => (c.1, c.2.call)

/-- No file has more names than its count can tell. -/
def Few (n : Nat) (v : View) : Prop :=
  ∀ i, v.type i ≠ .free → v.type i ≠ .dir → v.count n i ≤ 32767

/-- Before every call of the run, files have few names. -/
def FewRun (sb : Superblock) : List (Fin nproc × NameCall) → Fs → Prop
  | [], _ => True
  | (p, a) :: cs, s =>
    Few sb.ninodes s.view ∧ ∀ s', (step sb p a.call).run s = .ok ((), s') → FewRun sb cs s'

theorem Tree.good (h : Tree n none v) (hf : Few n v) : Good n v := by
  refine ⟨h.nlink_dir, fun {i} hi hd => ?_⟩
  rw [← h.shape.count_file hd]
  exact hf i hi hd

/-- Files, descriptors and current directories are as they were at boot. -/
structure Quiet (st : Store) (s : Fs) : Prop where
  ftable : s.ftable = (boot st).ftable
  procs : s.procs = (boot st).procs
  root : s.inum rootEntry = rootino

theorem Quiet.held (h : Quiet st s) : s.held = (boot st).held := by
  unfold Fs.held
  rw [h.ftable, h.procs]

theorem Quiet.keeps (h : Quiet st s) (hk : Keeps (refs s.held) s s') : Quiet st s' := by
  have hpos : 0 < refs s.held rootEntry := by
    rw [h.held, boot_refs, if_pos rfl]
    exact Nat.one_pos
  exact ⟨hk.ftable.trans h.ftable, hk.procs.trans h.procs, (hk.same hpos).trans h.root⟩

/-- Only the root is in use, so every other directory has a link. -/
theorem Quiet.linked (h : Quiet st s) (hi : Inv sb g s) (hg : g) : Linked s.view := by
  intro d hd hroot hz
  obtain ⟨e, he, _, hin⟩ := hi.table.orphans hg d (fun hf => nomatch hd.symm.trans hf) hz
  rw [h.held] at he
  rw [boot_root he] at hin
  exact hroot (hin.symm.trans h.root)

theorem nameCall_spec (h : Settled sb g s) (hq : Quiet st s) (p : Fin nproc) (a : NameCall) :
    Meets (Allowed g) (step sb p a.call) s fun _ s' =>
      Inv sb g s' ∧ (g → Tree sb.ninodes none s'.view) ∧ Quiet st s' := by
  refine meets_read ?_
  split
  case isFalse => exact meets_pure ⟨h.inv, fun hg => (h.sane hg).1, hq⟩
  case isTrue hp =>
    obtain ⟨x, hx⟩ := Option.isSome_iff_exists.mp hp
    have hready := h.inv.ready h.sane hx
    have hcall : Meets (Allowed g) (call sb p a.call) s fun _ s' =>
        Done sb g (refs s.held) s s' := by
      cases a with
      | link old new => exact (sysLink_spec hready h.sane old new).imp fun _ _ h' => h'.toDone
      | unlink path => exact (sysUnlink_spec hready h.sane path).imp fun _ _ h' => h'.toDone
    refine hcall.seq fun _ s1 h1 => meets_pure ?_
    have hq1 := hq.keeps h1.frame.keeps
    have hinv1 := h.inv.frame h1.table h1.frame
    exact ⟨hinv1, fun hg => (h1.tree hg).tree (hq1.linked hinv1 hg), hq1⟩

theorem nameCalls_spec (cs : List (Fin nproc × NameCall)) : ∀ {s : Fs}, Inv sb g s →
    (g → Tree sb.ninodes none s.view) → Quiet st s → (g → FewRun sb cs s) →
    Meets (Allowed g) (run sb (nameCalls cs)) s fun _ s' =>
      Inv sb g s' ∧ (g → Tree sb.ninodes none s'.view) := by
  induction cs with
  | nil => exact fun hi ht _ _ => meets_pure ⟨hi, ht⟩
  | cons a cs ih =>
    intro s hi ht hq hg
    obtain ⟨p, a⟩ := a
    have hs : Settled sb g s := ⟨hi, fun hg' => ⟨ht hg', (ht hg').good (hg hg').1⟩⟩
    cases nameCall_spec hs hq p a with
    | error hrun hE => exact Meets.bind (.error hrun hE)
    | ok hrun hpost =>
      obtain ⟨hi', ht', hq'⟩ := hpost
      exact Meets.bind (.ok hrun (ih hi' ht' hq' fun hg' => (hg hg').2 _ hrun))

/-- The link count of a file, on the disk and in memory, is the number of its
names iff that is at most 32767, and until then no name loses its inode. -/
theorem nlink_counts_names (vol : Volume sb) (cs : List (Fin nproc × NameCall)) :
    Meets (fun e => FewRun sb cs (boot vol.store) → e ≠ .unlinkNlink) (run sb (nameCalls cs))
      (boot vol.store) fun _ s => FewRun sb cs (boot vol.store) →
        (∀ i, (s.store.dinodes i).type ≠ .free → (s.store.dinodes i).type ≠ .dir →
          ((s.store.dinodes i).nlink.toInt = s.view.count sb.ninodes i ↔
            s.view.count sb.ninodes i ≤ 32767)) ∧
        (∀ e, 0 < (s.itable e).ref → (s.itable e).valid = true →
          (s.itable e).copy.nlink = (s.store.dinodes (s.itable e).inum).nlink) ∧
        ∀ d k de, s.store.entry d k = some de → de.inum ≠ 0 →
          (s.store.dinodes de.inum).type ≠ .free := by
  have hq : Quiet vol.store (boot vol.store) := ⟨rfl, rfl, rfl⟩
  refine (nameCalls_spec cs (boot_inv vol.toImage fun _ => ⟨vol.tree, vol.linked⟩)
    (fun _ => vol.tree) hq fun hg => hg).mono (fun _ s h hg => ?_) fun e he hg => (he.2 hg).2
  obtain ⟨hinv, htree⟩ := h
  refine ⟨fun i hi hd => (htree hg).nlink_iff hi hd, fun e he hv => ?_, fun d k de he h0 => ?_⟩
  · rw [hinv.table.refs] at he
    rw [(hinv.table.sync e he hv).1]
  · exact (htree hg).shape.alloc ⟨de, he, rfl, h0⟩

/-! ## §2 A file with 32767 names -/

/-- Two directories in the root, full of names for one file. The root has the
first of its names. -/
def crowdEntries (d : Nat) : Nat := if d = rootino then 5 else nentries

/-- The names of the file in directory `d` end here. -/
def crowdLimit (d : Nat) : Nat := if d = 2 then 17152 else 15618

/-- A name that tells the entry. -/
def crowdName (k : Nat) : Name :=
  [0x61, BitVec.ofNat 8 (128 + k / 256), BitVec.ofNat 8 (128 + k % 256 / 16),
    BitVec.ofNat 8 (128 + k % 16)]

def crowdEntry (d k : Nat) : Dirent :=
  if k = 0 then ⟨d, dotName⟩
  else if k = 1 then ⟨rootino, dotdotName⟩
  else if d = rootino then ⟨k, [BitVec.ofNat 8 (0x5f + k)]⟩
  else if k < crowdLimit d then ⟨4, crowdName k⟩
  else ⟨0, []⟩

/-- The first block of a directory. -/
def crowdBase (sb : Superblock) (d : Nat) : Nat :=
  if d = rootino then sb.nmeta else sb.nmeta + 1 + (d - 2) * 269

def crowdDinode (sb : Superblock) (i : Nat) : Dinode :=
  if i = 1 then
    { Dinode.zero with
      type := .dir, nlink := 3, size := crowdEntries i * direntSize,
      addrs := fun k => if k.val = 0 then crowdBase sb i else 0 }
  else if i = 2 ∨ i = 3 then
    { Dinode.zero with
      type := .dir, nlink := 1, size := crowdEntries i * direntSize,
      addrs := fun k => crowdBase sb i + k }
  else if i = 4 then { Dinode.zero with type := .file, nlink := 32767 }
  else .zero

/-- Block `bn` of directory `d`. -/
def crowdBlock (d bn : Nat) : Block := ofBytes fun x =>
  let de := crowdEntry d ((bn * bsize + x) / direntSize)
  (direntBytes de.inum de.name).getD (x % direntSize) 0

/-- The indirect block of directory `d`. -/
def crowdIndirect (sb : Superblock) (d : Nat) : Block := fun j =>
  BitVec.ofNat 32 (crowdBase sb d + 13 + j)

def crowdStore (sb : Superblock) : Store where
  bitmap b := b < sb.nmeta + 539
  dinodes := crowdDinode sb
  data b :=
    if b ≤ sb.nmeta then crowdBlock rootino 0
    else
      let r := b - (sb.nmeta + 1)
      let q := r % 269
      if q = 12 then crowdIndirect sb (2 + r / 269)
      else crowdBlock (2 + r / 269) (if q < 12 then q else q - 1)

/-! ### Its blocks -/

section
variable {sb : Superblock} {d k i j : Nat}

/-- The directories. -/
def CrowdDir (d : Nat) : Prop := d = 1 ∨ d = 2 ∨ d = 3

theorem crowd_type (h : (crowdDinode sb i).type ≠ .free) : CrowdDir i ∨ i = 4 := by
  by_contra hno
  unfold CrowdDir at hno
  refine h ?_
  unfold crowdDinode
  rw [if_neg (by omega), if_neg (by omega), if_neg (by omega)]
  rfl

theorem crowd_dir : (crowdDinode sb d).type = .dir ↔ CrowdDir d := by
  constructor
  · intro h
    have halloc : (crowdDinode sb d).type ≠ .free := by
      rw [h]
      nofun
    rcases crowd_type halloc with hd | rfl
    · exact hd
    · cases h
  · rintro (rfl | rfl | rfl) <;> rfl

theorem crowd_size (h : CrowdDir d) : (crowdDinode sb d).size = crowdEntries d * direntSize := by
  rcases h with rfl | rfl | rfl <;> rfl

theorem crowdBase_eq (sb : Superblock) (h : d = 2 ∨ d = 3) :
    crowdBase sb d = sb.nmeta + 1 + (d - 2) * 269 := if_neg (by unfold rootino; omega)

/-- Blocks of the two big directories, by their place. -/
theorem crowd_data (h : d = 2 ∨ d = 3) (hk : k < 269) :
    (crowdStore sb).data (crowdBase sb d + k) =
      if k = 12 then crowdIndirect sb d else crowdBlock d (if k < 12 then k else k - 1) := by
  have hbase := crowdBase_eq sb h
  have hr : crowdBase sb d + k - (sb.nmeta + 1) = (d - 2) * 269 + k := by omega
  have hmod : ((d - 2) * 269 + k) % 269 = k := by omega
  have hdiv : 2 + ((d - 2) * 269 + k) / 269 = d := by omega
  show (if crowdBase sb d + k ≤ sb.nmeta then _ else _) = _
  rw [if_neg (by omega), hr, hmod, hdiv]

/-- The place of a slot among the blocks of a directory. -/
def slotPlace : Slot → Nat
  | .inl k => k
  | .inr j => 13 + j

theorem slotPlace_inj {k k' : Slot} (h : slotPlace k = slotPlace k') : k = k' := by
  cases k with
  | inl k =>
    cases k' with
    | inl k' => exact congrArg _ (Fin.ext h)
    | inr j' =>
      have heq : k.val = 13 + j'.val := h
      omega
  | inr j =>
    cases k' with
    | inl k' =>
      have heq : 13 + j.val = k'.val := h
      omega
    | inr j' =>
      have heq : 13 + j.val = 13 + j'.val := h
      exact congrArg _ (Fin.ext (by omega))

theorem slotPlace_surj {q : Nat} (h : q < 269) : ∃ k, slotPlace k = q := by
  by_cases hq : q < 13
  · exact ⟨.inl ⟨q, hq⟩, rfl⟩
  · refine ⟨.inr ⟨q - 13, by omega⟩, ?_⟩
    show 13 + (q - 13) = q
    omega

theorem slotPlace_lt (k : Slot) : slotPlace k < 269 := by
  cases k with
  | inl k => exact Nat.lt_trans k.isLt (by decide)
  | inr j =>
    show 13 + j.val < 269
    omega

variable (hsize : sb.nmeta + 539 ≤ sb.size)
include hsize

theorem crowd_ptr (h : d = 2 ∨ d = 3) (k : Slot) :
    (crowdDinode sb d).ptr (crowdStore sb).data k = crowdBase sb d + slotPlace k := by
  have haddrs : (crowdDinode sb d).addrs = fun k => crowdBase sb d + k.val := by
    rcases h with rfl | rfl <;> rfl
  have hbase := crowdBase_eq sb h
  cases k with
  | inl k => exact congrFun haddrs k
  | inr j =>
    have hind : (crowdDinode sb d).addrs indirect = crowdBase sb d + 12 := congrFun haddrs indirect
    show (if (crowdDinode sb d).addrs indirect = 0 then 0 else _) = _
    have hdata : (crowdStore sb).data (crowdBase sb d + 12) = crowdIndirect sb d :=
      (crowd_data h (by decide)).trans (if_pos rfl)
    rw [if_neg (by omega), hind, hdata]
    have hsmall := sb.small
    show (BitVec.ofNat 32 (crowdBase sb d + 13 + j)).toNat = crowdBase sb d + (13 + j)
    rw [BitVec.toNat_ofNat, Nat.mod_eq_of_lt (by omega)]
    omega

theorem crowd_blockAt (h : d = 2 ∨ d = 3) {bn : Nat} (hbn : bn < maxfile) :
    (crowdDinode sb d).blockAt (crowdStore sb).data bn =
      crowdBase sb d + if bn < 12 then bn else bn + 1 := by
  unfold maxfile ndirect nindirect at hbn
  unfold Dinode.blockAt
  rw [crowd_ptr hsize h]
  by_cases hlt : bn < 12
  · rw [slotOf_direct hlt, if_pos hlt]
    rfl
  · rw [slotOf_indirect hlt (by unfold ndirect; omega), if_neg hlt]
    show crowdBase sb d + (13 + (bn - ndirect)) = _
    unfold ndirect
    omega

omit hsize in
theorem crowd_root_ptr (k : Slot) :
    (crowdDinode sb 1).ptr (crowdStore sb).data k =
      if k = .inl ⟨0, by decide⟩ then sb.nmeta else 0 := by
  cases k with
  | inl k =>
    by_cases hk : k = ⟨0, by decide⟩
    · subst hk
      rfl
    · have hval : k.val ≠ 0 := fun h => hk (Fin.ext h)
      rw [if_neg fun h => hk (Sum.inl.inj h)]
      exact if_neg hval
  | inr j => rfl

/-- Byte `x` of a directory is in entry `x / 16`. -/
theorem crowd_byteAt (h : CrowdDir d) {x : Nat} (hx : x < crowdEntries d * direntSize) :
    (crowdDinode sb d).byteAt (crowdStore sb).data x =
      (direntBytes (crowdEntry d (x / direntSize)).inum (crowdEntry d (x / direntSize)).name).getD
        (x % direntSize) 0 := by
  have hmod : x % bsize < bsize := Nat.mod_lt _ (by decide)
  have hblock : (crowdStore sb).data ((crowdDinode sb d).blockAt (crowdStore sb).data (x / bsize)) =
      crowdBlock d (x / bsize) := by
    rcases h with rfl | h
    · have hzero : x / bsize = 0 := by
        have : x < 80 := hx
        unfold bsize
        omega
      unfold Dinode.blockAt
      rw [hzero, crowd_root_ptr, if_pos (by decide)]
      exact if_pos (Nat.le_refl _)
    · have hbn : x / bsize < maxfile := by
        have : x < 17152 * 16 := by rcases h with rfl | rfl <;> exact hx
        unfold bsize maxfile ndirect nindirect
        omega
      have hbn' : x / bsize < 268 := hbn
      rw [crowd_blockAt hsize h hbn, crowd_data h (by split <;> omega)]
      by_cases hlt : x / bsize < 12
      · rw [if_pos hlt, if_neg (by omega), if_pos hlt]
      · rw [if_neg hlt, if_neg (by omega), if_neg (by omega), Nat.add_sub_cancel]
  unfold Dinode.byteAt
  rw [hblock, crowdBlock, blockByte_ofBytes _ hmod, Nat.div_add_mod']
  have hlow : x % bsize % direntSize = x % direntSize := Nat.mod_mod_of_dvd _ (by decide)
  rw [hlow]

theorem crowd_bytes (h : CrowdDir d) (hk : k < crowdEntries d) :
    (crowdDinode sb d).bytes (crowdStore sb).data (k * direntSize) direntSize =
      direntBytes (crowdEntry d k).inum (crowdEntry d k).name := by
  have hlen := direntBytes_length (crowdEntry d k).inum (crowdEntry d k).name
  refine List.ext_getElem (by rw [Dinode.bytes_length, hlen]) fun j hj hj' => ?_
  rw [Dinode.bytes_length] at hj
  have hpos : 0 < direntSize := by decide
  have hx : k * direntSize + j < crowdEntries d * direntSize := by
    have := Nat.mul_le_mul_right direntSize hk
    rw [Nat.succ_mul] at this
    omega
  have hdiv : (k * direntSize + j) / direntSize = k := by
    rw [Nat.mul_comm, Nat.mul_add_div hpos, Nat.div_eq_of_lt hj, Nat.add_zero]
  have hmod : (k * direntSize + j) % direntSize = j := by
    rw [Nat.mul_comm, Nat.mul_add_mod, Nat.mod_eq_of_lt hj]
  have hbyte : ((crowdDinode sb d).bytes (crowdStore sb).data (k * direntSize) direntSize)[j]? =
      some ((crowdDinode sb d).byteAt (crowdStore sb).data (k * direntSize + j)) := by
    simp [Dinode.bytes, hj]
  rw [crowd_byteAt hsize h hx, hdiv, hmod] at hbyte
  rw [List.getElem_eq_iff, hbyte, List.getD_eq_getElem?_getD, List.getElem?_eq_getElem hj']
  rfl

omit hsize in
/-- Inode numbers of entries are small. -/
theorem crowdEntry_small (h : CrowdDir d) (hk : k < crowdEntries d) :
    (crowdEntry d k).inum < 5 := by
  unfold crowdEntry
  unfold CrowdDir at h
  split
  · show d < 5
    omega
  · split
    · decide
    · split
      · rename_i hroot
        unfold crowdEntries at hk
        rwa [if_pos hroot] at hk
      · split
        · show 4 < 5
          decide
        · decide

theorem crowd_entry (h : CrowdDir d) (hk : k < crowdEntries d) :
    (crowdStore sb).view.entry d k =
      some ⟨(crowdEntry d k).inum, nameOf (crowdEntry d k).name⟩ := by
  have hsmall := crowdEntry_small h hk
  have hle : (k + 1) * direntSize ≤ (crowdDinode sb d).size := by
    rw [crowd_size h]
    exact Nat.mul_le_mul_right _ hk
  refine (if_pos ⟨crowd_dir.mpr h, hle⟩).trans ?_
  rw [show (crowdStore sb).dinodes d = crowdDinode sb d from rfl, crowd_bytes hsize h hk,
    direntOf_direntBytes, Nat.mod_eq_of_lt (by omega)]

theorem crowd_names :
    (crowdStore sb).view.Names d k i ↔
      CrowdDir d ∧ k < crowdEntries d ∧ (crowdEntry d k).inum = i ∧ i ≠ 0 := by
  constructor
  · rintro ⟨de, he, rfl, h0⟩
    have he' : (crowdStore sb).entry d k = some de := he
    obtain ⟨hdir, hle, _⟩ := entry_some he'
    have hd : CrowdDir d := crowd_dir.mp hdir
    rw [show (crowdStore sb).dinodes d = crowdDinode sb d from rfl, crowd_size hd] at hle
    have hk : k < crowdEntries d := Nat.lt_of_mul_lt_mul_right (Nat.lt_of_lt_of_le
      (Nat.mul_lt_mul_of_pos_right (Nat.lt_succ_self k) (by decide)) hle)
    rw [crowd_entry hsize hd hk] at he
    cases he
    exact ⟨hd, hk, rfl, h0⟩
  · rintro ⟨hd, hk, hin, h0⟩
    exact ⟨_, crowd_entry hsize hd hk, hin, h0⟩

/-- Where the directories have their blocks. -/
theorem crowd_owner {o : Nat × Slot} {b : Nat} :
    owner (crowdStore sb).dinodes (crowdStore sb).data o = some b ↔
      o = (1, .inl ⟨0, by decide⟩) ∧ b = sb.nmeta ∨
      (o.1 = 2 ∨ o.1 = 3) ∧ b = crowdBase sb o.1 + slotPlace o.2 := by
  have hmeta := sb.two_le_nmeta
  obtain ⟨i, k⟩ := o
  rw [owner_some]
  show (crowdDinode sb i).type ≠ .free ∧
    (crowdDinode sb i).ptr (crowdStore sb).data k = b ∧ b ≠ 0 ↔ _
  constructor
  · rintro ⟨htype, rfl, hb⟩
    rcases crowd_type htype with (rfl | h) | rfl
    · rw [crowd_root_ptr] at hb ⊢
      by_cases hk : k = .inl ⟨0, by decide⟩
      · exact .inl ⟨by rw [hk], if_pos hk⟩
      · rw [if_neg hk] at hb
        exact absurd rfl hb
    · exact .inr ⟨h, crowd_ptr hsize h k⟩
    · cases k with
      | inl k => exact absurd rfl hb
      | inr j => exact absurd rfl hb
  · rintro (⟨ho, rfl⟩ | ⟨h, rfl⟩)
    · cases ho
      exact ⟨nofun, crowd_root_ptr _, by omega⟩
    · have hbase := crowdBase_eq sb h
      refine ⟨?_, crowd_ptr hsize h k, ?_⟩
      · rcases h with h | h <;> rw [show i = _ from h] <;> nofun
      · omega

theorem crowd_owned (hin : 4 < sb.ninodes) :
    Owned sb (crowdStore sb).dinodes (crowdStore sb) := by
  have hrange : ∀ {o b}, owner (crowdStore sb).dinodes (crowdStore sb).data o = some b →
      sb.nmeta ≤ b ∧ b < sb.nmeta + 539 := by
    intro o b ho
    have hlt := slotPlace_lt o.2
    rcases (crowd_owner hsize).mp ho with ⟨_, rfl⟩ | ⟨h1, rfl⟩
    · omega
    · rw [crowdBase_eq sb h1]
      omega
  refine ⟨⟨fun {o o' b} ho ho' => ?_, fun {o b} ho => ?_, fun {b} hb => ?_⟩, fun b hb => ?_,
    fun i hi => ?_, fun i bn hi hbn => ?_, fun i hi => ?_⟩
  · have hlt := slotPlace_lt o.2
    have hlt' := slotPlace_lt o'.2
    rcases (crowd_owner hsize).mp ho with ⟨h1, h2⟩ | ⟨h1, h2⟩ <;>
      rcases (crowd_owner hsize).mp ho' with ⟨h1', h2'⟩ | ⟨h1', h2'⟩
    · exact h1.trans h1'.symm
    · rw [crowdBase_eq sb h1'] at h2'
      omega
    · rw [crowdBase_eq sb h1] at h2
      omega
    · rw [crowdBase_eq sb h1] at h2
      rw [crowdBase_eq sb h1'] at h2'
      have hfst : o.1 = o'.1 := by omega
      have hplace : slotPlace o.2 = slotPlace o'.2 := by omega
      exact Prod.ext hfst (slotPlace_inj hplace)
  · have hb := hrange ho
    unfold Superblock.Area
    omega
  · constructor
    · intro hmark
      have hlt : b < sb.nmeta + 539 := of_decide_eq_true hmark
      have hle := hb.1
      by_cases hroot : b = sb.nmeta
      · exact ⟨_, (crowd_owner hsize).mpr (.inl ⟨rfl, hroot⟩)⟩
      · obtain ⟨k, hk⟩ := slotPlace_surj (q := (b - (sb.nmeta + 1)) % 269) (by omega)
        have hd : 2 + (b - (sb.nmeta + 1)) / 269 = 2 ∨ 2 + (b - (sb.nmeta + 1)) / 269 = 3 := by
          omega
        refine ⟨(2 + (b - (sb.nmeta + 1)) / 269, k), (crowd_owner hsize).mpr (.inr ⟨hd, ?_⟩)⟩
        rw [crowdBase_eq sb hd, hk]
        omega
    · rintro ⟨o, ho⟩
      exact decide_eq_true (hrange ho).2
  · refine decide_eq_true ?_
    omega
  · have := crowd_type hi
    unfold CrowdDir at this
    omega
  · have hmeta := sb.two_le_nmeta
    show (crowdDinode sb i).ptr _ _ ≠ 0
    have hbn' : bn * bsize < (crowdDinode sb i).size := hbn
    rcases crowd_type hi with (rfl | h) | rfl
    · have hbn0 : bn = 0 := by
        have : bn * bsize < 80 := hbn'
        unfold bsize at this
        omega
      rw [crowd_root_ptr, hbn0, if_pos (by decide)]
      omega
    · rw [crowd_ptr hsize h, crowdBase_eq sb h]
      omega
    · exact absurd hbn' (Nat.not_lt_zero _)
  · show (crowdDinode sb i).size ≤ _
    rcases crowd_type hi with h | rfl
    · rw [crowd_size h]
      rcases h with rfl | rfl | rfl <;> decide
    · exact Nat.zero_le _

/-! ### Its tree -/

omit hsize in
theorem crowdEntry_inum (d k : Nat) : (crowdEntry d k).inum =
    if k = 0 then d else if k = 1 then 1 else if d = 1 then k
    else if k < crowdLimit d then 4 else 0 := by
  unfold crowdEntry rootino
  split_ifs <;> rfl

/-- What each entry names. -/
theorem crowd_names_iff :
    (crowdStore sb).view.Names d k i ↔ CrowdDir d ∧ i ≠ 0 ∧
      (k = 0 ∧ i = d ∨ k = 1 ∧ i = 1 ∨ d = 1 ∧ 2 ≤ k ∧ k < 5 ∧ i = k ∨
        2 ≤ d ∧ 2 ≤ k ∧ k < crowdLimit d ∧ i = 4) := by
  have hentries : crowdEntries d = if d = 1 then 5 else 17152 := rfl
  rw [crowd_names hsize, crowdEntry_inum, hentries]
  unfold crowdLimit CrowdDir
  constructor
  · rintro ⟨hd, hk, hi, h0⟩
    split_ifs at hk hi ⊢ <;> omega
  · rintro ⟨hd, h0, h⟩
    split_ifs at h ⊢ <;> omega

omit hsize in
/-- Only the first two entries have names that start with a dot. -/
theorem crowdEntry_plain (hk : 2 ≤ k) (hn : (crowdEntry d k).inum ≠ 0) (hlt : k < crowdEntries d)
    {x : Name} (hx : x.head? = some 0x2e) : sameName (crowdEntry d k).name x = false := by
  have hhead : ∀ {s : Name} {b : Byte}, s.head? = some b → b ≠ 0 → (nameOf s).head? = some b :=
    fun {s b} hs hb => by
      cases s with
      | nil => cases hs
      | cons c s =>
        obtain rfl : c = b := Option.some.inj hs
        show ((c :: s.take 13).takeWhile _).head? = _
        rw [List.takeWhile_cons_of_pos (by simpa using hb)]
        rfl
  have hname : ∃ b : Byte, (crowdEntry d k).name.head? = some b ∧ b ≠ 0 ∧ b ≠ 0x2e := by
    unfold crowdEntries at hlt
    unfold crowdEntry at hn ⊢
    rw [if_neg (by omega), if_neg (by omega)] at hn ⊢
    split at hlt
    case isTrue hroot =>
      rw [if_pos hroot]
      have hcases : k = 2 ∨ k = 3 ∨ k = 4 := by omega
      rcases hcases with rfl | rfl | rfl <;> exact ⟨_, rfl, by decide, by decide⟩
    case isFalse hroot =>
      rw [if_neg hroot] at hn ⊢
      split at hn
      case isTrue hlim =>
        rw [if_pos hlim]
        exact ⟨_, rfl, by decide, by decide⟩
      case isFalse => exact absurd rfl hn
  obtain ⟨b, hb, h0, hdot⟩ := hname
  refine decide_eq_false fun heq => hdot ?_
  have hsome := congrArg List.head? heq
  rw [hhead hb h0, hhead hx (by decide)] at hsome
  exact Option.some.inj hsome

/-- No other entry is called like "." or "..". -/
theorem crowd_plain (hk : 2 ≤ k)
    (hn : (crowdStore sb).view.Names d k i) {x : Name} (hx : x.head? = some 0x2e) :
    ¬ (crowdStore sb).view.Called d k x := by
  rintro ⟨de, he, hc⟩
  obtain ⟨hd, hlt, rfl, h0⟩ := (crowd_names hsize).mp hn
  rw [crowd_entry hsize hd hlt] at he
  cases he
  rw [sameName_nameOf, crowdEntry_plain hk h0 hlt hx] at hc
  cases hc

theorem crowd_shape (hin : 4 < sb.ninodes) :
    Shape sb.ninodes (crowdStore sb).view := by
  have hdir : ∀ {d}, (crowdStore sb).view.type d = .dir ↔ CrowdDir d := crowd_dir
  have hcalled : ∀ {d}, CrowdDir d → (crowdStore sb).view.Called d 0 dotName ∧
      (crowdStore sb).view.Called d 1 dotdotName := fun {d} h =>
    have hlt : 1 < crowdEntries d := by rcases h with rfl | rfl | rfl <;> decide
    ⟨⟨_, crowd_entry hsize h (Nat.lt_trans (by decide) hlt),
        show sameName (nameOf dotName) dotName = true by decide⟩,
      ⟨_, crowd_entry hsize h hlt, show sameName (nameOf dotdotName) dotdotName = true by decide⟩⟩
  refine ⟨fun {d k i} h => ?_, fun h => ?_, fun {d k i} h => ?_, fun {d} h => ?_, fun {d} h => ?_,
    fun hk h => ?_, fun hk h ht => ?_, fun hk hk' h h' ht => ?_, fun {d} h hne => ?_, ?_⟩
  · obtain ⟨hd, hk, _⟩ := (crowd_names hsize).mp h
    have hn : crowdEntries d ≤ nentries := by rcases hd with rfl | rfl | rfl <;> decide
    unfold CrowdDir at hd
    omega
  · exact hdir.mpr ((crowd_names hsize).mp h).1
  · obtain ⟨hd, h0, h⟩ := (crowd_names_iff hsize).mp h
    have hi : i = 1 ∨ i = 2 ∨ i = 3 ∨ i = 4 := by
      unfold CrowdDir at hd
      omega
    rcases hi with rfl | rfl | rfl | rfl <;> nofun
  · have hd := hdir.mp h
    refine ⟨(crowd_names_iff hsize).mpr ⟨hd, ?_, .inl ⟨rfl, rfl⟩⟩, (hcalled hd).1⟩
    unfold CrowdDir at hd
    omega
  · have hd := hdir.mp h
    exact ⟨⟨1, (crowd_names_iff hsize).mpr ⟨hd, by decide, .inr (.inl ⟨rfl, rfl⟩)⟩⟩, (hcalled hd).2⟩
  · exact ⟨crowd_plain hsize hk h rfl, crowd_plain hsize hk h rfl⟩
  · have ht' := hdir.mp ht
    rw [crowd_names_iff hsize] at h ⊢
    unfold CrowdDir rootino at *
    omega
  · have ht' := hdir.mp ht
    rw [crowd_names_iff hsize] at h h'
    unfold CrowdDir at *
    omega
  · have hd := hdir.mp h
    refine ⟨1, d, ?_⟩
    rw [crowd_names_iff hsize]
    unfold CrowdDir rootino at *
    omega
  · refine ⟨hdir.mpr (.inl rfl), ?_⟩
    rw [crowd_names_iff hsize]
    unfold CrowdDir rootino
    omega

omit hsize in
/-- The links to an inode, from the entries that are links to it. -/
theorem links_eq_card (hv : Shape n v) (S : Finset (Nat × Nat))
    (hS : ∀ d k, (d, k) ∈ S ↔ k ≠ 0 ∧ v.Names d k i) : v.links n i = S.card := by
  refine Finset.card_bij (fun r _ => (r.1.val, r.2.val)) (fun r hr => ?_) (fun r _ r' _ h => ?_)
    fun x hx => ?_
  · exact (hS _ _).mpr (target_some.mp (Finset.mem_filter.mp hr).2)
  · exact Prod.ext (Fin.ext (Prod.mk.inj h).1) (Fin.ext (Prod.mk.inj h).2)
  · obtain ⟨h0, hn⟩ := (hS x.1 x.2).mp hx
    obtain ⟨hd, hk⟩ := hv.inside hn
    exact ⟨(⟨x.1, hd⟩, ⟨x.2, hk⟩), Finset.mem_filter.mpr ⟨Finset.mem_univ _,
      target_some.mpr ⟨h0, hn⟩⟩, rfl⟩

/-- The entries that name the file. -/
def crowdNames : Finset (Nat × Nat) :=
  insert (1, 4) (({2} ×ˢ Finset.Ico 2 17152) ∪ ({3} ×ˢ Finset.Ico 2 15618))

omit hsize in
theorem crowdNames_card : crowdNames.card = 32767 := by
  unfold crowdNames
  rw [Finset.card_insert_of_notMem (by simp), Finset.card_union_of_disjoint, Finset.card_product,
    Finset.card_product, Nat.card_Ico, Nat.card_Ico]
  · rfl
  · exact Finset.disjoint_product.mpr (.inl (by decide))

theorem crowd_links (hin : 4 < sb.ninodes) :
    (crowdStore sb).view.links sb.ninodes 1 = 3 ∧ (crowdStore sb).view.links sb.ninodes 2 = 1 ∧
    (crowdStore sb).view.links sb.ninodes 3 = 1 ∧
    (crowdStore sb).view.links sb.ninodes 4 = 32767 := by
  have hshape := crowd_shape hsize hin
  refine ⟨links_eq_card hshape {(1, 1), (2, 1), (3, 1)} fun d k => ?_,
    links_eq_card hshape {(1, 2)} fun d k => ?_, links_eq_card hshape {(1, 3)} fun d k => ?_,
    (links_eq_card hshape crowdNames fun d k => ?_).trans crowdNames_card⟩
  · rw [crowd_names_iff hsize]
    simp only [Finset.mem_insert, Finset.mem_singleton, Prod.mk.injEq, and_true]
    unfold CrowdDir
    omega
  · rw [crowd_names_iff hsize]
    simp only [Finset.mem_singleton, Prod.mk.injEq]
    unfold CrowdDir
    omega
  · rw [crowd_names_iff hsize]
    simp only [Finset.mem_singleton, Prod.mk.injEq]
    unfold CrowdDir
    omega
  · rw [crowd_names_iff hsize]
    simp only [crowdNames, Finset.mem_insert, Finset.mem_union, Finset.mem_product,
      Finset.mem_singleton, Finset.mem_Ico, Prod.mk.injEq, and_true]
    unfold CrowdDir crowdLimit
    split <;> omega

end

/-- A file with 32767 names. -/
def crowdVolume (sb : Superblock) (hsize : sb.nmeta + 539 ≤ sb.size) (hin : 4 < sb.ninodes) :
    Volume sb where
  store := crowdStore sb
  owned := crowd_owned hsize hin
  tree := by
    refine ⟨crowd_shape hsize hin, fun i hi => ?_⟩
    obtain ⟨h1, h2, h3, h4⟩ := crowd_links hsize hin
    rw [lead_none, Nat.add_zero]
    rcases crowd_type hi with (rfl | rfl | rfl) | rfl
    · rw [h1]
      rfl
    · rw [h2]
      rfl
    · rw [h3]
      rfl
    · rw [h4]
      rfl
  linked i hi := by
    show (crowdDinode sb i).nlink ≠ 0
    rcases crowd_type hi with (rfl | rfl | rfl) | rfl
    · show (3 : BitVec 16) ≠ 0
      decide
    · show (1 : BitVec 16) ≠ 0
      decide
    · show (1 : BitVec 16) ≠ 0
      decide
    · show (32767 : BitVec 16) ≠ 0
      decide

/-- Give the file, /c, the name /g. -/
def oneMore : List (Fin nproc × Call) := [(initproc, .link (path [[0x63]]) (path [[0x67]]))]

theorem oneMore_wraps : endsIn (run .mkfs oneMore) (boot (crowdStore .mkfs))
    (fun _ s => decide ((s.store.dinodes 4).nlink.toInt = -32768)) = true := by
  decide +kernel

theorem oneMore_stuck : stopsWith (run .mkfs (oneMore ++ [(initproc, .unlink (path [[0x67]]))]))
      (boot (crowdStore .mkfs)) .unlinkNlink = true := by
  decide +kernel

def crowded : Volume .mkfs := crowdVolume .mkfs (by decide) (by decide)

/-- The name after the 32767th makes the count negative, and to remove a name is
then a panic. -/
theorem one_name_too_many :
    (∃ s, (run .mkfs oneMore).run (boot crowded.store) = .ok ((), s) ∧
      (s.store.dinodes 4).nlink.toInt = -32768) ∧
    (run .mkfs (oneMore ++ [(initproc, .unlink (path [[0x67]]))])).run (boot crowded.store) =
      .error .unlinkNlink := by
  constructor
  · obtain ⟨⟨⟩, s, hok, ht⟩ := run_of_endsIn oneMore_wraps
    exact ⟨s, hok, of_decide_eq_true ht⟩
  · exact run_of_stopsWith oneMore_stuck

end Xv6.Files
