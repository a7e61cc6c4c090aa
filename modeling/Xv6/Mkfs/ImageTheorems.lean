/-
Xv6.Mkfs.ImageTheorems — the image that `mkfs` makes.

§1 the files made so far (`Made`) and what `ialloc` and `iappend` do to them, §2
the whole program, §3 the image has no holes, unless the entries of the root
directory end with a block.
-/
import Mathlib.Data.List.Induction
import Xv6.Files.EntryTheorems
import Xv6.Mkfs.AppendTheorems

namespace Xv6.Mkfs

open Xv6.Lib Function
open Xv6.Fs (Block word)
open Xv6.Files

variable {m m' : Mk} {E : Fail → Prop} {b i j n : Nat} {c : Nat → List Byte} {p : List Byte}

/-! ## §1 Files -/

/-- An inode of this type, with these contents and one link. -/
structure FileOk (d : Dinode) (data : Nat → Block) (type : FileType) (c : List Byte) : Prop where
  type : d.type = type
  nlink : d.nlink = 1
  size : d.size = c.length
  tight : Tight d data c.length
  bytes : ∀ k, k / bsize < maxfile → d.blockAt data (k / bsize) ≠ 0 → d.byteAt data k = c.getD k 0

/-- The root directory, and files. -/
def kind (i : Nat) : FileType := if i = rootino then .dir else .file

theorem kind_ne_free (i : Nat) : kind i ≠ .free := by
  unfold kind
  split <;> decide

/-- The blocks of the inodes below `n`. -/
def total (c : Nat → List Byte) : Nat → Nat
  | 0 => 0
  | n + 1 => total c n + blocksFor (c n).length

/-- The inodes below `freeinode` have the contents `c`. -/
structure Made (m : Mk) (c : Nat → List Byte) : Prop where
  ready : m.Ready
  one : 1 ≤ m.freeinode
  last : m.freeinode ≤ ninodes + 1
  owned : Owned layout m.store.dinodes m.store
  file : ∀ i, 1 ≤ i → i < m.freeinode → FileOk (m.store.dinodes i) m.store.data (kind i) (c i)
  free : ∀ i, i = 0 ∨ m.freeinode ≤ i → (m.store.dinodes i).type = .free ∧ c i = []
  count : m.freeblock = nmeta + total c m.freeinode
  fixed : ∀ b, b < sb.inodestart → m.img b = if b = 1 then sb.block else zeroBlock

theorem total_congr {c' : Nat → List Byte} (h : ∀ i, i < n → c' i = c i) :
    total c' n = total c n := by
  induction n with
  | zero => rfl
  | succ n ih =>
    show total c' n + _ = total c n + _
    rw [ih fun i hi => h i (Nat.lt_succ_of_lt hi), h n (Nat.lt_succ_self n)]

theorem total_update (hi : i < n) (l : List Byte) :
    total (update c i l) n + blocksFor (c i).length = total c n + blocksFor l.length := by
  induction n with
  | zero => cases hi
  | succ n ih =>
    show total (update c i l) n + blocksFor (update c i l n).length + _ = total c n + _ + _
    by_cases he : i = n
    · subst he
      rw [update_self, total_congr fun j hj => update_of_ne (Nat.ne_of_lt hj) ..]
      omega
    · rw [update_of_ne (Ne.symm he)]
      omega

/-- What another inode has is not touched. -/
theorem FileOk.touch {ino ino' : Nat → Dinode} {st st' : Store} {type : FileType} {l : List Byte}
    (h : FileOk (ino j) st.data type l) (ht : type ≠ .free) (htouch : Touch i ino st ino' st')
    (hj : j ≠ i) : FileOk (ino' j) st'.data type l := by
  have hfree : (ino j).type ≠ .free := by
    rw [h.type]
    exact ht
  have hsame := htouch.others j hj
  have hptr : ∀ k, (ino j).ptr st'.data k = (ino j).ptr st.data k := fun k =>
    ptr_congr _ _ k fun h0 => htouch.data (owner_indirect hfree h0) hj
  have hblock : ∀ bn, (ino j).blockAt st'.data bn = (ino j).blockAt st.data bn := fun bn => hptr _
  rw [hsame]
  refine ⟨h.type, h.nlink, h.size, ⟨fun bn hbn hb => ?_, h.tight.indirect⟩, fun k hk hkb => ?_⟩
  · rw [hblock] at hb
    exact h.tight.blocks bn hbn hb
  · rw [hblock] at hkb
    have hbyte := htouch.byteAt (k := k) hj hfree hkb
    rw [hsame] at hbyte
    rw [hbyte]
    exact h.bytes k hk hkb

theorem Made.type_ne_free (h : Made m c) (h1 : 1 ≤ i) (hi : i < m.freeinode) :
    (m.store.dinodes i).type ≠ .free := by
  rw [(h.file i h1 hi).type]
  exact kind_ne_free i

theorem Made.progress (h : Made m c) (h1 : 1 ≤ i) (hi : i < m.freeinode) :
    Progress i m.store.dinodes m (m.store.dinodes i) (c i) := by
  have hf := h.file i h1 hi
  have ht := h.type_ne_free h1 hi
  refine ⟨h.ready, rfl, ht, ?_, fun bn hbn => ?_, hf.tight, hf.bytes⟩
  · rw [update_eq_self]
    exact h.owned
  · rw [← hf.size] at hbn
    exact h.owned.full i bn ht hbn

/-- An inode is written; the data blocks stay. -/
theorem Made.write {ip : Dinode} {l : List Byte} (hr : m.Ready) (h1 : 1 ≤ i) (hi : i ≤ ninodes)
    (howned : Owned layout (update m.store.dinodes i ip) m.store)
    (hf : FileOk ip m.store.data (kind i) l)
    (hothers : ∀ j, j ≠ i → 1 ≤ j → j < m.freeinode →
      FileOk (m.store.dinodes j) m.store.data (kind j) (c j))
    (hlt : i < m.freeinode) (hlast : m.freeinode ≤ ninodes + 1)
    (hfree : ∀ j, j = 0 ∨ m.freeinode ≤ j → (m.store.dinodes j).type = .free ∧ c j = [])
    (hcount : m.freeblock = nmeta + total (update c i l) m.freeinode)
    (hfixed : ∀ b, b < sb.inodestart → m.img b = if b = 1 then sb.block else zeroBlock) :
    Made (m.setInode i ip) (update c i l) := by
  have hself : update m.store.dinodes i ip i = ip := update_self ..
  have hfits := Owned.fits (i := i) howned (by rw [hself, hf.type]; exact kind_ne_free i)
  rw [hself] at hfits
  have hstore := store_setInode (m := m) hi hfits
  have hdin : (m.setInode i ip).store.dinodes = update m.store.dinodes i ip :=
    congrArg Store.dinodes hstore
  have hdata : (m.setInode i ip).store.data = m.store.data := by rw [hstore]
  refine ⟨hr.setInode hi, Nat.le_of_lt (Nat.lt_of_le_of_lt h1 hlt), hlast, ?_, fun j hj1 hj => ?_,
    fun j hj => ?_, hcount, fun b hb => ?_⟩
  · rw [hdin]
    exact howned.congr (by rw [hdata]) rfl fun j hj => ⟨hj, rfl⟩
  · rw [hdin, hdata]
    by_cases hji : j = i
    · subst hji
      rw [hself, update_self]
      exact hf
    · rw [update_of_ne hji, update_of_ne hji]
      exact hothers j hji hj1 hj
  · have hji : j ≠ i := by
      rintro rfl
      rcases hj with h0 | hge
      · omega
      · exact absurd hlt (Nat.not_lt.mpr hge)
    rw [hdin, update_of_ne hji, update_of_ne hji]
    exact hfree j hj
  · have hge : sb.inodestart ≤ sb.iblock i := Nat.le_add_left ..
    have hne : b ≠ sb.iblock i := by omega
    exact (update_of_ne hne ..).trans (hfixed b hb)

theorem iappend_spec (h : Made m c) (h1 : 1 ≤ i) (hi : i < m.freeinode)
    (hmax : (c i).length + p.length ≤ maxfile * bsize)
    (hroom : m.freeblock + blocksFor ((c i).length + p.length) ≤
      fssize + blocksFor (c i).length) :
    Meets E (iappend i p) m fun _ m' =>
      Made m' (update c i (c i ++ p)) ∧ m'.freeinode = m.freeinode := by
  have hlast := h.last
  have hin : i ≤ ninodes := by omega
  have hf := h.file i h1 hi
  refine Meets.bind (meets_rinode h.ready hin ?_)
  rw [hf.size]
  refine (appendLoop_spec _ (h.progress h1 hi) (Nat.le_refl _) hmax hroom).seq
    fun r m1 ⟨hoff, hfill⟩ => ?_
  obtain ⟨din, off⟩ := r
  dsimp only at hoff hfill ⊢
  have hp := hfill.progress
  obtain ⟨addrs, hsame⟩ := hfill.same
  have hlength : off = (c i ++ p).length := by rw [hoff, List.length_append]
  have howned : Owned layout (update _ i { din with size := off }) m1.store :=
    hp.owned.resize (by rw [update_self]) (by rw [update_self])
      (by rw [hlength]; exact hp.covers) (by rw [hoff]; exact hmax)
  rw [update_idem, ← hp.dinodes] at howned
  have htouch := hfill.touch
  rw [update_eq_self] at htouch
  have hcount := hfill.count
  have htotal := total_update (c := c) hi (c i ++ p)
  have hmade := h.count
  have hnum := hfill.freeinode
  refine meets_winode hp.ready hin ⟨Made.write hp.ready h1 hin howned ?_ (fun j hji hj1 hj => ?_)
    (by omega) (by omega) (fun j hj => ?_) ?_ (fun b hb => ?_), hnum⟩
  · refine ⟨?_, ?_, hlength, ⟨hp.tight.blocks, hp.tight.indirect⟩, hp.bytes⟩
    · rw [hsame]
      exact hf.type
    · rw [hsame]
      exact hf.nlink
  · have hold := (h.file j hj1 (by omega)).touch (kind_ne_free j) htouch hji
    rw [update_of_ne hji] at hold
    rw [hp.dinodes]
    exact hold
  · rw [hp.dinodes]
    exact h.free j (by omega)
  · rw [hnum]
    omega
  · rw [hfill.low b (Nat.lt_trans hb (by decide))]
    exact h.fixed b hb

theorem ialloc_spec (h : Made m c) (hn : m.freeinode ≤ ninodes) :
    Meets E (ialloc (kind m.freeinode)) m fun r m' =>
      r = m.freeinode ∧ Made m' c ∧ m'.freeinode = m.freeinode + 1 := by
  obtain ⟨hfree, hnil⟩ := h.free m.freeinode (.inr (Nat.le_refl _))
  have hone := h.one
  have halloc : Owned layout
      (update m.store.dinodes m.freeinode { Dinode.zero with type := kind m.freeinode }) m.store :=
    h.owned.alloc hfree ⟨hone, Nat.lt_succ_of_le hn⟩
  have howned : Owned layout (update _ m.freeinode
      { Dinode.zero with type := kind m.freeinode, nlink := 1 }) m.store :=
    halloc.retype (by rw [update_self]) (by rw [update_self])
      (.inl (by rw [update_self]))
  rw [update_idem] at howned
  have hzero : ∀ bn, ({ Dinode.zero with type := kind m.freeinode, nlink := 1 } : Dinode).blockAt
      m.store.data bn = 0 := by
    intro bn
    unfold Dinode.blockAt Dinode.ptr
    split
    · rfl
    · exact if_pos rfl
  refine meets_read (meets_update (Meets.bind ?_))
  refine meets_winode (m := { m with freeinode := m.freeinode + 1 })
    ⟨h.ready.len, h.ready.fresh, h.ready.start, h.ready.room⟩ hn (meets_pure ⟨rfl, ?_, rfl⟩)
  have hsame : update c m.freeinode [] = c := update_eq_self_iff.mpr hnil.symm
  have hmade := Made.write (m := { m with freeinode := m.freeinode + 1 }) (c := c) (l := [])
    ⟨h.ready.len, h.ready.fresh, h.ready.start, h.ready.room⟩ hone hn howned
    ⟨rfl, rfl, rfl, ⟨fun bn _ hb => absurd (hzero bn) hb, fun h0 => absurd rfl h0⟩,
      fun k _ hb => absurd (hzero _) hb⟩
    (fun j hji hj1 hj => h.file j hj1 (Nat.lt_of_le_of_ne (Nat.le_of_lt_succ hj) hji))
    (Nat.lt_succ_self _) (Nat.succ_le_succ hn)
    (fun j hj => h.free j (hj.imp_right fun hle => Nat.le_of_succ_le hle)) (by
      rw [hsame]
      show m.freeblock = nmeta + (total c m.freeinode + blocksFor (c m.freeinode).length)
      rw [hnil]
      exact h.count) h.fixed
  rw [hsame] at hmade
  exact hmade

/-! ## §2 The program -/

/-- The entries of the root directory. -/
def rootEntries (files : List Input) : List (Nat × Name) :=
  [(rootino, dotName), (rootino, dotdotName)] ++
    files.zipIdx.map fun f => (f.2 + 2, f.1.shortname)

def rootBytes (files : List Input) : List Byte :=
  (rootEntries files).flatMap fun e => direntBytes e.1 e.2

/-- The contents of the inodes. -/
def contentsOf (files : List Input) (i : Nat) : List Byte :=
  if i = 0 then [] else if i = rootino then rootBytes files
  else (files[i - 2]?.map Input.contents).getD []

theorem rootEntries_snoc (files : List Input) (f : Input) :
    rootEntries (files ++ [f]) = rootEntries files ++ [(files.length + 2, f.shortname)] := by
  unfold rootEntries
  rw [List.zipIdx_append, List.map_append, List.append_assoc]
  simp

theorem rootBytes_snoc (files : List Input) (f : Input) :
    rootBytes (files ++ [f]) =
      rootBytes files ++ direntBytes (files.length + 2) f.shortname := by
  unfold rootBytes
  rw [rootEntries_snoc, List.flatMap_append]
  simp

theorem contentsOf_snoc (files : List Input) (f : Input) :
    contentsOf (files ++ [f]) =
      update (update (contentsOf files) rootino (rootBytes (files ++ [f])))
      (files.length + 2) f.contents := by
  funext i
  by_cases hlast : i = files.length + 2
  · subst hlast
    have hne : files.length + 2 ≠ rootino := by
      unfold rootino
      omega
    unfold contentsOf
    rw [if_neg (by omega), if_neg hne]
    simp
  · rw [update_of_ne hlast]
    by_cases hroot : i = rootino
    · subst hroot
      rfl
    · rw [update_of_ne hroot]
      unfold contentsOf
      by_cases h0 : i = 0
      · rw [if_pos h0, if_pos h0]
      · rw [if_neg h0, if_neg h0, if_neg hroot, if_neg hroot]
        have hi : 2 ≤ i := by
          unfold rootino at hroot
          omega
        by_cases hlt : i - 2 < files.length
        · rw [List.getElem?_append_left hlt]
        · have hlen : (files ++ [f]).length = files.length + 1 := by simp
          rw [List.getElem?_eq_none (show (files ++ [f]).length ≤ i - 2 by omega),
            List.getElem?_eq_none (Nat.le_of_not_lt hlt)]

theorem rootEntries_length (files : List Input) :
    (rootEntries files).length = files.length + 2 := by
  simp only [rootEntries, List.length_append, List.length_map, List.length_zipIdx, List.length_cons,
    List.length_nil]
  omega

theorem flatMap_dirents_length (es : List (Nat × Name)) :
    (es.flatMap fun e => direntBytes e.1 e.2).length = direntSize * es.length := by
  induction es with
  | nil => rfl
  | cons e es ih =>
    rw [List.flatMap_cons, List.length_append, ih, direntBytes_length, List.length_cons,
      Nat.mul_succ, Nat.add_comm]

theorem rootBytes_length (files : List Input) :
    (rootBytes files).length = direntSize * (files.length + 2) := by
  unfold rootBytes
  rw [flatMap_dirents_length, rootEntries_length]

/-- The blocks that the root directory and the files take. -/
def usedBlocks (files : List Input) : Nat :=
  blocksFor (direntSize * (files.length + 2)) +
    (files.map fun f => blocksFor f.contents.length).sum

theorem total_contentsOf (files : List Input) :
    total (contentsOf files) (files.length + 2) = usedBlocks files := by
  induction files using List.reverseRecOn with
  | nil =>
    rfl
  | append_singleton files f ih =>
    have hlen : (files ++ [f]).length + 2 = files.length + 2 + 1 := by simp
    have hroot := total_update (c := contentsOf files) (i := rootino) (n := files.length + 2)
      (by unfold rootino; omega) (rootBytes (files ++ [f]))
    rw [hlen]
    show total _ (files.length + 2) +
      blocksFor (contentsOf (files ++ [f]) (files.length + 2)).length = _
    rw [contentsOf_snoc, update_self, total_congr fun j hj => update_of_ne (Nat.ne_of_lt hj) ..]
    have hc : contentsOf files rootino = rootBytes files := rfl
    rw [hc, ih, rootBytes_length, rootBytes_length] at hroot
    unfold usedBlocks at hroot ⊢
    rw [List.map_append, List.sum_append]
    simp only [List.map_cons, List.map_nil, List.sum_cons, List.sum_nil, Nat.add_zero]
    omega

/-- Contents that are going to fit. -/
structure Plan (C : Nat → List Byte) (N : Nat) : Prop where
  size : ∀ i, (C i).length ≤ maxfile * bsize
  room : nmeta + total C N ≤ fssize

def Below (c C : Nat → List Byte) : Prop := ∀ i, (c i).length ≤ (C i).length

variable {C : Nat → List Byte} {N : Nat} {files : List Input}

theorem total_mono (h : Below c C) (hn : n ≤ N) : total c n ≤ total C N := by
  induction hn with
  | refl =>
    induction n with
    | zero => exact Nat.le_refl _
    | succ n ih => exact Nat.add_le_add ih (blocksFor_mono (h n))
  | step _ ih => exact Nat.le_trans ih (Nat.le_add_right ..)

theorem append_spec (hplan : Plan C N) (h : Made m c) (h1 : 1 ≤ i) (hi : i < m.freeinode)
    (hN : m.freeinode ≤ N) (hbelow : Below (update c i (c i ++ p)) C) :
    Meets E (iappend i p) m fun _ m' =>
      Made m' (update c i (c i ++ p)) ∧ m'.freeinode = m.freeinode := by
  have hlen := hbelow i
  rw [update_self, List.length_append] at hlen
  have htotal := total_update (c := c) hi (c i ++ p)
  have hmono := total_mono hbelow hN
  have hroom := hplan.room
  have hcount := h.count
  rw [List.length_append] at htotal
  exact iappend_spec h h1 hi (Nat.le_trans hlen (hplan.size i)) (by omega)

theorem appendReads_spec (hplan : Plan C N) (h1 : 1 ≤ i) (rs : List (List Byte)) :
    ∀ {m : Mk} {c : Nat → List Byte}, Made m c → i < m.freeinode → m.freeinode ≤ N →
    Below (update c i (c i ++ rs.flatten)) C →
    Meets E (appendReads i rs) m fun _ m' =>
      Made m' (update c i (c i ++ rs.flatten)) ∧ m'.freeinode = m.freeinode := by
  induction rs with
  | nil =>
    intro m c h _ _ _
    refine meets_pure ⟨?_, rfl⟩
    rw [List.flatten_nil, List.append_nil, update_eq_self]
    exact h
  | cons r rs ih =>
    intro m c h hi hN hbelow
    have hfirst : Below (update c i (c i ++ r)) C := by
      intro j
      have hj := hbelow j
      by_cases hji : j = i
      · subst hji
        rw [update_self] at hj ⊢
        rw [List.flatten_cons, ← List.append_assoc, List.length_append] at hj
        omega
      · rw [update_of_ne hji] at hj ⊢
        exact hj
    refine (append_spec hplan h h1 hi hN hfirst).seq fun _ m1 ⟨hm1, hnum⟩ => ?_
    have hsame : update (update c i (c i ++ r)) i (update c i (c i ++ r) i ++ rs.flatten) =
        update c i (c i ++ (r :: rs).flatten) := by
      rw [update_self, update_idem, List.append_assoc, List.flatten_cons]
    have hrest := ih hm1 (by omega) (by omega) (by rw [hsame]; exact hbelow)
    rw [hsame] at hrest
    exact hrest.imp fun _ m' ⟨hm', hnum'⟩ => ⟨hm', hnum'.trans hnum⟩

theorem below_snoc (files : List Input) (f : Input) :
    Below (contentsOf files) (contentsOf (files ++ [f])) := by
  intro i
  rw [contentsOf_snoc]
  by_cases hlast : i = files.length + 2
  · have hnone : contentsOf files i = [] := by
      have hne : i ≠ rootino := by
        unfold rootino
        omega
      unfold contentsOf
      rw [if_neg (by omega), if_neg hne, List.getElem?_eq_none (by omega)]
      rfl
    rw [hnone]
    exact Nat.zero_le _
  · rw [update_of_ne hlast]
    by_cases hroot : i = rootino
    · subst hroot
      rw [update_self, rootBytes_snoc, List.length_append]
      exact Nat.le_add_right ..
    · rw [update_of_ne hroot]

theorem below_append (files rest : List Input) :
    Below (contentsOf files) (contentsOf (files ++ rest)) := by
  induction rest generalizing files with
  | nil =>
    rw [List.append_nil]
    exact fun _ => Nat.le_refl _
  | cons f rest ih =>
    intro i
    have hstep := below_snoc files f i
    have hrest := ih (files ++ [f]) i
    rw [List.append_assoc, List.singleton_append] at hrest
    exact Nat.le_trans hstep hrest

/-- The assertions about a name. -/
def NameOk (f : Input) : Prop := slash ∉ f.base ∧ f.shortname.length ≤ dirsiz

theorem addFile_spec (hplan : Plan C N) {f : Input} (hname : NameOk f)
    (h : Made m (contentsOf files)) (hnum : m.freeinode = files.length + 2)
    (hlt : files.length + 2 ≤ ninodes) (hN : files.length + 3 ≤ N)
    (hbelow : Below (contentsOf (files ++ [f])) C) :
    Meets E (addFile f) m fun _ m' =>
      Made m' (contentsOf (files ++ [f])) ∧ m'.freeinode = files.length + 3 := by
  have hkind : kind m.freeinode = .file := by
    exact if_neg (by unfold rootino; omega)
  unfold addFile
  rw [if_neg hname.1, if_neg (Nat.not_lt.mpr hname.2), ← hkind]
  refine (ialloc_spec h (by omega)).seq fun inum m1 ⟨hinum, hm1, hnum1⟩ => ?_
  subst hinum
  -- the entry in the root directory
  have hroot : contentsOf files rootino ++ direntBytes m.freeinode f.shortname =
      rootBytes (files ++ [f]) := by
    rw [rootBytes_snoc, hnum]
    rfl
  have hnil : update (contentsOf files) rootino (rootBytes (files ++ [f])) m.freeinode = [] := by
    have hne : m.freeinode ≠ rootino := by
      unfold rootino
      omega
    rw [update_of_ne hne]
    exact (h.free _ (.inr (Nat.le_refl _))).2
  have hsnoc : update (update (contentsOf files) rootino (rootBytes (files ++ [f]))) m.freeinode
      ([] ++ f.reads.flatten) = contentsOf (files ++ [f]) := by
    rw [contentsOf_snoc, hnum]
    rfl
  have hbelow1 : Below (update (contentsOf files) rootino (rootBytes (files ++ [f]))) C := by
    intro j
    refine Nat.le_trans ?_ (hbelow j)
    rw [← hsnoc]
    by_cases hj : j = m.freeinode
    · rw [hj, hnil]
      exact Nat.zero_le _
    · rw [update_of_ne hj]
  rw [← hroot] at hbelow1
  refine (append_spec hplan hm1 (by decide) (by unfold rootino; omega) (by omega) hbelow1).seq
    fun _ m2 ⟨hm2, hnum2⟩ => ?_
  rw [hroot] at hm2
  have hreads := appendReads_spec (E := E) hplan (i := m.freeinode) h.one f.reads hm2 (by omega)
    (by omega) (by rw [hnil, hsnoc]; exact hbelow)
  rw [hnil, hsnoc] at hreads
  exact hreads.imp fun _ m' ⟨hm', hnum'⟩ => ⟨hm', by omega⟩

theorem addFiles_spec (rest : List Input) : ∀ {files : List Input} {m : Mk},
    Plan (contentsOf (files ++ rest)) ((files ++ rest).length + 2) →
    (∀ f ∈ rest, NameOk f) → (files ++ rest).length < ninodes → Made m (contentsOf files) →
    m.freeinode = files.length + 2 →
    Meets E (addFiles rest) m fun _ m' =>
      Made m' (contentsOf (files ++ rest)) ∧ m'.freeinode = (files ++ rest).length + 2 := by
  induction rest with
  | nil =>
    intro files m _ _ _ h hnum
    rw [List.append_nil]
    exact meets_pure ⟨h, hnum⟩
  | cons f rest ih =>
    intro files m hplan hnames hcount h hnum
    have hsplit : files ++ f :: rest = files ++ [f] ++ rest := by simp
    have hlen : (files ++ f :: rest).length = files.length + 1 + rest.length := by
      simp only [List.length_append, List.length_cons]
      omega
    have hbelow := below_append (files ++ [f]) rest
    rw [← hsplit] at hbelow
    refine (addFile_spec hplan (hnames f (List.mem_cons_self ..)) h hnum (by omega) (by omega)
      hbelow).seq fun _ m1 ⟨hm1, hnum1⟩ => ?_
    rw [hsplit] at hplan hcount ⊢
    refine ih hplan (fun g hg => hnames g (List.mem_cons_of_mem _ hg)) hcount hm1 ?_
    rw [hnum1, List.length_append, List.length_singleton]

theorem clear_spec (n : Nat) :
    Meets E (clear n) .start fun _ m => m = { Mk.start with len := n } := by
  induction n with
  | zero => exact meets_pure rfl
  | succ n ih =>
    refine ih.seq fun _ m hm => ?_
    subst hm
    refine meets_wsect ?_
    have himg : update (fun _ : Nat => zeroBlock) n zeroBlock = fun _ => zeroBlock :=
      update_eq_self_iff.mpr rfl
    have hlen : max n (n + 1) = n + 1 := Nat.max_eq_right (Nat.le_succ n)
    simp only [Mk.put, Mk.start, himg, hlen]

/-- The image before the first inode is allocated. -/
def Mk.blank : Mk := { Mk.start with len := fssize }.put 1 sb.block

theorem blank_img (b : Nat) : Mk.blank.img b = if b = 1 then sb.block else zeroBlock :=
  update_apply ..

theorem blank_dinodes (i : Nat) : (Mk.blank.store.dinodes i).type = .free := by
  show (if sb.iblock i < sb.bmapstart then _ else Dinode.zero : Dinode).type = .free
  split
  case isFalse => rfl
  case isTrue =>
    have hne : sb.iblock i ≠ 1 := by
      have hge : sb.inodestart ≤ sb.iblock i := Nat.le_add_left ..
      rw [inodestart_eq] at hge
      omega
    rw [blank_img, if_neg hne]
    have hword : ∀ k, word zeroBlock k = 0 := fun k => by
      unfold word
      split <;> rfl
    simp only [dinodeOf, hword]
    decide

theorem blank_made : Made .blank fun _ => [] := by
  have hnone : ∀ o, owner Mk.blank.store.dinodes Mk.blank.store.data o = none :=
    fun o => if_pos (blank_dinodes o.1)
  refine ⟨⟨by decide, fun b hb => (blank_img b).trans (if_neg ?_), Nat.le_refl _, by decide⟩,
    Nat.le_refl _, by decide, ⟨⟨fun ho => ?_, fun ho => ?_, fun {b} hb => ?_⟩, fun b hb => ?_,
      fun i hi => absurd (blank_dinodes i) hi, fun i _ hi => absurd (blank_dinodes i) hi,
      fun i hi => absurd (blank_dinodes i) hi⟩,
    fun i h1 hi => ?_, fun i _ => ⟨blank_dinodes i, rfl⟩, rfl, fun b _ => blank_img b⟩
  · rintro rfl
    exact absurd hb (by decide)
  · rw [hnone] at ho
    cases ho
  · rw [hnone] at ho
    cases ho
  · constructor
    · intro hmark
      have hlt : b < nmeta := of_decide_eq_true hmark
      have hge := hb.1
      rw [layout_nmeta] at hge
      omega
    · rintro ⟨o, ho⟩
      rw [hnone] at ho
      cases ho
  · exact decide_eq_true hb
  · have hlt : i < 1 := hi
    omega

/-- The inputs pass the assertions, and there is room for them. -/
structure Fits (files : List Input) : Prop where
  count : files.length < ninodes
  names : ∀ f ∈ files, NameOk f
  sizes : ∀ f ∈ files, f.contents.length ≤ maxfile * bsize
  blocks : usedBlocks files ≤ nblocks

theorem Fits.plan (h : Fits files) : Plan (contentsOf files) (files.length + 2) := by
  refine ⟨fun i => ?_, ?_⟩
  · unfold contentsOf
    split
    case isTrue => exact Nat.zero_le _
    case isFalse =>
    split
    case isTrue =>
      have hcount := h.count
      rw [rootBytes_length]
      unfold ninodes at hcount
      unfold direntSize maxfile ndirect nindirect bsize
      omega
    case isFalse =>
    cases hf : files[i - 2]? with
    | none => exact Nat.zero_le _
    | some f => exact h.sizes f (List.mem_of_getElem? hf)
  · rw [total_contentsOf]
    have hblocks := h.blocks
    have heq : nmeta + nblocks = fssize := by decide
    omega

/-- How the kernel finds an image: as in `m`, but the size of the root directory
is rounded up. -/
structure Imaged (m : Mk) (img : Nat → Block) : Prop where
  bitmap : (mount img).bitmap = m.store.bitmap
  dinodes : (mount img).dinodes = update m.store.dinodes rootino
    { m.store.dinodes rootino with
      size := ((m.store.dinodes rootino).size / bsize + 1) * bsize }
  data : ∀ b, nmeta ≤ b → (mount img).data b = m.store.data b
  log : img sb.logstart = zeroBlock

/-- The size of the root directory is rounded up, and the bitmap is written. -/
def Mk.finish (m : Mk) : Mk :=
  (m.setInode rootino { m.store.dinodes rootino with
    size := ((m.store.dinodes rootino).size / bsize + 1) * bsize }).put sb.bmapstart
      (ofBytes ((List.range m.freeblock).foldl markBit fun _ => 0))

theorem Made.finish (h : Made m c) (hroot : rootino < m.freeinode) : Imaged m m.finish.img := by
  have ht := h.type_ne_free (by decide) hroot
  have hsize := h.owned.size rootino ht
  have hfits := Owned.fits h.owned ht
  have hfits' : Dinode.Fits { m.store.dinodes rootino with
      size := ((m.store.dinodes rootino).size / bsize + 1) * bsize } := by
    refine ⟨?_, hfits.addrs⟩
    show ((m.store.dinodes rootino).size / bsize + 1) * bsize < 2 ^ 32
    unfold maxfile ndirect nindirect bsize at hsize
    unfold bsize
    omega
  have hdin := dinodes_setInode (m := m) (i := rootino) (by decide) hfits'
  have hblock : sb.iblock rootino = 33 := by decide
  have himg : ∀ b, b ≠ 33 → b ≠ 46 → m.finish.img b = m.img b := by
    intro b h33 h46
    unfold Mk.finish Mk.setInode Mk.put
    dsimp only
    rw [bmapstart_eq, hblock, update_of_ne h46, update_of_ne h33]
  have hsb : readsb (m.finish.img 1) = sb := by
    rw [himg 1 (by decide) (by decide), h.fixed 1 (by decide), if_pos rfl, readsb_block]
  have hmount : mount m.finish.img = storeOf sb m.finish.img := by
    unfold mount
    rw [hsb]
  refine ⟨?_, ?_, fun b hb => ?_, ?_⟩
  · rw [hmount]
    funext b
    have hroom := h.ready.room
    show (decide (b < fssize) && bitSet (m.finish.img (b / bpb + sb.bmapstart)) (b % bpb)) =
      decide (b < m.freeblock)
    by_cases hb : b < fssize
    · have hsmall : b < bpb := Nat.lt_trans hb (by decide)
      have hmap : m.finish.img sb.bmapstart =
          ofBytes ((List.range m.freeblock).foldl markBit fun _ => 0) := by
        simp only [Mk.finish, Mk.put, update_self]
      rw [Nat.div_eq_of_lt hsmall, Nat.zero_add, Nat.mod_eq_of_lt hsmall, hmap,
        bitSet_marked _ hsmall, decide_eq_true hb, Bool.true_and]
    · rw [decide_eq_false hb, Bool.false_and, decide_eq_false (by omega)]
  · rw [← hdin, hmount]
    show (storeOf sb m.finish.img).dinodes = (storeOf sb (m.setInode rootino _).img).dinodes
    funext i
    simp only [storeOf]
    split
    case isFalse => rfl
    case isTrue hi => exact congrArg (dinodeOf · _) (update_of_ne (Nat.ne_of_lt hi) ..)
  · have hb' := hb
    rw [nmeta_eq] at hb'
    rw [store_data hb, hmount]
    exact himg b (by omega) (by omega)
  · rw [himg _ (by decide) (by decide), h.fixed _ (by decide)]
    exact if_neg (by decide)

/-- A root directory without files. -/
theorem contentsOf_nil : contentsOf [] = update (fun _ => []) rootino
    (direntBytes rootino dotName ++ direntBytes rootino dotdotName) := by
  funext i
  by_cases hi : i = rootino
  · subst hi
    rw [update_self]
    show direntBytes _ _ ++ (direntBytes _ _ ++ []) = _
    rw [List.append_nil]
  · rw [update_of_ne hi]
    unfold contentsOf
    split <;> rfl

theorem main_spec (h : Fits files) :
    Total (main files) .start fun _ m' => ∃ m, Made m (contentsOf files) ∧
      m.freeinode = files.length + 2 ∧ m' = m.finish := by
  have hplan := h.plan
  have hbelow := below_append [] files
  rw [List.nil_append, contentsOf_nil] at hbelow
  refine (clear_spec fssize).seq fun _ m hm => ?_
  subst hm
  refine Meets.bind (meets_wsect ?_)
  refine (ialloc_spec blank_made (by decide)).seq fun root m ⟨hroot, hm, hnum⟩ => ?_
  have hone : root = rootino := hroot
  subst hone
  have hnum2 : m.freeinode = 2 := hnum
  -- "." and ".."
  have hdot : Below (update (fun _ => []) rootino ([] ++ direntBytes rootino dotName))
      (contentsOf files) := by
    intro i
    refine Nat.le_trans ?_ (hbelow i)
    by_cases hi : i = rootino
    · subst hi
      rw [update_self, update_self, List.nil_append, List.length_append]
      exact Nat.le_add_right ..
    · rw [update_of_ne hi, update_of_ne hi]
  refine (append_spec hplan hm (by decide) (by rw [hnum2]; decide) (by omega) hdot).seq
    fun _ m1 ⟨hm1, hnum1⟩ => ?_
  have hdots : update (update (fun _ => []) rootino ([] ++ direntBytes rootino dotName)) rootino
      (update (fun _ => []) rootino ([] ++ direntBytes rootino dotName) rootino ++
        direntBytes rootino dotdotName) = contentsOf [] := by
    rw [update_self, update_idem, List.nil_append, contentsOf_nil]
  refine (append_spec hplan hm1 (by decide) (by rw [hnum1, hnum2]; decide) (by omega) (by
    rw [hdots, contentsOf_nil]
    exact hbelow)).seq fun _ m2 ⟨hm2, hnum2'⟩ => ?_
  rw [hdots] at hm2
  have hnum3 : m2.freeinode = ([] : List Input).length + 2 := by
    rw [hnum2', hnum1, hnum2]
    rfl
  have hplan3 : Plan (contentsOf ([] ++ files)) (([] ++ files).length + 2) := hplan
  refine (addFiles_spec files hplan3 h.names h.count hm2 hnum3).seq fun _ m3 ⟨hm3, hnum3⟩ => ?_
  refine Meets.bind (meets_rinode hm3.ready (by decide) ?_)
  refine Meets.bind (meets_winode hm3.ready (by decide) ?_)
  refine meets_read ?_
  have hsmall : m3.freeblock < bpb := Nat.lt_of_le_of_lt hm3.ready.room (by decide)
  exact meets_if hsmall (meets_wsect ⟨m3, hm3, hnum3, rfl⟩)

/-- The image that `mkfs` makes of inputs that fit. -/
theorem mkfs_spec (h : Fits files) :
    ∃ img m, mkfs files = .ok img ∧ Made m (contentsOf files) ∧
      m.freeinode = files.length + 2 ∧ Imaged m img := by
  obtain ⟨_, m', hrun, m, hmade, hnum, rfl⟩ := (main_spec h).elim
  refine ⟨m.finish.img, m, ?_, hmade, hnum, hmade.finish ?_⟩
  · unfold mkfs
    rw [hrun]
    rfl
  · unfold rootino
    omega

/-! ## §3 Holes -/

/-- The number of blocks of a file of this size. -/
def blockCount (size : Nat) : Nat := (size + bsize - 1) / bsize

/-- Each block of each file has an address of its own in the data area, with its
bit set. -/
structure NoHoles (st : Store) : Prop where
  present : ∀ i bn, (st.dinodes i).type ≠ .free → bn < blockCount (st.dinodes i).size →
    (st.dinodes i).blockAt st.data bn ≠ 0
  area : ∀ i bn, (st.dinodes i).type ≠ .free → bn < blockCount (st.dinodes i).size →
    nmeta ≤ (st.dinodes i).blockAt st.data bn ∧ (st.dinodes i).blockAt st.data bn < fssize ∧
      st.bitmap ((st.dinodes i).blockAt st.data bn) = true
  distinct : ∀ i bn i' bn', (st.dinodes i).type ≠ .free → bn < blockCount (st.dinodes i).size →
    (st.dinodes i').type ≠ .free → bn' < blockCount (st.dinodes i').size →
    (st.dinodes i).blockAt st.data bn = (st.dinodes i').blockAt st.data bn' → i = i' ∧ bn = bn'

theorem lt_blockCount {bn size : Nat} : bn < blockCount size ↔ bn * bsize < size := by
  unfold blockCount bsize
  omega

theorem Owned.noHoles {st : Store} (h : Owned layout st.dinodes st) : NoHoles st := by
  have hpresent : ∀ i bn, (st.dinodes i).type ≠ .free → bn < blockCount (st.dinodes i).size →
      (st.dinodes i).blockAt st.data bn ≠ 0 :=
    fun i bn ht hbn => h.full i bn ht (lt_blockCount.mp hbn)
  have hmax : ∀ i bn, (st.dinodes i).type ≠ .free → bn < blockCount (st.dinodes i).size →
      bn < maxfile := by
    intro i bn ht hbn
    have hsize := h.size i ht
    have hlt := lt_blockCount.mp hbn
    exact Nat.lt_of_mul_lt_mul_right (Nat.lt_of_lt_of_le hlt hsize)
  refine ⟨hpresent, fun i bn ht hbn => ?_, fun i bn i' bn' ht hbn ht' hbn' heq => ?_⟩
  · have ho := owner_blockAt ht (hpresent i bn ht hbn)
    have harea := h.pool.area ho
    exact ⟨harea.1, harea.2, h.pool.marked ho⟩
  · have ho := owner_blockAt ht (hpresent i bn ht hbn)
    have ho' := owner_blockAt ht' (hpresent i' bn' ht' hbn')
    rw [heq] at ho
    have hsame := h.pool.inj ho ho'
    exact ⟨congrArg Prod.fst hsame,
      slotOf_inj (hmax i bn ht hbn) (hmax i' bn' ht' hbn') (congrArg Prod.snd hsame)⟩

variable {img : Nat → Block}

/-- The blocks of the files are those of the data area. -/
theorem Imaged.ptr (h : Imaged m img) (hm : Made m c) (ht : (m.store.dinodes i).type ≠ .free)
    (k : Slot) :
    (m.store.dinodes i).ptr (mount img).data k = (m.store.dinodes i).ptr m.store.data k := by
  refine ptr_congr _ _ k fun h0 => h.data _ ?_
  exact (Owned.used hm.owned (owner_indirect ht h0)).1

theorem Imaged.owned (h : Imaged m img) (hm : Made m c) (hroot : rootino < m.freeinode)
    (hodd : (c rootino).length % bsize ≠ 0) :
    Owned layout (mount img).dinodes (mount img) := by
  have hf := hm.file rootino (by decide) hroot
  have ht := hm.type_ne_free (by decide) hroot
  have hsize := hm.owned.size rootino ht
  have hlen := hf.size
  have hcover : Owned layout (update _ rootino { m.store.dinodes rootino with
      size := ((m.store.dinodes rootino).size / bsize + 1) * bsize }) m.store :=
    hm.owned.resize rfl rfl
    (fun bn hbn => hm.owned.full rootino bn ht (by
      have hlt : bn * bsize < ((m.store.dinodes rootino).size / bsize + 1) * bsize := hbn
      unfold bsize at *
      omega)) (by
      show ((m.store.dinodes rootino).size / bsize + 1) * bsize ≤ maxfile * bsize
      unfold maxfile ndirect nindirect bsize at *
      omega)
  rw [← h.dinodes] at hcover
  refine hcover.congr ?_ h.bitmap fun j hj => ⟨hj, rfl⟩
  funext o
  obtain ⟨j, k⟩ := o
  by_cases hj : ((mount img).dinodes j).type = .free
  · exact (if_pos hj).trans (if_pos hj).symm
  · rw [owner_of_alloc hj, owner_of_alloc hj]
    congr 1
    rw [h.dinodes] at hj ⊢
    by_cases hjr : j = rootino
    · subst hjr
      exact h.ptr hm ht k
    · rw [update_of_ne hjr] at hj ⊢
      exact h.ptr hm hj k

/-- If the entries end with a block, the rounded size of the root directory takes
in a block that does not exist. -/
theorem Imaged.hole (h : Imaged m img) (hm : Made m c) (hroot : rootino < m.freeinode)
    (hlen : (c rootino).length < maxfile * bsize) (heven : (c rootino).length % bsize = 0) :
    ((mount img).dinodes rootino).type ≠ .free ∧
      (c rootino).length / bsize < blockCount ((mount img).dinodes rootino).size ∧
      ((mount img).dinodes rootino).blockAt (mount img).data ((c rootino).length / bsize) = 0 := by
  have hf := hm.file rootino (by decide) hroot
  have ht := hm.type_ne_free (by decide) hroot
  rw [h.dinodes, update_self]
  refine ⟨ht, ?_, ?_⟩
  · show _ < blockCount (((m.store.dinodes rootino).size / bsize + 1) * bsize)
    rw [hf.size]
    unfold blockCount bsize
    omega
  · refine (h.ptr hm ht _).trans ?_
    by_contra hne
    have hmax : (c rootino).length / bsize < maxfile :=
      Nat.div_lt_of_lt_mul (by rw [Nat.mul_comm]; exact hlen)
    have hlt := hf.tight.blocks _ hmax hne
    unfold bsize at *
    omega

theorem Fits.root_length (h : Fits files) :
    (contentsOf files rootino).length = direntSize * (files.length + 2) ∧
      (contentsOf files rootino).length < maxfile * bsize := by
  have hlen : (contentsOf files rootino).length = direntSize * (files.length + 2) :=
    rootBytes_length files
  have hcount := h.count
  rw [hlen]
  unfold ninodes at hcount
  unfold direntSize maxfile ndirect nindirect bsize
  omega

/-- An image has no holes, unless the entries of its root directory fill their
blocks. -/
theorem no_holes_iff {files : List Input} (h : Fits files) :
    ∃ img, mkfs files = .ok img ∧
      (NoHoles (mount img) ↔ direntSize * (files.length + 2) % bsize ≠ 0) := by
  obtain ⟨img, m, hrun, hm, hnum, himg⟩ := mkfs_spec h
  obtain ⟨hlen, hmax⟩ := h.root_length
  have hroot : rootino < m.freeinode := by
    unfold rootino
    omega
  refine ⟨img, hrun, fun hno heven => ?_, fun hodd => ?_⟩
  · rw [← hlen] at heven
    obtain ⟨ht, hbn, h0⟩ := himg.hole hm hroot hmax heven
    exact hno.present _ _ ht hbn h0
  · rw [← hlen] at hodd
    exact Owned.noHoles (himg.owned hm hroot hodd)

/-- An empty file whose name is one byte. -/
def emptyFile (j : Nat) : Input where
  path := [BitVec.ofNat 8 (128 + j)]
  reads := []
  sizes _ h := absurd h List.not_mem_nil

def emptyFiles : List Input := (List.range 62).map emptyFile

theorem emptyFile_ok (j : Nat) (hj : j < 62) : NameOk (emptyFile j) := by
  unfold NameOk
  revert j
  decide

theorem emptyFiles_fit : Fits emptyFiles := by
  refine ⟨by decide, fun f hf => ?_, fun f hf => ?_, by decide⟩
  · obtain ⟨j, hj, rfl⟩ := List.mem_map.mp hf
    exact emptyFile_ok j (List.mem_range.mp hj)
  · obtain ⟨j, _, rfl⟩ := List.mem_map.mp hf
    exact Nat.zero_le _

theorem emptyFiles_leave_hole :
    Fits emptyFiles ∧ ∃ img, mkfs emptyFiles = .ok img ∧ ¬ NoHoles (mount img) := by
  obtain ⟨img, hrun, hiff⟩ := no_holes_iff emptyFiles_fit
  exact ⟨emptyFiles_fit, img, hrun, fun hno => hiff.mp hno (by decide)⟩

/-- With 62 empty files, the root directory has two blocks by its size, and one
address. -/
theorem root_of_62_files_has_hole : ∃ img, mkfs emptyFiles = .ok img ∧
    ((mount img).dinodes rootino).type ≠ .free ∧
    1 < blockCount ((mount img).dinodes rootino).size ∧
    ((mount img).dinodes rootino).blockAt (mount img).data 1 = 0 := by
  obtain ⟨img, m, hrun, hm, hnum, himg⟩ := mkfs_spec emptyFiles_fit
  obtain ⟨hlen, hmax⟩ := emptyFiles_fit.root_length
  have hfull : (contentsOf emptyFiles rootino).length = bsize := hlen.trans (by decide)
  have hhole := himg.hole hm (by rw [hnum]; decide) hmax (by rw [hfull]; decide)
  rw [hfull] at hhole
  exact ⟨img, hrun, hhole⟩

end Xv6.Mkfs
