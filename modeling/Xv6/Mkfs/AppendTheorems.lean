/-
Xv6.Mkfs.AppendTheorems — `iappend` allocates and writes blocks as the kernel
does.

The state of `mkfs` is seen as a store of the kernel in which the blocks below
`freeblock` are marked. §1 this view, §2 `iappend` finds a block where the
kernel's `bmap` finds it, so that what is known of `bmap` applies, §3 how many
blocks a file takes, §4 the loop of `iappend`, §5 inodes on the image.
-/
import Mathlib.Data.List.GetD
import Xv6.Mkfs.FormatTheorems
import Xv6.Files.ContentTheorems

namespace Xv6.Mkfs

open Xv6.Lib Function
open Xv6.Fs (Block word)
open Xv6.Files

/-! ## §1 The image as a store -/

theorem layout_fits :
    2 + nlog + ((ninodes + 1) / ipb + 1) + (fssize / bpb + 1) ≤ fssize := by decide
theorem layout_small : fssize < 2 ^ 31 := by decide
theorem layout_root : 1 < ninodes + 1 := by decide
theorem layout_inums : ninodes + 1 ≤ 2 ^ 16 := by decide

/-- The layout, with the inode of one file more than `sb.ninodes` says: there may
be 199 files, and `mkfs` does not count the root directory. -/
def layout : Superblock :=
  ⟨fssize, ninodes + 1, nlog, layout_fits, layout_small, layout_root, layout_inums⟩

theorem layout_nmeta : layout.nmeta = nmeta := by decide

def Mk.store (m : Mk) : Store where
  bitmap b := b < m.freeblock
  dinodes := (storeOf sb m.img).dinodes
  data b := if nmeta ≤ b then m.img b else zeroBlock

/-- All sectors are there, and unused ones are empty. -/
structure Mk.Ready (m : Mk) : Prop where
  len : m.len = fssize
  fresh : ∀ b, m.freeblock ≤ b → m.img b = zeroBlock
  start : nmeta ≤ m.freeblock
  room : m.freeblock ≤ fssize

variable {m m' : Mk} {E : Fail → Prop} {sec b i bn k : Nat} {din : Dinode} {ino : Nat → Dinode}
  {Q : Nat → Store → Prop} {F : Panic → Prop} {ip : Dinode}

theorem meets_rsect {Q : Block → Mk → Prop} (h : sec < m.len) (hq : Q (m.img sec) m) :
    Meets E (rsect sec) m Q := by
  refine meets_read ?_
  rw [if_pos h]
  exact meets_pure hq

def Mk.put (m : Mk) (sec : Nat) (buf : Block) : Mk :=
  { m with img := update m.img sec buf, len := max m.len (sec + 1) }

theorem meets_wsect {Q : Unit → Mk → Prop} {buf : Block} (hq : Q () (m.put sec buf)) :
    Meets E (wsect sec buf) m Q :=
  meets_modify hq

def Mk.take (m : Mk) : Mk := { m with freeblock := m.freeblock + 1 }

theorem meets_takeBlock {Q : Nat → Mk → Prop} (hq : Q m.freeblock m.take) :
    Meets E takeBlock m Q :=
  meets_read (meets_update (meets_pure hq))

theorem Mk.Ready.take (h : m.Ready) (hroom : m.freeblock < fssize) : m.take.Ready :=
  ⟨h.len, fun b hb => h.fresh b (Nat.le_of_succ_le hb), Nat.le_succ_of_le h.start, hroom⟩

/-- A block in use gets other contents. -/
theorem Mk.Ready.put (h : m.Ready) (hsec : sec < m.freeblock) (buf : Block) :
    (m.put sec buf).Ready := by
  have hroom := h.room
  have hlen := h.len
  refine ⟨?_, fun b hb => ?_, h.start, h.room⟩
  · show max m.len (sec + 1) = fssize
    omega
  · have hne : b ≠ sec := by
      have hle : m.freeblock ≤ b := hb
      omega
    exact (update_of_ne hne ..).trans (h.fresh b hb)

theorem iblock_lt (h : sb.iblock i < sb.bmapstart) : sb.iblock i < nmeta :=
  Nat.lt_of_lt_of_le h (by decide)

theorem dinodes_congr {img img' : Nat → Block} (h : ∀ b, b < nmeta → img' b = img b) :
    (storeOf sb img').dinodes = (storeOf sb img).dinodes := by
  funext i
  simp only [storeOf]
  split
  case isTrue hi => rw [h _ (iblock_lt hi)]
  case isFalse => rfl

theorem store_put (hsec : nmeta ≤ sec) (buf : Block) :
    (m.put sec buf).store = m.store.put sec buf := by
  have hdin : (m.put sec buf).store.dinodes = m.store.dinodes := by
    refine dinodes_congr fun b hb => update_of_ne ?_ ..
    omega
  have hdata : (m.put sec buf).store.data = update m.store.data sec buf := by
    funext b
    by_cases hb : b = sec
    · subst hb
      rw [update_self]
      exact (if_pos hsec).trans (update_self ..)
    · rw [update_of_ne hb]
      show (if nmeta ≤ b then update m.img sec buf b else zeroBlock) = _
      rw [update_of_ne hb]
      rfl
  unfold Store.put
  rw [← hdata, ← hdin]
  rfl

/-- The marked blocks are those below `fb`. -/
def Marked (st : Store) (fb : Nat) : Prop := st.bitmap = fun b => decide (b < fb)

theorem balloc_first {sb : Superblock} {st : Store} {fb : Nat} (h : Marked st fb)
    (hlt : fb < sb.size) (hq : Q fb (st.taken fb)) :
    Meets F (Files.balloc sb) st Q := by
  have hfind : (List.range sb.size).find? (fun b => !st.bitmap b) = some fb := by
    rw [List.find?_range_eq_some, h]
    exact ⟨by simp, List.mem_range.mpr hlt, fun j hj => by simp [hj]⟩
  refine meets_read ?_
  simp only [hfind]
  exact Meets.bind (meets_set (meets_pure hq))

/-- `freeblock++` is what the kernel's `balloc` does here. -/
theorem taken_store (h : m.Ready) : m.store.taken m.freeblock = m.take.store := by
  have hbit : update m.store.bitmap m.freeblock true = m.take.store.bitmap := by
    funext b
    by_cases hb : b = m.freeblock
    · subst hb
      rw [update_self]
      exact (decide_eq_true (Nat.lt_succ_self _)).symm
    · rw [update_of_ne hb]
      show decide (b < m.freeblock) = decide (b < m.freeblock + 1)
      exact decide_eq_decide.mpr (by omega)
  have hdata : update m.store.data m.freeblock zeroBlock = m.take.store.data := by
    refine update_eq_self_iff.mpr ?_
    show zeroBlock = if nmeta ≤ m.freeblock then m.img m.freeblock else zeroBlock
    rw [if_pos h.start, h.fresh _ (Nat.le_refl _)]
  unfold Store.taken
  rw [hbit, hdata]
  rfl

theorem meets_balloc (h : m.Ready) (hroom : m.freeblock < fssize)
    (hq : Q m.freeblock m.take.store) :
    Meets F (Files.balloc layout) m.store Q := by
  rw [← taken_store h] at hq
  have hm : Marked m.store m.freeblock := rfl
  exact balloc_first hm hroom hq

/-! ## §2 Addresses -/

/-- The address `directAddr` returns, with the inode and the state after it. -/
def Mk.direct (m : Mk) (din : Dinode) (k : Fin 13) : (Nat × Dinode) × Mk :=
  if din.addrs k = 0 then ((m.freeblock, din.setAddr k m.freeblock), m.take)
  else ((din.addrs k, din), m)

theorem meets_directAddr {k : Fin 13} {Q : Nat × Dinode → Mk → Prop}
    (hq : Q (m.direct din k).1 (m.direct din k).2) : Meets E (directAddr din k) m Q := by
  unfold Mk.direct at hq
  refine meets_ite (fun h0 => ?_) (fun h0 => ?_)
  · rw [if_pos h0] at hq
    exact Meets.bind (meets_takeBlock (meets_pure hq))
  · rw [if_neg h0] at hq
    exact meets_pure hq

theorem Mk.Ready.ne_zero (h : m.Ready) : m.freeblock ≠ 0 := by
  have hstart := h.start
  rw [nmeta_eq] at hstart
  omega

theorem inodeAddr_direct (h : m.Ready) {k : Fin 13} (hroom : din.addrs k = 0 → m.freeblock < fssize)
    {Q : Nat × Dinode → Store → Prop} (hq : Q (m.direct din k).1 (m.direct din k).2.store) :
    Meets F (inodeAddr layout din k) m.store Q := by
  unfold Mk.direct at hq
  refine meets_ite (fun h0 => ?_) (fun h0 => ?_)
  · rw [if_pos h0] at hq
    refine Meets.bind (meets_balloc h (hroom h0) ?_)
    rw [if_neg h.ne_zero]
    exact meets_pure hq
  · rw [if_neg h0] at hq
    exact meets_pure hq

/-- The same for an entry of an indirect block. -/
def Mk.word (m : Mk) (ind k : Nat) : Nat × Mk :=
  if (Fs.word (m.img ind) k).toNat = 0 then
    (m.freeblock, m.take.put ind (setWord (m.img ind) k m.freeblock))
  else ((Fs.word (m.img ind) k).toNat, m)

theorem meets_wordAddr {ind : Nat} {Q : Nat → Mk → Prop} (hind : ind < m.len)
    (hq : Q (m.word ind k).1 (m.word ind k).2) : Meets E (wordAddr ind k) m Q := by
  unfold Mk.word at hq
  refine Meets.bind (meets_rsect hind ?_)
  refine meets_ite (fun h0 => ?_) (fun h0 => ?_)
  · rw [if_pos h0] at hq
    exact Meets.bind (meets_takeBlock (Meets.bind (meets_wsect (meets_pure hq))))
  · rw [if_neg h0] at hq
    exact meets_pure hq

theorem store_data (h : nmeta ≤ b) : m.store.data b = m.img b := if_pos h

theorem indirectAddr_word (h : m.Ready) {ind : Nat} (hind : nmeta ≤ ind)
    (hroom : (Fs.word (m.img ind) k).toNat = 0 → m.freeblock < fssize)
    (hq : Q (m.word ind k).1 (m.word ind k).2.store) :
    Meets F (indirectAddr layout ind k) m.store Q := by
  unfold Mk.word at hq
  refine Meets.bind (meets_read (meets_pure ?_))
  rw [store_data hind]
  refine meets_ite (fun h0 => ?_) (fun h0 => ?_)
  · rw [if_pos h0] at hq
    refine Meets.bind (meets_balloc h (hroom h0) ?_)
    rw [if_neg h.ne_zero]
    refine meets_update (meets_pure ?_)
    rw [store_put hind] at hq
    rw [store_data hind]
    exact hq
  · rw [if_neg h0] at hq
    exact meets_pure hq

/-- The same for block `bn` of a file. -/
def Mk.addr (m : Mk) (din : Dinode) (bn : Nat) : (Nat × Dinode) × Mk :=
  if h : bn < ndirect then m.direct din ⟨bn, direct_index_lt h⟩
  else
    let r := m.direct din indirect
    let w := r.2.word r.1.1 (bn - ndirect)
    ((w.1, r.1.2), w.2)

/-- How many blocks that takes. -/
def need (din : Dinode) (data : Nat → Block) (bn : Nat) : Nat :=
  if din.blockAt data bn ≠ 0 then 0 else if bn < ndirect ∨ din.addrs indirect ≠ 0 then 1 else 2

theorem need_direct (data : Nat → Block) (hd : bn < ndirect)
    (h0 : din.addrs ⟨bn, direct_index_lt hd⟩ = 0) : need din data bn = 1 := by
  rw [need, if_neg (not_not.mpr ((blockAt_direct _ hd).trans h0)), if_pos (.inl hd)]

theorem need_word (data : Nat → Block) (hbn : bn < maxfile) (hd : ¬ bn < ndirect)
    (hi0 : din.addrs indirect ≠ 0)
    (h0 : (Fs.word (data (din.addrs indirect)) (bn - ndirect)).toNat = 0) :
    need din data bn = 1 := by
  have hblock := (blockAt_word data hbn hd).trans (if_neg hi0)
  rw [need, if_neg (not_not.mpr (hblock.trans h0)), if_pos (.inr hi0)]

theorem need_newIndirect (data : Nat → Block) (hbn : bn < maxfile) (hd : ¬ bn < ndirect)
    (hi0 : din.addrs indirect = 0) : need din data bn = 2 := by
  have hblock := (blockAt_word data hbn hd).trans (if_pos hi0)
  rw [need, if_neg (not_not.mpr hblock), if_neg (by simp [hd, hi0])]

theorem setAddr_indirect (din : Dinode) (b : Nat) :
    (din.setAddr indirect b).addrs indirect = b := by
  simp [Dinode.setAddr]

/-- What `appendAddr` does to the image: block `bn` is at `x`. -/
structure Found (m m' : Mk) (din din' : Dinode) (bn x : Nat) : Prop where
  ready : m'.Ready
  nonzero : x ≠ 0
  low : ∀ b, b < nmeta → m'.img b = m.img b
  freeinode : m'.freeinode = m.freeinode
  count : m'.freeblock = m.freeblock + need din m.store.data bn
  zero : din.blockAt m.store.data bn = 0 → m'.store.data x = zeroBlock
  only : ∀ bn', bn' < maxfile → bn' ≠ bn →
    din'.blockAt m'.store.data bn' = din.blockAt m.store.data bn'
  indirect : din'.addrs indirect ≠ 0 → din.addrs indirect ≠ 0 ∨ ndirect ≤ bn

theorem Found.same (h : m.Ready) (hn : din.blockAt m.store.data bn ≠ 0) :
    Found m m din din bn (din.blockAt m.store.data bn) where
  ready := h
  nonzero := hn
  low _ _ := rfl
  freeinode := rfl
  count := by rw [need, if_pos hn, Nat.add_zero]
  zero h0 := absurd h0 hn
  only _ _ _ := rfl
  indirect := .inl

theorem Mk.Ready.data_free (h : m.Ready) : m.store.data m.freeblock = zeroBlock :=
  (store_data h.start).trans (h.fresh _ (Nat.le_refl _))

theorem ne_indirect (h : bn < ndirect) : (⟨bn, direct_index_lt h⟩ : Fin 13) ≠ indirect := by
  intro heq
  exact Nat.ne_of_lt h (congrArg Fin.val heq)

theorem found_direct (h : m.Ready) (hd : bn < ndirect)
    (hroom : m.freeblock + need din m.store.data bn ≤ fssize) :
    Found m (m.addr din bn).2 din (m.addr din bn).1.2 bn (m.addr din bn).1.1 := by
  unfold Mk.addr
  rw [dif_pos hd]
  unfold Mk.direct
  by_cases h0 : din.addrs ⟨bn, direct_index_lt hd⟩ = 0
  · rw [if_pos h0]
    have hneed := need_direct m.store.data hd h0
    rw [hneed] at hroom
    refine ⟨h.take hroom, h.ne_zero, fun _ _ => rfl, rfl, ?_, fun _ => h.data_free,
      fun bn' hbn' hne => ?_, fun hi => .inl ?_⟩
    · rw [hneed]
      rfl
    · by_cases hd' : bn' < ndirect
      · rw [blockAt_direct _ hd', blockAt_direct _ hd']
        refine update_of_ne (fun heq => hne ?_) ..
        exact congrArg Fin.val heq
      · have hind : (din.setAddr ⟨bn, direct_index_lt hd⟩ m.freeblock).addrs indirect =
            din.addrs indirect := update_of_ne (ne_indirect hd).symm ..
        rw [blockAt_word _ hbn' hd', blockAt_word _ hbn' hd', hind]
        rfl
    · rwa [show (din.setAddr ⟨bn, direct_index_lt hd⟩ m.freeblock).addrs indirect =
        din.addrs indirect from update_of_ne (ne_indirect hd).symm ..] at hi
  · rw [if_neg h0]
    have hblock : din.blockAt m.store.data bn = din.addrs ⟨bn, direct_index_lt hd⟩ :=
      blockAt_direct _ hd
    have hne : din.blockAt m.store.data bn ≠ 0 := by
      rw [hblock]
      exact h0
    have hsame := Found.same h hne
    rw [hblock] at hsame
    exact hsame

theorem word_setWord (b : Block) {j w : Nat} (hk : k < 256) :
    Fs.word (setWord b j w) k = if k = j then BitVec.ofNat 32 w else Fs.word b k := by
  unfold Fs.word
  rw [dif_pos hk, dif_pos hk]
  rfl

/-- An entry of the indirect block is set. -/
theorem found_word (h : m.Ready) (hbn : bn < maxfile) (hd : ¬ bn < ndirect)
    (hi0 : din.addrs indirect ≠ 0) (hlow : nmeta ≤ din.addrs indirect)
    (hup : din.addrs indirect < m.freeblock)
    (hroom : m.freeblock + need din m.store.data bn ≤ fssize) :
    Found m (m.word (din.addrs indirect) (bn - ndirect)).2 din din bn
      (m.word (din.addrs indirect) (bn - ndirect)).1 := by
  have hblock : din.blockAt m.store.data bn =
      (Fs.word (m.img (din.addrs indirect)) (bn - ndirect)).toNat := by
    rw [blockAt_word _ hbn hd, if_neg hi0, store_data hlow]
  unfold Mk.word
  by_cases h0 : (Fs.word (m.img (din.addrs indirect)) (bn - ndirect)).toNat = 0
  · rw [if_pos h0]
    have hneed := need_word m.store.data hbn hd hi0 (by rw [store_data hlow]; exact h0)
    rw [hneed] at hroom
    have hready := h.take hroom
    have hlt : din.addrs indirect < m.take.freeblock := Nat.lt_succ_of_lt hup
    refine ⟨hready.put hlt _, h.ne_zero, fun b hb => ?_, rfl, ?_, fun _ => ?_,
      fun bn' hbn' hne => ?_, .inl⟩
    · exact update_of_ne (by omega) ..
    · rw [hneed]
      rfl
    · rw [store_put hlow]
      show update m.store.data _ _ m.freeblock = _
      rw [update_of_ne (by omega)]
      exact h.data_free
    · by_cases hd' : bn' < ndirect
      · rw [blockAt_direct _ hd', blockAt_direct _ hd']
      · rw [blockAt_word _ hbn' hd', blockAt_word _ hbn' hd', if_neg hi0, if_neg hi0]
        rw [store_put hlow]
        show (Fs.word (update m.store.data _ _ (din.addrs indirect)) _).toNat = _
        rw [update_self, word_setWord _ (word_index hbn' hd'), if_neg (by omega), store_data hlow]
  · rw [if_neg h0]
    have hne : din.blockAt m.store.data bn ≠ 0 := by
      rw [hblock]
      exact h0
    have hsame := Found.same h hne
    rw [hblock] at hsame
    exact hsame

theorem word_zeroBlock (k : Nat) : (Fs.word zeroBlock k).toNat = 0 := by
  unfold Fs.word
  split <;> rfl

/-- The indirect block is new, and empty. -/
theorem blockAt_newIndirect (h : m.Ready) (hi0 : din.addrs indirect = 0) (hbn : bn < maxfile) :
    (din.setAddr indirect m.freeblock).blockAt m.take.store.data bn =
      din.blockAt m.store.data bn := by
  by_cases hd : bn < ndirect
  · rw [blockAt_direct _ hd, blockAt_direct _ hd]
    exact update_of_ne (ne_indirect hd) ..
  · rw [blockAt_word _ hbn hd, blockAt_word _ hbn hd, setAddr_indirect, if_neg h.ne_zero,
      if_pos hi0, show m.take.store.data m.freeblock = zeroBlock from h.data_free]
    exact word_zeroBlock _

theorem found_newIndirect (h : m.Ready) (hbn : bn < maxfile) (hd : ¬ bn < ndirect)
    (hi0 : din.addrs indirect = 0) (hroom : m.freeblock + need din m.store.data bn ≤ fssize) :
    Found m (m.take.word m.freeblock (bn - ndirect)).2 din (din.setAddr indirect m.freeblock) bn
      (m.take.word m.freeblock (bn - ndirect)).1 := by
  have hself := setAddr_indirect din m.freeblock
  have hzero : din.blockAt m.store.data bn = 0 := by rw [blockAt_word _ hbn hd, if_pos hi0]
  have hzero' := (blockAt_newIndirect h hi0 hbn).trans hzero
  have hneed := need_newIndirect m.store.data hbn hd hi0
  have hneed' : need (din.setAddr indirect m.freeblock) m.take.store.data bn = 1 := by
    rw [need, if_neg (not_not.mpr hzero'), if_pos (.inr (by rw [hself]; exact h.ne_zero))]
  rw [hneed] at hroom
  have hi0' : (din.setAddr indirect m.freeblock).addrs indirect ≠ 0 := by
    exact h.ne_zero
  have hf := found_word
    (h.take (Nat.lt_of_lt_of_le (Nat.lt_add_of_pos_right (by decide)) hroom)) hbn hd
    hi0' (by rw [hself]; exact h.start)
    (by rw [hself]; exact Nat.lt_succ_self _) (by
      rw [hneed']
      show m.freeblock + 1 + 1 ≤ fssize
      omega)
  rw [hself] at hf
  refine ⟨hf.ready, hf.nonzero, hf.low, hf.freeinode, ?_, fun _ => hf.zero hzero',
    fun bn' hbn' hne => ?_, fun _ => .inr (Nat.le_of_not_lt hd)⟩
  · rw [hf.count, hneed', hneed]
    rfl
  · rw [hf.only bn' hbn' hne, blockAt_newIndirect h hi0 hbn']

/-- The addresses of the file are those of blocks in use. -/
def IndirectOk (m : Mk) (din : Dinode) : Prop :=
  din.addrs indirect ≠ 0 → nmeta ≤ din.addrs indirect ∧ din.addrs indirect < m.freeblock

section

variable (h : m.Ready) (hbn : bn < maxfile) (hi : IndirectOk m din)
  (hroom : m.freeblock + need din m.store.data bn ≤ fssize)
include h hbn hi hroom

theorem found_addr : Found m (m.addr din bn).2 din (m.addr din bn).1.2 bn (m.addr din bn).1.1 := by
  by_cases hd : bn < ndirect
  · exact found_direct h hd hroom
  · unfold Mk.addr
    rw [dif_neg hd]
    unfold Mk.direct
    by_cases hi0 : din.addrs indirect = 0
    · simp only [if_pos hi0]
      exact found_newIndirect h hbn hd hi0 hroom
    · simp only [if_neg hi0]
      exact found_word h hbn hd hi0 (hi hi0).1 (hi hi0).2 hroom

theorem meets_appendAddr {Q : Nat × Dinode → Mk → Prop}
    (hq : Q (m.addr din bn).1 (m.addr din bn).2) : Meets E (appendAddr din bn) m Q := by
  unfold Mk.addr at hq
  unfold appendAddr
  by_cases hd : bn < ndirect
  · rw [dif_pos hd] at hq ⊢
    exact meets_directAddr hq
  · rw [dif_neg hd] at hq ⊢
    refine Meets.bind (meets_directAddr ?_)
    refine Meets.bind (meets_wordAddr ?_ (meets_pure hq))
    have hlen := h.len
    unfold Mk.direct
    by_cases hi0 : din.addrs indirect = 0
    · have hneed := need_newIndirect m.store.data hbn hd hi0
      simp only [if_pos hi0]
      show m.freeblock < m.len
      omega
    · simp only [if_neg hi0]
      have hup := (hi hi0).2
      omega

/-- The kernel's `bmap` returns the same address and does the same to the disk. -/
theorem bmap_addr {Q : Nat × Dinode → Store → Prop}
    (hq : Q (m.addr din bn).1 (m.addr din bn).2.store) :
    Meets F (bmap layout din bn) m.store Q := by
  unfold Mk.addr at hq
  unfold bmap
  by_cases hd : bn < ndirect
  · rw [dif_pos hd] at hq ⊢
    refine inodeAddr_direct h (fun h0 => ?_) hq
    have hneed := need_direct m.store.data hd h0
    omega
  · have hl := word_index hbn hd
    rw [dif_neg hd] at hq ⊢
    rw [if_pos (show bn - ndirect < nindirect from hl)]
    by_cases hi0 : din.addrs indirect = 0
    · have hneed := need_newIndirect m.store.data hbn hd hi0
      have hlt : m.freeblock < fssize := by omega
      have hready := h.take hlt
      have hdirect : m.direct din indirect =
          ((m.freeblock, din.setAddr indirect m.freeblock), m.take) := if_pos hi0
      rw [hdirect] at hq
      refine Meets.bind (inodeAddr_direct h (fun _ => hlt) ?_)
      rw [hdirect]
      dsimp only at hq ⊢
      rw [if_neg h.ne_zero]
      refine Meets.bind (indirectAddr_word hready h.start (fun _ => ?_) (meets_pure hq))
      show m.freeblock + 1 < fssize
      omega
    · have hdirect : m.direct din indirect = ((din.addrs indirect, din), m) := if_neg hi0
      rw [hdirect] at hq
      refine Meets.bind (inodeAddr_direct h (fun h0 => absurd h0 hi0) ?_)
      rw [hdirect]
      dsimp only at hq ⊢
      rw [if_neg hi0]
      refine Meets.bind (indirectAddr_word h (hi hi0).1 (fun h0 => ?_) (meets_pure hq))
      have hneed := need_word m.store.data hbn hd hi0 (by rw [store_data (hi hi0).1]; exact h0)
      omega

end

/-! ## §3 How many blocks a file takes -/

/-- The blocks of a file of `n` bytes, with the indirect one. -/
def blocksFor (n : Nat) : Nat :=
  (n + bsize - 1) / bsize + if ndirect < (n + bsize - 1) / bsize then 1 else 0

/-- There are no blocks beyond the end. -/
structure Tight (din : Dinode) (data : Nat → Block) (size : Nat) : Prop where
  blocks : ∀ bn, bn < maxfile → din.blockAt data bn ≠ 0 → bn * bsize < size
  indirect : din.addrs indirect ≠ 0 → ndirect * bsize < size

theorem blocksFor_step {data : Nat → Block} {off n : Nat} (hc : din.Covers data off)
    (ht : Tight din data off) (hoff : off / bsize < maxfile) (hpos : 0 < n)
    (hn : n ≤ bsize - off % bsize) :
    blocksFor (off + n) = blocksFor off + need din data (off / bsize) := by
  have hdiv := Nat.div_add_mod off bsize
  have hnew : (off + n + bsize - 1) / bsize = off / bsize + 1 := by
    unfold bsize at *
    omega
  by_cases h0 : off % bsize = 0
  · have hold : (off + bsize - 1) / bsize = off / bsize := by
      unfold bsize at *
      omega
    have hblock : din.blockAt data (off / bsize) = 0 := by
      by_contra hne
      have hlt := ht.blocks _ hoff hne
      rw [Nat.mul_comm] at hlt
      omega
    have hneed : need din data (off / bsize) = if off / bsize = ndirect then 2 else 1 := by
      unfold need
      rw [if_neg (not_not.mpr hblock)]
      by_cases hd : off / bsize < ndirect
      · rw [if_pos (.inl hd), if_neg (by omega)]
      by_cases hi0 : din.addrs indirect = 0
      · -- the first block after the direct ones
        have hfirst : off / bsize = ndirect := by
          by_contra hne
          have hlt : ndirect * bsize < off := by
            unfold ndirect bsize at *
            omega
          have hpres := hc ndirect hlt
          rw [blockAt_word _ (by decide) (by omega), if_pos hi0] at hpres
          exact hpres rfl
        rw [if_neg (by simp [hd, hi0]), if_pos hfirst]
      · have hlt := ht.indirect hi0
        have hpast : off / bsize ≠ ndirect := by
          unfold ndirect bsize at *
          omega
        rw [if_pos (.inr hi0), if_neg hpast]
    unfold blocksFor
    rw [hnew, hold, hneed]
    split <;> split <;> split <;> omega
  · have hold : (off + bsize - 1) / bsize = off / bsize + 1 := by
      unfold bsize at *
      omega
    have hblock : din.blockAt data (off / bsize) ≠ 0 := by
      refine hc _ ?_
      rw [Nat.mul_comm]
      omega
    have hneed : need din data (off / bsize) = 0 := if_pos hblock
    unfold blocksFor
    rw [hnew, hold, hneed]
    exact (Nat.add_zero _).symm

theorem blocksFor_mono {a : Nat} (h : a ≤ b) : blocksFor a ≤ blocksFor b := by
  have hdiv : (a + bsize - 1) / bsize ≤ (b + bsize - 1) / bsize := Nat.div_le_div_right (by omega)
  unfold blocksFor
  split <;> split <;> omega

/-! ## §4 The loop -/

theorem Owned.used {o : Nat × Slot} (h : Owned layout ino m.store)
    (ho : owner ino m.store.data o = some b) : nmeta ≤ b ∧ b < m.freeblock := by
  have harea := h.pool.area ho
  have hmark : decide (b < m.freeblock) = true := h.pool.marked ho
  exact ⟨harea.1, of_decide_eq_true hmark⟩

/-- Inode `i`, as `din`, has the contents `c`; the other inodes are as in `D`. -/
structure Progress (i : Nat) (D : Nat → Dinode) (m : Mk) (din : Dinode) (c : List Byte) : Prop where
  ready : m.Ready
  dinodes : m.store.dinodes = D
  type : din.type ≠ .free
  owned : Owned layout (update D i din) m.store
  covers : din.Covers m.store.data c.length
  tight : Tight din m.store.data c.length
  bytes : ∀ k, k / bsize < maxfile → din.blockAt m.store.data (k / bsize) ≠ 0 →
    din.byteAt m.store.data k = c.getD k 0

variable {D : Nat → Dinode} {c part : List Byte}

theorem Progress.indirectOk (h : Progress i D m din c) : IndirectOk m din := by
  intro hi0
  have hself : update D i din i = din := update_self ..
  have ht : (update D i din i).type ≠ .free := by
    rw [hself]
    exact h.type
  have ho : owner (update D i din) m.store.data (i, .inl indirect) = _ :=
    owner_indirect ht (by rw [hself]; exact hi0)
  rw [hself] at ho
  exact Owned.used h.owned ho

/-- The state after a part of the data was written to its block. -/
def Mk.fill (m : Mk) (din : Dinode) (off : Nat) (part : List Byte) : Mk :=
  let r := m.addr din (off / bsize)
  r.2.put r.1.1 (blit (r.2.img r.1.1) (off % bsize) part)

/-- What one turn of the loop does. -/
structure Filled (i : Nat) (D : Nat → Dinode) (m m' : Mk) (din din' : Dinode) (c c' : List Byte) :
    Prop where
  progress : Progress i D m' din' c'
  touch : Touch i (update D i din) m.store (update D i din') m'.store
  same : ∃ addrs, din' = { din with addrs := addrs }
  low : ∀ b, b < nmeta → m'.img b = m.img b
  freeinode : m'.freeinode = m.freeinode
  count : m'.freeblock + blocksFor c.length = m.freeblock + blocksFor c'.length

theorem Filled.refl (h : Progress i D m din c) : Filled i D m m din din c c :=
  ⟨h, .refl, ⟨_, rfl⟩, fun _ _ => rfl, rfl, rfl⟩

theorem Filled.trans {m1 : Mk} {din1 din' : Dinode} {c1 c' : List Byte}
    (h : Filled i D m m1 din din1 c c1) (h' : Filled i D m1 m' din1 din' c1 c') :
    Filled i D m m' din din' c c' := by
  obtain ⟨addrs, rfl⟩ := h.same
  obtain ⟨addrs', rfl⟩ := h'.same
  have hcount := h.count
  have hcount' := h'.count
  exact ⟨h'.progress, h.touch.trans h'.touch, ⟨addrs', rfl⟩,
    fun b hb => (h'.low b hb).trans (h.low b hb), h'.freeinode.trans h.freeinode, by omega⟩

theorem Progress.grown (h : Progress i D m din c) (hbn : bn < maxfile)
    (hroom : m.freeblock + need din m.store.data bn ≤ fssize) :
    Owned layout (update D i (m.addr din bn).1.2) (m.addr din bn).2.store ∧
      Ext i (update D i din) m.store (update D i (m.addr din bn).1.2) (m.addr din bn).2.store ∧
      (m.addr din bn).1.2.blockAt (m.addr din bn).2.store.data bn = (m.addr din bn).1.1 := by
  have hself : update D i din i = din := update_self ..
  have ht : (update D i din i).type ≠ .free := by
    rw [hself]
    exact h.type
  have hbmap := bmap_spec (E := fun _ => False) h.owned ht hbn
  rw [hself] at hbmap
  have hsame : Total (bmap layout din bn) m.store fun r st =>
      r = (m.addr din bn).1 ∧ st = (m.addr din bn).2.store :=
    bmap_addr h.ready hbn h.indirectOk hroom ⟨rfl, rfl⟩
  obtain ⟨r, st, _, ⟨rfl, rfl⟩, ⟨howned, hext⟩, hblock, _, _⟩ := Total.elim (hsame.and hbmap)
  rw [update_idem] at howned hext
  exact ⟨howned, hext, hblock (found_addr h.ready hbn h.indirectOk hroom).nonzero⟩

theorem blockAt_of_owner {data data' : Nat → Block} (h : owner ino data' = owner ino data)
    (ht : (ino i).type ≠ .free) (bn : Nat) :
    (ino i).blockAt data' bn = (ino i).blockAt data bn := by
  have hat := congrFun h (i, slotOf bn)
  rw [owner_of_alloc ht, owner_of_alloc ht] at hat
  have hgetD := congrArg (fun o => o.getD 0) hat
  simp only [nonzero_getD] at hgetD
  exact hgetD

/-- A block was found, and a part of the data is written to it. -/
theorem Progress.write {m1 : Mk} {din1 : Dinode} {x : Nat} (h : Progress i D m din c)
    (hoff : c.length / bsize < maxfile) (hpos : 0 < part.length)
    (hpart : part.length ≤ bsize - c.length % bsize)
    (hf : Found m m1 din din1 (c.length / bsize) x)
    (howned : Owned layout (update D i din1) m1.store)
    (hext : Ext i (update D i din) m.store (update D i din1) m1.store)
    (hbx : din1.blockAt m1.store.data (c.length / bsize) = x) :
    x < m1.len ∧ Filled i D m (m1.put x (blit (m1.img x) (c.length % bsize) part)) din din1 c
      (c ++ part) := by
  have hself : update D i din i = din := update_self ..
  have hself1 : update D i din1 i = din1 := update_self ..
  have ht : (update D i din i).type ≠ .free := by
    rw [hself]
    exact h.type
  have ht1 : (update D i din1 i).type ≠ .free := by
    rw [hext.type]
    exact ht
  have hb1 : (update D i din1 i).blockAt m1.store.data (c.length / bsize) ≠ 0 := by
    rw [hself1, hbx]
    exact hf.nonzero
  obtain ⟨hlow, hup⟩ := Owned.used howned (owner_blockAt ht1 hb1)
  -- the bytes before this part is written
  have hmid : ∀ k, k / bsize < maxfile → din1.blockAt m1.store.data (k / bsize) ≠ 0 →
      din1.byteAt m1.store.data k = c.getD k 0 := by
    intro k hk hkb
    by_cases hold : din.blockAt m.store.data (k / bsize) = 0
    · have hbn : k / bsize = c.length / bsize := by
        by_contra hne
        rw [hf.only _ hk hne] at hkb
        exact hkb hold
      have hge : c.length ≤ k := by
        by_contra hlt
        refine h.covers (k / bsize) ?_ hold
        exact Nat.lt_of_le_of_lt (Nat.div_mul_le_self ..) (Nat.lt_of_not_le hlt)
      unfold Dinode.byteAt
      rw [hbn, hbx, hf.zero (hbn ▸ hold), blockByte_zeroBlock, List.getD_eq_default _ _ hge]
    · have hbyte := hext.byteAt (j := i) (k := k) ht (by rw [hself]; exact hold)
      rw [hself, hself1] at hbyte
      rw [hbyte]
      exact h.bytes k hk hold
  obtain ⟨hput, htouch⟩ := howned.put ht1 hb1 (blit (m1.img x) (c.length % bsize) part)
  have howner := howned.owner_put ht1 hb1 (blit (m1.img x) (c.length % bsize) part)
  have hbytes := fun k hk hkb => howned.byteAt_blit (k := k) ht1 hoff hb1 hpart hk hkb
  rw [hself1, hbx] at hlow hup hput htouch howner
  simp only [hself1, hbx] at hbytes
  rw [store_data hlow] at hbytes
  have hstore := store_put (m := m1) hlow (blit (m1.img x) (c.length % bsize) part)
  rw [← hstore] at hput htouch howner hbytes
  have hsame := blockAt_of_owner howner ht1
  rw [hself1] at hsame
  have hready := hf.ready
  have hlen := hready.len
  have hroom := hready.room
  have hcount := blocksFor_step h.covers h.tight hoff hpos hpart
  have hdiv := Nat.div_mul_le_self c.length bsize
  have hlength : (c ++ part).length = c.length + part.length := List.length_append
  refine ⟨by omega, ⟨hready.put hup _, ?_, ?_, hput, ?_, ⟨fun bn hbn hb => ?_, fun hi => ?_⟩,
    fun k hk hkb => ?_⟩, hext.touch.trans htouch, ?_, fun b hb => ?_, hf.freeinode, ?_⟩
  · rw [← h.dinodes]
    refine dinodes_congr fun b hb => ?_
    exact (update_of_ne (by omega) ..).trans (hf.low b hb)
  · rw [hself1] at ht1
    exact ht1
  · have hcov := (hext.touch.trans htouch).covers ht (by rw [hself]; exact h.covers)
    rw [hself1] at hcov
    rw [hlength]
    exact hcov.block (by rw [hsame, hbx]; exact hf.nonzero) hpart
  · rw [hsame] at hb
    by_cases hne : bn = c.length / bsize
    · subst hne
      omega
    · rw [hf.only bn hbn hne] at hb
      have hlt := h.tight.blocks bn hbn hb
      omega
  · rcases hf.indirect hi with hi | hle
    · have hlt := h.tight.indirect hi
      omega
    · have hmul := Nat.mul_le_mul_right bsize hle
      omega
  · rw [hsame] at hkb
    rw [hbytes k hk hkb, hmid k hk hkb]
    by_cases hlt : k < c.length
    · rw [if_neg (by omega), List.getD_append _ _ _ _ hlt]
    · rw [List.getD_append_right _ _ _ _ (by omega)]
      split
      case isTrue => rfl
      case isFalse hout =>
        rw [List.getD_eq_default _ _ (by omega), List.getD_eq_default _ _ (by omega)]
  · obtain ⟨addrs, hip⟩ := hext.same
    rw [hself, hself1] at hip
    exact ⟨addrs, hip⟩
  · exact (update_of_ne (by omega) ..).trans (hf.low b hb)
  · show m1.freeblock + _ = _
    rw [hf.count, hlength, hcount]
    omega

theorem Progress.fill (h : Progress i D m din c) (hoff : c.length / bsize < maxfile)
    (hpos : 0 < part.length) (hpart : part.length ≤ bsize - c.length % bsize)
    (hroom : m.freeblock + need din m.store.data (c.length / bsize) ≤ fssize) :
    (m.addr din (c.length / bsize)).1.1 < (m.addr din (c.length / bsize)).2.len ∧
      Filled i D m (m.fill din c.length part) din (m.addr din (c.length / bsize)).1.2 c
        (c ++ part) := by
  obtain ⟨howned, hext, hbx⟩ := h.grown hoff hroom
  exact h.write hoff hpos hpart (found_addr h.ready hoff h.indirectOk hroom) howned hext hbx

theorem appendLoop_spec (fuel : Nat) : ∀ {m : Mk} {din : Dinode} {c p : List Byte},
    Progress i D m din c → p.length ≤ fuel → c.length + p.length ≤ maxfile * bsize →
    m.freeblock + blocksFor (c.length + p.length) ≤ fssize + blocksFor c.length →
    Meets E (appendLoop fuel din c.length p) m fun r m' =>
      r.2 = c.length + p.length ∧ Filled i D m m' din r.1 c (c ++ p) := by
  induction fuel with
  | zero =>
    intro m din c p h hp _ _
    have hnil : p = [] := List.length_eq_zero_iff.mp (Nat.le_zero.mp hp)
    subst hnil
    rw [List.append_nil]
    exact meets_pure ⟨rfl, .refl h⟩
  | succ fuel ih =>
    intro m din c p h hp hmax hroom
    refine meets_ite (fun hpos => ?_) (fun hnil => ?_)
    · have hoff : c.length / bsize < maxfile := Nat.div_lt_of_lt_mul (by rw [Nat.mul_comm]; omega)
      have hmod : c.length % bsize < bsize := Nat.mod_lt _ (by decide)
      have hdiv := Nat.div_add_mod c.length bsize
      have hstart : c.length - c.length / bsize * bsize = c.length % bsize := by
        rw [Nat.mul_comm]
        omega
      have hleft : (c.length / bsize + 1) * bsize - c.length = bsize - c.length % bsize := by
        rw [Nat.add_mul, Nat.mul_comm]
        omega
      refine meets_if hoff ?_
      rw [hstart, hleft]
      generalize hn1 : min p.length (bsize - c.length % bsize) = n1
      have htake : (p.take n1).length = n1 := by
        rw [List.length_take]
        omega
      have hsum : c.length + n1 + (p.drop n1).length = c.length + p.length := by
        rw [List.length_drop]
        omega
      have hstep := blocksFor_step (n := n1) h.covers h.tight hoff (by omega) (by omega)
      have hle : blocksFor (c.length + n1) ≤ blocksFor (c.length + p.length) :=
        blocksFor_mono (by omega)
      have hneed : m.freeblock + need din m.store.data (c.length / bsize) ≤ fssize := by omega
      have hpos : 0 < (p.take n1).length := by omega
      obtain ⟨hlen, hfill⟩ := h.fill hoff hpos (by omega) hneed
      refine Meets.bind (meets_appendAddr h.ready hoff h.indirectOk hneed ?_)
      refine Meets.bind (meets_rsect hlen (Meets.bind (meets_wsect ?_)))
      have hcount := hfill.count
      have hlength : (c ++ p.take n1).length = c.length + n1 := by rw [List.length_append, htake]
      have hrest := ih (p := p.drop n1) hfill.progress (by rw [List.length_drop]; omega)
        (by rw [hlength]; omega) (by rw [hlength] at hcount ⊢; rw [hsum]; omega)
      rw [hlength] at hrest
      refine hrest.imp fun r m' ⟨hoff', hfilled⟩ => ⟨hoff'.trans hsum, ?_⟩
      rw [List.append_assoc, List.take_append_drop] at hfilled
      exact hfill.trans hfilled
    · have hnil : p = [] := List.length_eq_zero_iff.mp (by omega)
      subst hnil
      rw [List.append_nil]
      exact meets_pure ⟨rfl, .refl h⟩

/-! ## §5 Inodes -/

theorem iblock_ok (hi : i ≤ ninodes) : sb.iblock i < sb.bmapstart := by
  rw [bmapstart_eq]
  unfold Sb.iblock
  rw [inodestart_eq]
  unfold ninodes at hi
  unfold ipb
  omega

theorem dinodes_eq (hi : sb.iblock i < sb.bmapstart) :
    m.store.dinodes i = dinodeOf (m.img (sb.iblock i)) (i % ipb) := if_pos hi

theorem Mk.Ready.iblock_lt_len (h : m.Ready) (hi : i ≤ ninodes) : sb.iblock i < m.len := by
  rw [h.len]
  exact Nat.lt_of_lt_of_le (iblock_ok hi) (by decide)

theorem meets_rinode {Q : Dinode → Mk → Prop} (h : m.Ready) (hi : i ≤ ninodes)
    (hq : Q (m.store.dinodes i) m) : Meets E (rinode i) m Q := by
  rw [dinodes_eq (iblock_ok hi)] at hq
  exact Meets.bind (meets_rsect (h.iblock_lt_len hi) (meets_pure hq))

/-- An inode is written. -/
def Mk.setInode (m : Mk) (i : Nat) (ip : Dinode) : Mk :=
  m.put (sb.iblock i) (putDinode (m.img (sb.iblock i)) (i % ipb) ip)

theorem meets_winode {Q : Unit → Mk → Prop} (h : m.Ready) (hi : i ≤ ninodes)
    (hq : Q () (m.setInode i ip)) : Meets E (winode i ip) m Q :=
  Meets.bind (meets_rsect (h.iblock_lt_len hi) (meets_wsect hq))

theorem dinodes_setInode (hi : i ≤ ninodes) (hfits : Dinode.Fits ip) :
    (m.setInode i ip).store.dinodes = update m.store.dinodes i ip := by
  funext j
  have hmod : ∀ l, l % ipb < ipb := fun l => Nat.mod_lt _ (by decide)
  by_cases hj : sb.iblock j < sb.bmapstart
  · rw [dinodes_eq hj]
    by_cases hblock : sb.iblock j = sb.iblock i
    · have hdiv : j / ipb = i / ipb := by
        unfold Sb.iblock at hblock
        omega
      have himg : (m.setInode i ip).img (sb.iblock j) =
          putDinode (m.img (sb.iblock i)) (i % ipb) ip := by
        rw [hblock]
        exact update_self ..
      rw [himg, dinodeOf_putDinode _ hfits (hmod j)]
      have hji : j % ipb = i % ipb ↔ j = i := by
        unfold ipb at *
        omega
      by_cases he : j = i
      · rw [if_pos (hji.mpr he), he, update_self]
      · rw [if_neg fun hm => he (hji.mp hm), update_of_ne he, dinodes_eq hj, hblock]
    · have hne : j ≠ i := fun he => hblock (by rw [he])
      rw [update_of_ne hne, dinodes_eq hj]
      exact congrArg (dinodeOf · _) (update_of_ne hblock ..)
  · have hne : j ≠ i := fun he => hj (he ▸ iblock_ok hi)
    rw [update_of_ne hne]
    exact (if_neg hj).trans (if_neg hj).symm

theorem store_setInode (hi : i ≤ ninodes) (hfits : Dinode.Fits ip) :
    (m.setInode i ip).store = { m.store with dinodes := update m.store.dinodes i ip } := by
  have hdata : (m.setInode i ip).store.data = m.store.data := by
    funext b
    show (if nmeta ≤ b then update m.img _ _ b else zeroBlock) = if nmeta ≤ b then m.img b else _
    split
    case isFalse => rfl
    case isTrue hb =>
      have hlt := iblock_lt (iblock_ok hi)
      exact update_of_ne (by omega) ..
  show (m.setInode i ip).store = ⟨m.store.bitmap, update m.store.dinodes i ip, m.store.data⟩
  rw [← dinodes_setInode hi hfits, ← hdata]
  rfl

theorem Mk.Ready.setInode (h : m.Ready) (hi : i ≤ ninodes) :
    (m.setInode i ip).Ready :=
  h.put (Nat.lt_of_lt_of_le (iblock_lt (iblock_ok hi)) h.start) _

theorem Owned.fits (h : Owned layout ino m.store) (ht : (ino i).type ≠ .free) :
    Dinode.Fits (ino i) := by
  refine ⟨Nat.lt_of_le_of_lt (h.size i ht) (by decide), fun k => ?_⟩
  by_cases h0 : (ino i).addrs k = 0
  · rw [h0]
    decide
  · have harea :=
      h.pool.area (owner_some.mpr ⟨ht, (rfl : (ino i).ptr m.store.data (.inl k) = _), h0⟩)
    exact Nat.lt_trans harea.2 (by decide)

end Xv6.Mkfs
