/-
Xv6.Files.RoomTheorems — when a write finds no block.

`room` counts the free blocks of the disk, and `lacks` the blocks that have to be
allocated before block `bn` of an inode can be written: the block itself, and the
indirect block if it comes with it. `bmap` fails exactly if there are fewer of the
one than of the other. §1 allocation, §2 `bmap`, §3 writes to one block.
-/
import Mathlib.Data.Finset.Card
import Xv6.Files.TableTheorems

namespace Xv6.Files

open Xv6.Lib Function
open Xv6.Fs (Block)

variable {sb : Superblock} {ino : Nat → Dinode} {st : Store} {i b bn : Nat} {E : Panic → Prop}

/-! ## §1 Allocation -/

/-- The number of free blocks. -/
def Store.room (sb : Superblock) (st : Store) : Nat :=
  ((Finset.range sb.size).filter fun b => st.bitmap b = false).card

theorem room_full (h : Full sb st) : st.room sb = 0 := by
  rw [Store.room, Finset.card_eq_zero, Finset.filter_eq_empty_iff]
  intro b hb
  rw [h b (Finset.mem_range.mp hb)]
  decide

theorem room_taken {st' : Store} (hb : sb.Area b) (hfree : st.bitmap b = false)
    (hbit : st'.bitmap = update st.bitmap b true) : st.room sb = st'.room sb + 1 := by
  have hmem : b ∈ (Finset.range sb.size).filter fun b => st.bitmap b = false :=
    Finset.mem_filter.mpr ⟨Finset.mem_range.mpr hb.2, hfree⟩
  have herase : ((Finset.range sb.size).filter fun b => st'.bitmap b = false) =
      ((Finset.range sb.size).filter fun b => st.bitmap b = false).erase b := by
    ext c
    rw [Finset.mem_erase, Finset.mem_filter, Finset.mem_filter, hbit]
    by_cases e : c = b
    · subst e
      simp
    · simp [e]
  rw [Store.room, Store.room, herase, Finset.card_erase_add_one hmem]

theorem balloc_room (h : Owned sb ino st) :
    Meets E (balloc sb) st fun b st' =>
      (b = 0 ↔ st.room sb = 0) ∧
      (b ≠ 0 → st.room sb = st'.room sb + 1 ∧ st'.data b = zeroBlock) := by
  refine (balloc_spec h).imp fun b st' hb => ?_
  rcases hb with ⟨rfl, rfl, hfull⟩ | ⟨harea, hfree, rfl⟩
  · exact ⟨iff_of_true rfl (room_full hfull), fun h0 => absurd rfl h0⟩
  · have hroom : st.room sb = (st.taken b).room sb + 1 := room_taken harea hfree rfl
    exact ⟨iff_of_false harea.ne_zero (by omega), fun _ => ⟨hroom, update_self ..⟩⟩

/-! ## §2 `bmap` -/

theorem inodeAddr_room (h : Owned sb ino st) (d : Fin 13) :
    Meets E (inodeAddr sb (ino i) d) st fun r st' =>
      (r.1 = 0 ↔ (ino i).addrs d = 0 ∧ st.room sb = 0) ∧
      ((ino i).addrs d = 0 → r.1 ≠ 0 →
        st.room sb = st'.room sb + 1 ∧ st'.data r.1 = zeroBlock) := by
  refine meets_ite (fun h0 => ?_) fun h0 => ?_
  · refine (balloc_room h).seq fun b st' ⟨hb, hroom⟩ => ?_
    refine meets_ite (fun e => ?_) fun e => ?_
    · exact meets_pure ⟨iff_of_true rfl ⟨h0, hb.mp e⟩, fun _ hne => absurd rfl hne⟩
    · exact meets_pure ⟨iff_of_false e fun hr => e (hb.mpr hr.2), fun _ _ => hroom e⟩
  · exact meets_pure ⟨iff_of_false h0 fun hr => h0 hr.1, fun h0' => absurd h0' h0⟩

theorem indirectAddr_room (h : Owned sb ino st) (ind k : Nat) :
    Meets E (indirectAddr sb ind k) st fun addr _ =>
      addr = 0 ↔ (Fs.word (st.data ind) k).toNat = 0 ∧ st.room sb = 0 := by
  refine Meets.bind (meets_read (meets_pure ?_))
  refine meets_ite (fun h0 => ?_) fun h0 => ?_
  · refine (balloc_room h).seq fun b st' ⟨hb, _⟩ => ?_
    refine meets_ite (fun e => ?_) fun e => ?_
    · exact meets_pure (iff_of_true rfl ⟨h0, hb.mp e⟩)
    · exact meets_update (meets_pure (iff_of_false e fun hr => e (hb.mpr hr.2)))
  · exact meets_pure (iff_of_false h0 fun hr => h0 hr.1)

/-- The blocks that have to be allocated for block `bn`. -/
def Dinode.lacks (ip : Dinode) (data : Nat → Block) (bn : Nat) : Nat :=
  if ip.blockAt data bn ≠ 0 then 0
  else if ndirect ≤ bn ∧ ip.addrs indirect = 0 then 2 else 1

theorem lacks_present {ip : Dinode} {data : Nat → Block} (h : ip.blockAt data bn ≠ 0) :
    ip.lacks data bn = 0 := if_pos h

theorem lacks_absent {ip : Dinode} {data : Nat → Block} (h : ip.blockAt data bn = 0) :
    ip.lacks data bn = if ndirect ≤ bn ∧ ip.addrs indirect = 0 then 2 else 1 :=
  if_neg (not_not.mpr h)

theorem word_zeroBlock (k : Nat) : (Fs.word zeroBlock k).toNat = 0 := by
  unfold Fs.word
  split
  · rfl
  · rfl

/-- `bmap` fails if there is no block for what it has to allocate. -/
theorem bmap_room (h : Owned sb ino st) (ht : (ino i).type ≠ .free) (hbn : bn < maxfile) :
    Meets E (bmap sb (ino i) bn) st fun r _ =>
      r.1 = 0 ↔ st.room sb < (ino i).lacks st.data bn := by
  unfold bmap
  split
  · rename_i hd
    refine (inodeAddr_room h _).imp fun r _ ⟨hr, _⟩ => ?_
    have hat : (ino i).blockAt st.data bn = _ := blockAt_direct _ hd
    by_cases h0 : (ino i).blockAt st.data bn = 0
    · rw [lacks_absent h0, if_neg (by omega)]
      omega
    · rw [lacks_present h0]
      omega
  · rename_i hd
    rw [if_pos (show bn - ndirect < nindirect from word_index hbn hd)]
    refine ((inodeAddr_spec h ht indirect).and (inodeAddr_room h indirect)).seq ?_
    rintro ⟨ind, ip⟩ st1 ⟨⟨hgrown, hind, -, hsame⟩, hzero, hroom⟩
    dsimp only at hgrown hind hsame hzero hroom ⊢
    refine meets_ite (fun h0 => ?_) fun h0 => ?_
    · -- not even the indirect block
      obtain ⟨h1, h2⟩ := hzero.mp h0
      have hnone := (blockAt_word st.data hbn hd).trans (if_pos h1)
      rw [lacks_absent hnone, if_pos ⟨by omega, h1⟩]
      exact meets_pure (iff_of_true rfl (by omega))
    · refine (indirectAddr_room hgrown.1 ind (bn - ndirect)).seq fun addr st2 haddr => ?_
      refine meets_pure (haddr.trans ?_)
      by_cases h1 : (ino i).addrs indirect = 0
      · -- the indirect block is new, so one more block is needed
        have hnone := (blockAt_word st.data hbn hd).trans (if_pos h1)
        obtain ⟨hless, hnew⟩ := hroom h1 h0
        rw [lacks_absent hnone, if_pos ⟨by omega, h1⟩, hnew, word_zeroBlock]
        omega
      · obtain ⟨rfl, rfl⟩ := hsame h1
        have hat := (blockAt_word st1.data hbn hd).trans (if_neg h1)
        rw [← hind] at hat
        by_cases h2 : (ino i).blockAt st1.data bn = 0
        · rw [lacks_absent h2, if_neg fun hc => h1 hc.2]
          omega
        · rw [lacks_present h2]
          omega

/-! ## §3 Writes to one block -/

/-- A write to one block of what the kernel has in memory is done, unless it is refused or
there is no block for it. -/
theorem writei_room (h : Owned sb ino st) (ht : (ino i).type ≠ .free) {bytes : List Byte}
    {off n : Nat} (hlen : bytes.length = n) (hpos : 0 < n) (hone : off % bsize + n ≤ bsize) :
    Meets E (writei sb i (ino i) (.kernel bytes) off n) st fun r _ =>
      r.1 = n ↔ ¬ (ino i).refuses off n ∧ (ino i).lacks st.data (off / bsize) ≤ st.room sb := by
  refine meets_ite (fun h1 => meets_pure (iff_of_false (by omega) fun hr => hr.1 ?_)) fun h1 => ?_
  · rcases h1 with h1 | h1
    · exact .inl h1
    · exact .inr (.inl h1)
  refine meets_ite (fun h2 => meets_pure (iff_of_false (by omega) fun hr => ?_)) fun h2 => ?_
  · exact hr.1 (.inr (.inr h2))
  have hbn : off / bsize < maxfile := Nat.div_lt_of_lt_mul (by rw [Nat.mul_comm]; omega)
  have hok : ¬ (ino i).refuses off n := by
    unfold Dinode.refuses
    omega
  obtain ⟨fuel, rfl⟩ : ∃ fuel, n = fuel + 1 := ⟨n - 1, by omega⟩
  -- the loop writes everything in its first round, or nothing
  have hloop : Meets E (writeLoop sb (fuel + 1) (ino i) (.kernel bytes) off (fuel + 1) 0) st
      fun r _ => r.1 = fuel + 1 ↔ (ino i).lacks st.data (off / bsize) ≤ st.room sb := by
    refine (bmap_room h ht hbn).seq ?_
    rintro ⟨addr, ip⟩ st1 haddr
    refine meets_ite (fun h0 => ?_) fun h0 => ?_
    · exact meets_pure (iff_of_false (by omega) (by omega))
    · have hmin : min (fuel + 1 - 0) (bsize - off % bsize) = fuel + 1 := by omega
      rw [hmin]
      refine (copyinBlock_spec addr _ (.kernel bytes) 0 (fuel + 1)).seq ?_
      rintro ok st2 ⟨hcopied, -⟩
      have hall : ok = true := by
        rw [hcopied, Nat.zero_add]
        exact Nat.le_of_eq hlen.symm
      rw [if_pos hall, Nat.zero_add]
      have hdone : (ino i).lacks st.data (off / bsize) ≤ st.room sb :=
        Nat.le_of_not_lt fun hlt => h0 (haddr.mpr hlt)
      cases fuel with
      | zero => exact meets_pure (iff_of_true rfl hdone)
      | succ fuel =>
        unfold writeLoop
        rw [if_neg (Nat.lt_irrefl _)]
        exact meets_pure (iff_of_true rfl hdone)
  refine hloop.seq ?_
  rintro ⟨tot, off', ip⟩ st1 htot
  dsimp only at htot ⊢
  refine meets_update (meets_pure ?_)
  rw [← htot]
  constructor
  · intro hr
    exact ⟨hok, by omega⟩
  · rintro ⟨-, hr⟩
    rw [hr]

variable {g : Prop} {c : Cnt} {s : Fs} {e : Fin ninode}

theorem writeInode_room (h : Table sb g c s) (he : 0 < c e) (hv : (s.itable e).valid = true)
    {bytes : List Byte} {off n : Nat} (hlen : bytes.length = n) (hpos : 0 < n)
    (hone : off % bsize + n ≤ bsize) :
    Meets E (writeInode sb e (.kernel bytes) off n) s fun r _ =>
      r = n ↔ ¬ (s.store.dinodes (s.itable e).inum).refuses off n ∧
        (s.store.dinodes (s.itable e).inum).lacks s.store.data (off / bsize) ≤ s.store.room sb := by
  obtain ⟨hcopy, ht⟩ := h.sync e he hv
  refine Meets.bind (meets_getInode ?_)
  rw [hcopy]
  refine meets_focus_seq (writei_room h.owned ht hlen hpos hone) ?_
  rintro ⟨r, ip⟩ st hr
  exact Meets.bind (meets_modifyInode (meets_pure hr))

end Xv6.Files
