/-
Xv6.Files.CutShort — a write that is cut short by a bad pointer.

`either_copyin` fills the buffer of a block in place. If it fails, `writei` gives
the buffer back without `log_write`, and what was copied stays in the cache until
the buffer is recycled. So a reader sees the new bytes of that block or the old
ones, according to whether the buffer has been kept.

§1 what readers see after a transaction, §2 the loop of `writei` up to the failed
copy, §3 contents.
-/
import Xv6.Files.Budget
import Xv6.Files.Safety

namespace Xv6.Files.Budget

open Xv6.Lib Function
open Xv6.Vm (nproc)
open Xv6.Fs (Block)

/-! ## §1 Buffers -/

/-- The buffers of `bio.c`, as far as readers are concerned. -/
structure Cache where
  disk : Nat → Block
  buf : Nat → Option Block

/-- `bread`: the buffer, if there is one. -/
def Cache.bread (c : Cache) (b : Nat) : Block := (c.buf b).getD (c.disk b)

/-- `bget` uses the buffer of block `b` for another one. -/
def Cache.recycle (c : Cache) (b : Nat) : Cache := { c with buf := update c.buf b none }

/-- A transaction has changed the buffers, and `commit` has written those that were
logged. -/
def committed (st : Store) (s : Marked Store) : Cache where
  disk b := if b ∈ s.notes.blocks then s.state.data b else st.data b
  buf b := some (s.state.data b)

/-- What readers see after the transaction, when the buffers of `bs` have been used for
other blocks. -/
def seen (st : Store) (s : Marked Store) (bs : List Nat) : Store :=
  { s.state with data := (bs.foldl Cache.recycle (committed st s)).bread }

/-- Every `readi` of inode `i` reads this file. -/
def Shows (sb : Superblock) (st : Store) (i : Nat) (file : List Byte) : Prop :=
  (st.dinodes i).size = file.length ∧
    ∀ off n : BitVec 32, Total (fileOp sb (.read i off n)) st fun r _ =>
      r = some ((((file.take (off + n).toNat).drop off.toNat).length : Int),
        (file.take (off + n).toNat).drop off.toNat)

variable {sb : Superblock} {st : Store} {s s' : Marked Store} {b i bn : Nat} {bs : List Nat}
  {s1 : Marked Store} {r : Nat × Nat × Dinode}

theorem recycle_bread {c : Cache} :
    (bs.foldl Cache.recycle c).bread b = if b ∈ bs then c.disk b else c.bread b := by
  induction bs generalizing c with
  | nil => rfl
  | cons a bs ih =>
    rw [List.foldl_cons, ih]
    by_cases hb : b ∈ bs
    · rw [if_pos hb, if_pos (List.mem_cons_of_mem a hb)]
      rfl
    · rw [if_neg hb]
      by_cases e : b = a
      · subst e
        simp [Cache.bread, Cache.recycle]
      · rw [if_neg (by simp [hb, e])]
        simp [Cache.bread, Cache.recycle, e]

theorem seen_data :
    (seen st s bs).data b = if b ∈ bs ∧ b ∉ s.notes.blocks then st.data b else s.state.data b := by
  unfold seen
  dsimp only
  rw [recycle_bread]
  by_cases hb : b ∈ bs
  · by_cases hl : b ∈ s.notes.blocks
    · simp [hb, hl, committed]
    · simp [hb, hl, committed]
  · simp [hb, committed, Cache.bread]

/-! ## §2 The loop of `writei` -/

variable {ino : Nat → Dinode} {src : Src} {off n tot : Nat} {st1 : Store}

/-- The copy of the next bytes has failed: what could be read of them is in the
block. -/
structure Cut (src : Src) (n : Nat) (r : Nat × Nat × Dinode) (st1 st' : Store) : Prop where
  lt : r.1 < n
  bad : src.good < r.1 + min (n - r.1) (bsize - r.2.1 % bsize)
  range : r.2.1 / bsize < maxfile
  block : r.2.2.blockAt st1.data (r.2.1 / bsize) ≠ 0
  state : st' = st1.put (r.2.2.blockAt st1.data (r.2.1 / bsize))
    (blit (st1.data (r.2.2.blockAt st1.data (r.2.1 / bsize))) (r.2.1 % bsize)
      ((src.bytes.drop r.1).take (src.good - r.1)))

/-- The loop has come to its end. `st1` is what the complete copies have left, all of it
logged; a copy that failed comes on top. -/
structure Stopped (sb : Superblock) (i : Nat) (ino : Nat → Dinode) (s : Marked Store) (src : Src)
    (off n tot : Nat) (r : Nat × Nat × Dinode) (s' : Marked Store) (st1 : Store) : Prop where
  goes : Goes s s'
  written : Written sb i ino s.state src off r.1 tot r st1
  good : r.1 ≤ src.good
  le : r.1 ≤ n
  /-- A copy that is complete fills its block. -/
  aligned : r.1 = tot ∨ r.2.1 % bsize = 0 ∨ r.1 = n
  logs : ∀ b, b ∉ s'.notes.blocks → st1.data b = s.state.data b
  ends : s'.state = st1 ∧ (r.1 = n ∨ (ino i).blockAt s.state.data (r.2.1 / bsize) = 0) ∨
    Cut src n r st1 s'.state

theorem Stopped.refl (h : Owned sb ino s.state) (hgood : tot ≤ src.good)
    (hcov : (ino i).Covers s.state.data off) (hle : tot ≤ n)
    (hend : tot = n ∨ (ino i).blockAt s.state.data (off / bsize) = 0) :
    Stopped sb i ino s src off n tot (tot, off, ino i) s s.state :=
  ⟨.refl, .refl h src (Nat.le_refl _) hcov fun _ => .inl rfl, hgood, hle, .inl rfl,
    fun _ _ => rfl, .inl ⟨rfl, hend⟩⟩

/-- `bmap` has found or made the block, and the rest of the loop follows. -/
theorem Stopped.grown {ip : Dinode} (ht : (ino i).type ≠ .free)
    (hg : Grown sb i ino s.state ip s1.state) (hlogs : Logs s s1)
    (h : Stopped sb i (update ino i ip) s1 src off n tot r s' st1) :
    Stopped sb i ino s src off n tot r s' st1 := by
  refine ⟨hlogs.toGoes.trans h.goes, .grown hg ht h.written, h.good, h.le, h.aligned,
    fun b hb => ?_, ?_⟩
  · exact (h.logs b hb).trans (hlogs.data b fun h1 => hb (h.goes.sub h1))
  · rcases h.ends with ⟨hs, hend⟩ | hcut
    · refine .inl ⟨hs, hend.imp_right fun h0 => ?_⟩
      by_contra hne
      rw [hg.2.touch.blockAt ht hne] at h0
      exact hne h0
    · exact .inr hcut

/-- One complete copy, and the rest of the loop. -/
theorem Stopped.block {m : Nat} (h : Owned sb ino s.state) (ht : (ino i).type ≠ .free)
    (hoff : off / bsize < maxfile) (hb : (ino i).blockAt s.state.data (off / bsize) ≠ 0)
    (hm : m = min (n - tot) (bsize - off % bsize)) (hgood : tot + m ≤ src.good)
    (hr : Stopped sb i ino ⟨s.state.put ((ino i).blockAt s.state.data (off / bsize))
      (blit (s.state.data ((ino i).blockAt s.state.data (off / bsize))) (off % bsize)
        ((src.bytes.drop tot).take (min m (src.good - tot)))),
      note s.notes.blocks ((ino i).blockAt s.state.data (off / bsize)), s.notes.done⟩
      src (off + m) n (tot + m) r s' st1) :
    Stopped sb i ino s src off n tot r s' st1 := by
  have hge := hr.written.ge
  have hle := hr.le
  refine ⟨Goes.note.trans hr.goes, ?_, hr.good, hr.le, ?_, fun b hb' => ?_, ?_⟩
  · exact .block h ht hoff hb (by omega) (by omega) hgood hr.written
  · rcases hr.aligned with e | halign
    · -- this was the last complete copy
      have hcame := hr.written.came
      unfold bsize at *
      omega
    · exact .inr halign
  · have hne : b ≠ (ino i).blockAt s.state.data (off / bsize) := by
      rintro rfl
      exact hb' (hr.goes.sub (mem_note.mpr (.inr rfl)))
    rw [hr.logs b hb']
    exact update_of_ne hne ..
  · rcases hr.ends with ⟨hs, hend⟩ | hcut
    · refine .inl ⟨hs, hend.imp_right fun h0 => ?_⟩
      by_contra hne
      have hput := (h.put ht hb (blit (s.state.data ((ino i).blockAt s.state.data (off / bsize)))
        (off % bsize) ((src.bytes.drop tot).take (min m (src.good - tot))))).2
      exact hne ((hput.blockAt ht hne).symm.trans h0)
    · exact .inr hcut

theorem writeLoop_stops (src : Src) (n fuel : Nat) : ∀ (off tot : Nat) {ino : Nat → Dinode}
    {s : Marked Store}, Owned sb ino s.state → (ino i).type ≠ .free → tot ≤ n → n ≤ tot + fuel →
    off + (n - tot) ≤ maxfile * bsize → (ino i).Covers s.state.data off → tot ≤ src.good →
    Total (writeLoop sb fuel (ino i) src off n tot) s fun r s' =>
      ∃ st1, Stopped sb i ino s src off n tot r s' st1 := by
  induction fuel with
  | zero =>
    intro off tot ino s h _ htot hfuel _ hcov hgood
    exact meets_pure ⟨s.state, .refl h hgood hcov htot (.inl (by omega))⟩
  | succ fuel ih =>
    intro off tot ino s h ht htot hfuel hsize hcov hgood
    refine meets_ite (fun hlt => ?_) fun hge =>
      meets_pure ⟨s.state, .refl h hgood hcov htot (.inl (by omega))⟩
    have hbn : off / bsize < maxfile := Nat.div_lt_of_lt_mul (by rw [Nat.mul_comm]; omega)
    refine (((logger.bmap_erases sb (ino i) _).meets (bmap_spec h ht hbn)).and
      (bmap_notes hbn)).seq ?_
    rintro ⟨addr, ip⟩ s1 ⟨⟨hgrown, haddr, -, hthere⟩, hlogs, -⟩
    have hself : update ino i ip i = ip := update_self ..
    have ht1 : (update ino i ip i).type ≠ .free := by rwa [hgrown.2.type]
    have hcov1 := hgrown.2.touch.covers ht hcov
    have hstop : Written sb i ino s.state src off tot tot (tot, off, ip) s1.state := by
      refine .grown hgrown ht ?_
      nth_rewrite 2 [← hself]
      exact .refl hgrown.1 src (Nat.le_refl _) hcov1 fun _ => .inl rfl
    refine meets_ite (fun h0 => ?_) fun h0 => ?_
    · -- the disk is full, so the block was not there before
      have hnone : (ino i).blockAt s.state.data (off / bsize) = 0 := by
        by_contra hne
        have e := (hthere hne).1
        rw [h0] at e
        exact hne (congrArg Prod.fst e).symm
      exact meets_pure ⟨s1.state, hlogs.toGoes, hstop, hgood, htot, .inl rfl, hlogs.data,
        .inl ⟨rfl, .inr hnone⟩⟩
    · have hat : (update ino i ip i).blockAt s1.state.data (off / bsize) = addr := by
        rw [hself]
        exact haddr h0
      have hb : (update ino i ip i).blockAt s1.state.data (off / bsize) ≠ 0 := by rwa [hat]
      refine Meets.bind (meets_plain ((copyinBlock_spec _ _ src tot _).imp ?_))
      rintro ok st2 ⟨hok, hst2⟩
      have hput := hgrown.1.put ht1 hb (blit (s1.state.data addr) (off % bsize)
        ((src.bytes.drop tot).take (min (min (n - tot) (bsize - off % bsize)) (src.good - tot))))
      rw [hat, ← hst2] at hput
      refine meets_ite (fun hcopied => ?_) fun hfail => ?_
      · refine Meets.bind (meets_logWrite ?_)
        have hrest := ih (off + min (n - tot) (bsize - off % bsize))
          (tot + min (n - tot) (bsize - off % bsize))
          (s := ⟨st2, note s1.notes.blocks addr, s1.notes.done⟩) hput.1 ht1 (by omega)
          (by
            have : 0 < bsize - off % bsize := Nat.sub_pos_of_lt (Nat.mod_lt _ (by decide))
            omega) (by omega)
          ((hput.2.covers ht1 hcov1).block (by rwa [hput.2.blockAt ht1 hb])
            (Nat.min_le_right _ _)) (hok.mp hcopied)
        rw [hself] at hrest
        refine hrest.imp ?_
        rintro r s' ⟨st1, hr⟩
        refine ⟨st1, .grown ht hgrown hlogs (.block hgrown.1 ht1 hbn hb rfl (hok.mp hcopied) ?_)⟩
        rw [hat, ← hst2]
        exact hr
      · -- the copy stopped inside the block, which has not been logged
        have hbad : src.good < tot + min (n - tot) (bsize - off % bsize) :=
          Nat.lt_of_not_le fun hle => hfail (hok.mpr hle)
        refine meets_pure ⟨s1.state, ?_⟩
        rw [hself] at hb hat
        refine ⟨⟨hlogs.done, hlogs.sub, hlogs.nodup⟩, hstop, hgood, htot, .inl rfl, hlogs.data,
          .inr ⟨by omega, hbad, hbn, hb, ?_⟩⟩
        have hmin : min (min (n - tot) (bsize - off % bsize)) (src.good - tot) = src.good -
          tot := by
          omega
        rw [hmin] at hst2
        rw [hat]
        exact hst2

/-! ## §3 Contents -/

variable {ip : Dinode} {file : List Byte}

theorem writei_stops (h : Owned sb ino s.state) (ht : (ino i).type ≠ .free) (src : Src)
    (off n : Nat) :
    Total (writei sb i (ino i) src off n) s fun r s' =>
      r.1 = -1 ∨ ∃ q s1 st1, Stopped sb i ino s src off n 0 q s1 st1 ∧ r.1 = q.1 ∧
        Wrote sb i ino s.state src off q.1 q.1 r.2 (st1.setDinode i r.2) ∧
        r.2.addrs = q.2.2.addrs ∧ off ≤ (ino i).size ∧
        s'.state = s1.state.setDinode i r.2 ∧ s1.notes.blocks ⊆ s'.notes.blocks := by
  refine meets_ite (fun _ => meets_pure (.inl rfl)) fun h1 => ?_
  refine meets_ite (fun _ => meets_pure (.inl rfl)) fun h2 => ?_
  have hoff : off ≤ (ino i).size := by omega
  have hcov : (ino i).Covers s.state.data off := fun bn hlt => h.full i bn ht (by omega)
  refine (writeLoop_stops src n n off 0 h ht (by omega) (by omega) (by omega) hcov
    (Nat.zero_le _)).seq ?_
  rintro q s1 ⟨st1, hq⟩
  have hmax : off + q.1 ≤ maxfile * bsize := by
    have := hq.le
    omega
  have hwrote := hq.written.wrote h ht hoff hmax rfl
  refine Meets.bind (Meets.bind (meets_plain (meets_modify (meets_logWrite (meets_pure
    (.inr ⟨q, s1, st1, hq, rfl, hwrote, ?_, hoff, rfl, subset_note⟩))))))
  split
  · rfl
  · rfl

theorem shows_contents (h : Owned sb st.dinodes st) (ht : (st.dinodes i).type ≠ .free) :
    Shows sb st i ((st.dinodes i).contents st.data) := by
  refine ⟨((st.dinodes i).contents_length st.data).symm, fun off n => ?_⟩
  refine (readOp_spec h i off n).imp ?_
  rintro r st' ⟨-, hr⟩
  have hfile : (st.contents sb).files i = _ := Store.file_alloc ht
  generalize st'.contents sb = c' at hr
  cases hr with
  | free hf => exact absurd (hf.symm.trans hfile) (by simp)
  | @read _ _ _ file bytes hf hbytes =>
    have e : file = (st.dinodes i).contents st.data := Option.some.inj (hf.symm.trans hfile)
    rw [hbytes, e]

theorem shows_iff (h : Owned sb st.dinodes st) (ht : (st.dinodes i).type ≠ .free) :
    Shows sb st i file ↔ (st.dinodes i).contents st.data = file := by
  refine ⟨fun hs => ?_, fun e => e ▸ shows_contents h ht⟩
  have hlen := (st.dinodes i).contents_length st.data
  have hsize := h.size i ht
  have hlt : file.length < 2 ^ 32 := by
    rw [← hs.1]
    exact Nat.lt_of_le_of_lt hsize (by decide)
  -- one read of the whole file decides
  have hboth := (hs.2 0 (BitVec.ofNat 32 file.length)).and
    ((shows_contents h ht).2 0 (BitVec.ofNat 32 file.length))
  obtain ⟨r, st', -, h1, h2⟩ := Total.elim hboth
  have hto : ((0 : BitVec 32) + BitVec.ofNat 32 file.length).toNat = file.length := by
    simpa using hlt
  rw [hto] at h1 h2
  have e := (Prod.mk.inj (Option.some.inj (h2.symm.trans h1))).2
  simpa [List.take_of_length_le, hlen, hs.1] using e

/-- Readers see what the complete copies have left, or that and the copy that failed. -/
theorem Stopped.seen_or {q : Nat × Nat × Dinode} (h : Stopped sb i ino s src off n 0 q s1 st1)
    (hs : s'.state = s1.state.setDinode i ip) (hsub : s1.notes.blocks ⊆ s'.notes.blocks) :
    seen s.state s' bs = st1.setDinode i ip ∨ seen s.state s' bs = s'.state := by
  have hlogs : ∀ b, b ∉ s'.notes.blocks → s.state.data b = st1.data b := fun b hb =>
    (h.logs b fun h1 => hb (hsub h1)).symm
  rcases h.ends with ⟨e, -⟩ | hcut
  · right
    have hdata : (seen s.state s' bs).data = s'.state.data := by
      funext b
      rw [seen_data]
      split
      · rename_i hb
        rw [hlogs b hb.2, hs, e]
        rfl
      · rfl
    exact congrArg (fun d => { s'.state with data := d }) hdata
  · -- only the block of the failed copy can differ
    have hother : ∀ b, b ≠ q.2.2.blockAt st1.data (q.2.1 / bsize) →
        s'.state.data b = st1.data b := by
      intro b hb
      rw [hs, hcut.state]
      exact update_of_ne hb ..
    by_cases hc : q.2.2.blockAt st1.data (q.2.1 / bsize) ∈ bs ∧
        q.2.2.blockAt st1.data (q.2.1 / bsize) ∉ s'.notes.blocks
    · left
      have hdata : (seen s.state s' bs).data = st1.data := by
        funext b
        rw [seen_data]
        split
        · rename_i hb
          exact hlogs b hb.2
        · rename_i hb
          exact hother b fun e => hb (e ▸ hc)
      have hrest : seen s.state s' bs =
          { s1.state.setDinode i ip with data := (seen s.state s' bs).data } := by
        rw [← hs]
        rfl
      rw [hrest, hdata, hcut.state]
      rfl
    · right
      have hdata : (seen s.state s' bs).data = s'.state.data := by
        funext b
        rw [seen_data]
        split
        · rename_i hb
          rw [hlogs b hb.2, hother b fun e => hc (e ▸ hb)]
        · rfl
      exact congrArg (fun d => { s'.state with data := d }) hdata

theorem Dinode.blockAt_addrs {ip' : Dinode} (h : ip.addrs = ip'.addrs) (data : Nat → Block) :
    ip.blockAt data bn = ip'.blockAt data bn := by
  unfold Dinode.blockAt Dinode.ptr
  rw [h]

theorem Wrote.type {t : Nat} {st' : Store} (h : Wrote sb i ino st src off n t ip st') :
    ip.type = (ino i).type := by
  obtain ⟨addrs, e⟩ := h.same
  rw [e]

theorem Wrote.size {t : Nat} {st' : Store} (h : Wrote sb i ino st src off n t ip st') :
    ip.size = max (ino i).size (off + t) := by
  obtain ⟨addrs, e⟩ := h.same
  rw [e]

variable {q : Nat × Nat × Dinode} {st' : Store}

/-- The failed copy has left its bytes in the block. -/
theorem Cut.byteAt (hc : Cut src n q st1 st')
    (hw : Wrote sb i ino st src off q.1 q.1 ip (st1.setDinode i ip))
    (ht : (ino i).type ≠ .free) (hcame : q.2.1 = off + q.1) (hgood : q.1 ≤ src.good)
    (haddrs : ip.addrs = q.2.2.addrs) {k : Nat} (hk : k < ip.size) :
    ip.byteAt st'.data k =
      if off + q.1 ≤ k ∧ k < off + src.good then src.bytes.getD (k - off) 0
      else ip.byteAt st1.data k := by
  have hself : update ino i ip i = ip := update_self ..
  have ht' : (update ino i ip i).type ≠ .free := by rwa [hself, Wrote.type hw]
  have hblock : ∀ bn, (update ino i ip i).blockAt st1.data bn = q.2.2.blockAt st1.data bn := by
    intro bn
    rw [hself]
    exact Dinode.blockAt_addrs haddrs _
  have hks : k < (update ino i ip i).size := by rwa [hself]
  have hfits := src.fits
  have hlen : ((src.bytes.drop q.1).take (src.good - q.1)).length = src.good - q.1 := by
    rw [List.length_take, List.length_drop]
    omega
  have hbad := hc.bad
  have hb : (update ino i ip i).blockAt (st1.setDinode i ip).data (q.2.1 / bsize) ≠ 0 := by
    rw [show (st1.setDinode i ip).data = st1.data from rfl, hblock]
    exact hc.block
  have hroom : ((src.bytes.drop q.1).take (src.good - q.1)).length ≤ bsize - q.2.1 % bsize := by
    omega
  have hbyte := hw.owned.byteAt_blit ht' hc.range hb hroom (hw.owned.block_lt ht' hks)
    (hw.owned.blockAt_ne_zero ht' hks)
  rw [show (st1.setDinode i ip).data = st1.data from rfl, hblock, hself, hlen] at hbyte
  have hput : st'.data = ((st1.setDinode i ip).put (q.2.2.blockAt st1.data (q.2.1 / bsize))
      (blit (st1.data (q.2.2.blockAt st1.data (q.2.1 / bsize))) (q.2.1 % bsize)
        ((src.bytes.drop q.1).take (src.good - q.1)))).data := by
    rw [hc.state]
    rfl
  rw [hput, hbyte, hcame]
  by_cases hin : off + q.1 ≤ k ∧ k < off + src.good
  · rw [if_pos hin, if_pos (by omega), List.getD_eq_getElem?_getD, List.getD_eq_getElem?_getD,
      List.getElem?_take_of_lt (by omega), List.getElem?_drop]
    congr 2
    omega
  · rw [if_neg hin, if_neg (by omega)]

/-- The block is one of the inode's, so all blocks are still owned. -/
theorem Cut.owned (hc : Cut src n q st1 st')
    (hw : Wrote sb i ino st src off q.1 q.1 ip (st1.setDinode i ip))
    (ht : (ino i).type ≠ .free) (haddrs : ip.addrs = q.2.2.addrs) :
    Owned sb (update ino i ip) (st'.setDinode i ip) := by
  have hself : update ino i ip i = ip := update_self ..
  have hblock : (update ino i ip i).blockAt (st1.setDinode i ip).data (q.2.1 / bsize) =
      q.2.2.blockAt st1.data (q.2.1 / bsize) := by
    rw [hself]
    exact Dinode.blockAt_addrs haddrs _
  have hput := (hw.owned.put (by rwa [hself, Wrote.type hw]) (by rw [hblock]; exact hc.block)
    (blit (st1.data (q.2.2.blockAt st1.data (q.2.1 / bsize))) (q.2.1 % bsize)
      ((src.bytes.drop q.1).take (src.good - q.1)))).1
  rw [hblock] at hput
  rw [hc.state]
  exact hput

theorem Dinode.contents_eq_iff (data data' : Nat → Block) :
    ip.contents data' = ip.contents data ↔ ∀ k, k < ip.size → ip.byteAt data' k = ip.byteAt data
      k := by
  unfold Dinode.contents Dinode.bytes
  simp

/-- The loop has come at most to the block in which the source ends. -/
theorem Stopped.start_le (h : Stopped sb i ino s src off n 0 q s1 st1) (hlt : src.good < n)
    {j : Nat} (hj : (off + src.good) / bsize * bsize ≤ off + j) : q.1 ≤ j := by
  have hcame := h.written.came
  have hgood := h.good
  unfold bsize at hj
  rcases h.aligned with e | halign | e
  · omega
  · unfold bsize at halign
    omega
  · omega

/-- A failed copy is one into that block. -/
theorem Cut.start_ge (hc : Cut src n q st1 st') (hcame : q.2.1 = off + q.1) {j : Nat}
    (hj : q.1 ≤ j) : src.good < n ∧ (off + src.good) / bsize * bsize ≤ off + j := by
  have hbad := hc.bad
  have hlt := hc.lt
  unfold bsize at hbad ⊢
  omega

/-- Readers of the buffer see what was reported exactly when the bytes that the failed
copy has left were there before. -/
theorem Cut.contents_iff (hc : Cut src n q st1 st')
    (hw : Wrote sb i ino st src off q.1 q.1 ip (st1.setDinode i ip))
    (ht : (ino i).type ≠ .free) (hcame : q.2.1 = off + q.1) (hgood : q.1 ≤ src.good)
    (haddrs : ip.addrs = q.2.2.addrs) :
    ip.contents st'.data = ip.contents st1.data ↔
      ∀ j, q.1 ≤ j → j < src.good → off + j < (ino i).size →
        src.bytes.getD j 0 = (ino i).byteAt st.data (off + j) := by
  have hsize := Wrote.size hw
  have hbad := hc.bad
  have hold : ∀ k, off + q.1 ≤ k → k < ip.size →
      ip.byteAt st1.data k = (ino i).byteAt st.data k := by
    intro k hk hlt
    have := hw.bytes hgood k hlt
    rwa [if_neg (by omega)] at this
  rw [Dinode.contents_eq_iff]
  refine ⟨fun h j hj hjg hlt => ?_, fun h k hk => ?_⟩
  · have hjs : off + j < ip.size := by omega
    have := h (off + j) hjs
    rw [hc.byteAt hw ht hcame hgood haddrs hjs, if_pos (by omega), Nat.add_sub_cancel_left] at this
    rw [this, hold _ (by omega) hjs]
  · rw [hc.byteAt hw ht hcame hgood haddrs hk]
    split
    · rename_i hin
      have := h (k - off) (by omega) (by omega) (by omega)
      rw [this, hold k hin.1 hk, Nat.add_sub_cancel' (by omega)]
    · rfl

/-- Whatever buffers are recycled, readers see what `writei` reports, exactly when the
source can be read to the end, or what can be read of it in the block where it ends is
what the file has there. -/
theorem write_shows_iff_rest_equal (img : Image sb)
    (i : { i // (img.store.dinodes i).type ≠ .free }) (src : Src) (off n : Nat) :
    Total (writei sb i (img.store.dinodes i) src off n) ⟨img.store, [], []⟩ fun r s' =>
      ∀ t : Nat, r.1 = t →
        ((∀ bs, Shows sb (seen img.store s' bs) i
          (overwrite ((img.store.dinodes i).contents img.store.data) off (src.bytes.take t))) ↔
        (src.good < n → ∀ j, (off + src.good) / bsize * bsize ≤ off + j → j < src.good →
          off + j < (img.store.dinodes i).size →
          src.bytes.getD j 0 = (img.store.dinodes i).byteAt img.store.data (off + j))) := by
  obtain ⟨i, ht⟩ := i
  refine (writei_stops (s := ⟨img.store, [], []⟩) img.owned ht src off n).imp ?_
  rintro ⟨r, ip⟩ s' (hneg | ⟨q, s1, st1, hstop, hr, hw, haddrs, hoff, hs, hsub⟩) t e
  · omega
  have hq : q.1 = t := by omega
  have hcame : q.2.1 = off + q.1 := hstop.written.came
  have htype : ip.type ≠ .free := by rwa [Wrote.type hw]
  have hself : update img.store.dinodes i ip i = ip := update_self ..
  have hwhole := hw.contents hstop.good hoff
  -- what the complete copies have left is what is reported
  have hone : Shows sb (st1.setDinode i ip) i
      (overwrite ((img.store.dinodes i).contents img.store.data) off (src.bytes.take t)) := by
    have hdin := hw.dinodes
    rw [shows_iff (by rw [hdin]; exact hw.owned) (by rw [hdin, hself]; exact htype), hdin, hself,
      hwhole, hq]
  rcases hstop.ends with ⟨e1, hend⟩ | hcut
  · have hsame : s'.state = st1.setDinode i ip := by rw [hs, e1]
    refine iff_of_true (fun bs => ?_) fun hshort j hj _ hlt => ?_
    · rcases hstop.seen_or hs hsub with h | h
      · rw [h]
        exact hone
      · rw [h, hsame]
        exact hone
    · -- all was written, or the next block is beyond the file
      dsimp only at hlt
      have hle := hstop.start_le hshort hj
      have hgood := hstop.good
      rcases hend with hall | hnone
      · omega
      · refine absurd hnone (img.owned.blockAt_ne_zero ht ?_)
        omega
  · have hdin : s'.state.dinodes = update img.store.dinodes i ip := by
      rw [hs, hcut.state]
      exact hw.dinodes
    have hown := hcut.owned hw ht haddrs
    rw [← hs] at hown
    have hcached : Shows sb s'.state i
        (overwrite ((img.store.dinodes i).contents img.store.data) off (src.bytes.take t)) ↔
        ip.contents s1.state.data = ip.contents st1.data := by
      have hdata : s'.state.data = s1.state.data := by rw [hs]; rfl
      rw [shows_iff (by rw [hdin]; exact hown) (by rw [hdin, hself]; exact htype), hdin, hself,
        hdata, ← hq, ← hwhole]
      rfl
    have hcond : ip.contents s1.state.data = ip.contents st1.data ↔ (src.good < n →
        ∀ j, (off + src.good) / bsize * bsize ≤ off + j → j < src.good →
          off + j < (img.store.dinodes i).size →
          src.bytes.getD j 0 = (img.store.dinodes i).byteAt img.store.data (off + j)) := by
      rw [hcut.contents_iff hw ht hcame hstop.good haddrs]
      refine ⟨fun h hshort j hj => h j (hstop.start_le hshort hj), fun h j hj => ?_⟩
      obtain ⟨hshort, hstart⟩ := hcut.start_ge hcame hj
      exact h hshort j hstart
    rw [← hcond, ← hcached]
    refine ⟨fun h => ?_, fun h bs => ?_⟩
    · have hnil : seen img.store s' [] = s'.state := by
        have : (seen img.store s' []).data = s'.state.data := by
          funext b
          rw [seen_data]
          simp
        exact congrArg (fun d => { s'.state with data := d }) this
      have := h []
      rwa [hnil] at this
    · rcases hstop.seen_or hs hsub with e | e
      · rw [e]
        exact hone
      · rw [e]
        exact h

/-- Create "f" and write two bytes. -/
def twoBytes : List (Fin nproc × Call) :=
  [(initproc, .open (path [nameF]) 0x202), (initproc, .write 0 2 (.kernel [1, 2]) 0)]

/-- Two bytes, of which only the first can be read. -/
def oneReadable : Src := ⟨[9, 9], 1, Nat.le_succ 1⟩

/-- `writei` of two bytes at the start of that file reports that it wrote none. A reader
that finds the buffer sees the first of them; one that does not sees the old bytes. -/
theorem cut_write_shows_unreported :
    ∃ s r s', (run .mkfs twoBytes).run (boot mkfsVolume.store) = .ok ((), s) ∧
      (s.store.dinodes 2).contents s.store.data = [1, 2] ∧
      (writei .mkfs 2 (s.store.dinodes 2) oneReadable 0 2).run ⟨s.store, [], []⟩ = .ok (r, s') ∧
      r.1 = 0 ∧
      (s'.state.dinodes 2).contents (seen s.store s' []).data = [9, 2] ∧
      (s'.state.dinodes 2).contents
        (seen s.store s' [(s.store.dinodes 2).addrs 0]).data = [1, 2] ∧
      ¬ Shows .mkfs (seen s.store s' []) 2 (overwrite [1, 2] 0 (oneReadable.bytes.take 0)) := by
  obtain ⟨⟨⟩, s, hrun, htest⟩ := run_of_endsIn (show endsIn (run .mkfs twoBytes)
    (boot mkfsVolume.store) (fun _ s =>
      decide ((s.store.dinodes 2).contents s.store.data = [1, 2]) &&
      endsIn (writei .mkfs 2 (s.store.dinodes 2) oneReadable 0 2) ⟨s.store, [], []⟩ fun r s' =>
        decide (r.1 = 0 ∧ (s'.state.dinodes 2).contents (seen s.store s' []).data = [9, 2] ∧
          (s'.state.dinodes 2).contents
            (seen s.store s' [(s.store.dinodes 2).addrs 0]).data = [1, 2]) &&
        endsIn (fileOp .mkfs (.read 2 0 2)) (seen s.store s' []) fun x _ =>
          decide (x = some (2, [9, 2]))) = true by decide +kernel)
  simp only [Bool.and_eq_true, decide_eq_true_eq] at htest
  obtain ⟨hold, hwrite⟩ := htest
  obtain ⟨r, s', hwrun, htest⟩ := run_of_endsIn hwrite
  simp only [Bool.and_eq_true, decide_eq_true_eq] at htest
  obtain ⟨⟨hr, hnew, hback⟩, hread⟩ := htest
  obtain ⟨x, t, hxrun, hx⟩ := run_of_endsIn hread
  refine ⟨s, r, s', hrun, hold, hwrun, hr, hnew, hback, fun hshows => ?_⟩
  obtain ⟨y, t', hyrun, hy⟩ := Total.elim (hshows.2 0 2)
  cases hxrun.symm.trans hyrun
  rw [of_decide_eq_true hx] at hy
  exact absurd hy (by decide)

end Xv6.Files.Budget
