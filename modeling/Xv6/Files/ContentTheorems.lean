/-
Xv6.Files.ContentTheorems — the contents of inodes are byte lists.

The bytes of an inode are those of its blocks, put together. `readi` returns
a part of them, `writei` replaces a part or adds to them, `itrunc` removes
them, and none of these touches another inode: no two inodes share a block.
§1 bytes of an inode, §2 `readi`, §3 `writei`, §4 byte lists, §5 runs.
-/
import Xv6.Files.BlockTheorems

namespace Xv6.Files

open Xv6.Lib Function
open Xv6.Fs (Block)

variable {sb : Superblock} {ino ino' : Nat → Dinode} {st st' : Store} {i j b bn k : Nat}
  {ip : Dinode} {data data' : Nat → Block} {off n tot m : Nat} {E : Panic → Prop} {src : Src}
  {r : Nat × Nat × Dinode} {X : Nat × Slot → Prop}

/-! ## §1 Bytes of an inode -/

def Dinode.byteAt (ip : Dinode) (data : Nat → Block) (k : Nat) : Byte :=
  blockByte (data (ip.blockAt data (k / bsize))) (k % bsize)

/-- The first `n` bytes from `off` on. -/
def Dinode.bytes (ip : Dinode) (data : Nat → Block) (off n : Nat) : List Byte :=
  (List.range n).map fun k => ip.byteAt data (off + k)

def Dinode.contents (ip : Dinode) (data : Nat → Block) : List Byte := ip.bytes data 0 ip.size

theorem Dinode.bytes_length (ip : Dinode) (data : Nat → Block) (off n : Nat) :
    (ip.bytes data off n).length = n := by
  simp [Dinode.bytes]

theorem Dinode.bytes_append (ip : Dinode) (data : Nat → Block) (off m n : Nat) :
    ip.bytes data off m ++ ip.bytes data (off + m) n = ip.bytes data off (m + n) := by
  simp only [Dinode.bytes, List.range_add, List.map_append, List.map_map, Nat.add_assoc]
  rfl

/-- Bytes up to the end of the block that has byte `off`. -/
theorem Dinode.byteAt_add (ip : Dinode) (data : Nat → Block) (h : k < bsize - off % bsize) :
    ip.byteAt data (off + k) =
      blockByte (data (ip.blockAt data (off / bsize))) (off % bsize + k) := by
  have h' : k < 1024 - off % 1024 := h
  have hdiv : (off + k) / 1024 = off / 1024 := by omega
  have hmod : (off + k) % 1024 = off % 1024 + k := by omega
  unfold Dinode.byteAt
  rw [show bsize = 1024 from rfl, hdiv, hmod]

theorem Owned.blockAt_ne_zero (h : Owned sb ino st) (ht : (ino i).type ≠ .free)
    (hk : k < (ino i).size) : (ino i).blockAt st.data (k / bsize) ≠ 0 := by
  refine h.full i _ ht ?_
  have := Nat.div_mul_le_self k bsize
  omega

theorem Owned.block_lt (h : Owned sb ino st) (ht : (ino i).type ≠ .free)
    (hk : k < (ino i).size) : k / bsize < maxfile := by
  have := h.size i ht
  exact Nat.div_lt_of_lt_mul (by rw [Nat.mul_comm]; omega)

/-! ### Frames -/

/-- Only inode `i` and the contents of its blocks have changed; it may have
got blocks. -/
abbrev Touch (i : Nat) := Extends (·.1 = i) i

theorem Ext.touch (h : Ext i ino st ino' st') : Touch i ino st ino' st' :=
  ⟨h.others, h.same, h.keeps, fun ho hne => h.data ho fun e => hne (e ▸ rfl), h.dinodes⟩

theorem owner_blockAt (ht : (ino i).type ≠ .free) (hb : (ino i).blockAt data bn ≠ 0) :
    owner ino data (i, slotOf bn) = some ((ino i).blockAt data bn) :=
  owner_some.mpr ⟨ht, rfl, hb⟩

theorem Extends.blockAt (h : Extends X i ino st ino' st') (ht : (ino j).type ≠ .free)
    (hb : (ino j).blockAt st.data bn ≠ 0) :
    (ino' j).blockAt st'.data bn = (ino j).blockAt st.data bn :=
  (owner_some.mp (h.keeps (owner_blockAt ht hb))).2.1

/-- The other inodes keep their bytes. -/
theorem Touch.byteAt (h : Touch i ino st ino' st') (hj : j ≠ i) (ht : (ino j).type ≠ .free)
    (hb : (ino j).blockAt st.data (k / bsize) ≠ 0) :
    (ino' j).byteAt st'.data k = (ino j).byteAt st.data k := by
  unfold Dinode.byteAt
  rw [h.blockAt ht hb, h.data (owner_blockAt ht hb) hj]

/-- New blocks change no bytes of those that were there. -/
theorem Ext.byteAt (h : Ext i ino st ino' st') (ht : (ino j).type ≠ .free)
    (hb : (ino j).blockAt st.data (k / bsize) ≠ 0) :
    (ino' j).byteAt st'.data k = (ino j).byteAt st.data k := by
  unfold Dinode.byteAt
  rw [h.blockAt ht hb, h.data (owner_blockAt ht hb) fun e =>
    slotOf_ne_indirect _ (congrArg Prod.snd e)]

/-! ## §2 `readi` -/

theorem readBlock_spec (addr off n : Nat) :
    Meets E (readBlock addr off n) st fun bytes st' =>
      bytes = ((List.range n).map fun k => blockByte (st.data addr) (off + k)) ∧ st' = st :=
  meets_read (meets_pure ⟨rfl, rfl⟩)

theorem blockAt_direct (data : Nat → Block) (h : bn < ndirect) :
    ip.blockAt data bn = ip.addrs ⟨bn, direct_index_lt h⟩ := by
  unfold Dinode.blockAt
  rw [slotOf_direct h]
  rfl

theorem word_index (hbn : bn < maxfile) (h : ¬ bn < ndirect) : bn - ndirect < 256 := by
  unfold maxfile nindirect at hbn
  omega

theorem blockAt_word (data : Nat → Block) (hbn : bn < maxfile) (h : ¬ bn < ndirect) :
    ip.blockAt data bn = if ip.addrs indirect = 0 then 0
      else (Fs.word (data (ip.addrs indirect)) (bn - ndirect)).toNat := by
  have hl := word_index hbn h
  unfold Dinode.blockAt
  rw [slotOf_indirect h hl]
  unfold Fs.word
  rw [dif_pos hl]
  rfl

/-- A look-up of a block that is there, from look-ups of the addresses that are. -/
theorem meets_map {σ ε : Type} {E : ε → Prop} {s : σ} {data : Nat → Block}
    {fail : StateT σ (Except ε) (Nat × Dinode)} (addr : Fin 13 → StateT σ (Except ε) (Nat × Dinode))
    (entry : Nat → Nat → StateT σ (Except ε) Nat) (hbn : bn < maxfile)
    (haddr : ∀ k, ip.addrs k ≠ 0 → addr k = pure (ip.addrs k, ip))
    (hentry : ∀ {a k Q}, (Fs.word (data a) k).toNat ≠ 0 → Q (Fs.word (data a) k).toNat s →
      Meets E (entry a k) s Q)
    (hb : ip.blockAt data bn ≠ 0) {Q : Nat × Dinode → σ → Prop}
    (hq : Q (ip.blockAt data bn, ip) s) :
    Meets E (if h : bn < ndirect then addr ⟨bn, direct_index_lt h⟩
      else if bn - ndirect < nindirect then do
        let (ind, ip) ← addr indirect
        if ind = 0 then return (0, ip)
        else
          let b ← entry ind (bn - ndirect)
          return (b, ip)
      else fail) s Q := by
  by_cases hd : bn < ndirect
  · rw [blockAt_direct _ hd] at hb hq
    rw [dif_pos hd]
    exact haddr _ hb ▸ meets_pure hq
  · rw [blockAt_word _ hbn hd] at hb hq
    have h0 : ip.addrs indirect ≠ 0 := fun h0 => hb (if_pos h0)
    rw [if_neg h0] at hb hq
    rw [dif_neg hd, if_pos (show bn - ndirect < nindirect from word_index hbn hd), haddr _ h0]
    refine Meets.bind (meets_pure (meets_else h0 ?_))
    exact Meets.bind (hentry hb (meets_pure hq))

theorem bmap_present (hbn : bn < maxfile) (hb : ip.blockAt st.data bn ≠ 0)
    {Q : Nat × Dinode → Store → Prop} (hq : Q (ip.blockAt st.data bn, ip) st) :
    Meets E (bmap sb ip bn) st Q :=
  meets_map (inodeAddr sb ip) (indirectAddr sb) hbn (fun _ h0 => if_neg h0)
    (fun h0 hq => Meets.bind (meets_read (meets_pure
      (meets_else h0 (meets_pure hq))))) hb hq

/-- Block `k / bsize` of the file is there. -/
def Dinode.Has (ip : Dinode) (data : Nat → Block) (k : Nat) : Prop :=
  k / bsize < maxfile ∧ ip.blockAt data (k / bsize) ≠ 0

/-- Reading changes nothing where there are no holes. -/
theorem readLoop_present (good n : Nat) :
    ∀ (fuel off tot : Nat) (out : List Byte), tot ≤ n → n ≤ tot + fuel →
    (∀ k, off ≤ k → k < off + (n - tot) → ip.Has st.data k) →
    Meets E (readLoop sb fuel ip good off n tot out) st fun r st' =>
      r.2.2 = ip ∧ st' = st ∧
      (n ≤ good → r.1 = n ∧ r.2.1 = out ++ ip.bytes st.data off (n - tot)) := by
  intro fuel
  induction fuel with
  | zero =>
    intro off tot out htot hfuel _
    obtain rfl : tot = n := by omega
    refine meets_pure ⟨rfl, rfl, fun _ => ⟨rfl, ?_⟩⟩
    simp [Dinode.bytes]
  | succ fuel ih =>
    intro off tot out htot hfuel hhas
    refine meets_ite (fun hlt => ?_) (fun hge => ?_)
    · obtain ⟨hbn, hb⟩ := hhas off (Nat.le_refl _) (by omega)
      refine Meets.bind (bmap_present hbn hb ?_)
      dsimp only
      rw [if_neg hb]
      refine (readBlock_spec _ _ _).seq fun bytes st2 ⟨hbytes, hst⟩ => ?_
      subst hst
      have hb1 : 0 < bsize - off % bsize := Nat.sub_pos_of_lt (Nat.mod_lt _ (by decide))
      -- the part of the block that was copied
      have hpart : bytes = ip.bytes st2.data off (min (n - tot) (bsize - off % bsize)) := by
        rw [hbytes]
        refine List.map_congr_left fun k hk => ?_
        rw [Dinode.byteAt_add]
        exact Nat.lt_of_lt_of_le (List.mem_range.mp hk) (Nat.min_le_right ..)
      refine meets_ite (fun hbad => ?_) (fun _ => ?_)
      · exact meets_pure ⟨rfl, rfl, fun hg => absurd hbad (by omega)⟩
      · refine (ih _ _ _ (by omega) (by omega) fun k hk hk' => hhas k (by omega) (by omega)).imp
          fun r st' ⟨h1, h2, h3⟩ => ?_
        refine ⟨h1, h2, fun hg => ⟨(h3 hg).1, ?_⟩⟩
        rw [(h3 hg).2, hpart, List.append_assoc, Dinode.bytes_append]
        congr 2
        omega
    · obtain rfl : tot = n := by omega
      refine meets_pure ⟨rfl, rfl, fun _ => ⟨rfl, ?_⟩⟩
      simp [Dinode.bytes]

/-- The number of bytes that `readi` is to return. -/
def Dinode.readable (ip : Dinode) (off n : Nat) : Nat :=
  if off > ip.size ∨ (off + n) % 2 ^ 32 < off then 0 else min n (ip.size - off)

theorem readi_present (good off n : Nat)
    (hhas : ∀ k, off ≤ k → k < off + ip.readable off n → ip.Has st.data k) :
    Meets E (readi sb ip good off n) st fun r st' =>
      r.2.2 = ip ∧ st' = st ∧
      (n ≤ good → r.1 = ip.readable off n ∧ r.2.1 = ip.bytes st.data off (ip.readable off n)) := by
  unfold Dinode.readable at *
  refine meets_ite (fun hc => ?_) (fun hc => ?_)
  · rw [if_pos hc]
    refine meets_pure ⟨rfl, rfl, fun _ => ⟨rfl, ?_⟩⟩
    simp [Dinode.bytes]
  · rw [if_neg hc] at hhas ⊢
    have hn : (if off + n > ip.size then ip.size - off else n) = min n (ip.size - off) := by
      split <;> omega
    rw [hn]
    refine (readLoop_present good (min n (ip.size - off)) _ off 0 [] (Nat.zero_le _) (by omega)
      (by rw [Nat.sub_zero]; exact hhas)).imp
      fun r st' ⟨h1, h2, h3⟩ => ⟨h1, h2, fun hg => ?_⟩
    obtain ⟨hr, hout⟩ := h3 (by omega)
    exact ⟨hr, by rw [hout, List.nil_append, Nat.sub_zero]⟩

theorem Dinode.readable_le (ip : Dinode) (off n : Nat) (h : 0 < ip.readable off n) :
    off + ip.readable off n ≤ ip.size := by
  unfold Dinode.readable at *
  split at h
  · cases h
  · split
    · contradiction
    · omega

/-- A file of the file system has no holes. -/
theorem Owned.has (h : Owned sb ino st) (ht : (ino i).type ≠ .free) (hk : k < (ino i).size) :
    (ino i).Has st.data k :=
  ⟨h.block_lt ht hk, h.blockAt_ne_zero ht hk⟩

theorem readi_spec (h : Owned sb ino st) (ht : (ino i).type ≠ .free) (good off n : Nat) :
    Meets E (readi sb (ino i) good off n) st fun r st' =>
      r.2.2 = ino i ∧ st' = st ∧
      (n ≤ good → r.1 = (ino i).readable off n ∧
        r.2.1 = (ino i).bytes st.data off ((ino i).readable off n)) := by
  refine readi_present good off n fun k hk hlt => ?_
  have hle := (ino i).readable_le off n (by omega)
  exact h.has ht (by omega)

/-! ## §3 `writei` -/

/-- Block `b` gets other contents. -/
def Store.put (st : Store) (b : Nat) (d : Block) : Store := { st with data := update st.data b d }

section

variable (h : Owned sb ino st) (ht : (ino i).type ≠ .free)
include h ht

/-- The blocks of files are not indirect blocks. -/
theorem Owned.owner_put (hb : (ino i).blockAt st.data bn ≠ 0) (d : Block) :
    owner ino (st.put ((ino i).blockAt st.data bn) d).data = owner ino st.data := by
  refine owner_update_data (fun j hj => ?_) d
  have hsame := h.pool.inj hj (owner_blockAt ht hb)
  exact slotOf_ne_indirect bn (congrArg Prod.snd hsame).symm

theorem Owned.put (hb : (ino i).blockAt st.data bn ≠ 0) (d : Block) :
    Owned sb ino (st.put ((ino i).blockAt st.data bn) d) ∧
      Touch i ino st ino (st.put ((ino i).blockAt st.data bn) d) := by
  refine ⟨h.congr (h.owner_put ht hb d) rfl fun j hj => ⟨hj, rfl⟩, fun _ _ => rfl, ⟨_, rfl⟩,
    fun ho => by rwa [h.owner_put ht hb d], fun ho hne => update_of_ne ?_ .., rfl⟩
  rintro rfl
  exact hne (congrArg Prod.fst (h.pool.inj ho (owner_blockAt ht hb)))

/-- Only bytes of this block change. -/
theorem Owned.byteAt_put (hbn : bn < maxfile)
    (hb : (ino i).blockAt st.data bn ≠ 0) (d : Block) (hk : k / bsize < maxfile)
    (hkb : (ino i).blockAt st.data (k / bsize) ≠ 0) :
    (ino i).byteAt (st.put ((ino i).blockAt st.data bn) d).data k =
      if k / bsize = bn then blockByte d (k % bsize) else (ino i).byteAt st.data k := by
  unfold Dinode.byteAt
  rw [(h.put ht hb d).2.blockAt ht hkb]
  by_cases e : k / bsize = bn
  · rw [if_pos e, e]
    simp only [Store.put, update_self]
  · rw [if_neg e]
    simp only [Store.put]
    rw [update_of_ne]
    intro heq
    have hsame := h.pool.inj (owner_blockAt ht hkb) (heq ▸ owner_blockAt ht hb)
    exact e (slotOf_inj hk hbn (congrArg Prod.snd hsame))

/-- Bytes from `off` on are written, all in one block. -/
theorem Owned.byteAt_blit
    (hoff : off / bsize < maxfile) (hb : (ino i).blockAt st.data (off / bsize) ≠ 0)
    {bytes : List Byte} (hm : bytes.length ≤ bsize - off % bsize) (hk : k / bsize < maxfile)
    (hkb : (ino i).blockAt st.data (k / bsize) ≠ 0) :
    (ino i).byteAt (st.put ((ino i).blockAt st.data (off / bsize))
        (blit (st.data ((ino i).blockAt st.data (off / bsize))) (off % bsize) bytes)).data k =
      if off ≤ k ∧ k < off + bytes.length then bytes.getD (k - off) 0
      else (ino i).byteAt st.data k := by
  rw [h.byteAt_put ht hoff hb _ hk hkb, blockByte_blit _ _ _ (Nat.mod_lt _ (by decide))]
  by_cases e : k / bsize = off / bsize
  · have hiff : off % bsize ≤ k % bsize ∧ k % bsize < off % bsize + bytes.length ↔
        off ≤ k ∧ k < off + bytes.length := by
      unfold bsize at e hm ⊢
      omega
    rw [if_pos e]
    by_cases hin : off ≤ k ∧ k < off + bytes.length
    · rw [if_pos hin, if_pos (hiff.mpr hin)]
      congr 1
      unfold bsize at e hm ⊢
      omega
    · rw [if_neg hin, if_neg (mt hiff.mp hin)]
      unfold Dinode.byteAt
      rw [e]
  · rw [if_neg e, if_neg]
    unfold bsize at e hm
    omega

end

/-- What the loop of `writei` has done once it is at `off'`, with `tot'`
bytes of the source behind it. -/
structure Written (sb : Superblock) (i : Nat) (ino : Nat → Dinode) (st : Store) (src : Src)
    (off n tot : Nat) (r : Nat × Nat × Dinode) (st' : Store) : Prop where
  owned : Owned sb (update ino i r.2.2) st'
  touch : Touch i ino st (update ino i r.2.2) st'
  ge : tot ≤ r.1
  le : r.1 ≤ n
  came : r.2.1 = off + (r.1 - tot)
  cover : ∀ bn, bn * bsize < r.2.1 → r.2.2.blockAt st'.data bn ≠ 0
  all : n ≤ src.good → r.1 = n ∨ Full sb st'
  -- bytes of one block are written at once
  once : n ≤ src.good → off % bsize + (n - tot) ≤ bsize → r.1 = tot ∨ r.1 = n
  new : n ≤ src.good → ∀ k, off ≤ k → k < r.2.1 →
    r.2.2.byteAt st'.data k = src.bytes.getD (tot + (k - off)) 0
  old : n ≤ src.good → ∀ k, k / bsize < maxfile → (ino i).blockAt st.data (k / bsize) ≠ 0 →
    (k < off ∨ r.2.1 ≤ k) → r.2.2.byteAt st'.data k = (ino i).byteAt st.data k

theorem copyinBlock_spec (addr off : Nat) (src : Src) (tot m : Nat) :
    Meets E (copyinBlock addr off src tot m) st fun ok st' =>
      (ok = true ↔ tot + m ≤ src.good) ∧
      st' = st.put addr (blit (st.data addr) off
        ((src.bytes.drop tot).take (min m (src.good - tot)))) :=
  meets_update (meets_pure ⟨by simp, rfl⟩)

theorem Written.refl (h : Owned sb ino st) (src : Src) (hle : tot ≤ n)
    (hcov : ∀ bn, bn * bsize < off → (ino i).blockAt st.data bn ≠ 0)
    (hall : n ≤ src.good → tot = n ∨ Full sb st) :
    Written sb i ino st src off n tot (tot, off, ino i) st where
  owned := by rwa [update_eq_self]
  touch := by
    rw [update_eq_self]
    exact .refl
  ge := Nat.le_refl _
  le := hle
  came := by
    dsimp only
    omega
  cover := hcov
  all := hall
  once := fun _ _ => .inl rfl
  new := fun _ k h1 h2 => absurd h1 (Nat.not_le.mpr h2)
  old := fun _ _ _ _ _ => rfl

/-- After `bmap` has grown the file, the rest of the loop is about the inode
it returned. -/
theorem Written.grown (hg : Grown sb i ino st ip st') {st'' : Store} (ht : (ino i).type ≠ .free)
    (h : Written sb i (update ino i ip) st' src off n tot r st'') :
    Written sb i ino st src off n tot r st'' where
  owned := by
    have := h.owned
    rwa [update_idem] at this
  touch := by
    have := h.touch
    rw [update_idem] at this
    exact hg.2.touch.trans this
  ge := h.ge
  le := h.le
  came := h.came
  cover := h.cover
  all := h.all
  once := h.once
  new := h.new
  old := by
    intro hgood k hk hb hout
    have hb' := hg.2.touch.blockAt ht hb
    rw [h.old hgood k hk (hb'.symm ▸ hb) hout, hg.2.byteAt ht hb]

/-- One block, and then the rest of the loop. -/
theorem Written.block (h : Owned sb ino st) (ht : (ino i).type ≠ .free)
    (hoff : off / bsize < maxfile) (hb : (ino i).blockAt st.data (off / bsize) ≠ 0)
    (hm : m ≤ bsize - off % bsize) (hfills : m = n - tot ∨ m = bsize - off % bsize)
    (hgood : tot + m ≤ src.good)
    (hr : Written sb i ino (st.put ((ino i).blockAt st.data (off / bsize))
      (blit (st.data ((ino i).blockAt st.data (off / bsize))) (off % bsize)
        ((src.bytes.drop tot).take (min m (src.good - tot))))) src (off + m) n (tot + m) r st') :
    Written sb i ino st src off n tot r st' := by
  have hput := h.put ht hb (blit (st.data ((ino i).blockAt st.data (off / bsize))) (off % bsize)
    ((src.bytes.drop tot).take (min m (src.good - tot))))
  have hlen : ((src.bytes.drop tot).take (min m (src.good - tot))).length = m := by
    have := src.fits
    rw [List.length_take, List.length_drop]
    omega
  have hbyte : ∀ k, k / bsize < maxfile → (ino i).blockAt st.data (k / bsize) ≠ 0 → _ :=
    fun k hk hkb => h.byteAt_blit ht hoff hb (hlen.symm ▸ hm) hk hkb
  have hge := hr.ge
  have hcame := hr.came
  have hle := hr.le
  refine ⟨hr.owned, hput.2.trans hr.touch, by omega, hle, by omega, hr.cover, hr.all,
    fun _ _ => .inr (by omega), ?_, ?_⟩
  · intro hg k h1 h2
    by_cases hin : k < off + m
    · have hdiv : k / bsize = off / bsize := by
        unfold bsize at hm ⊢
        omega
      have hkb : (ino i).blockAt st.data (k / bsize) ≠ 0 := by rwa [hdiv]
      rw [hr.old hg k (hdiv ▸ hoff) (by rwa [hput.2.blockAt ht hkb]) (.inl hin),
        hbyte k (hdiv ▸ hoff) hkb, hlen, if_pos ⟨h1, hin⟩]
      simp only [List.getD_eq_getElem?_getD, List.getElem?_take, List.getElem?_drop]
      rw [if_pos (by omega)]
    · rw [hr.new hg k (by omega) h2]
      congr 1
      omega
  · intro hg k hk hkb hout
    rw [hr.old hg k hk (by rwa [hput.2.blockAt ht hkb]) (by omega), hbyte k hk hkb, hlen, if_neg]
    omega

/-- The copy from user memory has failed. -/
theorem Written.failed (h : Owned sb ino st) (ht : (ino i).type ≠ .free)
    (hb : (ino i).blockAt st.data bn ≠ 0) (d : Block) (hbad : ¬ n ≤ src.good)
    (hr : Written sb i ino (st.put ((ino i).blockAt st.data bn) d) src off n tot r st') :
    Written sb i ino st src off n tot r st' :=
  { hr with
    touch := (h.put ht hb d).2.trans hr.touch
    old := fun hg => absurd hg hbad }

/-- All blocks before `off` are there. -/
def Dinode.Covers (ip : Dinode) (data : Nat → Block) (off : Nat) : Prop :=
  ∀ bn, bn * bsize < off → ip.blockAt data bn ≠ 0

theorem Extends.covers (h : Extends X i ino st ino' st') (ht : (ino j).type ≠ .free)
    (hc : (ino j).Covers st.data off) : (ino' j).Covers st'.data off := by
  intro bn hlt
  rw [h.blockAt ht (hc bn hlt)]
  exact hc bn hlt

theorem Dinode.Covers.block (hc : ip.Covers data off) (hb : ip.blockAt data (off / bsize) ≠ 0)
    (hm : m ≤ bsize - off % bsize) :
    ip.Covers data (off + m) := by
  intro bn hlt
  by_cases e : bn = off / bsize
  · rwa [e]
  · refine hc bn ?_
    unfold bsize at hlt hm e ⊢
    omega

/-- One turn of the loop, once the block is there. -/
theorem writeBlock_spec (src : Src) (fuel tot : Nat) (h : Owned sb ino st)
    (ht : (ino i).type ≠ .free) (hoff : off / bsize < maxfile)
    (hb : (ino i).blockAt st.data (off / bsize) ≠ 0) (hm : m ≤ bsize - off % bsize)
    (hmn : tot + m ≤ n) (hfills : m = n - tot ∨ m = bsize - off % bsize)
    (hcov : (ino i).Covers st.data off)
    (hrest : ∀ st1, Owned sb ino st1 → (ino i).Covers st1.data (off + m) →
      Meets E (writeLoop sb fuel (ino i) src (off + m) n (tot + m)) st1 fun r st' =>
        Written sb i ino st1 src (off + m) n (tot + m) r st') :
    Meets E (do
      if ← copyinBlock ((ino i).blockAt st.data (off / bsize)) (off % bsize) src tot m then
        writeLoop sb fuel (ino i) src (off + m) n (tot + m)
      else return (tot, off, ino i)) st fun r st' => Written sb i ino st src off n tot r st' := by
  refine (copyinBlock_spec _ _ src tot m).seq fun ok st1 ⟨hok, hst1⟩ => ?_
  have hput := h.put ht hb (blit (st.data ((ino i).blockAt st.data (off / bsize))) (off % bsize)
    ((src.bytes.drop tot).take (min m (src.good - tot))))
  rw [hst1]
  have hcov1 := hput.2.covers ht hcov
  refine meets_ite (fun hcopied => ?_) (fun hfail => ?_)
  · refine (hrest _ hput.1 (hcov1.block ?_ hm)).imp fun r st' hr => ?_
    · rwa [hput.2.blockAt ht hb]
    · exact .block h ht hoff hb hm hfills (hok.mp hcopied) hr
  · have hbad : ¬ n ≤ src.good := fun hg => hfail (hok.mpr (by omega))
    exact meets_pure (.failed h ht hb _ hbad
      (.refl hput.1 src (by omega) hcov1 fun hg => absurd hg hbad))

theorem writeLoop_spec (src : Src) (n : Nat) : ∀ (fuel off tot : Nat)
    {ino : Nat → Dinode} {st : Store}, Owned sb ino st → (ino i).type ≠ .free → tot ≤ n →
    n ≤ tot + fuel → off + (n - tot) ≤ maxfile * bsize → (ino i).Covers st.data off →
    Meets E (writeLoop sb fuel (ino i) src off n tot) st fun r st' =>
      Written sb i ino st src off n tot r st' := by
  intro fuel
  induction fuel with
  | zero =>
    intro off tot ino st h _ htot hfuel _ hcov
    exact meets_pure (.refl h src htot hcov fun _ => .inl (by omega))
  | succ fuel ih =>
    intro off tot ino st h ht htot hfuel hsize hcov
    refine meets_ite (fun hlt => ?_) (fun hge => ?_)
    · have hbn : off / bsize < maxfile := Nat.div_lt_of_lt_mul (by rw [Nat.mul_comm]; omega)
      refine (bmap_spec h ht hbn).seq fun ⟨addr, ip⟩ st1 hb => ?_
      obtain ⟨hgrown, haddr, hfull, _⟩ := hb
      have hself : update ino i ip i = ip := update_self ..
      have ht1 : (update ino i ip i).type ≠ .free := by rwa [hgrown.2.type]
      have hcov1 := hgrown.2.touch.covers ht hcov
      have hpos : 0 < bsize - off % bsize := Nat.sub_pos_of_lt (Nat.mod_lt _ (by decide))
      refine meets_ite (fun h0 => ?_) (fun h0 => ?_)
      · have hstop := Written.refl hgrown.1 src htot hcov1 fun _ => .inr (hfull h0)
        rw [hself] at hstop
        exact meets_pure (.grown hgrown ht hstop)
      · have hat : (update ino i ip i).blockAt st1.data (off / bsize) = addr := by
          rw [hself]
          exact haddr h0
        have hturn := writeBlock_spec (n := n) (E := E) src fuel tot hgrown.1 ht1 hbn
          (hat.symm ▸ h0) (Nat.min_le_right (n - tot) _) (by omega) (by omega) hcov1
          fun st2 h2 hcov2 => ih _ _ h2 ht1 (by omega) (by omega) (by omega) hcov2
        rw [hat, hself] at hturn
        exact hturn.imp fun r st' hr => Written.grown hgrown ht hr
    · exact meets_pure (.refl h src htot hcov fun _ => .inl (by omega))

/-- `writei` does nothing for these arguments. -/
def Dinode.refuses (ip : Dinode) (off n : Nat) : Prop :=
  off > ip.size ∨ (off + n) % 2 ^ 32 < off ∨ off + n > maxfile * bsize

instance (ip : Dinode) (off n : Nat) : Decidable (ip.refuses off n) := by
  unfold Dinode.refuses
  infer_instance

/-- `writei` has written `t` bytes at `off` and inode `i` is `ip` now. -/
structure Wrote (sb : Superblock) (i : Nat) (ino : Nat → Dinode) (st : Store) (src : Src)
    (off n t : Nat) (ip : Dinode) (st' : Store) : Prop where
  owned : Owned sb (update ino i ip) st'
  dinodes : st'.dinodes = update st.dinodes i ip
  same : ∃ addrs, ip = { ino i with addrs := addrs, size := max (ino i).size (off + t) }
  le : t ≤ n
  all : n ≤ src.good → t = n ∨ Full sb st'
  once : n ≤ src.good → off % bsize + n ≤ bsize → t = 0 ∨ t = n
  bytes : n ≤ src.good → ∀ k, k < ip.size →
    ip.byteAt st'.data k =
      if off ≤ k ∧ k < off + t then src.bytes.getD (k - off) 0 else (ino i).byteAt st.data k
  others : ∀ j, j ≠ i → (ino j).type ≠ .free →
    (ino j).contents st'.data = (ino j).contents st.data

/-- A file can be as large as the blocks that are there. -/
theorem Owned.resize (h : Owned sb ino st) (haddrs : ip.addrs = (ino i).addrs)
    (htype : ip.type = (ino i).type) (hcov : ip.Covers st.data ip.size)
    (hsize : ip.size ≤ maxfile * bsize) : Owned sb (update ino i ip) st := by
  have hown : owner (update ino i ip) st.data = owner ino st.data := by
    funext ⟨j, k⟩
    by_cases e : j = i
    · subst e
      rw [owner_update_self, htype, owner]
      simp only [Dinode.ptr, haddrs]
    · exact owner_update_ne e
  have hino : ∀ j, j ≠ i → update ino i ip j = ino j := fun j hj => update_of_ne hj ..
  have hself : update ino i ip i = ip := update_self ..
  refine ⟨hown ▸ h.pool, h.reserved, fun j hj => ?_, fun j bn hj hbn => ?_, fun j hj => ?_⟩
  · by_cases e : j = i
    · rw [e, hself, htype] at hj
      exact h.inums j (e ▸ hj)
    · exact h.inums j (hino j e ▸ hj)
  · by_cases e : j = i
    · rw [e, hself] at hbn ⊢
      exact hcov bn hbn
    · rw [hino j e] at hj hbn ⊢
      exact h.full j bn hj hbn
  · by_cases e : j = i
    · rw [e, hself]
      exact hsize
    · rw [hino j e] at hj ⊢
      exact h.size j hj

/-- What `iupdate` writes once the loop is over. -/
theorem Written.wrote (h : Owned sb ino st) (ht : (ino i).type ≠ .free) (hoff : off ≤ (ino i).size)
    (hmax : off + n ≤ maxfile * bsize) (hw : Written sb i ino st src off n 0 r st')
    (hip : ip = if r.2.1 > r.2.2.size then { r.2.2 with size := r.2.1 } else r.2.2) :
    Wrote sb i ino st src off n r.1 ip { st' with dinodes := update st'.dinodes i ip } := by
  obtain ⟨addrs, haddrs⟩ := hw.touch.same
  rw [update_self] at haddrs
  have hcame : r.2.1 = off + r.1 := by
    have := hw.came
    omega
  have hle := hw.le
  have hsize := h.size i ht
  have hip' : ip = { ino i with addrs := addrs, size := max (ino i).size (off + r.1) } := by
    rw [hip, haddrs, hcame]
    split
    · rename_i hgt
      rw [Nat.max_eq_right (Nat.le_of_lt hgt)]
    · rename_i hgt
      rw [Nat.max_eq_left (Nat.not_lt.mp hgt)]
  have hblock : ∀ bn, ip.blockAt st'.data bn = r.2.2.blockAt st'.data bn := by
    intro bn
    rw [hip', haddrs]
    rfl
  have hcover : ip.Covers st'.data ip.size := by
    intro bn hlt
    rw [hip'] at hlt
    dsimp only at hlt
    rw [hblock]
    rcases Nat.lt_or_ge (bn * bsize) (ino i).size with hin | hin
    · have := hw.touch.blockAt ht (h.full i bn ht hin)
      rw [update_self] at this
      rw [this]
      exact h.full i bn ht hin
    · exact hw.cover bn (by omega)
  have hself : update ino i r.2.2 i = r.2.2 := update_self ..
  have hresized : Owned sb (update (update ino i r.2.2) i ip) st' :=
    hw.owned.resize (by rw [hself, hip', haddrs]) (by rw [hself, hip', haddrs]) hcover
      (by rw [hip']; dsimp only; omega)
  rw [update_idem] at hresized
  refine ⟨hresized.congr rfl rfl fun j hj => ⟨hj, rfl⟩, ?_, ⟨addrs, hip'⟩, hle, hw.all,
    hw.once, fun hg k hk => ?_, fun j hj htj => ?_⟩
  · rw [hw.touch.dinodes]
  · have hbyte : ip.byteAt st'.data k = r.2.2.byteAt st'.data k := by
      unfold Dinode.byteAt
      rw [hblock]
    have hk' : k < max (ino i).size (off + r.1) := by
      rw [hip'] at hk
      exact hk
    rw [hbyte]
    by_cases hin : off ≤ k ∧ k < off + r.1
    · rw [if_pos hin, hw.new hg k hin.1 (by omega), Nat.zero_add]
    · have hks : k < (ino i).size := by omega
      rw [if_neg hin]
      exact hw.old hg k (h.block_lt ht hks) (h.blockAt_ne_zero ht hks) (by omega)
  · refine List.map_congr_left fun k hk => ?_
    have hk' : 0 + k < (ino j).size := by
      have := List.mem_range.mp hk
      omega
    have := hw.touch.byteAt hj htj (h.blockAt_ne_zero htj hk')
    rwa [update_of_ne hj] at this

theorem writei_spec (h : Owned sb ino st) (ht : (ino i).type ≠ .free) (src : Src) (off n : Nat) :
    Meets E (writei sb i (ino i) src off n) st fun r st' =>
      (ino i).refuses off n ∧ r = (-1, ino i) ∧ st' = st ∨
      ¬ (ino i).refuses off n ∧ ∃ t : Nat, r.1 = t ∧ Wrote sb i ino st src off n t r.2 st' := by
  unfold writei Dinode.refuses
  refine meets_ite (fun h1 => ?_) (fun h1 => ?_)
  · refine meets_pure (.inl ⟨?_, rfl, rfl⟩)
    rcases h1 with h1 | h1
    · exact .inl h1
    · exact .inr (.inl h1)
  · refine meets_ite (fun h2 => ?_) (fun h2 => ?_)
    · exact meets_pure (.inl ⟨.inr (.inr h2), rfl, rfl⟩)
    · have hoff : off ≤ (ino i).size := by omega
      have hcov : (ino i).Covers st.data off := fun bn hlt => h.full i bn ht (by omega)
      refine (writeLoop_spec src n n off 0 h ht (by omega) (by omega) (by omega) hcov).seq
        fun r st' hw => ?_
      have hwrote := hw.wrote h ht hoff (by omega) rfl
      exact meets_update (meets_pure (.inr ⟨by omega, r.1, rfl, hwrote⟩))

/-! ## §4 Byte lists -/

/-- The bytes from `off` on are replaced; the list grows if it is too short. -/
def overwrite (c : List Byte) (off : Nat) (bytes : List Byte) : List Byte :=
  c.take off ++ bytes ++ c.drop (off + bytes.length)

theorem getElem?_overwrite {old bytes : List Byte} (h : off ≤ old.length) (k : Nat) :
    (overwrite old off bytes)[k]? =
      if off ≤ k ∧ k < off + bytes.length then bytes[k - off]? else old[k]? := by
  unfold overwrite
  rw [List.append_assoc, List.getElem?_append, List.length_take, Nat.min_eq_left h]
  by_cases h1 : k < off
  · rw [if_pos h1, if_neg (by omega), List.getElem?_take, if_pos h1]
  · rw [if_neg h1, List.getElem?_append]
    by_cases h2 : k < off + bytes.length
    · rw [if_pos (by omega), if_pos ⟨by omega, h2⟩]
    · rw [if_neg (by omega), if_neg (by omega), List.getElem?_drop]
      congr 1
      omega

theorem Dinode.contents_length (ip : Dinode) (data : Nat → Block) :
    (ip.contents data).length = ip.size := ip.bytes_length data 0 ip.size

theorem Dinode.getElem?_contents (ip : Dinode) (data : Nat → Block) (k : Nat) :
    (ip.contents data)[k]? = if k < ip.size then some (ip.byteAt data k) else none := by
  unfold Dinode.contents Dinode.bytes
  rw [List.getElem?_map]
  by_cases h : k < ip.size
  · rw [List.getElem?_range h, if_pos h, Option.map_some, Nat.zero_add]
  · rw [List.getElem?_eq_none (by rw [List.length_range]; omega), if_neg h, Option.map_none]

/-- The bytes from `off` on, as a part of the contents. -/
theorem Dinode.bytes_eq (ip : Dinode) (data : Nat → Block) (h : off + n ≤ ip.size) :
    ip.bytes data off n = ((ip.contents data).take (off + n)).drop off := by
  refine List.ext_getElem? fun k => ?_
  rw [List.getElem?_drop, List.getElem?_take, Dinode.getElem?_contents, Dinode.bytes,
    List.getElem?_map]
  by_cases hk : k < n
  · rw [List.getElem?_range hk, if_pos (by omega), if_pos (by omega), Option.map_some]
  · rw [List.getElem?_eq_none (by rw [List.length_range]; omega), if_neg (by omega),
      Option.map_none]

theorem Wrote.contents {t : Nat} (h : Wrote sb i ino st src off n t ip st') (hgood : n ≤ src.good)
    (hoff : off ≤ (ino i).size) :
    ip.contents st'.data = overwrite ((ino i).contents st.data) off (src.bytes.take t) := by
  have hfits := src.fits
  have hle := h.le
  obtain ⟨addrs, hip⟩ := h.same
  have hsize : ip.size = max (ino i).size (off + t) := by rw [hip]
  have hlen : (src.bytes.take t).length = t := by
    rw [List.length_take]
    omega
  refine List.ext_getElem? fun k => ?_
  rw [getElem?_overwrite (by rwa [Dinode.contents_length]), Dinode.getElem?_contents,
    Dinode.getElem?_contents, hlen]
  by_cases hk : k < ip.size
  · rw [if_pos hk, h.bytes hgood k hk]
    by_cases hin : off ≤ k ∧ k < off + t
    · rw [if_pos hin, if_pos hin, List.getElem?_take, if_pos (by omega),
        List.getD_eq_getElem?_getD, List.getElem?_eq_getElem (by omega), Option.getD_some]
    · rw [if_neg hin, if_neg hin, if_pos (by omega)]
  · rw [if_neg hk, if_neg (by omega), if_neg (by omega)]

/-! ## §5 Runs -/

/-- The byte list of an inode, if it is allocated. -/
def Store.file (st : Store) (i : Nat) : Option (List Byte) :=
  if (st.dinodes i).type = .free then none else some ((st.dinodes i).contents st.data)

/-- Operations on inodes; `off` and `n` are of type `uint`, and `src` is a
buffer of the kernel. -/
inductive FileOp where
  | write (i : Nat) (src : Nat → Byte) (off n : BitVec 32)
  | read (i : Nat) (off n : BitVec 32)
  | trunc (i : Nat)

/-- The return value, and what was read. -/
abbrev Result := Option (Int × List Byte)

/-- Do it, with the fields of the inode as `ilock` reads them. There is no
result if the inode is free. -/
def fileOp (sb : Superblock) : FileOp → B Result
  | .write i src off n => do
    let ip := (← get).dinodes i
    if ip.type = .free then return none
    else
      let bytes := (List.range n.toNat).map src
      let (r, _) ← writei sb i ip (.kernel bytes) off.toNat n.toNat
      return some (r, [])
  | .read i off n => do
    let ip := (← get).dinodes i
    if ip.type = .free then return none
    else
      let (r, bytes, _) ← readi sb ip n.toNat off.toNat n.toNat
      return some (r, bytes)
  | .trunc i => do
    let ip := (← get).dinodes i
    if ip.type = .free then return none
    else
      let _ ← itrunc i ip
      return some (0, [])

def fileOps (sb : Superblock) : List FileOp → B (List Result)
  | [] => return []
  | op :: ops => do
    let r ← fileOp sb op
    let rs ← fileOps sb ops
    return r :: rs

/-- Byte lists, and whether there are blocks left. -/
structure Contents where
  files : Nat → Option (List Byte)
  full : Prop

def Store.contents (sb : Superblock) (st : Store) : Contents := ⟨st.file, Full sb st⟩

def FileOp.inum : FileOp → Nat
  | .write i _ _ _ => i
  | .read i _ _ => i
  | .trunc i => i

/-- `writei` has nothing to do for a file of `size` bytes. -/
def outOfRange (size : Nat) (off n : BitVec 32) : Prop :=
  off.toNat > size ∨ off + n < off ∨ off.toNat + n.toNat > maxfile * bsize

/-- What an operation may do to byte lists. -/
inductive FileOp.Spec (c : Contents) : FileOp → Result → Contents → Prop
  | free {op : FileOp} : c.files op.inum = none → Spec c op none c
  | refused {i : Nat} {src : Nat → Byte} {off n : BitVec 32} {file : List Byte} :
      c.files i = some file → outOfRange file.length off n →
      Spec c (.write i src off n) (some (-1, [])) c
  | written {i : Nat} {src : Nat → Byte} {off n : BitVec 32} {file : List Byte} {t : Nat}
      {c' : Contents} :
      c.files i = some file → ¬ outOfRange file.length off n → t ≤ n.toNat →
      (t = n.toNat ∨ c'.full) →
      c'.files = update c.files i (some (overwrite file off.toNat ((List.range t).map src))) →
      Spec c (.write i src off n) (some ((t : Int), [])) c'
  | read {i : Nat} {off n : BitVec 32} {file bytes : List Byte} :
      c.files i = some file → bytes = (file.take (off + n).toNat).drop off.toNat →
      Spec c (.read i off n) (some ((bytes.length : Int), bytes)) c
  | truncated {i : Nat} {file : List Byte} {c' : Contents} :
      c.files i = some file → c'.files = update c.files i (some []) →
      Spec c (.trunc i) (some (0, [])) c'

inductive SpecRun : List FileOp → Contents → List Result → Contents → Prop
  | nil (c : Contents) : SpecRun [] c [] c
  | cons {op : FileOp} {ops : List FileOp} {c c1 c2 : Contents} {r : Result} {rs : List Result} :
      FileOp.Spec c op r c1 → SpecRun ops c1 rs c2 → SpecRun (op :: ops) c (r :: rs) c2

theorem Store.file_free (h : (st.dinodes i).type = .free) : st.file i = none := if_pos h

theorem Store.file_alloc (h : (st.dinodes i).type ≠ .free) :
    st.file i = some ((st.dinodes i).contents st.data) := if_neg h

/-- Inode `i` has changed, the others keep their bytes. -/
theorem file_update (hdin : st'.dinodes = update st.dinodes i ip) (ht : ip.type ≠ .free)
    (hothers : ∀ j, j ≠ i → (st.dinodes j).type ≠ .free →
      (st.dinodes j).contents st'.data = (st.dinodes j).contents st.data) :
    st'.file = update st.file i (some (ip.contents st'.data)) := by
  funext j
  unfold Store.file
  rw [hdin]
  by_cases e : j = i
  · rw [e, update_self, update_self, if_neg ht]
  · rw [update_of_ne e, update_of_ne e]
    split
    · rfl
    · rename_i hj
      rw [hothers j e hj]

theorem refuses_iff (ip : Dinode) (off n : BitVec 32) :
    ip.refuses off.toNat n.toNat ↔ outOfRange ip.size off n := by
  unfold Dinode.refuses outOfRange
  rw [BitVec.lt_def, BitVec.toNat_add]

/-- The bytes up to `off + n`, which may have wrapped. -/
theorem bytes_readable (ip : Dinode) (data : Nat → Block) (off n : BitVec 32) :
    ip.bytes data off.toNat (ip.readable off.toNat n.toNat) =
      ((ip.contents data).take (off + n).toNat).drop off.toNat := by
  unfold Dinode.readable
  rw [BitVec.toNat_add]
  by_cases hc : off.toNat > ip.size ∨ (off.toNat + n.toNat) % 2 ^ 32 < off.toNat
  · rw [if_pos hc, List.drop_eq_nil_of_le]
    · rfl
    · rw [List.length_take, Dinode.contents_length]
      omega
  · rw [if_neg hc, Dinode.bytes_eq _ _ (by omega)]
    have hmod : (off.toNat + n.toNat) % 2 ^ 32 = off.toNat + n.toNat := by omega
    rw [hmod]
    rcases Nat.le_total (off.toNat + n.toNat) ip.size with hle | hle
    · rw [Nat.min_eq_left (by omega)]
    · rw [Nat.min_eq_right (by omega), List.take_of_length_le (l := ip.contents data) (by
        rw [Dinode.contents_length]
        omega), List.take_of_length_le (by
        rw [Dinode.contents_length]
        omega)]

section

variable (h : Owned sb st.dinodes st)
include h

theorem writeOp_spec (i : Nat) (src : Nat → Byte)
    (off n : BitVec 32) :
    Total (fileOp sb (.write i src off n)) st fun r st' =>
      Owned sb st'.dinodes st' ∧
      FileOp.Spec (st.contents sb) (.write i src off n) r (st'.contents sb) := by
  refine meets_read (meets_ite (fun hfree => ?_) (fun ht => ?_))
  · exact meets_pure ⟨h, .free (Store.file_free hfree)⟩
  · have hfile : (st.contents sb).files i = some _ := Store.file_alloc ht
    refine (writei_spec h ht _ _ _).seq fun ⟨r, ip⟩ st' hr => ?_
    rw [refuses_iff, ← Dinode.contents_length _ st.data] at hr
    rcases hr with ⟨href, hr, rfl⟩ | ⟨href, t, rfl, hw⟩
    · obtain ⟨rfl, rfl⟩ := Prod.mk.inj hr
      exact meets_pure ⟨h, .refused hfile href⟩
    · dsimp only at hw
      have hgood : n.toNat ≤ (Src.kernel ((List.range n.toNat).map src)).good := by
        simp [Src.kernel]
      have hbytes : (Src.kernel ((List.range n.toNat).map src)).bytes.take t =
          (List.range t).map src := by
        rw [Src.kernel, ← List.map_take, List.take_range, Nat.min_eq_left hw.le]
      have htype : ip.type ≠ .free := by
        obtain ⟨addrs, hip⟩ := hw.same
        rw [hip]
        exact ht
      have hoff : off.toNat ≤ (st.dinodes i).size := by
        rw [Dinode.contents_length] at href
        exact Nat.not_lt.mp fun hgt => href (.inl hgt)
      refine meets_pure ⟨hw.dinodes ▸ hw.owned, .written hfile href hw.le (hw.all hgood) ?_⟩
      rw [← hbytes, ← hw.contents hgood hoff]
      exact file_update hw.dinodes htype hw.others

theorem readOp_spec (i : Nat) (off n : BitVec 32) :
    Total (fileOp sb (.read i off n)) st fun r st' =>
      Owned sb st'.dinodes st' ∧
      FileOp.Spec (st.contents sb) (.read i off n) r (st'.contents sb) := by
  refine meets_read (meets_ite (fun hfree => ?_) (fun ht => ?_))
  · exact meets_pure ⟨h, .free (Store.file_free hfree)⟩
  · refine (readi_spec h ht _ _ _).seq fun ⟨r, bytes, ip⟩ st' ⟨_, hst, hr⟩ => ?_
    dsimp only at hst hr ⊢
    subst hst
    obtain ⟨hr, hbytes⟩ := hr (Nat.le_refl _)
    have hlen : ((st'.dinodes i).readable off.toNat n.toNat : Int) = bytes.length := by
      rw [hbytes, Dinode.bytes_length]
    rw [hr, hlen]
    exact meets_pure ⟨h, .read (Store.file_alloc ht) (hbytes.trans (bytes_readable ..))⟩

theorem truncOp_spec (i : Nat) :
    Total (fileOp sb (.trunc i)) st fun r st' =>
      Owned sb st'.dinodes st' ∧ FileOp.Spec (st.contents sb) (.trunc i) r (st'.contents sb) := by
  refine meets_read (meets_ite (fun hfree => ?_) (fun ht => ?_))
  · exact meets_pure ⟨h, .free (Store.file_free hfree)⟩
  · refine (itrunc_spec h ht).seq fun ip st' ⟨hip, hown, hdata, hdin, _⟩ => ?_
    have htype : ip.type ≠ .free := by
      rw [hip]
      exact ht
    refine meets_pure ⟨hdin ▸ hown, .truncated (Store.file_alloc ht) ?_⟩
    have hempty : ip.contents st'.data = [] := by
      rw [hip]
      rfl
    rw [← hempty]
    exact file_update hdin htype fun j _ _ => by rw [hdata]

theorem fileOp_spec (op : FileOp) :
    Total (fileOp sb op) st fun r st' =>
      Owned sb st'.dinodes st' ∧ FileOp.Spec (st.contents sb) op r (st'.contents sb) := by
  cases op with
  | write i src off n => exact writeOp_spec h i src off n
  | read i off n => exact readOp_spec h i off n
  | trunc i => exact truncOp_spec h i

end

/-- A file system as `mkfs` or a shutdown leaves it, as far as blocks are
concerned. -/
structure Image (sb : Superblock) where
  store : Store
  owned : Owned sb store.dinodes store

theorem fileOps_spec (ops : List FileOp) : ∀ {st : Store}, Owned sb st.dinodes st →
    Total (fileOps sb ops) st fun rs st' =>
      Owned sb st'.dinodes st' ∧ SpecRun ops (st.contents sb) rs (st'.contents sb) := by
  induction ops with
  | nil => exact fun h => meets_pure ⟨h, .nil _⟩
  | cons op ops ih =>
    intro st h
    refine (fileOp_spec h op).seq fun r st1 ⟨h1, hspec⟩ => ?_
    refine (ih h1).seq fun rs st2 ⟨h2, hrun⟩ => ?_
    exact meets_pure ⟨h2, .cons hspec hrun⟩

/-- Writes, reads and truncations of any inodes do to blocks what they do to
byte lists. -/
theorem contents_refine_byte_lists (img : Image sb) (ops : List FileOp) :
    Total (fileOps sb ops) img.store fun rs st' =>
      SpecRun ops (img.store.contents sb) rs (st'.contents sb) :=
  (fileOps_spec ops img.owned).imp fun _ _ h => h.2

end Xv6.Files
