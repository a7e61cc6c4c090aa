/-
Xv6.Files.EntryTheorems — directory entries as a view of the disk.

`Store.view` is the disk without its blocks: for each inode its type, its
link count and, for a directory, its entries. What the functions on inodes do
to the disk is a small change of the view: an entry is written, a link count
changes, an inode appears or is freed. Writes to files do not show at all.
§1 bytes of an entry, §2 the view, §3 changes.
-/
import Mathlib.Data.List.TakeWhile
import Xv6.Files.TableTheorems

namespace Xv6.Files

open Xv6.Lib Function

variable {sb : Superblock} {st st' : Store} {i d k : Nat} {ip : Dinode} {src : Src}

/-! ## §1 Bytes of an entry -/

theorem takeWhile_pad (l : List Byte) (n : Nat) :
    (l ++ List.replicate n 0).takeWhile (· ≠ 0) = l.takeWhile (· ≠ 0) := by
  induction l with
  | nil => cases n <;> simp [List.replicate]
  | cons a l ih =>
    rw [List.cons_append, List.takeWhile_cons, List.takeWhile_cons, ih]

/-- What is written for a name is read as its significant part. -/
theorem nameOf_pad (name : Name) :
    nameOf (name.take dirsiz ++ List.replicate (dirsiz - name.length) 0) = nameOf name := by
  have hlen : (name.take dirsiz ++ List.replicate (dirsiz - name.length) (0 : Byte)).length ≤
      dirsiz := by
    rw [List.length_append, List.length_take, List.length_replicate]
    omega
  unfold nameOf
  rw [List.take_of_length_le hlen, takeWhile_pad]

theorem nameOf_nameOf (name : Name) : nameOf (nameOf name) = nameOf name := by
  unfold nameOf
  have hle : ((name.take dirsiz).takeWhile (· ≠ 0)).length ≤ dirsiz :=
    Nat.le_trans (List.takeWhile_sublist _).length_le (by rw [List.length_take]; omega)
  rw [List.take_of_length_le hle, List.takeWhile_idem]

theorem sameName_nameOf (s t : Name) : sameName (nameOf s) t = sameName s t := by
  unfold sameName
  rw [nameOf_nameOf]

theorem sameName_comm (s t : Name) : sameName s t = sameName t s := by
  exact decide_eq_decide.mpr eq_comm

theorem sameName_trans {s t u : Name} (h : sameName s t = true) (h' : sameName t u = true) :
    sameName s u = true :=
  decide_eq_true ((of_decide_eq_true h).trans (of_decide_eq_true h'))

theorem direntBytes_length (inum : Nat) (name : Name) :
    (direntBytes inum name).length = direntSize := by
  unfold direntBytes direntSize
  rw [List.length_append, List.length_append, List.length_take, List.length_replicate]
  simp only [List.length_cons, List.length_nil, dirsiz]
  omega

theorem direntOf_direntBytes (inum : Nat) (name : Name) :
    direntOf (direntBytes inum name) = ⟨inum % 2 ^ 16, nameOf name⟩ := by
  unfold direntOf direntBytes
  simp only [List.cons_append, List.nil_append, List.getD_cons_zero, List.getD_cons_succ,
    List.drop_succ_cons, List.drop_zero, nameOf_pad, BitVec.toNat_ofNat]
  congr 1
  omega

/-! ## §2 The view -/

/-- Entry `k` of directory `d`. -/
def Store.entry (st : Store) (d k : Nat) : Option Dirent :=
  if (st.dinodes d).type = .dir ∧ (k + 1) * direntSize ≤ (st.dinodes d).size then
    some (direntOf ((st.dinodes d).bytes st.data (k * direntSize) direntSize))
  else none

structure View where
  type : Nat → FileType
  nlink : Nat → BitVec 16
  entry : Nat → Nat → Option Dirent

def Store.view (st : Store) : View where
  type i := (st.dinodes i).type
  nlink i := (st.dinodes i).nlink
  entry := st.entry

/-- Entry `k` of directory `d` is `de` now. -/
def View.setEntry (v : View) (d k : Nat) (de : Dirent) : View :=
  { v with entry := update v.entry d (update (v.entry d) k (some de)) }

def View.setNlink (v : View) (i : Nat) (n : BitVec 16) : View :=
  { v with nlink := update v.nlink i n }

/-- A new inode, which has no links yet. -/
def View.alloc (v : View) (i : Nat) (type : FileType) : View where
  type := update v.type i type
  nlink := update v.nlink i 0
  entry := update v.entry i fun _ => none

def View.free (v : View) (i : Nat) : View :=
  { v with type := update v.type i .free, entry := update v.entry i fun _ => none }

section

variable (v : View)

theorem entry_setEntry_self (d k : Nat) (de : Dirent) :
    (v.setEntry d k de).entry d k = some de := by
  simp [View.setEntry]

theorem entry_setEntry_dir {d' : Nat} (h : d' ≠ d) (k : Nat) (de : Dirent) :
    (v.setEntry d k de).entry d' = v.entry d' := by
  simp [View.setEntry, h]

theorem entry_setEntry_ne {k' : Nat} (h : k' ≠ k) (d : Nat) (de : Dirent) :
    (v.setEntry d k de).entry d k' = v.entry d k' := by
  simp [View.setEntry, h]

theorem entry_alloc_self (i k : Nat) (type : FileType) : (v.alloc i type).entry i k = none := by
  simp [View.alloc]

theorem entry_alloc_ne (h : d ≠ i) (type : FileType) : (v.alloc i type).entry d = v.entry d := by
  simp [View.alloc, h]

theorem entry_free_self (i k : Nat) : (v.free i).entry i k = none := entry_alloc_self v i k .free

theorem entry_free_ne (h : d ≠ i) : (v.free i).entry d = v.entry d := entry_alloc_ne v h .free

end

theorem entry_none (h : (st.dinodes d).type ≠ .dir) (k : Nat) : st.entry d k = none :=
  if_neg fun hc => h hc.1

theorem entry_some {de : Dirent} (h : st.entry d k = some de) :
    (st.dinodes d).type = .dir ∧ (k + 1) * direntSize ≤ (st.dinodes d).size ∧
      de = direntOf ((st.dinodes d).bytes st.data (k * direntSize) direntSize) := by
  unfold Store.entry at h
  split at h
  · rename_i hc
    exact ⟨hc.1, hc.2, (Option.some.inj h).symm⟩
  · cases h

/-- The same contents: the same entries. -/
theorem entry_congr (htype : (st'.dinodes d).type = (st.dinodes d).type)
    (hsize : (st'.dinodes d).size = (st.dinodes d).size)
    (hbytes : (st.dinodes d).type = .dir →
      (st'.dinodes d).contents st'.data = (st.dinodes d).contents st.data) :
    st'.entry d = st.entry d := by
  funext k
  unfold Store.entry
  rw [htype, hsize]
  by_cases hc : (st.dinodes d).type = .dir ∧ (k + 1) * direntSize ≤ (st.dinodes d).size
  · have hle : k * direntSize + direntSize ≤ (st.dinodes d).size := by
      rw [← Nat.succ_mul]
      exact hc.2
    rw [if_pos hc, if_pos hc, Dinode.bytes_eq _ _ (hsize.symm ▸ hle), Dinode.bytes_eq _ _ hle,
      hbytes hc.1]
  · rw [if_neg hc, if_neg hc]

/-! ## §3 Changes -/

/-- Inode `i` has changed and the other inodes keep their contents. -/
theorem entry_other (hdin : st'.dinodes = update st.dinodes i ip)
    (hothers : ∀ j, j ≠ i → (st.dinodes j).type ≠ .free →
      (st.dinodes j).contents st'.data = (st.dinodes j).contents st.data) (hd : d ≠ i) :
    st'.entry d = st.entry d := by
  have hsame : st'.dinodes d = st.dinodes d := by rw [hdin, update_of_ne hd]
  refine entry_congr (by rw [hsame]) (by rw [hsame]) fun ht => ?_
  rw [hsame]
  exact hothers d hd (by rw [ht]; nofun)

theorem view_ext {v w : View} (ht : v.type = w.type) (hn : v.nlink = w.nlink)
    (he : v.entry = w.entry) : v = w := by
  cases v
  cases w
  cases ht
  cases hn
  cases he
  rfl

/-- The fields of one inode, as the view has them. -/
theorem view_update (hdin : st'.dinodes = update st.dinodes i ip) :
    st'.view.type = update st.view.type i ip.type ∧
      st'.view.nlink = update st.view.nlink i ip.nlink := by
  constructor
  · funext j
    show (st'.dinodes j).type = _
    rw [hdin]
    by_cases h : j = i
    · rw [h, update_self, update_self]
    · rw [update_of_ne h, update_of_ne h]
      rfl
  · funext j
    show (st'.dinodes j).nlink = _
    rw [hdin]
    by_cases h : j = i
    · rw [h, update_self, update_self]
    · rw [update_of_ne h, update_of_ne h]
      rfl

theorem update_self_eq {α : Type} (f : Nat → α) {a : α} (h : a = f i) : update f i a = f := by
  rw [h, update_eq_self]

/-- A link count changes. -/
theorem view_setNlink (htype : ip.type = (st.dinodes i).type)
    (hsize : ip.size = (st.dinodes i).size) (haddrs : ip.addrs = (st.dinodes i).addrs) :
    (st.setDinode i ip).view = st.view.setNlink i ip.nlink := by
  have hdin : (st.setDinode i ip).dinodes = update st.dinodes i ip := rfl
  obtain ⟨ht, hn⟩ := view_update hdin
  refine view_ext ?_ hn ?_
  · rw [ht]
    exact update_self_eq st.view.type htype
  · funext d
    have hself : (st.setDinode i ip).dinodes i = ip := update_self ..
    by_cases h : d = i
    · subst h
      refine entry_congr (by rw [hself, htype]) (by rw [hself, hsize]) fun _ => ?_
      rw [hself]
      simp only [Dinode.contents, Dinode.bytes, Dinode.byteAt, Dinode.blockAt, Dinode.ptr, hsize,
        haddrs]
      rfl
    · exact entry_other rfl (fun _ _ _ => rfl) h

/-- An inode that is not a directory has no entries before or after, and its
blocks do not show. -/
theorem view_hidden (hdin : st'.dinodes = update st.dinodes i ip)
    (hothers : ∀ j, j ≠ i → (st.dinodes j).type ≠ .free →
      (st.dinodes j).contents st'.data = (st.dinodes j).contents st.data)
    (htype : ip.type = (st.dinodes i).type) (hnlink : ip.nlink = (st.dinodes i).nlink)
    (hdir : (st.dinodes i).type ≠ .dir) : st'.view = st.view := by
  obtain ⟨ht, hn⟩ := view_update hdin
  have hself : st'.dinodes i = ip := by rw [hdin, update_self]
  refine view_ext ?_ ?_ ?_
  · rw [ht]
    exact update_self_eq st.view.type htype
  · rw [hn]
    exact update_self_eq st.view.nlink hnlink
  · funext d
    by_cases h : d = i
    · subst h
      funext k
      exact (entry_none (by rw [hself, htype]; exact hdir) k).trans (entry_none hdir k).symm
    · exact entry_other hdin hothers h

theorem view_free (hdin : st'.dinodes = update st.dinodes i (st.dinodes i).freed)
    (hdata : st'.data = st.data) : st'.view = st.view.free i := by
  obtain ⟨ht, hn⟩ := view_update hdin
  have hself : st'.dinodes i = (st.dinodes i).freed := by rw [hdin, update_self]
  refine view_ext ht ?_ ?_
  · rw [hn]
    exact update_self_eq st.view.nlink rfl
  · funext d
    by_cases h : d = i
    · subst h
      funext k
      rw [entry_free_self]
      exact entry_none (by rw [hself]; nofun) k
    · rw [entry_free_ne _ h]
      exact entry_other hdin (fun j _ _ => by rw [hdata]) h

theorem view_alloc (type : FileType) :
    (st.setDinode i { Dinode.zero with type := type }).view = st.view.alloc i type := by
  have hdin : (st.setDinode i { Dinode.zero with type := type }).dinodes =
      update st.dinodes i { Dinode.zero with type := type } := rfl
  obtain ⟨ht, hn⟩ := view_update hdin
  have hself : (st.setDinode i { Dinode.zero with type := type }).dinodes i =
      { Dinode.zero with type := type } := update_self ..
  refine view_ext ht hn ?_
  funext d
  by_cases h : d = i
  · subst h
    funext k
    rw [entry_alloc_self]
    refine if_neg fun hc => ?_
    rw [hself] at hc
    exact absurd hc.2 (by simp [Dinode.zero, direntSize])
  · rw [entry_alloc_ne _ h]
    exact entry_other rfl (fun _ _ _ => rfl) h

/-- A write to an inode that is not a directory. -/
theorem Wrote.view_file {off n t : Nat} (h : Wrote sb i st.dinodes st src off n t ip st')
    (hdir : (st.dinodes i).type ≠ .dir) :
    st'.view = st.view := by
  obtain ⟨addrs, hip⟩ := h.same
  exact view_hidden h.dinodes h.others (by rw [hip]) (by rw [hip]) hdir

/-- Nothing was written. -/
theorem Wrote.view_none {off n : Nat} (h : Wrote sb i st.dinodes st src off n 0 ip st')
    (hgood : n ≤ src.good) (hoff : off ≤ (st.dinodes i).size) : st'.view = st.view := by
  obtain ⟨addrs, hip⟩ := h.same
  obtain ⟨ht, hn⟩ := view_update h.dinodes
  have hself : st'.dinodes i = ip := by rw [h.dinodes, update_self]
  have hsize : ip.size = (st.dinodes i).size := by
    rw [hip]
    dsimp only
    omega
  refine view_ext ?_ ?_ ?_
  · rw [ht]
    exact update_self_eq st.view.type (by rw [hip]; rfl)
  · rw [hn]
    exact update_self_eq st.view.nlink (by rw [hip]; rfl)
  · funext d
    by_cases hd : d = i
    · subst hd
      refine entry_congr (by rw [hself, hip]) (by rw [hself, hsize]) fun _ => ?_
      rw [hself, h.contents hgood hoff]
      simp [overwrite]
    · exact entry_other h.dinodes h.others hd

/-- The entry that was written, and the others. -/
theorem Wrote.bytes_entry
    (h : Wrote sb i st.dinodes st src (k * direntSize) direntSize direntSize ip st')
    (hgood : direntSize ≤ src.good) {l : Nat} (hl : (l + 1) * direntSize ≤ ip.size) :
    ip.bytes st'.data (l * direntSize) direntSize =
      if l = k then src.bytes.take direntSize
      else (st.dinodes i).bytes st.data (l * direntSize) direntSize := by
  have hfits := src.fits
  have hbyte : ∀ j, j < direntSize → ip.byteAt st'.data (l * direntSize + j) = _ :=
    fun j hj => h.bytes hgood _ (by rw [Nat.succ_mul] at hl; omega)
  unfold direntSize at *
  by_cases hlk : l = k
  · subst hlk
    rw [if_pos rfl]
    refine List.ext_getElem? fun j => ?_
    rw [Dinode.bytes, List.getElem?_map, List.getElem?_take]
    by_cases hj : j < 16
    · rw [List.getElem?_range hj, Option.map_some, hbyte j hj, if_pos (by omega), if_pos hj,
        Nat.add_sub_cancel_left, List.getD_eq_getElem?_getD, List.getElem?_eq_getElem (by omega),
        Option.getD_some]
    · rw [List.getElem?_eq_none (by rw [List.length_range]; omega), if_neg hj, Option.map_none]
  · rw [if_neg hlk]
    refine List.map_congr_left fun j hj => ?_
    rw [hbyte j (List.mem_range.mp hj), if_neg]
    have := List.mem_range.mp hj
    omega

/-- An entry was written. -/
theorem Wrote.view_entry
    (h : Wrote sb i st.dinodes st src (k * direntSize) direntSize direntSize ip st')
    (hgood : direntSize ≤ src.good) (hoff : k * direntSize ≤ (st.dinodes i).size)
    (hdir : (st.dinodes i).type = .dir) :
    st'.view = st.view.setEntry i k (direntOf (src.bytes.take direntSize)) := by
  obtain ⟨addrs, hip⟩ := h.same
  obtain ⟨ht, hn⟩ := view_update h.dinodes
  have hself : st'.dinodes i = ip := by rw [h.dinodes, update_self]
  refine view_ext ?_ ?_ ?_
  · rw [ht]
    exact update_self_eq st.view.type (by rw [hip]; rfl)
  · rw [hn]
    exact update_self_eq st.view.nlink (by rw [hip]; rfl)
  · funext d
    by_cases hd : d = i
    · subst hd
      funext l
      have hsize : ip.size = max (st.dinodes d).size (k * direntSize + direntSize) := by rw [hip]
      have htype : ip.type = .dir := by
        rw [hip]
        exact hdir
      show st'.entry d l = _
      unfold Store.entry
      rw [hself]
      by_cases hl : l = k
      · subst hl
        have hle : (l + 1) * direntSize ≤ ip.size := by
          rw [hsize, Nat.succ_mul]
          omega
        rw [entry_setEntry_self, if_pos ⟨htype, hle⟩, h.bytes_entry hgood hle, if_pos rfl]
      · rw [entry_setEntry_ne _ hl]
        show _ = st.entry d l
        unfold Store.entry
        have hiff : (l + 1) * direntSize ≤ ip.size ↔
            (l + 1) * direntSize ≤ (st.dinodes d).size := by
          rw [hsize]
          unfold direntSize at hoff ⊢
          omega
        by_cases hc : (l + 1) * direntSize ≤ ip.size
        · rw [if_pos ⟨htype, hc⟩, if_pos ⟨hdir, hiff.mp hc⟩, h.bytes_entry hgood hc, if_neg hl]
        · rw [if_neg fun hx => hc hx.2, if_neg fun hx => hc (hiff.mpr hx.2)]
    · rw [entry_setEntry_dir _ hd]
      exact entry_other h.dinodes h.others hd

end Xv6.Files
