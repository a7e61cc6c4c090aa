/-
Xv6.Files.TableTheorems — the inode table is a correct cache of the disk.

`Table sb g c s`: entry `e` of the table has `c e` references, entries in use
are of different inodes, and a valid copy is what the disk has. With `g`, no
entry in use is of a free inode, and an inode without links is in the table,
so that the last `iput` frees it; `g` is false in runs for which this cannot
be shown. §1 reference counts, §2 the invariant, §3 `iget`, `idup` and
`ilock`, §4 `iput`, §5 contents and fields of a locked inode.
-/
import Xv6.Files.ContentTheorems
import Xv6.Files.Dir

namespace Xv6.Files

open Xv6.Lib Function

/-! ## §1 Reference counts -/

/-- The references that are expected for each entry. -/
abbrev Cnt := Fin ninode → Nat

def more (c : Cnt) (e : Fin ninode) : Cnt := fun x => c x + if x = e then 1 else 0

def less (c : Cnt) (e : Fin ninode) : Cnt := fun x => c x - if x = e then 1 else 0

@[simp] theorem more_self (c : Cnt) (e : Fin ninode) : more c e e = c e + 1 := by simp [more]

variable {c : Cnt} {e x : Fin ninode} {st : Store} {E : Panic → Prop} {ip : Dinode}

theorem more_of_ne (h : x ≠ e) : more c e x = c x := by
  simp [more, h]

@[simp] theorem less_self (c : Cnt) (e : Fin ninode) : less c e e = c e - 1 := by simp [less]

theorem less_of_ne (h : x ≠ e) : less c e x = c x := by
  simp [less, h]

@[simp] theorem less_more (c : Cnt) (e : Fin ninode) : less (more c e) e = c := by
  funext x
  simp only [less, more]
  omega

theorem more_comm (c : Cnt) (a b : Fin ninode) : more (more c a) b = more (more c b) a := by
  funext x
  simp only [more]
  omega

theorem pos_more (h : 0 < c x) : 0 < more c e x := Nat.lt_of_lt_of_le h (Nat.le_add_right ..)

/-! ## §2 The invariant -/

structure Table (sb : Superblock) (g : Prop) (c : Cnt) (s : Fs) : Prop where
  owned : Owned sb s.store.dinodes s.store
  refs : ∀ e, (s.itable e).ref = c e
  sync : ∀ e, 0 < c e → (s.itable e).valid = true →
    (s.itable e).copy = s.store.dinodes (s.itable e).inum ∧
    (s.store.dinodes (s.itable e).inum).type ≠ .free
  uniq : ∀ e e', 0 < c e → 0 < c e' → (s.itable e).inum = (s.itable e').inum → e = e'
  live : g → ∀ e, 0 < c e → (s.store.dinodes (s.itable e).inum).type ≠ .free
  orphans : g → ∀ i, (s.store.dinodes i).type ≠ .free → (s.store.dinodes i).nlink = 0 →
    ∃ e, 0 < c e ∧ (s.itable e).valid = true ∧ (s.itable e).inum = i

/-- The panics that can happen. -/
structure Allowed (g : Prop) (e : Panic) : Prop where
  bitmap : e ≠ .freeingFree
  tree : g → e ≠ .noType ∧ e ≠ .unlinkNlink
  counts : e ∉ [.ilock, .filedup, .fileclose, .fileread, .filewrite]

variable {sb : Superblock} {g : Prop} {c c' : Cnt} {s s' : Fs} {e e' : Fin ninode} {i : Nat}
  {x : Inode}

theorem Allowed.other {e : Panic}
    (h : e ∉ [.freeingFree, .noType, .unlinkNlink, .ilock, .filedup, .fileclose, .fileread,
      .filewrite]) : Allowed g e := by
  cases e <;> simp at h <;> exact ⟨nofun, fun _ => ⟨nofun, nofun⟩, by decide⟩

theorem Allowed.noType (h : ¬ g) : Allowed g .noType := ⟨nofun, fun hg => absurd hg h, by decide⟩

/-- The entries in use still are of the same inodes, and what is valid stays
so. Inodes in use keep their types. -/
structure Keeps (c : Cnt) (s s' : Fs) : Prop where
  inum : ∀ e, 0 < c e → (s'.itable e).inum = (s.itable e).inum
  valid : ∀ e, 0 < c e → (s.itable e).valid = true → (s'.itable e).valid = true
  type : ∀ e, 0 < c e → (s.store.dinodes (s.itable e).inum).type ≠ .free →
    (s'.store.dinodes (s.itable e).inum).type = (s.store.dinodes (s.itable e).inum).type
  ftable : s'.ftable = s.ftable
  procs : s'.procs = s.procs

theorem Keeps.refl : Keeps c s s := ⟨fun _ _ => rfl, fun _ _ h => h, fun _ _ _ => rfl, rfl, rfl⟩

theorem Keeps.trans {s1 s2 : Fs} (h : Keeps c s s1) (h' : Keeps c' s1 s2)
    (hc : ∀ e, 0 < c e → 0 < c' e) : Keeps c s s2 where
  inum e he := (h'.inum e (hc e he)).trans (h.inum e he)
  valid e he hv := h'.valid e (hc e he) (h.valid e he hv)
  type e he ht := by
    have h1 := h.type e he ht
    have h2 := h'.type e (hc e he)
    rw [h.inum e he, h1] at h2
    exact h2 ht
  ftable := h'.ftable.trans h.ftable
  procs := h'.procs.trans h.procs

theorem Keeps.mono (h : Keeps c s s') (hc : ∀ e, 0 < c' e → 0 < c e) : Keeps c' s s' :=
  ⟨fun e he => h.inum e (hc e he), fun e he => h.valid e (hc e he),
    fun e he => h.type e (hc e he), h.ftable, h.procs⟩

@[simp] theorem itable_setInode_self (s : Fs) (e : Fin ninode) (x : Inode) :
    (s.setInode e x).itable e = x := update_self ..

theorem itable_setInode_ne (s : Fs) (x : Inode) (h : e' ≠ e) :
    (s.setInode e x).itable e' = s.itable e' := update_of_ne h ..

/-- One entry changes, the disk does not. -/
theorem Table.setInode (h : Table sb g c s) (hself : x.ref = c' e)
    (hother : ∀ e', e' ≠ e → c' e' = c e')
    (hsync : 0 < c' e → x.valid = true →
      x.copy = s.store.dinodes x.inum ∧ (s.store.dinodes x.inum).type ≠ .free)
    (huniq : 0 < c' e → ∀ e', e' ≠ e → 0 < c e' → (s.itable e').inum ≠ x.inum)
    (hlive : g → 0 < c' e → (s.store.dinodes x.inum).type ≠ .free)
    (horphan : g → 0 < c e → (s.itable e).valid = true →
      (s.store.dinodes (s.itable e).inum).nlink = 0 →
      0 < c' e ∧ x.valid = true ∧ x.inum = (s.itable e).inum) :
    Table sb g c' (s.setInode e x) := by
  refine ⟨h.owned, fun e' => ?_, fun e' he hv => ?_, fun a b ha hb hab => ?_, fun hg e' he => ?_,
    fun hg i ht hn => ?_⟩
  · by_cases he : e' = e
    · rw [he, itable_setInode_self, hself]
    · rw [itable_setInode_ne _ _ he, hother e' he, h.refs]
  · by_cases hee : e' = e
    · subst hee
      rw [itable_setInode_self] at hv ⊢
      exact hsync he hv
    · rw [itable_setInode_ne _ _ hee] at hv ⊢
      exact h.sync e' (hother e' hee ▸ he) hv
  · by_cases hae : a = e <;> by_cases hbe : b = e
    · rw [hae, hbe]
    · subst hae
      rw [itable_setInode_self, itable_setInode_ne _ _ hbe] at hab
      exact absurd hab.symm (huniq ha b hbe (hother b hbe ▸ hb))
    · subst hbe
      rw [itable_setInode_self, itable_setInode_ne _ _ hae] at hab
      exact absurd hab (huniq hb a hae (hother a hae ▸ ha))
    · rw [itable_setInode_ne _ _ hae, itable_setInode_ne _ _ hbe] at hab
      exact h.uniq a b (hother a hae ▸ ha) (hother b hbe ▸ hb) hab
  · by_cases hee : e' = e
    · subst hee
      rw [itable_setInode_self]
      exact hlive hg he
    · rw [itable_setInode_ne _ _ hee]
      exact h.live hg e' (hother e' hee ▸ he)
  · obtain ⟨a, ha, hv, hi⟩ := h.orphans hg i ht hn
    by_cases hae : a = e
    · subst hae
      obtain ⟨h1, h2, h3⟩ := horphan hg ha hv (by rw [hi]; exact hn)
      exact ⟨a, h1, by rw [itable_setInode_self, h2], by rw [itable_setInode_self, h3, hi]⟩
    · exact ⟨a, (hother a hae).symm ▸ ha, by rw [itable_setInode_ne _ _ hae, hv],
        by rw [itable_setInode_ne _ _ hae, hi]⟩

theorem Keeps.setInode (hinum : 0 < c e → x.inum = (s.itable e).inum)
    (hvalid : 0 < c e → (s.itable e).valid = true → x.valid = true) :
    Keeps c s (s.setInode e x) := by
  refine ⟨fun e' he => ?_, fun e' he hv => ?_, fun _ _ _ => rfl, rfl, rfl⟩
  · by_cases hee : e' = e
    · subst hee
      rw [itable_setInode_self, hinum he]
    · rw [itable_setInode_ne _ _ hee]
  · by_cases hee : e' = e
    · subst hee
      rw [itable_setInode_self]
      exact hvalid he hv
    · rw [itable_setInode_ne _ _ hee]
      exact hv

/-- The disk changes first, except for the inodes in use. -/
theorem Keeps.store (h : Keeps c { s with store := st } s')
    (hst : ∀ e, 0 < c e → (s.store.dinodes (s.itable e).inum).type ≠ .free →
      st.dinodes (s.itable e).inum = s.store.dinodes (s.itable e).inum) : Keeps c s s' := by
  refine ⟨h.inum, h.valid, fun e he ht => ?_, h.ftable, h.procs⟩
  have hty : ({ s with store := st } : Fs).store.dinodes (s.itable e).inum = _ := hst e he ht
  have := h.type e he
  rw [show (({ s with store := st } : Fs).itable e).inum = (s.itable e).inum from rfl, hty] at this
  exact this ht

/-! ## §3 `iget`, `idup` and `ilock` -/

theorem meets_modifyInode {f : Inode → Inode} {Q : Unit → Fs → Prop}
    (h : Q () (s.setInode e (f (s.itable e)))) : Meets E (modifyInode e f) s Q :=
  meets_modify h

theorem meets_getInode {Q : Inode → Fs → Prop} (h : Q (s.itable e) s) :
    Meets E (getInode e) s Q :=
  meets_read (meets_pure h)

section

variable (h : Table sb g c s)
include h

/-- One more reference to an entry in use. -/
theorem Table.dup (he : 0 < c e) :
    Table sb g (more c e) (s.setInode e { s.itable e with ref := (s.itable e).ref + 1 }) ∧
      Keeps c s (s.setInode e { s.itable e with ref := (s.itable e).ref + 1 }) := by
  constructor
  · refine h.setInode ?_ (fun _ hne => more_of_ne hne) (fun _ hv => h.sync e he hv)
      (fun _ e' hne he' heq => hne (h.uniq e' e he' he heq)) (fun hg _ => h.live hg e he)
      (fun _ _ hv _ => ⟨?_, hv, rfl⟩)
    · simp [h.refs]
    · simp
  · exact .setInode (fun _ => rfl) fun _ hv => hv

theorem idup_spec (he : 0 < c e) :
    Meets E (idup e) s fun r s' =>
      r = e ∧ Table sb g (more c e) s' ∧ Keeps c s s' ∧ s'.store = s.store ∧
      (s'.itable e).inum = (s.itable e).inum :=
  Meets.bind (meets_modifyInode (meets_pure ⟨rfl, (h.dup he).1, (h.dup he).2, rfl, by simp⟩))

/-- The entry is the one in use for this inode, if there is one; `iget` panics
if every entry is in use. -/
theorem iget_meets (inum : Nat)
    (hlive : g → (s.store.dinodes inum).type ≠ .free) (hE : (∀ e, 0 < c e) → E .noInodes) :
    Meets E (iget inum) s fun e s' =>
      Table sb g (more c e) s' ∧ Keeps c s s' ∧ s'.store = s.store ∧
      (s'.itable e).inum = inum ∧
      ((∀ e', 0 < c e' → (s.itable e').inum ≠ inum) → c e = 0) ∧
      (c e = 0 → (s'.itable e).valid = false) := by
  refine meets_read ?_
  cases hf : (List.finRange ninode).find? fun i =>
      0 < (s.itable i).ref ∧ (s.itable i).inum = inum with
  | some e =>
    have he : 0 < (s.itable e).ref ∧ (s.itable e).inum = inum := by
      simpa using List.find?_some hf
    rw [h.refs] at he
    refine Meets.bind (meets_modifyInode (meets_pure
      ⟨(h.dup he.1).1, (h.dup he.1).2, rfl, ?_, ?_, ?_⟩))
    · rw [itable_setInode_self]
      exact he.2
    · intro hnone
      exact absurd he.2 (hnone e he.1)
    · omega
  | none =>
    have hnone : ∀ e', 0 < c e' → (s.itable e').inum ≠ inum := by
      intro e' he' heq
      have := List.find?_eq_none.mp hf e' (List.mem_finRange _)
      rw [h.refs] at this
      simp [he', heq] at this
    cases hz : (List.finRange ninode).find? fun i => (s.itable i).ref = 0 with
    | none =>
      refine meets_throw (hE fun e => ?_)
      have hused := List.find?_eq_none.mp hz e (List.mem_finRange _)
      rw [h.refs] at hused
      simpa [Nat.pos_iff_ne_zero] using hused
    | some e =>
      have he : c e = 0 := by
        rw [← h.refs]
        simpa using List.find?_some hz
      have hpos : ¬ 0 < c e := by omega
      refine Meets.bind (meets_modifyInode (meets_pure ⟨?_, ?_, rfl, by simp, fun _ => he,
        fun _ => by simp⟩))
      · refine h.setInode (by simp [he]) (fun _ hne => more_of_ne hne) (fun _ hv => ?_)
          (fun _ e' _ he' => hnone e' he') (fun hg _ => hlive hg) (fun _ hc => absurd hc hpos)
        cases hv
      · exact .setInode (fun hc => absurd hc hpos) fun hc => absurd hc hpos

/-- `ilock` panics if the inode is free, and otherwise makes the copy valid. -/
theorem ilock_meets (he : 0 < c e)
    (hE : (s.store.dinodes (s.itable e).inum).type = .free → E .noType) :
    Meets E (ilock e) s fun _ s' =>
      Table sb g c s' ∧ Keeps c s s' ∧ s'.store = s.store ∧ (s'.itable e).valid = true := by
  refine meets_read ?_
  have href := h.refs e
  refine meets_ite (fun hlt => ?_) (fun _ => ?_)
  · omega
  · refine meets_ite (fun hv => ?_) (fun hv => ?_)
    · exact meets_pure ⟨h, .refl, rfl, hv⟩
    · refine Meets.bind (meets_modifyInode ?_)
      refine meets_ite (fun hfree => ?_) (fun hfree => ?_)
      · exact meets_throw (hE hfree)
      · refine meets_pure ⟨?_, ?_, rfl, by simp⟩
        · exact h.setInode href (fun _ _ => rfl) (fun _ _ => ⟨rfl, hfree⟩)
            (fun _ e' hne he' heq => hne (h.uniq e' e he' he heq)) (fun _ _ => hfree)
            (fun _ _ hv' => absurd hv' hv)
        · exact .setInode (fun _ => rfl) fun _ hv' => absurd hv' hv

theorem ilock_spec (he : 0 < c e) :
    Meets (Allowed g) (ilock e) s fun _ s' =>
      Table sb g c s' ∧ Keeps c s s' ∧ s'.store = s.store ∧ (s'.itable e).valid = true :=
  ilock_meets h he fun hfree => .noType fun hg => absurd hfree (h.live hg e he)

/-- The fields that `locked` returns are those on the disk. -/
theorem locked_meets (he : 0 < c e)
    (hE : (s.store.dinodes (s.itable e).inum).type = .free → E .noType) :
    Meets E (locked e) s fun d s' =>
      Table sb g c s' ∧ Keeps c s s' ∧ s'.store = s.store ∧ (s'.itable e).valid = true ∧
      d = s.store.dinodes (s.itable e).inum ∧ d.type ≠ .free := by
  refine (ilock_meets h he hE).seq fun _ s1 ⟨h1, hk, hst, hv⟩ => ?_
  refine Meets.bind (meets_getInode (meets_pure ⟨h1, hk, hst, hv, ?_⟩))
  have hsync := h1.sync e he hv
  rw [hst, hk.inum e he] at hsync
  rw [hsync.1]
  exact ⟨rfl, hsync.2⟩

theorem locked_spec (he : 0 < c e) :
    Meets (Allowed g) (locked e) s fun d s' =>
      Table sb g c s' ∧ Keeps c s s' ∧ s'.store = s.store ∧ (s'.itable e).valid = true ∧
      d = s.store.dinodes (s.itable e).inum ∧ d.type ≠ .free :=
  locked_meets h he fun hfree => .noType fun hg => absurd hfree (h.live hg e he)

end

/-! ## §4 `iput` -/

/-- Inode `i` has been freed, with all its blocks. -/
structure Freed (i : Nat) (s s' : Fs) : Prop where
  dinodes : s'.store.dinodes = update s.store.dinodes i (s.store.dinodes i).freed
  data : s'.store.data = s.store.data

/-- This was the last reference to an inode without links. -/
def Last (c : Cnt) (s : Fs) (e : Fin ninode) : Prop :=
  c e = 1 ∧ (s.itable e).valid = true ∧ (s.store.dinodes (s.itable e).inum).nlink = 0

/-- Other entries in use are for other inodes. -/
theorem Table.other (h : Table sb g c s) (he : 0 < c e)
    (hdin : st.dinodes = update s.store.dinodes (s.itable e).inum ip) (hne : e' ≠ e)
    (he' : 0 < c e') : st.dinodes (s.itable e').inum = s.store.dinodes (s.itable e').inum := by
  rw [hdin, update_of_ne]
  exact fun heq => hne (h.uniq e' e he' he heq)

/-- One reference less, to an inode that has others or links. -/
theorem Table.put (h : Table sb g c s) (he : 0 < c e) (hlast : ¬ Last c s e) :
    Table sb g (less c e) (s.setInode e { s.itable e with ref := (s.itable e).ref - 1 }) ∧
      Keeps (less c e) s (s.setInode e { s.itable e with ref := (s.itable e).ref - 1 }) := by
  constructor
  · refine h.setInode ?_ (fun _ hne => less_of_ne hne) (fun _ hv => h.sync e he hv)
      (fun _ e' hne he' heq => hne (h.uniq e' e he' he heq)) (fun hg _ => h.live hg e he)
      (fun _ _ hv hn => ⟨?_, hv, rfl⟩)
    · simp [h.refs]
    · rw [less_self]
      have : c e ≠ 1 := fun h1 => hlast ⟨h1, hv, hn⟩
      omega
  · exact .setInode (fun _ => rfl) fun _ hv => hv

/-- The entry is not in use any more and its inode is free. -/
theorem Table.free (h : Table sb g c s) (hlast : Last c s e) (hown : Owned sb st.dinodes st)
    (hdin : st.dinodes = update s.store.dinodes (s.itable e).inum
      (s.store.dinodes (s.itable e).inum).freed) (hx : x.ref = 0) :
    Table sb g (less c e) ({ s with store := st }.setInode e x) := by
  obtain ⟨h1, hv, hn⟩ := hlast
  have he : 0 < c e := by omega
  have hfree : (st.dinodes (s.itable e).inum).type = .free := by
    rw [hdin, update_self]
    rfl
  have hpos : ∀ {e'}, 0 < less c e e' → e' ≠ e ∧ 0 < c e' := by
    intro e' he'
    have hne : e' ≠ e := by
      rintro rfl
      rw [less_self] at he'
      omega
    rw [less_of_ne hne] at he'
    exact ⟨hne, he'⟩
  have hent : ∀ {e'}, e' ≠ e → ({ s with store := st }.setInode e x).itable e' = s.itable e' :=
    fun hne => update_of_ne hne ..
  refine ⟨hown, fun e' => ?_, fun e' he' hv' => ?_, fun a b ha hb hab => ?_, fun hg e' he' => ?_,
    fun hg j ht hz => ?_⟩
  · by_cases hee : e' = e
    · rw [hee, itable_setInode_self, less_self, hx, h1]
    · rw [hent hee, less_of_ne hee, h.refs]
  · obtain ⟨hne, hc⟩ := hpos he'
    rw [hent hne] at hv' ⊢
    show _ = st.dinodes _ ∧ (st.dinodes _).type ≠ .free
    rw [h.other he hdin hne hc]
    exact h.sync e' hc hv'
  · obtain ⟨hna, hca⟩ := hpos ha
    obtain ⟨hnb, hcb⟩ := hpos hb
    rw [hent hna, hent hnb] at hab
    exact h.uniq a b hca hcb hab
  · obtain ⟨hne, hc⟩ := hpos he'
    rw [hent hne]
    show (st.dinodes _).type ≠ .free
    rw [h.other he hdin hne hc]
    exact h.live hg e' hc
  · have hj : j ≠ (s.itable e).inum := fun heq => ht (heq ▸ hfree)
    have hjd : st.dinodes j = s.store.dinodes j := by rw [hdin, update_of_ne hj]
    replace ht : (s.store.dinodes j).type ≠ .free := hjd ▸ ht
    replace hz : (s.store.dinodes j).nlink = 0 := hjd ▸ hz
    obtain ⟨a, ha, hav, hai⟩ := h.orphans hg j ht hz
    have hne : a ≠ e := fun heq => hj (heq ▸ hai.symm)
    exact ⟨a, less_of_ne hne ▸ ha, by rw [hent hne, hav], by rw [hent hne, hai]⟩

theorem iput_spec (h : Table sb g c s) (he : 0 < c e) :
    Meets E (iput e) s fun _ s' =>
      Table sb g (less c e) s' ∧ Keeps (less c e) s s' ∧
      (Last c s e → Freed (s.itable e).inum s s') ∧ (¬ Last c s e → s'.store = s.store) := by
  refine Meets.bind (meets_getInode ?_)
  by_cases hlast : Last c s e
  · have hsync := h.sync e he hlast.2.1
    rw [if_pos ⟨(h.refs e).trans hlast.1, hlast.2.1, by rw [hsync.1]; exact hlast.2.2⟩, hsync.1]
    refine meets_focus_seq (itrunc_spec h.owned hsync.2) fun ip st ⟨hip, hown, hdata, hdin, _⟩ => ?_
    refine meets_focus_seq (meets_modify (Q := fun _ st' => st' = _) rfl) fun _ st' hst' => ?_
    refine Meets.bind (meets_modifyInode (meets_modifyInode ?_))
    subst hst' hip
    have hfreed : update st.dinodes (s.itable e).inum
        { (s.store.dinodes (s.itable e).inum).emptied with type := .free } =
        update s.store.dinodes (s.itable e).inum (s.store.dinodes (s.itable e).inum).freed := by
      rw [hdin, update_idem]
      rfl
    -- the two changes of the entry make one
    have hone : ∀ (r : Fs) (y z : Inode), (r.setInode e y).setInode e z = r.setInode e z := by
      intro r y z
      simp only [Fs.setInode, update_idem]
    rw [hone]
    have hown' := hown.free
    rw [← hfreed] at hown'
    refine ⟨h.free hlast (hown'.congr rfl rfl fun j hj => ⟨hj, rfl⟩) hfreed ?_, ?_,
      fun _ => ⟨hfreed, hdata⟩, fun hl => absurd hlast hl⟩
    · simp [h.refs, hlast.1]
    · have hz : ¬ 0 < less c e e := by
        rw [less_self, hlast.1]
        omega
      refine Keeps.store (.setInode (fun hc => absurd hc hz) fun hc => absurd hc hz)
        fun e' he' _ => ?_
      have hne : e' ≠ e := by
        rintro rfl
        exact hz he'
      rw [less_of_ne hne] at he'
      show update st.dinodes _ _ _ = _
      rw [hfreed, update_of_ne fun heq => hne (h.uniq e' e he' he heq)]
  · have hcond : ¬ ((s.itable e).ref = 1 ∧ (s.itable e).valid = true ∧
        (s.itable e).copy.nlink = 0) := by
      rintro ⟨h1, hv, hn⟩
      exact hlast ⟨(h.refs e).symm.trans h1, hv, (h.sync e he hv).1 ▸ hn⟩
    rw [if_neg hcond]
    exact meets_modifyInode ⟨(h.put he hlast).1, (h.put he hlast).2, fun hl => absurd hl hlast,
      fun _ => rfl⟩

/-! ## §5 Contents and fields of a locked inode -/

/-- The disk has changed, and the copy in entry `e` with it. -/
def Fs.change (s : Fs) (e : Fin ninode) (st : Store) : Fs :=
  { s with store := st }.setInode e { s.itable e with copy := st.dinodes (s.itable e).inum }

@[simp] theorem itable_change_self (s : Fs) (e : Fin ninode) (st : Store) :
    (s.change e st).itable e = { s.itable e with copy := st.dinodes (s.itable e).inum } :=
  update_self ..

theorem itable_change_ne (s : Fs) (st : Store) (h : e' ≠ e) :
    (s.change e st).itable e' = s.itable e' := update_of_ne h ..

theorem inum_change (s : Fs) (e e' : Fin ninode) (st : Store) :
    ((s.change e st).itable e').inum = (s.itable e').inum := by
  by_cases h : e' = e
  · rw [h, itable_change_self]
  · rw [itable_change_ne _ _ h]

theorem valid_change (s : Fs) (e e' : Fin ninode) (st : Store) :
    ((s.change e st).itable e').valid = (s.itable e').valid := by
  by_cases h : e' = e
  · rw [h, itable_change_self]
  · rw [itable_change_ne _ _ h]

/-- The inodes keep their types. -/
theorem Keeps.change (c : Cnt) (s : Fs) (e : Fin ninode)
    (htype : ∀ i, (st.dinodes i).type = (s.store.dinodes i).type) : Keeps c s (s.change e st) :=
  ⟨fun _ _ => inum_change .., fun _ _ hv => by rwa [valid_change], fun _ _ _ => htype _, rfl, rfl⟩

theorem type_update {ino : Nat → Dinode} (h : ip.type = (ino i).type) (j : Nat) :
    (update ino i ip j).type = (ino j).type := by
  by_cases e : j = i
  · rw [e, update_self, h]
  · rw [update_of_ne e]

theorem Wrote.types {st' : Store} {src : Src} {off n t : Nat}
    (h : Wrote sb i st.dinodes st src off n t ip st') (j : Nat) :
    (st'.dinodes j).type = (st.dinodes j).type := by
  obtain ⟨addrs, hip⟩ := h.same
  rw [h.dinodes]
  exact type_update (by rw [hip]) j

section

variable (h : Table sb g c s) (he : 0 < c e) (hv : (s.itable e).valid = true)
include h he hv

/-- The inode of entry `e` is `ip` now, on the disk and in the table. -/
theorem Table.change (hown : Owned sb st.dinodes st)
    (hdin : st.dinodes = update s.store.dinodes (s.itable e).inum ip) (ht : ip.type ≠ .free) :
    Table sb g c (s.change e st) := by
  have hself : st.dinodes (s.itable e).inum = ip := by rw [hdin, update_self]
  have hstore : (s.change e st).store = st := rfl
  refine ⟨hown, fun e' => ?_, fun e' he' hv' => ?_, fun a b ha hb hab => ?_, fun hg e' he' => ?_,
    fun hg j htj hz => ?_⟩
  · by_cases hee : e' = e
    · rw [hee, itable_change_self]
      exact h.refs e
    · rw [itable_change_ne _ _ hee]
      exact h.refs e'
  · rw [inum_change, hstore]
    by_cases hee : e' = e
    · rw [hee, itable_change_self, hself]
      exact ⟨rfl, ht⟩
    · rw [itable_change_ne _ _ hee] at hv' ⊢
      rw [h.other he hdin hee he']
      exact h.sync e' he' hv'
  · rw [inum_change, inum_change] at hab
    exact h.uniq a b ha hb hab
  · rw [inum_change, hstore]
    by_cases hee : e' = e
    · rw [hee, hself]
      exact ht
    · rw [h.other he hdin hee he']
      exact h.live hg e' he'
  · by_cases hj : j = (s.itable e).inum
    · exact ⟨e, he, by rw [valid_change, hv], by rw [inum_change, hj]⟩
    · have hjd : st.dinodes j = s.store.dinodes j := by rw [hdin, update_of_ne hj]
      obtain ⟨a, ha, hav, hai⟩ := h.orphans hg j (hjd ▸ htj) (hjd ▸ hz)
      exact ⟨a, ha, by rw [valid_change, hav], by rw [inum_change, hai]⟩

theorem readInode_spec (good off n : Nat) :
    Meets E (readInode sb e good off n) s fun r s' =>
      s' = s ∧ (n ≤ good →
        r.1 = (s.store.dinodes (s.itable e).inum).readable off n ∧
        r.2 = (s.store.dinodes (s.itable e).inum).bytes s.store.data off
          ((s.store.dinodes (s.itable e).inum).readable off n)) := by
  obtain ⟨hcopy, ht⟩ := h.sync e he hv
  refine Meets.bind (meets_getInode ?_)
  rw [hcopy]
  refine meets_focus_seq (readi_spec h.owned ht good off n) fun ⟨r, bytes, ip⟩ st hr => ?_
  obtain ⟨rfl, rfl, hbytes⟩ := hr
  refine Meets.bind (meets_modifyInode (meets_pure ⟨?_, hbytes⟩))
  rw [← hcopy]
  show { s with itable := update s.itable e (s.itable e) } = s
  rw [update_eq_self]

theorem writeInode_meets (src : Src) (off n : Nat) :
    Meets E (writeInode sb e src off n) s fun r s' =>
      (s.store.dinodes (s.itable e).inum).refuses off n ∧ r = -1 ∧ s' = s ∨
      ∃ (t : Nat) (ip : Dinode) (st : Store), r = t ∧ s' = s.change e st ∧
        off ≤ (s.store.dinodes (s.itable e).inum).size ∧
        Wrote sb (s.itable e).inum s.store.dinodes s.store src off n t ip st ∧
        Table sb g c (s.change e st) := by
  obtain ⟨hcopy, ht⟩ := h.sync e he hv
  refine Meets.bind (meets_getInode ?_)
  rw [hcopy]
  refine meets_focus_seq (writei_spec h.owned ht src off n) fun ⟨r, ip⟩ st hr => ?_
  dsimp only at hr ⊢
  refine Meets.bind (meets_modifyInode (meets_pure ?_))
  rcases hr with ⟨href, hr, rfl⟩ | ⟨href, t, rfl, hw⟩
  · obtain ⟨rfl, rfl⟩ := Prod.mk.inj hr
    refine .inl ⟨href, rfl, ?_⟩
    rw [← hcopy]
    show { s with itable := update s.itable e (s.itable e) } = s
    rw [update_eq_self]
  · have hself : st.dinodes (s.itable e).inum = ip := by rw [hw.dinodes, update_self]
    have htype : ip.type ≠ .free := by
      obtain ⟨addrs, hip⟩ := hw.same
      rw [hip]
      exact ht
    refine .inr ⟨t, ip, st, rfl, ?_, Nat.not_lt.mp fun hgt => href (.inl hgt), hw,
      h.change he hv (hw.dinodes ▸ hw.owned) hw.dinodes htype⟩
    rw [Fs.change, hself]

end

/-- Inode `i` is `ip`, and no block has changed. -/
def Store.setDinode (st : Store) (i : Nat) (ip : Dinode) : Store :=
  { st with dinodes := update st.dinodes i ip }

/-- A change of fields that leaves type, size and addresses alone. -/
theorem updateInode_spec (h : Table sb g c s) (he : 0 < c e) (hv : (s.itable e).valid = true)
    {f : Dinode → Dinode}
    (hf : ∀ d, (f d).type = d.type ∧ (f d).size = d.size ∧ (f d).addrs = d.addrs) :
    Meets E (updateInode e f) s fun _ s' =>
      s' = s.change e (s.store.setDinode (s.itable e).inum
        (f (s.store.dinodes (s.itable e).inum))) ∧ Table sb g c s' := by
  obtain ⟨hcopy, ht⟩ := h.sync e he hv
  obtain ⟨hft, hfs, hfa⟩ := hf (s.store.dinodes (s.itable e).inum)
  have hown := h.owned.retype hfa hfs (.inl hft)
  refine Meets.bind (meets_getInode
    (Meets.bind (meets_modifyInode (meets_focus (meets_modify ?_)))))
  have hs : ({ s.setInode e { s.itable e with copy := f (s.itable e).copy } with
      store := s.store.setDinode (s.itable e).inum (f (s.itable e).copy) } : Fs) =
      s.change e (s.store.setDinode (s.itable e).inum
        (f (s.store.dinodes (s.itable e).inum))) := by
    rw [hcopy]
    simp only [Fs.change, Store.setDinode, update_self]
    rfl
  have htable : Table sb g c (s.change e (s.store.setDinode (s.itable e).inum
      (f (s.store.dinodes (s.itable e).inum)))) :=
    h.change he hv (hown.congr rfl rfl fun j hj => ⟨hj, rfl⟩) rfl (hft.symm ▸ ht)
  exact ⟨hs, Eq.subst (motive := Table sb g c) hs.symm htable⟩

theorem truncInode_spec (h : Table sb g c s) (he : 0 < c e) (hv : (s.itable e).valid = true) :
    Meets E (truncInode e) s fun _ s' =>
      ∃ st, s' = s.change e st ∧ st.data = s.store.data ∧
        st.dinodes = update s.store.dinodes (s.itable e).inum
          (s.store.dinodes (s.itable e).inum).emptied ∧ Table sb g c s' := by
  obtain ⟨hcopy, ht⟩ := h.sync e he hv
  refine Meets.bind (meets_getInode ?_)
  rw [hcopy]
  refine meets_focus_seq (itrunc_spec h.owned ht) fun ip st ⟨hip, hown, hdata, hdin, _⟩ => ?_
  refine meets_modifyInode ?_
  subst hip
  have hself : st.dinodes (s.itable e).inum = (s.store.dinodes (s.itable e).inum).emptied := by
    rw [hdin, update_self]
  have hs : ({ s with store := st }.setInode e { s.itable e with
      copy := (s.store.dinodes (s.itable e).inum).emptied } : Fs) = s.change e st := by
    rw [Fs.change, hself]
  exact ⟨st, hs, hdata, hdin, hs ▸ h.change he hv (hdin ▸ hown) hdin ht⟩

end Xv6.Files
