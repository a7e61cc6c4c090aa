/-
Xv6.Files.Undone — what a failed `link`, `unlink`, `mkdir` or `mknod` leaves.

The undo paths have been followed in `Xv6.Files.LinkTheorems` and
`Xv6.Files.CreateTheorems`: each inode is as it was, or is free and was free
before or had no links (`Fade`). Here this becomes a result about every
reachable state.
-/
import Xv6.Files.Paths

namespace Xv6.Files

open Xv6.Lib
open Xv6.Vm (nproc)

variable {sb : Superblock} {c : Cnt} {s s' : Fs} {e : Fin ninode} {p : Fin nproc} {x : FProc}
  {v v' w : View} {st st' : Store} {d i j : Nat} {type : FileType}

/-- The calls that make or remove names. -/
def Call.naming : Call → Bool
  | .link _ _ | .unlink _ | .mkdir _ | .mknod _ _ _ => true
  | _ => false

theorem make_undone (h : Ready sb False c p x s) (ha : Alive c s) (path : Option (List Byte))
    (htype : type ≠ .free) (major minor : BitVec 16) :
    Returns (make sb p path type major minor) s
      fun r s' => r = -1 → ∀ j, Fade s.view s'.view j := by
  unfold make
  split
  · exact meets_pure fun _ => .refl _
  · refine (create_spec h False.elim _ htype major minor).returns.seq fun r s1 ⟨_, h1⟩ => ?_
    cases r with
    | none => exact meets_pure fun _ => h1 ha rfl
    | some ip =>
      exact (returns_any _ _).seq fun _ _ _ => meets_pure fun hr => absurd hr (by decide)

theorem naming_undone (h : Ready sb False c p x s) (ha : Alive c s) {a : Call}
    (hn : a.naming = true) :
    Returns (call sb p a) s fun r s' => r = -1 → ∀ j, Fade s.view s'.view j := by
  cases a with
  | link old new => exact (sysLink_spec h False.elim old new).returns.imp fun _ _ h' => h'.undone
  | unlink path => exact (sysUnlink_spec h False.elim path).returns.imp fun _ _ h' => h'.undone
  | mkdir path => exact make_undone h ha path (by decide) 0 0
  | mknod path major minor => exact make_undone h ha path (by decide) major minor
  | _ => cases hn

/-- The first entry with a name depends on the entries only. -/
theorem find_congr (h : st'.entry d = st.entry d) (x : Name) : st'.find d x = st.find d x := by
  have hat : st'.hasAt d x = st.hasAt d x := by
    funext k
    rw [Store.hasAt, Store.hasAt, h]
  have hmem : ∀ {k}, st.hasAt d x k = true →
      k ∈ List.range (((st'.dinodes d).size + direntSize - 1) / direntSize) := fun hk => by
    obtain ⟨de, hde, _⟩ := hasAt_iff.mp hk
    rw [← h] at hde
    exact mem_range_of_entry hde
  unfold Store.find
  rw [hat]
  cases hf : st.find d x with
  | none =>
    rw [show List.find? _ _ = none from hf, List.find?_eq_none]
    intro k _ hk
    obtain ⟨de, hde, hhas⟩ := hasAt_iff.mp hk
    exact find_none hf k de hde hhas
  | some k =>
    rw [show List.find? _ _ = some k from hf, List.find?_range_eq_some]
    have hfirst := List.find?_range_eq_some.mp hf
    exact ⟨hfirst.1, hmem hfirst.1, hfirst.2.2⟩

theorem lookup_congr (h : st'.entry d = st.entry d) (x : Name) :
    st'.lookup d x = st.lookup d x := by
  rw [Store.lookup, Store.lookup, find_congr h, h]

/-- Names, link counts and allocated inodes are the same, apart from inodes without links whose
last reference is gone. -/
structure NamesKept (s s' : Fs) : Prop where
  free : ∀ i, (s.store.dinodes i).type = .free → (s'.store.dinodes i).type = .free
  kept : ∀ i, (s.store.dinodes i).type ≠ .free →
    (s'.store.dinodes i).type = (s.store.dinodes i).type ∧
      (s'.store.dinodes i).nlink = (s.store.dinodes i).nlink ∧
      (∀ x, s'.store.lookup i x = s.store.lookup i x) ∨
    (s.store.dinodes i).nlink = 0 ∧ (s'.store.dinodes i).type = .free ∧
      ∀ e, 0 < (s'.itable e).ref → (s'.itable e).inum ≠ i

theorem NamesKept.of_fade (h : ∀ i, Fade s.view s'.view i) (ht : Table sb False c s')
    (ha : Alive c s') : NamesKept s s' := by
  refine ⟨fun i hi => ?_, fun i hi => ?_⟩
  · rcases h i with hsame | ⟨hfree, _⟩
    · exact hsame.type.trans hi
    · exact hfree
  · rcases h i with hsame | ⟨hfree, hold⟩
    · exact .inl ⟨hsame.type, hsame.nlink, lookup_congr hsame.entry⟩
    · refine .inr ⟨hold.resolve_left hi, hfree, fun e he hin => ?_⟩
      rw [ht.refs] at he
      have hused := ha e he
      rw [show s'.inum e = i from hin] at hused
      exact hused hfree

/-- What the first process refers to is allocated. -/
theorem boot_alive (vol : Volume sb) : Alive (refs (boot vol.store).held) (boot vol.store) := by
  intro e he
  rw [boot_root he]
  show vol.store.view.type rootino ≠ .free
  rw [vol.tree.shape.root.1]
  rintro ⟨⟩

/-- A `link`, `unlink`, `mkdir` or `mknod` that returns -1 changes no names, in every state that
calls lead to. -/
theorem failed_calls_keep_names (vol : Volume sb) (cs : List (Fin nproc × Call)) :
    Returns (run sb cs) (boot vol.store) fun _ s =>
      ∀ p, (s.procs p).isSome → ∀ a : Call, a.naming = true →
        Returns (call sb p a) s fun r s' => r = -1 → NamesKept s s' := by
  refine (run_spec cs ⟨boot_inv vol.toImage False.elim, False.elim⟩ False.elim).returns.imp
    fun _ s ⟨hend, hl⟩ p hp a hn => ?_
  have hs : Settled sb False s := hend.settled False.elim
  obtain ⟨x, hx⟩ := Option.isSome_iff_exists.mp hp
  have halive := hl (boot_alive vol)
  have hready := hs.inv.ready False.elim hx
  refine ((call_spec hs hx a).returns.and (naming_undone hready halive hn)).imp
    fun r s' ⟨⟨hend, hl'⟩, hnames⟩ hr => ?_
  exact .of_fade (hnames hr) hend.inv.table (hl' halive)

end Xv6.Files
