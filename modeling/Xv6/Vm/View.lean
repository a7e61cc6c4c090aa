/-
Xv6.Vm.View — what the words of physical memory mean as page tables.

A `View` names the roots of the live page tables and the pages that other
parts of the kernel hold. From these and the memory words everything else
is read off: which page holds which table (`own`), which entry translates
a virtual page (`lf`), and which user entry refers to which physical page
(`uref`). Nothing here is ghost state of its own.

The lemmas say what one memory write does to these readings, given that no
page plays two roles: a write outside the tables changes nothing, a write
of a leaf entry changes that entry, and linking in a zeroed table page or
unlinking an empty one changes the set of table pages and no entry.
-/
import Mathlib.Data.Fintype.Prod
import Mathlib.Data.Fintype.Sum
import Mathlib.Tactic.DeriveFintype
import Xv6.Lib.RefCount
import Xv6.Vm.PageTable

namespace Xv6.Vm

open Function

/-- The live page tables: the kernel's, one for each process slot, and the
one `kexec` is building. -/
inductive TableId where
  | kernel
  | proc (i : Fin nproc)
  | exec
  deriving DecidableEq, Fintype

/-- The pages held by the kernel outside the page tables. `held` is a page
in a local variable between `kalloc` and its use. -/
inductive Handle where
  | trapframe (i : Fin nproc)
  | kstack (i : Fin nproc)
  | pipe (page : Nat)
  | disk (k : Ring)
  | arg (k : Nat)
  | raw (k : Nat)
  | held (k : Nat)
  deriving DecidableEq

/-- The page numbers of the live roots and of the held pages. -/
structure View where
  root : TableId → Option Nat
  hnd : Handle → Option Nat

def View.setRoot (v : View) (t : TableId) (x : Option Nat) : View :=
  { v with root := update v.root t x }

def View.setHnd (v : View) (h : Handle) (x : Option Nat) : View :=
  { v with hnd := update v.hnd h x }

@[simp] theorem View.setRoot_root (v : View) (t : TableId) (x : Option Nat) :
    (v.setRoot t x).root = update v.root t x := rfl
@[simp] theorem View.setRoot_hnd (v : View) (t : TableId) (x : Option Nat) :
    (v.setRoot t x).hnd = v.hnd := rfl
@[simp] theorem View.setHnd_root (v : View) (h : Handle) (x : Option Nat) :
    (v.setHnd h x).root = v.root := rfl
@[simp] theorem View.setHnd_hnd (v : View) (h : Handle) (x : Option Nat) :
    (v.setHnd h x).hnd = update v.hnd h x := rfl

/-- The exclusive roles of a page: a table page at one of the three levels
of one table, or a page held through a handle. -/
inductive Owner where
  | root (t : TableId)
  | mid (t : TableId) (i : Fin 512)
  | low (t : TableId) (i j : Fin 512)
  | hnd (h : Handle)
  deriving DecidableEq

/-- The page a directory entry points to. -/
def child (mem : Nat → Page) (pg : Nat) (i : Fin 512) : Option Nat :=
  if hasFlag (mem pg i) pteV then some (ppn (mem pg i)) else none

def own (mem : Nat → Page) (v : View) : Owner → Option Nat
  | .root t => v.root t
  | .mid t i => (v.root t).bind fun pg => child mem pg i
  | .low t i j => ((v.root t).bind fun pg => child mem pg i).bind fun pg => child mem pg j
  | .hnd h => v.hnd h

/-- An entry that is valid. -/
def valid (w : Word) : Option Word := if hasFlag w pteV then some w else none

/-- The valid entry that translates virtual page `vpn`, if there is one. -/
def lf (mem : Nat → Page) (v : View) (t : TableId) (vpn : Nat) : Option Word :=
  if vpn < 512 ^ 3 then
    (own mem v (.low t (vidx 2 vpn) (vidx 1 vpn))).bind fun pg => valid (mem pg (vidx 0 vpn))
  else none

/-- A user entry: a table and a page below the trapframe. -/
abbrev Slot := TableId × Fin userPages

/-- The valid entries of every table. -/
abbrev Entries := TableId → Nat → Option Word

/-- The entry of a user slot; the kernel's own table has none. -/
def uleaf (f : Entries) (s : Slot) : Option Word :=
  if s.1 = .kernel then none else f s.1 s.2

/-- The physical page a user slot refers to. -/
def uref (f : Entries) (s : Slot) : Option Nat := (uleaf f s).map ppn

/-! ## Reading the definitions -/

variable {w : Word} {mem mem' : Nat → Page} {pg c p vpn q : Nat} {i : Fin 512} {v : View}
  {t : TableId}

theorem valid_eq_some {w' : Word} : valid w = some w' ↔ w = w' ∧ hasFlag w pteV = true := by
  unfold valid
  split <;> simp_all

theorem valid_eq_none : valid w = none ↔ hasFlag w pteV = false := by
  unfold valid
  split <;> simp_all

@[simp] theorem valid_zero : valid 0#64 = none := by decide

theorem child_eq_some :
    child mem pg i = some c ↔ hasFlag (mem pg i) pteV = true ∧ ppn (mem pg i) = c := by
  unfold child
  split <;> simp_all

theorem child_eq_none : child mem pg i = none ↔ hasFlag (mem pg i) pteV = false := by
  unfold child
  split <;> simp_all

theorem own_mid (h : v.root t = some p) (i : Fin 512) : own mem v (.mid t i) = child mem p i := by
  simp only [own, h, Option.bind_some]

theorem own_low (h : own mem v (.mid t i) = some p) (j : Fin 512) :
    own mem v (.low t i j) = child mem p j := by
  simp only [own] at h ⊢
  rw [h, Option.bind_some]

theorem own_low_none (h : own mem v (.mid t i) = none) (j : Fin 512) :
    own mem v (.low t i j) = none := by
  simp only [own] at h ⊢
  rw [h, Option.bind_none]

theorem own_low_some {j : Fin 512} (h : own mem v (.low t i j) = some c) :
    ∃ pg, own mem v (.mid t i) = some pg ∧ child mem pg j = some c := by
  cases hm : own mem v (.mid t i) with
  | none => rw [own_low_none hm] at h; cases h
  | some pg => exact ⟨pg, rfl, by rw [← own_low hm]; exact h⟩

theorem lf_of_low (hv : vpn < 512 ^ 3)
    (h : own mem v (.low t (vidx 2 vpn) (vidx 1 vpn)) = some pg) :
    lf mem v t vpn = valid (mem pg (vidx 0 vpn)) := by
  unfold lf
  rw [if_pos hv, h, Option.bind_some]

theorem lf_none_of_low (h : own mem v (.low t (vidx 2 vpn) (vidx 1 vpn)) = none) :
    lf mem v t vpn = none := by
  unfold lf
  rw [h, Option.bind_none]
  split <;> rfl

theorem lf_some (h : lf mem v t vpn = some w) :
    vpn < 512 ^ 3 ∧ ∃ pg, own mem v (.low t (vidx 2 vpn) (vidx 1 vpn)) = some pg ∧
      mem pg (vidx 0 vpn) = w ∧ hasFlag w pteV = true := by
  unfold lf at h
  split at h
  · rename_i hv
    cases ho : own mem v (.low t (vidx 2 vpn) (vidx 1 vpn)) with
    | none => rw [ho] at h; cases h
    | some pg =>
      rw [ho, Option.bind_some, valid_eq_some] at h
      exact ⟨hv, pg, rfl, h.1, h.1 ▸ h.2⟩
  · cases h

theorem uref_some {f : Entries} {s : Slot} (h : uref f s = some p) :
    ∃ w, uleaf f s = some w ∧ ppn w = p := Option.map_eq_some_iff.mp h

/-! ## One write -/

/-- No page plays two roles. -/
def Distinct (mem : Nat → Page) (v : View) : Prop :=
  ∀ {o k p}, own mem v o = some p → own mem v k = some p → o = k

theorem setWord_self (mem : Nat → Page) (pg : Nat) (i : Fin 512) (w : Word) :
    setWord mem pg i w pg = update (mem pg) i w := by
  simp [setWord]

theorem setWord_ne (mem : Nat → Page) (h : q ≠ pg) (i : Fin 512) (w : Word) :
    setWord mem pg i w q = mem q := by
  simp [setWord, h]

theorem child_congr (h : mem' pg = mem pg) (i : Fin 512) : child mem' pg i = child mem pg i := by
  simp only [child, h]

/-- The roles only depend on the words of the upper two table levels. -/
theorem own_congr (hroot : ∀ t pg, v.root t = some pg → mem' pg = mem pg)
    (hmid : ∀ t i pg, own mem v (.mid t i) = some pg → mem' pg = mem pg) :
    own mem' v = own mem v := by
  have hm : ∀ t i, own mem' v (.mid t i) = own mem v (.mid t i) := by
    intro t i
    cases hr : v.root t with
    | none => simp [own, hr]
    | some pg => rw [own_mid hr, own_mid hr, child_congr (hroot t pg hr)]
  funext o
  cases o with
  | root t => rfl
  | mid t i => exact hm t i
  | low t i j =>
    cases h : own mem v (.mid t i) with
    | none => rw [own_low_none h, own_low_none (by rw [hm, h])]
    | some pg => rw [own_low h, own_low (by rw [hm, h]), child_congr (hmid t i pg h)]
  | hnd h => rfl

/-- Entries only depend on the roles and on the words of the lowest level. -/
theorem lf_congr (hown : own mem' v = own mem v)
    (hlow : ∀ pg, own mem v (.low t (vidx 2 vpn) (vidx 1 vpn)) = some pg →
      mem' pg (vidx 0 vpn) = mem pg (vidx 0 vpn)) :
    lf mem' v t vpn = lf mem v t vpn := by
  unfold lf
  rw [hown]
  cases h : own mem v (.low t (vidx 2 vpn) (vidx 1 vpn)) with
  | none => rfl
  | some pg => simp only [Option.bind_some, hlow pg h]

/-- A page that is no table page: a write to it changes no table. -/
def NotTable (mem : Nat → Page) (v : View) (q : Nat) : Prop :=
  (∀ t, v.root t ≠ some q) ∧ (∀ t i, own mem v (.mid t i) ≠ some q) ∧
    ∀ t i j, own mem v (.low t i j) ≠ some q

theorem own_write_data (h : NotTable mem v q) (hm : ∀ p, p ≠ q → mem' p = mem p) :
    own mem' v = own mem v :=
  own_congr (fun t pg hr => hm pg (by rintro rfl; exact h.1 t hr))
    (fun t i pg ho => hm pg (by rintro rfl; exact h.2.1 t i ho))

theorem lf_write_data (h : NotTable mem v q) (hm : ∀ p, p ≠ q → mem' p = mem p) :
    lf mem' v = lf mem v := by
  funext t vpn
  refine lf_congr (own_write_data h hm) (fun pg ho => ?_)
  rw [hm pg (by rintro rfl; exact h.2.2 _ _ _ ho)]

/-- Writing a leaf entry keeps the table pages. -/
theorem own_write_leaf (hd : Distinct mem v) {j k : Fin 512} (ho : own mem v (.low t i j) = some pg)
    (w : Word) :
    own (setWord mem pg k w) v = own mem v := by
  refine own_congr (fun t' r hr => setWord_ne _ ?_ _ _) (fun t' i' r hr => setWord_ne _ ?_ _ _)
  · rintro rfl
    have := hd (o := .root t') hr ho
    cases this
  · rintro rfl
    have := hd hr ho
    cases this

/-- The entries with the one for `vpn` in `t` replaced. -/
def setEntry (f : Entries) (t : TableId) (vpn : Nat) (x : Option Word) :
    Entries :=
  fun t' vpn' => if t' = t ∧ vpn' = vpn then x else f t' vpn'

/-- The entries with those for `a ≤ vpn < b` in `t` replaced. -/
def setRange (f : Entries) (t : TableId) (a b : Nat)
    (g : Nat → Option Word) : Entries :=
  fun t' vpn' => if t' = t ∧ a ≤ vpn' ∧ vpn' < b then g vpn' else f t' vpn'

section Entries

variable {f : Entries} {t t' : TableId} {vpn vpn' a b : Nat}
  {x : Option Word} {g : Nat → Option Word}

@[simp] theorem setEntry_self : setEntry f t vpn x t vpn = x := if_pos ⟨rfl, rfl⟩

theorem setEntry_table (h : t' ≠ t) : setEntry f t vpn x t' = f t' :=
  funext fun _ => if_neg (fun e => h e.1)

theorem setEntry_vpn (h : vpn' ≠ vpn) : setEntry f t vpn x t' vpn' = f t' vpn' :=
  if_neg (fun e => h e.2)

theorem setEntry_same (h : f t vpn = x) : setEntry f t vpn x = f := by
  funext t' vpn'
  unfold setEntry
  split
  · rename_i e
    rw [e.1, e.2, h]
  · rfl

theorem setRange_table (h : t' ≠ t) : setRange f t a b g t' = f t' :=
  funext fun _ => if_neg (fun e => h e.1)

theorem setRange_in (h : a ≤ vpn) (h' : vpn < b) : setRange f t a b g t vpn = g vpn :=
  if_pos ⟨rfl, h, h'⟩

theorem setRange_out (h : ¬ (a ≤ vpn' ∧ vpn' < b)) : setRange f t a b g t' vpn' = f t' vpn' :=
  if_neg (fun e => h e.2)

theorem setRange_empty (h : b ≤ a) : setRange f t a b g = f :=
  funext fun _ => funext fun _ => setRange_out (by omega)

/-- One more entry at the start of a range. -/
theorem setRange_cons (h : a < b) :
    setRange (setEntry f t a (g a)) t (a + 1) b g = setRange f t a b g := by
  funext t' vpn'
  by_cases ht : t' = t
  · subst ht
    by_cases hv : vpn' = a
    · subst hv
      rw [setRange_out (by omega), setEntry_self, setRange_in (Nat.le_refl _) h]
    · by_cases hin : a + 1 ≤ vpn' ∧ vpn' < b
      · rw [setRange_in hin.1 hin.2, setRange_in (by omega) hin.2]
      · rw [setRange_out hin, setEntry_vpn hv, setRange_out (by omega)]
  · rw [setRange_table ht, setEntry_table ht, setRange_table ht]

theorem uleaf_setEntry (ht : t ≠ .kernel) (hv : vpn < userPages) :
    uleaf (setEntry f t vpn x) = update (uleaf f) (t, ⟨vpn, hv⟩) x := by
  funext s
  by_cases hs : s = (t, ⟨vpn, hv⟩)
  · subst hs
    rw [update_self]
    exact (if_neg ht).trans setEntry_self
  · rw [update_of_ne hs]
    unfold uleaf
    split
    · rfl
    · refine if_neg ?_
      rintro ⟨h1, h2⟩
      exact hs (Prod.ext h1 (Fin.ext h2))

theorem uref_setEntry (ht : t ≠ .kernel) (hv : vpn < userPages) :
    uref (setEntry f t vpn x) = update (uref f) (t, ⟨vpn, hv⟩) (x.map ppn) := by
  funext s
  unfold uref
  rw [uleaf_setEntry ht hv]
  by_cases hs : s = (t, ⟨vpn, hv⟩)
  · rw [hs, update_self, update_self]
  · rw [update_of_ne hs, update_of_ne hs]

/-- Kernel entries and those above the user pages are no user entries. -/
theorem uleaf_setEntry_priv (h : t = .kernel ∨ userPages ≤ vpn) :
    uleaf (setEntry f t vpn x) = uleaf f := by
  funext s
  unfold uleaf
  split
  · rfl
  · rename_i hs
    refine if_neg ?_
    rintro ⟨h1, h2⟩
    rcases h with h | h
    · exact hs (h1.trans h)
    · omega

end Entries

/-- Writing a leaf entry changes that entry and no other one. -/
theorem lf_write_leaf (hd : Distinct mem v) (hv : vpn < 512 ^ 3)
    (ho : own mem v (.low t (vidx 2 vpn) (vidx 1 vpn)) = some pg) (w : Word) :
    lf (setWord mem pg (vidx 0 vpn) w) v = setEntry (lf mem v) t vpn (valid w) := by
  funext t' vpn'
  have hown := own_write_leaf hd (k := vidx 0 vpn) ho w
  unfold setEntry
  by_cases hv' : vpn' < 512 ^ 3
  · by_cases heq : t' = t ∧ vpn' = vpn
    · obtain ⟨rfl, rfl⟩ := heq
      rw [if_pos ⟨rfl, rfl⟩, lf_of_low hv (by rw [hown]; exact ho), setWord_self, update_self]
    · rw [if_neg heq]
      refine lf_congr hown (fun pg' ho' => ?_)
      by_cases hpg : pg' = pg
      · subst hpg
        -- same table page, so the same table and upper indices: the lowest index differs
        have hsame := hd ho' ho
        simp only [Owner.low.injEq] at hsame
        obtain ⟨rfl, h2, h1⟩ := hsame
        have h0 : vidx 0 vpn' ≠ vidx 0 vpn := fun h0 =>
          heq ⟨rfl, vidx_inj hv' hv h2 h1 h0⟩
        rw [setWord_self, update_of_ne h0]
      · rw [setWord_ne _ hpg]
  · have hne : ¬ (t' = t ∧ vpn' = vpn) := by
      rintro ⟨_, rfl⟩
      exact hv' hv
    rw [if_neg hne]
    simp only [lf, hv', if_false]

/-! ### Linking in and unlinking table pages -/

/-- Page `c` has no table role other than `o`. -/
def OnlyTable (mem : Nat → Page) (v : View) (c : Nat) (o : Owner) : Prop :=
  ∀ o', own mem v o' = some c → o' = o ∨ ∃ h, o' = .hnd h

theorem OnlyTable.ne {o k : Owner} (h : OnlyTable mem v c o) (hk : own mem v k = some q)
    (hne : k ≠ o) (hh : ∀ h, k ≠ .hnd h) : q ≠ c := by
  rintro rfl
  rcases h k hk with e | ⟨h, e⟩
  · exact hne e
  · exact hh h e

/-- A page with no valid entry. -/
def Empty (page : Page) : Prop := ∀ i, hasFlag (page i) pteV = false

theorem empty_zero : Empty (fillPage 0) := by
  intro i
  have : fillPage 0 i = 0#64 := zeroPage_apply i
  rw [this]
  decide

/-- A directory entry to write: an invalid one, or one for the empty page `c`. -/
def EntryOk (w : Word) (c : Nat) (page : Page) : Prop :=
  valid w = none ∨ valid w = some w ∧ ppn w = c ∧ Empty page

theorem entryOk_zero (c : Nat) (page : Page) : EntryOk 0#64 c page := .inl valid_zero

theorem child_empty (h : Empty (mem c)) (i : Fin 512) :
    child mem c i = none := child_eq_none.mpr (h i)

section Relink

variable {mem : Nat → Page} {v : View} {t : TableId} {c pg : Nat} {page : Page} {w : Word}

section

variable (honly : OnlyTable mem v c (.root t)) (hmid : ∀ i, own mem v (.mid t i) = none)
  {x : Option Nat} (hx : x = none ∨ x = some c ∧ Empty page)
include honly hmid hx

/-- Setting the root of a table without lower pages, to nothing or to an
empty page. -/
theorem own_set_root :
    own (update mem c page) (v.setRoot t x) = update (own mem v) (.root t) x := by
  have hm : ∀ t' i, own (update mem c page) (v.setRoot t x) (.mid t' i) =
      own mem v (.mid t' i) := by
    intro t' i
    by_cases ht : t' = t
    · subst ht
      rw [hmid i]
      rcases hx with rfl | ⟨rfl, he⟩
      · simp [own]
      · rw [own_mid (p := c) (by simp)]
        exact child_empty (by rw [update_self]; exact he) i
    · cases hr : v.root t' with
      | none => simp [own, hr, ht]
      | some r =>
        have hrc : r ≠ c := honly.ne (k := .root t') hr (by simp [ht]) (by simp)
        rw [own_mid (p := r) (by simp [ht, hr]), own_mid hr]
        exact child_congr (update_of_ne hrc _ _) i
  funext o
  cases o with
  | root t' =>
    by_cases ht : t' = t
    · subst ht; simp [own]
    · simp [own, ht]
  | mid t' i => rw [hm, update_of_ne (by simp)]
  | low t' i j =>
    rw [update_of_ne (by simp)]
    cases h : own mem v (.mid t' i) with
    | none => rw [own_low_none h, own_low_none (by rw [hm, h])]
    | some q =>
      have hqc : q ≠ c := honly.ne h (by simp) (by simp)
      rw [own_low h, own_low (by rw [hm, h])]
      exact child_congr (update_of_ne hqc _ _) j
  | hnd h => simp [own]

theorem lf_set_root :
    lf (update mem c page) (v.setRoot t x) = lf mem v := by
  have hown := own_set_root honly hmid hx
  funext t' vpn
  unfold lf
  rw [hown, update_of_ne (by simp)]
  cases h : own mem v (.low t' (vidx 2 vpn) (vidx 1 vpn)) with
  | none => rfl
  | some q =>
    have hqc : q ≠ c := honly.ne h (by simp) (by simp)
    simp only [Option.bind_some, update_of_ne hqc]

end

/-- The page that holds the entry of a table page, and the place of the entry. -/
def Owner.up : Owner → Option (Owner × Fin 512)
  | .mid t i => some (.root t, i)
  | .low t i j => some (.mid t i, j)
  | .root _ | .hnd _ => none

variable {o o' k : Owner} {i : Fin 512}

theorem own_up (h : o.up = some (k, i)) :
    own mem v o = (own mem v k).bind fun pg => child mem pg i := by
  cases o <;> cases h <;> rfl

theorem Owner.up_inj (h : o.up = some (k, i)) (h' : o'.up = some (k, i)) : o' = o := by
  cases o <;> cases h <;> cases o' <;> cases h' <;> rfl

theorem Owner.up_ne (h : o.up = some (k, i)) : k ≠ o ∧ ∀ h, k ≠ .hnd h := by
  cases o <;> cases h <;> simp

section

variable (hd : Distinct mem v) (hup : o.up = some (k, i)) (hk : own mem v k = some pg)
  (honly : OnlyTable mem v c o) (hlow : ∀ o' j, o'.up = some (o, j) → own mem v o' = none)
  (hw : EntryOk w c page)
include hd hup hk honly hlow hw

/-- Setting the directory entry of a table page without lower pages, to an
invalid entry or to the empty page `c`. -/
theorem own_set_dir :
    own (setWord (update mem c page) pg i w) v = update (own mem v) o ((valid w).map ppn) := by
  have hpc : pg ≠ c := honly.ne hk (Owner.up_ne hup).1 (Owner.up_ne hup).2
  -- an entry of a page whose role is as stated
  have key : ∀ {o' k' i'}, o'.up = some (k', i') →
      own (setWord (update mem c page) pg i w) v k' =
        update (own mem v) o ((valid w).map ppn) k' →
      own (setWord (update mem c page) pg i w) v o' =
        update (own mem v) o ((valid w).map ppn) o' := by
    intro o' k' i' hup' ih
    rw [own_up hup', ih]
    by_cases hko : k' = o
    · subst hko
      rw [update_self, update_of_ne (Owner.up_ne hup').1.symm, hlow o' i' hup']
      rcases hw with hw | ⟨hw, hc, he⟩
      · rw [hw]
        rfl
      · rw [hw, Option.map_some, hc]
        exact child_empty (by rw [setWord_ne _ hpc.symm, update_self]; exact he) i'
    rw [update_of_ne hko]
    by_cases ho : o' = o
    · subst ho
      obtain ⟨rfl, rfl⟩ := Prod.mk.inj (Option.some.inj (hup'.symm.trans hup))
      rw [update_self, hk, Option.bind_some, child, setWord_self, update_self]
      rcases hw with hw | ⟨hw, -, -⟩
      · rw [hw, if_neg (by rw [valid_eq_none.mp hw]; simp)]
        rfl
      · rw [hw, if_pos (valid_eq_some.mp hw).2]
        rfl
    rw [update_of_ne ho, own_up hup']
    cases hq : own mem v k' with
    | none => rfl
    | some q =>
      have hqc : q ≠ c := honly.ne hq hko (Owner.up_ne hup').2
      rw [Option.bind_some, Option.bind_some]
      by_cases hqp : q = pg
      · subst hqp
        obtain rfl := hd hq hk
        have hi : i' ≠ i := by
          rintro rfl
          exact ho (Owner.up_inj hup hup')
        rw [child, child, setWord_self, update_of_ne hi, update_of_ne hqc]
      · refine child_congr ?_ _
        rw [setWord_ne _ hqp, update_of_ne hqc]
  have hbase : ∀ {o'}, o'.up = none → o' ≠ o := by
    rintro o' h rfl
    rw [h] at hup
    cases hup
  funext o'
  cases o' with
  | root t' => rw [update_of_ne (hbase rfl)]; rfl
  | mid t' i' => exact key rfl (by rw [update_of_ne (hbase rfl)]; rfl)
  | low t' i' j' => exact key rfl (key rfl (by rw [update_of_ne (hbase rfl)]; rfl))
  | hnd h => rw [update_of_ne (hbase rfl)]; rfl

/-- No entry changes, if the lowest level had none in the page that goes. -/
theorem lf_set_dir (hempty : ∀ t a b, o = .low t a b →
      own mem v o = none ∨ own mem v o = some c ∧ Empty (mem c)) :
    lf (setWord (update mem c page) pg i w) v = lf mem v := by
  have hown := own_set_dir hd hup hk honly hlow hw
  have hpc : pg ≠ c := honly.ne hk (Owner.up_ne hup).1 (Owner.up_ne hup).2
  funext t' vpn
  unfold lf
  rw [hown]
  split
  · by_cases hpos : (Owner.low t' (vidx 2 vpn) (vidx 1 vpn) : Owner) = o
    · -- both readings are empty: no valid entry before, none in the new page
      rw [hpos, update_self]
      have hnew : ((valid w).map ppn).bind
          (fun pg' => valid (setWord (update mem c page) pg i w pg' (vidx 0 vpn))) = none := by
        rcases hw with hw | ⟨hw, hc, he⟩
        · rw [hw]; rfl
        · rw [hw, Option.map_some, Option.bind_some, hc, setWord_ne _ (Ne.symm hpc),
            update_self, valid_eq_none]
          exact he _
      rw [hnew]
      rcases hempty _ _ _ hpos.symm with h | ⟨h, he⟩
      · rw [h]; rfl
      · rw [h, Option.bind_some, (valid_eq_none.mpr (he _))]
    · rw [update_of_ne hpos]
      cases h : own mem v (.low t' (vidx 2 vpn) (vidx 1 vpn)) with
      | none => rfl
      | some q =>
        have hqc : q ≠ c := honly.ne h hpos (by simp)
        have hqp : q ≠ pg := by
          rintro rfl
          obtain rfl := hd hk h
          cases o <;> cases hup
        simp only [Option.bind_some, setWord_ne _ hqp, update_of_ne hqc]
  · rfl

end

end Relink

/-! ### Handles -/

theorem own_set_hnd (mem : Nat → Page) (v : View) (h : Handle) (x : Option Nat) :
    own mem (v.setHnd h x) = update (own mem v) (.hnd h) x := by
  funext o
  cases o with
  | root t => rw [update_of_ne (by simp)]; rfl
  | mid t i => rw [update_of_ne (by simp)]; rfl
  | low t i j => rw [update_of_ne (by simp)]; rfl
  | hnd h' =>
    by_cases e : h' = h
    · subst e; simp [own]
    · rw [update_of_ne (by simp [e])]; simp [own, e]

end Xv6.Vm
