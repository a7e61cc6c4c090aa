/-
Xv6.Vm.Base — the memory invariant that page-table code relies on, and the
moves that keep it.

`Base L m v ρ` holds for any family `ρ` of counted shared references: the
counters are exact for `ρ` and for the table pages and held pages that the
view reads off, the free list is exact, and the tables are well shaped.
Leaf entries themselves are not counted here. A caller that writes an entry
says separately which reference counts it, so code that maps a page before
it counts it fits as well as code that frees a page before it clears the
entry.

§1 the invariant, §2 the allocator's moves, §3 writes, §4 linking and
unlinking table pages.
-/
import Xv6.Vm.View

namespace Xv6.Vm

open Xv6.Lib Function

/-! ## §1 The invariant -/

/-- The access bits that tell a leaf from a directory entry. -/
def pteRwx : Word := pteR ||| pteW ||| pteX

/-- A leaf entry the kernel may write for `vpn`: readable, and with
`PTE_U` only for a user page. -/
def LeafOk (t : TableId) (vpn : Nat) (w : Word) : Prop :=
  hasFlag w pteR = true ∧ (t = .kernel ∨ userPages ≤ vpn → hasFlag w pteU = false)

/-- Directory entries carry no access bits, the upper half of a root is
unused, and every entry satisfies `P`. -/
structure Shape (P : TableId → Nat → Word → Prop) (mem : Nat → Page) (v : View) : Prop where
  dirMid : ∀ {t pg} (i : Fin 512), v.root t = some pg → hasFlag (mem pg i) pteV = true →
    hasFlag (mem pg i) pteRwx = false
  dirLow : ∀ {t i pg} (j : Fin 512), own mem v (.mid t i) = some pg →
    hasFlag (mem pg j) pteV = true → hasFlag (mem pg j) pteRwx = false
  top : ∀ t (i : Fin 512), 256 ≤ i.val → own mem v (.mid t i) = none
  leaf : ∀ {t vpn w}, lf mem v t vpn = some w → P t vpn w

variable {R : Type} [Fintype R]

/-- The invariant, for entries that satisfy `P`. -/
structure Forest (P : TableId → Nat → Word → Prop) (L : Layout) (m : Mach) (v : View)
    (ρ : R → Option Nat) : Prop where
  exact : Exact m.refcount ρ (own m.mem v)
  free : FreeOk L m
  usable : ∀ p, m.refcount p ≠ 0 → L.Usable p
  shape : Shape P m.mem v

/-- The invariant of the kernel's own tables. -/
abbrev Base (L : Layout) (m : Mach) (v : View) (ρ : R → Option Nat) : Prop := Forest LeafOk L m v ρ

/-- The counted pages and the held pages keep their contents. -/
structure Untouched (m m' : Mach) (v : View) (ρ : R → Option Nat) : Prop where
  ref : ∀ {r q}, ρ r = some q → m'.mem q = m.mem q
  hnd : ∀ {h q}, v.hnd h = some q → m'.mem q = m.mem q

/-- Table pages and held pages keep their place. -/
def Holds (v : View) (m m' : Mach) : Prop :=
  ∀ {o q}, own m.mem v o = some q → own m'.mem v o = some q

/-- Also, table pages keep their place. -/
structure Stable (m m' : Mach) (v : View) (ρ : R → Option Nat) : Prop
    extends Untouched m m' v ρ where
  keep : Holds v m m'

/-- Also, no entry changes. -/
structure Quiet (m m' : Mach) (v : View) (ρ : R → Option Nat) : Prop
    extends Stable m m' v ρ where
  lf_eq : lf m'.mem v = lf m.mem v

variable {P : TableId → Nat → Word → Prop} {L : Layout} {m m' m'' : Mach} {v : View}
  {ρ : R → Option Nat} {t : TableId}
  {o k : Owner} {p q : Nat} {r : R} {h : Handle} {mem : Nat → Page} {w : Word}

omit [Fintype R] in
theorem Untouched.trans (h : Untouched m m' v ρ) (h' : Untouched m' m'' v ρ) :
    Untouched m m'' v ρ :=
  ⟨fun hr => (h'.ref hr).trans (h.ref hr), fun hh => (h'.hnd hh).trans (h.hnd hh)⟩

omit [Fintype R] in
theorem Stable.trans (h : Stable m m' v ρ) (h' : Stable m' m'' v ρ) : Stable m m'' v ρ :=
  ⟨h.toUntouched.trans h'.toUntouched, fun ho => h'.keep (h.keep ho)⟩

omit [Fintype R] in
theorem Quiet.refl : Quiet m m v ρ := ⟨⟨⟨fun _ => rfl, fun _ => rfl⟩, fun h => h⟩, rfl⟩

omit [Fintype R] in
theorem Quiet.trans (h : Quiet m m' v ρ) (h' : Quiet m' m'' v ρ) : Quiet m m'' v ρ :=
  ⟨h.toStable.trans h'.toStable, h'.lf_eq.trans h.lf_eq⟩

section

variable (hb : Forest P L m v ρ)
include hb

theorem Forest.distinct : Distinct m.mem v := hb.exact.own_inj

theorem Forest.own_usable (h : own m.mem v o = some p) :
    L.Usable p :=
  hb.usable p (by rw [hb.exact.own_rc h]; decide)

theorem Forest.ref_usable (h : ρ r = some p) : L.Usable p :=
  hb.usable p (by have := (hb.exact.ref_rc h).2; omega)

/-- A counted page is no table page. -/
theorem Forest.ref_notTable (h : ρ r = some p) :
    NotTable m.mem v p :=
  ⟨fun _ ho => hb.exact.own_ref (o := .root _) ho h, fun _ _ ho => hb.exact.own_ref ho h,
    fun _ _ _ ho => hb.exact.own_ref ho h⟩

/-- A held page is no table page. -/
theorem Forest.hnd_notTable (hh : v.hnd h = some p) : NotTable m.mem v p := by
  refine ⟨fun t ho => ?_, fun t i ho => ?_, fun t i j ho => ?_⟩
  · have := hb.distinct (o := .root t) (k := .hnd h) ho hh
    cases this
  · have := hb.distinct (k := .hnd h) ho hh
    cases this
  · have := hb.distinct (k := .hnd h) ho hh
    cases this

/-- A free page has no role at all. -/
theorem Forest.free_notTable (h0 : m.refcount p = 0) :
    NotTable m.mem v p :=
  ⟨fun t => (hb.exact.unheld h0).1 (.root t), fun t i => (hb.exact.unheld h0).1 (.mid t i),
    fun t i j => (hb.exact.unheld h0).1 (.low t i j)⟩

theorem Forest.free_only (h0 : m.refcount p = 0) (o : Owner) :
    OnlyTable m.mem v p o :=
  fun o' ho => absurd ho ((hb.exact.unheld h0).1 o')

theorem Forest.own_only (h : own m.mem v o = some p) :
    OnlyTable m.mem v p o :=
  fun _ ho => .inl (hb.distinct ho h)

end

/-- Writing outside the tables keeps their shape. -/
theorem Shape.write_data {mem' : Nat → Page} (hs : Shape P mem v) (hq : NotTable mem v q)
    (hm : ∀ p, p ≠ q → mem' p = mem p) : Shape P mem' v := by
  have hown := own_write_data hq hm
  have hlf := lf_write_data hq hm
  constructor
  · intro t pg i hr
    rw [hm pg (by rintro rfl; exact hq.1 t hr)]
    exact hs.dirMid i hr
  · intro t i pg j ho
    rw [hown] at ho
    rw [hm pg (by rintro rfl; exact hq.2.1 t i ho)]
    exact hs.dirLow j ho
  · intro t i hi
    rw [hown]
    exact hs.top t i hi
  · intro t vpn w h
    rw [hlf] at h
    exact hs.leaf h

theorem Shape.set_hnd (hs : Shape P mem v) (h : Handle) (x : Option Nat) :
    Shape P mem (v.setHnd h x) := ⟨hs.dirMid, hs.dirLow, hs.top, hs.leaf⟩

/-- The table pages of `t`. -/
def Owner.In (t : TableId) : Owner → Prop
  | .root t' | .mid t' _ | .low t' _ _ => t' = t
  | .hnd _ => False

/-- What code that works for the owners in `A` leaves alone: every other
owner keeps its page, a page held by another owner its contents, and so does
a page that the allocator does not manage. -/
structure Spares (L : Layout) (A : Owner → Prop) (v : View) (m : Mach) (v' : View) (m' : Mach) :
    Prop where
  role : ∀ {o}, ¬ A o → own m'.mem v' o = own m.mem v o
  hnd : ∀ {h q}, ¬ A (.hnd h) → v.hnd h = some q → m'.mem q = m.mem q
  raw : ∀ {q}, ¬ L.Usable q → m'.mem q = m.mem q

section Spares

variable {A B : Owner → Prop} {v' v'' : View}

theorem Spares.refl : Spares L A v m v m := ⟨fun _ => rfl, fun _ _ => rfl, fun _ => rfl⟩

theorem Spares.trans (h : Spares L A v m v' m') (h' : Spares L A v' m' v'' m'') :
    Spares L A v m v'' m'' := by
  refine ⟨fun ho => (h'.role ho).trans (h.role ho), fun {k q} hk hq => ?_,
    fun hq => (h'.raw hq).trans (h.raw hq)⟩
  have hq' : v'.hnd k = some q := (h.role hk).trans hq
  exact (h'.hnd hk hq').trans (h.hnd hk hq)

theorem Spares.mono (h : Spares L A v m v' m') (hAB : ∀ o, A o → B o) : Spares L B v m v' m' :=
  ⟨fun ho => h.role (fun ha => ho (hAB _ ha)), fun hk => h.hnd (fun ha => hk (hAB _ ha)), h.raw⟩

/-- Code that works for nobody in particular. -/
theorem Spares.any (h : Spares L (fun _ => False) v m v' m') : Spares L A v m v' m' :=
  h.mono (fun _ ha => ha.elim)

theorem Spares.of_mem (h : m'.mem = m.mem) : Spares L A v m v m' :=
  ⟨fun _ => by rw [h], fun _ _ => by rw [h], fun _ => by rw [h]⟩

/-- A handle that is one's own may be set. -/
theorem Spares.set_hnd (h : Spares L A v m v' m') {k : Handle} (hk : A (.hnd k)) (x : Option Nat) :
    Spares L A v m (v'.setHnd k x) m' := by
  refine ⟨fun {o} ho => ?_, h.hnd, h.raw⟩
  rw [own_set_hnd, update_of_ne (by rintro rfl; exact ho hk)]
  exact h.role ho

/-- Only the words of one page changed, which is no table page. -/
theorem Spares.of_data {q : Nat} (hnt : NotTable m.mem v q) (hm : ∀ p, p ≠ q → m'.mem p = m.mem p)
    (hu : L.Usable q) (hh : ∀ h, ¬ A (.hnd h) → v.hnd h ≠ some q) : Spares L A v m v m' := by
  refine ⟨fun _ => by rw [own_write_data hnt hm], fun {k p} hk hp => hm p ?_, fun {p} hp => hm p ?_⟩
  · rintro rfl
    exact hh k hk hp
  · rintro rfl
    exact hp hu

end Spares

/-! ## §2 The allocator's moves -/

section

variable (hb : Forest P L m v ρ)
include hb

theorem Forest.usable_update (hu : L.Usable p) (n : Int) :
    ∀ q, update m.refcount p n q ≠ 0 → L.Usable q := by
  intro q hq
  by_cases hqp : q = p
  · subst hqp; exact hu
  · rw [update_of_ne hqp] at hq
    exact hb.usable q hq

/-- `kalloc` either finds the free list empty, or hands out a page that
nobody held, full of junk. -/
theorem Forest.kalloc (hh : v.hnd h = none) :
    Total kalloc m fun r m' =>
      (r = 0 ∧ m' = m ∧ avail L m = 0) ∨
      ∃ p, r = 4096 * p ∧ L.Usable p ∧ Forest P L m' (v.setHnd h (some p)) ρ ∧ Quiet m m' v ρ ∧
        Spares L (fun _ => False) v m v m' ∧ avail L m = avail L m' + 1 := by
  refine (kalloc_spec hb.free).imp ?_
  rintro r m' (⟨rfl, rfl, hnone⟩ | ⟨p, rfl, hu, h0, hf, hm, hr⟩)
  · exact .inl ⟨rfl, rfl, hnone⟩
  · have hnt := hb.free_notTable h0
    have hother : ∀ q, q ≠ p → m'.mem q = m.mem q := fun q hq => by
      rw [hm, update_of_ne hq]
    have hown := own_write_data hnt hother
    refine .inr ⟨p, rfl, hu, ⟨?_, hf, ?_, ?_⟩,
      ⟨⟨⟨?_, ?_⟩, fun ho => by rw [hown]; exact ho⟩, lf_write_data hnt hother⟩,
      .of_data hnt hother hu (fun h' _ => (hb.exact.unheld h0).1 (.hnd h')),
      avail_acquire hu h0 hr⟩
    · rw [own_set_hnd, hown, hr]
      exact hb.exact.acquire h0 hh
    · rw [hr]
      exact hb.usable_update hu 1
    · exact (hb.shape.write_data hnt hother).set_hnd h _
    · intro r q hq
      exact hother q (by rintro rfl; exact (hb.exact.unheld h0).2 r hq)
    · intro h' q hq
      exact hother q (by rintro rfl; exact (hb.exact.unheld h0).1 (.hnd h') hq)

/-- `kfree` of a page the kernel held. -/
theorem Forest.kfree_hnd (hh : v.hnd h = some p) :
    Total (kfree L (4096 * p)) m fun _ m' =>
      Forest P L m' (v.setHnd h none) ρ ∧ Quiet m m' (v.setHnd h none) ρ ∧
        Spares L (· = .hnd h) v m (v.setHnd h none) m' := by
  have hrc : m.refcount p = 1 := hb.exact.own_rc (o := .hnd h) hh
  have hnt := hb.hnd_notTable hh
  refine (kfree_spec hb.free (hb.own_usable (o := .hnd h) hh) (by omega)).imp ?_
  rintro - m' ⟨hf, hr, hother, -⟩
  have hown := own_write_data hnt hother
  have hr' : m'.refcount = update m.refcount p 0 := by rw [hr, hrc]; rfl
  have hspares : Spares L (· = .hnd h) v m v m' :=
    .of_data hnt hother (hb.own_usable (o := .hnd h) hh)
      (fun k hk hq => hk (hb.distinct (o := .hnd k) (k := .hnd h) hq hh))
  refine ⟨⟨?_, hf, ?_, ?_⟩, ⟨⟨⟨?_, ?_⟩, fun ho => ?_⟩, lf_write_data hnt hother⟩,
    hspares.set_hnd rfl none⟩
  · rw [own_set_hnd, hown, hr']
    exact hb.exact.release hh
  · rw [hr']
    exact hb.usable_update (hb.own_usable (o := .hnd h) hh) 0
  · exact (hb.shape.write_data hnt hother).set_hnd h _
  · intro r q hq
    exact hother q (by rintro rfl; exact hb.exact.own_ref (o := .hnd h) hh hq)
  · intro h' q hq
    have hq' : own m.mem (v.setHnd h none) (.hnd h') = some q := hq
    rw [own_set_hnd] at hq'
    exact hother q (hb.exact.own_without (o := .hnd h) hh hq').2
  · rw [own_set_hnd] at ho ⊢
    rw [hown]
    exact ho

/-- `kgetref` of a counted page. -/
theorem Forest.kgetref (hr : ρ r = some p) :
    Total (kgetref L (4096 * p)) m fun n m' => n = m.refcount p ∧ m' = m :=
  kgetref_spec (hb.ref_usable hr)

end

section Refs

variable [DecidableEq R] {r : R} {p : Nat}

/-- `kfree` of a counted page drops one of its references. A page that is
still counted keeps its contents. -/
theorem Forest.kfree_ref (hb : Forest P L m v ρ) (hr : ρ r = some p) :
    Total (kfree L (4096 * p)) m fun _ m' =>
      Forest P L m' v (update ρ r none) ∧ Quiet m m' v (update ρ r none) ∧
        Spares L (fun _ => False) v m v m' := by
  obtain ⟨hrc, hpos⟩ := hb.exact.ref_rc hr
  have hnt := hb.ref_notTable hr
  refine (kfree_spec hb.free (hb.ref_usable hr) hpos).imp ?_
  rintro - m' ⟨hf, hrc', hother, hkeep⟩
  have hown := own_write_data hnt hother
  have hno : ∀ h, v.hnd h ≠ some p := fun h hq => hb.exact.own_ref (o := .hnd h) hq hr
  refine ⟨⟨?_, hf, ?_, hb.shape.write_data hnt hother⟩,
    ⟨⟨⟨?_, ?_⟩, fun ho => by rw [hown]; exact ho⟩, lf_write_data hnt hother⟩,
    .of_data hnt hother (hb.ref_usable hr) (fun h _ => hno h)⟩
  · rw [hown, hrc']
    exact hb.exact.drop hr
  · rw [hrc']
    exact hb.usable_update (hb.ref_usable hr) _
  · intro r' q hq
    have hne : r' ≠ r := by
      rintro rfl
      simp at hq
    rw [update_of_ne hne] at hq
    by_cases hqp : q = p
    · subst hqp
      -- two references, so this was not the last one
      rw [hkeep (fun h1 => hne (hb.exact.sole h1 hq hr))]
    · exact hother q hqp
  · intro h q hq
    exact hother q (by rintro rfl; exact hno h hq)

/-- `kaddref` of a counted page counts a further reference. -/
theorem Forest.kaddref (hb : Forest P L m v ρ) {r' : R} (hr : ρ r = some p) (hr' : ρ r' = none) :
    Total (kaddref L (4096 * p)) m fun _ m' =>
      Forest P L m' v (update ρ r' (some p)) ∧ m'.mem = m.mem := by
  have hu := hb.ref_usable hr
  refine (kaddref_spec hb.free hu (hb.exact.ref_rc hr).2).imp ?_
  rintro - m' ⟨hf, hrc', hm⟩
  refine ⟨⟨?_, hf, ?_, ?_⟩, hm⟩
  · rw [hm, hrc']
    exact hb.exact.share hr hr'
  · rw [hrc']
    exact hb.usable_update hu _
  · rw [hm]
    exact hb.shape

/-- A held page becomes a counted one. -/
theorem Forest.publish (hb : Forest P L m v ρ) {h : Handle} (hh : v.hnd h = some p)
    (hr : ρ r = none) : Forest P L m (v.setHnd h none) (update ρ r (some p)) := by
  refine ⟨?_, hb.free, hb.usable, hb.shape.set_hnd h _⟩
  rw [own_set_hnd]
  exact hb.exact.publish (o := .hnd h) hh hr

end Refs

/-! ## §3 Writes -/

section

variable (hb : Forest P L m v ρ)
include hb

/-- Writing a page that is in use but is no table page. -/
theorem Forest.write_data (hnt : NotTable m.mem v q) (hq : m.refcount q ≠ 0)
    (page : Page) :
    Forest P L { m with mem := update m.mem q page } v ρ ∧
      lf (update m.mem q page) v = lf m.mem v := by
  have hother : ∀ p, p ≠ q → update m.mem q page p = m.mem p := fun p hp =>
    update_of_ne hp _ _
  refine ⟨⟨?_, ?_, hb.usable, hb.shape.write_data hnt hother⟩, lf_write_data hnt hother⟩
  · rw [own_write_data hnt hother]
    exact hb.exact
  · exact hb.free.frame rfl (fun _ => Iff.rfl) (fun p _ h0 => hother p (by rintro rfl; exact hq h0))

/-- Writing a held page. -/
theorem Forest.write_hnd (hh : v.hnd h = some q) (page : Page) :
    Forest P L { m with mem := update m.mem q page } v ρ ∧
      lf (update m.mem q page) v = lf m.mem v ∧
      (∀ {r p}, ρ r = some p → update m.mem q page p = m.mem p) ∧
      Spares L (· = .hnd h) v m v { m with mem := update m.mem q page } := by
  have hrc : m.refcount q = 1 := hb.exact.own_rc (o := .hnd h) hh
  obtain ⟨h1, h2⟩ := hb.write_data (hb.hnd_notTable hh) (by omega) page
  refine ⟨h1, h2, fun {r p} hr => update_of_ne ?_ _ _, ?_⟩
  · rintro rfl
    exact hb.exact.own_ref (o := .hnd h) hh hr
  · exact .of_data (hb.hnd_notTable hh) (fun p hp => update_of_ne hp _ _)
      (hb.own_usable (o := .hnd h) hh)
      (fun k hk hq => hk (hb.distinct (o := .hnd k) (k := .hnd h) hq hh))

/-- Writing a counted page. -/
theorem Forest.write_ref (hr : ρ r = some q) (page : Page) :
    Forest P L { m with mem := update m.mem q page } v ρ ∧
      lf (update m.mem q page) v = lf m.mem v ∧
      Spares L (fun _ => False) v m v { m with mem := update m.mem q page } := by
  have hrc := (hb.exact.ref_rc hr).2
  obtain ⟨h1, h2⟩ := hb.write_data (hb.ref_notTable hr) (by omega) page
  exact ⟨h1, h2, .of_data (hb.ref_notTable hr) (fun p hp => update_of_ne hp _ _)
    (hb.ref_usable hr) (fun h _ hq => hb.exact.own_ref (o := .hnd h) hq hr)⟩

/-- Writing a leaf entry. Whether the page it refers to is counted is up to
the caller. -/
theorem Forest.write_leaf {vpn : Nat} (hv : vpn < 512 ^ 3)
    (ho : own m.mem v (.low t (vidx 2 vpn) (vidx 1 vpn)) = some q)
    (hw : hasFlag w pteV = true → P t vpn w) :
    Forest P L { m with mem := setWord m.mem q (vidx 0 vpn) w } v ρ ∧
      Stable m { m with mem := setWord m.mem q (vidx 0 vpn) w } v ρ ∧
      lf (setWord m.mem q (vidx 0 vpn) w) v = setEntry (lf m.mem v) t vpn (valid w) ∧
      Spares L (fun _ => False) v m v { m with mem := setWord m.mem q (vidx 0 vpn) w } := by
  have hown := own_write_leaf hb.distinct (k := vidx 0 vpn) ho w
  have hother : ∀ p, p ≠ q → setWord m.mem q (vidx 0 vpn) w p = m.mem p := fun p hp =>
    setWord_ne _ hp _ _
  have hheld : ∀ {h p}, v.hnd h = some p → p ≠ q := by
    rintro h _ hp rfl
    have := hb.distinct (k := .hnd h) ho hp
    cases this
  refine ⟨⟨?_, ?_, hb.usable, ?_⟩, ⟨⟨?_, fun hp => hother _ (hheld hp)⟩,
    fun h => by rw [hown]; exact h⟩, lf_write_leaf hb.distinct hv ho w,
    ⟨fun _ => by rw [hown], fun _ hp => hother _ (hheld hp), fun {p} hp => hother p ?_⟩⟩
  · rw [hown]
    exact hb.exact
  · refine hb.free.frame rfl (fun _ => Iff.rfl) (fun p _ h0 => hother p ?_)
    rintro rfl
    exact (hb.exact.unheld h0).1 _ ho
  · constructor
    · intro t' pg i hr
      have hne : pg ≠ q := by
        rintro rfl
        have := hb.distinct (o := .root t') hr ho
        cases this
      simp only [hother pg hne]
      exact hb.shape.dirMid i hr
    · intro t' i pg j hr
      simp only [hown] at hr
      have hne : pg ≠ q := by
        rintro rfl
        have := hb.distinct hr ho
        cases this
      simp only [hother pg hne]
      exact hb.shape.dirLow j hr
    · intro t' i hi
      simp only [hown]
      exact hb.shape.top t' i hi
    · intro t' vpn' w' h
      simp only [lf_write_leaf hb.distinct hv ho, setEntry] at h
      split at h
      · rename_i he
        obtain ⟨rfl, rfl⟩ := he
        obtain ⟨rfl, hV⟩ := valid_eq_some.mp h
        exact hw hV
      · exact hb.shape.leaf h
  · intro r p hp
    exact hother p (by rintro rfl; exact hb.exact.own_ref ho hp)
  · rintro rfl
    exact hp (hb.own_usable ho)

end

/-! ## §4 Linking and unlinking table pages -/

/-- No entry lies in the unused upper half. -/
theorem Shape.lf_lt (hs : Shape P mem v) {vpn : Nat} (h : lf mem v t vpn = some w) :
    vpn < 67108864 := by
  obtain ⟨hv, q, hq, -⟩ := lf_some h
  obtain ⟨pg, hpg, -⟩ := own_low_some hq
  by_contra hge
  have htop := hs.top t (vidx 2 vpn) (by simp only [vidx]; omega)
  rw [htop] at hpg
  cases hpg

/-- Directory entries of both levels. -/
theorem Shape.dir {i : Fin 512} {pg : Nat} (hs : Shape P mem v) (hup : o.up = some (k, i))
    (hk : own mem v k = some pg) :
    hasFlag (mem pg i) pteV = true → hasFlag (mem pg i) pteRwx = false := by
  cases o <;> cases hup
  · exact hs.dirMid i hk
  · exact hs.dirLow i hk

/-- Setting a directory entry: to an invalid entry or to an empty page, in
the lower half of a root. -/
theorem Shape.set_dir {pg c : Nat} {page : Page} {i : Fin 512} (hs : Shape P mem v)
    (hd : Distinct mem v) (hup : o.up = some (k, i)) (hk : own mem v k = some pg)
    (honly : OnlyTable mem v c o) (hlow : ∀ o' j, o'.up = some (o, j) → own mem v o' = none)
    (hempty : ∀ t a b, o = .low t a b → own mem v o = none ∨ own mem v o = some c ∧ Empty (mem c))
    (hw : EntryOk w c page)
    (hdir : hasFlag w pteV = true → hasFlag w pteRwx = false ∧ ∀ t i, o = .mid t i → i.val < 256) :
    Shape P (setWord (update mem c page) pg i w) v := by
  have hown := own_set_dir hd hup hk honly hlow hw
  have hpc : pg ≠ c := honly.ne hk (Owner.up_ne hup).1 (Owner.up_ne hup).2
  have hdirs : ∀ {o' k' : Owner} {i' pg'}, o'.up = some (k', i') →
      own (setWord (update mem c page) pg i w) v k' = some pg' →
      hasFlag (setWord (update mem c page) pg i w pg' i') pteV = true →
      hasFlag (setWord (update mem c page) pg i w pg' i') pteRwx = false := by
    intro o' k' i' pg' hup' hk'
    rw [hown] at hk'
    by_cases hko : k' = o
    · rw [hko, update_self] at hk'
      rcases hw with hw | ⟨hw, hc, hempty⟩
      · rw [hw] at hk'
        cases hk'
      · rw [hw, Option.map_some, hc] at hk'
        obtain rfl := Option.some.inj hk'
        rw [setWord_ne _ (Ne.symm hpc), update_self, hempty i']
        simp
    rw [update_of_ne hko] at hk'
    have hne : pg' ≠ c := honly.ne hk' hko (Owner.up_ne hup').2
    by_cases hpg : pg' = pg
    · subst hpg
      rw [setWord_self, update_of_ne hne]
      by_cases hi' : i' = i
      · subst hi'
        rw [update_self]
        exact fun hV => (hdir hV).1
      · rw [update_of_ne hi']
        exact hs.dir hup' hk'
    · rw [setWord_ne _ hpg, update_of_ne hne]
      exact hs.dir hup' hk'
  refine ⟨fun {t' _} i' hr => @hdirs (.mid t' i') _ _ _ rfl hr,
    fun {t' i' _} j hm => @hdirs (.low t' i' j) _ _ _ rfl hm, fun t' i' hi' => ?_, fun h => ?_⟩
  · rw [hown]
    by_cases he : Owner.mid t' i' = o
    · rw [he, update_self]
      rcases hw with hw | ⟨hw, -, -⟩
      · rw [hw]; rfl
      · have := (hdir (valid_eq_some.mp hw).2).2 t' i' he.symm
        omega
    · rw [update_of_ne he]
      exact hs.top t' i' hi'
  · rw [lf_set_dir hd hup hk honly hlow hw hempty] at h
    exact hs.leaf h

/-- Setting or clearing the root of a table without lower pages. -/
theorem Shape.set_root {c : Nat} {page : Page} {x : Option Nat} (hs : Shape P mem v)
    (honly : OnlyTable mem v c (.root t)) (hmid : ∀ i, own mem v (.mid t i) = none)
    (hx : x = none ∨ x = some c ∧ Empty page) :
    Shape P (update mem c page) (v.setRoot t x) := by
  have hown := own_set_root honly hmid hx
  have hlf := lf_set_root honly hmid hx
  constructor
  · intro t' pg i hr
    by_cases ht : t' = t
    · subst ht
      rw [View.setRoot_root, update_self] at hr
      rcases hx with rfl | ⟨rfl, he⟩
      · cases hr
      · obtain rfl := Option.some.inj hr
        rw [update_self, he i]
        simp
    · rw [View.setRoot_root, update_of_ne ht] at hr
      rw [update_of_ne (honly.ne (k := .root t') hr (by simp [ht]) (by simp))]
      exact hs.dirMid i hr
  · intro t' i pg j ho
    rw [hown, update_of_ne (by simp)] at ho
    rw [update_of_ne (honly.ne ho (by simp) (by simp))]
    exact hs.dirLow j ho
  · intro t' i hi
    rw [hown, update_of_ne (by simp)]
    exact hs.top t' i hi
  · intro t' vpn w h
    rw [hlf] at h
    exact hs.leaf h

theorem valid_dir (p : Nat) :
    valid (pa2pte (4096 * p) ||| pteV) = some (pa2pte (4096 * p) ||| pteV) := by
  rw [valid_eq_some]
  exact ⟨rfl, by rw [hasFlag_mk _ _ (by decide)]; decide⟩

theorem entryOk_dir (hp : p < 2 ^ 44) :
    EntryOk (pa2pte (4096 * p) ||| pteV) p (fillPage 0) :=
  .inr ⟨valid_dir p, ppn_mk hp (by decide), empty_zero⟩

theorem dir_noRwx (p : Nat) : hasFlag (pa2pte (4096 * p) ||| pteV) pteRwx = false := by
  rw [hasFlag_mk _ _ (by decide)]
  decide

/-- The page `p` zeroed and entered in `pg` as a directory entry. -/
def linkPage (m : Mach) (p pg : Nat) (i : Fin 512) : Mach :=
  { m with mem := setWord (update m.mem p (fillPage 0)) pg i (pa2pte (4096 * p) ||| pteV) }

/-- One table page was linked in as `o`; nothing else changed. -/
structure Linked (P : TableId → Nat → Word → Prop) (L : Layout) (m m' : Mach) (v : View)
    (ρ : R → Option Nat) (o : Owner) (p : Nat) : Prop extends Quiet m m' v ρ where
  base : Forest P L m' v ρ
  vacant : own m.mem v o = none
  own_eq : own m'.mem v = update (own m.mem v) o (some p)
  taken : avail L m = avail L m' + 1

/-- Only the table that got a page is concerned. -/
theorem Linked.spares (h : Linked P L m m' v ρ o p)
    (hraw : ∀ {q}, ¬ L.Usable q → m'.mem q = m.mem q) : Spares L (· = o) v m v m' :=
  ⟨fun ho => by rw [h.own_eq, update_of_ne ho], fun _ hq => h.hnd hq, hraw⟩

/-- A role that was vacant is filled. -/
theorem own_keep {x : Option Nat} (hnone : own mem v o = none) (h : own mem v k = some q) :
    update (own mem v) o x k = some q := by
  rw [update_of_ne, h]
  rintro rfl
  rw [hnone] at h
  cases h

section Link

variable {p pg : Nat} {i : Fin 512} {m1 : Mach} {o k : Owner}

omit [Fintype R] in
theorem linkPage_raw (hm : m1.mem = update m.mem p (fillPage 5)) (hu : L.Usable p)
    (hug : L.Usable pg) {q : Nat} (hq : ¬ L.Usable q) : (linkPage m1 p pg i).mem q = m.mem q := by
  have hqp : q ≠ p := by
    rintro rfl
    exact hq hu
  have hqg : q ≠ pg := by
    rintro rfl
    exact hq hug
  simp only [linkPage, setWord_ne _ hqg, update_of_ne hqp, hm]

/-- The parts of linking that do not depend on the level. -/
theorem link_free (hb : Forest P L m v ρ) (h0 : m.refcount p = 0)
    (hf : FreeOk L m1) (hm : m1.mem = update m.mem p (fillPage 5))
    (hr : m1.refcount = update m.refcount p 1) (ho : own m.mem v o = some pg)
    (hnh : ∀ h, o ≠ .hnd h) :
    (linkPage m1 p pg i).mem =
        setWord (update m.mem p (fillPage 0)) pg i (pa2pte (4096 * p) ||| pteV) ∧
      FreeOk L (linkPage m1 p pg i) ∧ Untouched m (linkPage m1 p pg i) v ρ := by
  have hm2 : (linkPage m1 p pg i).mem =
      setWord (update m.mem p (fillPage 0)) pg i (pa2pte (4096 * p) ||| pteV) := by
    simp only [linkPage, hm, update_idem]
  obtain ⟨hno, hnr⟩ := hb.exact.unheld h0
  have hpp : pg ≠ p := by
    rintro rfl
    exact hno o ho
  have hother : ∀ q, q ≠ p → q ≠ pg → (linkPage m1 p pg i).mem q = m.mem q := by
    intro q hqp hqg
    rw [hm2, setWord_ne _ hqg, update_of_ne hqp]
  refine ⟨hm2, ?_, ?_, ?_⟩
  · refine hf.frame rfl (fun q => Iff.rfl) (fun q _ hq => ?_)
    have hqp : q ≠ p := by
      rintro rfl
      rw [hr, update_self] at hq
      omega
    have hqg : q ≠ pg := by
      rintro rfl
      rw [hr, update_of_ne hpp, hb.exact.own_rc ho] at hq
      omega
    rw [hother q hqp hqg, hm, update_of_ne hqp]
  · intro r q hq
    refine hother q ?_ ?_
    · rintro rfl
      exact hnr r hq
    · rintro rfl
      exact hb.exact.own_ref ho hq
  · intro h q hq
    refine hother q ?_ ?_
    · rintro rfl
      exact hno (.hnd h) hq
    · rintro rfl
      exact hnh h (hb.distinct (k := .hnd h) ho hq)

/-- A free page is linked in where there is none. -/
theorem link_dir (hb : Forest P L m v ρ) (hup : o.up = some (k, i)) (hk : own m.mem v k = some pg)
    (hnone : own m.mem v o = none) (htop : ∀ t i, o = .mid t i → i.val < 256) (hu : L.Usable p)
    (h0 : m.refcount p = 0) (hf : FreeOk L m1) (hm : m1.mem = update m.mem p (fillPage 5))
    (hr : m1.refcount = update m.refcount p 1) :
    Linked P L m (linkPage m1 p pg i) v ρ o p := by
  obtain ⟨hm2, hfree, hsame⟩ := link_free (i := i) hb h0 hf hm hr hk (Owner.up_ne hup).2
  have hwc := entryOk_dir hu.lt_ppn
  have hlow : ∀ o' j, o'.up = some (o, j) → own m.mem v o' = none := fun o' j h => by
    rw [own_up h, hnone, Option.bind_none]
  have honly := hb.free_only h0 o
  have hown := own_set_dir hb.distinct hup hk honly hlow hwc
  rw [valid_dir, Option.map_some, ppn_mk hu.lt_ppn (by decide)] at hown
  refine ⟨⟨⟨hsame, fun ho => ?_⟩, ?_⟩, ⟨?_, hfree, ?_, ?_⟩, hnone, by rw [hm2, hown],
    avail_acquire hu h0 hr⟩
  · rw [hm2, hown]
    exact own_keep hnone ho
  · rw [hm2]
    exact lf_set_dir hb.distinct hup hk honly hlow hwc fun _ _ _ _ => .inl hnone
  · rw [hm2, hown]
    show Exact m1.refcount _ _
    rw [hr]
    exact hb.exact.acquire h0 hnone
  · show ∀ q, m1.refcount q ≠ 0 → _
    rw [hr]
    exact hb.usable_update hu 1
  · rw [hm2]
    exact hb.shape.set_dir hb.distinct hup hk honly hlow (fun _ _ _ _ => .inl hnone) hwc
      (fun _ => ⟨dir_noRwx p, htop⟩)

/-- One table page was freed and its directory entry cleared. -/
structure Unlinked (P : TableId → Nat → Word → Prop) (L : Layout) (m m' : Mach) (v : View)
    (ρ : R → Option Nat) (o : Owner) : Prop
    extends Untouched m m' v ρ where
  lf_eq : lf m'.mem v = lf m.mem v
  base : Forest P L m' v ρ
  own_eq : own m'.mem v = update (own m.mem v) o none

theorem Unlinked.spares (h : Unlinked P L m m' v ρ o)
    (hraw : ∀ {q}, ¬ L.Usable q → m'.mem q = m.mem q) : Spares L (· = o) v m v m' :=
  ⟨fun ho => by rw [h.own_eq, update_of_ne ho], fun _ hq => h.hnd hq, hraw⟩

omit [Fintype R] in
/-- Freeing a table page and clearing its entry writes only those two pages. -/
theorem unlink_raw (hother : ∀ q, q ≠ p → m1.mem q = m.mem q) (hu : L.Usable p)
    (hug : L.Usable pg) {q : Nat} (hq : ¬ L.Usable q) :
    setWord m1.mem pg i 0#64 q = m.mem q := by
  rw [setWord_ne _ (by rintro rfl; exact hq hug), hother q (by rintro rfl; exact hq hu)]

/-- The parts of unlinking that do not depend on the level: `m1` is the
state after `kfree` of page `p`, whose directory entry is still there. -/
theorem unlink_free (hb : Forest P L m v ρ) (hup : o.up = some (k, i)) (ho : own m.mem v o = some p)
    (ho' : own m.mem v k = some pg) (hf : FreeOk L m1)
    (hr : m1.refcount = update m.refcount p (m.refcount p - 1))
    (hother : ∀ q, q ≠ p → m1.mem q = m.mem q) :
    setWord m1.mem pg i 0#64 = setWord (update m.mem p (m1.mem p)) pg i 0#64 ∧
      FreeOk L { m1 with mem := setWord m1.mem pg i 0#64 } ∧
      Untouched m { m1 with mem := setWord m1.mem pg i 0#64 } v ρ ∧
      m1.refcount = update m.refcount p 0 := by
  have hm1 : m1.mem = update m.mem p (m1.mem p) := by
    funext q
    by_cases hq : q = p
    · subst hq; rw [update_self]
    · rw [update_of_ne hq, hother q hq]
  have hpp : pg ≠ p := by
    rintro rfl
    exact (Owner.up_ne hup).1 (hb.distinct ho' ho)
  have hsame : ∀ q, q ≠ p → q ≠ pg → setWord m1.mem pg i 0#64 q = m.mem q := by
    intro q hqp hqg
    rw [setWord_ne _ hqg, hother q hqp]
  refine ⟨by rw [← hm1], ?_, ⟨fun {r q} hq => ?_, fun {h q} hq => ?_⟩, ?_⟩
  · refine hf.frame rfl (fun _ => Iff.rfl) (fun q _ hq => setWord_ne _ ?_ _ _)
    rintro rfl
    rw [hr, update_of_ne hpp, hb.exact.own_rc ho'] at hq
    omega
  · refine hsame q ?_ ?_
    · rintro rfl
      exact hb.exact.own_ref ho hq
    · rintro rfl
      exact hb.exact.own_ref ho' hq
  · refine hsame q ?_ ?_
    · rintro rfl
      obtain rfl := hb.distinct (k := .hnd h) ho hq
      cases hup
    · rintro rfl
      exact (Owner.up_ne hup).2 h (hb.distinct (k := .hnd h) ho' hq)
  · rw [hr, hb.exact.own_rc ho]
    rfl

/-- `kfree` of a table page without lower pages and without entries. -/
theorem Forest.unlink (hb : Forest P L m v ρ) (hup : o.up = some (k, i))
    (hk : own m.mem v k = some pg) (ho : own m.mem v o = some p)
    (hlow : ∀ o' j, o'.up = some (o, j) → own m.mem v o' = none)
    (he : ∀ t a b, o = .low t a b → Empty (m.mem p)) :
    Total (Vm.kfree L (4096 * p)) m fun _ m1 =>
      Unlinked P L m { m1 with mem := setWord m1.mem pg i 0#64 } v ρ o ∧
        Spares L (· = o) v m v { m1 with mem := setWord m1.mem pg i 0#64 } := by
  refine (kfree_spec hb.free (hb.own_usable ho) (by rw [hb.exact.own_rc ho])).imp ?_
  rintro - m1 ⟨hf, hr, hother, -⟩
  obtain ⟨hm2, hfree, hsame, hr'⟩ := unlink_free hb hup ho hk hf hr hother
  have honly := hb.own_only ho
  have hw := entryOk_zero p (m1.mem p)
  have hempty : ∀ t a b, o = .low t a b →
      own m.mem v o = none ∨ own m.mem v o = some p ∧ Empty (m.mem p) :=
    fun t a b h => .inr ⟨ho, he t a b h⟩
  have hown := own_set_dir hb.distinct hup hk honly hlow hw
  rw [valid_zero, Option.map_none] at hown
  suffices hul : Unlinked P L m { m1 with mem := setWord m1.mem pg i 0#64 } v ρ o from
    ⟨hul, hul.spares (unlink_raw hother (hb.own_usable ho) (hb.own_usable hk))⟩
  refine ⟨hsame, ?_, ⟨?_, hfree, ?_, ?_⟩, by rw [hm2, hown]⟩
  · rw [hm2]
    exact lf_set_dir hb.distinct hup hk honly hlow hw hempty
  · rw [hm2, hown]
    rw [hr']
    exact hb.exact.release ho
  · rw [hr']
    exact hb.usable_update (hb.own_usable ho) 0
  · rw [hm2]
    exact hb.shape.set_dir hb.distinct hup hk honly hlow hempty hw (fun h => by cases h)

end Link

/-- A held empty page becomes the root of a table. -/
theorem Forest.link_root (hb : Forest P L m v ρ) (hh : v.hnd h = some p) (he : Empty (m.mem p))
    (hroot : v.root t = none) :
    Forest P L m ((v.setHnd h none).setRoot t (some p)) ρ ∧
      lf m.mem ((v.setHnd h none).setRoot t (some p)) = lf m.mem v ∧
      Spares L (fun o => o = .hnd h ∨ o = .root t) v m
        ((v.setHnd h none).setRoot t (some p)) m := by
  have honly : OnlyTable m.mem (v.setHnd h none) p (.root t) := by
    intro o ho
    rw [own_set_hnd] at ho
    exact absurd rfl (hb.exact.own_without (o := .hnd h) hh ho).2
  have hmid : ∀ i, own m.mem (v.setHnd h none) (.mid t i) = none := by
    simp [own, hroot]
  have hx : (some p : Option Nat) = none ∨ some p = some p ∧ Empty (m.mem p) := .inr ⟨rfl, he⟩
  have hown := own_set_root honly hmid hx
  have hlf := lf_set_root honly hmid hx
  have hshape := (hb.shape.set_hnd h none).set_root honly hmid hx
  rw [update_eq_self] at hown hlf hshape
  refine ⟨⟨?_, hb.free, hb.usable, hshape⟩, hlf, fun {o} ho => ?_, fun _ _ => rfl, fun _ => rfl⟩
  · rw [hown, own_set_hnd]
    exact hb.exact.move (o := .hnd h) (k := .root t) hh hroot
  · rw [hown, update_of_ne (fun e => ho (.inr e)), own_set_hnd, update_of_ne (fun e => ho (.inl e))]

/-- `kfree` of the root of a table without lower pages. -/
theorem Forest.kfree_root (hb : Forest P L m v ρ) (hroot : v.root t = some p)
    (hmid : ∀ i, own m.mem v (.mid t i) = none) :
    Total (Vm.kfree L (4096 * p)) m fun _ m' =>
      Forest P L m' (v.setRoot t none) ρ ∧ Untouched m m' v ρ ∧
        lf m'.mem (v.setRoot t none) = lf m.mem v ∧
        Spares L (· = .root t) v m (v.setRoot t none) m' := by
  have hrc : m.refcount p = 1 := hb.exact.own_rc (o := .root t) hroot
  have hu : L.Usable p := hb.own_usable (o := .root t) hroot
  have honly : OnlyTable m.mem v p (.root t) := hb.own_only hroot
  refine (kfree_spec hb.free hu (by omega)).imp ?_
  rintro - m' ⟨hf, hr, hother, -⟩
  have hm : m'.mem = update m.mem p (m'.mem p) := by
    funext q
    by_cases hq : q = p
    · subst hq; rw [update_self]
    · rw [update_of_ne hq, hother q hq]
  have hr' : m'.refcount = update m.refcount p 0 := by rw [hr, hrc]; rfl
  have hx : (none : Option Nat) = none ∨ none = some p ∧ Empty (m'.mem p) := .inl rfl
  have hheld : ∀ {h q}, v.hnd h = some q → q ≠ p := by
    rintro h _ hq rfl
    have := hb.distinct (o := .root t) (k := .hnd h) hroot hq
    cases this
  refine ⟨⟨?_, hf, ?_, ?_⟩, ⟨fun {r q} hq => ?_, fun hq => hother _ (hheld hq)⟩, ?_,
    ⟨fun {o} ho => ?_, fun _ hq => hother _ (hheld hq), fun {q} hq => hother q ?_⟩⟩
  · rw [hm, own_set_root honly hmid hx, hr']
    exact hb.exact.release (o := .root t) hroot
  · rw [hr']
    exact hb.usable_update hu 0
  · rw [hm]
    exact hb.shape.set_root honly hmid hx
  · exact hother q (by rintro rfl; exact hb.exact.own_ref (o := .root t) hroot hq)
  · rw [hm]
    exact lf_set_root honly hmid hx
  · rw [hm, own_set_root honly hmid hx, update_of_ne ho]
  · rintro rfl
    exact hq hu

end Xv6.Vm
