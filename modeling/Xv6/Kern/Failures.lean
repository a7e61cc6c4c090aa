/-
Xv6.Kern.Failures — calls that fail leave no trace.

A failed `fork` or `exec` has taken pages and given them back. That the books
are as before is not shown page by page: the reference counts and the free
list follow from who owns which page and which entries name it, and those are
the same again.
§1 the books, §2 `fork`, §3 `exec`.
-/
import Xv6.Kern.ExecTheorems
import Xv6.Sys.Copying

namespace Xv6.Kern

open Xv6.Vm Xv6.Lib
open Function

variable {L : Layout} {f f' : Entries} {c c' : Slot → Page} {s s' : Sys}
  {m m' : Mach} {v v' : View} {i : Fin nproc} {k k' : Kernel}

/-! ## §1 The books -/

/-- Every page is counted as before, and the same pages are free. -/
structure Restored (L : Layout) (m m' : Mach) : Prop where
  counts : m'.refcount = m.refcount
  free : ∃ fl fl', FreeChain m.mem m.freelist fl ∧ FreeChain m'.mem m'.freelist fl' ∧
    (∀ p, p ∈ fl → L.Usable p) ∧ ∀ p, p ∈ fl' ↔ p ∈ fl

theorem Restored.refl {ρ : Slot → Option Nat} (hb : Base L m v ρ) : Restored L m m := by
  obtain ⟨fl, hchain, -, hfl⟩ := hb.free
  exact ⟨rfl, fl, fl, hchain, hchain, fun p hp => ((hfl p).mp hp).1, fun _ => Iff.rfl⟩

/-- The same owners and the same references make the same books. -/
theorem restored_of {ρ : Slot → Option Nat} (hb : Base L m v ρ) (hb' : Base L m' v' ρ)
    (hown : own m'.mem v' = own m.mem v) : Restored L m m' := by
  have hex := hb'.exact
  rw [hown] at hex
  have hrc := hb.exact.unique hex
  obtain ⟨fl, hchain, -, hfl⟩ := hb.free
  obtain ⟨fl', hchain', -, hfl'⟩ := hb'.free
  refine ⟨hrc, fl, fl', hchain, hchain', fun p hp => ((hfl p).mp hp).1, fun p => ?_⟩
  rw [hfl, hfl', hrc]

/-- A table without a root has no pages. -/
theorem own_of_no_root {mem : Nat → Page} {t : TableId} (hr : v.root t = none) {o : Owner}
    (ho : o.In t) : own mem v o = none := by
  cases o with
  | root t' =>
    cases ho
    exact hr
  | mid t' a =>
    cases ho
    simp [own, hr]
  | low t' a b =>
    cases ho
    simp [own, hr]
  | hnd h => exact ho.elim

/-- A slot that is not in use owns nothing. -/
theorem unused_owns (h : SysInv L none f c s) {np : Fin nproc}
    (hu : (s.procs np).state = .unused) {o : Owner} (ho : SlotOwns np o) :
    own s.mach.mem (view s) o = none := by
  obtain ⟨-, -, -, hroot, hframe⟩ := h.unused (by simp) hu
  rcases ho with (rfl | ho) | rfl
  · rfl
  · exact own_of_no_root hroot ho
  · exact hframe

theorem owners_same {np : Fin nproc} (ho : OnlySlot L np s s') (h : SysInv L none f c s)
    (h' : SysInv L none f' c' s') (hu : (s.procs np).state = .unused)
    (hu' : (s'.procs np).state = .unused) :
    own s'.mach.mem (view s') = own s.mach.mem (view s) := by
  funext o
  by_cases hmine : SlotOwns np o
  · rw [unused_owns h hu hmine, unused_owns h' hu' hmine]
  · exact ho.spares.role hmine

/-! ## §2 fork -/

/-- `kfork` that returns -1 is the `kfork` of the memory part, and no file
has been looked at. -/
theorem kfork_none {Q : Option (Fin nproc × Nat) → Sys → Prop}
    (hk : Total (Xv6.kfork L i) k.sys Q) :
    Meets InFiles (kfork L i) k fun r k' => r = none → Q none k'.sys ∧ k' = k.setSys k'.sys := by
  obtain ⟨r0, s0, hrun, hQ⟩ := hk.elim
  obtain ⟨a, s1, halloc, hrest⟩ := run_bind_elim hrun
  refine Meets.bind (meets_onSys halloc ?_)
  cases a with
  | none =>
    cases hrest
    exact meets_pure fun _ => ⟨hQ, rfl⟩
  | some np =>
    obtain ⟨p, t, hp, hrest⟩ := run_bind_elim hrest
    cases hp
    obtain ⟨q, t, hq, hrest⟩ := run_bind_elim hrest
    cases hq
    obtain ⟨n, s2, hcopy, hrest⟩ := run_bind_elim hrest
    obtain ⟨m, hmach, rfl⟩ := run_focus_elim hcopy
    refine Meets.bind (meets_onSys (a := s1.procs i) (s := s1) rfl ?_)
    refine Meets.bind (meets_onSys (a := s1.procs np) (s := s1) rfl ?_)
    refine Meets.bind (meets_onMach hmach ?_)
    by_cases hn : n < 0
    · rw [if_pos hn] at hrest ⊢
      obtain ⟨_, s3, hfree, hrest⟩ := run_bind_elim hrest
      cases hrest
      refine Meets.bind (meets_onSys hfree (meets_pure fun _ => ⟨hQ, rfl⟩))
    · rw [if_neg hn]
      -- from here on the call succeeds, unless the file layer stops it
      refine Meets.bind (meets_onSys rfl (Meets.bind (meets_onMach rfl ?_)))
      refine Meets.bind (meets_onSys rfl (Meets.bind ?_))
      refine meets_embed (D := fun _ => True) ?_ (fun e _ => ⟨e, rfl⟩)
      cases hfork : (Files.forkFiles i np).run _ with
      | error e => exact .error hfork trivial
      | ok r =>
        refine .ok hfork (meets_read (meets_update ?_))
        exact Meets.bind (meets_onSys rfl (Meets.bind
          (meets_onSys rfl (meets_pure fun h => by cases h))))

/-- What a failed fork by process `i` leaves as it was. -/
structure ForkUntraced (L : Layout) (i : Fin nproc) (k k' : Kernel) : Prop where
  books : Restored L k.sys.mach k'.sys.mach
  -- the slot that was chosen is one of the free ones
  free : ∀ j, (k.sys.procs j).state = .unused →
    (k'.sys.procs j).state = .unused ∧ (k'.sys.procs j).pagetable = 0
  used : ∀ j, (k.sys.procs j).state ≠ .unused → k'.sys.procs j = k.sys.procs j
  regs : ∀ j, (k.sys.procs j).state ≠ .unused →
    k'.sys.mach.mem ((k.sys.procs j).trapframe / pgSize) =
      k.sys.mach.mem ((k.sys.procs j).trapframe / pgSize)
  files : k'.fs = k.fs
  -- every page stays where it is, and what could be written is still writable or marked
  pages : ∀ j vpn w, vpn < userPages → pte k.sys j vpn = some w →
    ∃ w', pte k'.sys j vpn = some w' ∧ ppn w' = ppn w ∧
      k'.sys.mach.mem (ppn w) = k.sys.mach.mem (ppn w) ∧
      (w' = w ∨ j = i ∧ hasFlag w pteW = true ∧ hasFlag w' pteCow = true) ∧
      (hasFlag w pteW = true → hasFlag w' pteW = true ∨ hasFlag w' pteCow = true)
  absent : ∀ j vpn, vpn < userPages → pte k.sys j vpn = none → pte k'.sys j vpn = none
  -- so a store that needed no fault before succeeds and does the same
  stores : ∀ (va : Word) (b : Byte) (w : Word), (k.sys.procs i).killed = false →
    pte k.sys i (va.toNat / pgSize) = some w → hasFlag w pteU = true → hasFlag w pteW = true →
    Total (userStore L i va.toNat b 2) k'.sys fun r s => r = true ∧ s.procs = k'.sys.procs ∧
      ∀ j a, a / pgSize < userPages →
        memByte s j a = if j = i ∧ a = va.toNat then b else memByte k.sys j a

/-- The entries a failed fork leaves name the pages they named. -/
theorem downed_word (h : SysInv L none f c s) (hd : Downed f f' (.proc i))
    (hother : ∀ t, t ≠ .proc i → f' t = f t) (j : Fin nproc) {vpn : Nat} (hv : vpn < userPages)
    {w : Word} (hw : f (.proc j) vpn = some w) :
    ∃ w', f' (.proc j) vpn = some w' ∧ ppn w' = ppn w ∧ hasFlag w' pteU = hasFlag w pteU ∧
      (w' = w ∨ j = i ∧ hasFlag w pteW = true ∧ hasFlag w' pteCow = true) := by
  by_cases hj : j = i
  · subst hj
    rcases hd vpn with he | ⟨w0, hw0, he⟩
    · exact ⟨w, by rw [he, hw], rfl, rfl, .inl rfl⟩
    · obtain rfl : w0 = w := Option.some.inj (hw0.symm.trans hw)
      have hleaf : uleaf f (.proc j, ⟨vpn, hv⟩) = some w0 := by rw [uleaf_eq (by simp), hw]
      have hlt := (h.inv.base.ref_usable (uref_of_uleaf hleaf)).lt_ppn
      refine ⟨downWord w0, he, ppn_downWord hlt,
        downWord_flag w0 (by decide) (by decide) (by decide) (by decide), ?_⟩
      cases hW : hasFlag w0 pteW with
      | false => exact .inl (by rw [downWord, if_neg (by rw [hW]; simp)])
      | true =>
        refine .inr ⟨rfl, rfl, ?_⟩
        rw [downWord, if_pos hW, hasFlag_mk _ _ (by decide), downFlags_Cow]
  · exact ⟨w, by rw [hother _ (by simpa using hj), hw], rfl, rfl, .inl rfl⟩

/-- What a store leaves, byte by byte. -/
theorem stored_bytes (h : SysInv L none f c s) (h' : SysInv L none f' c' s') {va : Nat} {b : Byte}
    (hpoke : Poked c c' (.proc i) va [b]) (j : Fin nproc) (a : Nat) (ha : a / pgSize < userPages) :
    memByte s' j a = if j = i ∧ a = va then b else memByte s j a := by
  rw [h'.memByte_eq j ha, h.memByte_eq j ha, hpoke (.proc j) a]
  by_cases he : j = i ∧ a = va
  · obtain ⟨rfl, rfl⟩ := he
    simp
  · rw [if_neg he, if_neg]
    rintro ⟨hj, h1, h2⟩
    simp only [List.length_singleton] at h2
    exact he ⟨by simpa using hj, by omega⟩

theorem untraced_of (h : SysInv L none f c k.sys) (hu : (k.sys.procs i).state ≠ .unused)
    (hs : ∃ np f', np ≠ i ∧ (k.sys.procs np).state = .unused ∧ (s'.procs np).state = .unused ∧
      OnlySlot L np k.sys s' ∧ SysInv L none f' c s' ∧ Downed f f' (.proc i) ∧
      ∀ t, t ≠ .proc i → f' t = f t) : ForkUntraced L i k (k.setSys s') := by
  obtain ⟨np, f', hne, hfree, hfree', honly, h', hd, hother⟩ := hs
  have hwords := fun j {vpn} (hv : vpn < userPages) {w} => downed_word h hd hother j hv (w := w)
  have habsent : ∀ j vpn, f (.proc j) vpn = none → f' (.proc j) vpn = none := by
    intro j vpn hn
    by_cases hj : j = i
    · subst hj
      rcases hd vpn with he | ⟨w, hw, -⟩
      · rw [he, hn]
      · rw [hn] at hw
        cases hw
    · rw [hother _ (by simpa using hj), hn]
  -- the references are the same
  have huref : uref f' = uref f := by
    funext ⟨t, vpn⟩
    by_cases ht : t = .proc i
    · subst ht
      simp only [uref, uleaf, reduceCtorEq, if_false]
      cases hw : f (.proc i) vpn with
      | none => rw [habsent i vpn hw]
      | some w =>
        obtain ⟨w', hw', hp, -⟩ := hwords i vpn.isLt hw
        rw [hw', Option.map_some, Option.map_some, hp]
    · simp only [uref, uleaf, hother t ht]
  have hbooks : Restored L k.sys.mach s'.mach :=
    restored_of h.inv.base (huref ▸ h'.inv.base) (owners_same honly h h' hfree hfree')
  have hused : ∀ j, (k.sys.procs j).state ≠ .unused → s'.procs j = k.sys.procs j := by
    intro j hj
    refine honly.procs j ?_
    rintro rfl
    exact hj hfree
  refine ⟨hbooks, fun j hj => ?_, hused, fun j hj => ?_, rfl, fun j vpn w hv hw => ?_,
    fun j vpn hv hn => ?_, fun va b w hlive hw hU hW => ?_⟩
  · have hj' : (s'.procs j).state = .unused := by
      by_cases hjn : j = np
      · rw [hjn]
        exact hfree'
      · rw [honly.procs j hjn, hj]
    exact ⟨hj', (h'.unused (by simp) hj').1⟩
  · obtain ⟨tf, -, htf, hh⟩ := h.frame (h.used hj).2
    have hq : (k.sys.procs j).trapframe / pgSize = tf := by rw [htf, mul_div_pgSize]
    rw [hq]
    refine honly.spares.hnd ?_ hh
    rintro ((e | e) | e)
    · cases e
    · exact e
    · cases e
      exact hj hfree
  · rw [h.pte_eq] at hw
    obtain ⟨w', hw', hp, -, hcase⟩ := hwords j hv hw
    have hpte' : pte s' j vpn = some w' := by rw [h'.pte_eq, hw']
    refine ⟨w', hpte', hp, ?_, hcase, fun hW => ?_⟩
    · rw [h.page_eq hv (by rw [h.pte_eq, hw]), ← hp]
      exact h'.page_eq hv hpte'
    · rcases hcase with rfl | ⟨-, -, hC⟩
      · exact .inl hW
      · exact .inr hC
  · rw [h.pte_eq] at hn
    exact (h'.pte_eq j vpn).trans (habsent j vpn hn)
  · rw [h.pte_eq, pgSize_eq] at hw
    have hv : va.toNat / 4096 < userPages := by
      by_contra hge
      rw [(h.inv.base.shape.leaf (h.inv.lf_eq ▸ hw)).2 (.inr (Nat.le_of_not_lt hge))] at hU
      cases hU
    obtain ⟨w', hw', hp, hU', hcase⟩ := hwords i hv hw
    have hrc : s'.mach.refcount (ppn w') = 1 := by
      rw [hp, hbooks.counts]
      have hleaf : uleaf f (.proc i, ⟨_, hv⟩) = some w := by
        rw [uleaf_eq (by simp), hw]
      exact h.count_writable hleaf hW
    have hopen : hasFlag w' pteW = true ∨
        hasFlag w' pteCow = true ∧ s'.mach.refcount (ppn w') = 1 := by
      rcases hcase with rfl | ⟨-, -, hC⟩
      · exact .inl hW
      · exact .inr ⟨hC, hrc⟩
    have hi := hused i hu
    refine (userStore_open h' (by rw [hi]; exact hu) (by rw [hi]; exact hlive) va.isLt b hw'
      (hU'.trans hU) hopen).imp ?_
    rintro r s ⟨rfl, hps, f2, c2, h2, -, hpoke⟩
    exact ⟨rfl, hps, stored_bytes h h2 hpoke⟩

theorem untraced_refl (h : SysInv L none f c k.sys) (hu : (k.sys.procs i).state ≠ .unused) :
    ForkUntraced L i k k where
  books := .refl h.inv.base
  free j hj := ⟨hj, (h.unused (by simp) hj).1⟩
  used _ _ := rfl
  regs _ _ := rfl
  files := rfl
  pages j vpn w _ hw := ⟨w, hw, rfl, rfl, .inl rfl, .inl⟩
  absent _ _ _ h := h
  stores va b w hlive hw hU hW := by
    rw [h.pte_eq, pgSize_eq] at hw
    refine (userStore_open h hu hlive va.isLt b hw hU (.inl hW)).imp ?_
    rintro r s ⟨rfl, hp, f', c', h', -, hpoke⟩
    exact ⟨rfl, hp, stored_bytes h h' hpoke⟩

/-- In every state the system reaches and for any open files, a fork that
returns -1 leaves no trace. -/
theorem failed_fork_untraced (L : Layout) (mem : Nat → Page) (ops : List Op) :
    Meets (· ∈ runPanics) (run L ops) (Sys.atReset mem) fun _ s =>
      ∀ i (k : Kernel), k.sys = s → (s.procs i).state ≠ .unused →
        Meets InFiles (kfork L i) k fun r k' => r = none → ForkUntraced L i k k' := by
  refine (run_spec L mem ops).imp ?_
  rintro _ s ⟨f, c, a, h, -, -⟩ i k rfl hu
  refine (kfork_none (kfork_end h hu)).imp ?_
  rintro r k' hnone hr
  obtain ⟨⟨-, hundone⟩, hk'⟩ := hnone hr
  rcases hundone rfl with hs | hs
  · rw [hk', hs]
    exact untraced_refl h hu
  · rw [hk']
    exact untraced_of h hu hs

/-! ## §3 exec -/

/-- What a failed exec leaves as it was. -/
structure ExecUndone (L : Layout) (sb : Files.Superblock) (k k' : Kernel) : Prop where
  -- every process, with its page table and its size
  procs : k'.sys.procs = k.sys.procs
  name : k'.name = k.name
  regs : ∀ j, (k.sys.procs j).state ≠ .unused →
    k'.sys.mach.mem ((k.sys.procs j).trapframe / pgSize) =
      k.sys.mach.mem ((k.sys.procs j).trapframe / pgSize)
  entries : ∀ j vpn, pte k'.sys j vpn = pte k.sys j vpn
  pages : ∀ j vpn w, vpn < userPages → pte k.sys j vpn = some w →
    k'.sys.mach.mem (ppn w) = k.sys.mach.mem (ppn w)
  books : Restored L k.sys.mach k'.sys.mach
  -- open files, and the references and locks of inodes
  files : FilesDone sb k k'

/-- The owners after a failed attempt to build a table. -/
theorem owners_back {t : TableId} (hs : Spares L (Mine t) v m v m') (hr : v.root t = none) :
    own m'.mem v = own m.mem v := by
  funext o
  by_cases hmine : Mine t o
  · rcases hmine with rfl | hin
    · rfl
    · rw [own_of_no_root hr hin, own_of_no_root hr hin]
  · exact hs.role hmine

/-- The memory of every process, before and after. -/
theorem memory_back (hi : Inv L v f c m) (hi' : Inv L v f c m') :
    lf m'.mem v = lf m.mem v ∧ ∀ t vpn w, vpn < userPages → t ≠ .kernel →
      lf m.mem v t vpn = some w → m'.mem (ppn w) = m.mem (ppn w) := by
  refine ⟨hi'.lf_eq.trans hi.lf_eq.symm, fun t vpn w hv ht hw => ?_⟩
  rw [hi.lf_eq] at hw
  have href : uref f (t, ⟨vpn, hv⟩) = some (ppn w) := uref_of_uleaf (by rw [uleaf_eq ht, hw])
  have hbefore : content m.mem f (t, ⟨vpn, hv⟩) = m.mem (ppn w) := content_some href
  have hafter : content m'.mem f (t, ⟨vpn, hv⟩) = m'.mem (ppn w) := content_some href
  rw [← hbefore, ← hafter, ← hi.data, ← hi'.data]

/-- In every state the system reaches, with the arguments fetched and any
open files, an exec of any path and argument vector that returns -1 has
changed nothing. The condition on the file system is its own invariant, which
holds after every run of file-system calls and which exec keeps. -/
theorem failed_exec_undone (L : Layout) (sb : Files.Superblock) (mem : Nat → Page)
    (ops : List Op) :
    Meets (· ∈ runPanics) (run L ops) (Sys.atReset mem) fun _ s =>
      ∀ i (uargv : Word), (s.procs i).state ≠ .unused →
        Total (vm (fetchArgs L (s.procs i).mm uargv.toNat maxArg 0 [])) s fun _ s1 =>
          ∀ (k : Kernel) (path : List Byte) (argv : List Nat), k.sys = s1 →
            Files.Inv sb False k.fs → (k.fs.procs i).isSome → (∀ e, k.held e = false) →
            Meets InFiles (kexec L sb i path argv) k fun r k' =>
              r = -1 → ExecUndone L sb k k' := by
  refine (run_spec L mem ops).imp ?_
  rintro _ s ⟨f, c, a, h, -, -⟩ i uargv hu
  refine meets_vm ((fetchArgs_fetched h hu uargv.toNat).imp ?_)
  rintro - m1 ⟨f1, ps, tf, h1, -, -⟩ k path argv hk hinv hproc hfree
  obtain ⟨x, hx⟩ := Option.isSome_iff_exists.mp hproc
  have hi1 := h1.inv
  have hmem := fun file => kexec_end h1 file argv
  rw [← hk] at hmem
  refine (kexec_spec hinv hx hfree hmem path).imp ?_
  rintro r k' ⟨⟨file, hend⟩, hfiles, hname⟩ hneg
  rcases hend with ⟨-, m', hs', hi', hs⟩ | ⟨img, -, -, -, -, -, -, hr', -⟩
  · obtain ⟨hlf, hpages⟩ := memory_back hi1 hi'
    refine ⟨?_, hname hneg, fun j hj => ?_, fun j vpn => ?_, fun j vpn w hv hw => ?_, ?_, hfiles⟩
    · rw [hs', hk]
      rfl
    · rw [hk] at hj
      obtain ⟨tfj, -, htfj, hhj⟩ := h.frame (i := j) (h.used hj).2
      have hq : (k.sys.procs j).trapframe / pgSize = tfj := by
        rw [hk, Sys.setMach_procs, htfj, mul_div_pgSize]
      rw [hq, hs', hk]
      have hv : ((view s).holdArgs 0 ps).hnd (.trapframe j) = some tfj := hhj
      exact hs.hnd (by rintro (e | e) <;> cases e) hv
    · rw [hs', hk]
      exact congrFun (congrFun hlf (.proc j)) vpn
    · rw [hk] at hw
      rw [hs', hk]
      exact hpages (.proc j) vpn w hv (by simp) hw
    · rw [hs', hk]
      exact restored_of hi1.base hi'.base (owners_back hs rfl)
  · omega

end Xv6.Kern
