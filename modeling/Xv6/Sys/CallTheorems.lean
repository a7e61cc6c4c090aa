/-
Xv6.Sys.CallTheorems — the system calls and faults of one process.

One lemma for each call of `Xv6.Sys.Kernel` that a process makes on its own
memory: what it does to that memory, and that it leaves the memory of every
other process alone, on its failure exits too.
-/
import Xv6.Sys.ProcTheorems

namespace Xv6

open Xv6.Vm Xv6.Lib
open Function

variable {L : Layout} {f f' : Entries} {c c' : Slot → Page} {s s' : Sys}
  {i : Fin nproc} {m : Mach} {sz tf : Nat} {n : Int}

/-! ## §1 How the calls end -/

/-- `sbrk` refuses: the size would pass the trapframe, or there is not enough
memory for the new pages. -/
def Refused (L : Layout) (s : Sys) (i : Fin nproc) (n : Int) (eager : Bool) : Prop :=
  (trapframeVa : Int) < (s.procs i).sz + n ∨
    eager = true ∧ 0 < n ∧ avail L s.mach < need s.mach.mem (view s) (.proc i)
      (upPage (s.procs i).sz) (upPage (newSize (s.procs i).sz n))

/-- The entries of a process whose end moves from page `a` to page `b`. -/
def Moved (f f' : Entries) (t : TableId) (a b : Nat) (fill : Prop) : Prop :=
  (fill → Grown f f' t a b (pteR ||| pteU ||| pteW)) ∧
    (¬ fill → f' = setRange f t b a fun _ => none)

/-- The trapframe page of a new image: its stack, its arguments and where it
starts. -/
def Vm.Image.regs (img : Image) (page : Page) : Page :=
  update (update (update page tfA1 (BitVec.ofNat 64 img.sp)) tfEpc (BitVec.ofNat 64 img.entry))
    tfSp (BitVec.ofNat 64 img.sp)

section

variable (L f c s i)

/-- `copyout` to process `i`: a stretch of `src` arrives. -/
def CopyoutEnd (va : Nat) (src : List Byte) (r : Int) (s' : Sys) : Prop :=
  ∃ m f' c' k, s' = s.setMach m ∧ SysInv L none f' c' s' ∧ Kept (· = i) s s' f f' c c' ∧
    Poked c c' (.proc i) va (src.take k) ∧ (r = 0 ∧ k = src.length ∨ r = -1 ∧ k ≤ src.length)

/-- How one pass of `kwait` ends. -/
def WaitPost (addr : Nat) (s' : Sys) : WaitResult → Prop
  | .reaped ch _ => ch ≠ i ∧ (s.procs ch).state = .zombie ∧ (s'.procs ch).sz = 0 ∧
      Same (s.procs i) (s'.procs i) ∧ ∃ f' c1,
        SysInv L none f' (clearTable c1 (.proc ch)) s' ∧
        Kept (fun j => j = i ∨ j = ch) s s' f f' c (clearTable c1 (.proc ch)) ∧
        Poked c c1 (.proc i) addr (if addr ≠ 0 then xstateBytes (s.procs ch).xstate else [])
  | .badAddr ch => ∃ f' c' k, s'.procs = s.procs ∧ SysInv L none f' c' s' ∧
      Kept (· = i) s s' f f' c c' ∧
      Poked c c' (.proc i) addr ((xstateBytes (s.procs ch).xstate).take k)
  | .noChild => s' = s
  | .blocked => SysInv L none f c s' ∧ Kept (· = i) s s' f f c c ∧
      (s'.procs i).sz = (s.procs i).sz ∧ (s'.procs i).state = .sleeping

/-- How `sbrk` of process `i` ends. -/
def SbrkPost (n : Int) (eager : Bool) (r : Int) (s' : Sys) : Prop :=
  Holds (view s) s.mach s'.mach ∧
  (r = -1 ∧ s'.procs = s.procs ∧ SysInv L none f c s' ∧ Kept (· = i) s s' f f c c ∧
      Refused L s i n eager ∨
    r = (s.procs i).sz ∧
      s'.procs = update s.procs i { s.procs i with sz := newSize (s.procs i).sz n } ∧ ∃ f' c',
      c' = zeroRange c (.proc i) (upPage (newSize (s.procs i).sz n)) (upPage (s.procs i).sz) ∧
      SysInv L none f' c' s' ∧ Kept (· = i) s s' f f' c c' ∧ ¬ Refused L s i n eager ∧
      Moved f f' (.proc i) (upPage (s.procs i).sz) (upPage (newSize (s.procs i).sz n))
        (eager = true ∧ 0 < n))

/-- What a call of `kexec` from machine `m` on leaves, while the argument pages
`ps` are held: everything as it was, or the process with the image `img`. The
entries `fe` and contents `ce` that the image was built with are now those of the
process. -/
def KexecEnd (ps : List Nat) (tf : Nat) (m : Mach)
    (built : Image → Entries → (Slot → Page) → Prop) (r : Int) (s' : Sys) : Prop :=
  (r = -1 ∧ ∃ m', s' = s.setMach m' ∧ Inv L ((view s).holdArgs 0 ps) f c m' ∧
    Spares L (Mine .exec) ((view s).holdArgs 0 ps) m ((view s).holdArgs 0 ps) m') ∨
  ∃ img m' p fe ce f' c', r = img.argc ∧ s' = (s.setProc i { s.procs i with
      pagetable := 4096 * p, sz := img.sz }).setMach m' ∧ 0 < p ∧ img.sz ≤ trapframeVa ∧
    Inv L (((view s).setRoot (.proc i) (some p)).holdArgs 0 ps) f' c' m' ∧
    (∀ t, t ≠ .proc i → f' t = f t) ∧ Sized f' (.proc i) img.sz ∧ AgreeOff c c' (.proc i) ∧
    f' (.proc i) = fe .exec ∧ (∀ vpn, c' (.proc i, vpn) = ce (.exec, vpn)) ∧
    m'.mem tf = img.regs (m.mem tf) ∧ built img fe ce

/-- How `sys_exec` of process `i` ends: with a new image, or with the memory
it had. -/
def ExecPost (r : Int) (s' : Sys) : Prop :=
  (r = -1 ∧ s'.procs = s.procs ∧ ∃ f', SysInv L none f' c s' ∧ Kept (· = i) s s' f f' c c) ∨
    0 ≤ r ∧ (s'.procs i).state = (s.procs i).state ∧
      ∃ f' c', SysInv L none f' c' s' ∧ Kept (· = i) s s' f f' c c'

end

/-! ## §2 Memory of one process -/

/-- Code that works on the memory of process `i` below its size. -/
theorem SysInv.memory (h : SysInv L none f c s) (hi : Inv L (view s) f' c' m)
    (hother : ∀ t, t ≠ .proc i → f' t = f t) (hsized : Sized f' (.proc i) (s.procs i).sz)
    (hc : AgreeOff c c' (.proc i)) :
    SysInv L none f' c' (s.setMach m) ∧ Kept (· = i) s (s.setMach m) f f' c c' := by
  have hk : Kept (· = i) s (s.setMach m) f f' c c' := Kept.memory hother hc
  refine ⟨h.next hk hi ?_ (fun j _ _ => h.whole j (by simp)), hk⟩
  rintro j rfl
  obtain ⟨a1, -, a3, a4⟩ := h.parts j
  exact ⟨a1, hsized, a3, a4⟩

/-- Code that at most takes page faults for process `i`. -/
theorem SysInv.faulted (h : SysInv L none f c s) (hi : Inv L (view s) f' c' m)
    (hf : Faulted f f' (.proc i) (s.procs i).sz) (hc : AgreeOff c c' (.proc i)) :
    SysInv L none f' c' (s.setMach m) ∧ Kept (· = i) s (s.setMach m) f f' c c' :=
  h.memory hi (fun _ ht => hf.other ht) (hf.sized (h.parts i).sized) hc

theorem procCopyout_spec (h : SysInv L none f c s) (hu : (s.procs i).state ≠ .unused) (va : Nat)
    (src : List Byte) :
    Total (vm (copyout L (s.procs i).mm (s.procs i).pagetable va src)) s
      (CopyoutEnd L f c s i va src) := by
  obtain ⟨pg, -, hpg, hr⟩ := h.root (h.used hu).1
  refine meets_vm ?_
  unfold Proc.mm
  rw [hpg]
  refine (copyout_end h.inv hr (by simp) rfl (h.parts i).size va src).imp ?_
  rintro r m ⟨f', c', k, ⟨hi, hf, -, -, hpoke, -, hend⟩, -⟩
  obtain ⟨h1, hk1⟩ := h.faulted hi hf (Poked.agreeOff hpoke)
  exact ⟨m, f', c', k, rfl, h1, hk1, hpoke, hend.imp_right fun he => ⟨he.1, he.2.1.le⟩⟩

/-! ## §3 wait -/

theorem findZombie_some {procs : Table} {p ch : Fin nproc} (h : findZombie procs p = some ch) :
    (procs ch).parent = some p ∧ (procs ch).state = .zombie := by
  simpa using List.find?_some h

/-- What a process that can act is not. -/
theorem Proc.ready_state {p : Proc} (h : p.ready = true) :
    p.state ≠ .unused ∧ p.state ≠ .zombie := by
  rcases of_decide_eq_true h with e | e <;> rw [e] <;> decide

/-- Freeing a zombie child. -/
theorem reap_spec {ch : Fin nproc} (h : SysInv L none f' c' s') (hne : ch ≠ i)
    (hk : Kept (· = i) s s' f f' c c') :
    Total (freeproc L ch) s' fun _ s'' =>
      (s''.procs ch).sz = 0 ∧ s''.procs i = s'.procs i ∧ ∃ f'',
        SysInv L none f'' (clearTable c' (.proc ch)) s'' ∧
        Kept (fun j => j = i ∨ j = ch) s s'' f f'' c (clearTable c' (.proc ch)) := by
  have h1 : SysInv L (some ch) f' c' s' :=
    ⟨h.inv, h.parts, fun j _ => h.whole j (by simp), h.kstacks, h.booting⟩
  refine (freeproc_spec h1).imp ?_
  rintro - s'' ⟨m, rfl, h2, -⟩
  refine ⟨?_, ?_, _, h2, (hk.mono (fun _ => .inl)).trans ((Kept.freed _).mono (fun _ => .inr))⟩
  · rw [Sys.setMach_procs, Sys.setProc_same]
    rfl
  · rw [Sys.setMach_procs, Sys.setProc_ne _ _ _ (Ne.symm hne)]

theorem kwait_spec (h : SysInv L none f c s) (hr : (s.procs i).ready = true) (addr : Nat) :
    Total (kwait L i addr) s fun r s' => WaitPost L f c s i addr s' r := by
  obtain ⟨hu, hz⟩ := Proc.ready_state hr
  refine meets_read ?_
  cases hfind : findZombie s.procs i with
  | none =>
    refine meets_ite (fun _ => meets_pure rfl) (fun _ => ?_)
    refine Meets.bind (meets_modifyProc (meets_pure ⟨?_, Kept.setProc _, ?_⟩))
    · refine h.setProc rfl rfl ?_ (fun _ => ?_) (fun _ _ h => h)
      · obtain ⟨a1, a2, a3, a4⟩ := h.parts i
        exact ⟨a1, a2, a3, a4⟩
      · exact (h.whole i (by simp)).state hu rfl rfl (by simp)
    · rw [Sys.setProc_same]
      exact ⟨rfl, rfl⟩
  | some ch =>
    obtain ⟨-, hch⟩ := findZombie_some hfind
    have hne : ch ≠ i := by
      rintro rfl
      exact hz hch
    dsimp only
    by_cases ha : addr ≠ 0
    · rw [if_pos ha]
      refine Meets.seq (procCopyout_spec h hu addr _) ?_
      rintro r s1 ⟨m1, f1, c1, k, rfl, h1, hk1, hpoke, ⟨rfl, rfl⟩ | ⟨rfl, -⟩⟩
      · refine Meets.seq (reap_spec h1 hne hk1) ?_
        rintro - s2 ⟨hsz, hi2, f2, h2, hk2⟩
        refine meets_pure ⟨hne, hch, hsz, by rw [hi2]; exact .refl _, f2, c1, h2, hk2, ?_⟩
        rwa [if_pos ha]
      · refine meets_if (by decide) (meets_pure ⟨f1, c1, k, rfl, h1, hk1, hpoke⟩)
    · rw [if_neg ha]
      refine Meets.bind (meets_pure (meets_else (by decide) ?_))
      refine Meets.seq (reap_spec h hne .refl) ?_
      rintro - s2 ⟨hsz, hi2, f2, h2, hk2⟩
      refine meets_pure ⟨hne, hch, hsz, by rw [hi2]; exact .refl _, f2, c, h2, hk2, ?_⟩
      rw [if_neg ha]
      exact Poked.nil

/-! ## §4 sbrk -/

/-- The memory of process `i` and its size changed. -/
theorem SysInv.resize (h : SysInv L none f c s) (hu : (s.procs i).state ≠ .unused)
    (hi : Inv L (view s) f' c' m) (hother : ∀ t, t ≠ .proc i → f' t = f t) (hsz : sz ≤ trapframeVa)
    (hsized : Sized f' (.proc i) sz) (hc : AgreeOff c c' (.proc i)) :
    SysInv L none f' c' ((s.setMach m).setProc i { s.procs i with sz := sz }) ∧
      Kept (· = i) s ((s.setMach m).setProc i { s.procs i with sz := sz }) f f' c c' := by
  have hk : Kept (· = i) s ((s.setMach m).setProc i { s.procs i with sz := sz }) f f' c c' :=
    (Kept.memory hother hc).trans (Kept.setProc _)
  refine ⟨h.next hk ?_ ?_ ?_, hk⟩
  · rw [view_setProc_same (by rfl) (by rfl), view_setMach]
    exact hi
  · rintro j rfl
    rw [Sys.setProc_same]
    exact ⟨hsz, hsized, (h.parts j).table, (h.parts j).frame⟩
  · rintro j - hj
    have hj : j = i := by simpa using hj
    subst hj
    rw [Sys.setProc_same]
    exact (h.whole j (by simp)).state hu rfl rfl hu

theorem addInt_eq (hsz : sz ≤ trapframeVa) (hlo : -(2 ^ 31) ≤ n) (hhi : n < 2 ^ 31) :
    addInt sz n = if 0 ≤ (sz : Int) + n then (sz + n).toNat
      else ((sz : Int) + n + 2 ^ 64).toNat := by
  rw [trapframeVa_eq] at hsz
  unfold addInt
  split <;> omega

/-- The size after `sbrk` of more memory. -/
theorem grown (hsz : sz ≤ trapframeVa) (hn : 0 ≤ n) (hhi : n < 2 ^ 31) :
    addInt sz n = (sz + n).toNat ∧ newSize sz n = addInt sz n ∧ sz ≤ addInt sz n := by
  have hadd := addInt_eq hsz (by omega) hhi
  rw [if_pos (by omega)] at hadd
  refine ⟨hadd, ?_, by omega⟩
  rw [hadd, newSize, if_pos (by omega)]

theorem zeroRange_agreeOff {t : TableId} {a b : Nat} : AgreeOff c (zeroRange c t a b) t :=
  fun _ hs => if_neg (fun e => hs e.1)

theorem upPage_mono {a b : Nat} (h : a ≤ b) : upPage a ≤ upPage b := by
  unfold upPage
  omega

section

variable (h : SysInv L none f c s) (hu : (s.procs i).state ≠ .unused)
include h hu

/-- `sbrk` with a negative argument. -/
theorem shrink_spec (hlo : -(2 ^ 31) ≤ n) (hneg : n < 0) (eager : Bool) :
    Total (do
      let sz ← vm (uvmdealloc L (s.procs i).pagetable (s.procs i).sz (addInt (s.procs i).sz n))
      modifyProc i fun p => { p with sz := sz }
      return 0) s fun r s' => r = (0 : Int) ∧ SbrkPost L f c s i n eager (s.procs i).sz s' := by
  obtain ⟨pg, -, hpg, hr⟩ := h.root (h.used hu).1
  have hsize := (h.parts i).size
  have hadd := addInt_eq hsize hlo (by omega)
  rw [trapframeVa_eq] at hsize
  -- the new size, or a value beyond the old one, which `uvmdealloc` refuses
  have hcase : addInt (s.procs i).sz n < (s.procs i).sz ∧
      newSize (s.procs i).sz n = addInt (s.procs i).sz n ∨
      (s.procs i).sz ≤ addInt (s.procs i).sz n ∧ newSize (s.procs i).sz n = (s.procs i).sz := by
    rw [hadd]
    unfold newSize
    split <;> omega
  refine meets_vm_seq (P := fun r m' => r = newSize (s.procs i).sz n ∧
    Inv L (view s) (setRange f (.proc i) (upPage (newSize (s.procs i).sz n))
      (upPage (s.procs i).sz) (fun _ => none)) (zeroRange c (.proc i)
        (upPage (newSize (s.procs i).sz n)) (upPage (s.procs i).sz)) m' ∧
    Holds (view s) s.mach m') ?_ ?_
  · rw [hpg]
    refine (uvmdealloc_spec h.inv hr (by simp) (h.parts i).size).imp ?_
    rintro r m' ⟨rfl, hi, hs⟩
    rw [← and_assoc]
    refine ⟨?_, fun ho => (hs.role id).trans ho⟩
    rcases hcase with ⟨hlt, hnew⟩ | ⟨hge, hnew⟩
    · rw [hnew]
      exact ⟨Nat.min_eq_right (Nat.le_of_lt hlt), hi⟩
    · rw [setRange_empty (upPage_mono hge), zeroRange_empty (upPage_mono hge)] at hi
      rw [hnew, setRange_empty (Nat.le_refl _), zeroRange_empty (Nat.le_refl _)]
      exact ⟨Nat.min_eq_left hge, hi⟩
  · rintro r m1 ⟨rfl, hi1, hkeep⟩
    have hle : newSize (s.procs i).sz n ≤ (s.procs i).sz := by omega
    have hsized : Sized (setRange f (.proc i) (upPage (newSize (s.procs i).sz n))
        (upPage (s.procs i).sz) (fun _ => none)) (.proc i) (newSize (s.procs i).sz n) := by
      intro vpn h1 h2
      by_cases hin : vpn < upPage (s.procs i).sz
      · exact setRange_in h1 hin
      · rw [setRange_out (fun e => hin e.2)]
        exact (h.parts i).sized vpn (Nat.le_of_not_lt hin) h2
    obtain ⟨h2, hk2⟩ := h.resize hu hi1 (fun t ht => setRange_table ht)
      (Nat.le_trans hle (h.parts i).size) hsized zeroRange_agreeOff
    refine Meets.bind (meets_modifyProc (meets_pure ⟨rfl, hkeep, .inr ⟨rfl, rfl, _, _, rfl, h2, hk2,
      ?_, fun h => ?_, fun _ => rfl⟩⟩))
    · rintro (hbig | ⟨-, hpos, -⟩)
      · rw [trapframeVa_eq] at hbig
        omega
      · omega
    · omega

/-- `sbrk` that allocates the new pages at once. -/
theorem grow_spec (hpos : 0 < n)
    (hhi : n < 2 ^ 31) (hle : addInt (s.procs i).sz n ≤ trapframeVa) :
    Total (do
      let sz ← vm (uvmalloc L (s.procs i).pagetable (s.procs i).sz (addInt (s.procs i).sz n) pteW)
      if sz = 0 then return -1
      else
        modifyProc i fun p => { p with sz := sz }
        return 0) s fun r s' =>
          r = 0 ∧ SbrkPost L f c s i n true (s.procs i).sz s' ∨
          r = (-1 : Int) ∧ SbrkPost L f c s i n true (-1) s' := by
  obtain ⟨pg, -, hpg, hr⟩ := h.root (h.used hu).1
  obtain ⟨hadd, hnew, hge⟩ := grown (h.parts i).size hpos.le hhi
  refine meets_vm_seq (P := AllocPost L (view s) f c (.proc i) (upPage (s.procs i).sz)
    (addInt (s.procs i).sz n) (pteR ||| pteU ||| pteW) s.mach) ?_ ?_
  · rw [hpg]
    refine (uvmalloc_spec h.inv hr (by simp) rfl (h.parts i).size
      (by exact permOk_user (by decide) (by decide)) (h.parts i).sized (.inl hle)).imp ?_
    rintro r m' (⟨hlt, -, -⟩ | ⟨-, hpost, -⟩)
    · omega
    · exact hpost
  · rintro r m1 (⟨rfl, hi1, hneed, hkeep⟩ | ⟨f1, rfl, -, hi1, hg, hneed, hkeep⟩)
    · obtain ⟨h1, hk1⟩ := h.memory (i := i) hi1 (fun _ _ => rfl) (h.parts i).sized .refl
      exact meets_if rfl (meets_pure (.inr ⟨rfl, hkeep, .inl ⟨rfl, rfl, h1, hk1,
        .inr ⟨rfl, hpos, hnew ▸ hneed⟩⟩⟩))
    · refine meets_else (by omega) ?_
      have hsized : Sized f1 (.proc i) (addInt (s.procs i).sz n) := by
        intro vpn h1 h2
        rw [hg.out (by omega)]
        exact (h.parts i).sized vpn (Nat.le_trans (upPage_mono hge) h1) h2
      obtain ⟨h2, hk2⟩ := h.resize hu hi1
        (fun t ht => funext fun vpn => hg.out (fun e => ht e.1)) hle hsized .refl
      refine Meets.bind (meets_modifyProc (meets_pure (.inl ⟨rfl, hkeep, .inr ⟨rfl, ?_, f1, c, ?_,
        h2, hk2, ?_, fun _ => hnew ▸ hg, fun hno => absurd ⟨rfl, hpos⟩ hno⟩⟩)))
      · rw [hnew]
        rfl
      · rw [hnew, zeroRange_empty (upPage_mono hge)]
      · rintro (hbig | ⟨-, -, hshort⟩)
        · omega
        · rw [hnew] at hshort
          omega

theorem growproc_spec
    (hlo : -(2 ^ 31) ≤ n) (hhi : n < 2 ^ 31) {eager : Bool} (hmode : eager = true ∨ n < 0) :
    Total (growproc L i n) s fun r s' =>
      r = 0 ∧ SbrkPost L f c s i n eager (s.procs i).sz s' ∨
      r = -1 ∧ SbrkPost L f c s i n eager (-1) s' := by
  refine meets_getProc ?_
  refine meets_ite (fun hpos => ?_) (fun hpos => ?_)
  · obtain rfl : eager = true := hmode.resolve_right (by omega)
    refine meets_ite (fun hbig => meets_pure (.inr ⟨rfl, id, .inl ⟨rfl, rfl, h, .refl, .inl ?_⟩⟩))
      (fun hle => ?_)
    · obtain ⟨hadd, -, -⟩ := grown (h.parts i).size hpos.le hhi
      omega
    exact grow_spec h hu hpos hhi (Nat.le_of_not_lt hle)
  · refine meets_ite (fun hneg => ?_) (fun hneg => ?_)
    · exact (shrink_spec h hu hlo hneg eager).imp (fun _ _ hp => .inl hp)
    · obtain rfl : n = 0 := by omega
      have hnew : newSize (s.procs i).sz 0 = (s.procs i).sz := by
        unfold newSize
        rw [if_pos (by omega)]
        omega
      refine meets_pure (.inl ⟨rfl, id, .inr ⟨rfl, ?_, f, c, ?_, h, .refl, ?_, ?_, ?_⟩⟩)
      · exact (update_eq_self i s.procs).symm
      · rw [hnew, zeroRange_empty (Nat.le_refl _)]
      · have := (h.parts i).size
        rintro (hbig | ⟨-, h0, -⟩)
        · omega
        · omega
      · omega
      · intro _
        rw [hnew, setRange_empty (Nat.le_refl _)]

/-- `sbrk` and `sbrklazy`. -/
theorem sysSbrk_spec (hlo : -(2 ^ 31) ≤ n) (hhi : n < 2 ^ 31) (eager : Bool) :
    Total (sysSbrk L i n eager) s (SbrkPost L f c s i n eager) := by
  refine meets_getProc ?_
  refine meets_ite (fun _ => ?_) (fun hlazy => ?_)
  · refine Meets.seq (growproc_spec h hu hlo hhi ‹_›) ?_
    rintro r s1 (⟨rfl, hp⟩ | ⟨rfl, hp⟩)
    · exact meets_else (by decide) (meets_pure hp)
    · exact meets_if (by decide) (meets_pure hp)
  · obtain ⟨hadd, hnew, hge⟩ := grown (h.parts i).size (n := n) (by omega) hhi
    refine meets_ite (fun hlt => absurd hge (Nat.not_le.mpr hlt)) (fun _ => ?_)
    refine meets_ite (fun hbig => meets_pure ⟨id, .inl ⟨rfl, rfl, h, .refl, .inl (by omega)⟩⟩)
      (fun hle => ?_)
    obtain ⟨h2, hk2⟩ := h.resize hu (m := s.mach) h.inv (fun _ _ => rfl) (Nat.le_of_not_lt hle)
      (fun vpn h1 h2 => (h.parts i).sized vpn (Nat.le_trans (upPage_mono hge) h1) h2) .refl
    refine Meets.bind (meets_modifyProc (meets_pure ⟨id, .inr ⟨rfl, ?_, f, c, ?_, h2, hk2, ?_, ?_,
      fun _ => ?_⟩⟩))
    · rw [hnew]
      rfl
    · rw [hnew, zeroRange_empty (upPage_mono hge)]
    · rintro (hbig | ⟨he, -⟩)
      · omega
      · exact hlazy (.inl he)
    · rintro ⟨he, -⟩
      exact absurd (.inl he) hlazy
    · rw [hnew, setRange_empty (upPage_mono hge)]

end

/-! ## §5 exec -/

/-- Writing a word of the trapframe page. -/
theorem setTrapframe_spec {v : View} (hi : Inv L v f c s.mach) (hh : v.hnd (.trapframe i) = some tf)
    (htf : (s.procs i).trapframe = 4096 * tf) (k : Fin 512) (w : Word) :
    Total (setTrapframe i k w) s fun _ s' => ∃ m, s' = s.setMach m ∧ Inv L v f c m ∧
      m.mem tf = update (s.mach.mem tf) k w := by
  refine meets_getProc (meets_vm (meets_writePte ?_))
  rw [htf, mul_div_pgSize]
  exact ⟨_, rfl, hi.write_hnd hh _, update_self ..⟩

/-- Machine `m` has the arguments of process `i` in the pages `ps`. -/
structure Fetched (L : Layout) (f : Entries) (c : Slot → Page) (s : Sys) (i : Fin nproc)
    (ps : List Nat) (tf : Nat) (m : Mach) : Prop where
  inv : Inv L ((view s).holdArgs 0 ps) f c m
  root : ∃ pg, (s.procs i).pagetable = 4096 * pg ∧ (view s).root (.proc i) = some pg
  hnd : (view s).hnd (.trapframe i) = some tf
  frame : (s.procs i).trapframe = 4096 * tf
  size : (s.procs i).sz ≤ trapframeVa
  sized : Sized f (.proc i) (s.procs i).sz

theorem fetchArgs_fetched (h : SysInv L none f c s) (hu : (s.procs i).state ≠ .unused)
    (uargv : Nat) :
    Total (fetchArgs L (s.procs i).mm uargv maxArg 0 []) s.mach fun r m => ∃ f' ps tf,
      Fetched L f' c s i ps tf m ∧ Faulted f f' (.proc i) (s.procs i).sz ∧
        r.2 = ps.map (4096 * ·) := by
  obtain ⟨pg, -, hpg, hr⟩ := h.root (h.used hu).1
  obtain ⟨tf, -, htf, hh⟩ := h.frame (h.used hu).2
  have hi0 : Inv L ((view s).holdArgs 0 []) f c s.mach := by
    rw [View.holdArgs_nil fun _ => rfl]
    exact h.inv
  unfold Proc.mm
  rw [hpg]
  refine (fetchArgs_spec hr (by simp) rfl (h.parts i).size maxArg hi0).imp ?_
  rintro r m ⟨f', ps, hi', hf', hps⟩
  exact ⟨f', ps, tf, ⟨hi', ⟨pg, hpg, hr⟩, hh, htf, (h.parts i).size,
    hf'.sized (h.parts i).sized⟩, hf', hps⟩

theorem kexec_end {ps : List Nat} (h : Fetched L f c s i ps tf m) (file : Option (List Byte))
    (argv : List Nat) :
    Total (kexec L i file argv) (s.setMach m) (KexecEnd L f c s i ps tf m fun img fe ce =>
      ∃ bytes f0 f1 c1 sz strs us sp, file = some bytes ∧
        Imaged bytes argv ((view s).holdArgs 0 ps) m.mem .exec c img fe ce f0 f1 c1 sz strs us
          sp) := by
  obtain ⟨hi, ⟨pg, hpg, hr⟩, hh, htf, hsz, hsized⟩ := h
  refine meets_getProc ?_
  rw [Sys.setMach_procs]
  refine meets_vm_seq (P := ImageEnd L ((view s).holdArgs 0 ps) f c .exec m fun img f' c' =>
    ∃ bytes f0 f1 c1 sz strs us sp, file = some bytes ∧
      Imaged bytes argv ((view s).holdArgs 0 ps) m.mem .exec c img f' c' f0 f1 c1 sz strs us sp)
    ?_ ?_
  · rw [htf]
    exact kexecImage_end hi rfl rfl (by simp) _ _ _ _
  rintro r m1 (⟨rfl, hi1, hs1⟩ |
    ⟨img, p, f1, c1, rfl, himg, hu, hi1, hother, hszi, hsizedi, hc1, hs1, hbuilt⟩)
  · exact meets_pure (.inl ⟨rfl, m1, rfl, hi1, hs1⟩)
  obtain ⟨f2, c2, hi2, hf2, hf2i, hf2e, hc2, hc2i⟩ :=
    hi1.commit (t := .proc i) (by simp) (by simp) hr hother hc1
  have hh2 : ((((view s).holdArgs 0 ps).setRoot (.proc i) (some p)).setRoot .exec (some pg)).hnd
      (.trapframe i) = some tf := hh
  have hh1 : ((view s).holdArgs 0 ps).hnd (.trapframe i) = some tf := hh
  have htf1 : m1.mem tf = m.mem tf := hs1.hnd (by rintro (e | e) <;> cases e) hh1
  refine Meets.seq (setTrapframe_spec (s := (s.setMach m).setMach m1) hi2 hh2 htf _ _) ?_
  rintro - s3 ⟨m3, rfl, hi3, htf3⟩
  refine Meets.bind (meets_modifyProc ?_)
  rw [himg]
  generalize hp' : ({ ((((s.setMach m).setMach m1).setMach m3).procs i) with
    pagetable := 4096 * p, sz := img.sz } : Proc) = p'
  have htf' : p'.trapframe = 4096 * tf := by rw [← hp']; exact htf
  have hs4 : ((((s.setMach m).setMach m1).setMach m3).setProc i p').mach = m3 := rfl
  refine Meets.seq (setTrapframe_spec (v := _) (hs4 ▸ hi3) hh2
    (by rw [Sys.setProc_same, htf']) _ _) ?_
  rintro - s4 ⟨m4, rfl, hi4, htf4⟩
  refine Meets.seq (setTrapframe_spec (v := _) hi4 hh2
    (by rw [Sys.setMach_procs, Sys.setProc_same, htf']) _ _) ?_
  rintro - s5 ⟨m5, rfl, hi5, htf5⟩
  have hold : Sized f2 .exec (s.procs i).sz := by
    intro vpn h1 h2
    rw [hf2e]
    exact hsized vpn h1 h2
  refine meets_vm_seq (P := fun _ m6 => Inv L (((view s).setRoot (.proc i) (some p)).holdArgs 0 ps)
    (update f2 .exec fun _ => none) (clearTable c2 .exec) m6 ∧ m6.mem tf = m5.mem tf) ?_ ?_
  · rw [hpg]
    refine (procFreepagetable_spec hi5 (by simp) (by simp) hsz hold).imp ?_
    rintro - m6 ⟨hi6, hs6⟩
    rw [View.setRoot_back rfl] at hi6
    exact ⟨hi6, hs6.hnd (by rintro (e | e) <;> cases e) hh2⟩
  · rintro - m6 ⟨hi6, htf6⟩
    refine meets_pure (.inr ⟨img, m6, p, f1, c1, _, _, rfl, ?_, hu.pos, hszi, hi6,
      fun t ht => ?_, fun vpn h1 h2 => ?_, fun sl hsl => ?_, ?_, fun vpn => ?_, ?_, hbuilt⟩)
    · rw [← hp']
      rfl
    · by_cases he : t = .exec
      · rw [he, update_self]
        exact (funext (hi.root_none rfl)).symm
      · rw [update_of_ne he, hf2 t ht he]
    · rw [update_of_ne (by simp), hf2i]
      exact hsizedi vpn h1 h2
    · unfold clearTable
      split
      · rename_i he
        exact (hi.zero_of_none (by rw [he]; exact hi.root_none rfl _)).symm
      · rename_i he
        exact hc2 sl hsl he
    · rw [update_of_ne (by simp), hf2i]
    · rw [← hc2i vpn]
      exact if_neg (by simp)
    · rw [htf6, htf5, Sys.setMach_mach, htf4, hs4, htf3, Sys.setMach_mach, htf1]
      rfl

/-- The image `kexec` committed to, once the argument pages are freed. -/
theorem SysInv.image (h : SysInv L none f c s) (hu : (s.procs i).state ≠ .unused) {p : Nat}
    (hp : 0 < p) (hsz : sz ≤ trapframeVa) (hi : Inv L ((view s).setRoot (.proc i) (some p)) f' c' m)
    (hother : ∀ t, t ≠ .proc i → f' t = f t) (hsized : Sized f' (.proc i) sz)
    (hc : AgreeOff c c' (.proc i)) :
    SysInv L none f' c' ((s.setProc i { s.procs i with
      pagetable := 4096 * p, sz := sz }).setMach m) ∧
    Kept (· = i) s ((s.setProc i { s.procs i with
      pagetable := 4096 * p, sz := sz }).setMach m) f f' c c' := by
  have hk : Kept (· = i) s ((s.setProc i { s.procs i with
      pagetable := 4096 * p, sz := sz }).setMach m) f f' c c' :=
    (Kept.setProc _).trans (Kept.memory hother hc)
  refine ⟨h.next hk ?_ ?_ ?_, hk⟩
  · have hhnd : ((view s).setRoot (.proc i) (some p)).setHnd (.trapframe i)
        (pageOf (s.procs i).trapframe) = (view s).setRoot (.proc i) (some p) :=
      View.setHnd_same rfl
    rw [← hhnd] at hi
    rw [view_setMach, view_setProc, pageOf_mul hp]
    exact hi
  · rintro j rfl
    rw [Sys.setMach_procs, Sys.setProc_same]
    exact ⟨hsz, hsized, Nat.mul_mod_right 4096 p, (h.parts j).frame⟩
  · rintro j - hj
    have hj : j = i := by simpa using hj
    subst hj
    rw [Sys.setMach_procs, Sys.setProc_same]
    have hw := h.whole j (by simp)
    refine ⟨⟨fun e => ?_, fun e => absurd e hu⟩, hw.frame, fun e => absurd e hu⟩
    simp only [] at e
    omega

/-- `sys_exec` gives back the argument pages on every exit. -/
theorem sysExec_spec (h : SysInv L none f c s) (hu : (s.procs i).state ≠ .unused)
    (upath uargv : Nat) (file : Option (List Byte)) :
    Total (sysExec L i upath uargv file) s (ExecPost L f c s i) := by
  obtain ⟨pg, -, hpg, hr⟩ := h.root (h.used hu).1
  have hargs : ∀ k, (view s).hnd (.arg k) = none := fun _ => rfl
  refine meets_getProc ?_
  refine meets_vm_seq (P := fun _ m => m = s.mach) ?_ ?_
  · rw [hpg]
    exact (copyinstr_spec h.inv hr (by simp) upath maxPath).imp (fun _ _ hp => hp.1)
  rintro ⟨r, path⟩ m1 rfl
  refine meets_ite (fun _ => meets_pure (.inl ⟨rfl, rfl, f, h, .refl⟩)) (fun _ => ?_)
  refine meets_vm_seq (fetchArgs_fetched h hu uargv) ?_
  rintro ⟨ok, argv⟩ m2 ⟨f2, ps, tf, h2, hf2, rfl⟩
  -- after a failure only faults have happened
  have hfail : ∀ m3, Inv L (view s) f2 c m3 → ExecPost L f c s i (-1) (s.setMach m3) := by
    intro m3 hi3
    obtain ⟨h3, hk3⟩ := h.faulted hi3 hf2 .refl
    exact .inl ⟨rfl, rfl, f2, h3, hk3⟩
  refine meets_ite (fun _ => ?_) (fun _ => ?_)
  · refine Meets.seq (kexec_end h2 file _) ?_
    rintro r s3 (⟨rfl, m3, rfl, hi3, -⟩ | ⟨img, m3, p, -, -, f3, c3, rfl, rfl, hp, hsz, hi3, hother,
      hsized3, hc3, -⟩)
    · refine meets_vm_seq (freeArgs_spec hargs ps hi3) ?_
      exact fun _ m4 hi4 => meets_pure (hfail m4 hi4)
    · have hargs' : ∀ k, ((view s).setRoot (.proc i) (some p)).hnd (.arg k) = none := fun _ => rfl
      refine meets_vm_seq (freeArgs_spec hargs' ps hi3) ?_
      intro _ m4 hi4
      obtain ⟨h4, hk4⟩ := h.image hu hp hsz hi4
        (fun t ht => (hother t ht).trans (hf2.other ht)) hsized3 hc3
      refine meets_pure (.inr ⟨Int.natCast_nonneg _, ?_, f3, c3, h4, hk4⟩)
      rw [Sys.setMach_procs, Sys.setMach_procs, Sys.setProc_same]
  · refine meets_vm_seq (freeArgs_spec hargs ps h2.inv) ?_
    exact fun _ m3 hi3 => meets_pure (hfail m3 hi3)

end Xv6
