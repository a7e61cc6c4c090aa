/-
Xv6.Sys.Copying — what `copyout` leaves behind.

`memByte` is the memory of a process as its page table gives it. A page that
has no entry yet reads as zero, so faulting it in does not show. `Delivered`
says that a stretch of bytes arrived at an address and that nothing else
changed: no other byte of any process, no entry of a page outside the
stretch, no page that user code cannot write, and none of the pages that the
kernel keeps for itself at the top of each address space.
-/
import Xv6.Sys.Safety

namespace Xv6

open Xv6.Vm Xv6.Lib
open Function

variable {L : Layout} {v : View} {f f' : Entries} {c c' : Slot → Page} {s s' : Sys}
  {i j : Fin nproc}

/-! ## §1 The memory of a process -/

/-- The byte at `a` in the memory of process `j`: what the page of its entry
holds, and zero where there is no entry. -/
def memByte (s : Sys) (j : Fin nproc) (a : Nat) : Byte :=
  match pte s j (a / pgSize) with
  | some w => pageByte (s.mach.mem (ppn w)) (a % pgSize)
  | none => 0

theorem lf_of_roots {mem : Nat → Page} {v' : View} (h : v'.root = v.root) :
    lf mem v' = lf mem v := by
  funext t vpn
  simp only [lf, own, h]

theorem pte_of_inv (hi : Inv L v f c s.mach) (hv : v.root = (view s).root) (j : Fin nproc)
    (vpn : Nat) : pte s j vpn = f (.proc j) vpn := by
  rw [pte, ← lf_of_roots hv, hi.lf_eq]

theorem memByte_of_inv (hi : Inv L v f c s.mach) (hv : v.root = (view s).root) (j : Fin nproc)
    {a : Nat} (ha : a / pgSize < userPages) : memByte s j a = ubyte c (.proc j) a := by
  have hp := pte_of_inv hi hv j (a / pgSize)
  unfold memByte
  rw [pgSize_eq] at ha hp ⊢
  cases hw : f (.proc j) (a / 4096) with
  | some w =>
    have hleaf : uleaf f (.proc j, ⟨a / 4096, ha⟩) = some w := by
      exact hw
    rw [hp, hw, ubyte, dif_pos ha, hi.data, content_some (uref_of_uleaf hleaf)]
  | none =>
    rw [hp, hw, ubyte, dif_pos ha, hi.zero_of_none hw, pageByte_zeroPage]
    rfl

theorem SysInv.memByte_eq (h : SysInv L none f c s) (j : Fin nproc) {a : Nat}
    (ha : a / pgSize < userPages) : memByte s j a = ubyte c (.proc j) a :=
  memByte_of_inv h.inv rfl j ha

/-- The page of an entry holds what the process reads there. -/
theorem SysInv.page_eq (h : SysInv L none f c s) {vpn : Nat} (hv : vpn < userPages) {w : Word}
    (hw : pte s j vpn = some w) : s.mach.mem (ppn w) = c (.proc j, ⟨vpn, hv⟩) := by
  rw [h.inv.data, content_some (uref_of_uleaf ((h.uleaf_pte j hv).trans hw))]

/-- Two slots with the same bytes hold the same page. -/
theorem slot_ext {t : TableId} {v : Fin userPages}
    (h : ∀ a, a / 4096 = v.val → ubyte c' t a = ubyte c t a) : c' (t, v) = c (t, v) := by
  refine page_ext (fun b hb => ?_)
  have hdiv : (v.val * 4096 + b) / 4096 = v := by omega
  have hmod : (v.val * 4096 + b) % 4096 = b := by omega
  have hbyte := h _ hdiv
  simp only [ubyte, hdiv, hmod, v.isLt, dite_true] at hbyte
  exact hbyte

/-! ## §2 What arrived -/

/-- Address `a` is one of the `n` from `va` on. -/
def Within (va n a : Nat) : Prop := va ≤ a ∧ a < va + n

instance (va n a : Nat) : Decidable (Within va n a) := inferInstanceAs (Decidable (_ ∧ _))

/-- Exactly the bytes `bs` have been written, at `va` of process `i`. -/
structure Delivered (L : Layout) (i : Fin nproc) (va : Nat) (bs : List Byte) (s s' : Sys) :
    Prop where
  procs : s'.procs = s.procs
  bytes : ∀ j a, a / pgSize < userPages →
    memByte s' j a = if j = i ∧ Within va bs.length a then bs.getD (a - va) 0 else memByte s j a
  -- other pages keep their entries
  entries : ∀ j vpn, (j = i → ∀ a, Within va bs.length a → a / pgSize ≠ vpn) →
    pte s' j vpn = pte s j vpn
  -- the pages that user code cannot write, the guard page among them
  sealed : ∀ j vpn w, vpn < userPages → pte s j vpn = some w →
    hasFlag w pteU = false ∨ hasFlag w pteW = false ∧ hasFlag w pteCow = false →
    pte s' j vpn = some w ∧ s'.mach.mem (ppn w) = s.mach.mem (ppn w)
  trapframes : ∀ j, (s.procs j).state ≠ .unused →
    s'.mach.mem ((s.procs j).trapframe / pgSize) = s.mach.mem ((s.procs j).trapframe / pgSize)
  trampoline : s'.mach.mem (L.trampoline / pgSize) = s.mach.mem (L.trampoline / pgSize)

theorem trampoline_unusable (L : Layout) : ¬ L.Usable (L.trampoline / 4096) := by
  intro hu
  have h1 := hu.1
  have hle := L.etext_le
  have heq := L.etext_eq
  have hk := L.kend_le
  simp only [physTop_eq] at hk
  rw [pgRoundUp_of_lt (by omega)] at h1
  omega

theorem Vm.CopiedOut.delivered {sz va k : Nat} {src : List Byte} {r : Int} {m : Mach}
    (h : SysInv L none f c s) (hc : CopiedOut L (view s) f c (.proc i) sz va src f' c' k r m)
    (h' : SysInv L none f' c' (s.setMach m))
    (hs : Spares L (Mine (.proc i)) (view s) s.mach (view s) m) :
    Delivered L i va (src.take k) s (s.setMach m) := by
  have hk : (src.take k).length = k := by
    rw [List.length_take]
    have := hc.ends
    omega
  refine ⟨rfl, fun j a ha => ?_, fun j vpn hout => ?_, fun j vpn w hv hw hro => ?_, fun j hu => ?_,
    hs.raw (pgSize_eq ▸ trampoline_unusable L)⟩
  · rw [h'.memByte_eq j ha, h.memByte_eq j ha, hc.poked (.proc j) a]
    simp only [TableId.proc.injEq]
    rfl
  · rw [h'.pte_eq, h.pte_eq]
    by_cases hj : j = i
    · subst hj
      rw [hk, pgSize_eq] at hout
      exact hc.outside vpn (fun a h1 h2 => hout rfl a ⟨h1, h2⟩)
    · rw [hc.faulted.other (by simpa using hj)]
  · -- such an entry stays, and no byte of its page is in the stretch
    rw [h.pte_eq] at hw
    have hw' : f' (.proc j) vpn = some w := by
      by_cases hj : j = i
      · subst hj
        refine hc.kept vpn w hw ?_
        rintro ⟨h1, h2⟩
        rw [h1, h2] at hro
        simp at hro
      · rw [hc.faulted.other (by simpa using hj), hw]
    refine ⟨by rw [h'.pte_eq, hw'], ?_⟩
    rw [h.page_eq hv (by rw [h.pte_eq, hw])]
    refine (h'.page_eq hv (by rw [h'.pte_eq, hw'])).trans (slot_ext fun a ha => ?_)
    rw [hc.poked (.proc j) a, if_neg]
    rintro ⟨ht, h1, h2⟩
    cases ht
    obtain ⟨w2, hw2, hU, hW⟩ := hc.opened a h1 (by omega)
    have hsame : w2 = w := by
      rw [ha, hw'] at hw2
      exact (Option.some.inj hw2).symm
    rw [hsame] at hU hW
    rw [hU, hW] at hro
    simp at hro
  · obtain ⟨tf, -, htf, hh⟩ := h.frame (h.used hu).2
    have hq : (s.procs j).trapframe / pgSize = tf := by rw [htf, mul_div_pgSize]
    rw [hq]
    exact hs.hnd (by rintro (e | e) <;> cases e) hh

/-! ## §3 copyout -/

/-- The bytes that were poked are read back. -/
theorem Vm.Poked.ubytes_eq {t : TableId} {va : Nat} {bs : List Byte} (h : Poked c c' t va bs) :
    ubytes c' t va bs.length = bs := by
  refine List.ext_getElem (ubytes_length _) (fun k h1 h2 => ?_)
  simp only [ubytes, List.getElem_map, List.getElem_range]
  rw [h t (va + k), if_pos ⟨rfl, by omega, by omega⟩, Nat.add_sub_cancel_left,
    List.getD_eq_getElem _ _ h2]

/-- Every page of the range is open to a store. -/
def Writable (s : Sys) (i : Fin nproc) (va n : Nat) : Prop :=
  ∀ a, Within va n a → ∃ w, pte s i (a / pgSize) = some w ∧ hasFlag w pteV = true ∧
    hasFlag w pteU = true ∧ hasFlag w pteW = true ∧ hasFlag w pteCow = false

theorem SysInv.writable (h : SysInv L none f c s) {va n : Nat} (hopen : ∀ a, va ≤ a → a < va + n →
      ∃ w, f (.proc i) (a / 4096) = some w ∧ hasFlag w pteU = true ∧ hasFlag w pteW = true) :
    Writable s i va n ∧ ∀ a, Within va n a → a / 4096 < userPages := by
  have huser : ∀ a, Within va n a → a / 4096 < userPages := by
    intro a ha
    obtain ⟨w, hw, hU, -⟩ := hopen a ha.1 ha.2
    by_contra hv
    rw [(h.inv.base.shape.leaf (h.inv.lf_eq ▸ hw)).2 (.inr (Nat.le_of_not_lt hv))] at hU
    cases hU
  refine ⟨fun a ha => ?_, huser⟩
  obtain ⟨w, hw, hU, hW⟩ := hopen a ha.1 ha.2
  have hleaf : uleaf f (.proc i, ⟨a / 4096, huser a ha⟩) = some w := by
    rw [uleaf_eq (by simp), hw]
  have hp : pte s i (a / pgSize) = some w := by rw [h.pte_eq, pgSize_eq, hw]
  obtain ⟨-, -, -, -, hV⟩ := lf_some hp
  exact ⟨w, hp, hV, hU, hW, h.inv.cow.wcow hleaf hW⟩

/-- What a call of `copyout` leaves. On success the whole of `src` has arrived
in pages that are open to stores, and `copyin` reads it back. On failure a
stretch that ends at a page boundary, or nothing, has arrived. -/
def CopyoutResult (L : Layout) (i : Fin nproc) (va : Nat) (src : List Byte) (s : Sys) (r : Int)
    (s' : Sys) : Prop :=
  (r = 0 ∧ va + src.length < 2 ^ 64 ∧ Writable s' i va src.length ∧
    Total (procCopyin L i va src.length) s' (fun r s'' => r = (0, src) ∧ s'' = s') ∧
    Delivered L i va src s s') ∨
  (r = -1 ∧ ∃ k, (k = va ∨ va < k ∧ k < va + src.length ∧ k % pgSize = 0) ∧
    Delivered L i va (src.take (k - va)) s s')

theorem procCopyin_resident (h : SysInv L none f c s) (hu : (s.procs i).state ≠ .unused)
    {va n : Nat} (hres : ∀ a, Within va n a → Resident f (.proc i) (a / 4096)) :
    Total (procCopyin L i va n) s fun r s' => r = (0, ubytes c (.proc i) va n) ∧ s' = s := by
  obtain ⟨pg, -, hpg, hr⟩ := h.root (h.used hu).1
  refine meets_getProc (meets_vm ?_)
  unfold Proc.mm
  rw [hpg]
  refine (copyin_spec h.inv hr (by simp) rfl (h.parts i).size va n).imp ?_
  rintro ⟨r, bytes⟩ m ⟨f', k, -, -, hbytes, hend, hsame⟩
  obtain ⟨rfl, hr0⟩ := hsame fun a h1 h2 => hres a ⟨h1, h2⟩
  obtain ⟨-, rfl⟩ := hend.resolve_right fun hfail => by omega
  exact ⟨Prod.ext hr0 hbytes, rfl⟩

theorem procCopyout_result (h : SysInv L none f c s) (hu : (s.procs i).state ≠ .unused)
    {va : Nat} (hva : va < 2 ^ 64) (src : List Byte) :
    Total (procCopyout L i va src) s (CopyoutResult L i va src s) := by
  obtain ⟨pg, -, hpg, hr⟩ := h.root (h.used hu).1
  refine meets_getProc (meets_vm ?_)
  unfold Proc.mm
  rw [hpg]
  refine (copyout_end h.inv hr (by simp) rfl (h.parts i).size va src).imp ?_
  rintro r m ⟨f', c', k, hc, hs⟩
  obtain ⟨h', -⟩ := h.faulted hc.inv hc.faulted (Poked.agreeOff hc.poked)
  have hdel := hc.delivered h h' hs
  rcases hc.ends with ⟨rfl, rfl⟩ | ⟨rfl, hk, hb⟩
  · obtain ⟨hwr, huser⟩ := h'.writable hc.opened
    rw [List.take_length] at hdel
    refine .inl ⟨rfl, ?_, hwr, ?_, hdel⟩
    · by_cases h0 : src.length = 0
      · omega
      · -- the last byte lies in a user page
        have hlast := huser (va + src.length - 1) ⟨by omega, by omega⟩
        rw [userPages_eq] at hlast
        omega
    · refine (procCopyin_resident h' hu fun a ha => ?_).imp ?_
      · obtain ⟨w, hw, hU, -⟩ := hc.opened a ha.1 ha.2
        exact ⟨w, hw, hU⟩
      · rintro r s'' ⟨rfl, rfl⟩
        have hpoke := hc.poked
        rw [List.take_length] at hpoke
        exact ⟨by rw [hpoke.ubytes_eq], rfl⟩
  · refine .inr ⟨rfl, va + k, ?_, by rwa [Nat.add_sub_cancel_left]⟩
    rcases hb with rfl | hb
    · exact .inl rfl
    · by_cases h0 : k = 0
      · exact .inl (by omega)
      · exact .inr ⟨by omega, by omega, hb⟩

/-- In every state the system reaches, `copyout` to a process writes the
range it was asked for, or a stretch of it that ends at a page boundary, and
changes nothing else. -/
theorem copyout_exact (L : Layout) (mem : Nat → Page) (ops : List Op) :
    Meets (· ∈ runPanics) (run L ops) (Sys.atReset mem) fun _ s =>
      ∀ i (dstva : Word) (src : List Byte), (s.procs i).state ≠ .unused →
        Total (procCopyout L i dstva.toNat src) s (CopyoutResult L i dstva.toNat src s) := by
  refine (run_spec L mem ops).imp ?_
  rintro _ s ⟨f, c, a, h, -, -⟩ i dstva src hu
  exact procCopyout_result h hu dstva.isLt src

end Xv6
