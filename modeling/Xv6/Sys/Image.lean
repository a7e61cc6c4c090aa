/-
Xv6.Sys.Image — the image and the stack that `exec` leaves.

The image is stated against the file: its segments are those of the program
header table, with 64-bit file offsets as the ELF format has them. The kernel
keeps those offsets in 32 bits (`int off` in `kexec`, `uint offset` in
`loadseg`) and does not check that nothing was lost, so a header can name
bytes that the file does not have and still be accepted.
-/
import Xv6.Sys.Copying
import Xv6.Vm.ImageTheorems

namespace Xv6

open Xv6.Vm Xv6.Lib
open Function

variable {L : Layout} {v : View} {f f' : Entries} {c c' : Slot → Page}
  {s s' : Sys} {i : Fin nproc}

/-! ## §1 What a process has in memory -/

def memBytes (s : Sys) (i : Fin nproc) (a n : Nat) : List Byte :=
  (List.range n).map fun k => memByte s i (a + k)

/-- A register of the process, as it will be in user space. -/
def reg (s : Sys) (i : Fin nproc) (k : Fin 512) : Nat :=
  (s.mach.mem ((s.procs i).trapframe / pgSize) k).toNat

/-- The process starts at the entry point of the file, whose segments are in memory below
the guard page. -/
structure ImageRight (file : List Byte) (s : Sys) (i : Fin nproc) (guard : Nat) : Prop where
  entry : reg s i tfEpc = (elfHdr file).entry
  table : TableInFile file
  below : ∀ ph ∈ segments file, ph.vaddr + ph.memsz ≤ guard
  bytes : Apart (segments file) → ∀ ph ∈ segments file, ∀ k, k < ph.filesz →
    ph.off + k < file.length ∧ memByte s i (ph.vaddr + k) = file.getD (ph.off + k) 0
  zero : Apart (segments file) → ∀ a, a < guard → (∀ ph ∈ segments file, ¬ ph.Fills a) →
    memByte s i a = 0
  flags : Apart (segments file) → Ascending (segments file) → ∀ ph ∈ segments file, ∀ a,
    ph.Has a → ∃ w, pte s i (a / pgSize) = some w ∧ hasFlag w pteU = true ∧
      hasFlag w pteW = decide (ph.flags &&& 2 ≠ 0) ∧ hasFlag w pteX = decide (ph.flags &&& 1 ≠ 0)

/-- The stack above the guard page, with the arguments. -/
structure StackRight (strs : List (List Byte)) (s : Sys) (i : Fin nproc) (argc : Int)
    (guard : Nat) : Prop where
  aligned : guard % pgSize = 0
  size : (s.procs i).sz = guard + 2 * pgSize
  closed : ∃ w, pte s i (guard / pgSize) = some w ∧ hasFlag w pteU = false
  stack : ∃ w, pte s i (guard / pgSize + 1) = some w ∧ hasFlag w pteU = true ∧
    hasFlag w pteW = true
  argc : argc = strs.length
  sp : reg s i tfSp % 16 = 0 ∧ reg s i tfA1 = reg s i tfSp
  args : ∃ us, ArgsAt strs us (guard + pgSize) (reg s i tfA1) (memBytes s i)

/-- No offset of the file loses bits: the header table is where `e_phoff`
says, and so is each segment that has bytes in the file. -/
def Offsets32 (file : List Byte) : Prop :=
  TableInFile file ∧
    (Apart (segments file) → ∀ ph ∈ segments file, 0 < ph.filesz → ph.off < 2 ^ 32)

/-- How a call of `kexec` on a file ends. -/
structure ExecResult (file : List Byte) (strs : List (List Byte)) (i : Fin nproc) (s : Sys)
    (r : Int) (s' : Sys) : Prop where
  failed : r = -1 → s'.procs = s.procs ∧ (∀ j vpn, pte s' j vpn = pte s j vpn) ∧
    ∀ j a, a / pgSize < userPages → memByte s' j a = memByte s j a
  built : r ≠ -1 →
    ((∃ guard, ImageRight file s' i guard ∧ StackRight strs s' i r guard) ↔ Offsets32 file)

/-! ## §2 The argument strings -/

/-- The strings of argument pages that are all held. -/
theorem Vm.ArgStrs.eq_map {mem : Nat → Page} {ps : List Nat} {strs : List (List Byte)}
    (h : ArgStrs (v.holdArgs 0 ps) mem (ps.map (4096 * ·)) strs) :
    strs = (ps.map (4096 * ·)).map (argStr mem) := by
  have hlen := List.Forall₂.length_eq h
  refine List.ext_getElem (by rw [List.length_map, hlen]) (fun k hk1 hk2 => ?_)
  have hk : k < ps.length := by simpa using hk2
  rw [List.getElem_map]
  refine h.get (by simpa using hk) hk1 ⟨.arg k, by simp, ?_⟩
  simp [View.holdArgs, hk, pgSize_eq]

/-! ## §3 The result of `kexec` -/

section Result

variable {m : Mach} {file : List Byte} {ps us : List Nat} {strs : List (List Byte)} {img : Image}
  {f0 f1 : Entries} {c1 : Slot → Page} {sz sp : Nat}

/-- The image of table `.exec`, seen as the memory of process `i`. -/
structure Shown (s : Sys) (i : Fin nproc) (f : Entries) (c : Slot → Page) : Prop where
  pte : ∀ vpn, pte s i vpn = f .exec vpn
  byte : ∀ a, a / pgSize < userPages → memByte s i a = ubyte c .exec a

theorem Shown.bytes (h : Shown s i f c) {a n : Nat} (ha : a + n ≤ trapframeVa) :
    memBytes s i a n = ubytes c .exec a n := by
  rw [trapframeVa_eq] at ha
  refine List.map_congr_left (fun k hk => h.byte _ ?_)
  have := List.mem_range.mp hk
  rw [pgSize_eq, userPages_eq]
  omega

theorem Vm.Imaged.entryRight {argv : List Nat} {mem : Nat → Page}
    (h : Imaged file argv v mem .exec c img f' c' f0 f1 c1 sz strs us sp) {page : Page}
    (hreg : s.mach.mem ((s.procs i).trapframe / pgSize) = img.regs page) :
    reg s i tfEpc = (elfHdr file).entry := by
  have hentry := h.entry
  rw [readi_header] at hentry
  have hlt : img.entry < 2 ^ 64 := by
    rw [hentry]
    exact field_lt _ _
  rw [reg, hreg, Image.regs, update_of_ne (by decide), update_self, BitVec.toNat_ofNat,
    Nat.mod_eq_of_lt hlt, hentry, elfHdr]

theorem Vm.Imaged.imageRight {argv : List Nat} {mem : Nat → Page}
    (h : Imaged file argv v mem .exec c img f' c' f0 f1 c1 sz strs us sp)
    (hfile : file.length < 2 ^ 32) (hzero : ∀ a, ubyte c .exec a = 0) (hsz : img.sz ≤ trapframeVa)
    (hshown : Shown s i f' c') {page : Page}
    (hreg : s.mach.mem ((s.procs i).trapframe / pgSize) = img.regs page) (hok : Offsets32 file) :
    ImageRight file s i (upPage sz * 4096) := by
  obtain ⟨htab, hoff⟩ := hok
  have hsize := h.size
  rw [trapframeVa_eq] at hsz
  have hbelow : ∀ ph ∈ segments file, ph.vaddr + ph.memsz ≤ upPage sz * 4096 := by
    intro ph hph
    have := (h.segOk hfile htab ph hph).below
    unfold upPage
    omega
  have hin : ∀ a, a < upPage sz * 4096 → a / pgSize < userPages := by
    rw [pgSize_eq, userPages_eq]
    omega
  refine ⟨h.entryRight hreg, htab, hbelow, fun hap ph hph k hk => ?_, fun hap a ha hout => ?_,
    fun hap hasc ph hph a ha => ?_⟩
  · have hfits := (h.segOk hfile htab ph hph).fits
    have hend := hbelow ph hph
    obtain ⟨hlt, hbyte⟩ := h.bytes hfile htab hap hph hk
    rw [Nat.mod_eq_of_lt (hoff hap ph hph (by omega))] at hlt hbyte
    exact ⟨hlt, by rw [hshown.byte _ (hin _ (by omega)), hbyte]⟩
  · rw [hshown.byte a (hin a ha)]
    exact h.zero hfile htab hzero ha hout
  · obtain ⟨p, hp⟩ := h.flags hfile htab hap hasc hph a ha
    exact ⟨_, by rw [pgSize_eq, hshown.pte, hp], hasFlag_segment p ph.flags⟩

theorem Vm.Imaged.stackRight {argv : List Nat} {mem : Nat → Page}
    (h : Imaged file argv v mem .exec c img f' c' f0 f1 c1 sz strs us sp)
    (hsz : img.sz ≤ trapframeVa) (hshown : Shown s i f' c') (hproc : (s.procs i).sz = img.sz)
    {page : Page} (hreg : s.mach.mem ((s.procs i).trapframe / pgSize) = img.regs page) :
    StackRight strs s i img.argc (upPage sz * 4096) := by
  have hsize := h.size
  have hargs := h.toStacked.args
  have hin := hargs.inside
  have hsp64 : img.sp < 2 ^ 64 := by
    rw [trapframeVa_eq] at hsz
    omega
  have ha1 : reg s i tfA1 = img.sp := by
    rw [reg, hreg, Image.regs, update_of_ne (by decide), update_of_ne (by decide),
      update_self, BitVec.toNat_ofNat, Nat.mod_eq_of_lt hsp64]
  have hspr : reg s i tfSp = img.sp := by
    rw [reg, hreg, Image.regs, update_self, BitVec.toNat_ofNat, Nat.mod_eq_of_lt hsp64]
  have hdiv : upPage sz * 4096 / pgSize = upPage sz := by
    rw [pgSize_eq]
    omega
  obtain ⟨-, w, hw, hU, hW⟩ := h.stack
  refine ⟨by rw [pgSize_eq]; omega, by rw [hproc, hsize, pgSize_eq], ?_,
    ⟨w, by rw [hdiv, hshown.pte, hw], hU, hW⟩, ?_, ?_, us, ?_⟩
  · obtain ⟨w0, hw0, hU0⟩ := h.guard
    exact ⟨w0, by rw [hdiv, hshown.pte, hw0], hU0⟩
  · rw [h.argc, h.toStacked.strs_length]
  · rw [hspr, ha1]
    exact ⟨h.spEq ▸ pushDown_aligned _ _, rfl⟩
  · rw [ha1, pgSize_eq]
    refine ⟨hargs.count, ?_, fun w hw => ?_, hargs.above, hin, hargs.apart⟩
    · rw [hshown.bytes (by omega), hargs.array]
    · rw [hshown.bytes (by have := hin.2 w hw; omega), hargs.strings w hw]

/-- The result of `kexec`, with the arguments in pages that are held. -/
theorem kexec_result {tf : Nat} (h : Fetched L f c s i ps tf m) (hfile : file.length < 2 ^ 32) :
    Total (kexec L i (some file) (ps.map (4096 * ·))) (s.setMach m)
      (ExecResult file ((ps.map (4096 * ·)).map (argStr m.mem)) i (s.setMach m)) := by
  have hi := h.inv
  have hzero : ∀ a, ubyte c .exec a = 0 := by
    intro a
    unfold ubyte
    split
    · rw [hi.zero_of_none (hi.root_none rfl _), pageByte_zeroPage]
      rfl
    · rfl
  refine (kexec_end h (some file) _).imp ?_
  rintro r s' (⟨rfl, m', rfl, hi', -⟩ | ⟨img, m', p, fe, ce, f', c', rfl, hs', hp, hszi, hi', -, -,
    -, hf', hc', hregs, bytes, f0, f1, c1, sz, strs, us, sp, hbytes, himg⟩)
  · refine ⟨fun _ => ⟨rfl, fun j vpn => ?_, fun j a ha => ?_⟩, fun h => absurd rfl h⟩
    · have hbefore : pte (s.setMach m) j vpn = _ := pte_of_inv hi (by rfl) j vpn
      have hafter : pte (s.setMach m') j vpn = _ := pte_of_inv hi' (by rfl) j vpn
      rw [hbefore, hafter]
    · have hbefore : memByte (s.setMach m) j a = _ := memByte_of_inv hi (by rfl) j ha
      have hafter : memByte (s.setMach m') j a = _ := memByte_of_inv hi' (by rfl) j ha
      rw [hbefore, hafter]
  · obtain rfl := Option.some.inj hbytes
    rw [← himg.strings.eq_map]
    have hroot : ((((view s).setRoot (.proc i) (some p)).holdArgs 0 ps).root) = (view s').root := by
      rw [hs', view_setMach, view_setProc, pageOf_mul hp]
      rfl
    have hmach : s'.mach = m' := by rw [hs', Sys.setMach_mach]
    rw [← hmach] at hi' hregs
    have hshown : Shown s' i fe ce := by
      refine ⟨fun vpn => ?_, fun a ha => ?_⟩
      · rw [pte_of_inv hi' hroot, hf']
      · rw [memByte_of_inv hi' hroot i ha]
        unfold ubyte
        split
        · rw [hc']
        · rfl
    have hproc : (s'.procs i).sz = img.sz := by
      rw [hs', Sys.setMach_procs, Sys.setProc_same]
    have hframe : (s'.procs i).trapframe / pgSize = tf := by
      rw [hs', Sys.setMach_procs, Sys.setProc_same, h.frame, mul_div_pgSize]
    rw [← hframe] at hregs
    have hstack := himg.stackRight hszi hshown hproc hregs
    refine ⟨fun h => absurd h (by omega), fun _ => ⟨?_, fun hok => ?_⟩⟩
    · rintro ⟨guard, hright, -⟩
      refine ⟨hright.table, fun hap ph hph hpos => ?_⟩
      have := (hright.bytes hap ph hph 0 hpos).1
      omega
    · exact ⟨_, himg.imageRight hfile hzero hszi hshown hregs hok, hstack⟩

end Result

/-! ## §4 Every exec -/

/-- In every state the system reaches, with the arguments fetched, `kexec` of
any file leaves the image, the entry point and the stack that the file and the
arguments ask for, exactly if no file offset loses bits. -/
theorem exec_image_iff_offsets (L : Layout) (mem : Nat → Page) (ops : List Op) :
    Meets (· ∈ runPanics) (run L ops) (Sys.atReset mem) fun _ s =>
      ∀ i (uargv : Word), (s.procs i).state ≠ .unused →
        Total (vm (fetchArgs L (s.procs i).mm uargv.toNat maxArg 0 [])) s fun args s1 =>
          ∀ file : List Byte, file.length < 2 ^ 32 →
            Total (kexec L i (some file) args.2) s1
              (ExecResult file (args.2.map (argStr s1.mach.mem)) i s1) := by
  refine (run_spec L mem ops).imp ?_
  rintro _ s ⟨f, c, a, h, -, -⟩ i uargv hu
  refine meets_vm ((fetchArgs_fetched h hu uargv.toNat).imp ?_)
  rintro ⟨ok, argv⟩ m1 ⟨f1, ps, tf, h1, -, rfl⟩ file hfile
  exact kexec_result h1 hfile

end Xv6
