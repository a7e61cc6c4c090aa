/-
Xv6.Vm.ImageTheorems — what a built image holds.

`Imaged` says how `kexec` came to an image: which headers it read, which
segments it loaded and what it pushed. Here that record is compared with the
file, whose segments are read off the ELF headers with 64-bit offsets, and
with the argument strings.
-/
import Xv6.Vm.ExecTheorems

namespace Xv6.Vm

open Xv6.Lib

variable {f f' f0 f1 : Entries} {c c' c1 : Slot → Page} {t : TableId}
  {file : List Byte} {sz sz' n : Nat} {ph : ProgHdr} {phs : List ProgHdr}
  {strs : List (List Byte)}

/-! ## §1 The segments of a file -/

def elfHdr (file : List Byte) : ElfHdr := ElfHdr.ofBytes (file.take elfhdrSize)

/-- The program header table is a part of the file. -/
def TableInFile (file : List Byte) : Prop :=
  (elfHdr file).phnum = 0 ∨
    (elfHdr file).phoff + (elfHdr file).phnum * proghdrSize ≤ file.length

/-- Program header `j`. -/
def phdr (file : List Byte) (j : Nat) : ProgHdr :=
  ProgHdr.ofBytes ((file.drop ((elfHdr file).phoff + j * proghdrSize)).take proghdrSize)

/-- The headers of type `PT_LOAD`. -/
def loadable (phs : List ProgHdr) : List ProgHdr := phs.filter fun ph => ph.type = elfProgLoad

def segments (file : List Byte) : List ProgHdr :=
  loadable ((List.range (elfHdr file).phnum).map (phdr file))

/-- Address `a` is in the memory of a segment. -/
def ProgHdr.Has (ph : ProgHdr) (a : Nat) : Prop := ph.vaddr ≤ a ∧ a < ph.vaddr + ph.memsz

/-- Address `a` is in the part of a segment that the file has bytes for. -/
def ProgHdr.Fills (ph : ProgHdr) (a : Nat) : Prop := ph.vaddr ≤ a ∧ a < ph.vaddr + ph.filesz

def Apart (phs : List ProgHdr) : Prop := phs.Pairwise fun p q => ∀ a, p.Has a → ¬ q.Has a

def Ascending (phs : List ProgHdr) : Prop := phs.Pairwise fun p q => p.vaddr ≤ q.vaddr

theorem loadable_cons_of_ne (phs : List ProgHdr) (h : ph.type ≠ elfProgLoad) :
    loadable (ph :: phs) = loadable phs := by
  simp [loadable, h]

theorem loadable_cons (phs : List ProgHdr) (h : ph.type = elfProgLoad) :
    loadable (ph :: phs) = ph :: loadable phs := by
  simp [loadable, h]

/-- A read inside the file. -/
theorem readi_inside {off : Nat} (hfile : file.length < 2 ^ 32) (hin : off + n ≤ file.length) :
    readi file off n = (file.drop off).take n := by
  have hoff : off % 2 ^ 32 = off := Nat.mod_eq_of_lt (by omega)
  have hn : n % 2 ^ 32 = n := Nat.mod_eq_of_lt (by omega)
  have hsum : (off + n) % 2 ^ 32 = off + n := Nat.mod_eq_of_lt (by omega)
  simp only [readi, hoff, hn, hsum]
  rw [if_neg (by omega)]

theorem readi_header : readi file 0 elfhdrSize = file.take elfhdrSize := by
  simp [readi, elfhdrSize]

/-- The loop reads the headers of a table that is in the file. -/
theorem progHdrs_eq (hfile : file.length < 2 ^ 32) (n : Nat) {off : Nat}
    (hin : off + n * proghdrSize ≤ file.length) :
    progHdrs file n off = (List.range n).map fun j =>
      ProgHdr.ofBytes ((file.drop (off + j * proghdrSize)).take proghdrSize) := by
  induction n generalizing off with
  | zero => rfl
  | succ n ih =>
    have hsucc : (n + 1) * proghdrSize = n * proghdrSize + proghdrSize := Nat.succ_mul _ _
    rw [progHdrs, readi_inside hfile (by omega), ih (by omega), List.range_succ_eq_map]
    simp only [List.map_cons, List.map_map, Nat.zero_mul, Nat.add_zero, List.cons.injEq, true_and]
    refine List.map_congr_left (fun j _ => ?_)
    simp only [Function.comp, Nat.succ_mul]
    rw [Nat.add_assoc, Nat.add_comm proghdrSize]

/-! ## §2 Loading -/

/-- The bytes that are loaded for a segment. -/
def segBytes (file : List Byte) (ph : ProgHdr) : List Byte :=
  (file.drop (ph.off % 2 ^ 32)).take ph.filesz

def segWrites (file : List Byte) (phs : List ProgHdr) : List (Nat × List Byte) :=
  (loadable phs).map fun ph => (ph.vaddr, segBytes file ph)

theorem Loads.pokes (h : Loads file t phs f c sz f' c' sz') (hfile : file.length < 2 ^ 32) :
    Pokes t (segWrites file phs) c c' := by
  induction h with
  | nil => exact .nil
  | skip htype _ ih =>
    rw [segWrites, loadable_cons_of_ne _ htype]
    exact ih
  | load htype _ _ _ _ hpoke hread _ ih =>
    rw [segWrites, loadable_cons _ htype, List.map_cons]
    rw [hread hfile] at hpoke
    exact .cons hpoke ih

/-- A segment that was loaded into an image of `sz` bytes. -/
structure SegOk (file : List Byte) (sz : Nat) (ph : ProgHdr) : Prop where
  fits : ph.filesz ≤ ph.memsz
  aligned : ph.vaddr % 4096 = 0
  below : ph.vaddr + ph.memsz ≤ sz
  full : file.length < 2 ^ 32 → (segBytes file ph).length = ph.filesz

theorem SegOk.covers (h : SegOk file sz ph) (hfile : file.length < 2 ^ 32) {a : Nat}
    (ha : Covers (ph.vaddr, segBytes file ph) a) : ph.Has a := by
  have hlen := h.full hfile
  have hfits := h.fits
  obtain ⟨h1, h2⟩ := ha
  refine ⟨h1, ?_⟩
  dsimp only at h2
  omega

/-- Loading adds pages at the top only. -/
theorem Loads.grows (h : Loads file t phs f c sz f' c' sz') :
    sz ≤ sz' ∧ ∀ vpn, vpn < upPage sz → f' t vpn = f t vpn := by
  induction h with
  | nil => exact ⟨Nat.le_refl _, fun _ _ => rfl⟩
  | skip _ _ ih => exact ih
  | load _ _ _ hmap _ _ _ _ ih =>
    obtain ⟨hle, hkeep⟩ := ih
    rcases hmap with ⟨-, rfl, rfl⟩ | ⟨hge, rfl, hg⟩
    · exact ⟨hle, hkeep⟩
    · refine ⟨by omega, fun vpn hv => ?_⟩
      rw [hkeep vpn (by unfold upPage at hv ⊢; omega), hg.out (by omega)]

theorem Loads.segOk (h : Loads file t phs f c sz f' c' sz') :
    ∀ ph ∈ loadable phs, SegOk file sz' ph := by
  induction h with
  | nil => simp [loadable]
  | skip htype _ ih =>
    rw [loadable_cons_of_ne _ htype]
    exact ih
  | load htype hmem hal hmap hlen _ hread hs ih =>
    intro q hq
    rw [loadable_cons _ htype] at hq
    rcases List.mem_cons.mp hq with rfl | hq
    · have hle := hs.grows.1
      exact ⟨hmem, hal, by omega, fun hfile => by rw [segBytes, ← hread hfile, hlen]⟩
    · exact ih q hq

/-- The pages of a segment, from its own `uvmalloc`. -/
def OwnFlags (f : Entries) (t : TableId) (ph : ProgHdr) : Prop :=
  ∀ a, ph.Has a → ∃ p, f t (a / 4096) = some (mkPte p (pteR ||| pteU ||| flags2perm ph.flags))

/-- Each segment of an ascending list starts where the image ends so far. -/
theorem Loads.flags (h : Loads file t phs f c sz f' c' sz') (hap : Apart (loadable phs))
    (hasc : Ascending (loadable phs)) (hlow : ∀ ph ∈ loadable phs, 0 < ph.memsz → sz ≤ ph.vaddr) :
    ∀ ph ∈ loadable phs, OwnFlags f' t ph := by
  induction h with
  | nil => simp [loadable]
  | skip htype _ ih =>
    rw [loadable_cons_of_ne _ htype] at hap hasc hlow ⊢
    exact ih hap hasc hlow
  | @load ph phs f f1 f' c c1 c' sz sz1 sz' bs htype hmem hal hmap hlen _ _ hs ih =>
    rw [loadable_cons _ htype] at hap hasc hlow ⊢
    obtain ⟨hap1, hap2⟩ := List.pairwise_cons.mp hap
    obtain ⟨hasc1, hasc2⟩ := List.pairwise_cons.mp hasc
    have hhead := hlow ph List.mem_cons_self
    -- the next segment that is not empty starts above this one
    have hnext : ∀ q ∈ loadable phs, 0 < q.memsz → sz1 ≤ q.vaddr := by
      intro q hq hpos
      have h1 := hlow q (List.mem_cons_of_mem _ hq) hpos
      have h2 := hasc1 q hq
      have h3 := hap1 q hq q.vaddr
      unfold ProgHdr.Has at h3
      omega
    intro q hq
    rcases List.mem_cons.mp hq with rfl | hq
    · intro a ha
      unfold ProgHdr.Has at ha
      rcases hmap with ⟨hlt, -, -⟩ | ⟨-, rfl, hg⟩
      · omega
      · obtain ⟨p, hp⟩ := hg.new (n := a / 4096) (by unfold upPage; omega) (by unfold upPage; omega)
        exact ⟨p, by rw [hs.grows.2 _ (by unfold upPage; omega), hp]⟩
    · exact ih hap2 hasc2 hnext q hq

theorem hasFlag_segment (p flags : Nat) :
    let w := mkPte p (pteR ||| pteU ||| flags2perm flags)
    hasFlag w pteU = true ∧ hasFlag w pteW = decide (flags &&& 2 ≠ 0) ∧
      hasFlag w pteX = decide (flags &&& 1 ≠ 0) := by
  dsimp only
  rw [hasFlag_mkPte _ _ (by decide), hasFlag_mkPte _ _ (by decide), hasFlag_mkPte _ _ (by decide)]
  by_cases hX : flags &&& 1 = 0 <;> by_cases hW : flags &&& 2 = 0 <;>
    simp only [flags2perm, hX, hW, ne_eq, not_true, not_false_iff, if_true, if_false] <;> decide

/-! ## §3 The stack -/

/-- `w'` was pushed after `w`. -/
def Below (w w' : Nat × List Byte) : Prop := w'.1 + w'.2.length ≤ w.1

theorem Pushes.writes {base sp sp' : Nat} {us : List Nat} (h : Pushes base strs sp us sp') :
    (∀ w ∈ argWrites us strs, sp' ≤ w.1 ∧ w.1 + w.2.length ≤ sp) ∧
      (argWrites us strs).Pairwise Below := by
  induction h with
  | nil => exact ⟨by simp [argWrites], .nil⟩
  | @cons s strs sp sp' us hin hroom hs ih =>
    obtain ⟨hrange, hpair⟩ := ih
    have hle := (hs.le hin).2.1
    refine ⟨fun w hw => ?_, List.pairwise_cons.mpr ⟨fun w hw => (hrange w hw).2, hpair⟩⟩
    rcases List.mem_cons.mp hw with rfl | hw
    · rw [List.length_append]
      exact ⟨hle, hroom⟩
    · have := hrange w hw
      omega

theorem Below.apart {w w' : Nat × List Byte} (h : Below w w') (a : Nat) (ha : Covers w a) :
    ¬ Covers w' a := by
  unfold Below at h
  unfold Covers at ha ⊢
  omega

/-- The `n` bytes at `va` that a write has left. -/
theorem ubytes_of_read {va : Nat} {bs : List Byte}
    (h : ∀ a, Covers (va, bs) a → ubyte c t a = bs.getD (a - va) 0) :
    ubytes c t va bs.length = bs := by
  unfold ubytes
  refine List.ext_getElem (by simp) (fun k hk1 hk2 => ?_)
  rw [List.getElem_map, List.getElem_range, h (va + k) ⟨by simp, by simpa using hk2⟩,
    Nat.add_sub_cancel_left, List.getD_eq_getElem _ _ hk2]

/-! ## §4 The image -/

/-- The arguments `strs` on the stack page at `base`: the pointers `us` to
them stand in an array at `sp`, and everything lies apart. -/
structure ArgsAt (strs : List (List Byte)) (us : List Nat) (base sp : Nat)
    (bytes : Nat → Nat → List Byte) : Prop where
  count : us.length = strs.length
  array : bytes sp ((strs.length + 1) * 8) = (us ++ [0]).flatMap (leBytes 8)
  strings : ∀ w ∈ us.zip strs, bytes w.1 (w.2.length + 1) = w.2 ++ [0]
  above : base ≤ sp ∧ ∀ w ∈ us.zip strs, sp + (strs.length + 1) * 8 ≤ w.1
  inside : sp + (strs.length + 1) * 8 ≤ base + 4096 ∧
    ∀ w ∈ us.zip strs, w.1 + (w.2.length + 1) ≤ base + 4096
  apart : (us.zip strs).Pairwise fun w w' => w'.1 + (w'.2.length + 1) ≤ w.1

section Image

variable {argv : List Nat} {v : View} {mem : Nat → Page} {img : Image} {strs : List (List Byte)}
  {us : List Nat} {sp : Nat}

theorem Stacked.strs_length (h : Stacked argv v mem t f1 c1 sz img f' c' strs us sp) :
    strs.length = argv.length := (List.Forall₂.length_eq h.strings).symm

theorem argWrites_eq : argWrites us strs = (us.zip strs).map fun w => (w.1, w.2 ++ [0]) := by
  rw [argWrites, List.zip_map_right]
  rfl

section

variable (h : Stacked argv v mem t f1 c1 sz img f' c' strs us sp)
include h

theorem Stacked.array_length :
    ((us ++ [0]).flatMap (leBytes 8)).length = (argv.length + 1) * 8 := by
  simp [leBytes_length, h.count, Nat.succ_mul]

/-- All writes to the stack, and where they are. -/
theorem Stacked.layout :
    (∀ w ∈ argWrites us strs ++ [(img.sp, (us ++ [0]).flatMap (leBytes 8))],
      upPage sz * 4096 + 4096 ≤ w.1) ∧
    (argWrites us strs ++ [(img.sp, (us ++ [0]).flatMap (leBytes 8))]).Pairwise Below := by
  obtain ⟨hrange, hpair⟩ := h.pushes.writes
  have hin := h.spIn
  have hroom := h.spRoom
  have hlen := h.array_length
  refine ⟨fun w hw => ?_, List.pairwise_append.mpr ⟨hpair, List.pairwise_singleton _ _, ?_⟩⟩
  · rcases List.mem_append.mp hw with hw | hw
    · have := hrange w hw
      omega
    · rw [List.mem_singleton.mp hw]
      exact hin
  · intro w hw w' hw'
    rw [List.mem_singleton.mp hw', Below, hlen]
    have := hrange w hw
    omega

theorem Stacked.args : ArgsAt strs us (upPage sz * 4096 + 4096) img.sp (ubytes c' t) := by
  obtain ⟨hrange, hpair⟩ := h.pushes.writes
  have hin := h.spIn
  have hroom := h.spRoom
  have hread : ∀ w ∈ argWrites us strs ++ [(img.sp, (us ++ [0]).flatMap (leBytes 8))],
      ∀ a, Covers w a → ubyte c' t a = w.2.getD (a - w.1) 0 :=
    fun w hw a ha => h.writes.read (h.layout.2.imp Below.apart) hw ha
  have hlen := h.array_length
  rw [h.strs_length.symm] at hroom hlen
  have hmem : ∀ w ∈ us.zip strs, (w.1, w.2 ++ [0]) ∈ argWrites us strs := by
    intro w hw
    rw [argWrites_eq]
    exact List.mem_map_of_mem hw
  refine ⟨?_, ?_, ?_, ⟨hin, ?_⟩, ⟨?_, ?_⟩, ?_⟩
  · rw [h.count, h.strs_length]
  · rw [← hlen]
    exact ubytes_of_read (hread _ (by simp))
  · intro w hw
    have hl : w.2.length + 1 = (w.2 ++ [0]).length := by simp
    rw [hl]
    exact ubytes_of_read (hread _ (List.mem_append_left _ (hmem w hw)))
  · intro w hw
    have := (hrange _ (hmem w hw)).1
    omega
  · have := h.pushes.le (by omega)
    omega
  · intro w hw
    have := (hrange _ (hmem w hw)).2
    simpa using this
  · rw [argWrites_eq, List.pairwise_map] at hpair
    simpa [Below] using hpair

end

variable (h : Imaged file argv v mem t c img f' c' f0 f1 c1 sz strs us sp)
  (hfile : file.length < 2 ^ 32)
include h

/-- The headers that were used are those of the table. -/
theorem Imaged.loads_segments (hfile : file.length < 2 ^ 32) (htab : TableInFile file) :
    ∃ phs, loadable phs = segments file ∧ Loads file t phs f0 c 0 f1 c1 sz := by
  have hloads := h.loads.2
  rw [readi_header] at hloads
  refine ⟨_, ?_, hloads⟩
  have hhdr : ElfHdr.ofBytes (file.take elfhdrSize) = elfHdr file := rfl
  rw [hhdr, segments]
  rcases htab with h0 | hin
  · rw [h0]
    rfl
  · rw [progHdrs_eq hfile _ hin]
    rfl

/-- Below the guard page an image is what was loaded. -/
theorem Imaged.ubyte_below {a : Nat} (ha : a < upPage sz * 4096) : ubyte c' t a = ubyte c1 t a := by
  refine h.writes.out (fun _ w hw hcov => ?_)
  have := h.toStacked.layout.1 w hw
  unfold Covers at hcov
  omega

include hfile

section

variable (htab : TableInFile file)
include htab

theorem Imaged.segOk : ∀ ph ∈ segments file, SegOk file sz ph := by
  obtain ⟨phs, hphs, hloads⟩ := h.loads_segments hfile htab
  rw [← hphs]
  exact hloads.segOk

/-- The bytes of each segment are loaded from its offset, cut to 32 bits. -/
theorem Imaged.bytes (hap : Apart (segments file)) {ph : ProgHdr}
    (hph : ph ∈ segments file) {k : Nat} (hk : k < ph.filesz) :
    ph.off % 2 ^ 32 + k < file.length ∧
      ubyte c' t (ph.vaddr + k) = file.getD (ph.off % 2 ^ 32 + k) 0 := by
  have hok := h.segOk hfile htab
  obtain ⟨phs, hphs, hloads⟩ := h.loads_segments hfile htab
  have hlen := (hok ph hph).full hfile
  have hfits := (hok ph hph).fits
  have hend := (hok ph hph).below
  have hapart : (segWrites file phs).Pairwise fun w w' => ∀ a, Covers w a → ¬ Covers w' a := by
    rw [segWrites, hphs, List.pairwise_map]
    refine hap.imp_of_mem (fun {p q} hp hq hpq a ha ha' => hpq a ?_ ?_)
    · exact (hok p hp).covers hfile ha
    · exact (hok q hq).covers hfile ha'
  have hmem : (ph.vaddr, segBytes file ph) ∈ segWrites file phs := by
    rw [segWrites, hphs]
    exact List.mem_map_of_mem hph
  have hin : ph.off % 2 ^ 32 + k < file.length := by
    rw [segBytes, List.length_take, List.length_drop] at hlen
    omega
  refine ⟨hin, ?_⟩
  rw [h.ubyte_below (by unfold upPage; omega),
    (hloads.pokes hfile).read hapart hmem ⟨by simp, by simp; omega⟩, segBytes]
  simp only [Nat.add_sub_cancel_left]
  rw [List.getD_eq_getElem?_getD, List.getElem?_take_of_lt hk, List.getElem?_drop,
    List.getD_eq_getElem?_getD]

/-- Every other byte below the guard page is as in an empty page. -/
theorem Imaged.zero (hzero : ∀ a, ubyte c t a = 0) {a : Nat}
    (ha : a < upPage sz * 4096) (hout : ∀ ph ∈ segments file, ¬ ph.Fills a) :
    ubyte c' t a = 0 := by
  obtain ⟨phs, hphs, hloads⟩ := h.loads_segments hfile htab
  rw [h.ubyte_below ha, (hloads.pokes hfile).out (fun _ w hw hcov => ?_), hzero]
  rw [segWrites, hphs] at hw
  obtain ⟨ph, hph, rfl⟩ := List.mem_map.mp hw
  refine hout ph hph ⟨hcov.1, ?_⟩
  rw [← (h.segOk hfile htab ph hph).full hfile]
  exact hcov.2

theorem Imaged.flags (hap : Apart (segments file))
    (hasc : Ascending (segments file)) {ph : ProgHdr} (hph : ph ∈ segments file) :
    OwnFlags f' t ph := by
  obtain ⟨phs, hphs, hloads⟩ := h.loads_segments hfile htab
  have hend := (h.segOk hfile htab ph hph).below
  intro a ha
  rw [← hphs] at hap hasc hph
  obtain ⟨p, hp⟩ := hloads.flags hap hasc (fun _ _ _ => Nat.zero_le _) ph hph a ha
  refine ⟨p, ?_⟩
  rw [h.below _ (by unfold ProgHdr.Has at ha; unfold upPage; omega), hp]

end

end Image

end Xv6.Vm
