/-
Xv6.Fs.CommitInvariant — what the disk and the cache hold at each stage.

`committed` is what the operations with a commit on the disk make of the
image, `current` what all operations so far make of it. The invariant `Inv`
says, for each stage of a commit and of recovery, how the disk and the cache
relate to the two. §1 replaying changes, §2 the invariant.
-/
import Xv6.Fs.CacheTheorems
import Xv6.Fs.LogTheorems

namespace Xv6.Fs

open Xv6.Lib Function

/-! ## §1 Replaying changes -/

section Replay

variable {init : Nat → Block} {events : List Event} {live live' : Nat → Bool}

theorem replay_congr (h : ∀ e ∈ events, live e.op = live' e.op) :
    replay init events live = replay init events live' := by
  unfold replay
  rw [List.filter_congr h]

theorem replay_snoc {e : Event} (h : live e.op = true) :
    replay init (events ++ [e]) live =
      update (replay init events live) e.block
        (e.change (replay init events live e.block)) := by
  unfold replay
  simp [h]

theorem replay_snoc_skip {e : Event} (h : live e.op = false) :
    replay init (events ++ [e]) live = replay init events live := by
  unfold replay
  simp [h]

end Replay

open Classical in
/-- The operations whose changes are visible to processes. -/
noncomputable def Hist.live (h : Hist) (n : Nat) : Bool :=
  decide (n ∈ h.done ∨ n ∈ h.ended ∨ ∃ p, h.op p = some n)

theorem Hist.live_iff {h : Hist} {n : Nat} :
    h.live n = true ↔ n ∈ h.done ∨ n ∈ h.ended ∨ ∃ p, h.op p = some n := by
  classical
  exact decide_eq_true_iff

/-- Two histories make the same operations visible. -/
theorem Hist.live_congr {h h' : Hist} {n m : Nat}
    (hiff : (n ∈ h.done ∨ n ∈ h.ended ∨ ∃ p, h.op p = some n) ↔
      (m ∈ h'.done ∨ m ∈ h'.ended ∨ ∃ p, h'.op p = some m)) : h.live n = h'.live m := by
  rw [Bool.eq_iff_iff, Hist.live_iff, Hist.live_iff]
  exact hiff

noncomputable def Hist.current (h : Hist) (init : Nat → Block) : Nat → Block :=
  replay init h.events h.live

def Hist.committed (h : Hist) (init : Nat → Block) : Nat → Block :=
  replay init h.events fun n => n ∈ h.done

/-- No operation is under way or waits for a commit. -/
def Hist.Idle (h : Hist) : Prop := (∀ p, h.op p = none) ∧ h.ended = []

/-- Without operations under way or waiting, the two are the same. -/
theorem Hist.Idle.current_eq {h : Hist} (hi : h.Idle) (init : Nat → Block) :
    h.current init = h.committed init := by
  refine replay_congr fun e _ => ?_
  simp [Hist.live, hi.1, hi.2]

/-- The numbers of operations are used once; those not committed have logged
what they changed. -/
structure HistOk (h : Hist) (lh : List Nat) : Prop where
  events : ∀ e ∈ h.events, e.op < h.next
  done : ∀ n ∈ h.done, n < h.next
  ended : ∀ n ∈ h.ended, n < h.next ∧ n ∉ h.done
  op : ∀ {p n}, h.op p = some n → n < h.next ∧ n ∉ h.done ∧ n ∉ h.ended
  inj : ∀ {p q n}, h.op p = some n → h.op q = some n → p = q
  logged : ∀ e ∈ h.events, (e.op ∈ h.ended ∨ ∃ p, h.op p = some e.op) → e.block ∈ lh

/-! ## §2 The invariant -/

variable (L : LogLayout)

/-- A disk on which entries `lh` of the log are committed and the first `t`
of them installed. -/
structure DiskOk (lh : List Nat) (t : Nat) (committed disk : Nat → Block) : Prop where
  head : headOf (disk L.logstart) = lh
  home : ∀ b, L.Home b → b ∉ lh.drop t → disk b = committed b
  log : ∀ {k b}, lh[k]? = some b → disk (L.logstart + k + 1) = committed b

structure HeadOk (lh : List Nat) : Prop where
  home : ∀ b ∈ lh, L.Home b
  nodup : lh.Nodup
  length : lh.length ≤ logblocks

/-- The blocks that are pinned in the cache. -/
def DiskSys.pins (s : DiskSys) : List Nat :=
  match s.stage with
  | .run => s.ls.log.lh
  | .log _ => s.ls.log.lh
  | .install t => s.ls.log.lh.drop t
  | _ => []

/-- What the cache has for each block. -/
def overlay (P : List Nat) (current disk : Nat → Block) (b : Nat) : Block :=
  if b ∈ P then current b else disk b

/-- The blocks that are not logged are the current ones. -/
def Clean (lh : List Nat) (current disk : Nat → Block) : Prop :=
  ∀ b, L.Home b → b ∉ lh → disk b = current b

def StageOk (init : Nat → Block) (ls : LogSys) (h : Hist) (disk : Nat → Block)
    (held : List (Nat × Fin nbuf)) : Stage → Prop
  | .readHead => ls = .start ∧ held = [] ∧ h.Idle ∧
      ∃ lh, HeadOk L lh ∧ DiskOk L lh 0 (h.committed init) disk
  | .reinstall t => (∃ lh, ls = { LogSys.start with log := { Log.empty with lh := lh } }) ∧
      held = [] ∧ h.Idle ∧ t ≤ ls.log.lh.length ∧
      DiskOk L ls.log.lh t (h.committed init) disk
  | .run => (∀ p, ls.doing p ≠ .commit) ∧ DiskOk L [] 0 (h.committed init) disk ∧
      Clean L ls.log.lh (h.current init) disk
  | .log t => (∃ p, ls.doing p = .commit) ∧ DiskOk L [] 0 (h.committed init) disk ∧
      Clean L ls.log.lh (h.current init) disk ∧ t ≤ ls.log.lh.length ∧
      ∀ k b, k < t → ls.log.lh[k]? = some b → disk (L.logstart + k + 1) = h.current init b
  | .install t => (∃ p, ls.doing p = .commit) ∧ h.Idle ∧ t ≤ ls.log.lh.length ∧
      DiskOk L ls.log.lh t (h.committed init) disk

structure Inv (init : Nat → Block) (A : Finset Nat) (s : DiskSys) : Prop where
  log : LogInv A s.ls
  hist : HistOk s.hist s.ls.log.lh
  ops : ∀ p, (s.hist.op p).isSome = (s.ls.doing p).isOp
  cache : Cache (overlay s.pins (s.hist.current init) s.disk) s.held s.pins s
  lh : HeadOk L s.ls.log.lh
  held : ∀ {p i}, (p, i) ∈ s.held → ∃ b, s.Has i b ∧ L.Home b
  stage : StageOk L init s.ls s.hist s.disk s.held s.stage

variable {L} {init : Nat → Block} {A : Finset Nat} {s s' : DiskSys} {P lh : List Nat}
  {current committed disk : Nat → Block} {b k t : Nat}

theorem overlay_mem (h : b ∈ P) : overlay P current disk b = current b := if_pos h

theorem overlay_not_mem (h : b ∉ P) : overlay P current disk b = disk b := if_neg h

theorem logBlock_not_home (h : k < logblocks) : ¬ L.Home (L.logstart + k + 1) := by
  intro hh
  exact hh.2 ⟨by omega, by omega⟩

theorem header_not_home : ¬ L.Home L.logstart := fun hh => hh.2 ⟨Nat.le_refl _, by omega⟩

theorem HeadOk.nil : HeadOk L [] :=
  ⟨fun _ hb => absurd hb List.not_mem_nil, List.nodup_nil, Nat.zero_le _⟩

theorem HeadOk.ne (h : HeadOk L lh) (hb : b ∈ lh) (hk : k < logblocks) :
    L.logstart + k + 1 ≠ b := by
  rintro rfl
  exact logBlock_not_home hk (h.home _ hb)

theorem DiskSys.pins_sub (hb : b ∈ s.pins) : b ∈ s.ls.log.lh := by
  unfold DiskSys.pins at hb
  split at hb
  · exact hb
  · exact hb
  · exact List.mem_of_mem_drop hb
  · cases hb

theorem Inv.pins_home (h : Inv L init A s) (hb : b ∈ s.pins) : L.Home b :=
  h.lh.home b (DiskSys.pins_sub hb)

/-- Log blocks are read from the disk. -/
theorem Inv.overlay_log (h : Inv L init A s) (hb : ¬ L.Home b) :
    s.disk b = overlay s.pins (s.hist.current init) s.disk b :=
  (overlay_not_mem fun hp => hb (h.pins_home hp)).symm

/-! ### The header block -/

theorem headOf_headBlock {d : Block} (hlen : lh.length ≤ logblocks)
    (hsmall : ∀ b ∈ lh, b < 2 ^ 32) : headOf (headBlock lh d) = lh := by
  have hl : lh.length ≤ 30 := hlen
  have hn : (word (headBlock lh d) 0).toInt.toNat = lh.length := by
    have hw : word (headBlock lh d) 0 = BitVec.ofNat 32 lh.length := by
      rfl
    rw [hw, BitVec.toInt_eq_toNat_cond, BitVec.toNat_ofNat]
    split <;> omega
  unfold headOf
  rw [hn]
  refine List.ext_getElem (by simp) fun k h1 h2 => ?_
  rw [List.getElem_map, List.getElem_range]
  have hw : word (headBlock lh d) (k + 1) = BitVec.ofNat 32 (lh.getD k 0) := by
    unfold word headBlock
    rw [dif_pos (by omega)]
    dsimp only
    rw [if_neg (by omega), if_pos (by omega)]
    rfl
  rw [hw, BitVec.toNat_ofNat, List.getD_eq_getElem?_getD, List.getElem?_eq_getElem h2,
    Option.getD_some, Nat.mod_eq_of_lt (hsmall _ (List.getElem_mem h2))]

theorem HeadOk.small (h : HeadOk L lh) : ∀ b ∈ lh, b < 2 ^ 32 := fun b hb =>
  lt_of_lt_of_le (h.home b hb).1 L.small

end Xv6.Fs
