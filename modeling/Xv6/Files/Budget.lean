/-
Xv6.Files.Budget — a chunk of `filewrite` fits its reservation in the log.

Here the functions that `filewrite` calls are written with a note of every block
they pass to `log_write`, each block once, as the log absorbs. Without the notes
they are the functions of `Xv6.Files.Inode` and `Xv6.Files.Calls` (`Erases`).

The bound is a potential argument. A block of the file costs two blocks, its own
and the bitmap block of an allocation, or one if it is there already. `due` is
what the indirect block may still cost: two while there is none, one while it
has not been logged.

§1 code that notes, §2 leaving the notes out, §3 what a chunk costs, §4 writes.
-/
import Xv6.Files.Reading
import Xv6.Lib.Script

namespace Xv6.Files.Budget

open Xv6.Lib Function
open Xv6.Vm (nproc)
open Xv6.Fs (maxopblocks)

/-! ## §1 Code that notes -/

structure Notes where
  /-- The blocks that the open transaction has logged. -/
  blocks : List Nat
  /-- Those of the transactions before it. -/
  done : List (List Nat)

def note (bs : List Nat) (b : Nat) : List Nat := if b ∈ bs then bs else bs ++ [b]

def Notes.write (l : Notes) (b : Nat) : Notes := { l with blocks := note l.blocks b }

def logger : Logger Notes Panic where
  onWrite b l := .ok (l.write b)
  onBalloc := id
  files := id
  cut := some
  cut_files _ := rfl
  cut_write _ _ _ h := by cases h

abbrev Marked (σ : Type) := Noted Notes σ

abbrev T (σ α : Type) := StateT (Marked σ) (Except Panic) α

variable {σ α β : Type}

/-- Code that does not log. -/
def plain (x : StateT σ (Except Panic) α) : T σ α := logger.plain x

def beginOp : T σ Unit := modify fun s => { s with notes := { s.notes with blocks := [] } }

def endOp : T σ Unit :=
  modify fun s => { s with notes := ⟨[], s.notes.done ++ [s.notes.blocks]⟩ }

variable (sb : Superblock) {x : T σ α} {y : StateT σ (Except Panic) α} {E : Panic → Prop}

/-- The block that holds inode `inum`. -/
def iblock (inum : Nat) : Nat := 2 + sb.nlog + inum / ipb

def iupdate (inum : Nat) (ip : Dinode) : T Store Unit := do
  plain (Files.iupdate inum ip)
  logger.logWrite (iblock sb inum)

def writeLoop : Nat → Dinode → Src → Nat → Nat → Nat → T Store (Nat × Nat × Dinode)
  | 0, ip, _, off, _, tot => return (tot, off, ip)
  | fuel + 1, ip, src, off, n, tot => do
    if tot < n then
      let (addr, ip) ← logger.bmap sb ip (off / bsize)
      if addr = 0 then return (tot, off, ip)
      else
        let m := min (n - tot) (bsize - off % bsize)
        if ← plain (copyinBlock addr (off % bsize) src tot m) then
          logger.logWrite addr
          writeLoop fuel ip src (off + m) n (tot + m)
        else return (tot, off, ip)
    else return (tot, off, ip)

def writei (inum : Nat) (ip : Dinode) (src : Src) (off n : Nat) : T Store (Int × Dinode) := do
  if off > ip.size ∨ (off + n) % 2 ^ 32 < off then return (-1, ip)
  else if off + n > maxfile * bsize then return (-1, ip)
  else
    let (tot, off, ip) ← writeLoop sb n ip src off n 0
    let ip := if off > ip.size then { ip with size := off } else ip
    iupdate sb inum ip
    return (tot, ip)

def writeInode (i : Fin ninode) (src : Src) (off n : Nat) : T Fs Int := do
  let x ← plain (getInode i)
  let (r, ip) ← Logger.onStore (writei sb x.inum x.copy src off n)
  plain (modifyInode i fun x => { x with copy := ip })
  return r

/-- The loop of `filewrite`; each round is a transaction. -/
def filewriteLoop (f : Fin nfile) (src : Src) (n : Nat) : Nat → Nat → T Fs Nat
  | 0, i => return i
  | fuel + 1, i => do
    if i < n then
      let n1 := min (n - i) maxWrite
      beginOp
      let x ← plain (getFile f)
      plain (ilock x.ip)
      let r ← writeInode sb x.ip (src.drop i) x.off n1
      if r > 0 then plain (modifyFile f fun x => { x with off := x.off + r.toNat }) else pure ()
      endOp
      if r ≠ n1 then return i else filewriteLoop f src n fuel (i + n1)
    else return i

def filewrite (f : Fin nfile) (src : Src) (n : Int) (dev : Int) : T Fs Int := do
  let x ← plain (getFile f)
  if ¬ x.writable then return -1
  else
    match x.kind with
    | .inode =>
      let i ← filewriteLoop sb f src n.toNat n.toNat 0
      return if (i : Int) = n then n else -1
    | .device => return dev
    | .none => plain (throw .filewrite)

/-! ## §2 Leaving the notes out -/

/-- Without the notes, `x` is `y`. -/
abbrev Erases (x : T σ α) (y : StateT σ (Except Panic) α) : Prop := logger.Erases x y

theorem erases_plain (x : StateT σ (Except Panic) α) : Erases (plain x) x :=
  Logger.erases_plain x

theorem erases_beginOp : Erases (beginOp : T σ Unit) (pure ()) := ⟨fun _ => meets_modify rfl⟩

theorem erases_endOp : Erases (endOp : T σ Unit) (pure ()) := ⟨fun _ => meets_modify rfl⟩

theorem iupdate_erases (inum : Nat) (ip : Dinode) :
    Erases (iupdate sb inum ip) (Files.iupdate inum ip) := by
  have h :=
    (erases_plain (Files.iupdate inum ip)).bind fun _ => Logger.erases_logWrite (iblock sb inum)
  rwa [bind_pure] at h

theorem writeLoop_erases (fuel : Nat) : ∀ (ip : Dinode) (src : Src) (off n tot : Nat),
    Erases (writeLoop sb fuel ip src off n tot) (Files.writeLoop sb fuel ip src off n tot) := by
  induction fuel with
  | zero => exact fun _ _ _ _ _ => erases_pure _
  | succ fuel ih =>
    intro ip src off n tot
    refine Erases.ite (fun _ => ?_) fun _ => erases_pure _
    refine (logger.bmap_erases sb ip _).bind fun r => Erases.ite (fun _ => erases_pure _)
      fun _ => ?_
    refine (erases_plain _).bind fun copied => Erases.ite (fun _ => ?_) fun _ => erases_pure _
    exact (Logger.erases_logWrite _).bind_pure (ih _ _ _ _ _)

theorem writei_erases (inum : Nat) (ip : Dinode) (src : Src) (off n : Nat) :
    Erases (writei sb inum ip src off n) (Files.writei sb inum ip src off n) := by
  refine Erases.ite (fun _ => erases_pure _) fun _ => ?_
  refine Erases.ite (fun _ => erases_pure _) fun _ => ?_
  refine (writeLoop_erases sb _ _ _ _ _ _).bind fun r => ?_
  exact (iupdate_erases sb _ _).bind fun _ => erases_pure _

theorem writeInode_erases (i : Fin ninode) (src : Src) (off n : Nat) :
    Erases (writeInode sb i src off n) (Files.writeInode sb i src off n) := by
  refine (erases_plain _).bind fun x => ?_
  refine (Logger.erases_onStore (writei_erases sb ..)).bind fun r => ?_
  exact (erases_plain _).bind fun _ => erases_pure _

theorem filewriteLoop_erases (f : Fin nfile) (src : Src) (n fuel : Nat) : ∀ i,
    Erases (filewriteLoop sb f src n fuel i) (Files.filewriteLoop sb f src n fuel i) := by
  induction fuel with
  | zero => exact fun _ => erases_pure _
  | succ fuel ih =>
    intro i
    refine Erases.ite (fun _ => ?_) fun _ => erases_pure _
    refine erases_beginOp.bind_pure ((erases_plain _).bind fun x => ?_)
    refine (erases_plain _).bind fun _ => (writeInode_erases sb ..).bind fun r => ?_
    have hrest : Erases (endOp >>= fun _ => if r ≠ min (n - i) maxWrite then pure i
          else filewriteLoop sb f src n fuel (i + min (n - i) maxWrite))
        (if r ≠ min (n - i) maxWrite then pure i
          else Files.filewriteLoop sb f src n fuel (i + min (n - i) maxWrite)) :=
      erases_endOp.bind_pure (Erases.ite (fun _ => erases_pure _) fun _ => ih _)
    refine Erases.ite (fun _ => (erases_plain _).bind fun _ => ?_) fun _ => ?_
    · exact hrest
    · exact hrest

/-- Without the notes, it is the function of `Xv6.Files.Calls`. -/
theorem filewrite_erases (f : Fin nfile) (src : Src) (n dev : Int) :
    Erases (filewrite sb f src n dev) (Files.filewrite sb f src n dev) := by
  refine (erases_plain _).bind fun x => Erases.ite (fun _ => erases_pure _) fun _ => ?_
  cases x.kind with
  | none => exact erases_plain _
  | device => exact erases_pure _
  | inode => exact (filewriteLoop_erases sb f src _ _ _).bind fun _ => erases_pure _

/-! ## §3 What a chunk costs -/

variable {sb} {ip : Dinode} {s s' : Marked Store} {bs cs : List Nat} {b bn : Nat}

@[simp] theorem mem_note {x : Nat} : x ∈ note bs b ↔ x ∈ bs ∨ x = b := by
  unfold note
  split
  · rename_i h
    constructor
    · exact .inl
    · rintro (hx | rfl)
      · exact hx
      · exact h
  · simp

theorem length_note : (note bs b).length = bs.length + if b ∈ bs then 0 else 1 := by
  unfold note
  split <;> simp

theorem note_nodup (h : bs.Nodup) : (note bs b).Nodup := by
  unfold note
  split
  · exact h
  · rename_i hb
    rw [← List.concat_eq_append]
    exact h.concat hb

theorem subset_note : bs ⊆ note bs b := fun _ hx => mem_note.mpr (.inl hx)

theorem setAddr_self {k : Fin 13} : (ip.setAddr k b).addrs k = b := by simp [Dinode.setAddr]

/-- What the indirect block may still cost. -/
def due (ip : Dinode) (bs : List Nat) : Nat :=
  if ip.addrs indirect = 0 then 2 else if ip.addrs indirect ∈ bs then 0 else 1

theorem due_le_two : due ip bs ≤ 2 := by
  unfold due
  split
  · exact Nat.le_refl 2
  · split <;> decide

theorem due_anti (h : bs ⊆ cs) : due ip cs ≤ due ip bs := by
  unfold due
  split
  · exact Nat.le_refl _
  · by_cases hb : ip.addrs indirect ∈ bs
    · simp [hb, h hb]
    · split <;> decide

theorem due_of_mem (h : ip.addrs indirect ≠ 0) (hm : ip.addrs indirect ∈ bs) : due ip bs = 0 := by
  simp [due, h, hm]

theorem due_of_not_mem (h : ip.addrs indirect ≠ 0) (hm : ip.addrs indirect ∉ bs) :
    due ip bs = 1 := by
  simp [due, h, hm]

/-- What is left to pay for block `addr`, which is about to be logged. -/
def owed (addr : Nat) (bs : List Nat) : Nat := if addr ∈ bs then 0 else 1

theorem owed_le : owed b bs ≤ 1 := by
  unfold owed
  split <;> decide

theorem owed_of_mem (h : b ∈ bs) : owed b bs = 0 := if_pos h

/-- The transaction goes on. -/
structure Goes (s s' : Marked σ) : Prop where
  done : s'.notes.done = s.notes.done
  sub : s.notes.blocks ⊆ s'.notes.blocks
  nodup : s.notes.blocks.Nodup → s'.notes.blocks.Nodup

theorem Goes.refl {s : Marked σ} : Goes s s := ⟨rfl, List.Subset.refl _, id⟩

theorem Goes.trans {s s1 s2 : Marked σ} (h : Goes s s1) (h' : Goes s1 s2) : Goes s s2 :=
  ⟨h'.done.trans h.done, fun _ hx => h'.sub (h.sub hx), fun hn => h'.nodup (h.nodup hn)⟩

/-- A block is logged, and the state may have changed before. -/
theorem Goes.note {s : Marked σ} {t : σ} : Goes s ⟨t, note s.notes.blocks b, s.notes.done⟩ :=
  ⟨rfl, subset_note, note_nodup⟩

/-- It goes on, and blocks that were not logged are as they were. -/
structure Logs (s s' : Marked Store) : Prop extends Goes s s' where
  data : ∀ b, b ∉ s'.notes.blocks → s'.state.data b = s.state.data b

theorem Logs.refl {s : Marked Store} : Logs s s := ⟨.refl, fun _ _ => rfl⟩

theorem Logs.trans {s s1 s2 : Marked Store} (h : Logs s s1) (h' : Logs s1 s2) : Logs s s2 :=
  ⟨h.toGoes.trans h'.toGoes, fun b hb => (h'.data b hb).trans (h.data b fun h1 => hb (h'.sub h1))⟩

/-- A block may be changed and is then logged. -/
theorem Logs.note {s : Marked Store} {t : Store} (ht : ∀ c, c ≠ b → t.data c = s.state.data c) :
    Logs s ⟨t, note s.notes.blocks b, s.notes.done⟩ :=
  ⟨.note, fun c hc => ht c fun h => hc (mem_note.mpr (.inr h))⟩

theorem meets_plain {s : Marked σ} {Q : α → Marked σ → Prop}
    (h : Meets E y s.state fun a t => Q a { s with state := t }) : Meets E (plain y) s Q :=
  Logger.meets_plain h

theorem meets_logWrite {s : Marked σ} {Q : Unit → Marked σ → Prop}
    (h : Q () ⟨s.state, note s.notes.blocks b, s.notes.done⟩) :
    Meets E (logger.logWrite b) s Q := by
  refine Logger.meets_logWrite (fun l hl => ?_) fun e he => ?_
  · cases hl
    exact h
  · cases he

/-- An allocation logs a bitmap block and the block itself. -/
theorem balloc_notes : Total (logger.balloc sb) s fun r s' => Logs s s' ∧
    s'.notes.blocks.length + owed r s'.notes.blocks ≤ s.notes.blocks.length + 2 ∧
    (r ≠ 0 → r ∈ s'.notes.blocks) := by
  refine meets_update (meets_read ?_)
  cases hf : (List.range sb.size).find? fun b => !s.state.bitmap b with
  | none =>
    simp only [hf]
    exact meets_pure ⟨.refl, Nat.add_le_add_left (Nat.le_succ_of_le owed_le) _,
      fun h => absurd rfl h⟩
  | some b =>
    simp only [hf]
    refine Meets.bind (meets_plain (meets_modify (Meets.bind (meets_logWrite ?_))))
    refine Meets.bind (Meets.bind (meets_plain (meets_modify (meets_logWrite (meets_pure ?_)))))
    refine ⟨(Logs.note fun _ _ => rfl).trans (.note fun _ hc => update_of_ne hc ..), ?_,
      fun _ => by simp⟩
    rw [owed_of_mem (by simp)]
    have h1 : (note s.notes.blocks (Logger.bblock sb b)).length ≤ s.notes.blocks.length + 1 := by
      rw [length_note]
      split <;> omega
    have h2 : (note (note s.notes.blocks (Logger.bblock sb b)) b).length ≤
        (note s.notes.blocks (Logger.bblock sb b)).length + 1 := by
      rw [length_note]
      split <;> omega
    exact Nat.le_trans h2 (by omega)

theorem inodeAddr_direct {k : Fin 13} (hk : k ≠ indirect) :
    Total (logger.inodeAddr sb ip k) s fun r s' => Logs s s' ∧
      s'.notes.blocks.length + owed r.1 s'.notes.blocks + due r.2 s'.notes.blocks ≤
        s.notes.blocks.length + due ip s.notes.blocks + 2 := by
  have hle : owed (ip.addrs k) s.notes.blocks ≤ 1 := owed_le
  refine meets_ite (fun _ => ?_) fun _ => meets_pure ⟨.refl, by dsimp only; omega⟩
  refine balloc_notes.seq ?_
  rintro r s1 ⟨hg, hcost, -⟩
  have hdue : due ip s1.notes.blocks ≤ due ip s.notes.blocks := due_anti hg.sub
  have hsame : due (ip.setAddr k r) s1.notes.blocks = due ip s1.notes.blocks := by
    simp [due, Dinode.setAddr, update_of_ne (Ne.symm hk)]
  refine meets_ite (fun h0 => meets_pure ⟨hg, ?_⟩) fun _ => meets_pure ⟨hg, ?_⟩
  · rw [h0] at hcost
    dsimp only
    omega
  · dsimp only
    omega

/-- The indirect block is paid for, or there is none. -/
theorem inodeAddr_indirect :
    Total (logger.inodeAddr sb ip indirect) s fun r s' => Logs s s' ∧
      (r.1 = 0 → s'.notes.blocks.length + owed 0 s'.notes.blocks + due r.2 s'.notes.blocks ≤
        s.notes.blocks.length + due ip s.notes.blocks + 2) ∧
      (r.1 ≠ 0 → r.2.addrs indirect = r.1 ∧
        s'.notes.blocks.length + due r.2 s'.notes.blocks ≤
          s.notes.blocks.length + due ip s.notes.blocks) := by
  refine meets_ite (fun hz => ?_) fun hnz => meets_pure ⟨.refl, fun h => absurd h hnz, fun _ => ?_⟩
  · have htwo : due ip s.notes.blocks = 2 := if_pos hz
    refine balloc_notes.seq ?_
    rintro r s1 ⟨hg, hcost, hmem⟩
    have hdue : due ip s1.notes.blocks ≤ due ip s.notes.blocks := due_anti hg.sub
    refine meets_ite (fun h0 => meets_pure ⟨hg, fun _ => ?_, fun h => absurd rfl h⟩) fun h0 =>
      meets_pure ⟨hg, fun h => absurd h h0, fun _ => ⟨setAddr_self, ?_⟩⟩
    · rw [h0] at hcost
      dsimp only
      omega
    · rw [due_of_mem (by rwa [setAddr_self]) (by rw [setAddr_self]; exact hmem h0)]
      omega
  · exact ⟨rfl, Nat.le_refl _⟩

theorem indirectAddr_notes {ind k : Nat} (hind : ip.addrs indirect = ind) (hnz : ind ≠ 0) :
    Total (logger.indirectAddr sb ind k) s fun r s' => Logs s s' ∧
      s'.notes.blocks.length + owed r s'.notes.blocks + due ip s'.notes.blocks ≤
        s.notes.blocks.length + due ip s.notes.blocks + 2 := by
  subst hind
  refine Meets.bind (meets_plain (meets_read (meets_pure ?_)))
  change Meets _ _ s _
  refine meets_ite (fun _ => ?_) fun _ => meets_pure ⟨.refl, ?_⟩
  · refine balloc_notes.seq ?_
    rintro r s1 ⟨hg, hcost, hmem⟩
    have hdue : due ip s1.notes.blocks ≤ due ip s.notes.blocks := due_anti hg.sub
    refine meets_ite (fun h0 => meets_pure ⟨hg, ?_⟩) fun h0 => ?_
    · rw [h0] at hcost
      omega
    · refine Meets.bind (meets_plain (meets_modify (Meets.bind (meets_logWrite (meets_pure ?_)))))
      refine ⟨hg.trans (.note fun _ hc => update_of_ne hc ..), ?_⟩
      have howed : owed r (note s1.notes.blocks (ip.addrs indirect)) = 0 :=
        owed_of_mem (mem_note.mpr (.inl (hmem h0)))
      have hpaid : due ip (note s1.notes.blocks (ip.addrs indirect)) = 0 :=
        due_of_mem hnz (mem_note.mpr (.inr rfl))
      show (note s1.notes.blocks (ip.addrs indirect)).length +
        owed r (note s1.notes.blocks (ip.addrs indirect)) +
        due ip (note s1.notes.blocks (ip.addrs indirect)) ≤ _
      rw [howed, hpaid, length_note]
      by_cases hin : ip.addrs indirect ∈ s1.notes.blocks
      · rw [if_pos hin]
        omega
      · have hone : due ip s.notes.blocks = 1 := due_of_not_mem hnz fun h => hin (hg.sub h)
        rw [if_neg hin, hone]
        omega
  · have hle : ∀ r, owed r s.notes.blocks ≤ 1 := fun _ => owed_le
    have := hle (Fs.word (s.state.data (ip.addrs indirect)) k).toNat
    omega

theorem bmap_notes (hbn : bn < maxfile) :
    Total (logger.bmap sb ip bn) s fun r s' => Logs s s' ∧
      s'.notes.blocks.length + owed r.1 s'.notes.blocks + due r.2 s'.notes.blocks ≤
        s.notes.blocks.length + due ip s.notes.blocks + 2 := by
  unfold Logger.bmap
  by_cases hd : bn < ndirect
  · rw [dif_pos hd]
    refine inodeAddr_direct fun h => ?_
    have hv : bn = ndirect := congrArg Fin.val h
    omega
  · rw [dif_neg hd]
    have hi : bn - ndirect < nindirect := by
      unfold maxfile at hbn
      omega
    rw [if_pos hi]
    refine inodeAddr_indirect.seq ?_
    rintro ⟨ind, ip1⟩ s1 ⟨hg, hzero, hpos⟩
    refine meets_ite (fun h0 => meets_pure ⟨hg, ?_⟩) fun h0 => ?_
    · exact hzero h0
    · obtain ⟨haddr, hlen⟩ := hpos h0
      refine (indirectAddr_notes haddr h0).seq ?_
      rintro r s2 ⟨hg2, hlen2⟩
      refine meets_pure ⟨hg.trans hg2, ?_⟩
      dsimp only at hlen hlen2 ⊢
      omega

/-- What block `bn` costs: one if it is there, else two. -/
def price (ip : Dinode) (st : Store) (bn : Nat) : Nat := if ip.blockAt st.data bn = 0 then 2 else 1

theorem bmap_price (hbn : bn < maxfile) :
    Total (logger.bmap sb ip bn) s fun r s' => Logs s s' ∧
      s'.notes.blocks.length + owed r.1 s'.notes.blocks + due r.2 s'.notes.blocks ≤
        s.notes.blocks.length + due ip s.notes.blocks + price ip s.state bn := by
  by_cases hb : ip.blockAt s.state.data bn = 0
  · have e : price ip s.state bn = 2 := if_pos hb
    rw [e]
    exact bmap_notes hbn
  · refine Logger.bmap_there hbn hb ⟨.refl, ?_⟩
    have e : price ip s.state bn = 1 := if_neg hb
    have hle : owed (ip.blockAt s.state.data bn) s.notes.blocks ≤ 1 := owed_le
    dsimp only
    omega

theorem price_le {st : Store} : price ip st bn ≤ 2 := by
  unfold price
  split <;> decide

/-- The price of `m` bytes from `off` on, if the first block costs `first`. -/
def chunkPrice (first off m : Nat) : Nat :=
  if m = 0 then 0 else first + 2 * ((off + m - 1) / bsize - off / bsize)

/-- The first block, and the rest of the chunk. -/
theorem chunkPrice_round (first off : Nat) {m : Nat} (hm : 0 < m) :
    first + chunkPrice 2 (off + min m (bsize - off % bsize)) (m - min m (bsize - off % bsize)) ≤
      chunkPrice first off m := by
  unfold chunkPrice bsize
  rw [if_neg (Nat.ne_of_gt hm)]
  split <;> omega

theorem writeLoop_notes (src : Src) (n fuel : Nat) : ∀ (ip : Dinode) (off tot first : Nat)
    (s : Marked Store), off + (n - tot) ≤ maxfile * bsize →
    price ip s.state (off / bsize) ≤ first →
    Total (writeLoop sb fuel ip src off n tot) s fun r s' => Goes s s' ∧
      s'.notes.blocks.length + due r.2.2 s'.notes.blocks ≤
        s.notes.blocks.length + due ip s.notes.blocks + chunkPrice first off (n - tot) := by
  induction fuel with
  | zero => exact fun ip off tot first s _ _ => meets_pure ⟨.refl, Nat.le_add_right _ _⟩
  | succ fuel ih =>
    intro ip off tot first s hmax hfirst
    refine meets_ite (fun hlt => ?_) fun _ => meets_pure ⟨.refl, Nat.le_add_right _ _⟩
    have hbn : off / bsize < maxfile := by
      rw [Nat.div_lt_iff_lt_mul (by decide)]
      omega
    have hround := chunkPrice_round first off (show 0 < n - tot by omega)
    refine (bmap_price hbn).seq ?_
    rintro ⟨addr, ip1⟩ s1 ⟨hg, hcost⟩
    dsimp only at hcost ⊢
    replace hg := hg.toGoes
    refine meets_ite (fun _ => meets_pure ⟨hg, by dsimp only; omega⟩) fun _ => ?_
    refine Meets.bind (meets_plain (meets_update (meets_pure ?_)))
    refine meets_ite (fun _ => ?_) fun _ => meets_pure ⟨⟨hg.done, hg.sub, hg.nodup⟩, ?_⟩
    · refine Meets.bind (meets_logWrite ?_)
      -- the other blocks of the chunk may have to be allocated
      refine (ih _ _ _ 2 _ (by omega) price_le).imp ?_
      rintro r s2 ⟨hg2, hcost2⟩
      have hdue : due ip1 (note s1.notes.blocks addr) ≤ due ip1 s1.notes.blocks :=
        due_anti subset_note
      have hlen : (note s1.notes.blocks addr).length =
          s1.notes.blocks.length + owed addr s1.notes.blocks :=
        length_note
      refine ⟨(hg.trans Goes.note).trans hg2, Nat.le_trans hcost2 ?_⟩
      rw [Nat.sub_sub] at hround
      show (note s1.notes.blocks addr).length + due ip1 (note s1.notes.blocks addr) + _ ≤ _
      omega
    · show s1.notes.blocks.length + due ip1 s1.notes.blocks ≤ _
      omega

/-- Two blocks for each block of the file that the chunk may touch, one less if
the chunk starts inside a block, two for the indirect block and one for the
inode. -/
theorem writei_notes {inum off n : Nat} {src : Src} (hs : s.notes.blocks = [])
    (hhas : ∀ k, k < ip.size → ip.Has s.state.data k) (hn : n ≤ maxWrite) :
    Total (writei sb inum ip src off n) s fun _ s' =>
      s'.notes.done = s.notes.done ∧ s'.notes.blocks.Nodup ∧
        s'.notes.blocks.length ≤ maxopblocks := by
  have hnil : s.notes.blocks.Nodup ∧ s.notes.blocks.length = 0 := by simp [hs]
  refine meets_ite (fun _ => meets_pure ⟨rfl, hnil.1, by omega⟩) fun hoff => ?_
  refine meets_ite (fun _ => meets_pure ⟨rfl, hnil.1, by omega⟩) fun hmax => ?_
  have hfirst : price ip s.state (off / bsize) ≤ if off % bsize = 0 then 2 else 1 := by
    split
    · exact price_le
    · -- the byte before `off` is in the same block
      rename_i hmod
      unfold bsize at hmod
      have hin := (hhas (off - 1) (by omega)).2
      have hsame : (off - 1) / bsize = off / bsize := by
        unfold bsize
        omega
      rw [hsame] at hin
      exact Nat.le_of_eq (if_neg hin)
  refine (writeLoop_notes src n n ip off 0 _ s (by omega) hfirst).seq ?_
  rintro ⟨tot, off', ip'⟩ s1 ⟨hg, hcost⟩
  refine Meets.bind (Meets.bind (meets_plain (meets_modify (meets_logWrite (meets_pure ?_)))))
  refine ⟨hg.done, note_nodup (hg.nodup hnil.1), ?_⟩
  show (note s1.notes.blocks (iblock sb inum)).length ≤ maxopblocks
  have hlen : (note s1.notes.blocks (iblock sb inum)).length ≤ s1.notes.blocks.length + 1 := by
    rw [length_note]
    split <;> omega
  have hdue : due ip s.notes.blocks ≤ 2 := due_le_two
  have hprice : chunkPrice (if off % bsize = 0 then 2 else 1) off (n - 0) ≤ 7 := by
    have hn' : n ≤ 3072 := hn
    unfold chunkPrice bsize
    by_cases hmod : off % 1024 = 0
    · split <;> omega
    · split <;> omega
  unfold maxopblocks
  omega

/-! ## §4 Writes -/

/-- The transaction fits its reservation. -/
def Fits (bs : List Nat) : Prop := bs.Nodup ∧ bs.length ≤ maxopblocks

section Writes

variable {g : Prop} {e : Fin ninode} {c : Fin ninode → Nat} {F : Fin nfile → Nat} {f : Fin nfile}

theorem writeInode_notes {s : Marked Fs} (h : Table sb g c s.state) (he : 0 < c e)
    (hv : (s.state.itable e).valid = true) (hs : s.notes.blocks = []) (src : Src) (off : Nat)
    {n : Nat} (hn : n ≤ maxWrite) {E : Panic → Prop} :
    Meets E (writeInode sb e src off n) s fun _ s' =>
      s'.notes.done = s.notes.done ∧ Fits s'.notes.blocks := by
  obtain ⟨hcopy, ht⟩ := h.sync e he hv
  refine Meets.bind (meets_plain (meets_getInode ?_))
  refine Meets.bind (Logger.meets_onStore ?_)
  rw [hcopy]
  refine (writei_notes hs (fun k hk => h.owned.has ht hk) hn).meets.imp ?_
  rintro ⟨r, ip⟩ t ⟨hdone, hfits⟩
  exact Meets.bind (meets_plain (meets_modifyInode (meets_pure ⟨hdone, hfits⟩)))

theorem filewriteLoop_notes (src : Src) (n fuel : Nat) : ∀ (i : Nat) {s : Marked Fs},
    Accounted sb g F s.state → (s.state.ftable f).kind = .inode →
    (s.state.ftable f).writable = true → (∀ bs ∈ s.notes.done, Fits bs) →
    Meets (Allowed g) (filewriteLoop sb f src n fuel i) s fun _ s' =>
      ∀ bs ∈ s'.notes.done, Fits bs := by
  induction fuel with
  | zero => exact fun i s _ _ _ hd => meets_pure hd
  | succ fuel ih =>
    intro i s h hk hw hd
    refine meets_ite (fun _ => ?_) fun _ => meets_pure hd
    refine meets_update (Meets.bind (meets_plain (meets_getFile ?_)))
    refine Meets.bind (meets_plain ((ilockFile_spec h hk).imp ?_))
    rintro - t ⟨⟨h1, -, -, -⟩, hft1, hpos, hv⟩
    have hk1 : (t.ftable f).kind = .inode := hft1 ▸ hk
    have hw1 : (t.ftable f).writable = true := hft1 ▸ hw
    have hip : (s.state.ftable f).ip = (t.ftable f).ip := by rw [hft1]
    refine Meets.seq (((writeInode_erases sb _ _ _ _).meets
      (hip ▸ writeFile_spec h1 hk1 hw1 (hip ▸ hpos) (hip ▸ hv) _ _ _)).and
        (writeInode_notes h1.table hpos hv rfl _ _ (Nat.min_le_right _ _))) ?_
    rintro r s2 ⟨⟨h2, hft2⟩, hdone, hfits⟩
    rw [← hft2] at hk1 hw1
    -- the transaction ends, and the next round follows
    have hnext : ∀ s3 : Marked Fs, Accounted sb g F s3.state → s3.notes.blocks = s2.notes.blocks →
        s3.notes.done = s2.notes.done → (s3.state.ftable f).kind = .inode →
        (s3.state.ftable f).writable = true →
        Meets (Allowed g) (endOp >>= fun _ => if r ≠ ↑(min (n - i) maxWrite) then pure i
          else filewriteLoop sb f src n fuel (i + min (n - i) maxWrite)) s3
          fun _ s' => ∀ bs ∈ s'.notes.done, Fits bs := by
      intro s3 h3 hb3 hd3 hk3 hw3
      have hall : ∀ bs ∈ s3.notes.done ++ [s3.notes.blocks], Fits bs := by
        intro bs hbs
        rw [hb3, hd3, hdone] at hbs
        rcases List.mem_append.mp hbs with hbs | hbs
        · exact hd bs hbs
        · exact List.mem_singleton.mp hbs ▸ hfits
      refine meets_update (meets_ite (fun _ => meets_pure hall) fun _ => ?_)
      exact ih _ h3 hk3 hw3 hall
    refine meets_ite (fun _ => Meets.bind (meets_plain (meets_modifyFile ?_))) fun _ => ?_
    · refine hnext _ (h2.books.setOff _) rfl rfl ?_ ?_
      · exact (congrArg File.kind (ftable_setFile_self _ _ _)).trans hk1
      · exact (congrArg File.writable (ftable_setFile_self _ _ _)).trans hw1
    · exact hnext s2 h2.books rfl rfl hk1 hw1

theorem filewrite_notes {s : Fs} (h : Accounted sb g F s) (src : Src) (n dev : Int) :
    Meets (· ≠ .freeingFree) (filewrite sb f src n dev) ⟨s, [], []⟩ fun _ s' =>
      ∀ bs ∈ s'.notes.done, Fits bs := by
  have hnone : ∀ bs ∈ ([] : List (List Nat)), Fits bs := by simp
  refine Meets.bind (meets_plain (meets_getFile ?_))
  refine meets_ite (fun _ => meets_pure hnone) fun hw => ?_
  cases hk : (s.ftable f).kind with
  | none => exact meets_plain (meets_throw nofun)
  | device => exact meets_pure hnone
  | inode =>
    have hw' : (s.ftable f).writable = true := by simpa using hw
    have hloop := filewriteLoop_notes (s := ⟨s, [], []⟩) src n.toNat n.toNat 0 h hk hw' hnone
    refine (hloop.mono (fun _ _ h1 => h1) fun e he => he.bitmap).seq ?_
    intro i s1 h1
    exact meets_pure h1

end Writes

/-- One `writei` of at most the bytes of a chunk to an inode without holes logs at
most `MAXOPBLOCKS` different blocks, whatever the disk is like. So do all the
transactions of every `filewrite`, whatever has happened before. -/
theorem write_fits_reservation (sb : Superblock) :
    (∀ (st : Store) (inum : Nat) (ip : Dinode) (src : Src) (off n : Nat) (done : List (List Nat)),
      (∀ k, k < ip.size → ip.Has st.data k) → off ≤ ip.size → n ≤ maxWrite →
      Total (writei sb inum ip src off n) ⟨st, [], done⟩ fun _ s' => Fits s'.notes.blocks) ∧
    ∀ (im : Image sb) (ops : List Op),
      Meets (· ≠ .freeingFree) (runOps sb ops) (boot im.store) fun _ s =>
        ∀ f src n dev, Meets (· ≠ .freeingFree) (filewrite sb f src n dev) ⟨s, [], []⟩ fun _ s' =>
          ∀ bs ∈ s'.notes.done, Fits bs := by
  constructor
  · intro st inum ip src off n done hhas _ hn
    exact (writei_notes rfl hhas hn).imp fun _ s' h => h.2
  · intro im ops
    refine (runOps_inv ops (boot_inv im False.elim)).mono (fun _ s h => ?_) fun e he => he.1
    intro f src n dev
    exact filewrite_notes h src n dev

end Xv6.Files.Budget
