/-
Xv6.Files.Shared — one open file, and many processes that write to it.

After `fork` and `dup` several processes have the same `struct file`, and with it
one offset. `filewrite` writes a few blocks at a time, and between two such chunks
the inode is not locked. The calls here take turns in any order, one statement of
the loop of `filewrite` at a time; the lock of the inode decides who may enter.
Each chunk goes where the last one ended, so nothing is written over and nothing
is left out.
-/
import Mathlib.Algebra.BigOperators.Fin
import Mathlib.Algebra.Order.BigOperators.Group.Finset
import Mathlib.Data.List.GetD
import Xv6.Files.Safety

namespace Xv6.Files

open Xv6.Lib Function
open Vm (nproc)

/-! ## §1 Calls that take turns -/

/-- Where a call of `filewrite` is in its loop. From `ilock` to `iunlock` it
holds the lock of the inode; `r` is what `writei` has returned. -/
inductive WritePc
  | loop
  | begun
  | locked
  | wrote (r : Int)
  | advanced (r : Int)
  | unlocked (r : Int)
  | returned (ret : Int)

/-- A call of `filewrite` for the first `n` bytes of `src`. -/
structure WriteCall where
  src : Src
  n : Nat
  i : Nat
  pc : WritePc

/-- The call when it starts. -/
def WriteCall.start (src : Src) (n : Nat) : WriteCall := ⟨src, n, 0, .loop⟩

/-- The call comes to `pc`. -/
def WriteCall.goto (w : WriteCall) (pc : WritePc) : WriteCall := { w with pc := pc }

/-- How much the next chunk has to write. -/
def WriteCall.n1 (w : WriteCall) : Nat := min (w.n - w.i) maxWrite

/-- What `filewrite` returns after its loop. -/
def WriteCall.result (w : WriteCall) : Int := if w.i = w.n then w.n else -1

/-- A chunk that has been written: whose it is, where it begins, its bytes. -/
structure Chunk (k : Nat) where
  call : Fin k
  off : Nat
  bytes : List Byte

/-- `k` calls on one open file. The chunks and the note that the disk has been
full are for the theorems only. -/
structure Writers (k : Nat) where
  fs : Fs
  lock : Option (Fin k)
  calls : Fin k → WriteCall
  chunks : List (Chunk k)
  filled : Bool

abbrev W (k : Nat) (α : Type) := StateT (Writers k) (Except Panic) α

variable {k : Nat}

def onFs {α : Type} (x : F α) : W k α := focus Writers.fs (fun s fs => { s with fs := fs }) x

def setCall (j : Fin k) (w : WriteCall) : W k Unit :=
  modify fun s => { s with calls := update s.calls j w }

def setLock (lock : Option (Fin k)) : W k Unit := modify fun s => { s with lock := lock }

/-- Is every block in use? -/
def Store.isFull (sb : Superblock) (st : Store) : Bool := (List.range sb.size).all st.bitmap

/-- Note the chunk that `writei` has written at `off`. -/
def note (sb : Superblock) (j : Fin k) (off : Nat) (bytes : List Byte) : W k Unit :=
  modify fun s => { s with chunks := s.chunks ++ [⟨j, off, bytes⟩],
                           filled := s.filled || s.fs.store.isFull sb }

variable (sb : Superblock) (f : Fin nfile)

/-- The next statement of call `j`, which is `w`. Where it has to wait for the
lock, nothing happens. -/
def nextStatement (j : Fin k) (lock : Option (Fin k)) (w : WriteCall) : W k Unit :=
  match w.pc with
  | .loop => setCall j (w.goto (if w.i < w.n then .begun else .returned w.result))
  | .begun => do
    if lock = none then
      let x ← onFs (getFile f)
      onFs (ilock x.ip)
      setLock (some j)
      setCall j (w.goto .locked)
    else pure ()
  | .locked => do
    let x ← onFs (getFile f)
    let r ← onFs (writeInode sb x.ip (w.src.drop w.i) x.off w.n1)
    note sb j x.off ((w.src.bytes.drop w.i).take r.toNat)
    setCall j (w.goto (.wrote r))
  | .wrote r => do
    onFs (if r > 0 then modifyFile f fun x => { x with off := x.off + r.toNat } else pure ())
    setCall j (w.goto (.advanced r))
  | .advanced r => do
    setLock none
    setCall j (w.goto (.unlocked r))
  | .unlocked r =>
    setCall j (if r ≠ w.n1 then w.goto (.returned w.result)
      else { w with i := w.i + w.n1, pc := .loop })
  | .returned _ => pure ()

def turn (j : Fin k) : W k Unit := do
  let s ← get
  nextStatement sb f j s.lock (s.calls j)

/-- The calls take turns as `js` says. -/
def turns : List (Fin k) → W k Unit
  | [] => return
  | j :: js => do
    turn sb f j
    turns js

/-- The calls as they start, on a file system `s`. -/
def Writers.start (s : Fs) (ws : Fin k → Src × Nat) : Writers k :=
  ⟨s, none, fun j => .start (ws j).1 (ws j).2, [], false⟩

/-! ## §2 One call alone -/

/-- One call and nobody else. -/
def alone (fs : Fs) (lock : Option (Fin 1)) (w : WriteCall) (cs : List (Chunk 1)) (b : Bool) :
    Writers 1 := ⟨fs, lock, fun _ => w, cs, b⟩

theorem update_alone (v w : WriteCall) : update (fun _ : Fin 1 => v) 0 w = fun _ => w := by
  funext j
  rw [Subsingleton.elim j 0, update_self]

section

variable {sb f} {fs fs' : Fs} {lock : Option (Fin 1)} {w : WriteCall} {cs : List (Chunk 1)}
  {b : Bool} {js : List (Fin 1)} {r : Int}

theorem setCall_alone (fs : Fs) (lock : Option (Fin 1)) (v : WriteCall) :
    (setCall 0 v).run (alone fs lock w cs b) = .ok ((), alone fs lock v cs b) := by
  show Except.ok ((), (⟨fs, lock, update (fun _ => w) 0 v, cs, b⟩ : Writers 1)) = _
  rw [update_alone]
  rfl

/-- The next statement of the only call. -/
theorem turns_alone {s : Writers 1}
    (h : (nextStatement sb f 0 lock w).run (alone fs lock w cs b) = .ok ((), s)) :
    (turns sb f (0 :: js)).run (alone fs lock w cs b) = (turns sb f js).run s :=
  run_bind_ok h

theorem alone_loop (hpc : w.pc = .loop) :
    (nextStatement sb f 0 lock w).run (alone fs lock w cs b) = .ok ((), alone fs lock
      (w.goto (if w.i < w.n then .begun else .returned w.result)) cs b) := by
  rw [nextStatement, hpc]
  exact setCall_alone _ _ _

theorem alone_begun (hpc : w.pc = .begun) (h : (ilock (fs.ftable f).ip).run fs = .ok ((), fs')) :
    (nextStatement sb f 0 none w).run (alone fs none w cs b) =
      .ok ((), alone fs' (some 0) (w.goto .locked) cs b) := by
  rw [nextStatement, hpc]
  refine (run_bind_ok (run_focus_ok (a := fs.ftable f) rfl)).trans
    ((run_bind_ok (run_focus_ok h)).trans ?_)
  exact setCall_alone fs' (some 0) _

theorem alone_locked (lock : Option (Fin 1)) (cs : List (Chunk 1)) (b : Bool) (hpc : w.pc = .locked)
    (h : (writeInode sb (fs.ftable f).ip (w.src.drop w.i) (fs.ftable f).off w.n1).run fs =
      .ok (r, fs')) :
    ∃ cs' b', (nextStatement sb f 0 lock w).run (alone fs lock w cs b) =
      .ok ((), alone fs' lock (w.goto (.wrote r)) cs' b') := by
  rw [nextStatement, hpc]
  refine ⟨_, _, (run_bind_ok (run_focus_ok (a := fs.ftable f) rfl)).trans
    ((run_bind_ok (run_focus_ok h)).trans ((run_bind_ok rfl).trans (setCall_alone fs' _ _)))⟩

theorem alone_wrote (hpc : w.pc = .wrote r)
    (h : (if r > 0 then modifyFile f fun x => { x with off := x.off + r.toNat } else pure ()).run
      fs = .ok ((), fs')) :
    (nextStatement sb f 0 lock w).run (alone fs lock w cs b) =
      .ok ((), alone fs' lock (w.goto (.advanced r)) cs b) := by
  rw [nextStatement, hpc]
  exact (run_bind_ok (run_focus_ok h)).trans (setCall_alone fs' _ _)

theorem alone_advanced (hpc : w.pc = .advanced r) :
    (nextStatement sb f 0 lock w).run (alone fs lock w cs b) =
      .ok ((), alone fs none (w.goto (.unlocked r)) cs b) := by
  rw [nextStatement, hpc]
  exact (run_bind_ok rfl).trans (setCall_alone _ none _)

theorem alone_unlocked (hpc : w.pc = .unlocked r) :
    (nextStatement sb f 0 lock w).run (alone fs lock w cs b) = .ok ((), alone fs lock
      (if r ≠ w.n1 then w.goto (.returned w.result)
        else { w with i := w.i + w.n1, pc := .loop }) cs b) := by
  rw [nextStatement, hpc]
  exact setCall_alone _ _ _

theorem ilock_ftable {e : Fin ninode} (h : (ilock e).run fs = .ok ((), fs')) :
    fs'.ftable = fs.ftable := by
  replace h := run_next rfl h
  dsimp only at h
  split at h
  case isTrue => cases h
  case isFalse =>
  split at h
  case isTrue =>
    cases h
    rfl
  case isFalse =>
    split at h
    · cases h
    · cases h
      rfl

/-- The turns of one call, when there is no other, are the loop of `filewrite`. -/
theorem filewriteLoop_turns (src : Src) (n fuel : Nat) : ∀ {i i' : Nat} {fs fs' : Fs}
    (cs : List (Chunk 1)) (b : Bool), n - i ≤ fuel →
    (filewriteLoop sb f src n fuel i).run fs = .ok (i', fs') →
    ∃ js cs' b', (turns sb f js).run (alone fs none ⟨src, n, i, .loop⟩ cs b) =
      .ok ((), alone fs' none ⟨src, n, i', .returned (if i' = n then n else -1)⟩ cs' b') := by
  -- at the end of the loop
  have hend : ∀ {i : Nat} {fs : Fs} (cs : List (Chunk 1)) (b : Bool), ¬ i < n →
      (turns sb f [0]).run (alone fs none ⟨src, n, i, .loop⟩ cs b) =
        .ok ((), alone fs none ⟨src, n, i, .returned (if i = n then n else -1)⟩ cs b) := by
    intro i fs cs b hge
    refine (turns_alone (alone_loop rfl)).trans ?_
    rw [if_neg hge]
    rfl
  induction fuel with
  | zero =>
    intro i i' fs fs' cs b hle hrun
    cases hrun
    exact ⟨[0], cs, b, hend cs b (by omega)⟩
  | succ fuel ih =>
    intro i i' fs fs' cs b hle hrun
    unfold filewriteLoop at hrun
    split at hrun
    case isFalse hge =>
      cases hrun
      exact ⟨[0], cs, b, hend cs b hge⟩
    case isTrue hlt =>
      obtain ⟨x, fs0, hfile, hrun⟩ := run_bind_elim hrun
      cases hfile
      obtain ⟨⟨⟩, fs1, hilock, hrun⟩ := run_bind_elim hrun
      obtain ⟨r, fs2, hwrite, hrun⟩ := run_bind_elim hrun
      rw [← ilock_ftable hilock] at hwrite
      -- the offset, and what comes after it
      obtain ⟨fs3, hoff, hrest⟩ : ∃ fs3,
          (if r > 0 then modifyFile f fun x => { x with off := x.off + r.toNat }
            else pure ()).run fs2 = .ok ((), fs3) ∧
          (if r ≠ ↑(min (n - i) maxWrite) then pure i
            else filewriteLoop sb f src n fuel (i + min (n - i) maxWrite)).run fs3 =
              .ok (i', fs') := by
        dsimp only at hrun
        split at hrun
        · obtain ⟨⟨⟩, fs3, hoff, hrest⟩ := run_bind_elim hrun
          exact ⟨fs3, by rwa [if_pos ‹_›], hrest⟩
        · exact ⟨fs2, by rw [if_neg ‹_›]; rfl, hrun⟩
      obtain ⟨cs1, b1, hlocked⟩ := alone_locked (w := ⟨src, n, i, .locked⟩) (some 0) cs b rfl hwrite
      have hround : ∀ js, (turns sb f (0 :: 0 :: 0 :: 0 :: 0 :: 0 :: js)).run
          (alone fs none ⟨src, n, i, .loop⟩ cs b) =
          (turns sb f js).run (alone fs3 none (if r ≠ ↑(min (n - i) maxWrite)
            then ⟨src, n, i, .returned (if i = n then n else -1)⟩
            else ⟨src, n, i + min (n - i) maxWrite, .loop⟩) cs1 b1) := by
        intro js
        refine (turns_alone (alone_loop rfl)).trans ?_
        rw [if_pos hlt]
        refine (turns_alone (alone_begun rfl hilock)).trans ?_
        refine (turns_alone hlocked).trans ((turns_alone (alone_wrote rfl hoff)).trans ?_)
        refine (turns_alone (alone_advanced rfl)).trans ?_
        exact turns_alone (alone_unlocked rfl)
      split at hrest
      case isTrue hr =>
        cases hrest
        refine ⟨[0, 0, 0, 0, 0, 0], cs1, b1, (hround []).trans ?_⟩
        rw [if_pos hr]
        rfl
      case isFalse hr =>
        have hpos : 0 < maxWrite := by decide
        obtain ⟨js, cs2, b2, hjs⟩ := ih cs1 b1 (by omega) hrest
        refine ⟨0 :: 0 :: 0 :: 0 :: 0 :: 0 :: js, cs2, b2, (hround js).trans ?_⟩
        rw [if_neg hr]
        exact hjs

end

/-! ## §3 The books that the calls keep together -/

/-- Does the call hold the lock? -/
def WritePc.holds : WritePc → Bool
  | .locked | .wrote _ | .advanced _ => true
  | _ => false

/-- Is the call in the body of its loop? -/
def WritePc.inside : WritePc → Bool
  | .loop | .returned _ => false
  | _ => true

/-- What `writei` has written and the call has not added to `i` yet. -/
def WritePc.uncounted : WritePc → Nat
  | .wrote r | .advanced r | .unlocked r => r.toNat
  | _ => 0

/-- What `writei` has written and is not in the offset yet. -/
def WritePc.ahead : WritePc → Nat
  | .wrote r => r.toNat
  | _ => 0

/-- The bytes of the call that are in the file. -/
def WriteCall.got (w : WriteCall) : Nat := w.i + w.pc.uncounted

def Writers.ahead (s : Writers k) : Nat := (s.lock.map fun j => (s.calls j).pc.ahead).getD 0

/-- All bytes that have been written, in the order of the chunks. -/
def written (cs : List (Chunk k)) : List Byte := cs.flatMap Chunk.bytes

/-- The bytes that call `j` has written. -/
def writtenBy (j : Fin k) (cs : List (Chunk k)) : List Byte := written (cs.filter (·.call = j))

/-- The inode of the open file. -/
def Fs.inodeOf (s : Fs) (f : Fin nfile) : Dinode :=
  s.store.dinodes (s.itable (s.ftable f).ip).inum

/-- `filewrite` is called `k` times on the open file `f`, which is on an inode
and writable; the buffers are there and all that is to be written fits a file. -/
structure Opened (sb : Superblock) (f : Fin nfile) (s : Fs) (ws : Fin k → Src × Nat) : Prop where
  inv : Inv sb False s
  kind : (s.ftable f).kind = .inode
  writable : (s.ftable f).writable = true
  type : (s.inodeOf f).type ≠ .free
  inside : (s.ftable f).off ≤ (s.inodeOf f).size
  good : ∀ j, (ws j).2 ≤ (ws j).1.good
  room : (s.ftable f).off + ∑ j, (ws j).2 ≤ maxfile * bsize

/-- What holds in all states of a run, also after the disk has been full. -/
structure Shares (sb : Superblock) (f : Fin nfile) (s₀ : Fs) (ws : Fin k → Src × Nat)
    (s : Writers k) : Prop where
  books : Accounted sb False (refs s₀.fds) s.fs
  file : s.fs.ftable f = { s₀.ftable f with off := (s.fs.ftable f).off }
  inum : (s.fs.itable (s₀.ftable f).ip).inum = (s₀.itable (s₀.ftable f).ip).inum
  type : (s.fs.inodeOf f).type ≠ .free
  calls : ∀ j, (s.calls j).src = (ws j).1 ∧ (s.calls j).n = (ws j).2
  le : ∀ j, (s.calls j).i ≤ (s.calls j).n
  lt : ∀ j, (s.calls j).pc.inside = true → (s.calls j).i < (s.calls j).n
  lock : ∀ j, (s.calls j).pc.holds = true ↔ s.lock = some j
  valid : s.lock ≠ none → (s.fs.itable (s₀.ftable f).ip).valid = true

/-- A call has written all that it was to write so far. -/
def WriteCall.exact (w : WriteCall) : Prop :=
  match w.pc with
  | .wrote r | .advanced r | .unlocked r => r = w.n1
  | .returned ret => w.i = w.n ∧ ret = w.n
  | _ => True

/-- Each chunk begins where the one before it ends, and the first at the offset
that the file had. The file has the bytes of the chunks there and its old bytes
elsewhere. -/
structure Laid (f : Fin nfile) (s₀ : Fs) (s : Writers k) : Prop where
  row : ∀ cs c cs', s.chunks = cs ++ c :: cs' →
    c.off = (s₀.ftable f).off + (written cs).length
  size : (s.fs.inodeOf f).size =
    max (s₀.inodeOf f).size ((s₀.ftable f).off + (written s.chunks).length)
  bytes : ∀ x, x < (s.fs.inodeOf f).size →
    (s.fs.inodeOf f).byteAt s.fs.store.data x =
      if (s₀.ftable f).off ≤ x ∧ x < (s₀.ftable f).off + (written s.chunks).length
      then (written s.chunks).getD (x - (s₀.ftable f).off) 0
      else (s₀.inodeOf f).byteAt s₀.store.data x

/-- What holds as long as the disk is not full. -/
structure Tally (f : Fin nfile) (s₀ : Fs) (ws : Fin k → Src × Nat) (s : Writers k) : Prop
    extends Laid f s₀ s where
  off : (s.fs.ftable f).off + s.ahead = (s₀.ftable f).off + (written s.chunks).length
  parts : ∀ j, writtenBy j s.chunks = (ws j).1.bytes.take (s.calls j).got
  exact : ∀ j, (s.calls j).exact
  total : (written s.chunks).length = ∑ j, (s.calls j).got

variable {sb f} {s₀ : Fs} {ws : Fin k → Src × Nat} {s : Writers k} {j : Fin k} {fs : Fs}
  {lock : Option (Fin k)} {w : WriteCall} {b : Bool} {cs : List (Chunk k)} {r : Int}

theorem Opened.shares (h : Opened sb f s₀ ws) : Shares sb f s₀ ws (.start s₀ ws) where
  books := h.inv
  file := rfl
  inum := rfl
  type := h.type
  calls := fun j => ⟨rfl, rfl⟩
  le := fun j => Nat.zero_le _
  lt := fun j hj => by cases hj
  lock := fun j => by constructor <;> rintro ⟨⟩
  valid := fun hl => absurd rfl hl

theorem Opened.tally (h : Opened sb f s₀ ws) : Tally f s₀ ws (.start s₀ ws) where
  row := fun cs c cs' heq => by cases cs <;> cases heq
  off := rfl
  size := (Nat.max_eq_left h.inside).symm
  bytes := fun x hx => by
    rw [if_neg]
    · rfl
    · simp only [Writers.start, written, List.flatMap_nil, List.length_nil]
      omega
  parts := fun j => rfl
  exact := fun j => trivial
  total := by
    symm
    exact Finset.sum_eq_zero fun j _ => rfl

/-- Call `j` is `w` now and the lock is `lock`, in a file system `fs`. -/
theorem Shares.next (h : Shares sb f s₀ ws s) (hfs : Accounted sb False (refs s₀.fds) fs)
    (hfile : fs.ftable f = { s₀.ftable f with off := (fs.ftable f).off })
    (hinum : (fs.itable (s₀.ftable f).ip).inum = (s₀.itable (s₀.ftable f).ip).inum)
    (htype : (fs.inodeOf f).type ≠ .free)
    (hvalid : lock ≠ none → (fs.itable (s₀.ftable f).ip).valid = true)
    (hw : w.src = (s.calls j).src ∧ w.n = (s.calls j).n) (hle : w.i ≤ w.n)
    (hlt : w.pc.inside = true → w.i < w.n) (hlock : w.pc.holds = true ↔ lock = some j)
    (hother : ∀ j', j' ≠ j → (s.lock = some j' ↔ lock = some j')) (cs : List (Chunk k)) (b : Bool) :
    Shares sb f s₀ ws ⟨fs, lock, update s.calls j w, cs, b⟩ := by
  have hself : update s.calls j w j = w := update_self ..
  have hne : ∀ j', j' ≠ j → update s.calls j w j' = s.calls j' := fun j' hj => update_of_ne hj ..
  refine ⟨hfs, hfile, hinum, htype, fun j' => ?_, fun j' => ?_, fun j' => ?_, fun j' => ?_, hvalid⟩
  all_goals
    dsimp only
    by_cases hj : j' = j
  · rw [hj, hself, hw.1, hw.2]
    exact h.calls j
  · rw [hne j' hj]
    exact h.calls j'
  · rw [hj, hself]
    exact hle
  · rw [hne j' hj]
    exact h.le j'
  · rw [hj, hself]
    exact hlt
  · rw [hne j' hj]
    exact h.lt j'
  · rw [hj, hself]
    exact hlock
  · rw [hne j' hj, ← hother j' hj]
    exact h.lock j'

/-- Only call `j` has changed. -/
theorem Shares.setCall (h : Shares sb f s₀ ws s)
    (hw : w.src = (s.calls j).src ∧ w.n = (s.calls j).n) (hle : w.i ≤ w.n)
    (hlt : w.pc.inside = true → w.i < w.n) (hlock : w.pc.holds = (s.calls j).pc.holds) :
    Shares sb f s₀ ws { s with calls := update s.calls j w } :=
  h.next h.books h.file h.inum h.type h.valid hw hle hlt (hlock ▸ h.lock j) (fun _ _ => Iff.rfl) _ _

/-- A sum over the calls changes with one of them. -/
theorem sum_call (m : WriteCall → Nat) (calls : Fin k → WriteCall) (j : Fin k) (w : WriteCall) :
    ∑ j', m (update calls j w j') + m (calls j) = ∑ j', m (calls j') + m w := by
  have hrest : ∑ j' ∈ Finset.univ.erase j, m (update calls j w j') =
      ∑ j' ∈ Finset.univ.erase j, m (calls j') :=
    Finset.sum_congr rfl fun j' hj' => by rw [update_of_ne (Finset.ne_of_mem_erase hj')]
  have hnew := Finset.add_sum_erase Finset.univ (fun j' => m (update calls j w j'))
    (Finset.mem_univ j)
  have hold := Finset.add_sum_erase Finset.univ (fun j' => m (calls j')) (Finset.mem_univ j)
  rw [update_self] at hnew
  omega

/-- No byte has been written: the file is what it was, and call `j` is `w`. -/
theorem Tally.next (h : Tally f s₀ ws s) (hstore : fs.store = s.fs.store)
    (hinode : fs.inodeOf f = s.fs.inodeOf f) (hoff : (fs.ftable f).off +
        (⟨fs, lock, update s.calls j w, s.chunks, b⟩ : Writers k).ahead =
      (s.fs.ftable f).off + s.ahead) (hgot : w.got = (s.calls j).got) (hexact : w.exact) :
    Tally f s₀ ws ⟨fs, lock, update s.calls j w, s.chunks, b⟩ := by
  have hcalls : ∀ j', (update s.calls j w j').got = (s.calls j').got := by
    intro j'
    by_cases hj : j' = j
    · rw [hj, update_self, hgot]
    · rw [update_of_ne hj]
  refine ⟨⟨h.row, ?_, fun x hx => ?_⟩, hoff.trans h.off, fun j' => ?_, fun j' => ?_, ?_⟩
  · rw [hinode]
    exact h.size
  · rw [hinode] at hx ⊢
    rw [hstore]
    exact h.bytes x hx
  · rw [hcalls j']
    exact h.parts j'
  · by_cases hj : j' = j
    · simpa [hj] using hexact
    · simpa [update_of_ne hj] using h.exact j'
  · rw [Finset.sum_congr rfl fun j' _ => hcalls j']
    exact h.total

theorem Writers.ahead_none (h : s.lock = none) : s.ahead = 0 := by
  rw [Writers.ahead, h]
  rfl

theorem Writers.ahead_some (h : s.lock = some j) : s.ahead = (s.calls j).pc.ahead := by
  rw [Writers.ahead, h]
  rfl

/-- The call that has the lock is `w`. -/
theorem ahead_update (h : lock = some j) :
    (⟨fs, lock, update s.calls j w, cs, b⟩ : Writers k).ahead = w.pc.ahead := by
  rw [Writers.ahead_some h]
  simp only [update_self]

/-- Only call `j` has changed, and what it has written is the same. -/
theorem Tally.setCall (h : Tally f s₀ ws s) (hlock : s.lock ≠ some j)
    (hgot : w.got = (s.calls j).got) (hexact : w.exact) :
    Tally f s₀ ws { s with calls := update s.calls j w } := by
  refine h.next rfl rfl ?_ hgot hexact
  congr 1
  cases hl : s.lock with
  | none => rw [Writers.ahead_none hl, Writers.ahead_none rfl]
  | some j' =>
    have hj : j' ≠ j := fun heq => hlock (hl.trans (congrArg some heq))
    rw [Writers.ahead_some hl, Writers.ahead_some (j := j') rfl]
    show (update s.calls j w j').pc.ahead = _
    rw [update_of_ne hj]

/-! ## §4 One turn -/

/-- How many turns a call still needs, at most. -/
def WriteCall.left (w : WriteCall) : Nat :=
  match w.pc with
  | .loop => 7 * (w.n - w.i) + 6
  | .begun => 7 * (w.n - w.i) + 5
  | .locked => 7 * (w.n - w.i) + 4
  | .wrote _ => 7 * (w.n - w.i) + 3
  | .advanced _ => 7 * (w.n - w.i) + 2
  | .unlocked _ => 7 * (w.n - w.i) + 1
  | .returned _ => 0

def Writers.left (s : Writers k) : Nat := ∑ j, (s.calls j).left

/-- Call `j` has returned, or it waits for the lock. -/
def Writers.Idle (s : Writers k) (j : Fin k) : Prop :=
  (∃ ret, (s.calls j).pc = .returned ret) ∨ (s.calls j).pc = .begun ∧ s.lock ≠ none

/-- After a turn of `j` in `s`. -/
structure Turned (sb : Superblock) (f : Fin nfile) (s₀ : Fs) (ws : Fin k → Src × Nat)
    (s : Writers k) (j : Fin k) (s' : Writers k) : Prop where
  shares : Shares sb f s₀ ws s'
  tally : s'.filled = false → Tally f s₀ ws s'
  left : s'.left < s.left ∨ s' = s ∧ s.Idle j

theorem left_lt (h : w.left < (s.calls j).left) :
    (⟨fs, lock, update s.calls j w, cs, b⟩ : Writers k).left < s.left := by
  have hsum := sum_call WriteCall.left s.calls j w
  simp only [Writers.left]
  omega

theorem n1_pos (h : w.i < w.n) : 0 < w.n1 := by
  have : 0 < maxWrite := by decide
  unfold WriteCall.n1
  omega

theorem n1_le (w : WriteCall) : w.n1 ≤ w.n - w.i := Nat.min_le_left ..

/-- A call whose statement is outside the lock does not have it. -/
theorem Shares.lock_ne (h : Shares sb f s₀ ws s) (hpc : (s.calls j).pc.holds = false) :
    s.lock ≠ some j := by
  intro hl
  rw [(h.lock j).mpr hl] at hpc
  cases hpc

theorem Shares.ip (h : Shares sb f s₀ ws s) : (s.fs.ftable f).ip = (s₀.ftable f).ip := by
  rw [h.file]

/-- A call that holds the lock is inside the loop. -/
theorem Shares.holder (h : Shares sb f s₀ ws s) {pc : WritePc} (hpc : (s.calls j).pc = pc)
    (hh : pc.holds = true) : s.lock = some j ∧ (s.calls j).i < (s.calls j).n := by
  refine ⟨(h.lock j).mp (hpc ▸ hh), h.lt j ?_⟩
  rw [hpc]
  cases pc <;> simp_all [WritePc.holds, WritePc.inside]

theorem Shares.referred (h : Shares sb f s₀ ws s) (ho : Opened sb f s₀ ws) :
    0 < refs s.fs.held (s.fs.ftable f).ip := by
  refine held_pos (held_file (f := f) ?_)
  rw [h.file]
  exact ho.kind ▸ nofun

theorem written_concat (cs : List (Chunk k)) (c : Chunk k) :
    written (cs ++ [c]) = written cs ++ c.bytes := by
  simp [written]

theorem writtenBy_concat (j : Fin k) (cs : List (Chunk k)) (c : Chunk k) :
    writtenBy j (cs ++ [c]) = writtenBy j cs ++ if c.call = j then c.bytes else [] := by
  by_cases hj : c.call = j <;> simp [writtenBy, written, hj]

theorem isFull_iff (sb : Superblock) (st : Store) : st.isFull sb = true ↔ Full sb st := by
  simp [Store.isFull, Full]

/-- The buffer has the bytes of the next chunk. -/
theorem Shares.enough (h : Shares sb f s₀ ws s) (ho : Opened sb f s₀ ws) (j : Fin k) :
    (s.calls j).n1 ≤ ((s.calls j).src.drop (s.calls j).i).good := by
  have hn1 := n1_le (s.calls j)
  have hg := ho.good j
  obtain ⟨hsrc, hn⟩ := h.calls j
  rw [← hsrc, ← hn] at hg
  show _ ≤ (s.calls j).src.good - (s.calls j).i
  omega

/-- The offset while a chunk is about to be written. -/
theorem Tally.off_eq (h : Tally f s₀ ws s) (hs : Shares sb f s₀ ws s)
    (hpc : (s.calls j).pc = .locked) :
    (s.fs.ftable f).off = (s₀.ftable f).off + (written s.chunks).length := by
  have hlock := (hs.holder hpc rfl).1
  have hoff := h.off
  rwa [Writers.ahead_some hlock, hpc] at hoff

/-- What the calls have written, with the chunk that call `j` writes. -/
theorem sum_wrote (hpc : (s.calls j).pc = .locked) :
    ∑ j', (update s.calls j ((s.calls j).goto (.wrote (s.calls j).n1)) j').got =
      ∑ j', (s.calls j').got + (s.calls j).n1 := by
  have hgot : (s.calls j).got = (s.calls j).i := by rw [WriteCall.got, hpc]; rfl
  have hnew : ((s.calls j).goto (.wrote (s.calls j).n1)).got = (s.calls j).i + (s.calls j).n1 := rfl
  have hsum := sum_call WriteCall.got s.calls j ((s.calls j).goto (.wrote (s.calls j).n1))
  omega

/-- The chunk that goes where the last one ended. -/
theorem Tally.write (h : Tally f s₀ ws s) (ho : Opened sb f s₀ ws) (hs : Shares sb f s₀ ws s)
    (hpc : (s.calls j).pc = .locked) {ip : Dinode} {st : Store}
    (hw : Wrote sb (s.fs.itable (s.fs.ftable f).ip).inum s.fs.store.dinodes s.fs.store
      ((s.calls j).src.drop (s.calls j).i) (s.fs.ftable f).off (s.calls j).n1 (s.calls j).n1 ip
      st) :
    Tally f s₀ ws ⟨s.fs.change (s.fs.ftable f).ip st, s.lock,
      update s.calls j ((s.calls j).goto (.wrote (s.calls j).n1)),
      s.chunks ++ [⟨j, (s.fs.ftable f).off,
        ((s.calls j).src.bytes.drop (s.calls j).i).take (s.calls j).n1⟩], b⟩ := by
  have hlock := (hs.holder hpc rfl).1
  have hoff := h.off_eq hs hpc
  have hgood := hs.enough ho j
  have hlen : (((s.calls j).src.bytes.drop (s.calls j).i).take (s.calls j).n1).length =
      (s.calls j).n1 := by
    have := ((s.calls j).src.drop (s.calls j).i).fits
    exact List.length_take_of_le (hgood.trans this)
  have hinode : (s.fs.change (s.fs.ftable f).ip st).inodeOf f = ip := by
    show st.dinodes ((s.fs.change (s.fs.ftable f).ip st).itable (s.fs.ftable f).ip).inum = ip
    rw [inum_change, hw.dinodes, update_self]
  have hsize : ip.size = max (s.fs.inodeOf f).size ((s.fs.ftable f).off + (s.calls j).n1) := by
    obtain ⟨addrs, hip⟩ := hw.same
    rw [hip]
    rfl
  have hold := h.size
  have hbytes := hw.bytes hgood
  refine ⟨⟨fun cs c cs' heq => ?_, ?_, fun x hx => ?_⟩, ?_, fun j' => ?_, fun j' => ?_, ?_⟩
  · -- either it is the last chunk or it was there before
    rcases List.eq_nil_or_concat cs' with rfl | ⟨cs'', d, rfl⟩
    · obtain ⟨rfl, hc⟩ := List.append_inj' heq rfl
      rw [← (List.cons.inj hc).1]
      exact hoff
    · rw [List.concat_eq_append, ← List.cons_append, ← List.append_assoc] at heq
      exact h.row cs c cs'' (List.append_inj' heq rfl).1
  · rw [hinode, hsize, hold, written_concat, List.length_append, hlen]
    omega
  · rw [hinode] at hx ⊢
    rw [written_concat, List.length_append, hlen]
    refine (hbytes x hx).trans ?_
    by_cases hin : (s.fs.ftable f).off ≤ x ∧ x < (s.fs.ftable f).off + (s.calls j).n1
    · rw [if_pos hin, if_pos (by omega), List.getD_append_right _ _ _ _ (by omega)]
      have hsub : x - (s₀.ftable f).off - (written s.chunks).length =
          x - (s.fs.ftable f).off := by omega
      rw [hsub, List.getD_eq_getElem?_getD, List.getD_eq_getElem?_getD,
        List.getElem?_take_of_lt (by omega)]
      rfl
    · rw [if_neg hin]
      have hx' : x < (s.fs.inodeOf f).size := by omega
      refine (h.bytes x hx').trans ?_
      by_cases hbef : (s₀.ftable f).off ≤ x ∧ x < (s₀.ftable f).off + (written s.chunks).length
      · rw [if_pos hbef, if_pos (by omega), List.getD_append _ _ _ _ (by omega)]
      · rw [if_neg hbef, if_neg (by omega)]
  · rw [ahead_update hlock, written_concat, List.length_append, hlen]
    show (s.fs.ftable f).off + (s.calls j).n1 = _
    omega
  · rw [writtenBy_concat, h.parts j']
    dsimp only
    by_cases hj : j' = j
    · subst hj
      rw [if_pos rfl, update_self, WriteCall.got, hpc, (hs.calls j').1]
      exact List.take_add.symm
    · rw [if_neg (fun heq => hj heq.symm), List.append_nil, update_of_ne hj]
  · dsimp only
    by_cases hj : j' = j
    · subst hj
      rw [update_self]
      rfl
    · rw [update_of_ne hj]
      exact h.exact j'
  · rw [written_concat, List.length_append, hlen, h.total]
    exact (sum_wrote hpc).symm

theorem WriteCall.got_le (h : w.exact) (hle : w.i ≤ w.n) : w.got ≤ w.n := by
  have hn1 := n1_le w
  unfold WriteCall.exact at h
  unfold WriteCall.got
  cases hpc : w.pc <;> rw [hpc] at h <;> simp only [WritePc.uncounted] <;> omega

/-- As long as the disk is not full, `writei` does not refuse. -/
theorem Tally.accepts (h : Tally f s₀ ws s) (ho : Opened sb f s₀ ws) (hs : Shares sb f s₀ ws s)
    (hpc : (s.calls j).pc = .locked) :
    ¬ (s.fs.inodeOf f).refuses (s.fs.ftable f).off (s.calls j).n1 := by
  have hoff := h.off_eq hs hpc
  have hsize := h.size
  -- what the calls have written and this chunk are part of what they are to write
  have hroom : (written s.chunks).length + (s.calls j).n1 ≤ ∑ j', (ws j').2 := by
    rw [h.total, ← sum_wrote hpc]
    refine Finset.sum_le_sum fun j' _ => ?_
    rw [← (hs.calls j').2]
    by_cases hj : j' = j
    · subst hj
      rw [update_self]
      exact WriteCall.got_le rfl (hs.le j')
    · rw [update_of_ne hj]
      exact WriteCall.got_le (h.exact j') (hs.le j')
  have hmax := ho.room
  have hbig : maxfile * bsize < 2 ^ 32 := by decide
  unfold Dinode.refuses
  omega

section

variable (h : Shares sb f s₀ ws s) (ht : s.filled = false → Tally f s₀ ws s)
include h ht

theorem turn_loop (hpc : (s.calls j).pc = .loop) :
    Total (turn sb f j) s fun _ s' => Turned sb f s₀ ws s j s' := by
  refine meets_read ?_
  rw [nextStatement, hpc]
  have hfree : s.lock ≠ some j := h.lock_ne (by rw [hpc]; rfl)
  have hle := h.le j
  refine meets_modify ?_
  by_cases hlt : (s.calls j).i < (s.calls j).n
  · rw [if_pos hlt]
    refine ⟨h.setCall ⟨rfl, rfl⟩ hle (fun _ => hlt) (by rw [hpc]; rfl),
      fun hfull => (ht hfull).setCall hfree ?_ trivial, .inl (left_lt ?_)⟩
    · rw [WriteCall.got, WriteCall.got, hpc]
      rfl
    · rw [WriteCall.left, WriteCall.left, hpc]
      exact Nat.lt_succ_self _
  · rw [if_neg hlt]
    have heq : (s.calls j).i = (s.calls j).n := by omega
    refine ⟨h.setCall ⟨rfl, rfl⟩ hle (fun hin => by cases hin) (by rw [hpc]; rfl),
      fun hfull => (ht hfull).setCall hfree ?_ ⟨heq, if_pos heq⟩, .inl (left_lt ?_)⟩
    · rw [WriteCall.got, WriteCall.got, hpc]
      rfl
    · rw [WriteCall.left, WriteCall.left, hpc]
      exact Nat.succ_pos _

theorem turn_unlocked (hpc : (s.calls j).pc = .unlocked r) :
    Total (turn sb f j) s fun _ s' => Turned sb f s₀ ws s j s' := by
  refine meets_read ?_
  rw [nextStatement, hpc]
  have hfree : s.lock ≠ some j := h.lock_ne (by rw [hpc]; rfl)
  have hlt : (s.calls j).i < (s.calls j).n := h.lt j (by rw [hpc]; rfl)
  have hn1 := n1_pos hlt
  have hn1le := n1_le (s.calls j)
  refine meets_modify ?_
  by_cases hr : r = (s.calls j).n1
  · rw [if_neg (not_not.mpr hr)]
    refine ⟨h.setCall ⟨rfl, rfl⟩ ?_ (fun hin => by cases hin) (by rw [hpc]; rfl), fun hfull => ?_,
      .inl (left_lt ?_)⟩
    · dsimp only
      omega
    · refine (ht hfull).setCall hfree ?_ trivial
      unfold WriteCall.got
      rw [hpc, hr]
      rfl
    · unfold WriteCall.left
      rw [hpc]
      dsimp only
      omega
  · rw [if_pos hr]
    refine ⟨h.setCall ⟨rfl, rfl⟩ hlt.le (fun hin => by cases hin) (by rw [hpc]; rfl),
      fun hfull => ?_, .inl (left_lt ?_)⟩
    · have hexact := (ht hfull).exact j
      rw [WriteCall.exact, hpc] at hexact
      exact absurd hexact hr
    · unfold WriteCall.left
      rw [hpc]
      exact Nat.succ_pos _

theorem turn_returned {ret : Int} (hpc : (s.calls j).pc = .returned ret) :
    Total (turn sb f j) s fun _ s' => Turned sb f s₀ ws s j s' := by
  refine meets_read ?_
  rw [nextStatement, hpc]
  exact meets_pure ⟨h, ht, .inr ⟨rfl, .inl ⟨ret, hpc⟩⟩⟩

/-- `ilock` for the open file changes the copy of the inode in the table only. -/
theorem turn_begun (ho : Opened sb f s₀ ws) (hpc : (s.calls j).pc = .begun) :
    Total (turn sb f j) s fun _ s' => Turned sb f s₀ ws s j s' := by
  refine meets_read ?_
  rw [nextStatement, hpc]
  have hlt : (s.calls j).i < (s.calls j).n := h.lt j (by rw [hpc]; rfl)
  refine meets_ite (fun hl => ?_) fun hl => meets_pure ⟨h, ht, .inr ⟨rfl, .inr ⟨hpc, hl⟩⟩⟩
  refine Meets.bind (meets_focus (meets_getFile ?_))
  have hpos := h.referred ho
  refine meets_focus_seq (ilock_meets h.books.table hpos fun hfree => h.type hfree)
    fun _ fs ⟨htable, hkeeps, hstore, hvalid⟩ => ?_
  have hbooks := h.books.frame htable (.of_store hkeeps fun _ => hstore)
  have hinum : (fs.itable (s.fs.ftable f).ip).inum = (s.fs.itable (s.fs.ftable f).ip).inum :=
    hkeeps.inum _ hpos
  have hinode : fs.inodeOf f = s.fs.inodeOf f := by
    rw [Fs.inodeOf, Fs.inodeOf, hkeeps.ftable, hinum, hstore]
  refine meets_update (meets_modify ⟨?_, fun hfull => ?_, .inl (left_lt ?_)⟩)
  · refine h.next (w := (s.calls j).goto .locked) hbooks ?_ ?_ (hinode ▸ h.type) ?_
      ⟨rfl, rfl⟩ (h.le j) (fun _ => hlt) ⟨fun _ => rfl, fun _ => rfl⟩ (fun j' hj => ?_) _ _
    · rw [hkeeps.ftable]
      exact h.file
    · rw [← h.ip, hinum, h.ip]
      exact h.inum
    · intro _
      rw [← h.ip]
      exact hvalid
    · rw [hl]
      constructor
      · rintro ⟨⟩
      · intro heq
        exact absurd (Option.some.inj heq).symm hj
  · refine (ht hfull).next (j := j) hstore hinode ?_ ?_ trivial
    · rw [hkeeps.ftable, Writers.ahead_none hl, ahead_update rfl]
      rfl
    · rw [WriteCall.got, WriteCall.got, hpc]
      rfl
  · rw [WriteCall.left, WriteCall.left, hpc]
    exact Nat.lt_succ_self _

theorem turn_wrote (hpc : (s.calls j).pc = .wrote r) :
    Total (turn sb f j) s fun _ s' => Turned sb f s₀ ws s j s' := by
  refine meets_read ?_
  rw [nextStatement, hpc]
  obtain ⟨hlock, hlt⟩ := h.holder hpc rfl
  -- where nothing was written the offset stays, which is the same as adding 0
  have hoff : Total (if r > 0 then modifyFile f fun x => { x with off := x.off + r.toNat }
      else pure ()) s.fs fun _ fs =>
      fs = s.fs.setFile f { s.fs.ftable f with off := (s.fs.ftable f).off + r.toNat } := by
    refine meets_ite (fun _ => meets_modifyFile rfl) fun hr => meets_pure ?_
    have h0 : r.toNat = 0 := by omega
    rw [h0]
    show s.fs = { s.fs with ftable := update s.fs.ftable f (s.fs.ftable f) }
    rw [update_eq_self]
  refine meets_focus_seq hoff fun _ fs hfs => ?_
  have hself : fs.ftable f = { s.fs.ftable f with off := (s.fs.ftable f).off + r.toNat } := by
    rw [hfs, ftable_setFile_self]
  have hinode : fs.inodeOf f = s.fs.inodeOf f := by
    rw [Fs.inodeOf, hself, hfs]
    rfl
  refine meets_modify ⟨?_, fun hfull => ?_, .inl (left_lt ?_)⟩
  · refine h.next (w := (s.calls j).goto (.advanced r)) (hfs ▸ h.books.setOff _) ?_ ?_
      (hinode ▸ h.type) ?_ ⟨rfl, rfl⟩ hlt.le (fun _ => hlt) ⟨fun _ => hlock, fun _ => rfl⟩
      (fun j' _ => Iff.rfl) _ _
    · rw [hself, h.file]
    · rw [hfs]
      exact h.inum
    · intro hl
      rw [hfs]
      exact h.valid hl
  · have hexact := (ht hfull).exact j
    rw [WriteCall.exact, hpc] at hexact
    refine (ht hfull).next (j := j) (by rw [hfs]; rfl) hinode ?_ ?_ hexact
    · rw [Writers.ahead_some (s := s) hlock, ahead_update hlock, hpc, hself]
      rfl
    · rw [WriteCall.got, WriteCall.got, hpc]
      rfl
  · rw [WriteCall.left, WriteCall.left, hpc]
    exact Nat.lt_succ_self _

theorem turn_advanced (hpc : (s.calls j).pc = .advanced r) :
    Total (turn sb f j) s fun _ s' => Turned sb f s₀ ws s j s' := by
  refine meets_read ?_
  rw [nextStatement, hpc]
  obtain ⟨hlock, hlt⟩ := h.holder hpc rfl
  refine meets_update (meets_modify ⟨?_, fun hfull => ?_, .inl (left_lt ?_)⟩)
  · refine h.next (w := (s.calls j).goto (.unlocked r)) h.books h.file h.inum h.type
      (fun hl => absurd rfl hl) ⟨rfl, rfl⟩ hlt.le (fun _ => hlt) ?_ (fun j' hj => ?_) _ _
    · constructor <;> rintro ⟨⟩
    · rw [hlock]
      constructor
      · intro heq
        exact absurd (Option.some.inj heq).symm hj
      · rintro ⟨⟩
  · have hexact := (ht hfull).exact j
    rw [WriteCall.exact, hpc] at hexact
    refine (ht hfull).next (j := j) rfl rfl ?_ ?_ hexact
    · rw [Writers.ahead_some hlock, Writers.ahead_none rfl, hpc]
      rfl
    · rw [WriteCall.got, WriteCall.got, hpc]
      rfl
  · rw [WriteCall.left, WriteCall.left, hpc]
    exact Nat.lt_succ_self _

theorem turn_locked (ho : Opened sb f s₀ ws) (hpc : (s.calls j).pc = .locked) :
    Total (turn sb f j) s fun _ s' => Turned sb f s₀ ws s j s' := by
  refine meets_read ?_
  rw [nextStatement, hpc]
  obtain ⟨hlock, hlt⟩ := h.holder hpc rfl
  have hpos := h.referred ho
  have hvalid : (s.fs.itable (s.fs.ftable f).ip).valid = true := by
    rw [h.ip]
    exact h.valid (by rw [hlock]; nofun)
  refine Meets.bind (meets_focus (meets_getFile ?_))
  refine meets_focus_seq (writeInode_meets h.books.table hpos hvalid _ _ _) fun r fs hr => ?_
  refine meets_update (meets_modify ?_)
  have hleft : ((s.calls j).goto (.wrote r)).left < (s.calls j).left := by
    rw [WriteCall.left, WriteCall.left, hpc]
    exact Nat.lt_succ_self _
  rcases hr with ⟨href, rfl, rfl⟩ | ⟨t, ip, st, rfl, rfl, _, hwrote, htable⟩
  · refine ⟨?_, fun hfull => ?_, .inl (left_lt hleft)⟩
    · exact h.next (w := (s.calls j).goto (.wrote (-1))) h.books h.file h.inum h.type h.valid
        ⟨rfl, rfl⟩ hlt.le (fun _ => hlt) ⟨fun _ => hlock, fun _ => rfl⟩ (fun _ _ => Iff.rfl) _ _
    · simp only [Bool.or_eq_false_iff] at hfull
      exact absurd href ((ht hfull.1).accepts ho h hpc)
  · have hkeeps := Keeps.change (refs s.fs.held) s.fs (s.fs.ftable f).ip hwrote.types
    have hbooks := h.books.frame htable (.of_view hkeeps False.elim)
    refine ⟨?_, fun hfull => ?_, .inl (left_lt hleft)⟩
    · refine h.next (w := (s.calls j).goto (.wrote t)) hbooks h.file ?_ ?_ ?_ ⟨rfl, rfl⟩ hlt.le
        (fun _ => hlt) ⟨fun _ => hlock, fun _ => rfl⟩ (fun _ _ => Iff.rfl) _ _
      · rw [inum_change]
        exact h.inum
      · show (st.dinodes ((s.fs.change (s.fs.ftable f).ip st).itable (s.fs.ftable f).ip).inum).type
          ≠ .free
        obtain ⟨addrs, hip⟩ := hwrote.same
        rw [inum_change, hwrote.dinodes, update_self, hip]
        exact h.type
      · intro hl
        rw [valid_change]
        exact h.valid hl
    · simp only [Bool.or_eq_false_iff] at hfull
      have htally := ht hfull.1
      have hall : t = (s.calls j).n1 := by
        refine (hwrote.all (h.enough ho j)).resolve_right fun hf => ?_
        have := (isFull_iff sb st).mpr hf
        rw [show st.isFull sb = false from hfull.2] at this
        cases this
      subst hall
      exact htally.write ho h hpc hwrote

theorem turn_spec (ho : Opened sb f s₀ ws) (j : Fin k) :
    Total (turn sb f j) s fun _ s' => Turned sb f s₀ ws s j s' := by
  cases hpc : (s.calls j).pc with
  | loop => exact turn_loop h ht hpc
  | begun => exact turn_begun h ht ho hpc
  | locked => exact turn_locked h ht ho hpc
  | wrote r => exact turn_wrote h ht hpc
  | advanced r => exact turn_advanced h ht hpc
  | unlocked r => exact turn_unlocked h ht hpc
  | returned ret => exact turn_returned h ht hpc

end

/-! ## §5 Any order of turns -/

/-- After any turns from `s` on. -/
structure Went (sb : Superblock) (f : Fin nfile) (s₀ : Fs) (ws : Fin k → Src × Nat)
    (s s' : Writers k) : Prop where
  shares : Shares sb f s₀ ws s'
  tally : s'.filled = false → Tally f s₀ ws s'
  left : s'.left ≤ s.left

theorem turns_spec (ho : Opened sb f s₀ ws) (js : List (Fin k)) : ∀ {s : Writers k},
    Shares sb f s₀ ws s → (s.filled = false → Tally f s₀ ws s) →
    Total (turns sb f js) s fun _ s' => Went sb f s₀ ws s s' := by
  induction js with
  | nil => exact fun h ht => meets_pure ⟨h, ht, Nat.le_refl _⟩
  | cons j js ih =>
    intro s h ht
    refine (turn_spec h ht ho j).seq fun _ s1 h1 => ?_
    refine (ih h1.shares h1.tally).imp fun _ s2 h2 => ⟨h2.shares, h2.tally, ?_⟩
    rcases h1.left with hlt | ⟨rfl, _⟩
    · exact h2.left.trans hlt.le
    · exact h2.left

/-- If somebody can go on, and all have a turn, then somebody does. -/
theorem turns_progress (ho : Opened sb f s₀ ws) (js : List (Fin k)) : ∀ {s : Writers k},
    Shares sb f s₀ ws s → (s.filled = false → Tally f s₀ ws s) → j ∈ js → ¬ s.Idle j →
    Total (turns sb f js) s fun _ s' => s'.left < s.left := by
  induction js with
  | nil => exact fun _ _ hj => by cases hj
  | cons a js ih =>
    intro s h ht hj hready
    refine (turn_spec h ht ho a).seq fun _ s1 h1 => ?_
    rcases h1.left with hlt | ⟨rfl, hidle⟩
    · exact (turns_spec ho js h1.shares h1.tally).imp fun _ s2 h2 => h2.left.trans_lt hlt
    · rcases List.mem_cons.mp hj with rfl | hj
      · exact absurd hidle hready
      · exact ih h ht hj hready

theorem left_eq_zero (h : s.left = 0) (j : Fin k) : ∃ ret, (s.calls j).pc = .returned ret := by
  have h0 := Finset.sum_eq_zero_iff.mp h j (Finset.mem_univ j)
  unfold WriteCall.left at h0
  split at h0 <;> first | omega | exact ⟨_, ‹_›⟩

/-- While not all have returned, one of them can go on: the one with the lock, or
any if nobody has it. -/
theorem Shares.exists_ready (h : Shares sb f s₀ ws s) (hleft : s.left ≠ 0) : ∃ j, ¬ s.Idle j := by
  cases hl : s.lock with
  | some j =>
    refine ⟨j, fun hidle => ?_⟩
    have hholds := (h.lock j).mpr hl
    rcases hidle with ⟨ret, hpc⟩ | ⟨hpc, _⟩ <;> rw [hpc] at hholds <;> cases hholds
  | none =>
    obtain ⟨j, _, hj⟩ := Finset.exists_ne_zero_of_sum_ne_zero hleft
    refine ⟨j, fun hidle => ?_⟩
    rcases hidle with ⟨ret, hpc⟩ | ⟨_, hlock⟩
    · rw [WriteCall.left, hpc] at hj
      exact hj rfl
    · exact hlock hl

theorem turns_append (js js' : List (Fin k)) :
    turns sb f (js ++ js') = turns sb f js >>= fun _ => turns sb f js' := by
  induction js with
  | nil => rfl
  | cons j js ih =>
    show (turn sb f j >>= fun _ => turns sb f (js ++ js')) =
      (turn sb f j >>= fun _ => turns sb f js) >>= fun _ => turns sb f js'
    rw [ih, bind_assoc]

/-- In each round every call has a turn. -/
theorem rounds_spec (ho : Opened sb f s₀ ws) (rounds : List (List (Fin k))) : ∀ {s : Writers k},
    Shares sb f s₀ ws s → (s.filled = false → Tally f s₀ ws s) →
    (∀ r ∈ rounds, ∀ j, j ∈ r) →
    Total (turns sb f rounds.flatten) s fun _ s' => s'.left ≤ s.left - rounds.length := by
  induction rounds with
  | nil => exact fun _ _ _ => meets_pure (Nat.le_refl _)
  | cons r rounds ih =>
    intro s h ht hall
    rw [List.flatten_cons, turns_append]
    have hround : Total (turns sb f r) s fun _ s1 =>
        Went sb f s₀ ws s s1 ∧ s1.left ≤ s.left - 1 := by
      by_cases hleft : s.left = 0
      · exact (turns_spec ho r h ht).imp fun _ s1 h1 => ⟨h1, by have := h1.left; omega⟩
      · obtain ⟨j, hj⟩ := h.exists_ready hleft
        refine ((turns_spec ho r h ht).and
          (turns_progress ho r h ht (hall r (List.mem_cons_self ..) j) hj)).imp fun _ s1 h1 => ?_
        exact ⟨h1.1, by have := h1.2; omega⟩
    refine hround.seq fun _ s1 ⟨h1, hle⟩ => ?_
    refine (ih h1.shares h1.tally fun r' hr' => hall r' (List.mem_cons_of_mem r hr')).imp
      fun _ s2 h2 => ?_
    rw [List.length_cons]
    omega

/-- The chunks lie in a row. Of each call the bytes that it has written are in the file in their
order, and a call that has returned has written all of them. -/
structure NothingLost (f : Fin nfile) (s₀ : Fs) (ws : Fin k → Src × Nat) (s : Writers k) : Prop
    extends Laid f s₀ s where
  order : ∀ j, writtenBy j s.chunks = (ws j).1.bytes.take (s.calls j).got
  returns : ∀ j ret, (s.calls j).pc = .returned ret →
    ret = (ws j).2 ∧ writtenBy j s.chunks = (ws j).1.bytes.take (ws j).2

theorem Tally.nothingLost (h : Tally f s₀ ws s) (hs : Shares sb f s₀ ws s) :
    NothingLost f s₀ ws s := by
  refine ⟨h.toLaid, h.parts, fun j ret hpc => ?_⟩
  have hexact := h.exact j
  rw [WriteCall.exact, hpc, (hs.calls j).2] at hexact
  refine ⟨hexact.2, ?_⟩
  rw [h.parts j, WriteCall.got, hpc, hexact.1]
  rfl

/-- When all calls have returned, the offset has advanced by all that they were
to write. -/
theorem Tally.advanced (h : Tally f s₀ ws s) (hs : Shares sb f s₀ ws s) (hleft : s.left = 0) :
    (∀ j, (s.calls j).pc = .returned (ws j).2) ∧
      (s.fs.ftable f).off = (s₀.ftable f).off + ∑ j, (ws j).2 := by
  have hret : ∀ j, (s.calls j).pc = .returned (ws j).2 ∧ (s.calls j).got = (ws j).2 := by
    intro j
    obtain ⟨ret, hpc⟩ := left_eq_zero hleft j
    have hexact := h.exact j
    rw [WriteCall.exact, hpc, (hs.calls j).2] at hexact
    refine ⟨by rw [hpc, hexact.2], ?_⟩
    rw [WriteCall.got, hpc, hexact.1]
    rfl
  refine ⟨fun j => (hret j).1, ?_⟩
  have hlock : s.lock = none := by
    cases hl : s.lock with
    | none => rfl
    | some j =>
      have hholds := (hs.lock j).mpr hl
      rw [(hret j).1] at hholds
      cases hholds
  have hoff := h.off
  rw [Writers.ahead_none hlock, h.total, Finset.sum_congr rfl fun j _ => (hret j).2] at hoff
  exact hoff

/-- Processes that share an open file lose no writes, in whatever order their
calls go on. If each of them has its turn again and again, all calls return what
they were asked to write. -/
theorem shared_writes_lose_nothing (ho : Opened sb f s₀ ws) (js : List (Fin k)) :
    Total (turns sb f js) (.start s₀ ws) fun _ s =>
      s.filled = false →
        NothingLost f s₀ ws s ∧
        ∀ rounds : List (List (Fin k)), js = rounds.flatten → (∀ r ∈ rounds, ∀ j, j ∈ r) →
          ∑ j, (7 * (ws j).2 + 6) ≤ rounds.length →
          (∀ j, (s.calls j).pc = .returned (ws j).2) ∧
            (s.fs.ftable f).off = (s₀.ftable f).off + ∑ j, (ws j).2 := by
  obtain ⟨⟨⟩, s, hrun, h⟩ := (turns_spec ho js ho.shares fun _ => ho.tally).elim
  refine .ok hrun fun hfull => ⟨(h.tally hfull).nothingLost h.shares, ?_⟩
  intro rounds hjs hall hlen
  subst hjs
  have hleft := (rounds_spec ho rounds ho.shares (fun _ => ho.tally) hall).post hrun
  have hstart : (Writers.start s₀ ws).left = ∑ j, (7 * (ws j).2 + 6) := rfl
  exact (h.tally hfull).advanced h.shares (by omega)

/-- Create "f" and open it. -/
def openF : List (Fin nproc × Call) := [(initproc, .open (path [nameF]) 0x202)]

theorem nfile_pos : 0 < nfile := by decide

def firstFile : Fin nfile := ⟨0, nfile_pos⟩

/-- Two calls, for 4 and for 3 bytes. -/
def twoCalls (j : Fin 2) : Src × Nat :=
  if j.val = 0 then (.kernel [1, 2, 3, 4], 4) else (.kernel [5, 6, 7], 3)

/-- They take turns, until both have returned. -/
def theirTurns : List (Fin 2) := (List.replicate 14 (List.finRange 2)).flatten

/-- Two processes write in turns to a file that they have just created. -/
theorem two_writers_lose_nothing :
    ∃ s₀ s, (run .mkfs openF).run (boot mkfsVolume.store) = .ok ((), s₀) ∧
      (turns .mkfs firstFile theirTurns).run (.start s₀ twoCalls) =
        .ok ((), s) ∧
      s.filled = false ∧ NothingLost firstFile s₀ twoCalls s := by
  obtain ⟨⟨⟩, s₀, hopen, htest⟩ := run_of_endsIn (show endsIn (run .mkfs openF)
    (boot mkfsVolume.store) (fun _ s₀ => decide ((s₀.ftable firstFile).kind = .inode ∧
      (s₀.ftable firstFile).writable = true ∧ (s₀.inodeOf firstFile).type ≠ .free ∧
        (s₀.ftable firstFile).off = 0) &&
      endsIn (turns .mkfs firstFile theirTurns) (.start s₀ twoCalls)
        fun _ s => !s.filled) = true by decide +kernel)
  simp only [Bool.and_eq_true, decide_eq_true_eq] at htest
  obtain ⟨⟨hkind, hwrite, htype, hoff⟩, hturns⟩ := htest
  obtain ⟨⟨⟩, s, hrun, hfull⟩ := run_of_endsIn hturns
  have hinv : Inv .mkfs False s₀ := (run_counts mkfsVolume.toImage openF).post hopen
  have ho : Opened .mkfs firstFile s₀ twoCalls := by
    refine ⟨hinv, hkind, hwrite, htype, ?_, by decide, ?_⟩
    · rw [hoff]
      exact Nat.zero_le _
    · rw [hoff]
      decide
  rw [Bool.not_eq_true'] at hfull
  have hpost := (shared_writes_lose_nothing ho theirTurns).post hrun
  exact ⟨s₀, s, hopen, hrun, hfull, (hpost hfull).1⟩

end Xv6.Files
