/-
Xv6.Files.Reading — reading a file takes no block and logs nothing.

`readi` gets the addresses of blocks from `bmap`, which allocates what is not
there. A system call may read outside of a transaction, where `log_write`
panics. Here the functions that `readi` calls are run with the log: every
`log_write` is a call of `Fs.logWrite`, and calls of `balloc` are counted.
Without the log they are the functions of `Xv6.Files.Inode` (`Erases`).

§1 code that logs, §2 leaving the log out, §3 reading what is there, §4 runs.
-/
import Xv6.Files.Logging
import Xv6.Files.Reclaim

namespace Xv6.Files

open Xv6.Lib Function
open Xv6.Vm (nproc)
open Xv6.Fs (word)

namespace Logged

/-! ## §1 Code that logs -/

/-- The log, and how often `balloc` has been called. -/
structure Watch where
  log : Fs.Log
  ballocs : Nat

/-- A panic of the file system or of the log. -/
inductive Stop where
  | files (e : Panic)
  | log (e : Fs.Panic)
  deriving DecidableEq, Repr

def Stop.cut : Stop → Option Panic
  | .files e => some e
  | .log _ => none

def onWrite (b : Nat) (w : Watch) : Except Stop Watch :=
  match Fs.logWrite b w.log with
  | .ok (l, _) => .ok { w with log := l }
  | .error e => .error (.log e)

theorem cut_onWrite (b : Nat) (w : Watch) (e : Stop) (h : onWrite b w = .error e) :
    e.cut = none := by
  unfold onWrite at h
  split at h
  · cases h
  · cases h
    rfl

def logger : Logger Watch Stop where
  onWrite := onWrite
  onBalloc w := { w with ballocs := w.ballocs + 1 }
  files := .files
  cut := Stop.cut
  cut_files _ := rfl
  cut_write := cut_onWrite

abbrev State (σ : Type) := Noted Watch σ

abbrev L (σ α : Type) := StateT (State σ) (Except Stop) α

def plain {σ α : Type} (x : StateT σ (Except Panic) α) : L σ α := logger.plain x

variable {σ α β : Type} (sb : Superblock)

def readLoop : Nat → Dinode → Nat → Nat → Nat → Nat → List Byte →
    L Store (Int × List Byte × Dinode)
  | 0, ip, _, _, _, tot, out => return (tot, out, ip)
  | fuel + 1, ip, good, off, n, tot, out => do
    if tot < n then
      let (addr, ip) ← logger.bmap sb ip (off / bsize)
      if addr = 0 then return (tot, out, ip)
      else
        let m := min (n - tot) (bsize - off % bsize)
        let bytes ← plain (readBlock addr (off % bsize) m)
        if good < tot + m then return (-1, out ++ bytes.take (good - tot), ip)
        else readLoop fuel ip good (off + m) n (tot + m) (out ++ bytes)
    else return (tot, out, ip)

def readi (ip : Dinode) (good off n : Nat) : L Store (Int × List Byte × Dinode) := do
  if off > ip.size ∨ (off + n) % 2 ^ 32 < off then return (0, [], ip)
  else
    let n := if off + n > ip.size then ip.size - off else n
    readLoop sb n ip good off n 0 []

def readInode (i : Fin ninode) (good off n : Nat) : L Fs (Int × List Byte) := do
  let x ← plain (getInode i)
  let (r, bytes, ip) ← Logger.onStore (readi sb x.copy good off n)
  plain (modifyInode i fun x => { x with copy := ip })
  return (r, bytes)

def fileread (f : Fin nfile) (n : Int) (good : Nat) (dev : Int) : L Fs Int := do
  let x ← plain (getFile f)
  if ¬ x.readable then return -1
  else
    match x.kind with
    | .inode =>
      plain (ilock x.ip)
      let (r, _) ← readInode sb x.ip good x.off (n % 2 ^ 32).toNat
      if r > 0 then plain (modifyFile f fun x => { x with off := x.off + r.toNat }) else pure ()
      return r
    | .device => return dev
    | .none => plain (throw .fileread)

/-- `sys_read`, which opens no transaction. -/
def sysRead (p : Fin nproc) (fd n : Int) (good : Nat) (dev : Int) : L Fs Int := do
  match ← plain (argfd p fd) with
  | some (_, f) => fileread sb f n good dev
  | none => return -1

/-! ## §2 Leaving the log out -/

/-- A run that does not stop in the log is a run of `y`. -/
abbrev Erases (x : L σ α) (y : StateT σ (Except Panic) α) : Prop := logger.Erases x y

theorem erases_plain (x : StateT σ (Except Panic) α) : Erases (plain x) x :=
  Logger.erases_plain x

theorem readLoop_erases (fuel : Nat) : ∀ (ip : Dinode) (good off n tot : Nat) (out : List Byte),
    Erases (readLoop sb fuel ip good off n tot out)
      (Files.readLoop sb fuel ip good off n tot out) := by
  induction fuel with
  | zero => exact fun _ _ _ _ _ _ => erases_pure _
  | succ fuel ih =>
    intro ip good off n tot out
    refine Erases.ite (fun _ => ?_) fun _ => erases_pure _
    refine (logger.bmap_erases sb ip _).bind fun r => Erases.ite (fun _ => erases_pure _)
      fun _ => ?_
    refine (erases_plain _).bind fun bytes => ?_
    exact Erases.ite (fun _ => erases_pure _) fun _ => ih _ _ _ _ _ _

theorem readi_erases (ip : Dinode) (good off n : Nat) :
    Erases (readi sb ip good off n) (Files.readi sb ip good off n) :=
  Erases.ite (fun _ => erases_pure _) fun _ => readLoop_erases sb _ _ _ _ _ _ _

theorem readInode_erases (i : Fin ninode) (good off n : Nat) :
    Erases (readInode sb i good off n) (Files.readInode sb i good off n) := by
  refine (erases_plain _).bind fun x => ?_
  refine (Logger.erases_onStore (readi_erases sb ..)).bind fun r => ?_
  exact (erases_plain _).bind fun _ => erases_pure _

theorem fileread_erases (f : Fin nfile) (n : Int) (good : Nat) (dev : Int) :
    Erases (fileread sb f n good dev) (Files.fileread sb f n good dev) := by
  refine (erases_plain _).bind fun x => Erases.ite (fun _ => erases_pure _) fun _ => ?_
  cases x.kind with
  | none => exact erases_plain _
  | device => exact erases_pure _
  | inode =>
    refine (erases_plain _).bind fun _ => (readInode_erases sb ..).bind fun r => ?_
    exact Erases.ite (fun _ => (erases_plain _).bind fun _ => erases_pure _) fun _ => erases_pure _

/-- With the log left out, it is the call of `Xv6.Files.Calls`. -/
theorem sysRead_erases (p : Fin nproc) (fd n : Int) (good : Nat) (dev : Int) :
    Erases (sysRead sb p fd n good dev) (Files.sysRead sb p fd n good dev) := by
  refine (erases_plain _).bind fun r => ?_
  cases r with
  | none => exact erases_pure _
  | some r => exact fileread_erases sb ..

/-! ## §3 Reading what is there -/

variable {sb} {ip : Dinode} {s : State Store} {bn : Nat} {E : Stop → Prop}

theorem meets_plain {x : StateT σ (Except Panic) α} {s : State σ} {Q : α → State σ → Prop}
    (h : Meets (fun e => E (.files e)) x s.state fun a t => Q a { s with state := t }) :
    Meets E (plain x) s Q := Logger.meets_plain h

/-- Reading what is there calls nothing that logs. -/
theorem readLoop_there (good n : Nat) : ∀ (fuel off tot : Nat) (out : List Byte),
    (∀ k, off ≤ k → k < off + (n - tot) → ip.Has s.state.data k) →
    Meets E (readLoop sb fuel ip good off n tot out) s fun r s' => r.2.2 = ip ∧ s' = s := by
  intro fuel
  induction fuel with
  | zero => exact fun _ _ _ _ => meets_pure ⟨rfl, rfl⟩
  | succ fuel ih =>
    intro off tot out hhas
    refine meets_ite (fun hlt => ?_) fun _ => meets_pure ⟨rfl, rfl⟩
    obtain ⟨hbn, hb⟩ := hhas off (Nat.le_refl _) (by omega)
    refine Meets.bind (Logger.bmap_there hbn hb ?_)
    refine meets_else hb ?_
    refine Meets.bind (meets_plain (meets_read (meets_pure ?_)))
    refine meets_ite (fun _ => meets_pure ⟨rfl, rfl⟩) fun _ => ?_
    exact ih _ _ _ fun k hk hk' => hhas k (by omega) (by omega)

theorem readi_there (good off n : Nat)
    (hhas : ∀ k, k < ip.size → ip.Has s.state.data k) :
    Meets E (readi sb ip good off n) s fun r s' => r.2.2 = ip ∧ s' = s := by
  refine meets_ite (fun _ => meets_pure ⟨rfl, rfl⟩) fun hc => ?_
  refine readLoop_there good _ _ off 0 [] fun k _ hk' => hhas k ?_
  split at hk' <;> omega

/-- Neither the log nor the disk has seen anything. -/
structure Untouched (s s' : State Fs) : Prop where
  notes : s'.notes = s.notes
  store : s'.state.store = s.state.store

/-- A panic that does not come from the log. -/
def Stop.ofFiles : Stop → Prop
  | .files _ => True
  | .log _ => False

theorem fileread_there {s : State Fs} (hin : Files.Inv sb False s.state) (f : Fin nfile) (n : Int)
    (good : Nat) (dev : Int) :
    Meets Stop.ofFiles (fileread sb f n good dev) s fun _ s' => Untouched s s' := by
  refine Meets.bind (meets_plain (meets_read (meets_pure ?_)))
  refine meets_ite (fun _ => meets_pure ⟨rfl, rfl⟩) fun _ => ?_
  cases hk : (s.state.ftable f).kind with
  | none => exact meets_plain (meets_throw trivial)
  | device => exact meets_pure ⟨rfl, rfl⟩
  | inode =>
    have hpos := held_pos (held_file (s := s.state) (f := f) (by rw [hk]; rintro ⟨⟩))
    refine Meets.bind (meets_plain ?_)
    refine (ilock_meets hin.table hpos fun _ => trivial).imp fun _ s1 ⟨h1, hk1, hst1, hv1⟩ => ?_
    obtain ⟨hcopy, htype⟩ := h1.sync _ hpos hv1
    refine Meets.bind (Meets.bind (meets_plain (meets_getInode ?_)))
    refine Meets.bind (Logger.meets_onStore ?_)
    refine (readi_there good _ _ fun k hk => ?_).imp fun r t ⟨_, ht⟩ => ?_
    · rw [hcopy] at hk ⊢
      exact h1.owned.has htype hk
    · subst ht
      refine Meets.bind (meets_plain (meets_modifyInode (meets_pure ?_)))
      have hsame : Untouched s { s with state := s1 } := ⟨rfl, hst1⟩
      refine meets_ite (fun _ => ?_) fun _ => meets_pure ⟨hsame.notes, hsame.store⟩
      exact Meets.bind (meets_plain (meets_modify (meets_pure ⟨hsame.notes, hsame.store⟩)))

theorem sysRead_there {s : State Fs} (hin : Files.Inv sb False s.state) (p : Fin nproc)
    (fd n : Int) (good : Nat) (dev : Int) :
    Meets Stop.ofFiles (sysRead sb p fd n good dev) s fun _ s' => Untouched s s' := by
  have hproc : Total (Files.getProc p) s.state fun _ t => t = s.state := by
    refine meets_read ?_
    cases s.state.procs p with
    | none => exact meets_pure rfl
    | some x => exact meets_pure rfl
  have hargfd : Total (argfd p fd) s.state fun _ t => t = s.state := by
    refine hproc.seq fun x t ht => ?_
    split
    · exact meets_pure ht
    · exact meets_pure ht
  refine Meets.bind (meets_plain (hargfd.meets.imp fun r t ht => ?_))
  subst ht
  cases r with
  | none => exact meets_pure ⟨rfl, rfl⟩
  | some r => exact fileread_there hin r.2 n good dev

end Logged

/-! ## §4 Runs -/

/-- What happens to the file system: a call of a process, or `ireclaim`. -/
inductive Op where
  | call (p : Fin nproc) (c : Call)
  | reclaim

def opStep (sb : Superblock) : Op → F Unit
  | .call p c => step sb p c
  | .reclaim => ireclaim sb

def runOps (sb : Superblock) : List Op → F Unit
  | [] => return
  | op :: ops => do
    opStep sb op
    runOps sb ops

theorem reclaimInode_keeps (h : Table sb False c s) (inum : Nat) :
    Meets (Allowed False) (reclaimInode inum) s fun _ s' => Table sb False c s' ∧ Keeps c s s' := by
  refine meets_read (meets_ite (fun _ => ?_) fun _ => meets_pure ⟨h, .refl⟩)
  refine (iget_meets h inum False.elim fun _ => Allowed.other (by decide)).seq
    fun e s1 ⟨h1, hk1, _, _, _, _⟩ => ?_
  have hpos : 0 < more c e e := by
    rw [more_self]
    exact Nat.succ_pos _
  have hmore : ∀ x, 0 < c x → 0 < more c e x := fun _ => pos_more
  refine (ilock_spec h1 hpos).seq fun _ s2 ⟨h2, hk2, _, _⟩ => ?_
  refine (iput_spec h2 hpos).imp fun _ s3 ⟨h3, hk3, _, _⟩ => ?_
  rw [less_more] at h3 hk3
  exact ⟨h3, (hk1.trans hk2 hmore).trans hk3 fun _ hx => hx⟩

theorem reclaimLoop_keeps (inums : List Nat) : ∀ {s : Fs}, Table sb False c s →
    Meets (Allowed False) (reclaimLoop inums) s fun _ s' =>
      Table sb False c s' ∧ Keeps c s s' := by
  induction inums with
  | nil => exact fun h => meets_pure ⟨h, .refl⟩
  | cons inum inums ih =>
    intro s h
    refine (reclaimInode_keeps h inum).seq fun _ s1 ⟨h1, hk1⟩ => ?_
    exact (ih h1).imp fun _ s2 ⟨h2, hk2⟩ => ⟨h2, hk1.trans hk2 fun _ hx => hx⟩

theorem opStep_inv (h : Inv sb False s) (op : Op) :
    Meets (Allowed False) (opStep sb op) s fun _ s' => Inv sb False s' := by
  cases op with
  | call p c => exact (step_spec ⟨h, False.elim⟩ p c).imp fun _ _ hs => hs.1.inv
  | reclaim =>
    refine (reclaimLoop_keeps _ h.table).imp fun _ s' ⟨ht, hk⟩ => ?_
    exact h.frame ht ⟨hk, False.elim⟩

theorem runOps_inv (ops : List Op) : ∀ {s : Fs}, Inv sb False s →
    Meets (Allowed False) (runOps sb ops) s fun _ s' => Inv sb False s' := by
  induction ops with
  | nil => exact fun h => meets_pure h
  | cons op ops ih => exact fun h => (opStep_inv h op).seq fun _ _ h1 => ih h1

/-- Whatever processes write, truncate, create, link, unlink and reclaim, every
inode in use has all the blocks below its size. So reading any of them calls
neither `balloc` nor `log_write` and leaves the inode alone, and `sys_read`,
which is not in a transaction, does not panic in the log. -/
theorem reads_never_allocate (im : Image sb) (ops : List Op) :
    Meets (· ≠ .freeingFree) (runOps sb ops) (boot im.store) fun _ s =>
      (∀ i bn, (s.store.dinodes i).type ≠ .free → bn * bsize < (s.store.dinodes i).size →
        (s.store.dinodes i).blockAt s.store.data bn ≠ 0) ∧
      (∀ i good off n log, (s.store.dinodes i).type ≠ .free →
        ∃ r, (Logged.readi sb (s.store.dinodes i) good off n).run ⟨s.store, log, 0⟩ =
          .ok (r, ⟨s.store, log, 0⟩) ∧ r.2.2 = s.store.dinodes i ∧
          (readi sb (s.store.dinodes i) good off n).run s.store = .ok (r, s.store)) ∧
      ∀ p fd n good dev log, Meets Logged.Stop.ofFiles (Logged.sysRead sb p fd n good dev)
        ⟨s, log, 0⟩ fun _ s' => Logged.Untouched ⟨s, log, 0⟩ s' := by
  refine (runOps_inv ops (boot_inv im False.elim)).mono (fun _ s h => ?_) fun e he => he.1
  have hown := h.table.owned
  refine ⟨hown.full, fun i good off n log ht => ?_, fun p fd n good dev log => ?_⟩
  · have hthere : Total (Logged.readi sb (s.store.dinodes i) good off n) ⟨s.store, log, 0⟩
        fun r s' => r.2.2 = s.store.dinodes i ∧ s' = ⟨s.store, log, 0⟩ :=
      Logged.readi_there good off n fun k hk => hown.has ht hk
    obtain ⟨r, s', hrun, hip, rfl⟩ := hthere.elim
    exact ⟨r, hrun, hip, ((Logged.readi_erases sb (s.store.dinodes i) good off n).run _).post hrun⟩
  · exact Logged.sysRead_there (s := ⟨s, log, 0⟩) h p fd n good dev

end Xv6.Files
