/-
Xv6.Kern.ExecTheorems — `kexec` reads its file through the inode.

`Xv6.Vm.Exec` builds an image from the bytes of a file. Here these bytes are
read from an inode, block by block, while it is locked. `readi_locked` says
that each read returns a part of the contents and changes nothing, so the
loading code follows the code on byte lists, and `buildImage` follows
`kexecImage` while it releases the inode on the way.
-/
import Xv6.Kern.Calls
import Xv6.Files.FileTheorems

namespace Xv6.Kern

open Xv6.Vm Xv6.Lib
open Xv6.Files (Superblock ninode Dinode Cnt)
open Function

variable {L : Layout} {sb : Superblock} {g : Prop} {k k1 : Kernel} {ip : Fin ninode}
  {file : List Byte}

/-! ## §1 Rules -/

section Rules

variable {α : Type} {E : Panic → Prop} {Q : α → Kernel → Prop} {a : α}

theorem meets_onSys {x : K α} {s : Sys} (hx : x.run k.sys = .ok (a, s)) (hq : Q a (k.setSys s)) :
    Meets E (onSys x) k Q :=
  .ok (run_embed_ok hx) hq

theorem meets_onMach {x : M α} {m : Mach} (hx : x.run k.sys.mach = .ok (a, m))
    (hq : Q a (k.setMach m)) : Meets E (onMach x) k Q :=
  .ok (run_embed_ok hx) hq

theorem follows_onMach (x : M α) : Follows Kernel.setMach .mem k k (onMach x) x :=
  follows_embed (fun _ => rfl) (fun _ _ => rfl) x

end Rules

/-! ## §2 Reading -/

/-- Reads from the inode return parts of `file` and change nothing. -/
def Reads (sb : Superblock) (k : Kernel) (ip : Fin ninode) (file : List Byte) : Prop :=
  ∀ off n m, (readi sb ip off n).run (k.setMach m) =
    .ok (((Vm.readi file off n).length, Vm.readi file off n), k.setMach m)

theorem contents_slice (d : Dinode) (data : Nat → Fs.Block) (off n : Nat) (hoff : off ≤ d.size) :
    ((d.contents data).drop off).take n = d.bytes data off (min n (d.size - off)) := by
  have hsplit := d.bytes_append data 0 off (d.size - off)
  rw [Nat.zero_add, Nat.add_sub_cancel' hoff] at hsplit
  rw [Dinode.contents, ← hsplit, List.drop_left' (d.bytes_length ..)]
  obtain ⟨r, hr⟩ := Nat.exists_eq_add_of_le (Nat.min_le_right n (d.size - off))
  have htake := d.bytes_append data off (min n (d.size - off)) r
  rw [← hr] at htake
  rw [← htake]
  by_cases hn : n ≤ d.size - off
  · rw [Nat.min_eq_left hn]
    exact List.take_left' (d.bytes_length ..)
  · obtain rfl : r = 0 := by omega
    rw [List.take_of_length_le]
    · simp [Dinode.bytes]
    · rw [List.length_append, d.bytes_length, d.bytes_length]
      omega

/-- The two descriptions of what `readi` returns agree. -/
theorem readi_contents (d : Dinode) (data : Nat → Fs.Block) (off n : Nat) :
    Vm.readi (d.contents data) off n =
      d.bytes data (off % 2 ^ 32) (d.readable (off % 2 ^ 32) (n % 2 ^ 32)) := by
  have hlen : (d.contents data).length = d.size := d.bytes_length data 0 d.size
  unfold Vm.readi Dinode.readable
  rw [hlen]
  by_cases hc : off % 2 ^ 32 > d.size ∨ (off % 2 ^ 32 + n % 2 ^ 32) % 2 ^ 32 < off % 2 ^ 32
  · rw [if_pos hc, if_pos hc]
    rfl
  · rw [if_neg hc, if_neg hc]
    exact contents_slice d data _ _ (by omega)

/-- While the inode is held and valid, `readi` reads its contents. -/
theorem readi_locked {c : Cnt} (h : Files.Table sb g c k.fs) (he : 0 < c ip)
    (hv : (k.fs.itable ip).valid = true) :
    Reads sb k ip ((k.fs.itable ip).copy.contents k.fs.store.data) := by
  intro off n m
  obtain ⟨hcopy, hfree⟩ := h.sync ip he hv
  have hread : Total (Files.readi sb (k.fs.itable ip).copy (n % 2 ^ 32) (off % 2 ^ 32)
      (n % 2 ^ 32)) k.fs.store _ := hcopy ▸ Files.readi_spec h.owned hfree _ _ _
  obtain ⟨⟨r, bytes, d⟩, st, hrun, hd, hst, hpost⟩ := hread.elim
  obtain ⟨hr, hbytes⟩ := hpost (Nat.le_refl _)
  subst hst hd
  have hlen : (Vm.readi ((k.fs.itable ip).copy.contents k.fs.store.data) off n).length =
      (k.fs.itable ip).copy.readable (off % 2 ^ 32) (n % 2 ^ 32) := by
    rw [readi_contents, Dinode.bytes_length]
  rw [hlen, readi_contents, ← hr, ← hbytes]
  refine run_embed_ok (s := k.setMach m) (t := k.fs) ?_
  have hget : (Files.getInode ip).run k.fs = .ok (k.fs.itable ip, k.fs) := rfl
  refine (run_bind_ok hget).trans ?_
  refine (run_bind_ok (run_focus_ok hrun)).trans ?_
  have hsame : k.fs.setInode ip (k.fs.itable ip) = k.fs := by
    unfold Files.Fs.setInode
    rw [update_eq_self]
  exact congrArg (fun fs => Except.ok ((r, bytes), fs)) hsame

/-! ## §3 Loading -/

section Loading

variable (hread : Reads sb k ip file)
include hread

theorem loadsegLoop_follows (pagetable va offset sz fuel : Nat) : ∀ i,
    Follows Kernel.setMach .mem k k (loadsegLoop sb pagetable va ip offset sz fuel i)
      (Vm.loadsegLoop pagetable va file offset sz fuel i) := by
  induction fuel with
  | zero => exact fun i => follows_throw _
  | succ fuel ih =>
    intro i
    refine follows_ite .rfl (fun _ => ?_) (fun _ => follows_pure _)
    refine (follows_onMach _).bind fun pa => ?_
    refine follows_ite .rfl (fun _ => follows_throw _) (fun _ => ?_)
    refine Follows.step (hread _ _) ?_
    rw [← bind_assoc (readPage pa)]
    refine (follows_onMach _).bind fun _ => ?_
    exact follows_ite (by simp) (fun _ => follows_pure _) (fun _ => ih _)

theorem loadSegments_follows (pagetable n : Nat) : ∀ off sz,
    Follows Kernel.setMach .mem k k (loadSegments L sb pagetable ip n off sz)
      (Vm.loadSegments L pagetable file n off sz) := by
  induction n with
  | zero => exact fun off sz => follows_pure _
  | succ n ih =>
    intro off sz
    refine Follows.step (hread _ _) ?_
    refine follows_ite (by simp) (fun _ => follows_pure _) (fun _ => ?_)
    refine follows_ite .rfl (fun _ => ih _ _) (fun _ => ?_)
    refine follows_ite .rfl (fun _ => follows_pure _) (fun _ => ?_)
    refine follows_ite .rfl (fun _ => follows_pure _) (fun _ => ?_)
    refine follows_ite .rfl (fun _ => follows_pure _) (fun _ => ?_)
    refine (follows_onMach _).bind fun sz1 => ?_
    refine follows_ite .rfl (fun _ => follows_pure _) (fun _ => ?_)
    refine (loadsegLoop_follows hread _ _ _ _ _ _).bind fun r => ?_
    exact follows_ite .rfl (fun _ => follows_pure _) (fun _ => ih _ _)

/-- The image is built as from the contents of the file, and on every way out
the file has been released. -/
theorem buildImage_follows (hrel : ∀ m, (release ip).run (k.setMach m) = .ok ((), k1.setMach m))
    (p : Proc) (argv : List Nat) :
    Follows Kernel.setMach .mem k k1 (buildImage L sb p ip argv)
      (kexecImage L p.mm p.trapframe (some file) argv) := by
  have hbad : Follows Kernel.setMach .mem k k1 (do release ip; return none : KM (Option Image))
      (pure none) := Follows.step hrel (follows_pure _)
  refine Follows.step (hread _ _) ?_
  refine follows_ite (by simp) (fun _ => hbad) (fun _ => ?_)
  refine follows_ite .rfl (fun _ => hbad) (fun _ => ?_)
  refine (follows_onMach _).bind fun pagetable => ?_
  refine follows_ite .rfl (fun _ => hbad) (fun _ => ?_)
  refine (loadSegments_follows hread _ _ _ _).bind fun r => ?_
  refine follows_ite .rfl (fun _ => ?_) (fun _ => Follows.step hrel (follows_onMach _))
  exact (follows_onMach _).bind fun _ => hbad

end Loading

/-! ## §4 The whole call -/

/-- The parts of the state that `kexec` has no business with after the file
is released. -/
structure Beside (k k' : Kernel) : Prop where
  fs : k'.fs = k.fs
  held : k'.held = k.held
  begun : k'.begun = k.begun
  ended : k'.ended = k.ended

/-- `kexec` once the file is locked: it does to memory what the memory part's
`kexec` does, and the name changes only if it succeeds. -/
theorem kexec_locked {i : Fin nproc} {path : List Byte} {argv : List Nat}
    {Q : Int → Sys → Prop} (hsys : k1.sys = k.sys)
    (hfol : Follows Kernel.setMach .mem k k1 (buildImage L sb (k.sys.procs i) ip argv)
      (kexecImage L (k.sys.procs i).mm (k.sys.procs i).trapframe (some file) argv))
    (hk : Total (Xv6.kexec L i (some file) argv) k.sys Q) :
    Total (do
      match ← buildImage L sb (k.sys.procs i) ip argv with
      | none => return -1
      | some img =>
        onSys (setTrapframe i tfA1 (BitVec.ofNat 64 img.sp))
        setName i (lastName path)
        onSys (modifyProc i fun p => { p with pagetable := img.pagetable, sz := img.sz })
        onSys (setTrapframe i tfEpc (BitVec.ofNat 64 img.entry))
        onSys (setTrapframe i tfSp (BitVec.ofNat 64 img.sp))
        onMach (procFreepagetable L (k.sys.procs i).pagetable (k.sys.procs i).sz)
        return (img.argc : Int)) k fun r k' =>
      Q r k'.sys ∧ Beside k1 k' ∧ (r = -1 → k'.name = k1.name) := by
  obtain ⟨r, s', hrun, hQ⟩ := hk.elim
  obtain ⟨p, t, hp, hrun⟩ := run_bind_elim hrun
  cases hp
  obtain ⟨x, t, hx, hrun⟩ := run_bind_elim hrun
  obtain ⟨m, hmach, rfl⟩ := run_focus_elim hx
  have hbuild : (buildImage L sb (k.sys.procs i) ip argv).run k = .ok (x, k1.setMach m) := by
    have := hfol k.sys.mach
    rw [hmach] at this
    exact this
  refine Meets.bind (.ok hbuild ?_)
  have hsys1 : (k1.setMach m).sys = k.sys.setMach m := congrArg (·.setMach m) hsys
  cases x with
  | none =>
    cases hrun
    exact meets_pure ⟨hsys1 ▸ hQ, ⟨rfl, rfl, rfl, rfl⟩, fun _ => rfl⟩
  | some img =>
    obtain ⟨_, s1, h1, hrun⟩ := run_bind_elim hrun
    obtain ⟨_, s2, h2, hrun⟩ := run_bind_elim hrun
    obtain ⟨_, s3, h3, hrun⟩ := run_bind_elim hrun
    obtain ⟨_, s4, h4, hrun⟩ := run_bind_elim hrun
    obtain ⟨_, s5, h5, hrun⟩ := run_bind_elim hrun
    obtain ⟨m5, h5m, rfl⟩ := run_focus_elim h5
    cases hrun
    refine Meets.bind (meets_onSys (hsys1 ▸ h1) (meets_update ?_))
    refine Meets.bind (meets_onSys h2 (Meets.bind (meets_onSys h3
      (Meets.bind (meets_onSys h4 ?_)))))
    refine Meets.bind (meets_onMach h5m (meets_pure ⟨hQ, ⟨rfl, rfl, rfl, rfl⟩, fun h => ?_⟩))
    omega

/-- The file is put back and the operation ends. -/
theorem release_run {fs : Files.Fs} {u : Unit} (hheld : k.held ip = true)
    (href : 1 ≤ (k.fs.itable ip).ref) (hput : (Files.iput ip).run k.fs = .ok (u, fs)) (m : Mach) :
    (release ip).run (k.setMach m) =
      .ok ((), Kernel.setMach ⟨k.sys, fs, k.name, update k.held ip false, k.begun, k.ended + 1⟩
        m) := by
  have hunlock : ¬ ((!(k.setMach m).held ip) = true ∨ ((k.setMach m).fs.itable ip).ref < 1) := by
    show ¬ ((!k.held ip) = true ∨ (k.fs.itable ip).ref < 1)
    rw [hheld]
    simp only [Bool.not_true, Bool.false_eq_true, false_or]
    omega
  have hiunlock : (iunlock ip).run (k.setMach m) = .ok ((),
      { k.setMach m with held := update k.held ip false }) := by
    refine (run_bind_ok (a := k.setMach m) rfl).trans ?_
    rw [if_neg hunlock]
    rfl
  have hiput : (iunlockput ip).run (k.setMach m) = .ok (u,
      Kernel.setFs { k.setMach m with held := update k.held ip false } fs) :=
    (run_bind_ok hiunlock).trans (run_embed_ok hput)
  exact (run_bind_ok hiput).trans rfl

/-- The panics of the file layer. -/
def InFiles (e : Panic) : Prop := ∃ e', e = .files e'

/-- What `kexec` leaves of the files: the path has been walked, and the file
has been locked, released and put back. -/
structure FilesDone (sb : Superblock) (k k' : Kernel) : Prop where
  inv : Files.Inv sb False k'.fs
  procs : k'.fs.procs = k.fs.procs
  ftable : k'.fs.ftable = k.fs.ftable
  refs : ∀ e, (k'.fs.itable e).ref = (k.fs.itable e).ref
  held : k'.held = k.held
  begun : k'.begun = k.begun + 1
  ended : k'.ended = k.ended + 1

/-- The file system is in order, with the references it had. -/
theorem files_back (hinv : Files.Inv sb False k.fs) {fs : Files.Fs}
    (ht : Files.Table sb False (refs k.fs.held) fs)
    (hkeep : Files.Keeps (refs k.fs.held) k.fs fs) :
    Files.Inv sb False fs ∧ fs.procs = k.fs.procs ∧ fs.ftable = k.fs.ftable ∧
      ∀ e, (fs.itable e).ref = (k.fs.itable e).ref :=
  ⟨(Files.Done.ended (.same ht hkeep False.elim False.elim) hinv).1.inv, hkeep.procs, hkeep.ftable,
    fun e => (ht.refs e).trans (hinv.table.refs e).symm⟩

/-- `kexec` with its files, over any lemma about its memory part. -/
theorem kexec_spec {i : Fin nproc} {argv : List Nat} {Q : Option (List Byte) → Int → Sys → Prop}
    {x : Files.FProc} (hinv : Files.Inv sb False k.fs) (hproc : k.fs.procs i = some x)
    (hfree : ∀ e, k.held e = false)
    (hk : ∀ file, Total (Xv6.kexec L i file argv) k.sys (Q file)) (path : List Byte) :
    Meets InFiles (kexec L sb i path argv) k fun r k' =>
      (∃ file, Q file r k'.sys) ∧ FilesDone sb k k' ∧ (r = -1 → k'.name = k.name) := by
  refine Meets.bind (meets_onSys (a := k.sys.procs i) (s := k.sys) rfl ?_)
  refine meets_update ?_
  refine meets_embed_seq (Files.namei_spec (hinv.ready False.elim hproc) path)
    (fun e _ => ⟨e, rfl⟩) ?_
  rintro r fs1 ⟨hk1, -, hnone, hsome, -⟩
  cases r with
  | none =>
    refine meets_update (meets_pure ?_)
    obtain ⟨r, s', hrun, hQ⟩ := (hk none).elim
    cases hrun
    obtain ⟨h1, h2, h3, h4⟩ := files_back hinv (hnone rfl) hk1
    exact ⟨⟨none, hQ⟩, ⟨h1, h2, h3, h4, rfl, rfl, rfl⟩, fun _ => rfl⟩
  | some ip =>
    obtain ⟨ht1, -⟩ := hsome ip rfl
    have hpos : 0 < Files.more (refs k.fs.held) ip ip := by simp
    refine Meets.bind (meets_update (meets_embed
      ((Files.ilock_spec ht1 hpos).imp fun _ fs2 hlock => ?_) (fun e _ => ⟨e, rfl⟩)))
    obtain ⟨ht2, hk2, -, hv2⟩ := hlock
    obtain ⟨_, fs3, hput, ht3, hk3, -⟩ := Total.elim (Files.iput_spec ht2 hpos)
    rw [Files.less_more] at ht3 hk3
    have hkeep : Files.Keeps (refs k.fs.held) k.fs fs3 :=
      (hk1.trans (hk2.mono fun _ => Files.pos_more) fun _ h => h).trans hk3 fun _ h => h
    obtain ⟨h1, h2, h3, h4⟩ := files_back hinv ht3 hkeep
    -- the lock is free again
    have hheld : update (update k.held ip true) ip false = k.held := by
      rw [update_idem, ← hfree ip, update_eq_self]
    have href : 1 ≤ (fs2.itable ip).ref := by rw [ht2.refs]; exact hpos
    generalize hst : Kernel.setFs _ fs2 = k2
    have hsys : k2.sys = k.sys := by rw [← hst]; rfl
    have hfs : k2.fs = fs2 := by rw [← hst]; rfl
    have hhe : k2.held = update k.held ip true := by rw [← hst]; rfl
    have hna : k2.name = k.name := by rw [← hst]; rfl
    have hbe : k2.begun = k.begun + 1 := by rw [← hst]; rfl
    have hen : k2.ended = k.ended := by rw [← hst]; rfl
    rw [← hfs] at ht2 hv2 href hput
    have hrel := release_run (by rw [hhe, update_self]) href hput
    have hfol := buildImage_follows (L := L) (readi_locked ht2 hpos hv2) hrel (k2.sys.procs i) argv
    rw [← hsys] at hk ⊢
    refine ((kexec_locked (by rfl) hfol (hk _)).meets).imp ?_
    rintro r k' ⟨hQ, hbeside, hname⟩
    refine ⟨⟨_, hQ⟩, ⟨?_, ?_, ?_, ?_, ?_, ?_, ?_⟩, fun hr => (hname hr).trans hna⟩
    · rw [hbeside.fs]
      exact h1
    · rw [hbeside.fs]
      exact h2
    · rw [hbeside.fs]
      exact h3
    · rw [hbeside.fs]
      exact h4
    · rw [hbeside.held, hhe]
      exact hheld
    · rw [hbeside.begun, hbe]
    · rw [hbeside.ended, hen]

end Xv6.Kern
