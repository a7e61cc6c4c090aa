/-
Xv6.Sys.StepTheorems — one step of the system, and a whole run.

`Models s c a` ties the contents of all processes to the private memories
of `Xv6.Sys.Private`. `Stepped` is what every operation does: it keeps the
invariant, makes a step of the private model, and leaves every process alone
but the one that made it. The run lemma follows by induction.
-/
import Xv6.Sys.BootTheorems

namespace Xv6

open Xv6.Vm Xv6.Lib
open Function

variable {L : Layout} {f f' : Entries} {c c' : Slot → Page} {s s' : Sys}
  {i : Fin nproc} {a a' : Private} {va : Nat} {A : Fin nproc → Prop} {op : Op} {r : Res}

/-! ## §1 Concrete and private memory -/

/-- Process `j` has the size and the bytes of `sp`. -/
structure SpaceOf (s : Sys) (c : Slot → Page) (j : Fin nproc) (sp : Space) : Prop where
  size : sp.size = (s.procs j).sz
  byte : ∀ va, sp.byte va = ubyte c (.proc j) va

def Models (s : Sys) (c : Slot → Page) (a : Private) : Prop := ∀ j, SpaceOf s c j (a j)

/-- Two contents that agree at the page of `va`. -/
theorem ubyte_congr {t : TableId}
    (h : ∀ hv : va / 4096 < userPages, c' (t, ⟨va / 4096, hv⟩) = c (t, ⟨va / 4096, hv⟩)) :
    ubyte c' t va = ubyte c t va := by
  unfold ubyte
  split
  · rw [h]
  · rfl

theorem SpaceOf.congr {j : Fin nproc} {sp : Space} (h : SpaceOf s c j sp)
    (hsz : (s'.procs j).sz = (s.procs j).sz) (hc : ∀ vpn, c' (.proc j, vpn) = c (.proc j, vpn)) :
    SpaceOf s' c' j sp :=
  ⟨h.size.trans hsz.symm, fun va => by rw [h.byte, ubyte_congr fun _ => hc _]⟩

/-- Only the processes in `A` have to be looked at. -/
theorem Models.next (h : Models s c a) (hk : Kept A s s' f f' c c')
    (hsame : ∀ j, ¬ A j → a' j = a j) (hA : ∀ j, A j → SpaceOf s' c' j (a' j)) :
    Models s' c' a' := by
  intro j
  by_cases hj : A j
  · exact hA j hj
  · rw [hsame j hj]
    exact (h j).congr (hk.same j hj).sz (hk.data j hj)

theorem Models.same (h : Models s c a) (hsz : ∀ j, (s'.procs j).sz = (s.procs j).sz) :
    Models s' c a := fun j => (h j).congr (hsz j) (fun _ => rfl)

/-- Bytes written to process `i`. -/
theorem Models.poked (h : Models s c a) {u : Sys} (hsz : ∀ j, (u.procs j).sz = (s.procs j).sz)
    {bs : List Byte} (hp : Poked c c' (.proc i) va bs) :
    Models u c' (a.write i va bs) := by
  intro j
  by_cases hj : j = i
  · subst hj
    rw [Private.write, update_self]
    refine ⟨by rw [Space.size_write, (h j).size, hsz], fun x => ?_⟩
    rw [Space.byte_write, hp, (h j).byte]
    simp only [true_and]
  · rw [Private.write, update_of_ne hj]
    refine ⟨by rw [(h j).size, hsz], fun x => ?_⟩
    rw [hp, if_neg (by simp [hj]), (h j).byte]

theorem Models.bytes (h : Models s c a) (va n : Nat) :
    ubytes c (.proc i) va n = (a i).bytes va n := by
  refine List.map_congr_left fun k _ => ?_
  rw [(h i).byte]

/-! ## §2 What a step does -/

/-- A process that has not exited. -/
def Proc.live (p : Proc) : Prop := p.state ≠ .unused ∧ p.state ≠ .zombie

structure Stepped (L : Layout) (op : Op) (f : Entries) (c : Slot → Page)
    (s : Sys) (r : Res) (f' : Entries) (c' : Slot → Page) (s' : Sys) : Prop where
  inv : SysInv L none f' c' s'
  sim : ∀ a, Models s c a → ∃ a', PStep a op r a' ∧ Models s' c' a'
  same : ∀ j, op.actor ≠ some j → (s.procs j).live → Same (s.procs j) (s'.procs j)
  entries : ∀ j, op.actor ≠ some j → (s.procs j).live → f' (.proc j) = f (.proc j)
  data : ∀ j, op.actor ≠ some j → (s.procs j).live →
    ∀ vpn, c' (.proc j, vpn) = c (.proc j, vpn)

def StepPost (L : Layout) (op : Op) (f : Entries) (c : Slot → Page) (s : Sys)
    (r : Res) (s' : Sys) : Prop := ∃ f' c', Stepped L op f c s r f' c' s'

/-- From what is kept. The operation may also have changed processes that
are not live. -/
theorem Stepped.of_kept (h : SysInv L none f' c' s') (hk : Kept A s s' f f' c c')
    (hA : ∀ j, A j → op.actor = some j ∨ ¬ (s.procs j).live)
    (hsim : ∀ a, Models s c a → ∃ a', PStep a op r a' ∧ Models s' c' a') :
    Stepped L op f c s r f' c' s' := by
  have hout : ∀ j, op.actor ≠ some j → (s.procs j).live → ¬ A j :=
    fun j h1 h2 hj => (hA j hj).elim h1 (fun h => h h2)
  exact ⟨h, hsim, fun j h1 h2 => hk.same j (hout j h1 h2),
    fun j h1 h2 => hk.entries j (hout j h1 h2), fun j h1 h2 => hk.data j (hout j h1 h2)⟩

/-- The process may exit after the step. -/
theorem Stepped.exited {s'' : Sys} (h : Stepped L op f c s r f' c' s') (hop : op.actor = some i)
    (hex : Exited L f' f' c' s' s'' i) :
    Stepped L op f c s r f' c' s'' := by
  have hne : ∀ {j}, op.actor ≠ some j → j ≠ i := by
    rintro j hj rfl
    exact hj hop
  refine ⟨hex.inv, fun a ha => ?_, fun j h1 h2 => (h.same j h1 h2).trans (hex.kept.same j (hne h1)),
    h.entries, h.data⟩
  obtain ⟨a', hstep, hm⟩ := h.sim a ha
  refine ⟨a', hstep, hm.same fun j => ?_⟩
  by_cases hj : j = i
  · subst hj
    exact hex.sz
  · exact (hex.kept.same j hj).sz

/-- Steps that change no memory. -/
theorem Stepped.quiet (h : SysInv L none f' c s') (hk : Kept (· = i) s s' f f' c c)
    (hop : op.actor = some i) (hsz : (s'.procs i).sz = (s.procs i).sz)
    (hstep : ∀ a, PStep a op r a) :
    Stepped L op f c s r f' c s' := by
  refine .of_kept h hk (fun j hj => .inl (hj ▸ hop)) (fun a ha => ⟨a, hstep a, ha.next hk
    (fun _ _ => rfl) ?_⟩)
  rintro j rfl
  exact (ha j).congr hsz fun _ => rfl

theorem Stepped.idle (h : Idle L f c s s') (hstep : ∀ a, PStep a op r a) :
    Stepped L op f c s r f c s' :=
  .of_kept h.inv h.kept (fun _ h => h.elim)
    (fun a ha => ⟨a, hstep a, ha.same fun j => by rw [h.procs]⟩)

/-- A system call, from what the call itself does. -/
theorem syscall_spec {α : Type} {x : K α} {ans : α → Res} (h : SysInv L none f c s)
    (hu : (s.procs i).state ≠ .unused) (hop : op.actor = some i)
    (hx : Total x s fun r s1 => (s1.procs i).state ≠ .unused ∧ StepPost L op f c s (ans r) s1) :
    Meets (· = .initExiting) (syscall i ans x) s (StepPost L op f c s) := by
  refine Meets.seq (usertrapSyscall_spec (Q := fun r s' => StepPost L op f c s (ans r) s')
    (P := fun r s' => StepPost L op f c s (r.elim .killed ans) s') h hu ?_ ?_ ?_) ?_
  · refine hx.meets.imp ?_
    rintro r s1 ⟨hu1, f1, c1, hst⟩
    refine ⟨hu1, f1, c1, hst.inv, ?_⟩
    rintro s' (rfl | hex)
    · exact ⟨f1, c1, hst⟩
    · exact ⟨f1, c1, hst.exited hop hex⟩
  · intro s' hex
    exact ⟨f, c, .quiet hex.inv hex.kept hop hex.sz fun a => .killed op⟩
  · exact fun r s' hq => hq
  · rintro (_ | r) s' hq
    · exact meets_pure hq
    · exact meets_pure hq

/-! ## §3 The system calls -/

/-- A slot that is free before and after has the same, empty memory. -/
theorem SpaceOf.unused {j : Fin nproc} {sp : Space} (ha : SpaceOf s c j sp)
    (h : SysInv L none f c s) (h' : SysInv L none f' c s') (hu : (s.procs j).state = .unused)
    (hu' : (s'.procs j).state = .unused) : SpaceOf s' c j sp := by
  refine ha.congr ?_ fun _ => rfl
  rw [(h.whole j (by simp)).size hu, (h'.whole j (by simp)).size hu']

theorem unused_not_live {p : Proc} (h : p.state = .unused) : ¬ p.live := fun hl => hl.1 h

theorem kfork_step (h : SysInv L none f c s) (hu : (s.procs i).state ≠ .unused) :
    Total (kfork L i) s fun r s' => (s'.procs i).state ≠ .unused ∧
      StepPost L (.fork i) f c s (match r with
        | some (child, _) => .forked child
        | none => .int (-1)) s' := by
  refine (kfork_end h hu).imp ?_
  rintro r s' ⟨⟨f', hsame, ⟨rfl, h', A, hk, hA⟩ | ⟨np, pid, rfl, hne, hfree, h', hk, hsz, -⟩⟩, -⟩
  · refine ⟨mt hsame.unused.mp hu, f', c, .of_kept h' hk (fun j hj => ?_) (fun a ha => ?_)⟩
    · rcases hA j hj with rfl | ⟨hu1, -⟩
      · exact .inl rfl
      · exact .inr (unused_not_live hu1)
    · refine ⟨a, .forkFail i, ha.next hk (fun _ _ => rfl) fun j hj => ?_⟩
      rcases hA j hj with rfl | ⟨hu1, hu2⟩
      · exact (ha j).congr hsame.sz fun _ => rfl
      · exact (ha j).unused h h' hu1 hu2
  · refine ⟨mt hsame.unused.mp hu, f', _, .of_kept h' hk (fun j hj => ?_) (fun a ha => ?_)⟩
    · rcases hj with rfl | rfl
      · exact .inl rfl
      · exact .inr (unused_not_live hfree)
    · refine ⟨_, .fork i np hne, ha.next hk (fun j hj => ?_) fun j hj => ?_⟩
      · rw [update_of_ne fun e => hj (.inr e)]
      · rcases hj with rfl | rfl
        · rw [update_of_ne hne.symm]
          exact (ha j).congr hsame.sz fun vpn => if_neg (by simpa using hne.symm)
        · rw [update_self]
          refine ⟨(ha i).size.trans hsz.symm, fun va => ?_⟩
          rw [(ha i).byte]
          unfold ubyte forkCopy
          simp only [if_true]

/-- `exit` changes no memory. -/
theorem exit_step (h : SysInv L none f c s) (hu : (s.procs i).state ≠ .unused) (status : Int) :
    Meets (· = .initExiting) (act L (.exit i status)) s (StepPost L (.exit i status) f c s) := by
  refine Meets.seq (exitIfKilled_spec h hu) ?_
  rintro r s1 (⟨rfl, rfl, -⟩ | ⟨rfl, hex⟩)
  · refine Meets.seq (P := fun _ s' => Exited L f f c s1 s' i) (meets_when (fun _ => ?_)
      (fun h => absurd h (by decide))) ?_
    · refine (kexit_spec h hu status).imp ?_
      rintro _ s' ⟨h', hk, hsz, -⟩
      exact ⟨h', hk, hsz⟩
    · intro _ s' hex
      exact meets_pure ⟨f, c, .quiet hex.inv hex.kept rfl hex.sz fun a => .exit i status⟩
  · refine Meets.bind (meets_when (fun h => absurd h (by decide)) (fun _ => meets_pure ?_))
    exact ⟨f, c, .quiet hex.inv hex.kept rfl hex.sz fun a => .exit i status⟩

/-- Clearing the table of a reaped child. -/
theorem Models.reaped {ch : Fin nproc} (h : Models s c a) (hsz : ∀ j, j ≠ ch →
    (s'.procs j).sz = (s.procs j).sz) (h0 : (s'.procs ch).sz = 0) :
    Models s' (clearTable c (.proc ch)) (update a ch .empty) := by
  intro j
  by_cases hj : j = ch
  · subst hj
    rw [update_self]
    refine ⟨h0.symm, fun va => ?_⟩
    rw [Space.byte_empty]
    unfold ubyte clearTable
    split
    · rw [if_pos rfl, pageByte_zeroPage]
      rfl
    · rfl
  · rw [update_of_ne hj]
    exact (h j).congr (hsz j hj) fun vpn => if_neg (by simpa using hj)

section

variable (h : SysInv L none f c s)
include h

theorem kwait_step (hr : (s.procs i).ready = true) (addr : Word) :
    Total (kwait L i addr.toNat) s fun r s' => (s'.procs i).state ≠ .unused ∧
      StepPost L (.wait i addr) f c s (.wait r) s' := by
  have hu := (Proc.ready_state hr).1
  refine (kwait_spec h hr addr.toNat).imp ?_
  rintro (⟨ch, pid⟩ | ch | _ | _) s' hpost
  · obtain ⟨hne, hz, hsz, hsame, f', c1, h', hk, hpoke⟩ := hpost
    refine ⟨mt hsame.unused.mp hu, f', _, .of_kept h' hk (fun j hj => ?_) (fun a ha => ?_)⟩
    · rcases hj with rfl | rfl
      · exact .inl rfl
      · exact .inr fun hl => hl.2 hz
    · refine ⟨_, .reap i addr ch pid (s.procs ch).xstate hne, ?_⟩
      refine (ha.poked (u := s) (fun _ => rfl) hpoke).reaped (fun j hj => ?_) hsz
      by_cases hji : j = i
      · subst hji
        exact hsame.sz
      · exact (hk.same j (by simp [hji, hj])).sz
  · obtain ⟨f', c', k, hp, h', hk, hpoke⟩ := hpost
    refine ⟨by rw [hp]; exact hu, f', c', .of_kept h' hk (fun j hj => .inl (hj ▸ rfl))
      (fun a ha => ⟨_, .waitBad i addr ch _ k, ha.poked (fun j => by rw [hp]) hpoke⟩)⟩
  · have hs : s' = s := hpost
    subst hs
    exact ⟨hu, f, c, .quiet h .refl rfl rfl fun a => .waitNone i addr⟩
  · obtain ⟨h', hk, hsz, hst⟩ := hpost
    exact ⟨by rw [hst]; decide, f, c, .quiet h' hk rfl hsz fun a => .waitBlocked i addr⟩

/-- Above its size a process reads zeros. -/
theorem SysInv.byte_above (hva : upPage (s.procs i).sz ≤ va / 4096) : ubyte c (.proc i) va = 0 := by
  unfold ubyte
  split
  · rename_i hv
    rw [h.inv.zero_of_none ((h.parts i).sized _ hva hv), pageByte_zeroPage]
    rfl
  · rfl

theorem Models.resized (ha : Models s c a) {n : Nat}
    (hk : Kept (· = i) s s' f f' c (zeroRange c (.proc i) (upPage n) (upPage (s.procs i).sz)))
    (hsz : (s'.procs i).sz = n) :
    Models s' (zeroRange c (.proc i) (upPage n) (upPage (s.procs i).sz))
      (update a i ((a i).resize n)) := by
  refine ha.next hk (fun j hj => update_of_ne hj ..) ?_
  rintro j rfl
  rw [update_self]
  refine ⟨hsz.symm, fun va => ?_⟩
  rw [Space.byte_resize, (ha j).byte]
  by_cases hlow : va / 4096 < upPage n
  · rw [if_pos (by unfold upPage at hlow; omega)]
    refine (ubyte_congr fun hv => if_neg ?_).symm
    simp only [true_and]
    omega
  · rw [if_neg (by unfold upPage at hlow; omega)]
    by_cases hold : va / 4096 < upPage (s.procs j).sz
    · unfold ubyte
      split
      · unfold zeroRange
        rw [if_pos ⟨rfl, by simpa using Nat.le_of_not_lt hlow, hold⟩, pageByte_zeroPage]
        rfl
      · rfl
    · refine ((ubyte_congr fun hv => if_neg ?_).trans (h.byte_above (Nat.le_of_not_lt hold))).symm
      simp only [true_and]
      omega

theorem sysSbrk_step (hu : (s.procs i).state ≠ .unused) (n : BitVec 32)
    (eager : Bool) :
    Total (sysSbrk L i n.toInt eager) s fun r s' => (s'.procs i).state ≠ .unused ∧
      StepPost L (.sbrk i n eager) f c s (.int r) s' := by
  have hlo : -(2 ^ 31) ≤ n.toInt := by have := BitVec.le_toInt n; omega
  have hhi : n.toInt < 2 ^ 31 := by have := @BitVec.toInt_lt 32 n; omega
  refine (sysSbrk_spec h hu hlo hhi eager).imp ?_
  rintro r s' ⟨-, ⟨rfl, hp, h', hk, -⟩ | ⟨rfl, hp, f', c', rfl, h', hk, -⟩⟩
  · exact ⟨by rw [hp]; exact hu, f, c, .quiet h' hk rfl (by rw [hp]) fun a => .sbrkFail i n eager⟩
  · have hsz : (s'.procs i).sz = newSize (s.procs i).sz n.toInt := by
      rw [hp, update_self]
    refine ⟨by rw [hp, update_self]; exact hu, f', _, .of_kept h' hk (fun j hj => .inl (hj ▸ rfl))
      (fun a ha => ?_)⟩
    rw [← (ha i).size]
    refine ⟨_, .sbrk i n eager, ?_⟩
    rw [(ha i).size]
    exact ha.resized h hk hsz

end

/-- The memory that a table's contents make up. -/
def spaceOf (c : Slot → Page) (i : Fin nproc) (sz : Nat) : Space :=
  ⟨sz, fun vpn => if h : vpn < userPages then some (c (.proc i, ⟨vpn, h⟩)) else none⟩

theorem spaceOf_byte (va : Nat) {sz : Nat} : (spaceOf c i sz).byte va = ubyte c (.proc i) va := by
  unfold Space.byte Space.page spaceOf ubyte
  by_cases hv : va / 4096 < userPages
  · simp only [dif_pos hv, Option.getD_some]
  · simp only [dif_neg hv, Option.getD_none, pageByte_zeroPage]

theorem sysExec_step (h : SysInv L none f c s) (hu : (s.procs i).state ≠ .unused)
    (path uargv : Word) (file : Option (List Byte)) :
    Total (sysExec L i path.toNat uargv.toNat file) s fun r s' => (s'.procs i).state ≠ .unused ∧
      StepPost L (.exec i path uargv file) f c s (.int r) s' := by
  refine (sysExec_spec h hu _ _ file).imp ?_
  rintro r s' (⟨rfl, hp, f', h', hk⟩ | ⟨hr, hst, f', c', h', hk⟩)
  · exact ⟨by rw [hp]; exact hu, f', c, .quiet h' hk rfl (by rw [hp])
      fun a => .execFail i path uargv file⟩
  · refine ⟨by rw [hst]; exact hu, f', c', .of_kept h' hk (fun j hj => .inl (hj ▸ rfl))
      (fun a ha => ⟨_, .exec i path uargv file r hr (spaceOf c' i (s'.procs i).sz),
        ha.next hk (fun j hj => update_of_ne hj ..) ?_⟩)⟩
    rintro j rfl
    rw [update_self]
    exact ⟨rfl, fun va => spaceOf_byte va⟩

theorem kkill_same {pid : Int} {procs procs' : Table} (h : kkill pid procs = some procs')
    (j : Fin nproc) : Same (procs j) (procs' j) := by
  unfold kkill at h
  split at h
  · cases h
  · rename_i p _
    cases h
    by_cases hj : j = p
    · subst hj
      rw [update_self]
      unfold Proc.kill
      dsimp only
      split
      · rename_i hs
        exact ⟨rfl, rfl, rfl, .inr ⟨hs, rfl⟩⟩
      · exact ⟨rfl, rfl, rfl, .inl rfl⟩
    · rw [update_of_ne hj]
      exact .refl _

theorem sysKill_step (h : SysInv L none f c s) (hu : (s.procs i).state ≠ .unused) (pid : Int) :
    Total (sysKill pid) s fun r s' => (s'.procs i).state ≠ .unused ∧
      StepPost L (.kill i pid) f c s (.int r) s' := by
  refine meets_read ?_
  split
  · exact meets_pure ⟨hu, f, c, .quiet h .refl rfl rfl fun a => .kill i pid (-1)⟩
  · rename_i procs hkill
    have hsame := kkill_same hkill
    obtain ⟨h', hk⟩ := h.procs hsame
    refine Meets.bind (meets_set (meets_pure ⟨mt (hsame i).unused.mp hu, f, c, ?_⟩))
    exact .quiet h' (hk.mono fun _ h => h.elim) rfl (hsame i).sz fun a => .kill i pid 0

/-! ## §4 Accesses to memory -/

section

variable (h : SysInv L none f c s) (hu : (s.procs i).state ≠ .unused)
include h hu

theorem load_step (va : Word) :
    Meets (· = .initExiting) (act L (.load i va)) s (StepPost L (.load i va) f c s) := by
  refine Meets.seq (userLoad_spec h hu va.isLt) ?_
  rintro r s' (⟨rfl, hp, f', h', hk⟩ | ⟨rfl, f', hex⟩)
  · refine meets_pure ⟨f', c, .of_kept h' hk (fun j hj => .inl (hj ▸ rfl)) fun a ha => ?_⟩
    rw [← (ha i).byte]
    exact ⟨a, .load i va, ha.same fun j => by rw [hp]⟩
  · exact meets_pure ⟨f', c, .quiet hex.inv hex.kept rfl hex.sz fun a => .killed _⟩

theorem store_step (va : Word)
    (b : Byte) :
    Meets (· = .initExiting) (act L (.store i va b)) s (StepPost L (.store i va b) f c s) := by
  refine Meets.seq (userStore_spec h hu va.isLt b) ?_
  rintro r s' (⟨rfl, hp, f', c', h', hk, hpoke⟩ | ⟨rfl, f', hex⟩)
  · refine meets_if rfl (meets_pure ⟨f', c', .of_kept h' hk (fun j hj => .inl (hj ▸ rfl))
      fun a ha => ⟨_, .store i va b, ha.poked (fun j => by rw [hp]) hpoke⟩⟩)
  · exact meets_else (by decide)
      (meets_pure ⟨f', c, .quiet hex.inv hex.kept rfl hex.sz fun a => .killed _⟩)

theorem fault_step (store : Bool)
    (va : Word) :
    Meets (· = .initExiting) (act L (.fault i store va)) s
      (StepPost L (.fault i store va) f c s) := by
  refine Meets.seq (usertrapFault_spec h hu store va.toNat) ?_
  rintro r s' ⟨f', ⟨rfl, hres⟩ | ⟨rfl, hex⟩⟩
  · exact meets_pure ⟨f', c, .quiet hres.inv hres.kept rfl (by rw [hres.procs])
      fun a => .fault i store va⟩
  · exact meets_pure ⟨f', c, .quiet hex.inv hex.kept rfl hex.sz fun a => .fault i store va⟩

theorem copyout_step (va : Word)
    (src : List Byte) :
    Total (procCopyout L i va.toNat src) s fun r s' => (s'.procs i).state ≠ .unused ∧
      StepPost L (.copyout i va src) f c s (.int r) s' := by
  refine meets_getProc ((procCopyout_spec h hu va.toNat src).imp ?_)
  rintro r s' ⟨m, f', c', k, rfl, h', hk, hpoke, hr⟩
  refine ⟨hu, f', c', .of_kept h' hk (fun j hj => .inl (hj ▸ rfl)) fun a ha => ?_⟩
  have hm := ha.poked (u := s.setMach m) (fun _ => rfl) hpoke
  rcases hr with ⟨rfl, rfl⟩ | ⟨rfl, -⟩
  · rw [List.take_length] at hm
    exact ⟨_, .copyout i va src, hm⟩
  · exact ⟨_, .copyoutFail i va src k, hm⟩

theorem copyin_step (va : Word)
    (len : Nat) :
    Total (procCopyin L i va.toNat len) s fun r s' => (s'.procs i).state ≠ .unused ∧
      StepPost L (.copyin i va len) f c s (.bytes r.1 r.2) s' := by
  obtain ⟨pg, -, hpg, hr⟩ := h.root (h.used hu).1
  refine meets_getProc (meets_vm ?_)
  unfold Proc.mm
  rw [hpg]
  refine (copyin_spec h.inv hr (by simp) rfl (h.parts i).size va.toNat len).imp ?_
  rintro ⟨r, bs⟩ m ⟨f', k, hi, hf, hbs, hend, -⟩
  obtain ⟨h1, hk1⟩ := h.faulted hi hf .refl
  refine ⟨hu, f', c, .of_kept h1 hk1 (fun j hj => .inl (hj ▸ rfl)) fun a ha =>
    ⟨a, ?_, ha.same fun _ => rfl⟩⟩
  rw [ha.bytes] at hbs
  rw [hbs]
  rcases hend with ⟨rfl, rfl⟩ | ⟨rfl, hle⟩
  · exact .copyin i va k
  · exact .copyinFail i va len k hle

theorem copyinstr_step (va : Word)
    (max : Nat) :
    Total (procCopyinstr i va.toNat max) s fun r s' => (s'.procs i).state ≠ .unused ∧
      StepPost L (.copyinstr i va max) f c s (.bytes r.1 r.2) s' := by
  obtain ⟨pg, -, hpg, hr⟩ := h.root (h.used hu).1
  refine meets_getProc (meets_vm ?_)
  rw [hpg]
  refine (copyinstr_spec h.inv hr (by simp) va.toNat max).imp ?_
  rintro ⟨r, bs⟩ m ⟨rfl, k, hle, hbs, hend⟩
  refine ⟨hu, f, c, .of_kept (A := (· = i)) h .refl (fun j hj => .inl (hj ▸ rfl))
    fun a ha => ⟨a, ?_, ha⟩⟩
  rw [ha.bytes] at hbs
  rcases hend with ⟨rfl, text, htext, hne⟩ | rfl
  · have hlen : text.length + 1 = k := by
      have := congrArg List.length (htext.symm.trans hbs)
      simpa [Space.bytes] using this
    subst hlen
    rw [htext] at hbs ⊢
    exact .copyinstr i va max text hne hle hbs
  · rw [hbs]
    exact .copyinstrFail i va max k hle

theorem sysPipe_step (va : Word)
    (files : Bool) (fds : Option (Nat × Nat)) :
    Total (sysPipe L i va.toNat files fds) s fun r s' => (s'.procs i).state ≠ .unused ∧
      StepPost L (.pipe i va files fds) f c s (.int r) s' := by
  refine (sysPipe_spec h hu va.toNat files fds).imp ?_
  rintro r s' ⟨hp, f', c1, c', k0, k1, h', hk, hp0, hp1⟩
  refine ⟨by rw [hp]; exact hu, f', c', .of_kept h' hk (fun j hj => .inl (hj ▸ rfl)) fun a ha => ?_⟩
  exact ⟨_, .pipe i va files fds r k0 k1,
    (ha.poked (u := s') (fun j => by rw [hp]) hp0).poked (fun _ => rfl) hp1⟩

end

/-! ## §5 One step -/

section

variable (h : SysInv L none f c s)
include h

/-- The operation of a process that can act. -/
theorem act_spec (hop : op.actor = some i) (hr : (s.procs i).ready = true) :
    Meets (· = .initExiting) (act L op) s (StepPost L op f c s) := by
  have hu := (Proc.ready_state hr).1
  cases op with
  | boot | kalloc _ | kfree _ | allocproc | pipeclose _ _ => cases hop
  | fork j => cases hop; exact syscall_spec h hu rfl (kfork_step h hu)
  | exit j status => cases hop; exact exit_step h hu status
  | wait j addr => cases hop; exact syscall_spec h hu rfl (kwait_step h hr addr)
  | sbrk j n eager => cases hop; exact syscall_spec h hu rfl (sysSbrk_step h hu n eager)
  | exec j path uargv file =>
    cases hop; exact syscall_spec h hu rfl (sysExec_step h hu path uargv file)
  | kill j pid => cases hop; exact syscall_spec h hu rfl (sysKill_step h hu pid)
  | load j va => cases hop; exact load_step h hu va
  | store j va b => cases hop; exact store_step h hu va b
  | fault j store va => cases hop; exact fault_step h hu store va
  | copyout j va src => cases hop; exact syscall_spec h hu rfl (copyout_step h hu va src)
  | copyin j va len => cases hop; exact syscall_spec h hu rfl (copyin_step h hu va len)
  | copyinstr j va max => cases hop; exact syscall_spec h hu rfl (copyinstr_step h hu va max)
  | pipe j va files fds => cases hop; exact syscall_spec h hu rfl (sysPipe_step h hu va files fds)

theorem boot_step :
    Meets (fun e => e ∈ bootPanics ∧ s.stage < 3) (step L .boot) s (StepPost L .boot f c s) := by
  refine Meets.seq (bootStep_spec h) ?_
  rintro _ s' ⟨f', h', A, hA, hother⟩
  have hout : ∀ j, (s.procs j).live → ¬ A j := fun j hl hj => hl.1 (hA j hj).1
  refine meets_pure ⟨f', c, h', fun a ha => ⟨a, .boot, fun j => ?_⟩,
    fun j _ hl => (hother j (hout j hl)).1, fun j _ hl => (hother j (hout j hl)).2,
    fun _ _ _ _ => rfl⟩
  refine (ha j).congr ?_ fun _ => rfl
  by_cases hj : A j
  · rw [(hA j hj).2, (h.whole j (by simp)).size (hA j hj).1]
  · exact (hother j hj).1.sz

theorem allocproc_step : Total (step L .allocproc) s (StepPost L .allocproc f c s) := by
  refine Meets.seq (allocproc_spec h) ?_
  rintro _ s' (⟨rfl, h', A, hk, hA⟩ | ⟨i, f', rfl, h', hk, hu, -, hsz, -⟩)
  · refine meets_pure ⟨f, c, .of_kept h' hk (fun j hj => .inr (unused_not_live (hA j hj).1))
      (fun a ha => ⟨a, .allocproc, ha.next hk (fun _ _ => rfl) fun j hj => ?_⟩)⟩
    exact (ha j).unused h h' (hA j hj).1 (hA j hj).2
  · refine meets_pure ⟨f', c, .of_kept h' hk (fun j hj => .inr (hj ▸ unused_not_live hu))
      (fun a ha => ⟨a, .allocproc, ha.next hk (fun _ _ => rfl) ?_⟩)⟩
    rintro j rfl
    exact (ha j).congr (by rw [hsz, (h.whole j (by simp)).size hu]) fun _ => rfl

theorem closeEnd_spec (page : Nat) (writable : Bool) :
    Total (closeEnd L page writable) s fun _ s' => Idle L f c s s' := by
  refine meets_read ?_
  split
  · exact meets_when (fun _ => pipeclose_spec h page writable) (fun _ => .refl h)
  · exact meets_pure (.refl h)

end

/-- The panics that are left: init may not exit, and booting may run out of
memory. -/
def Admitted (op : Op) (s : Sys) (e : Panic) : Prop :=
  e = .initExiting ∨ op = .boot ∧ e ∈ bootPanics ∧ s.stage < 3

/-- Every step keeps the invariant and follows the private model. -/
theorem step_spec (h : SysInv L none f c s) (op : Op) :
    Meets (Admitted op s) (step L op) s (StepPost L op f c s) := by
  have hidle : ∀ {r}, (∀ a, PStep a op r a) → ∀ s', Idle L f c s s' → StepPost L op f c s r s' :=
    fun hstep _ hi => ⟨f, c, .idle hi hstep⟩
  cases hop : op.actor with
  | some i =>
    have hact : Meets (Admitted op s)
        (do if (← getProc i).ready then act L op else return .idle) s (StepPost L op f c s) := by
      refine meets_getProc (meets_ite (fun hr => ?_) (fun _ => ?_))
      · exact (act_spec h hop hr).mono (fun _ _ h => h) (fun _ he => .inl he)
      · exact meets_pure (hidle (fun _ => .idle op) s (.refl h))
    cases op <;> first | cases hop; exact hact | cases hop
  | none =>
    cases op with
    | boot => exact (boot_step h).mono (fun _ _ h => h) (fun _ he => .inr ⟨rfl, he⟩)
    | allocproc => exact (allocproc_step h).meets
    | kalloc k =>
      exact Meets.seq (rawKalloc_spec h k).meets fun _ s' hi =>
        meets_pure (hidle (fun _ => .kalloc k) s' hi)
    | kfree k =>
      exact Meets.seq (rawKfree_spec h k).meets fun _ s' hi =>
        meets_pure (hidle (fun _ => .kfree k) s' hi)
    | pipeclose page writable =>
      exact Meets.seq (closeEnd_spec h page writable).meets fun _ s' hi =>
        meets_pure (hidle (fun _ => .pipeclose page writable) s' hi)
    | _ => cases hop

/-! ## §6 Whole runs -/

/-- The ends of a run other than a result. -/
def runPanics : List Panic := .initExiting :: bootPanics

theorem Admitted.mem {e : Panic} (h : Admitted op s e) : e ∈ runPanics := by
  rcases h with rfl | ⟨-, he, -⟩
  · exact List.mem_cons_self
  · exact List.mem_cons_of_mem _ he

theorem runOps_spec (ops : List Op) : ∀ {s : Sys} {f : Entries}
    {c : Slot → Page} {a : Private}, SysInv L none f c s → Models s c a →
    Meets (· ∈ runPanics) (runOps L ops) s fun rs s' =>
      ∃ f' c' a', SysInv L none f' c' s' ∧ Models s' c' a' ∧ PRuns a ops rs a' := by
  induction ops with
  | nil => exact fun h ha => meets_pure ⟨_, _, _, h, ha, .nil _⟩
  | cons op ops ih =>
    intro s f c a h ha
    refine Meets.seq ((step_spec h op).mono (fun _ _ h => h) (fun _ he => he.mem)) ?_
    rintro r s1 ⟨f1, c1, hst⟩
    obtain ⟨a1, hp, ha1⟩ := hst.sim a ha
    refine Meets.seq (ih hst.inv ha1) ?_
    rintro rs s2 ⟨f2, c2, a2, h2, ha2, hps⟩
    exact meets_pure ⟨f2, c2, a2, h2, ha2, .cons hp hps⟩

/-- Every run from reset. -/
theorem run_spec (L : Layout) (mem : Nat → Page) (ops : List Op) :
    Meets (· ∈ runPanics) (run L ops) (Sys.atReset mem) fun rs s =>
      ∃ f c a, SysInv L none f c s ∧ Models s c a ∧ PRuns (fun _ => .empty) ops rs a := by
  refine Meets.seq (kinit_inv mem).meets ?_
  rintro _ s ⟨h, hp⟩
  refine runOps_spec ops h fun j => ⟨by rw [hp]; rfl, fun va => ?_⟩
  rw [Space.byte_empty]
  unfold ubyte
  split
  · exact (pageByte_zeroPage _).symm
  · rfl

end Xv6
