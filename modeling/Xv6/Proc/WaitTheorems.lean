/-
Xv6.Proc.WaitTheorems — exit statuses are handed over exactly once.

§1 the steps of `kwait`, §2 any step, §3 the ledger of exits and what holds in
every run.
-/
import Xv6.Proc.ExitTheorems

namespace Xv6.Wait

open Xv6.Lib Function
open Xv6.Vm (nproc)

variable {s s' : State} {p q i j np : Fin nproc} {c c' : Pc} {x : Proc} {addr k : Nat}
  {status : Int} {bad : Prop}

/-! ## §1 `kwait` -/

theorem waitReturn_inv (h : Inv s) (hp : s.pc p = c) (hc : c.holds = true)
    (hne : ∀ status k j, c ≠ .wakeInit status k j) {e : Event} : Inv (waitReturn p e s) := by
  have hat := h.at_pc hp
  have hl := hat.lock.mp hc
  have h1 : Inv ({ s with lock := none }.goto p .user) := by
    refine h.moveTo (fun q hq => ?_) (by simp) ?_ (by simp [Pc.child]) (by simp [Pc.exits])
      (Inv.not_waking hp hne)
    · simp [hl, Ne.symm hq]
    · refine .plain ?_ (by simp) rfl (by simp) rfl
      have hrun := (Pc.fits_of_holds hc).mp hat.fits
      simp [Pc.fits, hrun]
  exact h1.congr rfl rfl rfl rfl

/-- A zombie is freed after the lock. -/
theorem reap_inv (h : Inv s) (hl : s.lock = none) (hz : (s.procs i).state = .zombie) :
    Inv (s.setProc i (s.procs i).freed) := by
  have hpc : s.pc i = .dead := by
    have hfits := (h.places i).fits
    cases hc : s.pc i <;> simp_all [Pc.fits]
  have hself : ((s.setProc i (s.procs i).freed).procs i).state = .unused ∧
      ((s.setProc i (s.procs i).freed).procs i).parent = none := by
    simp [Proc.freed]
  have hne : ∀ j, ((s.setProc i (s.procs i).freed).procs j).state ≠ .unused → j ≠ i := by
    rintro j hj rfl
    exact hj hself.1
  have halive : ∀ j, (s.procs j).alive → j ≠ i := by
    rintro j hj rfl
    exact hj.not_zombie hz
  refine h.step (p := i) rfl (fun _ _ => rfl) (fun q hq => ?_) ?_ (fun _ hm => .inr hm) ?_
    ⟨fun a b hab => ?_, fun a ha => ?_, fun a ha hx => ?_, ?_⟩ fun a q hd haq hza => ?_
  · refine ⟨.inl (by rw [State.setProc_ne hq]), by rw [State.setProc_ne hq], Iff.rfl,
      fun m hm => ?_, fun hx => by simp [hl] at hx⟩
    have e : m ≠ i := by
      rintro rfl
      simp [(h.places q).child m hm] at hz
    rw [State.setProc_ne e]
    exact ⟨rfl, rfl⟩
  · rw [State.setProc_pc, hpc]
    exact .plain (.inr hself.1) (by simp [hl]) rfl (by simp) rfl
  · rintro rfl
    exact absurd rfl (halive _ h.tree.alive)
  · have e : a ≠ i := by
      rintro rfl
      rw [hself.2] at hab
      cases hab
    rw [State.setProc_ne e] at hab
    have hb := h.tree.parent a b hab
    rwa [State.setProc_ne (halive b hb)]
  · by_cases e : a = i
    · rw [e, hself.2]
    · rw [State.setProc_ne e] at ha ⊢
      exact h.tree.orphan a ha
  · have e := hne a (hx.elim (fun hx => hx.not_unused) fun hx => by simp [hx])
    rw [State.setProc_ne e] at hx ⊢
    exact h.tree.family a ha hx
  · have hinit := h.tree.alive
    exact (State.setProc_ne (halive _ hinit)).symm ▸ hinit
  · have e := hne a (by simp [hza])
    have e' := hne q (by simp [hd.2])
    rw [State.setProc_ne e] at haq hza
    exact h.wakes a q ⟨hd.1, State.setProc_ne e' ▸ hd.2⟩ haq hza

/-- What is left when zombie `i` is freed. -/
theorem left_freed : (s.setProc i (s.procs i).freed).left = update s.left i none := by
  funext q
  by_cases e : q = i
  · subst e
    simp [State.left, Proc.freed]
  · rw [update_of_ne e]
    simp [State.left, State.setProc_ne e]

theorem scan_step (h : Inv s) {havekids ok : Bool} (hp : s.pc p = .scan addr k havekids)
    (hbad : ok = false → bad) :
    Inv (scanStep p addr k havekids ok s) ∧ Effect bad s (scanStep p addr k havekids ok s) := by
  have hknows := (h.at_pc hp).knows
  have hreturn : ∀ e, Inv (waitReturn p e s) := fun e => waitReturn_inv h hp rfl (by simp)
  unfold scanStep
  cases hk : slot k with
  | none =>
    have hall := slot_none hk
    dsimp only
    split
    · exact ⟨h.goto_held hp rfl rfl (fun i hi => (hknows i (hall i) hi).1) rfl
        (Inv.not_waking hp (by simp)), .none rfl rfl⟩
    · rename_i hkids
      exact ⟨hreturn _, .failed p rfl rfl (.inl fun i hi => hkids (hknows i (hall i) hi).2)⟩
  | some i =>
    have hki := slot_some hk
    have hlt : ∀ m : Fin nproc, m.val < k + 1 → m ≠ i → m.val < k := by
      intro m hm e
      omega
    dsimp only
    split
    · rename_i hpar
      split
      · rename_i hz
        split
        · rename_i hfail
          exact ⟨hreturn _, .failed p rfl rfl
            (.inr (.inr ⟨hbad (by simpa using hfail.2), i, hpar, hz⟩))⟩
        · refine ⟨reap_inv (hreturn _) rfl hz, .waited p i _ _ _ rfl ⟨addr, k, havekids, hp, rfl⟩
            hpar ?_
            left_freed⟩
          simp [State.left, hz]
      · rename_i hz
        refine ⟨h.goto_held hp rfl rfl (fun m hm hmp => ⟨?_, rfl⟩) rfl
          (Inv.not_waking hp (by simp)), .none rfl rfl⟩
        by_cases e : m = i
        · exact e ▸ hz
        · exact (hknows m (hlt m hm e) hmp).1
    · rename_i hpar
      refine ⟨h.goto_held hp rfl rfl (fun m hm hmp => ?_) rfl (Inv.not_waking hp (by simp)),
        .none rfl rfl⟩
      by_cases e : m = i
      · exact absurd (e ▸ hmp) hpar
      · exact hknows m (hlt m hm e) hmp

theorem check_step (h : Inv s) (hp : s.pc p = .check addr) :
    Inv (checkStep p addr s) ∧ Effect bad s (checkStep p addr s) := by
  unfold checkStep
  split
  · rename_i hkilled
    exact ⟨waitReturn_inv h hp rfl (by simp), .failed p rfl rfl (.inr (.inl hkilled))⟩
  · exact ⟨h.goto_held hp rfl rfl (h.at_pc hp).knows rfl (Inv.not_waking hp (by simp)),
      .none rfl rfl⟩

theorem sleep_step (h : Inv s) (hp : s.pc p = .sleep addr) :
    Inv (sleepStep p addr s) ∧ Effect bad s (sleepStep p addr s) := by
  have hat := h.at_pc hp
  have hl : s.lock = some p := hat.lock.mp rfl
  have hrun : (s.procs p).state = .running := hat.fits
  have hprocs : ∀ q, q ≠ p → (sleepStep p addr s).procs q = s.procs q := fun q hq =>
    State.setProc_ne hq
  have hself : ((sleepStep p addr s).procs p).state = .sleeping ∧
      ((sleepStep p addr s).procs p).parent = (s.procs p).parent := by
    simp [sleepStep]
  have hpc : (sleepStep p addr s).pc p = .asleep addr := State.goto_self
  have hparent : ∀ q, ((sleepStep p addr s).procs q).parent = (s.procs q).parent :=
    State.setProc_parent rfl
  have halive : ∀ q, ((sleepStep p addr s).procs q).alive ↔ (s.procs q).alive := by
    intro q
    by_cases e : q = p
    · simp [e, Proc.alive, hself.1, hrun]
    · rw [hprocs q e]
  have hstate : ∀ q t, t ≠ .sleeping → ((sleepStep p addr s).procs q).state = t →
      (s.procs q).state = t := by
    intro q t ht hq
    by_cases e : q = p
    · rw [e, hself.1] at hq
      exact absurd hq.symm ht
    · rwa [hprocs q e] at hq
  constructor
  · refine h.step (p := p) rfl (fun q hq => State.goto_ne hq) (fun q hq => ?_) ?_
      (by simp [hpc, Pc.child]) (by simp [hpc, Pc.exits])
      ⟨fun i j hij => ?_, fun i hu => ?_, fun i hi hx => ?_, (halive _).mpr h.tree.alive⟩
      fun i q hd hiq hz => ?_
    · refine .other hprocs hq (by simp [sleepStep, hl, Ne.symm hq]) (h.child_ne (by simp [hrun]))
        fun hx => ?_
      rw [hl, Option.some.injEq] at hx
      exact absurd hx.symm hq
    · rw [hpc]
      refine ⟨.inl hself.1, by simp [Pc.holds, sleepStep], fun _ _ => ?_, by simp [Pc.child],
        by simp, by simp, trivial⟩
      simp [sleepStep]
    · rw [hparent] at hij
      exact (halive j).mpr (h.tree.parent i j hij)
    · rw [hparent]
      exact h.tree.orphan i (hstate i _ (by simp) hu)
    · rw [hparent]
      exact h.tree.family i hi (hx.imp (halive i).mp (hstate i _ (by simp)))
    · rw [hparent] at hiq
      have hz' := hstate i _ (by simp) hz
      by_cases e : q = p
      · exact absurd hz' (hat.knows i (e ▸ hiq))
      · obtain ⟨⟨a, ha⟩, hs⟩ := hd
        have hd' : s.dozes q := ⟨⟨a, (State.goto_ne e).symm.trans ha⟩, hprocs q e ▸ hs⟩
        exact absurd (h.wakes i q hd' hiq hz').2 (h.no_waking hp rfl (by simp))
  · exact .none rfl (left_setProc (by simp [hrun]) (by simp))

/-! ## §2 Steps -/

theorem kill_step (h : Inv s) {pid pid' : Int} (hp : s.pc p = .kill pid' k)
    (hrun : (s.procs p).state = .running) :
    Inv (killStep p pid k s) ∧ Effect bad s (killStep p pid k s) := by
  unfold killStep
  cases hk : slot k with
  | none =>
    exact ⟨h.goto_plain hp hrun rfl rfl (by simp [Pc.fits]) (by simp) rfl (by simp [Pc.exits]),
      .none rfl rfl⟩
  | some i =>
    dsimp only
    split
    · have h1 : Inv { s.setProc i (s.procs i).kill with blamed := update s.blamed i true } :=
        (h.soft Soft.kill).congr rfl rfl rfl rfl
      refine ⟨h1.goto_plain hp ?_ rfl rfl (by simp [Pc.fits]) (by simp) rfl (by simp [Pc.exits]),
        .none rfl (left_soft (s := s) Soft.kill)⟩
      exact ((soft_setProc Soft.kill p).kept (by simp) (by simp)).mpr hrun
    · exact ⟨h.goto_plain hp hrun rfl rfl (by simp [Pc.fits]) (by simp) rfl (by simp [Pc.exits]),
        .none rfl rfl⟩

theorem pcStep_spec (h : Inv s) (hrun : (s.procs p).state = .running) (ok : Bool)
    (hbad : ok = false → bad) : Inv (pcStep p ok s) ∧ Effect bad s (pcStep p ok s) := by
  unfold pcStep
  cases hp : s.pc p with
  | alloc k => exact alloc_step h hp hrun ok
  | adopt np =>
    dsimp only
    split
    · exact adopt_step h hp hrun ‹_›
    · exact ⟨h, .none rfl rfl⟩
  | start np => exact start_step h hp hrun
  | exit status =>
    exact ⟨h.acquire hp hrun rfl rfl (fun i hi => absurd hi (Nat.not_lt_zero _)) rfl,
      acquire_effect⟩
  | reparent status k => exact reparent_step h hp
  | wakeInit status k j => exact wakeInit_step h hp
  | wakeParent status o j => exact wakeParent_step h hp
  | mark status => exact mark_step h hp
  | wait addr =>
    exact ⟨h.acquire hp hrun rfl rfl (fun i hi => absurd hi (Nat.not_lt_zero _)) rfl,
      acquire_effect⟩
  | scan addr k havekids => exact scan_step h hp hbad
  | check addr => exact check_step h hp
  | sleep addr => exact sleep_step h hp
  | kill pid k => exact kill_step h hp hrun
  | _ => exact ⟨h, .none rfl rfl⟩

theorem enter_step (h : Inv s) (hin : s.inUser p) (hc : c.holds = false) (hfits : c.fits .running)
    (hchan : ∀ addr, c ≠ .asleep addr) (hchild : c.child = none)
    (hexits : p = s.initproc → c.exits = false) :
    Inv (s.goto p c) ∧ Effect bad s (s.goto p c) :=
  ⟨h.goto_plain hin.2 hin.1 rfl hc hfits hchan hchild hexits, .none rfl rfl⟩

/-- The step fails to copy or to allocate. -/
def Act.fails : Act → Bool
  | .step _ ok => !ok
  | _ => false

/-- A process that runs again. -/
theorem resume_spec (bad : Prop) (h : Inv s) (hr : (s.procs p).state = .runnable) :
    Total (resume p s) s fun s1 _ => Inv s1 ∧ Effect bad s s1 := by
  have hold : (s.pc p).holds = false := by
    have hfits := (h.places p).fits
    cases hc : s.pc p <;> simp_all [Pc.fits, Pc.holds]
  have halive : (s.procs p).alive := .inr (.inl hr)
  have hleft : ∀ x : Proc, x.state = .running → (s.setProc p x).left = s.left := fun x hx =>
    left_setProc (by simp [hr]) (by simp [hx])
  -- at any other place the process goes on where it was
  have hsame : ∀ c, s.pc p = c → (∀ addr, c ≠ .asleep addr) → c.fits .running → Inv (s.setProc p
      { s.procs p with state := .running }) := by
    intro c hc hchan hfits
    have h1 := h.turn (p := p) (c := s.pc p) (x := { s.procs p with state := .running })
      (.inr (.inr rfl)) rfl halive (hc ▸ hchan) (hc ▸ hfits) hold hold (.inr rfl)
      (fun e => e ▸ h.init)
    rwa [show (s.setProc p { s.procs p with state := .running }).goto p (s.pc p) =
      s.setProc p { s.procs p with state := .running } from State.goto_same] at h1
  have hfits := (h.places p).fits
  rw [hr] at hfits
  unfold resume
  cases hc : s.pc p with
  | asleep addr =>
    refine meets_pure ⟨h.turn (.inr (.inr rfl)) rfl halive (by simp) (.inl rfl) hold rfl (.inl rfl)
      (by simp [Pc.exits]), .none rfl (hleft _ rfl)⟩
  | blocked =>
    refine meets_pure ⟨h.turn (.inr (.inr rfl)) rfl halive (by simp) (by simp [Pc.fits]) hold rfl
      (.inl rfl) (by simp [Pc.exits]), .none rfl (hleft _ rfl)⟩
  | dead => simp [hc, Pc.fits] at hfits
  | _ =>
    refine meets_pure ⟨hsame _ hc (by simp) ?_, .none rfl (hleft _ rfl)⟩
    simp_all [Pc.fits]

theorem act_spec (h : Inv s) (a : Act) :
    Meets (· = .initExiting) (act a) s fun _ s' => Inv s' ∧ Effect (a.fails = true) s s' := by
  have hsame : Inv s ∧ Effect (a.fails = true) s s := ⟨h, .none rfl rfl⟩
  cases a with
  | fork p | wait p addr | kill p pid =>
    refine meets_modify_ite (fun hin => ?_) fun _ => hsame
    exact enter_step h hin rfl (.inl rfl) (by simp) rfl (by simp [Pc.exits])
  | exit p status =>
    refine meets_read (meets_ite (fun hin => meets_ite (fun _ => meets_throw rfl)
      (fun hne => meets_set ?_)) (fun _ => meets_pure hsame))
    exact enter_step h hin rfl (.inl rfl) (by simp) rfl (fun e => absurd e hne)
  | step p ok =>
    exact meets_modify_ite (fun hrun => pcStep_spec h hrun ok (by simp [Act.fails])) fun _ => hsame
  | run p =>
    refine meets_read (meets_ite (fun hr => ?_) (fun _ => meets_pure hsame))
    refine Meets.seq (resume_spec ((Act.run p).fails = true) h hr).meets ?_
    rintro s1 s' hs
    exact meets_set hs
  | yield p =>
    refine meets_modify_ite (fun hrun => ?_) fun _ => hsame
    have hfits := (h.places p).fits
    rw [hrun.1] at hfits
    have h1 := h.turn (p := p) (c := s.pc p) (x := (s.procs p).makeRunnable) (.inr (.inl rfl)) rfl
      (.inr (.inr hrun.1)) ?_ ?_ (by simpa using hrun.2) (by simpa using hrun.2) (.inr rfl)
      (fun e => e ▸ h.init)
    · rw [show (s.setProc p (s.procs p).makeRunnable).goto p (s.pc p) =
        s.setProc p (s.procs p).makeRunnable from State.goto_same] at h1
      exact ⟨h1, .none rfl (left_setProc (by simp [hrun.1]) (by simp [Proc.makeRunnable]))⟩
    · intro addr hc
      simp [hc, Pc.fits] at hfits
    · cases hc : s.pc p <;> simp_all [Pc.fits, Pc.holds, Proc.makeRunnable]
  | block p a =>
    refine meets_modify_ite (fun hin => ?_) fun _ => hsame
    exact ⟨h.turn (.inl rfl) rfl (.inr (.inr hin.1)) (by simp) (.inl rfl) (by rw [hin.2]; rfl) rfl
      (.inl rfl) (by simp [Pc.exits]), .none rfl (left_setProc (by simp [hin.1]) (by simp))⟩
  | wake i a => exact meets_modify ⟨h.soft .wakeup, .none rfl (left_soft .wakeup)⟩
  | fault p =>
    refine meets_modify_ite (fun _ => ?_) fun _ => hsame
    have hsoft : Soft (s.procs p) { s.procs p with killed := true } :=
      ⟨.inl rfl, rfl, rfl, rfl, rfl⟩
    exact ⟨(h.soft hsoft).congr rfl rfl rfl rfl, .none rfl (left_soft (s := s) hsoft)⟩

/-! ## §3 Statuses and runs -/

/-- `kwait` has returned this pid and status. -/
def Event.delivers (pid : Nat) (xstate : Int) : Event → Bool
  | .waited _ pid' xstate' _ => pid' = pid ∧ xstate' = xstate
  | _ => false

/-- Every exit is delivered, or its zombie is still there. -/
def Ledger (s : State) : Prop :=
  ∀ pid xstate, s.trace.count (.exited pid xstate) =
    s.trace.countP (Event.delivers pid xstate) + refs s.left (pid, xstate)

theorem Ledger.step (h : Ledger s) (he : Effect bad s s') : Ledger s' := by
  intro pid xstate
  have hold := h pid xstate
  cases he with
  | none ht hl => rw [ht, hl, hold]
  | failed q ht hl _ =>
    rw [ht, hl, List.count_append, List.countP_append, hold]
    simp [Event.delivers]
  | exited p pid' status ht hf hl =>
    rw [ht, hl, refs_update_some hf, List.count_append, List.countP_append, hold]
    simp only [List.count_singleton, List.countP_singleton, Event.delivers, Prod.mk.injEq,
      beq_iff_eq, Event.exited.injEq]
    by_cases e : pid' = pid ∧ status = xstate
    · obtain ⟨rfl, rfl⟩ := e
      simp
      omega
    · rw [if_neg e, if_neg fun hx => e ⟨hx.1.symm, hx.2.symm⟩]
      simp
  | waited q i pid' xstate' stored ht _ _ hw hl =>
    have hrefs := refs_update_none hw (pid, xstate)
    rw [ht, hl, List.count_append, List.countP_append, hold, ← hrefs]
    simp only [List.count_singleton, List.countP_singleton, Event.delivers, Prod.mk.injEq]
    by_cases e : pid' = pid ∧ xstate' = xstate
    · obtain ⟨rfl, rfl⟩ := e
      simp
      omega
    · rw [if_neg fun hx => e ⟨hx.1.symm, hx.2.symm⟩]
      simp [e]

theorem run_spec (acts : List Act) (h : Inv s) (hl : Ledger s) :
    Meets (· = .initExiting) (run acts) s fun _ s' => Inv s' ∧ Ledger s' := by
  induction acts generalizing s with
  | nil => exact meets_pure ⟨h, hl⟩
  | cons a as ih =>
    refine Meets.seq (act_spec h a) ?_
    rintro - s1 ⟨h1, he⟩
    exact ih h1 (hl.step he)

/-- At the start there is init, and nobody else. -/
theorem start_slot (i : Fin nproc) :
    i = first ∧ start.procs i =
        { Proc.empty with pid := 1, priority := defaultPriority, state := .runnable } ∨
      i ≠ first ∧ start.procs i = Proc.empty := by
  by_cases e : i = first
  · subst e
    exact .inl ⟨rfl, rfl⟩
  · exact .inr ⟨e, by simp [start, e]⟩

theorem start_inv : Inv start := by
  have hpar : ∀ i, (start.procs i).parent = none := by
    intro i
    rcases start_slot i with ⟨-, e⟩ | ⟨-, e⟩ <;> simp [e, Proc.empty]
  refine ⟨fun p => .plain ?_ (by simp [start]) rfl (by simp [start]) rfl, nofun, ⟨?_, ?_, ?_, ?_⟩,
    rfl, ?_⟩
  · show (start.procs p).state ≠ _ ∧ (start.procs p).state ≠ _
    rcases start_slot p with ⟨-, e⟩ | ⟨-, e⟩ <;> simp [e, Proc.empty]
  · intro i j hij
    rw [hpar i] at hij
    cases hij
  · exact fun i _ => hpar i
  · intro i hi hx
    rcases start_slot i with ⟨e, -⟩ | ⟨-, e⟩
    · exact absurd e hi
    · simp [e, Proc.alive, Proc.empty] at hx
  · exact .inr (.inl rfl)
  · intro i q _ hiq
    rw [hpar i] at hiq
    cases hiq

theorem start_ledger : Ledger start := by
  intro pid xstate
  rfl

/-- The protocol of `kexit` and `kwait`: parents are there, statuses are
delivered once, `kwait` fails only with a reason, and no parent sleeps over a
zombie. -/
theorem exit_wait_protocol (acts : List Act) :
    Meets (· = .initExiting) (run acts) start fun _ s =>
      (s.lock = none → ∀ i, i ≠ s.initproc → (s.procs i).alive ∨ (s.procs i).state = .zombie →
        ∃ j, (s.procs i).parent = some j ∧ (s.procs j).state ≠ .unused ∧
          (s.procs j).state ≠ .zombie) ∧
      (s.lock = none → ∀ i q, (s.procs i).state = .zombie → (s.procs i).parent = some q →
        ¬ s.dozes q) ∧
      Ledger s ∧
      ∀ a, Meets (· = .initExiting) (act a) s fun _ s' =>
        (∀ i pid xstate, s.left i = some (pid, xstate) → s'.left i = some (pid, xstate) ∨
          ∃ q addr k havekids, (s.procs i).parent = some q ∧ s.pc q = .scan addr k havekids ∧
            s'.trace = s.trace ++ [.waited q pid xstate (addr ≠ 0)]) ∧
        ∀ q, s'.trace = s.trace ++ [.failed q] →
          s'.left = s.left ∧ s.mayFail q (a.fails = true) := by
  refine (run_spec acts start_inv start_ledger).imp ?_
  rintro - s ⟨h, hl⟩
  refine ⟨fun _ i hi hx => ?_, fun hfree i q hz hiq hd => ?_, hl, fun a => ?_⟩
  · obtain ⟨j, hj⟩ := Option.ne_none_iff_exists'.mp (h.tree.family i hi hx)
    have ha := h.tree.parent i j hj
    exact ⟨j, hj, ha.not_unused, ha.not_zombie⟩
  · obtain ⟨-, r, status, k, j, hr, -⟩ := h.wakes i q hd hiq hz
    rw [(h.at_pc hr).lock.mp rfl] at hfree
    cases hfree
  · refine (act_spec h a).imp ?_
    rintro - s' ⟨-, he⟩
    cases he with
    | none ht hl' =>
      refine ⟨fun i pid x hx => .inl (hl' ▸ hx), fun q hq => ?_⟩
      simp [ht] at hq
    | failed q ht hl' hwhy =>
      refine ⟨fun i pid x hx => .inl (hl' ▸ hx), fun q' hq => ⟨hl', ?_⟩⟩
      simp only [ht, List.append_cancel_left_eq, List.cons.injEq, Event.failed.injEq, and_true]
        at hq
      exact hq ▸ hwhy
    | exited p pid status ht hf hl' =>
      refine ⟨fun i pid' x hx => .inl ?_, fun q hq => ?_⟩
      · have e : i ≠ p := by
          rintro rfl
          rw [hf] at hx
          cases hx
        rw [hl', update_of_ne e, hx]
      · simp [ht] at hq
    | waited q i pid xstate stored ht hcall hpar hw hl' =>
      refine ⟨fun m pid' x hx => ?_, fun q' hq => ?_⟩
      · by_cases e : m = i
        · subst e
          rw [hw, Option.some.injEq, Prod.mk.injEq] at hx
          obtain ⟨addr, k, havekids, hpc, rfl⟩ := hcall
          refine .inr ⟨q, addr, k, havekids, hpar, hpc, ?_⟩
          rw [ht, hx.1, hx.2]
        · exact .inl (by rw [hl', update_of_ne e, hx])
      · simp [ht] at hq

end Xv6.Wait
