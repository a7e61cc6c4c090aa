/-
Xv6.Sched.AgingTheorems — the waiting time that `scheduler()` uses.

§1 says what one step of the machine does, §2 what follows for the stamps, and
§3 when the stamp of the first scan counts for the whole waiting period.
-/
import Xv6.Proc.KillTheorems
import Xv6.Sched.Round

namespace Xv6.Sched

open Xv6.Lib Function
open Xv6.Vm (nproc)
open Xv6.Wait (slot first second slot_some Moved Moves Ran Soft)

variable {n : Nat} {s s' : State n} {c : Fin n} {i p : Fin nproc} {x y : Proc} {t : Nat} {a : Act n}

/-! ## §1 Steps -/

/-- The snapshot of the round that a CPU is in. -/
def Cpu.snapshot : Cpu → Option Nat
  | .top | .idle => none
  | .scan now _ _ _ | .runs now _ _ => some now

/-- CPU `c` is about to look at process `i`, which is RUNNABLE. -/
structure Scans (s : State n) (c : Fin n) (now : Nat) (level : Int) (i : Fin nproc)
    (found : Bool) : Prop where
  place : s.cpu c = .scan now level i found
  runnable : (s.procs i).state = .runnable

theorem Scans.snapshot {now : Nat} {level : Int} {found : Bool} (h : Scans s c now level i found) :
    (s.cpu c).snapshot = some now := by
  rw [h.place]
  rfl

/-- `c->proc`. -/
def Cpu.proc : Cpu → Option (Fin nproc)
  | .runs _ _ p => some p
  | _ => none

/-- Where `scheduler()` goes on if it neither stamps nor runs a process. -/
inductive Cpu.Next (s : State n) : Cpu → Cpu → Prop where
  | begins : Next s .top (.scan s.ticks priorityMin 0 false)
  | skips {now : Nat} {level : Int} {i : Fin nproc} {found : Bool}
      (idle : (s.procs i).state ≠ .runnable) :
      Next s (.scan now level i found) (.scan now level (i + 1) found)
  | ends {now : Nat} {level : Int} {k : Nat} (last : ∀ i : Fin nproc, i < k) :
      Next s (.scan now level k true) .top
  | lowers {now : Nat} {level : Int} {k : Nat} (last : ∀ i : Fin nproc, i < k)
      (lower : level < priorityMax) :
      Next s (.scan now level k false) (.scan now (level + 1) 0 false)
  | rests {now : Nat} {level : Int} {k : Nat} (last : ∀ i : Fin nproc, i < k)
      (lowest : ¬ level < priorityMax) : Next s (.scan now level k false) .idle
  | wakes : Next s .idle .top

/-- What a step does. -/
inductive Step (a : Act n) (s s' : State n) : Prop where
  | tick (eq : s' = { s with ticks := (s.ticks + 1) % 2 ^ 32 })
  | place (c : Fin n) (x : Cpu) (next : (s.cpu c).Next s x) (eq : s' = s.setCpu c x)
  | passed (c : Fin n) (now : Nat) (level : Int) (i : Fin nproc) (found : Bool)
      (act : a = .sched c) (atSlot : Scans s c now level i found)
      (other : effectivePriority now (stamp now (s.procs i)) ≠ level)
      (eq : s' = ((s.setBase (s.base.setProc i (stamp now (s.procs i)))).setCpu c
        (.scan now level (i + 1) found)).setSince i (some ((s.since i).getD now)))
  | dispatched (c : Fin n) (now : Nat) (level : Int) (i : Fin nproc) (found : Bool)
      (atSlot : Scans s c now level i found)
      (same : effectivePriority now (stamp now (s.procs i)) = level) (b : Wait.State)
      (ran : Ran i (s.base.setProc i (stamp now (s.procs i))) b)
      (eq : s' = ((s.setBase b).setCpu c (.runs now level i)).setSince i none)
  -- the process that makes the step goes on running
  | moves (a : Wait.Act) (run : ∀ p, a ≠ .run p)
      (actor : ∀ p, a.actor = some p → ∃ c, (s.cpu c).proc = some p) (b : Wait.State)
      (moves : Moves a True s.base b)
      (goes : ∀ p, a.actor = some p → (b.procs p).state = .running) (eq : s' = s.setBase b)
  | leaves (c : Fin n) (now : Nat) (level : Int) (p : Fin nproc)
      (atSlot : s.cpu c = .runs now level p) (a : Wait.Act) (run : ∀ q, a ≠ .run q)
      (actor : a.actor = some p) (b : Wait.State) (moves : Moves a True s.base b)
      (stops : (b.procs p).state ≠ .running)
      (eq : s' = (s.setBase b).setCpu c (.scan now level (p + 1) true))
  | priority (c : Fin n) (p : Fin nproc) (v : Int) (atSlot : (s.cpu c).proc = some p)
      (eq : s' = s.setBase (s.base.setProc p { s.procs p with priority := v }))
  | none (eq : s' = s)

theorem stamp_state : (stamp t x).state = x.state := by
  unfold stamp
  split <;> rfl

theorem soft_stamp : Soft x (stamp t x) := by
  unfold stamp
  split
  · exact ⟨.inl rfl, rfl, rfl, rfl, rfl⟩
  · exact .refl x

theorem scanSlot_step (h : Wait.Inv s.base) {now : Nat} {level : Int} {found : Bool}
    (hc : s.cpu c = .scan now level i found) :
    Total (scanSlot c now level i found) s fun _ s' => Wait.Inv s'.base ∧ Step (.sched c) s s' := by
  refine meets_read (meets_ite (fun hr => ?_) (fun hr => meets_set ⟨h, ?_⟩))
  · have h1 : Wait.Inv (s.base.setProc i (stamp now (s.procs i))) := h.soft soft_stamp
    refine Meets.bind (meets_set (meets_ite (fun hl => ?_) (fun hl => meets_modify ⟨h1, ?_⟩)))
    · have hrun : ((s.base.setProc i (stamp now (s.procs i))).procs i).state = .runnable := by
        rw [Wait.State.setProc_self, stamp_state, hr]
      refine meets_focus_seq (Wait.run_ran h1 hrun) ?_
      rintro - b ⟨hb, hran⟩
      exact meets_modify ⟨hb, .dispatched c now level i found ⟨hc, hr⟩ hl b hran rfl⟩
    · exact .passed c now level i found rfl ⟨hc, hr⟩ hl rfl
  · exact .place c _ (hc ▸ .skips hr) rfl

theorem schedStep_step (h : Wait.Inv s.base) (c : Fin n) :
    Total (schedStep c) s fun _ s' => Wait.Inv s'.base ∧ Step (.sched c) s s' := by
  refine meets_read ?_
  cases hc : s.cpu c with
  | top => exact meets_set ⟨h, .place c _ (hc ▸ .begins) rfl⟩
  | scan now level k found =>
    dsimp only
    cases hk : slot k with
    | some i => exact scanSlot_step h (slot_some hk ▸ hc)
    | none =>
      have hlast := Wait.slot_none hk
      refine meets_ite (fun hf => meets_set ⟨h, .place c _ ?_ rfl⟩) fun hf =>
        meets_ite (fun hl => meets_set ⟨h, .place c _ ?_ rfl⟩) fun hl =>
          meets_set ⟨h, .place c _ ?_ rfl⟩
      all_goals rw [hc]; cases found
      exacts [absurd hf nofun, .ends hlast, .lowers hlast hl, absurd rfl hf, .rests hlast hl,
        absurd rfl hf]
  | runs now level p => exact meets_pure ⟨h, .none rfl⟩
  | idle => exact meets_set ⟨h, .place c _ (hc ▸ .wakes) rfl⟩

theorem procStep_step (h : Wait.Inv s.base) (c : Fin n) (a : Wait.Act) :
    Meets (· = .initExiting) (procStep c a) s fun _ s' =>
      Wait.Inv s'.base ∧ Step (.proc c a) s s' := by
  refine meets_read ?_
  cases hc : s.cpu c with
  | runs now level p =>
    refine meets_ite (fun ha => ?_) (fun _ => meets_pure ⟨h, .none rfl⟩)
    have hrun : ∀ q, a ≠ .run q := by
      rintro q rfl
      cases ha
    refine meets_focus_seq ((Wait.act_spec h a).and (Wait.act_moves h a
      fun _ _ _ _ _ _ _ _ _ => trivial)) ?_
    rintro - b ⟨⟨hb, -⟩, hm⟩
    refine meets_modify ?_
    split
    · rename_i hgo
      refine ⟨hb, .moves a hrun (fun q hq => ⟨c, ?_⟩) b hm (fun q hq => ?_) rfl⟩
      · rw [hc, ← hq, ha]
        rfl
      · rw [ha] at hq
        cases hq
        exact hgo
    · exact ⟨hb, .leaves c now level p hc a hrun ha b hm ‹_› rfl⟩
  | _ => exact meets_pure ⟨h, .none rfl⟩

theorem setPriority_step (h : Wait.Inv s.base) (c : Fin n) (v : Int) :
    Total (setPriority c v) s fun _ s' => Wait.Inv s'.base ∧ Step (.setPriority c v) s s' := by
  refine meets_modify ?_
  cases hc : s.cpu c with
  | runs now level p =>
    dsimp only
    split
    · exact ⟨h, .none rfl⟩
    · exact ⟨h.soft ⟨.inl rfl, rfl, rfl, rfl, rfl⟩, .priority c p v (by rw [hc]; rfl) rfl⟩
  | _ => exact ⟨h, .none rfl⟩

theorem act_step (h : Wait.Inv s.base) (a : Act n) :
    Meets (· = .initExiting) (act a) s fun _ s' => Wait.Inv s'.base ∧ Step a s s' := by
  cases a with
  | tick => exact meets_modify ⟨h, .tick rfl⟩
  | sched c => exact (schedStep_step h c).meets
  | proc c a => exact procStep_step h c a
  | setPriority c v => exact (setPriority_step h c v).meets
  | wake i chan =>
    refine meets_focus (((Wait.act_spec h (.wake i chan)).and
      (Wait.act_moves h (.wake i chan) fun _ _ _ _ _ _ _ _ _ => trivial)).imp ?_)
    rintro - b ⟨⟨hb, -⟩, hm⟩
    exact ⟨hb, .moves (.wake i chan) nofun nofun b hm nofun rfl⟩

/-- What a step does to slot `i`. -/
inductive Seen (a : Act n) (s s' : State n) (i : Fin nproc) : Prop where
  -- it waits on
  | kept (since : s'.since i = s.since i) (was : (s.procs i).state = .runnable)
      (now : (s'.procs i).state = .runnable)
      (stamp : (s'.procs i).readySince = (s.procs i).readySince)
      (priority : (s'.procs i).priority = (s.procs i).priority ∨ ∃ c, (s.cpu c).proc = some i)
  -- it did not wait; perhaps it begins to
  | apart (since : s'.since i = s.since i) (was : (s.procs i).state ≠ .runnable)
      (now : (s'.procs i).state = .runnable → (s'.procs i).readySince = 0)
  | passed (c : Fin n) (now : Nat) (level : Int) (found : Bool)
      (scan : a = .sched c ∧ effectivePriority now (stamp now (s.procs i)) ≠ level)
      (atSlot : Scans s c now level i found) (since : s'.since i = some ((s.since i).getD now))
      (eq : s'.procs i = stamp now (s.procs i))
  | dispatched (since : s'.since i = none) (now : (s'.procs i).state = .running)

theorem Seen.of_runnable (hsince : s'.since i = s.since i)
    (hbegin : (s.procs i).state ≠ .runnable → (s'.procs i).state = .runnable →
      (s'.procs i).readySince = 0)
    (hwait : (s.procs i).state = .runnable → (s'.procs i).state = .runnable ∧
      (s'.procs i).readySince = (s.procs i).readySince ∧
      ((s'.procs i).priority = (s.procs i).priority ∨ ∃ c, (s.cpu c).proc = some i)) :
    Seen a s s' i := by
  by_cases hr : (s.procs i).state = .runnable
  · obtain ⟨hnow, hstamp, hprio⟩ := hwait hr
    exact .kept hsince hr hnow hstamp hprio
  · exact .apart hsince hr (hbegin hr)

theorem Step.seen (h : Step a s s') (i : Fin nproc) : Seen a s s' i := by
  have hsame : ∀ {s'}, s'.since i = s.since i → s'.procs i = s.procs i → Seen a s s' i :=
    fun hs e => .of_runnable hs (fun hno hr => absurd (e ▸ hr) hno) fun hr =>
      ⟨e ▸ hr, by rw [e], .inl (by rw [e])⟩
  cases h with
  | tick e | place c x hx e | none e =>
    subst e
    exact hsame rfl rfl
  | passed c now level j found ha hsc hne e =>
    subst e
    by_cases hj : i = j
    · subst hj
      exact .passed c now level found ⟨ha, hne⟩ hsc (update_self ..) (Wait.State.setProc_self ..)
    · exact hsame (update_of_ne hj ..) (Wait.State.setProc_ne hj)
  | dispatched c now level j found hsc hl b hran e =>
    subst e
    obtain ⟨⟨chan, hb⟩, -⟩ := hran
    by_cases hj : i = j
    · subst hj
      refine .dispatched (update_self ..) ?_
      show (b.procs i).state = .running
      rw [hb, update_self]
    · refine hsame (update_of_ne hj ..) ?_
      show b.procs i = _
      rw [hb, update_of_ne hj, Wait.State.setProc_ne hj]
      rfl
  | moves a hno _ b hm _ e | leaves c now level p hc a hno _ b hm hstop e =>
    subst e
    refine .of_runnable rfl (hm.slots i).begins fun hr => ?_
    obtain ⟨hr', hs, hp⟩ := (hm.slots i).waits (hno i) hr
    exact ⟨hr', hs, .inl hp⟩
  | priority c p v hc e =>
    subst e
    by_cases hp : i = p
    · subst hp
      refine .of_runnable rfl (fun hno hr => absurd ?_ hno) fun hr => ⟨?_, ?_, .inr ⟨c, hc⟩⟩
      · simpa [State.procs, State.setBase] using hr
      · simpa [State.procs, State.setBase] using hr
      · simp [State.procs, State.setBase]
    · exact hsame rfl (Wait.State.setProc_ne hp)

theorem Cpu.Next.snapshot {x y : Cpu} (h : x.Next s y) :
    y.snapshot = none ∨ y.snapshot = x.snapshot ∨ y.snapshot = some s.ticks := by
  cases h with
  | begins => exact .inr (.inr rfl)
  | skips | lowers => exact .inr (.inl rfl)
  | ends | rests | wakes => exact .inl rfl

theorem setCpu_snapshot {x : Cpu} {d : Fin n}
    (hx : x.snapshot = none ∨ x.snapshot = (s.cpu c).snapshot ∨ x.snapshot = some s.ticks)
    (ht : (update s.cpu c x d).snapshot = some t) :
    (s.cpu d).snapshot = some t ∨ t = s.ticks := by
  by_cases e : d = c
  · subst e
    rw [update_self] at ht
    rcases hx with hx | hx | hx
    · cases hx.symm.trans ht
    · exact .inl (hx ▸ ht)
    · exact .inr (Option.some.inj (hx.symm.trans ht)).symm
  · rw [update_of_ne e] at ht
    exact .inl ht

/-- Snapshots are taken from the clock. -/
theorem Step.snapshot (h : Step a s s') (ht : (s'.cpu c).snapshot = some t) :
    (s.cpu c).snapshot = some t ∨ t = s.ticks := by
  cases h with
  | tick e | moves a _ _ b hm _ e | priority d p v hd e | none e =>
    subst e
    exact .inl ht
  | place d x hx e =>
    subst e
    exact setCpu_snapshot hx.snapshot ht
  | passed d now level j found ha hsc hne e | dispatched d now level j found hsc hl b hran e =>
    subst e
    exact setCpu_snapshot (.inr (.inl (by rw [hsc.place]; rfl))) ht
  | leaves d now level p hc a _ _ b hm hstop e =>
    subst e
    exact setCpu_snapshot (.inr (.inl (by rw [hc]; rfl))) ht

/-! ## §2 Stamps -/

/-- What holds in every run: clocks and snapshots have 32 bits, only RUNNABLE
processes have been scanned, and those that have not been scanned have no
stamp. -/
structure Aged (s : State n) : Prop where
  inv : Wait.Inv s.base
  ticks : s.ticks < 2 ^ 32
  snapshot : ∀ c t, (s.cpu c).snapshot = some t → t < 2 ^ 32
  scanned : ∀ i f, s.since i = some f → (s.procs i).state = .runnable
  fresh : ∀ i, (s.procs i).state = .runnable → s.since i = none → (s.procs i).readySince = 0

/-- The stamps are those of the first scans. -/
def Kept (s : State n) : Prop := ∀ i f, s.since i = some f → (s.procs i).readySince = f

/-- A round whose snapshot is not 0 is about to scan a process that a round with
snapshot 0 has scanned before. -/
def Rescans (s : State n) : Prop :=
  ∃ c now level i found, Scans s c now level i found ∧ now ≠ 0 ∧ s.since i = some 0

/-- The first scan takes the snapshot, a later one finds a stamp. -/
theorem Kept.stamp (hk : Kept s) (h : Aged s) (hno : ¬ Rescans s) {now : Nat} {level : Int}
    {found : Bool} (hsc : Scans s c now level i found) :
    (stamp now (s.procs i)).readySince = (s.since i).getD now := by
  cases hs : s.since i with
  | none => simp [Sched.stamp, h.fresh i hsc.runnable hs]
  | some f =>
    have hf := hk i f hs
    unfold Sched.stamp
    split
    · rename_i hzero
      have hnow : now = 0 := by
        by_contra hnz
        exact hno ⟨c, now, level, i, found, hsc, hnz, by rw [hs, ← hf, hzero]⟩
      simp [hnow, ← hf, hzero]
    · exact hf

theorem Aged.next (h : Aged s) (hinv : Wait.Inv s'.base) (hst : Step a s s') :
    Aged s' ∧ (¬ Rescans s → Kept s → Kept s') := by
  refine ⟨⟨hinv, ?_, fun c t ht => ?_, fun i f hf => ?_, fun i hr hn => ?_⟩,
    fun hno hk i f hf => ?_⟩
  · cases hst with
    | tick e =>
      subst e
      exact Nat.mod_lt _ (by decide)
    | _ =>
      rename_i e
      subst e
      exact h.ticks
  · rcases hst.snapshot ht with hold | rfl
    · exact h.snapshot c t hold
    · exact h.ticks
  · cases hst.seen i with
    | kept _ _ hnow => exact hnow
    | apart hs hwas => exact absurd (h.scanned i f (hs ▸ hf)) hwas
    | passed c now level found _ hsc _ e => rw [e, stamp_state, hsc.runnable]
    | dispatched hs => cases hs.symm.trans hf
  · cases hst.seen i with
    | kept hs hwas _ e => exact e.trans (h.fresh i hwas (hs ▸ hn))
    | apart _ _ hnow => exact hnow hr
    | passed c now level found _ hsc hs => cases hs.symm.trans hn
    | dispatched _ hnow => cases hnow.symm.trans hr
  · cases hst.seen i with
    | kept hs _ _ e => exact e.trans (hk i f (hs ▸ hf))
    | apart hs hwas => exact absurd (h.scanned i f (hs ▸ hf)) hwas
    | dispatched hs => cases hs.symm.trans hf
    | passed c now level found _ hsc hs e =>
      cases hs.symm.trans hf
      rw [e]
      exact hk.stamp h hno hsc

/-! ## §3 Waiting times -/

/-- The stamp of the first scan is kept, and a scan of a RUNNABLE process that
has waited since the snapshot `f` computes `now - f`. -/
structure Exact (s : State n) : Prop where
  kept : Kept s
  waited : ∀ c now level i found, Scans s c now level i found →
    sub32 now (stamp now (s.procs i)).readySince = sub32 now ((s.since i).getD now)

theorem sub32_self : sub32 t t = 0 := by
  simp [sub32]

theorem sub32_zero (h : t < 2 ^ 32) : sub32 t 0 = t := by
  simp only [sub32]
  omega

/-- The waiting times of the next scans. -/
theorem Kept.exact (hk : Kept s) (h : Aged s) (hno : ¬ Rescans s) : Exact s := by
  refine ⟨hk, fun c now level i found hsc => ?_⟩
  rw [hk.stamp h hno hsc]

/-- A scan that takes the stamp 0 for no stamp computes a wrong time. -/
theorem Exact.not_rescans (he : Exact s) (h : Aged s) : ¬ Rescans s := by
  rintro ⟨c, now, level, i, found, hsc, hnz, hs⟩
  have hlt : now < 2 ^ 32 := h.snapshot c now hsc.snapshot
  have hw := he.waited c now level i found hsc
  have hstamp : (stamp now (s.procs i)).readySince = now := by simp [stamp, he.kept i 0 hs]
  rw [hstamp, sub32_self, hs, Option.getD_some, sub32_zero hlt] at hw
  exact hnz hw.symm

theorem start_aged : Aged (start n) := by
  refine ⟨Wait.start_inv, Nat.two_pow_pos 32, ?_, ?_, ?_⟩
  · rintro c t ⟨⟩
  · rintro i f ⟨⟩
  · intro i hr _
    rcases Wait.start_slot i with ⟨-, e⟩ | ⟨-, e⟩ <;> exact congrArg Proc.readySince e

theorem Aged.act (h : Aged s) {a : Act n} (ha : (act a).run s = .ok ((), s')) :
    Aged s' ∧ (¬ Rescans s → Kept s → Kept s') := by
  obtain ⟨hinv, hst⟩ := (act_step h.inv a).post ha
  exact h.next hinv hst

theorem ends_aged {acts : List (Act n)} (h : Ends Sched.act acts (start n) s) : Aged s :=
  h.invariant (fun _ _ _ h ha => (h.act ha).1) start_aged

/-- In all states of a run the waiting time is counted from the first scan iff
no round with another snapshot than 0 scans a process that was first scanned
with snapshot 0. -/
theorem aging_exact_iff_no_rescan (n : Nat) (acts : List (Act n)) :
    (∀ bs cs, acts = bs ++ cs → ∀ s, Ends act bs (start n) s → Exact s) ↔
      ∀ bs cs, acts = bs ++ cs → ∀ s, Ends act bs (start n) s → ¬ Rescans s := by
  constructor
  · intro hall bs cs e s hs
    exact (hall bs cs e s hs).not_rescans (ends_aged hs)
  · intro hno bs cs e s hs
    have hk : Aged s ∧ Kept s := by
      refine hs.along (I := fun s => Aged s ∧ Kept s) (R := fun _ s => ¬ Rescans s) ?_ ?_ e
        fun bs a cs => hno bs (a :: cs)
      · rintro a s t ⟨h, hk⟩ hok ha
        exact ⟨(h.act ha).1, (h.act ha).2 hok hk⟩
      · refine ⟨start_aged, ?_⟩
        rintro i f ⟨⟩
    exact hk.2.exact hk.1 (hno bs cs e s hs)

def cpu0 : Fin 1 := ⟨0, Nat.one_pos⟩

/-- A timer interrupt while process `p` runs on CPU `c`, when nobody sleeps on `ticks`. -/
def timer (c : Fin n) (p : Fin nproc) : List (Act n) := [.tick, .proc c (.yield p)]

/-- A call of `kfork` with its first `k` steps. -/
def forks (c : Fin n) (p : Fin nproc) (k : Nat) : List (Act n) :=
  .proc c (.fork p) :: List.replicate k (.proc c (.step p true))

/-- In the first round, with snapshot 0, init makes a child of priority 4 and goes
back to its own priority. The round looks at the child and ends, and the next
one, with snapshot 1, comes to it again. -/
def childAtTickZero : List (Act 1) :=
  List.replicate 132 (.sched cpu0) ++ .setPriority cpu0 4 :: forks cpu0 first 4 ++
    .setPriority cpu0 2 :: timer cpu0 first ++ List.replicate 66 (.sched cpu0)

/-- The child has waited for one tick since its first scan, and the scheduler
computes 0 and replaces the stamp. -/
theorem stamp_zero_replaced :
    ∃ s, Ends act childAtTickZero (start 1) s ∧ Scans s cpu0 1 0 second false ∧
      s.since second = some 0 ∧ sub32 1 0 = 1 ∧
      sub32 1 (stamp 1 (s.procs second)).readySince = 0 ∧
      (stamp 1 (s.procs second)).readySince = 1 := by
  obtain ⟨⟨⟩, s, hok, ht⟩ := run_of_endsIn (show endsIn (script act childAtTickZero) (start 1)
    (fun _ s => decide (s.cpu cpu0 = .scan 1 0 1 false ∧ (s.procs second).state = .runnable ∧
      s.since second = some 0 ∧ (s.procs second).readySince = 0)) = true by decide +kernel)
  obtain ⟨hcpu, hrun, hsince, hzero⟩ := of_decide_eq_true ht
  refine ⟨s, hok, ⟨hcpu, hrun⟩, hsince, by decide, ?_, ?_⟩
  · simp [stamp, hzero, sub32]
  · simp [stamp, hzero]

end Xv6.Sched
