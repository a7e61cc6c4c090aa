/-
Xv6.Sched.Fairness — a process runs on one CPU at a time, and none starves.

The CPUs hold the RUNNING processes as the holders of a pool do (`Xv6.Lib.Pool`):
`scheduler()` takes a process that no CPU has, and a process leaves its CPU by a
step of its own. So what a waiting process has is left alone by all the others,
and a round that begins when it has waited long enough comes to it at level 0.
§1 who runs where, §2 rounds that find an aged process.
-/
import Xv6.Lib.Pool
import Xv6.Sched.Snapshots

namespace Xv6.Sched

open Xv6.Lib Function
open Xv6.Vm (nproc)

variable {n : Nat} {s s' : State n} {c : Fin n} {i p : Fin nproc} {a : Act n} {x y : Cpu}

/-! ## §1 Who runs where -/

def State.running (s : State n) (p : Fin nproc) : Bool := (s.procs p).state = .running

/-- `cpus[c].proc`. -/
def State.onCpu (s : State n) (c : Fin n) : Option (Fin nproc) := (s.cpu c).proc

/-- Each RUNNING process is on one CPU, and the CPUs have no others. -/
abbrev Placed (s : State n) : Prop := Pool (fun _ => True) s.running s.onCpu

theorem onCpu_setCpu : (s.setCpu c x).onCpu = update s.onCpu c x.proc := by
  funext d
  by_cases hd : d = c
  · subst hd
    simp [State.onCpu, State.setCpu]
  · simp [State.onCpu, State.setCpu, hd]

theorem onCpu_same (h : x.proc = (s.cpu c).proc) : (s.setCpu c x).onCpu = s.onCpu := by
  rw [onCpu_setCpu, h, show (s.cpu c).proc = s.onCpu c from rfl, update_eq_self]

theorem Cpu.Next.proc (h : x.Next s y) : y.proc = x.proc := by
  cases h <;> rfl

theorem Placed.same (h : Placed s)
    (hrun : ∀ p, (s'.procs p).state = .running ↔ (s.procs p).state = .running)
    (hcpu : s'.onCpu = s.onCpu) : Placed s' := by
  have heq : s'.running = s.running := by
    funext p
    simp [State.running, hrun p]
  show Pool _ s'.running s'.onCpu
  rwa [heq, hcpu]

/-- One process begins or stops running. -/
theorem running_update {v : Bool} (hself : (s'.procs i).state = .running ↔ v = true)
    (hne : ∀ p, p ≠ i → ((s'.procs p).state = .running ↔ (s.procs p).state = .running)) :
    s'.running = update s.running i v := by
  funext p
  by_cases hp : p = i
  · subst hp
    simp [State.running, hself]
  · simp [State.running, hp, hne p hp]

theorem setProc_running {x : Proc} (hx : x.state = (s.procs i).state) (p : Fin nproc) :
    ((s.base.setProc i x).procs p).state = .running ↔ (s.procs p).state = .running := by
  by_cases hp : p = i
  · subst hp
    rw [Wait.State.setProc_self, hx]
  · rw [Wait.State.setProc_ne hp]
    rfl

theorem Placed.next (h : Placed s) (hst : Step a s s') : Placed s' := by
  cases hst with
  | tick e | none e =>
    subst e
    exact h
  | place c x hx e =>
    subst e
    exact h.same (fun _ => Iff.rfl) (onCpu_same hx.proc)
  | passed c now level i found _ hsc _ e =>
    subst e
    refine h.same (setProc_running stamp_state) (onCpu_same ?_)
    show _ = (s.cpu c).proc
    rw [hsc.place]
    rfl
  | priority c i v hc e =>
    subst e
    exact h.same (setProc_running rfl) rfl
  | moves a hno ha b hm hgo e =>
    subst e
    refine h.same (fun p => ?_) rfl
    by_cases hp : a.actor = some p
    · obtain ⟨c, hc⟩ := ha p hp
      exact iff_of_true (hgo p hp) (of_decide_eq_true (h.marked hc))
    · exact (hm.slots p).running hp (hno p)
  | dispatched c now level i found hsc hl b hran e =>
    subst e
    obtain ⟨⟨chan, hb⟩, -⟩ := hran
    have hfree : s.running i = false := by simp [State.running, hsc.runnable]
    have hidle : s.onCpu c = none := by rw [State.onCpu, hsc.place]; rfl
    have hrun : (s.setBase b).running = update s.running i true := by
      refine running_update ?_ fun p hp => ?_
      · show (b.procs i).state = .running ↔ _
        rw [hb, update_self]
        simp
      · show (b.procs p).state = .running ↔ _
        rw [hb, update_of_ne hp, Wait.State.setProc_ne hp]
        rfl
    show Pool _ (s.setBase b).running ((s.setBase b).setCpu c _).onCpu
    rw [hrun, onCpu_setCpu]
    exact h.take trivial hfree hidle
  | leaves c now level i hc a hno ha b hm hstop e =>
    subst e
    have hon : s.onCpu c = some i := by rw [State.onCpu, hc]; rfl
    have hrun : (s.setBase b).running = update s.running i false := by
      refine running_update (iff_of_false hstop nofun) fun p hp => ?_
      exact (hm.slots p).running (fun e => hp (Option.some.inj (ha.symm.trans e)).symm) (hno p)
    show Pool _ (s.setBase b).running ((s.setBase b).setCpu c _).onCpu
    rw [hrun, onCpu_setCpu]
    exact h.give hon

/-- What holds in every run. -/
structure Orderly (s : State n) : Prop where
  inv : Wait.Inv s.base
  placed : Placed s

theorem start_placed : Placed (start n) where
  inj := nofun
  area _ := trivial
  used := by
    intro p _
    refine iff_of_false (fun hp => ?_) nofun
    have hrun : ((Wait.start).procs p).state = .running := of_decide_eq_true hp
    rcases Wait.start_slot p with ⟨-, e⟩ | ⟨-, e⟩ <;> rw [e] at hrun <;> cases hrun

theorem Orderly.next (h : Orderly s) (ha : (act a).run s = .ok ((), s')) :
    Orderly s' ∧ Step a s s' := by
  obtain ⟨hinv, hst⟩ := (act_step h.inv a).post ha
  exact ⟨⟨hinv, h.placed.next hst⟩, hst⟩

theorem ends_orderly {acts : List (Act n)} (h : Ends act acts (start n) s) : Orderly s :=
  h.invariant (fun _ _ _ h ha => (h.next ha).1) ⟨Wait.start_inv, start_placed⟩

/-- In every state of every run the CPUs have the RUNNING processes, each of them once. -/
theorem runs_on_one_cpu (n : Nat) (acts : List (Act n)) :
    Always acts fun s => Pool (fun _ => True) s.running s.onCpu :=
  fun _ _ _ _ hs => (ends_orderly hs).placed

/-! ## §2 Rounds -/

/-- Process `p` is RUNNABLE with stamp `r` and priority `v`. -/
def Waits (s : State n) (p : Fin nproc) (r : Nat) (v : Int) : Prop :=
  (s.procs p).state = .runnable ∧ (s.procs p).readySince = r ∧ (s.procs p).priority = v

/-- A CPU is at level 0 of a round with this snapshot, and has not come to slot `p`. -/
def Cpu.Before (now : Nat) (p : Fin nproc) : Cpu → Prop
  | .scan t level k _ => t = now ∧ level = priorityMin ∧ k ≤ p
  | .runs t level q => t = now ∧ level = priorityMin ∧ q < p
  | _ => False

variable {r now : Nat} {v : Int}

/-- What waits with a stamp is left alone until it runs. -/
theorem Waits.next (h : Waits s p r v) (hr : r ≠ 0) (hp : Placed s) (hst : Step a s s') :
    (s'.procs p).state = .running ∨ Waits s' p r v := by
  cases hst.seen p with
  | kept _ _ hnow hstamp hprio =>
    rcases hprio with hprio | ⟨c, hc⟩
    · exact .inr ⟨hnow, hstamp.trans h.2.1, hprio.trans h.2.2⟩
    · -- `setpriority` is a call of a process that runs
      have hrun : (s.procs p).state = .running := of_decide_eq_true (hp.marked hc)
      cases hrun.symm.trans h.1
  | apart _ hno => exact absurd h.1 hno
  | passed c now level found _ _ _ e =>
    have hsame : s'.procs p = s.procs p := by rw [e, stamp, if_neg (h.2.1.symm ▸ hr)]
    unfold Waits
    exact .inr (by rwa [hsame])
  | dispatched _ hrun => exact .inl hrun

/-- Long waiting leads to level 0. -/
theorem Waits.effective (h : Waits s p r v) (hr : r ≠ 0) (hold : v * agingInterval ≤ sub32 now r) :
    effectivePriority now (stamp now (s.procs p)) = priorityMin := by
  obtain ⟨-, rfl, rfl⟩ := h
  rw [stamp, if_neg hr]
  unfold effectivePriority agingInterval priorityMin at *
  dsimp only
  split <;> omega

theorem Cpu.Next.before (h : x.Next s y) (hb : x.Before now p)
    (hr : (s.procs p).state = .runnable) : y.Before now p := by
  cases h with
  | begins | wakes => exact hb.elim
  | @skips _ _ i _ hidle =>
    obtain ⟨rfl, rfl, hle⟩ := hb
    have hne : i ≠ p := by
      rintro rfl
      exact hidle hr
    exact ⟨rfl, rfl, by omega⟩
  | ends last | lowers last | rests last => exact absurd hb.2.2 (Nat.not_le.mpr (last p))

/-- A round that is to find `p` has not come to it, or lets it run. -/
theorem Waits.before (h : Waits s p r v) (hr : r ≠ 0) (hold : v * agingInterval ≤ sub32 now r)
    (hp : Placed s) (hc : (s.cpu c).Before now p) (hst : Step a s s') :
    (s'.procs p).state = .running ∨ Waits s' p r v ∧ (s'.cpu c).Before now p := by
  refine (h.next hr hp hst).imp_right fun hw => ⟨hw, ?_⟩
  -- the place of CPU `c` matters only if it is that CPU's step
  have hcpu : ∀ {d y}, (d = c → y.Before now p) → (update s.cpu d y c).Before now p := by
    intro d y hy
    by_cases hd : c = d
    · subst hd
      rw [update_self]
      exact hy rfl
    · rwa [update_of_ne hd]
  cases hst with
  | tick e | none e | moves a hno ha b hm hgo e | priority d i v' hd e =>
    subst e
    exact hc
  | place d x hx e =>
    subst e
    refine hcpu ?_
    rintro rfl
    exact hx.before hc h.1
  | passed d now' level i found _ hsc hne e =>
    subst e
    refine hcpu ?_
    rintro rfl
    rw [hsc.place] at hc
    obtain ⟨rfl, rfl, hle⟩ := hc
    have hip : i ≠ p := by
      rintro rfl
      exact hne (h.effective hr hold)
    exact ⟨rfl, rfl, by omega⟩
  | leaves d now' level i hd a hno ha b hm hstop e =>
    subst e
    refine hcpu ?_
    rintro rfl
    rw [hd] at hc
    exact hc
  | dispatched d now' level i found hsc hl b hran e =>
    subst e
    refine hcpu ?_
    rintro rfl
    rw [hsc.place] at hc
    obtain ⟨rfl, rfl, hle⟩ := hc
    have hip : i ≠ p := by
      rintro rfl
      obtain ⟨⟨chan, hb⟩, -⟩ := hran
      have hrun : (b.procs i).state = .running := by rw [hb, update_self]
      cases hrun.symm.trans hw.1
    exact ⟨rfl, rfl, by omega⟩

/-- Process `p` runs somewhere in the run `cs` from `s` to `t`. -/
def Served (cs : List (Act n)) (s t : State n) (p : Fin nproc) : Prop :=
  ∃ ds es u, cs = ds ++ es ∧ Ends act ds s u ∧ Ends act es u t ∧ (u.procs p).state = .running

/-- What every step keeps unless `p` runs. -/
theorem until_served {J : State n → Prop} {cs : List (Act n)} {t : State n}
    (hstep : ∀ {a s s'}, Placed s → J s → Step a s s' → (s'.procs p).state = .running ∨ J s')
    (hs : Orderly s) (hj : J s) (ht : Ends act cs s t) : Served cs s t p ∨ J t := by
  induction cs generalizing s with
  | nil => exact .inr (ends_nil.mp ht ▸ hj)
  | cons a cs ih =>
    obtain ⟨u, ha, hu⟩ := ends_cons.mp ht
    obtain ⟨hs', hst⟩ := hs.next ha
    rcases hstep hs.placed hj hst with hrun | hj'
    · exact .inl ⟨[a], cs, u, rfl, ends_cons.mpr ⟨u, ha, ends_nil.mpr rfl⟩, hu, hrun⟩
    · refine (ih hs' hj' hu).imp_left ?_
      rintro ⟨ds, es, w, rfl, hd, he, hrun⟩
      exact ⟨a :: ds, es, w, rfl, ends_cons.mpr ⟨u, ha, hd⟩, he, hrun⟩

section
variable {cs : List (Act n)} {t : State n} (hs : Orderly s) (ht : Ends act cs s t) (hr : r ≠ 0)
include hs ht hr

theorem Waits.served_or (h : Waits s p r v) : Served cs s t p ∨ Waits t p r v :=
  until_served (J := fun s => Waits s p r v) (fun hp hw hst => hw.next hr hp hst) hs h ht

theorem Waits.served_or_before (h : Waits s p r v) (hold : v * agingInterval ≤ sub32 now r)
    (hc : s.cpu c = .scan now priorityMin 0 false) :
    Served cs s t p ∨ Waits t p r v ∧ (t.cpu c).Before now p := by
  refine until_served (J := fun s => Waits s p r v ∧ (s.cpu c).Before now p)
    (fun hp hj hst => hj.1.before hr hold hp hj.2 hst) hs ⟨h, ?_⟩ ht
  rw [hc]
  exact ⟨rfl, rfl, Nat.zero_le _⟩

end

/-- What a process that waits with a stamp can rely on in the run `cs` from `s` to `t`. -/
structure Fair (cs : List (Act n)) (s t : State n) : Prop where
  /-- Nobody else touches it. -/
  kept : ∀ p r v, r ≠ 0 → Waits s p r v → Served cs s t p ∨ Waits t p r v
  /-- A round that begins when it has waited long enough does not end before it has run. -/
  round : ∀ p r v c now, r ≠ 0 → Waits s p r v → s.cpu c = .scan now priorityMin 0 false →
    v * agingInterval ≤ sub32 now r → Served cs s t p ∨ Waits t p r v ∧ (t.cpu c).Before now p

theorem no_starvation (n : Nat) (acts : List (Act n)) :
    Always acts fun s => ∀ cs t, Ends act cs s t → Fair cs s t := by
  intro _ _ _ s hs cs t ht
  have ho := ends_orderly hs
  exact ⟨fun p r v hr hw => hw.served_or ho ht hr,
    fun p r v c now hr hw hc hold => hw.served_or_before ho ht hr hold hc⟩

/-- A stamped process keeps its stamp until it is dispatched, and no round that
began when it had waited long enough is over before that. -/
theorem round_over_served (n : Nat) (acts : List (Act n)) :
    Always acts fun s => ∀ cs t, Ends act cs s t → ∀ p r v, r ≠ 0 → Waits s p r v →
      (Served cs s t p ∨ Waits t p r v) ∧
      ∀ c now, s.cpu c = .scan now priorityMin 0 false → v * agingInterval ≤ sub32 now r →
        (t.cpu c = .top ∨ t.cpu c = .idle) → Served cs s t p := by
  intro _ _ _ s hs cs t ht p r v hr hw
  have ho := ends_orderly hs
  refine ⟨hw.served_or ho ht hr, fun c now hc hold hover => ?_⟩
  rcases hw.served_or_before ho ht hr hold hc with hrun | ⟨-, hbefore⟩
  · exact hrun
  · rcases hover with e | e <;> rw [e] at hbefore <;> exact hbefore.elim

end Xv6.Sched
