/-
Xv6.Fs.Sync — `sys_sync` of `kernel/log.c`.

`sys_sync` waits for the end of a commit, which it finds by a counter: the one
that runs, or else the next one if operations are under way. Calls of it are
interleaved with everything that processes do to the log and the disk. When one
of them returns, the operations that had ended before it took the lock are on the
disk, with all that they changed.
-/
import Xv6.Fs.RecoveryTheorems

namespace Xv6.Fs

open Xv6.Lib Function

/-! ## §1 The calls -/

/-- A call of `sys_sync` waits until `ncommit` is `n`, or has returned. `before`
lists the operations that had ended when it took the lock. -/
inductive SyncCall where
  | waiting (n : Nat) (before : List Nat)
  | returned (before : List Nat)

/-- The log and the disk with `log.ncommit` and any number of calls. `finished`
lists the operations since boot that have given up their place in
`log.outstanding`. -/
structure SyncSys where
  disk : DiskSys
  ncommit : Nat
  calls : Nat → Option SyncCall
  finished : List Nat

def SyncSys.boot (d : DiskSys) : SyncSys :=
  { disk := d, ncommit := 0, calls := fun _ => none, finished := [] }

abbrev SM (α : Type) := StateT SyncSys (Except Panic) α

/-- `wake` is the next round of the loop in `sys_sync`. -/
inductive SyncAct where
  | disk (a : Act)
  | sync (q : Nat)
  | wake (q : Nat)

/-- A crash ends the calls that wait. -/
def SyncCall.crash : SyncCall → Option SyncCall
  | .waiting _ _ => none
  | .returned before => some (.returned before)

/-- What a step of the disk does to the rest of the state. -/
def SyncSys.note (s : SyncSys) : Act → SyncSys
  | .finish p =>
    match s.disk.ls.doing p, s.disk.hist.op p with
    | .op _, some n => { s with finished := s.finished ++ [n] }
    | _, _ => s
  | .return p =>
    match s.disk.ls.doing p with
    | .erased => { s with ncommit := s.ncommit + 1 }
    | _ => s
  | .crash =>
    { s with ncommit := 0, calls := fun q => (s.calls q).bind SyncCall.crash, finished := [] }
  | _ => s

def setSync (q : Nat) (x : SyncCall) : SM Unit :=
  modify fun s => { s with calls := update s.calls q (some x) }

variable (L : LogLayout)

def syncStep : SyncAct → SM Unit
  | .disk a => focus SyncSys.disk (fun s d => { s.note a with disk := d }) (diskStep L a)
  | .sync q => do
    let s ← get
    match s.calls q with
    | none =>
      if s.disk.ls.log.committing ∨ s.disk.ls.log.outstanding > 0 then
        setSync q (.waiting (s.ncommit + 1) s.finished)
      else setSync q (.returned s.finished)
    | some _ => return
  | .wake q => do
    let s ← get
    match s.calls q with
    | some (.waiting n before) =>
      if s.ncommit < n then return else setSync q (.returned before)
    | _ => return

def syncRun : List SyncAct → SM Unit
  | [] => return
  | a :: as => do
    syncStep L a
    syncRun as

/-! ## §2 What a step does to the log -/

/-- The function changes buffers and blocks only. -/
structure OnlyCache {α : Type} (x : DM α) : Prop where
  rest : ∀ {s a s'}, x.run s = .ok (a, s') → Rest s s'

variable {L} {s s' : DiskSys} {p : Nat}

theorem OnlyCache.bind {α β : Type} {x : DM α} {f : α → DM β} (hx : OnlyCache x)
    (hf : ∀ a, OnlyCache (f a)) : OnlyCache (x >>= f) := by
  constructor
  intro s b s' h
  obtain ⟨a, t, h1, h2⟩ := run_bind_elim h
  exact (hx.rest h1).trans ((hf a).rest h2)

theorem OnlyCache.pure {α : Type} (a : α) : OnlyCache (Pure.pure a : DM α) := by
  constructor
  intro s b s' h
  cases h
  exact .refl

theorem OnlyCache.get : OnlyCache (MonadState.get : DM DiskSys) := by
  constructor
  intro s b s' h
  cases h
  exact .refl

theorem OnlyCache.modifyBuf (i : Fin nbuf) (f : Buf → Buf) : OnlyCache (modifyBuf i f) := by
  constructor
  intro s b s' h
  cases h
  exact ⟨rfl, rfl, rfl, rfl⟩

theorem OnlyCache.bget (b : Nat) : OnlyCache (bget b) := by
  refine .bind .get fun s => ?_
  cases s.cached b with
  | some i => exact .bind (.modifyBuf i _) fun _ => .pure i
  | none =>
    cases s.unusedBuf with
    | some i => exact .bind (.modifyBuf i _) fun _ => .pure i
    | none =>
      constructor
      intro s b s' h
      cases h

theorem OnlyCache.lockBuf (p : Nat) (i : Fin nbuf) : OnlyCache (lockBuf p i) :=
  .bind .get fun _ => .modifyBuf i _

theorem OnlyCache.bread (p b : Nat) : OnlyCache (bread p b) :=
  .bind (.bget b) fun i => .bind (.lockBuf p i) fun _ => .pure i

theorem OnlyCache.bwrite (p : Nat) (i : Fin nbuf) : OnlyCache (bwrite p i) := by
  constructor
  intro s b s' h
  replace h := run_next rfl h
  split at h
  · cases h
  · cases h
    exact ⟨rfl, rfl, rfl, rfl⟩

theorem OnlyCache.brelse (p : Nat) (i : Fin nbuf) : OnlyCache (brelse p i) := by
  constructor
  intro s b s' h
  replace h := run_next rfl h
  dsimp only at h
  split at h
  · cases h
  · split at h
    all_goals
      cases h
      exact ⟨rfl, rfl, rfl, rfl⟩

theorem OnlyCache.copyBuf (dst src : Fin nbuf) : OnlyCache (copyBuf dst src) :=
  .bind .get fun _ => .modifyBuf dst _

theorem OnlyCache.writeLogBlock (L : LogLayout) (p tail b : Nat) :
    OnlyCache (writeLogBlock L p tail b) :=
  .bind (.bread ..) fun _ => .bind (.bread ..) fun _ => .bind (.copyBuf ..) fun _ =>
    .bind (.bwrite ..) fun _ => .bind (.brelse ..) fun _ => .brelse ..

theorem OnlyCache.installBlock (L : LogLayout) (p : Nat) (recovering : Bool) (tail b : Nat) :
    OnlyCache (installBlock L p recovering tail b) := by
  refine .bind (.bread ..) fun _ => .bind (.bread ..) fun _ => .bind (.copyBuf ..) fun _ =>
    .bind (.bwrite ..) fun _ => ?_
  cases recovering with
  | true => exact .bind (.brelse ..) fun _ => .brelse ..
  | false => exact .bind (.modifyBuf ..) fun _ => .bind (.brelse ..) fun _ => .brelse ..

theorem OnlyCache.readHead (L : LogLayout) (p : Nat) : OnlyCache (readHead L p) :=
  .bind (.bread ..) fun _ => .bind .get fun _ => .bind (.brelse ..) fun _ => .pure _

theorem OnlyCache.writeHead (L : LogLayout) (p : Nat) (lh : List Nat) :
    OnlyCache (writeHead L p lh) :=
  .bind (.bread ..) fun _ => .bind (.modifyBuf ..) fun _ => .bind (.bwrite ..) fun _ => .brelse ..

/-- What one step makes of the history. -/
inductive HistMove (h : Hist) : Hist → Prop where
  | same : HistMove h h
  | begin (p : Nat) : HistMove h (h.begin p)
  | add (p : Nat) (e : Event) (op : h.op p = some e.op) : HistMove h (h.add e)
  | finish (p n : Nat) (op : h.op p = some n) : HistMove h (h.finish p n)
  | commit : HistMove h h.commit
  -- the operations that have ended changed nothing
  | skip (none : ∀ e ∈ h.events, e.op ∉ h.ended) : HistMove h h.skip

/-- Operations that have ended wait for others, or for a commit that has not
erased the header. -/
def DiskSys.Owed (s : DiskSys) : Prop :=
  s.hist.ended ≠ [] → 0 < s.ls.log.outstanding ∨ ∃ p, s.ls.doing p = .commit

theorem Rest.owed (hr : Rest s s') (h : s.Owed) : s'.Owed := by
  unfold DiskSys.Owed
  rw [hr.hist, hr.ls]
  exact h

/-- After one step of the disk. -/
structure Moved (s s' : DiskSys) : Prop where
  hist : HistMove s.hist s'.hist
  owed : s'.Owed

theorem Rest.moved (hr : Rest s s') (h : s.Owed) : Moved s s' := ⟨hr.hist ▸ .same, hr.owed h⟩

theorem Moved.refl (h : s.Owed) : Moved s s := ⟨.same, h⟩

variable {init : Nat → Block} {A : Finset Nat} {b : Nat} {d : DiskSys}

theorem begin_moves (hi : Inv L init A s) (ho : s.Owed)
    (h : (diskStep L (.begin p)).run s = .ok ((), s')) : Moved s s' := by
  replace h := run_next rfl h
  split at h
  case h_2 =>
    cases h
    exact .refl ho
  case h_1 l _ _ hbegin =>
    cases h
    refine ⟨.begin p, fun _ => .inl ?_⟩
    have hout := hi.log.outstanding
    unfold beginOp at hbegin
    split at hbegin
    · cases hbegin
    split at hbegin
    · cases hbegin
    · cases hbegin
      show 0 < s.ls.log.outstanding + 1
      omega

theorem bget_moves (ho : s.Owed) (h : (diskStep L (.bget p b)).run s = .ok ((), s')) :
    Moved s s' := by
  replace h := run_next rfl h
  split at h
  · obtain ⟨i, t, hbget, h⟩ := run_bind_elim h
    cases h
    have hr := (OnlyCache.bget b).rest hbget
    exact ⟨hr.hist ▸ .same, hr.owed ho⟩
  · cases h
    exact .refl ho

theorem lock_moves (ho : s.Owed) (h : (diskStep L (.lock p b)).run s = .ok ((), s')) :
    Moved s s' := by
  replace h := run_next rfl h
  split at h
  · split at h
    · exact ((OnlyCache.lockBuf p _).rest h).moved ho
    · cases h
      exact .refl ho
  · cases h
    exact .refl ho

theorem brelse_moves (ho : s.Owed) (h : (diskStep L (.brelse p b)).run s = .ok ((), s')) :
    Moved s s' := by
  replace h := run_next rfl h
  split at h
  · split at h
    · obtain ⟨_, t, hbrelse, h⟩ := run_bind_elim h
      cases h
      have hr := (OnlyCache.brelse p _).rest hbrelse
      exact ⟨hr.hist ▸ .same, hr.owed ho⟩
    · cases h
      exact .refl ho
  · cases h
    exact .refl ho

theorem logWrite_outstanding {l l' : Log} {new : Bool} (h : logWrite b l = .ok (l', new)) :
    l'.outstanding = l.outstanding := by
  unfold logWrite at h
  split at h
  · cases h
  split at h
  · cases h
  split at h <;> cases h <;> rfl

theorem change_moves {f : Block → Block} (ho : s.Owed)
    (h : (diskStep L (.change p b f)).run s = .ok ((), s')) : Moved s s' := by
  replace h := run_next rfl h
  split at h
  case h_2 =>
    cases h
    exact .refl ho
  case h_1 i bs n _ hdoing hop =>
    split at h
    case isFalse =>
      cases h
      exact .refl ho
    case isTrue =>
      replace h := run_next rfl h
      obtain ⟨⟨l, new⟩, t2, h2, h⟩ := run_bind_elim h
      obtain ⟨hwrite, rfl⟩ := run_lift_elim h2
      replace h := run_next rfl h
      have howed : ∀ (t : DiskSys), t.ls = s.ls.set l p (.op (if b ∈ bs then bs else bs ++ [b])) →
          t.hist.ended = s.hist.ended → t.Owed := by
        intro t hls hended hne
        rw [hended] at hne
        rw [hls]
        rcases ho hne with hout | ⟨q, hq⟩
        · refine .inl ?_
          rw [LogSys.set_log, logWrite_outstanding hwrite]
          exact hout
        · have hqp : q ≠ p := by
            rintro rfl
            rw [hdoing] at hq
            cases hq
          exact .inr ⟨q, (LogSys.set_ne hqp).trans hq⟩
      split at h
      · cases h
        exact ⟨.add p ⟨n, b, f⟩ hop, howed _ rfl rfl⟩
      · cases h
        exact ⟨.add p ⟨n, b, f⟩ hop, howed _ rfl rfl⟩

/-- The operation of `p` ends, if it has one. -/
theorem finish_moves (hi : Inv L init A s) (ho : s.Owed)
    (h : (diskStep L (.finish p)).run s = .ok ((), s')) :
    Moved s s' ∧ ∀ bs n, s.ls.doing p = .op bs → s.hist.op p = some n →
      s'.hist = s.hist.finish p n := by
  replace h := run_next rfl h
  split at h
  case h_2 hno =>
    cases h
    exact ⟨.refl ho, fun bs n hdoing hop => absurd hop (hno bs n hdoing)⟩
  case h_1 bs n hdoing hop =>
    obtain ⟨⟨l, doCommit⟩, t1, h1, hrest⟩ := run_bind_elim h
    obtain ⟨hend, rfl⟩ := run_lift_elim h1
    have hset := run_next rfl hrest
    have hlast := run_next rfl hset
    have hmem : p ∈ A := (hi.log.active p).mpr (by rw [hdoing]; rfl)
    have hnext : 0 < l.outstanding ∨ doCommit = true := by
      have hcard := Finset.card_pos.mpr ⟨p, hmem⟩
      have hout := hi.log.outstanding
      unfold endOp at hend
      dsimp only at hend
      split at hend
      · cases hend
      split at hend
      · cases hend
        exact .inr rfl
      · cases hend
        refine .inl ?_
        show 0 < t1.ls.log.outstanding - 1
        omega
    have hhist : s'.hist = t1.hist.finish p n ∧ s'.ls.log = l ∧
        (doCommit = true → s'.ls.doing p = .commit) := by
      cases doCommit with
      | true =>
        cases hlast
        exact ⟨rfl, rfl, fun _ => LogSys.set_same⟩
      | false =>
        cases hlast
        exact ⟨rfl, rfl, fun hno => by cases hno⟩
    obtain ⟨hhist, hlog, hdo⟩ := hhist
    refine ⟨⟨hhist ▸ .finish p n hop, fun _ => ?_⟩, fun bs' m _ hm => ?_⟩
    · rcases hnext with hout | hcommit
      · exact .inl (hlog ▸ hout)
      · exact .inr ⟨p, hdo hcommit⟩
    · rw [hop] at hm
      cases hm
      exact hhist

theorem return_moves (ho : s.Owed) (h : (diskStep L (.return p)).run s = .ok ((), s')) :
    Moved s s' := by
  replace h := run_next rfl h
  split at h
  case h_2 =>
    cases h
    exact .refl ho
  case h_1 hdoing =>
    cases h
    refine ⟨.same, fun hne => ?_⟩
    rcases ho hne with hout | ⟨q, hq⟩
    · exact .inl hout
    · have hqp : q ≠ p := by
        rintro rfl
        rw [hdoing] at hq
        cases hq
      exact .inr ⟨q, (LogSys.set_ne hqp).trans hq⟩

/-- Neither the history nor what processes do to the log has changed. -/
theorem Moved.of_eq (ho : s.Owed) (hhist : s'.hist = s.hist) (hls : s'.ls = s.ls) : Moved s s' := by
  refine ⟨hhist ▸ .same, ?_⟩
  unfold DiskSys.Owed
  rw [hhist, hls]
  exact ho

theorem commit_moves (hi : Inv L init A s) (ho : s.Owed)
    (h : (diskStep L (.commit p)).run s = .ok ((), s')) : Moved s s' := by
  replace h := run_next rfl h
  split at h
  case h_2 =>
    cases h
    exact .refl ho
  case h_1 hdoing =>
    have hstep := run_next rfl h
    cases hg : s.stage with
    | readHead | reinstall t | run =>
      rw [hg] at hstep
      cases hstep
      exact .refl ho
    | log t =>
      rw [hg] at hstep
      dsimp only at hstep
      cases hb : s.ls.log.lh[t]? with
      | some b =>
        rw [hb] at hstep
        dsimp only at hstep
        split at hstep
        · obtain ⟨_, t1, h1, hset⟩ := run_bind_elim hstep
          cases hset
          have hr := (OnlyCache.writeLogBlock L p t b).rest h1
          exact .of_eq ho hr.hist hr.ls
        · cases hstep
          exact .refl ho
      | none =>
        rw [hb] at hstep
        dsimp only at hstep
        split at hstep
        · obtain ⟨_, t1, h1, hset⟩ := run_bind_elim hstep
          cases hset
          have hr := (OnlyCache.writeHead L p _).rest h1
          refine ⟨?_, fun hne => absurd rfl hne⟩
          show HistMove s.hist t1.hist.commit
          rw [hr.hist]
          exact .commit
        · rename_i hlen
          cases hstep
          refine ⟨.skip fun e he hend => ?_, fun hne => absurd rfl hne⟩
          have hmem := hi.hist.logged e he (.inl hend)
          exact hlen (List.length_pos_of_mem hmem)
    | install t =>
      rw [hg] at hstep
      dsimp only at hstep
      cases hb : s.ls.log.lh[t]? with
      | some b =>
        rw [hb] at hstep
        dsimp only at hstep
        split at hstep
        · obtain ⟨_, t1, h1, hset⟩ := run_bind_elim hstep
          cases hset
          have hr := (OnlyCache.installBlock L p false t b).rest h1
          exact .of_eq ho hr.hist hr.ls
        · cases hstep
          exact .refl ho
      | none =>
        rw [hb] at hstep
        have hrest := run_next rfl hstep
        obtain ⟨_, t2, h2, hset⟩ := run_bind_elim hrest
        cases hset
        have hr := (OnlyCache.writeHead L p _).rest h2
        have hidle : s.hist.Idle := by
          have hs := hi.stage
          rw [hg] at hs
          exact hs.2.1
        have hhist : t2.hist = s.hist := hr.hist
        refine ⟨?_, fun hne => absurd ?_ hne⟩
        · rw [hhist]
          exact .same
        · rw [hhist]
          exact hidle.2

theorem recover_moves (ho : s.Owed) (h : (diskStep L .recover).run s = .ok ((), s')) :
    Moved s s' := by
  have hstep := run_next rfl h
  cases hg : s.stage with
  | run | log t | install t =>
    rw [hg] at hstep
    cases hstep
    exact .refl ho
  | readHead =>
    rw [hg] at hstep
    obtain ⟨lh, t1, h1, hset⟩ := run_bind_elim hstep
    cases hset
    have hr := (OnlyCache.readHead L 0).rest h1
    exact ⟨hr.hist ▸ .same, hr.owed ho⟩
  | reinstall t =>
    rw [hg] at hstep
    dsimp only at hstep
    cases hb : s.ls.log.lh[t]? with
    | some b =>
      rw [hb] at hstep
      obtain ⟨_, t1, h1, hset⟩ := run_bind_elim hstep
      cases hset
      have hr := (OnlyCache.installBlock L 0 true t b).rest h1
      exact .of_eq ho hr.hist hr.ls
    | none =>
      rw [hb] at hstep
      have hrest := run_next rfl hstep
      obtain ⟨_, t2, h2, hset⟩ := run_bind_elim hrest
      cases hset
      have hr := (OnlyCache.writeHead L 0 _).rest h2
      refine ⟨hr.hist ▸ .same, ?_⟩
      refine hr.owed ?_
      exact ho

/-- One step of the disk, unless it is a crash. -/
theorem diskStep_moves (hi : Inv L init A s) (ho : s.Owed) {a : Act} (ha : a ≠ .crash)
    (h : (diskStep L a).run s = .ok ((), s')) : Moved s s' := by
  cases a with
  | begin p => exact begin_moves hi ho h
  | bget p b => exact bget_moves ho h
  | lock p b => exact lock_moves ho h
  | change p b f => exact change_moves ho h
  | brelse p b => exact brelse_moves ho h
  | finish p => exact (finish_moves hi ho h).1
  | commit p => exact commit_moves hi ho h
  | «return» p => exact return_moves ho h
  | crash => exact absurd rfl ha
  | recover => exact recover_moves ho h

/-! ## §3 Operations that are over -/

/-- Operation `n` has begun and is not under way. -/
def Hist.Past (h : Hist) (n : Nat) : Prop := n < h.next ∧ ∀ p, h.op p ≠ some n

/-- What operation `n` changed, if anything, has been committed. -/
def Hist.Durable (h : Hist) (n : Nat) : Prop := n ∈ h.done ∨ ∀ e ∈ h.events, e.op ≠ n

variable {h h' : Hist} {n : Nat}

theorem HistMove.past (hm : HistMove h h') (hp : h.Past n) : h'.Past n := by
  obtain ⟨hlt, hop⟩ := hp
  cases hm with
  | same | add | commit | skip => exact ⟨hlt, hop⟩
  | begin p =>
    refine ⟨Nat.lt_succ_of_lt hlt, fun q hq => ?_⟩
    by_cases hqp : q = p
    · rw [hqp, Hist.begin_op_self] at hq
      exact Nat.ne_of_gt hlt (Option.some.inj hq)
    · rw [Hist.begin_op_ne hqp] at hq
      exact hop q hq
  | finish p m _ => exact ⟨hlt, fun q hq => hop q (Hist.finish_running hq).2⟩

/-- Nobody changes anything for an operation that is over. -/
theorem HistMove.durable (hm : HistMove h h') (hp : h.Past n) (hd : h.Durable n) :
    h'.Durable n := by
  rcases hd with hdone | hnone
  · refine .inl ?_
    cases hm with
    | same | begin | add | finish | skip => exact hdone
    | commit => exact List.mem_append_left _ hdone
  · refine .inr ?_
    cases hm with
    | same | begin | finish | commit | skip => exact hnone
    | add p e hop =>
      intro e' he'
      rcases List.mem_append.mp he' with he' | he'
      · exact hnone e' he'
      · rw [List.mem_singleton.mp he']
        intro heq
        exact hp.2 p (heq ▸ hop)

/-- An operation that waits for a commit goes on to wait until it is durable. -/
theorem HistMove.ended (hm : HistMove h h') (hn : n ∈ h.ended) : h'.Durable n ∨ n ∈ h'.ended := by
  cases hm with
  | same | begin | add => exact .inr hn
  | finish => exact .inr (List.mem_append_left _ hn)
  | commit => exact .inl (.inl (List.mem_append_right _ hn))
  | skip hnone => exact .inl (.inr fun e he heq => hnone e he (heq ▸ hn))

/-- All that has ended is durable once a commit has erased the header. -/
theorem Inv.erased_ended (hi : Inv L init A s) (ho : s.Owed) (hp : s.ls.doing p = .erased) :
    s.hist.ended = [] := by
  refine Classical.byContradiction fun hne => ?_
  have hcommits : (s.ls.doing p).commits = true := by rw [hp]; rfl
  rcases ho hne with hout | ⟨q, hq⟩
  · have hnone := hi.log.alone (hi.log.committing p hcommits)
    have hcard := hi.log.outstanding
    rw [hnone, Finset.card_empty] at hcard
    omega
  · have heq := hi.log.one p q hcommits (by rw [hq]; rfl)
    rw [heq, hq] at hp
    cases hp

/-- All that has ended is durable if there is nothing that `sys_sync` would wait
for. -/
theorem Inv.quiet_ended (hi : Inv L init A s) (ho : s.Owed)
    (hq : ¬ (s.ls.log.committing = true ∨ s.ls.log.outstanding > 0)) : s.hist.ended = [] := by
  refine Classical.byContradiction fun hne => ?_
  rcases ho hne with hout | ⟨p, hp⟩
  · exact hq (.inr hout)
  · exact hq (.inl (hi.log.committing p (by rw [hp]; rfl)))

/-! ## §4 Runs with `sys_sync` -/

structure SyncInv (L : LogLayout) (init : Nat → Block) (s : SyncSys) : Prop where
  inv : ∃ A, Inv L init A s.disk
  owed : s.disk.Owed
  finished : ∀ n ∈ s.finished, s.disk.hist.Past n ∧ (s.disk.hist.Durable n ∨ n ∈ s.disk.hist.ended)
  -- once the counter has come to what a call waits for, its operations are durable
  waiting : ∀ q m before, s.calls q = some (.waiting m before) →
    (∀ n ∈ before, n ∈ s.finished) ∧ (m ≤ s.ncommit → ∀ n ∈ before, s.disk.hist.Durable n)
  returned : ∀ q before, s.calls q = some (.returned before) →
    ∀ n ∈ before, s.disk.hist.Past n ∧ s.disk.hist.Durable n

variable {x x' : SyncSys}

section

variable (hx : SyncInv L init x)
include hx

/-- The disk has moved and the calls are the same. -/
theorem SyncInv.move (hi : ∃ A, Inv L init A d) (hm : Moved x.disk d) :
    SyncInv L init { x with disk := d } where
  inv := hi
  owed := hm.owed
  finished n hn := by
    obtain ⟨hp, hd⟩ := hx.finished n hn
    refine ⟨hm.hist.past hp, ?_⟩
    rcases hd with hd | hd
    · exact .inl (hm.hist.durable hp hd)
    · exact hm.hist.ended hd
  waiting q m before hq := by
    obtain ⟨hsub, hdur⟩ := hx.waiting q m before hq
    exact ⟨hsub, fun hle n hn =>
      hm.hist.durable (hx.finished n (hsub n hn)).1 (hdur hle n hn)⟩
  returned q before hq n hn := by
    obtain ⟨hp, hd⟩ := hx.returned q before hq n hn
    exact ⟨hm.hist.past hp, hm.hist.durable hp hd⟩

/-- One more operation has finished. -/
theorem SyncInv.finish (hp : x.disk.hist.Past n)
    (hn : n ∈ x.disk.hist.ended) : SyncInv L init { x with finished := x.finished ++ [n] } where
  inv := hx.inv
  owed := hx.owed
  finished m hm := by
    rcases List.mem_append.mp hm with hm | hm
    · exact hx.finished m hm
    · rw [List.mem_singleton.mp hm]
      exact ⟨hp, .inr hn⟩
  waiting q m before hq := by
    obtain ⟨hsub, hdur⟩ := hx.waiting q m before hq
    exact ⟨fun n' hn' => List.mem_append_left _ (hsub n' hn'), hdur⟩
  returned := hx.returned

/-- The counter goes up when nothing is left to commit. -/
theorem SyncInv.count (hnil : x.disk.hist.ended = []) :
    SyncInv L init { x with ncommit := x.ncommit + 1 } where
  inv := hx.inv
  owed := hx.owed
  finished := hx.finished
  waiting q m before hq := by
    obtain ⟨hsub, _⟩ := hx.waiting q m before hq
    refine ⟨hsub, fun _ n hn => ?_⟩
    refine (hx.finished n (hsub n hn)).2.resolve_right fun hend => ?_
    rw [hnil] at hend
    cases hend
  returned := hx.returned

theorem SyncInv.crash (hi : ∃ A, Inv L init A d)
    (hd : d.hist = x.disk.hist.crash) :
    SyncInv L init { x.note .crash with disk := d } where
  inv := hi
  owed hne := by
    rw [hd] at hne
    exact absurd rfl hne
  finished n hn := by cases hn
  waiting q m before hq := by
    have hq' : (x.calls q).bind SyncCall.crash = some (.waiting m before) := hq
    obtain ⟨c, _, hc⟩ := Option.bind_eq_some_iff.mp hq'
    cases c <;> cases hc
  returned q before hq n hn := by
    have hq' : (x.calls q).bind SyncCall.crash = some (.returned before) := hq
    obtain ⟨c, hcall, hc⟩ := Option.bind_eq_some_iff.mp hq'
    cases c with
    | waiting => cases hc
    | returned b =>
      cases hc
      obtain ⟨hp, hdur⟩ := hx.returned q before hcall n hn
      rw [hd]
      exact ⟨⟨hp.1, fun p => by rintro ⟨⟩⟩, hdur⟩

theorem finish_sync (hi : ∃ A, Inv L init A d)
    (hrun : (diskStep L (.finish p)).run x.disk = .ok ((), d)) :
    SyncInv L init { x.note (.finish p) with disk := d } := by
  obtain ⟨A, hA⟩ := hx.inv
  obtain ⟨hm, hfin⟩ := finish_moves hA hx.owed hrun
  have hmove := hx.move hi hm
  unfold SyncSys.note
  dsimp only
  split
  case h_2 => exact hmove
  case h_1 bs n hdoing hop =>
    have hhist := hfin bs n hdoing hop
    refine hmove.finish (n := n) ?_ ?_
    · rw [hhist]
      refine ⟨(hA.hist.op hop).1, fun q hq => ?_⟩
      obtain ⟨hqp, hq⟩ := Hist.finish_running hq
      exact hqp (hA.hist.inj hq hop)
    · rw [hhist]
      exact List.mem_append_right _ (List.mem_singleton_self n)

theorem return_sync (hi : ∃ A, Inv L init A d)
    (hrun : (diskStep L (.return p)).run x.disk = .ok ((), d)) :
    SyncInv L init { x.note (.return p) with disk := d } := by
  obtain ⟨A, hA⟩ := hx.inv
  have hm := return_moves hx.owed hrun
  unfold SyncSys.note
  dsimp only
  split
  case h_2 => exact hx.move hi hm
  case h_1 hdoing => exact (hx.count (hA.erased_ended hx.owed hdoing)).move hi hm

theorem disk_sync (a : Act) :
    Meets diskPanic (syncStep L (.disk a)) x fun _ x' => SyncInv L init x' := by
  obtain ⟨A, hA⟩ := hx.inv
  refine meets_focus ?_
  cases diskStep_spec hA a with
  | error hrun hE => exact .error hrun hE
  | ok hrun hi =>
    refine .ok hrun ?_
    cases a with
    | finish p => exact finish_sync hx hi hrun
    | «return» p => exact return_sync hx hi hrun
    | crash =>
      cases hrun
      exact hx.crash hi rfl
    | begin | bget | lock | change | brelse | commit | recover =>
      exact hx.move hi (diskStep_moves hA hx.owed (by rintro ⟨⟩) hrun)

/-- Call `q` has come to `c`. -/
theorem SyncInv.setCall {q : Nat} {c : SyncCall}
    (hw : ∀ m before, c = .waiting m before → (∀ n ∈ before, n ∈ x.finished) ∧ x.ncommit < m)
    (hr : ∀ before, c = .returned before →
      ∀ n ∈ before, x.disk.hist.Past n ∧ x.disk.hist.Durable n) :
    SyncInv L init { x with calls := update x.calls q (some c) } where
  inv := hx.inv
  owed := hx.owed
  finished := hx.finished
  waiting q' m before hq := by
    change update x.calls q (some c) q' = _ at hq
    by_cases hqq : q' = q
    · rw [hqq, update_self] at hq
      obtain ⟨hsub, hlt⟩ := hw m before (Option.some.inj hq)
      exact ⟨hsub, fun hle => absurd hle (Nat.not_le_of_lt hlt)⟩
    · rw [update_of_ne hqq] at hq
      exact hx.waiting q' m before hq
  returned q' before hq := by
    change update x.calls q (some c) q' = _ at hq
    by_cases hqq : q' = q
    · rw [hqq, update_self] at hq
      exact hr before (Option.some.inj hq)
    · rw [update_of_ne hqq] at hq
      exact hx.returned q' before hq

theorem syncStep_spec (a : SyncAct) :
    Meets diskPanic (syncStep L a) x fun _ x' => SyncInv L init x' := by
  cases a with
  | disk a => exact disk_sync hx a
  | sync q =>
    obtain ⟨A, hA⟩ := hx.inv
    refine meets_read ?_
    split
    case h_2 => exact meets_pure hx
    case h_1 =>
    refine meets_ite (fun _ => meets_modify ?_) fun hquiet => meets_modify ?_
    · refine hx.setCall (fun m before heq => ?_) fun before heq => by cases heq
      cases heq
      exact ⟨fun n hn => hn, Nat.lt_succ_self _⟩
    · refine hx.setCall (fun m before heq => by cases heq) fun before heq n hn => ?_
      cases heq
      obtain ⟨hp, hd⟩ := hx.finished n hn
      refine ⟨hp, hd.resolve_right fun hend => ?_⟩
      rw [hA.quiet_ended hx.owed hquiet] at hend
      cases hend
  | wake q =>
    refine meets_read ?_
    split
    case h_2 => exact meets_pure hx
    case h_1 m before hq =>
    refine meets_ite (fun _ => meets_pure hx) fun hle => meets_modify ?_
    refine hx.setCall (fun m before heq => by cases heq) fun before' heq n hn => ?_
    cases heq
    obtain ⟨hsub, hdur⟩ := hx.waiting q m before hq
    exact ⟨(hx.finished n (hsub n hn)).1, hdur (Nat.not_lt.mp hle) n hn⟩

end

theorem syncRun_spec (acts : List SyncAct) : ∀ {x : SyncSys}, SyncInv L init x →
    Meets diskPanic (syncRun L acts) x fun _ x' => SyncInv L init x' := by
  induction acts with
  | nil => exact fun hx => meets_pure hx
  | cons a acts ih => exact fun hx => (syncStep_spec hx a).seq fun _ x1 hx1 => ih hx1

theorem Image.syncInv (img : Image L) : SyncInv L img.disk (.boot img.boot) where
  inv := ⟨∅, img.inv⟩
  owed hne := absurd rfl hne
  finished n hn := by cases hn
  waiting q m before hq := by cases hq
  returned q before hq := by cases hq

/-- When a call of `sys_sync` has returned, every operation that had ended before
the call took the lock has been committed, if it changed anything: it is in
`done`, whose changes are what a crash leaves on the disk. -/
theorem sync_is_durable (L : LogLayout) (img : Image L) (acts : List SyncAct) :
    Meets diskPanic (syncRun L acts) (.boot img.boot) fun _ s =>
      (∀ q before, s.calls q = some (.returned before) → ∀ n ∈ before,
        n ∈ s.disk.hist.done ∨ ∀ e ∈ s.disk.hist.events, e.op ≠ n) ∧
      ∃ d, (diskRun L (.crash :: recovery)).run s.disk = .ok ((), d) ∧
        ∀ b, L.Home b →
          d.disk b = replay img.disk s.disk.hist.events (fun n => n ∈ s.disk.hist.done) b := by
  refine (syncRun_spec acts img.syncInv).imp fun _ s hs => ⟨fun q before hq n hn => ?_, ?_⟩
  · exact (hs.returned q before hq n hn).2
  · obtain ⟨A, hA⟩ := hs.inv
    obtain ⟨d, hrun, _, hdisk⟩ := hA.recovers
    exact ⟨d, hrun, hdisk⟩

-- `sys_sync` is called while the commit of operation 0, which changed block 40, is
-- under way, and returns after it
example :
    endsIn (syncRun .mkfs ([Act.recover, .recover, .begin 1, .bget 1 40, .lock 1 40,
        .change 1 40 (fun d => d), .brelse 1 40, .finish 1, .commit 1].map SyncAct.disk ++
      [.sync 7, .wake 7] ++ [Act.commit 1, .commit 1, .commit 1, .return 1].map SyncAct.disk ++
      [.wake 7]))
      (.boot (.boot (fun _ _ => 0) .empty))
      (fun _ s => match s.calls 7 with
        | some (.returned before) => before = [0] && s.disk.hist.done = [0]
        | _ => false) = true := by
  decide +kernel

end Xv6.Fs
