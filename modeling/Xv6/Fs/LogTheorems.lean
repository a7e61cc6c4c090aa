/-
Xv6.Fs.LogTheorems — what `begin_op` reserves is enough, almost.

The log has room for what the running operations have logged and may still
log: `LogInv.room` charges each one for the blocks it has left. Hence the
header never overflows, and a commit runs only when no operation does.

`log_write` looks at the size of the log before it looks for the block, so
it refuses also a block that is logged already if the log is full. For a block
that is new to its operation there is always room, by the reservation.
-/
import Mathlib.Algebra.BigOperators.Group.Finset.Basic
import Mathlib.Algebra.Order.BigOperators.Group.Finset
import Mathlib.Tactic.Linarith
import Xv6.Fs.Log

namespace Xv6.Fs

open Xv6.Lib Function

/-! ## §1 The invariant -/

/-- How many blocks an operation may still log. -/
def Doing.left : Doing → Nat
  | .op bs => maxopblocks - bs.length
  | _ => 0

def Doing.isOp : Doing → Bool
  | .op _ => true
  | _ => false

def Doing.commits : Doing → Bool
  | .commit => true
  | .erased => true
  | _ => false

theorem Doing.left_le (d : Doing) : d.left ≤ maxopblocks := by
  cases d <;> simp [Doing.left]

/-- `A` is the set of processes with an operation under way. -/
structure LogInv (A : Finset Nat) (s : LogSys) : Prop where
  active : ∀ p, p ∈ A ↔ (s.doing p).isOp = true
  outstanding : s.log.outstanding = A.card
  room : s.log.lh.length + ∑ p ∈ A, (s.doing p).left ≤ logblocks
  committing : ∀ p, (s.doing p).commits = true → s.log.committing = true
  alone : s.log.committing = true → A = ∅
  one : ∀ p q, (s.doing p).commits = true → (s.doing q).commits = true → p = q
  logged : ∀ {p bs}, s.doing p = .op bs → ∀ b ∈ bs, b ∈ s.log.lh

variable {A : Finset Nat} {s : LogSys} {l : Log} {p : Nat} {d : Doing}

theorem LogInv.start : LogInv ∅ .start where
  active p := by simp [LogSys.start, Doing.isOp]
  outstanding := rfl
  room := by simp [LogSys.start, Log.empty]
  committing p h := by cases h
  alone _ := rfl
  one p q h := by cases h
  logged h := by cases h

@[simp] theorem LogSys.set_log : (s.set l p d).log = l := rfl

theorem LogSys.set_same : (s.set l p d).doing p = d := update_self ..

theorem LogSys.set_ne {q : Nat} (h : q ≠ p) : (s.set l p d).doing q = s.doing q :=
  update_of_ne h ..

/-- Nobody else commits, and `p` does not either. -/
theorem LogSys.set_ne_commit (hd : d ≠ .commit) (h : ∀ q, q ≠ p → s.doing q ≠ .commit) (q : Nat) :
    (s.set l p d).doing q ≠ .commit := by
  by_cases e : q = p
  · subst e
    rw [LogSys.set_same]
    exact hd
  · rw [LogSys.set_ne e]
    exact h q e

/-- The sum over the other operations does not see `p`. -/
theorem sum_left_set (hp : p ∉ A) :
    ∑ q ∈ A, ((s.set l p d).doing q).left = ∑ q ∈ A, (s.doing q).left := by
  refine Finset.sum_congr rfl fun q hq => ?_
  rw [LogSys.set_ne]
  rintro rfl
  exact hp hq

theorem sum_left_le : ∑ q ∈ A, (s.doing q).left ≤ A.card * maxopblocks :=
  Finset.sum_le_card_nsmul A _ _ fun q _ => (s.doing q).left_le

/-! ## §2 Steps -/

section

variable (h : LogInv A s)
include h

/-- Process `p` moves on: what is left to check about the others. -/
theorem LogInv.set {B : Finset Nat} (hB : ∀ q, q ≠ p → (q ∈ B ↔ q ∈ A))
    (hp : p ∈ B ↔ d.isOp = true) (hout : l.outstanding = B.card)
    (hroom : l.lh.length + ∑ q ∈ B, ((s.set l p d).doing q).left ≤ logblocks)
    (hothers : l.committing = true ∨ ∀ q, q ≠ p → (s.doing q).commits = false)
    (hd : d.commits = true → l.committing = true ∧ ∀ q, q ≠ p → (s.doing q).commits = false)
    (halone : l.committing = true → B = ∅) (hlh : B = ∅ ∨ ∀ b ∈ s.log.lh, b ∈ l.lh)
    (hbs : ∀ bs, d = .op bs → ∀ b ∈ bs, b ∈ l.lh) : LogInv B (s.set l p d) where
  active q := by
    by_cases e : q = p
    · subst e
      rw [hp, LogSys.set_same]
    · rw [LogSys.set_ne e, hB q e, h.active]
  outstanding := hout
  room := hroom
  committing q hq := by
    by_cases e : q = p
    · subst e
      rw [LogSys.set_same] at hq
      exact (hd hq).1
    · rw [LogSys.set_ne e] at hq
      rcases hothers with hc | hno
      · exact hc
      · rw [hno q e] at hq
        cases hq
  alone := halone
  one q r hq hr := by
    have hcase : ∀ x y, x ≠ p → ((s.set l p d).doing x).commits = true →
        ((s.set l p d).doing y).commits = true → x = y := by
      intro x y e hx hy
      rw [LogSys.set_ne e] at hx
      by_cases e' : y = p
      · subst e'
        rw [LogSys.set_same] at hy
        rw [(hd hy).2 x e] at hx
        cases hx
      · rw [LogSys.set_ne e'] at hy
        exact h.one x y hx hy
    by_cases e : q = p
    · by_cases e' : r = p
      · exact e.trans e'.symm
      · exact (hcase r q e' hr hq).symm
    · exact hcase q r e hq hr
  logged := by
    intro q bs hq b hb
    by_cases e : q = p
    · subst e
      rw [LogSys.set_same] at hq
      exact hbs bs hq b hb
    · rw [LogSys.set_ne e] at hq
      rcases hlh with hempty | hsub
      · have hmem : q ∈ B := by
          rw [hB q e, h.active, hq]
          rfl
        rw [hempty] at hmem
        exact absurd hmem (Finset.notMem_empty q)
      · exact hsub b (h.logged hq b hb)

/-- Nobody commits unless the flag is set. -/
theorem LogInv.none_commits (hc : s.log.committing = false) (q : Nat) :
    (s.doing q).commits = false := by
  by_contra hq
  rw [h.committing q (by simpa using hq)] at hc
  cases hc

theorem LogInv.mem {bs : List Nat} (hd : s.doing p = .op bs) : p ∈ A := by
  rw [h.active, hd]
  rfl

theorem LogInv.not_committing (hp : p ∈ A) : s.log.committing = false := by
  by_contra hc
  rw [h.alone (by simpa using hc)] at hp
  exact Finset.notMem_empty p hp

/-- The others do not commit while `p` does. -/
theorem LogInv.others (hp : (s.doing p).commits = true) (q : Nat) (hq : q ≠ p) :
    (s.doing q).commits = false := by
  by_contra hc
  exact hq (h.one q p (by simpa using hc) hp)

theorem LogInv.begin (hd : s.doing p = .nothing) (hl : beginOp s.log = some l) :
    LogInv (insert p A) (s.set l p (.op [])) := by
  have hp : p ∉ A := by
    rw [h.active, hd]
    simp [Doing.isOp]
  unfold beginOp at hl
  split at hl
  · cases hl
  rename_i hc
  split at hl
  · cases hl
  rename_i hroom
  cases hl
  refine h.set (fun q e => by rw [Finset.mem_insert, or_iff_right e]) (by simp [Doing.isOp]) ?_ ?_
    (.inr fun q _ => h.none_commits (by simpa using hc) q) (fun e => by cases e)
    (fun e => absurd e hc) (.inr fun b hb => hb) (fun bs e b hb => by cases e; cases hb)
  · rw [Finset.card_insert_of_notMem hp, h.outstanding]
    rfl
  · have hle := sum_left_le (A := A) (s := s)
    rw [h.outstanding, not_lt] at hroom
    rw [Finset.sum_insert hp, LogSys.set_same, sum_left_set hp]
    have hleft : (Doing.op []).left = maxopblocks := rfl
    linarith

/-- After `log_write` of a block, with `bs` the blocks of the operation then. -/
theorem LogInv.write {bs bs' : List Nat} (hd : s.doing p = .op bs)
    (hout : l.outstanding = s.log.outstanding) (hcom : l.committing = s.log.committing)
    (hlen : l.lh.length + (Doing.op bs').left ≤ s.log.lh.length + (Doing.op bs).left)
    (hlh : ∀ b ∈ s.log.lh, b ∈ l.lh) (hbs : ∀ b ∈ bs', b ∈ l.lh) :
    LogInv A (s.set l p (.op bs')) := by
  have hp := h.mem hd
  have hc := h.not_committing hp
  refine h.set (fun q _ => Iff.rfl) ⟨fun _ => rfl, fun _ => hp⟩ (hout.trans h.outstanding) ?_
    (.inr fun q _ => h.none_commits hc q) (fun e => by cases e) (fun e => ?_) (.inr hlh)
    (fun _ e => by cases e; exact hbs)
  · have hroom := h.room
    rw [← Finset.sum_erase_add A _ hp, hd] at hroom
    rw [← Finset.sum_erase_add A _ hp, LogSys.set_same, sum_left_set (Finset.notMem_erase p A)]
    linarith
  · rw [hcom, hc] at e
    cases e

/-- An operation ends; if it was the last one, its process commits. -/
theorem LogInv.finish {bs : List Nat} (hd : s.doing p = .op bs) :
    ∃ l c, endOp s.log = .ok (l, c) ∧
      LogInv (A.erase p) (s.set l p (if c then .commit else .nothing)) := by
  have hp := h.mem hd
  have hc := h.not_committing hp
  have hcard : s.log.outstanding - 1 = (A.erase p).card := by
    have hpos : 0 < A.card := Finset.card_pos.mpr ⟨p, hp⟩
    rw [h.outstanding, Finset.card_erase_of_mem hp]
    omega
  have hroom : ∀ l : Log, l.lh = s.log.lh → ∀ d : Doing,
      l.lh.length + ∑ q ∈ A.erase p, ((s.set l p d).doing q).left ≤ logblocks := by
    intro l hl d
    have := h.room
    rw [← Finset.sum_erase_add A _ hp] at this
    rw [hl, sum_left_set (Finset.notMem_erase p A)]
    omega
  have hB : ∀ q, q ≠ p → (q ∈ A.erase p ↔ q ∈ A) := fun q e => by
    rw [Finset.mem_erase, and_iff_right e]
  unfold endOp
  rw [if_neg (by rw [hc]; exact Bool.false_ne_true)]
  by_cases h0 : s.log.outstanding - 1 = 0
  · rw [if_pos h0]
    refine ⟨_, _, rfl, ?_⟩
    have hempty : A.erase p = ∅ := by
      rw [← Finset.card_eq_zero]
      omega
    exact h.set hB (by simp [Doing.isOp]) hcard (hroom _ rfl _) (.inl rfl)
      (fun _ => ⟨rfl, fun q _ => h.none_commits hc q⟩) (fun _ => hempty)
      (.inr fun b hb => hb) (fun _ e => by cases e)
  · rw [if_neg h0]
    refine ⟨_, _, rfl, ?_⟩
    exact h.set hB (by simp [Doing.isOp]) hcard (hroom _ rfl _)
      (.inr fun q _ => h.none_commits hc q) (fun e => by cases e)
      (fun e => by rw [hc] at e; cases e) (.inr fun b hb => hb) (fun _ e => by cases e)

/-- `commit()` erases the header. -/
theorem LogInv.erase (hd : s.doing p = .commit) :
    LogInv A (s.set { s.log with lh := [] } p .erased) := by
  have hcom : (s.doing p).commits = true := by rw [hd]; rfl
  have hc := h.committing p hcom
  have hA := h.alone hc
  refine h.set (fun q _ => Iff.rfl) ?_ h.outstanding ?_ (.inl hc)
    (fun _ => ⟨hc, h.others hcom⟩) (fun _ => hA) (.inl hA) (fun _ e => by cases e)
  · rw [hA]
    simp [Doing.isOp]
  · rw [hA]
    simp

theorem LogInv.return (hd : s.doing p = .erased) :
    LogInv A (s.set (endCommit s.log) p .nothing) := by
  have hcom : (s.doing p).commits = true := by rw [hd]; rfl
  have hA := h.alone (h.committing p hcom)
  refine h.set (fun q _ => Iff.rfl) ?_ h.outstanding ?_ (.inr (h.others hcom))
    (fun e => by cases e) (fun e => by cases e) (.inl hA) (fun _ e => by cases e)
  · rw [hA]
    simp [Doing.isOp]
  · have := h.room
    rw [hA] at this ⊢
    exact this

end

theorem left_snoc {bs : List Nat} {b : Nat} (h : bs.length < maxopblocks) :
    (Doing.op (bs ++ [b])).left + 1 = (Doing.op bs).left := by
  simp only [Doing.left, List.length_append, List.length_singleton]
  omega

/-- An operation that logs another block has room for it. -/
theorem LogInv.has_room (h : LogInv A s) {bs : List Nat} (hd : s.doing p = .op bs)
    (hlt : bs.length < maxopblocks) : s.log.lh.length < logblocks := by
  have hroom := h.room
  rw [← Finset.sum_erase_add A _ (h.mem hd), hd] at hroom
  have hleft : 0 < (Doing.op bs).left := Nat.sub_pos_of_lt hlt
  omega

/-- With room in the log, `log_write` succeeds and keeps the invariant. -/
theorem LogInv.logWrite (h : LogInv A s) {bs : List Nat} {b : Nat} (hd : s.doing p = .op bs)
    (hb : b ∈ bs ∨ bs.length < maxopblocks) (hlt : s.log.lh.length < logblocks) :
    ∃ l c, Fs.logWrite b s.log = .ok (l, c) ∧
      LogInv A (s.set l p (.op (if b ∈ bs then bs else bs ++ [b]))) := by
  have hpos : 0 < A.card := Finset.card_pos.mpr ⟨p, h.mem hd⟩
  have hsub := h.logged hd
  unfold Fs.logWrite
  rw [if_neg (by omega), if_neg (by rw [h.outstanding]; omega)]
  by_cases hmem : b ∈ bs
  · -- absorbed
    rw [if_pos (hsub b hmem), if_pos hmem]
    exact ⟨_, _, rfl, h.write hd rfl rfl (Nat.le_refl _) (fun _ hx => hx) hsub⟩
  · have hleft := left_snoc (b := b) (hb.resolve_left hmem)
    rw [if_neg hmem]
    by_cases hlog : b ∈ s.log.lh
    · -- another operation has logged it
      rw [if_pos hlog]
      refine ⟨_, _, rfl, h.write hd rfl rfl (by omega) (fun _ hx => hx) fun x hx => ?_⟩
      rcases List.mem_append.mp hx with hx | hx
      · exact hsub x hx
      · rw [List.mem_singleton.mp hx]
        exact hlog
    · rw [if_neg hlog]
      refine ⟨_, _, rfl, h.write hd rfl rfl ?_ (fun x hx => List.mem_append_left _ hx)
        fun x hx => ?_⟩
      · simp only [List.length_append, List.length_singleton]
        omega
      · rcases List.mem_append.mp hx with hx | hx
        · exact List.mem_append_left _ (hsub x hx)
        · exact List.mem_append_right _ hx

/-- Every step succeeds, unless an operation logs one of its blocks again on a full log. -/
theorem logStep_spec (h : LogInv A s) {a : LogAct} (ha : ¬ OnFull a s) :
    Total (logStep a) s fun _ s' => ∃ B, LogInv B s' := by
  have hstay : Total (pure () : LM Unit) s fun _ s' => ∃ B, LogInv B s' := meets_pure ⟨A, h⟩
  cases a with
  | begin p =>
    refine meets_read ?_
    cases hd : s.doing p with
    | nothing =>
      cases hl : beginOp s.log with
      | none => exact hstay
      | some l => exact meets_set ⟨_, h.begin hd hl⟩
    | _ => exact hstay
  | write p b =>
    refine meets_read ?_
    cases hd : s.doing p with
    | op bs =>
      refine meets_ite (fun hb => ?_) (fun _ => hstay)
      have hlt : s.log.lh.length < logblocks := by
        rcases hb with hmem | hnew
        · have := h.room
          exact lt_of_le_of_ne (by omega) fun he => ha ⟨p, b, bs, rfl, hd, hmem, he⟩
        · exact h.has_room hd hnew
      obtain ⟨l, c, hl, hinv⟩ := h.logWrite hd hb hlt
      rw [hl]
      exact meets_set ⟨_, hinv⟩
    | _ => exact hstay
  | finish p =>
    refine meets_read ?_
    cases hd : s.doing p with
    | op bs =>
      obtain ⟨l, c, hl, hinv⟩ := h.finish hd
      rw [hl]
      exact meets_set ⟨_, hinv⟩
    | _ => exact hstay
  | erase p =>
    refine meets_read ?_
    cases hd : s.doing p with
    | commit => exact meets_set ⟨_, h.erase hd⟩
    | _ => exact hstay
  | «return» p =>
    refine meets_read ?_
    cases hd : s.doing p with
    | erased => exact meets_set ⟨_, h.return hd⟩
    | _ => exact hstay

theorem logStep_onFull {a : LogAct} (ha : OnFull a s) : (logStep a).run s = .error .tooBig := by
  obtain ⟨p, b, bs, rfl, hd, hb, hfull⟩ := ha
  have hpanic : Fs.logWrite b s.log = .error .tooBig := if_pos (Nat.le_of_eq hfull.symm)
  have hmeets : Meets (· = Panic.tooBig) (logStep (.write p b)) s fun _ _ => False := by
    refine meets_read ?_
    rw [hd]
    refine meets_if (.inl hb) ?_
    rw [hpanic]
    exact .error rfl rfl
  exact hmeets.fails

/-! ## §3 Runs -/

/-- A run succeeds exactly if no operation logs one of its blocks again on a full log. -/
theorem logRun_spec (acts : List LogAct) : ∀ {A : Finset Nat} {s : LogSys}, LogInv A s →
    Meets (· = Panic.tooBig) (logRun acts) s (fun _ s' => ∃ B, LogInv B s') ∧
      ((∃ s', (logRun acts).run s = .ok ((), s')) ↔ NeverOnFull acts s) := by
  induction acts with
  | nil =>
    intro A s h
    exact ⟨meets_pure ⟨A, h⟩, fun _ => trivial, fun _ => ⟨s, rfl⟩⟩
  | cons a as ih =>
    intro A s h
    by_cases ha : OnFull a s
    · have hrun : (logRun (a :: as)).run s = .error .tooBig := by
        show (logStep a >>= fun _ => logRun as).run s = _
        rw [StateT.run_bind, logStep_onFull ha]
        rfl
      refine ⟨.error hrun rfl, ?_, fun hn => absurd ha hn.1⟩
      rintro ⟨s', hs'⟩
      rw [hrun] at hs'
      cases hs'
    · obtain ⟨u, s1, hrun, B, hB⟩ := (logStep_spec h ha).elim
      obtain ⟨hmeets, hiff⟩ := ih hB
      have hcons : (logRun (a :: as)).run s = (logRun as).run s1 := by
        show (logStep a >>= fun _ => logRun as).run s = _
        rw [StateT.run_bind, hrun]
        rfl
      refine ⟨?_, ?_⟩
      · exact Meets.bind (.ok hrun hmeets)
      · rw [hcons, hiff]
        refine ⟨fun hn => ⟨ha, fun s' hs' => ?_⟩, fun hn => hn.2 s1 hrun⟩
        rw [hrun] at hs'
        cases hs'
        exact hn

/-- For any number of processes and any order of their steps, the header has
room for all logged blocks and commits run alone. A run stops only where an
operation logs one of its own blocks again on a full log, and it does stop there:
a block that is new to its operation always finds room. -/
theorem log_reservation (acts : List LogAct) :
    Meets (· = Panic.tooBig) (logRun acts) .start (fun _ s =>
      s.log.lh.length ≤ logblocks ∧ (s.log.committing = true → s.log.outstanding = 0)) ∧
    ((∃ s, (logRun acts).run .start = .ok ((), s)) ↔ NeverOnFull acts .start) := by
  obtain ⟨hmeets, hiff⟩ := logRun_spec acts LogInv.start
  refine ⟨hmeets.imp ?_, hiff⟩
  rintro _ s ⟨A, h⟩
  refine ⟨(Nat.le_add_right _ _).trans h.room, fun hc => ?_⟩
  rw [h.outstanding, h.alone hc]
  rfl

/-- Three operations with ten blocks each fill the log; then the first one
logs one of its blocks again. -/
def fillLog : List LogAct :=
  [.begin 0, .begin 1, .begin 2] ++
    (List.range logblocks).map (fun b => .write (b / maxopblocks) b) ++ [.write 0 0]

theorem log_write_full_panics : (logRun fillLog).run .start = .error .tooBig :=
  run_of_stopsWith (by decide +kernel)

end Xv6.Fs
