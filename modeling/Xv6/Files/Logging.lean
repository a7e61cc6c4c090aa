/-
Xv6.Files.Logging — the code below `readi` and `writei` with its calls of `log_write`.

What `log_write` does is a parameter, a `Logger`: `Xv6.Files.Reading` has the log of
`Xv6.Fs.Log`, `Xv6.Files.Budget` notes which blocks are logged. With the log left
out, this is the code of `Xv6.Files.Inode` (`Erases`).

§1 code that logs, §2 rules, §3 leaving the log out, §4 blocks that are there.
-/
import Xv6.Files.Dir
import Xv6.Files.ContentTheorems
import Xv6.Lib.Erase

namespace Xv6.Files

open Xv6.Lib Function

/-! ## §1 Code that logs -/

/-- What happens to the notes `κ` where the code calls `log_write` or `balloc`. Errors
are panics of the file system or errors of `log_write`. -/
structure Logger (κ δ : Type) where
  onWrite : Nat → κ → Except δ κ
  onBalloc : κ → κ
  files : Panic → δ
  /-- The panic of the file system. -/
  cut : δ → Option Panic
  cut_files : ∀ e, cut (files e) = some e
  cut_write : ∀ b l e, onWrite b l = .error e → cut e = none

structure Noted (κ σ : Type) where
  state : σ
  notes : κ

namespace Logger

variable {κ δ σ α : Type} (lg : Logger κ δ) (sb : Superblock)

/-- Code that does not log. -/
def plain (x : StateT σ (Except Panic) α) : StateT (Noted κ σ) (Except δ) α :=
  embed Noted.state (fun s t => { s with state := t }) lg.files x

/-- `log_write` of block `b`. -/
def logWrite (b : Nat) : StateT (Noted κ σ) (Except δ) Unit := fun s =>
  match lg.onWrite b s.notes with
  | .ok l => .ok ((), { s with notes := l })
  | .error e => .error e

/-- The block that holds the bit of block `b`. -/
def bblock (b : Nat) : Nat := 2 + sb.nlog + (sb.ninodes / ipb + 1) + b / bpb

def bzero (b : Nat) : StateT (Noted κ Store) (Except δ) Unit := do
  lg.plain (modify fun st => { st with data := update st.data b zeroBlock })
  lg.logWrite b

def balloc : StateT (Noted κ Store) (Except δ) Nat := do
  modify fun s => { s with notes := lg.onBalloc s.notes }
  let st := (← get).state
  match (List.range sb.size).find? fun b => !st.bitmap b with
  | some b =>
    lg.plain (modify fun st => { st with bitmap := update st.bitmap b true })
    lg.logWrite (bblock sb b)
    lg.bzero b
    return b
  | none => return 0

def inodeAddr (ip : Dinode) (k : Fin 13) : StateT (Noted κ Store) (Except δ) (Nat × Dinode) := do
  if ip.addrs k = 0 then
    let addr ← lg.balloc sb
    if addr = 0 then return (0, ip) else return (addr, ip.setAddr k addr)
  else return (ip.addrs k, ip)

def indirectAddr (ind k : Nat) : StateT (Noted κ Store) (Except δ) Nat := do
  let addr ← lg.plain (readWord ind k)
  if addr = 0 then
    let addr ← lg.balloc sb
    if addr = 0 then return 0
    else
      lg.plain (modify fun st =>
        { st with data := update st.data ind (setWord (st.data ind) k addr) })
      lg.logWrite ind
      return addr
  else return addr

def bmap (ip : Dinode) (bn : Nat) : StateT (Noted κ Store) (Except δ) (Nat × Dinode) := do
  if h : bn < ndirect then lg.inodeAddr sb ip (Fin.castSucc ⟨bn, h⟩)
  else if bn - ndirect < nindirect then
    let (ind, ip) ← lg.inodeAddr sb ip indirect
    if ind = 0 then return (0, ip)
    else
      let addr ← lg.indirectAddr sb ind (bn - ndirect)
      return (addr, ip)
  else lg.plain (throw .bmapRange)

/-- Run a function of the layer below. -/
def onStore (x : StateT (Noted κ Store) (Except δ) α) : StateT (Noted κ Fs) (Except δ) α :=
  focus (fun s => ⟨s.state.store, s.notes⟩)
    (fun s t => ⟨{ s.state with store := t.state }, t.notes⟩) x

/-! ## §2 Rules -/

variable {lg sb} {E : δ → Prop} {b : Nat}

theorem meets_plain {x : StateT σ (Except Panic) α} {s : Noted κ σ} {Q : α → Noted κ σ → Prop}
    (h : Meets (fun e => E (lg.files e)) x s.state fun a t => Q a { s with state := t }) :
    Meets E (lg.plain x) s Q := meets_embed h fun _ he => he

theorem meets_logWrite {s : Noted κ σ} {Q : Unit → Noted κ σ → Prop}
    (hok : ∀ l, lg.onWrite b s.notes = .ok l → Q () { s with notes := l })
    (herr : ∀ e, lg.onWrite b s.notes = .error e → E e) : Meets E (lg.logWrite b) s Q := by
  cases hw : lg.onWrite b s.notes with
  | ok l =>
    refine .ok ?_ (hok l hw)
    simp only [logWrite, StateT.run, hw]
  | error e =>
    refine .error ?_ (herr e hw)
    simp only [logWrite, StateT.run, hw]

theorem meets_onStore {x : StateT (Noted κ Store) (Except δ) α} {s : Noted κ Fs}
    {Q : α → Noted κ Fs → Prop}
    (h : Meets E x ⟨s.state.store, s.notes⟩ fun a t =>
      Q a ⟨{ s.state with store := t.state }, t.notes⟩) : Meets E (onStore x) s Q :=
  meets_focus h

/-! ## §3 Leaving the log out -/

/-- A run that does not stop in the log is a run of `y`. -/
abbrev Erases (lg : Logger κ δ) (x : StateT (Noted κ σ) (Except δ) α)
    (y : StateT σ (Except Panic) α) : Prop := Lib.Erases Noted.state lg.cut x y

theorem erases_plain (x : StateT σ (Except Panic) α) : lg.Erases (lg.plain x) x := by
  constructor
  intro s
  cases hrun : x.run s.state with
  | ok r => exact meets_plain (.ok hrun rfl)
  | error e =>
    refine meets_plain (.error hrun fun e' he => ?_)
    rw [lg.cut_files] at he
    cases he
    rfl

theorem erases_logWrite (b : Nat) :
    lg.Erases (lg.logWrite b) (pure () : StateT σ (Except Panic) Unit) := by
  constructor
  intro s
  refine meets_logWrite (fun _ _ => rfl) fun e he e' hc => ?_
  rw [lg.cut_write b _ e he] at hc
  cases hc

variable (lg sb)

theorem balloc_erases : lg.Erases (lg.balloc sb) (Files.balloc sb) := by
  constructor
  intro s
  refine meets_update (meets_read ?_)
  have hcut : ∀ b l e, lg.onWrite b l = .error e →
      ∀ e', lg.cut e = some e' → (Files.balloc sb).run s.state = .error e' := by
    intro b l e he e' hc
    rw [lg.cut_write b l e he] at hc
    cases hc
  cases hf : (List.range sb.size).find? fun b => !s.state.bitmap b with
  | none =>
    simp only [hf]
    refine meets_pure ?_
    simp [Files.balloc, hf]
    rfl
  | some b =>
    simp only [hf]
    refine Meets.bind (meets_plain (meets_modify ?_))
    refine Meets.bind (meets_logWrite (fun l _ => ?_) (hcut _ _))
    refine Meets.bind (Meets.bind (meets_plain (meets_modify ?_)))
    refine meets_logWrite (fun l' _ => meets_pure ?_) (hcut _ _)
    simp [Files.balloc, hf]
    rfl

theorem inodeAddr_erases (ip : Dinode) (k : Fin 13) :
    lg.Erases (lg.inodeAddr sb ip k) (Files.inodeAddr sb ip k) := by
  refine Lib.Erases.ite (fun _ => ?_) fun _ => erases_pure _
  exact (lg.balloc_erases sb).bind fun addr =>
    Lib.Erases.ite (fun _ => erases_pure _) fun _ => erases_pure _

theorem indirectAddr_erases (ind k : Nat) :
    lg.Erases (lg.indirectAddr sb ind k) (Files.indirectAddr sb ind k) := by
  refine (erases_plain _).bind fun addr => Lib.Erases.ite (fun _ => ?_) fun _ => erases_pure _
  refine (lg.balloc_erases sb).bind fun addr =>
    Lib.Erases.ite (fun _ => erases_pure _) fun _ => ?_
  exact (erases_plain _).bind fun _ => (erases_logWrite ind).bind_pure (erases_pure _)

theorem bmap_erases (ip : Dinode) (bn : Nat) :
    lg.Erases (lg.bmap sb ip bn) (Files.bmap sb ip bn) := by
  unfold bmap Files.bmap
  by_cases h : bn < ndirect
  · rw [dif_pos h, dif_pos h]
    exact lg.inodeAddr_erases sb ip _
  · rw [dif_neg h, dif_neg h]
    refine Lib.Erases.ite (fun _ => ?_) fun _ => erases_plain _
    refine (lg.inodeAddr_erases sb ip _).bind fun r =>
      Lib.Erases.ite (fun _ => erases_pure _) fun _ => ?_
    exact (lg.indirectAddr_erases sb _ _).bind fun _ => erases_pure _

variable {lg sb}

theorem erases_onStore {x : StateT (Noted κ Store) (Except δ) α} {y : B α} (h : lg.Erases x y) :
    lg.Erases (onStore x) (Files.onStore y) := h.focus (fun _ => rfl) fun _ _ => rfl

/-! ## §4 Blocks that are there -/

/-- A block that is there is found without logging anything. -/
theorem bmap_there {ip : Dinode} {bn : Nat} {s : Noted κ Store} (hbn : bn < maxfile)
    (hb : ip.blockAt s.state.data bn ≠ 0) {Q : Nat × Dinode → Noted κ Store → Prop}
    (hq : Q (ip.blockAt s.state.data bn, ip) s) : Meets E (lg.bmap sb ip bn) s Q :=
  meets_map (lg.inodeAddr sb ip) (lg.indirectAddr sb) hbn (fun _ h0 => if_neg h0)
    (fun h0 hq => Meets.bind (meets_plain (meets_read (meets_pure
      (meets_else h0 (meets_pure hq)))))) hb hq

end Logger

end Xv6.Files
