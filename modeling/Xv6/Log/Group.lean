import Xv6.Log.Basic
import Xv6.Lib.Machine

/-!
Group commit: any number of processes in `begin_op`, `log_write` and `end_op`, interleaved
at the critical sections of `log.lock`.

A process is outside an operation, asleep in `begin_op`, inside an operation, or in one of
the phases of `commit`, which runs without the lock: about to write the header, about to
set `log.lh.n = 0`, or back from `commit` and about to clear `log.committing`. The trace
records the operations and the headers that were committed, oldest first.
-/

namespace Xv6.Log

open Function (update)

inductive Pc
  | outside
  | asleep
  | inOp
  | committing
  | erasing
  | finishing
  deriving DecidableEq, Repr

def Pc.inCommit : Pc → Bool
  | .committing | .erasing | .finishing => true
  | _ => false

inductive Event (P : Type)
  | beginOp (p : P)
  | write (p : P) (b : ℕ)
  | endOp (p : P)
  | commit (lh : List ℕ)
  deriving DecidableEq

structure Sys (P : Type) where
  log : Log
  pc : P → Pc
  trace : List (Event P)

inductive Act (P : Type)
  | beginOp (p : P)
  | logWrite (p : P) (b : ℕ)
  | endOp (p : P)
  | writeHead (p : P)
  | erase (p : P)
  | endCommit (p : P)
  deriving DecidableEq

inductive Fault
  | panic (e : LogPanic)
  | disabled
  deriving DecidableEq

variable {P : Type} [DecidableEq P]

/-- `wakeup(&log)`: the sleepers run the loop of `begin_op` again. -/
def wakeup (pc : P → Pc) : P → Pc := fun p => if pc p = .asleep then .outside else pc p

namespace Sys

/-- One critical section of `log.lock`, or one step of `commit`. -/
def step (s : Sys P) : Act P → Except Fault (Sys P)
  | .beginOp p =>
    if s.pc p = .outside then
      match s.log.beginOp with
      | some L => .ok ⟨L, update s.pc p .inOp, s.trace ++ [.beginOp p]⟩
      | none => .ok { s with pc := update s.pc p .asleep }
    else .error .disabled
  | .logWrite p b =>
    if s.pc p = .inOp then
      match s.log.logWrite b with
      | .ok L => .ok { s with log := L, trace := s.trace ++ [.write p b] }
      | .error e => .error (.panic e)
    else .error .disabled
  | .endOp p =>
    if s.pc p = .inOp then
      match s.log.endOp with
      | .ok (true, L) => .ok ⟨L, update s.pc p .committing, s.trace ++ [.endOp p]⟩
      | .ok (false, L) => .ok ⟨L, wakeup (update s.pc p .outside), s.trace ++ [.endOp p]⟩
      | .error e => .error (.panic e)
    else .error .disabled
  | .writeHead p =>
    if s.pc p = .committing then
      if s.log.lh.length > 0 then
        .ok { s with pc := update s.pc p .erasing,
                     trace := s.trace ++ [.commit s.log.lh] }
      else .ok { s with pc := update s.pc p .finishing }
    else .error .disabled
  | .erase p =>
    if s.pc p = .erasing then
      .ok { s with log := { s.log with lh := [] }, pc := update s.pc p .finishing }
    else .error .disabled
  | .endCommit p =>
    if s.pc p = .finishing then
      .ok { s with log := s.log.endCommit, pc := wakeup (update s.pc p .outside) }
    else .error .disabled

structure Initial (start size : ℕ) (s : Sys P) : Prop where
  log : s.log = ⟨start, size, 0, false, []⟩
  pc : ∀ p, s.pc p = .outside
  trace : s.trace = []

end Sys

/-! ### Reading a trace -/

def isOpen (p : P) (tr : List (Event P)) : Bool :=
  tr.foldl (fun o e => match e with
    | .beginOp q => if q = p then true else o
    | .endOp q => if q = p then false else o
    | _ => o) false

/-- The block numbers passed to `log_write` since the last committed
header. -/
def uncommitted (tr : List (Event P)) : List ℕ :=
  tr.foldl (fun bs e => match e with
    | .write _ b => bs ++ [b]
    | .commit _ => []
    | _ => bs) []

/-- The block numbers the current operation of `p` has passed to
`log_write`. -/
def opBlocks (p : P) (tr : List (Event P)) : List ℕ :=
  tr.foldl (fun bs e => match e with
    | .beginOp q => if q = p then [] else bs
    | .write q b => if q = p then bs ++ [b] else bs
    | _ => bs) []

theorem isOpen_snoc (p : P) (tr : List (Event P)) (e : Event P) :
    isOpen p (tr ++ [e]) = match e with
      | .beginOp q => if q = p then true else isOpen p tr
      | .endOp q => if q = p then false else isOpen p tr
      | _ => isOpen p tr := by
  simp [isOpen]

omit [DecidableEq P] in
theorem uncommitted_snoc (tr : List (Event P)) (e : Event P) :
    uncommitted (tr ++ [e]) = match e with
      | .write _ b => uncommitted tr ++ [b]
      | .commit _ => []
      | _ => uncommitted tr := by
  simp [uncommitted]

theorem opBlocks_snoc (p : P) (tr : List (Event P)) (e : Event P) :
    opBlocks p (tr ++ [e]) = match e with
      | .beginOp q => if q = p then [] else opBlocks p tr
      | .write q b => if q = p then opBlocks p tr ++ [b] else opBlocks p tr
      | _ => opBlocks p tr := by
  simp [opBlocks]

theorem isOpen_of_begin {p : P} {pre mid : List (Event P)} (h : .endOp p ∉ mid) :
    isOpen p (pre ++ .beginOp p :: mid) = true := by
  induction mid using List.reverseRecOn with
  | nil => simp [isOpen]
  | append_singleton mid e ih => grind [isOpen_snoc]

omit [DecidableEq P] in
theorem mem_uncommitted {p : P} {b : ℕ} {pre post : List (Event P)} (hw : .write p b ∈ post)
    (hc : ∀ lh, .commit lh ∉ post) : b ∈ uncommitted (pre ++ post) := by
  induction post using List.reverseRecOn with
  | nil => simp at hw
  | append_singleton post e ih => grind [uncommitted_snoc]

end Xv6.Log
