import Xv6.Lib.Machine

/-!
Interrupts and threads: `push_off`, `pop_off`, `acquire` and `release` of
`kernel/spinlock.c`, with the switch between threads in `sched` and `scheduler` of
`kernel/proc.c`.

A CPU runs a kernel thread, of a process or its own, the one of `scheduler`. Threads call
`push_off`, `pop_off`, `acquire` and `release` in any order, but each takes back what it
has done: it has called `push_off` at least as often as `pop_off` (`depth`). They turn
interrupts on or off themselves, as `usertrap`, `usertrapret` and `scheduler` do, only
with no such call pending. Where interrupts are on, one may come in at any point, also
between the statements of `push_off`; its handler is a piece of code of the same thread
and may itself give up the CPU. `sched` is called with the lock of the process held.
`scheduler` may switch to any thread that is switched out and whose lock it has taken. A
thread that has never run begins in `forkret`, with the lock that `scheduler` has taken
for it.

`depth`, `wasOn` and `started` are not in the source: `wasOn` is whether interrupts were
on when the thread last raised `noff` from 0 to 1, `started` whether it has been through
the release in `forkret`. `noff` is a natural number: it is how many calls of `push_off`
are pending on the CPU, of which the kernel nests a handful, since no handler comes in
while there is one.
-/

namespace Xv6.Spinlock

open Function (update)

inductive Call (L : Type)
  | pushOff
  | acquire (lk : L)
  deriving DecidableEq

/-- Where a thread is: in other code, in `push_off` after `intr_get` and after
`intr_off`, in the loop of `acquire`, in `release` before `pop_off`, before its first run
and at the beginning of `forkret`, and in `sched` during and after `swtch`. `was` is
whether `intr_off` has turned anything off. -/
inductive Pc (L : Type)
  | code
  | got (k : Call L) (old : Bool)
  | off (k : Call L) (old was : Bool)
  | spin (lk : L)
  | pop
  | fresh
  | forkret
  | swtch (intena : Bool)
  | back (intena : Bool)
  deriving DecidableEq

def Pc.isOut {L : Type} : Pc L → Bool
  | .fresh => true
  | .swtch _ => true
  | _ => false

structure Thread (L : Type) where
  pc : Pc L
  trapped : List (Pc L)
  depth : ℕ
  wasOn : Bool
  started : Bool

/-- `struct cpu`, and the interrupt-enable bit of `sstatus`. -/
structure Cpu (P : Type) where
  sie : Bool
  noff : ℕ
  intena : Bool
  proc : Option P

inductive Tid (C P : Type)
  | scheduler (c : C)
  | proc (p : P)
  deriving DecidableEq

/-- `lock lk` is the CPU that holds the lock. -/
structure Sys (C P L : Type) where
  cpu : C → Cpu P
  thread : Tid C P → Thread L
  lock : L → Option C

inductive Panic
  | acquire
  | release
  | popOffInterruptible
  | popOff
  | schedLock
  | schedLocks
  | schedInterruptible
  deriving DecidableEq

/-- What the thread that runs on a CPU does: it calls `push_off` or `acquire`, goes on
within a function, calls `release`, `pop_off`, `intr_on` or `intr_off`, is interrupted,
returns from the interrupt, or switches. -/
inductive Op (P L : Type)
  | call (k : Call L)
  | next
  | release (lk : L)
  | popOff
  | intr (on : Bool)
  | trap
  | sret
  | sched
  | swtch (p : P)
  deriving DecidableEq

section Model

variable {C P L : Type}

def Sys.tid (s : Sys C P L) (c : C) : Tid C P :=
  match (s.cpu c).proc with
  | none => .scheduler c
  | some p => .proc p

def Sys.running (s : Sys C P L) (c : C) : Thread L := s.thread (s.tid c)

section Tid

variable {s s' : Sys C P L} {c c' : C} {p : P}

theorem tid_proc : s.tid c = .proc p ↔ (s.cpu c).proc = some p := by
  rw [Sys.tid]
  cases (s.cpu c).proc <;> simp

theorem tid_of_none (h : (s.cpu c).proc = none) : s.tid c = .scheduler c := by
  rw [Sys.tid, h]

theorem tid_congr (hproc : (s'.cpu c).proc = (s.cpu c).proc) : s'.tid c = s.tid c := by
  rw [Sys.tid, Sys.tid, hproc]

theorem tid_scheduler (h : s.tid c' = .scheduler c) : c' = c := by
  cases hp : (s.cpu c').proc with
  | none =>
    rw [tid_of_none hp] at h
    cases h
    rfl
  | some p =>
    rw [tid_proc.mpr hp] at h
    cases h

end Tid

section Def

variable [DecidableEq C] [DecidableEq P]

namespace Sys

def set (s : Sys C P L) (c : C) (x : Cpu P) (t : Thread L) : Sys C P L :=
  { s with
    cpu := update s.cpu c x
    thread := update s.thread (s.tid c) t }

def raise (s : Sys C P L) (c : C) (k : Call L) (old was : Bool) : Sys C P L :=
  let x := s.cpu c
  let t := s.running c
  s.set c
    { x with
      intena := if x.noff = 0 then old else x.intena
      noff := x.noff + 1 }
    { t with
      pc := match k with
        | .pushOff => .code
        | .acquire lk => .spin lk
      depth := t.depth + 1
      wasOn := if x.noff = 0 then was else t.wasOn }

def popOff (s : Sys C P L) (c : C) : Except Panic (Sys C P L) :=
  let x := s.cpu c
  let t := s.running c
  if x.sie then .error .popOffInterruptible
  else if x.noff < 1 then .error .popOff
  else .ok (s.set c
    { x with
      noff := x.noff - 1
      sie := decide (x.noff - 1 = 0) && x.intena }
    { t with
      pc := .code
      depth := t.depth - 1
      started := t.started || (x.proc.isSome && decide (x.noff - 1 = 0)) })

def sched (plock : P → L) (s : Sys C P L) (c : C) (p : P) : Except Panic (Sys C P L) :=
  let x := s.cpu c
  if s.lock (plock p) ≠ some c then .error .schedLock
  else if x.noff ≠ 1 then .error .schedLocks
  else if x.sie then .error .schedInterruptible
  else .ok
    { s with
      cpu := update s.cpu c { x with proc := none }
      thread := update s.thread (.proc p)
        { s.thread (.proc p) with pc := .swtch x.intena } }

def swtch (s : Sys C P L) (c : C) (p : P) : Sys C P L :=
  let t := s.thread (.proc p)
  { s with
    cpu := update s.cpu c { s.cpu c with proc := some p }
    thread := update s.thread (.proc p)
      { t with
        pc := match t.pc with
          | .swtch intena => .back intena
          | _ => .forkret } }

/-- The thread is inside a function and need not wait. -/
def Ready (s : Sys C P L) (c : C) : Pc L → Prop
  | .code => False
  | .fresh => False
  | .swtch _ => False
  | .spin lk => s.lock lk = none ∨ s.lock lk = some c
  | _ => True

/-- What the thread of a CPU can do next, by its point and how it uses the functions. -/
def Enabled (plock : P → L) (s : Sys C P L) : C × Op P L → Prop
  | (c, .call _) => (s.running c).pc = .code
  | (c, .next) => s.Ready c (s.running c).pc
  | (c, .release _) => (s.running c).pc = .code ∧ 0 < (s.running c).depth
  | (c, .popOff) => (s.running c).pc = .code ∧ 0 < (s.running c).depth
  | (c, .intr _) => (s.running c).pc = .code ∧ (s.running c).depth = 0
  | (c, .trap) => (s.cpu c).sie = true
  | (c, .sret) => (s.running c).pc = .code ∧ (s.running c).depth = 0 ∧ (s.running c).trapped ≠ []
  | (c, .sched) => (s.running c).pc = .code ∧ (s.cpu c).proc ≠ none
  | (c, .swtch p) =>
    (s.running c).pc = .code ∧ (s.cpu c).proc = none ∧ (s.running c).depth = 1 ∧
      s.lock (plock p) = some c ∧ (s.thread (.proc p)).pc.isOut = true

/-- Every CPU is in its scheduler with interrupts off, as after booting, and no process
has run. -/
structure Init (s : Sys C P L) : Prop where
  cpu : ∀ c, (s.cpu c).sie = false ∧ (s.cpu c).noff = 0 ∧ (s.cpu c).proc = none
  scheduler : ∀ c, s.thread (.scheduler c) = ⟨.code, [], 0, false, false⟩
  proc : ∀ p, s.thread (.proc p) = ⟨.fresh, [], 1, false, false⟩

variable [DecidableEq L]

def acquire (s : Sys C P L) (c : C) (lk : L) : Except Panic (Sys C P L) :=
  if s.lock lk = some c then .error .acquire
  else .ok
    { s.set c (s.cpu c) { s.running c with pc := .code } with
      lock := update s.lock lk (some c) }

def release (s : Sys C P L) (c : C) (lk : L) : Except Panic (Sys C P L) :=
  if s.lock lk = some c then .ok
    { s.set c (s.cpu c) { s.running c with pc := .pop } with
      lock := update s.lock lk none }
  else .error .release

def next (plock : P → L) (s : Sys C P L) (c : C) : Except Panic (Sys C P L) :=
  let x := s.cpu c
  let t := s.running c
  match t.pc with
  | .got k old => .ok (s.set c { x with sie := false } { t with pc := .off k old x.sie })
  | .off k old was => .ok (s.raise c k old was)
  | .spin lk => s.acquire c lk
  | .pop => s.popOff c
  | .forkret =>
    match x.proc with
    | some p => s.release c (plock p)
    | none => .ok s
  | .back intena => .ok (s.set c { x with intena } { t with pc := .code })
  | _ => .ok s

def step (plock : P → L) (s : Sys C P L) : C × Op P L → Except Panic (Sys C P L)
  | (c, .call k) => .ok (s.set c (s.cpu c) { s.running c with pc := .got k (s.cpu c).sie })
  | (c, .next) => s.next plock c
  | (c, .release lk) => s.release c lk
  | (c, .popOff) => s.popOff c
  | (c, .intr on) => .ok (s.set c { s.cpu c with sie := on } (s.running c))
  | (c, .trap) => .ok (s.set c { s.cpu c with sie := false }
      { s.running c with
        pc := .code
        trapped := (s.running c).pc :: (s.running c).trapped })
  | (c, .sret) =>
    match (s.running c).trapped with
    | pc :: trapped => .ok (s.set c { s.cpu c with sie := true } { s.running c with pc, trapped })
    | [] => .ok s
  | (c, .sched) =>
    match (s.cpu c).proc with
    | some p => s.sched plock c p
    | none => .ok s
  | (c, .swtch p) => .ok (s.swtch c p)

end Sys

abbrev Schedule [DecidableEq L] (plock : P → L) : Sys C P L → Prop :=
  Reachable Sys.Init (Sys.Enabled plock) (Sys.step plock)

instance (s : Sys C P L) (c : C) : (pc : Pc L) → Decidable (s.Ready c pc)
  | .code => .isFalse id
  | .fresh => .isFalse id
  | .swtch _ => .isFalse id
  | .spin _ => inferInstanceAs (Decidable (_ ∨ _))
  | .got .. => .isTrue trivial
  | .off .. => .isTrue trivial
  | .pop => .isTrue trivial
  | .forkret => .isTrue trivial
  | .back _ => .isTrue trivial

instance [DecidableEq L] (plock : P → L) (s : Sys C P L) :
    (a : C × Op P L) → Decidable (s.Enabled plock a)
  | (_, .call _) => inferInstanceAs (Decidable (_ = _))
  | (c, .next) => inferInstanceAs (Decidable (s.Ready c _))
  | (_, .release _) => inferInstanceAs (Decidable (_ ∧ _))
  | (_, .popOff) => inferInstanceAs (Decidable (_ ∧ _))
  | (_, .intr _) => inferInstanceAs (Decidable (_ ∧ _))
  | (_, .trap) => inferInstanceAs (Decidable (_ = _))
  | (_, .sret) => inferInstanceAs (Decidable (_ ∧ _ ∧ _))
  | (_, .sched) => inferInstanceAs (Decidable (_ ∧ _))
  | (_, .swtch _) => inferInstanceAs (Decidable (_ ∧ _ ∧ _ ∧ _ ∧ _))

end Def

end Model

end Xv6.Spinlock
