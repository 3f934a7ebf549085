import Xv6.Lib.Machine
import Xv6.Param

/-!
The process table of `kernel/proc.c`.

A state has the table, `wait_lock`, and for every slot the point at which its process is
in the code. A step is one section of `wait_lock` or of the lock of one slot: a turn of
the loops of `allocproc`, `reparent`, `wakeup`, `wait` or `kill`, or one of the stretches
between them. `p->lock` is held across a step only in `sleep`, between giving up
`wait_lock` and becoming `SLEEPING` (`doze`), and there all others wait for it. Memory,
the page table and the trapframe are left out, except for the return value; that `kalloc`
or `copyout` fails is an input of the step.

Not in the source: every process gets a number of its own (`id`), since slots and pids are
used again, and keeps the one of the process that forked it (`creator`); `trace` is the
history of forks, exits and successful waits, newest first.
-/

namespace Xv6.Ptable

inductive State
  | unused
  | used
  | sleeping
  | runnable
  | running
  | zombie
  deriving DecidableEq

/-- The addresses that processes sleep on: that of a process, in `wait`, and all
others. -/
inductive Chan (N : ℕ)
  | proc (p : Fin N)
  | other (addr : ℕ)
  deriving DecidableEq

structure Slot (N : ℕ) where
  state : State
  chan : Option (Chan N)
  killed : Bool
  pid : Int32
  parent : Option (Fin N)

/-- `struct proc`. Open files and inodes are named by numbers. -/
structure Proc (N : ℕ) extends Slot N where
  xstate : Int32
  ofile : Fin NOFILE → Option ℕ
  cwd : Option ℕ
  id : ℕ
  creator : ℕ

variable {N : ℕ}

namespace Slot

def freeproc (x : Slot N) : Slot N :=
  { x with
    pid := 0
    parent := none
    chan := none
    killed := false
    state := .unused }

def rouse (c : Option (Chan N)) (x : Slot N) : Slot N :=
  if x.state = .sleeping ∧ x.chan = c then { x with state := .runnable } else x

def kill (x : Slot N) : Slot N :=
  { x with
    killed := true
    state := if x.state = .sleeping then .runnable else x.state }

end Slot

namespace Proc

def freeproc (x : Proc N) : Proc N := { x with toSlot := x.toSlot.freeproc, xstate := 0 }

def rouse (c : Option (Chan N)) (x : Proc N) : Proc N := { x with toSlot := x.toSlot.rouse c }

theorem rouse_eq (c : Option (Chan N)) (x : Proc N) : x.rouse c =
    if x.state = .sleeping ∧ x.chan = c then { x with state := .runnable } else x := by
  unfold rouse Slot.rouse
  split_ifs <;> rfl

def kill (x : Proc N) : Proc N := { x with toSlot := x.toSlot.kill }

def alloc (x : Proc N) (p : Proc N) (pid : Int32) (id : ℕ) : Proc N :=
  { x with
    pid := pid
    state := .used
    ofile := fun fd => (p.ofile fd).or (x.ofile fd)
    cwd := p.cwd
    id := id
    creator := p.id }

end Proc

/-- Where a process is. `idle` is for slots without one, and for those that do
not run yet or any more. `setParent` and `setRunnable` are the end of
`fork`, `closeFile` to `zombie` are `exit`, and `lock` to `asleep` are
`wait`. `wakeup c i next` is the loop of `wakeup(c)` in `exit`, where `c` is a
process; it is called from `reparent` if there is a slot `next` to go on
with. -/
inductive Pc (N : ℕ)
  | idle
  | user
  | alloc (j : ℕ)
  | setParent (np : Fin N)
  | setRunnable (np : Fin N)
  | closeFile (fd : ℕ) (status : Int32)
  | putCwd (status : Int32)
  | exit (status : Int32)
  | reparent (j : ℕ) (status : Int32)
  | wakeup (c : Option (Fin N)) (i : ℕ) (next : Option ℕ) (status : Int32)
  | zombie (status : Int32)
  | wait (addr : UInt64)
  | scan (addr : UInt64) (j : ℕ) (havekids : Bool)
  | sleep (addr : UInt64)
  | doze (addr : UInt64)
  | asleep (addr : UInt64)
  | kill (pid : Int32) (j : ℕ)
  deriving DecidableEq

namespace Pc

def holds : Pc N → Bool
  | .reparent .. => true
  | .wakeup .. => true
  | .zombie .. => true
  | .scan .. => true
  | .sleep .. => true
  | _ => false

def dozes : Pc N → Bool
  | .doze _ => true
  | _ => false

/-- At a place where the process may sleep on other addresses. -/
def mayNap : Pc N → Bool
  | .user => true
  | .closeFile .. => true
  | .putCwd .. => true
  | _ => false

end Pc

inductive Event
  | fork (child : ℕ) (pid : Int32) (creator : ℕ)
  | exit (id : ℕ) (pid status : Int32)
  | reap (child : ℕ) (pid status : Int32) (parent : ℕ)
  deriving DecidableEq

structure Sys (N : ℕ) where
  proc : Fin N → Proc N
  pc : Fin N → Pc N
  a0 : Fin N → Int32
  waitLock : Option (Fin N)
  nextpid : Int32
  nextId : ℕ
  trace : List Event

inductive Act (N : ℕ)
  | fork (p : Fin N)
  | exit (p : Fin N) (status : Int32)
  | wait (p : Fin N) (addr : UInt64)
  | kill (p : Fin N) (pid : Int32)
  | setFile (p : Fin N) (fd : Fin NOFILE) (f : Option ℕ)
  | setCwd (p : Fin N) (ip : ℕ)
  | step (p : Fin N) (fails : Bool)
  | sched (p : Fin N)
  | yield (p : Fin N)
  | nap (p : Fin N) (addr : ℕ)
  | rouse (p : Fin N)
  deriving DecidableEq

inductive Fault
  | disabled
  | initExiting
  deriving DecidableEq

namespace Sys

def update (s : Sys N) (q : Fin N) (f : Proc N → Proc N) : Sys N :=
  { s with proc := Function.update s.proc q (f (s.proc q)) }

def goto (s : Sys N) (p : Fin N) (c : Pc N) : Sys N :=
  { s with pc := Function.update s.pc p c }

def ret (s : Sys N) (p : Fin N) (v : Int32) : Sys N :=
  { s.goto p .user with a0 := Function.update s.a0 p v }

/-- Where the process is after the scheduler has chosen it: `sleep` returns to
the loop of `wait`. -/
def wakePc : Pc N → Pc N
  | .asleep addr => .wait addr
  | c => c

section

variable [NeZero N]

def run (s : Sys N) (p : Fin N) (fails : Bool) : Except Fault (Sys N) :=
  match s.pc p with
  | .alloc j =>
    if h : j < N then
      if (s.pc ⟨j, h⟩).dozes then .error .disabled
      else if (s.proc ⟨j, h⟩).state = .unused then
        if fails then
          .ok ({ s.update ⟨j, h⟩ Proc.freeproc with nextpid := s.nextpid + 1 }.ret p (-1))
        else
          .ok ({ s.update ⟨j, h⟩ fun x => x.alloc (s.proc p) s.nextpid s.nextId with
            nextpid := s.nextpid + 1
            nextId := s.nextId + 1
            trace := .fork s.nextId s.nextpid (s.proc p).id :: s.trace }.goto p
              (.setParent ⟨j, h⟩))
      else .ok (s.goto p (.alloc (j + 1)))
    else .ok (s.ret p (-1))
  | .setParent np =>
    if s.waitLock = none then
      .ok ((s.update np fun x => { x with parent := some p }).goto p (.setRunnable np))
    else .error .disabled
  | .setRunnable np =>
    .ok (((s.update np fun x => { x with state := .runnable }).ret np 0).ret p (s.proc np).pid)
  | .closeFile fd status =>
    if h : fd < NOFILE then
      .ok ((s.update p fun x => { x with ofile := Function.update x.ofile ⟨fd, h⟩ none }).goto p
        (.closeFile (fd + 1) status))
    else .ok (s.goto p (.putCwd status))
  | .putCwd status => .ok ((s.update p fun x => { x with cwd := none }).goto p (.exit status))
  | .exit status =>
    if s.waitLock = none then .ok { s.goto p (.reparent 0 status) with waitLock := some p }
    else .error .disabled
  | .reparent j status =>
    if h : j < N then
      if (s.proc ⟨j, h⟩).parent = some p then
        .ok ((s.update ⟨j, h⟩ fun x => { x with parent := some 0 }).goto p
          (.wakeup (some 0) 0 (some (j + 1)) status))
      else .ok (s.goto p (.reparent (j + 1) status))
    else .ok (s.goto p (.wakeup (s.proc p).parent 0 none status))
  | .wakeup c i next status =>
    if h : i < N then
      if ⟨i, h⟩ = p then .ok (s.goto p (.wakeup c (i + 1) next status))
      else if (s.pc ⟨i, h⟩).dozes then .error .disabled
      else .ok ((s.update ⟨i, h⟩ (Proc.rouse (c.map .proc))).goto p (.wakeup c (i + 1) next status))
    else
      match next with
      | some j => .ok (s.goto p (.reparent j status))
      | none => .ok (s.goto p (.zombie status))
  | .zombie status =>
    .ok { (s.update p fun x => { x with xstate := status, state := .zombie }).goto p .idle with
      waitLock := none
      trace := .exit (s.proc p).id (s.proc p).pid status :: s.trace }
  | .wait addr =>
    if s.waitLock = none then .ok { s.goto p (.scan addr 0 false) with waitLock := some p }
    else .error .disabled
  | .scan addr j havekids =>
    if h : j < N then
      if (s.proc ⟨j, h⟩).parent = some p then
        if (s.pc ⟨j, h⟩).dozes then .error .disabled
        else if (s.proc ⟨j, h⟩).state = .zombie then
          if addr ≠ 0 ∧ fails then .ok { s.ret p (-1) with waitLock := none }
          else
            .ok { (s.update ⟨j, h⟩ Proc.freeproc).ret p (s.proc ⟨j, h⟩).pid with
              waitLock := none
              trace := .reap (s.proc ⟨j, h⟩).id (s.proc ⟨j, h⟩).pid (s.proc ⟨j, h⟩).xstate
                (s.proc p).id :: s.trace }
        else .ok (s.goto p (.scan addr (j + 1) true))
      else .ok (s.goto p (.scan addr (j + 1) havekids))
    else if havekids = false ∨ (s.proc p).killed then .ok { s.ret p (-1) with waitLock := none }
    else .ok (s.goto p (.sleep addr))
  | .sleep addr => .ok { s.goto p (.doze addr) with waitLock := none }
  | .doze addr =>
    .ok ((s.update p fun x => { x with chan := some (.proc p), state := .sleeping }).goto p
      (.asleep addr))
  | .kill pid j =>
    if h : j < N then
      if (s.pc ⟨j, h⟩).dozes then .error .disabled
      else if (s.proc ⟨j, h⟩).pid = pid then .ok ((s.update ⟨j, h⟩ Proc.kill).ret p 0)
      else .ok (s.goto p (.kill pid (j + 1)))
    else .ok (s.ret p (-1))
  | _ => .error .disabled

def step (s : Sys N) : Act N → Except Fault (Sys N)
  | .fork p =>
    if s.pc p = .user ∧ (s.proc p).state = .running then .ok (s.goto p (.alloc 0))
    else .error .disabled
  | .exit p status =>
    if s.pc p = .user ∧ (s.proc p).state = .running then
      if p = 0 then .error .initExiting else .ok (s.goto p (.closeFile 0 status))
    else .error .disabled
  | .wait p addr =>
    if s.pc p = .user ∧ (s.proc p).state = .running then .ok (s.goto p (.wait addr))
    else .error .disabled
  | .kill p pid =>
    if s.pc p = .user ∧ (s.proc p).state = .running then .ok (s.goto p (.kill pid 0))
    else .error .disabled
  | .setFile p fd f =>
    if s.pc p = .user ∧ (s.proc p).state = .running then
      .ok (s.update p fun x => { x with ofile := Function.update x.ofile fd f })
    else .error .disabled
  | .setCwd p ip =>
    if s.pc p = .user ∧ (s.proc p).state = .running then
      .ok (s.update p fun x => { x with cwd := some ip })
    else .error .disabled
  | .step p fails => if (s.proc p).state = .running then s.run p fails else .error .disabled
  | .sched p =>
    if (s.proc p).state = .runnable then
      .ok ((s.update p fun x => { x with state := .running, chan := none }).goto p
        (wakePc (s.pc p)))
    else .error .disabled
  | .yield p =>
    if (s.proc p).state = .running ∧ (s.pc p).holds = false ∧ (s.pc p).dozes = false then
      .ok (s.update p fun x => { x with state := .runnable })
    else .error .disabled
  | .nap p addr =>
    if (s.proc p).state = .running ∧ (s.pc p).mayNap then
      .ok (s.update p fun x => { x with chan := some (.other addr), state := .sleeping })
    else .error .disabled
  | .rouse p =>
    match (s.proc p).chan with
    | some (.other addr) => .ok (s.update p (Proc.rouse (some (.other addr))))
    | _ => .error .disabled

end

end Sys

end Xv6.Ptable
