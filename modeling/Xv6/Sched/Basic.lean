import Xv6.Proc.Basic

/-!
Processes on CPUs: `scheduler`, `sched`, `yield`, `sleep`, `wakeup`, `kill`, `fork`,
`exit` and `wait` of `kernel/proc.c` over the spinlocks of `kernel/spinlock.c`.

Each of the `M` CPUs executes on one stack, its own, where `scheduler` runs, or the kernel
stack of a process; a step of the machine is one step of one CPU: taking a lock, releasing
one, or the stretch of code up to the next such point. `swtch` saves where the process is
and goes on where the scheduler was, or the other way round; what the CPU holds locked
stays locked.

A point of a process is written as what it still has to do: `acquire l x` is before
`acquire(l)` with `x` to follow. What processes do besides is given by some `Code`, which
works on shared data and calls the functions above, in any order; a timer interrupt makes
a process yield wherever interrupts are on. That memory runs out in `fork` or `copyout`
fails in `wait` is an input. Files, memory and the exit status are left out.
-/

namespace Xv6.Sched

open Ptable (State Chan Slot)
open Function (update)

/-- The spinlocks: those of the processes, `wait_lock`, `pid_lock` and others. -/
inductive Lock (N L : ℕ)
  | proc (p : Fin N)
  | wait
  | pid
  | other (l : Fin L)
  deriving DecidableEq, Fintype

/-- Where `scheduler` is in its loop: before it takes the lock of process `j`,
before it looks at its state, in `swtch`, and before it releases the lock. -/
inductive Loop (N : ℕ)
  | scan (j : ℕ)
  | test (p : Fin N)
  | switched (p : Fin N)
  | next (p : Fin N)
  deriving DecidableEq

/-- `struct cpu`; `stack` is the process on whose kernel stack the CPU executes,
if it is not its own. -/
structure Cpu (N : ℕ) where
  proc : Option (Fin N)
  noff : ℕ
  stack : Option (Fin N)
  pc : Loop N

/-- What a process has to do next. All but the first three are points inside
functions of `proc.c`: `yield` and `sleep` before they set the state, `swtch`
in `sched`, `woken` back in `sleep`, `rouse` and `hit` in the loops of `wakeup`
and `kill`, `alloc` to `ready` in `fork`, `reparent` to `dead` in `exit` and
`scan` and `reap` in `wait`. -/
inductive Pc (N L : ℕ) (κ : Type)
  | code (k : κ)
  | acquire (l : Lock N L) (x : Pc N L κ)
  | release (l : Lock N L) (x : Pc N L κ)
  | yield (x : Pc N L κ)
  | swtch (x : Pc N L κ)
  | sleep (c : Chan N) (l : Lock N L) (x : Pc N L κ)
  | woken (c : Chan N) (l : Lock N L) (x : Pc N L κ)
  | wakeup (c : Option (Chan N)) (j : ℕ) (x : Pc N L κ)
  | rouse (c : Option (Chan N)) (j : Fin N) (x : Pc N L κ)
  | kill (pid : Int32) (j : ℕ) (x y : Pc N L κ)
  | hit (pid : Int32) (j : Fin N) (x y : Pc N L κ)
  | killed (x y : Pc N L κ)
  | alloc (j : ℕ) (x : Pc N L κ)
  | found (j : Fin N) (x : Pc N L κ)
  | allocpid (j : Fin N) (x : Pc N L κ)
  | setup (j : Fin N) (x : Pc N L κ)
  | setParent (j : Fin N) (x : Pc N L κ)
  | ready (j : Fin N) (x : Pc N L κ)
  | reparent (j : ℕ)
  | zombie
  | dead
  | scan (j : ℕ) (havekids : Bool) (x : Pc N L κ)
  | reap (j : Fin N) (x : Pc N L κ)
  deriving DecidableEq

/-- How a stretch of code ends: with the call of a function and where to go on
when it returns. `killed` and `kill` go on in two ways, if the result is 1 or 0,
and if it is 0 or -1. -/
inductive Op (N L : ℕ) (κ : Type)
  | goto (k : κ)
  | acquire (l : Fin L) (k : κ)
  | release (l : Fin L) (k : κ)
  | sleep (c : Chan N) (l : Fin L) (k : κ)
  | wakeup (c : Chan N) (k : κ)
  | killed (k k' : κ)
  | kill (pid : Int32) (k k' : κ)
  | fork (k : κ)
  | exit
  | wait (k : κ)

/-- What processes do between such calls, given the data they share and an
input; a new process begins at `start`. -/
structure Code (N L : ℕ) (σ κ ι : Type) where
  start : κ
  exec : Fin N → σ → κ → ι → σ × Op N L κ

structure Sys (M N L : ℕ) (σ κ : Type) where
  cpu : Fin M → Cpu N
  proc : Fin N → Slot N
  pc : Fin N → Pc N L κ
  lock : Lock N L → Option (Fin M)
  nextpid : Int32
  initproc : Fin N
  shared : σ

/-- A CPU takes a step, or a timer interrupt hits it; `fail` is whether `kalloc`
or `copyout` fails in it. -/
inductive Act (M : ℕ) (ι : Type)
  | step (c : Fin M) (io : ι) (fail : Bool)
  | timer (c : Fin M)

inductive Fault
  | disabled
  | acquire
  | release
  | schedLock
  | schedLocks
  | schedRunning
  | initExiting
  | zombieExit
  deriving DecidableEq

variable {M N L : ℕ} {σ κ ι : Type}

def Pc.callSleep (p : Fin N) (c : Chan N) (l : Lock N L) (x : Pc N L κ) : Pc N L κ :=
  .acquire (.proc p) (.release l (.sleep c l x))

def Op.start (p : Fin N) : Op N L κ → Pc N L κ
  | .goto k => .code k
  | .acquire l k => .acquire (.other l) (.code k)
  | .release l k => .release (.other l) (.code k)
  | .sleep c l k => .callSleep p c (.other l) (.code k)
  | .wakeup c k => .wakeup (some c) 0 (.code k)
  | .killed k k' => .acquire (.proc p) (.killed (.code k) (.code k'))
  | .kill pid k k' => .kill pid 0 (.code k) (.code k')
  | .fork k => .alloc 0 (.code k)
  | .exit => .acquire .wait (.reparent 0)
  | .wait k => .acquire .wait (.scan 0 false (.code k))

def Op.isExit : Op N L κ → Bool
  | .exit => true
  | _ => false

namespace Sys

def goto (s : Sys M N L σ κ) (p : Fin N) (x : Pc N L κ) : Sys M N L σ κ :=
  { s with pc := update s.pc p x }

def setProc (s : Sys M N L σ κ) (p : Fin N) (x : Slot N) : Sys M N L σ κ :=
  { s with proc := update s.proc p x }

def setState (s : Sys M N L σ κ) (p : Fin N) (x : State) : Sys M N L σ κ :=
  s.setProc p { s.proc p with state := x }

def setCpu (s : Sys M N L σ κ) (c : Fin M) (x : Cpu N) : Sys M N L σ κ :=
  { s with cpu := update s.cpu c x }

def take (s : Sys M N L σ κ) (c : Fin M) (l : Lock N L) : Sys M N L σ κ :=
  { s.setCpu c { s.cpu c with noff := (s.cpu c).noff + 1 } with
    lock := update s.lock l (some c) }

def drop (s : Sys M N L σ κ) (c : Fin M) (l : Lock N L) : Sys M N L σ κ :=
  { s.setCpu c { s.cpu c with noff := (s.cpu c).noff - 1 } with
    lock := update s.lock l none }

def acquire (s : Sys M N L σ κ) (c : Fin M) (l : Lock N L) : Except Fault (Sys M N L σ κ) :=
  if s.lock l = some c then .error .acquire
  else if s.lock l = none then .ok (s.take c l)
  else .error .disabled

def release (s : Sys M N L σ κ) (c : Fin M) (l : Lock N L) : Except Fault (Sys M N L σ κ) :=
  if s.lock l = some c then .ok (s.drop c l) else .error .release

def gotoLoop (s : Sys M N L σ κ) (c : Fin M) (x : Loop N) : Sys M N L σ κ :=
  s.setCpu c { s.cpu c with pc := x }

/-- `swtch(&c->context, &p->context)` in `scheduler`, and what comes before. -/
def swtchTo (s : Sys M N L σ κ) (c : Fin M) (p : Fin N) : Sys M N L σ κ :=
  (s.setState p .running).setCpu c
    { s.cpu c with
      proc := some p
      stack := some p
      pc := .switched p }

/-- `swtch(&p->context, &c->context)` in `sched`. -/
def swtchFrom (s : Sys M N L σ κ) (c : Fin M) : Sys M N L σ κ :=
  s.setCpu c { s.cpu c with stack := none }

def schedule (s : Sys M N L σ κ) (c : Fin M) : Except Fault (Sys M N L σ κ) :=
  match (s.cpu c).pc with
  | .scan j =>
    if h : j < N then (s.acquire c (.proc ⟨j, h⟩)).map (·.gotoLoop c (.test ⟨j, h⟩))
    else .ok (s.gotoLoop c (.scan 0))
  | .test p =>
    if (s.proc p).state = .runnable then .ok (s.swtchTo c p) else .ok (s.gotoLoop c (.next p))
  | .switched p => .ok (s.setCpu c { s.cpu c with proc := none, pc := .next p })
  | .next p => (s.release c (.proc p)).map (·.gotoLoop c (.scan (p + 1)))

def run (code : Code N L σ κ ι) (s : Sys M N L σ κ) (c : Fin M) (p : Fin N) (io : ι)
    (fail : Bool) : Except Fault (Sys M N L σ κ) :=
  match s.pc p with
  | .code k =>
    if (code.exec p s.shared k io).2.isExit ∧ p = s.initproc then .error .initExiting
    else
      .ok { s.goto p ((code.exec p s.shared k io).2.start p) with
        shared := (code.exec p s.shared k io).1 }
  | .acquire l x => (s.acquire c l).map (·.goto p x)
  | .release l x => (s.release c l).map (·.goto p x)
  | .yield x => .ok ((s.setState p .runnable).goto p (.swtch (.release (.proc p) x)))
  | .swtch x =>
    if s.lock (.proc p) ≠ some c then .error .schedLock
    else if (s.cpu c).noff ≠ 1 then .error .schedLocks
    else if (s.proc p).state = .running then .error .schedRunning
    else .ok ((s.swtchFrom c).goto p x)
  | .sleep ch l x =>
    .ok ((s.setProc p { s.proc p with chan := some ch, state := .sleeping }).goto p
      (.swtch (.woken ch l x)))
  | .woken _ l x =>
    .ok ((s.setProc p { s.proc p with chan := none }).goto p
      (.release (.proc p) (.acquire l x)))
  | .wakeup ch j x =>
    if h : j < N then
      if j = p then .ok (s.goto p (.wakeup ch (j + 1) x))
      else .ok (s.goto p (.acquire (.proc ⟨j, h⟩) (.rouse ch ⟨j, h⟩ x)))
    else .ok (s.goto p x)
  | .rouse ch j x =>
    .ok ((s.setProc j ((s.proc j).rouse ch)).goto p (.release (.proc j) (.wakeup ch (j + 1) x)))
  | .kill pid j x y =>
    if h : j < N then .ok (s.goto p (.acquire (.proc ⟨j, h⟩) (.hit pid ⟨j, h⟩ x y)))
    else .ok (s.goto p y)
  | .hit pid j x y =>
    if (s.proc j).pid = pid then
      .ok ((s.setProc j (s.proc j).kill).goto p (.release (.proc j) x))
    else .ok (s.goto p (.release (.proc j) (.kill pid (j + 1) x y)))
  | .killed x y => .ok (s.goto p (.release (.proc p) (if (s.proc p).killed then x else y)))
  | .alloc j x =>
    if h : j < N then .ok (s.goto p (.acquire (.proc ⟨j, h⟩) (.found ⟨j, h⟩ x)))
    else .ok (s.goto p x)
  | .found j x =>
    if (s.proc j).state = .unused then .ok (s.goto p (.acquire .pid (.allocpid j x)))
    else .ok (s.goto p (.release (.proc j) (.alloc (j + 1) x)))
  | .allocpid j x =>
    .ok { (s.setProc j { s.proc j with pid := s.nextpid }).goto p (.release .pid (.setup j x)) with
      nextpid := s.nextpid + 1 }
  | .setup j x =>
    if fail then .ok ((s.setProc j (s.proc j).freeproc).goto p (.release (.proc j) x))
    else
      .ok (((s.setState j .used).goto j (.release (.proc j) (.code code.start))).goto p
        (.release (.proc j) (.acquire .wait (.setParent j x))))
  | .setParent j x =>
    .ok ((s.setProc j { s.proc j with parent := some p }).goto p
      (.release .wait (.acquire (.proc j) (.ready j x))))
  | .ready j x => .ok ((s.setState j .runnable).goto p (.release (.proc j) x))
  | .reparent j =>
    if h : j < N then
      if (s.proc ⟨j, h⟩).parent = some p then
        .ok ((s.setProc ⟨j, h⟩ { s.proc ⟨j, h⟩ with parent := some s.initproc }).goto p
          (.wakeup (some (.proc s.initproc)) 0 (.reparent (j + 1))))
      else .ok (s.goto p (.reparent (j + 1)))
    else
      .ok (s.goto p (.wakeup ((s.proc p).parent.map .proc) 0 (.acquire (.proc p) .zombie)))
  | .zombie => .ok ((s.setState p .zombie).goto p (.release .wait (.swtch .dead)))
  | .dead => .error .zombieExit
  | .scan j kids x =>
    if h : j < N then
      if (s.proc ⟨j, h⟩).parent = some p then
        .ok (s.goto p (.acquire (.proc ⟨j, h⟩) (.reap ⟨j, h⟩ x)))
      else .ok (s.goto p (.scan (j + 1) kids x))
    else if kids then
      .ok (s.goto p (.acquire (.proc p) (.killed (.release .wait x)
        (.callSleep p (.proc p) .wait (.scan 0 false x)))))
    else .ok (s.goto p (.release .wait x))
  | .reap j x =>
    if (s.proc j).state = .zombie then
      if fail then .ok (s.goto p (.release (.proc j) (.release .wait x)))
      else
        .ok ((s.setProc j (s.proc j).freeproc).goto p (.release (.proc j) (.release .wait x)))
    else .ok (s.goto p (.release (.proc j) (.scan (j + 1) true x)))

def step (code : Code N L σ κ ι) (s : Sys M N L σ κ) :
    Act M ι → Except Fault (Sys M N L σ κ)
  | .step c io fail =>
    match (s.cpu c).stack with
    | none => s.schedule c
    | some p => s.run code c p io fail
  | .timer c =>
    match (s.cpu c).stack with
    | none => .error .disabled
    | some p =>
      if (s.cpu c).noff = 0 then .ok (s.goto p (.acquire (.proc p) (.yield (s.pc p))))
      else .error .disabled

end Sys

end Xv6.Sched
