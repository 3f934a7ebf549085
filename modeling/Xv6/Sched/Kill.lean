import Xv6.Console.Basic
import Xv6.Pipe.Basic
import Xv6.Sched.OneCpu

/-!
Killing a process that is about to sleep.

`piperead`, `pipewrite`, `wait`, `consoleread` and `sys_sleep` call `killed`
before they sleep, but `killed` and `sleep` take the lock of the process one
after the other. A kill in between is not noticed: the process sleeps on. If no
kill comes there, a killed process never sleeps in one of these loops.
-/

namespace Xv6.Sched

open Ptable (State Chan Slot)
open Sys
open Function (update update_self update_of_ne update_eq_self)

variable {M N L : ℕ} {σ κ ι : Type}

/-! ### Points from which a process sleeps though it is killed -/

/-- A process at this point may sleep before it has found out that it is killed,
given the points of the code of which this is so. -/
def Pc.commits (window : κ → Bool) : Pc N L κ → Bool
  | .code k => window k
  | .acquire _ x => x.commits window
  | .release _ x => x.commits window
  | .yield x => x.commits window
  | .swtch x => x.commits window
  | .sleep _ _ _ => true
  | .woken _ _ x => x.commits window
  | .wakeup _ _ x => x.commits window
  | .rouse _ _ x => x.commits window
  | .kill _ _ x y => x.commits window || y.commits window
  | .hit _ _ x y => x.commits window || y.commits window
  | .killed x _ => x.commits window
  | .alloc _ x => x.commits window
  | .found _ x => x.commits window
  | .allocpid _ x => x.commits window
  | .setup _ x => x.commits window
  | .setParent _ x => x.commits window
  | .ready _ x => x.commits window
  | .reparent _ => false
  | .zombie => false
  | .dead => false
  | .scan _ _ x => x.commits window
  | .reap _ x => x.commits window

/-- The code sleeps only from the window, and gets there by `killed` only. -/
structure Heeds (code : Code N L σ κ ι) (window : κ → Bool) : Prop where
  start : window code.start = false
  exec : ∀ p x k io, window k = false → ((code.exec p x k io).2.start p).commits window = false

/-- The process that the step marks as killed. -/
def Sys.kills (s : Sys M N L σ κ) : Act M ι → Option (Fin N)
  | .step c _ _ =>
    match (s.cpu c).stack with
    | some q =>
      match s.pc q with
      | .hit pid j _ _ => if (s.proc j).pid = pid then some j else none
      | _ => none
    | none => none
  | .timer _ => none

/-- No process is killed after it has found out that it is not and before it
sleeps. -/
def KillSafe (window : κ → Bool) (s : Sys M N L σ κ) (a : Act M ι) : Prop :=
  ∀ j ∈ s.kills a, (s.pc j).commits window = false

instance (window : κ → Bool) (s : Sys M N L σ κ) (a : Act M ι) :
    Decidable (KillSafe window s a) :=
  inferInstanceAs (Decidable (∀ j ∈ s.kills a, _))

/-! ### Killed processes do not sleep -/

/-- A process that is killed finds it out before it sleeps. -/
def Awake (window : κ → Bool) (u : Slot N) (x : Pc N L κ) : Prop :=
  u.killed = true → x.commits window = false ∧ u.state ≠ .sleeping

def Heard (window : κ → Bool) (s : Sys M N L σ κ) : Prop := ∀ p, Awake window (s.proc p) (s.pc p)

theorem Jump.commits {window : κ → Bool} {s : Sys M N L σ κ} {p : Fin N} {x y : Pc N L κ}
    (h : Jump s p x y) (hkilled : (s.proc p).killed = true) (hx : x.commits window = false) :
    y.commits window = false := by
  cases h with
  | killEnd => exact (Bool.or_eq_false_iff.mp hx).2
  | notKilled hk => exact nomatch hk.symm.trans hkilled
  | reparentEnd => rfl
  | _ => exact hx

namespace Heard

variable {window : κ → Bool} {s s' : Sys M N L σ κ} {c : Fin M} {p : Fin N}
  {code : Code N L σ κ ι}

variable (h : Heard window s)
include h

theorem set {j : Fin N} {u : Slot N} {y : Pc N L κ} (hproc : s'.proc = update s.proc j u)
    (hpc : s'.pc = update s.pc p y) (hu : j ≠ p → Awake window u (s.pc j))
    (hself : j = p → Awake window u y) (hy : j ≠ p → Awake window (s.proc p) y) :
    Heard window s' := by
  intro q
  rw [hproc, hpc]
  by_cases hqp : q = p
  · grind
  · rw [update_of_ne hqp]
    by_cases hqj : q = j
    · subst hqj
      rw [update_self]
      exact hu hqp
    · rw [update_of_ne hqj]
      exact h q

theorem goto {y : Pc N L κ} (hproc : s'.proc = s.proc) (hpc : s'.pc = update s.pc p y)
    (hy : (s.proc p).killed = true → (s.pc p).commits window = false → y.commits window = false) :
    Heard window s' := by
  refine h.set (j := p) (hproc.trans (update_eq_self p s.proc).symm) hpc
    (fun hne => absurd rfl hne) (fun _ hk => ?_) fun hne => absurd rfl hne
  exact ⟨hy hk (h p hk).1, (h p hk).2⟩

theorem touch {j : Fin N} {u : Slot N} {y : Pc N L κ} (hproc : s'.proc = update s.proc j u)
    (hpc : s'.pc = update s.pc p y) (hu : u.killed = true → (s.proc j).killed = true ∧
      ((s.proc j).state ≠ .sleeping → u.state ≠ .sleeping))
    (hy : (s.pc p).commits window = false → y.commits window = false) : Heard window s' := by
  refine h.set hproc hpc (fun _ hk => ?_) (fun hjp hk => ?_) fun _ hk => ?_
  · obtain ⟨hj, hst⟩ := hu hk
    exact ⟨(h j hj).1, hst (h j hj).2⟩
  · obtain ⟨hj, hst⟩ := hu hk
    subst hjp
    exact ⟨hy (h j hj).1, hst (h j hj).2⟩
  · exact ⟨hy (h p hk).1, (h p hk).2⟩

theorem run_step (hcode : Heeds code window) {x : Pc N L κ} (hx : s.pc p = x)
    (hsafe : ∀ pid j y z, x = .hit pid j y z → (s.proc j).pid = pid →
      (s.pc j).commits window = false) (hs : Run code s c p x s') : Heard window s' := by
  cases hs with
  | jump hj => exact h.goto rfl rfl fun hk hp => hj.commits hk (hx ▸ hp)
  | code => exact h.goto rfl rfl fun _ hp => hcode.exec _ _ _ _ (by rwa [hx] at hp)
  | acquire | release | swtch => exact h.goto rfl rfl fun _ hp => by rwa [hx] at hp
  | yield | ready =>
    exact h.touch rfl rfl (fun hk => ⟨hk, fun _ => nofun⟩) fun hp => by rwa [hx] at hp
  | sleep =>
    -- here the process is not killed
    refine h.set rfl rfl (fun hne => absurd rfl hne) (fun _ hk => ?_) fun hne => absurd rfl hne
    have hp := (h p hk).1
    rw [hx] at hp
    cases hp
  | woken | allocpid | setParent =>
    exact h.touch rfl rfl (fun hk => ⟨hk, id⟩) fun hp => by rwa [hx] at hp
  | @rouse ch j x =>
    refine h.touch rfl rfl (fun hk => ?_) fun hp => by rwa [hx] at hp
    unfold Slot.rouse at hk ⊢
    split_ifs at hk ⊢ with hc
    · exact ⟨hk, fun _ => nofun⟩
    · exact ⟨hk, id⟩
  | @hit pid j x y hpid =>
    have hj := hsafe pid j x y rfl hpid
    have hkill : (s.proc j).kill.state ≠ .sleeping := by grind [Slot.kill]
    refine h.set rfl rfl (fun _ _ => ⟨hj, hkill⟩) (fun hjp _ => ⟨?_, hkill⟩) fun _ hk => ?_
    · rw [hjp, hx] at hj
      exact (Bool.or_eq_false_iff.mp hj).1
    · have hp := h p hk
      rw [hx] at hp
      exact ⟨(Bool.or_eq_false_iff.mp hp.1).1, hp.2⟩
  | noMemory | reap => exact h.touch rfl rfl nofun fun hp => by rwa [hx] at hp
  | @setup j x =>
    -- the new process first, then `p`
    have h₁ : Heard window
        ((s.setState j .used).goto j (.release (.proc j) (.code code.start))) :=
      h.set rfl rfl (fun hne => absurd rfl hne) (fun _ _ => ⟨hcode.start, nofun⟩)
        fun hne => absurd rfl hne
    refine h₁.set (j := p) (update_eq_self p _).symm rfl (fun hne => absurd rfl hne)
      (fun _ hk => ?_) fun hne => absurd rfl hne
    have hsame : ((s.setState j .used).proc p).killed = (s.proc p).killed :=
      update_proj Slot.killed rfl
    have hp := (h p (hsame ▸ hk)).1
    rw [hx] at hp
    exact ⟨hp, (h₁ p hk).2⟩
  | reparent => exact h.touch rfl rfl (fun hk => ⟨hk, id⟩) fun _ => rfl
  | zombie => exact h.touch rfl rfl (fun hk => ⟨hk, fun _ => nofun⟩) fun _ => rfl

theorem step {a : Act M ι} (hcode : Heeds code window)
    (hsafe : KillSafe window s a) (hs : Step code s a s') : Heard window s' := by
  cases hs with
  | @run c p io fail _ hc hrun =>
    refine h.run_step hcode rfl (fun pid j y z hx hpid => hsafe j ?_) hrun
    simp only [kills, hc, hx, hpid, if_true, Option.mem_some_iff]
  | @timer c p => exact h.goto rfl rfl fun _ hp => hp
  | @schedule c io fail _ hc hsched =>
    generalize (s.cpu c).pc = x at hsched
    cases hsched with
    | @pick p hstate =>
      exact h.touch (p := p) rfl (update_eq_self p s.pc).symm
        (fun hk => ⟨hk, fun _ => nofun⟩) id
    | _ => exact h

end Heard

theorem Heeds.heard {code : Code N L σ κ ι} {window : κ → Bool} {s : Sys M N L σ κ}
    (hcode : Heeds code window) (h : Reachable (Init code) (KillSafe window) (Sys.step code) s) :
    Heard window s := by
  refine h.invariant (I := Heard window) (fun s hs p hk => ?_) fun s a s' hI hok hs =>
    hI.step hcode hok (step_cases hs)
  rw [hs.killed] at hk
  cases hk

/-! ### The loops -/

/-- What the loops wait for: pipes, the console and the clock. -/
structure Devices (P : ℕ) where
  pipe : Fin P → Pipe
  cons : Cons
  ticks : UInt32

/-- Points of processes. `hit` is back from `kill`, which has returned 0, `leave` is before
the release at the end of a call, and `ticksWait` comes after `killed` has returned 0 to
`sys_sleep`. -/
inductive Point (P : ℕ)
  | user
  | hit
  | pipe (i : Fin P) (k : Pipe.Point)
  | cons (k : Cons.Point)
  | ticks0 (n : Int32)
  | ticks (n : Int32) (t : UInt32)
  | ticksWait (n : Int32) (t : UInt32)
  | clock
  | leave (l : Fin (P + 2))
  deriving DecidableEq

/-- The call that a process makes, or the interrupt that hits it, and the byte
that a copy moves from or to user memory if it does not fault. -/
inductive Input (P : ℕ)
  | pipe (i : Fin P) (k : Pipe.Point)
  | cons (k : Cons.Point)
  | sleep (n : Int32)
  | clockintr
  | kill (pid : Int32)
  | fork
  | exit
  | wait
  | byte (b : UInt8)

def Input.byte? {P : ℕ} : Input P → Option UInt8
  | .byte b => some b
  | _ => none

section Loops

variable {P : ℕ}

def pipeLock (i : Fin P) : Fin (P + 2) := i.castAdd 2

def consLock : Fin (P + 2) := Fin.natAdd P 0

def ticksLock : Fin (P + 2) := Fin.natAdd P 1

def pipeChan (i : Fin P) : Pipe.Chan → Chan N
  | .nread => .other (2 * i)
  | .nwrite => .other (2 * i + 1)

/-- A stretch of code under the lock `l`. Where it depends on `killed(pr)`, this is
called, and the process leaves if it returns 1. -/
def stretch {α β χ : Type} (l : Fin (P + 2)) (chan : χ → Chan N) (point : β → Point P)
    (exec : Bool → α × Monitor.Next β χ) : α × Op N (P + 2) (Point P) :=
  ((exec false).1,
    match (exec false).2, (exec true).2 with
    | .goto k, .done => .killed (.leave l) (point k)
    | .goto k, _ => .goto (point k)
    | .wakeup c k, _ => .wakeup (chan c) (point k)
    | .sleep c k, _ => .sleep (chan c) l (point k)
    | .done, _ => .release l .user)

def pipeOp (pi : Pipe) (i : Fin P) (k : Pipe.Point) (io : Option UInt8) :
    Pipe × Op N (P + 2) (Point P) :=
  stretch (pipeLock i) (pipeChan i) (.pipe i) fun killed => pi.exec killed io k

def consOp (cons : Cons) (k : Cons.Point) (io : Option UInt8) : Cons × Op N (P + 2) (Point P) :=
  stretch consLock (fun _ => .other (2 * P)) .cons fun killed => cons.exec killed io.isSome k

def loops : Code N (P + 2) (Devices P) (Point P) (Input P) where
  start := .user
  exec _ x k io :=
    match k with
    | .pipe i k =>
      let r := pipeOp (x.pipe i) i k io.byte?
      ({ x with pipe := update x.pipe i r.1 }, r.2)
    | .cons k =>
      let r := consOp x.cons k io.byte?
      ({ x with cons := r.1 }, r.2)
    | .ticks0 n => (x, .goto (.ticks (if n < 0 then 0 else n) x.ticks))
    | .ticks n t =>
      (x, if x.ticks - t < n.toUInt32 then .killed (.leave ticksLock) (.ticksWait n t)
        else .goto (.leave ticksLock))
    | .ticksWait n t => (x, .sleep (.other (2 * P + 1)) ticksLock (.ticks n t))
    | .clock => ({ x with ticks := x.ticks + 1 }, .wakeup (.other (2 * P + 1)) (.leave ticksLock))
    | .leave l => (x, .release l .user)
    | _ =>
      match io with
      | .pipe i k => (x, if Pipe.start k then .acquire (pipeLock i) (.pipe i k) else .goto .user)
      | .cons k => (x, if Cons.start k then .acquire consLock (.cons k) else .goto .user)
      | .sleep n => (x, .acquire ticksLock (.ticks0 n))
      | .clockintr => (x, .acquire ticksLock .clock)
      | .kill pid => (x, .kill pid .hit .user)
      | .fork => (x, .fork .user)
      | .exit => (x, .exit)
      | .wait => (x, .wait .user)
      | .byte _ => (x, .goto .user)

/-- The points between `killed` and `sleep`. -/
def window : Point P → Bool
  | .pipe _ (.put _ _) => true
  | .pipe _ (.full _ _) => true
  | .pipe _ (.empty _) => true
  | .cons (.empty _ _ _) => true
  | .ticksWait _ _ => true
  | _ => false

theorem pipeOp_commits (p : Fin N) (pi : Pipe) (i : Fin P) (k : Pipe.Point) (io : Option UInt8)
    (hk : window (.pipe i k) = false) : ((pipeOp pi i k io).2.start p).commits window = false := by
  cases k with
  | write n j dirty =>
    simp only [pipeOp, stretch, Pipe.exec]
    by_cases hj : j < n
    · grind [Op.start, Pc.commits, window]
    · simp [hj, Op.start, Pc.commits, window]
  | read n =>
    simp only [pipeOp, stretch, Pipe.exec]
    by_cases hempty : pi.Empty ∧ pi.writeopen
    · simp [hempty, Op.start, Pc.commits, window]
    · simp [hempty, Op.start, Pc.commits, window]
  | get n j =>
    simp only [pipeOp, stretch, Pipe.exec]
    split_ifs
    · rfl
    · cases io <;> rfl
    · rfl
  | close writable => cases writable <;> rfl
  | closed =>
    simp only [pipeOp, stretch, Pipe.exec]
    split_ifs <;> rfl
  | ret => rfl
  | put n j | full n j | empty n => cases hk

theorem consOp_commits (p : Fin N) (cons : Cons) (k : Cons.Point) (io : Option UInt8)
    (hk : window (P := P) (.cons k) = false) :
    ((consOp (P := P) cons k io).2.start p).commits window = false := by
  cases k with
  | read arg n got =>
    simp only [consOp, stretch, Cons.exec]
    by_cases hn : 0 < n
    · by_cases hempty : cons.r = cons.w
      · simp [hn, hempty, Op.start, Pc.commits, window]
      · simp only [hn, hempty, if_true, if_false, Cons.take]
        split_ifs <;> rfl
    · simp [hn, Op.start, Pc.commits, window]
  | intr c =>
    simp only [consOp, stretch, Cons.exec]
    split_ifs <;> rfl
  | ret => rfl
  | empty arg n got => cases hk

theorem loops_heed : Heeds (loops (N := N) (P := P)) window := by
  refine ⟨rfl, fun p x k io hk => ?_⟩
  have hcall (hk : k = .user ∨ k = .hit) :
      (((loops (N := N)).exec p x k io).2.start p).commits window = false := by
    rcases hk with rfl | rfl
    all_goals
      cases io with
      | pipe i k | cons k =>
        simp only [loops]
        cases k <;> first | rfl | (split_ifs <;> rfl)
      | _ => rfl
  cases k with
  | user => exact hcall (.inl rfl)
  | hit => exact hcall (.inr rfl)
  | pipe i k => exact pipeOp_commits p (x.pipe i) i k io.byte? hk
  | cons k => exact consOp_commits p x.cons k io.byte? hk
  | ticks0 n | clock | leave l => rfl
  | ticksWait n t => cases hk
  | ticks n t =>
    simp only [loops]
    split_ifs <;> rfl

def bootLoops : Sys 2 2 3 (Devices 1) (Point 1) where
  cpu _ := ⟨none, 0, none, .scan 0⟩
  proc p := ⟨if p = 0 then .runnable else .unused, none, false, if p = 0 then 1 else 0, none⟩
  pc p := .release (.proc p) (.code .user)
  lock _ := none
  nextpid := 2
  initproc := 0
  shared := ⟨fun _ => ⟨fun _ => 0, 0, 0, true, true, [], [], false⟩,
    ⟨fun _ => 0, 0, 0, 0, [], [], []⟩, 0⟩

theorem bootLoops_init : Init loops bootLoops :=
  ⟨fun _ => rfl, fun _ => rfl, fun _ => rfl, fun _ => rfl, fun _ => rfl, fun _ => rfl⟩

/-- `init` forks; `n` steps of the child, which calls `piperead`, then `init` kills
it, then `m` more steps of the child. -/
def killReader (n m : ℕ) : List (Act 2 (Input 1)) :=
  List.replicate 22 (.step 0 .fork false) ++
    List.replicate n (.step 1 (.pipe 0 (.read 1)) false) ++
      List.replicate 9 (.step 0 (.kill 2) false) ++
        List.replicate m (.step 1 (.pipe 0 (.read 1)) false)

/-- `kill` comes after `killed` has returned 0 to the reader. It returns 0, and
the reader goes to sleep. -/
theorem kill_lost_in_piperead : ∃ s : Sys 2 2 3 (Devices 1) (Point 1),
    Reachable (Init loops) (fun _ _ => True) (Sys.step loops) s ∧ s.pc 0 = .code .hit ∧
    (s.proc 1).pid = 2 ∧ (s.proc 1).killed = true ∧ (s.proc 1).state = .sleeping ∧
    (s.proc 1).chan = some (pipeChan (P := 1) 0 .nread) := by
  obtain ⟨s, hs, hv⟩ :
      ∃ s ∈ runActs (fun _ _ => True) (Sys.step loops) (killReader 12 6) bootLoops,
        s.pc 0 = .code .hit ∧ (s.proc 1).pid = 2 ∧ (s.proc 1).killed = true ∧
        (s.proc 1).state = .sleeping ∧ (s.proc 1).chan = some (pipeChan (P := 1) 0 .nread) := by
    decide +kernel
  exact ⟨s, (Reachable.init bootLoops_init).runActs hs, hv⟩

/-- If no process is killed between `killed`, which returns 0, and `sleep`, then
none sleeps in one of the loops after `kill` has marked it. -/
theorem killed_never_sleeps {s : Sys M N (P + 2) (Devices P) (Point P)}
    (h : Reachable (Init loops) (KillSafe window) (Sys.step loops) s) (p : Fin N)
    (hkilled : (s.proc p).killed = true) : (s.proc p).state ≠ .sleeping :=
  (loops_heed.heard h p hkilled).2

/-- `kill` comes when the reader sleeps, and wakes it. -/
theorem killed_never_sleeps_reader : ∃ s : Sys 2 2 3 (Devices 1) (Point 1),
    Reachable (Init loops) (KillSafe window) (Sys.step loops) s ∧ s.pc 0 = .code .hit ∧
    (s.proc 1).killed = true ∧ (s.proc 1).chan = some (pipeChan (P := 1) 0 .nread) ∧
    (s.proc 1).state ≠ .sleeping := by
  obtain ⟨s, hs, hpc, hkilled, hchan⟩ :
      ∃ s ∈ runActs (KillSafe window) (Sys.step loops) (killReader 19 0) bootLoops,
        s.pc 0 = .code .hit ∧ (s.proc 1).killed = true ∧
        (s.proc 1).chan = some (pipeChan (P := 1) 0 .nread) := by
    decide +kernel
  have hreach := (Reachable.init bootLoops_init).runActs hs
  exact ⟨s, hreach, hpc, hkilled, hchan, killed_never_sleeps hreach 1 hkilled⟩

end Loops

end Xv6.Sched
