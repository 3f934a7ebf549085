import Xv6.Lib.Monitor
import Xv6.Sched.OneCpu

/-!
No wakeup is lost.

Processes wait for a condition under a lock, as in
`acquire(lk); while(!cond) sleep(chan, lk); ...; release(lk)`, and others make
it true and call `wakeup`. Seen from the lock, such a process is at one point of
a monitor (`View`), where `sleep` is one step that gives up the lock; so the
rule for monitors applies.
-/

namespace Xv6.Sched

open Ptable (State Chan Slot)
open Sys
open Function (update update_self update_of_ne update_eq_self)

variable {M N L : ℕ} {σ κ ι : Type}

theorem Slot.rouse_state (u : Slot N) (c : Option (Chan N)) :
    (u.rouse c).state = u.state ∨ (u.rouse c).state ≠ .sleeping := by
  unfold Slot.rouse
  split_ifs
  · exact .inr nofun
  · exact .inl rfl

theorem Slot.rouse_awake {u : Slot N} {c : Option (Chan N)} (h : u.chan = c) :
    (u.rouse c).state ≠ .sleeping := by
  unfold Slot.rouse
  split_ifs with hc
  · nofun
  · exact fun hs => hc ⟨hs, h⟩

theorem Slot.kill_state (u : Slot N) : u.kill.state ≠ .sleeping := by
  unfold Slot.kill
  by_cases h : u.state = .sleeping
  · simp [h]
  · simp [h]

/-! ### Channels -/

def ChanOk (u : Slot N) (x : Pc N L κ) : Prop :=
  u.chan = if u.state = .unused then none else x.chan

theorem ChanOk.awake {u : Slot N} {x y : Pc N L κ} (h : ChanOk u x) (hx : x.chan = none)
    (hy : y.chan = none) : ChanOk u y := by
  unfold ChanOk at *
  rw [h, hx, hy]

theorem ChanOk.rouse {u : Slot N} {x : Pc N L κ} (h : ChanOk u x) (c : Option (Chan N)) :
    ChanOk (u.rouse c) x := by
  unfold Slot.rouse
  split_ifs with hc
  · unfold ChanOk at *
    rw [hc.1] at h
    exact h
  · exact h

theorem ChanOk.kill {u : Slot N} {x : Pc N L κ} (h : ChanOk u x) : ChanOk u.kill x := by
  unfold ChanOk Slot.kill at *
  rw [h]
  by_cases hs : u.state = .sleeping
  · simp [hs]
  · simp [hs]

/-- Processes have a channel only while they sleep, or are about to leave
`sleep`. -/
def Chans (s : Sys M N L σ κ) : Prop := ∀ p, ChanOk (s.proc p) (s.pc p)

namespace Chans

variable {s s' : Sys M N L σ κ} {c : Fin M} {p : Fin N} {code : Code N L σ κ ι}

theorem goto {y : Pc N L κ} (h : Chans s) (hproc : s'.proc = s.proc) (hpc : s'.pc = update s.pc p y)
    (hx : (s.pc p).chan = none) (hy : y.chan = none) : Chans s' := by
  intro q
  rw [hproc, hpc]
  rcases eq_or_ne q p with rfl | hq
  · rw [update_self]
    exact (h q).awake hx hy
  · rw [update_of_ne hq]
    exact h q

theorem set {j : Fin N} {u : Slot N} {y : Pc N L κ} (h : Chans s)
    (hproc : s'.proc = update s.proc j u) (hpc : s'.pc = update s.pc p y)
    (hx : (s.pc p).chan = none) (hy : y.chan = none)
    (hu : ∀ x : Pc N L κ, ChanOk (s.proc j) x → ChanOk u x) : Chans s' := by
  intro q
  have hgoto : Chans (s.goto p y) := h.goto rfl rfl hx hy
  have hq := hgoto q
  rw [hproc, hpc]
  by_cases hqj : q = j
  · subst hqj
    rw [update_self]
    exact hu _ hq
  · rw [update_of_ne hqj]
    exact hq

theorem self {u : Slot N} {y : Pc N L κ} (h : Chans s) (hproc : s'.proc = update s.proc p u)
    (hpc : s'.pc = update s.pc p y) (hu : ChanOk u y) : Chans s' := by
  intro q
  rw [hproc, hpc]
  rcases eq_or_ne q p with rfl | hq
  · rw [update_self, update_self]
    exact hu
  · rw [update_of_ne hq, update_of_ne hq]
    exact h q

theorem run_step (h : Chans s) (hinv : Inv s) (hc : (s.cpu c).stack = some p) {x : Pc N L κ}
    (hx : s.pc p = x) (hs : Run code s c p x s') : Chans s' := by
  have hok : x.Ok p := hx ▸ hinv.ok p
  have hlive := hinv.live c p hc
  cases hs with
  | @jump x y hj =>
    refine h.goto rfl rfl ?_ ?_
    · rw [hx]
      cases hj <;> rfl
    · cases hj with
      | wakeupEnd | allocEnd => exact Pc.chan_of_has hok.1
      | killEnd => exact Pc.chan_of_has hok.2.1
      | _ => rfl
  | @code k io _ =>
    obtain ⟨-, hhas, -⟩ := (code.exec p s.shared k io).2.start_ok p
    exact h.goto rfl rfl (by rw [hx]; rfl) (Pc.chan_of_has hhas)
  | acquire => exact h.goto rfl rfl (by rw [hx]; rfl) hok.2.2.1
  | release => exact h.goto rfl rfl (by rw [hx]; rfl) hok.2.1
  | yield | zombie =>
    have hp := h p
    rw [ChanOk, hx, if_neg hlive] at hp
    exact h.self rfl rfl hp
  | swtch =>
    have hp := h p
    rw [ChanOk, hx] at hp
    exact h.self (update_eq_self p s.proc).symm rfl hp
  | sleep => exact h.self rfl rfl rfl
  | woken => exact h.self rfl rfl (if_neg hlive).symm
  | @rouse ch j x => exact h.set rfl rfl (by rw [hx]; rfl) rfl fun _ hu => hu.rouse ch
  | hit => exact h.set rfl rfl (by rw [hx]; rfl) rfl fun _ hu => hu.kill
  | allocpid | setParent | reparent => exact h.set rfl rfl (by rw [hx]; rfl) rfl fun _ hu => hu
  | noMemory | reap => exact h.set rfl rfl (by rw [hx]; rfl) rfl fun _ _ => rfl
  | @setup j x =>
    have hunused := hinv.child p j .unused hlive (by rw [hx]; rfl)
    have hjp : p ≠ j := by
      rintro rfl
      exact hlive hunused
    have hchan : (s.proc j).chan = none := by
      have hj := h j
      rwa [ChanOk, if_pos hunused] at hj
    -- the new process first, then `p`
    have h₁ : Chans ((s.setState j .used).goto j (.release (.proc j) (.code code.start))) :=
      h.self rfl rfl hchan
    refine h₁.goto rfl rfl ?_ rfl
    show (update s.pc j _ p).chan = none
    rw [update_of_ne hjp, hx]
    rfl
  | @ready j x =>
    have hused := hinv.child p j .used hlive (by rw [hx]; rfl)
    refine h.set rfl rfl (by rw [hx]; rfl) rfl fun y hu => ?_
    rw [ChanOk, hused] at hu
    exact hu

theorem step {a : Act M ι} (h : Chans s) (hinv : Inv s) (hs : Step code s a s') : Chans s' := by
  cases hs with
  | run hc hrun => exact h.run_step hinv hc rfl hrun
  | @timer c p hc hnoff =>
    have hhas := hinv.has_of_noff hnoff
    rw [has_of_stack hc] at hhas
    exact h.goto rfl rfl (Pc.chan_of_has hhas) rfl
  | @schedule c io fail _ hc hsched =>
    generalize (s.cpu c).pc = x at hsched
    cases hsched with
    | @pick p hstate =>
      refine h.self (p := p) rfl (update_eq_self p s.pc).symm ?_
      have hp := h p
      rw [ChanOk, hstate] at hp
      exact hp
    | _ => exact h

end Chans

/-! ### Waiting for a condition -/

/-- Points of processes that wait for the condition, or make it true. The last
two are points of the monitor only. -/
inductive At
  | idle
  | test
  | body
  | make
  | made
  | doze
  | leave
  deriving DecidableEq

inductive In
  | wait
  | make
  | set (b : Bool)
  | leave
  | kill (pid : Int32)
  | fork
  | exit
  | reap

/-- `acquire(lk); while(!cond) sleep(chan, lk); ...; release(lk)`, where the
dots may change the condition in any way, and
`acquire(lk); cond = 1; wakeup(chan); release(lk)`. Besides, processes kill,
fork, exit and wait for children. -/
def waitLoop (addr : ℕ) : Code N 1 Bool At In where
  start := .idle
  exec _ cond
    | .idle, .wait => (cond, .acquire 0 .test)
    | .idle, .make => (cond, .acquire 0 .make)
    | .idle, .kill pid => (cond, .kill pid .idle .idle)
    | .idle, .fork => (cond, .fork .idle)
    | .idle, .exit => (cond, .exit)
    | .idle, .reap => (cond, .wait .idle)
    | .test, _ => (cond, if cond then .goto .body else .sleep (.other addr) 0 .test)
    | .body, .set b => (b, .goto .body)
    | .body, _ => (cond, .release 0 .idle)
    | .make, _ => (true, .wakeup (.other addr) .made)
    | .made, _ => (cond, .release 0 .idle)
    | _, _ => (cond, .goto .idle)

/-- The same under the lock. The second flag is not in the source: it says that
the process which has the lock found the condition true, so that nobody
sleeps. -/
def monitor (addr : ℕ) : Monitor.Code (Bool × Bool) At (Chan N) In where
  start k := k = .test ∨ k = .make
  exec x k _ io :=
    match k, io with
    | .idle, _ => none
    | .test, _ => some (if x.1 then ((true, true), .goto .body) else (x, .goto .doze))
    | .doze, _ => some ((x.1, false), .sleep (.other addr) .test)
    | .body, .set b => some ((b, true), .goto .body)
    | .body, _ => some (x, .goto .leave)
    | .make, _ => some ((true, false), .wakeup (.other addr) .made)
    | .made, _ => some (x, .goto .leave)
    | .leave, _ => some ((x.1, false), .done)

inductive Exec (addr : ℕ) (x : Bool × Bool) : At → Bool × Bool → Monitor.Next At (Chan N) → Prop
  | go (h : x.1 = true) : Exec addr x .test (true, true) (.goto .body)
  | wait (h : x.1 = false) : Exec addr x .test x (.goto .doze)
  | sleep : Exec addr x .doze (x.1, false) (.sleep (.other addr) .test)
  | set {b} : Exec addr x .body (b, true) (.goto .body)
  | finish : Exec addr x .body x (.goto .leave)
  | wakeup : Exec addr x .make (true, false) (.wakeup (.other addr) .made)
  | made : Exec addr x .made x (.goto .leave)
  | done : Exec addr x .leave (x.1, false) .done

theorem exec_cases {addr : ℕ} {x x' : Bool × Bool} {k : At} {kd : Bool} {io : In}
    {next : Monitor.Next At (Chan N)} (h : (monitor addr).exec x k kd io = some (x', next)) :
    Exec addr x k x' next := by
  simp only [monitor] at h
  split at h
  · cases h
  · split_ifs at h with hx <;> cases h
    · exact .go hx
    · exact .wait (Bool.eq_false_iff.mpr hx)
  · cases h
    exact .sleep
  · cases h
    exact .set
  · cases h
    exact .finish
  · cases h
    exact .wakeup
  · cases h
    exact .made
  · cases h
    exact .done

def wakes (addr : ℕ) : Monitor.Wakes (monitor (N := N) addr) where
  entry k := k = .test ∨ k = .make
  here x _ k := (k = .doze → x.1 = false) ∧ (k = .body → x.2 = true)
  blocks x c _ := c = .other addr ∧ x.1 = false ∧ x.2 = false
  owes _ _ := False
  start k h := by simpa [monitor] using h
  resume x _ k h := by rcases h with rfl | rfl <;> exact ⟨nofun, nofun⟩
  goto {x k kd io x' k'} hhere hexec := by
    cases exec_cases hexec with
    | go hx => exact ⟨⟨nofun, fun _ => rfl⟩, by simp [hx]⟩
    | wait hx => exact ⟨⟨fun _ => hx, nofun⟩, fun _ _ h => h⟩
    | set => exact ⟨⟨nofun, fun _ => rfl⟩, by simp [hhere.2]⟩
    | finish | made => exact ⟨⟨nofun, nofun⟩, fun _ _ h => h⟩
  wakeup {x k kd io x' c' k'} hhere hexec := by
    cases exec_cases hexec with
    | wakeup => exact ⟨⟨nofun, nofun⟩, fun c k₀ h => .inl (h.resolve_right id).1⟩
  sleep {x k kd io x' c' k'} hhere hexec := by
    cases exec_cases hexec with
    | sleep => grind
  done {x k kd io x'} hhere hexec := by
    cases exec_cases hexec with
    | done => grind

/-! ### Processes as seen from the lock -/

/-- Nothing that has to do with the lock or the channel. -/
def Plain (addr : ℕ) : Pc N 1 At → Prop
  | .code k => k = .idle
  | .acquire l x => l ≠ .other 0 ∧ Plain addr x
  | .release l x => l ≠ .other 0 ∧ Plain addr x
  | .yield x => Plain addr x
  | .swtch x => Plain addr x
  | .sleep c l x => c ≠ .other addr ∧ l ≠ .other 0 ∧ Plain addr x
  | .woken c l x => c ≠ .other addr ∧ l ≠ .other 0 ∧ Plain addr x
  | .wakeup c _ x => c ≠ some (.other addr) ∧ Plain addr x
  | .rouse c _ x => c ≠ some (.other addr) ∧ Plain addr x
  | .kill _ _ x y => Plain addr x ∧ Plain addr y
  | .hit _ _ x y => Plain addr x ∧ Plain addr y
  | .killed x y => Plain addr x ∧ Plain addr y
  | .alloc _ x => Plain addr x
  | .found _ x => Plain addr x
  | .allocpid _ x => Plain addr x
  | .setup _ x => Plain addr x
  | .setParent _ x => Plain addr x
  | .ready _ x => Plain addr x
  | .reparent _ => True
  | .zombie => True
  | .dead => True
  | .scan _ _ x => Plain addr x
  | .reap _ x => Plain addr x

/-- Process `p` is about to take the lock and go on at `k`, possibly after an
interrupt. -/
inductive Waiting (p : Fin N) (k : At) : Pc N 1 At → Prop
  | want : Waiting p k (.acquire (.other 0) (.code k))
  | timer {x} (h : Waiting p k x) : Waiting p k (.acquire (.proc p) (.yield x))
  | yield {x} (h : Waiting p k x) : Waiting p k (.yield x)
  | swtch {x} (h : Waiting p k x) : Waiting p k (.swtch (.release (.proc p) x))
  | back {x} (h : Waiting p k x) : Waiting p k (.release (.proc p) x)

inductive Sleeping (addr : ℕ) : Pc N 1 At → Prop
  | swtch : Sleeping addr (.swtch (.woken (.other addr) (.other 0) (.code .test)))
  | woken : Sleeping addr (.woken (.other addr) (.other 0) (.code .test))

inductive View (addr : ℕ) (p : Fin N) :
    Pc N 1 At → State → Monitor.Pc At (Chan N) → Prop
  | plain {x t} (h : Plain addr x) : View addr p x t .out
  | wait {x t k} (h : Waiting p k x) : View addr p x t (.acq k)
  | woken {x t} (h : Sleeping addr x) (ht : t ≠ .sleeping) : View addr p x t (.acq .test)
  | asleep {x} (h : Sleeping addr x) : View addr p x .sleeping (.asleep (.other addr) .test)
  | run {k t} (hk : k = .test ∨ k = .body ∨ k = .make ∨ k = .made) :
      View addr p (.code k) t (.run k)
  | leave {t} : View addr p (.release (.other 0) (.code .idle)) t (.run .leave)
  | dozeLock {t} :
      View addr p (.callSleep p (.other addr) (.other 0) (.code .test)) t (.run .doze)
  | dozeRelease {t} :
      View addr p (.release (.other 0) (.sleep (.other addr) (.other 0) (.code .test))) t
        (.run .doze)
  | doze {t} :
      View addr p (.sleep (.other addr) (.other 0) (.code .test)) t (.doze (.other addr) .test)
  | wakeup {t j} :
      View addr p (.wakeup (some (.other addr)) j (.code .made)) t (.wake (.other addr) j .made)
  | rouseLock {t j} :
      View addr p (.acquire (.proc j) (.rouse (some (.other addr)) j (.code .made))) t
        (.wake (.other addr) j .made)
  | rouse {t j} :
      View addr p (.rouse (some (.other addr)) j (.code .made)) t (.wake (.other addr) j .made)
  | rouseRelease {t j i} :
      View addr p (.release (.proc j) (.wakeup (some (.other addr)) i (.code .made))) t
        (.wake (.other addr) i .made)

theorem View.state {addr : ℕ} {p : Fin N} {x : Pc N 1 At} {t t' : State}
    {v : Monitor.Pc At (Chan N)} (h : View addr p x t v) (ht' : t' ≠ .sleeping) :
    View addr p x t' v ∨ v = .asleep (.other addr) .test ∧ View addr p x t' (.acq .test) := by
  cases h with
  | plain h => exact .inl (.plain h)
  | wait h => exact .inl (.wait h)
  | woken h ht => exact .inl (.woken h ht')
  | asleep h => exact .inr ⟨rfl, .woken h ht'⟩
  | run hk => exact .inl (.run hk)
  | leave => exact .inl .leave
  | dozeLock => exact .inl .dozeLock
  | dozeRelease => exact .inl .dozeRelease
  | doze => exact .inl .doze
  | wakeup => exact .inl .wakeup
  | rouseLock => exact .inl .rouseLock
  | rouse => exact .inl .rouse
  | rouseRelease => exact .inl .rouseRelease

theorem View.has_of_doze {addr : ℕ} {p : Fin N} {x : Pc N 1 At} {t : State} {ch : Chan N} {k : At}
    (h : View addr p x t (.doze ch k)) : x.has p = some p := by
  cases h
  rfl

theorem View.of_asleep {addr : ℕ} {p : Fin N} {x : Pc N 1 At} {t : State} {ch : Chan N} {k : At}
    (h : View addr p x t (.asleep ch k)) : t = .sleeping ∧ x.chan = some (.other addr) := by
  cases h with
  | asleep hx => cases hx <;> exact ⟨rfl, rfl⟩

/-- The state of the machine, and of the monitor that the lock sees. -/
structure Rel (addr : ℕ) (s : Sys M N 1 Bool At)
    (m : Monitor.Sys N (Bool × Bool) At (Chan N)) : Prop where
  shared : m.shared.1 = s.shared
  view : ∀ p, View addr p (s.pc p) (s.proc p).state (m.pc p)
  lock : ∀ p, m.lock = some p ↔ ∃ c, s.lock (.other 0) = some c ∧ (s.cpu c).stack = some p
  owner : ∀ c, s.lock (.other 0) = some c → ∃ p, (s.cpu c).stack = some p
  held : ∀ p, m.lock = some p → ∃ k, (m.pc p).inside = some k
  doze : ∀ p c k, m.pc p = .doze c k → ∃ c, (s.cpu c).stack = some p
  inv : (wakes addr).Inv m

namespace Rel

variable {addr : ℕ} {s s' : Sys M N 1 Bool At} {m m' : Monitor.Sys N (Bool × Bool) At (Chan N)}
  {c : Fin M} {p : Fin N} {x y : Pc N 1 At}

variable (h : Rel addr s m)
include h

theorem frame (hshared : s'.shared = s.shared)
    (hview : ∀ q, View addr q (s'.pc q) (s'.proc q).state (m.pc q))
    (hlock : s'.lock (.other 0) = s.lock (.other 0))
    (hstack : ∀ c, (s'.cpu c).stack = (s.cpu c).stack) : Rel addr s' m := by
  refine ⟨h.shared.trans hshared.symm, hview, ?_, ?_, h.held, ?_, h.inv⟩
  · simp only [hlock, hstack]
    exact h.lock
  · simp only [hlock, hstack]
    exact h.owner
  · simp only [hstack]
    exact h.doze

theorem goto (hy : View addr p y (s.proc p).state (m.pc p)) : Rel addr (s.goto p y) m := by
  refine h.frame rfl (fun q => ?_) rfl fun _ => rfl
  rcases eq_or_ne q p with rfl | hq
  · rw [goto_pc_self]
    exact hy
  · rw [show (s.goto p y).pc q = s.pc q from update_of_ne hq ..]
    exact h.view q

theorem move {v : Monitor.Pc At (Chan N)} {d : Bool × Bool} (hpc : s'.pc = update s.pc p y)
    (hproc : ∀ q, q ≠ p → s'.proc q = s.proc q)
    (hshared : d.1 = s'.shared) (hlock : s'.lock = s.lock) (hcpu : s'.cpu = s.cpu)
    (hy : View addr p y (s'.proc p).state v) (hheld : m.lock = some p → ∃ k, v.inside = some k)
    (hdoze : ∀ c k, v ≠ .doze c k)
    (hinv : (wakes addr).Inv { m.setPc p v with shared := d }) :
    Rel addr s' { m.setPc p v with shared := d } := by
  refine ⟨hshared, fun q => ?_, ?_, ?_, fun q hq => ?_, fun q c k hq => ?_, hinv⟩
  · rw [hpc]
    show View addr q (update s.pc p y q) (s'.proc q).state (update m.pc p v q)
    rcases eq_or_ne q p with rfl | hq
    · rw [update_self, update_self]
      exact hy
    · rw [update_of_ne hq, update_of_ne hq, hproc q hq]
      exact h.view q
  · rw [hlock, hcpu]
    exact h.lock
  · rw [hlock, hcpu]
    exact h.owner
  · show ∃ k, (update m.pc p v q).inside = some k
    rcases eq_or_ne q p with rfl | hqp
    · rw [update_self]
      exact hheld hq
    · rw [update_of_ne hqp]
      exact h.held q hq
  · have hq : update m.pc p v q = .doze c k := hq
    rw [hcpu]
    rcases eq_or_ne q p with rfl | hqp
    · rw [update_self] at hq
      exact absurd hq (hdoze c k)
    · rw [update_of_ne hqp] at hq
      exact h.doze q c k hq

theorem setProc {j : Fin N} {u : Slot N} (hu : u.state = (s.proc j).state ∨ u.state ≠ .sleeping) :
    ∃ m', Rel addr (s.setProc j u) m' ∧ m'.shared = m.shared ∧ m'.lock = m.lock ∧
      ∀ q, m'.pc q = m.pc q ∨
        q = j ∧ m.pc q = .asleep (.other addr) .test ∧ m'.pc q = .acq .test := by
  have hself : (s.setProc j u).proc j = u := update_self ..
  have hother : ∀ q, q ≠ j → (s.setProc j u).proc q = s.proc q :=
    fun q hq => update_of_ne hq ..
  have key : View addr j (s.pc j) u.state (m.pc j) ∨
      m.pc j = .asleep (.other addr) .test ∧ View addr j (s.pc j) u.state (.acq .test) := by
    rcases hu with hu | hu
    · rw [hu]
      exact .inl (h.view j)
    · exact (h.view j).state hu
  rcases key with hview | ⟨hasleep, hview⟩
  · refine ⟨m, h.frame rfl (fun q => ?_) rfl fun _ => rfl, rfl, rfl, fun _ => .inl rfl⟩
    rcases eq_or_ne q j with rfl | hq
    · rw [hself]
      exact hview
    · rw [hother q hq]
      exact h.view q
  · have hin : (m.pc j).inside = none := by rw [hasleep]; rfl
    have hinv : (wakes addr).Inv (m.setPc j (.acq .test)) :=
      h.inv.shift (fun _ _ => rfl) hin rfl (fun k hk => by cases hk; exact .inl rfl) nofun
    refine ⟨m.setPc j (.acq .test), ⟨h.shared, fun q => ?_, h.lock, h.owner, fun q hq => ?_,
      fun q c k hq => ?_, hinv⟩, rfl, rfl, fun q => ?_⟩
    · rcases eq_or_ne q j with rfl | hq
      · rw [hself, show (m.setPc q (.acq .test)).pc q = .acq .test from update_self ..]
        exact hview
      · rw [hother q hq, show (m.setPc j (.acq .test)).pc q = m.pc q from
          update_of_ne hq ..]
        exact h.view q
    · obtain ⟨k, hk⟩ := h.held q hq
      have hqj : q ≠ j := fun heq => by
        rw [heq, hin] at hk
        cases hk
      exact ⟨k, by rwa [show (m.setPc j (.acq .test)).pc q = m.pc q from
        update_of_ne hqj ..]⟩
    · have hqj : q ≠ j := fun heq => by
        rw [heq, show (m.setPc j (.acq .test)).pc j = .acq .test from update_self ..] at hq
        cases hq
      rw [show (m.setPc j (.acq .test)).pc q = m.pc q from update_of_ne hqj ..] at hq
      exact h.doze q c k hq
    · rcases eq_or_ne q j with rfl | hq
      · exact .inr ⟨rfl, hasleep, update_self ..⟩
      · exact .inl (update_of_ne hq ..)

theorem lock_iff (hinv : Inv s) (hc : (s.cpu c).stack = some p) :
    m.lock = some p ↔ s.lock (.other 0) = some c := by
  rw [h.lock p]
  constructor
  · rintro ⟨c', hlock, hc'⟩
    rwa [← hinv.stack_uniq hc hc']
  · exact fun hlock => ⟨c, hlock, hc⟩

theorem lock_of_inside {k : At} (hinv : Inv s) (hc : (s.cpu c).stack = some p)
    (hk : (m.pc p).inside = some k) : s.lock (.other 0) = some c :=
  (h.lock_iff hinv hc).mp (h.inv.holder p k hk)

theorem otherLock {l : Lock N 1} (hl : l ≠ .other 0) :
    Rel addr (s.take c l) m ∧ Rel addr (s.drop c l) m :=
  ⟨h.frame rfl h.view (update_of_ne (Ne.symm hl) ..) fun _ => update_proj Cpu.stack rfl,
    h.frame rfl h.view (update_of_ne (Ne.symm hl) ..) fun _ => update_proj Cpu.stack rfl⟩

theorem restack {u : Cpu N} (hfree : s.lock (.other 0) ≠ some c)
    (hdoze : ∀ q ch k, m.pc q = .doze ch k → (s.cpu c).stack ≠ some q) :
    Rel addr (s.setCpu c u) m := by
  have hstack {c' : Fin M} (hne : c' ≠ c) : ((s.setCpu c u).cpu c').stack = (s.cpu c').stack :=
    congrArg Cpu.stack (update_of_ne hne ..)
  refine ⟨h.shared, h.view, fun q => ?_, fun c' hc' => ?_, h.held, fun q ch k hq => ?_, h.inv⟩
  · rw [h.lock q]
    refine exists_congr fun c' => and_congr_right fun hlock => ?_
    rw [hstack fun heq => hfree (heq ▸ hlock)]
  · rw [hstack fun heq => hfree (heq ▸ hc')]
    exact h.owner c' hc'
  · grind [h.doze]

theorem swtch (hinv : Inv s) (hc : (s.cpu c).stack = some p)
    (hy : View addr p y (s.proc p).state (m.pc p)) (hin : (m.pc p).inside = none)
    (hdoze : ∀ c k, m.pc p ≠ .doze c k) : Rel addr ((s.swtchFrom c).goto p y) m := by
  refine (h.restack (fun hlock => ?_) fun q ch k hq hcq => ?_).goto hy
  · grind [h.held, h.lock_iff]
  · obtain rfl := Option.some.inj (hc.symm.trans hcq)
    exact hdoze ch k hq

theorem touch {j : Fin N} {u : Slot N} {v : Monitor.Pc At (Chan N)} (hp : m.pc p = v)
    (hv : v ≠ .asleep (.other addr) .test) (hu : u.state = (s.proc j).state ∨ u.state ≠ .sleeping)
    (hy : ∀ t, View addr p y t v) : ∃ m', Rel addr ((s.setProc j u).goto p y) m' := by
  obtain ⟨m', h', -, -, hpc⟩ := h.setProc hu
  refine ⟨m', h'.goto ?_⟩
  have hsame : m'.pc p = v := by grind
  rw [hsame]
  exact hy _

theorem plain {j : Fin N} {u : Slot N} (hp : m.pc p = .out)
    (hu : u.state = (s.proc j).state ∨ u.state ≠ .sleeping) (hy : Plain addr y) :
    ∃ m', Rel addr ((s.setProc j u).goto p y) m' :=
  h.touch hp nofun hu fun _ => .plain hy

end Rel

theorem Plain.jump {addr : ℕ} {s : Sys M N 1 Bool At} {p : Fin N} {x y : Pc N 1 At}
    (hj : Jump s p x y) (h : Plain addr x) : Plain addr y := by
  cases hj with
  | wakeupSelf | allocEnd | scanNext => exact h
  | wakeup | kill | miss | alloc | found | inUse | child | noKids | alive => exact ⟨by rintro ⟨⟩, h⟩
  | wakeupEnd | killEnd => exact h.2
  | killed => exact ⟨by rintro ⟨⟩, h.1⟩
  | notKilled => exact ⟨by rintro ⟨⟩, h.2⟩
  | reparentNext => trivial
  | reparentEnd =>
    refine ⟨?_, by rintro ⟨⟩, trivial⟩
    cases (s.proc p).parent <;> rintro ⟨⟩
  | kids =>
    exact ⟨by rintro ⟨⟩, ⟨by rintro ⟨⟩, h⟩, by rintro ⟨⟩, by rintro ⟨⟩, by rintro ⟨⟩, by rintro ⟨⟩,
      h⟩
  | copyoutFails => exact ⟨by rintro ⟨⟩, by rintro ⟨⟩, h⟩

namespace Rel

variable {addr : ℕ} {s s' : Sys M N 1 Bool At} {m m' : Monitor.Sys N (Bool × Bool) At (Chan N)}
  {c : Fin M} {p : Fin N} {x y : Pc N 1 At}

theorem adopt {j : Fin N} (h : Rel addr s m) (hj : ∀ c, (s.cpu c).stack ≠ some j)
    (hy : Plain addr y) (t : State) : Rel addr ((s.setState j t).goto j y) (m.setPc j .out) := by
  have hin : (m.pc j).inside = none := by
    refine Option.eq_none_iff_forall_ne_some.mpr fun k hk => ?_
    obtain ⟨c, -, hc⟩ := (h.lock j).mp (h.inv.holder j k hk)
    exact hj c hc
  have hinv : (wakes addr).Inv (m.setPc j .out) :=
    h.inv.shift (fun _ _ => rfl) hin rfl nofun nofun
  refine ⟨h.shared, fun q => ?_, h.lock, h.owner, fun q hq => ?_, fun q ch k hq => ?_, hinv⟩
  · show View addr q (update s.pc j y q) _ (update m.pc j .out q)
    rcases eq_or_ne q j with rfl | hq
    · rw [update_self, update_self]
      exact .plain hy
    · rw [update_of_ne hq, update_of_ne hq]
      show View addr q (s.pc q) (update s.proc j _ q).state (m.pc q)
      rw [update_of_ne hq]
      exact h.view q
  · obtain ⟨c, -, hc⟩ := (h.lock q).mp hq
    have hqj : q ≠ j := fun heq => hj c (heq ▸ hc)
    rw [show (m.setPc j .out).pc q = m.pc q from update_of_ne hqj ..]
    exact h.held q hq
  · have hqj : q ≠ j := fun heq => by
      rw [heq, show (m.setPc j .out).pc j = .out from update_self ..] at hq
      cases hq
    rw [show (m.setPc j .out).pc q = m.pc q from update_of_ne hqj ..] at hq
    exact h.doze q ch k hq

theorem run_plain (h : Rel addr s m) (hinv : Inv s) (hc : (s.cpu c).stack = some p)
    (hx : s.pc p = x) (hp : m.pc p = .out) (hplain : Plain addr x)
    (hs : Run (waitLoop addr) s c p x s') : ∃ m', Rel addr s' m' := by
  have hgoto {y : Pc N 1 At} (hy : Plain addr y) : Rel addr (s.goto p y) m :=
    h.goto (by rw [hp]; exact .plain hy)
  have hcall {k : At} (hk : k = .test ∨ k = .make) :
      ∃ m', Rel addr { s.goto p (.acquire (.other 0) (.code k)) with shared := s.shared } m' := by
    have hin : (m.pc p).inside = none := by rw [hp]; rfl
    have hshift : (wakes addr).Inv (m.setPc p (.acq k)) :=
      h.inv.shift (fun _ _ => rfl) hin rfl (fun k' hk' => by cases hk'; exact hk) (by rintro _ _ ⟨⟩)
    refine ⟨_, h.move rfl (fun _ _ => rfl) h.shared rfl rfl (.wait .want) (fun hlock => ?_)
      (by rintro _ _ ⟨⟩) hshift⟩
    obtain ⟨k', hk'⟩ := h.held p hlock
    rw [hin] at hk'
    cases hk'
  cases hs with
  | jump hj => exact ⟨m, hgoto (hplain.jump hj)⟩
  | @code k io _ =>
    obtain rfl : k = .idle := hplain
    cases io with
    | wait => exact hcall (.inl rfl)
    | make => exact hcall (.inr rfl)
    | kill pid => exact ⟨m, hgoto ⟨rfl, rfl⟩⟩
    | fork | set b | leave => exact ⟨m, hgoto rfl⟩
    | exit => exact ⟨m, hgoto ⟨by rintro ⟨⟩, trivial⟩⟩
    | reap => exact ⟨m, hgoto ⟨by rintro ⟨⟩, rfl⟩⟩
  | acquire => exact ⟨m, (h.otherLock hplain.1).1.goto (by rw [hp]; exact .plain hplain.2)⟩
  | release => exact ⟨m, (h.otherLock hplain.1).2.goto (by rw [hp]; exact .plain hplain.2)⟩
  | yield | noMemory | ready => exact h.plain hp (.inr (by rintro ⟨⟩)) ⟨by rintro ⟨⟩, hplain⟩
  | swtch =>
    exact ⟨m, h.swtch hinv hc (by rw [hp]; exact .plain hplain) (by rw [hp]; rfl)
      (by rw [hp]; rintro _ _ ⟨⟩)⟩
  | @sleep ch l x =>
    refine ⟨m, h.frame rfl (fun q => ?_) rfl fun _ => rfl⟩
    rcases eq_or_ne q p with rfl | hq
    · rw [goto_pc_self, hp]
      exact .plain hplain
    · simp only [Sys.goto, Sys.setProc, update_of_ne hq]
      exact h.view q
  | woken => exact h.plain hp (.inl rfl) ⟨by rintro ⟨⟩, hplain.2⟩
  | rouse => exact h.plain hp (Slot.rouse_state ..) ⟨by rintro ⟨⟩, hplain⟩
  | hit => exact h.plain hp (.inr (Slot.kill_state _)) ⟨by rintro ⟨⟩, hplain.1⟩
  | @allocpid j x =>
    obtain ⟨m', h'⟩ := h.plain (j := j) (u := { s.proc j with pid := s.nextpid })
      (y := .release .pid (.setup j x)) hp (.inl rfl) ⟨by rintro ⟨⟩, hplain⟩
    exact ⟨m', h'.frame rfl h'.view rfl fun _ => rfl⟩
  | @setup j x =>
    have hunused := hinv.child p j .unused (hinv.live c p hc) (by rw [hx]; rfl)
    have hadopt := h.adopt (j := j) (y := .release (.proc j) (.code .idle))
      (fun c' hc' => hinv.live c' j hc' hunused) ⟨by rintro ⟨⟩, rfl⟩ .used
    have hpj : p ≠ j := by
      rintro rfl
      exact hinv.live c p hc hunused
    refine ⟨_, hadopt.goto ?_⟩
    rw [show (m.setPc j .out).pc p = m.pc p from update_of_ne hpj .., hp]
    exact .plain ⟨by rintro ⟨⟩, by rintro ⟨⟩, hplain⟩
  | setParent => exact h.plain hp (.inl rfl) ⟨by rintro ⟨⟩, by rintro ⟨⟩, hplain⟩
  | reparent => exact h.plain hp (.inl rfl) ⟨by rintro ⟨⟩, trivial⟩
  | zombie => exact h.plain hp (.inr (by rintro ⟨⟩)) ⟨by rintro ⟨⟩, trivial⟩
  | reap => exact h.plain hp (.inr (by rintro ⟨⟩)) ⟨by rintro ⟨⟩, by rintro ⟨⟩, hplain⟩

theorem take {k : At} (h : Rel addr s m) (hc : (s.cpu c).stack = some p)
    (hp : m.pc p = .acq k) (hfree : s.lock (.other 0) = none) :
    Rel addr ((s.take c (.other 0)).goto p (.code k))
      { m.setPc p (.run k) with lock := some p } := by
  have hlock : m.lock = none := by
    refine Option.eq_none_iff_forall_ne_some.mpr fun q hq => ?_
    obtain ⟨c', hc', -⟩ := (h.lock q).mp hq
    exact nomatch hfree.symm.trans hc'
  have hentry := h.inv.entry p k (by rw [hp]; rfl)
  have hstack (c' : Fin M) : ((s.take c (.other 0)).cpu c').stack = (s.cpu c').stack :=
    update_proj Cpu.stack rfl
  have hnew : (s.take c (.other 0)).lock (.other 0) = some c := by simp only [Sys.take, update_self]
  refine ⟨h.shared, fun q => ?_, fun q => ?_, fun c' hc' => ?_, fun q hq => ?_,
    fun q ch k' hq => ?_, h.inv.acquire hp hlock⟩
  · show View addr q (update s.pc p (.code k) q) (s.proc q).state
      (update m.pc p (.run k) q)
    rcases eq_or_ne q p with rfl | hq
    · rw [update_self, update_self]
      exact .run (hentry.imp_right fun h => .inr (.inl h))
    · rw [update_of_ne hq, update_of_ne hq]
      exact h.view q
  · show some p = some q ↔ ∃ c', (s.take c (.other 0)).lock (.other 0) = some c' ∧
      ((s.take c (.other 0)).cpu c').stack = some q
    simp only [hnew, hstack, Option.some.injEq, exists_eq_left', hc]
  · obtain rfl : c = c' := Option.some.inj (hnew.symm.trans hc')
    exact ⟨p, (hstack c).trans hc⟩
  · obtain rfl : p = q := Option.some.inj hq
    refine ⟨k, ?_⟩
    show (update m.pc p (.run k) p).inside = some k
    rw [update_self]
    rfl
  · have hq : update m.pc p (.run k) q = .doze ch k' := hq
    rcases eq_or_ne q p with rfl | hqp
    · rw [update_self] at hq
      cases hq
    · rw [update_of_ne hqp] at hq
      obtain ⟨c', hc'⟩ := h.doze q ch k' hq
      exact ⟨c', (hstack c').trans hc'⟩

theorem drop {v : Monitor.Pc At (Chan N)} {d : Bool × Bool} (h : Rel addr s m)
    (hc : (s.cpu c).stack = some p) (hy : View addr p y (s.proc p).state v) (hd : d.1 = m.shared.1)
    (hleave : (wakes addr).Inv { m.setPc p v with shared := d, lock := none }) :
    Rel addr ((s.drop c (.other 0)).goto p y)
      { m.setPc p v with shared := d, lock := none } := by
  have hstack (c' : Fin M) : ((s.drop c (.other 0)).cpu c').stack = (s.cpu c').stack :=
    update_proj Cpu.stack rfl
  have hnew : (s.drop c (.other 0)).lock (.other 0) = none := by simp only [Sys.drop, update_self]
  refine ⟨hd.trans h.shared, fun q => ?_, fun q => ?_, fun c' hc' => ?_, by rintro _ ⟨⟩,
    fun q ch k' hq => ?_, hleave⟩
  · show View addr q (update s.pc p y q) (s.proc q).state (update m.pc p v q)
    rcases eq_or_ne q p with rfl | hq
    · rw [update_self, update_self]
      exact hy
    · rw [update_of_ne hq, update_of_ne hq]
      exact h.view q
  · show none = some q ↔ ∃ c', (s.drop c (.other 0)).lock (.other 0) = some c' ∧ _
    simp [hnew]
  · cases hnew.symm.trans hc'
  · have hq : update m.pc p v q = .doze ch k' := hq
    rcases eq_or_ne q p with rfl | hqp
    · exact ⟨c, (hstack c).trans hc⟩
    · rw [update_of_ne hqp] at hq
      obtain ⟨c', hc'⟩ := h.doze q ch k' hq
      exact ⟨c', (hstack c').trans hc'⟩

theorem run_waiting {k : At} (h : Rel addr s m) (hinv : Inv s) (hc : (s.cpu c).stack = some p)
    (hp : m.pc p = .acq k) (hwait : Waiting p k x)
    (hs : Run (waitLoop addr) s c p x s') : ∃ m', Rel addr s' m' := by
  cases hwait with
  | want =>
    cases hs with
    | acquire hfree => exact ⟨_, h.take hc hp hfree⟩
    | jump hj => cases hj
  | timer hw =>
    cases hs with
    | acquire hfree =>
      exact ⟨m, (h.otherLock (l := .proc p) nofun).1.goto (by rw [hp]; exact .wait (.yield hw))⟩
    | jump hj => cases hj
  | yield hw =>
    cases hs with
    | yield => exact h.touch hp nofun (.inr nofun) fun _ => .wait (.swtch hw)
    | jump hj => cases hj
  | swtch hw =>
    cases hs with
    | swtch =>
      exact ⟨m, h.swtch hinv hc (by rw [hp]; exact .wait (.back hw)) (by rw [hp]; rfl)
        (by rw [hp]; nofun)⟩
    | jump hj => cases hj
  | back hw =>
    cases hs with
    | release => exact ⟨m, (h.otherLock (l := .proc p) nofun).2.goto (by rw [hp]; exact .wait hw)⟩
    | jump hj => cases hj

theorem leave {k : At} {d : Bool × Bool} {next : Monitor.Next At (Chan N)} (io : In)
    (h : Rel addr s m) (hp : m.pc p = .run k)
    (hexec : (monitor addr).exec m.shared k (m.killed p) io = some (d, next)) :
    (wakes addr).Inv (m.leave p d next) :=
  h.inv.leave hp hexec

theorem inside {k k' : At} {d : Bool × Bool} (io : In) (h : Rel addr s m) (hp : m.pc p = .run k)
    (hpc : s'.pc = update s.pc p y) (hproc : s'.proc = s.proc) (hshared : d.1 = s'.shared)
    (hlock : s'.lock = s.lock) (hcpu : s'.cpu = s.cpu)
    (hexec : (monitor (N := N) addr).exec m.shared k (m.killed p) io = some (d, .goto k'))
    (hy : ∀ t, View addr p y t (.run k')) : ∃ m', Rel addr s' m' :=
  ⟨_, h.move hpc (fun _ _ => by rw [hproc]) hshared hlock hcpu (hy _) (fun _ => ⟨k', rfl⟩) nofun
    (h.leave io hp hexec)⟩

variable (h : Rel addr s m)
include h

theorem run_inside {k : At} (hp : m.pc p = .run k)
    (hk : k = .test ∨ k = .body ∨ k = .make ∨ k = .made)
    (hs : Run (waitLoop addr) s c p (.code k) s') : ∃ m', Rel addr s' m' := by
  cases hs with
  | jump hj => cases hj
  | @code _ io _ =>
    rcases hk with rfl | rfl | rfl | rfl
    · cases hcond : s.shared with
      | true =>
        refine h.inside io (d := (true, true)) hp rfl rfl rfl rfl rfl ?_
          fun _ => .run (.inr (.inl rfl))
        simp [monitor, h.shared, hcond]
      | false =>
        refine h.inside io hp rfl rfl (h.shared.trans hcond) rfl rfl ?_
          fun _ => .dozeLock
        simp [monitor, h.shared, hcond]
    · cases io with
      | set b => exact h.inside (.set b) hp rfl rfl rfl rfl rfl rfl fun _ => .run (by simp)
      | _ => exact h.inside .leave hp rfl rfl h.shared rfl rfl rfl fun _ => .leave
    · exact ⟨_, h.move rfl (fun _ _ => rfl) rfl rfl rfl .wakeup (fun _ => ⟨.made, rfl⟩) nofun
        (h.leave io hp rfl)⟩
    · exact h.inside io hp rfl rfl h.shared rfl rfl rfl fun _ => .leave

theorem run_doze (hp : m.pc p = .doze (.other addr) .test) :
    ∃ m', Rel addr ((s.setProc p
      { s.proc p with chan := some (.other addr), state := .sleeping }).goto
      p (.swtch (.woken (.other addr) (.other 0) (.code .test)))) m' := by
  have hin : (m.pc p).inside = none := by rw [hp]; rfl
  have hshift : (wakes addr).Inv (m.setPc p (.asleep (.other addr) .test)) := by
    refine h.inv.shift (fun _ _ => rfl) hin rfl (fun k hk => ?_) fun ch k hk => ?_
    · cases hk
      exact .inl rfl
    · rw [hp]
      exact hk
  refine ⟨_, h.move (v := .asleep (.other addr) .test) rfl (fun q hq => update_of_ne hq ..)
    h.shared rfl rfl ?_ (fun hlock => ?_) nofun hshift⟩
  · rw [show ((s.setProc p _).goto p _).proc p = _ from update_self ..]
    exact .asleep .swtch
  · obtain ⟨k, hk⟩ := h.held p hlock
    rw [hin] at hk
    cases hk

theorem pass {j : Fin N} (hp : m.pc p = .wake (.other addr) j .made)
    (hdoze : ∀ c k, m.pc j ≠ .doze c k) (hasleep : ∀ k, m.pc j ≠ .asleep (.other addr) k)
    (hy : ∀ t, View addr p y t (.wake (.other addr) (j + 1) .made)) :
    ∃ m', Rel addr (s.goto p y) m' := by
  have hpass := h.inv.step (a := .step p .leave) nofun (.pass hp rfl hdoze hasleep)
  exact ⟨_, h.move rfl (fun _ _ => rfl) h.shared rfl rfl (hy _) (fun _ => ⟨.made, rfl⟩) nofun hpass⟩

theorem run_rouse {j : Fin N} (hinv : Inv s) (hchan : Chans s)
    (hc : (s.cpu c).stack = some p) (hx : s.pc p = .rouse (some (.other addr)) j (.code .made))
    (hp : m.pc p = .wake (.other addr) j .made) :
    ∃ m', Rel addr ((s.setProc j ((s.proc j).rouse (some (.other addr)))).goto p
      (.release (.proc j) (.wakeup (some (.other addr)) (j + 1) (.code .made)))) m' := by
  obtain ⟨m', h', -, -, hpc⟩ := h.setProc (j := j)
    (Slot.rouse_state (s.proc j) (some (.other addr)))
  have hp' : m'.pc p = .wake (.other addr) j .made := by grind
  have hview : View addr j (s.pc j) ((s.proc j).rouse (some (.other addr))).state (m'.pc j) := by
    have hj := h'.view j
    rwa [show (s.setProc j _).proc j = _ from update_self ..] at hj
  refine h'.pass hp' (fun ch k hdoze => ?_) (fun k hasleep => ?_) fun _ => .rouseRelease
  · -- who is about to sleep holds its own lock, which `p` has
    rw [hdoze] at hview
    obtain ⟨c', hc'⟩ := h'.doze j ch k hdoze
    have hc' : (s.cpu c').stack = some j := hc'
    have hlock := (hinv.lock c' j).mpr (by rw [has_of_stack hc', hview.has_of_doze])
    have hlock' := (hinv.lock c j).mpr (by rw [has_of_stack hc, hx]; rfl)
    obtain rfl := Option.some.inj (hlock.symm.trans hlock')
    obtain rfl := Option.some.inj (hc.symm.trans hc')
    rw [hp'] at hdoze
    cases hdoze
  · rw [hasleep] at hview
    obtain ⟨hsleep, hxchan⟩ := hview.of_asleep
    by_cases hunused : (s.proc j).state = .unused
    · rcases Slot.rouse_state (s.proc j) (some (.other addr)) with hsame | hawake
      · rw [hsame, hunused] at hsleep
        cases hsleep
      · exact hawake hsleep
    · have hcj := hchan j
      rw [ChanOk, if_neg hunused, hxchan] at hcj
      exact Slot.rouse_awake hcj hsleep

theorem run_step (hinv : Inv s) (hchan : Chans s) (hc : (s.cpu c).stack = some p)
    (hs : Run (waitLoop addr) s c p (s.pc p) s') : ∃ m', Rel addr s' m' := by
  have hview := h.view p
  generalize hx : s.pc p = x at hview hs
  generalize hp : m.pc p = v at hview
  generalize ht : (s.proc p).state = t at hview
  cases hview with
  | plain hplain => exact h.run_plain hinv hc hx hp hplain hs
  | wait hw => exact h.run_waiting hinv hc hp hw hs
  | woken hsl hne =>
    cases hsl with
    | swtch =>
      cases hs with
      | swtch =>
        exact ⟨m, h.swtch hinv hc (by rw [hp, ht]; exact .woken .woken hne) (by rw [hp]; rfl)
          (by rw [hp]; nofun)⟩
      | jump hj => cases hj
    | woken =>
      cases hs with
      | woken => exact h.touch hp nofun (.inl rfl) fun _ => .wait (.back .want)
      | jump hj => cases hj
  | asleep hsl =>
    cases hsl with
    | swtch =>
      cases hs with
      | swtch =>
        exact ⟨m, h.swtch hinv hc (by rw [hp, ht]; exact .asleep .woken) (by rw [hp]; rfl)
          (by rw [hp]; nofun)⟩
      | jump hj => cases hj
    | woken => exact nomatch ht.symm.trans (hinv.running hc (by rw [hx]; rfl))
  | run hk => exact h.run_inside hp hk hs
  | leave =>
    cases hs with
    | release =>
      exact ⟨_, h.drop (d := (m.shared.1, false)) hc (.plain rfl) rfl
        (h.leave .leave hp rfl)⟩
    | jump hj => cases hj
  | dozeLock =>
    cases hs with
    | acquire =>
      exact ⟨m, (h.otherLock (l := .proc p) nofun).1.goto (by rw [hp]; exact .dozeRelease)⟩
    | jump hj => cases hj
  | dozeRelease =>
    cases hs with
    | release =>
      exact ⟨_, h.drop (d := (m.shared.1, false)) hc .doze rfl
        (h.leave .leave hp rfl)⟩
    | jump hj => cases hj
  | doze =>
    cases hs with
    | sleep => exact h.run_doze hp
    | jump hj => cases hj
  | wakeup =>
    cases hs with
    | jump hj =>
      cases hj with
      | wakeupSelf =>
        refine h.pass hp (fun ch k hq => ?_) (fun k hq => ?_) fun _ => .wakeup
        · rw [hp] at hq
          cases hq
        · rw [hp] at hq
          cases hq
      | wakeup => exact ⟨m, h.goto (by rw [hp]; exact .rouseLock)⟩
      | wakeupEnd hj =>
        have hwoken := h.inv.step (a := .step p .leave) nofun (.woken hp hj)
        exact ⟨_, h.move rfl (fun _ _ => rfl) h.shared rfl rfl
          (.run (.inr (.inr (.inr rfl)))) (fun _ => ⟨.made, rfl⟩) nofun hwoken⟩
  | @rouseLock _ j =>
    cases hs with
    | acquire => exact ⟨m, (h.otherLock (l := .proc j) nofun).1.goto (by rw [hp]; exact .rouse)⟩
    | jump hj => cases hj
  | rouse =>
    cases hs with
    | rouse => exact h.run_rouse hinv hchan hc hx hp
    | jump hj => cases hj
  | @rouseRelease _ j i =>
    cases hs with
    | release => exact ⟨m, (h.otherLock (l := .proc j) nofun).2.goto (by rw [hp]; exact .wakeup)⟩
    | jump hj => cases hj

theorem timer (hinv : Inv s) (hc : (s.cpu c).stack = some p)
    (hnoff : (s.cpu c).noff = 0) :
    Rel addr (s.goto p (.acquire (.proc p) (.yield (s.pc p)))) m := by
  have hhas : (s.pc p).has p = none := by
    have hnone := hinv.has_of_noff hnoff
    rwa [has_of_stack hc] at hnone
  have hin : (m.pc p).inside = none := by
    refine Option.eq_none_iff_forall_ne_some.mpr fun k hk => ?_
    rw [hinv.noff c, cnt_eq_zero] at hnoff
    exact hnoff (.other 0) (Finset.mem_univ _) (h.lock_of_inside hinv hc hk)
  refine h.goto ?_
  have hview := h.view p
  generalize s.pc p = x at hview hhas
  generalize m.pc p = v at hview hin
  generalize (s.proc p).state = t at hview
  cases hview with
  | plain hplain => exact .plain ⟨by rintro ⟨⟩, hplain⟩
  | wait hw => exact .wait (.timer hw)
  | woken hsl | asleep hsl => cases hsl <;> cases hhas
  | doze => cases hhas
  | _ => cases hin

theorem gotoLoop {x : Loop N} : Rel addr (s.gotoLoop c x) m :=
  h.frame rfl h.view rfl fun _ => update_proj Cpu.stack rfl

theorem schedule (hc : (s.cpu c).stack = none) {x : Loop N}
    (hs : Schedule s c x s') : ∃ m', Rel addr s' m' := by
  cases hs with
  | wrap | pass => exact ⟨m, h.gotoLoop⟩
  | @scan j hlock => exact ⟨m, (h.otherLock (l := .proc j) nofun).1.gotoLoop⟩
  | back => exact ⟨m, h.frame rfl h.view rfl fun _ => update_proj Cpu.stack rfl⟩
  | @next p hlock => exact ⟨m, (h.otherLock (l := .proc p) nofun).2.gotoLoop⟩
  | @pick p hstate =>
    obtain ⟨m', h', -⟩ := h.setProc (j := p) (u := { s.proc p with state := .running }) (.inr nofun)
    refine ⟨m', h'.restack (fun hlock => ?_) fun q ch k _ hq => nomatch hc.symm.trans hq⟩
    obtain ⟨q, hq⟩ := h.owner c hlock
    exact nomatch hc.symm.trans hq

theorem step {a : Act M In} (hinv : Inv s) (hchan : Chans s)
    (hs : Step (waitLoop addr) s a s') : ∃ m', Rel addr s' m' := by
  cases hs with
  | run hc hrun => exact h.run_step hinv hchan hc hrun
  | timer hc hnoff => exact ⟨m, h.timer hinv hc hnoff⟩
  | schedule hc hsched => exact h.schedule hc hsched

end Rel

variable {addr : ℕ} {s : Sys M N 1 Bool At}

theorem Init.rel (h : Init (waitLoop addr) s) :
    Rel addr s ⟨(s.shared, false), none, fun _ => .out, fun _ => false⟩ := by
  refine ⟨rfl, fun p => ?_, fun p => ?_, fun c hc => ?_, by rintro _ ⟨⟩, by rintro _ _ _ ⟨⟩,
    by rintro _ _ ⟨⟩, by rintro _ _ ⟨⟩, by rintro _ _ ⟨⟩, by rintro _ _ _ ⟨⟩⟩
  · rw [h.pc]
    exact .plain ⟨by rintro ⟨⟩, rfl⟩
  · simp [h.lock]
  · rw [h.lock] at hc
    cases hc

theorem Init.chans {code : Code N L σ κ ι} {s : Sys M N L σ κ} (h : Init code s) : Chans s := by
  intro p
  rw [ChanOk, h.chan, h.pc]
  exact (ite_self _).symm

theorem Plain.chan_ne {x : Pc N 1 At} (h : Plain addr x) : x.chan ≠ some (.other addr) := by
  induction x with
  | swtch x ih => exact ih h
  | woken c l x => exact fun hc => h.1 (Option.some.inj hc)
  | _ => nofun

theorem View.asleep_of_chan {p : Fin N} {x : Pc N 1 At} {v : Monitor.Pc At (Chan N)}
    (h : View addr p x .sleeping v) (hx : x.chan = some (.other addr)) :
    v = .asleep (.other addr) .test := by
  generalize ht : State.sleeping = t at h
  cases h with
  | plain hplain => exact absurd hx hplain.chan_ne
  | wait hw => cases hw <;> cases hx
  | woken hsl hne => exact absurd ht.symm hne
  | asleep hsl => rfl
  | _ => cases hx

/-- No wakeup is lost. Whatever the interleaving, when the lock is free and the
condition true, nobody sleeps on the channel; and a process back from `sleep`
has the lock and no channel. -/
theorem sleep_wakeup
    (h : Reachable (Init (waitLoop addr)) (fun _ _ => True) (Sys.step (waitLoop addr)) s) :
    (s.lock (.other 0) = none → s.shared = true →
      ∀ p, ¬((s.proc p).state = .sleeping ∧ (s.proc p).chan = some (.other addr))) ∧
    ∀ p, s.pc p = .code .test →
      (∃ c, (s.cpu c).stack = some p ∧ s.lock (.other 0) = some c) ∧ (s.proc p).chan = none := by
  obtain ⟨⟨m, hrel⟩, hinv, hchan⟩ : (∃ m, Rel addr s m) ∧ Inv s ∧ Chans s := by
    refine h.invariant (I := fun s => (∃ m, Rel addr s m) ∧ Inv s ∧ Chans s)
      (fun s hs => ⟨⟨_, hs.rel⟩, hs.inv, hs.chans⟩) fun s a s' ⟨⟨m, hrel⟩, hinv, hchan⟩ _ hs => ?_
    have hstep := step_cases hs
    exact ⟨hrel.step hinv hchan hstep, hinv.step hstep, hchan.step hinv hstep⟩
  refine ⟨fun hfree hcond p ⟨hsleep, hpchan⟩ => ?_, fun p hp => ?_⟩
  · have hx : (s.pc p).chan = some (.other addr) := by
      have hok := hchan p
      rwa [ChanOk, hsleep, if_neg nofun, hpchan, eq_comm] at hok
    have hasleep : m.pc p = .asleep (.other addr) .test := by
      have hview := hrel.view p
      rw [hsleep] at hview
      exact hview.asleep_of_chan hx
    rcases hrel.inv.blocked p (.other addr) .test (by rw [hasleep]; rfl) with ⟨-, hfalse, -⟩ |
      ⟨q, hq, -⟩
    · rw [hrel.shared, hcond] at hfalse
      cases hfalse
    · grind [hrel.lock]
  · have hrun : m.pc p = .run .test := by
      have hview := hrel.view p
      rw [hp] at hview
      generalize m.pc p = v at hview
      generalize (s.proc p).state = t at hview
      cases hview with
      | plain hplain => cases hplain
      | wait hw => cases hw
      | woken hsl | asleep hsl => cases hsl
      | run => rfl
    obtain ⟨c, hlock, hc⟩ := (hrel.lock p).mp (hrel.inv.holder p .test (by rw [hrun]; rfl))
    refine ⟨⟨c, hc, hlock⟩, ?_⟩
    have hok := hchan p
    rwa [ChanOk, if_neg (hinv.live c p hc), hp] at hok

def bootWait : Sys 2 2 1 Bool At where
  cpu _ := ⟨none, 0, none, .scan 0⟩
  proc p := ⟨if p = 0 then .runnable else .unused, none, false, 0, none⟩
  pc p := .release (.proc p) (.code .idle)
  lock _ := none
  nextpid := 1
  initproc := 0
  shared := false

/-- `init` forks; the child finds the condition false and has given up the lock
when `init` makes it true, but is not marked as sleeping before `wakeup` has
come to it and waits for its lock. -/
def overlap : List (Act 2 In) :=
  List.replicate 22 (.step 0 .fork false) ++ List.replicate 11 (.step 1 .wait false) ++
    List.replicate 5 (.step 0 .make false) ++ List.replicate 4 (.step 1 .wait false) ++
      List.replicate 6 (.step 0 .make false)

theorem sleep_wakeup_overlap : ∃ s : Sys 2 2 1 Bool At,
    Reachable (Init (waitLoop 7)) (fun _ _ => True) (Sys.step (waitLoop 7)) s ∧
    s.lock (.other 0) = none ∧ s.shared = true ∧ (s.proc 1).chan = some (.other 7) ∧
    (s.proc 1).state ≠ .sleeping := by
  obtain ⟨s, hs, hlock, hcond, hchan⟩ :
      ∃ s ∈ runActs (fun _ _ => True) (Sys.step (waitLoop 7)) overlap bootWait,
        s.lock (.other 0) = none ∧ s.shared = true ∧ (s.proc 1).chan = some (.other 7) := by
    decide +kernel
  have hinit : Init (waitLoop 7) bootWait :=
    ⟨fun _ => rfl, fun _ => rfl, fun _ => rfl, fun _ => rfl, fun _ => rfl, fun _ => rfl⟩
  have hreach := (Reachable.init hinit).runActs hs
  obtain ⟨hawake, -⟩ := sleep_wakeup hreach
  exact ⟨s, hreach, hlock, hcond, hchan, fun hsleep => hawake hlock hcond 1 ⟨hsleep, hchan⟩⟩

end Xv6.Sched
