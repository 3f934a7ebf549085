import Xv6.Lib.Monitor

/-!
The sleep locks of `kernel/sleeplock.c`.

`acquiresleep`, `releasesleep` and `holdingsleep` run under the spinlock
`lk->lk`; a call is named by its function and the pid of its caller. Beside the lock
is `inside`, the pids of the processes that have returned from `acquiresleep` and not
yet given the lock back in `releasesleep`. It is not in the source: the steps keep it.
-/

namespace Xv6

open Function (update update_self update_of_ne)

/-- `struct sleeplock`, less the spinlock and the name. -/
structure Sleeplock where
  locked : Bool
  pid : ℕ

namespace Sleeplock

structure Shared extends Sleeplock where
  inside : ℕ → Bool

/-- The points of the code: the loop of `acquiresleep`, the beginning of the
other two functions, and the end of `releasesleep` after its `wakeup`. -/
inductive Point
  | acquire (pid : ℕ)
  | release (pid : ℕ)
  | released (pid : ℕ)
  | holding (pid : ℕ)
  deriving DecidableEq

def Point.pid : Point → ℕ
  | .acquire pid => pid
  | .release pid => pid
  | .released pid => pid
  | .holding pid => pid

def start : Point → Bool
  | .released _ => false
  | _ => true

def take (lk : Sleeplock) (pid : ℕ) : Sleeplock := { lk with locked := true, pid := pid }

def give (lk : Sleeplock) : Sleeplock := { lk with locked := false, pid := 0 }

def holdingsleep (lk : Sleeplock) (pid : ℕ) : Bool := lk.locked && lk.pid == pid

def exec (lk : Sleeplock) : Point → Sleeplock × Monitor.Next Point Unit
  | .acquire pid => if lk.locked then (lk, .sleep () (.acquire pid)) else (lk.take pid, .done)
  | .release pid => (lk.give, .wakeup () (.released pid))
  | .released _ => (lk, .done)
  | .holding _ => (lk, .done)

def moves (inside : ℕ → Bool) : Point → Monitor.Next Point Unit → ℕ → Bool
  | .acquire pid, .done => update inside pid true
  | .release pid, _ => update inside pid false
  | _, _ => inside

/-- One stretch of the code on the lock, with what it does to `inside`. -/
def Shared.exec (x : Shared) (k : Point) : Shared × Monitor.Next Point Unit :=
  let (lk, next) := x.toSleeplock.exec k
  (⟨lk, moves x.inside k next⟩, next)

def code : Monitor.Code Shared Point Unit Unit where
  start := start
  exec x k _ _ := some (x.exec k)

structure New (x : Shared) : Prop where
  locked : x.locked = false
  pid : x.pid = 0
  inside : ∀ n, x.inside n = false

abbrev Sys (N : ℕ) := Monitor.Sys N Shared Point Unit

abbrev Act (N : ℕ) := Monitor.Act N Point Unit

/-- Processes call for themselves, and release the lock when they have it. -/
def Contract {N : ℕ} (pid : Fin N → ℕ) (s : Sys N) : Act N → Prop
  | .call p k => k.pid = pid p ∧ (k = .release (pid p) → s.shared.inside (pid p) = true)
  | _ => True

instance {N : ℕ} (pid : Fin N → ℕ) (s : Sys N) : (a : Act N) → Decidable (Contract pid s a)
  | .call _ _ => inferInstanceAs (Decidable (_ ∧ _))
  | .step _ _ => .isTrue trivial
  | .kill _ => .isTrue trivial

abbrev Interleaving {N : ℕ} (pid : Fin N → ℕ) : Sys N → Prop :=
  Reachable (Monitor.Sys.Initial New) (Contract pid) (Monitor.Sys.step code)

/-! ### Mutual exclusion -/

namespace Shared

/-- The fields of the lock tell who is inside. -/
structure Ok (x : Shared) : Prop where
  locked : ∀ n, x.inside n = true → x.locked = true ∧ x.pid = n
  inside : x.locked = true → x.inside x.pid = true

def take (x : Shared) (n : ℕ) : Shared := ⟨x.toSleeplock.take n, update x.inside n true⟩

def give (x : Shared) (n : ℕ) : Shared := ⟨x.toSleeplock.give, update x.inside n false⟩

variable {x : Shared} {n : ℕ}

theorem exec_locked (h : x.locked = true) : x.exec (.acquire n) = (x, .sleep () (.acquire n)) := by
  simp [Shared.exec, Sleeplock.exec, h, moves]

theorem exec_free (h : x.locked = false) : x.exec (.acquire n) = (x.take n, .done) := by
  simp [Shared.exec, Sleeplock.exec, h, moves, take]

theorem Ok.take (h : x.Ok) (hfree : x.locked = false) (n : ℕ) : (x.take n).Ok := by
  have hnone : ∀ m, x.inside m = false := by grind [h.locked]
  constructor
  · intro m hm
    refine ⟨rfl, ?_⟩
    by_contra hne
    simp only [Shared.take, Sleeplock.take] at hm hne
    rw [update_of_ne (Ne.symm hne), hnone] at hm
    cases hm
  · intro _
    exact update_self ..

theorem Ok.give (h : x.Ok) (hn : x.inside n = true) : (x.give n).Ok := by
  constructor
  · intro m hm
    rcases eq_or_ne m n with rfl | hne
    · simp [Shared.give] at hm
    · simp only [Shared.give, update_of_ne hne] at hm
      exact absurd ((h.locked m hm).2.symm.trans (h.locked n hn).2) hne
  · intro hl
    cases hl

/-- `holdingsleep` tells whether its caller is inside. -/
theorem Ok.holdingsleep_iff (h : x.Ok) (n : ℕ) : x.holdingsleep n = true ↔ x.inside n = true := by
  rw [holdingsleep, Bool.and_eq_true, beq_iff_eq]
  constructor
  · rintro ⟨hlocked, rfl⟩
    exact h.inside hlocked
  · exact h.locked n

end Shared

variable {N : ℕ} {pid : Fin N → ℕ}

/-- The processes run their own calls, one that releases the lock is inside,
and nobody else is. -/
structure Inv (pid : Fin N → ℕ) (s : Sys N) : Prop where
  ok : s.shared.Ok
  own : ∀ p k, (s.pc p).point = some k → k.pid = pid p
  release : ∀ p n, (s.pc p).point = some (.release n) → s.shared.inside n = true
  someone : ∀ n, s.shared.inside n = true → ∃ p, pid p = n

variable {s s' : Sys N} {p : Fin N} {c : Monitor.Pc Point Unit} {lock : Option (Fin N)}
  {killed : Fin N → Bool}

theorem Inv.init (h : Monitor.Sys.Initial New s) : Inv pid s := by
  have hout : ∀ n, s.shared.inside n ≠ true := by grind [h.shared.inside]
  have hpoint : ∀ p, (s.pc p).point = none := by
    intro p
    rw [h.pc p]
    rfl
  constructor
  · grind [Shared.Ok, h.shared.locked]
  · intro p k hk
    rw [hpoint] at hk
    cases hk
  · intro p n hn
    rw [hpoint] at hn
    cases hn
  · intro n hn
    exact absurd hn (hout n)

theorem Inv.move (h : Inv pid s) (hown : ∀ k, c.point = some k → k.pid = pid p)
    (hrel : ∀ n, c.point = some (.release n) → s.shared.inside n = true) :
    Inv pid ⟨s.shared, lock, update s.pc p c, killed⟩ := by
  constructor
  · exact h.ok
  · grind [h.own]
  · grind [h.release]
  · exact h.someone

theorem Inv.stay (h : Inv pid s) (hc : ∀ k, c.point = some k → (s.pc p).point = some k) :
    Inv pid ⟨s.shared, lock, update s.pc p c, killed⟩ := by
  apply h.move
  · intro k hk
    exact h.own p k (hc k hk)
  · intro n hn
    exact h.release p n (hc _ hn)

theorem Inv.take {n : ℕ} (h : Inv pid s) (hp : s.pc p = .run (.acquire n))
    (hfree : s.shared.locked = false) :
    Inv pid ⟨s.shared.take n, lock, update s.pc p .out, killed⟩ := by
  have hout : Inv pid ⟨s.shared, lock, update s.pc p .out, killed⟩ :=
    h.stay (fun k hk => by cases hk)
  constructor
  · exact h.ok.take hfree n
  · exact hout.own
  · grind [Inv, h.ok.locked]
  · intro m hm
    rcases eq_or_ne m n with rfl | hne
    · have hpoint : (s.pc p).point = some (.acquire m) := by rw [hp]; rfl
      exact ⟨p, (h.own p _ hpoint).symm⟩
    · simp only [Shared.take, update_of_ne hne] at hm
      exact h.someone m hm

section

variable (hpid : Function.Injective pid)
include hpid

/-- `releasesleep` gives the lock up. Nobody else is about to, since its
caller alone is inside. -/
theorem Inv.give {n : ℕ} (h : Inv pid s) (hp : s.pc p = .run (.release n)) :
    Inv pid ⟨s.shared.give n, lock, update s.pc p (.wake () 0 (.released n)), killed⟩ := by
  have hpoint : (s.pc p).point = some (.release n) := by rw [hp]; rfl
  have hn : n = pid p := h.own p _ hpoint
  have hin := h.release p n hpoint
  constructor
  · exact h.ok.give hin
  · intro q k hq
    dsimp only at hq
    rcases eq_or_ne q p with rfl | hqp
    · rw [update_self] at hq
      cases hq
      exact hn
    · rw [update_of_ne hqp] at hq
      exact h.own q k hq
  · intro q m hq
    dsimp only at hq
    rcases eq_or_ne q p with rfl | hqp
    · rw [update_self] at hq
      cases hq
    · grind [Inv, h.ok.locked]
  · intro m hm
    rcases eq_or_ne m n with rfl | hne
    · exact ⟨p, hn.symm⟩
    · simp only [Shared.give, update_of_ne hne] at hm
      exact h.someone m hm

theorem Inv.exec {k : Point} {x : Shared} {next : Monitor.Next Point Unit} (h : Inv pid s)
    (hp : s.pc p = .run k) (hx : s.shared.exec k = (x, next)) : Inv pid (s.leave p x next) := by
  have hpoint : (s.pc p).point = some k := by rw [hp]; rfl
  cases k with
  | acquire n =>
    by_cases hl : s.shared.locked = true
    · rw [Shared.exec_locked hl] at hx
      cases hx
      apply h.stay
      intro k hk
      exact hpoint.trans hk
    · have hfree := Bool.eq_false_of_not_eq_true hl
      rw [Shared.exec_free hfree] at hx
      cases hx
      exact h.take hp hfree
  | release n =>
    cases hx
    exact h.give hpid hp
  | released n | holding n =>
    cases hx
    exact h.stay (fun k hk => by cases hk)

theorem Inv.step {a : Act N} (h : Inv pid s)
    (hok : Contract pid s a) (hs : Monitor.Sys.Step code s a s') : Inv pid s' := by
  cases hs with
  | call hpc hk =>
    apply h.move
    · rintro _ ⟨⟩
      exact hok.1
    · rintro n ⟨⟩
      have hn : n = pid _ := hok.1
      rw [hn]
      exact hok.2 (congrArg _ hn)
  | killAsleep hpc | acquire hpc hlock | pass hpc hq hdoze hsleep | woken hpc hj | sleep hpc =>
    apply h.stay
    intro k hk
    rw [hpc]
    exact hk
  | kill => exact ⟨h.ok, h.own, h.release, h.someone⟩
  | exec hpc hexec => exact h.exec hpid hpc (Option.some.inj hexec)
  | @rouse p c j k io k' q hpc hq hsleep =>
    have hwoken : Inv pid (s.setPc q (.acq k')) := by
      apply h.stay
      intro k hk
      rw [hsleep]
      exact hk
    have hne : p ≠ q := by grind
    apply hwoken.stay
    intro k hk
    simp only [Monitor.Sys.setPc, update_of_ne hne, hpc]
    exact hk

theorem Interleaving.inv (h : Interleaving pid s) : Inv pid s := by
  apply h.invariant
  · intro s hs
    exact Inv.init hs
  · intro s a s' hI hok hs
    exact hI.step hpid hok (Monitor.Sys.step_cases hs)

end

/-! ### Wakeups -/

/-- Processes sleep while the lock is taken. `releasesleep` wakes them at
once when it gives the lock up, so no point of the code owes a wakeup. -/
def wakes : Monitor.Wakes code where
  entry _ := True
  here _ _ _ := True
  blocks x _ _ := x.locked = true
  owes _ _ := False
  start _ _ := trivial
  resume _ _ _ _ := trivial
  goto {x k kd io x' k'} _ hx := by
    have hx := Option.some.inj hx
    cases k with
    | acquire n =>
      simp only [Shared.exec, Sleeplock.exec] at hx
      split at hx <;> cases hx
    | release n | released n | holding n => cases hx
  wakeup _ _ := ⟨trivial, fun _ _ _ => .inl rfl⟩
  sleep {x k kd io x' c' k'} _ hx := by
    have hx := Option.some.inj hx
    cases k with
    | acquire n =>
      cases hl : x.locked with
      | true =>
        rw [Shared.exec_locked hl] at hx
        cases hx
        exact ⟨trivial, hl, fun _ _ _ => hl⟩
      | false =>
        rw [Shared.exec_free hl] at hx
        cases hx
    | release n | released n | holding n => cases hx
  done {x k kd io x'} _ hx := by
    have hx := Option.some.inj hx
    intro c k₀ hb
    rw [or_false] at hb
    cases k with
    | acquire n =>
      rw [Shared.exec_locked hb] at hx
      cases hx
    | release n => cases hx
    | released n | holding n =>
      cases hx
      exact hb

/-! ### Results -/

/-- Sleep locks exclude and lose no wakeup, however the processes interleave
and are killed. At most one process is inside; the lock is taken exactly when
one is, with that process's pid in it, and `holdingsleep` tells it from the
others; and while the spinlock is free, nobody sleeps on a lock that is not
taken. -/
theorem sleeplock_excludes (hpid : Function.Injective pid) (h : Interleaving pid s) :
    (∀ p q, s.shared.inside (pid p) = true → s.shared.inside (pid q) = true → p = q) ∧
      (s.shared.locked = true ↔ ∃ p, s.shared.inside (pid p) = true) ∧
      (∀ p, s.shared.inside (pid p) = true → s.shared.pid = pid p) ∧
      (∀ p, s.shared.holdingsleep (pid p) = true ↔ s.shared.inside (pid p) = true) ∧
      (s.lock = none → ∀ p c k, s.pc p = .asleep c k → s.shared.locked = true) := by
  have hinv := h.inv hpid
  refine ⟨fun p q hp hq => ?_, ⟨fun hl => ?_, ?_⟩, fun p hp => (hinv.ok.locked _ hp).2,
    fun p => hinv.ok.holdingsleep_iff _, fun hlock p c k hp => ?_⟩
  · exact hpid ((hinv.ok.locked _ hp).2.symm.trans (hinv.ok.locked _ hq).2)
  · have hin := hinv.ok.inside hl
    obtain ⟨p, hp⟩ := hinv.someone _ hin
    rw [← hp] at hin
    exact ⟨p, hin⟩
  · rintro ⟨p, hp⟩
    exact (hinv.ok.locked _ hp).1
  · exact wakes.blocked_of_free (fun _ _ _ _ _ _ => trivial) h hlock hp

def freshSys : Sys 2 :=
  ⟨⟨⟨false, 0⟩, fun _ => false⟩, none, fun _ => .out, fun _ => false⟩

/-- Process 0 takes the lock, process 1 comes to sleep on it, is killed there
and goes back to sleep. -/
def takeSleepKill : List (Act 2) :=
  [.call 0 (.acquire 4), .step 0 (), .step 0 (), .call 1 (.acquire 9)] ++
    List.replicate 3 (.step 1 ()) ++ [.kill 1] ++ List.replicate 3 (.step 1 ())

theorem sleeplock_excludes_sleeper :
    ∃ s : Sys 2, Interleaving ![4, 9] s ∧ s.pc 1 = .asleep () (.acquire 9) ∧
      s.killed 1 = true ∧ s.shared.pid = 4 ∧ s.shared.holdingsleep 9 = false := by
  obtain ⟨s, hs, hpc, hkilled, hin, hout⟩ :
      ∃ s ∈ runActs (Contract ![4, 9]) (Monitor.Sys.step code) takeSleepKill freshSys,
        s.pc 1 = .asleep () (.acquire 9) ∧ s.killed 1 = true ∧ s.shared.inside 4 = true ∧
        s.shared.inside 9 = false := by
    decide +kernel
  have hreach : Interleaving ![4, 9] s :=
    (Reachable.init ⟨⟨rfl, rfl, fun _ => rfl⟩, rfl, fun _ => rfl⟩).runActs hs
  have hpid : Function.Injective ![4, 9] := by decide
  obtain ⟨-, -, howner, hholding, -⟩ := sleeplock_excludes hpid hreach
  refine ⟨s, hreach, hpc, hkilled, howner 0 hin, ?_⟩
  rw [← Bool.not_eq_true]
  intro h
  have hin := (hholding 1).mp h
  exact Bool.false_ne_true (hout.symm.trans hin)

end Sleeplock

end Xv6
