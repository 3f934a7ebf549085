import Xv6.Sched.Basic

/-!
What a step of a CPU does, one case for each way through the code.
-/

namespace Xv6.Sched

open Ptable (State Chan Slot)
open Sys

variable {M N L : ℕ} {σ κ ι : Type}
variable {s s' : Sys M N L σ κ} {c : Fin M}

/-- Process `p` goes from one point to another and does nothing else. -/
inductive Jump (s : Sys M N L σ κ) (p : Fin N) : Pc N L κ → Pc N L κ → Prop
  | wakeupSelf {ch x} : Jump s p (.wakeup ch p x) (.wakeup ch (p + 1) x)
  | wakeup {ch x} {j : Fin N} (hj : j ≠ p) :
      Jump s p (.wakeup ch j x) (.acquire (.proc j) (.rouse ch j x))
  | wakeupEnd {ch j x} (hj : N ≤ j) : Jump s p (.wakeup ch j x) x
  | kill {pid x y} {j : Fin N} :
      Jump s p (.kill pid j x y) (.acquire (.proc j) (.hit pid j x y))
  | killEnd {pid j x y} (hj : N ≤ j) : Jump s p (.kill pid j x y) y
  | miss {pid j x y} (hpid : (s.proc j).pid ≠ pid) :
      Jump s p (.hit pid j x y) (.release (.proc j) (.kill pid (j + 1) x y))
  | killed {x y} (h : (s.proc p).killed = true) :
      Jump s p (.killed x y) (.release (.proc p) x)
  | notKilled {x y} (h : (s.proc p).killed = false) :
      Jump s p (.killed x y) (.release (.proc p) y)
  | alloc {x} {j : Fin N} : Jump s p (.alloc j x) (.acquire (.proc j) (.found j x))
  | allocEnd {j x} (hj : N ≤ j) : Jump s p (.alloc j x) x
  | found {j x} (h : (s.proc j).state = .unused) :
      Jump s p (.found j x) (.acquire .pid (.allocpid j x))
  | inUse {j x} (h : (s.proc j).state ≠ .unused) :
      Jump s p (.found j x) (.release (.proc j) (.alloc (j + 1) x))
  | reparentNext {j : Fin N} (h : (s.proc j).parent ≠ some p) :
      Jump s p (.reparent j) (.reparent (j + 1))
  | reparentEnd {j} (hj : N ≤ j) :
      Jump s p (.reparent j)
        (.wakeup ((s.proc p).parent.map .proc) 0 (.acquire (.proc p) .zombie))
  | child {kids x} {j : Fin N} (h : (s.proc j).parent = some p) :
      Jump s p (.scan j kids x) (.acquire (.proc j) (.reap j x))
  | scanNext {kids x} {j : Fin N} (h : (s.proc j).parent ≠ some p) :
      Jump s p (.scan j kids x) (.scan (j + 1) kids x)
  | kids {j x} (hj : N ≤ j) :
      Jump s p (.scan j true x) (.acquire (.proc p) (.killed (.release .wait x)
        (.callSleep p (.proc p) .wait (.scan 0 false x))))
  | noKids {j x} (hj : N ≤ j) : Jump s p (.scan j false x) (.release .wait x)
  | copyoutFails {j x} (h : (s.proc j).state = .zombie) :
      Jump s p (.reap j x) (.release (.proc j) (.release .wait x))
  | alive {j x} (h : (s.proc j).state ≠ .zombie) :
      Jump s p (.reap j x) (.release (.proc j) (.scan (j + 1) true x))

inductive Run (code : Code N L σ κ ι) (s : Sys M N L σ κ) (c : Fin M) (p : Fin N) :
    Pc N L κ → Sys M N L σ κ → Prop
  | jump {x y} (h : Jump s p x y) : Run code s c p x (s.goto p y)
  | code {k io} (hexit : (code.exec p s.shared k io).2.isExit = true → p ≠ s.initproc) :
      Run code s c p (.code k)
        { s.goto p ((code.exec p s.shared k io).2.start p) with
          shared := (code.exec p s.shared k io).1 }
  | acquire {l x} (h : s.lock l = none) : Run code s c p (.acquire l x) ((s.take c l).goto p x)
  | release {l x} (h : s.lock l = some c) : Run code s c p (.release l x) ((s.drop c l).goto p x)
  | yield {x} :
      Run code s c p (.yield x)
        ((s.setState p .runnable).goto p (.swtch (.release (.proc p) x)))
  | swtch {x} (hlock : s.lock (.proc p) = some c) (hnoff : (s.cpu c).noff = 1)
      (hstate : (s.proc p).state ≠ .running) :
      Run code s c p (.swtch x) ((s.swtchFrom c).goto p x)
  | sleep {ch l x} :
      Run code s c p (.sleep ch l x)
        ((s.setProc p { s.proc p with chan := some ch, state := .sleeping }).goto p
          (.swtch (.woken ch l x)))
  | woken {ch l x} :
      Run code s c p (.woken ch l x)
        ((s.setProc p { s.proc p with chan := none }).goto p
          (.release (.proc p) (.acquire l x)))
  | rouse {ch j x} :
      Run code s c p (.rouse ch j x)
        ((s.setProc j ((s.proc j).rouse ch)).goto p
          (.release (.proc j) (.wakeup ch (j + 1) x)))
  | hit {pid j x y} (hpid : (s.proc j).pid = pid) :
      Run code s c p (.hit pid j x y)
        ((s.setProc j (s.proc j).kill).goto p (.release (.proc j) x))
  | allocpid {j x} :
      Run code s c p (.allocpid j x)
        { (s.setProc j { s.proc j with pid := s.nextpid }).goto p (.release .pid (.setup j x)) with
          nextpid := s.nextpid + 1 }
  | noMemory {j x} :
      Run code s c p (.setup j x)
        ((s.setProc j (s.proc j).freeproc).goto p (.release (.proc j) x))
  | setup {j x} :
      Run code s c p (.setup j x)
        (((s.setState j .used).goto j (.release (.proc j) (.code code.start))).goto p
          (.release (.proc j) (.acquire .wait (.setParent j x))))
  | setParent {j x} :
      Run code s c p (.setParent j x)
        ((s.setProc j { s.proc j with parent := some p }).goto p
          (.release .wait (.acquire (.proc j) (.ready j x))))
  | ready {j x} :
      Run code s c p (.ready j x) ((s.setState j .runnable).goto p (.release (.proc j) x))
  | reparent {j : Fin N} (h : (s.proc j).parent = some p) :
      Run code s c p (.reparent j)
        ((s.setProc j { s.proc j with parent := some s.initproc }).goto p
          (.wakeup (some (.proc s.initproc)) 0 (.reparent (j + 1))))
  | zombie :
      Run code s c p .zombie ((s.setState p .zombie).goto p (.release .wait (.swtch .dead)))
  | reap {j x} (h : (s.proc j).state = .zombie) :
      Run code s c p (.reap j x)
        ((s.setProc j (s.proc j).freeproc).goto p (.release (.proc j) (.release .wait x)))

inductive Schedule (s : Sys M N L σ κ) (c : Fin M) : Loop N → Sys M N L σ κ → Prop
  | wrap {j} (hj : N ≤ j) : Schedule s c (.scan j) (s.gotoLoop c (.scan 0))
  | scan {j : Fin N} (h : s.lock (.proc j) = none) :
      Schedule s c (.scan j) ((s.take c (.proc j)).gotoLoop c (.test j))
  | pick {p} (h : (s.proc p).state = .runnable) : Schedule s c (.test p) (s.swtchTo c p)
  | pass {p} (h : (s.proc p).state ≠ .runnable) :
      Schedule s c (.test p) (s.gotoLoop c (.next p))
  | back {p} :
      Schedule s c (.switched p) (s.setCpu c { s.cpu c with proc := none, pc := .next p })
  | next {p} (h : s.lock (.proc p) = some c) :
      Schedule s c (.next p) ((s.drop c (.proc p)).gotoLoop c (.scan (p + 1)))

inductive Step (code : Code N L σ κ ι) (s : Sys M N L σ κ) : Act M ι → Sys M N L σ κ → Prop
  | schedule {c io fail s'} (hstack : (s.cpu c).stack = none)
      (h : Schedule s c (s.cpu c).pc s') : Step code s (.step c io fail) s'
  | run {c p io fail s'} (hstack : (s.cpu c).stack = some p)
      (h : Run code s c p (s.pc p) s') : Step code s (.step c io fail) s'
  | timer {c p} (hstack : (s.cpu c).stack = some p) (hnoff : (s.cpu c).noff = 0) :
      Step code s (.timer c) (s.goto p (.acquire (.proc p) (.yield (s.pc p))))

theorem acquire_cases {l : Lock N L} (h : s.acquire c l = .ok s') :
    s.lock l = none ∧ s' = s.take c l := by
  unfold Sys.acquire at h
  split_ifs at h with h₁ h₂
  cases h
  exact ⟨h₂, rfl⟩

theorem release_cases {l : Lock N L} (h : s.release c l = .ok s') :
    s.lock l = some c ∧ s' = s.drop c l := by
  unfold Sys.release at h
  split_ifs at h with h₁
  cases h
  exact ⟨h₁, rfl⟩

theorem map_ok {α β ε : Type*} {f : α → β} {x : Except ε α} {y : β} (h : x.map f = .ok y) :
    ∃ a, x = .ok a ∧ y = f a := by
  cases x with
  | error e => cases h
  | ok a =>
    cases h
    exact ⟨a, rfl, rfl⟩

theorem schedule_cases (h : s.schedule c = .ok s') : Schedule s c (s.cpu c).pc s' := by
  unfold Sys.schedule at h
  split at h <;> rename_i hpc <;> rw [hpc]
  · rename_i j
    split_ifs at h with hj
    · obtain ⟨t, ht, rfl⟩ := map_ok h
      obtain ⟨hlock, rfl⟩ := acquire_cases ht
      exact .scan (j := ⟨j, hj⟩) hlock
    · cases h
      exact .wrap (by omega)
  · split_ifs at h with hstate <;> cases h
    · exact .pick hstate
    · exact .pass hstate
  · cases h
    exact .back
  · obtain ⟨t, ht, rfl⟩ := map_ok h
    obtain ⟨hlock, rfl⟩ := release_cases ht
    exact .next hlock

theorem run_cases {code : Code N L σ κ ι} {p : Fin N} {io : ι} {fail : Bool}
    (h : s.run code c p io fail = .ok s') : Run code s c p (s.pc p) s' := by
  unfold Sys.run at h
  split at h <;> rename_i hpc <;> rw [hpc]
  · split_ifs at h with hexit
    cases h
    exact .code fun he hp => hexit ⟨he, hp⟩
  · obtain ⟨t, ht, rfl⟩ := map_ok h
    obtain ⟨hlock, rfl⟩ := acquire_cases ht
    exact .acquire hlock
  · obtain ⟨t, ht, rfl⟩ := map_ok h
    obtain ⟨hlock, rfl⟩ := release_cases ht
    exact .release hlock
  · cases h
    exact .yield
  · split_ifs at h with h₁ h₂ h₃
    cases h
    exact .swtch (not_not.mp h₁) (not_not.mp h₂) h₃
  · cases h
    exact .sleep
  · cases h
    exact .woken
  · rename_i ch j x
    split_ifs at h with hj hp <;> cases h
    · subst hp
      exact .jump .wakeupSelf
    · exact .jump (.wakeup (j := ⟨j, hj⟩) fun heq => hp (congrArg Fin.val heq))
    · exact .jump (.wakeupEnd (by omega))
  · cases h
    exact .rouse
  · rename_i pid j x y
    split_ifs at h with hj <;> cases h
    · exact .jump (.kill (j := ⟨j, hj⟩))
    · exact .jump (.killEnd (by omega))
  · split_ifs at h with hpid <;> cases h
    · exact .hit hpid
    · exact .jump (.miss hpid)
  · cases h
    split_ifs with hk
    · exact .jump (.killed hk)
    · exact .jump (.notKilled (Bool.eq_false_iff.mpr hk))
  · rename_i j x
    split_ifs at h with hj <;> cases h
    · exact .jump (.alloc (j := ⟨j, hj⟩))
    · exact .jump (.allocEnd (by omega))
  · split_ifs at h with hstate <;> cases h
    · exact .jump (.found hstate)
    · exact .jump (.inUse hstate)
  · cases h
    exact .allocpid
  · split_ifs at h <;> cases h
    · exact .noMemory
    · exact .setup
  · cases h
    exact .setParent
  · cases h
    exact .ready
  · rename_i j
    split_ifs at h with hj hparent <;> cases h
    · exact .reparent (j := ⟨j, hj⟩) hparent
    · exact .jump (.reparentNext (j := ⟨j, hj⟩) hparent)
    · exact .jump (.reparentEnd (by omega))
  · cases h
    exact .zombie
  · cases h
  · rename_i j kids x
    split_ifs at h with hj hparent hkids <;> cases h
    · exact .jump (.child (j := ⟨j, hj⟩) hparent)
    · exact .jump (.scanNext (j := ⟨j, hj⟩) hparent)
    · subst hkids
      exact .jump (.kids (by omega))
    · rw [Bool.eq_false_iff.mpr hkids]
      exact .jump (.noKids (by omega))
  · split_ifs at h with hstate <;> cases h
    · exact .jump (.copyoutFails hstate)
    · exact .reap hstate
    · exact .jump (.alive hstate)

theorem step_cases {code : Code N L σ κ ι} {a : Act M ι} (h : s.step code a = .ok s') :
    Step code s a s' := by
  cases a with
  | step c io fail =>
    simp only [Sys.step] at h
    split at h
    · exact .schedule ‹_› (schedule_cases h)
    · exact .run ‹_› (run_cases h)
  | timer c =>
    simp only [Sys.step] at h
    split at h
    · cases h
    · split_ifs at h with hnoff
      cases h
      exact .timer ‹_› hnoff

end Xv6.Sched
