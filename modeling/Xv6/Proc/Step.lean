import Xv6.Proc.Basic

/-!
What a step does to the process table, one case for each way through the code.
-/

namespace Xv6.Ptable

open Sys

variable {N : ℕ}

def Pc.sleeps : Pc N → Bool
  | .asleep _ => true
  | _ => false

theorem wakePc_cases (c : Pc N) :
    (∃ addr, c = .asleep addr ∧ wakePc c = .wait addr) ∨ c.sleeps = false ∧ wakePc c = c := by
  cases c with
  | asleep addr => exact .inl ⟨addr, rfl, rfl⟩
  | _ => exact .inr ⟨rfl, rfl⟩

variable [NeZero N]

inductive Call (p : Fin N) : Act N → Pc N → Prop
  | fork : Call p (.fork p) (.alloc 0)
  | exit {status} (hp : p ≠ 0) : Call p (.exit p status) (.closeFile 0 status)
  | wait {addr} : Call p (.wait p addr) (.wait addr)
  | kill {pid} : Call p (.kill p pid) (.kill pid 0)

/-- The process goes on without a change to the table or to `wait_lock`. -/
inductive Move (s : Sys N) (p : Fin N) : Pc N → Pc N → Prop
  | busy {np : Fin N} (h : (s.proc np).state ≠ .unused) : Move s p (.alloc np) (.alloc (np + 1))
  | closed {fd status} (h : NOFILE ≤ fd) : Move s p (.closeFile fd status) (.putCwd status)
  | notChild {pp : Fin N} {status} (h : (s.proc pp).parent ≠ some p) :
      Move s p (.reparent pp status) (.reparent (pp + 1) status)
  | adopted {j status} (h : N ≤ j) :
      Move s p (.reparent j status) (.wakeup (s.proc p).parent 0 none status)
  | skip {c next status} : Move s p (.wakeup c p next status) (.wakeup c (p + 1) next status)
  | reparent {c i j status} (h : N ≤ i) :
      Move s p (.wakeup c i (some j) status) (.reparent j status)
  | zombie {c i status} (h : N ≤ i) : Move s p (.wakeup c i none status) (.zombie status)
  | other {pp : Fin N} {addr havekids} (h : (s.proc pp).parent ≠ some p) :
      Move s p (.scan addr pp havekids) (.scan addr (pp + 1) havekids)
  | alive {pp : Fin N} {addr havekids} (hparent : (s.proc pp).parent = some p)
      (hstate : (s.proc pp).state ≠ .zombie) :
      Move s p (.scan addr pp havekids) (.scan addr (pp + 1) true)
  | sleep {addr j} (h : N ≤ j) (hkilled : (s.proc p).killed = false) :
      Move s p (.scan addr j true) (.sleep addr)
  | miss {q : Fin N} {pid} (h : (s.proc q).pid ≠ pid) : Move s p (.kill pid q) (.kill pid (q + 1))

inductive Run (s : Sys N) (p : Fin N) : Pc N → Sys N → Prop
  | move {k k'} (h : Move s p k k') : Run s p k (s.goto p k')
  | noProc {j} (h : N ≤ j) : Run s p (.alloc j) (s.ret p (-1))
  | allocFails {np : Fin N} (h : (s.proc np).state = .unused) :
      Run s p (.alloc np)
        ({ s.update np Proc.freeproc with nextpid := s.nextpid + 1 }.ret p (-1))
  | alloc {np : Fin N} (h : (s.proc np).state = .unused) :
      Run s p (.alloc np)
        ({ s.update np fun x => x.alloc (s.proc p) s.nextpid s.nextId with
          nextpid := s.nextpid + 1
          nextId := s.nextId + 1
          trace := .fork s.nextId s.nextpid (s.proc p).id :: s.trace }.goto p (.setParent np))
  | setParent {np} (hlock : s.waitLock = none) :
      Run s p (.setParent np)
        ((s.update np fun x => { x with parent := some p }).goto p (.setRunnable np))
  | setRunnable {np} :
      Run s p (.setRunnable np)
        (((s.update np fun x => { x with state := .runnable }).ret np 0).ret p (s.proc np).pid)
  | closeFile {fd : Fin NOFILE} {status} :
      Run s p (.closeFile fd status)
        ((s.update p fun x => { x with ofile := Function.update x.ofile fd none }).goto p
          (.closeFile (fd + 1) status))
  | putCwd {status} :
      Run s p (.putCwd status) ((s.update p fun x => { x with cwd := none }).goto p (.exit status))
  | exit {status} (hlock : s.waitLock = none) :
      Run s p (.exit status) { s.goto p (.reparent 0 status) with waitLock := some p }
  | adopt {pp : Fin N} {status} (h : (s.proc pp).parent = some p) :
      Run s p (.reparent pp status)
        ((s.update pp fun x => { x with parent := some 0 }).goto p
          (.wakeup (some 0) 0 (some (pp + 1)) status))
  | wakeup {q : Fin N} {c next status} (hne : q ≠ p) (hdoze : (s.pc q).dozes = false) :
      Run s p (.wakeup c q next status)
        ((s.update q (Proc.rouse (c.map .proc))).goto p (.wakeup c (q + 1) next status))
  | zombie {status} :
      Run s p (.zombie status)
        { (s.update p fun x => { x with xstate := status, state := .zombie }).goto p .idle with
          waitLock := none
          trace := .exit (s.proc p).id (s.proc p).pid status :: s.trace }
  | wait {addr} (hlock : s.waitLock = none) :
      Run s p (.wait addr) { s.goto p (.scan addr 0 false) with waitLock := some p }
  | reap {pp : Fin N} {addr havekids} (hparent : (s.proc pp).parent = some p)
      (hstate : (s.proc pp).state = .zombie) :
      Run s p (.scan addr pp havekids)
        { (s.update pp Proc.freeproc).ret p (s.proc pp).pid with
          waitLock := none
          trace := .reap (s.proc pp).id (s.proc pp).pid (s.proc pp).xstate (s.proc p).id ::
            s.trace }
  | waitFails {addr j havekids} : Run s p (.scan addr j havekids)
      { s.ret p (-1) with waitLock := none }
  | sleep {addr} : Run s p (.sleep addr) { s.goto p (.doze addr) with waitLock := none }
  | doze {addr} :
      Run s p (.doze addr)
        ((s.update p fun x => { x with chan := some (.proc p), state := .sleeping }).goto p
          (.asleep addr))
  | hit {q : Fin N} {pid} (h : (s.proc q).pid = pid) (hdoze : (s.pc q).dozes = false) :
      Run s p (.kill pid q) ((s.update q Proc.kill).ret p 0)
  | noPid {pid j} (h : N ≤ j) : Run s p (.kill pid j) (s.ret p (-1))

inductive Step (s : Sys N) : Act N → Sys N → Prop
  | call {p a c} (hpc : s.pc p = .user) (hrun : (s.proc p).state = .running) (h : Call p a c) :
      Step s a (s.goto p c)
  | setFile {p fd f} (hpc : s.pc p = .user) (hrun : (s.proc p).state = .running) :
      Step s (.setFile p fd f)
        (s.update p fun x => { x with ofile := Function.update x.ofile fd f })
  | setCwd {p ip} (hpc : s.pc p = .user) (hrun : (s.proc p).state = .running) :
      Step s (.setCwd p ip) (s.update p fun x => { x with cwd := some ip })
  | run {p fails s'} (hrun : (s.proc p).state = .running) (h : Run s p (s.pc p) s') :
      Step s (.step p fails) s'
  | sched {p} (h : (s.proc p).state = .runnable) :
      Step s (.sched p)
        ((s.update p fun x => { x with state := .running, chan := none }).goto p (wakePc (s.pc p)))
  | yield {p} (hrun : (s.proc p).state = .running) (hdoze : (s.pc p).dozes = false) :
      Step s (.yield p) (s.update p fun x => { x with state := .runnable })
  | nap {p addr} (hrun : (s.proc p).state = .running) (hpc : (s.pc p).mayNap = true) :
      Step s (.nap p addr)
        (s.update p fun x => { x with chan := some (.other addr), state := .sleeping })
  | rouse {p addr} (h : (s.proc p).chan = some (.other addr)) :
      Step s (.rouse p) (s.update p (Proc.rouse (some (.other addr))))

theorem run_cases {s s' : Sys N} {p : Fin N} {fails : Bool} (h : s.run p fails = .ok s') :
    Run s p (s.pc p) s' := by
  unfold Sys.run at h
  split at h <;> rename_i hpc
  case h_1 j =>
    rw [hpc]
    split_ifs at h with hj hdoze hst hfails <;> cases h
    · exact @Run.allocFails _ _ s p ⟨j, hj⟩ hst
    · exact @Run.alloc _ _ s p ⟨j, hj⟩ hst
    · exact .move (@Move.busy _ s p ⟨j, hj⟩ hst)
    · exact .noProc (not_lt.mp hj)
  case h_2 np =>
    rw [hpc]
    split_ifs at h with hlock
    cases h
    exact .setParent hlock
  case h_3 np =>
    rw [hpc]
    cases h
    exact .setRunnable
  case h_4 fd status =>
    rw [hpc]
    split_ifs at h with hfd <;> cases h
    · exact @Run.closeFile _ _ s p ⟨fd, hfd⟩ _
    · exact .move (.closed (not_lt.mp hfd))
  case h_5 status =>
    rw [hpc]
    cases h
    exact .putCwd
  case h_6 status =>
    rw [hpc]
    split_ifs at h with hlock
    cases h
    exact .exit hlock
  case h_7 j status =>
    rw [hpc]
    split_ifs at h with hj hparent <;> cases h
    · exact @Run.adopt _ _ s p ⟨j, hj⟩ _ hparent
    · exact .move (@Move.notChild _ s p ⟨j, hj⟩ _ hparent)
    · exact .move (.adopted (not_lt.mp hj))
  case h_8 c i next status =>
    rw [hpc]
    split_ifs at h with hi heq hdoze
    · cases h
      subst heq
      exact .move .skip
    · cases h
      exact .wakeup (q := ⟨i, hi⟩) heq (Bool.eq_false_iff.mpr hdoze)
    · cases next <;> cases h
      · exact .move (.zombie (not_lt.mp hi))
      · exact .move (.reparent (not_lt.mp hi))
  case h_9 status =>
    rw [hpc]
    cases h
    exact .zombie
  case h_10 addr =>
    rw [hpc]
    split_ifs at h with hlock
    cases h
    exact .wait hlock
  case h_11 addr j havekids =>
    rw [hpc]
    split_ifs at h with hj hparent hdoze hstate hfails hnone <;> cases h
    · exact .waitFails
    · exact @Run.reap _ _ s p ⟨j, hj⟩ _ _ hparent hstate
    · exact .move (@Move.alive _ s p ⟨j, hj⟩ _ _ hparent hstate)
    · exact .move (@Move.other _ s p ⟨j, hj⟩ _ _ hparent)
    · exact .waitFails
    · simp only [not_or, Bool.not_eq_false, Bool.not_eq_true] at hnone
      rw [hnone.1]
      exact .move (.sleep (not_lt.mp hj) hnone.2)
  case h_12 addr =>
    rw [hpc]
    cases h
    exact .sleep
  case h_13 addr =>
    rw [hpc]
    cases h
    exact .doze
  case h_14 pid j =>
    rw [hpc]
    split_ifs at h with hj hdoze hpid <;> cases h
    · exact .hit (q := ⟨j, hj⟩) hpid (Bool.eq_false_iff.mpr hdoze)
    · exact .move (.miss (q := ⟨j, hj⟩) hpid)
    · exact .noPid (not_lt.mp hj)
  case h_15 => cases h

theorem step_cases {s s' : Sys N} {a : Act N} (h : s.step a = .ok s') : Step s a s' := by
  cases a with
  | fork p =>
    simp only [Sys.step] at h
    split_ifs at h with hpc
    cases h
    exact .call hpc.1 hpc.2 .fork
  | exit p status =>
    simp only [Sys.step] at h
    split_ifs at h with hpc hp
    cases h
    exact .call hpc.1 hpc.2 (.exit hp)
  | wait p addr =>
    simp only [Sys.step] at h
    split_ifs at h with hpc
    cases h
    exact .call hpc.1 hpc.2 .wait
  | kill p pid =>
    simp only [Sys.step] at h
    split_ifs at h with hpc
    cases h
    exact .call hpc.1 hpc.2 .kill
  | setFile p fd f =>
    simp only [Sys.step] at h
    split_ifs at h with hpc
    cases h
    exact .setFile hpc.1 hpc.2
  | setCwd p ip =>
    simp only [Sys.step] at h
    split_ifs at h with hpc
    cases h
    exact .setCwd hpc.1 hpc.2
  | step p fails =>
    simp only [Sys.step] at h
    split_ifs at h with hrun
    exact .run hrun (run_cases h)
  | sched p =>
    simp only [Sys.step] at h
    split_ifs at h with hrun
    cases h
    exact .sched hrun
  | yield p =>
    simp only [Sys.step] at h
    split_ifs at h with hrun
    cases h
    exact .yield hrun.1 hrun.2.2
  | nap p addr =>
    simp only [Sys.step] at h
    split_ifs at h with hrun
    cases h
    exact .nap hrun.1 hrun.2
  | rouse p =>
    simp only [Sys.step] at h
    split at h
    · cases h
      exact .rouse ‹_›
    · cases h

end Xv6.Ptable
