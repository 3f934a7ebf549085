import Xv6.Sched.Control

/-!
A process runs on one CPU at a time.

Whoever takes a process to run, or stops it, holds its lock; and from the moment
a process gives up its state `RUNNING` until the CPU is back on its own stack
the lock is not free.
-/

namespace Xv6.Sched

open Ptable (State Chan Slot)
open Sys
open Function (update update_self update_of_ne)

variable {M N L : ℕ} {σ κ ι : Type}
variable {s : Sys M N L σ κ} {code : Code N L σ κ ι}

namespace Inv

variable {s s' : Sys M N L σ κ} {c : Fin M} {p : Fin N} {code : Code N L σ κ ι}
variable {u : Cpu N} {j : Fin N}

/-! ### The scheduler -/

theorem loop (h : Inv s) (hc : (s.cpu c).stack = none) (hcpu : s'.cpu = update s.cpu c u)
    (hpc : s'.pc = s.pc) (hproc : s'.proc = s.proc) (hustack : u.stack = none)
    (huproc : u.proc = none) (hupc : ∀ q, u.pc ≠ .switched q)
    (hlock : ∀ c' q, s'.lock (.proc q) = some c' ↔ s'.has c' = some q)
    (hnoff : ∀ c', (s'.cpu c').noff = cnt Finset.univ s'.lock (some c')) : Inv s' := by
  have hself : s'.cpu c = u := by rw [hcpu, update_self]
  have hother : ∀ c', c' ≠ c → s'.cpu c' = s.cpu c' := fun c' hne => by
    rw [hcpu, update_of_ne hne]
  have hstack : ∀ c', (s'.cpu c').stack = (s.cpu c').stack := fun c' => by
    by_cases hne : c' = c
    · rw [hne, hself, hustack, hc]
    · rw [hother c' hne]
  have hswitched {c' : Fin M} {q : Fin N} (hq : (s'.cpu c').pc = .switched q) :
      (s.cpu c').pc = .switched q := by grind
  refine ⟨?_, fun c' q => ?_, fun c' q hq => ?_, fun c' c'' q hq hq' => ?_, hlock, hnoff, ?_, ?_,
    ?_, ?_, ?_⟩
  · rw [hpc]
    exact h.ok
  · grind [h.proc]
  · grind [h.on]
  · exact h.uniq c' c'' q (hswitched hq) (hswitched hq')
  · simp only [hproc, hpc, hstack]
    exact h.run
  · simp only [hproc, hpc, hstack]
    exact h.park
  · simp only [hproc, hstack]
    exact h.live
  · rw [hproc, hpc]
    exact h.child
  · rw [hproc, hpc]
    exact h.parent

theorem has_loop {c' : Fin M} (hcpu : s'.cpu = update s.cpu c u) (hpc : s'.pc = s.pc)
    (hne : c' ≠ c) : s'.has c' = s.has c' := by
  unfold Sys.has
  rw [hcpu, update_of_ne hne, hpc]

theorem has_loop_self (hcpu : s'.cpu = update s.cpu c u) (hustack : u.stack = none) :
    s'.has c = u.pc.has := by
  have hself : s'.cpu c = u := by rw [hcpu, update_self]
  rw [has_of_none (by rw [hself, hustack]), hself]

variable (h : Inv s)
include h

theorem proc_none (hpc : ∀ q, (s.cpu c).pc ≠ .switched q) : (s.cpu c).proc = none := by
  cases hproc : (s.cpu c).proc with
  | none => rfl
  | some q => exact absurd ((h.proc c q).mp hproc) (hpc q)

theorem gotoLoop {x : Loop N} (hc : (s.cpu c).stack = none) (hpc : ∀ q, (s.cpu c).pc ≠ .switched q)
    (hx : ∀ q, x ≠ .switched q) (hhas : x.has = (s.cpu c).pc.has) : Inv (s.gotoLoop c x) := by
  have hcpu : (s.gotoLoop c x).cpu = update s.cpu c { s.cpu c with pc := x } := rfl
  refine h.loop hc hcpu rfl rfl hc (h.proc_none hpc) hx (fun c' q => ?_) fun c' => ?_
  · rw [← show s.lock = (s.gotoLoop c x).lock from rfl, h.lock c' q]
    by_cases hne : c' = c
    · rw [hne, has_of_none hc, has_loop_self hcpu hc, hhas]
    · rw [has_loop hcpu rfl hne]
  · rw [show ((s.gotoLoop c x).cpu c').noff = (s.cpu c').noff from update_proj Cpu.noff rfl]
    exact h.noff c'

theorem scan {j : Fin N} (hc : (s.cpu c).stack = none) (hpc : (s.cpu c).pc = .scan j)
    (hfree : s.lock (.proc j) = none) : Inv ((s.take c (.proc j)).gotoLoop c (.test j)) := by
  have hcpu : ((s.take c (.proc j)).gotoLoop c (.test j)).cpu = update s.cpu c
      { s.cpu c with noff := (s.cpu c).noff + 1, pc := .test j } := by
    simp [Sys.gotoLoop, Sys.take, setCpu]
  refine h.loop hc hcpu rfl rfl hc (h.proc_none fun q hq => by rw [hpc] at hq; cases hq)
    (by rintro _ ⟨⟩)
    (holds_take h.lock hfree (fun c' hne => has_loop hcpu rfl hne) (fun i hi => ⟨?_, ?_⟩)
      (by rintro ⟨⟩))
    fun c' => ?_
  · rw [has_of_none hc, hpc]
    rfl
  · rw [has_loop_self hcpu hc]
    exact hi
  · rw [hcpu]
    exact (noff_update c').trans (noff_take h.noff hfree c')

theorem next (hc : (s.cpu c).stack = none) (hpc : (s.cpu c).pc = .next p)
    (hheld : s.lock (.proc p) = some c) :
    Inv ((s.drop c (.proc p)).gotoLoop c (.scan (p + 1))) := by
  have hcpu : ((s.drop c (.proc p)).gotoLoop c (.scan (p + 1))).cpu = update s.cpu c
      { s.cpu c with noff := (s.cpu c).noff - 1, pc := .scan (p + 1) } := by
    simp [Sys.gotoLoop, Sys.drop, setCpu]
  refine h.loop hc hcpu rfl rfl hc (h.proc_none fun q hq => by rw [hpc] at hq; cases hq)
    (by rintro _ ⟨⟩)
    (holds_drop h.lock hheld (fun c' hne => has_loop hcpu rfl hne) (fun _ => ?_) (by rintro ⟨⟩))
    fun c' => ?_
  · rw [has_loop_self hcpu hc]
    rfl
  · rw [hcpu]
    exact (noff_update c').trans (noff_drop h.noff hheld c')

theorem back (hc : (s.cpu c).stack = none) (hpc : (s.cpu c).pc = .switched p) :
    Inv (s.setCpu c { s.cpu c with proc := none, pc := .next p }) := by
  set s' := s.setCpu c { s.cpu c with proc := none, pc := .next p } with hs'
  have hcpu : s'.cpu = update s.cpu c { s.cpu c with proc := none, pc := .next p } := rfl
  refine h.loop hc hcpu rfl rfl hc rfl nofun (fun c' q => ?_) fun c' => ?_
  · show s.lock (.proc q) = some c' ↔ _
    rw [h.lock c' q]
    by_cases hne : c' = c
    · rw [hne, has_of_none hc, has_loop_self hcpu hc, hpc]
      rfl
    · rw [has_loop hcpu rfl hne]
  · rw [show (s'.cpu c').noff = (s.cpu c').noff from update_proj Cpu.noff rfl]
    exact h.noff c'

theorem not_switched {c' : Fin M} (hc : (s.cpu c).stack = none) (hpc : (s.cpu c).pc = .test p)
    (hstate : (s.proc p).state ≠ .running) : (s.cpu c').pc ≠ .switched p := by
  intro hc'
  have hlock := (h.lock c p).mpr (by rw [has_of_none hc, hpc]; rfl)
  have hself : s.has c' = some p → False := by grind [Inv]
  cases hst : (s.cpu c').stack with
  | none => exact hself (by rw [has_of_none hst, hc']; rfl)
  | some q => grind [Inv, has_of_stack, Pc.has_of_off]

theorem pick (hc : (s.cpu c).stack = none) (hpc : (s.cpu c).pc = .test p)
    (hstate : (s.proc p).state = .runnable) : Inv (s.swtchTo c p) := by
  have hfree (c' : Fin M) : (s.cpu c').pc ≠ .switched p :=
    h.not_switched hc hpc (by rw [hstate]; nofun)
  have hnot (c' : Fin M) : (s.cpu c').stack ≠ some p := fun hst => hfree c' (h.on c' p hst)
  obtain ⟨hhas, hoff⟩ := h.park p (by rw [hstate]; nofun) hnot
  set s' := s.swtchTo c p with hs'
  have hself : s'.cpu c = { s.cpu c with proc := some p, stack := some p, pc := .switched p } :=
    update_self ..
  have hother (c' : Fin M) (hne : c' ≠ c) : s'.cpu c' = s.cpu c' := update_of_ne hne ..
  have hrunning : (s'.proc p).state = .running := by simp [hs', swtchTo, setCpu, setState, setProc]
  have hstates (q : Fin N) (hq : q ≠ p) : s'.proc q = s.proc q := update_of_ne hq ..
  have hlive {q : Fin N} (hq : (s'.proc q).state ≠ .unused) : (s.proc q).state ≠ .unused := by grind
  refine ⟨h.ok, fun c' q => ?_, fun c' q hq => ?_, fun c' c'' q hq hq' => ?_, fun c' q => ?_,
    fun c' => ?_, fun q => ?_, fun q hq hst => ?_, fun c' q hq => ?_, fun q i t hq hi => ?_,
    fun q r i t t' hq hr hi hi' => h.parent q r i t t' (hlive hq) (hlive hr) hi hi'⟩
  · grind [h.proc]
  · grind [h.on]
  · by_cases hqp : q = p
    · grind
    · grind [h.uniq]
  · show s.lock (.proc q) = some c' ↔ _
    rw [h.lock c' q]
    by_cases hne : c' = c
    · rw [hne, has_of_none hc, hpc, has_of_stack (s := s') (p := p) (by rw [hself]),
        show s'.pc p = s.pc p from rfl, hhas]
      rfl
    · unfold Sys.has
      rw [hother c' hne]
      rfl
  · rw [show (s'.cpu c').noff = (s.cpu c').noff from update_proj Cpu.noff rfl]
    exact h.noff c'
  · by_cases hqp : q = p
    · rw [hqp, hrunning]
      simp only [true_iff]
      exact ⟨c, by rw [hself], hoff⟩
    · rw [hstates q hqp, h.run q]
      constructor
      · rintro ⟨d, hd, ho⟩
        have hne : d ≠ c := fun heq => by
          rw [heq, hc] at hd
          cases hd
        exact ⟨d, by rw [hother d hne, hd], ho⟩
      · rintro ⟨d, hd, ho⟩
        have hne : d ≠ c := fun heq => by
          rw [heq, hself] at hd
          exact hqp (Option.some.inj hd).symm
        exact ⟨d, by rwa [hother d hne] at hd, ho⟩
  · refine h.park q (hlive hq) fun d hd => ?_
    have hne : d ≠ c := fun heq => by
      rw [heq, hc] at hd
      cases hd
    exact hst d (by rw [hother d hne, hd])
  · grind [h.live]
  · have hst := h.child q i t (hlive hq) hi
    have hip : i ≠ p := fun heq => by
      rw [heq, hstate] at hst
      rcases Pc.child_state hi with rfl | rfl <;> cases hst
    rw [hstates i hip]
    exact hst

theorem schedule (hc : (s.cpu c).stack = none) {x : Loop N} (hx : (s.cpu c).pc = x)
    (hs : Schedule s c x s') : Inv s' := by
  cases hs with
  | wrap | pass => exact h.gotoLoop hc (by rw [hx]; nofun) nofun (by rw [hx]; rfl)
  | scan hfree => exact h.scan hc hx hfree
  | pick hstate => exact h.pick hc hx hstate
  | back => exact h.back hc hx
  | next hheld => exact h.next hc hx hheld

/-! ### Processes -/

theorem not_child {q : Fin N} {t : State} (hq : (s.proc q).state ≠ .unused)
    (hj : (s.proc j).state ≠ .unused) (hj' : (s.proc j).state ≠ .used) :
    (s.pc q).child ≠ some (j, t) :=
  fun hc => hj' (h.child_ne hq hc hj)

theorem child_uniq {q : Fin N} {t : State} (hc : (s.cpu c).stack = some p)
    (hhas : (s.pc p).has p = some j) (hj : (s.proc j).state = .unused)
    (hq : (s.proc q).state ≠ .unused) (hchild : (s.pc q).child = some (j, t)) : q = p := by
  have ht : t = .unused := (h.child q j t hq hchild).symm.trans hj
  have hqhas := Pc.has_of_child (h.ok q) (ht ▸ hchild)
  by_cases hon : ∃ c', (s.cpu c').stack = some q
  · obtain ⟨c', hc'⟩ := hon
    have hlock := (h.lock c j).mpr (by rw [has_of_stack hc, hhas])
    have hlock' := (h.lock c' j).mpr (by rw [has_of_stack hc', hqhas])
    rw [Option.some.inj (hlock'.symm.trans hlock), hc] at hc'
    exact (Option.some.inj hc').symm
  · grind [h.park]

theorem touch {y : Pc N L κ} {u : Slot N} (hc : (s.cpu c).stack = some p)
    (hhas : (s.pc p).has p = some j) (hoff : (s.pc p).off = false)
    (hu : u.state = (s.proc j).state ∨ (s.proc j).state = .sleeping ∧ u.state = .runnable ∨
      (s.proc j).state = .zombie ∧ u.state = .unused) (hok : y.Ok p) (hyhas : y.has p = some j)
    (hyoff : y.off = false) (hychild : y.child = none) : Inv ((s.setProc j u).goto p y) := by
  have hnochild : ∀ i t, y.child ≠ some (i, t) := fun i t hi => nomatch hychild.symm.trans hi
  by_cases hsame : u.state = (s.proc j).state
  · refine h.move hc rfl rfl rfl (fun i => ?_) hok (hyhas.trans hhas.symm) (hyoff.trans hoff.symm)
      fun i t hi => absurd hi (hnochild i t)
    exact update_proj Slot.state hsame
  · have hst := hu.resolve_left hsame
    have hself : (((s.setProc j u).goto p y).proc j).state = u.state := by simp [Sys.goto, setProc]
    have hsrun : (s.proc j).state ≠ .running := by grind
    have hslive : (s.proc j).state ≠ .unused := by grind
    have hsused : (s.proc j).state ≠ .used := by grind
    have hurun : u.state ≠ .running := by grind
    refine h.shift (j := j) hc rfl rfl rfl ?_ hhas (fun i hi => ?_) hsrun hslive (by rwa [hself])
      hok
      (hyhas.trans hhas.symm) (hyoff.trans hoff.symm) (fun i t hi => absurd hi (hnochild i t))
      fun q t _ hq => h.not_child hq hslive hsused
    · rintro rfl
      exact hsrun (h.running hc hoff)
    · simp [Sys.goto, setProc, hi]

theorem run_step (hc : (s.cpu c).stack = some p) {x : Pc N L κ} (hx : s.pc p = x)
    (hs : Run code s c p x s') : Inv s' := by
  have hok : x.Ok p := hx ▸ h.ok p
  have hmove {t : Sys M N L σ κ} {y : Pc N L κ} (hcpu : t.cpu = s.cpu) (hlock : t.lock = s.lock)
      (hpc : t.pc = update s.pc p y)
      (hstate : ∀ j, (t.proc j).state = (s.proc j).state) (hok' : y.Ok p)
      (hhas : y.has p = x.has p) (hoff : y.off = x.off)
      (hchild : ∀ j t, y.child = some (j, t) → x.child = some (j, t)) : Inv t :=
    h.move hc hcpu hlock hpc hstate hok' (hx ▸ hhas) (hx ▸ hoff) fun j t hj =>
      .inl (hx ▸ hchild j t hj)
  cases hs with
  | jump hj =>
    obtain ⟨hok', hhas, hoff, hoff', hchild⟩ := hj.ok hok
    refine h.move hc rfl rfl rfl (fun _ => rfl) hok' (by rw [hx, hhas]) (by rw [hx, hoff, hoff'])
      fun i t hi => .inr ?_
    obtain ⟨rfl, hst, hxi⟩ := hchild i t hi
    exact ⟨hst, fun q t' hq hi' => h.child_uniq hc (hx ▸ hxi) hst hq hi'⟩
  | @code k io _ =>
    obtain ⟨hok', hhas, hchild⟩ := (code.exec p s.shared k io).2.start_ok p
    exact hmove rfl rfl rfl (fun _ => rfl) hok' hhas (Pc.off_of_has hhas) fun i t hi =>
      absurd (hchild.symm.trans hi) (by rintro ⟨⟩)
  | acquire hfree => exact h.take hc hx hfree
  | release hheld => exact h.drop hc hx hheld
  | yield =>
    refine h.leave hc rfl rfl rfl (fun j hj => ?_) ?_ ?_
      ⟨rfl, rfl, fun _ => hok.1, Pc.chan_of_has hok.1, hok.2⟩
      (by rw [hx]; rfl) (by rw [hx]; rfl) rfl (by rw [hx]; rfl)
    · simp [Sys.goto, setState, setProc, hj]
    · simp [Sys.goto, setState, setProc]
    · simp [Sys.goto, setState, setProc]
  | swtch _ _ hstate => exact h.swtch hc hx hstate
  | sleep =>
    refine h.leave hc rfl rfl rfl (fun j hj => ?_) ?_ ?_ ⟨rfl, rfl, hok⟩ (by rw [hx]; rfl)
      (by rw [hx]; rfl) rfl (by rw [hx]; rfl)
    · simp [Sys.goto, setProc, hj]
    · simp [Sys.goto, setProc]
    · simp [Sys.goto, setProc]
  | @woken ch l x =>
    obtain ⟨hl, hhas, hchild, hok⟩ := hok
    have hl' : (Pc.acquire l x).has p = none := by
      rw [Pc.has, hl]
      exact hhas
    have hok' : (Pc.acquire l x).Ok p := by grind [Pc.Ok, Pc.off_of_has, Pc.chan_of_has]
    exact hmove rfl rfl rfl (fun j => update_proj Slot.state rfl) ⟨fun _ => hl', rfl, hok'⟩ rfl rfl
      fun j t hj => absurd (hchild.symm.trans hj) (by rintro ⟨⟩)
  | rouse =>
    refine h.touch hc (by rw [hx]; rfl) (by rw [hx]; rfl) ?_ ⟨fun _ => rfl, rfl, hok⟩ rfl rfl rfl
    unfold Slot.rouse
    split_ifs with hst
    · exact .inr (.inl ⟨hst.1, rfl⟩)
    · exact .inl rfl
  | @hit _ j _ _ hpid =>
    refine h.touch hc (by rw [hx]; rfl) (by rw [hx]; rfl) ?_
      ⟨fun _ => hok.1.1, Pc.chan_of_has hok.1.1, hok.1.2.2⟩ rfl rfl
      hok.1.2.1
    by_cases hst : (s.proc j).state = .sleeping
    · exact .inr (.inl ⟨hst, if_pos hst⟩)
    · exact .inl (if_neg hst)
  | allocpid =>
    exact hmove rfl rfl rfl (fun j => update_proj Slot.state rfl) ⟨by rintro ⟨⟩, rfl, hok⟩ rfl rfl
      fun _ _ hj => hj
  | @noMemory j x =>
    have hunused := h.child p j .unused (h.live c p hc) (by rw [hx]; rfl)
    exact h.touch hc (by rw [hx]; rfl) (by rw [hx]; rfl) (.inl hunused.symm)
      ⟨fun _ => hok.1, Pc.chan_of_has hok.1, hok.2.2⟩ rfl rfl hok.2.1
  | @setup j x =>
    have hunused := h.child p j .unused (h.live c p hc) (by rw [hx]; rfl)
    have hjp : j ≠ p := by
      rintro rfl
      exact h.live c j hc hunused
    -- first the new process gets its context, then its state
    have hreset := h.reset (z := .release (.proc j) (.code code.start)) hunused
      ⟨fun _ => rfl, rfl, trivial⟩
    have hpc : (s.goto j (.release (.proc j) (.code code.start))).pc p = .setup j x :=
      (update_of_ne (Ne.symm hjp) ..).trans hx
    refine hreset.adopt (j := j) hc rfl rfl rfl (fun i hi => ?_) ?_ (by rw [hpc]; rfl) rfl
      (by rw [goto_pc_self]; exact ⟨rfl, rfl⟩) (by rw [goto_pc_self]; rfl)
      ⟨fun _ => rfl, rfl, by rintro _ ⟨⟩, rfl, rfl, hok⟩ (by rw [hpc]; rfl) (by rw [hpc]; rfl)
    · simp [Sys.goto, setState, setProc, hi]
    · simp [Sys.goto, setState, setProc]
  | setParent =>
    exact hmove rfl rfl rfl (fun j => update_proj Slot.state rfl)
      ⟨by rintro ⟨⟩, rfl, fun i hi => ⟨hi, by rintro _ ⟨⟩⟩, rfl, rfl, hok⟩ rfl rfl fun _ _ hj => hj
  | @ready j x =>
    have hlive := h.live c p hc
    have hchild : (s.pc p).child = some (j, .used) := by rw [hx]; rfl
    have hused := h.child p j .used hlive hchild
    have hrunning := h.running hc (by rw [hx]; rfl)
    refine h.shift (j := j) hc rfl rfl rfl ?_ (by rw [hx]; rfl) (fun i hi => ?_)
      (by rw [hused]; rintro ⟨⟩) (by rw [hused]; rintro ⟨⟩) ?_
      ⟨fun _ => hok.1, Pc.chan_of_has hok.1, hok.2.2⟩
      (by rw [hx]; rfl) (by rw [hx]; rfl)
      (fun i t hi => absurd (hok.2.1.symm.trans hi) (by rintro ⟨⟩))
      fun q t hqp hq hc' => hqp (h.parent q p j t _ hq hlive hc' hchild)
    · rintro rfl
      cases hrunning.symm.trans hused
    · simp [Sys.goto, setState, setProc, hi]
    · simp [Sys.goto, setState, setProc]
  | reparent =>
    exact hmove rfl rfl rfl (fun j => update_proj Slot.state rfl) ⟨rfl, rfl, trivial⟩ rfl rfl
      (by rintro _ _ ⟨⟩)
  | zombie =>
    refine h.leave hc rfl rfl rfl (fun j hj => ?_) ?_ ?_ ⟨by rintro ⟨⟩, rfl, rfl, rfl, trivial⟩
      (by rw [hx]; rfl) (by rw [hx]; rfl) rfl (by rw [hx]; rfl)
    · simp [Sys.goto, setState, setProc, hj]
    · simp [Sys.goto, setState, setProc]
    · simp [Sys.goto, setState, setProc]
  | reap hst =>
    exact h.touch hc (by rw [hx]; rfl) (by rw [hx]; rfl) (.inr (.inr ⟨hst, rfl⟩))
      ⟨fun _ => hok.1, rfl, by rintro ⟨⟩, Pc.chan_of_has hok.1, hok.2.2⟩ rfl rfl hok.2.1

theorem has_of_noff (hnoff : (s.cpu c).noff = 0) : s.has c = none := by
  cases hhas : s.has c with
  | none => rfl
  | some q =>
    have hpos := cnt_pos (Finset.mem_univ (Lock.proc q)) ((h.lock c q).mpr hhas)
    have := h.noff c
    omega

theorem step {a : Act M ι} (hs : Step code s a s') : Inv s' := by
  cases hs with
  | schedule hc hsched => exact h.schedule hc rfl hsched
  | run hc hrun => exact h.run_step hc rfl hrun
  | @timer c p hc hnoff =>
    have hhas : (s.pc p).has p = none := (has_of_stack hc).symm.trans (h.has_of_noff hnoff)
    exact h.move hc rfl rfl rfl (fun _ => rfl)
      ⟨fun i hi => ⟨hi, fun i hi => nomatch hhas.symm.trans (Pc.has_of_child (h.ok p) hi)⟩, rfl,
        rfl, hhas, h.ok p⟩ hhas.symm (Pc.off_of_has hhas).symm fun _ _ hj => .inl hj

end Inv

/-! ### Runs -/

/-- After `userinit`, when the CPUs get to `scheduler`: there is one process,
`init`, which has not run yet. -/
structure Init (code : Code N L σ κ ι) (s : Sys M N L σ κ) : Prop where
  cpu : ∀ c, s.cpu c = ⟨none, 0, none, .scan 0⟩
  lock : ∀ l, s.lock l = none
  state : ∀ p, (s.proc p).state = if p = s.initproc then .runnable else .unused
  chan : ∀ p, (s.proc p).chan = none
  killed : ∀ p, (s.proc p).killed = false
  pc : ∀ p, s.pc p = .release (.proc p) (.code code.start)

theorem Init.inv (h : Init code s) : Inv s := by
  have hhas (c : Fin M) : s.has c = none := by
    rw [has_of_none (by rw [h.cpu]), h.cpu]
    rfl
  refine ⟨fun p => ?_, fun c p => ?_, fun c p hc => ?_, fun c c' p hc => ?_, fun c p => ?_,
    fun c => ?_, fun p => ?_, fun p _ _ => ?_, fun c p hc => ?_, fun p j t _ hc => ?_,
    fun p q j t t' _ _ hc => ?_⟩
  · rw [h.pc]
    exact ⟨fun _ => rfl, rfl, trivial⟩
  · simp [h.cpu]
  · simp [h.cpu] at hc
  · simp [h.cpu] at hc
  · rw [hhas, h.lock]
    simp
  · rw [h.cpu]
    refine (cnt_eq_zero.mpr fun l _ => ?_).symm
    rw [h.lock]
    nofun
  · rw [h.state]
    simp only [h.cpu]
    split_ifs <;> simp
  · rw [h.pc]
    exact ⟨rfl, rfl⟩
  · simp [h.cpu] at hc
  · rw [h.pc] at hc
    cases hc
  · rw [h.pc] at hc
    cases hc

theorem reachable_inv {ok : Sys M N L σ κ → Act M ι → Prop}
    (h : Reachable (Init code) ok (Sys.step code) s) : Inv s :=
  h.invariant (fun _ hs => hs.inv) fun _ _ _ hs _ hstep => hs.step (step_cases hstep)

theorem Step.stack {s' : Sys M N L σ κ} {a : Act M ι} {c : Fin M} {p : Fin N}
    (hs : Step code s a s') (hc : (s.cpu c).stack ≠ some p) (hc' : (s'.cpu c).stack = some p) :
    (s.cpu c).stack = none ∧ (s.cpu c).pc = .test p ∧ (s.proc p).state = .runnable := by
  have hsame (heq : (s'.cpu c).stack = (s.cpu c).stack) : False := hc (heq.symm.trans hc')
  cases hs with
  | timer => exact (hsame rfl).elim
  | @run d q io fail _ hstack hrun =>
    generalize s.pc q = x at hrun
    cases hrun with
    | acquire | release => exact (hsame (update_proj Cpu.stack rfl)).elim
    | swtch =>
      by_cases hcd : c = d
      · rw [hcd] at hc'
        simp [Sys.goto, swtchFrom, setCpu] at hc'
      · exact (hsame (congrArg Cpu.stack (update_of_ne hcd ..))).elim
    | _ => exact (hsame rfl).elim
  | @schedule d io fail _ hstack hsched =>
    generalize hpc : (s.cpu d).pc = x at hsched
    cases hsched with
    | @pick q hq =>
      by_cases hcd : c = d
      · subst hcd
        have hqp : some q = some p := by
          rw [← hc']
          simp [swtchTo, setCpu]
        cases hqp
        exact ⟨hstack, hpc, hq⟩
      · exact (hsame (congrArg Cpu.stack (update_of_ne hcd ..))).elim
    | wrap | pass | back => exact (hsame (update_proj Cpu.stack rfl)).elim
    | @scan j hfree =>
      have htake : ((s.take d (.proc j)).cpu c).stack = (s.cpu c).stack :=
        update_proj Cpu.stack rfl
      exact (hsame (Eq.trans (update_proj Cpu.stack rfl) htake)).elim
    | @next q hheld =>
      have hdrop : ((s.drop d (.proc q)).cpu c).stack = (s.cpu c).stack :=
        update_proj Cpu.stack rfl
      exact (hsame (Eq.trans (update_proj Cpu.stack rfl) hdrop)).elim

theorem Inv.running_of_proc {c : Fin M} {p : Fin N} (h : Inv s) (hproc : (s.cpu c).proc = some p)
    (hlock : s.lock (.proc p) = none) : (s.proc p).state = .running := by
  have hpc := (h.proc c p).mp hproc
  have hfree : s.has c ≠ some p := fun hh => nomatch hlock.symm.trans ((h.lock c p).mpr hh)
  cases hst : (s.cpu c).stack with
  | none => exact absurd (by rw [has_of_none hst, hpc]; rfl) hfree
  | some q => grind [Inv, has_of_stack, Pc.has_of_off]

/-- Whatever processes do, each is on one CPU at most. If its lock is free, it is
on one if and only if its state is `RUNNING`. When a CPU switches to a process,
no CPU executes on the stack of this process. -/
theorem runs_on_one_cpu {code : Code N L σ κ ι} {s : Sys M N L σ κ}
    (h : Reachable (Init code) (fun _ _ => True) (Sys.step code) s) :
    (∀ p c c', (s.cpu c).proc = some p → (s.cpu c').proc = some p → c = c') ∧
    (∀ p, s.lock (.proc p) = none →
      ((s.proc p).state = .running ↔ ∃! c, (s.cpu c).proc = some p)) ∧
    ∀ a s' c p, s.step code a = .ok s' → (s.cpu c).stack ≠ some p →
      (s'.cpu c).stack = some p → ∀ c', (s.cpu c').stack ≠ some p := by
  have hinv := reachable_inv h
  have huniq : ∀ p c c', (s.cpu c).proc = some p → (s.cpu c').proc = some p → c = c' :=
    fun p c c' hc hc' => hinv.uniq c c' p ((hinv.proc c p).mp hc) ((hinv.proc c' p).mp hc')
  refine ⟨huniq, fun p hlock => ⟨fun hrun => ?_, fun ⟨c, hc, _⟩ => ?_⟩,
    fun a s' c p hs hc hc' c' hst => ?_⟩
  · obtain ⟨c, hc, -⟩ := (hinv.run p).mp hrun
    have hproc := (hinv.proc c p).mpr (hinv.on c p hc)
    exact ⟨c, hproc, fun c' hc' => huniq p c' c hc' hproc⟩
  · exact hinv.running_of_proc hc hlock
  · obtain ⟨hstack, hpc, hstate⟩ := (step_cases hs).stack hc hc'
    exact hinv.not_switched hstack hpc (by rw [hstate]; nofun) (hinv.on c' p hst)

def forkOnce : Code 2 0 Unit Bool Unit where
  start := false
  exec _ _ k _ := ((), if k then .goto true else .fork true)

def boot : Sys 2 2 0 Unit Bool where
  cpu _ := ⟨none, 0, none, .scan 0⟩
  proc p := ⟨if p = 0 then .runnable else .unused, none, false, 0, none⟩
  pc p := .release (.proc p) (.code false)
  lock _ := none
  nextpid := 1
  initproc := 0
  shared := ()

/-- The first CPU runs `init` until it has forked, and the second one then runs
the child. -/
theorem runs_on_one_cpu_fork : ∃ s : Sys 2 2 0 Unit Bool,
    Reachable (Init forkOnce) (fun _ _ => True) (Sys.step forkOnce) s ∧
    (s.cpu 0).proc = some 0 ∧ (s.cpu 1).proc = some 1 ∧ s.lock (.proc 1) = none ∧
    (s.proc 1).state = .running := by
  obtain ⟨s, hs, h₀, h₁, hlock⟩ : ∃ s ∈ runActs (fun _ _ => True) (Sys.step forkOnce)
      (List.replicate 22 (.step 0 () false) ++ List.replicate 6 (.step 1 () false)) boot,
      (s.cpu 0).proc = some 0 ∧ (s.cpu 1).proc = some 1 ∧ s.lock (.proc 1) = none := by
    decide +kernel
  have hinit : Init forkOnce boot :=
    ⟨fun _ => rfl, fun _ => rfl, fun _ => rfl, fun _ => rfl, fun _ => rfl, fun _ => rfl⟩
  have hreach := (Reachable.init hinit).runActs hs
  obtain ⟨huniq, hrunning, -⟩ := runs_on_one_cpu hreach
  exact ⟨s, hreach, h₀, h₁, hlock,
    (hrunning 1 hlock).mpr ⟨1, h₁, fun c hc => huniq 1 c 1 hc h₁⟩⟩

end Xv6.Sched
