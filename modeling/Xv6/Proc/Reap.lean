import Xv6.Proc.History

/-!
The process table refines the process tree.

Every step of the table is a step of the tree (`VStep`) or one that it does not
see (`simulates`), so what holds of the tree and of its history holds of
`fork`, `exit` and `wait` in any interleaving.
-/

namespace Xv6.Ptable

open List
open Sys hiding update
open Function (update update_self update_of_ne update_eq_self)

def State.phase : State → Phase
  | .unused => .free
  | .used => .born
  | .zombie => .dead
  | _ => .live

variable {N : ℕ}

def roleOf : Pc N → State → Role N
  | .setParent np, _ => .child np
  | .setRunnable np, _ => .child np
  | .reparent j _, _ => .adopt j
  | .wakeup c i next _, _ => .wake c i next
  | .zombie _, _ => .die
  | .scan _ j _, _ => .scan j
  | .sleep _, _ => .scan N
  | .doze _, _ => .waiting
  | .asleep _, st => if st = .sleeping then .waiting else .quiet
  | _, _ => .quiet

def Sys.view (s : Sys N) : View N where
  phase q := (s.proc q).state.phase
  parent q := (s.proc q).parent
  role q := roleOf (s.pc q) (s.proc q).state
  id q := (s.proc q).id
  creator q := (s.proc q).creator
  pid q := (s.proc q).pid
  xstate q := (s.proc q).xstate
  lock := s.waitLock
  nextId := s.nextId
  trace := s.trace

structure Same (x y : Proc N) : Prop where
  phase : x.state.phase = y.state.phase
  parent : x.parent = y.parent
  id : x.id = y.id
  creator : x.creator = y.creator
  pid : x.pid = y.pid
  xstate : x.xstate = y.xstate

theorem Same.refl (x : Proc N) : Same x x := ⟨rfl, rfl, rfl, rfl, rfl, rfl⟩

section

variable {s s' : Sys N} {p q : Fin N} {c : Pc N} {x : Proc N} {r : Role N}

theorem view_roles (hpc : s'.pc = update s.pc p c)
    (hproc : s'.proc = update s.proc q x) (hnext : s'.nextId = s.nextId)
    (htrace : s'.trace = s.trace) (hsame : Same x (s.proc q))
    (hr : roleOf c (s'.proc p).state = r) :
    s'.view =
      { s.view with
        role := update (update s.view.role q (roleOf (s.pc q) x.state)) p r
        lock := s'.waitLock } := by
  have hfield : ∀ {α : Type} (g : Proc N → α), g x = g (s.proc q) →
      (fun i => g (s'.proc i)) = fun i => g (s.proc i) := by grind [congrFun hproc]
  have hrole : (fun i => roleOf (s'.pc i) (s'.proc i).state) =
      update (update s.view.role q (roleOf (s.pc q) x.state)) p r := by
    funext i
    rcases eq_or_ne i p with rfl | hi
    · rw [update_self, hpc, update_self, hr]
    · rw [update_of_ne hi, hpc, update_of_ne hi, hproc]
      rcases eq_or_ne i q with rfl | hne
      · rw [update_self, update_self]
      · rw [update_of_ne hne, update_of_ne hne]
        rfl
  simp only [Sys.view, hnext, htrace]
  rw [hfield (fun y => y.state.phase) hsame.phase, hfield (fun y => y.parent) hsame.parent,
    hfield Proc.id hsame.id, hfield Proc.creator hsame.creator, hfield (fun y => y.pid) hsame.pid,
    hfield Proc.xstate hsame.xstate, hrole]
  rfl

theorem view_goto (hpc : s'.pc = update s.pc p c) (hproc : s'.proc = s.proc)
    (hnext : s'.nextId = s.nextId) (htrace : s'.trace = s.trace)
    (hr : roleOf c (s.proc p).state = r) :
    s'.view = { s.view with role := update s.view.role p r, lock := s'.waitLock } := by
  rw [view_roles (q := p) (x := s.proc p) hpc (by rw [hproc, update_eq_self]) hnext htrace
    (.refl _) (by rw [hproc, hr])]
  rw [show roleOf (s.pc p) (s.proc p).state = s.view.role p from rfl, update_eq_self]

theorem view_stutter (hpc : s'.pc = update s.pc p c)
    (hproc : s'.proc = update s.proc q x) (hnext : s'.nextId = s.nextId)
    (htrace : s'.trace = s.trace) (hlock : s'.waitLock = s.waitLock) (hsame : Same x (s.proc q))
    (hq : roleOf (s.pc q) x.state = s.view.role q)
    (hr : roleOf c (s'.proc p).state = s.view.role p) : s'.view = s.view := by
  rw [view_roles hpc hproc hnext htrace hsame hr, hq, update_eq_self,
    update_eq_self, hlock]
  rfl

theorem view_table (hpc : s'.pc = s.pc) (hproc : s'.proc = update s.proc q x)
    (hnext : s'.nextId = s.nextId) (htrace : s'.trace = s.trace) (hlock : s'.waitLock = s.waitLock)
    (hsame : Same x (s.proc q)) (hq : roleOf (s.pc q) x.state = s.view.role q) : s'.view = s.view :=
  view_stutter (p := q) (c := s.pc q) (by rw [hpc, update_eq_self]) hproc hnext htrace
    hlock hsame hq (by rw [hproc, update_self, hq])

theorem view_move (hpc : s'.pc = update s.pc p c) (hproc : s'.proc = s.proc)
    (hnext : s'.nextId = s.nextId) (htrace : s'.trace = s.trace) (hlock : s'.waitLock = s.waitLock)
    (hr : roleOf c (s.proc p).state = s.view.role p) : s'.view = s.view := by
  rw [view_goto hpc hproc hnext htrace hr, update_eq_self, hlock]
  rfl

theorem Same.rouse (x : Proc N) (chan : Option (Chan N)) : Same (x.rouse chan) x := by
  rw [Proc.rouse_eq]
  split
  · grind [Same, State.phase]
  · exact .refl x

theorem Same.kill (x : Proc N) : Same x.kill x := by
  refine ⟨?_, rfl, rfl, rfl, rfl, rfl⟩
  by_cases h : x.state = .sleeping <;> simp [Proc.kill, Slot.kill, h, State.phase]

theorem roleOf_of_not_sleeps {c : Pc N} (h : c.sleeps = false) (st st' : State) :
    roleOf c st = roleOf c st' := by
  cases c <;> first | rfl | cases h

theorem roleOf_of_awake {c : Pc N} {st st' : State} (h : st ≠ .sleeping) (h' : st' ≠ .sleeping) :
    roleOf c st = roleOf c st' := by
  cases c <;> simp [roleOf, h, h']

theorem roleOf_of_ne_waiting {c : Pc N} {st st' : State} (hst : st' = st ∨ st = .sleeping)
    (h : roleOf c st ≠ .waiting) : roleOf c st' = roleOf c st := by
  rcases hst with rfl | rfl
  · rfl
  · cases c <;> simp_all [roleOf]

theorem waiting_cases {c : Pc N} {st : State} (h : roleOf c st = .waiting) :
    c.dozes = true ∨ (∃ addr, c = .asleep addr) ∧ st = .sleeping := by
  cases c <;> simp_all [roleOf, Pc.dozes]

end

variable [NeZero N] {s s' : Sys N} {p : Fin N}

theorem VStep.of_eq {v v' : View N} (h : v' = v) : VStep v v' := h ▸ .stutter

theorem VStep.to_eq {v v' w : View N} (h : VStep v w) (heq : v' = w) : VStep v v' := heq ▸ h

theorem move_simulates {k k' : Pc N} (hk : s.pc p = k) (hs : Move s p k k') :
    VStep s.view (s.goto p k').view := by
  have hrole : s.view.role p = roleOf k (s.proc p).state := by simp only [Sys.view, hk]
  cases hs with
  | busy | closed | miss => exact .of_eq (view_move rfl rfl rfl rfl rfl hrole.symm)
  | notChild h => exact .to_eq (.pass hrole h) (view_goto rfl rfl rfl rfl rfl)
  | adopted h => exact .to_eq (.adopted hrole h) (view_goto rfl rfl rfl rfl rfl)
  | skip =>
    refine .to_eq (.skip hrole fun _ => ?_) (view_goto rfl rfl rfl rfl rfl)
    rw [hrole]
    exact nofun
  | reparent h => exact .to_eq (.woken hrole h) (view_goto rfl rfl rfl rfl rfl)
  | zombie h => exact .to_eq (.last hrole h) (view_goto rfl rfl rfl rfl rfl)
  | other h => exact .to_eq (.scan hrole fun heq => absurd heq h) (view_goto rfl rfl rfl rfl rfl)
  | alive _ hstate =>
    refine .to_eq (.scan hrole fun _ hd => hstate ?_) (view_goto rfl rfl rfl rfl rfl)
    simp only [Sys.view] at hd
    cases hst : (s.proc _).state <;> simp_all [State.phase]
  | sleep h => exact .to_eq (.scanned hrole h) (view_goto rfl rfl rfl rfl rfl)

theorem wakeup_simulates {q : Fin N} {c : Option (Fin N)} {next : Option ℕ} {status : Int32}
    (h : Control s) (hk : s.pc p = .wakeup c q next status) (hne : q ≠ p)
    (hdoze : (s.pc q).dozes = false) :
    VStep s.view ((s.update q (Proc.rouse (c.map .proc))).goto p
      (.wakeup c (q + 1) next status)).view := by
  have hrole : s.view.role p = .wake c q next := by simp only [Sys.view, hk, roleOf]
  have hview := view_roles (s := s)
    (rfl : ((s.update q (Proc.rouse (c.map .proc))).goto p (.wakeup c (q + 1) next status)).pc = _)
    rfl rfl rfl (.rouse _ _) rfl
  by_cases hw : s.view.role q = .waiting
  · obtain hd | ⟨⟨addr, hpc⟩, hst⟩ := waiting_cases hw
    · rw [hdoze] at hd
      cases hd
    · have hchan := (h.fits q).asleep (by rw [hpc]; rfl)
      by_cases hc : c = some q
      · have hq : roleOf (s.pc q) ((s.proc q).rouse (c.map .proc)).state = .quiet := by
          simp [Proc.rouse_eq, hst, hchan, hc, hpc, roleOf]
        rw [hq] at hview
        exact .to_eq (.wake hrole hne hw) hview
      · have hsame : (s.proc q).rouse (c.map .proc) = s.proc q := by
          refine (Proc.rouse_eq ..).trans (if_neg fun hcond => hc ?_)
          cases c <;> simp_all
        rw [hsame, show roleOf (s.pc q) (s.proc q).state = s.view.role q from rfl,
          update_eq_self] at hview
        exact .to_eq (.skip hrole fun heq => absurd heq hc) hview
  · have hq : roleOf (s.pc q) ((s.proc q).rouse (c.map .proc)).state = s.view.role q := by
      refine roleOf_of_ne_waiting ?_ hw
      rw [Proc.rouse_eq]
      split
      · exact .inr (by simp_all)
      · exact .inl rfl
    rw [hq, update_eq_self] at hview
    exact .to_eq (.skip hrole fun _ => hw) hview

theorem hit_simulates {q : Fin N} {pid : Int32} {j : ℕ} (hk : s.pc p = .kill pid j)
    (hdoze : (s.pc q).dozes = false) : VStep s.view ((s.update q Proc.kill).ret p 0).view := by
  have hrole : s.view.role p = .quiet := by simp only [Sys.view, hk, roleOf]
  have hview := view_roles (s := s) (rfl : ((s.update q Proc.kill).ret p 0).pc = _) rfl rfl rfl
    (.kill _) rfl
  by_cases hw : s.view.role q = .waiting
  · obtain hd | ⟨⟨addr, hpc⟩, hst⟩ := waiting_cases hw
    · rw [hdoze] at hd
      cases hd
    · have hne : p ≠ q := by
        rintro rfl
        rw [hrole] at hw
        cases hw
      have hq : roleOf (s.pc q) (s.proc q).kill.state = .quiet := by
        grind [Proc.kill, Slot.kill, roleOf]
      rw [hq, show roleOf Pc.user _ = update s.view.role q .quiet p by
        rw [update_of_ne hne, hrole]; rfl, update_eq_self] at hview
      exact .to_eq (.calm hw) hview
  · have hq : roleOf (s.pc q) (s.proc q).kill.state = s.view.role q := by
      refine roleOf_of_ne_waiting ?_ hw
      by_cases hst : (s.proc q).state = .sleeping
      · exact .inr hst
      · exact .inl (by simp [Proc.kill, Slot.kill, hst])
    exact .of_eq (view_stutter rfl rfl rfl rfl rfl (.kill _) hq hrole.symm)

omit [NeZero N] in
theorem view_change {q : Fin N} {c : Pc N} {x : Proc N} {v : View N}
    (hpc : s'.pc = update s.pc p c) (hproc : s'.proc = update s.proc q x)
    (hphase : v.phase = update s.view.phase q x.state.phase)
    (hparent : v.parent = update s.view.parent q x.parent)
    (hid : v.id = update s.view.id q x.id)
    (hcreator : v.creator = update s.view.creator q x.creator)
    (hpid : v.pid = update s.view.pid q x.pid)
    (hxstate : v.xstate = update s.view.xstate q x.xstate)
    (hrole : v.role = update s.view.role p (roleOf c (s'.proc p).state))
    (hq : q ≠ p → roleOf (s.pc q) x.state = s.view.role q) (hlock : s'.waitLock = v.lock)
    (hnext : s'.nextId = v.nextId) (htrace : s'.trace = v.trace) : s'.view = v := by
  have hfield : ∀ {α : Type} (g : Proc N → α),
      (fun i => g (s'.proc i)) = update (fun i => g (s.proc i)) q (g x) := by
    grind [congrFun hproc]
  have hroles : (fun i => roleOf (s'.pc i) (s'.proc i).state) = v.role := by
    funext i
    rw [hrole, hpc]
    rcases eq_or_ne i p with rfl | hi
    · rw [update_self, update_self]
    · rw [update_of_ne hi, update_of_ne hi, hproc]
      rcases eq_or_ne i q with rfl | hne
      · rw [update_self]
        exact hq hi
      · rw [update_of_ne hne]
        rfl
  simp only [Sys.view] at *
  rw [hroles, hfield fun y => y.state.phase, hfield (fun y => y.parent), hfield Proc.id,
    hfield Proc.creator, hfield (fun y => y.pid), hfield Proc.xstate, ← hphase, ← hparent, ← hid,
    ← hcreator, ← hpid, ← hxstate, hlock, hnext, htrace]

theorem idle_role {q : Fin N} (h : Control s) (hq : (s.proc q).state.live = false) (st : State) :
    roleOf (s.pc q) st = s.view.role q := by
  simp only [Sys.view, h.idle_of_not_live hq, roleOf]

theorem update_same {α β : Type} [DecidableEq α] {f : α → β} {a : α} {b : β} (h : b = f a) :
    f = update f a b := by
  rw [h, update_eq_self]

theorem run_simulates {k : Pc N} (h : Control s) (hrun : (s.proc p).state = .running)
    (hk : s.pc p = k) (hs : Run s p k s') : VStep s.view s'.view := by
  have hrole : s.view.role p = roleOf k (s.proc p).state := by simp only [Sys.view, hk]
  have hlive : s.view.phase p = .live := by simp only [Sys.view, hrun, State.phase]
  cases hs with
  | move hm => exact move_simulates hk hm
  | noProc | noPid => exact .of_eq (view_move rfl rfl rfl rfl rfl hrole.symm)
  | @allocFails np hu =>
    have hclean := (h.fits np).unused hu
    refine .of_eq (view_stutter (q := np) rfl rfl rfl rfl rfl ?_ ?_ hrole.symm)
    · exact ⟨by rw [hu]; rfl, hclean.parent.symm, rfl, rfl, hclean.pid.symm, hclean.xstate.symm⟩
    · exact idle_role h (by rw [hu]; rfl) _
  | @alloc np hu =>
    have hfree : s.view.phase np = .free := by simp only [Sys.view, hu, State.phase]
    refine .to_eq (.fork hlive hrole hfree)
      (view_change (s := s) (q := np) rfl rfl rfl (update_same rfl) rfl rfl rfl (update_same rfl)
        rfl
        (fun _ => idle_role h (by rw [hu]; rfl) _) rfl rfl rfl)
  | @setParent np hfree =>
    have hused := h.child p np (by rw [hk]; rfl)
    refine .to_eq (.link hlive hrole (by simp only [Sys.view, hused, State.phase]) hfree)
      (view_change (s := s) (q := np) rfl rfl (update_same rfl) rfl (update_same rfl)
        (update_same rfl)
        (update_same rfl) (update_same rfl) (update_same hrole.symm)
        (fun _ => idle_role h (by rw [hused]; rfl) _) rfl rfl rfl)
  | @setRunnable np =>
    have hused := h.child p np (by rw [hk]; rfl)
    have hidle : s.pc np = .idle := h.idle_of_not_live (by rw [hused]; rfl)
    -- to the tree, the new process is as quiet as its slot was
    have h₁ : (s.ret np 0).view = s.view := by
      refine view_move rfl rfl rfl rfl rfl ?_
      simp only [Sys.view, hidle, roleOf]
    rw [← h₁]
    have hchild : (s.ret np 0).view.role p = .child np := by
      rw [h₁, hrole]
      rfl
    have hborn : (s.ret np 0).view.phase np = .born := by grind [Sys.view, State.phase]
    refine .to_eq (.start hchild hborn)
      (view_change (s := s.ret np 0) (q := np) rfl rfl rfl (update_same rfl) (update_same rfl)
        (update_same rfl) (update_same rfl) (update_same rfl) rfl (fun _ => ?_) rfl rfl rfl)
    · simp [Sys.ret, Sys.goto, Sys.view, roleOf]
  | closeFile | putCwd =>
    exact .of_eq (view_stutter (q := p) rfl rfl rfl rfl rfl ⟨rfl, rfl, rfl, rfl, rfl, rfl⟩ rfl
      hrole.symm)
  | exit hfree =>
    have hp0 : p ≠ 0 := (h.fits p).exits (by rw [hk]; rfl)
    exact .to_eq (.exit hlive hp0 hrole hfree) (view_goto rfl rfl rfl rfl rfl)
  | @adopt pp status hparent =>
    exact .to_eq (.adopt hrole hparent)
      (view_change (s := s) (q := pp) rfl rfl (update_same rfl) rfl (update_same rfl)
        (update_same rfl)
        (update_same rfl) (update_same rfl) rfl (fun _ => rfl) rfl rfl rfl)
  | wakeup hne hdoze => exact wakeup_simulates h hk hne hdoze
  | zombie =>
    exact .to_eq (.die hrole hlive)
      (view_change (s := s) (q := p) rfl rfl rfl (update_same rfl) (update_same rfl)
        (update_same rfl)
        (update_same rfl) rfl rfl (fun hne => absurd rfl hne) rfl rfl rfl)
  | wait hfree => exact .to_eq (.wait hlive hrole hfree) (view_goto rfl rfl rfl rfl rfl)
  | @reap pp addr havekids hparent hstate =>
    refine .to_eq (.reap hrole hparent (by simp only [Sys.view, hstate, State.phase]))
      (view_change (s := s) (q := pp) rfl rfl rfl rfl (update_same rfl) (update_same rfl) rfl rfl
        rfl
        (fun _ => idle_role h (by rw [hstate]; rfl) _) rfl rfl rfl)
  | waitFails => exact .to_eq (.leave hrole) (view_goto rfl rfl rfl rfl rfl)
  | sleep => exact .to_eq (.doze hrole) (view_goto rfl rfl rfl rfl rfl)
  | doze =>
    refine .of_eq (view_stutter (q := p) rfl rfl rfl rfl rfl ⟨?_, rfl, rfl, rfl, rfl, rfl⟩ ?_ ?_)
    · simp only [hrun, State.phase]
    · rw [hrole, hk]
      rfl
    · rw [hrole]
      simp [Sys.goto, Sys.update, roleOf]
  | hit hpid hdoze => exact hit_simulates hk hdoze

theorem simulates {a : Act N} (h : Control s) (hs : Step s a s') : VStep s.view s'.view := by
  cases hs with
  | @call p a c hpc hrun hc =>
    refine .of_eq (view_move rfl rfl rfl rfl rfl ?_)
    cases hc <;> simp only [Sys.view, hpc, roleOf]
  | setFile | setCwd =>
    exact .of_eq (view_table rfl rfl rfl rfl rfl ⟨rfl, rfl, rfl, rfl, rfl, rfl⟩ rfl)
  | run hrun hr => exact run_simulates h hrun rfl hr
  | @sched p hstate =>
    have hquiet : ∀ c : Pc N, roleOf c .runnable = roleOf c .running := fun c =>
      roleOf_of_awake (by rintro ⟨⟩) (by rintro ⟨⟩)
    refine .of_eq (view_stutter (s := s) (q := p) rfl rfl rfl rfl rfl ?_ ?_ ?_)
    · exact ⟨by rw [hstate]; rfl, rfl, rfl, rfl, rfl, rfl⟩
    · simp only [Sys.view, hstate, hquiet]
    · simp only [Sys.goto, Sys.update, update_self, Sys.view, hstate, hquiet]
      rcases wakePc_cases (s.pc p) with ⟨addr, hpc, hwake⟩ | ⟨-, hwake⟩
      · rw [hwake, hpc]
        simp [roleOf]
      · rw [hwake]
  | @yield p hrun hdoze =>
    refine .of_eq (view_table rfl rfl rfl rfl rfl ⟨?_, rfl, rfl, rfl, rfl, rfl⟩ ?_)
    · simp only [hrun, State.phase]
    · exact roleOf_of_awake (by rintro ⟨⟩) (by rw [hrun]; exact (by rintro ⟨⟩))
  | @nap p addr hrun hpc =>
    refine .of_eq (view_table rfl rfl rfl rfl rfl ⟨?_, rfl, rfl, rfl, rfl, rfl⟩ ?_)
    · simp only [hrun, State.phase]
    · refine roleOf_of_not_sleeps ?_ _ _
      cases hc : s.pc p <;> simp_all [Pc.mayNap, Pc.sleeps]
  | @rouse p addr hchan =>
    refine .of_eq (view_table rfl rfl rfl rfl rfl (.rouse _ _) ?_)
    refine roleOf_of_not_sleeps ?_ _ _
    rw [Bool.eq_false_iff]
    intro hsleeps
    rw [(h.fits p).asleep hsleeps] at hchan
    cases hchan

/-! ### Runs -/

theorem boot_view_phase {q : Fin N} (h : (boot N).view.phase q ≠ .free) : q = 0 := by
  by_contra hq
  simp [Sys.view, boot, hq, noProc, State.phase] at h

theorem boot_view_role (q : Fin N) : (boot N).view.role q = .quiet := by
  rcases eq_or_ne q 0 with rfl | hq
  · simp [Sys.view, boot, roleOf]
  · simp [Sys.view, boot, hq, roleOf]

theorem boot_view_parent (q : Fin N) : (boot N).view.parent q = none := by
  rcases eq_or_ne q 0 with rfl | hq
  · simp [Sys.view, boot, initProc]
  · simp [Sys.view, boot, hq, noProc]

theorem boot_tree : Tree (boot N).view := by
  refine .of_free (fun q => by rw [boot_view_role]; rfl) ?_ fun q a hq => ?_
  · simp [Sys.view, boot, initProc, State.phase]
  · rw [boot_view_parent] at hq
    cases hq

theorem boot_history : History (boot N).view := by
  have hroot : (boot N).view.id 0 = 0 := by simp [Sys.view, boot, initProc]
  refine ⟨hroot, fun p hp => absurd (boot_view_role p) hp, fun q hq => ?_, fun q r hq hr _ => ?_,
    forall_mem_nil _, fun p np hp => ?_, fun q r hq => ?_, trivial⟩
  · obtain rfl := boot_view_phase hq
    refine ⟨Nat.one_pos, fun h0 => absurd rfl h0, fun _ hx => ?_, fun hd => ?_,
      fun _ _ _ => not_mem_nil⟩
    · obtain ⟨_, _, hmem⟩ := hx
      exact not_mem_nil hmem
    · simp [Sys.view, boot, initProc, State.phase] at hd
  · rw [boot_view_phase hq, boot_view_phase hr]
  · rw [boot_view_role] at hp
    cases hp
  · rw [boot_view_parent] at hq
    cases hq

theorem tree_of_reachable {ok : Sys N → Act N → Prop} (h : Interleaving ok s) :
    Control s ∧ Tree s.view ∧ History s.view := by
  refine h.invariant (I := fun s => Control s ∧ Tree s.view ∧ History s.view) (fun s hs => ?_)
    fun s a s' ⟨hc, ht, hh⟩ _ hs => ?_
  · rw [hs]
    exact ⟨boot_control, boot_tree, boot_history⟩
  · have hsim := simulates hc (step_cases hs)
    exact ⟨hc.step (step_cases hs), ht.step hsim, hh.step ht hsim⟩

theorem reap_cases {fails : Bool} {child parent : ℕ} {pid status : Int32}
    (h : s.step (.step p fails) = .ok s')
    (htrace : s'.trace = .reap child pid status parent :: s.trace) :
    parent = (s.proc p).id ∧ s'.pc p = .user ∧ s'.a0 p = pid ∧
      ∃ q, (s.proc q).parent = some p ∧ (s.proc q).id = child ∧ (s.proc q).pid = pid ∧
        (s.proc q).xstate = status ∧ (s'.proc q).state = .unused := by
  have hne : ∀ e : Event, s.trace ≠ e :: s.trace := fun e he => by
    have := congrArg length he
    simp at this
  cases step_cases h with
  | call _ _ hc => cases hc
  | run hrun hr =>
    generalize hk : s.pc p = k at hr
    cases hr with
    | reap hparent hstate =>
      obtain ⟨rfl, rfl, rfl, rfl⟩ := htrace
      refine ⟨rfl, update_self .., update_self .., _, hparent, rfl, rfl, rfl, ?_⟩
      simp [Sys.ret, Sys.goto, Sys.update, Proc.freeproc, Slot.freeproc]
    | alloc => simp [Sys.goto] at htrace
    | zombie => simp at htrace
    | _ => exact absurd htrace (hne _)

/-- The process tree and reaping, in any interleaving. While `wait_lock` is
free, parents are alive and no parent of a zombie sleeps in `wait`; every
process that exits is reaped at most once, by its creator or, if that has
exited, by the first process; and its slot is free then. -/
theorem process_tree (h : Interleaving (fun _ _ => True) s) :
    (s.waitLock = none →
      (∀ q r, (s.proc q).parent = some r →
        (s.proc r).state ≠ .unused ∧ (s.proc r).state ≠ .zombie) ∧
      ∀ p q, (s.proc p).state = .sleeping → (s.proc p).chan = some (.proc p) →
        (s.proc q).parent = some p → (s.proc q).state ≠ .zombie) ∧
    (∀ pre post e, s.trace = post ++ e :: pre → Lawful pre e) ∧
    ∀ p fails s' child pid status parent, s.step (.step p fails) = .ok s' →
      s'.trace = .reap child pid status parent :: s.trace →
      parent = (s.proc p).id ∧ s'.pc p = .user ∧ s'.a0 p = pid ∧
        ∃ q, (s.proc q).parent = some p ∧ (s.proc q).id = child ∧ (s.proc q).pid = pid ∧
          (s.proc q).xstate = status ∧ (s'.proc q).state = .unused := by
  obtain ⟨hcontrol, htree, hhistory⟩ := tree_of_reachable h
  refine ⟨fun hlock => ⟨fun q r hq => ?_, fun p q hp hchan hq hd => ?_⟩,
    fun pre post e ht => hhistory.lawful.split ht, fun p fails s' child pid status parent hs ht =>
      reap_cases hs ht⟩
  · have hlive := (htree.parent q r hq).2
    constructor <;> intro hst <;> simp [Sys.view, hst, State.phase] at hlive
  · have hsleeps : (s.pc p).sleeps = true := by
      rcases (hcontrol.fits p).chan hp with hsl | ⟨addr, ha⟩
      · exact hsl
      · rw [hchan] at ha
        cases ha
    have hrole : s.view.role p = .waiting := by
      cases hpc : s.pc p <;> simp_all [Sys.view, roleOf, Pc.sleeps]
    refine (htree.free hlock hq).2.2 ?_ hrole
    simp only [Sys.view, hd, State.phase]

/-- The first process forks, its child exits with status 7, and it waits for
the child. -/
def forkExitWait : List (Act 2) :=
  [.sched 0, .fork 0] ++ replicate 4 (.step 0 false) ++
    [.sched 1, .exit 1 7] ++ replicate 210 (.step 1 false) ++
    [.wait 0 0] ++ replicate 3 (.step 0 false)

theorem process_tree_forkExitWait :
    ∃ s, runActs (fun _ _ => True) Sys.step forkExitWait (boot 2) = some s ∧
      s.trace = [.reap 1 2 7 0, .exit 1 2 7, .fork 1 2 0] ∧
      Lawful [.exit 1 2 7, .fork 1 2 0] (.reap 1 2 7 0) := by
  obtain ⟨s, hs, htrace⟩ : ∃ s ∈ runActs (fun _ _ => True) Sys.step forkExitWait (boot 2),
      s.trace = [.reap 1 2 7 0, .exit 1 2 7, .fork 1 2 0] := by
    decide +kernel
  have hreach : Interleaving (fun _ _ => True) s := Reachable.runActs (.init rfl) hs
  exact ⟨s, hs, htrace, (process_tree hreach).2.1 _ [] _ htrace⟩

end Xv6.Ptable
