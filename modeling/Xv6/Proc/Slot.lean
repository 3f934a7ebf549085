import Xv6.Proc.Step

/-!
What a slot of the process table may hold.

A slot fits the point at which its process is (`Fits`): a process that sleeps
in `wait` sleeps on its own address, one that exits has closed its files, and
a slot that is unused is clean. `kill` breaks this for the flag `killed`
alone, and only with the pid 0, which is that of all unused slots.
-/

namespace Xv6.Ptable

open Sys hiding update
open Function (update update_self update_of_ne update_eq_self)

def State.live : State → Bool
  | .sleeping => true
  | .runnable => true
  | .running => true
  | _ => false

namespace Pc

variable {N : ℕ}

def exits : Pc N → Bool
  | .closeFile .. => true
  | .putCwd .. => true
  | .exit .. => true
  | .reparent .. => true
  | .wakeup .. => true
  | .zombie .. => true
  | _ => false

def closed : Pc N → ℕ
  | .closeFile fd _ => fd
  | .putCwd .. => NOFILE
  | .exit .. => NOFILE
  | .reparent .. => NOFILE
  | .wakeup .. => NOFILE
  | .zombie .. => NOFILE
  | _ => 0

def gone : Pc N → Bool
  | .exit .. => true
  | .reparent .. => true
  | .wakeup .. => true
  | .zombie .. => true
  | _ => false

def child : Pc N → Option (Fin N)
  | .setParent np => some np
  | .setRunnable np => some np
  | _ => none

end Pc

variable {N : ℕ}

/-- An unused slot, except for `killed`. -/
structure Clean (x : Proc N) : Prop where
  pid : x.pid = 0
  chan : x.chan = none
  xstate : x.xstate = 0
  parent : x.parent = none
  ofile : ∀ fd, x.ofile fd = none
  cwd : x.cwd = none

variable [NeZero N]

structure Fits (p : Fin N) (c : Pc N) (x : Proc N) : Prop where
  live : x.state.live = true ↔ c ≠ .idle
  exits : c.exits = true → p ≠ 0
  asleep : c.sleeps = true → x.chan = some (.proc p)
  chan : x.state = .sleeping → c.sleeps = true ∨ ∃ addr, x.chan = some (.other addr)
  files : ∀ fd : Fin NOFILE, (fd : ℕ) < c.closed → x.ofile fd = none
  cwd : c.gone = true → x.cwd = none
  zombie : x.state = .zombie → (∀ fd, x.ofile fd = none) ∧ x.cwd = none
  unused : x.state = .unused → Clean x

namespace Fits

variable {p : Fin N} {c c' : Pc N} {x x' : Proc N}

theorem running (hrun : x.state = .running) (hc : c ≠ .idle) (hexits : c.exits = true → p ≠ 0)
    (hsleeps : c.sleeps = false)
    (hfiles : ∀ fd : Fin NOFILE, (fd : ℕ) < c.closed → x.ofile fd = none)
    (hcwd : c.gone = true → x.cwd = none) : Fits p c x := by
  constructor
  · simp [hrun, State.live, hc]
  · exact hexits
  · simp [hsleeps]
  · simp [hrun]
  · exact hfiles
  · exact hcwd
  · simp [hrun]
  · simp [hrun]

theorem runnable (h : Fits p c x) (hlive : c ≠ .idle) (hchan : x'.chan = x.chan)
    (hstate : x'.state = .runnable) (hofile : x'.ofile = x.ofile) (hcwd : x'.cwd = x.cwd) :
    Fits p c x' := by
  constructor
  · simp [hstate, State.live, hlive]
  · exact h.exits
  · rw [hchan]
    exact h.asleep
  · simp [hstate]
  · rw [hofile]
    exact h.files
  · rw [hcwd]
    exact h.cwd
  · simp [hstate]
  · simp [hstate]

theorem pc_ne_idle (h : Fits p c x) (hstate : x.state.live = true) : c ≠ .idle :=
  h.live.mp hstate

theorem rouse (h : Fits p c x) (chan : Option (Chan N)) : Fits p c (x.rouse chan) := by
  rw [Proc.rouse_eq]
  split
  · grind [h.runnable, h.pc_ne_idle, State.live]
  · exact h

theorem kill (h : Fits p c x) : Fits p c x.kill := by
  by_cases hsleep : x.state = .sleeping
  · grind [h.runnable, h.pc_ne_idle, State.live, Proc.kill, Slot.kill]
  · have hstate : x.kill.state = x.state := by simp [Proc.kill, Slot.kill, hsleep]
    obtain ⟨h₁, h₂, h₃, h₄, h₅, h₆, h₇, h₈⟩ := h
    refine ⟨hstate ▸ h₁, h₂, h₃, hstate ▸ h₄, h₅, h₆, hstate ▸ h₇, fun hu => ?_⟩
    obtain ⟨g₁, g₂, g₃, g₄, g₅, g₆⟩ := h₈ (hstate ▸ hu)
    exact ⟨g₁, g₂, g₃, g₄, g₅, g₆⟩

theorem freeproc (h : Fits p c x) (hidle : c = .idle)
    (hfiles : (∀ fd, x.ofile fd = none) ∧ x.cwd = none) : Fits p c x.freeproc := by
  subst hidle
  refine ⟨by simp [Proc.freeproc, Slot.freeproc, State.live], h.exits, by simp [Pc.sleeps],
    by simp [Proc.freeproc, Slot.freeproc], h.files, h.cwd, by simp [Proc.freeproc, Slot.freeproc],
    fun _ => ?_⟩
  exact ⟨rfl, rfl, rfl, rfl, hfiles.1, hfiles.2⟩

theorem used (hstate : x.state = .used) : Fits p .idle x := by
  constructor <;> simp [hstate, State.live, Pc.exits, Pc.sleeps, Pc.closed, Pc.gone]

end Fits

structure Control (s : Sys N) : Prop where
  fits : ∀ p, Fits p (s.pc p) (s.proc p)
  lock : ∀ p, (s.pc p).holds = true → s.waitLock = some p
  init : s.pc 0 ≠ .idle
  child : ∀ p np, (s.pc p).child = some np → (s.proc np).state = .used
  inj : ∀ p p' np, (s.pc p).child = some np → (s.pc p').child = some np → p = p'

namespace Control

variable {s s' : Sys N} {p q : Fin N} {c : Pc N} {x : Proc N}

variable (h : Control s)
include h

theorem change (hpc : s'.pc = update s.pc p c)
    (hproc : s'.proc = update s.proc q x) (hfits : Fits p c (s'.proc p))
    (hslot : q ≠ p → Fits q (s.pc q) x)
    (hused : (s.proc q).state = .used → x.state = .used ∨ ∀ r, (s.pc r).child ≠ some q)
    (hlock : s'.waitLock = s.waitLock ∨ s.waitLock = some p ∨ s.waitLock = none)
    (hholds : c.holds = true → s'.waitLock = some p) (hidle : c = .idle → p ≠ 0)
    (hchild : ∀ np, c.child = some np →
      (s'.proc np).state = .used ∧ ∀ r, r ≠ p → (s.pc r).child ≠ some np) : Control s' := by
  have hother : ∀ r, r ≠ p → s'.pc r = s.pc r := fun r hr => by
    rw [hpc, update_of_ne hr]
  have hself : s'.pc p = c := by rw [hpc, update_self]
  have hkeep : ∀ r np, (s.pc r).child = some np → (s'.proc np).state = .used := by
    grind [congrFun hproc, h.child]
  refine ⟨fun r => ?_, fun r hr => ?_, ?_, fun r np hr => ?_, fun r r' np hr hr' => ?_⟩
  · grind [congrFun hproc, h.fits]
  · grind [h.lock]
  · grind [h.init]
  · grind
  · grind [h.inj]

theorem goto (hrun : (s.proc p).state = .running)
    (hpc : s'.pc = update s.pc p c) (hproc : s'.proc = s.proc) (hc : c ≠ .idle)
    (hexits : c.exits = true → p ≠ 0) (hsleeps : c.sleeps = false) (hchild : c.child = none)
    (hclosed : ∀ fd : Fin NOFILE, (fd : ℕ) < c.closed → (s.proc p).ofile fd = none)
    (hgone : c.gone = true → (s.proc p).cwd = none)
    (hlock : s'.waitLock = s.waitLock ∨ s.waitLock = some p ∨ s.waitLock = none)
    (hholds : c.holds = true → s'.waitLock = some p) : Control s' := by
  refine h.change (q := p) (x := s.proc p) hpc (by rw [hproc, update_eq_self]) ?_
    (fun hne => absurd rfl hne) .inl hlock hholds (fun hidle => absurd hidle hc) ?_
  · rw [hproc]
    exact .running hrun hc hexits hsleeps hclosed hgone
  · rw [hchild]
    rintro _ ⟨⟩

theorem move {k k' : Pc N} (hrun : (s.proc p).state = .running)
    (hk : s.pc p = k) (hs : Move s p k k') : Control (s.goto p k') := by
  have hfits := h.fits p
  have hlock := h.lock p
  rw [hk] at hfits hlock
  have hexits := hfits.exits
  have hclosed := hfits.files
  have hgone := hfits.cwd
  cases hs with
  | closed hfd =>
    refine h.goto hrun rfl rfl nofun (fun _ => hexits rfl) rfl rfl (fun fd _ => ?_) nofun
      (.inl rfl) nofun
    exact hclosed fd (fd.isLt.trans_le hfd)
  | busy | miss => exact h.goto hrun rfl rfl nofun nofun rfl rfl nofun nofun (.inl rfl) nofun
  | other | alive | sleep =>
    exact h.goto hrun rfl rfl nofun nofun rfl rfl nofun nofun (.inl rfl) hlock
  | notChild | adopted | skip | reparent | zombie =>
    exact h.goto hrun rfl rfl nofun hexits rfl rfl hclosed hgone (.inl rfl) hlock

theorem ret (hrun : (s.proc p).state = .running)
    (hpc : s'.pc = update s.pc p .user) (hproc : s'.proc = s.proc)
    (hlock : s'.waitLock = s.waitLock ∨ s.waitLock = some p ∨ s.waitLock = none) : Control s' :=
  h.goto hrun hpc hproc nofun nofun rfl rfl nofun nofun hlock nofun

theorem retWith (hrun : (s'.proc p).state = .running)
    (hpc : s'.pc = update s.pc p .user) (hproc : s'.proc = update s.proc q x)
    (hslot : q ≠ p → Fits q (s.pc q) x) (hused : (s.proc q).state = .used → x.state = .used)
    (hlock : s'.waitLock = s.waitLock ∨ s.waitLock = some p ∨ s.waitLock = none) : Control s' := by
  refine h.change hpc hproc ?_ hslot (fun hu => .inl (hused hu)) hlock nofun nofun nofun
  exact .running hrun nofun nofun rfl nofun nofun

theorem own (hold : (s.proc p).state = .running) (hpc : s'.pc = update s.pc p c)
    (hproc : s'.proc = update s.proc p x) (hrun : x.state = .running) (hc : c ≠ .idle)
    (hexits : c.exits = true → p ≠ 0) (hsleeps : c.sleeps = false) (hchild : c.child = none)
    (hclosed : ∀ fd : Fin NOFILE, (fd : ℕ) < c.closed → x.ofile fd = none)
    (hgone : c.gone = true → x.cwd = none) (hlock : s'.waitLock = s.waitLock)
    (hholds : c.holds = false) : Control s' := by
  refine h.change hpc hproc ?_ (fun hne => absurd rfl hne) (fun hu => ?_) (.inl hlock)
    (fun hh => ?_) (fun hidle => absurd hidle hc) ?_
  · rw [hproc, update_self]
    exact .running hrun hc hexits hsleeps hclosed hgone
  · rw [hold] at hu
    cases hu
  · rw [hholds] at hh
    cases hh
  · rw [hchild]
    rintro _ ⟨⟩

theorem table (hpc : s'.pc = s.pc) (hproc : s'.proc = update s.proc q x)
    (hfits : Fits q (s.pc q) x) (hused : (s.proc q).state = .used → x.state = .used)
    (hlock : s'.waitLock = s.waitLock) : Control s' := by
  refine h.change (p := q) (c := s.pc q) (by rw [hpc, update_eq_self]) hproc ?_
    (fun hne => absurd rfl hne) (fun hu => .inl (hused hu)) (.inl hlock)
    (fun hh => hlock.trans (h.lock q hh)) ?_ fun np hnp => ⟨?_, fun r hr hr' => ?_⟩
  · rw [hproc, update_self]
    exact hfits
  · rintro hidle rfl
    exact h.init hidle
  · grind [congrFun hproc, h.child]
  · exact hr (h.inj r q np hr' hnp)

theorem idle_of_not_live (hstate : (s.proc q).state.live = false) : s.pc q = .idle := by
  by_contra hidle
  rw [(h.fits q).live.mpr hidle] at hstate
  cases hstate

theorem run {k : Pc N} (hrun : (s.proc p).state = .running)
    (hk : s.pc p = k) (hs : Run s p k s') : Control s' := by
  have hfits := h.fits p
  have hlock := h.lock p
  rw [hk] at hfits hlock
  have hexits := hfits.exits
  have hclosed := hfits.files
  have hgone := hfits.cwd
  cases hs with
  | move hm => exact h.move hrun hk hm
  | noProc | noPid => exact h.ret hrun rfl rfl (.inl rfl)
  | @allocFails np hu =>
    have hclean := (h.fits np).unused hu
    refine h.retWith ?_ rfl rfl (fun _ => ?_) (by simp [hu]) (.inl rfl)
    · have hne : p ≠ np := by
        rintro rfl
        simp [hu] at hrun
      simpa [Sys.ret, Sys.goto, Sys.update, update_of_ne hne] using hrun
    · exact (h.fits np).freeproc (h.idle_of_not_live (by rw [hu]; rfl))
        ⟨hclean.ofile, hclean.cwd⟩
  | @alloc np hu =>
    have hne : p ≠ np := by
      rintro rfl
      simp [hu] at hrun
    refine h.change (q := np) rfl rfl ?_ (fun _ => ?_) (by simp [hu]) (.inl rfl) nofun nofun ?_
    · refine .running ?_ nofun nofun rfl nofun nofun
      simpa [Sys.goto, Sys.update, update_of_ne hne] using hrun
    · rw [h.idle_of_not_live (by rw [hu]; rfl)]
      exact .used rfl
    · rintro _ ⟨⟩
      refine ⟨by simp [Sys.goto, Sys.update, Proc.alloc], fun r _ hr => ?_⟩
      have hused := h.child r np hr
      rw [hu] at hused
      cases hused
  | @setParent np hfree =>
    have hnp : (s.pc p).child = some np := by rw [hk]; rfl
    have hused := h.child p np hnp
    refine h.change (q := np) rfl rfl ?_ (fun _ => ?_) (fun _ => .inl hused) (.inl rfl) nofun
      nofun ?_
    · refine .running ?_ nofun nofun rfl nofun nofun
      exact (update_proj (f := s.proc) (q := np) (fun y => y.state) (by rfl)).trans hrun
    · rw [h.idle_of_not_live (by rw [hused]; rfl)]
      exact .used hused
    · rintro _ ⟨⟩
      refine ⟨(update_proj (f := s.proc) (q := np) (fun y => y.state) (by rfl)).trans hused, ?_⟩
      intro r hr hr'
      exact hr (h.inj r p np hr' hnp)
  | @setRunnable np =>
    have hnp : (s.pc p).child = some np := by rw [hk]; rfl
    have hused := h.child p np hnp
    have hne : np ≠ p := by
      rintro rfl
      simp [hused] at hrun
    -- first the parent returns, and then nobody waits to start the child
    have h₁ : Control (s.ret p (s.proc np).pid) := h.ret hrun rfl rfl (.inl rfl)
    refine h₁.change (p := np) (q := np) (c := .user) (Function.update_comm hne ..) rfl ?_
      (fun hne => absurd rfl hne) (fun _ => .inr fun r hr => ?_) (.inl rfl) nofun nofun nofun
    · constructor <;> simp [Sys.ret, Sys.goto, Sys.update, State.live, Pc.exits, Pc.sleeps,
        Pc.closed,
        Pc.gone]
    · rcases eq_or_ne r p with rfl | hrp
      · simp [Sys.ret, Sys.goto, Pc.child] at hr
      · simp only [Sys.ret, Sys.goto, update_of_ne hrp] at hr
        exact hrp (h.inj r p np hr hnp)
  | @closeFile fd status =>
    refine h.own hrun rfl rfl hrun nofun (fun _ => hexits rfl) rfl rfl (fun fd' hfd => ?_) nofun
      rfl rfl
    rcases eq_or_ne fd' fd with rfl | hne
    · exact update_self ..
    · grind [Pc.closed]
  | putCwd =>
    exact h.own hrun rfl rfl hrun nofun (fun _ => hexits rfl) rfl rfl (fun fd hfd => hclosed fd hfd)
      (fun _ => rfl) rfl rfl
  | exit hfree =>
    exact h.goto hrun rfl rfl nofun hexits rfl rfl hclosed hgone (.inr (.inr hfree)) fun _ => rfl
  | @adopt pp status hparent =>
    have hstate : (s.proc pp).state ≠ .unused := by
      intro hu
      rw [((h.fits pp).unused hu).parent] at hparent
      cases hparent
    refine h.change (q := pp) rfl rfl ?_ (fun _ => ?_) .inl (.inl rfl) hlock nofun nofun
    · refine .running ?_ nofun hexits rfl ?_ ?_
      · exact (update_proj (f := s.proc) (q := pp) (fun y => y.state) (by rfl)).trans hrun
      · intro fd hfd
        exact (update_proj (f := s.proc) (q := pp) (fun x => x.ofile fd) (by rfl)).trans
          (hclosed fd hfd)
      · exact fun hg => (update_proj (f := s.proc) (q := pp) Proc.cwd (by rfl)).trans (hgone hg)
    · grind [Control, Fits]
  | @wakeup q c next status hne hdoze =>
    refine h.change (q := q) rfl rfl ?_ (fun _ => (h.fits q).rouse _) (fun hu => .inl ?_) (.inl rfl)
      hlock nofun nofun
    · simp only [Sys.goto, Sys.update, update_of_ne hne.symm]
      exact .running hrun nofun hexits rfl hclosed hgone
    · simp [Proc.rouse_eq, hu]
  | zombie =>
    refine h.change (q := p) rfl rfl ?_ (fun hne => absurd rfl hne) (by simp [hrun])
      (.inr (.inl (hlock rfl))) nofun (fun _ => hexits rfl) nofun
    simp only [Sys.goto, Sys.update, update_self]
    refine ⟨by simp [State.live], nofun, nofun, nofun, nofun, nofun, fun _ => ?_, nofun⟩
    exact ⟨fun fd => hclosed fd fd.isLt, hgone rfl⟩
  | wait hfree =>
    exact h.goto hrun rfl rfl nofun nofun rfl rfl nofun nofun (.inr (.inr hfree)) fun _ => rfl
  | @reap pp addr havekids hparent hstate =>
    refine h.retWith ?_ rfl rfl (fun _ => ?_) (by simp [hstate]) (.inr (.inl (hlock rfl)))
    · have hne : p ≠ pp := by
        rintro rfl
        simp [hstate] at hrun
      simpa [Sys.ret, Sys.goto, Sys.update, update_of_ne hne] using hrun
    · exact (h.fits pp).freeproc (h.idle_of_not_live (by rw [hstate]; rfl))
        ((h.fits pp).zombie hstate)
  | waitFails => exact h.ret hrun rfl rfl (.inr (.inl (hlock rfl)))
  | sleep =>
    exact h.goto hrun rfl rfl nofun nofun rfl rfl nofun nofun (.inr (.inl (hlock rfl))) nofun
  | doze =>
    refine h.change (q := p) rfl rfl ?_ (fun hne => absurd rfl hne) (by simp [hrun]) (.inl rfl)
      nofun nofun nofun
    simp only [Sys.goto, Sys.update, update_self]
    exact ⟨by simp [State.live], nofun, fun _ => rfl, fun _ => .inl rfl, nofun, nofun, nofun,
      nofun⟩
  | @hit q pid hpid hdoze =>
    refine h.retWith ?_ rfl rfl (fun _ => (h.fits q).kill) (fun hu => ?_) (.inl rfl)
    · rcases eq_or_ne p q with rfl | hne
      · simp [Sys.ret, Sys.goto, Sys.update, Proc.kill, Slot.kill, hrun]
      · simpa [Sys.ret, Sys.goto, Sys.update, update_of_ne hne] using hrun
    · simp [Proc.kill, Slot.kill, hu]

theorem step {a : Act N} (hs : Step s a s') : Control s' := by
  cases hs with
  | @call p a c hpc hrun hc =>
    cases hc with
    | exit hp => exact h.goto hrun rfl rfl nofun (fun _ => hp) rfl rfl nofun nofun (.inl rfl) nofun
    | _ => exact h.goto hrun rfl rfl nofun nofun rfl rfl nofun nofun (.inl rfl) nofun
  | @setFile p fd f hpc hrun | @setCwd p ip hpc hrun =>
    refine h.table rfl rfl ?_ (by simp [hrun]) rfl
    rw [hpc]
    exact .running hrun nofun nofun rfl nofun nofun
  | run hrun hr => exact h.run hrun rfl hr
  | @sched p hstate =>
    have hfits := h.fits p
    rcases wakePc_cases (s.pc p) with ⟨addr, -, hpc⟩ | ⟨hsleeps, hpc⟩
    · rw [hpc]
      refine h.change (q := p) rfl rfl ?_ (fun hne => absurd rfl hne) (by simp [hstate]) (.inl rfl)
        nofun nofun nofun
      simp only [Sys.goto, Sys.update, update_self]
      exact .running rfl nofun nofun rfl nofun nofun
    · rw [hpc]
      refine h.table (update_eq_self ..) rfl ?_ (by simp [hstate]) rfl
      exact .running rfl (hfits.pc_ne_idle (by rw [hstate]; rfl)) hfits.exits hsleeps hfits.files
        hfits.cwd
  | @yield p hrun hdoze =>
    refine h.table rfl rfl ?_ (by simp [hrun]) rfl
    exact (h.fits p).runnable ((h.fits p).pc_ne_idle (by rw [hrun]; rfl)) rfl rfl rfl rfl
  | @nap p addr hrun hpc =>
    refine h.table rfl rfl ?_ (by simp [hrun]) rfl
    have hfits := h.fits p
    have hsleeps : (s.pc p).sleeps = false := by
      cases hc : s.pc p <;> simp_all [Pc.mayNap, Pc.sleeps]
    refine ⟨?_, hfits.exits, ?_, fun _ => .inr ⟨addr, rfl⟩, hfits.files, hfits.cwd, nofun, nofun⟩
    · simpa [State.live] using hfits.pc_ne_idle (by rw [hrun]; rfl)
    · simp [hsleeps]
  | @rouse p addr hchan =>
    refine h.table rfl rfl ((h.fits p).rouse _) (fun hu => ?_) rfl
    simp [Proc.rouse_eq, hu]

end Control

/-! ### Runs -/

def initProc : Proc N where
  state := .runnable
  chan := none
  killed := false
  xstate := 0
  pid := 1
  parent := none
  ofile := fun _ => none
  cwd := some 0
  id := 0
  creator := 0

def noProc : Proc N where
  state := .unused
  chan := none
  killed := false
  xstate := 0
  pid := 0
  parent := none
  ofile := fun _ => none
  cwd := none
  id := 0
  creator := 0

def boot (N : ℕ) [NeZero N] : Sys N where
  proc := update (fun _ => noProc) 0 initProc
  pc := update (fun _ => .idle) 0 .user
  a0 := fun _ => 0
  waitLock := none
  nextpid := 2
  nextId := 1
  trace := []

abbrev Interleaving (ok : Sys N → Act N → Prop) : Sys N → Prop :=
  Reachable (· = boot N) ok Sys.step

theorem boot_control : Control (boot N) := by
  have hproc : ∀ p, p ≠ 0 → (boot N).proc p = noProc := fun p hp => by simp [boot, hp]
  have hpc : ∀ p, p ≠ 0 → (boot N).pc p = .idle := fun p hp => by simp [boot, hp]
  have hpc₀ : (boot N).pc 0 = .user := by simp [boot]
  have hquiet : ∀ p, (boot N).pc p = .user ∨ (boot N).pc p = .idle := by grind
  refine ⟨fun p => ?_, fun p hp => ?_, by simp [hpc₀], fun p np hnp => ?_, fun p p' np hnp => ?_⟩
  · rcases eq_or_ne p 0 with rfl | hp
    · rw [hpc₀, show (boot N).proc 0 = initProc by simp [boot]]
      exact ⟨by simp [initProc, State.live], nofun, nofun, nofun, nofun, nofun, nofun, nofun⟩
    · rw [hpc p hp, hproc p hp]
      exact ⟨by simp [noProc, State.live], nofun, nofun, nofun, nofun, nofun, nofun,
        fun _ => ⟨rfl, rfl, rfl, rfl, fun _ => rfl, rfl⟩⟩
  · rcases hquiet p with h | h <;> simp [h, Pc.holds] at hp
  · rcases hquiet p with h | h <;> simp [h, Pc.child] at hnp
  · rcases hquiet p with h | h <;> simp [h, Pc.child] at hnp

/-! ### The flag `killed` -/

def KillsPid (_ : Sys N) (a : Act N) : Prop := ∀ p, a ≠ .kill p 0

/-- `kill` is under way with no pid of an unused slot. -/
structure Aimed (s : Sys N) : Prop where
  pid : ∀ p pid j, s.pc p = .kill pid j → pid ≠ 0
  unused : ∀ q, (s.proc q).state = .unused → (s.proc q).killed = false

namespace Aimed

variable {s s' : Sys N} {p q : Fin N} {c : Pc N} {x : Proc N}

omit [NeZero N] in
theorem change (h : Aimed s) (hpc : s'.pc = update s.pc p c)
    (hproc : s'.proc = update s.proc q x) (hc : ∀ pid j, c = .kill pid j → pid ≠ 0)
    (hx : x.state = .unused → x.killed = false) : Aimed s' := by
  refine ⟨fun r pid j hr => ?_, fun r hr => ?_⟩
  · grind [congrFun hpc, h.pid]
  · grind [congrFun hproc, h.unused]

omit [NeZero N] in
theorem goto (h : Aimed s) (hpc : s'.pc = update s.pc p c) (hproc : s'.proc = s.proc)
    (hc : ∀ pid j, c = .kill pid j → pid ≠ 0) : Aimed s' :=
  h.change (q := p) hpc (by rw [hproc, update_eq_self]) hc (h.unused p)

omit [NeZero N] in
theorem table (h : Aimed s) (hpc : s'.pc = s.pc) (hproc : s'.proc = update s.proc q x)
    (hx : x.state = .unused → x.killed = false) : Aimed s' :=
  h.change (p := q) (c := s.pc q) (by rw [hpc, update_eq_self]) hproc (h.pid q) hx

omit [NeZero N] in
theorem rouse (h : x.state = .unused → x.killed = false) (chan : Option (Chan N)) :
    (x.rouse chan).state = .unused → (x.rouse chan).killed = false := by
  rw [Proc.rouse_eq]
  split
  · exact nofun
  · exact h

theorem run {k : Pc N} (hcontrol : Control s) (h : Aimed s) (hk : s.pc p = k)
    (hs : Run s p k s') : Aimed s' := by
  cases hs with
  | move hm =>
    refine h.goto rfl rfl fun pid j hc => ?_
    cases hm <;> cases hc
    exact h.pid p _ _ hk
  | noProc | exit | wait | waitFails | sleep | noPid => exact h.goto rfl rfl nofun
  | allocFails | reap => exact h.change rfl rfl nofun fun _ => rfl
  | alloc => exact h.change rfl rfl nofun nofun
  | @setParent np => exact h.change (q := np) rfl rfl nofun (h.unused np)
  | @setRunnable np =>
    have h₁ : Aimed (s.ret np 0) := h.goto rfl rfl nofun
    exact h₁.change rfl rfl nofun nofun
  | closeFile | putCwd => exact h.change (q := p) rfl rfl nofun (h.unused p)
  | @adopt pp => exact h.change (q := pp) rfl rfl nofun (h.unused pp)
  | @wakeup q => exact h.change (q := q) rfl rfl nofun (rouse (h.unused q) _)
  | zombie | doze => exact h.change (q := p) rfl rfl nofun nofun
  | @hit q pid hpid =>
    refine h.change (q := q) rfl rfl nofun fun hu => ?_
    -- an unused slot has pid 0, and that is not the one of the call
    have hunused : (s.proc q).state = .unused := by grind [Proc.kill, Slot.kill]
    exact absurd (hpid.symm.trans ((hcontrol.fits q).unused hunused).pid) (h.pid p pid q hk)

theorem step {a : Act N} (hcontrol : Control s) (h : Aimed s) (hok : KillsPid s a)
    (hs : Step s a s') : Aimed s' := by
  cases hs with
  | @call p a c hpc hrun hc =>
    refine h.goto rfl rfl fun pid j hk => ?_
    cases hc <;> cases hk
    rintro rfl
    exact hok p rfl
  | @setFile p | @setCwd p => exact h.table (q := p) rfl rfl (h.unused p)
  | run _ hr => exact h.run hcontrol rfl hr
  | @sched p =>
    rcases wakePc_cases (s.pc p) with ⟨addr, -, hpc⟩ | ⟨-, hpc⟩
    · rw [hpc]
      exact h.change (q := p) rfl rfl nofun nofun
    · rw [hpc]
      exact h.change (q := p) rfl rfl (h.pid p) nofun
  | yield | nap => exact h.table rfl rfl nofun
  | @rouse p => exact h.table (q := p) rfl rfl (rouse (h.unused p) _)

end Aimed

theorem kill_cases {s s' : Sys N} {p : Fin N} {pid : Int32} {j : ℕ} {fails : Bool}
    (hpc : s.pc p = .kill pid j) (h : s.step (.step p fails) = .ok s') :
    s' = s.goto p (.kill pid (j + 1)) ∨ s' = s.ret p (-1) ∨
      ∃ q, (s.proc q).pid = pid ∧ s' = (s.update q Proc.kill).ret p 0 := by
  cases step_cases h with
  | run hrun hr =>
    rw [hpc] at hr
    cases hr with
    | move hm =>
      cases hm
      exact .inl rfl
    | hit hpid => exact .inr (.inr ⟨_, hpid, rfl⟩)
    | noPid => exact .inr (.inl rfl)
  | call _ _ hc => cases hc

theorem alloc_cases {s s' : Sys N} {p np : Fin N} {j : ℕ} {fails : Bool} (hpc : s.pc p = .alloc j)
    (h : s.step (.step p fails) = .ok s') (hnp : s'.pc p = .setParent np) :
    (s.proc np).state = .unused ∧ (s'.proc np).killed = (s.proc np).killed := by
  cases step_cases h with
  | run hrun hr =>
    rw [hpc] at hr
    cases hr with
    | move hm =>
      cases hm
      simp [Sys.goto] at hnp
    | noProc | allocFails => simp [Sys.ret, Sys.goto] at hnp
    | alloc hu =>
      simp only [Sys.goto, update_self, Pc.setParent.injEq] at hnp
      subst hnp
      exact ⟨hu, by simp [Sys.goto, Sys.update, Proc.alloc]⟩
  | call _ _ hc => cases hc

theorem boot_aimed : Aimed (boot N) := by
  constructor
  · intro p pid j hp
    rcases eq_or_ne p 0 with rfl | hne <;> simp_all [boot]
  · intro q hq
    rcases eq_or_ne q 0 with rfl | hne <;> simp_all [boot, initProc, noProc]

/-- If nobody kills the pid 0, unused slots are clean, processes start without
the flag `killed`, and `kill` hits nothing but a process with its pid. -/
theorem slots_clean {s : Sys N} (h : Interleaving KillsPid s) :
    (∀ q, (s.proc q).state = .unused → (s.proc q).killed = false ∧ Clean (s.proc q)) ∧
      (∀ p np j fails s', s.pc p = .alloc j → s.step (.step p fails) = .ok s' →
        s'.pc p = .setParent np → (s'.proc np).killed = false) ∧
      ∀ p pid j fails s', s.pc p = .kill pid j → s.step (.step p fails) = .ok s' →
        s' = s.goto p (.kill pid (j + 1)) ∨ s' = s.ret p (-1) ∨
          ∃ q, (s.proc q).state ≠ .unused ∧ (s.proc q).pid = pid ∧
            s' = (s.update q Proc.kill).ret p 0 := by
  have hinv : Control s ∧ Aimed s := by
    refine h.invariant (I := fun s => Control s ∧ Aimed s) (fun s hs => ?_)
      fun s a s' hI hok hs => ?_
    · rw [hs]
      exact ⟨boot_control, boot_aimed⟩
    · exact ⟨hI.1.step (step_cases hs), hI.2.step hI.1 hok (step_cases hs)⟩
  obtain ⟨hcontrol, haimed⟩ := hinv
  refine ⟨fun q hq => ⟨haimed.unused q hq, (hcontrol.fits q).unused hq⟩, ?_, ?_⟩
  · intro p np j fails s' hpc hs hnp
    obtain ⟨hu, hkilled⟩ := alloc_cases hpc hs hnp
    rw [hkilled]
    exact haimed.unused np hu
  · intro p pid j fails s' hpc hs
    refine (kill_cases hpc hs).imp_right (.imp_right ?_)
    rintro ⟨q, hpid, heq⟩
    refine ⟨q, fun hu => haimed.pid p pid j hpc ?_, hpid, heq⟩
    rw [← hpid, ((hcontrol.fits q).unused hu).pid]

instance (s : Sys N) (a : Act N) : Decidable (KillsPid s a) :=
  inferInstanceAs (Decidable (∀ _, _))

def killOnce (pid : Int32) : List (Act 2) :=
  [.sched 0, .kill 0 pid, .step 0 false, .step 0 false]

theorem slots_clean_killOnce :
    ∃ s, runActs KillsPid Sys.step (killOnce 7) (boot 2) = some s ∧
      (s.proc 1).state = .unused ∧ (s.proc 1).killed = false := by
  obtain ⟨s, hs⟩ : ∃ s, runActs KillsPid Sys.step (killOnce 7) (boot 2) = some s := ⟨_, rfl⟩
  have hreach : Interleaving KillsPid s := Reachable.runActs (.init rfl) hs
  have hu : (s.proc 1).state = .unused := by
    cases hs
    rfl
  exact ⟨s, hs, hu, ((slots_clean hreach).1 1 hu).1⟩

/-- `kill(0)` returns 0 and marks an unused slot, and the next process to be
forked gets that slot and starts as killed. -/
theorem kill_zero_marks_unused :
    (∃ s : Sys 2, Interleaving (fun _ _ => True) s ∧ s.pc 0 = .user ∧ s.a0 0 = 0 ∧
      (s.proc 1).state = .unused ∧ (s.proc 1).killed = true) ∧
    ∃ s : Sys 2, Interleaving (fun _ _ => True) s ∧ s.pc 0 = .setParent 1 ∧
      (s.proc 1).killed = true := by
  constructor
  · obtain ⟨s, hs⟩ : ∃ s, runActs (fun _ _ => True) Sys.step (killOnce 0) (boot 2) = some s :=
      ⟨_, rfl⟩
    refine ⟨s, Reachable.runActs (.init rfl) hs, ?_⟩
    cases hs
    decide
  · obtain ⟨s, hs⟩ : ∃ s, runActs (fun _ _ => True) Sys.step
        (killOnce 0 ++ [.fork 0, .step 0 false, .step 0 false]) (boot 2) = some s := ⟨_, rfl⟩
    refine ⟨s, Reachable.runActs (.init rfl) hs, ?_⟩
    cases hs
    decide

end Xv6.Ptable
