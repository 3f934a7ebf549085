import Xv6.Sched.Step

/-!
The process table and the machine of CPUs.

A step of `Ptable` is a section of a lock, for which the machine takes several: it takes
the lock, goes through the code and releases it. `point` is where a process of `Ptable` is
in the machine. If nobody interferes, a CPU that goes on from there comes to the end of
the section, with the table, the locks and the point that `Ptable` has (`section_leads`).
-/

namespace Xv6.Sched

open Ptable (Slot)
open Function (update update_self update_apply update_idem update_eq_self)

variable {M N L : ℕ} {σ κ ι : Type}

def after (p : Fin N) : Option ℕ → Pc N L κ
  | some j => .reparent j
  | none => .acquire (.proc p) .zombie

/-- Where process `p` is; `k` is what follows the call. `exit` closes the files and gives
up the current directory before it takes `wait_lock`. -/
def point (p : Fin N) (k : κ) : Ptable.Pc N → Pc N L κ
  | .idle => .swtch .dead
  | .user => .code k
  | .alloc j => .alloc j (.code k)
  | .setParent np => .acquire .wait (.setParent np (.code k))
  | .setRunnable np => .acquire (.proc np) (.ready np (.code k))
  | .closeFile .. | .putCwd _ | .exit _ => .acquire .wait (.reparent 0)
  | .reparent j _ => .reparent j
  | .wakeup c i next _ => .wakeup (c.map .proc) i (after p next)
  | .zombie _ => .acquire (.proc p) .zombie
  | .wait _ => .acquire .wait (.scan 0 false (.code k))
  | .scan _ j kids => .scan j kids (.code k)
  | .sleep _ => .callSleep p (.proc p) .wait (.scan 0 false (.code k))
  | .doze _ => .sleep (.proc p) .wait (.scan 0 false (.code k))
  | .asleep _ => .swtch (.woken (.proc p) .wait (.scan 0 false (.code k)))
  | .kill pid j => .kill pid j (.code k) (.code k)

def keeps : Ptable.Pc N → Bool
  | .idle | .doze _ | .asleep _ => true
  | _ => false

def slots (s : Ptable.Sys N) (q : Fin N) : Slot N := (s.proc q).toSlot

structure Core (M N L : ℕ) (κ : Type) where
  pc : Pc N L κ
  proc : Fin N → Slot N
  nextpid : Int32
  lock : Lock N L → Option (Fin M)

/-- The locks, with `p` on CPU `c` and nobody else in a section of a process. -/
def locks (c : Fin M) (p : Fin N) (other : Lock N L → Option (Fin M)) (keep : Bool)
    (waitLock : Option (Fin N)) : Lock N L → Option (Fin M)
  | .proc q => if q = p ∧ keep = true then some c else none
  | .pid => none
  | .wait => if waitLock = none then none else if waitLock = some p then some c else other .wait
  | .other l => other (.other l)

def coreOf (c : Fin M) (p : Fin N) (k : κ) (other : Lock N L → Option (Fin M))
    (s : Ptable.Sys N) : Core M N L κ :=
  ⟨point p k (s.pc p), slots s, s.nextpid, locks c p other (keeps (s.pc p)) s.waitLock⟩

structure On [NeZero N] (c : Fin M) (p : Fin N) (t : Sys M N L σ κ) (a : Core M N L κ) : Prop where
  stack : (t.cpu c).stack = some p
  initproc : t.initproc = 0
  pc : t.pc p = a.pc
  proc : t.proc = a.proc
  nextpid : t.nextpid = a.nextpid
  lock : t.lock = a.lock

section

variable [NeZero N] (code : Code N L σ κ ι) (c : Fin M) (p : Fin N)

/-- By steps of its own, the CPU gets from `a` to `b`. -/
def Leads (a b : Core M N L κ) : Prop :=
  ∀ t, On c p t a → ∃ t', Relation.ReflTransGen
    (fun t t' : Sys M N L σ κ => ∃ p, (t.cpu c).stack = some p ∧ Run code t c p (t.pc p) t') t t' ∧
      On c p t' b

variable {code c p} {a b d : Core M N L κ} {x y : Pc N L κ} {tab tab' : Fin N → Slot N}
  {n n' : Int32} {lk : Lock N L → Option (Fin M)} {l : Lock N L}

namespace Leads

theorem refl (a : Core M N L κ) : Leads code c p a a := fun t h => ⟨t, .refl, h⟩

theorem trans (hab : Leads code c p a b) (hbd : Leads code c p b d) : Leads code c p a d := by
  intro t h
  obtain ⟨t₁, hsteps₁, h₁⟩ := hab t h
  obtain ⟨t₂, hsteps₂, h₂⟩ := hbd t₁ h₁
  exact ⟨t₂, hsteps₁.trans hsteps₂, h₂⟩

theorem one (h : ∀ t, On c p t a → ∃ t', Run code t c p a.pc t' ∧ On c p t' b) :
    Leads code c p a b := by
  intro t ht
  obtain ⟨t', hrun, ht'⟩ := h t ht
  exact ⟨t', .single ⟨p, ht.stack, ht.pc ▸ hrun⟩, ht'⟩

theorem jump (h : ∀ t : Sys M N L σ κ, t.proc = tab → Jump t p x y) :
    Leads code c p ⟨x, tab, n, lk⟩ ⟨y, tab, n, lk⟩ :=
  one fun t ht => ⟨_, .jump (h t ht.proc),
    ht.stack, ht.initproc, update_self .., ht.proc, ht.nextpid, ht.lock⟩

theorem set {j : Fin N} {g : Sys M N L σ κ → Fin N → Pc N L κ} (f : Slot N → Slot N)
    (h : ∀ t : Sys M N L σ κ, t.proc = tab → t.initproc = 0 → Run code t c p x
      { t with proc := update t.proc j (f (t.proc j)), pc := update (g t) p y }) :
    Leads code c p ⟨x, tab, n, lk⟩ ⟨y, update tab j (f (tab j)), n, lk⟩ := by
  refine one fun t ht => ⟨_, h t ht.proc ht.initproc, ht.stack, ht.initproc, update_self .., ?_,
    ht.nextpid, ht.lock⟩
  rw [show tab = t.proc from ht.proc.symm]

theorem acquire (hl : lk l = none) :
    Leads code c p ⟨.acquire l x, tab, n, lk⟩ ⟨x, tab, n, update lk l (some c)⟩ := by
  refine one fun t ht => ?_
  have hlock : t.lock = lk := ht.lock
  refine ⟨_, .acquire (by rw [hlock, hl]), by simp [Sys.take, Sys.goto, Sys.setCpu, ht.stack],
    ht.initproc, update_self .., ht.proc, ht.nextpid, ?_⟩
  rw [← hlock]
  rfl

theorem release (hl : lk l = some c) :
    Leads code c p ⟨.release l x, tab, n, lk⟩ ⟨x, tab, n, update lk l none⟩ := by
  refine one fun t ht => ?_
  have hlock : t.lock = lk := ht.lock
  refine ⟨_, .release (by rw [hlock, hl]), by simp [Sys.drop, Sys.goto, Sys.setCpu, ht.stack],
    ht.initproc, update_self .., ht.proc, ht.nextpid, ?_⟩
  rw [← hlock]
  rfl

theorem allocpid {j : Fin N} :
    Leads code c p ⟨.allocpid j x, tab, n, lk⟩
      ⟨.release .pid (.setup j x), update tab j { tab j with pid := n }, n + 1, lk⟩ := by
  refine one fun t ht => ⟨_, .allocpid, ht.stack, ht.initproc, update_self .., ?_,
    congrArg (· + 1) ht.nextpid, ht.lock⟩
  rw [show tab = t.proc from ht.proc.symm, show n = t.nextpid from ht.nextpid.symm]
  rfl

theorem locked (hl : lk l = none) (h : Leads code c p ⟨x, tab, n, update lk l (some c)⟩
      ⟨.release l y, tab', n', update lk l (some c)⟩) :
    Leads code c p ⟨.acquire l x, tab, n, lk⟩ ⟨y, tab', n', lk⟩ := by
  have hrel : Leads code c p ⟨.release l y, tab', n', update lk l (some c)⟩
      ⟨y, tab', n', update (update lk l (some c)) l none⟩ := release (update_self ..)
  rw [update_idem, ← hl, update_eq_self] at hrel
  exact ((acquire hl).trans h).trans hrel

theorem found {j : Fin N} (hstate : (tab j).state = .unused) (hl : lk .pid = none) :
    Leads code c p ⟨.found j x, tab, n, lk⟩
      ⟨.setup j x, update tab j { tab j with pid := n }, n + 1, lk⟩ :=
  (jump fun t ht => .found (by rw [ht]; exact hstate)).trans (locked hl allocpid)

end Leads

/-! ### The sections -/

variable {s s' : Ptable.Sys N} {k : κ} {fails keep : Bool} {other : Lock N L → Option (Fin M)}
  {z : Ptable.Pc N} {w : Option (Fin N)}

omit [NeZero N] in
theorem slots_of {q : Fin N} {u : Ptable.Proc N} (h : s'.proc = update s.proc q u) :
    slots s' = update (slots s) q u.toSlot := by
  funext r
  rcases eq_or_ne r q with rfl | hne
  · simp [slots, h]
  · simp [slots, h, hne]

omit [NeZero N] in
theorem locks_proc {q : Fin N} : locks c p other false w (.proc q) = none := by simp [locks]

omit [NeZero N] in
theorem locks_keep :
    update (locks c p other false w) (.proc p) (some c) = locks c p other true w := by
  funext l
  cases l <;> simp [locks, update_apply]

omit [NeZero N] in
theorem locks_take :
    update (locks c p other keep none) .wait (some c) = locks c p other keep (some p) := by
  funext l
  cases l <;> simp [locks]

omit [NeZero N] in
theorem locks_drop :
    update (locks c p other keep (some p)) .wait none = locks c p other keep none := by
  funext l
  cases l <;> simp [locks]

theorem Leads.drop :
    Leads code c p ⟨.release .wait x, tab, n, locks c p other keep (some p)⟩
      ⟨x, tab, n, locks c p other keep none⟩ := by
  rw [← locks_drop]
  exact .release (by simp [locks])

theorem Leads.hold :
    Leads code c p ⟨.acquire (.proc p) x, tab, n, locks c p other false w⟩
      ⟨x, tab, n, locks c p other true w⟩ := by
  rw [← locks_keep]
  exact .acquire locks_proc

/-- A loop over the table looks at slot `j`. -/
theorem Leads.visit {j : Fin N} {v : Pc N L κ}
    (hjump : ∀ t : Sys M N L σ κ, t.proc = tab → Jump t p x (.acquire (.proc j) v))
    (h : Leads code c p ⟨v, tab, n, update (locks c p other false w) (.proc j) (some c)⟩
      ⟨.release (.proc j) y, tab', n', update (locks c p other false w) (.proc j) (some c)⟩) :
    Leads code c p ⟨x, tab, n, locks c p other false w⟩ ⟨y, tab', n', locks c p other false w⟩ :=
  (jump hjump).trans (.locked locks_proc h)

theorem Leads.coreOf (hpc : s'.pc p = z) (hslots : slots s' = tab') (hw : s'.waitLock = w)
    (h : Leads code c p a ⟨point p k z, tab', s'.nextpid, locks c p other (keeps z) w⟩) :
    Leads code c p a (coreOf c p k other s') := by
  rwa [Sched.coreOf, hpc, hslots, hw]

/-- A section of `Ptable` is a run of one CPU. -/
theorem section_leads (hholds : (s.pc p).holds = true → s.waitLock = some p)
    (hs : s.run p fails = .ok s') :
    Leads code c p (coreOf c p k other s) (coreOf c p k other s') := by
  unfold Ptable.Sys.run at hs
  rw [coreOf]
  cases hpc : s.pc p <;> rw [hpc] at hs hholds <;> dsimp only at hs
  case idle | user | asleep => cases hs
  case alloc j =>
    split_ifs at hs with hj hd hunused hfails <;> cases hs
    · refine .coreOf (update_self ..) ?_ rfl (.visit (fun t _ => .alloc (j := ⟨j, hj⟩))
        ((Leads.found hunused (by simp [locks])).trans
          (.set Slot.freeproc fun t _ _ => .noMemory)))
      rw [slots_of rfl, update_self, update_idem]
      rfl
    · refine .coreOf (update_self ..) ?_ rfl (.visit (fun t _ => .alloc (j := ⟨j, hj⟩))
        ((Leads.found hunused (by simp [locks])).trans
          (.set (fun u => { u with state := .used }) fun t _ _ => .setup)))
      rw [slots_of rfl, update_self, update_idem]
      rfl
    · exact .coreOf (update_self ..) rfl rfl (.visit (fun t _ => .alloc (j := ⟨j, hj⟩))
        (.jump fun t ht => .inUse (by rw [ht]; exact hunused)))
    · exact .coreOf (update_self ..) rfl rfl (.jump fun t _ => .allocEnd (not_lt.mp hj))
  case setParent np =>
    split_ifs at hs with hw
    cases hs
    exact .coreOf (update_self ..) (slots_of rfl) rfl (.locked (by simp [locks, hw])
      (.set (fun u => { u with parent := some p }) fun t _ _ => .setParent))
  case setRunnable np =>
    cases hs
    exact .coreOf (update_self ..) (slots_of rfl) rfl (.locked locks_proc
      (.set (fun u => { u with state := .runnable }) fun t _ _ => .ready))
  case closeFile fd status =>
    split_ifs at hs with hfd <;> cases hs
    · refine .coreOf (update_self ..) ((slots_of rfl).trans ?_) rfl (.refl _)
      exact update_eq_self p (slots s)
    · exact .coreOf (update_self ..) rfl rfl (.refl _)
  case putCwd status =>
    cases hs
    refine .coreOf (update_self ..) ((slots_of rfl).trans ?_) rfl (.refl _)
    exact update_eq_self p (slots s)
  case exit status =>
    split_ifs at hs with hw
    cases hs
    rw [hw]
    exact .coreOf (update_self ..) rfl rfl (locks_take (p := p) ▸ .acquire rfl)
  case reparent j status =>
    split_ifs at hs with hj hparent <;> cases hs
    · refine .coreOf (update_self ..) (slots_of rfl) rfl (.set (g := Sys.pc)
        (fun u => { u with parent := some 0 }) fun t ht hinit => ?_)
      rw [← hinit]
      exact .reparent (j := ⟨j, hj⟩) (by rw [ht]; exact hparent)
    · exact .coreOf (update_self ..) rfl rfl
        (.jump fun t ht => .reparentNext (j := ⟨j, hj⟩) (by rw [ht]; exact hparent))
    · refine .coreOf (update_self ..) rfl rfl (.jump fun t ht => ?_)
      have hjump := Jump.reparentEnd (s := t) (p := p) (not_lt.mp hj)
      rwa [ht] at hjump
  case wakeup ch i next status =>
    split_ifs at hs with hi hself hd
    · cases hs
      obtain rfl : i = p := congrArg Fin.val hself
      exact .coreOf (update_self ..) rfl rfl (.jump fun t _ => .wakeupSelf)
    · cases hs
      exact .coreOf (update_self ..) (slots_of rfl) rfl
        (.visit (fun t _ => .wakeup (j := ⟨i, hi⟩) hself)
          (.set (Slot.rouse (ch.map .proc)) fun t _ _ => .rouse))
    · cases next <;> cases hs <;>
        exact .coreOf (update_self ..) rfl rfl (.jump fun t _ => .wakeupEnd (not_lt.mp hi))
  case zombie status =>
    cases hs
    rw [hholds rfl]
    exact .coreOf (update_self ..) (slots_of rfl) rfl (Leads.hold.trans
      ((Leads.set (fun u => { u with state := .zombie }) fun t _ _ => .zombie).trans .drop))
  case wait addr =>
    split_ifs at hs with hw
    cases hs
    rw [hw]
    exact .coreOf (update_self ..) rfl rfl (locks_take (p := p) ▸ .acquire rfl)
  case scan addr j kids =>
    rw [hholds rfl]
    split_ifs at hs with hj hparent hd hzombie hcopy hret <;> cases hs
    · exact .coreOf (update_self ..) rfl rfl
        ((Leads.visit (fun t ht => .child (j := ⟨j, hj⟩) (by rw [ht]; exact hparent))
          (.jump fun t ht => .copyoutFails (by rw [ht]; exact hzombie))).trans .drop)
    · exact .coreOf (update_self ..) (slots_of rfl) rfl
        ((Leads.visit (fun t ht => .child (j := ⟨j, hj⟩) (by rw [ht]; exact hparent))
          (.set Slot.freeproc fun t ht _ => .reap (by rw [ht]; exact hzombie))).trans .drop)
    · exact .coreOf (update_self ..) rfl (hholds rfl)
        (.visit (fun t ht => .child (j := ⟨j, hj⟩) (by rw [ht]; exact hparent))
          (.jump fun t ht => .alive (by rw [ht]; exact hzombie)))
    · exact .coreOf (update_self ..) rfl (hholds rfl)
        (.jump fun t ht => .scanNext (j := ⟨j, hj⟩) (by rw [ht]; exact hparent))
    · refine .coreOf (update_self ..) rfl rfl ?_
      cases kids with
      | false => exact (Leads.jump fun t _ => .noKids (not_lt.mp hj)).trans .drop
      | true =>
        have hkilled := hret.resolve_left (by simp)
        exact (Leads.visit (fun t _ => .kids (not_lt.mp hj))
          (.jump fun t ht => .killed (by rw [ht]; exact hkilled))).trans .drop
    · obtain ⟨hkids, hkilled⟩ := not_or.mp hret
      rw [Bool.not_eq_false] at hkids
      rw [hkids]
      exact .coreOf (update_self ..) rfl (hholds rfl)
        (.visit (fun t _ => .kids (not_lt.mp hj))
          (.jump fun t ht => .notKilled (by rw [ht]; exact Bool.eq_false_iff.mpr hkilled)))
  case sleep addr =>
    cases hs
    rw [hholds rfl]
    exact .coreOf (update_self ..) rfl rfl (Leads.hold.trans .drop)
  case doze addr =>
    cases hs
    exact .coreOf (update_self ..) (slots_of rfl) rfl
      (.set (fun u => { u with chan := some (.proc p), state := .sleeping }) fun t _ _ => .sleep)
  case kill pid j =>
    split_ifs at hs with hj hd hpid <;> cases hs
    · exact .coreOf (update_self ..) (slots_of rfl) rfl
        (.visit (fun t _ => .kill (j := ⟨j, hj⟩))
          (.set Slot.kill fun t ht _ => .hit (by rw [ht]; exact hpid)))
    · exact .coreOf (update_self ..) rfl rfl
        (.visit (fun t _ => .kill (j := ⟨j, hj⟩))
          (.jump fun t ht => .miss (by rw [ht]; exact hpid)))
    · exact .coreOf (update_self ..) rfl rfl (.jump fun t _ => .killEnd (not_lt.mp hj))

end

end Xv6.Sched
