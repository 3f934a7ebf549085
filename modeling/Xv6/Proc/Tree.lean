import Xv6.Proc.Slot

/-!
The process tree.

The tree is about less than the table: of a slot only whether it is in use, of a process
only what it does with children, parents and `wait_lock`. `VStep` has the steps on this
view, and `Tree` is what they keep: a parent is alive, and one that waits while a child is a
zombie is about to be woken.
-/

namespace Xv6.Ptable

open Function (update update_self update_of_ne)

/-- What a slot holds: nothing, a child that `fork` works on, a process, or a zombie. -/
inductive Phase
  | free
  | born
  | live
  | dead
  deriving DecidableEq

/-- What a process is at: `fork` with child `np`, the loops of `reparent` and `wakeup`
in `exit` (with the slot to go on with), before it becomes a zombie, the loop of `wait`, or
asleep there. -/
inductive Role (N : ℕ)
  | quiet
  | child (np : Fin N)
  | adopt (j : ℕ)
  | wake (c : Option (Fin N)) (i : ℕ) (next : Option ℕ)
  | die
  | scan (j : ℕ)
  | waiting
  deriving DecidableEq

structure View (N : ℕ) where
  phase : Fin N → Phase
  parent : Fin N → Option (Fin N)
  role : Fin N → Role N
  id : Fin N → ℕ
  creator : Fin N → ℕ
  pid : Fin N → Int32
  xstate : Fin N → Int32
  lock : Option (Fin N)
  nextId : ℕ
  trace : List Event

variable {N : ℕ}

def Role.holds : Role N → Bool
  | .adopt _ => true
  | .wake .. => true
  | .die => true
  | .scan _ => true
  | _ => false

def Role.exits : Role N → Bool
  | .adopt _ => true
  | .wake .. => true
  | .die => true
  | _ => false

/-- A step, as the view shows it. Most steps of the table do not show. -/
inductive VStep [NeZero N] (v : View N) : View N → Prop
  | stutter : VStep v v
  | calm {q} (h : v.role q = .waiting) : VStep v { v with role := update v.role q .quiet }
  | fork {p np pid} (hp : v.phase p = .live) (hrole : v.role p = .quiet) (h : v.phase np = .free) :
      VStep v
        { v with
          phase := update v.phase np .born
          role := update v.role p (.child np)
          id := update v.id np v.nextId
          creator := update v.creator np (v.id p)
          pid := update v.pid np pid
          nextId := v.nextId + 1
          trace := .fork v.nextId pid (v.id p) :: v.trace }
  | link {p np} (hp : v.phase p = .live) (hrole : v.role p = .child np) (h : v.phase np = .born)
      (hlock : v.lock = none) :
      VStep v { v with parent := update v.parent np (some p) }
  | start {p np} (hrole : v.role p = .child np) (h : v.phase np = .born) :
      VStep v
        { v with
          phase := update v.phase np .live
          role := update v.role p .quiet }
  | exit {p} (hp : v.phase p = .live) (h0 : p ≠ 0) (hrole : v.role p = .quiet)
      (hlock : v.lock = none) :
      VStep v
        { v with
          role := update v.role p (.adopt 0)
          lock := some p }
  | pass {p pp : Fin N} (hrole : v.role p = .adopt pp) (h : v.parent pp ≠ some p) :
      VStep v { v with role := update v.role p (.adopt (pp + 1)) }
  | adopt {p pp : Fin N} (hrole : v.role p = .adopt pp) (h : v.parent pp = some p) :
      VStep v
        { v with
          parent := update v.parent pp (some 0)
          role := update v.role p (.wake (some 0) 0 (some (pp + 1))) }
  | adopted {p j} (hrole : v.role p = .adopt j) (h : N ≤ j) :
      VStep v { v with role := update v.role p (.wake (v.parent p) 0 none) }
  | skip {p q : Fin N} {c next} (hrole : v.role p = .wake c q next)
      (h : c = some q → v.role q ≠ .waiting) :
      VStep v { v with role := update v.role p (.wake c (q + 1) next) }
  | wake {p q : Fin N} {c next} (hrole : v.role p = .wake c q next) (hne : q ≠ p)
      (h : v.role q = .waiting) :
      VStep v
        { v with
          role := update (update v.role q .quiet) p (.wake c (q + 1) next) }
  | woken {p c i j} (hrole : v.role p = .wake c i (some j)) (h : N ≤ i) :
      VStep v { v with role := update v.role p (.adopt j) }
  | last {p c i} (hrole : v.role p = .wake c i none) (h : N ≤ i) :
      VStep v { v with role := update v.role p .die }
  | die {p status} (hrole : v.role p = .die) (hp : v.phase p = .live) :
      VStep v
        { v with
          phase := update v.phase p .dead
          xstate := update v.xstate p status
          role := update v.role p .quiet
          lock := none
          trace := .exit (v.id p) (v.pid p) status :: v.trace }
  | wait {p} (hp : v.phase p = .live) (hrole : v.role p = .quiet) (hlock : v.lock = none) :
      VStep v
        { v with
          role := update v.role p (.scan 0)
          lock := some p }
  | scan {p pp : Fin N} (hrole : v.role p = .scan pp)
      (h : v.parent pp = some p → v.phase pp ≠ .dead) :
      VStep v { v with role := update v.role p (.scan (pp + 1)) }
  | scanned {p j} (hrole : v.role p = .scan j) (h : N ≤ j) :
      VStep v { v with role := update v.role p (.scan N) }
  | reap {p pp : Fin N} (hrole : v.role p = .scan pp) (hparent : v.parent pp = some p)
      (h : v.phase pp = .dead) :
      VStep v
        { v with
          phase := update v.phase pp .free
          parent := update v.parent pp none
          pid := update v.pid pp 0
          xstate := update v.xstate pp 0
          role := update v.role p .quiet
          lock := none
          trace := .reap (v.id pp) (v.pid pp) (v.xstate pp) (v.id p) :: v.trace }
  | leave {p j} (hrole : v.role p = .scan j) :
      VStep v
        { v with
          role := update v.role p .quiet
          lock := none }
  | doze {p} (hrole : v.role p = .scan N) :
      VStep v
        { v with
          role := update v.role p .waiting
          lock := none }

/-- What process `p`, which has `wait_lock`, has found out by its loops. -/
def Duty (v : View N) (p : Fin N) : Role N → Prop
  | .adopt j => ∀ q : Fin N, (q : ℕ) < j → v.parent q ≠ some p
  | .wake c i next =>
    (∀ q : Fin N, (q : ℕ) < next.getD N → v.parent q ≠ some p) ∧
      (next = none → c = v.parent p) ∧
      ∀ q : Fin N, (q : ℕ) < i → c = some q → v.role q ≠ .waiting
  | .die => (∀ q, v.parent q ≠ some p) ∧ ∀ q, v.parent p = some q → v.role q ≠ .waiting
  | .scan j => ∀ q : Fin N, (q : ℕ) < j → v.parent q = some p → v.phase q ≠ .dead
  | _ => True

/-- Process `q` will be woken. -/
def Pending (q : Fin N) : Role N → Prop
  | .wake c i _ => c = some q ∧ i ≤ (q : ℕ)
  | _ => False

structure Tree [NeZero N] (v : View N) : Prop where
  lock : ∀ p, (v.role p).holds = true → v.lock = some p
  root : v.phase 0 = .live
  exits : ∀ p, (v.role p).exits = true → p ≠ 0
  parent : ∀ q r, v.parent q = some r → v.phase q ≠ .free ∧ v.phase r = .live
  duty : ∀ p, Duty v p (v.role p)
  waiting : ∀ p q, v.role p = .waiting → v.parent q = some p → v.phase q = .dead →
    ∃ h, v.lock = some h ∧ Pending p (v.role h)

theorem Duty.of_not_holds {v : View N} {p : Fin N} {r : Role N} (h : r.holds = false) :
    Duty v p r := by
  cases r <;> trivial

theorem Pending.holds {q : Fin N} {r : Role N} (h : Pending q r) : r.holds = true := by
  cases r <;> first | rfl | exact h.elim

theorem Duty.mono {v v' : View N} {p : Fin N} {r : Role N} (h : Duty v p r)
    (hparent : v'.parent = v.parent) (hwaiting : ∀ q, v'.role q = .waiting → v.role q = .waiting)
    (hdead : ∀ q, v'.phase q = .dead → v.phase q = .dead) : Duty v' p r := by
  cases r with
  | adopt j =>
    intro q
    rw [hparent]
    exact h q
  | wake c i next => grind [Duty]
  | die =>
    obtain ⟨h₁, h₂⟩ := h
    refine ⟨?_, ?_⟩ <;> rw [hparent]
    · exact h₁
    · exact fun q hq hw => h₂ q hq (hwaiting q hw)
  | scan j =>
    intro q hq
    rw [hparent]
    exact fun hp hd => h q hq hp (hdead q hd)
  | _ => trivial

namespace Tree

variable [NeZero N] {v v' : View N} {p : Fin N} {r : Role N}

theorem outside (h : Tree v) (hlock : v'.lock = v.lock) (hparent : v'.parent = v.parent)
    (hlive : ∀ q, v.phase q = .live → v'.phase q = .live)
    (hfree : ∀ q, v'.phase q = .free → v.phase q = .free)
    (hdead : ∀ q, v'.phase q = .dead → v.phase q = .dead)
    (hrole : ∀ q, v'.role q = v.role q ∨ v'.role q = .quiet ∨ ∃ np, v'.role q = .child np)
    (hholder : ∀ q, (v.role q).holds = true → v'.role q = v.role q) : Tree v' := by
  have hwaiting : ∀ q, v'.role q = .waiting → v.role q = .waiting := by grind
  refine ⟨fun q hq => ?_, hlive 0 h.root, fun q hq => ?_, fun q r hq => ?_, fun q => ?_,
    fun q c hq hc hd => ?_⟩
  · rcases hrole q with heq | heq | ⟨np, heq⟩ <;> rw [heq] at hq
    · rw [hlock]
      exact h.lock q hq
    · cases hq
    · cases hq
  · rcases hrole q with heq | heq | ⟨np, heq⟩ <;> rw [heq] at hq
    · exact h.exits q hq
    · cases hq
    · cases hq
  · grind [h.parent]
  · rcases hrole q with heq | heq | ⟨np, heq⟩ <;> rw [heq]
    · exact (h.duty q).mono hparent hwaiting hdead
    · trivial
    · trivial
  · rw [hparent] at hc
    obtain ⟨o, ho, hpend⟩ := h.waiting q c (hwaiting q hq) hc (hdead c hd)
    refine ⟨o, hlock.trans ho, ?_⟩
    rwa [hholder o hpend.holds]

theorem alone (h : Tree v) (hp : (v.role p).holds = true) {q : Fin N} (hq : q ≠ p) :
    (v.role q).holds = false := by
  rw [Bool.eq_false_iff]
  exact fun hh => hq (Option.some.inj ((h.lock q hh).symm.trans (h.lock p hp)))

/-- A turn of one of the loops: only where the process is in it changes. -/
theorem turn {r₀ : Role N} (h : Tree v) (hrole : v.role p = r₀) (hp : r₀.holds = true)
    (hholds : r.holds = true) (hexits : r.exits = true → r₀.exits = true)
    (hduty : Duty v p r₀ → Duty v p r)
    (hpend : ∀ q, v.role q = .waiting → Pending q r₀ → Pending q r) :
    Tree { v with role := update v.role p r } := by
  subst hrole
  have hwaiting : ∀ q, update v.role p r q = .waiting → v.role q = .waiting := by
    intro q hq
    rcases eq_or_ne q p with rfl | hne
    · rw [update_self] at hq
      rw [hq] at hholds
      cases hholds
    · rwa [update_of_ne hne] at hq
  refine ⟨fun q hq => ?_, h.root, fun q hq => ?_, h.parent, fun q => ?_, fun q c hq hc hd => ?_⟩
  · grind [h.lock]
  · grind [h.exits]
  · rcases eq_or_ne q p with rfl | hne
    · grind [(hduty (h.duty q)).mono]
    · dsimp only
      rw [update_of_ne hne]
      exact .of_not_holds (h.alone hp hne)
  · obtain ⟨o, ho, hpend'⟩ := h.waiting q c (hwaiting q hq) hc hd
    obtain rfl : o = p := Option.some.inj (ho.symm.trans (h.lock p hp))
    refine ⟨o, ho, ?_⟩
    dsimp only
    rw [update_self]
    exact hpend q (hwaiting q hq) hpend'

theorem of_free (hholds : ∀ q, (v.role q).holds = false) (hroot : v.phase 0 = .live)
    (htree : ∀ q a, v.parent q = some a →
      v.phase q ≠ .free ∧ v.phase a = .live ∧ (v.phase q = .dead → v.role a ≠ .waiting)) :
    Tree v := by
  refine ⟨fun q hq => ?_, hroot, fun q hq => ?_, fun q a hq => ?_,
    fun q => .of_not_holds (hholds q), fun q c hq hc hd => absurd hq ((htree c q hc).2.2 hd)⟩
  · rw [hholds q] at hq
    cases hq
  · have := hholds q
    cases hr : v.role q <;> simp_all [Role.exits, Role.holds]
  · exact ⟨(htree q a hq).1, (htree q a hq).2.1⟩

theorem free (h : Tree v) (hlock : v.lock = none) {q a : Fin N} (hq : v.parent q = some a) :
    v.phase q ≠ .free ∧ v.phase a = .live ∧ (v.phase q = .dead → v.role a ≠ .waiting) := by
  refine ⟨(h.parent q a hq).1, (h.parent q a hq).2, fun hd hw => ?_⟩
  obtain ⟨o, ho, -⟩ := h.waiting a q hw hq hd
  rw [hlock] at ho
  cases ho

theorem holds_of_free (h : Tree v) (hlock : v.lock = none) (q : Fin N) :
    (v.role q).holds = false := by
  rw [Bool.eq_false_iff]
  intro hq
  have := h.lock q hq
  rw [hlock] at this
  cases this

theorem acquire (h : Tree v) (hlock : v.lock = none) (hphase : v'.phase = v.phase)
    (hparent : v'.parent = v.parent) (hrole : v'.role = update v.role p r)
    (hlock' : v'.lock = some p) (hr : r ≠ .waiting) (hexits : r.exits = true → p ≠ 0)
    (hduty : Duty v' p r) : Tree v' := by
  have hself : v'.role p = r := by rw [hrole, update_self]
  have hother : ∀ q, q ≠ p → v'.role q = v.role q := fun q hq => by
    rw [hrole, update_of_ne hq]
  refine ⟨fun q hq => ?_, hphase ▸ h.root, fun q hq => ?_, fun q a hq => ?_, fun q => ?_,
    fun q c hq hc hd => ?_⟩
  · grind [h.holds_of_free]
  · grind [h.exits]
  · rw [hparent] at hq
    rw [hphase]
    exact h.parent q a hq
  · rcases eq_or_ne q p with rfl | hne
    · rw [hself]
      exact hduty
    · rw [hother q hne]
      exact .of_not_holds (h.holds_of_free hlock q)
  · rw [hparent] at hc
    rw [hphase] at hd
    have hne : q ≠ p := by
      rintro rfl
      exact hr (hself ▸ hq)
    rw [hother q hne] at hq
    exact absurd hq ((h.free hlock hc).2.2 hd)

theorem release (h : Tree v) (hp : (v.role p).holds = true) (hrole : v'.role = update v.role p r)
    (hr : r.holds = false) (hroot : v'.phase 0 = .live) (htree : ∀ q a, v'.parent q = some a →
      v'.phase q ≠ .free ∧ v'.phase a = .live ∧ (v'.phase q = .dead → v'.role a ≠ .waiting)) :
    Tree v' := by
  refine of_free (fun q => ?_) hroot htree
  rw [hrole]
  rcases eq_or_ne q p with rfl | hne
  · rwa [update_self]
  · rw [update_of_ne hne]
    exact h.alone hp hne

theorem awake (h : Tree v) (hp : (v.role p).holds = true) (hpend : ∀ q, ¬Pending q (v.role p))
    {q a : Fin N} (hq : v.parent q = some a) (hd : v.phase q = .dead) : v.role a ≠ .waiting := by
  intro hw
  obtain ⟨o, ho, hpend'⟩ := h.waiting a q hw hq hd
  rw [Option.some.inj (ho.symm.trans (h.lock p hp))] at hpend'
  exact hpend a hpend'

omit [NeZero N] in
theorem update_quiet_ne (a : Fin N) (h : a ≠ p → v.role a ≠ .waiting) :
    update v.role p .quiet a ≠ .waiting := by
  rcases eq_or_ne a p with rfl | hne
  · simp
  · rw [update_of_ne hne]
    exact h hne

theorem calm {q : Fin N} (h : Tree v) (hq : v.role q = .waiting) :
    Tree { v with role := update v.role q .quiet } := by
  refine h.outside rfl rfl (fun _ => id) (fun _ => id) (fun _ => id) (fun r => ?_) fun r hr => ?_
  · grind
  · refine update_of_ne ?_ ..
    rintro rfl
    rw [hq] at hr
    cases hr

theorem skip {q : Fin N} {c : Option (Fin N)} {next : Option ℕ} (h : Tree v)
    (hrole : v.role p = .wake c q next) (hq : c = some q → v.role q ≠ .waiting) :
    Tree { v with role := update v.role p (.wake c (q + 1) next) } := by
  refine h.turn hrole rfl rfl id
    (fun hduty => ⟨hduty.1, hduty.2.1, fun q' hq' hc => ?_⟩) fun q' hw hpend => ⟨hpend.1, ?_⟩
  · rcases Nat.lt_succ_iff_lt_or_eq.mp hq' with hlt | heq
    · exact hduty.2.2 q' hlt hc
    · obtain rfl := Fin.ext heq
      exact hq hc
  · rcases Nat.lt_or_eq_of_le hpend.2 with hlt | heq
    · exact hlt
    · obtain rfl := Fin.ext heq
      exact absurd hw (hq hpend.1)

theorem adopt {pp : Fin N} (h : Tree v) (hrole : v.role p = .adopt pp)
    (hpp : v.parent pp = some p) :
    Tree { v with
      parent := update v.parent pp (some 0)
      role := update v.role p (.wake (some 0) 0 (some (pp + 1))) } := by
  have hp : (v.role p).holds = true := by rw [hrole]; rfl
  have hp0 : p ≠ 0 := h.exits p (by rw [hrole]; rfl)
  have hduty := h.duty p
  rw [hrole] at hduty
  refine ⟨fun q hq => ?_, h.root, fun q hq => ?_, fun q a hq => ?_, fun q => ?_,
    fun q c hq hc hd => ?_⟩
  all_goals dsimp only at *
  · grind [h.lock]
  · grind [h.exits]
  · grind [Tree]
  · rcases eq_or_ne q p with rfl | hne
    · rw [update_self]
      refine ⟨fun c hc => ?_, nofun, nofun⟩
      dsimp only
      rcases eq_or_ne c pp with rfl | hne
      · rw [update_self]
        exact fun heq => hp0 (Option.some.inj heq).symm
      · rw [update_of_ne hne]
        exact hduty c (by simp only [Option.getD_some] at hc; omega)
    · rw [update_of_ne hne]
      exact .of_not_holds (h.alone hp hne)
  · -- only the child that was adopted can be a zombie whose parent sleeps
    refine ⟨p, h.lock p hp, ?_⟩
    rw [update_self]
    have hne : q ≠ p := by grind
    rw [update_of_ne hne] at hq
    rcases eq_or_ne c pp with rfl | hcne
    · rw [update_self] at hc
      exact ⟨hc, Nat.zero_le _⟩
    · rw [update_of_ne hcne] at hc
      obtain ⟨o, ho, hpend⟩ := h.waiting q c hq hc hd
      rw [Option.some.inj (ho.symm.trans (h.lock p hp)), hrole] at hpend
      exact hpend.elim

theorem step (h : Tree v) (hs : VStep v v') : Tree v' := by
  cases hs with
  | stutter => exact h
  | @calm q hq => exact h.calm hq
  | @fork p np pid hp hrole hnp =>
    refine h.outside rfl rfl (fun q hq => ?_) (fun q hq => ?_) (fun q hq => ?_) (fun q => ?_)
      fun q hq => ?_
    all_goals dsimp only at *
    · grind
    · grind
    · grind
    · grind
    · refine update_of_ne ?_ ..
      rintro rfl
      rw [hrole] at hq
      cases hq
  | @link p np hp hrole hnp hlock =>
    refine of_free (h.holds_of_free hlock) h.root fun q a hq => ?_
    dsimp only at *
    rcases eq_or_ne q np with rfl | hne
    · rw [update_self] at hq
      cases hq
      simp [hnp, hp]
    · rw [update_of_ne hne] at hq
      exact h.free hlock hq
  | @start p np hrole hnp =>
    refine h.outside rfl rfl (fun q hq => ?_) (fun q hq => ?_) (fun q hq => ?_) (fun q => ?_)
      fun q hq => ?_
    all_goals dsimp only at *
    · grind
    · grind
    · grind
    · grind
    · refine update_of_ne ?_ ..
      rintro rfl
      rw [hrole] at hq
      cases hq
  | exit hp h0 hrole hlock => exact h.acquire hlock rfl rfl rfl rfl nofun (fun _ => h0) nofun
  | @pass p pp hrole hpp =>
    refine h.turn hrole rfl rfl id (fun hduty q hq => ?_) fun _ _ => id
    rcases Nat.lt_succ_iff_lt_or_eq.mp hq with hlt | heq
    · exact hduty q hlt
    · rwa [Fin.ext heq]
  | adopt hrole hpp => exact h.adopt hrole hpp
  | @adopted p j hrole hj =>
    exact h.turn hrole rfl rfl id
      (fun hduty => ⟨fun q _ => hduty q (q.isLt.trans_le hj), fun _ => rfl, nofun⟩)
      fun _ _ => False.elim
  | @skip p q c next hrole hq => exact h.skip hrole hq
  | @wake p q c next hrole hne hq =>
    have h₁ := h.calm hq
    have hrole₁ : update v.role q .quiet p = .wake c q next := by grind
    exact h₁.skip hrole₁ fun _ => by simp
  | @woken p c i j hrole hi =>
    exact h.turn hrole rfl rfl id (fun hduty => hduty.1)
      fun q _ hpend => absurd q.isLt (by have := hpend.2; omega)
  | @last p c i hrole hi =>
    refine h.turn hrole rfl rfl id (fun hduty => ⟨fun q => hduty.1 q q.isLt, fun q hq => ?_⟩)
      fun q _ hpend => absurd q.isLt (by have := hpend.2; omega)
    exact hduty.2.2 q (q.isLt.trans_le hi) ((hduty.2.1 rfl).trans hq)
  | @die p status hrole hp =>
    have hholds : (v.role p).holds = true := by rw [hrole]; rfl
    have hduty := h.duty p
    rw [hrole] at hduty
    refine h.release hholds rfl rfl ?_ fun q a hq => ?_
    all_goals dsimp only at *
    · rw [update_of_ne (h.exits p (by rw [hrole]; rfl)).symm]
      exact h.root
    · have ha : a ≠ p := fun heq => hduty.1 q (heq ▸ hq)
      rw [update_of_ne ha]
      refine ⟨?_, (h.parent q a hq).2, fun hd => update_quiet_ne a fun _ => ?_⟩
      · grind [Tree]
      · rcases eq_or_ne q p with rfl | hne
        · exact hduty.2 a hq
        · grind [h.awake, Pending]
  | wait hp hrole hlock => exact h.acquire hlock rfl rfl rfl rfl nofun nofun nofun
  | @scan p pp hrole hpp =>
    refine h.turn hrole rfl rfl id (fun hduty q hq => ?_) fun _ _ => id
    rcases Nat.lt_succ_iff_lt_or_eq.mp hq with hlt | heq
    · exact hduty q hlt
    · rwa [Fin.ext heq]
  | @scanned p j hrole hj =>
    exact h.turn hrole rfl rfl id (fun hduty q _ => hduty q (q.isLt.trans_le hj)) fun _ _ => id
  | @reap p pp hrole hparent hpp =>
    have hholds : (v.role p).holds = true := by rw [hrole]; rfl
    have hlive : ∀ a, v.phase a = .live → update v.phase pp .free a = .live := by grind
    refine h.release hholds rfl rfl (hlive 0 h.root) fun q a hq => ?_
    dsimp only at *
    have hne : q ≠ pp := by
      rintro rfl
      simp at hq
    rw [update_of_ne hne] at hq ⊢
    refine ⟨(h.parent q a hq).1, hlive a (h.parent q a hq).2, fun hd => ?_⟩
    exact update_quiet_ne a fun _ => h.awake hholds (by simp [hrole, Pending]) hq hd
  | @leave p j hrole =>
    have hholds : (v.role p).holds = true := by rw [hrole]; rfl
    refine h.release hholds rfl rfl h.root fun q a hq =>
      ⟨(h.parent q a hq).1, (h.parent q a hq).2, ?_⟩
    exact fun hd => update_quiet_ne a fun _ => h.awake hholds (by simp [hrole, Pending]) hq hd
  | @doze p hrole =>
    have hholds : (v.role p).holds = true := by rw [hrole]; rfl
    have hduty := h.duty p
    rw [hrole] at hduty
    refine h.release hholds rfl rfl h.root fun q a hq =>
      ⟨(h.parent q a hq).1, (h.parent q a hq).2, ?_⟩
    intro hd
    rcases eq_or_ne a p with rfl | hne
    · exact absurd hd (hduty q q.isLt hq)
    · grind [h.awake, Pending]

end Tree

end Xv6.Ptable
