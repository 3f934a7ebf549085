import Xv6.Proc.Tree

/-!
Who is reaped by whom.

The history of the process tree says that every process is forked and exits at
most once, and that a `wait` returns the pid and the status of a process that
has exited, once, to its creator, or to the first process if the creator had
exited before.
-/

namespace Xv6.Ptable

open List
open Function (update update_self update_of_ne)

def Event.id : Event → ℕ
  | .fork child _ _ => child
  | .exit id _ _ => id
  | .reap child _ _ _ => child

def Exited (i : ℕ) (t : List Event) : Prop := ∃ pid status, Event.exit i pid status ∈ t

/-- What holds of an event, after those of `t`. -/
def Lawful (t : List Event) : Event → Prop
  | .fork child _ creator => (∀ pid c, Event.fork child pid c ∉ t) ∧ ¬Exited creator t
  | .exit id _ _ => ¬Exited id t
  | .reap child pid status parent =>
    (∀ pid status a, Event.reap child pid status a ∉ t) ∧ Event.exit child pid status ∈ t ∧
      ∃ c, Event.fork child pid c ∈ t ∧
        (parent = c ∧ ¬Exited c t ∨ parent = 0 ∧ Exited c t)

def LawfulTrace : List Event → Prop
  | [] => True
  | e :: t => Lawful t e ∧ LawfulTrace t

theorem LawfulTrace.split {t pre post : List Event} {e : Event} (h : LawfulTrace t)
    (ht : t = post ++ e :: pre) : Lawful pre e := by
  induction post generalizing t with
  | nil =>
    subst ht
    exact h.1
  | cons d post ih =>
    subst ht
    exact ih h.2 rfl

structure Known (nextId : ℕ) (t : List Event) (phase : Phase) (id creator : ℕ)
    (pid xstate : Int32) : Prop where
  fresh : id < nextId
  forked : id ≠ 0 → .fork id pid creator ∈ t
  alive : phase ≠ .dead → ¬Exited id t
  exited : phase = .dead → .exit id pid xstate ∈ t
  reaped : ∀ pid status a, .reap id pid status a ∉ t

theorem Exited.cons {i : ℕ} {e : Event} {t : List Event} (h : Exited i t) : Exited i (e :: t) := by
  obtain ⟨pid, status, hmem⟩ := h
  exact ⟨pid, status, mem_cons_of_mem _ hmem⟩

theorem Exited.of_cons {i : ℕ} {e : Event} {t : List Event} (h : Exited i (e :: t))
    (he : e.id ≠ i) : Exited i t := by
  obtain ⟨pid, status, hmem⟩ := h
  rcases mem_cons.mp hmem with rfl | hmem
  · exact absurd rfl he
  · exact ⟨pid, status, hmem⟩

theorem Known.cons {n n' : ℕ} {t : List Event} {phase : Phase} {id creator : ℕ}
    {pid xstate : Int32} {e : Event} (h : Known n t phase id creator pid xstate) (hn : n ≤ n')
    (he : e.id ≠ id) : Known n' (e :: t) phase id creator pid xstate := by
  refine ⟨h.fresh.trans_le hn, fun h0 => mem_cons_of_mem _ (h.forked h0),
    fun hd hx => h.alive hd (hx.of_cons he), fun hd => mem_cons_of_mem _ (h.exited hd),
    fun pid status a hmem => ?_⟩
  rcases mem_cons.mp hmem with rfl | hmem
  · exact he rfl
  · exact h.reaped pid status a hmem

variable {N : ℕ} [NeZero N]

structure History (v : View N) : Prop where
  root : v.id 0 = 0
  active : ∀ p, v.role p ≠ .quiet → v.phase p = .live
  known : ∀ q, v.phase q ≠ .free →
    Known v.nextId v.trace (v.phase q) (v.id q) (v.creator q) (v.pid q) (v.xstate q)
  inj : ∀ q r, v.phase q ≠ .free → v.phase r ≠ .free → v.id q = v.id r → q = r
  past : ∀ e ∈ v.trace, e.id < v.nextId
  child : ∀ p np, v.role p = .child np → v.phase np = .born ∧ v.creator np = v.id p
  parent : ∀ q r, v.parent q = some r → v.creator q = v.id r ∨
    r = 0 ∧ (Exited (v.creator q) v.trace ∨
      ∃ p, v.lock = some p ∧ v.id p = v.creator q ∧ (v.role p).exits = true)
  lawful : LawfulTrace v.trace

namespace History

variable {v v' : View N} {p : Fin N}

theorem roles (h : History v) (hphase : v'.phase = v.phase) (hparent : v'.parent = v.parent)
    (hid : v'.id = v.id) (hcreator : v'.creator = v.creator) (hpid : v'.pid = v.pid)
    (hxstate : v'.xstate = v.xstate) (hnext : v'.nextId = v.nextId) (htrace : v'.trace = v.trace)
    (hactive : ∀ p, v'.role p ≠ .quiet → v.role p = .quiet → v.phase p = .live)
    (hchild : ∀ p np, v'.role p = .child np → v.role p = .child np)
    (hexits : ∀ p, v.lock = some p → (v.role p).exits = true →
      v'.lock = some p ∧ (v'.role p).exits = true) : History v' := by
  obtain ⟨h₁, h₂, h₃, h₄, h₅, h₆, h₇, h₈⟩ := h
  constructor
  all_goals simp only [hphase, hparent, hid, hcreator, hpid, hxstate, hnext, htrace]
  all_goals try assumption
  · grind
  · exact fun p np hp => h₆ p np (hchild p np hp)
  · grind

theorem role {r : Role N} {l : Option (Fin N)} (h : History v) (hp : v.phase p = .live)
    (hr : ∀ np, r ≠ .child np) (hexits : ∀ q, v.lock = some q → (v.role q).exits = true →
      l = some q ∧ (q = p → r.exits = true)) :
    History { v with role := update v.role p r, lock := l } := by
  refine h.roles rfl rfl rfl rfl rfl rfl rfl rfl (fun q hq hquiet => ?_) (fun q np hq => ?_)
    fun q hlock hexit => ?_
  all_goals dsimp only at *
  · grind
  · grind
  · grind

theorem fork {np : Fin N} {pid : Int32} (htree : Tree v) (h : History v)
    (hp : v.phase p = .live) (hrole : v.role p = .quiet) (hnp : v.phase np = .free) :
    History { v with
      phase := update v.phase np .born
      role := update v.role p (.child np)
      id := update v.id np v.nextId
      creator := update v.creator np (v.id p)
      pid := update v.pid np pid
      nextId := v.nextId + 1
      trace := .fork v.nextId pid (v.id p) :: v.trace } := by
  have hused : ∀ q, v.phase q ≠ .free → q ≠ np := by
    rintro q hq rfl
    exact hq hnp
  have hlive : ∀ q, v.phase q = .live → q ≠ np := fun q hq => hused q (by simp [hq])
  have hnew : ∀ e ∈ v.trace, e.id ≠ v.nextId := fun e he => (h.past e he).ne
  have hne : ∀ q, v.phase q ≠ .free → v.nextId ≠ v.id q := fun q hq => (h.known q hq).fresh.ne'
  refine ⟨?_, fun q hq => ?_, fun q hq => ?_, fun q r hq hr heq => ?_, fun e he => ?_,
    fun q c hq => ?_, fun q r hq => ?_, ?_⟩
  all_goals dsimp only at *
  · rw [update_of_ne (hlive 0 htree.root)]
    exact h.root
  · grind [h.active]
  · rcases eq_or_ne q np with rfl | hqn
    · simp only [update_self]
      refine ⟨Nat.lt_succ_self _, fun _ => mem_cons_self, fun _ hx => ?_, by rintro ⟨⟩, ?_⟩
      · obtain ⟨pid', status, he⟩ := hx
        exact hnew _ (by simpa using he) rfl
      · intro pid' status a he
        exact hnew _ (by simpa using he) rfl
    · simp only [update_of_ne hqn] at hq ⊢
      exact (h.known q hq).cons (Nat.le_succ _) (hne q hq)
  · grind [h.inj]
  · rcases mem_cons.mp he with rfl | he
    · exact Nat.lt_succ_self _
    · exact (h.past e he).trans (Nat.lt_succ_self _)
  · grind [h.child, h.active]
  · have htp := htree.parent q r hq
    simp only [update_of_ne (hused q htp.1), update_of_ne (hlive r htp.2)]
    refine (h.parent q r hq).imp_right fun hx => ⟨hx.1, hx.2.imp Exited.cons ?_⟩
    rintro ⟨o, ho, hid, hexit⟩
    have hop : o ≠ p := by
      rintro rfl
      rw [hrole] at hexit
      cases hexit
    have hon : o ≠ np := hlive o (h.active o fun hquiet => by simp [hquiet, Role.exits] at hexit)
    exact ⟨o, ho, by rwa [update_of_ne hon], by rwa [update_of_ne hop]⟩
  · refine ⟨⟨fun pid' c he => hnew _ he rfl, ?_⟩, h.lawful⟩
    exact (h.known p (by simp [hp])).alive (by simp [hp])

theorem link {np : Fin N} (h : History v) (hrole : v.role p = .child np) :
    History { v with parent := update v.parent np (some p) } := by
  obtain ⟨h₁, h₂, h₃, h₄, h₅, h₆, h₇, h₈⟩ := h
  refine ⟨h₁, h₂, h₃, h₄, h₅, h₆, fun q r hq => ?_, h₈⟩
  dsimp only at *
  rcases eq_or_ne q np with rfl | hne
  · rw [update_self] at hq
    cases hq
    exact .inl (h₆ p q hrole).2
  · rw [update_of_ne hne] at hq
    exact h₇ q r hq

theorem start {np : Fin N} (h : History v) (hrole : v.role p = .child np) :
    History { v with
      phase := update v.phase np .live
      role := update v.role p .quiet } := by
  obtain ⟨hborn, hcreator⟩ := h.child p np hrole
  have hfree : ∀ q, update v.phase np .live q ≠ .free → v.phase q ≠ .free := by grind
  refine ⟨h.root, fun q hq => ?_, fun q hq => ?_,
    fun q r hq hr => h.inj q r (hfree q hq) (hfree r hr),
    h.past, fun q c hq => ?_, fun q r hq => ?_, h.lawful⟩
  all_goals dsimp only at *
  · grind [h.active]
  · grind [History, Known]
  · have hqp : q ≠ p := by
      rintro rfl
      simp at hq
    rw [update_of_ne hqp] at hq
    have hc := h.child q c hq
    -- the child of another process is another one
    have hcn : c ≠ np := by grind [History]
    rwa [update_of_ne hcn]
  · refine (h.parent q r hq).imp_right fun ⟨hr, hx⟩ => ⟨hr, hx.imp_right ?_⟩
    rintro ⟨o, ho, hid, hexit⟩
    have hop : o ≠ p := by
      rintro rfl
      rw [hrole] at hexit
      cases hexit
    exact ⟨o, ho, hid, by rwa [update_of_ne hop]⟩

variable (htree : Tree v) (h : History v)
include htree h

theorem adopt {pp : Fin N} (hrole : v.role p = .adopt pp)
    (hpp : v.parent pp = some p) :
    History { v with
      parent := update v.parent pp (some 0)
      role := update v.role p (.wake (some 0) 0 (some (pp + 1))) } := by
  have hp0 : p ≠ 0 := htree.exits p (by rw [hrole]; rfl)
  have hlock := htree.lock p (by rw [hrole]; rfl)
  have hself : ∀ r : Role N, update v.role p r p = r := fun r => update_self ..
  refine ⟨h.root, fun q hq => ?_, h.known, h.inj, h.past, fun q c hq => ?_, fun q r hq => ?_,
    h.lawful⟩
  all_goals dsimp only at *
  · grind [h.active]
  · grind [h.child]
  · rcases eq_or_ne q pp with rfl | hne
    · rw [update_self] at hq
      cases hq
      refine .inr ⟨rfl, .inr ⟨p, hlock, ?_, by rw [hself]; rfl⟩⟩
      exact ((h.parent q p hpp).resolve_right fun hx => hp0 hx.1).symm
    · rw [update_of_ne hne] at hq
      refine (h.parent q r hq).imp_right fun hx => ⟨hx.1, hx.2.imp_right ?_⟩
      rintro ⟨o, ho, hid, -⟩
      obtain rfl : o = p := Option.some.inj (ho.symm.trans hlock)
      exact ⟨o, ho, hid, by rw [hself]; rfl⟩

theorem die {status : Int32} (hrole : v.role p = .die)
    (hp : v.phase p = .live) :
    History { v with
      phase := update v.phase p .dead
      xstate := update v.xstate p status
      role := update v.role p .quiet
      lock := none
      trace := .exit (v.id p) (v.pid p) status :: v.trace } := by
  have hlock := htree.lock p (by rw [hrole]; rfl)
  have hk := h.known p (by simp [hp])
  have hfree : ∀ q, update v.phase p .dead q ≠ .free → v.phase q ≠ .free := by grind
  refine ⟨h.root, fun q hq => ?_, fun q hq => ?_,
    fun q r hq hr => h.inj q r (hfree q hq) (hfree r hr),
    fun e he => ?_, fun q c hq => ?_, fun q r hq => ?_, ⟨hk.alive (by simp [hp]), h.lawful⟩⟩
  all_goals dsimp only at *
  · grind [h.active]
  · rcases eq_or_ne q p with rfl | hqp
    · grind [Known]
    · have hq' := hfree q hq
      simp only [update_of_ne hqp]
      refine (h.known q hq').cons le_rfl fun heq => hqp ?_
      exact h.inj q p hq' (by simp [hp]) heq.symm
  · rcases mem_cons.mp he with rfl | he
    · exact hk.fresh
    · exact h.past e he
  · grind [h.child]
  · grind [h.parent, Exited]

theorem reap {pp : Fin N} (hrole : v.role p = .scan pp)
    (hparent : v.parent pp = some p) (hpp : v.phase pp = .dead) :
    History { v with
      phase := update v.phase pp .free
      parent := update v.parent pp none
      pid := update v.pid pp 0
      xstate := update v.xstate pp 0
      role := update v.role p .quiet
      lock := none
      trace := .reap (v.id pp) (v.pid pp) (v.xstate pp) (v.id p) :: v.trace } := by
  have hlock := htree.lock p (by rw [hrole]; rfl)
  have hk := h.known pp (by simp [hpp])
  have hp := h.active p (by simp [hrole])
  have hne : ∀ q, update v.phase pp .free q ≠ .free → q ≠ pp := by grind
  have hpp0 : v.id pp ≠ 0 := by grind [h.root, htree.root, h.inj]
  -- nobody is in `exit` now
  have hexit : ∀ o, v.lock = some o → (v.role o).exits ≠ true := by
    intro o ho hx
    rw [Option.some.inj (ho.symm.trans hlock), hrole] at hx
    cases hx
  have hreaper : ∃ c, Event.fork (v.id pp) (v.pid pp) c ∈ v.trace ∧
      (v.id p = c ∧ ¬Exited c v.trace ∨ v.id p = 0 ∧ Exited c v.trace) := by grind [History, Known]
  refine ⟨h.root, fun q hq => ?_, fun q hq => ?_, fun q r hq hr heq => ?_,
    fun e he => ?_, fun q c hq => ?_, fun q r hq => ?_,
    ⟨⟨hk.reaped, hk.exited hpp, hreaper⟩, h.lawful⟩⟩
  all_goals dsimp only at *
  · grind [h.active]
  · have hqn := hne q hq
    simp only [update_of_ne hqn] at hq ⊢
    refine (h.known q hq).cons le_rfl fun heq => hqn ?_
    exact h.inj q pp hq (by simp [hpp]) heq.symm
  · grind [h.inj]
  · rcases mem_cons.mp he with rfl | he
    · exact hk.fresh
    · exact h.past e he
  · grind [h.child]
  · have hqn : q ≠ pp := by
      rintro rfl
      simp at hq
    rw [update_of_ne hqn] at hq
    refine (h.parent q r hq).imp_right fun hr => ⟨hr.1, .inl ?_⟩
    rcases hr.2 with hx | ⟨o, ho, -, hx⟩
    · exact hx.cons
    · exact absurd hx (hexit o ho)

theorem step (hs : VStep v v') : History v' := by
  have hkeep : ∀ {p : Fin N} {r : Role N}, v.role p ≠ .quiet → (∀ np, r ≠ .child np) →
      ((v.role p).exits = true → r.exits = true) →
      History { v with role := update v.role p r } := by
    intro p r hp hr hexits
    refine h.role (h.active p hp) hr fun q hq hx => ⟨hq, ?_⟩
    rintro rfl
    exact hexits hx
  -- the process that gives up the lock is not in `exit`
  have hrelease : ∀ {p : Fin N} {j : ℕ} {r : Role N}, v.role p = .scan j →
      (∀ np, r ≠ .child np) →
      History { v with role := update v.role p r, lock := none } := by
    intro p j r hrole hr
    have hlock := htree.lock p (by rw [hrole]; rfl)
    refine h.role (h.active p (by simp [hrole])) hr fun q hq hx => ?_
    rw [Option.some.inj (hq.symm.trans hlock), hrole] at hx
    cases hx
  cases hs with
  | stutter => exact h
  | @calm q hq => exact hkeep (by simp [hq]) (by rintro _ ⟨⟩) (by simp [hq, Role.exits])
  | fork hp hrole hnp => exact h.fork htree hp hrole hnp
  | link hp hrole hnp hlock => exact h.link hrole
  | start hrole hnp => exact h.start hrole
  | exit hp h0 hrole hlock | wait hp hrole hlock =>
    exact h.role hp (by rintro _ ⟨⟩) (by simp [hlock])
  | pass hrole hpp | adopted hrole hj | skip hrole hq | woken hrole hi | last hrole hi =>
    exact hkeep (by simp [hrole]) (by rintro _ ⟨⟩) fun _ => rfl
  | adopt hrole hpp => exact h.adopt htree hrole hpp
  | @wake p q c next hrole hne hq =>
    refine h.roles rfl rfl rfl rfl rfl rfl rfl rfl (fun a ha hquiet => ?_) (fun a np ha => ?_)
      fun a ha hx => ⟨ha, ?_⟩
    all_goals dsimp only at *
    · grind
    · grind
    · rcases eq_or_ne a p with rfl | hap
      · rw [update_self]
        rfl
      · rw [Option.some.inj (ha.symm.trans (htree.lock p (by rw [hrole]; rfl)))] at hap
        exact absurd rfl hap
  | die hrole hp => exact h.die htree hrole hp
  | scan hrole hpp | scanned hrole hj => grind [Role.exits]
  | reap hrole hparent hpp => exact h.reap htree hrole hparent hpp
  | leave hrole | doze hrole => exact hrelease hrole (by rintro _ ⟨⟩)

end History

end Xv6.Ptable
