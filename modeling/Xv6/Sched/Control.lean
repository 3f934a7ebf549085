import Xv6.Sched.Step

/-!
Where processes are and which locks they hold.

What a process still has to do tells the process lock that it holds (`has`), and
whether it is on its way into the scheduler (`off`).
-/

namespace Xv6.Sched

open Ptable (State Chan Slot)
open Sys
open Function (update update_self update_of_ne)

variable {M N L : ℕ} {σ κ ι : Type}
variable {p : Fin N} {s : Sys M N L σ κ} {c : Fin M}

def Lock.slot : Lock N L → Option (Fin N)
  | .proc p => some p
  | _ => none

theorem Lock.eq_proc {l : Lock N L} (h : l.slot = some p) : l = .proc p := by
  cases l with
  | proc q =>
    cases h
    rfl
  | _ => cases h

def Loop.has : Loop N → Option (Fin N)
  | .scan _ => none
  | .test p => some p
  | .switched p => some p
  | .next p => some p

namespace Pc

variable {x : Pc N L κ} {p : Fin N}

def has (p : Fin N) : Pc N L κ → Option (Fin N)
  | .acquire l x => if l.slot.isSome then none else x.has p
  | .release l x => l.slot.or (x.has p)
  | .yield _ => some p
  | .swtch _ => some p
  | .sleep _ _ _ => some p
  | .woken _ _ _ => some p
  | .rouse _ j _ => some j
  | .hit _ j _ _ => some j
  | .killed _ _ => some p
  | .found j _ => some j
  | .allocpid j _ => some j
  | .setup j _ => some j
  | .ready j _ => some j
  | .zombie => some p
  | .dead => some p
  | .reap j _ => some j
  | _ => none

/-- The process has changed its state and is about to leave the CPU. -/
def off : Pc N L κ → Bool
  | .release l x => l.slot.isNone && x.off
  | .swtch _ => true
  | _ => false

/-- The channel that the process sleeps on, or did until it runs again. -/
def chan : Pc N L κ → Option (Chan N)
  | .swtch x => x.chan
  | .woken c _ _ => some c
  | _ => none

/-- The new process that a process sets up in `fork`, and its state meanwhile. -/
def child : Pc N L κ → Option (Fin N × State)
  | .acquire _ x => x.child
  | .release _ x => x.child
  | .yield x => x.child
  | .swtch x => x.child
  | .allocpid j _ => some (j, .unused)
  | .setup j _ => some (j, .unused)
  | .setParent j _ => some (j, .used)
  | .ready j _ => some (j, .used)
  | _ => none

/-- What follows goes with the locks held before it. -/
def Ok (p : Fin N) : Pc N L κ → Prop
  | .code _ => True
  | .acquire l x => (∀ j, l.slot = some j → x.has p = some j ∧ ∀ i, x.child ≠ some (i, .unused)) ∧
      x.off = false ∧ x.chan = none ∧ x.Ok p
  | .release l x => (l.slot.isSome → x.has p = none) ∧ x.chan = none ∧ x.Ok p
  | .yield x => x.has p = none ∧ x.Ok p
  | .swtch x => x.has p = some p ∧ x.off = false ∧ x.Ok p
  | .sleep _ l x => l.slot = none ∧ x.has p = none ∧ x.child = none ∧ x.Ok p
  | .woken _ l x => l.slot = none ∧ x.has p = none ∧ x.child = none ∧ x.Ok p
  | .wakeup _ _ x => x.has p = none ∧ x.child = none ∧ x.Ok p
  | .rouse _ _ x => x.has p = none ∧ x.child = none ∧ x.Ok p
  | .kill _ _ x y => (x.has p = none ∧ x.child = none ∧ x.Ok p) ∧
      y.has p = none ∧ y.child = none ∧ y.Ok p
  | .hit _ _ x y => (x.has p = none ∧ x.child = none ∧ x.Ok p) ∧
      y.has p = none ∧ y.child = none ∧ y.Ok p
  | .killed x y => (x.has p = none ∧ x.child = none ∧ x.Ok p) ∧
      y.has p = none ∧ y.child = none ∧ y.Ok p
  | .alloc _ x => x.has p = none ∧ x.child = none ∧ x.Ok p
  | .found _ x => x.has p = none ∧ x.child = none ∧ x.Ok p
  | .allocpid _ x => x.has p = none ∧ x.child = none ∧ x.Ok p
  | .setup _ x => x.has p = none ∧ x.child = none ∧ x.Ok p
  | .setParent _ x => x.has p = none ∧ x.child = none ∧ x.Ok p
  | .ready _ x => x.has p = none ∧ x.child = none ∧ x.Ok p
  | .reparent _ => True
  | .zombie => True
  | .dead => True
  | .scan _ _ x => x.has p = none ∧ x.child = none ∧ x.Ok p
  | .reap _ x => x.has p = none ∧ x.child = none ∧ x.Ok p

theorem has_of_off (h : x.off = true) : x.has p = some p := by
  induction x with
  | release l x ih => grind [off, Option.isNone_iff_eq_none, has]
  | swtch x => rfl
  | _ => cases h

theorem off_of_has (h : x.has p = none) : x.off = false := by
  rw [Bool.eq_false_iff]
  intro hoff
  exact nomatch h.symm.trans (has_of_off hoff)

theorem has_of_chan {c : Chan N} (h : x.chan = some c) : x.has p = some p := by
  cases x with
  | swtch x | woken c l x => rfl
  | _ => cases h

theorem chan_of_has (h : x.has p = none) : x.chan = none := by
  cases hc : x.chan with
  | none => rfl
  | some c => exact nomatch h.symm.trans (has_of_chan hc)

theorem child_state {j : Fin N} {t : State} (h : x.child = some (j, t)) :
    t = .unused ∨ t = .used := by
  induction x with
  | acquire l x ih | release l x ih | yield x ih | swtch x ih => exact ih h
  | allocpid j x | setup j x =>
    cases h
    exact .inl rfl
  | setParent j x | ready j x =>
    cases h
    exact .inr rfl
  | _ => cases h

theorem has_of_child {j : Fin N} (hok : x.Ok p) (h : x.child = some (j, .unused)) :
    x.has p = some j := by
  induction x with
  | acquire l x ih =>
    rw [has]
    cases hslot : l.slot with
    | none => exact ih hok.2.2.2 h
    | some i => exact absurd h ((hok.1 i hslot).2 j)
  | release l x ih =>
    have hx := ih hok.2.2 h
    rw [has]
    cases hslot : l.slot with
    | none => exact hx
    | some i => exact nomatch (hok.1 (by rw [hslot]; rfl)).symm.trans hx
  | yield x ih => exact nomatch hok.1.symm.trans (ih hok.2 h)
  | swtch x ih => exact hok.1.symm.trans (ih hok.2.2 h)
  | allocpid i x | setup i x =>
    cases h
    rfl
  | _ => cases h

theorem callSleep_ok {c : Chan N} {l : Lock N L} (hl : l.slot = none) (hx : x.has p = none)
    (hchild : x.child = none) (hok : x.Ok p) : (Pc.callSleep p c l x).Ok p := by
  refine ⟨fun j hj => ?_, Bool.and_false _, rfl, ?_, rfl, hl, hx, hchild, hok⟩
  · cases hj
    exact ⟨by rw [has, hl]; rfl, nofun⟩
  · rw [hl]
    nofun

end Pc

theorem Op.start_ok (op : Op N L κ) (p : Fin N) :
    (op.start p).Ok p ∧ (op.start p).has p = none ∧ (op.start p).child = none := by
  cases op with
  | goto k => exact ⟨trivial, rfl, rfl⟩
  | acquire l k | exit => exact ⟨⟨nofun, rfl, rfl, trivial⟩, rfl, rfl⟩
  | release l k => exact ⟨⟨nofun, rfl, trivial⟩, rfl, rfl⟩
  | sleep c l k => exact ⟨Pc.callSleep_ok rfl rfl rfl trivial, rfl, rfl⟩
  | wakeup c k | fork k => exact ⟨⟨rfl, rfl, trivial⟩, rfl, rfl⟩
  | killed k k' =>
    exact ⟨⟨fun j hj => ⟨hj, nofun⟩, rfl, rfl, ⟨rfl, rfl, trivial⟩, rfl, rfl, trivial⟩, rfl, rfl⟩
  | kill pid k k' => exact ⟨⟨⟨rfl, rfl, trivial⟩, rfl, rfl, trivial⟩, rfl, rfl⟩
  | wait k => exact ⟨⟨nofun, rfl, rfl, rfl, rfl, trivial⟩, rfl, rfl⟩

theorem Jump.ok {x y : Pc N L κ} (h : Jump s p x y) (hx : x.Ok p) :
    y.Ok p ∧ y.has p = x.has p ∧ x.off = false ∧ y.off = false ∧
      ∀ j t, y.child = some (j, t) →
        t = .unused ∧ (s.proc j).state = .unused ∧ x.has p = some j := by
  cases h with
  | wakeupSelf | scanNext => exact ⟨hx, rfl, rfl, rfl, nofun⟩
  | wakeup hj | kill | alloc | child =>
    exact ⟨⟨fun i hi => ⟨hi, nofun⟩, rfl, rfl, hx⟩, rfl, rfl, rfl, nofun⟩
  | wakeupEnd hj | allocEnd hj =>
    exact ⟨hx.2.2, hx.1, rfl, Pc.off_of_has hx.1, fun j t ht => nomatch hx.2.1.symm.trans ht⟩
  | killEnd hj =>
    exact ⟨hx.2.2.2, hx.2.1, rfl, Pc.off_of_has hx.2.1,
      fun j t ht => nomatch hx.2.2.1.symm.trans ht⟩
  | miss | inUse | alive => exact ⟨⟨fun _ => rfl, rfl, hx⟩, rfl, rfl, rfl, nofun⟩
  | killed =>
    exact ⟨⟨fun _ => hx.1.1, Pc.chan_of_has hx.1.1, hx.1.2.2⟩, rfl, rfl, rfl,
      fun j t ht => nomatch hx.1.2.1.symm.trans ht⟩
  | notKilled =>
    exact ⟨⟨fun _ => hx.2.1, Pc.chan_of_has hx.2.1, hx.2.2.2⟩, rfl, rfl, rfl,
      fun j t ht => nomatch hx.2.2.1.symm.trans ht⟩
  | found hstate =>
    refine ⟨⟨nofun, rfl, rfl, hx⟩, rfl, rfl, rfl, fun j t ht => ?_⟩
    cases ht
    exact ⟨rfl, hstate, rfl⟩
  | reparentNext => exact ⟨trivial, rfl, rfl, rfl, nofun⟩
  | reparentEnd =>
    exact ⟨⟨rfl, rfl, fun i hi => ⟨hi, nofun⟩, rfl, rfl, trivial⟩, rfl, rfl, rfl, nofun⟩
  | kids =>
    exact ⟨⟨fun i hi => ⟨hi, nofun⟩, rfl, rfl,
      ⟨hx.1, hx.2.1, nofun, Pc.chan_of_has hx.1, hx.2.2⟩, rfl, rfl,
      Pc.callSleep_ok rfl rfl rfl hx⟩, rfl, rfl, rfl, nofun⟩
  | noKids =>
    exact ⟨⟨nofun, Pc.chan_of_has hx.1, hx.2.2⟩, hx.1, rfl, Pc.off_of_has hx.1,
      fun j t ht => nomatch hx.2.1.symm.trans ht⟩
  | copyoutFails =>
    exact ⟨⟨fun _ => hx.1, rfl, nofun, Pc.chan_of_has hx.1, hx.2.2⟩, rfl, rfl, rfl,
      fun j t ht => nomatch hx.2.1.symm.trans ht⟩

/-! ### Locks -/

section Locks

variable {lock : Lock N L → Option (Fin M)} {has has' : Fin M → Option (Fin N)} {c : Fin M}
  {l : Lock N L}

theorem holds_take (h : ∀ c p, lock (.proc p) = some c ↔ has c = some p) (hfree : lock l = none)
    (hother : ∀ c', c' ≠ c → has' c' = has c')
    (hc : ∀ j, l.slot = some j → has c = none ∧ has' c = some j)
    (hn : l.slot = none → has' c = has c) (c' : Fin M) (p : Fin N) :
    update lock l (some c) (.proc p) = some c' ↔ has' c' = some p := by
  by_cases hl : l = .proc p
  · subst hl
    by_cases hne : c' = c
    · rw [hne, (hc p rfl).2]
      simp
    · rw [hother c' hne, ← h c' p, hfree]
      simp [Ne.symm hne]
  · rw [update_of_ne (Ne.symm hl), h c' p]
    by_cases hne : c' = c
    · subst hne
      cases hslot : l.slot with
      | none => rw [hn hslot]
      | some j => grind [Lock.eq_proc]
    · rw [hother c' hne]

theorem holds_drop (h : ∀ c p, lock (.proc p) = some c ↔ has c = some p)
    (hheld : lock l = some c) (hother : ∀ c', c' ≠ c → has' c' = has c')
    (hc : l.slot.isSome → has' c = none) (hn : l.slot = none → has' c = has c) (c' : Fin M)
    (p : Fin N) : update lock l none (.proc p) = some c' ↔ has' c' = some p := by
  by_cases hl : l = .proc p
  · subst hl
    by_cases hne : c' = c
    · rw [hne, hc rfl]
      simp
    · rw [hother c' hne, ← h c' p, hheld]
      simp [Ne.symm hne]
  · rw [update_of_ne (Ne.symm hl), h c' p]
    by_cases hne : c' = c
    · subst hne
      cases hslot : l.slot with
      | none => rw [hn hslot]
      | some j =>
        have hl' := Lock.eq_proc hslot
        rw [hc (by rw [hslot]; rfl), (h c' j).mp (hl' ▸ hheld)]
        have hjp : j ≠ p := fun heq => hl (heq ▸ hl')
        simp [hjp]
    · rw [hother c' hne]

theorem noff_take {noff : Fin M → ℕ} (h : ∀ c, noff c = cnt Finset.univ lock (some c))
    (hfree : lock l = none) (c' : Fin M) :
    (if c' = c then noff c + 1 else noff c') =
      cnt Finset.univ (update lock l (some c)) (some c') := by
  have hcnt := cnt_update lock (Finset.mem_univ l) (some c) (some c')
  by_cases hne : c' = c
  · grind
  · grind

theorem noff_drop {noff : Fin M → ℕ} (h : ∀ c, noff c = cnt Finset.univ lock (some c))
    (hheld : lock l = some c) (c' : Fin M) :
    (if c' = c then noff c - 1 else noff c') =
      cnt Finset.univ (update lock l none) (some c') := by
  have hcnt := cnt_update lock (Finset.mem_univ l) none (some c')
  by_cases hne : c' = c
  · grind
  · grind

end Locks

theorem noff_update {cpu : Fin M → Cpu N} {x : Cpu N} (c' : Fin M) :
    (update cpu c x c').noff = if c' = c then x.noff else (cpu c').noff := by
  rw [Function.update_apply]
  split_ifs <;> rfl

/-! ### The invariant -/

def Sys.has (s : Sys M N L σ κ) (c : Fin M) : Option (Fin N) :=
  match (s.cpu c).stack with
  | none => (s.cpu c).pc.has
  | some p => (s.pc p).has p

theorem goto_pc_self (s : Sys M N L σ κ) (p : Fin N) (x : Pc N L κ) : (s.goto p x).pc p = x :=
  update_self ..

theorem has_of_stack (h : (s.cpu c).stack = some p) : s.has c = (s.pc p).has p := by
  rw [Sys.has, h]

theorem has_of_none (h : (s.cpu c).stack = none) : s.has c = (s.cpu c).pc.has := by
  rw [Sys.has, h]

/-- Processes are on at most one CPU, their state says whether they run, and the
locks are held as the code says. -/
structure Inv (s : Sys M N L σ κ) : Prop where
  ok : ∀ p, (s.pc p).Ok p
  proc : ∀ c p, (s.cpu c).proc = some p ↔ (s.cpu c).pc = .switched p
  on : ∀ c p, (s.cpu c).stack = some p → (s.cpu c).pc = .switched p
  uniq : ∀ c c' p, (s.cpu c).pc = .switched p → (s.cpu c').pc = .switched p → c = c'
  lock : ∀ c p, s.lock (.proc p) = some c ↔ s.has c = some p
  noff : ∀ c, (s.cpu c).noff = cnt Finset.univ s.lock (some c)
  run : ∀ p, (s.proc p).state = .running ↔
    ∃ c, (s.cpu c).stack = some p ∧ (s.pc p).off = false
  park : ∀ p, (s.proc p).state ≠ .unused → (∀ c, (s.cpu c).stack ≠ some p) →
    (s.pc p).has p = some p ∧ (s.pc p).off = false
  live : ∀ c p, (s.cpu c).stack = some p → (s.proc p).state ≠ .unused
  child : ∀ p j t, (s.proc p).state ≠ .unused → (s.pc p).child = some (j, t) →
    (s.proc j).state = t
  parent : ∀ p q j t t', (s.proc p).state ≠ .unused → (s.proc q).state ≠ .unused →
    (s.pc p).child = some (j, t) → (s.pc q).child = some (j, t') → p = q

namespace Inv

variable {s s' : Sys M N L σ κ} {c : Fin M} {p : Fin N} {x y : Pc N L κ}

variable (h : Inv s)
variable {j : Fin N} {c' : Fin M}
include h

theorem stack_uniq (hc : (s.cpu c).stack = some p) (hc' : (s.cpu c').stack = some p) : c' = c :=
  h.uniq c' c p (h.on c' p hc') (h.on c p hc)

theorem running (hc : (s.cpu c).stack = some p) (hoff : (s.pc p).off = false) :
    (s.proc p).state = .running :=
  (h.run p).mpr ⟨c, hc, hoff⟩

theorem not_on (hc : (s.cpu c).stack = some p) (hhas : (s.pc p).has p = some j)
    (hj : (s.proc j).state ≠ .running) (hjp : j ≠ p) : (s.cpu c').pc ≠ .switched j := by
  intro hc'
  have hlock := (h.lock c j).mpr (by rw [has_of_stack hc, hhas])
  have hself : s.has c' = some j → False := by grind [Inv]
  cases hst : (s.cpu c').stack with
  | none => exact hself (by rw [has_of_none hst, hc']; rfl)
  | some q => grind [Inv, has_of_stack, Pc.has_of_off]

theorem child_ne {q : Fin N} {t : State} (hq : (s.proc q).state ≠ .unused)
    (hc : (s.pc q).child = some (j, t)) (hj : (s.proc j).state ≠ .unused) :
    (s.proc j).state = .used := by
  have := h.child q j t hq hc
  rcases Pc.child_state hc with rfl | rfl
  · exact absurd this hj
  · exact this

theorem frame (hc : (s.cpu c).stack = some p) (hstack : ∀ c', (s'.cpu c').stack = (s.cpu c').stack)
    (hloop : ∀ c', (s'.cpu c').pc = (s.cpu c').pc)
    (hproc : ∀ c', (s'.cpu c').proc = (s.cpu c').proc)
    (hlock : ∀ c' q, s'.lock (.proc q) = some c' ↔ s'.has c' = some q)
    (hnoff : ∀ c', (s'.cpu c').noff = cnt Finset.univ s'.lock (some c'))
    (hpc : s'.pc = update s.pc p y) (hstate : ∀ j, (s'.proc j).state = (s.proc j).state)
    (hok : y.Ok p) (hoff : y.off = (s.pc p).off)
    (hchild : ∀ j t, y.child = some (j, t) → (s.pc p).child = some (j, t) ∨
      (s.proc j).state = t ∧ ∀ q t', (s.proc q).state ≠ .unused →
        (s.pc q).child = some (j, t') → q = p) : Inv s' := by
  have hself : s'.pc p = y := by rw [hpc, update_self]
  have hother : ∀ q, q ≠ p → s'.pc q = s.pc q := fun q hq => by
    rw [hpc, update_of_ne hq]
  have hpoff : ∀ q, (s'.pc q).off = (s.pc q).off := fun q => by
    rcases eq_or_ne q p with rfl | hq
    · rw [hself, hoff]
    · rw [hother q hq]
  refine ⟨fun q => ?_, ?_, ?_, ?_, hlock, hnoff, fun q => ?_, fun q => ?_, ?_,
    fun q j t hq hj => ?_, fun q r j t t' hq hr hj hj' => ?_⟩
  · grind [h.ok]
  · simp only [hproc, hloop]
    exact h.proc
  · simp only [hstack, hloop]
    exact h.on
  · simp only [hloop]
    exact h.uniq
  · simp only [hstate, hstack, hpoff]
    exact h.run q
  · grind [h.park]
  · simp only [hstate, hstack]
    exact h.live
  · grind [h.child]
  · rw [hstate] at hq hr
    -- another process with the same child would have been there before
    have key : ∀ q, q ≠ p → (s.proc q).state ≠ .unused → ∀ t t', (s'.pc q).child = some (j, t) →
        y.child = some (j, t') → q = p := by
      intro q hne hq t t' hj hy
      rw [hother q hne] at hj
      rcases hchild j t' hy with hp | ⟨-, hp⟩
      · exact h.parent q p j t t' hq (h.live c p hc) hj hp
      · exact hp q t hq hj
    by_cases hqp : q = p
    · grind
    · by_cases hrp : r = p
      · rw [hrp, hself] at hj'
        exact absurd (key q hqp hq t t' hj hj') hqp
      · rw [hother q hqp] at hj
        rw [hother r hrp] at hj'
        exact h.parent q r j t t' hq hr hj hj'

theorem has_other (hc : (s.cpu c).stack = some p) (hne : c' ≠ c)
    (hstack : (s'.cpu c').stack = (s.cpu c').stack) (hloop : (s'.cpu c').pc = (s.cpu c').pc)
    (hpc : ∀ q, q ≠ p → (∃ c, (s.cpu c).stack = some q) → s'.pc q = s.pc q) :
    s'.has c' = s.has c' := by
  unfold Sys.has
  rw [hstack, hloop]
  split
  · rfl
  · rename_i q hq
    have hqp : q ≠ p := fun heq => hne (h.stack_uniq hc (heq ▸ hq))
    rw [hpc q hqp ⟨c', hq⟩]

theorem has_move (hc : (s.cpu c).stack = some p) (hcpu : s'.cpu = s.cpu)
    (hpc : s'.pc = update s.pc p y) (hhas : y.has p = (s.pc p).has p) (c' : Fin M) :
    s'.has c' = s.has c' := by
  by_cases hne : c' = c
  · rw [hne, has_of_stack (by rw [hcpu, hc] : (s'.cpu c).stack = some p), has_of_stack hc, hpc,
      update_self, hhas]
  · grind [congrFun hpc, h.has_other]

theorem move (hc : (s.cpu c).stack = some p) (hcpu : s'.cpu = s.cpu) (hlock : s'.lock = s.lock)
    (hpc : s'.pc = update s.pc p y) (hstate : ∀ j, (s'.proc j).state = (s.proc j).state)
    (hok : y.Ok p) (hhas : y.has p = (s.pc p).has p) (hoff : y.off = (s.pc p).off)
    (hchild : ∀ j t, y.child = some (j, t) → (s.pc p).child = some (j, t) ∨
      (s.proc j).state = t ∧ ∀ q t', (s.proc q).state ≠ .unused →
        (s.pc q).child = some (j, t') → q = p) : Inv s' := by
  refine h.frame hc (by simp [hcpu]) (by simp [hcpu]) (by simp [hcpu]) (fun c' q => ?_)
    (fun c' => ?_) hpc hstate hok hoff hchild
  · rw [hlock, h.has_move hc hcpu hpc hhas]
    exact h.lock c' q
  · rw [hcpu, hlock]
    exact h.noff c'

theorem take {l : Lock N L} (hc : (s.cpu c).stack = some p)
    (hpc : s.pc p = .acquire l x) (hfree : s.lock l = none) : Inv ((s.take c l).goto p x) := by
  have hok : (Pc.acquire l x).Ok p := hpc ▸ h.ok p
  have hstack (c' : Fin M) : (((s.take c l).goto p x).cpu c').stack = (s.cpu c').stack :=
    update_proj Cpu.stack rfl
  have hloop (c' : Fin M) : (((s.take c l).goto p x).cpu c').pc = (s.cpu c').pc :=
    update_proj Cpu.pc rfl
  have hhas : s.has c = if l.slot.isSome then none else x.has p := by
    rw [has_of_stack hc, hpc, Pc.has]
  have hhas' : ((s.take c l).goto p x).has c = x.has p := by grind [has_of_stack, goto_pc_self]
  refine h.frame hc hstack hloop (fun _ => update_proj Cpu.proc rfl)
    (holds_take h.lock hfree (fun c' hne => ?_) (fun j hj => ⟨?_, ?_⟩) fun hn => ?_)
    (fun c' => ?_) rfl (fun _ => rfl) hok.2.2.2 (by rw [hpc, hok.2.1]; rfl) fun j t ht => .inl ?_
  · exact h.has_other hc hne (hstack c') (hloop c') fun r hr _ => update_of_ne hr ..
  · rw [hhas, hj]
    rfl
  · rw [hhas', (hok.1 j hj).1]
  · rw [hhas, hhas', hn]
    rfl
  · exact (noff_update c').trans (noff_take h.noff hfree c')
  · rw [hpc]
    exact ht

theorem drop {l : Lock N L} (hc : (s.cpu c).stack = some p)
    (hpc : s.pc p = .release l x) (hheld : s.lock l = some c) : Inv ((s.drop c l).goto p x) := by
  have hok : (Pc.release l x).Ok p := hpc ▸ h.ok p
  have hstack (c' : Fin M) : (((s.drop c l).goto p x).cpu c').stack = (s.cpu c').stack :=
    update_proj Cpu.stack rfl
  have hloop (c' : Fin M) : (((s.drop c l).goto p x).cpu c').pc = (s.cpu c').pc :=
    update_proj Cpu.pc rfl
  have hhas : s.has c = l.slot.or (x.has p) := by rw [has_of_stack hc, hpc, Pc.has]
  have hhas' : ((s.drop c l).goto p x).has c = x.has p := by grind [has_of_stack, goto_pc_self]
  refine h.frame hc hstack hloop (fun _ => update_proj Cpu.proc rfl)
    (holds_drop h.lock hheld (fun c' hne => ?_) (fun hj => ?_) fun hn => ?_)
    (fun c' => ?_) rfl (fun _ => rfl) hok.2.2 ?_ fun j t ht => .inl ?_
  · exact h.has_other hc hne (hstack c') (hloop c') fun r hr _ => update_of_ne hr ..
  · rw [hhas', hok.1 hj]
  · rw [hhas, hhas', hn, Option.none_or]
  · exact (noff_update c').trans (noff_drop h.noff hheld c')
  · rw [hpc, Pc.off]
    cases hslot : l.slot with
    | none => simp
    | some j => simp [Pc.off_of_has (hok.1 (by rw [hslot]; rfl))]
  · rw [hpc]
    exact ht

theorem leave (hc : (s.cpu c).stack = some p) (hcpu : s'.cpu = s.cpu) (hlock : s'.lock = s.lock)
    (hpc : s'.pc = update s.pc p y) (hstate : ∀ j, j ≠ p → (s'.proc j).state = (s.proc j).state)
    (hrunning : (s'.proc p).state ≠ .running) (hunused : (s'.proc p).state ≠ .unused) (hok : y.Ok p)
    (hhas : y.has p = (s.pc p).has p) (hoff : (s.pc p).off = false) (hoff' : y.off = true)
    (hchild : y.child = (s.pc p).child) : Inv s' := by
  have hother : ∀ q, q ≠ p → s'.pc q = s.pc q := fun q hq => by
    rw [hpc, update_of_ne hq]
  have hself : s'.pc p = y := by rw [hpc, update_self]
  have hlive : ∀ q, (s'.proc q).state ≠ .unused → (s.proc q).state ≠ .unused := fun q hq => by
    by_cases hqp : q = p
    · rw [hqp]
      exact h.live c p hc
    · rwa [← hstate q hqp]
  have hchild' : ∀ q, (s'.pc q).child = (s.pc q).child := fun q => by
    by_cases hqp : q = p
    · rw [hqp, hself, hchild]
    · rw [hother q hqp]
  refine ⟨fun q => ?_, ?_, ?_, ?_, fun c' q => ?_, fun c' => ?_, fun q => ?_, fun q hq hnot => ?_,
    fun c' q hq => ?_, fun q j t hq hj => ?_, fun q r j t t' hq hr hj hj' => ?_⟩
  · grind [h.ok]
  · rw [hcpu]
    exact h.proc
  · rw [hcpu]
    exact h.on
  · rw [hcpu]
    exact h.uniq
  · rw [hlock, h.has_move hc hcpu hpc hhas]
    exact h.lock c' q
  · rw [hcpu, hlock]
    exact h.noff c'
  · by_cases hqp : q = p
    · rw [hqp, hself, hoff']
      simp [hrunning]
    · rw [hstate q hqp, hother q hqp, hcpu]
      exact h.run q
  · rw [hcpu] at hnot
    have hqp : q ≠ p := fun heq => hnot c (heq ▸ hc)
    rw [hother q hqp]
    exact h.park q (hlive q hq) hnot
  · by_cases hqp : q = p
    · rwa [hqp]
    · rw [hcpu] at hq
      rw [hstate q hqp]
      exact h.live c' q hq
  · rw [hchild'] at hj
    have hst := h.child q j t (hlive q hq) hj
    by_cases hjp : j = p
    · -- nobody sets up a process that runs
      rw [hjp, h.running hc hoff] at hst
      rcases Pc.child_state hj with rfl | rfl <;> cases hst
    · rwa [hstate j hjp]
  · grind [h.parent]

theorem shift (hc : (s.cpu c).stack = some p) (hcpu : s'.cpu = s.cpu) (hlock : s'.lock = s.lock)
    (hpc : s'.pc = update s.pc p y) (hjp : j ≠ p) (hhas' : (s.pc p).has p = some j)
    (hstate : ∀ i, i ≠ j → (s'.proc i).state = (s.proc i).state)
    (hrunning : (s.proc j).state ≠ .running) (hunused : (s.proc j).state ≠ .unused)
    (hrunning' : (s'.proc j).state ≠ .running) (hok : y.Ok p) (hhas : y.has p = (s.pc p).has p)
    (hoff : y.off = (s.pc p).off)
    (hchild : ∀ i t, y.child = some (i, t) → i ≠ j ∧ (s.pc p).child = some (i, t))
    (hnobody : ∀ q t, q ≠ p → (s.proc q).state ≠ .unused → (s.pc q).child ≠ some (j, t)) :
    Inv s' := by
  have hother : ∀ q, q ≠ p → s'.pc q = s.pc q := fun q hq => by
    rw [hpc, update_of_ne hq]
  have hself : s'.pc p = y := by rw [hpc, update_self]
  have hnot (c' : Fin M) : (s.cpu c').stack ≠ some j := fun hst =>
    h.not_on hc hhas' hrunning hjp (h.on c' j hst)
  have hlive : ∀ q, (s'.proc q).state ≠ .unused → (s.proc q).state ≠ .unused := fun q hq => by
    by_cases hqj : q = j
    · rwa [hqj]
    · rwa [← hstate q hqj]
  refine ⟨fun q => ?_, ?_, ?_, ?_, fun c' q => ?_, fun c' => ?_, fun q => ?_, fun q hq hst => ?_,
    fun c' q hq => ?_, fun q i t hq hi => ?_, fun q r i t t' hq hr hi hi' => ?_⟩
  · grind [h.ok]
  · rw [hcpu]
    exact h.proc
  · rw [hcpu]
    exact h.on
  · rw [hcpu]
    exact h.uniq
  · rw [hlock, h.has_move hc hcpu hpc hhas]
    exact h.lock c' q
  · rw [hcpu, hlock]
    exact h.noff c'
  · rw [hcpu]
    by_cases hqj : q = j
    · rw [hqj]
      simp [hrunning', hnot]
    · grind [h.run]
  · rw [hcpu] at hst
    have hqp : q ≠ p := fun heq => hst c (heq ▸ hc)
    rw [hother q hqp]
    exact h.park q (hlive q hq) hst
  · rw [hcpu] at hq
    rw [hstate q fun heq => hnot c' (heq ▸ hq)]
    exact h.live c' q hq
  · grind [h.child]
  · grind [h.parent]

theorem reset {z : Pc N L κ} (hj : (s.proc j).state = .unused) (hz : z.Ok j) :
    Inv (s.goto j z) := by
  have hnot (c' : Fin M) : (s.cpu c').stack ≠ some j := fun hst => h.live c' j hst hj
  have hother : ∀ q, q ≠ j → (s.goto j z).pc q = s.pc q := fun q hq => update_of_ne hq ..
  have hhas (c' : Fin M) : (s.goto j z).has c' = s.has c' := by
    unfold Sys.has
    show (match (s.cpu c').stack with | none => _ | some q => _) = _
    split
    · rfl
    · rename_i q hq
      rw [hother q fun heq => hnot c' (heq ▸ hq)]
  have hne {q : Fin N} (hq : (s.proc q).state ≠ .unused) : q ≠ j := fun heq => hq (heq ▸ hj)
  refine ⟨fun q => ?_, h.proc, h.on, h.uniq, fun c' q => ?_, h.noff, fun q => ?_,
    fun q hq hst => ?_, h.live, fun q i t hq hi => ?_, fun q r i t t' hq hr hi hi' => ?_⟩
  · grind [goto_pc_self, h.ok]
  · rw [hhas]
    exact h.lock c' q
  · show (s.proc q).state = _ ↔ _
    rw [h.run q]
    by_cases hqj : q = j
    · rw [hqj]
      simp [hnot, Sys.goto]
    · rw [hother q hqj]
      rfl
  · rw [hother q (hne hq)]
    exact h.park q hq hst
  · rw [hother q (hne hq)] at hi
    exact h.child q i t hq hi
  · rw [hother q (hne hq)] at hi
    rw [hother r (hne hr)] at hi'
    exact h.parent q r i t t' hq hr hi hi'

theorem adopt {j : Fin N} (hc : (s.cpu c).stack = some p) (hcpu : s'.cpu = s.cpu)
    (hlock : s'.lock = s.lock) (hpc : s'.pc = update s.pc p y)
    (hstate : ∀ i, i ≠ j → (s'.proc i).state = (s.proc i).state) (hused : (s'.proc j).state = .used)
    (hold : (s.pc p).child = some (j, .unused)) (hnew : y.child = some (j, .used))
    (hpark : (s.pc j).has j = some j ∧ (s.pc j).off = false) (hchild : (s.pc j).child = none)
    (hok : y.Ok p) (hhas : y.has p = (s.pc p).has p) (hoff : y.off = (s.pc p).off) : Inv s' := by
  have hunused := h.child p j _ (h.live c p hc) hold
  have hnot (c' : Fin M) : (s.cpu c').stack ≠ some j := fun hst => h.live c' j hst hunused
  have hjp : j ≠ p := fun heq => hnot c (heq ▸ hc)
  have hother : ∀ q, q ≠ p → s'.pc q = s.pc q := fun q hq => by
    rw [hpc, update_of_ne hq]
  have hself : s'.pc p = y := by rw [hpc, update_self]
  -- the only process with this child is `p`
  have hchild' : ∀ q i t, (s'.proc q).state ≠ .unused → (s'.pc q).child = some (i, t) →
      q = p ∧ i = j ∧ t = .used ∨
        q ≠ p ∧ i ≠ j ∧ (s.proc q).state ≠ .unused ∧ (s.pc q).child = some (i, t) := by
    intro q i t hq hi
    by_cases hqp : q = p
    · grind
    · grind [Inv]
  refine ⟨fun q => ?_, ?_, ?_, ?_, fun c' q => ?_, fun c' => ?_, fun q => ?_, fun q hq hst => ?_,
    fun c' q hq => ?_, fun q i t hq hi => ?_, fun q r i t t' hq hr hi hi' => ?_⟩
  · grind [h.ok]
  · rw [hcpu]
    exact h.proc
  · rw [hcpu]
    exact h.on
  · rw [hcpu]
    exact h.uniq
  · rw [hlock, h.has_move hc hcpu hpc hhas]
    exact h.lock c' q
  · rw [hcpu, hlock]
    exact h.noff c'
  · rw [hcpu]
    by_cases hqj : q = j
    · rw [hqj, hused]
      simp [hnot]
    · grind [h.run]
  · rw [hcpu] at hst
    have hqp : q ≠ p := fun heq => hst c (heq ▸ hc)
    rw [hother q hqp]
    by_cases hqj : q = j
    · rw [hqj]
      exact hpark
    · rw [hstate q hqj] at hq
      exact h.park q hq hst
  · rw [hcpu] at hq
    rw [hstate q fun heq => hnot c' (heq ▸ hq)]
    exact h.live c' q hq
  · grind [h.child]
  · grind [h.parent]

theorem swtch (hc : (s.cpu c).stack = some p) (hpc : s.pc p = .swtch x)
    (hstate : (s.proc p).state ≠ .running) : Inv ((s.swtchFrom c).goto p x) := by
  have hok : (Pc.swtch x).Ok p := hpc ▸ h.ok p
  set s' := (s.swtchFrom c).goto p x with hs'
  have hloop (c' : Fin M) : (s'.cpu c').pc = (s.cpu c').pc := update_proj Cpu.pc rfl
  have hself : (s'.cpu c).stack = none := by simp [hs', Sys.goto, swtchFrom, setCpu]
  have hother (c' : Fin M) (hne : c' ≠ c) : s'.cpu c' = s.cpu c' := update_of_ne hne ..
  have hpc' : s'.pc p = x := goto_pc_self ..
  have hpcs : ∀ q, q ≠ p → s'.pc q = s.pc q := fun q hq => update_of_ne hq ..
  have hstack {c' : Fin M} {q : Fin N} (hq : (s'.cpu c').stack = some q) :
      (s.cpu c').stack = some q ∧ q ≠ p := by grind [h.stack_uniq]
  have hhas (c' : Fin M) : s'.has c' = s.has c' := by
    by_cases hne : c' = c
    · rw [hne, has_of_none hself, has_of_stack hc, hloop, h.on c p hc, hpc]
      rfl
    · grind [h.has_other]
  have hchild (q : Fin N) : (s'.pc q).child = (s.pc q).child := by
    by_cases hqp : q = p
    · rw [hqp, hpc', hpc]
      rfl
    · rw [hpcs q hqp]
  refine ⟨fun q => ?_, fun c' q => ?_, fun c' q hq => ?_, ?_, fun c' q => ?_, fun c' => ?_,
    fun q => ?_, fun q hq hst => ?_, fun c' q hq => ?_, fun q i t hq hi => ?_,
    fun q r i t t' hq hr hi hi' => ?_⟩
  · grind [Pc.Ok, h.ok]
  · rw [hloop, show (s'.cpu c').proc = (s.cpu c').proc from update_proj Cpu.proc rfl]
    exact h.proc c' q
  · rw [hloop]
    exact h.on c' q (hstack hq).1
  · simp only [hloop]
    exact h.uniq
  · rw [hhas]
    exact h.lock c' q
  · rw [show (s'.cpu c').noff = (s.cpu c').noff from update_proj Cpu.noff rfl]
    exact h.noff c'
  · show (s.proc q).state = _ ↔ _
    constructor
    · grind [h.run]
    · grind [h.run]
  · by_cases hqp : q = p
    · rw [hqp, hpc']
      exact ⟨hok.1, hok.2.1⟩
    · rw [hpcs q hqp]
      refine h.park q hq fun c' hc' => ?_
      by_cases hne : c' = c
      · rw [hne, hc] at hc'
        exact hqp (Option.some.inj hc').symm
      · exact hst c' (by rw [hother c' hne, hc'])
  · exact h.live c' q (hstack hq).1
  · rw [hchild] at hi
    exact h.child q i t hq hi
  · rw [hchild] at hi hi'
    exact h.parent q r i t t' hq hr hi hi'

end Inv

end Xv6.Sched
