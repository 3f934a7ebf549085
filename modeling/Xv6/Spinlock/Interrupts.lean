import Xv6.Spinlock.Basic

/-!
Interrupts belong to the thread.

What a thread knows of the CPU it runs on is said point by point (`Runs`): `noff` is its
own depth, interrupts are off where that is not 0, and `intena` is the thread's own,
except between `swtch` and the end of `sched`. A thread that is switched out has taken its
`intena` along (`Out`). The thread of `scheduler` has none of its own.
-/

namespace Xv6.Spinlock

open Function (update update_self update_of_ne)

section Proof

variable {C P L : Type}

/-! ### What a thread knows of its CPU -/

/-- What holds of the thread `t` that runs on the CPU `x`, at its point. -/
def AtPoint (x : Cpu P) (t : Thread L) : Pc L → Prop
  | .code => True
  | .got _ old => old = x.sie
  | .off _ old was => x.sie = false ∧ old = was
  | .spin _ => 0 < t.depth
  | .pop => 0 < t.depth
  | .fresh => False
  | .forkret => t.depth = 1 ∧ t.started = false
  | .swtch _ => False
  | .back intena => t.depth = 1 ∧ (t.started = true → intena = t.wasOn)

/-- The thread `t` runs on the CPU `x`. `intena` is the thread's own, except right after
`swtch`. -/
structure Runs (x : Cpu P) (t : Thread L) : Prop where
  noff : x.noff = t.depth
  off : 0 < t.depth → x.sie = false
  point : AtPoint x t t.pc
  mine : t.started = true → 0 < t.depth → (∀ i, t.pc ≠ .back i) → x.intena = t.wasOn

def Out (t : Thread L) : Tid C P → Prop
  | .scheduler _ => t.pc = .code ∧ t.depth = 1
  | .proc _ => t.depth = 1 ∧
      ((t.pc = .fresh ∧ t.started = false) ∨
        ∃ intena, t.pc = .swtch intena ∧ (t.started = true → intena = t.wasOn))

def Trapped (pc : Pc L) : Prop := pc = .code ∨ ∃ k, pc = .got k true

structure Ok (s : Sys C P L) : Prop where
  single : ∀ c c' p, (s.cpu c).proc = some p → (s.cpu c').proc = some p → c = c'
  runs : ∀ c, Runs (s.cpu c) (s.running c)
  out : ∀ t, (∀ c, s.tid c ≠ t) → Out (s.thread t) t
  trapped : ∀ t, ∀ pc ∈ (s.thread t).trapped, Trapped pc
  scheduler : ∀ c, (s.thread (.scheduler c)).started = false

variable {s s' : Sys C P L} {c c' : C} {x : Cpu P} {t : Thread L} {p : P} {plock : P → L}

theorem Ok.tid_inj (h : Ok s) (heq : s.tid c = s.tid c') : c = c' := by
  cases hp : (s.cpu c).proc with
  | some p =>
    rw [tid_proc.mpr hp] at heq
    exact h.single c c' p hp (tid_proc.mp heq.symm)
  | none =>
    cases hp' : (s.cpu c').proc with
    | some p =>
      rw [tid_of_none hp, tid_proc.mpr hp'] at heq
      cases heq
    | none => grind [tid_of_none]

theorem Sys.Init.ok (h : s.Init) : Ok s := by
  have htid : ∀ c, s.tid c = .scheduler c := fun c => tid_of_none (h.cpu c).2.2
  constructor
  · intro c c' p hp
    rw [(h.cpu c).2.2] at hp
    cases hp
  · intro c
    obtain ⟨hsie, hnoff, -⟩ := h.cpu c
    rw [Sys.running, htid, h.scheduler]
    exact ⟨hnoff, fun _ => hsie, trivial, fun h => by cases h⟩
  · intro t ht
    cases t with
    | scheduler c => exact absurd (htid c) (ht c)
    | proc p =>
      rw [h.proc]
      exact ⟨rfl, .inl ⟨rfl, rfl⟩⟩
  · intro t pc hpc
    cases t with
    | scheduler c =>
      rw [h.scheduler] at hpc
      cases hpc
    | proc p =>
      rw [h.proc] at hpc
      cases hpc
  · intro c
    rw [h.scheduler]

variable [DecidableEq C] [DecidableEq P]

theorem Ok.set (h : Ok s) (hcpu : s'.cpu = update s.cpu c x)
    (hthread : s'.thread = update s.thread (s.tid c) t)
    (hproc : x.proc = (s.cpu c).proc) (hruns : Runs x t) (htrap : ∀ pc ∈ t.trapped, Trapped pc)
    (hsched : (s.cpu c).proc = none → t.started = false) : Ok s' := by
  have hproc' : ∀ c', (s'.cpu c').proc = (s.cpu c').proc := by grind [congrFun hcpu]
  have htid : ∀ c', s'.tid c' = s.tid c' := by
    intro c'
    rw [Sys.tid, Sys.tid, hproc']
  constructor
  · grind [h.single]
  · intro c'
    rw [Sys.running, htid, hcpu, hthread]
    by_cases hc : c' = c
    · subst hc
      rwa [update_self, update_self]
    · rw [update_of_ne hc, update_of_ne fun heq => hc (h.tid_inj heq)]
      exact h.runs c'
  · grind [congrFun hthread, h.out]
  · grind [congrFun hthread, h.trapped]
  · intro c'
    rw [hthread]
    by_cases hc : .scheduler c' = s.tid c
    · rw [hc, update_self]
      apply hsched
      cases hp : (s.cpu c).proc with
      | none => rfl
      | some p =>
        rw [tid_proc.mpr hp] at hc
        cases hc
    · rw [update_of_ne hc]
      exact h.scheduler c'

theorem Ok.move (h : Ok s) (hcpu : s'.cpu = update s.cpu c x)
    (hthread : s'.thread = update s.thread (s.tid c) t) (hproc : x.proc = (s.cpu c).proc)
    (hruns : Runs x t) (htrap : t.trapped = (s.running c).trapped)
    (hstart : t.started = (s.running c).started) : Ok s' := by
  apply h.set hcpu hthread hproc hruns
  · rw [htrap]
    exact h.trapped (s.tid c)
  · intro hp
    rw [hstart, Sys.running, tid_of_none hp]
    exact h.scheduler c

/-! ### The steps -/

theorem Ok.call (h : Ok s) (hpc : (s.running c).pc = .code) (k : Call L) :
    Ok (s.set c (s.cpu c) { s.running c with pc := .got k (s.cpu c).sie }) := by
  have hr := h.runs c
  refine h.move rfl rfl rfl ⟨hr.noff, hr.off, rfl, ?_⟩ rfl rfl
  intro hs hd _
  exact hr.mine hs hd (by simp [hpc])

theorem Ok.intrOff {k : Call L} {old : Bool} (h : Ok s) (hpc : (s.running c).pc = .got k old) :
    Ok (s.set c { s.cpu c with sie := false }
      { s.running c with pc := .off k old (s.cpu c).sie }) := by
  have hr := h.runs c
  have hold : old = (s.cpu c).sie := by
    have := hr.point
    rwa [hpc] at this
  refine h.move rfl rfl rfl ⟨hr.noff, fun _ => rfl, ⟨rfl, hold⟩, ?_⟩ rfl rfl
  intro hs hd _
  exact hr.mine hs hd (by simp [hpc])

theorem Ok.raise {k : Call L} {old was : Bool} (h : Ok s)
    (hpc : (s.running c).pc = .off k old was) : Ok (s.raise c k old was) := by
  have hr := h.runs c
  have hp : (s.cpu c).sie = false ∧ old = was := by
    have := hr.point
    rwa [hpc] at this
  refine h.move rfl rfl rfl ⟨?_, fun _ => hp.1, ?_, ?_⟩ rfl rfl
  · exact congrArg (· + 1) hr.noff
  · grind [AtPoint]
  · grind [hr.mine, hr.noff]

theorem popOff_eq (hs : s.popOff c = .ok s') : (s.cpu c).sie = false ∧ 1 ≤ (s.cpu c).noff ∧
    s' = s.set c
      { s.cpu c with
        noff := (s.cpu c).noff - 1
        sie := decide ((s.cpu c).noff - 1 = 0) && (s.cpu c).intena }
      { s.running c with
        pc := .code
        depth := (s.running c).depth - 1
        started := (s.running c).started ||
          ((s.cpu c).proc.isSome && decide ((s.cpu c).noff - 1 = 0)) } := by
  unfold Sys.popOff at hs
  dsimp only at hs
  split at hs
  · cases hs
  · grind

theorem Ok.popOff (h : Ok s) (hpc : (s.running c).pc = .code ∨ (s.running c).pc = .pop)
    (hs : s.popOff c = .ok s') : Ok s' := by
  have hr := h.runs c
  obtain ⟨hsie, hnoff, rfl⟩ := popOff_eq hs
  refine h.set rfl rfl rfl ⟨?_, ?_, trivial, ?_⟩ (h.trapped _) ?_
  · exact congrArg (· - 1) hr.noff
  · grind [hr.noff]
  · grind [hr.noff, hr.mine]
  · grind [h.scheduler, tid_of_none, Sys.running]

theorem Ok.intr (h : Ok s) (hpc : (s.running c).pc = .code) (hd : (s.running c).depth = 0)
    (on : Bool) : Ok (s.set c { s.cpu c with sie := on } (s.running c)) := by
  have hr := h.runs c
  refine h.move rfl rfl rfl ⟨hr.noff, by omega, ?_, by omega⟩ rfl rfl
  rw [hpc]
  trivial

theorem Ok.trap (h : Ok s) (hsie : (s.cpu c).sie = true) :
    Ok (s.set c { s.cpu c with sie := false }
      { s.running c with
        pc := .code
        trapped := (s.running c).pc :: (s.running c).trapped }) := by
  have hr := h.runs c
  have hd : (s.running c).depth = 0 := by grind [hr.off]
  refine h.set rfl rfl rfl ⟨hr.noff, fun _ => rfl, trivial, ?_⟩ ?_ ?_
  · intro _ hpos
    dsimp only at hpos
    omega
  · intro pc hpc
    rcases List.mem_cons.mp hpc with rfl | hpc
    · -- only these points leave interrupts on
      have hp := hr.point
      cases hpc : (s.running c).pc <;> rw [hpc] at hp <;> simp only [AtPoint, hd, hsie] at hp
      · exact .inl rfl
      · exact .inr ⟨_, by rw [hp]⟩
      all_goals simp at hp
    · exact h.trapped _ pc hpc
  · grind [Sys.running, tid_of_none, h.scheduler]

theorem Ok.sret {pc : Pc L} {trapped : List (Pc L)} (h : Ok s)
    (hd : (s.running c).depth = 0) (htrap : (s.running c).trapped = pc :: trapped) :
    Ok (s.set c { s.cpu c with sie := true } { s.running c with pc, trapped }) := by
  have hr := h.runs c
  have hall : ∀ pc' ∈ pc :: trapped, Trapped pc' := by
    rw [← htrap]
    exact h.trapped (s.tid c)
  refine h.set rfl rfl rfl ⟨hr.noff, ?_, ?_, ?_⟩ ?_ ?_
  · intro hpos
    dsimp only at hpos
    omega
  · rcases hall pc List.mem_cons_self with rfl | ⟨k, rfl⟩
    · trivial
    · rfl
  · intro _ hpos
    dsimp only at hpos
    omega
  · exact fun pc' hpc' => hall pc' (List.mem_cons_of_mem _ hpc')
  · grind [Sys.running, tid_of_none, h.scheduler]

theorem Ok.restore {intena : Bool} (h : Ok s) (hpc : (s.running c).pc = .back intena) :
    Ok (s.set c { s.cpu c with intena } { s.running c with pc := .code }) := by
  have hr := h.runs c
  have hp : (s.running c).depth = 1 ∧ ((s.running c).started = true →
      intena = (s.running c).wasOn) := by
    have := hr.point
    rwa [hpc] at this
  exact h.move rfl rfl rfl ⟨hr.noff, hr.off, trivial, fun hs _ _ => hp.2 hs⟩ rfl rfl

theorem Ok.switch (h : Ok s) (hcpu : s'.cpu = update s.cpu c x)
    (hthread : s'.thread = update s.thread (.proc p) t)
    (hsingle : ∀ c' ≠ c, (s.cpu c').proc ≠ some p) (hproc : x.proc = none ∨ x.proc = some p)
    (hruns : Runs x (s'.running c)) (hout : s'.tid c ≠ .proc p → Out t (.proc p : Tid C P))
    (hsched : s'.tid c ≠ .scheduler c → Out (s.thread (.scheduler c)) (.scheduler c : Tid C P))
    (htid : s.tid c = .proc p ∨ s.tid c = .scheduler c)
    (htrap : t.trapped = (s.thread (.proc p)).trapped) : Ok s' := by
  have hother : ∀ c' ≠ c, s'.cpu c' = s.cpu c' := by
    intro c' hc
    rw [hcpu, update_of_ne hc]
  have hself : s'.cpu c = x := by rw [hcpu, update_self]
  have htid' : ∀ c' ≠ c, s'.tid c' = s.tid c' := fun c' hc => tid_congr (by rw [hother c' hc])
  constructor
  · grind [congrFun hcpu, h.single]
  · intro c'
    by_cases hc : c' = c
    · rw [hc, hself]
      exact hruns
    · grind [Ok, congrFun hthread, Sys.running, tid_proc.mp]
  · grind [congrFun hthread, h.out]
  · grind [congrFun hthread, h.trapped]
  · intro c'
    rw [hthread, update_of_ne (by simp)]
    exact h.scheduler c'

theorem Ok.sched (h : Ok s) (hpc : (s.running c).pc = .code) (hp : (s.cpu c).proc = some p)
    (hs : s.sched plock c p = .ok s') : Ok s' := by
  have hr := h.runs c
  have hrun : s.running c = s.thread (.proc p) := by rw [Sys.running, tid_proc.mpr hp]
  -- nobody runs the thread of `scheduler`
  have hsched : Out (s.thread (.scheduler c)) (.scheduler c : Tid C P) := by
    grind [h.out, tid_scheduler, tid_proc.mpr]
  unfold Sys.sched at hs
  dsimp only at hs
  split_ifs at hs with hlock hnoff hsie
  cases hs
  rw [not_not] at hnoff
  have hd : (s.running c).depth = 1 := by rw [← hr.noff, hnoff]
  refine h.switch rfl rfl ?_ (.inl rfl) ?_ ?_ ?_ (.inl (tid_proc.mpr hp)) rfl
  · intro c' hc hp'
    exact hc (h.single c' c p hp' hp)
  · have htid : ∀ y : Sys C P L, (y.cpu c).proc = none → y.running c = y.thread (.scheduler c) := by
      intro y hy
      rw [Sys.running, tid_of_none hy]
    rw [htid _ (by simp)]
    dsimp only
    rw [update_of_ne (by simp)]
    refine ⟨hnoff.trans hsched.2.symm, fun _ => by simpa using hsie, ?_, ?_⟩
    · rw [hsched.1]
      trivial
    · intro hstart
      rw [h.scheduler c] at hstart
      cases hstart
  · intro _
    rw [hrun] at hd hr hpc
    exact ⟨hd, .inr ⟨_, rfl, fun hs => hr.mine hs (by omega) (by simp [hpc])⟩⟩
  · exact fun _ => hsched

theorem Ok.swtch (h : Ok s) (hpc : (s.running c).pc = .code) (hp : (s.cpu c).proc = none)
    (hd : (s.running c).depth = 1)
    (hout : (s.thread (.proc p)).pc.isOut = true) : Ok (s.swtch c p) := by
  have hr := h.runs c
  have hidle : ∀ c', (s.cpu c').proc ≠ some p := by
    intro c' hp'
    have hpoint := (h.runs c').point
    rw [Sys.running, tid_proc.mpr hp'] at hpoint
    cases hpc : (s.thread (.proc p)).pc <;> rw [hpc] at hpoint hout
    case fresh => exact hpoint
    case swtch => exact hpoint
    all_goals cases hout
  have hpo := h.out (.proc p) fun c' heq => hidle c' (tid_proc.mp heq)
  refine h.switch rfl rfl (fun c' _ => hidle c') (.inr rfl) ?_ ?_ ?_ (.inr (tid_of_none hp)) rfl
  · have htid : ∀ y : Sys C P L, (y.cpu c).proc = some p → y.running c = y.thread (.proc p) := by
      intro y hy
      rw [Sys.running, tid_proc.mpr hy]
    rw [htid _ (by simp [Sys.swtch])]
    simp only [Sys.swtch, update_self]
    have hsie : (s.cpu c).sie = false := hr.off (by omega)
    have hnoff : (s.cpu c).noff = 1 := hr.noff.trans hd
    obtain ⟨hdp, ⟨hfresh, hstart⟩ | ⟨intena, hsw, hmine⟩⟩ := hpo
    · simp only [hfresh]
      refine ⟨hnoff.trans hdp.symm, fun _ => hsie, ⟨hdp, hstart⟩, ?_⟩
      intro hs
      rw [hstart] at hs
      cases hs
    · simp only [hsw]
      refine ⟨hnoff.trans hdp.symm, fun _ => hsie, ⟨hdp, hmine⟩, ?_⟩
      intro _ _ hb
      exact absurd rfl (hb intena)
  · intro hne
    exact absurd (tid_proc.mpr (by simp [Sys.swtch])) hne
  · intro _
    rw [Sys.running, tid_of_none hp] at hpc hd
    exact ⟨hpc, hd⟩

/-- `pop_off` does not panic in a thread that has called `push_off`. -/
theorem Ok.popOff_ne_error (h : Ok s) (hd : 0 < (s.running c).depth) (e : Panic) :
    s.popOff c ≠ .error e := by
  have hr := h.runs c
  unfold Sys.popOff
  dsimp only
  rw [hr.off hd, if_neg (by simp), if_neg (by rw [hr.noff]; omega)]
  exact fun h => by cases h

variable [DecidableEq L]

theorem Ok.acquire {lk : L} (h : Ok s) (hpc : (s.running c).pc = .spin lk)
    (hs : s.acquire c lk = .ok s') : Ok s' := by
  have hr := h.runs c
  unfold Sys.acquire at hs
  split at hs
  · cases hs
  · cases hs
    refine h.move rfl rfl rfl ⟨hr.noff, hr.off, trivial, ?_⟩ rfl rfl
    intro hs hd _
    exact hr.mine hs hd (by simp [hpc])

theorem Ok.release {lk : L} (h : Ok s) (hd : 0 < (s.running c).depth)
    (hpc : ∀ i, (s.running c).pc ≠ .back i) (hs : s.release c lk = .ok s') : Ok s' := by
  have hr := h.runs c
  unfold Sys.release at hs
  split at hs
  · cases hs
    exact h.move rfl rfl rfl ⟨hr.noff, hr.off, hd, fun hs hd _ => hr.mine hs hd hpc⟩ rfl rfl
  · cases hs

theorem Ok.next (h : Ok s) (hen : s.Enabled plock (c, .next)) (hs : s.next plock c = .ok s') :
    Ok s' := by
  unfold Sys.next at hs
  dsimp only [Sys.Enabled] at hen
  cases hpc : (s.running c).pc with
  | code | fresh | swtch intena => simp [hpc, Sys.Ready] at hen
  | got k old => grind [h.intrOff]
  | off k old was => grind [h.raise]
  | spin lk =>
    simp only [hpc] at hs
    exact h.acquire hpc hs
  | pop =>
    simp only [hpc] at hs
    exact h.popOff (.inr hpc) hs
  | forkret =>
    have hpoint := (h.runs c).point
    rw [hpc] at hpoint
    simp only [hpc] at hs
    split at hs
    · exact h.release (by have := hpoint.1; omega) (by simp [hpc]) hs
    · cases hs
      exact h
  | back intena => grind [h.restore]

theorem Ok.step {a : C × Op P L} (h : Ok s) (hen : s.Enabled plock a)
    (hs : s.step plock a = .ok s') : Ok s' := by
  obtain ⟨c, op⟩ := a
  cases op with
  | call k =>
    cases hs
    exact h.call hen k
  | next => exact h.next hen hs
  | release lk => exact h.release hen.2 (by simp [hen.1]) hs
  | popOff => exact h.popOff (.inl hen.1) hs
  | intr on =>
    cases hs
    exact h.intr hen.1 hen.2 on
  | trap =>
    cases hs
    exact h.trap hen
  | sret =>
    obtain ⟨hpc, hd, hne⟩ := hen
    unfold Sys.step at hs
    dsimp only at hs
    split at hs
    · rename_i htrap
      cases hs
      exact h.sret hd htrap
    · contradiction
  | sched =>
    unfold Sys.step at hs
    dsimp only at hs
    split at hs
    · rename_i hp
      exact h.sched hen.1 hp hs
    · cases hs
      exact h
  | swtch p =>
    obtain ⟨hpc, hp, hd, -, hout⟩ := hen
    cases hs
    exact h.swtch hpc hp hd hout

theorem Schedule.ok (h : Schedule plock s) : Ok s :=
  Reachable.invariant (fun _ => Sys.Init.ok) (fun _ _ _ h hen hs => h.step hen hs) h

/-! ### Interrupts belong to the thread -/

theorem popOff_of_noff {op : Op P L} (hen : s.Enabled plock (c, op))
    (hs : s.step plock (c, op) = .ok s') (h1 : (s.cpu c).noff = 1) (h0 : (s'.cpu c).noff = 0) :
    s.popOff c = .ok s' ∧ ((s.running c).pc = .code ∨ (s.running c).pc = .pop) := by
  have hset : ∀ x t, (s.set c x t).cpu c = x := fun x t => update_self ..
  cases op with
  | call k =>
    cases hs
    rw [hset] at h0
    omega
  | next =>
    dsimp only [Sys.Enabled] at hen
    unfold Sys.step Sys.next at hs
    cases hpc : (s.running c).pc with
    | pop =>
      simp only [hpc] at hs
      exact ⟨hs, .inr rfl⟩
    | got k old | back intena => grind
    | off k old was =>
      simp only [hpc] at hs
      cases hs
      simp only [Sys.raise, hset] at h0
      omega
    | spin lk => grind [Sys.acquire]
    | forkret => grind [Sys.release]
    | code | fresh | swtch intena => simp [hpc, Sys.Ready] at hen
  | release lk => grind [Sys.step, Sys.release]
  | popOff => exact ⟨hs, .inl hen.1⟩
  | intr on | trap =>
    cases hs
    rw [hset] at h0
    dsimp only at h0
    omega
  | sret => grind [Sys.step]
  | sched =>
    unfold Sys.step Sys.sched at hs
    dsimp only at hs
    split at hs
    · split_ifs at hs
      cases hs
      simp only [update_self] at h0
      omega
    · cases hs
      omega
  | swtch p =>
    cases hs
    simp only [Sys.swtch, update_self] at h0
    omega

/-- In every schedule of threads that call `push_off` and `pop_off`, or `acquire` and
`release`, in balance and in any order: interrupts are off on a CPU whose `noff` is not
0; and when a thread of a process that is past the release in `forkret` takes `noff` from
1 to 0, interrupts are on afterwards just if they were when the thread last raised `noff`
from 0, on whichever CPU that was. -/
theorem interrupts_belong_to_threads (h : Schedule plock s) :
    (∀ c, 0 < (s.cpu c).noff → (s.cpu c).sie = false) ∧
    ∀ c op p s', s.Enabled plock (c, op) → s.step plock (c, op) = .ok s' →
      (s.cpu c).proc = some p → (s.thread (.proc p)).started = true →
      (s.cpu c).noff = 1 → (s'.cpu c).noff = 0 →
      ((s'.cpu c).sie = true ↔ (s.thread (.proc p)).wasOn = true) := by
  have hok := Schedule.ok h
  constructor
  · intro c hnoff
    have hr := hok.runs c
    exact hr.off (hr.noff ▸ hnoff)
  · intro c op p s' hen hs hp hstart h1 h0
    have hr := hok.runs c
    obtain ⟨hpop, hpc⟩ := popOff_of_noff hen hs h1 h0
    obtain ⟨-, -, rfl⟩ := popOff_eq hpop
    rw [Sys.running, tid_proc.mpr hp] at hr hpc
    have hmine := hr.mine hstart (by rw [← hr.noff]; omega) (by
      rcases hpc with hpc | hpc <;> simp [hpc])
    simp [Sys.set, h1, hmine]

def boot : Sys Bool Unit Unit where
  cpu _ := ⟨false, 0, false, none⟩
  thread
    | .scheduler _ => ⟨.code, [], 0, false, false⟩
    | .proc _ => ⟨.fresh, [], 1, false, false⟩
  lock _ := none

def acquireActs (c : Bool) : List (Bool × Op Unit Unit) :=
  [(c, .call (.acquire ())), (c, .next), (c, .next), (c, .next)]

/-- The process starts on one CPU, where interrupts are on, and calls `yield`; it is
resumed on the other CPU, where they are off, and releases its lock. -/
def migrate : List (Bool × Op Unit Unit) :=
  (false, .intr true) :: acquireActs false ++
    [(false, .swtch ()), (false, .next), (false, .next)] ++
    acquireActs false ++ [(false, .sched), (false, .release ()), (false, .next)] ++
    acquireActs true ++ [(true, .swtch ()), (true, .next), (true, .release ())]

theorem interrupts_belong_to_threads_migrate : ∃ s s' : Sys Bool Unit Unit,
    Schedule id s ∧ s.step id (true, .next) = .ok s' ∧ (s.cpu true).sie = false ∧
      (s.cpu true).intena = true ∧ (s'.cpu true).sie = true := by
  obtain ⟨s, hs, hsie, hintena, hproc, hnoff, hstart, hwas, hen, hs'⟩ :
      ∃ s ∈ runActs (Sys.Enabled id) (Sys.step id) migrate boot,
        (s.cpu true).sie = false ∧ (s.cpu true).intena = true ∧
        (s.cpu true).proc = some () ∧ (s.cpu true).noff = 1 ∧
        (s.thread (.proc ())).started = true ∧ (s.thread (.proc ())).wasOn = true ∧
        s.Enabled id (true, .next) ∧
        (s.step id (true, .next)).toOption.map (fun s' => (s'.cpu true).noff) = some 0 := by
    decide +kernel
  have hreach : Schedule id s :=
    (Reachable.init ⟨fun _ => ⟨rfl, rfl, rfl⟩, fun _ => rfl, fun _ => rfl⟩).runActs hs
  cases hstep : s.step id (true, .next) with
  | error e =>
    rw [hstep] at hs'
    cases hs'
  | ok s' =>
    rw [hstep] at hs'
    have h0 : (s'.cpu true).noff = 0 := Option.some.inj hs'
    have hon := (interrupts_belong_to_threads hreach).2 true .next () s' hen hstep hproc hstart
      hnoff h0
    exact ⟨s, s', hreach, hstep, hsie, hintena, hon.mpr hwas⟩

theorem release_error {lk : L} {e : Panic} (hs : s.release c lk = .error e) : e = .release := by
  unfold Sys.release at hs
  split at hs
  · cases hs
  · cases hs
    rfl

/-- The panics for interrupts that are on, and the one for too many calls of `pop_off`,
are not reached. -/
theorem no_interrupt_panic {op : Op P L} {e : Panic} (h : Schedule plock s)
    (hen : s.Enabled plock (c, op)) (hs : s.step plock (c, op) = .error e) :
    e = .acquire ∨ e = .release ∨ e = .schedLock ∨ e = .schedLocks := by
  have hok := Schedule.ok h
  have hr := hok.runs c
  cases op with
  | call k | intr on | trap | swtch p => cases hs
  | next =>
    unfold Sys.step Sys.next at hs
    cases hpc : (s.running c).pc with
    | spin lk => grind [Sys.acquire]
    | pop =>
      simp only [hpc] at hs
      have hp := hr.point
      rw [hpc] at hp
      exact absurd hs (hok.popOff_ne_error hp e)
    | forkret => grind [release_error]
    | _ =>
      simp only [hpc] at hs
      cases hs
  | release lk => exact .inr (.inl (release_error hs))
  | popOff => exact absurd hs (hok.popOff_ne_error hen.2 e)
  | sret => grind [Sys.step]
  | sched => grind [Sys.step, Sys.sched, hr.off, hr.noff]

/-- A scheduler that takes the same lock twice. -/
theorem no_interrupt_panic_twice : ∃ (s : Sys Bool Unit Unit) (e : Panic), Schedule id s ∧
    s.step id (false, .next) = .error e ∧
      (e = .acquire ∨ e = .release ∨ e = .schedLock ∨ e = .schedLocks) := by
  obtain ⟨s, hs, hen, hnone⟩ : ∃ s ∈ runActs (Sys.Enabled id) (Sys.step id)
      (acquireActs false ++ (acquireActs false).take 3) boot,
      s.Enabled id (false, .next) ∧ (s.step id (false, .next)).toOption.isNone := by
    decide +kernel
  have hreach : Schedule id s :=
    (Reachable.init ⟨fun _ => ⟨rfl, rfl, rfl⟩, fun _ => rfl, fun _ => rfl⟩).runActs hs
  cases hstep : s.step id (false, .next) with
  | error e => exact ⟨s, e, hreach, hstep, no_interrupt_panic hreach hen hstep⟩
  | ok s' =>
    rw [hstep] at hnone
    cases hnone

end Proof

end Xv6.Spinlock
