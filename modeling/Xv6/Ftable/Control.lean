import Xv6.Ftable.Step

/-!
What the points of the code say about descriptors.

Besides the descriptors, processes in the middle of a call have references to files that
are in no descriptor yet, or a descriptor that is not counted yet or not any more
(`carry`). `Fits` is what is known of the descriptors of a process at each point, and of
those of the child that `fork` is making.
-/

namespace Xv6.Ftable

open Sys
open Function (update update_self update_of_ne)

variable {N : ℕ}
variable {s s' : Sys N} {p q : Fin N} {fd : ℕ}

/-! ### Shares -/

def one (f g : ℕ) : ℤ := if f = g then 1 else 0

@[simp] theorem one_self (f : ℕ) : one f f = 1 := if_pos rfl

theorem one_nonneg (f g : ℕ) : 0 ≤ one f g := by
  unfold one
  split_ifs <;> norm_num

def Cont.carry : Cont → ℕ → ℤ
  | .exit _ f, g => -one f g
  | .fileclose f, g => one f g
  | _, _ => 0

/-- References of a process to a file apart from its descriptors. -/
def Pc.carry : Pc N → ℕ → ℤ
  | .dup f, g => -one f g
  | .openFd _ f, g => one f g
  | .pipe1 f0, g => one f0 g
  | .pipeKalloc f0 f1, g => one f0 g + one f1 g
  | .pipeFd f0 f1, g => one f0 g + one f1 g
  | .pipeFd1 _ _ f1, g => one f1 g
  | .forkSet _ _ f, g => one f g
  | .exitClear _ f, g => -one f g
  | .fileclose f k, g => one f g + k.carry g
  | .release _ k, g => k.carry g
  | .put _ k, g => k.carry g
  | _, _ => 0

theorem carry_resume (k : Cont) (g : ℕ) : (k.resume : Pc N).carry g = k.carry g := by
  cases k <;> simp [Cont.resume, Cont.carry, Pc.carry]

def slots (s : Sys N) (q : Fin N) (f : ℕ) : ℤ := cnt (Finset.range NOFILE) (s.ofile q) (some f)

def share (s : Sys N) (q : Fin N) (f : ℕ) : ℤ := slots s q f + (s.pc q).carry f

theorem slots_nonneg (s : Sys N) (q : Fin N) (f : ℕ) : 0 ≤ slots s q f := Int.natCast_nonneg _

theorem one_le_slots {f : ℕ} (hfd : fd < NOFILE) (hf : s.ofile q fd = some f) :
    1 ≤ slots s q f := by
  have := cnt_pos (Finset.mem_range.mpr hfd) hf
  unfold slots
  omega

theorem slots_congr (h : s'.ofile q = s.ofile q) (f : ℕ) : slots s' q f = slots s q f := by
  rw [slots, slots, h]

theorem slots_setFd_ne (h : q ≠ p) (fd f : ℕ) (x : Option ℕ) :
    slots (s.setFd p fd x) q f = slots s q f :=
  slots_congr (update_of_ne h ..) f

theorem slots_setFd_some {g : ℕ} (hfd : fd < NOFILE) (hnone : s.ofile p fd = none) (f : ℕ) :
    slots (s.setFd p fd (some g)) p f = slots s p f + one g f := by
  have h := cnt_update (s.ofile p) (Finset.mem_range.mpr hfd) (some g) (some f)
  have hself : (s.setFd p fd (some g)).ofile p = update (s.ofile p) fd (some g) :=
    update_self ..
  simp only [hnone, reduceCtorEq, if_false, Option.some.injEq] at h
  rw [slots, slots, hself, one]
  split_ifs at h ⊢ <;> omega

theorem slots_setFd_none {g : ℕ} (hfd : fd < NOFILE) (hsome : s.ofile p fd = some g) (f : ℕ) :
    slots (s.setFd p fd none) p f = slots s p f - one g f := by
  have h := cnt_update (s.ofile p) (Finset.mem_range.mpr hfd) none (some f)
  have hself : (s.setFd p fd none).ofile p = update (s.ofile p) fd none :=
    update_self ..
  simp only [hsome, reduceCtorEq, if_false, Option.some.injEq] at h
  rw [slots, slots, hself, one]
  split_ifs at h ⊢ <;> omega

/-! ### Points -/

structure AtFd (s : Sys N) (p : Fin N) (fd f : ℕ) : Prop where
  lt : fd < NOFILE
  eq : s.ofile p fd = some f
  below : ∀ j, j < fd → s.ofile p j = none

def Cont.Fits (s : Sys N) (p : Fin N) : Cont → Prop
  | .exit fd f => AtFd s p fd f
  | _ => True

structure Child (s : Sys N) (np : Fin N) (i : ℕ) : Prop where
  embryo : s.pc np = .embryo
  above : ∀ j, i ≤ j → j < NOFILE → s.ofile np j = none

def Fits (s : Sys N) (p : Fin N) : Pc N → Prop
  | .dead => ∀ fd, fd < NOFILE → s.ofile p fd = none
  | .dup f => 2 ≤ slots s p f
  | .openSet _ f fd => fd < NOFILE ∧ s.ofile p fd = some f
  | .pipeFd1 fd0 f0 _ => fd0 < NOFILE ∧ s.ofile p fd0 = some f0
  | .pipeCopy fd0 fd1 f0 f1 => (fd0 < NOFILE ∧ s.ofile p fd0 = some f0) ∧
      (fd1 < NOFILE ∧ s.ofile p fd1 = some f1) ∧ fd0 ≠ fd1
  | .fork np i => Child s np i
  | .forkSet np i _ => i < NOFILE ∧ Child s np i
  | .exit fd => ∀ j, j < fd → s.ofile p j = none
  | .exitClear fd f => AtFd s p fd f
  | .fileclose f k => k.Fits s p ∧ ∀ fd g, k = .exit fd g → g = f
  | .release _ k => k.Fits s p
  | .put _ k => k.Fits s p
  | _ => True

def Pc.child : Pc N → Option (Fin N)
  | .fork np _ => some np
  | .forkSet np _ _ => some np
  | _ => none

structure Control (s : Sys N) : Prop where
  fits : ∀ p, Fits s p (s.pc p)
  child : ∀ p q np, (s.pc p).child = some np → (s.pc q).child = some np → p = q

theorem Cont.Fits.congr {k : Cont} (h : k.Fits s q) (hof : s'.ofile q = s.ofile q) :
    k.Fits s' q := by
  cases k with
  | exit fd f => exact ⟨h.lt, hof ▸ h.eq, hof ▸ h.below⟩
  | _ => trivial

namespace Fits

variable {s s' : Sys N} {p q np : Fin N} {c : Pc N}

theorem congr (hof : s'.ofile q = s.ofile q)
    (hchild : ∀ np, c.child = some np → s'.pc np = s.pc np ∧ s'.ofile np = s.ofile np)
    (h : Fits s q c) : Fits s' q c := by
  have hcont : ∀ k : Cont, k.Fits s q → k.Fits s' q := fun k hk => hk.congr hof
  cases c with
  | dup f => exact (slots_congr hof f).ge.trans' h
  | fork np i =>
    obtain ⟨h₁, h₂⟩ := hchild np rfl
    exact ⟨h₁.trans h.embryo, h₂ ▸ h.above⟩
  | forkSet np i f =>
    obtain ⟨h₁, h₂⟩ := hchild np rfl
    exact ⟨h.1, h₁.trans h.2.embryo, h₂ ▸ h.2.above⟩
  | exitClear fd f => exact ⟨h.lt, hof ▸ h.eq, hof ▸ h.below⟩
  | fileclose f k => exact ⟨hcont k h.1, h.2⟩
  | release ff k | put ff k => exact hcont k h
  | dead | openSet o f fd | pipeFd1 fd0 f0 f1 | pipeCopy fd0 fd1 f0 f1 | exit fd => grind [Fits]
  | _ => trivial

theorem resume {k : Cont} (h : k.Fits s p) : Fits s p k.resume := by
  cases k with
  | exit fd f => exact h
  | fileclose f => exact ⟨trivial, nofun⟩
  | _ => trivial

theorem child_embryo (h : Fits s p c) (hc : c.child = some np) : s.pc np = .embryo := by
  cases c with
  | fork np' i =>
    cases hc
    exact h.embryo
  | forkSet np' i f =>
    cases hc
    exact h.2.embryo
  | _ => cases hc

theorem share_nonneg (h : Fits s p (s.pc p)) (f : ℕ) : 0 ≤ share s p f := by
  have hs := slots_nonneg s p f
  have hone := one_nonneg
  -- a descriptor that is not counted is there
  have hat : ∀ fd g, AtFd s p fd g → 0 ≤ slots s p f - one g f := by
    intro fd g hat
    rcases eq_or_ne g f with rfl | hne
    · rw [one_self]
      linarith [one_le_slots hat.lt hat.eq]
    · rw [one, if_neg hne]
      linarith
  have hcont : ∀ k : Cont, k.Fits s p → 0 ≤ slots s p f + k.carry f := by
    intro k hk
    cases k with
    | exit fd g =>
      have := hat fd g hk
      simp only [Cont.carry]
      linarith
    | fileclose g => grind [Cont.carry]
    | _ => simpa [Cont.carry] using hs
  unfold share
  generalize s.pc p = c at h
  cases c with
  | dup g =>
    simp only [Pc.carry]
    rcases eq_or_ne g f with rfl | hne
    · rw [one_self]
      have : 2 ≤ slots s p g := h
      linarith
    · rw [one, if_neg hne]
      linarith
  | exitClear fd g =>
    have := hat fd g h
    simp only [Pc.carry]
    linarith
  | fileclose g k =>
    have := hcont k h.1
    have := hone g f
    simp only [Pc.carry]
    linarith
  | release ff k | put ff k => exact hcont k h
  | openFd o g | pipe1 g | forkSet np i g => simpa [Pc.carry] using add_nonneg hs (hone g f)
  | pipeKalloc g g' | pipeFd g g' => grind [Pc.carry]
  | pipeFd1 fd g g' => simpa [Pc.carry] using add_nonneg hs (hone g' f)
  | _ => simpa [Pc.carry] using hs

end Fits

namespace Control

variable {s s' : Sys N} {p np : Fin N} {c c' : Pc N}

theorem run (h : Control s) (hc : s.pc p = c) (hne : c ≠ .embryo)
    (hpc : ∀ q, q ≠ p → c.child ≠ some q → s'.pc q = s.pc q)
    (hof : ∀ q, q ≠ p → c.child ≠ some q → s'.ofile q = s.ofile q) (hself : s'.pc p = c')
    (hfits : Fits s' p c') (hchild : ∀ np, c'.child = some np → c.child = some np)
    (hnp : ∀ np, c.child = some np → Fits s' np (s'.pc np) ∧ (s'.pc np).child = none) :
    Control s' := by
  subst hc
  have hcases : ∀ q, q = p ∨ (s.pc p).child = some q ∨ q ≠ p ∧ (s.pc p).child ≠ some q := by grind
  -- whoever has a child already had it
  have hold : ∀ q np, (s'.pc q).child = some np → (s.pc q).child = some np := by grind
  refine ⟨fun q => ?_, fun q r np hq hr => h.child q r np (hold q np hq) (hold r np hr)⟩
  rcases hcases q with rfl | hq' | ⟨h₁, h₂⟩
  · rw [hself]
    exact hfits
  · exact (hnp q hq').1
  · rw [hpc q h₁ h₂]
    refine (h.fits q).congr (hof q h₁ h₂) fun np hnp' => ?_
    -- the child of another process is neither `p` nor the child of `p`
    have hemb := (h.fits q).child_embryo hnp'
    have hnp₁ : np ≠ p := by
      rintro rfl
      exact hne hemb
    have hnp₂ : (s.pc p).child ≠ some np := fun hcp => h₁ (h.child q p np hnp' hcp)
    exact ⟨hpc np hnp₁ hnp₂, hof np hnp₁ hnp₂⟩

theorem own (h : Control s) (hc : s.pc p = c) (hne : c ≠ .embryo)
    (hpc : ∀ q, q ≠ p → s'.pc q = s.pc q) (hof : ∀ q, q ≠ p → s'.ofile q = s.ofile q)
    (hself : s'.pc p = c') (hfits : Fits s' p c')
    (hchild : c.child = none ∧ c'.child = none) : Control s' := by
  refine h.run hc hne (fun q hq _ => hpc q hq) (fun q hq _ => hof q hq) hself hfits ?_ ?_
  · rw [hchild.2]
    exact nofun
  · rw [hchild.1]
    exact nofun

theorem goto (h : Control s) (hc : s.pc p = c) (hne : c ≠ .embryo) (hfits : Fits (s.goto p c') p c')
    (hchild : c.child = none ∧ c'.child = none) : Control (s.goto p c') :=
  h.own hc hne (fun _ hq => update_of_ne hq ..) (fun _ _ => rfl)
    (update_self ..) hfits hchild

theorem goto_setFd {fd : ℕ} {x : Option ℕ} (h : Control s) (hc : s.pc p = c) (hne : c ≠ .embryo)
    (hfits : Fits ((s.setFd p fd x).goto p c') p c') (hchild : c.child = none ∧ c'.child = none) :
    Control ((s.setFd p fd x).goto p c') :=
  h.own hc hne (fun _ hq => update_of_ne hq ..) (fun _ hq => update_of_ne hq ..)
    (update_self ..) hfits hchild

theorem congr (h : Control s) (hpc : s'.pc = s.pc) (hof : s'.ofile = s.ofile) : Control s' := by
  refine ⟨fun q => ?_, fun p q np => ?_⟩
  · rw [hpc]
    exact (h.fits q).congr (by rw [hof]) fun np _ => ⟨by rw [hpc], by rw [hof]⟩
  · rw [hpc]
    exact h.child p q np

end Control

theorem ofile_setFd_self (s : Sys N) (p : Fin N) (fd : ℕ) (x : Option ℕ) :
    (s.setFd p fd x).ofile p fd = x := by
  simp [setFd]

theorem ofile_setFd_ne {j : ℕ} {x : Option ℕ} (h : j ≠ fd) :
    (s.setFd p fd x).ofile p j = s.ofile p j := by
  simp [setFd, h]

theorem resume_child (k : Cont) : (k.resume : Pc N).child = none := by
  cases k <;> rfl

theorem Pipeclose.frame {ff : File} (h : Pipeclose s ff s') :
    s'.file = s.file ∧ s'.ofile = s.ofile ∧ s'.pc = s.pc ∧ s'.trans = s.trans ∧
      s'.next = s.next := by
  cases h <;> exact ⟨rfl, rfl, rfl, rfl, rfl⟩

namespace Control

variable {s s' : Sys N} {p np : Fin N} {c c' : Pc N}

variable (h : Control s)
include h

theorem forkSet {i f : ℕ} (hc : s.pc p = .forkSet np i f) :
    Control ((s.setFd np i (some f)).goto p (.fork np (i + 1))) := by
  have hfits := h.fits p
  rw [hc] at hfits
  obtain ⟨hi, hemb, habove⟩ := hfits
  have hne : np ≠ p := by
    rintro rfl
    rw [hemb] at hc
    cases hc
  have hpc : ((s.setFd np i (some f)).goto p (.fork np (i + 1))).pc np = .embryo :=
    (update_of_ne hne ..).trans hemb
  refine h.run hc nofun (fun q hq _ => update_of_ne hq ..) (fun q _ hq => ?_)
    (update_self ..) ⟨hpc, fun j hj hlt => ?_⟩ (fun _ => id) fun np' hnp' => ?_
  · exact update_of_ne (fun heq => hq (congrArg some heq.symm)) ..
  · exact (ofile_setFd_ne (by omega)).trans (habove j (by omega) hlt)
  · cases hnp'
    rw [hpc]
    exact ⟨trivial, rfl⟩

theorem forkEnd {i : ℕ} (hc : s.pc p = .fork np i) : Control ((s.goto np .idle).goto p .idle) := by
  have hfits := h.fits p
  rw [hc] at hfits
  have hne : np ≠ p := by
    rintro rfl
    rw [hfits.embryo] at hc
    cases hc
  have hpc : ((s.goto np .idle).goto p .idle).pc np = .idle :=
    (update_of_ne hne ..).trans (update_self ..)
  refine h.run hc nofun (fun q hq hnp => ?_) (fun _ _ _ => rfl) (update_self ..) trivial
    nofun fun np' hnp' => ?_
  · exact (update_of_ne hq ..).trans
      (update_of_ne (fun heq => hnp (congrArg some heq.symm)) ..)
  · cases hnp'
    rw [hpc]
    exact ⟨trivial, rfl⟩

theorem fork (hc : s.pc p = .idle) (hnp : s.pc np = .dead) :
    Control ((s.goto np .embryo).goto p (.fork np 0)) := by
  have hne : np ≠ p := by
    rintro rfl
    rw [hnp] at hc
    cases hc
  have hdead := h.fits np
  rw [hnp] at hdead
  set s' := (s.goto np .embryo).goto p (.fork np 0) with hs'
  have hself : s'.pc p = .fork np 0 := update_self ..
  have hemb : s'.pc np = .embryo := (update_of_ne hne ..).trans (update_self ..)
  have hother : ∀ q, q ≠ p → q ≠ np → s'.pc q = s.pc q := fun q hq hqn =>
    (update_of_ne hq ..).trans (update_of_ne hqn ..)
  have hcases : ∀ q, q = p ∨ q = np ∨ q ≠ p ∧ q ≠ np := by
    intro q
    tauto
  -- an unused slot is nobody's child
  have hno : ∀ q, (s.pc q).child ≠ some np := fun q hq => by
    rw [(h.fits q).child_embryo hq] at hnp
    cases hnp
  refine ⟨fun q => ?_, fun q r np' hq hr => ?_⟩
  · rcases hcases q with rfl | rfl | ⟨h₁, h₂⟩
    · rw [hself]
      exact ⟨hemb, fun j _ hlt => hdead j hlt⟩
    · rw [hemb]
      trivial
    · rw [hother q h₁ h₂]
      refine Fits.congr (show s'.ofile q = s.ofile q from rfl) (fun np' hnp' =>
        ⟨hother np' ?_ ?_, rfl⟩) (h.fits q)
      · rintro rfl
        rw [(h.fits q).child_embryo hnp'] at hc
        cases hc
      · rintro rfl
        exact hno q hnp'
  · have hold : ∀ q, q ≠ p → (s'.pc q).child = some np' → (s.pc q).child = some np' := by
      intro q hqp hq
      rcases hcases q with rfl | rfl | ⟨h₁, h₂⟩
      · exact absurd rfl hqp
      · rw [hemb] at hq
        cases hq
      · rwa [hother q h₁ h₂] at hq
    by_cases hqp : q = p <;> by_cases hrp : r = p
    · rw [hqp, hrp]
    · rw [hqp, hself] at hq
      cases hq
      exact absurd (hold r hrp hr) (hno r)
    · rw [hrp, hself] at hr
      cases hr
      exact absurd (hold q hqp hq) (hno q)
    · exact h.child q r np' (hold q hqp hq) (hold r hrp hr)

theorem setRef {f : ℕ} {n : ℤ} : Control (s.setRef f n) := h.congr rfl rfl

theorem setTrans {b : Bool} : Control (s.setTrans p b) := h.congr rfl rfl

theorem run_step (hc : s.pc p = c) (hs : Run s p c s') : Control s' := by
  have hfits := h.fits p
  rw [hc] at hfits
  cases hs with
  | dup | filealloc | pipe | pipe1 => exact h.setRef.goto hc nofun trivial ⟨rfl, rfl⟩
  | noFile | pipeNoFile => exact h.goto hc nofun trivial ⟨rfl, rfl⟩
  | openNoFd | pipe1NoFile | pipeNoFd => exact h.goto hc nofun ⟨trivial, nofun⟩ ⟨rfl, rfl⟩
  | openFd hfd => exact h.goto_setFd hc nofun ⟨hfd, ofile_setFd_self ..⟩ ⟨rfl, rfl⟩
  | @openSet o f fd =>
    have h' : Control (s.openFile o f) := h.congr rfl rfl
    exact h'.goto hc nofun trivial ⟨rfl, rfl⟩
  | openEnd | openFail => exact h.setTrans.goto hc nofun trivial ⟨rfl, rfl⟩
  | pipeFd hfd => exact h.goto_setFd hc nofun ⟨hfd, ofile_setFd_self ..⟩ ⟨rfl, rfl⟩
  | pipeNoFd1 => exact h.goto_setFd hc nofun ⟨trivial, nofun⟩ ⟨rfl, rfl⟩
  | @pipeFd1 fd0 f0 f1 fd hfd hfree =>
    have hne : fd0 ≠ fd := by
      rintro rfl
      rw [hfits.2] at hfree
      cases hfree
    exact h.goto_setFd hc nofun
      ⟨⟨hfits.1, (ofile_setFd_ne hne).trans hfits.2⟩, ⟨hfd, ofile_setFd_self ..⟩, hne⟩ ⟨rfl, rfl⟩
  | @forkNone np i =>
    have hnp : np ≠ p := by
      rintro rfl
      rw [hfits.embryo] at hc
      cases hc
    refine h.run hc nofun (fun q hq _ => update_of_ne hq ..) (fun _ _ _ => rfl)
      (update_self ..) ⟨(update_of_ne hnp ..).trans hfits.embryo,
        fun j hj => hfits.above j (by omega)⟩ (fun _ => id) fun np' hnp' => ?_
    cases hnp'
    rw [show (s.goto p (.fork np (i + 1))).pc np = .embryo from
      (update_of_ne hnp ..).trans hfits.embryo]
    exact ⟨trivial, rfl⟩
  | @forkDup np i f hi =>
    have hnp : np ≠ p := by
      rintro rfl
      rw [hfits.embryo] at hc
      cases hc
    set s' := (s.setRef f ((s.file f).ref + 1)).goto p (.forkSet np i f)
    have hemb : s'.pc np = .embryo := (update_of_ne hnp ..).trans hfits.embryo
    refine h.run hc nofun (fun q hq _ => update_of_ne hq ..) (fun _ _ _ => rfl)
      (update_self ..) ⟨hi, hemb, hfits.above⟩ (fun _ => id) fun np' hnp' => ?_
    cases hnp'
    rw [hemb]
    exact ⟨trivial, rfl⟩
  | forkSet => exact h.forkSet hc
  | forkEnd => exact h.forkEnd hc
  | @exitNone fd hfd hfree =>
    refine h.goto hc nofun (fun j hj => ?_) ⟨rfl, rfl⟩
    rcases Nat.lt_succ_iff_lt_or_eq.mp hj with hlt | rfl
    · exact hfits j hlt
    · exact hfree
  | exitClose hfd hf =>
    refine h.goto hc nofun ⟨⟨hfd, hf, hfits⟩, fun fd' g heq => ?_⟩ ⟨rfl, rfl⟩
    cases heq
    rfl
  | @exitClear fd f =>
    refine h.goto_setFd hc nofun (fun j hj => ?_) ⟨rfl, rfl⟩
    rcases Nat.lt_succ_iff_lt_or_eq.mp hj with hlt | rfl
    · exact (ofile_setFd_ne hlt.ne).trans (hfits.below j hlt)
    · exact ofile_setFd_self ..
  | exitEnd hfd => exact h.goto hc nofun (fun j hj => hfits j (by omega)) ⟨rfl, rfl⟩
  | @closeOne f k =>
    exact h.setRef.goto hc nofun (Fits.resume (hfits.1.congr rfl)) ⟨rfl, resume_child k⟩
  | @closeLast f k =>
    have h' : Control (s.setFile f (s.file f).clear) := h.congr rfl rfl
    exact h'.goto hc nofun (hfits.1.congr rfl) ⟨rfl, rfl⟩
  | @releaseNone ff k =>
    exact h.goto hc nofun (Fits.resume (Cont.Fits.congr hfits rfl)) ⟨rfl, resume_child k⟩
  | @releasePipe ff k s₁ _ hclose =>
    obtain ⟨-, hof, hpc, -⟩ := hclose.frame
    have h' : Control s₁ := h.congr hpc hof
    have hc' := hpc ▸ hc
    exact h'.goto hc' nofun
      (Fits.resume (Cont.Fits.congr hfits (show s₁.ofile p = s.ofile p by rw [hof])))
      ⟨rfl, resume_child k⟩
  | releaseInode => exact h.setTrans.goto hc nofun (Cont.Fits.congr hfits rfl) ⟨rfl, rfl⟩
  | @put ff k =>
    have h' : Control ((s.record (.closed (.inode ff.id))).setTrans p false) := h.congr rfl rfl
    exact h'.goto hc nofun (Fits.resume (Cont.Fits.congr hfits rfl)) ⟨rfl, resume_child k⟩

theorem step {a : Act N} (hs : Step s a s') : Control s' := by
  cases hs with
  | run hr => exact h.run_step rfl hr
  | fail => exact h
  | «open» hpc => exact h.setTrans.goto hpc nofun trivial ⟨rfl, rfl⟩
  | @dup p a f fd fd' hpc hfd hf hfd' hnone =>
    refine h.goto_setFd hpc nofun ?_ ⟨rfl, rfl⟩
    have h₁ : slots ((s.setFd p fd' (some f)).goto p (.dup f)) p f = slots s p f + one f f :=
      slots_setFd_some hfd' hnone f
    have h₂ := one_le_slots hfd hf
    rw [one_self] at h₁
    show 2 ≤ slots _ p f
    linarith
  | close hpc => exact h.goto_setFd hpc nofun ⟨trivial, nofun⟩ ⟨rfl, rfl⟩
  | pipe hpc | copyout hpc => exact h.goto hpc nofun trivial ⟨rfl, rfl⟩
  | fork hpc hnp => exact h.fork hpc hnp
  | exit hpc => exact h.goto hpc nofun nofun ⟨rfl, rfl⟩
  | noPage hpc => exact h.goto hpc nofun ⟨trivial, nofun⟩ ⟨rfl, rfl⟩
  | @kalloc p f0 f1 pi hpc =>
    have h' : Control (s.openPipe pi f0 f1) := h.congr rfl rfl
    exact h'.goto hpc nofun trivial ⟨rfl, rfl⟩
  | noCopyout hpc =>
    refine h.own hpc nofun (fun _ hq => update_of_ne hq ..) (fun q hq => ?_)
      (update_self ..) ⟨trivial, nofun⟩ ⟨rfl, rfl⟩
    exact (update_of_ne hq ..).trans (update_of_ne hq ..)

end Control

end Xv6.Ftable
