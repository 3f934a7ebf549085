import Xv6.Ftable.Control

/-!
Every reference to an open file is counted, and a file whose entry is free has
no type.

The second follows from the first: while a call sets up a file, its reference
is the only one, so nobody else gives the file a type (`blanks`).
-/

namespace Xv6.Ftable

open List
open Sys
open Function (update update_self update_of_ne)

variable {N : ℕ}

theorem openFile_ref (s : Sys N) (o : Open) (f g : ℕ) :
    ((s.openFile o f).file g).ref = (s.file g).ref :=
  update_proj (f := s.file) (fun x => x.ref) rfl

theorem openPipe_ref (s : Sys N) (pi f0 f1 g : ℕ) :
    ((s.openPipe pi f0 f1).file g).ref = (s.file g).ref := by
  set file₁ := update s.file f0 ((s.file f0).openPipe false pi s.next) with hfile₁
  have h₁ : (file₁ g).ref = (s.file g).ref := update_proj (f := s.file) (fun x => x.ref) rfl
  have h₂ : ((s.openPipe pi f0 f1).file g).ref = (file₁ g).ref :=
    update_proj (f := file₁) (fun x => x.ref) rfl
  exact h₂.trans h₁

def Counted (s : Sys N) : Prop := ∀ f, (s.file f).ref = ∑ q, share s q f

namespace Counted

variable {s s' : Sys N} {p np : Fin N} {c c' : Pc N} {f g fd : ℕ}

variable (h : Counted s)
include h

theorem change (hpc : ∀ q, q ≠ p → s'.pc q = s.pc q) (hof : ∀ q, q ≠ p → s'.ofile q = s.ofile q)
    (hp : ∀ f, (s'.file f).ref + share s p f = (s.file f).ref + share s' p f) : Counted s' := by
  intro f
  have hsum := sum_change (f := fun q => share s' q f) (g := fun q => share s q f)
    (Finset.mem_univ p) fun q _ hq => by rw [share, share, slots_congr (hof q hq), hpc q hq]
  have := h f
  have := hp f
  linarith

theorem goto (hc : s.pc p = c) (hcarry : ∀ f, c'.carry f = c.carry f) : Counted (s.goto p c') := by
  refine h.change (fun _ hq => update_of_ne hq ..) (fun _ _ => rfl) fun f => ?_
  have hself : (s.goto p c').pc p = c' := update_self ..
  rw [share, share, hself, hc, hcarry]
  rfl

theorem setFile {x : File} {d : ℤ} (hc : s.pc p = c) (hx : x.ref = (s.file g).ref + d)
    (hcarry : ∀ f, c'.carry f = c.carry f + d * one g f) : Counted ((s.setFile g x).goto p c') := by
  refine h.change (fun _ hq => update_of_ne hq ..) (fun _ _ => rfl) fun f => ?_
  have hself : ((s.setFile g x).goto p c').pc p = c' := update_self ..
  have hslots : slots ((s.setFile g x).goto p c') p f = slots s p f := rfl
  have hfile : (((s.setFile g x).goto p c').file f).ref = (s.file f).ref + d * one g f := by
    show (update s.file g x f).ref = _
    rcases eq_or_ne f g with rfl | hne
    · rw [update_self, hx, one_self, mul_one]
    · rw [update_of_ne hne, one, if_neg hne.symm, mul_zero, add_zero]
  rw [share, share, hself, hc, hcarry, hslots, hfile]
  ring

theorem setRef {n d : ℤ} (hc : s.pc p = c) (hn : n = (s.file g).ref + d)
    (hcarry : ∀ f, c'.carry f = c.carry f + d * one g f) : Counted ((s.setRef g n).goto p c') :=
  h.setFile hc hn hcarry

theorem setFd_some (hc : s.pc p = c) (hfd : fd < NOFILE)
    (hnone : s.ofile p fd = none) (hcarry : ∀ f, c'.carry f + one g f = c.carry f) :
    Counted ((s.setFd p fd (some g)).goto p c') := by
  refine h.change (fun _ hq => update_of_ne hq ..)
    (fun _ hq => update_of_ne hq ..) fun f => ?_
  have hself : ((s.setFd p fd (some g)).goto p c').pc p = c' := update_self ..
  have hslots : slots ((s.setFd p fd (some g)).goto p c') p f = slots s p f + one g f :=
    slots_setFd_some hfd hnone f
  have := hcarry f
  rw [share, share, hself, hc, hslots]
  show (s.file f).ref + _ = _
  linarith

theorem setFd_none (hc : s.pc p = c) (hfd : fd < NOFILE) (hsome : s.ofile p fd = some g)
    (hcarry : ∀ f, c'.carry f = c.carry f + one g f) : Counted ((s.setFd p fd none).goto p c') := by
  refine h.change (fun _ hq => update_of_ne hq ..)
    (fun _ hq => update_of_ne hq ..) fun f => ?_
  have hself : ((s.setFd p fd none).goto p c').pc p = c' := update_self ..
  have hslots : slots ((s.setFd p fd none).goto p c') p f = slots s p f - one g f :=
    slots_setFd_none hfd hsome f
  have := hcarry f
  rw [share, share, hself, hc, hslots]
  show (s.file f).ref + _ = _
  linarith

theorem congr (href : ∀ f, (s'.file f).ref = (s.file f).ref)
    (hpc : s'.pc = s.pc) (hof : s'.ofile = s.ofile) : Counted s' := by
  intro f
  rw [href, h f]
  refine Finset.sum_congr rfl fun q _ => ?_
  rw [share, share, hpc, slots_congr (by rw [hof])]

theorem forkSet {i : ℕ} (hctl : Control s) (hc : s.pc p = .forkSet np i f) :
    Counted ((s.setFd np i (some f)).goto p (.fork np (i + 1))) := by
  have hfits := hctl.fits p
  rw [hc] at hfits
  obtain ⟨hi, hemb, habove⟩ := hfits
  -- first the descriptor is set, then the process moves on
  have hmid : ∀ g, ((s.setFd np i (some f)).file g).ref + one f g =
      ∑ q, share (s.setFd np i (some f)) q g := by
    intro g
    have hsum := sum_change (f := fun q => share (s.setFd np i (some f)) q g)
      (g := fun q => share s q g) (Finset.mem_univ np) fun q _ hq => by
        rw [share, share, slots_setFd_ne hq]
        rfl
    have hnp : share (s.setFd np i (some f)) np g = share s np g + one f g := by
      rw [share, share, slots_setFd_some hi (habove i le_rfl hi)]
      show slots s np g + one f g + (s.pc np).carry g = _
      ring
    have hfile : ((s.setFd np i (some f)).file g).ref = (s.file g).ref := rfl
    have := h g
    linarith
  intro g
  have hsum := sum_change
    (f := fun q => share ((s.setFd np i (some f)).goto p (.fork np (i + 1))) q g)
    (g := fun q => share (s.setFd np i (some f)) q g) (Finset.mem_univ p) fun q _ hq => by
      rw [share, share, show ((s.setFd np i (some f)).goto p (.fork np (i + 1))).pc q =
        (s.setFd np i (some f)).pc q from update_of_ne hq ..]
      rfl
  have hself : share ((s.setFd np i (some f)).goto p (.fork np (i + 1))) p g + one f g =
      share (s.setFd np i (some f)) p g := by
    have hpc : ((s.setFd np i (some f)).goto p (.fork np (i + 1))).pc p = .fork np (i + 1) :=
      update_self ..
    have hpc' : (s.setFd np i (some f)).pc p = .forkSet np i f := hc
    rw [share, share, hpc, hpc']
    rfl
  have hfile : (((s.setFd np i (some f)).goto p (.fork np (i + 1))).file g).ref =
      ((s.setFd np i (some f)).file g).ref := rfl
  have := hmid g
  linarith

theorem run_step (hctl : Control s) (hc : s.pc p = c) (hs : Run s p c s') : Counted s' := by
  have hfits := hctl.fits p
  rw [hc] at hfits
  cases hs with
  | dup | forkDup => exact h.setRef (d := 1) hc rfl fun _ => by simp [Pc.carry]
  | noFile | pipeNoFile | pipeNoFd | forkNone | exitNone | exitEnd => exact h.goto hc fun _ => rfl
  | filealloc hf href | pipe hf href | pipe1 hf href =>
    exact h.setRef (d := 1) hc (by rw [href]; rfl) fun _ => by simp [Pc.carry]
  | openNoFd | pipe1NoFile | exitClose => exact h.goto hc fun _ => by simp [Pc.carry, Cont.carry]
  | openFd hfd hnone | pipeFd1 hfd hnone =>
    exact h.setFd_some hc hfd hnone fun _ => by simp [Pc.carry]
  | @openSet o f fd =>
    have h' := h.congr (openFile_ref s o f) rfl rfl
    exact h'.goto hc fun _ => rfl
  | openEnd | openFail =>
    have h' := h.congr (fun _ => rfl) rfl rfl
    exact h'.goto hc fun _ => rfl
  | pipeFd hfd hnone => exact h.setFd_some hc hfd hnone fun _ => by simp only [Pc.carry]; ring
  | pipeNoFd1 =>
    exact h.setFd_none hc hfits.1 hfits.2 fun _ => by simp only [Pc.carry, Cont.carry]; ring
  | forkSet => exact h.forkSet hctl hc
  | @forkEnd np i =>
    have hemb : Counted (s.goto np .idle) := h.goto hfits.embryo fun _ => rfl
    have hne : p ≠ np := by
      rintro rfl
      rw [hfits.embryo] at hc
      cases hc
    exact hemb.goto ((update_of_ne hne ..).trans hc) fun _ => rfl
  | exitClear => exact h.setFd_none hc hfits.lt hfits.eq fun _ => by simp [Pc.carry]
  | closeOne =>
    exact h.setRef (d := -1) hc rfl fun _ => by
      rw [carry_resume]
      simp only [Pc.carry]
      ring
  | closeLast href =>
    refine h.setFile (d := -1) hc ?_ fun _ => ?_
    · rw [href]
      rfl
    · simp only [Pc.carry]
      ring
  | releaseNone => exact h.goto hc fun _ => carry_resume ..
  | @releasePipe ff k s₁ _ hclose =>
    obtain ⟨hfile, hof, hpc, -⟩ := hclose.frame
    have h' : Counted s₁ := h.congr (fun _ => by rw [hfile]) hpc hof
    have hc' := hpc ▸ hc
    exact h'.goto hc' fun _ => carry_resume ..
  | releaseInode =>
    have h' := h.congr (fun _ => rfl) rfl rfl
    exact h'.goto hc fun _ => rfl
  | @put ff k =>
    have h' := h.congr (fun _ => rfl) rfl rfl
    exact h'.goto hc fun _ => carry_resume ..

theorem step {a : Act N} (hctl : Control s) (hs : Step s a s') : Counted s' := by
  cases hs with
  | run hr => exact h.run_step hctl rfl hr
  | fail => exact h
  | @«open» p o hpc =>
    have h' := h.congr (fun _ => rfl) rfl rfl
    exact h'.goto hpc fun _ => rfl
  | dup hpc hfd hf hfd' hnone => exact h.setFd_some hpc hfd' hnone fun _ => by simp [Pc.carry]
  | close hpc hfd hf => exact h.setFd_none hpc hfd hf fun _ => by simp [Pc.carry, Cont.carry]
  | pipe hpc | exit hpc | noPage hpc | copyout hpc => exact h.goto hpc fun _ => rfl
  | @fork p np hpc hnp =>
    have hemb : Counted (s.goto np .embryo) := h.goto hnp fun _ => rfl
    have hne : p ≠ np := by grind
    exact hemb.goto ((update_of_ne hne ..).trans hpc) fun _ => rfl
  | @kalloc p f0 f1 pi hpc =>
    have h' := h.congr (openPipe_ref s pi f0 f1) rfl rfl
    exact h'.goto hpc fun _ => rfl
  | @noCopyout p fd0 fd1 f0 f1 hpc =>
    have hfits := hctl.fits p
    rw [hpc] at hfits
    obtain ⟨⟨hfd0, hf0⟩, ⟨hfd1, hf1⟩, hne⟩ := hfits
    -- one descriptor after the other
    have h₁ : Counted ((s.setFd p fd0 none).goto p (.pipeFd1 fd1 f1 f0)) :=
      h.setFd_none hpc hfd0 hf0 fun _ => by simp [Pc.carry]
    have hc₁ : ((s.setFd p fd0 none).goto p (.pipeFd1 fd1 f1 f0)).pc p = .pipeFd1 fd1 f1 f0 :=
      update_self ..
    have hf1' : ((s.setFd p fd0 none).goto p (.pipeFd1 fd1 f1 f0)).ofile p fd1 = some f1 :=
      (ofile_setFd_ne hne.symm).trans hf1
    have h₂ : Counted ((((s.setFd p fd0 none).goto p (.pipeFd1 fd1 f1 f0)).setFd p fd1 none).goto p
        (.fileclose f0 (.fileclose f1))) :=
      h₁.setFd_none hc₁ hfd1 hf1' fun _ => by simp only [Pc.carry, Cont.carry]
    refine h₂.congr (fun _ => rfl) ?_ rfl
    simp [Sys.goto, setFd]

theorem share_le (hctl : Control s) (q : Fin N) (f : ℕ) : share s q f ≤ (s.file f).ref := by
  rw [h f]
  exact Finset.single_le_sum (f := fun r => share s r f)
    (fun r _ => (hctl.fits r).share_nonneg f) (Finset.mem_univ q)

theorem share_add_le (hctl : Control s) {q : Fin N} (hne : p ≠ q) (f : ℕ) :
    share s p f + share s q f ≤ (s.file f).ref := by
  rw [h f]
  have := Finset.add_le_sum (f := fun r => share s r f) (s := Finset.univ)
    (fun r _ => (hctl.fits r).share_nonneg f) (Finset.mem_univ p) (Finset.mem_univ q) hne
  exact this

end Counted

/-! ### Types -/

def Cont.trans : Cont → Bool
  | .openFail => true
  | _ => false

namespace Pc

/-- New files that a call has not set up yet. -/
def blanks : Pc N → List ℕ
  | .openFd _ f => [f]
  | .openSet _ f _ => [f]
  | .pipe1 f0 => [f0]
  | .pipeKalloc f0 f1 => [f0, f1]
  | .fileclose f .openFail => [f]
  | _ => []

def trans : Pc N → Bool
  | .open _ => true
  | .openFd _ _ => true
  | .openSet _ _ _ => true
  | .openEnd => true
  | .openFail => true
  | .fileclose _ k => k.trans
  | .release _ k => k.trans
  | .put _ _ => true
  | _ => false

/-- In the error path of `sys_open` the file that is closed has no type. -/
def Untyped : Pc N → Prop
  | .release ff .openFail => ff.type = .FD_NONE
  | .put _ .openFail => False
  | _ => True

end Pc

theorem resume_blanks (k : Cont) : (k.resume : Pc N).blanks = [] := by
  cases k <;> rfl

theorem resume_trans (k : Cont) : (k.resume : Pc N).trans = k.trans := by
  cases k <;> rfl

theorem resume_untyped (k : Cont) : (k.resume : Pc N).Untyped := by
  cases k <;> trivial

theorem Fits.share_fileclose {s : Sys N} {p : Fin N} {f : ℕ} {k : Cont}
    (h : Fits s p (s.pc p)) (hc : s.pc p = .fileclose f k) : 1 ≤ share s p f := by
  have hs := slots_nonneg s p f
  rw [hc] at h
  rw [share, hc]
  simp only [Pc.carry, one_self]
  cases k with
  | exit fd g =>
    obtain rfl := h.2 fd g rfl
    have := one_le_slots h.1.lt h.1.eq
    simp only [Cont.carry, one_self]
    linarith
  | fileclose g =>
    have := one_nonneg g f
    simp only [Cont.carry]
    linarith
  | _ =>
    simp only [Cont.carry]
    linarith

theorem Fits.share_blank {s : Sys N} {p : Fin N} {f : ℕ} (h : Fits s p (s.pc p))
    (hf : f ∈ (s.pc p).blanks) : 1 ≤ share s p f := by
  have hs := slots_nonneg s p f
  rcases hc : s.pc p with _ | _ | _ | _ | _ | ⟨o, g⟩ | ⟨o, g, fd⟩ | _ | _ | _ | g | ⟨g, g'⟩ | _ |
    _ |
    _ | _ | _ | _ | _ | ⟨g, k⟩ | _ | _ <;> rw [hc] at hf
  case openFd =>
    obtain rfl := mem_singleton.mp hf
    rw [share, hc]
    simp only [Pc.carry, one_self]
    linarith
  case openSet =>
    obtain rfl := mem_singleton.mp hf
    rw [hc] at h
    rw [share, hc]
    have := one_le_slots h.1 h.2
    simp only [Pc.carry]
    linarith
  case pipe1 =>
    obtain rfl := mem_singleton.mp hf
    rw [share, hc]
    simp only [Pc.carry, one_self]
    linarith
  case pipeKalloc =>
    rw [share, hc]
    have h₁ := one_nonneg g f
    have h₂ := one_nonneg g' f
    simp only [Pc.carry]
    simp only [Pc.blanks, mem_cons, not_mem_nil, or_false] at hf
    rcases hf with rfl | rfl
    · rw [one_self] at h₁ ⊢
      linarith
    · rw [one_self] at h₂ ⊢
      linarith
  case fileclose =>
    cases k with
    | openFail =>
      obtain rfl := mem_singleton.mp hf
      exact h.share_fileclose hc
    | _ => cases hf
  all_goals cases hf

/-- Entries that are free, and files that are not set up, have no type. -/
structure Typed (s : Sys N) : Prop where
  free : ∀ f, (s.file f).ref = 0 → (s.file f).type = .FD_NONE
  lt : ∀ f, (s.file f).ref ≠ 0 → f < NFILE
  blank : ∀ p f, f ∈ (s.pc p).blanks → (s.file f).ref = 1 ∧ (s.file f).type = .FD_NONE
  untyped : ∀ p, (s.pc p).Untyped
  trans : ∀ p, s.trans p = (s.pc p).trans

namespace Typed

variable {s s' : Sys N} {p np : Fin N} {c c' : Pc N} {f g fd : ℕ}

variable (h : Typed s)
include h

theorem move (hfile : s'.file = s.file) (hpc : s'.pc = update s.pc p c')
    (htrans' : ∀ q, q ≠ p → s'.trans q = s.trans q) (hblank : ∀ f ∈ c'.blanks, f ∈ (s.pc p).blanks)
    (huntyped : c'.Untyped) (htrans : s'.trans p = c'.trans) : Typed s' := by
  refine ⟨hfile ▸ h.free, hfile ▸ h.lt, fun q f hf => ?_, fun q => ?_, fun q => ?_⟩
  all_goals rcases eq_or_ne q p with rfl | hq
  · grind [Typed, congrFun hpc]
  · rw [hpc, update_of_ne hq] at hf
    rw [hfile]
    exact h.blank q f hf
  · rw [hpc, update_self]
    exact huntyped
  · rw [hpc, update_of_ne hq]
    exact h.untyped q
  · rw [hpc, update_self]
    exact htrans
  · rw [hpc, update_of_ne hq, htrans' q hq]
    exact h.trans q

theorem goto (hc : s.pc p = c) (hblank : ∀ f ∈ c'.blanks, f ∈ c.blanks)
    (huntyped : c'.Untyped) (htrans : c'.trans = c.trans) : Typed (s.goto p c') := by
  subst hc
  exact h.move rfl rfl (fun _ _ => rfl) hblank huntyped ((h.trans p).trans htrans.symm)

theorem setFile {x : File} (hcnt : Counted s) (hctl : Control s)
    (hfile : s'.file = update s.file g x) (hpc : s'.pc = update s.pc p c')
    (htrans' : ∀ q, q ≠ p → s'.trans q = s.trans q) (htouch : (s.file g).ref = 0 ∨ 1 ≤ share s p g)
    (hfree : x.ref = 0 → x.type = .FD_NONE) (hlt : x.ref ≠ 0 → g < NFILE)
    (hblank : ∀ f ∈ c'.blanks, f = g ∧ x.ref = 1 ∧ x.type = .FD_NONE ∨ f ≠ g ∧ f ∈ (s.pc p).blanks)
    (huntyped : c'.Untyped) (htrans : s'.trans p = c'.trans) : Typed s' := by
  have hself : s'.file g = x := by rw [hfile, update_self]
  have hother : ∀ f, f ≠ g → s'.file f = s.file f := fun f hf => by
    rw [hfile, update_of_ne hf]
  -- a file that another process has not set up is another file
  have hne : ∀ q, q ≠ p → ∀ f ∈ (s.pc q).blanks, f ≠ g := by
    rintro q hq f hf rfl
    have hone := (h.blank q f hf).1
    have hshare := (hctl.fits q).share_blank hf
    rcases htouch with hzero | htouch
    · rw [hone] at hzero
      cases hzero
    · have := hcnt.share_add_le hctl hq f
      linarith
  refine ⟨fun f hf => ?_, fun f hf => ?_, fun q f hf => ?_, fun q => ?_, fun q => ?_⟩
  · grind [h.free]
  · grind [Typed]
  · grind [congrFun hpc, h.blank]
  · grind [congrFun hpc, h.untyped]
  · grind [congrFun hpc, h.trans]

theorem more (hcnt : Counted s) (hctl : Control s) (hc : s.pc p = c) (href : 1 ≤ (s.file g).ref)
    (htouch : 1 ≤ share s p g) (hblank : c'.blanks = []) (huntyped : c'.Untyped)
    (htrans : c'.trans = c.trans) : Typed ((s.setRef g ((s.file g).ref + 1)).goto p c') := by
  subst hc
  refine h.setFile hcnt hctl rfl rfl (fun _ _ => rfl) (.inr htouch) (fun h₀ => ?_) (fun _ => ?_) ?_
    huntyped ((h.trans p).trans htrans.symm)
  · have : (s.file g).ref + 1 = 0 := h₀
    omega
  · exact h.lt g (by omega)
  · rw [hblank]
    exact nofun

theorem alloc (hcnt : Counted s) (hctl : Control s) (hc : s.pc p = c) (hg : g < NFILE)
    (href : (s.file g).ref = 0) (hblank : ∀ f ∈ c'.blanks, f = g ∨ f ∈ c.blanks)
    (huntyped : c'.Untyped) (htrans : c'.trans = c.trans) : Typed ((s.setRef g 1).goto p c') := by
  subst hc
  refine h.setFile hcnt hctl rfl rfl (fun _ _ => rfl) (.inl href) nofun (fun _ => hg)
    (fun f hf => ?_) huntyped ((h.trans p).trans htrans.symm)
  rcases eq_or_ne f g with rfl | hne
  · exact .inl ⟨rfl, rfl, h.free f href⟩
  · exact .inr ⟨hne, (hblank f hf).resolve_left hne⟩

theorem setType {x : File} (hcnt : Counted s) (hctl : Control s) (hblank : (s.pc p).blanks = [])
    (htouch : 1 ≤ share s p g) (hx : x.ref = (s.file g).ref) : Typed (s.setFile g x) := by
  have hpos := htouch.trans (hcnt.share_le hctl p g)
  refine h.setFile hcnt hctl rfl (Function.update_eq_self p s.pc).symm (fun _ _ => rfl)
    (.inr htouch)
    (fun h₀ => ?_) (fun _ => h.lt g (by omega)) ?_ (h.untyped p) (h.trans p)
  · omega
  · rw [hblank]
    exact nofun

theorem kalloc {f0 f1 pi : ℕ} (hcnt : Counted s) (hctl : Control s)
    (hc : s.pc p = .pipeKalloc f0 f1) : Typed ((s.openPipe pi f0 f1).goto p (.pipeFd f0 f1)) := by
  set s₀ := s.goto p (.pipeFd f0 f1) with hs₀
  have h₀ : Typed s₀ := h.goto hc nofun trivial rfl
  have hcnt₀ : Counted s₀ := hcnt.goto hc fun _ => rfl
  have hctl₀ : Control s₀ := hctl.goto hc nofun trivial ⟨rfl, rfl⟩
  have hpc₀ : s₀.pc p = .pipeFd f0 f1 := update_self ..
  have hblank : (s₀.pc p).blanks = [] := by rw [hpc₀]; rfl
  have hshare : ∀ g, share s₀ p g = slots s₀ p g + (one f0 g + one f1 g) := fun g => by
    rw [share, hpc₀]
    rfl
  have htouch : ∀ g, g = f0 ∨ g = f1 → 1 ≤ share s₀ p g := by
    intro g hg
    have h₁ := slots_nonneg s₀ p g
    have h₂ := one_nonneg f0 g
    have h₃ := one_nonneg f1 g
    rw [hshare]
    rcases hg with rfl | rfl
    · rw [one_self] at h₂ ⊢
      linarith
    · rw [one_self] at h₃ ⊢
      linarith
  -- one file after the other
  set s₁ := s₀.setFile f0 ((s.file f0).openPipe false pi s.next) with hs₁
  have h₁ : Typed s₁ := h₀.setType hcnt₀ hctl₀ hblank (htouch f0 (.inl rfl)) rfl
  have hcnt₁ : Counted s₁ := hcnt₀.congr (fun g => update_proj (fun x : File => x.ref) rfl) rfl rfl
  have hctl₁ : Control s₁ := hctl₀.congr rfl rfl
  have h₂ : Typed (s₁.setFile f1 ((s₁.file f1).openPipe true pi s.next)) :=
    h₁.setType hcnt₁ hctl₁ hblank (htouch f1 (.inr rfl)) rfl
  exact { h₂ with }

theorem run_step (hcnt : Counted s) (hctl : Control s) (hc : s.pc p = c)
    (hs : Run s p c s') : Typed s' := by
  have hfits := hctl.fits p
  have huntyped := h.untyped p
  have htrans := h.trans p
  rw [hc] at huntyped htrans
  cases hs with
  | @dup f href =>
    refine h.more hcnt hctl hc href ?_ rfl trivial rfl
    rw [hc] at hfits
    rw [share, hc]
    have : 2 ≤ slots s p f := hfits
    simp only [Pc.carry, one_self]
    linarith
  | noFile | pipeNoFile | pipe1NoFile | pipeNoFd | forkNone | exitNone | exitClose | exitEnd =>
    exact h.goto hc (by rintro _ ⟨⟩) trivial rfl
  | filealloc hf href | pipe hf href =>
    exact h.alloc hcnt hctl hc hf href (by simp [Pc.blanks]) trivial rfl
  | openNoFd => exact h.goto hc (fun _ => id) trivial rfl
  | openFd => exact h.move rfl rfl (fun _ _ => rfl) (by rw [hc]; exact fun _ => id) trivial htrans
  | @openSet o f fd =>
    have hmem : f ∈ (s.pc p).blanks := by rw [hc]; exact mem_singleton_self f
    have hblank := h.blank p f hmem
    refine h.setFile hcnt hctl rfl rfl (fun _ _ => rfl) (.inr (hfits.share_blank hmem))
      (fun h₀ => ?_) (fun _ => h.lt f ?_) (by rintro _ ⟨⟩) trivial htrans
    · have : (s.file f).ref = 0 := h₀
      omega
    · omega
  | openEnd | openFail =>
    exact h.move rfl rfl (fun _ hq => update_of_ne hq ..) (by rintro _ ⟨⟩) trivial
      (update_self ..)
  | pipe1 hf href => exact h.alloc hcnt hctl hc hf href (by simp [Pc.blanks, or_comm]) trivial rfl
  | pipeFd | pipeNoFd1 | pipeFd1 | forkSet | exitClear =>
    exact h.move rfl rfl (fun _ _ => rfl) (by rintro _ ⟨⟩) trivial htrans
  | @forkDup np i f hi hf href =>
    refine h.more hcnt hctl hc href ?_ rfl trivial rfl
    rw [share, hc]
    have := one_le_slots hi hf
    simp only [Pc.carry]
    linarith
  | @forkEnd np i =>
    rw [hc] at hfits
    have hne : p ≠ np := by
      rintro rfl
      rw [hfits.embryo] at hc
      cases hc
    have h' : Typed (s.goto np .idle) := h.goto hfits.embryo (by rintro _ ⟨⟩) trivial rfl
    exact h'.goto ((update_of_ne hne ..).trans hc) (by rintro _ ⟨⟩) trivial rfl
  | @closeOne f k href =>
    refine h.setFile hcnt hctl rfl rfl (fun _ _ => rfl) (.inr (hfits.share_fileclose hc))
      (fun h₀ => ?_) (fun _ => h.lt f (by omega)) ?_ (resume_untyped k)
      (htrans.trans (resume_trans k).symm)
    · have : (s.file f).ref - 1 = 0 := h₀
      omega
    · rw [resume_blanks]
      exact (by rintro _ ⟨⟩)
  | @closeLast f k href =>
    refine h.setFile hcnt hctl rfl rfl (fun _ _ => rfl) (.inr (hfits.share_fileclose hc))
      (fun _ => rfl) (fun h₀ => absurd rfl h₀) (by rintro _ ⟨⟩) ?_ htrans
    cases k with
    | openFail => exact (h.blank p f (by rw [hc]; exact mem_singleton_self f)).2
    | _ => trivial
  | @releaseNone ff k =>
    refine h.goto hc ?_ (resume_untyped k) (resume_trans k)
    rw [resume_blanks]
    exact (by rintro _ ⟨⟩)
  | @releasePipe ff k s₁ _ hclose =>
    obtain ⟨hfile, hof, hpc, htr, -⟩ := hclose.frame
    refine h.move hfile ?_ (fun _ _ => congrFun htr _) ?_ (resume_untyped k)
      ((congrFun htr p).trans (htrans.trans (resume_trans k).symm))
    · rw [← hpc]
      rfl
    · rw [resume_blanks]
      exact (by rintro _ ⟨⟩)
  | @releaseInode ff k htype =>
    refine h.move rfl rfl (fun _ hq => update_of_ne hq ..) (by rintro _ ⟨⟩) ?_
      (update_self ..)
    cases k with
    | openFail => grind [Pc.Untyped, File.obj]
    | _ => trivial
  | @put ff k =>
    refine h.move rfl rfl (fun _ hq => update_of_ne hq ..) ?_ (resume_untyped k) ?_
    · rw [resume_blanks]
      exact (by rintro _ ⟨⟩)
    · refine (update_self ..).trans ?_
      cases k with
      | openFail => exact huntyped.elim
      | _ => rfl

theorem step {a : Act N} (hcnt : Counted s) (hctl : Control s) (hs : Step s a s') : Typed s' := by
  cases hs with
  | run hr => exact h.run_step hcnt hctl rfl hr
  | fail => exact h
  | «open» hpc =>
    exact h.move rfl rfl (fun _ hq => update_of_ne hq ..) nofun trivial
      (update_self ..)
  | @dup p _ _ _ _ hpc | @close p _ _ _ hpc | @noCopyout p _ _ _ _ hpc =>
    exact h.move rfl rfl (fun _ _ => rfl) nofun trivial ((h.trans p).trans (by rw [hpc]; rfl))
  | pipe hpc | exit hpc | noPage hpc | copyout hpc => exact h.goto hpc nofun trivial rfl
  | @fork p np hpc hnp =>
    have hne : p ≠ np := by grind
    have h' : Typed (s.goto np .embryo) := h.goto hnp nofun trivial rfl
    exact h'.goto ((update_of_ne hne ..).trans hpc) nofun trivial rfl
  | kalloc hpc => exact h.kalloc hcnt hctl hpc

end Typed

end Xv6.Ftable
