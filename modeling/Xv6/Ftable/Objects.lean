import Xv6.Ftable.Count

/-!
What files are open for is closed once.

An end of a pipe, or an inode reference, is held by the file that was opened
for it, then by the process in `fileclose` that has found the last reference to
the file gone, and then it is closed. The page of a pipe goes with its second
end.
-/

namespace Xv6.Ftable

open List
open Sys
open Function (update update_self update_of_ne)

variable {N : ℕ}

namespace Sys

def opened (s : Sys N) (e : Obj) : ℕ := s.log.count (.opened e)

/-- How often it was passed to `pipeclose` or `iput`. -/
def closed (s : Sys N) (e : Obj) : ℕ := s.log.count (.closed e)

def freed (s : Sys N) (n : ℕ) : ℕ := s.log.count (.freed n)

end Sys

def Obj.id : Obj → ℕ
  | .pipe n _ => n
  | .inode n => n

def Pc.drops : Pc N → Option Obj
  | .release ff _ => ff.obj
  | .put ff _ => ff.obj
  | _ => none

def Pc.PutsInode : Pc N → Prop
  | .put ff _ => ff.obj = some (.inode ff.id)
  | _ => True

def held (s : Sys N) (e : Obj) : ℕ :=
  cnt (Finset.range NFILE) (fun f => (s.file f).obj) (some e) +
    cnt Finset.univ (fun p => (s.pc p).drops) (some e)

theorem resume_putsInode (k : Cont) : (k.resume : Pc N).PutsInode := by
  cases k <;> trivial

theorem resume_drops (k : Cont) : (k.resume : Pc N).drops = none := by
  cases k <;> rfl

section Held

variable {s s' : Sys N} {p : Fin N} {c : Pc N} {g : ℕ} {x : File} {e : Obj}

theorem held_congr (hfile : ∀ f, (s'.file f).obj = (s.file f).obj) (hpc : s'.pc = s.pc) :
    held s' e = held s e := by
  simp only [held, hfile, hpc]

theorem held_setFile (hg : g < NFILE) :
    held (s.setFile g x) e + (if (s.file g).obj = some e then 1 else 0) =
      held s e + (if x.obj = some e then 1 else 0) := by
  have hfun : (fun f => ((s.setFile g x).file f).obj) =
      update (fun f => (s.file f).obj) g x.obj := by
    funext f
    rcases eq_or_ne f g with rfl | hne
    · simp [setFile]
    · simp [setFile, hne]
  have h := cnt_update (fun f => (s.file f).obj) (Finset.mem_range.mpr hg) x.obj (some e)
  rw [held, hfun, held]
  show _ + cnt Finset.univ (fun p => (s.pc p).drops) (some e) + _ = _
  omega

theorem held_goto :
    held (s.goto p c) e + (if (s.pc p).drops = some e then 1 else 0) =
      held s e + (if c.drops = some e then 1 else 0) := by
  have hfun : (fun q => ((s.goto p c).pc q).drops) =
      update (fun q => (s.pc q).drops) p c.drops := by
    funext q
    rcases eq_or_ne q p with rfl | hne
    · simp [Sys.goto]
    · simp [Sys.goto, hne]
  have h := cnt_update (fun q => (s.pc q).drops) (Finset.mem_univ p) c.drops (some e)
  rw [held, hfun, held]
  show cnt (Finset.range NFILE) (fun f => (s.file f).obj) (some e) + _ + _ = _
  omega

theorem held_goto_same (h : c.drops = (s.pc p).drops) : held (s.goto p c) e = held s e := by
  have := held_goto (s := s) (p := p) (c := c) (e := e)
  rw [h] at this
  omega

theorem held_file (hg : g < NFILE) (h : (s.file g).obj = some e) : 1 ≤ held s e := by
  have := cnt_pos (f := fun f => (s.file f).obj) (Finset.mem_range.mpr hg) h
  unfold held
  omega

theorem held_drop (h : (s.pc p).drops = some e) : 1 ≤ held s e := by
  have := cnt_pos (f := fun q => (s.pc q).drops) (Finset.mem_univ p) h
  unfold held
  omega

theorem held_file_drop (hg : g < NFILE) (h : (s.file g).obj = some e)
    (hp : (s.pc p).drops = some e) : 2 ≤ held s e := by
  have h₁ := cnt_pos (f := fun f => (s.file f).obj) (Finset.mem_range.mpr hg) h
  have h₂ := cnt_pos (f := fun q => (s.pc q).drops) (Finset.mem_univ p) hp
  unfold held
  omega

theorem held_drop_drop {q : Fin N} (hne : p ≠ q) (hp : (s.pc p).drops = some e)
    (hq : (s.pc q).drops = some e) : 2 ≤ held s e := by
  have h : 1 < cnt Finset.univ (fun q => (s.pc q).drops) (some e) :=
    Finset.one_lt_card.mpr ⟨p, by simpa using hp, q, by simpa using hq, hne⟩
  unfold held
  omega

end Held

/-- Everything that was opened, and only that, is held or closed. -/
structure Objects (s : Sys N) : Prop where
  balance : ∀ e, s.opened e = held s e + s.closed e
  once : ∀ e, s.opened e ≤ 1
  fresh : ∀ e, s.next ≤ e.id → s.opened e = 0
  put : ∀ p, (s.pc p).PutsInode

namespace Objects

variable {s s' : Sys N} {p np : Fin N} {c c' : Pc N} {f g : ℕ}

variable (h : Objects s)
include h

theorem move (hlog : s'.log = s.log) (hnext : s'.next = s.next)
    (hheld : ∀ e, held s' e = held s e) (hput : ∀ p, (s'.pc p).PutsInode) : Objects s' := by
  refine ⟨fun e => ?_, fun e => ?_, fun e he => ?_, hput⟩
  · rw [hheld, opened, closed, hlog]
    exact h.balance e
  · rw [opened, hlog]
    exact h.once e
  · rw [opened, hlog]
    exact h.fresh e (hnext ▸ he)

theorem put_goto (hpc : s'.pc = update s.pc p c')
    (hc' : c'.PutsInode) : ∀ p, (s'.pc p).PutsInode := by
  intro q
  rw [hpc]
  rcases eq_or_ne q p with rfl | hne
  · rw [update_self]
    exact hc'
  · rw [update_of_ne hne]
    exact h.put q

theorem goto (hc : s.pc p = c) (hdrops : c'.drops = c.drops)
    (hput : c'.PutsInode) : Objects (s.goto p c') := by
  subst hc
  exact h.move rfl rfl (fun _ => held_goto_same hdrops) (h.put_goto rfl hput)

theorem congr (hlog : s'.log = s.log) (hnext : s'.next = s.next)
    (hfile : ∀ f, (s'.file f).obj = (s.file f).obj) (hpc : s'.pc = s.pc) : Objects s' :=
  h.move hlog hnext (fun _ => held_congr hfile hpc) (hpc ▸ h.put)

theorem setRef {n : ℤ} : Objects (s.setRef f n) :=
  h.congr rfl rfl (fun _ => update_proj File.obj rfl) rfl

theorem setFd {fd : ℕ} {x : Option ℕ} : Objects (s.setFd p fd x) :=
  h.congr rfl rfl (fun _ => rfl) rfl

theorem setTrans {b : Bool} : Objects (s.setTrans p b) :=
  h.congr rfl rfl (fun _ => rfl) rfl

theorem open_file {x : File} {e : Obj} (hg : g < NFILE) (hnone : (s.file g).obj = none)
    (hx : x.obj = some e) (he : s.opened e = 0) (hfile : s'.file = update s.file g x)
    (hpc : s'.pc = s.pc) (hlog : s'.log = .opened e :: s.log) (hnext : e.id < s'.next)
    (hle : s.next ≤ s'.next) : Objects s' := by
  have hheld : ∀ e', held s' e' = held s e' + if e = e' then 1 else 0 := by
    intro e'
    have h₁ := held_setFile (s := s) (g := g) (x := x) (e := e') hg
    have h₂ : held s' e' = held (s.setFile g x) e' := by simp only [held, hfile, hpc, setFile]
    rw [hnone, hx] at h₁
    simp only [reduceCtorEq, if_false, Option.some.injEq] at h₁
    omega
  have hopened : ∀ e', s'.opened e' = s.opened e' + if e = e' then 1 else 0 := by grind [opened]
  have hclosed : ∀ e', s'.closed e' = s.closed e' := by grind [closed]
  refine ⟨fun e' => ?_, fun e' => ?_, fun e' he' => ?_, hpc ▸ h.put⟩
  · rw [hopened, hheld, hclosed, h.balance e']
    omega
  · grind [Objects]
  · rw [hopened, if_neg, h.fresh e' (hle.trans he')]
    rintro rfl
    omega

theorem close {e : Obj} (hdrops : (s.pc p).drops = some e)
    (hdrops' : c'.drops = none) (hfile : s'.file = s.file)
    (hpc : s'.pc = update s.pc p c')
    (hopened : ∀ e', s'.opened e' = s.opened e')
    (hclosed : ∀ e', s'.closed e' = s.closed e' + if e = e' then 1 else 0)
    (hnext : s'.next = s.next) (hput : c'.PutsInode) :
    Objects s' := by
  have hheld : ∀ e', held s' e' + (if e = e' then 1 else 0) = held s e' := by
    intro e'
    have h₁ := held_goto (s := s) (p := p) (c := c') (e := e')
    have h₂ : held s' e' = held (s.goto p c') e' := by simp only [held, hfile, hpc, Sys.goto]
    rw [hdrops, hdrops'] at h₁
    simp only [reduceCtorEq, if_false, Option.some.injEq] at h₁
    omega
  refine ⟨fun e' => ?_, fun e' => ?_, fun e' he' => ?_, h.put_goto hpc hput⟩
  · have := hheld e'
    have := h.balance e'
    rw [hopened, hclosed]
    omega
  · rw [hopened]
    exact h.once e'
  · rw [hopened]
    exact h.fresh e' (hnext ▸ he')

theorem closed_of_held {e : Obj} (he : 1 ≤ held s e) :
    s.closed e = 0 ∧ s.opened e = 1 ∧ held s e = 1 := by
  have := h.balance e
  have := h.once e
  omega

end Objects

theorem Typed.pipe_ne {s : Sys N} {p : Fin N} {f0 f1 : ℕ} (h : Typed s) (hcnt : Counted s)
    (hctl : Control s) (hc : s.pc p = .pipeKalloc f0 f1) : f0 ≠ f1 := by
  rintro rfl
  have hone := (h.blank p f0 (by rw [hc]; exact mem_cons_self ..)).1
  have hle := hcnt.share_le hctl p f0
  have hslots := slots_nonneg s p f0
  rw [share, hc] at hle
  simp only [Pc.carry, one_self] at hle
  linarith

theorem obj_none {x : File} (h : x.type = .FD_NONE) : x.obj = none := by
  rw [File.obj, h]

theorem obj_pipe {x : File} (h : x.type = .FD_PIPE) : x.obj = some (.pipe x.id x.writable) := by
  rw [File.obj, h]

theorem obj_openInode (x : File) (o : Open) (n : ℕ) : (x.openInode o n).obj = some (.inode n) := by
  simp only [File.openInode, File.obj]
  by_cases h : o.type = T_DEVICE
  · simp only [h, if_true]
  · simp only [h, if_false]

theorem Pipeclose.counts {s s' : Sys N} {ff : File} (h : Pipeclose s ff s') (e : Obj) :
    s'.opened e = s.opened e ∧
      s'.closed e = s.closed e + if Obj.pipe ff.id ff.writable = e then 1 else 0 := by
  cases h <;> constructor <;>
    simp only [opened, closed, setPage, record, count_cons, beq_iff_eq, reduceCtorEq, if_false,
      add_zero, Event.closed.injEq]

namespace Objects

variable {s s' : Sys N} {p np : Fin N} {c c' : Pc N} {f g : ℕ}

theorem kalloc {f0 f1 pi : ℕ} (h : Objects s) (htyp : Typed s) (hcnt : Counted s)
    (hctl : Control s) (hc : s.pc p = .pipeKalloc f0 f1) : Objects (s.openPipe pi f0 f1) := by
  have hne := htyp.pipe_ne hcnt hctl hc
  have hblank : ∀ f, f = f0 ∨ f = f1 → f < NFILE ∧ (s.file f).obj = none := by
    grind [Typed, Pc.blanks, obj_none]
  have hfresh : ∀ w, s.opened (.pipe s.next w) = 0 := fun w => h.fresh _ le_rfl
  -- one file after the other
  let s₁ : Sys N :=
    { s.setFile f0 ((s.file f0).openPipe false pi s.next) with
      log := .opened (.pipe s.next false) :: s.log
      next := s.next + 1 }
  have h₁ : Objects s₁ :=
    h.open_file (hblank f0 (.inl rfl)).1 (hblank f0 (.inl rfl)).2 (obj_pipe rfl) (hfresh false) rfl
      rfl rfl (Nat.lt_succ_self _) (Nat.le_succ _)
  have hfile : s₁.file f1 = s.file f1 := update_of_ne hne.symm ..
  have hopened : s₁.opened (.pipe s.next true) = 0 := by
    show count _ (_ :: s.log) = 0
    rw [count_cons_of_ne (by simp)]
    exact hfresh true
  exact h₁.open_file (hblank f1 (.inr rfl)).1 (hfile ▸ (hblank f1 (.inr rfl)).2) (obj_pipe rfl)
    hopened rfl rfl rfl (Nat.lt_succ_self _) le_rfl

theorem run_step (h : Objects s) (htyp : Typed s) (hctl : Control s)
    (hc : s.pc p = c) (hs : Run s p c s') : Objects s' := by
  have hfits := hctl.fits p
  cases hs with
  | dup | filealloc | pipe | pipe1 | forkDup => exact h.setRef.goto hc rfl trivial
  | noFile | openNoFd | pipeNoFile | pipe1NoFile | pipeNoFd | forkNone | exitNone | exitClose
  | exitEnd => exact h.goto hc rfl trivial
  | openFd | pipeFd | pipeNoFd1 | pipeFd1 | forkSet | exitClear => exact h.setFd.goto hc rfl trivial
  | @openSet o f fd =>
    have hmem : f ∈ (s.pc p).blanks := by rw [hc]; exact mem_singleton_self f
    obtain ⟨href, htype⟩ := htyp.blank p f hmem
    have h' : Objects (s.openFile o f) :=
      h.open_file (htyp.lt f (by omega)) (obj_none htype) (obj_openInode ..)
        (h.fresh _ le_rfl) rfl rfl rfl (Nat.lt_succ_self _) (Nat.le_succ _)
    exact h'.goto hc rfl trivial
  | openEnd | openFail => exact h.setTrans.goto hc rfl trivial
  | @forkEnd np i =>
    rw [hc] at hfits
    have hne : p ≠ np := by
      rintro rfl
      rw [hfits.embryo] at hc
      cases hc
    have h' : Objects (s.goto np .idle) := h.goto hfits.embryo rfl trivial
    exact h'.goto ((update_of_ne hne ..).trans hc) rfl trivial
  | closeOne => exact h.setRef.goto hc (resume_drops _) (resume_putsInode _)
  | @closeLast f k href =>
    -- the process takes over what the file was open for
    have hlt := htyp.lt f (by omega)
    refine h.move rfl rfl (fun e => ?_) (h.put_goto rfl trivial)
    have hnone : ¬ (none : Option Obj) = some e := nofun
    set s₁ := s.setFile f (s.file f).clear with hs₁
    have h₁ : held s₁ e + (if (s.file f).obj = some e then 1 else 0) = held s e := by
      have := held_setFile (s := s) (x := (s.file f).clear) (e := e) hlt
      rwa [obj_none (x := (s.file f).clear) rfl, if_neg hnone, add_zero] at this
    have h₂ : held (s₁.goto p (.release (s.file f) k)) e =
        held s₁ e + (if (s.file f).obj = some e then 1 else 0) := by
      have := held_goto (s := s₁) (p := p) (c := .release (s.file f) k) (e := e)
      rwa [show s₁.pc p = .fileclose f k from hc,
        show (Pc.fileclose f k : Pc N).drops = none from rfl,
        if_neg hnone, add_zero] at this
    exact h₂.trans h₁
  | releaseNone htype =>
    refine h.goto hc ?_ (resume_putsInode _)
    rw [resume_drops]
    exact (obj_none htype).symm
  | @releasePipe ff k s₁ htype hclose =>
    obtain ⟨hfile, -, hpc, -, hnext⟩ := hclose.frame
    refine h.close (p := p) (e := .pipe ff.id ff.writable) ?_ (resume_drops k) hfile ?_
      (fun e => (hclose.counts e).1) (fun e => (hclose.counts e).2) hnext (resume_putsInode _)
    · rw [hc]
      exact obj_pipe htype
    · rw [← hpc]
      rfl
  | releaseInode htype => exact h.setTrans.goto hc rfl htype
  | @put ff k =>
    refine h.close (p := p) (e := .inode ff.id) ?_ (resume_drops k) rfl rfl (fun e => ?_)
      (fun e => ?_)
      rfl (resume_putsInode _)
    · rw [hc]
      have := h.put p
      rw [hc] at this
      exact this
    · show count _ (_ :: s.log) = _
      rw [count_cons_of_ne (by simp), opened]
    · show count _ (_ :: s.log) = _
      simp only [count_cons, beq_iff_eq, Event.closed.injEq, closed]

theorem step {a : Act N} (h : Objects s) (htyp : Typed s) (hcnt : Counted s) (hctl : Control s)
    (hs : Step s a s') : Objects s' := by
  cases hs with
  | run hr => exact h.run_step htyp hctl rfl hr
  | fail => exact h
  | «open» hpc => exact h.setTrans.goto hpc rfl trivial
  | dup hpc | close hpc => exact h.setFd.goto hpc rfl trivial
  | pipe hpc | exit hpc | noPage hpc | copyout hpc => exact h.goto hpc rfl trivial
  | @fork p np hpc hnp =>
    have hne : p ≠ np := by grind
    have h' : Objects (s.goto np .embryo) := h.goto hnp rfl trivial
    exact h'.goto ((update_of_ne hne ..).trans hpc) rfl trivial
  | @kalloc p f0 f1 pi hpc =>
    have h' : Objects (s.openPipe pi f0 f1) := h.kalloc htyp hcnt hctl hpc
    exact h'.goto hpc rfl trivial
  | noCopyout hpc => exact h.setFd.setFd.goto hpc rfl trivial

end Objects

end Xv6.Ftable
