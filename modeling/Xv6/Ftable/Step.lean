import Xv6.Ftable.Basic

/-!
What a step does to the open files, one case for each way through the code.
-/

namespace Xv6.Ftable

open Sys

variable {N : ℕ}

inductive Pipeclose (s : Sys N) (ff : File) : Sys N → Prop
  | first {x} (hx : s.page ff.pipe = some x)
      (hopen : (x.close ff.writable).readopen = true ∨ (x.close ff.writable).writeopen = true) :
      Pipeclose s ff ((s.record (.closed (.pipe ff.id ff.writable))).setPage ff.pipe
        (some (x.close ff.writable)))
  | last {x} (hx : s.page ff.pipe = some x) (hread : (x.close ff.writable).readopen = false)
      (hwrite : (x.close ff.writable).writeopen = false) :
      Pipeclose s ff (((s.record (.closed (.pipe ff.id ff.writable))).setPage ff.pipe none).record
        (.freed x.id))

theorem pipeclose_cases {s s' : Sys N} {ff : File} (h : s.pipeclose ff = .ok s') :
    Pipeclose s ff s' := by
  unfold Sys.pipeclose at h
  split at h
  · cases h
  · rename_i x hx
    dsimp only at h
    split_ifs at h with hclosed
    · cases h
      exact .last hx hclosed.1 hclosed.2
    · cases h
      refine .first hx ?_
      by_contra hcon
      simp only [not_or, Bool.not_eq_true] at hcon
      exact hclosed hcon

/-- A step of the code of `p`, from the point `c`. -/
inductive Run (s : Sys N) (p : Fin N) : Pc N → Sys N → Prop
  | dup {f} (href : 1 ≤ (s.file f).ref) :
      Run s p (.dup f) ((s.setRef f ((s.file f).ref + 1)).goto p .idle)
  | noFile {o} : Run s p (.open o) (s.goto p .openFail)
  | filealloc {o f} (hf : f < NFILE) (href : (s.file f).ref = 0) :
      Run s p (.open o) ((s.setRef f 1).goto p (.openFd o f))
  | openNoFd {o f} : Run s p (.openFd o f) (s.goto p (.fileclose f .openFail))
  | openFd {o f fd} (hfd : fd < NOFILE) (hnone : s.ofile p fd = none) :
      Run s p (.openFd o f) ((s.setFd p fd (some f)).goto p (.openSet o f fd))
  | openSet {o f fd} : Run s p (.openSet o f fd) ((s.openFile o f).goto p .openEnd)
  | openEnd : Run s p .openEnd ((s.setTrans p false).goto p .idle)
  | openFail : Run s p .openFail ((s.setTrans p false).goto p .idle)
  | pipeNoFile : Run s p .pipe (s.goto p .idle)
  | pipe {f} (hf : f < NFILE) (href : (s.file f).ref = 0) :
      Run s p .pipe ((s.setRef f 1).goto p (.pipe1 f))
  | pipe1NoFile {f0} : Run s p (.pipe1 f0) (s.goto p (.fileclose f0 .ret))
  | pipe1 {f0 f} (hf : f < NFILE) (href : (s.file f).ref = 0) :
      Run s p (.pipe1 f0) ((s.setRef f 1).goto p (.pipeKalloc f0 f))
  | pipeNoFd {f0 f1} : Run s p (.pipeFd f0 f1) (s.goto p (.fileclose f0 (.fileclose f1)))
  | pipeFd {f0 f1 fd} (hfd : fd < NOFILE) (hnone : s.ofile p fd = none) :
      Run s p (.pipeFd f0 f1) ((s.setFd p fd (some f0)).goto p (.pipeFd1 fd f0 f1))
  | pipeNoFd1 {fd0 f0 f1} :
      Run s p (.pipeFd1 fd0 f0 f1)
        ((s.setFd p fd0 none).goto p (.fileclose f0 (.fileclose f1)))
  | pipeFd1 {fd0 f0 f1 fd} (hfd : fd < NOFILE) (hnone : s.ofile p fd = none) :
      Run s p (.pipeFd1 fd0 f0 f1) ((s.setFd p fd (some f1)).goto p (.pipeCopy fd0 fd f0 f1))
  | forkNone {np i} (hi : i < NOFILE) (hnone : s.ofile p i = none) :
      Run s p (.fork np i) (s.goto p (.fork np (i + 1)))
  | forkDup {np i f} (hi : i < NOFILE) (hf : s.ofile p i = some f) (href : 1 ≤ (s.file f).ref) :
      Run s p (.fork np i) ((s.setRef f ((s.file f).ref + 1)).goto p (.forkSet np i f))
  | forkSet {np i f} :
      Run s p (.forkSet np i f) ((s.setFd np i (some f)).goto p (.fork np (i + 1)))
  | forkEnd {np i} (hi : NOFILE ≤ i) : Run s p (.fork np i) ((s.goto np .idle).goto p .idle)
  | exitNone {fd} (hfd : fd < NOFILE) (hnone : s.ofile p fd = none) :
      Run s p (.exit fd) (s.goto p (.exit (fd + 1)))
  | exitClose {fd f} (hfd : fd < NOFILE) (hf : s.ofile p fd = some f) :
      Run s p (.exit fd) (s.goto p (.fileclose f (.exit fd f)))
  | exitClear {fd f} : Run s p (.exitClear fd f) ((s.setFd p fd none).goto p (.exit (fd + 1)))
  | exitEnd {fd} (hfd : NOFILE ≤ fd) : Run s p (.exit fd) (s.goto p .dead)
  | closeOne {f k} (href : 1 < (s.file f).ref) :
      Run s p (.fileclose f k) ((s.setRef f ((s.file f).ref - 1)).goto p k.resume)
  | closeLast {f k} (href : (s.file f).ref = 1) :
      Run s p (.fileclose f k)
        ((s.setFile f (s.file f).clear).goto p
          (.release (s.file f) k))
  | releaseNone {ff k} (htype : ff.type = .FD_NONE) :
      Run s p (.release ff k) (s.goto p k.resume)
  | releasePipe {ff k s'} (htype : ff.type = .FD_PIPE) (h : Pipeclose s ff s') :
      Run s p (.release ff k) (s'.goto p k.resume)
  | releaseInode {ff k} (htype : ff.obj = some (.inode ff.id)) (htrans : s.trans p = false) :
      Run s p (.release ff k) ((s.setTrans p true).goto p (.put ff k))
  | put {ff k} :
      Run s p (.put ff k)
        (((s.record (.closed (.inode ff.id))).setTrans p false).goto p k.resume)

inductive Step (s : Sys N) : Act N → Sys N → Prop
  | run {p s'} (h : Run s p (s.pc p) s') : Step s (.step p) s'
  | fail {a} : Step s a s
  | open {p o} (hpc : s.pc p = .idle) (htrans : s.trans p = false) :
      Step s (.open p o) ((s.setTrans p true).goto p (.open o))
  | dup {p a f fd fd'} (hpc : s.pc p = .idle) (hfd : fd < NOFILE) (hf : s.ofile p fd = some f)
      (hfd' : fd' < NOFILE) (hnone : s.ofile p fd' = none) :
      Step s (.dup p a) ((s.setFd p fd' (some f)).goto p (.dup f))
  | close {p a f fd} (hpc : s.pc p = .idle) (hfd : fd < NOFILE) (hf : s.ofile p fd = some f) :
      Step s (.close p a) ((s.setFd p fd none).goto p (.fileclose f .ret))
  | pipe {p} (hpc : s.pc p = .idle) : Step s (.pipe p) (s.goto p .pipe)
  | fork {p np} (hpc : s.pc p = .idle) (hnp : s.pc np = .dead) :
      Step s (.fork p np) ((s.goto np .embryo).goto p (.fork np 0))
  | exit {p} (hpc : s.pc p = .idle) : Step s (.exit p) (s.goto p (.exit 0))
  | noPage {p f0 f1} (hpc : s.pc p = .pipeKalloc f0 f1) :
      Step s (.kalloc p none) (s.goto p (.fileclose f0 (.fileclose f1)))
  | kalloc {p f0 f1 pi} (hpc : s.pc p = .pipeKalloc f0 f1) (hpage : s.page pi = none) :
      Step s (.kalloc p (some pi)) ((s.openPipe pi f0 f1).goto p (.pipeFd f0 f1))
  | copyout {p fd0 fd1 f0 f1} (hpc : s.pc p = .pipeCopy fd0 fd1 f0 f1) :
      Step s (.copyout p true) (s.goto p .idle)
  | noCopyout {p fd0 fd1 f0 f1} (hpc : s.pc p = .pipeCopy fd0 fd1 f0 f1) :
      Step s (.copyout p false)
        (((s.setFd p fd0 none).setFd p fd1 none).goto p (.fileclose f0 (.fileclose f1)))

variable {s s' : Sys N} {p : Fin N}

theorem filealloc_some {f : ℕ} (h : s.filealloc = some f) : f < NFILE ∧ (s.file f).ref = 0 := by
  obtain ⟨hlt, hfree⟩ := firstFree_some h
  exact ⟨by simpa using hlt, of_decide_eq_true hfree⟩

theorem fdalloc_some {fd : ℕ} (h : s.fdalloc p = some fd) : fd < NOFILE ∧ s.ofile p fd = none := by
  obtain ⟨hlt, hfree⟩ := firstFree_some h
  exact ⟨by simpa using hlt, of_decide_eq_true hfree⟩

theorem argfd_some {fd : ℤ} {f : ℕ} (h : s.argfd p fd = some f) :
    fd.toNat < NOFILE ∧ s.ofile p fd.toNat = some f := by
  unfold Sys.argfd at h
  split_ifs at h with hfd
  exact ⟨by omega, h⟩

theorem allocThen_cases {fail : Pc N} {next : ℕ → Pc N} :
    s.allocThen p fail next = s.goto p fail ∨
      ∃ f, f < NFILE ∧ (s.file f).ref = 0 ∧
        s.allocThen p fail next = (s.setRef f 1).goto p (next f) := by
  unfold Sys.allocThen
  split
  · exact .inl rfl
  · rename_i f hf
    obtain ⟨hlt, href⟩ := filealloc_some hf
    exact .inr ⟨f, hlt, href, rfl⟩

theorem run_cases (h : s.run p = .ok s') : Run s p (s.pc p) s' := by
  unfold Sys.run at h
  split at h <;> rename_i hpc <;> first | cases h; done | rw [hpc]
  · split_ifs at h with href
    cases h
    exact .dup (by omega)
  · cases h
    rcases allocThen_cases (s := s) (p := p) with heq | ⟨f, hf, href, heq⟩ <;> rw [heq]
    · exact .noFile
    · exact .filealloc hf href
  · split at h <;> cases h
    · exact .openNoFd
    · rename_i fd hfd
      exact .openFd (fdalloc_some hfd).1 (fdalloc_some hfd).2
  · cases h
    exact .openSet
  · cases h
    exact .openEnd
  · cases h
    exact .openFail
  · cases h
    rcases allocThen_cases (s := s) (p := p) with heq | ⟨f, hf, href, heq⟩ <;> rw [heq]
    · exact .pipeNoFile
    · exact .pipe hf href
  · cases h
    rcases allocThen_cases (s := s) (p := p) with heq | ⟨f, hf, href, heq⟩ <;> rw [heq]
    · exact .pipe1NoFile
    · exact .pipe1 hf href
  · split at h <;> cases h
    · exact .pipeNoFd
    · rename_i fd hfd
      exact .pipeFd (fdalloc_some hfd).1 (fdalloc_some hfd).2
  · split at h <;> cases h
    · exact .pipeNoFd1
    · rename_i fd hfd
      exact .pipeFd1 (fdalloc_some hfd).1 (fdalloc_some hfd).2
  · split_ifs at h with hi
    · split at h
      · rename_i hnone
        cases h
        exact .forkNone hi hnone
      · rename_i f hf
        split_ifs at h with href
        cases h
        exact .forkDup hi hf (by omega)
    · cases h
      exact .forkEnd (by omega)
  · cases h
    exact .forkSet
  · split_ifs at h with hfd
    · split at h <;> cases h
      · rename_i hnone
        exact .exitNone hfd hnone
      · rename_i f hf
        exact .exitClose hfd hf
    · cases h
      exact .exitEnd (by omega)
  · cases h
    exact .exitClear
  · dsimp only at h
    split_ifs at h with href hone <;> cases h
    · exact .closeOne (by omega)
    · exact .closeLast (by omega)
  · split at h
    · rename_i htype
      cases h
      exact .releaseNone htype
    · rename_i htype
      rcases hclose : s.pipeclose _ with _ | s₁
      · rw [hclose] at h
        cases h
      · rw [hclose] at h
        cases h
        exact .releasePipe htype (pipeclose_cases hclose)
    · rename_i ff k _ hnone hpipe
      unfold Sys.beginOp at h
      split_ifs at h with htrans <;> cases h
      refine .releaseInode ?_ (Bool.eq_false_iff.mpr htrans)
      unfold File.obj
      split
      · exact absurd ‹_› hnone
      · exact absurd ‹_› hpipe
      · rfl
      · rfl
  · cases h
    exact .put

theorem step_cases {a : Act N} (h : s.step a = .ok s') : Step s a s' := by
  cases a with
  | step p => exact .run (run_cases h)
  | «open» p o =>
    simp only [Sys.step] at h
    split at h
    · rename_i hpc
      unfold Sys.beginOp at h
      split_ifs at h with htrans <;> cases h
      exact .open hpc (Bool.eq_false_iff.mpr htrans)
    · cases h
  | dup p fd =>
    simp only [Sys.step] at h
    split at h
    · rename_i hpc
      split at h
      · cases h
        exact .fail
      · rename_i f hf
        split at h <;> cases h
        · exact .fail
        · rename_i fd' hfd'
          exact .dup hpc (argfd_some hf).1 (argfd_some hf).2 (fdalloc_some hfd').1
            (fdalloc_some hfd').2
    · cases h
  | close p fd =>
    simp only [Sys.step] at h
    split at h
    · rename_i hpc
      split at h <;> cases h
      · exact .fail
      · rename_i f hf
        exact .close hpc (argfd_some hf).1 (argfd_some hf).2
    · cases h
  | pipe p =>
    simp only [Sys.step] at h
    split at h <;> cases h
    exact .pipe ‹_›
  | fork p np =>
    simp only [Sys.step] at h
    split at h <;> cases h
    exact .fork ‹_› ‹_›
  | exit p =>
    simp only [Sys.step] at h
    split at h <;> cases h
    exact .exit ‹_›
  | kalloc p pi =>
    simp only [Sys.step] at h
    split at h
    · cases h
      exact .noPage ‹_›
    · split at h <;> cases h
      exact .kalloc ‹_› ‹_›
    · cases h
  | copyout p ok =>
    simp only [Sys.step] at h
    split at h
    · rename_i hpc
      split_ifs at h with hok <;> cases h
      · subst hok
        exact .copyout hpc
      · rw [Bool.eq_false_iff.mpr hok]
        exact .noCopyout hpc
    · cases h

end Xv6.Ftable
