import Xv6.Itable.Basic

/-!
What a step does to the inode table, one case for each way through the code.
-/

namespace Xv6.Itable

open Sys

variable {N : ℕ}

inductive Iget (s : Sys N) (p : Fin N) (dev inum : ℕ) : Sys N → Prop
  | hit {k} (hk : k < NINODE) (href : 0 < (s.tab k).ref) (hdev : (s.tab k).dev = dev)
      (hinum : (s.tab k).inum = inum) :
      Iget s p dev inum ((s.setEntry k fun e => { e with ref := e.ref + 1 }).take p k)
  | recycle {k} (hk : k < NINODE) (href : (s.tab k).ref = 0)
      (hnone : ∀ k', k' < NINODE → 0 < (s.tab k').ref → (s.tab k').dev = dev →
        (s.tab k').inum ≠ inum) :
      Iget s p dev inum
        ((s.setEntry k fun e =>
          { e with dev := dev, inum := inum, ref := 1, valid := false }).take p k)

theorem iget_cases {s s' : Sys N} {p : Fin N} {dev inum : ℕ} (h : s.iget p dev inum = .ok s') :
    Iget s p dev inum s' := by
  unfold Sys.iget at h
  split at h
  · rename_i k hscan
    cases h
    obtain ⟨href, hdev, hinum⟩ := igetScan_inl hscan
    exact .hit (by simpa using igetScan_lt hscan) href hdev hinum
  · cases h
  · rename_i k hscan
    cases h
    obtain ⟨hnone, hempty⟩ := igetScan_inr hscan
    rcases hempty with heq | ⟨k', heq, hk, href⟩
    · cases heq
    · cases heq
      refine .recycle (by simpa using hk) href fun k' hk' href' hdev => ?_
      exact hnone k' (Nat.zero_le _) (by simpa using hk') href' hdev

inductive Run (s : Sys N) (p : Fin N) : Pc → Sys N → Prop
  | next {dev inum type} (h : (s.disk dev inum).type ≠ 0) :
      Run s p (.ialloc dev inum type) (s.goto p (.ialloc dev (inum + 1) type))
  | none {dev inum type} : Run s p (.ialloc dev inum type) (s.goto p .idle)
  | mark {dev inum type} (hlt : inum < s.ninodes) (h : (s.disk dev inum).type = 0) :
      Run s p (.ialloc dev inum type)
        ((s.setDisk dev inum { Dinode.zero with type := type }).goto p (.allocated dev inum))
  | iget {dev inum s'} (h : Iget (s.goto p .idle) p dev inum s') : Run s p (.allocated dev inum) s'
  | lock {k} (h : (s.tab k).lock = .none) :
      Run s p (.lock k) ((s.setEntry k fun e => { e with lock := some p }).goto p (.load k))
  | cached {k} (h : (s.tab k).valid = true) : Run s p (.load k) (s.goto p .idle)
  | load {k} (h : (s.tab k).valid = false) :
      Run s p (.load k) ((s.setEntry k fun e => { e with d := s.dinode k }).goto p (.loaded k))
  | loaded {k} (h : (s.tab k).d.type ≠ 0) :
      Run s p (.loaded k) ((s.setEntry k fun e => { e with valid := true }).goto p .idle)
  | trunc {k put} :
      Run s p (.trunc k put) ((s.change k (truncated (s.tab k).d)).goto p (.truncUp k put))
  | truncUp {k put} :
      Run s p (.truncUp k put) ((s.iupdate k).goto p (if put then .putType k else .idle))
  | putType {k} :
      Run s p (.putType k) ((s.change k { (s.tab k).d with type := 0 }).goto p (.putUp k))
  | putUp {k} : Run s p (.putUp k) ((s.iupdate k).goto p (.putInvalid k))
  | putInvalid {k} :
      Run s p (.putInvalid k)
        ((s.setEntry k fun e => { e with valid := false }).goto p (.putUnlock k))
  | putUnlock {k} :
      Run s p (.putUnlock k) ((s.setEntry k fun e => { e with lock := .none }).goto p (.putDec k))
  | putDec {k} :
      Run s p (.putDec k)
        (((s.setEntry k fun e => { e with ref := e.ref - 1 }).drop p k).goto p .idle)

inductive Step (s : Sys N) : Act N → Sys N → Prop
  | run {p s'} (h : Run s p (s.pc p) s') : Step s (.step p) s'
  | ialloc {p dev type} (hpc : s.pc p = .idle) :
      Step s (.ialloc p dev type) (s.goto p (.ialloc dev 1 type))
  | iget {p dev inum s'} (hpc : s.pc p = .idle) (h : Iget s p dev inum s') :
      Step s (.iget p dev inum) s'
  | idup {p k} (hpc : s.pc p = .idle) :
      Step s (.idup p k) ((s.setEntry k fun e => { e with ref := e.ref + 1 }).take p k)
  | ilock {p o k} (hpc : s.pc p = .idle) :
      Step s (.ilock p o k) ((s.setVia p k o).goto p (.lock k))
  | iunlock {p k} (hpc : s.pc p = .idle) (hlock : (s.tab k).lock = some p) :
      Step s (.iunlock p k) (s.setEntry k fun e => { e with lock := .none })
  | iupdate {p k} (hpc : s.pc p = .idle) : Step s (.iupdate p k) (s.iupdate k)
  | change {p k d} (hpc : s.pc p = .idle) : Step s (.change p k d) (s.change k d)
  | itrunc {p k} (hpc : s.pc p = .idle) : Step s (.itrunc p k) (s.goto p (.trunc k false))
  | free {p k} (hpc : s.pc p = .idle) (href : (s.tab k).ref = 1) (hvalid : (s.tab k).valid = true)
      (hnlink : (s.tab k).d.nlink = 0) (hlock : (s.tab k).lock = .none) :
      Step s (.iput p k)
        (((s.setEntry k fun e => { e with lock := some p }).setVia p k p).goto p (.trunc k true))
  | iput {p k} (hpc : s.pc p = .idle) :
      Step s (.iput p k) ((s.setEntry k fun e => { e with ref := e.ref - 1 }).drop p k)
  | give {p q k} (hpc : s.pc q = .idle) :
      Step s (.give p q k) ((s.drop p k).take q k)

theorem run_cases {s s' : Sys N} {p : Fin N} (h : s.run p = .ok s') : Run s p (s.pc p) s' := by
  unfold Sys.run at h
  split at h <;> rename_i hpc <;> rw [hpc]
  · split_ifs at h with hlt htype <;> cases h
    · exact .mark hlt htype
    · exact .next htype
    · exact .none
  · exact .iget (iget_cases h)
  · split_ifs at h with hlock
    cases h
    exact .lock hlock
  · split_ifs at h with hvalid <;> cases h
    · exact .cached hvalid
    · exact .load (Bool.eq_false_iff.mpr hvalid)
  · split_ifs at h with htype
    cases h
    exact .loaded htype
  · cases h
    exact .trunc
  · cases h
    exact .truncUp
  · cases h
    exact .putType
  · cases h
    exact .putUp
  · cases h
    exact .putInvalid
  · cases h
    exact .putUnlock
  · cases h
    exact .putDec
  · cases h

theorem step_cases {s s' : Sys N} {a : Act N} (h : s.step a = .ok s') : Step s a s' := by
  cases a with
  | step p => exact .run (run_cases h)
  | iput p k =>
    simp only [Sys.step] at h
    split_ifs at h with hpc hfree hlock <;> cases h
    · exact .free hpc hfree.1 hfree.2.1 hfree.2.2 hlock
    · exact .iput hpc
  | ilock p o k =>
    simp only [Sys.step] at h
    split_ifs at h with hpc href
    cases h
    exact .ilock hpc
  | iunlock p k =>
    simp only [Sys.step] at h
    split_ifs at h with hpc hlock
    cases h
    exact .iunlock hpc (not_not.mp fun hne => hlock (.inl hne))
  | iget p dev inum =>
    simp only [Sys.step] at h
    split_ifs at h with hpc
    exact .iget hpc (iget_cases h)
  | give p q k =>
    simp only [Sys.step] at h
    split_ifs at h with hpc
    cases h
    exact .give hpc
  | ialloc p dev type =>
    simp only [Sys.step] at h
    split_ifs at h with hpc
    cases h
    exact .ialloc hpc
  | idup p k =>
    simp only [Sys.step] at h
    split_ifs at h with hpc
    cases h
    exact .idup hpc
  | iupdate p k =>
    simp only [Sys.step] at h
    split_ifs at h with hpc
    cases h
    exact .iupdate hpc
  | change p k d =>
    simp only [Sys.step] at h
    split_ifs at h with hpc
    cases h
    exact .change hpc
  | itrunc p k =>
    simp only [Sys.step] at h
    split_ifs at h with hpc
    cases h
    exact .itrunc hpc

theorem noInodes_cases {s : Sys N} {a : Act N} (h : s.step a = .error .noInodes) :
    ∃ p dev inum, s.iget p dev inum = .error .noInodes ∨
      (s.goto p .idle).iget p dev inum = .error .noInodes := by
  cases a with
  | step p => grind [Sys.step, Sys.run]
  | iget p dev inum => grind [Sys.step]
  | _ =>
    simp only [Sys.step] at h
    split_ifs at h <;> cases h

end Xv6.Itable
