import Xv6.Log.Group

/-!
The invariant of group commit and what follows from it: `commit` runs
alone, the two assertions of the log cannot fail, the header never repeats
a block, and an operation is never split over two commits.
-/

namespace Xv6.Log

open List
open Function (update update_of_ne)

variable {P : Type} [Fintype P] [DecidableEq P]

structure GroupInv (s : Sys P) : Prop where
  outstanding : s.log.outstanding = cnt Finset.univ s.pc .inOp
  committing : s.log.committing = true ↔ ∃ p, (s.pc p).inCommit = true
  alone : ∀ p q, (s.pc p).inCommit = true → (s.pc q).inCommit = true → p = q
  quiet : s.log.committing = true → ∀ p, s.pc p ≠ .inOp
  nodup : s.log.lh.Nodup
  opened : ∀ p, isOpen p s.trace = true ↔ s.pc p = .inOp
  logged : (∀ p, s.pc p ≠ .erasing) → ∀ b, b ∈ s.log.lh ↔ b ∈ uncommitted s.trace
  erasing : ∀ p, s.pc p = .erasing → uncommitted s.trace = []
  finishing : ∀ p, s.pc p = .finishing → s.log.lh = []
  commits : ∀ pre lh post, s.trace = pre ++ .commit lh :: post →
    (∀ p, isOpen p pre = false) ∧ ∀ b ∈ uncommitted pre, b ∈ lh

omit [Fintype P] [DecidableEq P] in
theorem wakeup_eq_iff {pc : P → Pc} {p : P} {x : Pc} (hx : x ≠ .asleep) (hx' : x ≠ .outside) :
    wakeup pc p = x ↔ pc p = x := by
  unfold wakeup
  split
  · grind
  · exact Iff.rfl

omit [Fintype P] [DecidableEq P] in
@[simp] theorem inCommit_wakeup (pc : P → Pc) (p : P) :
    (wakeup pc p).inCommit = (pc p).inCommit := by
  unfold wakeup
  split
  · rename_i h
    rw [h]
    rfl
  · rfl

omit [DecidableEq P] in
theorem cnt_wakeup (pc : P → Pc) : cnt Finset.univ (wakeup pc) .inOp = cnt Finset.univ pc .inOp :=
  cnt_congr fun _ _ => wakeup_eq_iff (by decide) (by decide)

omit [Fintype P] [DecidableEq P] in
theorem commits_snoc {tr : List (Event P)} {e : Event P} {Q : List (Event P) → List ℕ → Prop}
    (hold : ∀ pre lh post, tr = pre ++ .commit lh :: post → Q pre lh)
    (hnew : ∀ lh, e = .commit lh → Q tr lh) :
    ∀ pre lh post, tr ++ [e] = pre ++ .commit lh :: post → Q pre lh := by
  intro pre lh post h
  rcases eq_nil_or_concat post with rfl | ⟨post', x, rfl⟩
  · grind [append_inj']
  · grind [append_inj']

namespace GroupInv

variable {s : Sys P} {p : P}

theorem initial {start size : ℕ} (h : s.Initial start size) : GroupInv s := by
  have hpc := h.pc
  have hlog := h.log
  have htr := h.trace
  refine ⟨?_, ?_, ?_, ?_, ?_, ?_, ?_, ?_, ?_, ?_⟩
  · grind [cnt_eq_zero.mpr]
  · simp [hlog, hpc, Pc.inCommit]
  · intro p q hp
    simp [hpc p, Pc.inCommit] at hp
  · simp [hlog]
  · simp [hlog]
  · simp [htr, hpc, isOpen]
  · simp [hlog, htr, uncommitted]
  · intro p hp
    simp [hpc p] at hp
  · simp [hlog]
  · intro pre lh post hsplit
    simp [htr] at hsplit

variable (h : GroupInv s)
include h

theorem not_inCommit (hp : s.pc p = .inOp) (q : P) : (s.pc q).inCommit = false := by
  by_contra hq
  have hc := h.committing.mpr ⟨q, by simpa using hq⟩
  exact h.quiet hc p hp

theorem not_erasing (hp : s.pc p = .inOp) (q : P) : s.pc q ≠ .erasing := by
  intro hq
  have := h.not_inCommit hp q
  simp [hq, Pc.inCommit] at this

theorem one_le_outstanding (hp : s.pc p = .inOp) : 1 ≤ s.log.outstanding := by
  have := cnt_pos (Finset.mem_univ p) hp
  rw [h.outstanding]
  omega

theorem not_committing (hp : s.pc p = .inOp) : s.log.committing = false := by
  by_contra hc
  exact h.quiet (by simpa using hc) p hp

theorem closed (hp : (s.pc p).inCommit = true) (q : P) : isOpen q s.trace = false := by
  by_contra hq
  exact h.quiet (h.committing.mpr ⟨p, hp⟩) q ((h.opened q).mp (by simpa using hq))

theorem park {x : Pc} (hp : s.pc p = .outside) (hx : x = .asleep) :
    GroupInv { s with pc := update s.pc p x } := by
  subst hx
  have hsame : ∀ q (y : Pc), y ≠ .outside → y ≠ .asleep →
      (update s.pc p .asleep q = y ↔ s.pc q = y) := by grind
  have hcom : ∀ q, (update s.pc p .asleep q).inCommit = (s.pc q).inCommit := by grind [Pc.inCommit]
  refine ⟨?_, ?_, ?_, ?_, h.nodup, ?_, ?_, ?_, ?_, h.commits⟩
  · grind [cnt_congr, h.outstanding]
  · simpa only [hcom] using h.committing
  · simpa only [hcom] using h.alone
  · grind [h.quiet]
  · intro q
    rw [hsame q .inOp (by decide) (by decide)]
    exact h.opened q
  · grind [h.logged]
  · grind [h.erasing]
  · grind [h.finishing]

theorem beginOp (hp : s.pc p = .outside) {L : Log} (hL : s.log.beginOp = some L) :
    GroupInv ⟨L, update s.pc p .inOp, s.trace ++ [.beginOp p]⟩ := by
  obtain ⟨hc, rfl⟩ := beginOp_eq hL
  have hnone : ∀ q, (s.pc q).inCommit = false := by grind [h.committing.mpr]
  have hcom : ∀ q, (update s.pc p .inOp q).inCommit = false := by grind [Pc.inCommit]
  have hnot : ∀ q, s.pc q ≠ .erasing := fun q hq => by
    have := hnone q
    simp [hq, Pc.inCommit] at this
  refine ⟨?_, ?_, ?_, ?_, h.nodup, ?_, ?_, ?_, ?_, ?_⟩
  · grind [cnt_update, h.outstanding]
  · simp [hc, hcom]
  · intro q r hq
    simp [hcom q] at hq
  · simp [hc]
  · grind [isOpen_snoc, h.opened]
  · intro _
    rw [uncommitted_snoc]
    exact h.logged hnot
  · grind
  · grind [Pc.inCommit]
  · exact commits_snoc h.commits (by simp)

theorem logWrite (hp : s.pc p = .inOp) (b : ℕ) :
    GroupInv { s with log := { s.log with lh := absorb s.log.lh b },
                      trace := s.trace ++ [.write p b] } := by
  refine ⟨h.outstanding, h.committing, h.alone, h.quiet, nodup_absorb b h.nodup, ?_, ?_, ?_, ?_, ?_⟩
  · intro q
    rw [isOpen_snoc]
    exact h.opened q
  · grind [uncommitted_snoc, mem_absorb, h.logged]
  · intro q hq
    exact absurd hq (h.not_erasing hp q)
  · grind [h.not_inCommit, Pc.inCommit]
  · exact commits_snoc h.commits (by simp)

theorem endOp_wakeup (hp : s.pc p = .inOp) :
    GroupInv ⟨{ s.log with outstanding := s.log.outstanding - 1, committing := false },
      wakeup (update s.pc p .outside), s.trace ++ [.endOp p]⟩ := by
  have hcom : ∀ q, (wakeup (update s.pc p .outside) q).inCommit = false := by
    grind [inCommit_wakeup, Pc.inCommit, h.not_inCommit]
  refine ⟨?_, ?_, ?_, ?_, h.nodup, ?_, ?_, ?_, ?_, ?_⟩
  · grind [cnt_update, h.outstanding, cnt_wakeup]
  · simp [hcom]
  · intro q r hq
    simp [hcom q] at hq
  · simp
  · intro q
    rw [isOpen_snoc, wakeup_eq_iff (by decide) (by decide)]
    by_cases hq : p = q
    · simp [hq]
    · simpa [hq, update_of_ne (Ne.symm hq)] using h.opened q
  · intro _
    rw [uncommitted_snoc]
    exact h.logged (h.not_erasing hp)
  · grind [Pc.inCommit]
  · grind [Pc.inCommit]
  · exact commits_snoc h.commits (by simp)

theorem endOp_commit (hp : s.pc p = .inOp) (hlast : s.log.outstanding - 1 = 0) :
    GroupInv ⟨{ s.log with outstanding := s.log.outstanding - 1, committing := true },
      update s.pc p .committing, s.trace ++ [.endOp p]⟩ := by
  have hcnt := cnt_update s.pc (Finset.mem_univ p) .committing .inOp
  have hnone : cnt Finset.univ (update s.pc p .committing) .inOp = 0 := by grind [h.outstanding]
  have hcom : ∀ q, (update s.pc p .committing q).inCommit = true ↔ q = p := by
    grind [Pc.inCommit, h.not_inCommit]
  refine ⟨?_, ?_, ?_, ?_, h.nodup, ?_, ?_, ?_, ?_, ?_⟩
  · simp only [hnone, hlast, Nat.cast_zero]
  · simp only [hcom, exists_eq]
  · intro q r hq hr
    rw [(hcom q).mp hq, (hcom r).mp hr]
  · intro _ q
    exact cnt_eq_zero.mp hnone q (Finset.mem_univ q)
  · grind [isOpen_snoc, h.opened]
  · intro _
    rw [uncommitted_snoc]
    exact h.logged (h.not_erasing hp)
  · grind [Pc.inCommit]
  · grind [Pc.inCommit]
  · exact commits_snoc h.commits (by simp)

theorem other (hp : (s.pc p).inCommit = true) {q : P} (hq : q ≠ p) :
    (s.pc q).inCommit = false ∧ s.pc q ≠ .inOp :=
  ⟨by
    by_contra hq'
    exact hq (h.alone q p (by simpa using hq') hp), h.quiet (h.committing.mpr ⟨p, hp⟩) q⟩

theorem advance (hp : (s.pc p).inCommit = true) {x : Pc} (hx : x.inCommit = true) {lh : List ℕ}
    {tr : List (Event P)} (hnd : lh.Nodup) (hopen : ∀ q, isOpen q tr = isOpen q s.trace)
    (hlog : x ≠ .erasing → ∀ b, b ∈ lh ↔ b ∈ uncommitted tr)
    (her : x = .erasing → uncommitted tr = []) (hfin : x = .finishing → lh = [])
    (hcommits : ∀ pre l post, tr = pre ++ .commit l :: post →
      (∀ q, isOpen q pre = false) ∧ ∀ b ∈ uncommitted pre, b ∈ l) :
    GroupInv ⟨{ s.log with lh := lh }, update s.pc p x, tr⟩ := by
  have hpc : s.pc p ≠ .inOp := fun hp' => by simp [hp', Pc.inCommit] at hp
  have hxop : x ≠ .inOp := fun hx' => by simp [hx', Pc.inCommit] at hx
  have hop : ∀ q, update s.pc p x q = .inOp ↔ s.pc q = .inOp := by grind
  have hcom : ∀ q, (update s.pc p x q).inCommit = true ↔ q = p := by grind [h.other]
  have hself : ∀ q y, y.inCommit = true → update s.pc p x q = y → x = y := by grind
  have hc : s.log.committing = true := h.committing.mpr ⟨p, hp⟩
  refine ⟨?_, ?_, ?_, ?_, hnd, ?_, ?_, ?_, ?_, hcommits⟩
  · rw [cnt_congr fun q _ => hop q]
    exact h.outstanding
  · simp [hc, hcom]
  · intro q r hq hr
    rw [(hcom q).mp hq, (hcom r).mp hr]
  · intro _ q
    rw [ne_eq, hop]
    exact h.quiet hc q
  · intro q
    rw [hopen, hop]
    exact h.opened q
  · intro hne
    exact hlog fun hx' => hne p (by simp [hx'])
  · intro q hq
    exact her (hself q .erasing rfl hq)
  · intro q hq
    exact hfin (hself q .finishing rfl hq)

theorem writeHead (hp : s.pc p = .committing) :
    GroupInv { s with pc := update s.pc p .erasing,
                      trace := s.trace ++ [.commit s.log.lh] } := by
  have hcom : (s.pc p).inCommit = true := by rw [hp]; rfl
  have hnot : ∀ q, s.pc q ≠ .erasing := by
    intro q hq
    have hqp := h.alone q p (by rw [hq]; rfl) hcom
    rw [hqp, hp] at hq
    exact absurd hq (by decide)
  refine h.advance hcom rfl h.nodup (fun q => by rw [isOpen_snoc]) (fun hx => absurd rfl hx)
    (fun _ => by rw [uncommitted_snoc]) (fun hx => absurd hx (by decide)) ?_
  refine commits_snoc h.commits fun lh he => ?_
  obtain rfl : s.log.lh = lh := by simpa using he
  exact ⟨h.closed hcom, fun b hb => (h.logged hnot b).mpr hb⟩

theorem writeHead_empty (hp : s.pc p = .committing) (hlh : s.log.lh = []) :
    GroupInv { s with pc := update s.pc p .finishing } := by
  have hcom : (s.pc p).inCommit = true := by rw [hp]; rfl
  have hnot : ∀ q, s.pc q ≠ .erasing := by
    intro q hq
    have hqp := h.alone q p (by rw [hq]; rfl) hcom
    rw [hqp, hp] at hq
    exact absurd hq (by decide)
  exact h.advance hcom rfl h.nodup (fun _ => rfl) (fun _ => h.logged hnot)
    (fun hx => absurd hx (by decide)) (fun _ => hlh) h.commits

theorem erase (hp : s.pc p = .erasing) :
    GroupInv { s with log := { s.log with lh := [] }, pc := update s.pc p .finishing } :=
  h.advance (by rw [hp]; rfl) rfl nodup_nil (fun _ => rfl)
    (fun _ b => by rw [h.erasing p hp]) (fun hx => absurd hx (by decide)) (fun _ => rfl) h.commits

theorem endCommit (hp : s.pc p = .finishing) :
    GroupInv { s with log := s.log.endCommit,
                      pc := wakeup (update s.pc p .outside) } := by
  have hcom : (s.pc p).inCommit = true := by rw [hp]; rfl
  have hnone : ∀ q, (wakeup (update s.pc p .outside) q).inCommit = false := by
    grind [inCommit_wakeup, Pc.inCommit, h.other]
  have hop : ∀ q, wakeup (update s.pc p .outside) q = .inOp ↔ s.pc q = .inOp := by
    intro q
    rw [wakeup_eq_iff (by decide) (by decide)]
    by_cases hq : q = p
    · subst hq
      simp [hp]
    · rw [update_of_ne hq]
  have hnot : ∀ q, s.pc q ≠ .erasing := by
    intro q hq
    have hqp := h.alone q p (by rw [hq]; rfl) hcom
    rw [hqp, hp] at hq
    exact absurd hq (by decide)
  refine ⟨?_, ?_, ?_, ?_, h.nodup, ?_, ?_, ?_, ?_, h.commits⟩
  · rw [cnt_congr fun q _ => hop q]
    exact h.outstanding
  · simp [Log.endCommit, hnone]
  · intro q r hq
    simp [hnone q] at hq
  · simp [Log.endCommit]
  · intro q
    rw [hop]
    exact h.opened q
  · intro _
    exact h.logged hnot
  · grind [Pc.inCommit]
  · grind

theorem step {a : Act P} {s' : Sys P} (hs : s.step a = .ok s') : GroupInv s' := by
  cases a with
  | beginOp p => grind [Sys.step, h.beginOp, h.park]
  | logWrite p b =>
    simp only [Sys.step] at hs
    split at hs
    · rename_i hp
      split at hs
      · rename_i L hL
        cases hs
        rw [logWrite_eq hL]
        exact h.logWrite hp b
      · cases hs
    · cases hs
  | endOp p => grind [Sys.step, endOp_eq, h.endOp_commit, h.endOp_wakeup]
  | writeHead p => grind [Sys.step, h.writeHead, h.writeHead_empty, length_eq_zero_iff.mp]
  | erase p => grind [Sys.step, h.erase]
  | endCommit p => grind [Sys.step, h.endCommit]

end GroupInv

/-! ### Group commit -/

/-- The processes start outside an operation, on an empty log, and take
critical sections in any order. -/
def Interleaving (start size : ℕ) (s : Sys P) : Prop :=
  Reachable (Sys.Initial start size) (fun _ _ => True) Sys.step s

theorem Interleaving.groupInv {start size : ℕ} {s : Sys P}
    (h : Interleaving start size s) : GroupInv s :=
  Reachable.invariant (fun _ h0 => .initial h0) (fun _ _ _ hi _ hs => hi.step hs) h

namespace GroupInv

variable {s : Sys P}

theorem no_panic (h : GroupInv s) (a : Act P) :
    s.step a ≠ .error (.panic .committing) ∧ s.step a ≠ .error (.panic .outsideTrans) := by
  cases a with
  | beginOp p | writeHead p => grind [Sys.step]
  | logWrite p b => grind [Sys.step, Log.logWrite, h.one_le_outstanding]
  | endOp p => grind [Sys.step, Log.endOp, h.not_committing]
  | erase p | endCommit p =>
    simp only [Sys.step]
    split <;> simp

/-- An operation is in one commit, the first after its `end_op`, or still
in the header in memory. -/
theorem op_in_one_commit (h : GroupInv s) {p : P} {pre mid post : List (Event P)}
    (htr : s.trace = pre ++ .beginOp p :: (mid ++ .endOp p :: post)) (hmid : .endOp p ∉ mid) :
    (∀ lh, .commit lh ∉ mid) ∧ ∀ b, .write p b ∈ mid →
      (∀ c lh c', post = c ++ .commit lh :: c' → (∀ l, .commit l ∉ c) → b ∈ lh) ∧
      ((∀ lh, .commit lh ∉ post) → b ∈ s.log.lh) := by
  have hnone : ∀ lh, .commit lh ∉ mid := by
    intro lh hmem
    obtain ⟨m₁, m₂, rfl⟩ := append_of_mem hmem
    have hsplit := (h.commits (pre ++ .beginOp p :: m₁) lh (m₂ ++ .endOp p :: post)
      (by simpa using htr)).1 p
    rw [isOpen_of_begin fun hm => hmid (mem_append_left _ hm)] at hsplit
    cases hsplit
  refine ⟨hnone, fun b hb => ⟨?_, ?_⟩⟩
  · rintro c lh c' rfl hc
    have hmem : b ∈ uncommitted (pre ++ (.beginOp p :: (mid ++ .endOp p :: c))) :=
      mem_uncommitted (p := p) (by simp [hb]) (by simp [hnone, hc])
    exact (h.commits (pre ++ .beginOp p :: (mid ++ .endOp p :: c)) lh c' (by simpa using htr)).2 b
      hmem
  · intro hpost
    have hmem : b ∈ uncommitted s.trace := by grind [mem_uncommitted]
    refine (h.logged (fun q hq => ?_) b).mpr hmem
    rw [h.erasing q hq] at hmem
    simp at hmem

end GroupInv

/-- **Group commit never splits or loses an operation.** -/
theorem group_commit {start size : ℕ} {s : Sys P} (h : Interleaving start size s) :
    (∀ p, (s.pc p).inCommit = true → s.log.outstanding = 0 ∧ s.log.committing = true) ∧
    (s.log.committing = true → ∀ p, s.pc p ≠ .inOp) ∧
    (∀ a, s.step a ≠ .error (.panic .committing) ∧ s.step a ≠ .error (.panic .outsideTrans)) ∧
    s.log.lh.Nodup ∧
    ∀ p pre mid post, s.trace = pre ++ .beginOp p :: (mid ++ .endOp p :: post) →
      .endOp p ∉ mid →
      (∀ lh, .commit lh ∉ mid) ∧ ∀ b, .write p b ∈ mid →
        (∀ c lh c', post = c ++ .commit lh :: c' → (∀ l, .commit l ∉ c) → b ∈ lh) ∧
        ((∀ lh, .commit lh ∉ post) → b ∈ s.log.lh) := by
  have hi := h.groupInv
  refine ⟨fun p hp => ?_, hi.quiet, hi.no_panic, hi.nodup, fun p pre mid post htr hmid =>
    hi.op_in_one_commit htr hmid⟩
  have hc := hi.committing.mpr ⟨p, hp⟩
  have hzero : cnt Finset.univ s.pc .inOp = 0 :=
    cnt_eq_zero.mpr fun q _ => hi.quiet hc q
  exact ⟨by rw [hi.outstanding, hzero]; rfl, hc⟩

def twoOps : List (Act (Fin 2)) := [.beginOp 0, .logWrite 0 7, .beginOp 1, .endOp 0]

def bootSys (P : Type) (start size : ℕ) : Sys P :=
  ⟨⟨start, size, 0, false, []⟩, fun _ => .outside, []⟩

theorem group_commit_twoOps :
    ∃ s, runActs (fun _ _ => True) Sys.step twoOps (bootSys (Fin 2) 2 30) = some s ∧
      7 ∈ s.log.lh := by
  obtain ⟨s, hs⟩ : ∃ s, runActs (fun _ _ => True) Sys.step twoOps (bootSys (Fin 2) 2 30) =
      some s := ⟨_, rfl⟩
  have hreach : Interleaving 2 30 s := (Reachable.init ⟨rfl, fun _ => rfl, rfl⟩).runActs hs
  have htr : s.trace = [.beginOp 0, .write 0 7, .beginOp 1, .endOp 0] := by
    cases hs
    rfl
  refine ⟨s, hs, ?_⟩
  exact ((group_commit hreach).2.2.2.2 0 [] [.write 0 7, .beginOp 1] [] htr (by simp)).2 7
    (by simp) |>.2 (by simp)

end Xv6.Log
