import Xv6.Log.GroupInv

/-!
The reservation of log space made by `begin_op`.

`begin_op` admits an operation when the logged blocks and `MAXOPBLOCKS` for every open
operation fit in `LOGSIZE`; this bounds `reserved`, the logged blocks and what every open
operation may still add. `log_write` however refuses to log in a header of `log.size - 1`
blocks, one less than the reservation on the geometry of `mkfs` (`log.size = LOGSIZE`, of
which the header block takes one), and it refuses before it looks for an entry to absorb.
-/

namespace Xv6.Log

open List
open Function (update update_self update_of_ne)

variable {P : Type} [DecidableEq P]
variable {s : Sys P}

def WithinOp (s : Sys P) : Act P → Prop
  | .logWrite p b => (opBlocks p s.trace ++ [b]).dedup.length ≤ MAXOPBLOCKS
  | _ => True

/-- `begin_op` admits an operation only if the reservation stays within `R`. -/
def Slack (R : ℕ) (s : Sys P) : Act P → Prop
  | .beginOp _ => s.log.beginOp ≠ none →
      s.log.lh.length + (s.log.outstanding + 1) * MAXOPBLOCKS ≤ R
  | _ => True

instance (s : Sys P) : (a : Act P) → Decidable (WithinOp s a)
  | .logWrite _ _ => inferInstanceAs (Decidable (length _ ≤ MAXOPBLOCKS))
  | .beginOp _ | .endOp _ | .writeHead _ | .erase _ | .endCommit _ => .isTrue trivial

variable [Fintype P]

def headroom (s : Sys P) (p : P) : ℕ :=
  if s.pc p = .inOp then MAXOPBLOCKS - (opBlocks p s.trace).dedup.length else 0

/-- The logged blocks and what the open operations may still add. -/
def reserved (s : Sys P) : ℕ := s.log.lh.length + ∑ p, headroom s p

structure ReserveInv (R : ℕ) (s : Sys P) : Prop where
  group : GroupInv s
  covered : ∀ p, s.pc p = .inOp → ∀ b ∈ opBlocks p s.trace, b ∈ s.log.lh
  bound : reserved s ≤ R

theorem dedup_length_append (l : List ℕ) (b : ℕ) :
    (l ++ [b]).dedup.length = if b ∈ l then l.dedup.length else l.dedup.length + 1 := by
  have hperm := (Perm.dedup (perm_append_singleton b l)).length_eq
  rw [hperm]
  split
  · rename_i h
    rw [dedup_cons_of_mem h]
  · rename_i h
    rw [dedup_cons_of_notMem h, length_cons]

theorem absorb_length (l : List ℕ) (b : ℕ) :
    (absorb l b).length = if b ∈ l then l.length else l.length + 1 := by
  split
  · rename_i h
    rw [absorb_of_mem h]
  · grind [absorb_of_notMem]

omit [Fintype P] in
theorem of_update_ne {pc : P → Pc} {p q : P} {x y : Pc} (hx : x ≠ y)
    (h : update pc p x q = y) : pc q = y := by
  by_cases hq : q = p
  · subst hq
    rw [update_self] at h
    exact absurd h hx
  · rwa [update_of_ne hq] at h

theorem sum_headroom_le (s : Sys P) :
    ∑ p, headroom s p ≤ cnt Finset.univ s.pc .inOp * MAXOPBLOCKS := by
  have hle : ∀ p ∈ Finset.univ, headroom s p ≤ if s.pc p = .inOp then MAXOPBLOCKS else 0 := by
    grind [headroom]
  calc ∑ p, headroom s p ≤ ∑ p, if s.pc p = .inOp then MAXOPBLOCKS else 0 :=
        Finset.sum_le_sum hle
    _ = cnt Finset.univ s.pc .inOp * MAXOPBLOCKS := by
        rw [← Finset.sum_filter, Finset.sum_const, cnt, smul_eq_mul]

theorem reserved_le {s' : Sys P} (hlh : s'.log.lh.length ≤ s.log.lh.length)
    (hpc : ∀ p, s'.pc p = .inOp → s.pc p = .inOp)
    (hop : ∀ p, opBlocks p s'.trace = opBlocks p s.trace) : reserved s' ≤ reserved s := by
  refine Nat.add_le_add hlh (Finset.sum_le_sum fun p _ => ?_)
  unfold headroom
  rw [hop]
  split
  · rename_i h
    rw [if_pos (hpc p h)]
  · exact Nat.zero_le _

namespace ReserveInv

variable {R : ℕ} {s : Sys P} {p : P}
variable {s' : Sys P}

theorem initial {start size : ℕ} (h : s.Initial start size) : ReserveInv R s := by
  refine ⟨.initial h, fun p hp => by simp [h.pc p] at hp, ?_⟩
  have hzero : ∀ p ∈ Finset.univ, headroom s p = 0 := fun p _ => by simp [headroom, h.pc p]
  simp [reserved, Finset.sum_eq_zero hzero, h.log]

theorem frees (h : ReserveInv R s) (hg : GroupInv s') (hlh : s'.log.lh.length ≤ s.log.lh.length)
    (hpc : ∀ p, s'.pc p = .inOp → s.pc p = .inOp)
    (hop : ∀ p, opBlocks p s'.trace = opBlocks p s.trace)
    (hsub : ∀ p, s'.pc p = .inOp → ∀ b ∈ s.log.lh, b ∈ s'.log.lh) : ReserveInv R s' := by
  refine ⟨hg, fun p hp b hb => ?_, (reserved_le hlh hpc hop).trans h.bound⟩
  rw [hop] at hb
  exact hsub p hp b (h.covered p (hpc p hp) b hb)

theorem beginOp (h : ReserveInv R s) (hg : GroupInv s') (hlh : s'.log.lh = s.log.lh)
    (hpc : s'.pc = update s.pc p .inOp) (htr : s'.trace = s.trace ++ [.beginOp p])
    (hslack : s.log.lh.length + (s.log.outstanding + 1) * MAXOPBLOCKS ≤ R) : ReserveInv R s' := by
  have hblocks : ∀ q, q ≠ p → opBlocks q s'.trace = opBlocks q s.trace := fun q hq => by
    rw [htr, opBlocks_snoc]
    simp [Ne.symm hq]
  have hself : opBlocks p s'.trace = [] := by
    rw [htr, opBlocks_snoc]
    simp
  refine ⟨hg, fun q hq b hb => ?_, ?_⟩
  · grind [congrFun hpc, h.covered]
  · have hsum : ∑ q, headroom s' q + headroom s p = ∑ q, headroom s q + headroom s' p :=
      sum_change (Finset.mem_univ p) fun q _ hq => by
        simp [headroom, hblocks q hq, hpc, update_of_ne hq]
    have hnew : headroom s' p = MAXOPBLOCKS := by simp [headroom, hself, hpc]
    have hle := sum_headroom_le s
    rw [h.group.outstanding] at hslack
    norm_cast at hslack
    simp only [reserved, hlh]
    simp only [MAXOPBLOCKS] at hslack hle hnew
    omega

theorem logWrite (h : ReserveInv R s) {b : ℕ} (hg : GroupInv s')
    (hlh : s'.log.lh = absorb s.log.lh b) (hpc : s'.pc = s.pc)
    (htr : s'.trace = s.trace ++ [.write p b]) (hp : s.pc p = .inOp)
    (hwithin : (opBlocks p s.trace ++ [b]).dedup.length ≤ MAXOPBLOCKS) : ReserveInv R s' := by
  have hblocks : ∀ q, q ≠ p → opBlocks q s'.trace = opBlocks q s.trace := fun q hq => by
    rw [htr, opBlocks_snoc]
    simp [Ne.symm hq]
  have hself : opBlocks p s'.trace = opBlocks p s.trace ++ [b] := by
    rw [htr, opBlocks_snoc]
    simp
  refine ⟨hg, fun q hq x hx => ?_, ?_⟩
  · rw [hlh, mem_absorb]
    rw [hpc] at hq
    by_cases hqp : q = p
    · grind [h.covered]
    · rw [hblocks q hqp] at hx
      exact Or.inl (h.covered q hq x hx)
  · have hsum : ∑ q, headroom s' q + headroom s p = ∑ q, headroom s q + headroom s' p :=
      sum_change (Finset.mem_univ p) fun q _ hq => by simp [headroom, hblocks q hq, hpc]
    have hnew : headroom s' p = MAXOPBLOCKS - (opBlocks p s.trace ++ [b]).dedup.length := by
      grind [headroom]
    have hold : headroom s p = MAXOPBLOCKS - (opBlocks p s.trace).dedup.length := by
      grind [headroom]
    have hbound := h.bound
    have hcov := h.covered p hp b
    simp only [reserved, hlh, absorb_length] at hbound ⊢
    rw [dedup_length_append] at hnew hwithin
    -- a block new to the header is new to the operation, which pays for it
    by_cases hb : b ∈ s.log.lh
    · rw [if_pos hb]
      split at hnew <;> omega
    · grind

theorem step (h : ReserveInv R s) {a : Act P} (hw : WithinOp s a) (hslack : Slack R s a)
    (hs : s.step a = .ok s') : ReserveInv R s' := by
  have hg := h.group.step hs
  cases a with
  | beginOp p =>
    simp only [Sys.step] at hs
    split at hs
    · split at hs
      · rename_i L hL
        cases hs
        exact h.beginOp hg (by rw [(beginOp_eq hL).2]) rfl rfl (hslack (by simp [hL]))
      · grind [ReserveInv, GroupInv, h.frees]
    · cases hs
  | logWrite p b =>
    simp only [Sys.step] at hs
    split at hs
    · rename_i hp
      split at hs
      · rename_i L hL
        cases hs
        exact h.logWrite hg (by rw [logWrite_eq hL]) rfl rfl hp hw
      · cases hs
    · cases hs
  | endOp p =>
    simp only [Sys.step] at hs
    split at hs
    · split at hs
      · rename_i L hL
        cases hs
        refine h.frees hg (by rw [(endOp_eq hL).2]) (fun q hq => of_update_ne (by decide) hq)
          (fun q => by rw [opBlocks_snoc]) (fun _ _ _ hb => ?_)
        rwa [(endOp_eq hL).2]
      · rename_i L hL
        cases hs
        refine h.frees hg (by rw [(endOp_eq hL).2]) (fun q hq => ?_)
          (fun q => by rw [opBlocks_snoc]) (fun _ _ _ hb => ?_)
        · exact of_update_ne (by decide) ((wakeup_eq_iff (by decide) (by decide)).mp hq)
        · rwa [(endOp_eq hL).2]
      · cases hs
    · cases hs
  | writeHead p =>
    simp only [Sys.step] at hs
    split at hs
    · split at hs
      · cases hs
        exact h.frees hg le_rfl (fun q hq => of_update_ne (by decide) hq)
          (fun q => by rw [opBlocks_snoc]) (fun _ _ _ hb => hb)
      · grind [ReserveInv, GroupInv, h.frees]
    · cases hs
  | erase p =>
    simp only [Sys.step] at hs
    split at hs
    · grind [ReserveInv, GroupInv, h.frees, h.group.not_erasing]
    · cases hs
  | endCommit p =>
    simp only [Sys.step] at hs
    split at hs
    · cases hs
      refine h.frees hg le_rfl (fun q hq => ?_) (fun _ => rfl) (fun _ _ _ hb => hb)
      exact of_update_ne (by decide) ((wakeup_eq_iff (by decide) (by decide)).mp hq)
    · cases hs

end ReserveInv

/-! ### The check of `log_write` -/

omit [Fintype P] in
/-- On the geometry of `mkfs`, `log_write` panics on the size of the
transaction exactly when the header already has all but one of its
entries. -/
theorem tooBig_iff (hsize : s.log.size = LOGSIZE) (a : Act P) :
    s.step a = .error (.panic .tooBig) ↔
      ∃ p b, a = .logWrite p b ∧ s.pc p = .inOp ∧ LOGSIZE ≤ s.log.lh.length + 1 := by
  cases a with
  | logWrite p b => grind [Sys.step, Log.logWrite]
  | beginOp p | writeHead p => grind [Sys.step]
  | endOp p => grind [Sys.step, Log.endOp]
  | erase p | endCommit p =>
    simp only [Sys.step]
    split <;> simp

theorem GroupInv.length_lh {p : P} (h : GroupInv s) (hp : s.pc p = .inOp) :
    s.log.lh.length = (uncommitted s.trace).dedup.length := by
  have hset : s.log.lh.toFinset = (uncommitted s.trace).toFinset := by
    grind [mem_toFinset, h.logged, h.not_erasing]
  rw [← toFinset_card_of_nodup h.nodup, hset, card_toFinset]

/-- Runs on the log that `mkfs` lays out, of operations that pass at most
`MAXOPBLOCKS` distinct blocks to `log_write` and are admitted within `R`. -/
def Reserved (start R : ℕ) (s : Sys P) : Prop :=
  Reachable (Sys.Initial start LOGSIZE) (fun s a => WithinOp s a ∧ Slack R s a) Sys.step s

omit [Fintype P] in
theorem Sys.step_size {s' : Sys P} {a : Act P} (hs : s.step a = .ok s') :
    s'.log.size = s.log.size := by
  cases a <;> simp only [Sys.step] at hs <;> split at hs <;> try cases hs
  case beginOp.isTrue =>
    split at hs <;> cases hs
    · rename_i L hL
      rw [(beginOp_eq hL).2]
    · rfl
  case logWrite.isTrue =>
    split at hs <;> cases hs
    rename_i L hL
    rw [logWrite_eq hL]
  case endOp.isTrue =>
    split at hs <;> cases hs
    all_goals
      rename_i L hL
      rw [(endOp_eq hL).2]
  case writeHead.isTrue => split at hs <;> cases hs <;> rfl
  all_goals rfl

theorem Reserved.inv {start R : ℕ} (h : Reserved start R s) :
    ReserveInv R s ∧ s.log.size = LOGSIZE :=
  Reachable.invariant (I := fun s => ReserveInv R s ∧ s.log.size = LOGSIZE)
    (fun _ h0 => ⟨.initial h0, by rw [h0.log]⟩)
    (fun _ _ _ hi hok hs => ⟨hi.1.step hok.1 hok.2 hs, (Sys.step_size hs).trans hi.2⟩) h

/-- Runs on the log that `mkfs` lays out, of operations that pass at most
`MAXOPBLOCKS` distinct blocks to `log_write`. -/
def Bounded (start : ℕ) (s : Sys P) : Prop :=
  Reachable (Sys.Initial start LOGSIZE) WithinOp Sys.step s

theorem Bounded.inv {start : ℕ} (h : Bounded start s) : GroupInv s ∧ s.log.size = LOGSIZE :=
  Reachable.invariant (I := fun s => GroupInv s ∧ s.log.size = LOGSIZE)
    (fun _ h0 => ⟨.initial h0, by rw [h0.log]⟩)
    (fun _ _ _ hi _ hs => ⟨hi.1.step hs, (Sys.step_size hs).trans hi.2⟩) h

/-- **When the reservation is enough.** `log_write` panics exactly when the
operations since the last commit have already passed it `LOGSIZE - 1`
distinct block numbers; and it never does in a run in which every
operation is admitted with two entries to spare. -/
theorem reservation_iff (start : ℕ) :
    (∀ s : Sys P, Bounded start s → ∀ a, WithinOp s a →
      (s.step a ≠ .error (.panic .tooBig) ↔ ∀ p b, a = .logWrite p b → s.pc p = .inOp →
        (uncommitted s.trace).dedup.length + 2 ≤ LOGSIZE)) ∧
    ∀ s : Sys P, Reserved start (LOGSIZE - 2) s → ∀ a, s.step a ≠ .error (.panic .tooBig) := by
  constructor
  · intro s h a _
    obtain ⟨hg, hsize⟩ := h.inv
    rw [ne_eq, tooBig_iff hsize]
    constructor
    · grind [hg.length_lh]
    · grind [hg.length_lh]
  · intro s h a
    obtain ⟨hr, hsize⟩ := h.inv
    rw [ne_eq, tooBig_iff hsize]
    rintro ⟨p, b, -, -, hlen⟩
    have hbound := hr.bound
    have hle : s.log.lh.length ≤ reserved s := Nat.le_add_right _ _
    simp only [LOGSIZE, MAXOPBLOCKS] at hlen hbound
    omega

theorem reservation_iff_firstOp : ∃ s, (bootSys (Fin 2) 2 LOGSIZE).step (.beginOp 0) = .ok s ∧
    s.step (.logWrite 0 7) ≠ .error (.panic .tooBig) := by
  obtain ⟨s, hs⟩ : ∃ s, (bootSys (Fin 2) 2 LOGSIZE).step (.beginOp 0) = .ok s := ⟨_, rfl⟩
  have hinit : Sys.Initial 2 LOGSIZE (bootSys (Fin 2) 2 LOGSIZE) := ⟨rfl, fun _ => rfl, rfl⟩
  have hslack : Slack (LOGSIZE - 2) (bootSys (Fin 2) 2 LOGSIZE) (.beginOp 0) :=
    fun _ => by decide
  exact ⟨s, hs, (reservation_iff 2).2 s (.step (.beginOp 0) (.init hinit) ⟨trivial, hslack⟩ hs) _⟩

/-- Three operations begin; the first two log ten blocks each and the third
nine. -/
def threeOps : List (Act (Fin 3)) :=
  [.beginOp 0, .beginOp 1, .beginOp 2] ++ (range 10).map (fun i => .logWrite 0 (100 + i)) ++
    (range 10).map (fun i => .logWrite 1 (110 + i)) ++
    (range 9).map fun i => .logWrite 2 (120 + i)

/-- After `threeOps` the third operation may log a tenth block, and
`log_write` panics. -/
def threeOpsPanic : Bool :=
  match runActs WithinOp Sys.step threeOps (bootSys (Fin 3) 2 LOGSIZE) with
  | some s => decide (WithinOp s (.logWrite 2 129)) &&
      match s.step (.logWrite 2 129) with
      | .error (.panic .tooBig) => true
      | _ => false
  | none => false

theorem reservation_too_small : ¬∀ s : Sys (Fin 3), Bounded 2 s → ∀ a, WithinOp s a →
    s.step a ≠ .error (.panic .tooBig) := by
  intro h
  have hrun : threeOpsPanic = true := by decide
  unfold threeOpsPanic at hrun
  split at hrun
  · rename_i s hs
    have hreach : Bounded 2 s := (Reachable.init ⟨rfl, fun _ => rfl, rfl⟩).runActs hs
    rw [Bool.and_eq_true, decide_eq_true_eq] at hrun
    refine h s hreach _ hrun.1 ?_
    have hstep := hrun.2
    split at hstep
    · assumption
    · cases hstep
  · cases hrun

end Xv6.Log
