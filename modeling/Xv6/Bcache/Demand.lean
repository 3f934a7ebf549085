import Xv6.Bcache.Flat

/-!
How many buffers it takes.

`bget` panics when every buffer has a reference: that of a process, to a buffer that it
waits for, holds or is about to give back, or a pin. `N` processes that have one buffer at
a time, with no more than `m` buffers pinned at a time, can use up `N + m` buffers; and if
there are fewer, some run of them ends in the panic.
-/

namespace Xv6.Bcache

open Sys
open Function (update update_self update_of_ne update_eq_self update_idem)

variable {N m : ℕ}

def Sys.Has (s : Sys N) (p : Fin N) (k : ℕ) : Prop :=
  (s.buf k).lock = some p ∨ (s.pc p).waits = some k

instance (s : Sys N) (p : Fin N) (k : ℕ) : Decidable (s.Has p k) :=
  inferInstanceAs (Decidable (_ ∨ _))

def Sys.pinned (s : Sys N) : Finset ℕ := {k ∈ Finset.range NBUF | 0 < s.pins k}

/-- Processes have one buffer at a time and pin only the one they hold, and at most `m`
buffers are pinned at once. -/
def OneEach (m : ℕ) (s : Sys N) : Act N → Prop
  | .bread p _ _ => ∀ k < NBUF, ¬s.Has p k
  | .bpin p k => (s.buf k).lock = some p ∧ (k ∈ s.pinned ∨ s.pinned.card < m)
  | _ => True

instance (m : ℕ) (s : Sys N) : (a : Act N) → Decidable (OneEach m s a)
  | .bread .. => inferInstanceAs (Decidable (∀ k < NBUF, _))
  | .bpin .. => inferInstanceAs (Decidable (_ ∧ _))
  | .store .. | .bwrite .. | .brelse .. | .bunpin .. | .step _ => .isTrue trivial

abbrev Readers (m : ℕ) : Sys N → Prop :=
  Reachable Init (fun s a => Contract s a ∧ OneEach m s a) Sys.step

variable {s s' : Sys N} {a : Act N} {p q : Fin N} {k dev b : ℕ}

theorem Step.eq (h : Step s a s') : s.step a = .ok s' := by
  cases h <;> simp_all [Sys.step, Sys.run, Sys.bget]

/-! ### What the processes have -/

theorem Sys.Has.of_change {j : ℕ} {x : Buf N} {c : Pc} (hk : s'.Has q k)
    (hbuf : s'.buf = update s.buf j x) (hpc : s'.pc = update s.pc p c)
    (hlock : ∀ r, x.lock = some r → s.Has r j) (hwaits : ∀ i, c.waits = some i → s.Has p i) :
    s.Has q k := by
  rw [Sys.Has, hbuf, hpc] at hk
  unfold Sys.Has at *
  grind

theorem Sys.Has.of_step (hk : s'.Has q k) (hs : Step s a s') :
    s.Has q k ∨ (∃ dev b, a = .bread q dev b) ∧ (s'.pc q).waits = some k := by
  have hbuf (j : ℕ) : s.buf = update s.buf j (s.buf j) := (update_eq_self j s.buf).symm
  have hpc' (p : Fin N) : s.pc = update s.pc p (s.pc p) := (update_eq_self p s.pc).symm
  -- `bread` leaves the locks and the points of the others as they are
  have hread {p : Fin N} {dev b j : ℕ} {x : Buf N} (ha : a = .bread p dev b)
      (hbuf : s'.buf = update s.buf j x) (hpc : s'.pc = update s.pc p (.acquire dev b j))
      (hlock : x.lock = (s.buf j).lock) :
      s.Has q k ∨ (∃ dev b, a = .bread q dev b) ∧ (s'.pc q).waits = some k := by
    rw [Sys.Has, hbuf, hpc] at hk
    rw [hpc]
    unfold Sys.Has
    grind
  cases hs with
  | hit | recycle => exact hread rfl rfl rfl rfl
  | @acquire p dev b j hpc hlock =>
    exact .inl (hk.of_change rfl rfl (by grind [Sys.Has, Pc.waits]) (by grind [Pc.waits]))
  | @cached p dev b j hpc =>
    exact .inl (hk.of_change (hbuf j) rfl (fun r hr => .inl hr) (by grind [Pc.waits]))
  | fill | filled =>
    exact .inl (hk.of_change rfl rfl (fun r hr => .inl hr) (by grind [Pc.waits]))
  | @release p j hpc =>
    rw [release_eq] at hk
    exact .inl (hk.of_change rfl rfl (fun r hr => .inl hr) (by grind [Pc.waits]))
  | @store p | @bpin p =>
    exact .inl (hk.of_change rfl (hpc' p) (fun r hr => .inl hr) (fun i hi => .inr hi))
  | @bwrite p j => exact .inl hk
  | @brelse p j hpc hlock =>
    exact .inl (hk.of_change rfl rfl (by grind) (by grind [Sys.Has, Pc.waits]))
  | @bunpin p j =>
    rw [unref_eq] at hk
    exact .inl (hk.of_change rfl (hpc' p) (fun r hr => .inl hr) (fun i hi => .inr hi))

theorem mem_pinned : k ∈ s.pinned ↔ k < NBUF ∧ 0 < s.pins k := by
  rw [Sys.pinned, Finset.mem_filter, Finset.mem_range]

theorem pinned_step (hs : Step s a s') :
    s'.pinned ⊆ s.pinned ∨ ∃ p k, a = .bpin p k ∧ s'.pinned ⊆ insert k s.pinned := by
  cases hs with
  | @bpin p k =>
    refine .inr ⟨p, k, rfl, fun j hj => ?_⟩
    rcases eq_or_ne j k with rfl | hne
    · exact Finset.mem_insert_self ..
    · simp only [mem_pinned, setPins, setBuf, update_of_ne hne] at hj
      exact Finset.mem_insert_of_mem (mem_pinned.mpr hj)
  | release => exact .inl (by rw [release_eq]; exact subset_rfl)
  | @bunpin p k =>
    rw [unref_eq]
    refine .inl fun j hj => mem_pinned.mpr ⟨(mem_pinned.mp hj).1, ?_⟩
    have hpos := (mem_pinned.mp hj).2
    simp only [setPins, setBuf] at hpos
    grind
  | _ => exact .inl subset_rfl

structure Spare (m : ℕ) (s : Sys N) : Prop where
  cache : Cache s
  one : ∀ q k k', s.Has q k → s.Has q k' → k = k'
  pinned : s.pinned.card ≤ m

theorem Cache.has_lt (h : Cache s) (hk : s.Has q k) : k < NBUF := by
  rcases hk with hlock | hwaits
  · exact h.named.held k q hlock
  · have hfits := h.named.fits q
    cases hq : s.pc q <;> grind [Pc.waits, Fits]

theorem Spare.step (h : Spare m s) (hok : Contract s a ∧ OneEach m s a) (hs : Step s a s') :
    Spare m s' := by
  refine ⟨h.cache.step hok.1 hs, fun q k k' hk hk' => ?_, ?_⟩
  · rcases hk.of_step hs with hk | ⟨⟨dev, b, rfl⟩, hk⟩
    · rcases hk'.of_step hs with hk' | ⟨⟨dev, b, rfl⟩, -⟩
      · exact h.one q k k' hk hk'
      · exact absurd hk (hok.2 k (h.cache.has_lt hk))
    · rcases hk'.of_step hs with hk' | ⟨-, hk'⟩
      · exact absurd hk' (hok.2 k' (h.cache.has_lt hk'))
      · exact Option.some.inj (hk.symm.trans hk')
  · rcases pinned_step hs with hsub | ⟨p, k, rfl, hsub⟩
    · exact (Finset.card_le_card hsub).trans h.pinned
    · rcases hok.2.2 with hmem | hlt
      · rw [Finset.insert_eq_of_mem hmem] at hsub
        exact (Finset.card_le_card hsub).trans h.pinned
      · exact (Finset.card_le_card hsub).trans ((Finset.card_insert_le ..).trans hlt)

theorem Init.spare (h : Init s) : Spare m s := by
  have hpinned : s.pinned = ∅ := by simp [Sys.pinned, h.pins]
  have hnone (q : Fin N) (k : ℕ) : ¬s.Has q k := by
    rw [Sys.Has, (h.buf k).2.2.2, h.pc]
    rintro (hk | hk) <;> cases hk
  exact ⟨h.cache, fun q k _ hk => absurd hk (hnone q k), by simp [hpinned]⟩

theorem Readers.spare (h : Readers m s) : Spare m s :=
  h.invariant (fun _ hs => hs.spare) fun _ _ _ hs hok hstep => hs.step hok (step_cases hstep)

/-- `bget` panics if the block is not cached and every buffer has a reference. -/
theorem Cache.dry_iff (h : Cache s) (hp : s.pc p = .idle) :
    s.step (.bread p dev b) = .error .noBuffers ↔
      (∀ k < NBUF, (s.buf k).dev = dev → (s.buf k).blockno ≠ b) ∧
        ∀ k < NBUF, (s.buf k).refcnt ≠ 0 := by
  obtain ⟨L, hL⟩ := h.list
  rw [Sys.step, if_pos hp, Sys.bget, hL.lookup_eq, hL.lru_eq]
  simp only [← hL.mem]
  grind [List.find?_eq_none]

theorem Cache.used (h : Cache s) (hk : k < NBUF) (hne : (s.buf k).refcnt ≠ 0) :
    k ∈ s.pinned ∨ ∃ q, s.Has q k := by
  have hcount := h.count k hk
  by_contra! hno
  have hwaits : cnt Finset.univ (fun q => (s.pc q).waits) (some k) = 0 :=
    cnt_eq_zero.mpr fun q _ hq => hno.2 q (.inr hq)
  have hlock : (s.buf k).locked = 0 := by
    cases hl : (s.buf k).lock with
    | none => rw [Buf.locked, hl]
    | some q => exact absurd (.inl hl) (hno.2 q)
  have hpins : s.pins k = 0 := by grind [mem_pinned]
  omega

theorem Spare.lt_of_dry (h : Spare m s) (hp : ∀ k < NBUF, ¬s.Has p k)
    (hall : ∀ k < NBUF, (s.buf k).refcnt ≠ 0) : NBUF < N + m := by
  have hsub : Finset.range NBUF ⊆
      s.pinned ∪ (Finset.univ.erase p).biUnion fun q => {k ∈ Finset.range NBUF | s.Has q k} := by
    intro k hk
    rw [Finset.mem_range] at hk
    rcases h.cache.used hk (hall k hk) with hmem | ⟨q, hq⟩
    · exact Finset.mem_union_left _ hmem
    · have hne : q ≠ p := by
        rintro rfl
        exact hp k hk hq
      simp only [Finset.mem_union, Finset.mem_biUnion, Finset.mem_erase, Finset.mem_filter,
        Finset.mem_range]
      exact .inr ⟨q, ⟨hne, Finset.mem_univ q⟩, hk, hq⟩
  have hone : ∀ q ∈ Finset.univ.erase p, ({k ∈ Finset.range NBUF | s.Has q k}).card ≤ 1 :=
    fun q _ => Finset.card_le_one.mpr fun k hk k' hk' =>
      h.one q k k' (Finset.mem_filter.mp hk).2 (Finset.mem_filter.mp hk').2
  have hcard := (Finset.card_le_card hsub).trans (Finset.card_union_le ..)
  have hmany := Finset.card_biUnion_le_card_mul _ _ 1 hone
  rw [Finset.card_range] at hcard
  rw [Finset.card_erase_of_mem (Finset.mem_univ p), Finset.card_univ, Fintype.card_fin] at hmany
  have hpinned := h.pinned
  have hN := p.pos
  omega

/-! ### Using them up -/

theorem Readers.fill (h : Readers m s) (hpc : s.pc p = .acquire dev b k)
    (hlock : (s.buf k).lock = none) (hvalid : (s.buf k).valid = false) :
    ∃ y s', Readers m s' ∧ s'.pins = s.pins ∧ s'.pc = update s.pc p .idle ∧
      s'.buf = update s.buf k { s.buf k with lock := some p, data := y, valid := true } := by
  have h₁ := h.step (Act.step p) ⟨trivial, trivial⟩ (Step.acquire hpc hlock).eq
  have h₂ := h₁.step (Act.step p) ⟨trivial, trivial⟩
    (Step.fill (update_self ..) (by simp [setBuf, goto, hvalid])).eq
  have h₃ := h₂.step (Act.step p) ⟨trivial, trivial⟩ (Step.filled (update_self ..)).eq
  refine ⟨s.disk (s.buf k).blockno, _, h₃, rfl, ?_, ?_⟩ <;> simp [setBuf, goto]

theorem Readers.pin_release (h : Readers m s) (hidle : s.pc p = .idle) (hk : k < NBUF)
    (hlock : (s.buf k).lock = some p) (hroom : s.pinned.card < m) :
    ∃ s', Readers m s' ∧ s'.pins = update s.pins k (s.pins k + 1) ∧ s'.pc = s.pc ∧
      s'.buf = update s.buf k { s.buf k with lock := none } := by
  set s₁ := (s.setBuf k { s.buf k with refcnt := (s.buf k).refcnt + 1 }).setPins k (s.pins k + 1)
    with hs₁
  have h₁ : Readers m s₁ :=
    h.step (Act.bpin p k) ⟨hk, hlock, .inr hroom⟩ (Step.bpin hidle).eq
  have hidle₁ : s₁.pc p = .idle := hidle
  have hlock₁ : (s₁.buf k).lock = some p := by simp [hs₁, setBuf, setPins, hlock]
  have h₂ := h₁.step (Act.brelse p k) ⟨hlock₁, trivial⟩ (Step.brelse hidle₁ hlock₁).eq
  have h₃ := h₂.step (Act.step p) ⟨trivial, trivial⟩ (Step.release (update_self ..)).eq
  refine ⟨_, h₃, ?_, ?_, ?_⟩ <;> rw [release_eq] <;>
    simp [hs₁, setBuf, setPins, goto, ← hidle]

def Sys.used (s : Sys N) : Finset ℕ := {k ∈ Finset.range NBUF | (s.buf k).refcnt ≠ 0}

/-- `i` buffers are pinned, the first `j` processes each wait for another one, and only
blocks up to these are cached. -/
structure Busy (m i j : ℕ) (s : Sys N) : Prop where
  reach : Readers m s
  idle : ∀ p : Fin N, j ≤ p → s.pc p = .idle
  free : ∀ k, (s.buf k).lock = none
  pinned : s.pinned.card ≤ i
  used : s.used.card = i + j
  cached : ∀ k < NBUF, (s.buf k).dev = 1 → (s.buf k).blockno < i + j

namespace Busy

variable {i j : ℕ}

theorem use {i' j' : ℕ} {x : Buf N} (h : Busy m i j s) (hreach : Readers m s')
    (hidle : ∀ p : Fin N, j' ≤ p → s'.pc p = .idle) (hpinned : s'.pinned.card ≤ i')
    (hbuf : s'.buf = update s.buf k x) (hk : k < NBUF) (hzero : (s.buf k).refcnt = 0)
    (href : x.refcnt = 1) (hlock : x.lock = none) (hblock : x.blockno = i + j)
    (hnext : i' + j' = i + j + 1) : Busy m i' j' s' := by
  have hused : s'.used = insert k s.used := by
    ext n
    rw [Sys.used, hbuf]
    grind [Sys.used]
  have hnot : k ∉ s.used := by grind [Sys.used]
  refine ⟨hreach, hidle, fun n => ?_, hpinned, ?_, fun n hn hdev => ?_⟩
  · rw [hbuf]
    grind [h.free]
  · rw [hused, Finset.card_insert_of_notMem hnot, h.used, hnext]
  · have hold := h.cached n hn
    rw [hbuf] at hdev ⊢
    grind

theorem oneEach (h : Busy m i j s) (hp : j ≤ p) : OneEach m s (.bread p dev b) := by
  intro k _ hk
  rw [Sys.Has, h.free, h.idle p hp] at hk
  rcases hk with hk | hk <;> cases hk

theorem bread (h : Busy m i j s) (hp : j ≤ p) (hleft : i + j < NBUF) :
    ∃ k s', k < NBUF ∧ (s.buf k).refcnt = 0 ∧ Readers m s' ∧ s'.pins = s.pins ∧
      s'.pc = update s.pc p (.acquire 1 (i + j) k) ∧ s'.buf = update s.buf k
        { s.buf k with dev := 1, blockno := i + j, valid := false, refcnt := 1 } := by
  obtain ⟨L, hL⟩ := h.reach.spare.cache.list
  have hlook : s.lookup 1 (i + j) = some none := by
    rw [hL.lookup_eq, List.find?_eq_none.mpr]
    intro k hk
    have hlt := h.cached k ((hL.mem k).mp hk)
    simpa using fun hdev => (hlt hdev).ne
  obtain ⟨k, hlru⟩ : ∃ k, s.lru = some (some k) := by
    rw [hL.lru_eq]
    cases hfind : L.reverse.find? fun k => (s.buf k).refcnt = 0 with
    | some k => exact ⟨k, rfl⟩
    | none =>
      have hall : s.used = Finset.range NBUF := by
        refine Finset.filter_true_of_mem fun k hk => ?_
        have hmem := (hL.mem k).mpr (Finset.mem_range.mp hk)
        simpa using List.find?_eq_none.mp hfind k (List.mem_reverse.mpr hmem)
      have hcard := h.used
      rw [hall, Finset.card_range] at hcard
      omega
  obtain ⟨hk, hzero, -⟩ := hL.of_lru hlru
  exact ⟨k, _, hk, hzero, h.reach.step (.bread p 1 (i + j)) ⟨trivial, h.oneEach hp⟩
    (Step.recycle (h.idle p hp) hlook hlru).eq, rfl, rfl, rfl⟩

theorem wait (h : Busy m i j s) (hj : j < N) (hleft : i + j < NBUF) :
    ∃ s' : Sys N, Busy m i (j + 1) s' := by
  obtain ⟨k, s', hk, hzero, hreach, hpins, hpc, hbuf⟩ := h.bread (p := ⟨j, hj⟩) le_rfl hleft
  refine ⟨s', h.use hreach (fun p hp => ?_) ?_ hbuf hk hzero rfl (h.free k) rfl rfl⟩
  · rw [hpc, update_of_ne (Fin.ne_of_gt hp)]
    exact h.idle p (Nat.le_of_succ_le hp)
  · rw [Sys.pinned, hpins]
    exact h.pinned

theorem pin (h : Busy m i 0 s) (p : Fin N) (hi : i < m) (hleft : i < NBUF) :
    ∃ s' : Sys N, Busy m (i + 1) 0 s' := by
  obtain ⟨k, s₁, hk, hzero, h₁, hpins₁, hpc₁, hbuf₁⟩ := h.bread (Nat.zero_le p) hleft
  obtain ⟨y, s₂, h₂, hpins₂, hpc₂, hbuf₂⟩ := h₁.fill (by rw [hpc₁, update_self])
    (by rw [hbuf₁, update_self]; exact h.free k) (by rw [hbuf₁, update_self])
  have hpinned₂ : s₂.pinned = s.pinned := by rw [Sys.pinned, hpins₂, hpins₁, Sys.pinned]
  obtain ⟨s₃, h₃, hpins₃, hpc₃, hbuf₃⟩ := h₂.pin_release (by rw [hpc₂, update_self]) hk
    (by rw [hbuf₂, update_self]) (by rw [hpinned₂]; exact h.pinned.trans_lt hi)
  have hpinned₃ : s₃.pinned ⊆ insert k s.pinned := by
    rw [← hpinned₂]
    intro n hn
    rcases eq_or_ne n k with rfl | hne
    · exact Finset.mem_insert_self ..
    · rw [mem_pinned, hpins₃, update_of_ne hne] at hn
      exact Finset.mem_insert_of_mem (mem_pinned.mpr hn)
  rw [hbuf₂, update_self, hbuf₁, update_self, update_idem, update_idem] at hbuf₃
  refine ⟨s₃, h.use h₃ (fun q _ => ?_) ((Finset.card_le_card hpinned₃).trans
    ((Finset.card_insert_le ..).trans (Nat.succ_le_succ h.pinned))) hbuf₃ hk hzero rfl rfl rfl rfl⟩
  rw [hpc₃, hpc₂, hpc₁, update_idem]
  rcases eq_or_ne q p with rfl | hne
  · rw [update_self]
  · rw [update_of_ne hne, h.idle q (Nat.zero_le _)]

theorem dry (h : Busy m i j s) (hall : i + j = NBUF) (hj : j < N) :
    s.step (.bread ⟨j, hj⟩ 1 NBUF) = .error .noBuffers := by
  have hused : s.used = Finset.range NBUF :=
    Finset.eq_of_subset_of_card_le (Finset.filter_subset ..)
    (by rw [h.used, hall, Finset.card_range])
  refine (h.reach.spare.cache.dry_iff (h.idle _ le_rfl)).mpr ⟨fun k hk hdev => ?_, fun k hk => ?_⟩
  · exact (hall ▸ h.cached k hk hdev).ne
  · have hmem := Finset.mem_range.mpr hk
    rw [← hused] at hmem
    exact (Finset.mem_filter.mp hmem).2

end Busy

theorem busy_boot : Busy m 0 0 (boot : Sys N) :=
  ⟨.init init_boot, fun _ _ => rfl, fun _ => rfl, by simp [Sys.pinned, boot],
    by simp [Sys.used, boot], by simp [boot]⟩

theorem exists_busy (p : Fin N) {i j : ℕ} (hi : i ≤ m) (hj : j ≤ N) (hle : i + j ≤ NBUF) :
    ∃ s : Sys N, Busy m i j s := by
  induction j with
  | zero =>
    induction i with
    | zero => exact ⟨boot, busy_boot⟩
    | succ i ih =>
      obtain ⟨s, hs⟩ := ih (by omega) (by omega)
      exact hs.pin p (by omega) (by omega)
  | succ j ih =>
    obtain ⟨s, hs⟩ := ih (by omega) (by omega)
    exact hs.wait (by omega) (by omega)

end Xv6.Bcache
