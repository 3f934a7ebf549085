import Xv6.Vm.Access

/-!
`copyinstr` of `kernel/vm.c` against a reader of one byte at a time.

The source takes a page, then bytes within the page. `stringFrom` takes byte after byte of
a partial map and knows no pages: it stops at a NUL, at the first byte that is not there,
or after `max` bytes. The two agree for every page table (`copyinstr_run`).
-/

namespace Xv6.Vm

/-- The string at `a`, of at most `max` bytes: 0 and its bytes with the NUL, or -1
and the bytes up to where it was given up. -/
def stringFrom (byte : ℕ → Option UInt8) : (max a : ℕ) → ℤ × List UInt8
  | 0, _ => (-1, [])
  | max + 1, a =>
    match byte a with
    | none => (-1, [])
    | some b =>
      if b = 0 then (0, [0])
      else ((stringFrom byte max (a + 1)).1, b :: (stringFrom byte max (a + 1)).2)

section StringFrom

variable {byte byte' : ℕ → Option UInt8} {max a b : ℕ} {c : UInt8}

theorem stringFrom_none (h : byte a = none) : stringFrom byte max a = (-1, []) := by
  cases max with
  | zero => rfl
  | succ max => rw [stringFrom, h]

theorem stringFrom_nul (h : byte a = some 0) : stringFrom byte (max + 1) a = (0, [0]) := by
  rw [stringFrom, h]
  exact if_pos rfl

theorem stringFrom_some (h : byte a = some c) (hc : c ≠ 0) : stringFrom byte (max + 1) a =
    ((stringFrom byte max (a + 1)).1, c :: (stringFrom byte max (a + 1)).2) := by
  rw [stringFrom, h]
  exact if_neg hc

/-- What `stringFrom` has read: it has 0 at the first NUL, or has come to a byte
that is not there or to the end of the buffer before any NUL. -/
structure StringRead (byte : ℕ → Option UInt8) (max a : ℕ) (r : ℤ × List UInt8) : Prop where
  le : r.2.length ≤ max
  bytes : ∀ k < r.2.length, byte (a + k) = some (r.2.getD k 0)
  result : r.1 = 0 ∧ (∃ k, r.2.length = k + 1 ∧ r.2.getD k 0 = 0 ∧ ∀ j < k, r.2.getD j 0 ≠ 0) ∨
    r.1 = -1 ∧ (∀ j < r.2.length, r.2.getD j 0 ≠ 0) ∧
      (r.2.length = max ∨ byte (a + r.2.length) = none)

theorem StringRead.cons {r : ℤ × List UInt8} (h : StringRead byte max (a + 1) r)
    (hb : byte a = some c) (hc : c ≠ 0) : StringRead byte (max + 1) a (r.1, c :: r.2) := by
  have hnext : ∀ k, a + (k + 1) = a + 1 + k := fun k => by omega
  have hall : ∀ n, (∀ j < n, r.2.getD j 0 ≠ 0) → ∀ j < n + 1, (c :: r.2).getD j 0 ≠ 0 := by
    grind [StringRead]
  refine ⟨Nat.succ_le_succ h.le, ?_, ?_⟩
  · intro k hk
    cases k with
    | zero => exact hb
    | succ k =>
      rw [hnext]
      exact h.bytes k (Nat.lt_of_succ_lt_succ hk)
  · obtain ⟨h0, k, hk, hnul, hfirst⟩ | ⟨h1, hfirst, hend⟩ := h.result
    · exact .inl ⟨h0, k + 1, congrArg (· + 1) hk, hnul, hall k hfirst⟩
    · grind

theorem stringFrom_read (byte : ℕ → Option UInt8) (max a : ℕ) :
    StringRead byte max a (stringFrom byte max a) := by
  induction max generalizing a with
  | zero => exact ⟨le_rfl, by simp [stringFrom], .inr ⟨rfl, by simp [stringFrom], .inl rfl⟩⟩
  | succ max ih =>
    cases hb : byte a with
    | none => grind [StringRead, stringFrom_none]
    | some c =>
      by_cases hc : c = 0
      · subst hc
        rw [stringFrom_nul hb]
        refine ⟨Nat.succ_le_succ (Nat.zero_le _), ?_, .inl ⟨rfl, 0, rfl, rfl, by simp⟩⟩
        intro k hk
        obtain rfl : k = 0 := by simpa using hk
        exact hb
      · rw [stringFrom_some hb hc]
        exact (ih (a + 1)).cons hb hc

theorem stringFrom_congr (hnone : ∀ x, byte x = none → byte' x = none)
    (h : ∀ k < (stringFrom byte max a).2.length, byte' (a + k) = byte (a + k)) :
    stringFrom byte' max a = stringFrom byte max a := by
  induction max generalizing a with
  | zero => rfl
  | succ max ih =>
    cases hb : byte a with
    | none => rw [stringFrom_none hb, stringFrom_none (hnone a hb)]
    | some c =>
      by_cases hc : c = 0
      · subst hc
        have h0 := h 0 (by simp [stringFrom_nul hb])
        rw [Nat.add_zero, hb] at h0
        rw [stringFrom_nul hb, stringFrom_nul h0]
      · rw [stringFrom_some hb hc] at h ⊢
        have h0 := h 0 (Nat.succ_pos _)
        rw [Nat.add_zero, hb] at h0
        have hrest := ih (a := a + 1) fun k hk => by
          have hk' := h (k + 1) (Nat.succ_lt_succ hk)
          rwa [show a + (k + 1) = a + 1 + k by omega] at hk'
        rw [stringFrom_some h0 hc, hrest]

end StringFrom

/-! ### The loops -/

variable {s s' : Ram} {root va : ℕ}

def byteAt (s : Ram) (root a : ℕ) : Option UInt8 :=
  if a < MAXVA ∧ userPa s root (a / PGSIZE) ≠ 0 then some (s.load root a) else none

theorem copyinstrPage_eq {byte : ℕ → Option UInt8} {pa n o m a : ℕ}
    (h : ∀ k < n, byte (a + k) = some (s.byte pa (o + k))) : stringFrom byte (n + m) a =
      if (copyinstrPage s pa n o).1 then (0, (copyinstrPage s pa n o).2)
      else ((stringFrom byte m (a + n)).1,
        (copyinstrPage s pa n o).2 ++ (stringFrom byte m (a + n)).2) := by
  induction n generalizing a o with
  | zero => simp [copyinstrPage]
  | succ n ih =>
    have h0 : byte a = some (s.byte pa o) := h 0 (Nat.succ_pos n)
    have hrest : ∀ k < n, byte (a + 1 + k) = some (s.byte pa (o + 1 + k)) := fun k hk => by
      have hk' := h (k + 1) (by omega)
      rwa [show a + (k + 1) = a + 1 + k by omega, show o + (k + 1) = o + 1 + k by omega] at hk'
    rw [show n + 1 + m = n + m + 1 by omega, show a + (n + 1) = a + 1 + n by omega,
      copyinstrPage]
    by_cases hnul : s.byte pa o = 0
    · rw [hnul] at h0
      simp only [stringFrom_nul h0, hnul, if_true]
    · rw [stringFrom_some h0 hnul, ih hrest]
      split <;> rfl

theorem copyinstrLoop_run {fuel max : ℕ} (hfuel : max ≤ fuel) :
    (copyinstrLoop root fuel va max).run s = .ok (stringFrom (byteAt s root) max va, s) := by
  induction fuel generalizing va max with
  | zero =>
    obtain rfl : max = 0 := by omega
    rfl
  | succ fuel ih =>
    rw [copyinstrLoop]
    by_cases hmax : max = 0
    · subst hmax
      rfl
    rw [if_neg hmax]
    by_cases hva : va < MAXVA
    swap
    · -- `walkaddr` has no page at or above `MAXVA`
      have hnone : byteAt s root va = none := if_neg fun h => hva h.1
      have hrun : (walkaddr root (PGROUNDDOWN va)).run s = .ok (0, s) := by
        rw [walkaddr, if_pos (not_lt.mp fun h => hva (PGROUNDDOWN_lt.mp h))]
        rfl
      rw [stringFrom_none hnone]
      rw [run_bind_of_ok hrun]
      rfl
    have hround := PGROUNDDOWN_lt.mpr hva
    have hrun := @walkaddr_run s root _ hround
    rw [PGROUNDDOWN_div] at hrun
    rw [run_bind_of_ok hrun]
    by_cases hpa : userPa s root (va / PGSIZE) = 0
    · have hnone : byteAt s root va = none := if_neg fun h => h.2 hpa
      rw [if_pos hpa, stringFrom_none hnone]
      rfl
    rw [if_neg hpa, next_page hround]
    obtain ⟨n, hn⟩ : ∃ n, n = min (PGSIZE - (va - PGROUNDDOWN va)) max := ⟨_, rfl⟩
    rw [← hn]
    have hpage : ∀ k < n, byteAt s root (va + k) =
        some (s.byte (userPa s root (va / PGSIZE)) (va - PGROUNDDOWN va + k)) := by
      grind [PGROUNDDOWN, byteAt, Ram.load]
    have hsplit := copyinstrPage_eq (m := max - n) hpage
    rw [show n + (max - n) = max by omega] at hsplit
    rw [hsplit]
    have hget : (get : M Ram).run s = .ok (s, s) := rfl
    rw [run_bind_of_ok hget]
    generalize copyinstrPage s (userPa s root (va / PGSIZE)) n (va - PGROUNDDOWN va) = q
    obtain ⟨gotNull, bytes⟩ := q
    cases gotNull with
    | true => rfl
    | false =>
      have hle : PGROUNDDOWN va ≤ va ∧ va < PGROUNDDOWN va + PGSIZE := by grind [PGROUNDDOWN]
      -- the page ends here, or there is no room for more
      have hnext : stringFrom (byteAt s root) (max - n) (va + n) =
          stringFrom (byteAt s root) (max - n) (PGROUNDDOWN va + PGSIZE) := by
        by_cases h0 : max - n = 0
        · rw [h0]
          rfl
        · rw [show va + n = PGROUNDDOWN va + PGSIZE by omega]
      rw [hnext]
      show (copyinstrLoop root fuel (PGROUNDDOWN va + PGSIZE) (max - n) >>=
        fun x => pure (x.1, bytes ++ x.2)).run s = _
      rw [run_bind_of_ok (ih (by omega))]
      rfl

theorem copyinstr_run (s : Ram) (root va max : ℕ) :
    (copyinstr root va max).run s = .ok (stringFrom (byteAt s root) max va, s) :=
  copyinstrLoop_run le_rfl

/-! ### The string is exact -/

/-- The user address `a` is mapped with `PTE_V` and `PTE_U` to a page other than
the first. -/
def Readable (s : Ram) (root a : ℕ) : Prop :=
  a < MAXVA ∧ ∃ pa flags, view s root (a / PGSIZE) = some (pa, flags) ∧ flags &&& PTE_U ≠ 0 ∧ pa ≠ 0

theorem byteAt_eq {a : ℕ} (h : Readable s root a) : byteAt s root a = some (s.load root a) := by
  obtain ⟨ha, pa, flags, hv, hu, hpa⟩ := h
  refine if_pos ⟨ha, ?_⟩
  rwa [UserPage.userPa_eq ⟨hv, hu⟩]

theorem readable_iff {a : ℕ} : Readable s root a ↔ byteAt s root a ≠ none := by
  constructor
  · intro h
    rw [byteAt_eq h]
    exact Option.some_ne_none _
  · grind [byteAt, userPa, Readable]

theorem copyinstr_congr {max : ℕ} (hview : view s' root = view s root)
    (h : ∀ j < (stringFrom (byteAt s root) max va).2.length,
      s'.load root (va + j) = s.load root (va + j)) :
    (copyinstr root va max).run s' = .ok (stringFrom (byteAt s root) max va, s') := by
  have hpa : ∀ v, userPa s' root v = userPa s root v := fun v => by rw [userPa, userPa, hview]
  rw [copyinstr_run, stringFrom_congr]
  · grind [byteAt]
  · intro k hk
    rw [byteAt, byteAt, hpa, h k hk]

/-- `copyinstr` returns, with 0 exactly when there is a NUL among the first `max`
bytes and every byte up to it may be read, and then with the bytes up to the
first NUL. It stores at most `max` bytes, and reads no byte that it does not
store: another memory with the same bindings that has these bytes gives
the same result. -/
theorem copyinstr_exact (s : Ram) (root va max : ℕ) : ∃ r bytes,
    (copyinstr root va max).run s = .ok ((r, bytes), s) ∧ bytes.length ≤ max ∧
      (r = 0 ↔ ∃ k < max, s.load root (va + k) = 0 ∧ ∀ j ≤ k, Readable s root (va + j)) ∧
      (r = 0 → ∃ k < max, s.load root (va + k) = 0 ∧ (∀ j < k, s.load root (va + j) ≠ 0) ∧
        bytes = (List.range (k + 1)).map fun j => s.load root (va + j)) ∧
      (r ≠ 0 → r = -1) ∧
      (∀ j < bytes.length, Readable s root (va + j) ∧ bytes.getD j 0 = s.load root (va + j)) ∧
      ∀ s', view s' root = view s root →
        (∀ j < bytes.length, s'.load root (va + j) = s.load root (va + j)) →
        (copyinstr root va max).run s' = .ok ((r, bytes), s') := by
  have hread := stringFrom_read (byteAt s root) max va
  have hcongr : ∀ s', view s' root = view s root → _ → _ := fun s' hview h =>
    @copyinstr_congr _ _ _ va max hview h
  have hrun := copyinstr_run s root va max
  generalize stringFrom (byteAt s root) max va = q at hread hcongr hrun
  obtain ⟨r, bytes⟩ := q
  have hbytes : ∀ j < bytes.length,
      Readable s root (va + j) ∧ bytes.getD j 0 = s.load root (va + j) := by
    grind [hread.bytes, readable_iff, byteAt_eq]
  have hle : bytes.length ≤ max := hread.le
  obtain ⟨rfl, k, hlen, hnul, hfirst⟩ | ⟨rfl, hfirst, hend⟩ : r = 0 ∧ _ ∨ r = -1 ∧ _ := hread.result
  · grind [eq_map_range]
  · have hr : (-1 : ℤ) ≠ 0 := by decide
    refine ⟨-1, bytes, hrun, hle, ⟨fun h => absurd h hr, ?_⟩, fun h => absurd h hr, fun _ => rfl,
      hbytes, hcongr⟩
    rintro ⟨k, hk, hnul, hall⟩
    exfalso
    by_cases hlt : k < bytes.length
    · exact hfirst k hlt ((hbytes k hlt).2.trans hnul)
    · -- the reading was given up at a byte that is there
      have hnone := hend.resolve_left fun h : bytes.length = max => hlt (by omega)
      exact readable_iff.mp (hall bytes.length (by omega)) hnone

theorem copyinstr_exact_hi :
    (copyinstr 0x80001000 0 10).run onePage = .ok ((0, [104, 105, 0]), onePage) := by
  obtain ⟨r, bytes, hrun, -⟩ := copyinstr_exact onePage 0x80001000 0 10
  have hstr : stringFrom (byteAt onePage 0x80001000) 10 0 = (0, [104, 105, 0]) := by decide +kernel
  have hq := (Except.ok.inj (hrun.symm.trans (copyinstr_run onePage 0x80001000 0 10)))
  rw [hrun, hq, hstr]

/-- Page 0 is mapped with `PTE_V` and `PTE_U` to the physical page 0. -/
def pageZero : Ram := lowTable fun i => if i = 0 then PA2PTE 0 ||| 0x11 else 0

/-- The string `hi` is at a mapped address, but `walkaddr` takes the physical
address 0 for a page that is not there. -/
theorem copyinstr_pageZero :
    (∀ j ≤ 2, ∃ pa flags, view pageZero 0x80001000 ((0 + j) / PGSIZE) = some (pa, flags) ∧
      flags &&& PTE_U ≠ 0) ∧ pageZero.load 0x80001000 2 = 0 ∧
    (copyinstr 0x80001000 0 3).run pageZero = .ok ((-1, []), pageZero) := by
  have hview : view pageZero 0x80001000 0 = some (0, 0x11) := by decide +kernel
  refine ⟨fun j hj => ⟨0, 0x11, ?_, by decide⟩, by decide +kernel, ?_⟩
  · rw [← hview, show (0 + j) / PGSIZE = 0 by simp only [PGSIZE]; omega]
  · have hnone : byteAt pageZero 0x80001000 0 = none := by decide +kernel
    rw [copyinstr_run, stringFrom_none hnone]

end Xv6.Vm
