import Xv6.Vm.Create

/-!
`growproc` is exact, as long as the size does not become negative.

`sbrk` passes a signed number. When it is negative and larger than the size, the sum
wraps around to a size that is far above the old one; `uvmdealloc` takes that for
nothing to do, and `growproc` returns 0 with the size unchanged.
-/

namespace Xv6.Vm

variable {s s' : Ram} {own : ℕ → Owner} {tramp : ℕ} {p : Proc}

/-- `growproc(n)`, which has returned `x`, is exact: the size has changed by `n`, the pages
that stay are as they were and those that are new are zero; or it has failed, and changed
nothing that is mapped. -/
def Exact (s : Ram) (tramp : ℕ) (p : Proc) (n x : ℤ) (p' : Proc) (s' : Ram) : Prop :=
  (x = 0 ∧ (p'.sz : ℤ) = p.sz + n ∧ p' = { p with sz := p'.sz } ∧
    (∃ own', AddressSpace s' own' tramp p') ∧
    (∀ v pa flags, v < npages p.sz → v < npages p'.sz →
      view s p.pagetable v = some (pa, flags) →
      view s' p.pagetable v = some (pa, flags) ∧ s'.word pa = s.word pa) ∧
    ∀ v, npages p.sz ≤ v → v < npages p'.sz → ∃ pa flags,
      view s' p.pagetable v = some (pa, flags) ∧ s'.word pa = fun _ => 0) ∨
  x = -1 ∧ p' = p ∧ view s' p.pagetable = view s p.pagetable ∧
    ∀ v pa flags, view s p.pagetable v = some (pa, flags) → s'.word pa = s.word pa

theorem AddressSpace.not_mapped (h : AddressSpace s own tramp p) {v : ℕ}
    (hv : ¬(v < npages p.sz ∨ UTOP ≤ v)) : view s p.pagetable v = none := by
  push Not at hv
  by_contra hne
  exact absurd ((h.sized v hv.2).mp hne) (not_lt.mpr hv.1)

/-- `growproc` returns, and it is exact if and only if the size does not become negative. -/
theorem growproc_exact (h : AddressSpace s own tramp p) (n : ℤ) (hlo : -2 ^ 31 ≤ n)
    (hhi : n < 2 ^ 31) : ∃ x p' s', (growproc p n).run s = .ok ((x, p'), s') ∧
      (Exact s tramp p n x p' s' ↔ 0 ≤ p.sz + n) := by
  obtain ⟨⟨x, p'⟩, s', hrun, hres, own', hspace, -, hkept⟩ :=
    (growproc_wp (E := fun _ => False) h hlo hhi).returned fun _ => id
  refine ⟨x, p', s', hrun, ?_⟩
  obtain ⟨hsum, rfl, rfl, hzero⟩ | ⟨hpos, hfail⟩ | ⟨hneg, hsame⟩ := hres
  · refine iff_of_true (.inl ⟨rfl, Int.toNat_of_nonneg hsum, rfl, ⟨own', hspace⟩, ?_, ?_⟩) hsum
    · intro v pa flags hv hv' hview
      have hlow : v < min (npages p.sz) (npages (p.sz + n).toNat) := lt_min hv hv'
      rw [hkept.view_eq v (.inl hlow)]
      exact ⟨hview, hkept.word_eq v pa flags (.inl hlow) hview⟩
    · intro v hv hv'
      obtain ⟨pa, hview, hword⟩ := hzero v hv hv'
      exact ⟨pa, _, hview, hword⟩
  · cases hfail
    rw [Nat.min_self] at hkept
    refine iff_of_true (.inr ⟨rfl, rfl, funext fun v => ?_, fun v pa flags hview => ?_⟩) (by omega)
    · by_cases hv : v < npages p.sz ∨ UTOP ≤ v
      · exact hkept.view_eq v hv
      · rw [h.not_mapped hv, hspace.not_mapped hv]
    · refine hkept.word_eq v pa flags ?_ hview
      by_contra hv
      rw [h.not_mapped hv] at hview
      cases hview
  · cases hsame
    refine iff_of_false ?_ (not_le.mpr hneg)
    rintro (⟨-, hsz, -⟩ | ⟨hx, -⟩)
    · omega
    · cases hx

/-! ### A process that grows -/

def growNew (n : ℤ) : M ℤ := do
  match ← procPagetable 0x80000000 0x80001000 with
  | none => pure (-1)
  | some c => pure (← growproc ⟨c, 0, 0x80001000, []⟩ n).1

theorem growproc_exact_page : ∃ s own p, AddressSpace s own 0x80000000 p ∧ p.sz = 0 ∧
    ∃ s', (growproc p 4096).run s = .ok ((0, { p with sz := 4096 }), s') ∧
      ∃ pa flags, view s' p.pagetable 0 = some (pa, flags) ∧ s'.word pa = fun _ => 0 := by
  obtain ⟨x, t, hrun, hx⟩ := exists_of_returns (f := growNew 4096)
    (p := fun x _ => decide (x = 0)) (s := bootRam) (by decide +kernel)
  obtain ⟨c, s, hc, hgrow⟩ := exists_of_run_bind hrun
  cases c with
  | none =>
    cases hgrow
    cases of_decide_eq_true hx
  | some c =>
    obtain ⟨own, hspace⟩ := bootRam_space hc
    obtain ⟨y, s₁, hy, hpure⟩ := exists_of_run_bind hgrow
    cases hpure
    obtain ⟨x, p', s', hrun', hres⟩ := growproc_exact hspace 4096 (by decide) (by decide)
    cases hrun'.symm.trans hy
    have hx0 : x = 0 := of_decide_eq_true hx
    obtain ⟨-, hsz, hp', -, -, hzero⟩ | ⟨hneg, -⟩ := hres.mpr (Int.natCast_nonneg 4096)
    · subst hx0
      have hsz' : p'.sz = 4096 := by exact_mod_cast hsz
      rw [hsz'] at hp' hzero
      subst hp'
      exact ⟨s, own, _, hspace, rfl, _, hrun', hzero 0 npages_zero.le (by decide)⟩
    · rw [hx0] at hneg
      cases hneg

/-- `sbrk(-1)` of a process without memory reports success. -/
theorem growproc_below_zero : ∃ s own p, AddressSpace s own 0x80000000 p ∧ (p.sz : ℤ) + -1 < 0 ∧
    (growproc p (-1)).run s = .ok ((0, p), s) := by
  obtain ⟨x, s, hrun, hx⟩ := exists_of_returns (f := procPagetable 0x80000000 0x80001000)
    (p := fun x _ => x.isSome) (s := bootRam) (by decide +kernel)
  obtain ⟨c, rfl⟩ := Option.isSome_iff_exists.mp hx
  obtain ⟨own, hspace⟩ := bootRam_space hrun
  exact ⟨s, own, _, hspace, neg_one_lt_zero, rfl⟩

end Xv6.Vm
