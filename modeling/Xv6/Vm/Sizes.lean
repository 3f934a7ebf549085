import Xv6.Vm.Pages

/-!
`uvmalloc`, `uvmdealloc` and `growproc`.

An address space of `n` pages has exactly the first `n` page numbers mapped (`Sized`). The
pages behind them are different pages that the allocator manages, so `n` is far below
`UTOP` (`Mem.pages_le`) and neither function gets to the pages at the top. `uvmalloc`
removes the pages that it has added when it runs out of memory.
-/

namespace Xv6.Vm

variable {s s' s₁ : Ram} {own own' own₁ : ℕ → Owner} {r m v n k f oldsz newsz : ℕ} {V : Set ℕ}
  {E : Panic → Prop}

/-! ### Sizes and pages -/

def npages (sz : ℕ) : ℕ := PGROUNDUP sz / PGSIZE

theorem PGROUNDUP_eq (sz : ℕ) : PGROUNDUP sz = npages sz * PGSIZE := by
  rw [npages, PGROUNDUP, Nat.mul_div_cancel _ (by decide)]

theorem npages_eq (h : newsz ≤ UTOP * PGSIZE) : npages newsz = (newsz + (PGSIZE - 1)) / PGSIZE := by
  rw [npages, PGROUNDUP, Nat.mul_div_cancel _ (by decide), Nat.mod_eq_of_lt]
  norm_num at h ⊢
  omega

theorem npages_mul (h : n ≤ UTOP) : npages (n * PGSIZE) = n := by
  rw [npages_eq (Nat.mul_le_mul_right _ h)]
  simp only [PGSIZE]
  omega

theorem npages_le (h : newsz ≤ UTOP * PGSIZE) : npages newsz ≤ UTOP := by
  rw [npages_eq h]
  norm_num at h ⊢
  omega

theorem npages_mono (h : oldsz ≤ UTOP * PGSIZE) (hle : newsz ≤ oldsz) :
    npages newsz ≤ npages oldsz := by
  rw [npages_eq h, npages_eq (hle.trans h)]
  exact Nat.div_le_div_right (by omega)

def Sized (s : Ram) (r n : ℕ) : Prop := ∀ v < UTOP, view s r v ≠ none ↔ v < n

theorem Mem.pages_le (hm : Mem s own r) (hn : n ≤ UTOP) (h : ∀ v < n, view s r v ≠ none) :
    n ≤ PHYSTOP / PGSIZE := by
  have hpage : ∀ v < n, ∃ pa flags, view s r v = some (pa, flags) ∧ own pa = .data r v ∧
      Managed s pa := by
    intro v hv
    obtain ⟨⟨pa, flags⟩, hpa⟩ := Option.ne_none_iff_exists'.mp (h v hv)
    have hown := hm.space.user v _ hpa (by omega)
    exact ⟨pa, flags, hpa, hown, hm.heap.managed (by rw [hown]; nofun)⟩
  have hcard := Finset.card_le_card_of_injOn (s := Finset.range n)
    (t := Finset.range (PHYSTOP / PGSIZE)) (fun v => ((view s r v).getD (0, 0)).1 / PGSIZE) ?_ ?_
  · simpa using hcard
  · intro v hv
    obtain ⟨pa, flags, hpa, -, hman⟩ := hpage v (by simpa using hv)
    have := hman.2.2
    simp only [hpa, Option.getD_some, Finset.coe_range, Set.mem_Iio]
    norm_num at this ⊢
    omega
  · intro v hv w hw heq
    obtain ⟨pa, flags, hpa, hown, hman⟩ := hpage v (by simpa using hv)
    obtain ⟨pa', flags', hpa', hown', hman'⟩ := hpage w (by simpa using hw)
    simp only [hpa, hpa', Option.getD_some] at heq
    have hsame : pa = pa' := by
      have h₁ := hman.1
      have h₂ := hman'.1
      norm_num at h₁ h₂ heq
      omega
    rw [hsame, hown'] at hown
    injection hown with _ hvw
    exact hvw.symm

/-! ### `uvmdealloc` -/

theorem uint64_int (h : k < 2 ^ 31) : uint64 (int k) = k := by
  unfold uint64 int
  omega

/-- `uvmdealloc` unmaps and frees the pages behind the new size. -/
theorem uvmdealloc_wp (hm : Mem s own r) (hsz : Sized s r (npages oldsz))
    (hold : oldsz ≤ UTOP * PGSIZE) :
    wp E (uvmdealloc r oldsz newsz) (fun x s' =>
      oldsz ≤ newsz ∧ x = oldsz ∧ s' = s ∨
      newsz < oldsz ∧ x = newsz ∧ ∃ own', Mem s' own' r ∧
        Touches r {v | npages newsz ≤ v} s s' own own' ∧
        view s' r = dropRun (view s r) (npages newsz) (npages oldsz - npages newsz)) s := by
  refine wp.ite (fun hge => .inl ⟨hge, rfl, rfl⟩) fun hlt => ?_
  have hle := @npages_mono oldsz newsz hold (by omega)
  have hUTOP := npages_le hold
  refine wp.ite (fun hpages => ?_) fun hpages => ?_
  · rw [PGROUNDUP_eq, PGROUNDUP_eq, ← Nat.sub_mul, Nat.mul_div_cancel _ (by decide)] at *
    have hk : npages oldsz - npages newsz < 2 ^ 31 := by
      norm_num at hUTOP ⊢
      omega
    dsimp only
    rw [uint64_int hk]
    have hdiv : npages newsz * PGSIZE / PGSIZE = npages newsz := Nat.mul_div_cancel _ (by decide)
    refine wp.bind (uvmunmap_user hm (Nat.mul_mod_left ..) ?_ ?_) ?_
    · rw [← Nat.add_mul]
      exact Nat.mul_le_mul_right _ (by omega)
    · intro w _ hhi
      exact (hsz w (by omega)).mpr (by omega)
    · rintro - s' ⟨own', hm', htouch, hview⟩
      rw [hdiv] at htouch hview
      exact .inr ⟨by omega, rfl, own', hm', htouch.mono fun w hw => hw.1, hview⟩
  · have heq : npages oldsz - npages newsz = 0 := by
      rw [PGROUNDUP_eq, PGROUNDUP_eq] at hpages
      have hnot : ¬npages newsz < npages oldsz := fun h =>
        hpages (Nat.mul_lt_mul_of_pos_right h (by decide))
      omega
    refine .inr ⟨by omega, rfl, own, hm, .refl .., ?_⟩
    rw [heq, dropRun_zero]

/-! ### `uvmalloc` -/

/-- From `s` to `s'` the address space has grown from `n` to `k` pages, by
zero pages with the flags `f`. -/
structure Grown (s s' : Ram) (own own' : ℕ → Owner) (r n k f : ℕ) : Prop where
  mem : Mem s' own' r
  touches : Touches r {v | n ≤ v} s s' own own'
  same : ∀ v, v < n ∨ k ≤ v → view s' r v = view s r v
  fresh : ∀ v, n ≤ v → v < k → ∃ pa, view s' r v = some (pa, f) ∧ s'.word pa = fun _ => 0

namespace Grown

variable (h : Grown s s₁ own own₁ r n k f)

protected theorem refl (hm : Mem s own r) (n f : ℕ) : Grown s s own own r n n f :=
  ⟨hm, .refl .., fun _ _ => rfl, fun _ hlo hhi => absurd hlo (not_le.mpr hhi)⟩

include h

theorem fresh_trans (ht : Touches r V s₁ s' own₁ own') (hk : k ≤ UTOP) (hV : ∀ v < k, v ∉ V)
    (hview : ∀ v < k, view s' r v = view s₁ r v) :
    ∀ v, n ≤ v → v < k → ∃ pa, view s' r v = some (pa, f) ∧ s'.word pa = fun _ => 0 := by
  intro v hlo hhi
  obtain ⟨pa, hpa, hzero⟩ := h.fresh v hlo hhi
  refine ⟨pa, (hview v hhi).trans hpa, ?_⟩
  have hown := h.mem.space.user v _ hpa (by omega)
  rw [(ht.data hown fun _ => hV v hhi).2, hzero]

theorem stay (hk : k ≤ UTOP) (hm : Mem s' own' r) (ht : Touches r ∅ s₁ s' own₁ own')
    (hview : view s' r = view s₁ r) : Grown s s' own own' r n k f := by
  refine ⟨hm, h.touches.trans (ht.mono (Set.empty_subset _)), ?_, ?_⟩
  · rw [hview]
    exact h.same
  · exact h.fresh_trans ht hk (fun _ _ => id) fun v _ => by rw [hview]

theorem succ (hn : n ≤ k) (hk : k < UTOP) (hm : Mem s' own' r) (ht : Touches r {k} s₁ s' own₁ own')
    (hview : view s' r = Function.update (view s₁ r) k (some (m, f)))
    (hzero : s'.word m = fun _ => 0) : Grown s s' own own' r n (k + 1) f := by
  have hother : ∀ v, v ≠ k → view s' r v = view s₁ r v := fun v hv => by
    rw [hview, Function.update_of_ne hv]
  refine ⟨hm, h.touches.trans (ht.mono ?_), fun v hv => ?_, fun v hlo hhi => ?_⟩
  · rintro v rfl
    exact hn
  · rw [hother v (by omega)]
    exact h.same v (by omega)
  · grind [congrFun hview, h.fresh_trans]

theorem sized (hsz : Sized s r n) (hn : n ≤ k) : Sized s₁ r k := by
  intro v hv
  by_cases hin : n ≤ v ∧ v < k
  · grind [h.fresh]
  · rw [h.same v (by omega), hsz v hv]
    omega

theorem undo (hsz : Sized s r n) (hn : n ≤ k) (hk : k ≤ UTOP) :
    wp E (uvmdealloc r (k * PGSIZE) (n * PGSIZE)) (fun _ s' => ∃ own', Mem s' own' r ∧
      Touches r {v | n ≤ v} s s' own own' ∧ view s' r = view s r) s₁ := by
  have hsized : Sized s₁ r (npages (k * PGSIZE)) := by
    rw [npages_mul hk]
    exact h.sized hsz hn
  have hold : k * PGSIZE ≤ UTOP * PGSIZE := Nat.mul_le_mul_right _ hk
  refine (uvmdealloc_wp h.mem hsized hold).mono ?_
  rintro x s' (⟨hle, -, rfl⟩ | ⟨-, -, own', hm', ht', hview'⟩)
  · grind [h.mem, h.touches, h.same]
  · rw [npages_mul (hn.trans hk)] at ht' hview'
    rw [npages_mul hk] at hview'
    refine ⟨own', hm', h.touches.trans ht', funext fun v => ?_⟩
    rw [hview', dropRun]
    split
    · -- these were not mapped before
      have hnot := hsz v (by omega)
      by_contra hne
      exact absurd (hnot.mp (Ne.symm hne)) (by omega)
    · exact h.same v (by omega)

end Grown

theorem uvmallocLoop_wp {xperm turns : ℕ} (hsz : Sized s r n) (hn : n ≤ k) (hk : k ≤ UTOP)
    (hx : PTE_R ||| PTE_U ||| xperm < 2 ^ 10)
    (h : Grown s s₁ own own₁ r n k (PTE_R ||| PTE_U ||| xperm ||| PTE_V))
    (hlo : k = n ∨ k * PGSIZE < newsz + PGSIZE) (hturns : newsz ≤ (k + turns) * PGSIZE) :
    wp E (uvmallocLoop r (n * PGSIZE) newsz xperm turns (k * PGSIZE)) (fun x s' =>
      (x = newsz ∧ ∃ own' k', n ≤ k' ∧ k' ≤ UTOP ∧ newsz ≤ k' * PGSIZE ∧
        (k' = n ∨ k' * PGSIZE < newsz + PGSIZE) ∧
        Grown s s' own own' r n k' (PTE_R ||| PTE_U ||| xperm ||| PTE_V)) ∨
      x = 0 ∧ ∃ own', Mem s' own' r ∧ Touches r {v | n ≤ v} s s' own own' ∧
        view s' r = view s r) s₁ := by
  induction turns generalizing s₁ own₁ k with
  | zero => grind [uvmallocLoop, wp_pure]
  | succ turns ih =>
    refine wp.ite (fun hlt => ?_) fun hge => ?_
    swap
    · exact .inl ⟨rfl, own₁, k, hn, hk, not_lt.mp hge, hlo, h⟩
    -- all pages up to here are mapped, so that memory ends before the top
    have hmapped : ∀ v < k, view s₁ r v ≠ none := by
      intro v hv
      by_cases hin : n ≤ v
      · grind [h.fresh]
      · rw [h.same v (by omega)]
        exact (hsz v (by omega)).mpr (by omega)
    have hk' : k < UTOP := by
      have := h.mem.pages_le hk hmapped
      norm_num at this ⊢
      omega
    have hdiv : k * PGSIZE / PGSIZE = k := Nat.mul_div_cancel _ (by decide)
    have hnone : view s₁ r k = none := by
      rw [h.same k (by omega)]
      by_contra hne
      exact absurd ((hsz k hk').mp hne) (by omega)
    rw [wp_bind]
    refine kalloc_wp (fun _ => ?_) fun m rest hfree => ?_
    · refine (wp.bind (h.undo hsz hn hk) ?_)
      rintro - s' hs'
      exact .inr ⟨rfl, hs'⟩
    · rw [wp_bind, wp_modify]
      have hword : ∀ j, j ≠ m → ((s₁.taken m rest).memset m 0).word j = s₁.word j := fun j hj => by
        rw [memset_word_ne hj]
        exact memset_word_ne hj
      refine wp.bind (place_page h.mem hfree rfl rfl hword (Nat.mul_mod_left ..)
        (by rw [hdiv]; exact hk') (by rw [hdiv]; exact hnone) hx ?_) ?_
      · grind
      · rw [hdiv]
        rintro x s₂ (⟨rfl, hman, own₂, hm₂, ht₂, hview₂, -⟩ |
          ⟨rfl, own₂, hm₂, ht₂, hview₂, hzero, -⟩)
        · rw [if_pos (by decide), wp_bind]
          refine wp_of_ok (kfree_run hman) ?_
          refine (wp.bind ((h.stay hk hm₂ ht₂ hview₂).undo hsz hn hk) ?_)
          rintro - s' hs'
          exact .inr ⟨rfl, hs'⟩
        · have hadd := Nat.add_one_mul k PGSIZE
          rw [if_neg (by decide), ← hadd]
          refine ih (by omega) hk' (h.succ hn hk' hm₂ ht₂ hview₂ ?_) ?_ ?_
          · rw [hzero]
            ext1 j
            rw [memset_word, if_pos rfl]
          · omega
          · rwa [show k + 1 + turns = k + (turns + 1) by omega]

/-- `uvmalloc` adds zero pages up to the new size, or leaves the pages that are
mapped as they were. -/
theorem uvmalloc_wp {xperm : ℕ} (hm : Mem s own r) (hsz : Sized s r (npages oldsz))
    (hold : oldsz ≤ UTOP * PGSIZE) (hx : PTE_R ||| PTE_U ||| xperm < 2 ^ 10) :
    wp E (uvmalloc r oldsz newsz xperm) (fun x s' =>
      newsz < oldsz ∧ x = oldsz ∧ s' = s ∨
      oldsz ≤ newsz ∧ x = newsz ∧ newsz ≤ UTOP * PGSIZE ∧ (∃ own', Grown s s' own own' r
        (npages oldsz) (npages newsz) (PTE_R ||| PTE_U ||| xperm ||| PTE_V)) ∨
      oldsz ≤ newsz ∧ x = 0 ∧ ∃ own', Mem s' own' r ∧
        Touches r {v | npages oldsz ≤ v} s s' own own' ∧ view s' r = view s r) s := by
  rw [uvmalloc]
  refine wp.ite (fun hlt => .inl ⟨hlt, rfl, rfl⟩) fun hle => ?_
  have hle' : oldsz ≤ newsz := not_lt.mp hle
  have hpages := npages_eq hold
  dsimp only
  rw [PGROUNDUP_eq]
  refine (uvmallocLoop_wp hsz le_rfl (npages_le hold) hx (.refl hm _ _) (.inl rfl) ?_).mono ?_
  · simp only [PGSIZE] at *
    omega
  · rintro x s' (⟨rfl, own', k', -, hk', hge, hlo, hg⟩ | ⟨rfl, hs'⟩)
    · have hnew : x ≤ UTOP * PGSIZE := hge.trans (Nat.mul_le_mul_right _ hk')
      obtain rfl : k' = npages x := by grind [npages_eq]
      exact .inr (.inl ⟨hle', rfl, hnew, own', hg⟩)
    · exact .inr (.inr ⟨hle', rfl, hs'⟩)

/-! ### `growproc` -/

/-- The address space of a process: the pages of `[0, PGROUNDUP(sz))`, the trampoline
and the trapframe are mapped, and nothing else. -/
structure AddressSpace (s : Ram) (own : ℕ → Owner) (tramp : ℕ) (p : Proc) : Prop where
  mem : Mem s own p.pagetable
  sz_le : p.sz ≤ UTOP * PGSIZE
  sized : Sized s p.pagetable (npages p.sz)
  trapframe :
    view s p.pagetable (TRAPFRAME / PGSIZE) = some (p.trapframe, PTE_R ||| PTE_W ||| PTE_V)
  trampoline : view s p.pagetable (TRAMPOLINE / PGSIZE) = some (tramp, PTE_R ||| PTE_X ||| PTE_V)
  own_trapframe : ∃ k, own p.trapframe = .other k
  own_trampoline : own tramp = .outside

structure Kept (s s' : Ram) (r k : ℕ) : Prop where
  view_eq : ∀ v, v < k ∨ UTOP ≤ v → view s' r v = view s r v
  word_eq : ∀ v pa flags, v < k ∨ UTOP ≤ v → view s r v = some (pa, flags) → s'.word pa = s.word pa

variable {p : Proc} {tramp : ℕ}

theorem top_cases (hv : UTOP ≤ v) (hne : view s r v ≠ none) :
    v = TRAPFRAME / PGSIZE ∨ v = TRAMPOLINE / PGSIZE := by
  have hlt : v < MAXVA / PGSIZE := by grind [view]
  norm_num at hlt hv ⊢
  omega

section

variable (h : AddressSpace s own tramp p)
include h

theorem AddressSpace.top {b : ℕ × ℕ} (hb : view s p.pagetable v = some b) (hv : UTOP ≤ v) :
    ¬Owner.Within r V (own b.1) := by
  obtain rfl | rfl := top_cases hv (by rw [hb]; nofun)
  · obtain rfl := Option.some.inj (h.trapframe.symm.trans hb)
    obtain ⟨k, hk⟩ := h.own_trapframe
    rw [hk]
    exact id
  · obtain rfl := Option.some.inj (h.trampoline.symm.trans hb)
    rw [h.own_trampoline]
    exact id

theorem AddressSpace.frame (ht : Touches r V s s' own own') (hne : p.pagetable ≠ r)
    (hh : Heap s' own') (hr : Rooted own') : AddressSpace s' own' tramp p := by
  obtain ⟨hspace, hview⟩ := h.mem.space.frame ht hne
  refine ⟨⟨hh, hr, hspace⟩, h.sz_le, ?_, ?_, ?_, ?_, ?_⟩
  · rw [Sized, hview]
    exact h.sized
  · rw [hview]
    exact h.trapframe
  · rw [hview]
    exact h.trampoline
  · obtain ⟨k, hk⟩ := h.own_trapframe
    exact ⟨k, (ht.pages.owner_iff id).mpr hk⟩
  · exact (ht.pages.owner_iff id).mpr h.own_trampoline

theorem AddressSpace.kept (ht : Touches p.pagetable {v | k ≤ v} s s' own own')
    (hview : ∀ v, v < k ∨ UTOP ≤ v → view s' p.pagetable v = view s p.pagetable v) :
    Kept s s' p.pagetable k := by
  refine ⟨hview, fun v pa flags hv hb => ?_⟩
  by_cases hUTOP : UTOP ≤ v
  · exact ht.pages.cell pa (h.top hb hUTOP)
  · have hown := h.mem.space.user v _ hb (by omega)
    exact (ht.data hown fun _ => not_le.mpr (hv.resolve_right hUTOP)).2

theorem AddressSpace.resize (hm : Mem s' own' p.pagetable)
    (ht : Touches p.pagetable V s s' own own') {sz : ℕ} (hle : sz ≤ UTOP * PGSIZE)
    (hsized : Sized s' p.pagetable (npages sz))
    (hview : ∀ v, UTOP ≤ v → view s' p.pagetable v = view s p.pagetable v) :
    AddressSpace s' own' tramp { p with sz := sz } := by
  refine ⟨hm, hle, hsized, ?_, ?_, ?_, ?_⟩
  · rw [hview _ le_rfl]
    exact h.trapframe
  · rw [hview _ (by decide)]
    exact h.trampoline
  · obtain ⟨k, hk⟩ := h.own_trapframe
    exact ⟨k, (ht.pages.owner_iff id).mpr hk⟩
  · exact (ht.pages.owner_iff id).mpr h.own_trampoline

end

theorem Kept.refl (s : Ram) (r k : ℕ) : Kept s s r k := ⟨fun _ _ => rfl, fun _ _ _ _ _ => rfl⟩

theorem growproc_wp {n : ℤ} (h : AddressSpace s own tramp p) (hlo : -2 ^ 31 ≤ n)
    (hhi : n < 2 ^ 31) : wp E (growproc p n) (fun x s' =>
      ((0 ≤ p.sz + n ∧ x.1 = 0 ∧ x.2 = { p with sz := (p.sz + n).toNat } ∧
        (∀ v, npages p.sz ≤ v → v < npages x.2.sz → ∃ pa, view s' p.pagetable v =
          some (pa, PTE_R ||| PTE_U ||| PTE_W ||| PTE_V) ∧ s'.word pa = fun _ => 0)) ∨
      0 < n ∧ x = (-1, p) ∨ p.sz + n < 0 ∧ x = (0, p)) ∧
      ∃ own', AddressSpace s' own' tramp x.2 ∧
        Touches p.pagetable {v | min (npages p.sz) (npages x.2.sz) ≤ v} s s' own own' ∧
        Kept s s' p.pagetable (min (npages p.sz) (npages x.2.sz))) s := by
  have hsz := h.sz_le
  have hUTOP := npages_le hsz
  rw [growproc]
  refine wp.ite (fun hpos => ?_) fun hnpos => wp.ite (fun hneg => ?_) fun hzero => ?_
  · have hnew : uint64 (p.sz + n) = (p.sz + n).toNat := by
      unfold uint64
      norm_num at hsz
      omega
    rw [hnew]
    refine wp.bind (uvmalloc_wp h.mem h.sized hsz (by decide)) ?_
    rintro x s' (⟨hlt, -, -⟩ | ⟨-, rfl, hle, own', hg⟩ | ⟨-, rfl, own', hm', ht, hview⟩)
    · omega
    · rw [if_neg (by omega)]
      have hmono := @npages_mono _ p.sz hle (by omega)
      have hle' := npages_le hle
      have hsame : ∀ v, v < npages p.sz ∨ UTOP ≤ v → _ := fun v hv => hg.same v (by omega)
      refine ⟨.inl ⟨by omega, rfl, rfl, hg.fresh⟩, own', ?_⟩
      rw [Nat.min_eq_left hmono]
      exact ⟨h.resize hg.mem hg.touches hle (hg.sized h.sized hmono) fun v hv => hsame v (.inr hv),
        hg.touches, h.kept hg.touches hsame⟩
    · refine ⟨.inr (.inl ⟨hpos, rfl⟩), own', ?_⟩
      rw [Nat.min_self]
      refine ⟨h.resize hm' ht hsz ?_ fun v _ => by rw [hview], ht,
        h.kept ht fun v _ => by rw [hview]⟩
      rw [Sized, hview]
      exact h.sized
  · refine wp.bind (uvmdealloc_wp h.mem h.sized hsz) ?_
    rintro x s' (⟨hge, rfl, rfl⟩ | ⟨hlt, rfl, own', hm', ht, hview⟩)
    · -- the sum has wrapped around
      have hbelow : p.sz + n < 0 := by grind [uint64]
      exact ⟨.inr (.inr ⟨hbelow, rfl⟩), own, h, .refl .., .refl ..⟩
    · have hnew : uint64 (p.sz + n) = (p.sz + n).toNat ∧ 0 ≤ p.sz + n := by
        unfold uint64 at hlt ⊢
        norm_num at hsz
        omega
      rw [hnew.1] at hlt ht hview ⊢
      have hmono := npages_mono hsz hlt.le
      have hsame : ∀ v, v < npages (p.sz + n).toNat ∨ UTOP ≤ v →
          view s' p.pagetable v = view s p.pagetable v := fun v hv => by
        rw [hview, dropRun, if_neg (by omega)]
      refine ⟨.inl ⟨hnew.2, rfl, rfl, fun v hlo hhi => ?_⟩, own', ?_⟩
      · dsimp only at hhi
        omega
      rw [Nat.min_eq_right hmono]
      refine ⟨h.resize hm' ht (hlt.le.trans hsz) (fun v hv => ?_) fun v hv => hsame v (.inr hv), ht,
        h.kept ht hsame⟩
      rw [hview, dropRun]
      split
      · constructor
        · exact fun h => absurd rfl h
        · omega
      · rw [h.sized v hv]
        omega
  · obtain rfl : n = 0 := by omega
    refine ⟨.inl ⟨by omega, rfl, by simp, fun v hlo hhi => ?_⟩, own, h, .refl .., .refl ..⟩
    dsimp only at hhi
    omega

end Xv6.Vm
