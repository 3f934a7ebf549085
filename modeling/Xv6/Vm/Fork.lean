import Xv6.Vm.Grow

/-!
`uvmcopy`: the child of a `fork` has a copy of the memory of its parent, or none.

The parent is not touched, since all that happens is on pages that were free and on the
table of the child. After `k` turns the first `k` pages of the child are copies, each
on a page of its own (`Cloned`). When memory runs out these are unmapped again; the pages
that the table of the child took in the meantime stay with it.
-/

namespace Xv6.Vm

open Function (update update_self update_of_ne)

variable {s s' s₁ : Ram} {own own' own₁ : ℕ → Owner} {r c m k sz tramp : ℕ} {E : Panic → Prop}

/-- The first `k` pages of the table at `r` in `s` have copies in the table at `c`. -/
structure Cloned (s s' : Ram) (own own' : ℕ → Owner) (r c k : ℕ) : Prop where
  mem : Mem s' own' c
  touches : Touches c Set.univ s s' own own'
  free_sub : ∀ m, own' m = .free → own m = .free
  above : ∀ v, k ≤ v → view s' c v = view s c v
  copies : ∀ v < k, ∀ pa flags, view s r v = some (pa, flags) → ∃ m, own m = .free ∧
    view s' c v = some (m, flags) ∧ s'.word m = s.word pa

theorem Cloned.zero (hm : Mem s own c) : Cloned s s own own r c 0 :=
  ⟨hm, .refl .., fun _ h => h, fun _ _ => rfl, fun v hv => absurd hv (Nat.not_lt_zero v)⟩

theorem or_PTE_V {x : ℕ} (h : x &&& PTE_V ≠ 0) : x ||| PTE_V = x := by
  have hodd : x % 2 = 1 := by
    rw [Nat.and_one_is_mod] at h
    omega
  apply Nat.eq_of_testBit_eq
  intro i
  cases i with
  | zero => simp [hodd]
  | succ i => grind

theorem PTE_FLAGS_lt (x : ℕ) : PTE_FLAGS x < 2 ^ 10 := Nat.and_lt_two_pow x (by decide)

theorem Space.seen (hs : Space s own r) (hrc : r ≠ c) (ht : Touches c Set.univ s s₁ own own₁)
    {v pa flags : ℕ} (hb : view s r v = some (pa, flags)) (hv : v < UTOP) :
    view s₁ r v = some (pa, flags) ∧ own₁ pa = .data r v ∧ s₁.word pa = s.word pa := by
  obtain ⟨-, hview⟩ := hs.frame ht hrc
  obtain ⟨hown, hword⟩ := ht.data (hs.user v _ hb hv) fun h => absurd h hrc
  exact ⟨by rw [hview, hb], hown, hword⟩

theorem Cloned.succ {pa flags : ℕ} (h : Cloned s s₁ own own₁ r c k) (hk : k < UTOP)
    (hb : view s r k = some (pa, flags)) (hm : own₁ m = .free) (hm' : Mem s' own' c)
    (ht : Touches c {k} s₁ s' own₁ own')
    (hview : view s' c = update (view s₁ c) k (some (m, flags))) (hword : s'.word m = s.word pa)
    (hfree : ∀ n, own' n = .free → own₁ n = .free) : Cloned s s' own own' r c (k + 1) := by
  refine ⟨hm', h.touches.trans (ht.mono (Set.subset_univ _)), fun n hn => h.free_sub n (hfree n hn),
    fun v hv => ?_, fun v hv pa' flags' hb' => ?_⟩
  · rw [hview, update_of_ne (by omega)]
    exact h.above v (by omega)
  · by_cases hvk : v = k
    · grind [congrFun hview, h.free_sub]
    · obtain ⟨n, hfree', hview', hword'⟩ := h.copies v (by omega) pa' flags' hb'
      have hown := h.mem.space.user v _ hview' (by omega)
      refine ⟨n, hfree', by rw [hview, update_of_ne hvk, hview'], ?_⟩
      rw [(ht.data hown fun _ => hvk).2, hword']

theorem Cloned.stay (h : Cloned s s₁ own own₁ r c k) (hk : k ≤ UTOP) (hm' : Mem s' own' c)
    (ht : Touches c ∅ s₁ s' own₁ own') (hview : view s' c = view s₁ c)
    (hfree : ∀ n, own' n = .free → own₁ n = .free) : Cloned s s' own own' r c k := by
  refine ⟨hm', h.touches.trans (ht.mono (Set.subset_univ _)), fun n hn => h.free_sub n (hfree n hn),
    fun v hv => by rw [hview, h.above v hv], fun v hv pa flags hb => ?_⟩
  obtain ⟨n, hfree', hview', hword'⟩ := h.copies v hv pa flags hb
  have hown := h.mem.space.user v _ hview' (by omega)
  exact ⟨n, hfree', by rw [hview, hview'], by rw [(ht.data hown fun _ => id).2, hword']⟩

structure Unclone (s s' : Ram) (own own' : ℕ → Owner) (c : ℕ) : Prop where
  mem : Mem s' own' c
  touches : Touches c Set.univ s s' own own'
  view_eq : view s' c = view s c

theorem Cloned.undo (h : Cloned s s₁ own own₁ r c k) (hk : k ≤ UTOP)
    (hparent : ∀ v < k, view s r v ≠ none) (hchild : ∀ v < UTOP, view s c v = none) :
    wp E (uvmunmap c 0 k true) (fun _ s' => ∃ own', Unclone s s' own own' c) s₁ := by
  refine (uvmunmap_user h.mem (Nat.zero_mod _) ?_ ?_).mono ?_
  · rw [Nat.zero_add]
    exact Nat.mul_le_mul_right _ hk
  · intro w _ hw
    rw [Nat.zero_div, Nat.zero_add] at hw
    obtain ⟨⟨pa, flags⟩, hb⟩ := Option.ne_none_iff_exists'.mp (hparent w hw)
    obtain ⟨m, -, hview, -⟩ := h.copies w hw pa flags hb
    rw [hview]
    nofun
  · rintro - s' ⟨own', hm', ht, hview⟩
    refine ⟨own', hm', h.touches.trans (ht.mono (Set.subset_univ _)), funext fun v => ?_⟩
    rw [hview, Nat.zero_div, dropRun]
    split
    · rw [hchild v (by omega)]
    · exact h.above v (by omega)

theorem uvmcopyLoop_wp {turns : ℕ} (hs : Space s own r) (hrc : r ≠ c) (hsz : sz ≤ UTOP * PGSIZE)
    (hsized : Sized s r (npages sz)) (hchild : ∀ v < UTOP, view s c v = none)
    (h : Cloned s s₁ own own₁ r c k) (hk : k ≤ npages sz) (hturns : npages sz ≤ k + turns) :
    wp E (uvmcopyLoop r c sz turns (k * PGSIZE)) (fun x s' =>
      (x = 0 ∧ ∃ own', Cloned s s' own own' r c (npages sz)) ∨
      x = -1 ∧ ∃ own', Unclone s s' own own' c) s₁ := by
  have hpages := npages_eq hsz
  have hUTOP := npages_le hsz
  induction turns generalizing s₁ own₁ k with
  | zero => grind [uvmcopyLoop, wp_pure]
  | succ turns ih =>
    rw [uvmcopyLoop]
    refine wp.ite (fun hlt => ?_) fun hge => ?_
    swap
    · obtain rfl : k = npages sz := by
        rw [hpages] at hk ⊢
        simp only [PGSIZE] at *
        omega
      exact .inl ⟨rfl, own₁, h⟩
    have hk' : k < npages sz := by grind
    have hdiv : k * PGSIZE / PGSIZE = k := Nat.mul_div_cancel _ (by decide)
    have hva : k * PGSIZE < MAXVA := by
      norm_num at hUTOP ⊢
      omega
    have hmapped : ∀ v < k, view s r v ≠ none := fun v hv => (hsized v (by omega)).mpr (by omega)
    obtain ⟨⟨pa, flags⟩, hb⟩ :=
      Option.ne_none_iff_exists'.mp ((hsized k (by omega)).mpr hk')
    obtain ⟨hb₁, hown₁, hword₁⟩ := hs.seen hrc h.touches hb (by omega)
    obtain ⟨t, ht, hvalid, hpa, hflags⟩ := view_entry hva (by rw [hdiv]; exact hb₁)
    rw [wp_bind]
    refine wp_of_ok (walk_find hva) ?_
    rw [ht]
    dsimp only [Option.map_some]
    rw [wp_bind, wp_get, if_neg hvalid, wp_bind]
    refine kalloc_wp (fun _ => ?_) fun m rest hfree => ?_
    · dsimp only
      rw [hdiv]
      refine wp.bind (h.undo (by omega) hmapped hchild) ?_
      rintro - s' hs'
      exact .inr ⟨rfl, hs'⟩
    dsimp only
    rw [wp_bind, wp_modify, hpa, hflags]
    have hm := h.mem.heap.own_free hfree
    have hne : pa ≠ m := by grind
    have hcopy : ∀ j, j ≠ m → ((s₁.taken m rest).copyPage m pa).word j = s₁.word j := by
      intro j hj
      rw [copyPage_word_ne hj]
      exact memset_word_ne hj
    have hself : ((s₁.taken m rest).copyPage m pa).word m = s.word pa := by
      rw [copyPage_word_self, ← hword₁]
      exact memset_word_ne hne
    have hnone : view s₁ c k = none := by grind [h.above]
    have hlt10 : flags < 2 ^ 10 := hflags ▸ PTE_FLAGS_lt _
    have hV : flags ||| PTE_V = flags := or_PTE_V (by rw [← hflags, flags_and rfl]; exact hvalid)
    refine wp.bind (place_page h.mem hfree rfl rfl hcopy (Nat.mul_mod_left ..)
      (by rw [hdiv]; omega) (by rw [hdiv]; exact hnone) hlt10 (hs.leaf k _ hb)) ?_
    rw [hdiv, hV]
    rintro x s₂ (⟨rfl, hman, own₂, hm₂, ht₂, hview₂, hsub⟩ |
      ⟨rfl, own₂, hm₂, ht₂, hview₂, hword₂, hsub⟩)
    · rw [if_pos (by decide), wp_bind]
      refine wp_of_ok (kfree_run hman) ?_
      refine wp.bind ((h.stay (by omega) hm₂ ht₂ hview₂ hsub).undo (by omega) hmapped hchild) ?_
      rintro - s' hs'
      exact .inr ⟨rfl, hs'⟩
    · have hadd := Nat.add_one_mul k PGSIZE
      rw [if_neg (by decide), ← hadd]
      exact ih (h.succ (by omega) hb hm hm₂ ht₂ hview₂ (hword₂.trans hself) hsub) (by omega)
        (by omega)

theorem uvmcopy_wp (hs : Space s own r) (hm : Mem s own c) (hrc : r ≠ c) (hsz : sz ≤ UTOP * PGSIZE)
    (hsized : Sized s r (npages sz)) (hchild : ∀ v < UTOP, view s c v = none) :
    wp E (uvmcopy r c sz) (fun x s' => (x = 0 ∧ ∃ own', Cloned s s' own own' r c (npages sz)) ∨
      x = -1 ∧ ∃ own', Unclone s s' own own' c) s := by
  have hturns : npages sz ≤ 0 + (sz / PGSIZE + 1) := by grind [npages_eq]
  have h := uvmcopyLoop_wp (E := E) (k := 0) hs hrc hsz hsized hchild (.zero hm) (Nat.zero_le _)
    hturns
  rwa [Nat.zero_mul] at h

theorem Space.unique {q v w m f : ℕ} (hown : own m = .data c v) (hq : Space s own q)
    (hb : view s q w = some (m, f)) (hw : w < UTOP) : q = c ∧ w = v := by
  have := hq.user w _ hb hw
  rw [hown] at this
  cases this
  exact ⟨rfl, rfl⟩

/-- `uvmcopy` copies all memory of the parent `p` to the child `q`, which has none
before, each page to one that was free; or it leaves the child without memory, and
what it took is free again but for pages of the table of the child. The parent is the
same in either case. -/
theorem uvmcopy_all_or_nothing {p q : Proc} (hp : AddressSpace s own tramp p)
    (hq : AddressSpace s own tramp q) (hsz : q.sz = 0) (hne : p.pagetable ≠ q.pagetable) :
    ∃ x s' own', (uvmcopy p.pagetable q.pagetable p.sz).run s = .ok (x, s') ∧
      AddressSpace s' own' tramp p ∧ view s' p.pagetable = view s p.pagetable ∧
      (∀ m, (own m).root = some p.pagetable → own' m = own m ∧ s'.word m = s.word m) ∧
      (x = 0 ∧ AddressSpace s' own' tramp { q with sz := p.sz } ∧
        (∀ v < npages p.sz, ∃ pa flags m, view s p.pagetable v = some (pa, flags) ∧
          view s' q.pagetable v = some (m, flags) ∧ s'.word m = s.word pa ∧ own m = .free ∧
          ∀ r w f, Space s' own' r → view s' r w = some (m, f) → w < UTOP →
            r = q.pagetable ∧ w = v) ∨
      x = -1 ∧ AddressSpace s' own' tramp q ∧ (∀ v < UTOP, view s' q.pagetable v = none) ∧
        ∀ m, own m = .free → own' m = .free ∨ own' m = .table q.pagetable) := by
  have hchild : ∀ v < UTOP, view s q.pagetable v = none := by
    intro v hv
    by_contra h
    have := (hq.sized v hv).mp h
    rw [hsz, npages_zero] at this
    omega
  have hUTOP := npages_le hp.sz_le
  have hmapped : ∀ v < npages p.sz, view s p.pagetable v ≠ none := fun v hv =>
    (hp.sized v (by omega)).mpr hv
  have hroot : ∀ {s' own'}, Touches q.pagetable Set.univ s s' own own' → ∀ m,
      (own m).root = some p.pagetable → own' m = own m ∧ s'.word m = s.word m := by
    intro s' own' ht m hm
    have hnot : ¬Owner.Within q.pagetable Set.univ (own m) := by
      intro hw
      obtain hfree | hroot := hw.root
      · rw [hfree] at hm
        cases hm
      · exact hne (Option.some.inj (hm.symm.trans hroot))
    exact ⟨ht.pages.owner m hnot, ht.pages.cell m hnot⟩
  obtain ⟨x, s', hrun, ⟨rfl, own', hc⟩ | ⟨rfl, own', hu⟩⟩ :=
    (uvmcopy_wp (E := fun _ => False) hp.mem.space hq.mem hne hp.sz_le hp.sized hchild).returned
      fun _ => id
  · refine ⟨0, s', own', hrun, hp.frame hc.touches hne hc.mem.heap hc.mem.rooted,
      (hp.mem.space.frame hc.touches hne).2, hroot hc.touches, .inl ⟨rfl, ?_, ?_⟩⟩
    · refine hq.resize hc.mem hc.touches hp.sz_le (fun v hv => ?_) fun v hv => hc.above v (by omega)
      by_cases hlt : v < npages p.sz
      · obtain ⟨⟨pa, flags⟩, hb⟩ := Option.ne_none_iff_exists'.mp (hmapped v hlt)
        obtain ⟨m, -, hview, -⟩ := hc.copies v hlt pa flags hb
        rw [hview]
        exact ⟨fun _ => hlt, fun _ => nofun⟩
      · grind [hc.above]
    · intro v hv
      obtain ⟨⟨pa, flags⟩, hb⟩ := Option.ne_none_iff_exists'.mp (hmapped v hv)
      obtain ⟨m, hfree, hview, hword⟩ := hc.copies v hv pa flags hb
      have hown := hc.mem.space.user v _ hview (by omega)
      exact ⟨pa, flags, m, hb, hview, hword, hfree, fun r w f hr hb' hw => hr.unique hown hb' hw⟩
  · refine ⟨-1, s', own', hrun, hp.frame hu.touches hne hu.mem.heap hu.mem.rooted,
      (hp.mem.space.frame hu.touches hne).2, hroot hu.touches, .inr ⟨rfl, ?_, ?_, ?_⟩⟩
    · refine hq.resize hu.mem hu.touches hq.sz_le ?_ fun v _ => by rw [hu.view_eq]
      rw [Sized, hu.view_eq]
      exact hq.sized
    · rw [hu.view_eq]
      exact hchild
    · intro m hm
      have hw := hu.touches.pages.within m (by rw [hm]; trivial)
      obtain hfree | htable | ⟨v, -, hdata⟩ := hw.cases
      · exact .inl hfree
      · exact .inr htable
      · -- a page behind a page number would still be mapped
        obtain ⟨hv, f, hb⟩ := hu.mem.space.mapped m v hdata
        rw [hu.view_eq, hchild v hv] at hb
        cases hb

def forkNew : M ℤ := do
  match ← procPagetable 0x80000000 0x80001000 with
  | none => pure (-1)
  | some c => do
      let r ← growproc ⟨c, 0, 0x80001000, []⟩ 4096
      match ← procPagetable 0x80000000 r.2.trapframe with
      | none => pure (-1)
      | some d => uvmcopy r.2.pagetable d r.2.sz

theorem uvmcopy_all_or_nothing_page : ∃ s own p q, AddressSpace s own 0x80000000 p ∧
    AddressSpace s own 0x80000000 q ∧ q.sz = 0 ∧ p.pagetable ≠ q.pagetable ∧
    ∃ s' own', (uvmcopy p.pagetable q.pagetable p.sz).run s = .ok (0, s') ∧
      AddressSpace s' own' 0x80000000 { q with sz := p.sz } := by
  obtain ⟨x, t, hrun, hx⟩ := exists_of_returns (f := forkNew) (p := fun x _ => decide (x = 0))
    (s := bootRam) (by decide +kernel)
  obtain ⟨c, s₁, hc, hrun⟩ := exists_of_run_bind hrun
  cases c with
  | none =>
    cases hrun
    cases of_decide_eq_true hx
  | some c =>
    obtain ⟨own₁, hp⟩ := bootRam_space hc
    obtain ⟨r, s₂, hr, hrun⟩ := exists_of_run_bind hrun
    obtain ⟨-, own₂, hp₂, -⟩ := (growproc_wp (E := fun _ => True) hp (by decide) (by decide)).ok hr
    obtain ⟨d, s₃, hd, hrun⟩ := exists_of_run_bind hrun
    obtain ⟨k, hk⟩ := hp₂.own_trapframe
    have htr : Trampoline own₂ 0x80000000 := ⟨hp₂.own_trampoline, by decide, by decide⟩
    obtain ⟨rfl, -⟩ | ⟨d, own₃, rfl, hfresh, hq⟩ := (procPagetable_wp (E := fun _ => True)
      hp₂.mem.heap hp₂.mem.rooted htr hk).ok hd
    · cases hrun
      cases of_decide_eq_true hx
    · obtain ⟨hp₃, hne⟩ := hfresh.frame hp₂
      obtain ⟨y, s', own', hy, -, -, -, ⟨rfl, hspace, -⟩ | ⟨rfl, -⟩⟩ :=
        uvmcopy_all_or_nothing hp₃ (hq []) rfl hne
      · exact ⟨s₃, own₃, _, _, hp₃, hq [], rfl, hne, s', own', hy, hspace⟩
      · cases hy.symm.trans hrun
        cases of_decide_eq_true hx

end Xv6.Vm
