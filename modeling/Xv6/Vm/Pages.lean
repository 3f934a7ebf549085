import Xv6.Vm.Space

/-!
`mappages` and `uvmunmap` on a page table whose pages have owners.

A page that is mapped below `UTOP` goes from the hands of the caller to the page
number it is mapped at, and a page that is unmapped and freed goes back to the free
list. The two pages at the top of an address space are mapped and unmapped
without a change of owner.
-/

namespace Xv6.Vm

open Function (update update_self update_of_ne)

variable {s s' : Ram} {own own' : ℕ → Owner} {r m v pa perm va t : ℕ} {V W : Set ℕ}
  {E : Panic → Prop}

/-! ### One entry -/

theorem agree_freed (hs : Space s own r) (hpa : own pa ≠ .table r) : Agree s (s.freed pa) r := by
  refine ⟨fun n hn => memset_word_ne ?_⟩
  rintro rfl
  exact hpa ((hs.table_iff n).mpr hn)

section Entry

variable (hm : Mem s own r) (ht : table s r va = some t) (hva : va < MAXVA)

include hm ht hva

theorem Mem.map_user (hpa : own pa = .held) (hv : va / PGSIZE < UTOP)
    (hnone : view s r (va / PGSIZE) = none) (hperm : perm < 2 ^ 10) (hR : perm &&& PTE_R ≠ 0) :
    Mem (s.setPte t (PX 0 va) (PA2PTE pa ||| perm ||| PTE_V))
      (update own pa (.data r (va / PGSIZE))) r := by
  obtain ⟨hh, hr, hs⟩ := hm
  have hne : own pa ≠ .outside := by rw [hpa]; exact Owner.noConfusion
  have hb := binding_entry (hh.lt hne) hperm
  rw [hh.round hne] at hb
  have hflags : (perm ||| PTE_V) &&& PTE_R = perm &&& PTE_R := by grind
  refine ⟨?_, ?_, ?_⟩
  · exact (hh.reown (by rw [hpa]; exact Owner.noConfusion) hne Owner.noConfusion
      Owner.noConfusion).of_eq rfl rfl
  · refine hr.update (by rw [hpa]; exact Owner.noConfusion) fun q hq => ?_
    obtain rfl := Option.some.inj hq
    exact hs.own_root
  · refine hs.setPte ht hva ?_ ?_ ?_ ?_
    · grind
    · grind
    · grind
    · grind [hs.mapped]

theorem Mem.map_top (hpa : pa < 2 ^ 64) (hv : UTOP ≤ va / PGSIZE) (hperm : perm < 2 ^ 10)
    (hR : perm &&& PTE_R ≠ 0) (hU : perm &&& PTE_U = 0) :
    Mem (s.setPte t (PX 0 va) (PA2PTE pa ||| perm ||| PTE_V)) own r := by
  obtain ⟨hh, hr, hs⟩ := hm
  have hb := binding_entry hpa hperm
  refine ⟨hh.of_eq rfl rfl, hr, hs.setPte ht hva (fun _ => .rfl) ?_ (fun _ _ _ => .rfl) ?_⟩
  · grind
  · intro n hn
    have := (hs.mapped n _ hn).1
    omega

theorem Mem.unmap_free (hown : own pa = .data r (va / PGSIZE)) :
    Mem ((s.freed pa).setPte t (PX 0 va) 0) (update own pa .free) r := by
  obtain ⟨hh, hr, hs⟩ := hm
  have hagree : Agree s (s.freed pa) r := agree_freed hs (by rw [hown]; exact Owner.noConfusion)
  have hs' := hs.of_agree hagree (fun _ => .rfl) fun _ _ => .rfl
  refine ⟨?_, ?_, ?_⟩
  · exact (hh.freed (by rw [hown]; exact Owner.noConfusion)
      (by rw [hown]; exact Owner.noConfusion)).of_eq rfl rfl
  · exact hr.update (by rw [hown]; exact Owner.noConfusion) fun q hq => nomatch hq
  · refine hs'.setPte (hagree.table_eq.trans ht) hva ?_ ?_ ?_ ?_
    · grind
    · intro b hx
      cases hx
    · grind
    · intro n hn
      by_cases h : n = pa
      · rw [h, update_self] at hn
        cases hn
      · rw [update_of_ne h] at hn
        -- two pages would be mapped at one page number
        obtain ⟨-, f, hf⟩ := hs.mapped n _ hn
        obtain ⟨-, g, hg⟩ := hs.mapped pa _ hown
        exact absurd (congrArg Prod.fst (Option.some.inj (hf.symm.trans hg))) h

theorem Mem.unmap_top (hv : UTOP ≤ va / PGSIZE) : Mem (s.setPte t (PX 0 va) 0) own r := by
  obtain ⟨hh, hr, hs⟩ := hm
  refine ⟨hh.of_eq rfl rfl, hr, hs.setPte ht hva (fun _ => .rfl) ?_ (fun _ _ _ => .rfl) ?_⟩
  · intro b hx
    cases hx
  · intro n hn
    have := (hs.mapped n _ hn).1
    omega

end Entry

/-! ### `mappages` of one page -/

theorem mappages_page {Q : ℤ → Ram → Prop} (hok : Ok s r) (hva : va % PGSIZE = 0)
    (hlt : va < MAXVA) (hnone : view s r (va / PGSIZE) = none)
    (hfail : ∀ s₁, Walked s s₁ r (path va 2) va none → Q (-1) s₁)
    (hstore : ∀ s₁ t, Walked s s₁ r (path va 2) va (some (t, PX 0 va)) →
      Q 0 (s₁.setPte t (PX 0 va) (PA2PTE pa ||| perm ||| PTE_V))) :
    wp E (mappages r va PGSIZE pa perm) Q s := by
  have hlast : (va + PGSIZE - PGSIZE) % 2 ^ 64 = va := by grind
  rw [mappages, if_neg (by omega), if_neg (by decide), if_neg (by decide), hlast,
    show PGSIZE / PGSIZE = 1 from rfl, mappagesLoop]
  apply wp.bind ((walk_alloc hok hlt).mono_stop fun _ h => h.elim)
  intro e s₁ hw
  cases e with
  | none => exact hfail s₁ hw
  | some e =>
    obtain ⟨t, i⟩ := e
    obtain ⟨ht, rfl⟩ := hw.found t i rfl
    rw [wp_bind, wp_get]
    have hv : ¬s₁.word t (PX 0 va) &&& PTE_V ≠ 0 := by
      intro hv
      rw [← hw.view_eq, view_div hlt, table, ht, Option.bind_some, binding, if_pos hv] at hnone
      cases hnone
    rw [if_neg hv]
    rw [if_pos rfl]
    exact hstore s₁ t hw

theorem view_map (hm : Mem s own r) (ht : table s r va = some t) (hva : va < MAXVA)
    (hpa : pa < 2 ^ 64) (hperm : perm < 2 ^ 10) :
    view (s.setPte t (PX 0 va) (PA2PTE pa ||| perm ||| PTE_V)) r =
      update (view s r) (va / PGSIZE) (some (PGROUNDDOWN pa, perm ||| PTE_V)) := by
  rw [view_setPte hm.space.tree ht hva, binding_entry hpa hperm]

theorem mappages_user (hm : Mem s own r) (hpa : own pa = .held) (hva : va % PGSIZE = 0)
    (hv : va / PGSIZE < UTOP) (hnone : view s r (va / PGSIZE) = none) (hperm : perm < 2 ^ 10)
    (hR : perm &&& PTE_R ≠ 0) :
    wp E (mappages r va PGSIZE pa perm) (fun x s' => ∃ own', Touches r V s s' own own' ∧
      s'.freelist <:+ s.freelist ∧ (x = -1 ∧ Mem s' own' r ∧ view s' r = view s r ∨
        x = 0 ∧ Mem s' (update own' pa (.data r (va / PGSIZE))) r ∧
          view s' r =
            update (view s r) (va / PGSIZE) (some (pa, perm ||| PTE_V)))) s := by
  have hlt : va < MAXVA := by
    norm_num at hv ⊢
    omega
  have hne : own pa ≠ .outside := by rw [hpa]; exact Owner.noConfusion
  have hheld : ¬Owner.Within r V .held := id
  refine mappages_page (hm.space.ok hm.heap) hva hlt hnone ?_ ?_
  · intro s₁ hw
    obtain ⟨own₁, hm₁, htouch, hview⟩ := hw.grafted.mem (V := V) hm
    exact ⟨own₁, htouch, hw.grafted.freelist_suffix, .inl ⟨rfl, hm₁, hview⟩⟩
  · intro s₁ t hw
    obtain ⟨own₁, hm₁, htouch, hview⟩ := hw.grafted.mem (V := V) hm
    have ht := (hw.found t _ rfl).1
    have hpa₁ : own₁ pa = .held := (htouch.pages.owner_iff hheld).mpr hpa
    refine ⟨own₁, htouch.trans (touches_setPte hm₁.space ht), hw.grafted.freelist_suffix,
      .inr ⟨rfl, ?_, ?_⟩⟩
    · exact hm₁.map_user ht hlt hpa₁ hv (by rw [hview, hnone]) hperm hR
    · rw [view_map hm₁ ht hlt (hm.heap.lt hne) hperm, hview, hm.heap.round hne]

theorem mappages_top (hm : Mem s own r) (hpa : pa < 2 ^ 64) (hround : PGROUNDDOWN pa = pa)
    (hva : va % PGSIZE = 0) (hlt : va < MAXVA) (hv : UTOP ≤ va / PGSIZE)
    (hnone : view s r (va / PGSIZE) = none) (hperm : perm < 2 ^ 10) (hR : perm &&& PTE_R ≠ 0)
    (hU : perm &&& PTE_U = 0) :
    wp E (mappages r va PGSIZE pa perm) (fun x s' => ∃ own', Touches r V s s' own own' ∧
      Mem s' own' r ∧ (x = -1 ∧ view s' r = view s r ∨
        x = 0 ∧ view s' r =
          update (view s r) (va / PGSIZE) (some (pa, perm ||| PTE_V)))) s := by
  refine mappages_page (hm.space.ok hm.heap) hva hlt hnone ?_ ?_
  · intro s₁ hw
    obtain ⟨own₁, hm₁, htouch, hview⟩ := hw.grafted.mem (V := V) hm
    exact ⟨own₁, htouch, hm₁, .inl ⟨rfl, hview⟩⟩
  · intro s₁ t hw
    obtain ⟨own₁, hm₁, htouch, hview⟩ := hw.grafted.mem (V := V) hm
    have ht := (hw.found t _ rfl).1
    refine ⟨own₁, htouch.trans (touches_setPte hm₁.space ht), ?_, .inr ⟨rfl, ?_⟩⟩
    · exact hm₁.map_top ht hlt hpa hv hperm hR hU
    · rw [view_map hm₁ ht hlt hpa hperm, hview, hround]

theorem view_entry (hva : va < MAXVA) (hb : view s r (va / PGSIZE) = some (pa, perm)) :
    ∃ t, table s r va = some t ∧ s.word t (PX 0 va) &&& PTE_V ≠ 0 ∧
      PTE2PA (s.word t (PX 0 va)) = pa ∧ PTE_FLAGS (s.word t (PX 0 va)) = perm := by
  rw [view_div hva] at hb
  obtain ⟨t, ht, hx⟩ := Option.bind_eq_some_iff.mp hb
  have hvalid : s.word t (PX 0 va) &&& PTE_V ≠ 0 := by grind [binding]
  rw [binding, if_pos hvalid] at hx
  obtain ⟨hpa, hperm⟩ := Prod.mk.inj (Option.some.inj hx)
  exact ⟨t, ht, hvalid, hpa, hperm⟩

/-! ### `uvmunmap` -/

theorem uvmunmapLoop_page {stop n : ℕ} {doFree : Bool} {Q : Unit → Ram → Prop} (hm : Mem s own r)
    (hlt : va < stop) (hstop : stop ≤ MAXVA) (hb : view s r (va / PGSIZE) = some (pa, perm))
    (hfree : doFree = true → Managed s pa)
    (hnext : ∀ t, table s r va = some t →
      wp E (uvmunmapLoop r stop doFree n (va + PGSIZE)) Q
        ((if doFree then s.freed pa else s).setPte t (PX 0 va) 0)) :
    wp E (uvmunmapLoop r stop doFree (n + 1) va) Q s := by
  have hva : va < MAXVA := by omega
  rw [uvmunmapLoop, if_pos hlt, wp_bind]
  apply wp_of_ok (walk_find hva)
  obtain ⟨t, ht, hvalid, rfl, rfl⟩ := view_entry hva hb
  rw [ht]
  dsimp only [Option.map_some]
  rw [wp_bind, wp_get]
  have hleaf : PTE_FLAGS (s.word t (PX 0 va)) ≠ PTE_V := by
    intro h
    refine hm.space.leaf _ _ hb ?_
    show PTE_FLAGS (s.word t (PX 0 va)) &&& PTE_R = 0
    rw [h]
    decide
  rw [if_neg hvalid, if_neg hleaf]
  have := hnext t ht
  cases doFree with
  | true =>
    rw [if_pos rfl, wp_bind]
    exact wp_of_ok (kfree_run (hfree rfl)) this
  | false => exact this

theorem touches_freed (hm : Mem s own r) (ht : table s r va = some t) (hown : own pa = .data r v)
    (hv : v ∈ V) : Touches r V s ((s.freed pa).setPte t (PX 0 va) 0) own (update own pa .free) := by
  have hpa : Owner.Within r V (own pa) := by rw [hown]; exact ⟨rfl, hv⟩
  have hne : ∀ n, ¬Owner.Within r V (own n) → n ≠ pa := fun n hn h => hn (h ▸ hpa)
  refine ⟨⟨fun n hn => ?_, fun n hn => ?_, fun n hn => ?_⟩, rfl⟩
  · exact update_of_ne (hne n hn) ..
  · ext1 j
    rw [setPte_word, if_neg]
    · exact congrFun (memset_word_ne (hne n hn)) j
    · rintro ⟨rfl, -⟩
      rw [(hm.space.table_iff n).mpr (.of_table ht)] at hn
      exact hn rfl
  · grind [Owner.Within]

theorem uvmunmapLoop_user {stop n : ℕ} (hm : Mem s own r) (hstop : stop = va + n * PGSIZE)
    (hmax : stop ≤ UTOP * PGSIZE)
    (hb : ∀ w, va / PGSIZE ≤ w → w < va / PGSIZE + n → view s r w ≠ none) :
    wp E (uvmunmapLoop r stop true n va) (fun _ s' => ∃ own', Mem s' own' r ∧
      Touches r {w | va / PGSIZE ≤ w ∧ w < va / PGSIZE + n} s s' own own' ∧
        view s' r = dropRun (view s r) (va / PGSIZE) n) s := by
  induction n generalizing s own va with
  | zero => exact ⟨own, hm, .refl .., (dropRun_zero ..).symm⟩
  | succ n ih =>
    have hlt : va < stop := by
      norm_num at hstop ⊢
      omega
    have hUTOP : UTOP * PGSIZE ≤ MAXVA := by decide
    have hv : va / PGSIZE < UTOP := (Nat.div_lt_iff_lt_mul (by decide)).mpr (by omega)
    have hdiv : (va + PGSIZE) / PGSIZE = va / PGSIZE + 1 := Nat.add_div_right va (by decide)
    obtain ⟨⟨pa, flags⟩, hpa⟩ := Option.ne_none_iff_exists'.mp (hb _ le_rfl (by omega))
    have hown := hm.space.user _ _ hpa hv
    have hman : Managed s pa := hm.heap.managed (by rw [hown]; exact Owner.noConfusion)
    refine uvmunmapLoop_page hm hlt (by omega) hpa (fun _ => hman) fun t ht => ?_
    have hva : va < MAXVA := by omega
    have hm₁ := hm.unmap_free ht hva hown
    rw [if_pos rfl]
    have hview : view ((s.freed pa).setPte t (PX 0 va) 0) r =
        update (view s r) (va / PGSIZE) none := by
      have hagree : Agree s (s.freed pa) r :=
        agree_freed hm.space (by rw [hown]; exact Owner.noConfusion)
      rw [view_setPte (hagree.tree hm.space.tree) (hagree.table_eq.trans ht) hva,
        hagree.view_eq, binding_zero]
    have htouch := touches_freed (V := {w | va / PGSIZE ≤ w ∧ w < va / PGSIZE + (n + 1)}) hm ht
      hown ⟨le_rfl, by omega⟩
    have hstop' : stop = va + PGSIZE + n * PGSIZE := by
      rw [hstop, Nat.succ_mul]
      omega
    have hrest := @ih _ _ (va + PGSIZE) hm₁ hstop' fun w hlo hhi => by
      rw [hview, update_of_ne (by omega)]
      exact hb w (by omega) (by omega)
    rw [hdiv] at hrest
    refine hrest.mono ?_
    rintro - s' ⟨own', hm', htouch', hview'⟩
    refine ⟨own', hm', htouch.trans (htouch'.mono ?_), ?_⟩
    · rintro w ⟨hlo, hhi⟩
      exact ⟨by omega, by omega⟩
    · rw [hview', hview, dropRun_succ]

theorem uvmunmap_stop {n : ℕ} (h : va + n * PGSIZE ≤ MAXVA) :
    (va + n * PGSIZE) % 2 ^ 64 = va + n * PGSIZE := by
  apply Nat.mod_eq_of_lt
  norm_num at h ⊢
  omega

theorem uvmunmap_user {n : ℕ} (hm : Mem s own r) (hva : va % PGSIZE = 0)
    (hmax : va + n * PGSIZE ≤ UTOP * PGSIZE)
    (hb : ∀ w, va / PGSIZE ≤ w → w < va / PGSIZE + n → view s r w ≠ none) :
    wp E (uvmunmap r va n true) (fun _ s' => ∃ own', Mem s' own' r ∧
      Touches r {w | va / PGSIZE ≤ w ∧ w < va / PGSIZE + n} s s' own own' ∧
        view s' r = dropRun (view s r) (va / PGSIZE) n) s := by
  have hUTOP : UTOP * PGSIZE ≤ MAXVA := by decide
  rw [uvmunmap, if_neg (by omega), uvmunmap_stop (by omega)]
  exact uvmunmapLoop_user hm rfl hmax hb

theorem uvmunmap_top (hm : Mem s own r) (hva : va % PGSIZE = 0) (hmax : va + PGSIZE ≤ MAXVA)
    (hv : UTOP ≤ va / PGSIZE) (hb : view s r (va / PGSIZE) ≠ none) :
    wp E (uvmunmap r va 1 false) (fun _ s' => Mem s' own r ∧ Touches r V s s' own own ∧
      view s' r = update (view s r) (va / PGSIZE) none) s := by
  obtain ⟨⟨pa, flags⟩, hpa⟩ := Option.ne_none_iff_exists'.mp hb
  have hlt : va < MAXVA := by
    norm_num at hmax ⊢
    omega
  rw [uvmunmap, if_neg (by omega), uvmunmap_stop (by omega)]
  refine uvmunmapLoop_page hm (by norm_num) (by omega) hpa (by rintro ⟨⟩) fun t ht => ?_
  refine ⟨hm.unmap_top ht hlt hv, touches_setPte hm.space ht, ?_⟩
  rw [if_neg (by decide), view_setPte hm.space.tree ht hlt, binding_zero]

/-! ### A new page -/

theorem Mem.free_held (hm : Mem s own r) (hown : own m = .held) :
    Mem (s.freed m) (update own m .free) r ∧ view (s.freed m) r = view s r := by
  obtain ⟨hh, hr, hs⟩ := hm
  have hagree : Agree s (s.freed m) r := agree_freed hs (by rw [hown]; exact Owner.noConfusion)
  refine ⟨⟨?_, ?_, ?_⟩, hagree.view_eq⟩
  · grind [hh.freed]
  · exact hr.update (by rw [hown]; exact Owner.noConfusion) fun q hq => nomatch hq
  · exact hs.of_agree_update hagree (by rw [hown]; nofun) nofun

section Place

variable {s₁ : Ram} {rest : List ℕ} (hm : Mem s own r) (hfree : s.freelist = m :: rest)
  (hrest : s₁.freelist = rest) (hkend : s₁.kend = s.kend)
  (hword : ∀ n, n ≠ m → s₁.word n = s.word n)

include hm hfree hrest hkend hword

theorem Mem.take : Mem s₁ (update own m .held) r ∧ view s₁ r = view s r := by
  obtain ⟨hh, hr, hs⟩ := hm
  have hown := hh.own_free hfree
  have hagree : Agree s s₁ r := by grind [Agree, hs.table_iff]
  refine ⟨⟨?_, ?_, ?_⟩, hagree.view_eq⟩
  · exact (hh.taken hfree Owner.noConfusion Owner.noConfusion).of_eq hrest hkend
  · exact hr.update (by rw [hown]; exact Owner.noConfusion) fun q hq => nomatch hq
  · exact hs.of_agree_update hagree (by rw [hown]; nofun) nofun

theorem place_page (hva : va % PGSIZE = 0) (hv : va / PGSIZE < UTOP)
    (hnone : view s r (va / PGSIZE) = none) (hperm : perm < 2 ^ 10) (hR : perm &&& PTE_R ≠ 0) :
    wp E (mappages r va PGSIZE m perm) (fun x s' =>
      x = -1 ∧ Managed s' m ∧ (∃ own', Mem (s'.freed m) own' r ∧
        Touches r ∅ s (s'.freed m) own own' ∧ view (s'.freed m) r = view s r ∧
        ∀ n, own' n = .free → own n = .free) ∨
      x = 0 ∧ ∃ own', Mem s' own' r ∧ Touches r {va / PGSIZE} s s' own own' ∧
        view s' r = update (view s r) (va / PGSIZE) (some (m, perm ||| PTE_V)) ∧
        s'.word m = s₁.word m ∧ ∀ n, own' n = .free → own n = .free) s₁ := by
  obtain ⟨hm₁, hview₁⟩ := hm.take hfree hrest hkend hword
  have hown := hm.heap.own_free hfree
  have hheld : ∀ V, ¬Owner.Within r V .held := fun _ => id
  refine (mappages_user (V := ∅) hm₁ (update_self ..) hva hv (by rw [hview₁, hnone]) hperm
    hR).mono ?_
  rintro x s' ⟨own₁, htouch, hsuffix, ⟨rfl, hm', hview'⟩ | ⟨rfl, hm', hview'⟩⟩
  · have hown₁ : own₁ m = .held := (htouch.pages.owner_iff (hheld _)).mpr (update_self ..)
    obtain ⟨hmem, hview⟩ := hm'.free_held hown₁
    refine .inl ⟨rfl, hm'.heap.managed (by rw [hown₁]; nofun), _, hmem, ?_,
      by rw [hview, hview', hview₁], fun n hn => ?_⟩
    · exact ⟨.borrow (by rw [hown]; trivial) hword htouch.pages (fun n hn => memset_word_ne hn)
        trivial, htouch.kend_eq.trans hkend⟩
    · rw [hmem.heap.free_iff] at hn
      rw [hm.heap.free_iff, hfree]
      obtain rfl | hn := List.mem_cons.mp hn
      · exact List.mem_cons_self
      · exact List.mem_cons_of_mem _ (hrest ▸ hsuffix.subset hn)
  · refine .inr ⟨rfl, _, hm', ?_, ?_, ?_, ?_⟩
    · refine ⟨.borrow (by rw [hown]; trivial) hword (htouch.mono (Set.empty_subset _)).pages
        (fun n _ => rfl) ⟨rfl, rfl⟩, htouch.kend_eq.trans hkend⟩
    · rw [hview', hview₁]
    · exact htouch.pages.cell_of_owner (hheld _) (update_self ..)
    · grind [hm'.heap.free_iff, hm.heap.free_iff]

end Place

end Xv6.Vm
