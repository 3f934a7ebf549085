import Xv6.Vm.Freewalk

/-!
`uvmcreate` and `proc_pagetable`: a new page table.

A table is made of free pages only. When `proc_pagetable` gives up, the pages it
took are free again and every other page is as before (`Restored`).
-/

namespace Xv6.Vm

open Function (update update_self update_of_ne update_idem)

variable {s s' s₁ : Ram} {own own' own₁ : ℕ → Owner} {r c m v tramp trapframe : ℕ} {V : Set ℕ}
  {E : Panic → Prop}

/-- The pages that were not free are as before, and the same pages are free. -/
structure Restored (s s' : Ram) (own : ℕ → Owner) : Prop where
  heap : Heap s' own
  kend_eq : s'.kend = s.kend
  word : ∀ m, own m ≠ .free → s'.word m = s.word m

theorem Restored.refl (h : Heap s own) : Restored s s own := ⟨h, rfl, fun _ _ => rfl⟩

theorem Rooted.root_ne (hr : Rooted own) (hc : own c = .free) (m : ℕ) : (own m).root ≠ some c := by
  intro h
  have := hr m c h
  rw [hc] at this
  cases this

theorem Gone.restored (hg : Gone s s' own own' c) (hr : Rooted own) (hc : own c = .free) :
    own' = own ∧ Restored s s' own := by
  have hroot := hr.root_ne hc
  have hfree : ∀ {o : Owner}, Owner.Within c Set.univ o → o.root ≠ some c → o = .free :=
    fun hw hne => hw.root.resolve_right hne
  have hown : own' = own := by grind [Gone, hg.touches.pages.within, hg.touches.pages.owner]
  refine ⟨hown, hown ▸ hg.heap, hg.touches.kend_eq, fun m hm => ?_⟩
  exact hg.touches.pages.cell m fun hw => hm (hfree hw (hroot m))

/-! ### `uvmcreate` -/

theorem Mem.create (hh : Heap s own) (hr : Rooted own) (hown : own c = .held)
    (hzero : s.word c = fun _ => 0) :
    Mem s (update own c (.table c)) c ∧ ∀ v, view s c v = none := by
  have hchild : ∀ i, child s c i = none := by
    intro i
    rw [child, hzero]
    exact if_neg (by simp)
  have hdescend : ∀ p t, descend (child s) c p = some t → p = [] ∧ t = c := by
    intro p t h
    cases p with
    | nil => exact ⟨rfl, (Option.some.inj h).symm⟩
    | cons i p =>
      rw [descend, hchild] at h
      cases h
  have hview : ∀ v, view s c v = none := by grind [view, table, path, descend]
  have hno : ∀ n, (own n).root ≠ some c := by
    intro n h
    have := hr n c h
    rw [hown] at this
    cases this
  refine ⟨⟨hh.reown (by rw [hown]; rintro ⟨⟩) (by rw [hown]; rintro ⟨⟩) (by rintro ⟨⟩)
    (by rintro ⟨⟩), ?_, ?_⟩, hview⟩
  · intro n q hq
    by_cases hn : n = c
    · rw [hn, update_self] at hq
      cases hq
      exact update_self ..
    · rw [update_of_ne hn] at hq
      have hqc : q ≠ c := fun h => hno n (h ▸ hq)
      rw [update_of_ne hqc]
      exact hr n q hq
  · refine ⟨?_, ?_, ?_, ?_, ?_, ?_, ?_, ?_⟩
    · intro p q n _ _ hp hq
      rw [(hdescend p n hp).1, (hdescend q n hq).1]
    · grind
    · exact fun i _ => hchild i
    · intro n
      constructor
      · intro hn
        by_cases h : n = c
        · exact ⟨[], by decide, by rw [h]; rfl⟩
        · rw [update_of_ne h] at hn
          exact absurd (by rw [hn]; rfl) (hno n)
      · rintro ⟨p, -, hp⟩
        rw [(hdescend p n hp).2, update_self]
    · intro v b hb
      rw [hview] at hb
      cases hb
    · intro v b hb
      rw [hview] at hb
      cases hb
    · intro v b hb
      rw [hview] at hb
      cases hb
    · intro n v hn
      by_cases h : n = c
      · rw [h, update_self] at hn
        cases hn
      · rw [update_of_ne h] at hn
        exact absurd (by rw [hn]; rfl) (hno n)

/-- A new table at `c`, made of pages that were free. -/
structure Fresh (s s' : Ram) (own own' : ℕ → Owner) (c : ℕ) : Prop where
  mem : Mem s' own' c
  touches : Touches c Set.univ s s' own own'
  free : own c = .free

theorem uvmcreate_wp (hh : Heap s own) (hr : Rooted own) :
    wp E uvmcreate (fun x s' => x = none ∧ s' = s ∨
      ∃ c own', x = some c ∧ Fresh s s' own own' c ∧ ∀ v, view s' c v = none) s := by
  rw [uvmcreate, wp_bind]
  refine kalloc_wp (fun _ => .inl ⟨rfl, rfl⟩) fun c rest hfree => ?_
  have hown := hh.own_free hfree
  have hh' : Heap ((s.taken c rest).memset c 0) (update own c .held) :=
    (hh.taken (o := .held) hfree nofun nofun).of_eq rfl rfl
  have hr' : Rooted (update own c .held) :=
    hr.update (by rw [hown]; nofun) fun q hq => nomatch hq
  obtain ⟨hm, hview⟩ := Mem.create hh' hr' (update_self ..) (by
    ext1 j
    rw [memset_word, if_pos rfl])
  rw [update_idem] at hm
  refine .inr ⟨c, _, rfl, ⟨hm, ⟨.single (by rw [hown]; trivial) rfl fun n hn => ?_, rfl⟩, hown⟩,
    hview⟩
  rw [memset_word_ne hn]
  exact memset_word_ne hn

theorem Fresh.frame {p : Proc} (h : Fresh s s' own own' c) (hp : AddressSpace s own tramp p) :
    AddressSpace s' own' tramp p ∧ p.pagetable ≠ c := by
  have hne : p.pagetable ≠ c := by grind [hp.mem.space.own_root, h.free]
  exact ⟨hp.frame h.touches hne h.mem.heap h.mem.rooted, hne⟩

/-! ### `proc_pagetable` -/

/-- The page of the trampoline code, which belongs to the kernel. -/
structure Trampoline (own : ℕ → Owner) (tramp : ℕ) : Prop where
  own_eq : own tramp = .outside
  round : PGROUNDDOWN tramp = tramp
  lt : tramp < 2 ^ 64

theorem Fresh.of_touches (h : Fresh s s₁ own own₁ c) (hm : Mem s' own' c)
    (ht : Touches c V s₁ s' own₁ own') : Fresh s s' own own' c :=
  ⟨hm, h.touches.trans (ht.mono (Set.subset_univ V)), h.free⟩

theorem Fresh.undo (h : Fresh s s₁ own own₁ c) (hr : Rooted own) (hnone : ∀ v, view s₁ c v = none) :
    wp E (uvmfree c 0) (fun _ s' => Restored s s' own) s₁ := by
  have hsized : Sized s₁ c (npages 0) := fun v _ => by
    rw [hnone, npages_zero]
    simp
  refine (uvmfree_wp h.mem hsized (by decide) fun v _ => hnone v).mono ?_
  rintro - s' ⟨own', hg⟩
  exact ((hg.of_touches h.touches).restored hr h.free).2

/-- `proc_pagetable` makes an address space of size 0, or has taken nothing. -/
theorem procPagetable_wp {k : ℕ} (hh : Heap s own) (hr : Rooted own)
    (htr : Trampoline own tramp) (htf : own trapframe = .other k) :
    wp E (procPagetable tramp trapframe) (fun x s' =>
      x = none ∧ Restored s s' own ∨ ∃ c own', x = some c ∧ Fresh s s' own own' c ∧
        ∀ name, AddressSpace s' own' tramp ⟨c, 0, trapframe, name⟩) s := by
  refine wp.bind (uvmcreate_wp hh hr) ?_
  rintro x s₁ (⟨rfl, rfl⟩ | ⟨c, own₁, rfl, hf₁, hview₁⟩)
  · exact .inl ⟨rfl, .refl hh⟩
  have hman : own trapframe ≠ .outside := by rw [htf]; nofun
  refine wp.bind (mappages_top (V := ∅) hf₁.mem htr.lt htr.round (by decide) (by decide) (by decide)
    (hview₁ _) (by decide) (by decide) (by decide)) ?_
  rintro x s₂ ⟨own₂, ht₂, hm₂, ⟨rfl, hview₂⟩ | ⟨rfl, hview₂⟩⟩
  · refine wp.bind ((hf₁.of_touches hm₂ ht₂).undo hr fun v => ?_) fun _ s' hs' => .inl ⟨rfl, hs'⟩
    rw [hview₂, hview₁]
  have hf₂ := hf₁.of_touches hm₂ ht₂
  have hnone : view s₂ c (TRAPFRAME / PGSIZE) = none := by grind [congrFun hview₂]
  refine wp.bind (mappages_top (V := ∅) hm₂ (hh.lt hman) (hh.round hman) (by decide) (by decide)
    (by decide) hnone (by decide) (by decide) (by decide)) ?_
  rintro x s₃ ⟨own₃, ht₃, hm₃, ⟨rfl, hview₃⟩ | ⟨rfl, hview₃⟩⟩
  · have hf₃ := hf₂.of_touches hm₃ ht₃
    refine wp.bind (uvmunmap_top (V := ∅) hm₃ (by decide) (by decide) (by decide) ?_) ?_
    · rw [hview₃, hview₂, update_self]
      nofun
    · rintro - s₄ ⟨hm₄, ht₄, hview₄⟩
      refine wp.bind ((hf₃.of_touches hm₄ ht₄).undo hr fun v => ?_) fun _ s' hs' => .inl ⟨rfl, hs'⟩
      rw [hview₄, hview₃, hview₂, update_idem]
      by_cases hv : v = TRAMPOLINE / PGSIZE
      · rw [hv, update_self]
      · rw [update_of_ne hv, hview₁]
  · have hf₃ := hf₂.of_touches hm₃ ht₃
    refine .inr ⟨c, own₃, rfl, hf₃, fun name => ⟨hm₃, Nat.zero_le _, fun v hv => ?_, ?_, ?_, ?_,
      ?_⟩⟩
    · grind [congrFun hview₂, congrFun hview₃, npages_zero]
    · rw [hview₃, update_self]
    · rw [hview₃, update_of_ne (by decide), hview₂, update_self]
    · exact ⟨k, (hf₃.touches.pages.owner_iff id).mpr htf⟩
    · exact (hf₃.touches.pages.owner_iff id).mpr htr.own_eq

/-! ### A machine after boot -/

/-- The kernel ends at `0x80001000`. The page there is in use, and the 24 after it
are free. -/
def bootRam : Ram where
  word _ _ := 0
  freelist := (List.range 24).map fun k => 0x80002000 + k * 0x1000
  kend := 0x80001000

def bootOwn (m : ℕ) : Owner :=
  if m ∈ bootRam.freelist then .free
  else if m % PGSIZE = 0 ∧ 0x80001000 ≤ m ∧ m < PHYSTOP then .other 0
  else .outside

theorem bootRam_heap : Heap bootRam bootOwn := by
  have hfree : ∀ m ∈ bootRam.freelist, m % PGSIZE = 0 ∧ 0x80001000 ≤ m ∧ m < PHYSTOP := by decide
  refine ⟨by decide, fun m => ?_, fun m => ?_, by decide⟩
  · unfold bootOwn
    split
    · simp [*]
    · split <;> simp [*]
  · show _ ↔ ¬(m % PGSIZE = 0 ∧ 0x80001000 ≤ m ∧ m < PHYSTOP)
    unfold bootOwn
    split
    · rename_i hm
      simp [hfree m hm]
    · split <;> simp [*]

theorem bootRam_rooted : Rooted bootOwn := by
  intro m r h
  unfold bootOwn at h
  split at h
  · cases h
  · split at h <;> cases h

theorem bootRam_trampoline : Trampoline bootOwn 0x80000000 := ⟨by decide, by decide, by decide⟩

theorem bootRam_space {c : ℕ} (hrun : (procPagetable 0x80000000 0x80001000).run bootRam =
    .ok (some c, s)) : ∃ own, AddressSpace s own 0x80000000 ⟨c, 0, 0x80001000, []⟩ := by
  have hown : bootOwn 0x80001000 = .other 0 := by decide
  have hwp := procPagetable_wp (E := fun _ => True) bootRam_heap bootRam_rooted bootRam_trampoline
    hown
  obtain ⟨hnone, -⟩ | ⟨c', own, hc, -, hspace⟩ := hwp.ok hrun
  · cases hnone
  · cases hc
    exact ⟨own, hspace []⟩

end Xv6.Vm
