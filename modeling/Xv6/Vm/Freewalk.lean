import Xv6.Vm.Sizes

/-!
`freewalk`, `uvmfree` and `proc_freepagetable`: a page table is taken apart.

`freewalk` frees the pages of a table from below. Where no page is shared, the
pages below one entry are not those below another, so that what is left of the table
is as it was. The entries of level 0 must be empty; that they are is what
`uvmfree` has seen to before.
-/

namespace Xv6.Vm

open List
open Function (update update_self update_of_ne)

variable {s s' s₁ : Ram} {own own' own₁ : ℕ → Owner} {r t c m v : ℕ} {level : ℕ} {V : Set ℕ}
  {E : Panic → Prop} {i : Fin 512}

def Below (s : Ram) (t level m : ℕ) : Prop :=
  ∃ p, p.length ≤ level ∧ descend (child s) t p = some m

/-- The pages from `t` on are a tree of the table at `r`, without leaves. -/
structure Bare (s : Ram) (own : ℕ → Owner) (r t level : ℕ) : Prop where
  tree : NoSharing (child s) t level
  own_eq : ∀ m, Below s t level m → own m = .table r
  inner : ∀ p m i, p.length < level → descend (child s) t p = some m → s.word m i &&& PTE_V ≠ 0 →
    s.word m i &&& (PTE_R ||| PTE_W ||| PTE_X) = 0
  leaf : ∀ p m i, p.length = level → descend (child s) t p = some m → s.word m i &&& PTE_V = 0

/-- The pages in `X` are free, and the others as before. -/
structure Freed (X : ℕ → Prop) (s s' : Ram) (own own' : ℕ → Owner) : Prop where
  heap : Heap s' own'
  kend_eq : s'.kend = s.kend
  free : ∀ m, X m → own' m = .free
  owner : ∀ m, ¬X m → own' m = own m
  word : ∀ m, ¬X m → s'.word m = s.word m

theorem Below.self (s : Ram) (t level : ℕ) : Below s t level t := ⟨[], Nat.zero_le _, rfl⟩

theorem below_succ : Below s t (level + 1) m ↔
    m = t ∨ ∃ i c, child s t i = some c ∧ Below s c level m := by
  constructor
  · rintro ⟨p, hp, hm⟩
    cases p with
    | nil => exact .inl (Option.some.inj hm).symm
    | cons i p =>
      rw [descend, Option.bind_eq_some_iff] at hm
      obtain ⟨c, hc, hm⟩ := hm
      exact .inr ⟨i, c, hc, p, Nat.le_of_succ_le_succ hp, hm⟩
  · rintro (rfl | ⟨i, c, hc, p, hp, hm⟩)
    · exact .self ..
    · refine ⟨i :: p, Nat.succ_le_succ hp, ?_⟩
      rw [descend, hc, Option.bind_some, hm]

section Congr

variable (h : ∀ m, Below s t level m → s'.word m = s.word m)

include h

theorem descend_below {p : List (Fin 512)} (hp : p.length ≤ level) :
    descend (child s') t p = descend (child s) t p := by
  refine descend_congr (fun q n hq hn => ?_) hp
  exact child_congr (h n ⟨q, hq.le, hn⟩)

theorem below_congr : Below s' t level m ↔ Below s t level m := by
  constructor
  · rintro ⟨p, hp, hm⟩
    exact ⟨p, hp, descend_below h hp ▸ hm⟩
  · rintro ⟨p, hp, hm⟩
    exact ⟨p, hp, (descend_below h hp).trans hm⟩

theorem Bare.congr (hb : Bare s own r t level) (hown : ∀ m, Below s t level m → own' m = own m) :
    Bare s' own' r t level := by
  refine ⟨hb.tree.congr fun q n hq hn => child_congr (h n ⟨q, hq.le, hn⟩), fun m hm => ?_,
    fun p m i hp hm hv => ?_, fun p m i hp hm => ?_⟩
  · have hm' := (below_congr h).mp hm
    rw [hown m hm', hb.own_eq m hm']
  · rw [descend_below h hp.le] at hm
    rw [h m ⟨p, hp.le, hm⟩] at hv ⊢
    exact hb.inner p m i hp hm hv
  · rw [descend_below h hp.le] at hm
    rw [h m ⟨p, hp.le, hm⟩]
    exact hb.leaf p m i hp hm

end Congr

/-! ### The loop over the entries -/

def Under (s : Ram) (t level : ℕ) (is : List (Fin 512)) (m : ℕ) : Prop :=
  ∃ i ∈ is, ∃ c, child s t i = some c ∧ Below s c level m

structure Entries (s : Ram) (own : ℕ → Owner) (r t level : ℕ) (is : List (Fin 512)) : Prop where
  inner : ∀ i ∈ is, s.word t i &&& PTE_V ≠ 0 → s.word t i &&& (PTE_R ||| PTE_W ||| PTE_X) = 0
  bare : ∀ i ∈ is, ∀ c, child s t i = some c → Bare s own r c level
  apart : ∀ i ∈ is, ∀ c, child s t i = some c → ¬Below s c level t
  disjoint : ∀ i ∈ is, ∀ j ∈ is, ∀ c d m, child s t i = some c → child s t j = some d →
    Below s c level m → Below s d level m → i = j

theorem child_eq (hv : s.word t i &&& PTE_V ≠ 0) : child s t i = some (PTE2PA (s.word t i)) := by
  rw [child, if_pos hv]

theorem Entries.next {is : List (Fin 512)} (he : Entries s own r t level (i :: is)) (hi : i ∉ is)
    (hc : child s t i = some c) (hf : Freed (Below s c level) s s₁ own own₁) :
    Entries (s₁.setPte t i 0) own₁ r t level is ∧
      ∀ m, Under (s₁.setPte t i 0) t level is m ↔ Under s t level is m := by
  have hword : ∀ m, ¬Below s c level m → m ≠ t → (s₁.setPte t i 0).word m = s.word m := by
    grind [setPte_word, hf.word]
  have hentry : ∀ j ∈ is, (s₁.setPte t i 0).word t j = s.word t j := by
    grind [setPte_word, hf.word, he.apart, mem_cons_self]
  have hchild : ∀ j ∈ is, child (s₁.setPte t i 0) t j = child s t j := by grind [child]
  have hsame : ∀ j ∈ is, ∀ d, child s t j = some d → ∀ m, Below s d level m →
      ¬Below s c level m ∧ m ≠ t := by grind [he.disjoint, mem_cons_self, he.apart]
  have hkeep : ∀ j ∈ is, ∀ d, child s t j = some d → ∀ m, Below s d level m →
      (s₁.setPte t i 0).word m = s.word m := fun j hj d hd m hm =>
    hword m (hsame j hj d hd m hm).1 (hsame j hj d hd m hm).2
  have hbelow : ∀ j ∈ is, ∀ d, child s t j = some d → ∀ m,
      (Below (s₁.setPte t i 0) d level m ↔ Below s d level m) := fun j hj d hd m =>
    below_congr (hkeep j hj d hd)
  refine ⟨⟨?_, ?_, ?_, ?_⟩, ?_⟩
  · grind [he.inner]
  · intro j hj d hd
    rw [hchild j hj] at hd
    refine (he.bare j (mem_cons_of_mem _ hj) d hd).congr (hkeep j hj d hd) fun m hm => ?_
    exact hf.owner m (hsame j hj d hd m hm).1
  · grind
  · grind [he.disjoint]
  · intro m
    constructor
    · rintro ⟨j, hj, d, hd, hm⟩
      rw [hchild j hj] at hd
      exact ⟨j, hj, d, hd, (hbelow j hj d hd m).mp hm⟩
    · rintro ⟨j, hj, d, hd, hm⟩
      exact ⟨j, hj, d, (hchild j hj).trans hd, (hbelow j hj d hd m).mpr hm⟩

theorem under_cons {is : List (Fin 512)} : Under s t level (i :: is) m ↔
    (∃ c, child s t i = some c ∧ Below s c level m) ∨ Under s t level is m := by
  simp [Under]

theorem freewalkLoop_wp {free : ℕ → M Unit} {is : List (Fin 512)}
    (hfree : ∀ {s own c}, Heap s own → Bare s own r c level → wp E (free c)
      (fun _ s' => ∃ own', Freed (Below s c level) s s' own own') s)
    (hh : Heap s own) (he : Entries s own r t level is) (hnd : is.Nodup) :
    wp E (freewalkLoop free t is) (fun _ s' => ∃ own', Heap s' own' ∧ s'.kend = s.kend ∧
      (∀ m, Under s t level is m → own' m = .free) ∧
      ∀ m, ¬Under s t level is m → own' m = own m ∧ (m ≠ t → s'.word m = s.word m)) s := by
  induction is generalizing s own with
  | nil =>
    refine ⟨own, hh, rfl, fun m hm => ?_, fun m _ => ⟨rfl, fun _ => rfl⟩⟩
    obtain ⟨i, hi, -⟩ := hm
    cases hi
  | cons i is ih =>
    obtain ⟨hi, hnd'⟩ := nodup_cons.mp hnd
    refine wp.ite (fun hentry => ?_) fun hnot => ?_
    · have hc := child_eq hentry.1
      refine wp.bind (hfree hh (he.bare i mem_cons_self _ hc)) ?_
      rintro - s₁ ⟨own₁, hf⟩
      obtain ⟨he', hunder⟩ := he.next hi hc hf
      refine (ih (s := s₁.setPte t i 0) (hf.heap.of_eq rfl rfl) he' hnd').mono ?_
      rintro - s' ⟨own', hh', hkend, hfreed, hrest⟩
      refine ⟨own', hh', hkend.trans hf.kend_eq, fun m hm => ?_, fun m hm => ?_⟩
      · by_cases hm' : Under s t level is m
        · exact hfreed m ((hunder m).mpr hm')
        · grind [under_cons.mp, hf.free]
      · have hm' : ¬Under s t level is m := fun h => hm (under_cons.mpr (.inr h))
        have hbelow : ¬Below s (PTE2PA (s.word t i)) level m := fun h =>
          hm (under_cons.mpr (.inl ⟨_, hc, h⟩))
        obtain ⟨howner, hword⟩ := hrest m fun h => hm' ((hunder m).mp h)
        refine ⟨howner.trans (hf.owner m hbelow), fun hne => ?_⟩
        rw [hword hne, ← hf.word m hbelow]
        ext1 j
        rw [setPte_word, if_neg (fun h => hne h.1)]
    · have hv : s.word t i &&& PTE_V = 0 := by
        by_contra hv
        exact hnot ⟨hv, he.inner i mem_cons_self hv⟩
      rw [if_neg (not_not.mpr hv)]
      have hnone : child s t i = none := by rw [child, if_neg (not_not.mpr hv)]
      have hunder : ∀ m, Under s t level (i :: is) m ↔ Under s t level is m := fun m => by
        rw [under_cons, hnone]
        simp
      simp only [hunder]
      refine ih hh ⟨?_, ?_, ?_, ?_⟩ hnd'
      · exact fun j hj => he.inner j (mem_cons_of_mem _ hj)
      · exact fun j hj => he.bare j (mem_cons_of_mem _ hj)
      · exact fun j hj => he.apart j (mem_cons_of_mem _ hj)
      · grind [he.disjoint]

theorem freewalkLoop_empty {free : ℕ → M Unit} {is : List (Fin 512)}
    (h : ∀ i, s.word t i &&& PTE_V = 0) : (freewalkLoop free t is).run s = .ok ((), s) := by
  induction is with
  | nil => rfl
  | cons i is ih => grind [freewalkLoop]

/-! ### The recursion -/

theorem nodup_indices : indices.Nodup := by
  unfold indices
  exact nodup_finRange 512

theorem mem_indices (i : Fin 512) : i ∈ indices := by
  unfold indices
  exact mem_finRange i

theorem Bare.entries (hb : Bare s own r t (level + 1)) : Entries s own r t level indices := by
  have hpath : ∀ i c p m, child s t i = some c → descend (child s) c p = some m →
      descend (child s) t (i :: p) = some m := by grind [descend]
  refine ⟨?_, ?_, ?_, ?_⟩
  · exact fun i _ hv => hb.inner [] t i (Nat.succ_pos _) rfl hv
  · intro i _ c hc
    refine ⟨?_, ?_, ?_, ?_⟩
    · grind [NoSharing, hb.tree]
    · rintro m ⟨p, hp, hm⟩
      exact hb.own_eq m ⟨i :: p, Nat.succ_le_succ hp, hpath i c p m hc hm⟩
    · grind [Bare]
    · grind [Bare]
  · rintro i - c hc ⟨p, hp, hm⟩
    have := hb.tree (i :: p) [] t (Nat.succ_le_succ hp) (Nat.zero_le _) (hpath i c p t hc hm) rfl
    cases this
  · rintro i - j - c d m hc hd ⟨p, hp, hm⟩ ⟨q, hq, hm'⟩
    have := hb.tree (i :: p) (j :: q) m (Nat.succ_le_succ hp) (Nat.succ_le_succ hq)
      (hpath i c p m hc hm) (hpath j d q m hd hm')
    exact (cons.inj this).1

theorem Freed.root {X : ℕ → Prop} (hh : Heap s' own') (hkend : s'.kend = s.kend)
    (hX : ¬X t) (hfreed : ∀ m, X m → own' m = .free)
    (hrest : ∀ m, ¬X m → own' m = own m ∧ (m ≠ t → s'.word m = s.word m))
    (hown : own t = .table r) :
    wp E (kfree t) (fun _ s' => ∃ own', Freed (fun m => m = t ∨ X m) s s' own own') s' := by
  have hown' : own' t = .table r := (hrest t hX).1.trans hown
  have hman : Managed s' t := hh.managed (by rw [hown']; nofun)
  refine wp_of_ok (kfree_run hman) ⟨update own' t .free, ?_, hkend, ?_, ?_, ?_⟩
  · exact hh.freed (by rw [hown']; nofun) (by rw [hown']; nofun)
  · grind
  · grind
  · intro m hm
    push Not at hm
    exact (memset_word_ne hm.1).trans ((hrest m hm.2).2 hm.1)

theorem Freed.congr {X Y : ℕ → Prop} (h : Freed X s s' own own') (hXY : ∀ m, X m ↔ Y m) :
    Freed Y s s' own own' := by
  obtain rfl : X = Y := funext fun m => propext (hXY m)
  exact h

/-- `freewalk` frees a tree without leaves. -/
theorem freewalk_wp (hh : Heap s own) (hb : Bare s own r t level) :
    wp E (freewalk level t) (fun _ s' => ∃ own', Freed (Below s t level) s s' own own') s := by
  induction level generalizing s own t with
  | zero =>
    have hempty : ∀ i, s.word t i &&& PTE_V = 0 := fun i => hb.leaf [] t i rfl rfl
    rw [freewalk, wp_bind]
    refine wp_of_ok (freewalkLoop_empty hempty) ?_
    refine (Freed.root (X := fun _ => False) hh rfl id (fun _ h => h.elim)
      (fun _ _ => ⟨rfl, fun _ => rfl⟩) (hb.own_eq t (.self ..))).mono ?_
    rintro - s' ⟨own', hf⟩
    refine ⟨own', hf.congr fun m => ?_⟩
    constructor
    · rintro (rfl | h)
      · exact .self ..
      · exact h.elim
    · rintro ⟨p, hp, hm⟩
      obtain rfl : p = [] := eq_nil_of_length_eq_zero (Nat.le_zero.mp hp)
      exact .inl (Option.some.inj hm).symm
  | succ level ih =>
    refine wp.bind (freewalkLoop_wp ih hh hb.entries nodup_indices) ?_
    rintro - s₁ ⟨own₁, hh₁, hkend, hfreed, hrest⟩
    have hX : ¬Under s t level indices t := by
      rintro ⟨i, hi, c, hc, hm⟩
      exact hb.entries.apart i hi c hc hm
    refine (Freed.root hh₁ hkend hX hfreed hrest (hb.own_eq t (.self ..))).mono ?_
    rintro - s' ⟨own', hf⟩
    refine ⟨own', hf.congr fun m => ?_⟩
    rw [below_succ]
    simp [Under, mem_indices]

/-! ### Address spaces -/

theorem exists_va {a b i : Fin 512} (ha : a.val < 256) :
    ∃ va, va < MAXVA ∧ path va 2 = [a, b] ∧ PX 0 va = i := by
  refine ⟨a.val * 2 ^ 30 + b.val * 2 ^ 21 + i.val * 2 ^ 12, ?_, ?_, ?_⟩
  · have := i.isLt
    norm_num
    omega
  · have hi := i.isLt
    simp only [path, cons.injEq, and_true]
    constructor
    · apply Fin.ext
      rw [PX_val]
      norm_num
      omega
    · apply Fin.ext
      rw [PX_val]
      norm_num
      omega
  · apply Fin.ext
    rw [PX_val]
    norm_num
    omega

theorem Space.bare (hs : Space s own r) (hnone : ∀ v, view s r v = none) : Bare s own r r 2 := by
  refine ⟨hs.tree, fun m hm => (hs.table_iff m).mpr hm, hs.inner, fun p m i hp hm => ?_⟩
  obtain ⟨a, b, rfl⟩ : ∃ a b, p = [a, b] := by
    match p, hp with
    | [a, b], _ => exact ⟨a, b, rfl⟩
  have ha : a.val < 256 := by grind [descend, hs.low]
  obtain ⟨va, hva, hpath, hPX⟩ := exists_va (b := b) (i := i) ha
  have hv := hnone (va / PGSIZE)
  rw [view_div hva, table, hpath, hm, Option.bind_some, hPX, binding] at hv
  by_contra hvalid
  rw [if_pos hvalid] at hv
  cases hv

structure Gone (s s' : Ram) (own own' : ℕ → Owner) (r : ℕ) : Prop where
  heap : Heap s' own'
  rooted : Rooted own'
  touches : Touches r Set.univ s s' own own'
  root_ne : ∀ m, (own' m).root ≠ some r

theorem freewalk_gone (hm : Mem s own r) (hnone : ∀ v, view s r v = none) :
    wp E (freewalk 2 r) (fun _ s' => ∃ own', Gone s s' own own' r) s := by
  refine (freewalk_wp hm.heap (hm.space.bare hnone)).mono ?_
  rintro - s' ⟨own', hf⟩
  have htable : ∀ m, Below s r 2 m ↔ own m = .table r := fun m => (hm.space.table_iff m).symm
  have hroot : ∀ m, (own' m).root ≠ some r := by
    intro m h
    by_cases hb : Below s r 2 m
    · rw [hf.free m hb] at h
      cases h
    · rw [hf.owner m hb] at h
      cases ho : own m with
      | table q =>
        rw [ho] at h
        cases h
        exact hb ((htable m).mpr ho)
      | data q v =>
        rw [ho] at h
        cases h
        obtain ⟨-, flags, hv⟩ := hm.space.mapped m v ho
        rw [hnone] at hv
        cases hv
      | _ =>
        rw [ho] at h
        cases h
  refine ⟨own', hf.heap, fun m q hq => ?_, ⟨⟨fun m hn => ?_, fun m hn => ?_, fun m hn => ?_⟩,
    hf.kend_eq⟩, hroot⟩
  · have hqr : q ≠ r := by
      rintro rfl
      exact hroot m hq
    have hb : ¬Below s r 2 m := by
      intro hb
      rw [hf.free m hb] at hq
      cases hq
    rw [hf.owner m hb] at hq
    have hq' := hm.rooted m q hq
    rw [hf.owner q, hq']
    intro hb
    rw [htable, hq'] at hb
    cases hb
    exact hqr rfl
  · refine hf.owner m fun hb => hn ?_
    rw [(htable m).mp hb]
    rfl
  · refine hf.word m fun hb => hn ?_
    rw [(htable m).mp hb]
    rfl
  · grind [Owner.Within, hf.free, hf.owner]

theorem Gone.of_touches (h : Gone s₁ s' own₁ own' r) (ht : Touches r V s s₁ own own₁) :
    Gone s s' own own' r :=
  ⟨h.heap, h.rooted, (ht.mono (Set.subset_univ V)).trans h.touches, h.root_ne⟩

theorem npages_zero : npages 0 = 0 := rfl

/-- `uvmfree` gives back all memory of the user and the table. -/
theorem uvmfree_wp {sz : ℕ} (hm : Mem s own r) (hsz : Sized s r (npages sz))
    (hle : sz ≤ UTOP * PGSIZE) (htop : ∀ v, UTOP ≤ v → view s r v = none) :
    wp E (uvmfree r sz) (fun _ s' => ∃ own', Gone s s' own own' r) s := by
  rw [uvmfree]
  by_cases hpos : sz > 0
  · rw [if_pos hpos, ← npages]
    refine wp.bind (uvmunmap_user hm (Nat.zero_mod _) ?_ ?_) ?_
    · rw [Nat.zero_add]
      exact Nat.mul_le_mul_right _ (npages_le hle)
    · intro w _ hw
      have := npages_le hle
      rw [Nat.zero_div, Nat.zero_add] at hw
      exact (hsz w (by omega)).mpr hw
    · rintro - s₁ ⟨own₁, hm₁, ht, hview⟩
      rw [Nat.zero_div] at hview
      refine (freewalk_gone hm₁ fun v => ?_).mono ?_
      · rw [hview, dropRun]
        split
        · rfl
        · by_cases hv : UTOP ≤ v
          · exact htop v hv
          · by_contra hne
            have := (hsz v (by omega)).mp hne
            omega
      · rintro - s' ⟨own', hg⟩
        exact ⟨own', hg.of_touches ht⟩
  · rw [if_neg hpos]
    refine freewalk_gone hm fun v => ?_
    by_cases hv : UTOP ≤ v
    · exact htop v hv
    · by_contra hne
      have := (hsz v (by omega)).mp hne
      rw [show sz = 0 by omega, npages_zero] at this
      omega

theorem procFreepagetable_wp {p : Proc} {tramp : ℕ} (h : AddressSpace s own tramp p) :
    wp E (procFreepagetable p.pagetable p.sz)
      (fun _ s' => ∃ own', Gone s s' own own' p.pagetable) s := by
  refine wp.bind (uvmunmap_top (V := ∅) h.mem (by decide) (by decide) (by decide)
    (by rw [h.trampoline]; nofun)) ?_
  rintro - s₁ ⟨hm₁, ht₁, hview₁⟩
  refine wp.bind (uvmunmap_top (V := ∅) hm₁ (by decide) (by decide) (by decide) ?_) ?_
  · rw [hview₁, update_of_ne (by decide), h.trapframe]
    nofun
  · rintro - s₂ ⟨hm₂, ht₂, hview₂⟩
    have hsame : ∀ v < UTOP, view s₂ p.pagetable v = view s p.pagetable v := by
      grind [congrFun hview₁, congrFun hview₂]
    refine (uvmfree_wp hm₂ (fun v hv => ?_) h.sz_le fun v hv => ?_).mono ?_
    · rw [hsame v hv]
      exact h.sized v hv
    · grind [congrFun hview₁, congrFun hview₂, top_cases]
    · rintro - s' ⟨own', hg⟩
      exact ⟨own', hg.of_touches (ht₁.trans ht₂)⟩

end Xv6.Vm
