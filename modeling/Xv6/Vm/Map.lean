import Xv6.Vm.Table

/-!
Page tables refine maps: `walk` finds the entry of an address, `mappages` adds a run of
bindings and `uvmunmap` removes one.

A page that `walk` allocates is hung into the tree before the entry is used, and stays
there when `mappages` gives up later. It has no valid entries, so that the map is the
same. What `mappages` has added before it gives up are the first bindings of the run.
-/

namespace Xv6.Vm

open List
open Function (update update_self update_of_ne)

variable {a k pa perm v : ℕ} {doFree : Bool}

/-- The map with `n` bindings more, from the page number `v` on, to the physical pages
from `pa` on. -/
def addRun (f : ℕ → Option (ℕ × ℕ)) (v n pa flags : ℕ) : ℕ → Option (ℕ × ℕ) := fun w =>
  if v ≤ w ∧ w < v + n then some (PGROUNDDOWN ((pa + (w - v) * PGSIZE) % 2 ^ 64), flags) else f w

/-- The map without the `n` bindings from the page number `v` on. -/
def dropRun (f : ℕ → Option (ℕ × ℕ)) (v n : ℕ) : ℕ → Option (ℕ × ℕ) := fun w =>
  if v ≤ w ∧ w < v + n then none else f w

variable {s s' : Ram} {root va t m x n : ℕ} {i : Fin 512} {p : List (Fin 512)} {level : ℕ}

/-! ### `walk` -/

theorem walkLoop_find : (walkLoop va false level t).run s =
    .ok ((descend (child s) t (path va level)).map fun t => (t, PX 0 va), s) := by
  induction level generalizing t with
  | zero => rfl
  | succ level ih =>
    rw [path, descend, walkLoop, child]
    show (if s.word t (PX (level + 1) va) &&& PTE_V ≠ 0 then _ else _ :
      M (Option (ℕ × Fin 512))).run s = _
    by_cases h : s.word t (PX (level + 1) va) &&& PTE_V ≠ 0
    · rw [if_pos h, if_pos h, Option.bind_some]
      apply ih
    · rw [if_neg h, if_neg h]
      rfl

theorem walk_find (hva : va < MAXVA) : (walk root va false).run s =
    .ok ((table s root va).map fun t => (t, PX 0 va), s) := by
  rw [walk, if_neg (not_le.mpr hva)]
  exact walkLoop_find

structure Ok (s : Ram) (root : ℕ) : Prop where
  tree : Tree s root
  avail : Avail s root

def Ram.graft (s : Ram) (t : ℕ) (i : Fin 512) (m : ℕ) (rest : List ℕ) : Ram :=
  ((({ s.memset m 0x0505050505050505 with freelist := rest } : Ram).memset m 0).setPte t i
    (PA2PTE m ||| PTE_V))

theorem graft_word {rest : List ℕ} (r : ℕ) (j : Fin 512) : (s.graft t i m rest).word r j =
    if r = t ∧ j = i then PA2PTE m ||| PTE_V else if r = m then 0 else s.word r j := by
  rw [Ram.graft, setPte_word]
  split
  · rfl
  · grind [memset_word]

section Graft

variable {rest : List ℕ} (hok : Ok s root) (hfree : s.freelist = m :: rest)
  (hp : p.length < 2) (ht : descend (child s) root p = some t)

include hok hfree

theorem child_graft (r : ℕ) (j : Fin 512) : child (s.graft t i m rest) r j =
    if r = t ∧ j = i then some m else if r = m then none else child s r j := by
  have hentry : PTE2PA (PA2PTE m ||| PTE_V) = m := by
    grind [hok.avail.aligned, PTE2PA_entry, hok.avail.lt, PGROUNDDOWN]
  rw [child, graft_word]
  by_cases h : r = t ∧ j = i
  · rw [if_pos h, if_pos h, if_pos (entry_valid _), hentry]
  · grind [child]

include hp ht

theorem graft_ne : t ≠ m := by
  rintro rfl
  apply hok.avail.apart t
  · rw [hfree]
    exact mem_cons_self
  · exact ⟨p, hp.le, ht⟩

variable (hi : child s t i = none)

include hi

theorem descend_graft_eq {q : List (Fin 512)} (hq : q.length ≤ 2) :
    descend (child (s.graft t i m rest)) root q =
      if q = p ++ [i] then some m else descend (child s) root q := by
  refine descend_graft hok.tree hp ht hi ?_ ?_ ?_ ?_ hq
  · intro q hq h
    exact hok.avail.apart m (hfree ▸ mem_cons_self) ⟨q, hq, h⟩
  · rw [child_graft hok hfree, if_pos ⟨rfl, rfl⟩]
  · grind [child_graft, graft_ne]
  · intro r j hr hj
    rw [child_graft hok hfree, if_neg hj, if_neg hr]

theorem Ok.graft : Ok (s.graft t i m rest) root := by
  obtain ⟨hm, hnd⟩ := nodup_cons.mp (hfree ▸ hok.avail.nodup)
  have hsub : ∀ r ∈ rest, r ∈ s.freelist := by grind
  constructor
  · apply NoSharing.graft hok.tree
    · intro q hq h
      exact hok.avail.apart m (hfree ▸ mem_cons_self) ⟨q, hq, h⟩
    · intro q hq
      exact descend_graft_eq hok hfree hp ht hi hq
  · constructor
    · exact hnd
    · exact fun r hr => hok.avail.aligned r (hsub r hr)
    · exact fun r hr => hok.avail.lt r (hsub r hr)
    · rintro r hr ⟨q, hq, h⟩
      rw [descend_graft_eq hok hfree hp ht hi hq] at h
      split at h
      · cases h
        exact hm hr
      · exact hok.avail.apart r (hsub r hr) ⟨q, hq, h⟩

theorem view_graft : view (s.graft t i m rest) root = view s root := by
  ext1 v
  rw [view, view]
  split
  · rw [table, descend_graft_eq hok hfree hp ht hi (length_path _ 2).le]
    split
    · rename_i hq
      rw [table, hq, descend_concat, ht, Option.bind_some, Option.bind_some, hi, graft_word,
        if_neg, if_pos rfl]
      · rfl
      · exact fun h => graft_ne hok hfree hp ht h.1.symm
    · rw [table]
      cases htab : descend (child s) root (path (v * PGSIZE) 2) with
      | none => rfl
      | some t' =>
        rw [Option.bind_some, Option.bind_some, graft_word, if_neg, if_neg]
        · rintro rfl
          exact hok.avail.apart t' (hfree ▸ mem_cons_self) (.of_table htab)
        · rintro ⟨rfl, -⟩
          exact hok.tree.table_ne htab hp ht rfl
  · rfl

end Graft

/-- `s'` is `s` with free pages hung into the tree, one after the other. Addresses
below `MAXVA` use the first half of the root only. -/
inductive Grafted (root : ℕ) : Ram → Ram → Prop
  | refl (s : Ram) : Grafted root s s
  | graft {s s' : Ram} {p : List (Fin 512)} {t m : ℕ} {i : Fin 512} {rest : List ℕ}
      (hfree : s.freelist = m :: rest) (hp : p.length < 2)
      (ht : descend (child s) root p = some t) (hi : child s t i = none)
      (hlow : p = [] → i.val < 256) (h : Grafted root (s.graft t i m rest) s') : Grafted root s s'

theorem Grafted.freelist_suffix (h : Grafted root s s') : s'.freelist <:+ s.freelist := by
  induction h with
  | refl s => exact suffix_refl _
  | graft hfree _ _ _ _ _ ih =>
    rw [hfree]
    exact ih.trans (suffix_cons _ _)

structure Walked (s s' : Ram) (root : ℕ) (q : List (Fin 512)) (va : ℕ)
    (r : Option (ℕ × Fin 512)) : Prop where
  grafted : Grafted root s s'
  ok : Ok s' root
  view_eq : view s' root = view s root
  kend_eq : s'.kend = s.kend
  found : ∀ t i, r = some (t, i) → descend (child s') root q = some t ∧ i = PX 0 va

theorem PX_two_lt (hva : va < MAXVA) : (PX 2 va).val < 256 := by
  rw [PX_val]
  norm_num at hva ⊢
  omega

theorem walkLoop_alloc (hok : Ok s root) (hva : va < MAXVA) (hp : p.length + level = 2)
    (ht : descend (child s) root p = some t) :
    wp (fun _ => False) (walkLoop va true level t)
      (fun r s' => Walked s s' root (p ++ path va level) va r) s := by
  induction level generalizing s p t with
  | zero =>
    refine ⟨.refl s, hok, rfl, rfl, ?_⟩
    rintro t' i ⟨⟩
    rw [path, append_nil]
    exact ⟨ht, rfl⟩
  | succ level ih =>
    have hpath : p ++ path va (level + 1) = p ++ [PX (level + 1) va] ++ path va level := by
      grind [path]
    rw [hpath]
    have hlen : (p ++ [PX (level + 1) va]).length + level = 2 := by grind
    apply wp.ite
    · grind [descend_concat, child]
    · intro hv
      have hi : child s t (PX (level + 1) va) = none := by rw [child, if_neg hv]
      rw [if_pos rfl, wp_bind, kalloc, wp_bind, wp_get]
      cases hfree : s.freelist with
      | nil =>
        refine ⟨.refl s, hok, rfl, rfl, ?_⟩
        rintro t' i ⟨⟩
      | cons m rest =>
        have hok' := Ok.graft hok hfree (by omega) ht hi
        have hview := view_graft hok hfree (by omega) ht hi
        have ht' : descend (child (s.graft t (PX (level + 1) va) m rest)) root
            (p ++ [PX (level + 1) va]) = some m := by grind [descend_graft_eq]
        have hlow : p = [] → (PX (level + 1) va).val < 256 := by
          rintro rfl
          obtain rfl : level = 1 := by simpa using hp
          exact PX_two_lt hva
        apply (ih hok' hlen ht').mono
        intro r s' hw
        exact ⟨.graft hfree (by omega) ht hi hlow hw.grafted, hw.ok, hw.view_eq.trans hview,
          hw.kend_eq, hw.found⟩

/-- With allocation `walk` keeps the tree and the map, whether it finds a page or not. -/
theorem walk_alloc (hok : Ok s root) (hva : va < MAXVA) :
    wp (fun _ => False) (walk root va true) (fun r s' => Walked s s' root (path va 2) va r) s := by
  rw [walk, if_neg (not_le.mpr hva)]
  exact walkLoop_alloc (p := []) hok hva rfl descend_nil

/-! ### `mappages` -/

@[simp] theorem addRun_zero (f : ℕ → Option (ℕ × ℕ)) (v pa flags : ℕ) :
    addRun f v 0 pa flags = f := by
  ext1 w
  rw [addRun, if_neg (by omega)]

theorem addRun_succ (f : ℕ → Option (ℕ × ℕ)) (v n flags : ℕ) (hpa : pa < 2 ^ 64) :
    addRun (update f v (some (PGROUNDDOWN pa, flags))) (v + 1) n
      ((pa + PGSIZE) % 2 ^ 64) flags = addRun f v (n + 1) pa flags := by
  ext1 w
  rw [addRun, addRun]
  by_cases hw : w = v
  · grind
  · grind

/-- The table has `k` bindings more, for pages that had none. -/
structure Mapped (s s' : Ram) (root v k pa flags : ℕ) : Prop where
  ok : Ok s' root
  kend_eq : s'.kend = s.kend
  unbound : ∀ w, v ≤ w → w < v + k → view s root w = none
  view_eq : view s' root = addRun (view s root) v k pa flags

theorem Mapped.store {a pa flags : ℕ} (hw : Walked s s' root (path a 2) a (some (t, i)))
    (ha : a < MAXVA) (hx : binding x = some (PGROUNDDOWN pa, flags)) (hpa : pa < 2 ^ 64)
    (hfree : s'.word t i &&& PTE_V = 0) :
    Mapped s (s'.setPte t i x) root (a / PGSIZE) 1 pa flags := by
  obtain ⟨ht, rfl⟩ := hw.found t i rfl
  have hview := view_setPte (x := x) hw.ok.tree ht ha
  constructor
  · exact ⟨hw.ok.tree.setPte ht, Avail.setPte hw.ok.tree ht hw.ok.avail⟩
  · exact hw.kend_eq
  · intro w hlo hhi
    obtain rfl : w = a / PGSIZE := by omega
    rw [← hw.view_eq, view_div ha, table, ht, Option.bind_some, binding,
      if_neg (not_not.mpr hfree)]
  · rw [hview, hw.view_eq, hx, ← addRun_succ _ _ _ _ hpa, addRun_zero]

theorem Mapped.trans {s₁ : Ram} {flags : ℕ} (hpa : pa < 2 ^ 64) (h₁ : Mapped s s₁ root v 1 pa flags)
    (h₂ : Mapped s₁ s' root (v + 1) k ((pa + PGSIZE) % 2 ^ 64) flags) :
    Mapped s s' root v (k + 1) pa flags := by
  have hfirst : view s₁ root = update (view s root) v (some (PGROUNDDOWN pa, flags)) := by
    rw [h₁.view_eq, ← addRun_succ _ _ _ _ hpa, addRun_zero]
  constructor
  · exact h₂.ok
  · exact h₂.kend_eq.trans h₁.kend_eq
  · grind [Mapped, congrFun hfirst]
  · rw [h₂.view_eq, hfirst, addRun_succ _ _ _ _ hpa]

section Turn

variable {last perm n a pa : ℕ} {E : Panic → Prop} {Q : ℤ → Ram → Prop}

/-- A turn of the loop of `mappages`: it gives up with the map unchanged, or has added one
binding for what follows. -/
theorem mappagesLoop_turn (hok : Ok s root) (ha : a < MAXVA) (hpa : pa < 2 ^ 64)
    (hperm : perm < 2 ^ 10) (hremap : view s root (a / PGSIZE) ≠ none → E .remap)
    (hfail : ∀ s₁, Mapped s s₁ root (a / PGSIZE) 0 pa (perm ||| PTE_V) → Q (-1) s₁)
    (hnext : ∀ s₁, Mapped s s₁ root (a / PGSIZE) 1 pa (perm ||| PTE_V) →
      wp E (if a = last then pure 0
        else mappagesLoop root last perm n (a + PGSIZE) ((pa + PGSIZE) % 2 ^ 64)) Q s₁) :
    wp E (mappagesLoop root last perm (n + 1) a pa) Q s := by
  apply wp.bind ((walk_alloc hok ha).mono_stop fun _ h => h.elim)
  intro r s₁ hw
  cases r with
  | none =>
    apply hfail
    exact ⟨hw.ok, hw.kend_eq, by omega, by rw [hw.view_eq, addRun_zero]⟩
  | some e =>
    obtain ⟨t, i⟩ := e
    rw [wp_bind, wp_get]
    by_cases hv : s₁.word t i &&& PTE_V ≠ 0
    · rw [if_pos hv]
      apply hremap
      obtain ⟨ht, rfl⟩ := hw.found t i rfl
      rw [← hw.view_eq, view_div ha, table, ht, Option.bind_some, binding, if_pos hv]
      exact Option.some_ne_none _
    · rw [if_neg hv]
      apply hnext
      exact Mapped.store hw ha (binding_entry hpa hperm) hpa (not_not.mp hv)

end Turn

theorem mappagesLoop_wp {last : ℕ} (hok : Ok s root) (hmax : a + (n + 1) * PGSIZE ≤ MAXVA)
    (hlast : last = a + n * PGSIZE) (hpa : pa < 2 ^ 64) (hperm : perm < 2 ^ 10) :
    wp (fun e => e = .remap ∧ ∃ w, a / PGSIZE ≤ w ∧ w < a / PGSIZE + (n + 1) ∧
        view s root w ≠ none)
      (mappagesLoop root last perm (n + 1) a pa)
      (fun r s' => (r = 0 ∧ Mapped s s' root (a / PGSIZE) (n + 1) pa (perm ||| PTE_V)) ∨
        (r = -1 ∧ ∃ k < n + 1, Mapped s s' root (a / PGSIZE) k pa (perm ||| PTE_V))) s := by
  induction n generalizing s a pa with
  | zero =>
    refine mappagesLoop_turn hok (by norm_num at hmax ⊢; omega) hpa hperm ?_ ?_ ?_
    · intro h
      exact ⟨rfl, _, le_rfl, by omega, h⟩
    · intro s₁ h₁
      exact .inr ⟨rfl, 0, by omega, h₁⟩
    · intro s₁ h₁
      rw [if_pos (by omega)]
      exact .inl ⟨rfl, h₁⟩
  | succ n ih =>
    have hdiv : (a + PGSIZE) / PGSIZE = a / PGSIZE + 1 := Nat.add_div_right a (by decide)
    refine mappagesLoop_turn hok (by norm_num at hmax ⊢; omega) hpa hperm ?_ ?_ ?_
    · intro h
      exact ⟨rfl, _, le_rfl, by omega, h⟩
    · intro s₁ h₁
      exact .inr ⟨rfl, 0, by omega, h₁⟩
    · intro s₁ h₁
      rw [if_neg (by norm_num at hlast ⊢; omega)]
      have hmax' : a + PGSIZE + (n + 1) * PGSIZE ≤ MAXVA := by grind
      have hlast' : last = a + PGSIZE + n * PGSIZE := by grind
      have hpa' : (pa + PGSIZE) % 2 ^ 64 < 2 ^ 64 := Nat.mod_lt _ (Nat.two_pow_pos 64)
      have hcons : ∀ {k s'}, Mapped s₁ s' root (a / PGSIZE + 1) k ((pa + PGSIZE) % 2 ^ 64)
          (perm ||| PTE_V) → Mapped s s' root (a / PGSIZE) (k + 1) pa (perm ||| PTE_V) :=
        fun h₂ => h₁.trans hpa h₂
      generalize a + PGSIZE = b at hdiv hmax' hlast' ⊢
      generalize (pa + PGSIZE) % 2 ^ 64 = c at hpa' hcons ⊢
      have hrest := ih h₁.ok hmax' hlast' hpa'
      rw [hdiv] at hrest
      refine (hrest.mono ?_).mono_stop ?_
      · grind
      · rintro e ⟨rfl, w, hlo, hhi, hw⟩
        rw [h₁.view_eq, addRun, if_neg (by omega)] at hw
        exact ⟨rfl, w, by omega, by omega, hw⟩

/-- What `mappages` does when it returns, and that it stops only at a page that is mapped. -/
theorem mappages_wp {size : ℕ} (hok : Ok s root) (hva : va % PGSIZE = 0) (hsize : size % PGSIZE = 0)
    (hpos : 0 < size) (hmax : va + size ≤ MAXVA) (hpa : pa < 2 ^ 64) (hperm : perm < 2 ^ 10) :
    wp (fun e => e = .remap ∧ ∃ w, va / PGSIZE ≤ w ∧ w < va / PGSIZE + size / PGSIZE ∧
        view s root w ≠ none)
      (mappages root va size pa perm)
      (fun r s' => (r = 0 ∧ Mapped s s' root (va / PGSIZE) (size / PGSIZE) pa (perm ||| PTE_V)) ∨
        (r = -1 ∧ ∃ k < size / PGSIZE,
          Mapped s s' root (va / PGSIZE) k pa (perm ||| PTE_V))) s := by
  obtain ⟨n, hn⟩ : ∃ n, size = (n + 1) * PGSIZE := by
    refine ⟨size / PGSIZE - 1, ?_⟩
    norm_num at hsize ⊢
    omega
  have hdiv : size / PGSIZE = n + 1 := by rw [hn, Nat.mul_div_cancel _ (by decide)]
  have hlast : (va + size - PGSIZE) % 2 ^ 64 = va + n * PGSIZE := by grind
  rw [mappages, if_neg (by omega), if_neg (by omega), if_neg (by omega), hdiv]
  exact mappagesLoop_wp hok (by omega) hlast hpa hperm

/-! ### `uvmunmap` -/

@[simp] theorem dropRun_zero (f : ℕ → Option (ℕ × ℕ)) (v : ℕ) : dropRun f v 0 = f := by
  ext1 w
  rw [dropRun, if_neg (by omega)]

theorem dropRun_succ (f : ℕ → Option (ℕ × ℕ)) (v n : ℕ) :
    dropRun (update f v none) (v + 1) n = dropRun f v (n + 1) := by
  ext1 w
  rw [dropRun, dropRun]
  by_cases hw : w = v
  · subst hw
    rw [if_neg (by omega), if_pos (by omega), update_self]
  · grind

def Managed (s : Ram) (pa : ℕ) : Prop := pa % PGSIZE = 0 ∧ s.kend ≤ pa ∧ pa < PHYSTOP

/-- `uvmunmap` can remove the binding of page `w`. -/
structure Removable (s : Ram) (root : ℕ) (doFree : Bool) (w : ℕ) (b : ℕ × ℕ) : Prop where
  bound : view s root w = some b
  leaf : b.2 ≠ PTE_V
  managed : doFree = true → Managed s b.1

/-- The table has `k` bindings less, and its pages are the same. -/
structure Unmapped (s s' : Ram) (root v k : ℕ) : Prop where
  tree : Tree s' root
  kend_eq : s'.kend = s.kend
  isTable : ∀ t, IsTable s' root t ↔ IsTable s root t
  bound : ∀ w, v ≤ w → w < v + k → view s root w ≠ none
  view_eq : view s' root = dropRun (view s root) v k

theorem Unmapped.zero (htree : Tree s root) (v : ℕ) : Unmapped s s root v 0 :=
  ⟨htree, rfl, fun _ => Iff.rfl, fun _ _ _ => by omega, (dropRun_zero _ _).symm⟩

theorem Unmapped.trans {s₁ : Ram} (h₁ : Unmapped s s₁ root v 1)
    (h₂ : Unmapped s₁ s' root (v + 1) k) : Unmapped s s' root v (k + 1) := by
  have hfirst : view s₁ root = update (view s root) v none := by
    rw [h₁.view_eq, ← dropRun_succ, dropRun_zero]
  constructor
  · exact h₂.tree
  · exact h₂.kend_eq.trans h₁.kend_eq
  · exact fun t => (h₂.isTable t).trans (h₁.isTable t)
  · grind [Unmapped, congrFun hfirst]
  · rw [h₂.view_eq, hfirst, dropRun_succ]

theorem Unmapped.clear (htree : Tree s root) (ha : a < MAXVA) (ht : table s root a = some t)
    (hv : s.word t (PX 0 a) &&& PTE_V ≠ 0) (hagree : Agree s s' root) (hkend : s'.kend = s.kend) :
    Unmapped s (s'.setPte t (PX 0 a) 0) root (a / PGSIZE) 1 := by
  have ht' := hagree.table_eq.trans ht
  have htree' := hagree.tree htree
  constructor
  · exact htree'.setPte ht'
  · exact hkend
  · exact fun m => (isTable_setPte htree' ht').trans hagree.isTable
  · intro w hlo hhi
    obtain rfl : w = a / PGSIZE := by omega
    rw [view_div ha, ht, Option.bind_some, binding, if_pos hv]
    exact Option.some_ne_none _
  · rw [view_setPte htree' ht' ha, hagree.view_eq, binding_zero, ← dropRun_succ, dropRun_zero]

theorem kfree_wp (hpa : ¬IsTable s root pa) :
    wp (fun _ => ¬Managed s pa) (kfree pa) (fun _ s' => Agree s s' root ∧ s'.kend = s.kend) s := by
  rw [kfree, wp_bind, wp_get]
  by_cases h : pa % PGSIZE ≠ 0 ∨ pa < s.kend ∨ pa ≥ PHYSTOP
  · rw [if_pos h]
    rintro ⟨h₁, h₂, h₃⟩
    omega
  · rw [if_neg h]
    refine ⟨⟨?_⟩, rfl⟩
    intro t ht
    ext1 j
    rw [memset_word, if_neg]
    rintro rfl
    exact hpa ht

theorem Removable.of_unmapped {w : ℕ} {b : ℕ × ℕ} (h : Unmapped s s' root v k)
    (hb : Removable s root doFree w b) (hw : v + k ≤ w) : Removable s' root doFree w b := by
  constructor
  · rw [h.view_eq, dropRun, if_neg (by omega)]
    exact hb.bound
  · exact hb.leaf
  · intro hd
    rw [Managed, h.kend_eq]
    exact hb.managed hd

section Turn

variable {stop n a : ℕ} {doFree : Bool} {E : Panic → Prop} {Q : Unit → Ram → Prop}

theorem uvmunmapLoop_turn (htree : Tree s root) (ha : a < stop) (hmax : stop ≤ MAXVA)
    (hfree : doFree = true → ∀ b, view s root (a / PGSIZE) = some b → ¬IsTable s root b.1)
    (hstop : (∀ b, ¬Removable s root doFree (a / PGSIZE) b) → ∀ e, E e)
    (hnext : ∀ s₁, Unmapped s s₁ root (a / PGSIZE) 1 →
      wp E (uvmunmapLoop root stop doFree n (a + PGSIZE)) Q s₁) :
    wp E (uvmunmapLoop root stop doFree (n + 1) a) Q s := by
  have hlt : a < MAXVA := by omega
  rw [uvmunmapLoop, if_pos ha, wp_bind]
  apply wp_of_ok (walk_find hlt)
  cases ht : table s root a with
  | none =>
    apply hstop
    intro b hb
    have hnone := hb.bound
    rw [view_div hlt, ht] at hnone
    cases hnone
  | some t =>
    have hview : view s root (a / PGSIZE) = binding (s.word t (PX 0 a)) := by grind [view_div]
    dsimp only [Option.map_some]
    rw [wp_bind, wp_get]
    by_cases hv : s.word t (PX 0 a) &&& PTE_V = 0
    · rw [if_pos hv]
      apply hstop
      intro b hb
      have hnone := hb.bound
      rw [hview, binding, if_neg (not_not.mpr hv)] at hnone
      cases hnone
    rw [if_neg hv]
    have hsome : view s root (a / PGSIZE) =
        some (PTE2PA (s.word t (PX 0 a)), PTE_FLAGS (s.word t (PX 0 a))) := by grind [binding]
    by_cases hleaf : PTE_FLAGS (s.word t (PX 0 a)) = PTE_V
    · rw [if_pos hleaf]
      apply hstop
      intro b hb
      obtain rfl := Option.some.inj (hsome.symm.trans hb.bound)
      exact hb.leaf hleaf
    rw [if_neg hleaf]
    by_cases hd : doFree = true
    · rw [if_pos hd]
      refine wp.bind ((kfree_wp (hfree hd _ hsome)).mono_stop ?_) ?_
      · intro e hm
        refine hstop (fun b hb => ?_) e
        obtain rfl := Option.some.inj (hsome.symm.trans hb.bound)
        exact hm (hb.managed hd)
      · rintro - s₁ ⟨hagree, hkend⟩
        exact hnext _ (.clear htree hlt ht hv hagree hkend)
    · rw [if_neg hd]
      exact hnext _ (.clear htree hlt ht hv ⟨fun _ _ => rfl⟩ rfl)

end Turn

theorem uvmunmapLoop_wp {stop : ℕ} (htree : Tree s root) (hstop : stop = a + n * PGSIZE)
    (hmax : stop ≤ MAXVA) (hfree : doFree = true → ∀ w b, a / PGSIZE ≤ w → w < a / PGSIZE + n →
      view s root w = some b → ¬IsTable s root b.1) :
    wp (fun _ => ∃ w, a / PGSIZE ≤ w ∧ w < a / PGSIZE + n ∧ ∀ b, ¬Removable s root doFree w b)
      (uvmunmapLoop root stop doFree n a)
      (fun _ s' => Unmapped s s' root (a / PGSIZE) n) s := by
  induction n generalizing s a with
  | zero => exact .zero htree _
  | succ n ih =>
    have ha : a < stop := by
      norm_num at hstop ⊢
      omega
    have hdiv : (a + PGSIZE) / PGSIZE = a / PGSIZE + 1 := Nat.add_div_right a (by decide)
    refine uvmunmapLoop_turn htree ha hmax ?_ ?_ ?_
    · exact fun hd b => hfree hd _ b le_rfl (by omega)
    · exact fun h _ => ⟨_, le_rfl, by omega, h⟩
    · intro s₁ h₁
      have hstop' : stop = a + PGSIZE + n * PGSIZE := by grind
      have hrest := ih h₁.tree hstop' (by
        intro hd w b hlo hhi hb
        rw [h₁.isTable]
        rw [h₁.view_eq, dropRun, if_neg (by omega)] at hb
        exact hfree hd w b (by omega) (by omega) hb)
      rw [hdiv] at hrest
      refine (hrest.mono fun _ s' h₂ => h₁.trans h₂).mono_stop ?_
      rintro - ⟨w, hlo, hhi, hw⟩
      exact ⟨w, by omega, by omega, fun b hb => hw b (.of_unmapped h₁ hb hlo)⟩

theorem uvmunmap_wp {npages : ℕ} (htree : Tree s root) (hva : va % PGSIZE = 0)
    (hmax : va + npages * PGSIZE ≤ MAXVA)
    (hfree : doFree = true → ∀ w b, va / PGSIZE ≤ w → w < va / PGSIZE + npages →
      view s root w = some b → ¬IsTable s root b.1) :
    wp (fun _ => ∃ w, va / PGSIZE ≤ w ∧ w < va / PGSIZE + npages ∧
        ∀ b, ¬Removable s root doFree w b)
      (uvmunmap root va npages doFree)
      (fun _ s' => Unmapped s s' root (va / PGSIZE) npages) s := by
  have hmod : (va + npages * PGSIZE) % 2 ^ 64 = va + npages * PGSIZE := by grind
  rw [uvmunmap, if_neg (by omega), hmod]
  exact uvmunmapLoop_wp htree rfl hmax hfree

/-! ### Page tables refine maps -/

theorem mappages_size {size : ℕ} {r : ℤ} (h : (mappages root va size pa perm).run s = .ok (r, s')) :
    size % PGSIZE = 0 := by
  by_contra hsize
  rw [mappages] at h
  by_cases hva : va % PGSIZE ≠ 0
  · rw [if_pos hva] at h
    cases h
  · rw [if_neg hva, if_pos hsize] at h
    cases h

/-- The operations on a page table whose pages form a tree without sharing, read as a
partial map from virtual page numbers to physical pages and flags. A `mappages` that
returns 0 has added its bindings, for pages that had none, and one that returns -1 the
first `k` of them; `uvmunmap` has removed its bindings, which were there; the entry that
`walk` finds without allocation is the binding; and all keep the tree, also a `walk` that
finds no free page. `perm` is a set of flags. What `uvmunmap` frees must not be a page of
the table itself. -/
theorem page_tables_refine_maps (hok : Ok s root) :
    (∀ va size pa perm r s', va % PGSIZE = 0 → 0 < size → va + size ≤ MAXVA → pa < 2 ^ 64 →
      perm < 2 ^ 10 → (mappages root va size pa perm).run s = .ok (r, s') →
      Ok s' root ∧
      ∃ k, (∀ w, va / PGSIZE ≤ w → w < va / PGSIZE + k → view s root w = none) ∧
        view s' root = addRun (view s root) (va / PGSIZE) k pa (perm ||| PTE_V) ∧
        (r = 0 ∧ k = size / PGSIZE ∨ r = -1 ∧ k < size / PGSIZE)) ∧
    (∀ va npages doFree s', va % PGSIZE = 0 → va + npages * PGSIZE ≤ MAXVA →
      (doFree = true → ∀ w b, va / PGSIZE ≤ w → w < va / PGSIZE + npages →
        view s root w = some b → ¬IsTable s root b.1) →
      (uvmunmap root va npages doFree).run s = .ok ((), s') →
      Tree s' root ∧ (∀ w, va / PGSIZE ≤ w → w < va / PGSIZE + npages → view s root w ≠ none) ∧
        view s' root = dropRun (view s root) (va / PGSIZE) npages) ∧
    (∀ va < MAXVA, ∃ e, (walk root va false).run s = .ok (e, s) ∧
      (e.bind fun e => binding (s.word e.1 e.2)) = view s root (va / PGSIZE)) ∧
    (∀ va < MAXVA, ∃ e s', (walk root va true).run s = .ok (e, s') ∧ Ok s' root ∧
      view s' root = view s root) := by
  refine ⟨?_, ?_, ?_, ?_⟩
  · intro va size pa perm r s' hva hpos hmax hpa hperm hrun
    have h := (mappages_wp hok hva (mappages_size hrun) hpos hmax hpa hperm).ok hrun
    rcases h with ⟨rfl, hm⟩ | ⟨rfl, k, hk, hm⟩
    · exact ⟨hm.ok, _, hm.unbound, hm.view_eq, .inl ⟨rfl, rfl⟩⟩
    · exact ⟨hm.ok, k, hm.unbound, hm.view_eq, .inr ⟨rfl, hk⟩⟩
  · intro va npages doFree s' hva hmax hfree hrun
    have h := (uvmunmap_wp hok.tree hva hmax hfree).ok hrun
    exact ⟨h.tree, h.bound, h.view_eq⟩
  · intro va hva
    refine ⟨_, walk_find hva, ?_⟩
    rw [view_div hva, Option.bind_map]
    rfl
  · intro va hva
    obtain ⟨e, s', hrun, hw⟩ := (walk_alloc hok hva).returned (fun _ h => h)
    exact ⟨e, s', hrun, hw.ok, hw.view_eq⟩

def emptyTable : Ram where
  word _ _ := 0
  freelist := [0x80002000, 0x80003000, 0x80004000]
  kend := 0x80001000

theorem emptyTable_ok : Ok emptyTable 0x80001000 := by
  have hroot : ∀ p n, descend (child emptyTable) 0x80001000 p = some n → p = [] := by
    intro p n h
    cases p with
    | nil => rfl
    | cons i p =>
      have hnone : child emptyTable 0x80001000 i = none := if_neg (by simp [emptyTable])
      rw [descend, hnone] at h
      cases h
  refine ⟨fun p q n _ _ hp hq => (hroot p n hp).trans (hroot q n hq).symm, ?_⟩
  refine ⟨by decide, by decide, by decide, ?_⟩
  rintro m hm ⟨p, -, hp⟩
  obtain rfl := hroot p m hp
  cases hp
  revert hm
  decide

theorem page_tables_refine_maps_onePage : ∃ s',
    (mappages 0x80001000 0x5000 0x1000 0x80004000 (PTE_R ||| PTE_U)).run emptyTable = .ok (0, s') ∧
      view s' 0x80001000 5 = some (0x80004000, PTE_R ||| PTE_U ||| PTE_V) ∧
      view s' 0x80001000 6 = none := by
  have hrun : ∃ r s', (mappages 0x80001000 0x5000 0x1000 0x80004000 (PTE_R ||| PTE_U)).run
      emptyTable = .ok (r, s') ∧ decide (r = 0) = true :=
    exists_of_returns (p := fun r _ => decide (r = 0)) (by decide +kernel)
  obtain ⟨r, s', hrun, hr⟩ := hrun
  obtain rfl := of_decide_eq_true hr
  obtain ⟨-, k, -, hview, hk⟩ := (page_tables_refine_maps emptyTable_ok).1 0x5000 0x1000
    0x80004000 (PTE_R ||| PTE_U) 0 s' (by decide) (by decide) (by decide) (by decide) (by decide)
    hrun
  obtain ⟨-, rfl⟩ | ⟨hneg, -⟩ := hk
  swap
  · cases hneg
  refine ⟨s', hrun, ?_, ?_⟩
  · rw [hview]
    decide +kernel
  · rw [hview]
    decide +kernel

end Xv6.Vm
