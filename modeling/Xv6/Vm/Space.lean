import Xv6.Lib.Own
import Xv6.Vm.Map
import Xv6.Vm.Uvm

/-!
Who owns a physical page.

Every page is on the free list, or a page of one page table, or the page behind one page
number of one page table, or has another use that page tables know nothing of. The owner
is not stored anywhere; `Heap` says that it agrees with the free list, and `Space` that it
agrees with a page table. Two page tables have no page in common, and what is done for one
of them is not seen by another (`Space.frame`). The memory of a user lies below
`TRAPFRAME`; the two pages above belong to others.
-/

namespace Xv6.Vm

open Function (update update_self update_of_ne)

inductive Owner
  /-- on the free list -/
  | free
  /-- in the hands of the function that is running -/
  | held
  /-- a page of the page table -/
  | table (root : ℕ)
  /-- the page behind page number `v` of the page table -/
  | data (root v : ℕ)
  /-- in another use, such as a trapframe or a pipe -/
  | other (k : ℕ)
  /-- not a page that the allocator manages -/
  | outside
  deriving DecidableEq

namespace Owner

def root : Owner → Option ℕ
  | table r | data r _ => some r
  | _ => none

/-- The free pages, those of the table at `r`, and those behind its page numbers in `V`. -/
def Within (r : ℕ) (V : Set ℕ) : Owner → Prop
  | free => True
  | table q => q = r
  | data q v => q = r ∧ v ∈ V
  | _ => False

theorem Within.cases {o : Owner} (h : o.Within r V) :
    o = free ∨ o = table r ∨ ∃ v ∈ V, o = data r v := by
  cases o with
  | free => exact .inl rfl
  | table q => exact .inr (.inl (congrArg table h))
  | data q v =>
    obtain ⟨rfl, hv⟩ := h
    exact .inr (.inr ⟨v, hv, rfl⟩)
  | _ => exact h.elim

theorem Within.root {o : Owner} (h : o.Within r V) : o = free ∨ o.root = some r := by
  obtain rfl | rfl | ⟨v, -, rfl⟩ := h.cases
  · exact .inl rfl
  · exact .inr rfl
  · exact .inr rfl

end Owner

/-- The owners agree with the free list. -/
structure Heap (s : Ram) (own : ℕ → Owner) : Prop where
  nodup : s.freelist.Nodup
  free_iff : ∀ m, own m = .free ↔ m ∈ s.freelist
  outside_iff : ∀ m, own m = .outside ↔ ¬Managed s m
  kend_pos : 0 < s.kend

/-- The root of a page table belongs to it as long as any page does. -/
def Rooted (own : ℕ → Owner) : Prop := ∀ m r, (own m).root = some r → own r = .table r

abbrev UTOP : ℕ := TRAPFRAME / PGSIZE

/-- The page table at `r`: its pages and the pages behind it are its own. -/
structure Space (s : Ram) (own : ℕ → Owner) (r : ℕ) : Prop where
  tree : Tree s r
  inner : ∀ p t i, p.length < 2 → descend (child s) r p = some t → s.word t i &&& PTE_V ≠ 0 →
    s.word t i &&& (PTE_R ||| PTE_W ||| PTE_X) = 0
  low : ∀ i : Fin 512, 256 ≤ i.val → child s r i = none
  table_iff : ∀ m, own m = .table r ↔ IsTable s r m
  leaf : ∀ v b, view s r v = some b → b.2 &&& PTE_R ≠ 0
  user : ∀ v b, view s r v = some b → v < UTOP → own b.1 = .data r v
  top : ∀ v b, view s r v = some b → UTOP ≤ v → b.2 &&& PTE_U = 0
  mapped : ∀ m v, own m = .data r v → v < UTOP ∧ ∃ flags, view s r v = some (m, flags)

variable {s s' : Ram} {own own' : ℕ → Owner} {r q m v pa flags : ℕ} {V W : Set ℕ}

/-! ### The free list -/

def Ram.taken (s : Ram) (m : ℕ) (rest : List ℕ) : Ram :=
  { s.memset m 0x0505050505050505 with freelist := rest }

def Ram.freed (s : Ram) (m : ℕ) : Ram :=
  { s.memset m 0x0101010101010101 with freelist := m :: s.freelist }

theorem memset_word_ne {n x : ℕ} (h : n ≠ m) : (s.memset m x).word n = s.word n := by
  ext1 j
  rw [memset_word, if_neg h]

theorem copyPage_word_ne {n : ℕ} (h : n ≠ m) : (s.copyPage m pa).word n = s.word n :=
  update_of_ne h ..

theorem copyPage_word_self : (s.copyPage m pa).word m = s.word pa := update_self ..

theorem kalloc_wp {E : Panic → Prop} {Q : Option ℕ → Ram → Prop}
    (hnone : s.freelist = [] → Q none s)
    (hsome : ∀ m rest, s.freelist = m :: rest → Q (some m) (s.taken m rest)) : wp E kalloc Q s := by
  rw [kalloc, wp_bind, wp_get]
  cases h : s.freelist with
  | nil => exact hnone h
  | cons m rest => exact hsome m rest h

theorem kfree_run (h : Managed s m) : (kfree m).run s = .ok ((), s.freed m) := by
  obtain ⟨h₁, h₂, h₃⟩ := h
  have hok : ¬(m % PGSIZE ≠ 0 ∨ m < s.kend ∨ m ≥ PHYSTOP) := by omega
  rw [kfree]
  have hget : (get : M Ram).run s = .ok (s, s) := rfl
  rw [run_bind_of_ok hget, if_neg hok]
  rfl

namespace Heap

variable (h : Heap s own)
include h

theorem managed (hm : own m ≠ .outside) : Managed s m := by
  by_contra hno
  exact hm ((h.outside_iff m).mpr hno)

theorem of_eq (hfree : s'.freelist = s.freelist) (hkend : s'.kend = s.kend) : Heap s' own := by
  refine ⟨hfree ▸ h.nodup, fun m => ?_, fun m => ?_, hkend ▸ h.kend_pos⟩
  · rw [hfree]
    exact h.free_iff m
  · rw [Managed, hkend]
    exact h.outside_iff m

theorem reown {o : Owner} (hm : own m ≠ .free) (hm' : own m ≠ .outside)
    (ho : o ≠ .free) (ho' : o ≠ .outside) : Heap s (update own m o) := by
  refine ⟨h.nodup, fun n => ?_, fun n => ?_, h.kend_pos⟩
  · grind [h.free_iff]
  · grind [h.outside_iff]

theorem taken {rest : List ℕ} (hfree : s.freelist = m :: rest) {o : Owner}
    (ho : o ≠ .free) (ho' : o ≠ .outside) : Heap (s.taken m rest) (update own m o) := by
  have hown : own m = .free := by
    rw [h.free_iff, hfree]
    exact List.mem_cons_self
  obtain ⟨hnot, hnd⟩ := List.nodup_cons.mp (hfree ▸ h.nodup)
  refine ⟨hnd, fun n => ?_, fun n => ?_, h.kend_pos⟩
  · show _ ↔ n ∈ rest
    by_cases hn : n = m
    · grind
    · grind [h.free_iff]
  · show _ ↔ ¬Managed s n
    by_cases hn : n = m
    · grind [h.outside_iff]
    · rw [update_of_ne hn]
      exact h.outside_iff n

theorem freed (hm : own m ≠ .free) (hm' : own m ≠ .outside) :
    Heap (s.freed m) (update own m .free) := by
  refine ⟨List.nodup_cons.mpr ⟨fun hmem => hm ((h.free_iff m).mpr hmem), h.nodup⟩, fun n => ?_,
    fun n => ?_, h.kend_pos⟩
  · show _ ↔ n ∈ m :: s.freelist
    by_cases hn : n = m
    · subst hn
      simp
    · grind [h.free_iff]
  · show _ ↔ ¬Managed s n
    by_cases hn : n = m
    · grind [h.outside_iff]
    · rw [update_of_ne hn]
      exact h.outside_iff n

theorem own_free {rest : List ℕ} (hfree : s.freelist = m :: rest) : own m = .free := by
  rw [h.free_iff, hfree]
  exact List.mem_cons_self

theorem ne_zero (hm : own m ≠ .outside) : m ≠ 0 := by
  have := (h.managed hm).2.1
  have := h.kend_pos
  omega

theorem lt (hm : own m ≠ .outside) : m < 2 ^ 64 := by
  have := (h.managed hm).2.2
  norm_num at this ⊢
  omega

theorem round (hm : own m ≠ .outside) : PGROUNDDOWN m = m :=
  Nat.div_mul_cancel (Nat.dvd_of_mod_eq_zero (h.managed hm).1)

end Heap

theorem Space.ok (hs : Space s own r) (hh : Heap s own) : Ok s r := by
  have hman : ∀ m ∈ s.freelist, own m ≠ .outside := by grind [hh.free_iff]
  refine ⟨hs.tree, hh.nodup, fun m hm => (hh.managed (hman m hm)).1,
    fun m hm => hh.lt (hman m hm), fun m hm ht => ?_⟩
  have := (hs.table_iff m).mpr ht
  rw [(hh.free_iff m).mpr hm] at this
  cases this

/-! ### Other page tables -/

/-- Only free pages and pages of the table at `r` have changed, of the latter
those behind page numbers in `V`. -/
structure Touches (r : ℕ) (V : Set ℕ) (s s' : Ram) (own own' : ℕ → Owner) : Prop where
  pages : Changes (Owner.Within r V) s.word s'.word own own'
  kend_eq : s'.kend = s.kend

namespace Touches

protected theorem refl (r : ℕ) (V : Set ℕ) (s : Ram) (own : ℕ → Owner) :
    Touches r V s s own own := ⟨.refl .., rfl⟩

protected theorem trans {s₁ : Ram} {own₁ : ℕ → Owner} (h : Touches r V s s₁ own own₁)
    (h' : Touches r V s₁ s' own₁ own') : Touches r V s s' own own' :=
  ⟨h.pages.trans h'.pages, h'.kend_eq.trans h.kend_eq⟩

theorem data (h : Touches r V s s' own own') (hm : own m = .data q v) (hv : q = r → v ∉ V) :
    own' m = .data q v ∧ s'.word m = s.word m := by
  have hnot : ¬Owner.Within r V (.data q v) := fun hw => hv hw.1 hw.2
  exact ⟨(h.pages.owner_iff hnot).mpr hm, h.pages.cell_of_owner hnot hm⟩

theorem mono (h : Touches r V s s' own own') (hVW : V ⊆ W) : Touches r W s s' own own' := by
  refine ⟨h.pages.mono fun o ho => ?_, h.kend_eq⟩
  cases o with
  | data q v => exact ⟨ho.1, hVW ho.2⟩
  | _ => exact ho

end Touches

theorem Space.of_agree (hs : Space s own q) (h : Agree s s' q)
    (htable : ∀ n, own' n = .table q ↔ own n = .table q)
    (hdata : ∀ n v, own' n = .data q v ↔ own n = .data q v) : Space s' own' q := by
  have hview := h.view_eq
  refine ⟨h.tree hs.tree, ?_, ?_, ?_, ?_, ?_, ?_, ?_⟩
  · intro p t i hp ht hv
    rw [h.descend_eq hp.le] at ht
    rw [h.word t ⟨p, hp.le, ht⟩] at hv ⊢
    exact hs.inner p t i hp ht hv
  · intro i hi
    rw [child_congr (h.word q ⟨[], by decide, rfl⟩)]
    exact hs.low i hi
  · intro m
    rw [htable, hs.table_iff, h.isTable]
  · rw [hview]
    exact hs.leaf
  · intro v b hb hv
    rw [hview] at hb
    exact (hdata b.1 v).mpr (hs.user v b hb hv)
  · rw [hview]
    exact hs.top
  · intro m v hm
    rw [hview]
    exact hs.mapped m v ((hdata m v).mp hm)

theorem Space.of_agree_update (hs : Space s own q) (h : Agree s s' q) {o : Owner}
    (hm : (own m).root ≠ some q) (ho : o.root ≠ some q) : Space s' (update own m o) q := by
  have hsame : ∀ n o', Owner.root o' = some q → (update own m o n = o' ↔ own n = o') := by grind
  exact hs.of_agree h (fun n => hsame n _ rfl) fun n v => hsame n _ rfl

theorem Space.frame (hs : Space s own q) (h : Touches r V s s' own own') (hqr : q ≠ r) :
    Space s' own' q ∧ view s' q = view s q := by
  have htable : ¬Owner.Within r V (.table q) := hqr
  have hdata : ∀ v, ¬Owner.Within r V (.data q v) := fun v hv => hqr hv.1
  have hagree : Agree s s' q := ⟨fun t ht =>
    h.pages.cell_of_owner htable ((hs.table_iff t).mpr ht)⟩
  exact ⟨hs.of_agree hagree (fun _ => h.pages.owner_iff htable)
    fun _ v => h.pages.owner_iff (hdata v), hagree.view_eq⟩

/-! ### A page for the table -/

section Graft

variable {p : List (Fin 512)} {t : ℕ} {i : Fin 512} {rest : List ℕ} (hh : Heap s own)
  (hs : Space s own r) (hfree : s.freelist = m :: rest) (hp : p.length < 2)
  (ht : descend (child s) r p = some t) (hi : child s t i = none)

include hh hfree

theorem Heap.graft : Heap (s.graft t i m rest) (update own m (.table r)) :=
  (hh.taken hfree (by simp) (by simp)).of_eq rfl rfl

include hs hp ht

theorem touches_graft : Touches r V s (s.graft t i m rest) own (update own m (.table r)) := by
  have hm := hh.own_free hfree
  have ht' : own t = .table r := (hs.table_iff t).mpr ⟨p, hp.le, ht⟩
  refine ⟨⟨fun n hn => ?_, fun n hn => ?_, fun n hn => ?_⟩, rfl⟩
  · refine update_of_ne ?_ ..
    rintro rfl
    exact hn (hm ▸ trivial)
  · ext1 j
    rw [graft_word, if_neg, if_neg]
    · rintro rfl
      exact hn (hm ▸ trivial)
    · rintro ⟨rfl, -⟩
      rw [ht'] at hn
      exact hn rfl
  · grind [Owner.Within]

include hi

theorem isTable_graft {n : ℕ} : IsTable (s.graft t i m rest) r n ↔ n = m ∨ IsTable s r n := by
  have hok := hs.ok hh
  have hlen : (p ++ [i]).length ≤ 2 := by grind
  constructor
  · rintro ⟨q, hq, hn⟩
    rw [descend_graft_eq hok hfree hp ht hi hq] at hn
    split at hn
    · exact .inl (Option.some.inj hn).symm
    · exact .inr ⟨q, hq, hn⟩
  · rintro (rfl | ⟨q, hq, hn⟩)
    · grind [IsTable, descend_graft_eq]
    · refine ⟨q, hq, ?_⟩
      rw [descend_graft_eq hok hfree hp ht hi hq, if_neg, hn]
      rintro rfl
      rw [descend_concat, ht, Option.bind_some, hi] at hn
      cases hn

theorem Space.graft (hlow : p = [] → i.val < 256) :
    Space (s.graft t i m rest) (update own m (.table r)) r := by
  have hok := hs.ok hh
  have hm := hh.own_free hfree
  have hview := view_graft hok hfree hp ht hi
  have hne : ∀ n, own n ≠ .free → update own m (.table r) n = own n := fun n hn =>
    update_of_ne (fun h : n = m => hn (h ▸ hm)) ..
  refine ⟨(Ok.graft hok hfree hp ht hi).tree, ?_, ?_, ?_, ?_, ?_, ?_, ?_⟩
  · intro q t' j hq ht' hv
    rw [graft_word] at hv ⊢
    split
    · -- the new entry has no flag but `PTE_V`
      rw [← flags_and (by decide), PTE_FLAGS_entry (by decide)]
      decide
    · rename_i h
      rw [if_neg h] at hv
      split at hv
      · exact absurd (Nat.zero_and _) hv
      · rename_i hm'
        rw [if_neg hm']
        refine hs.inner q t' j hq ?_ hv
        rw [descend_graft_eq hok hfree hp ht hi hq.le] at ht'
        split at ht'
        · exact absurd (Option.some.inj ht').symm hm'
        · exact ht'
  · intro j hj
    rw [child_graft hok hfree, if_neg, if_neg]
    · exact hs.low j hj
    · rintro rfl
      have := (hs.table_iff r).mpr ⟨[], by decide, rfl⟩
      rw [hm] at this
      cases this
    · rintro ⟨rfl, rfl⟩
      have := hlow (hs.tree p [] r hp.le (by decide) ht rfl)
      omega
  · grind [isTable_graft, hs.table_iff]
  · rw [hview]
    exact hs.leaf
  · intro v b hb hv
    rw [hview] at hb
    have := hs.user v b hb hv
    rw [hne _ (by rw [this]; exact Owner.noConfusion), this]
  · rw [hview]
    exact hs.top
  · intro n v hn
    rw [hview]
    refine hs.mapped n v ?_
    by_cases h : n = m
    · rw [h, update_self] at hn
      cases hn
    · rwa [update_of_ne h] at hn

end Graft

/-! ### Entries -/

theorem Rooted.update (h : Rooted own) {o : Owner} (hm : own m ≠ .table m)
    (ho : ∀ r, o.root = some r → own r = .table r) : Rooted (Function.update own m o) := by
  have hroot : ∀ r, own r = .table r → Function.update own m o r = .table r := by grind
  intro n r hn
  apply hroot
  by_cases hnm : n = m
  · rw [hnm, update_self] at hn
    exact ho r hn
  · rw [update_of_ne hnm] at hn
    exact h n r hn

structure Mem (s : Ram) (own : ℕ → Owner) (r : ℕ) : Prop where
  heap : Heap s own
  rooted : Rooted own
  space : Space s own r

theorem Space.own_root (hs : Space s own r) : own r = .table r :=
  (hs.table_iff r).mpr ⟨[], by decide, rfl⟩

theorem Grafted.mem (h : Grafted r s s') (hm : Mem s own r) :
    ∃ own', Mem s' own' r ∧ Touches r V s s' own own' ∧ view s' r = view s r := by
  induction h generalizing own with
  | refl s => exact ⟨own, hm, .refl .., rfl⟩
  | @graft s s' p t m i rest hfree hp ht hi hlow _ ih =>
    obtain ⟨hh, hr, hs⟩ := hm
    have hown := hh.own_free hfree
    have hroot : Rooted (update own m (.table r)) := by grind [Rooted, hs.own_root]
    obtain ⟨own', hm', htouch, hview⟩ :=
      ih ⟨hh.graft hfree, hroot, Space.graft hh hs hfree hp ht hi hlow⟩
    exact ⟨own', hm', (touches_graft hh hs hfree hp ht).trans htouch,
      hview.trans (view_graft (hs.ok hh) hfree hp ht hi)⟩

section Leaf

variable {va t x : ℕ} (hs : Space s own r) (ht : table s r va = some t) (hva : va < MAXVA)

include hs ht

theorem touches_setPte {i : Fin 512} : Touches r V s (s.setPte t i x) own own := by
  refine ⟨.store fun n hn => ?_, rfl⟩
  ext1 j
  rw [setPte_word, if_neg]
  rintro ⟨rfl, -⟩
  rw [(hs.table_iff n).mpr (.of_table ht)] at hn
  exact hn rfl

include hva

theorem Space.setPte (hown : ∀ n, own' n = .table r ↔ own n = .table r)
    (hnew : ∀ b, binding x = some b → b.2 &&& PTE_R ≠ 0 ∧
      (va / PGSIZE < UTOP → own' b.1 = .data r (va / PGSIZE)) ∧
      (UTOP ≤ va / PGSIZE → b.2 &&& PTE_U = 0))
    (hother : ∀ n v, v ≠ va / PGSIZE → (own' n = .data r v ↔ own n = .data r v))
    (hself : ∀ n, own' n = .data r (va / PGSIZE) → va / PGSIZE < UTOP ∧
      ∃ flags, binding x = some (n, flags)) : Space (s.setPte t (PX 0 va) x) own' r := by
  have hview : view (s.setPte t (PX 0 va) x) r =
    update (view s r) (va / PGSIZE) (binding x) := view_setPte hs.tree ht hva
  have hcases : ∀ v b, view (s.setPte t (PX 0 va) x) r v = some b →
      v = va / PGSIZE ∧ binding x = some b ∨ v ≠ va / PGSIZE ∧ view s r v = some b := by
    grind [congrFun hview]
  refine ⟨hs.tree.setPte ht, ?_, ?_, ?_, ?_, ?_, ?_, ?_⟩
  · intro p t' i hp ht' hv
    rw [descend_setPte hs.tree ht hp.le] at ht'
    have hne : t' ≠ t := hs.tree.table_ne ht hp ht'
    rw [setPte_word, if_neg (fun h => hne h.1)] at hv ⊢
    exact hs.inner p t' i hp ht' hv
  · intro i hi
    have hne : r ≠ t := hs.tree.table_ne ht (p := []) (by decide) rfl
    have hword : (s.setPte t (PX 0 va) x).word r = s.word r := by grind [setPte_word]
    rw [child_congr hword]
    exact hs.low i hi
  · intro n
    rw [hown, hs.table_iff, isTable_setPte hs.tree ht]
  · grind [Space]
  · grind [Space]
  · grind [Space]
  · grind [Space, congrFun hview]

end Leaf

end Xv6.Vm
