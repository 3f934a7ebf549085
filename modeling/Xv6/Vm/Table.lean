import Xv6.Lib.Radix
import Xv6.Lib.Wp
import Xv6.Param

/-!
Page tables: `walk`, `mappages` and `uvmunmap` of `kernel/vm.c`, over the page allocator
of `kernel/kalloc.c`.

Physical memory is a map from the addresses of pages to their 512 words. The links of the
free list, which lie in the first word of each free page, are given as a list of
addresses; nothing else reads the content of a free page. A page table is read as a
partial map from virtual page numbers to the physical page and the flags of the entry
(`view`). Its pages are the nodes of a radix tree of depth two. Where no page is shared
(`Tree`), hanging a new page into an empty entry is not seen in the map, and a store to a
leaf entry changes the map at one page number.
-/

namespace Xv6.Vm

open Function (update update_self update_of_ne)

/-! ### `kernel/riscv.h` and `kernel/memlayout.h` -/

abbrev PTE_V : ℕ := 1
abbrev PTE_R : ℕ := 2
abbrev PTE_W : ℕ := 4
abbrev PTE_X : ℕ := 8
abbrev PTE_U : ℕ := 16

abbrev PHYSTOP : ℕ := 0x80000000 + 128 * 1024 * 1024

def PA2PTE (pa : ℕ) : ℕ := pa >>> 12 <<< 10

def PTE2PA (pte : ℕ) : ℕ := (pte >>> 10 <<< 12) % 2 ^ 64

def PTE_FLAGS (pte : ℕ) : ℕ := pte &&& 0x3FF

def PX (level va : ℕ) : Fin 512 :=
  ⟨va >>> (12 + 9 * level) &&& 0x1FF, Nat.lt_succ_of_le Nat.and_le_right⟩

/-! ### Physical memory -/

/-- The pages by address, the free list, and `end`, the first address after the
kernel. -/
structure Ram where
  word : ℕ → Fin 512 → ℕ
  freelist : List ℕ
  kend : ℕ

/-- The panics, by function and cause. The last three are no panics of the source:
a page table deeper than its levels, the store of `exec` behind its array `ustack`, and
a loop that goes on after the turns it has in the model. -/
inductive Panic
  | kfree
  | walk
  | mappagesVa
  | mappagesSizeAlign
  | mappagesSize
  | remap
  | unmapAlign
  | unmapWalk
  | notMapped
  | notLeaf
  | freewalkLeaf
  | uvmcopyPte
  | uvmcopyPresent
  | uvmclear
  | loadseg
  | depth
  | ustack
  | turns
  deriving DecidableEq

abbrev M := StateT Ram (Except Panic)

/-- `memset` of a whole page; `c` is eight times the byte. -/
def Ram.memset (s : Ram) (page c : ℕ) : Ram :=
  { s with word := update s.word page fun _ => c }

def Ram.setPte (s : Ram) (t : ℕ) (i : Fin 512) (x : ℕ) : Ram :=
  { s with word := update s.word t (update (s.word t) i x) }

def kalloc : M (Option ℕ) := do
  let s ← get
  match s.freelist with
  | [] => pure none
  | r :: rest =>
    set { s.memset r 0x0505050505050505 with freelist := rest }
    pure (some r)

def kfree (pa : ℕ) : M Unit := do
  let s ← get
  if pa % PGSIZE ≠ 0 ∨ pa < s.kend ∨ pa ≥ PHYSTOP then throw .kfree
  set { s.memset pa 0x0101010101010101 with freelist := pa :: s.freelist }

/-! ### `kernel/vm.c` -/

/-- The loop of `walk`, at `pagetable` with `level` levels to go: the page and the
index of the entry of `va`. -/
def walkLoop (va : ℕ) (alloc : Bool) : (level pagetable : ℕ) → M (Option (ℕ × Fin 512))
  | 0, pagetable => pure (some (pagetable, PX 0 va))
  | level + 1, pagetable => do
      let pte := (← get).word pagetable (PX (level + 1) va)
      if pte &&& PTE_V ≠ 0 then walkLoop va alloc level (PTE2PA pte)
      else if alloc then
        match ← kalloc with
        | none => pure none
        | some page =>
          modify (·.memset page 0)
          modify (·.setPte pagetable (PX (level + 1) va) (PA2PTE page ||| PTE_V))
          walkLoop va alloc level page
      else pure none

def walk (pagetable va : ℕ) (alloc : Bool) : M (Option (ℕ × Fin 512)) := do
  if va ≥ MAXVA then throw .walk
  walkLoop va alloc 2 pagetable

/-- The loop of `mappages`. It ends in the turn for `last`, at the latest after as many
turns as there are pages. -/
def mappagesLoop (pagetable last perm : ℕ) : (turns a pa : ℕ) → M ℤ
  | 0, _, _ => pure 0
  | turns + 1, a, pa => do
      match ← walk pagetable a true with
      | none => pure (-1)
      | some (t, i) =>
        if (← get).word t i &&& PTE_V ≠ 0 then throw .remap
        modify (·.setPte t i (PA2PTE pa ||| perm ||| PTE_V))
        if a = last then pure 0
        else mappagesLoop pagetable last perm turns (a + PGSIZE) ((pa + PGSIZE) % 2 ^ 64)

def mappages (pagetable va size pa perm : ℕ) : M ℤ := do
  if va % PGSIZE ≠ 0 then throw .mappagesVa
  if size % PGSIZE ≠ 0 then throw .mappagesSizeAlign
  if size = 0 then throw .mappagesSize
  mappagesLoop pagetable ((va + size - PGSIZE) % 2 ^ 64) perm (size / PGSIZE) va pa

def uvmunmapLoop (pagetable stop : ℕ) (doFree : Bool) : (turns a : ℕ) → M Unit
  | 0, _ => pure ()
  | turns + 1, a =>
    if a < stop then do
      match ← walk pagetable a false with
      | none => throw .unmapWalk
      | some (t, i) =>
        let pte := (← get).word t i
        if pte &&& PTE_V = 0 then throw .notMapped
        if PTE_FLAGS pte = PTE_V then throw .notLeaf
        if doFree then kfree (PTE2PA pte)
        modify (·.setPte t i 0)
        uvmunmapLoop pagetable stop doFree turns (a + PGSIZE)
    else pure ()

def uvmunmap (pagetable va npages : ℕ) (doFree : Bool) : M Unit := do
  if va % PGSIZE ≠ 0 then throw .unmapAlign
  uvmunmapLoop pagetable ((va + npages * PGSIZE) % 2 ^ 64) doFree npages va

/-! ### A page table as a map -/

def child (s : Ram) (t : ℕ) (i : Fin 512) : Option ℕ :=
  if s.word t i &&& PTE_V ≠ 0 then some (PTE2PA (s.word t i)) else none

def path (va : ℕ) : (level : ℕ) → List (Fin 512)
  | 0 => []
  | level + 1 => PX (level + 1) va :: path va level

def table (s : Ram) (root va : ℕ) : Option ℕ := descend (child s) root (path va 2)

def binding (pte : ℕ) : Option (ℕ × ℕ) :=
  if pte &&& PTE_V ≠ 0 then some (PTE2PA pte, PTE_FLAGS pte) else none

def view (s : Ram) (root v : ℕ) : Option (ℕ × ℕ) :=
  if v < MAXVA / PGSIZE then
    (table s root (v * PGSIZE)).bind fun t => binding (s.word t (PX 0 (v * PGSIZE)))
  else none

def Tree (s : Ram) (root : ℕ) : Prop := NoSharing (child s) root 2

def IsTable (s : Ram) (root t : ℕ) : Prop :=
  ∃ p, p.length ≤ 2 ∧ descend (child s) root p = some t

/-- What `kalloc` gives out is no page of the table. -/
structure Avail (s : Ram) (root : ℕ) : Prop where
  nodup : s.freelist.Nodup
  aligned : ∀ m ∈ s.freelist, m % PGSIZE = 0
  lt : ∀ m ∈ s.freelist, m < 2 ^ 64
  apart : ∀ m ∈ s.freelist, ¬IsTable s root m

/-! ### Arithmetic of the entries -/

theorem PX_val (level va : ℕ) : (PX level va).val = va / 2 ^ (12 + 9 * level) % 512 := by
  show va >>> (12 + 9 * level) &&& (2 ^ 9 - 1) = _
  rw [Nat.and_two_pow_sub_one_eq_mod, Nat.shiftRight_eq_div_pow]

theorem div_eq_of_PX {va va' : ℕ} (hva : va < MAXVA) (hva' : va' < MAXVA) (h2 : PX 2 va = PX 2 va')
    (h1 : PX 1 va = PX 1 va') (h0 : PX 0 va = PX 0 va') : va / PGSIZE = va' / PGSIZE := by
  have e2 := congrArg Fin.val h2
  have e1 := congrArg Fin.val h1
  have e0 := congrArg Fin.val h0
  simp only [PX_val] at e2 e1 e0
  norm_num at e2 e1 e0 hva hva' ⊢
  omega

theorem PX_page (level va : ℕ) : PX level (va / PGSIZE * PGSIZE) = PX level va := by
  apply Fin.ext
  rw [PX_val, PX_val, pow_add, ← Nat.div_div_eq_div_mul, ← Nat.div_div_eq_div_mul]
  norm_num

theorem entry_eq {pa flags : ℕ} (hf : flags < 2 ^ 10) :
    PA2PTE pa ||| flags = pa / 2 ^ 12 * 2 ^ 10 + flags := by
  rw [PA2PTE, ← Nat.shiftLeft_add_eq_or_of_lt hf, Nat.shiftRight_eq_div_pow, Nat.shiftLeft_eq]

theorem PTE2PA_entry {pa flags : ℕ} (hpa : pa < 2 ^ 64) (hf : flags < 2 ^ 10) :
    PTE2PA (PA2PTE pa ||| flags) = PGROUNDDOWN pa := by
  rw [entry_eq hf, PTE2PA, Nat.shiftRight_eq_div_pow, Nat.shiftLeft_eq, PGROUNDDOWN]
  norm_num at hpa hf ⊢
  omega

theorem PTE_FLAGS_entry {pa flags : ℕ} (hf : flags < 2 ^ 10) :
    PTE_FLAGS (PA2PTE pa ||| flags) = flags := by
  rw [entry_eq hf]
  show (pa / 2 ^ 12 * 2 ^ 10 + flags) &&& (2 ^ 10 - 1) = flags
  rw [Nat.and_two_pow_sub_one_eq_mod]
  norm_num at hf ⊢
  omega

theorem entry_valid (x : ℕ) : (x ||| PTE_V) &&& PTE_V ≠ 0 := by
  rw [Nat.and_or_distrib_right, Nat.and_self]
  intro h
  exact absurd (Nat.or_eq_zero_iff.mp h).2 (by decide)

theorem or_PTE_V_lt {perm : ℕ} (h : perm < 2 ^ 10) : perm ||| PTE_V < 2 ^ 10 :=
  Nat.or_lt_two_pow h (by decide)

theorem flags_and {pte f : ℕ} (hf : f &&& 0x3FF = f) : PTE_FLAGS pte &&& f = pte &&& f := by
  rw [PTE_FLAGS, Nat.and_assoc, Nat.and_comm 0x3FF f, hf]

theorem binding_entry {pa perm : ℕ} (hpa : pa < 2 ^ 64) (hperm : perm < 2 ^ 10) :
    binding (PA2PTE pa ||| perm ||| PTE_V) = some (PGROUNDDOWN pa, perm ||| PTE_V) := by
  rw [binding, if_pos (entry_valid _), Nat.or_assoc, PTE2PA_entry hpa (or_PTE_V_lt hperm),
    PTE_FLAGS_entry (or_PTE_V_lt hperm)]

@[simp] theorem binding_zero : binding 0 = none := rfl

/-! ### Stores to page-table pages -/

section Store

variable {s s' : Ram} {root va t m x y : ℕ} {i j : Fin 512} {p : List (Fin 512)}

@[simp] theorem setPte_word :
    (s.setPte t i x).word m j = if m = t ∧ j = i then x else s.word m j := by
  by_cases hm : m = t
  · subst hm
    by_cases hj : j = i
    · subst hj
      simp [Ram.setPte]
    · simp [Ram.setPte, hj]
  · simp [Ram.setPte, hm]

@[simp] theorem setPte_freelist : (s.setPte t i x).freelist = s.freelist := rfl

@[simp] theorem setPte_kend : (s.setPte t i x).kend = s.kend := rfl

@[simp] theorem memset_word : (s.memset t x).word m j = if m = t then x else s.word m j := by
  by_cases hm : m = t
  · subst hm
    simp [Ram.memset]
  · simp [Ram.memset, hm]

theorem child_congr (h : s'.word t = s.word t) : child s' t = child s t := by
  ext1 i
  rw [child, child, h]

theorem length_path (va level : ℕ) : (path va level).length = level := by
  induction level with
  | zero => rfl
  | succ level ih => rw [path, List.length_cons, ih]

theorem table_page (s : Ram) (root va : ℕ) :
    table s root (va / PGSIZE * PGSIZE) = table s root va := by
  simp only [table, path, PX_page]

theorem view_div (hva : va < MAXVA) : view s root (va / PGSIZE) =
    (table s root va).bind fun t => binding (s.word t (PX 0 va)) := by
  have hlt : va / PGSIZE < MAXVA / PGSIZE := by
    norm_num at hva ⊢
    omega
  rw [view, if_pos hlt, table_page, PX_page]

theorem IsTable.of_table (h : table s root va = some t) : IsTable s root t :=
  ⟨path va 2, (length_path va 2).le, h⟩

/-- Only the pages of the table are read. -/
structure Agree (s s' : Ram) (root : ℕ) : Prop where
  word : ∀ t, IsTable s root t → s'.word t = s.word t

namespace Agree

variable (h : Agree s s' root)
include h

theorem descend_eq (hp : p.length ≤ 2) : descend (child s') root p = descend (child s) root p := by
  refine descend_congr (fun q n hq hn => ?_) hp
  exact child_congr (h.word n ⟨q, hq.le, hn⟩)

theorem isTable : IsTable s' root t ↔ IsTable s root t := by
  constructor
  · rintro ⟨p, hp, ht⟩
    exact ⟨p, hp, h.descend_eq hp ▸ ht⟩
  · rintro ⟨p, hp, ht⟩
    exact ⟨p, hp, (h.descend_eq hp).trans ht⟩

theorem tree (htree : Tree s root) : Tree s' root :=
  NoSharing.congr htree fun q n hq hn => child_congr (h.word n ⟨q, hq.le, hn⟩)

theorem table_eq : table s' root va = table s root va :=
  h.descend_eq (length_path va 2).le

theorem view_eq : view s' root = view s root := by
  ext1 v
  rw [view, view, h.table_eq]
  split
  · cases ht : table s root (v * PGSIZE) with
    | none => rfl
    | some t => rw [Option.bind_some, Option.bind_some, h.word t (.of_table ht)]
  · rfl

end Agree

theorem Tree.table_ne (htree : Tree s root) (ht : table s root va = some t)
    (hp : p.length < 2) (hm : descend (child s) root p = some m) : m ≠ t := by
  rintro rfl
  have := htree p (path va 2) m hp.le (length_path va 2).le hm ht
  rw [this, length_path] at hp
  omega

section Leaf

variable (htree : Tree s root) (ht : table s root va = some t)

include htree ht

theorem descend_setPte (hp : p.length ≤ 2) :
    descend (child (s.setPte t i x)) root p = descend (child s) root p := by
  refine descend_congr (fun q n hq hn => ?_) hp
  apply child_congr
  ext1 j
  rw [setPte_word, if_neg]
  intro h
  exact htree.table_ne ht hq hn h.1

theorem Tree.setPte : Tree (s.setPte t i x) root := by
  intro p q n hp hq hpn hqn
  rw [descend_setPte htree ht hp] at hpn
  rw [descend_setPte htree ht hq] at hqn
  exact htree p q n hp hq hpn hqn

theorem isTable_setPte : IsTable (s.setPte t i x) root m ↔ IsTable s root m := by
  constructor
  · rintro ⟨p, hp, hm⟩
    exact ⟨p, hp, descend_setPte htree ht hp ▸ hm⟩
  · rintro ⟨p, hp, hm⟩
    exact ⟨p, hp, (descend_setPte htree ht hp).trans hm⟩

theorem Avail.setPte (h : Avail s root) : Avail (s.setPte t i x) root where
  nodup := h.nodup
  aligned := h.aligned
  lt := h.lt
  apart m hm := fun hm' => h.apart m hm ((isTable_setPte htree ht).mp hm')

theorem view_setPte (hva : va < MAXVA) : view (s.setPte t (PX 0 va) x) root =
    update (view s root) (va / PGSIZE) (binding x) := by
  ext1 v
  have htab : table (s.setPte t (PX 0 va) x) root (v * PGSIZE) = table s root (v * PGSIZE) :=
    descend_setPte htree ht (length_path _ 2).le
  by_cases hv : v < MAXVA / PGSIZE
  · have hlt : v * PGSIZE < MAXVA := by
      norm_num at hv ⊢
      omega
    rw [view, if_pos hv, htab]
    by_cases heq : v = va / PGSIZE
    · grind [table_page, PX_page, setPte_word]
    · rw [update_of_ne heq, view, if_pos hv]
      cases ht' : table s root (v * PGSIZE) with
      | none => rfl
      | some t' =>
        rw [Option.bind_some, Option.bind_some, setPte_word, if_neg]
        rintro ⟨rfl, h0⟩
        -- the entry of another page number is another entry
        have hp := htree _ _ _ (length_path _ 2).le (length_path _ 2).le ht' ht
        simp only [path, List.cons.injEq] at hp
        have := div_eq_of_PX hlt hva hp.1 hp.2.1 h0
        rw [Nat.mul_div_cancel _ (by decide)] at this
        exact heq this
  · grind [view]

end Leaf

end Store

end Xv6.Vm
