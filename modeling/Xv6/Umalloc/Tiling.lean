import Xv6.Umalloc.Basic

/-!
The blocks of the heap.

The memory that was obtained from `sbrk` is cut into blocks, one behind the other
(`Tiles`), each free or in use for a request of some number of bytes. The heap is in order
(`Inv`) if the headers tell the sizes of the blocks, the free list goes from `base`
through the free ones in the order of their addresses, and no two free blocks are
neighbours.
-/

namespace Xv6.Umalloc

open List

/-- A block of `units` headers; `use` is the request it was returned for. -/
structure Blk where
  addr : ℕ
  units : ℕ
  use : Option ℕ
  deriving DecidableEq

def Blk.top (x : Blk) : ℕ := x.addr + 16 * x.units

/-- The blocks fill the memory from `a` to `b`. -/
def Tiles : ℕ → List Blk → ℕ → Prop
  | a, [], b => a = b
  | a, x :: B, b => x.addr = a ∧ 0 < x.units ∧ Tiles x.top B b

def frees (B : List Blk) : List ℕ := (B.filter (·.use = none)).map Blk.addr

def used (B : List Blk) : List Blk := B.filter (·.use ≠ none)

/-- One of two neighbours is in use. -/
def Apart (B : List Blk) : Prop := B.IsChain fun x y => x.use ≠ none ∨ y.use ≠ none

section

variable {A B : List Blk} {x y : Blk} {a b m : ℕ}

theorem tiles_append : Tiles a (A ++ B) b ↔ ∃ m, Tiles a A m ∧ Tiles m B b := by
  induction A generalizing a with
  | nil => simp [Tiles]
  | cons x A ih => simp only [cons_append, Tiles, ih, exists_and_left, and_assoc]

section

variable (h : Tiles a B b)
include h

theorem Tiles.le : a ≤ b := by
  induction B generalizing a with
  | nil => exact h.le
  | cons x B ih =>
    obtain ⟨rfl, -, h⟩ := h
    have := ih h
    rw [Blk.top] at this
    omega

theorem Tiles.mem (hx : x ∈ B) : a ≤ x.addr ∧ 0 < x.units ∧ x.top ≤ b := by
  obtain ⟨A, C, rfl⟩ := append_of_mem hx
  obtain ⟨m, hA, rfl, hpos, hC⟩ := tiles_append.mp h
  exact ⟨hA.le, hpos, hC.le⟩

theorem Tiles.pairwise : B.Pairwise fun x y => x.top ≤ y.addr := by
  induction B generalizing a with
  | nil => exact Pairwise.nil
  | cons x B ih =>
    refine Pairwise.cons (fun y hy => ?_) (ih h.2.2)
    exact (h.2.2.mem hy).1

theorem Tiles.disjoint (hx : x ∈ B) (hy : y ∈ B) (hne : x ≠ y) :
    x.top ≤ y.addr ∨ y.top ≤ x.addr := by
  have hpw : B.Pairwise fun x y => x.top ≤ y.addr ∨ y.top ≤ x.addr :=
    h.pairwise.imp fun hle => .inl hle
  have hsymm : Std.Symm fun x y : Blk => x.top ≤ y.addr ∨ y.top ≤ x.addr := ⟨fun _ _ => Or.symm⟩
  exact hpw.forall hx hy hne

theorem Tiles.addr_inj (hx : x ∈ B) (hy : y ∈ B) (hxy : x.addr = y.addr) : x = y := by
  by_contra hne
  have hxpos := (h.mem hx).2.1
  have hypos := (h.mem hy).2.1
  have hdisj := h.disjoint hx hy hne
  simp only [Blk.top] at hdisj
  omega

theorem Tiles.aligned (ha : 16 ∣ a) (hx : x ∈ B) : 16 ∣ x.addr := by
  induction B generalizing a with
  | nil => cases hx
  | cons y B ih =>
    obtain ⟨rfl, -, hB⟩ := h
    rcases mem_cons.mp hx with rfl | hx
    · exact ha
    · exact ih hB (Nat.dvd_add ha (Nat.dvd_mul_right 16 _)) hx

end

@[simp] theorem frees_append : frees (A ++ B) = frees A ++ frees B := by
  simp [frees]

theorem frees_free (h : x.use = none) : frees (x :: B) = x.addr :: frees B := by
  simp [frees, h]

theorem frees_used (h : x.use ≠ none) : frees (x :: B) = frees B := by
  simp [frees, h]

@[simp] theorem used_append : used (A ++ B) = used A ++ used B := by
  simp [used]

theorem used_free (h : x.use = none) : used (x :: B) = used B := by
  simp [used, h]

theorem used_used (h : x.use ≠ none) : used (x :: B) = x :: used B := by
  simp [used, h]

theorem mem_frees {p : ℕ} : p ∈ frees B ↔ ∃ x ∈ B, x.use = none ∧ x.addr = p := by
  simp only [frees, mem_map, mem_filter, decide_eq_true_eq, and_assoc]

theorem mem_used : x ∈ used B ↔ x ∈ B ∧ x.use ≠ none := by
  simp [used]

theorem Tiles.frees_sorted (h : Tiles a B b) {base : ℕ} (hbase : base < a) :
    (base :: frees B).Pairwise (· < ·) := by
  refine Pairwise.cons (fun p hp => ?_) ?_
  · obtain ⟨x, hx, -, rfl⟩ := mem_frees.mp hp
    exact hbase.trans_le (h.mem hx).1
  · rw [frees, pairwise_map]
    refine (Pairwise.and_mem.mp h.pairwise).filter _ |>.imp ?_
    rintro x y ⟨hx, -, hle⟩
    have := (h.mem hx).2.1
    rw [Blk.top] at hle
    omega

theorem Tiles.frees_nodup (h : Tiles a B b) {base : ℕ} (hbase : base < a) :
    (base :: frees B).Nodup := (h.frees_sorted hbase).imp ne_of_lt

theorem Tiles.length_le (h : Tiles a B b) : a + 16 * B.length ≤ b := by
  induction B generalizing a with
  | nil =>
    have : a = b := h
    simp [this]
  | cons x B ih =>
    obtain ⟨rfl, hpos, hB⟩ := h
    have := ih hB
    rw [Blk.top] at this
    rw [length_cons]
    omega

theorem length_frees_le : (frees B).length ≤ B.length := by
  rw [frees, length_map]
  exact length_filter_le _ _

end

def spare (o : Option Blk) : ℕ := o.elim 0 fun x => if x.use = none then x.units else 0

theorem Tiles.spare_le {a b : ℕ} {B : List Blk} (h : Tiles a B b) {o : Option Blk}
    (ho : ∀ x ∈ o, x ∈ B) : a + 16 * spare o ≤ b := by
  cases o with
  | none => exact h.le
  | some x =>
    obtain ⟨hlo, -, hhi⟩ := h.mem (ho x rfl)
    show a + 16 * (if x.use = none then x.units else 0) ≤ b
    rw [Blk.top] at hhi
    split_ifs <;> omega

/-- The heap is cut into the blocks `B`; `start` is where it begins. -/
structure Inv (base start : ℕ) (h : Heap) (B : List Blk) : Prop where
  tiles : Tiles start B h.brk
  sizes : ∀ x ∈ B, h.size x.addr = x.units
  apart : Apart B
  ring : Linked h.ptr base (frees B) base
  freep : h.freep ∈ base :: frees B
  baseSize : h.size base = 0
  below : base + 16 ≤ start

namespace Inv

variable {base start : ℕ} {h : Heap} {B : List Blk} {x : Blk}

theorem length_lt (hI : Inv base start h B) : (frees B).length + 1 ≤ h.brk + 8 := by
  have h₁ := hI.tiles.length_le
  have h₂ := @length_frees_le B
  omega

end Inv

end Xv6.Umalloc
