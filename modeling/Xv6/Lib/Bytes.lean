import Mathlib

/-!
Fixed-size arrays of bytes and little-endian numbers in them.

`Bytes n` is an array of exactly `n` bytes, read at any natural offset (`get`, zero past
the end), cut into lists (`slice`) and overwritten by lists (`blit`). Two facts about
`blit` carry every later proof: what was just written reads back, and a slice that does
not meet the written range is unchanged. A file as a list of bytes is overwritten, and
extended, by `splice`.
-/

namespace Xv6

open List

abbrev Bytes (n : ℕ) := Fin n → UInt8

namespace Bytes

variable {n : ℕ}
variable {i len off : ℕ}

def get (b : Bytes n) (i : ℕ) : UInt8 := if h : i < n then b ⟨i, h⟩ else 0

def slice (b : Bytes n) (off len : ℕ) : List UInt8 :=
  (range len).map fun k => b.get (off + k)

def blit (b : Bytes n) (off : ℕ) (src : List UInt8) : Bytes n := fun i =>
  if off ≤ i.val ∧ i.val < off + src.length then src.getD (i.val - off) 0 else b i

@[ext] theorem ext_get {b c : Bytes n} (h : ∀ i < n, b.get i = c.get i) : b = c := by
  funext ⟨i, hi⟩
  simpa [get, hi] using h i hi

theorem get_blit (b : Bytes n) (off : ℕ) (src : List UInt8) (hi : i < n) :
    (b.blit off src).get i =
      if off ≤ i ∧ i < off + src.length then src.getD (i - off) 0 else b.get i := by
  simp [get, blit, hi]

theorem get_blit_of_mem (b : Bytes n) (src : List UInt8) (hi : i < n) (hlo : off ≤ i)
    (hhi : i < off + src.length) : (b.blit off src).get i = src.getD (i - off) 0 := by
  rw [get_blit b off src hi, if_pos ⟨hlo, hhi⟩]

theorem get_blit_of_notMem (b : Bytes n) (src : List UInt8) (h : i < off ∨ off + src.length ≤ i) :
    (b.blit off src).get i = b.get i := by
  by_cases hi : i < n
  · rw [get_blit b off src hi, if_neg (by omega)]
  · simp [get, hi]

@[simp] theorem length_slice (b : Bytes n) (off len : ℕ) : (b.slice off len).length = len := by
  simp [slice]

theorem getD_slice (b : Bytes n) {k : ℕ} (hk : k < len) :
    (b.slice off len).getD k 0 = b.get (off + k) := by
  simp [slice, getD_eq_getElem?_getD, hk]

theorem slice_congr {b c : Bytes n} (h : ∀ i, off ≤ i → i < off + len → b.get i = c.get i) :
    b.slice off len = c.slice off len := by
  refine map_congr_left fun k hk => ?_
  rw [mem_range] at hk
  exact h _ (by omega) (by omega)

theorem slice_blit_self (b : Bytes n) (src : List UInt8) (h : off + src.length ≤ n) :
    (b.blit off src).slice off src.length = src := by
  refine ext_getElem (by simp) fun k h₁ h₂ => ?_
  simp only [slice, getElem_map, getElem_range]
  rw [get_blit_of_mem b src (by omega) (by omega) (by omega)]
  simp [getD_eq_getElem?_getD, h₂]

theorem slice_blit_disjoint (b : Bytes n) {off' : ℕ} (src : List UInt8)
    (h : off' + len ≤ off ∨ off + src.length ≤ off') :
    (b.blit off src).slice off' len = b.slice off' len :=
  slice_congr fun _ h₁ h₂ => get_blit_of_notMem b src (by omega)

end Bytes

/-! ### Little-endian numbers -/

def leBytes : ℕ → ℕ → List UInt8
  | 0, _ => []
  | k + 1, v => UInt8.ofNat v :: leBytes k (v / 256)

def leNat : List UInt8 → ℕ
  | [] => 0
  | b :: bs => b.toNat + 256 * leNat bs

@[simp] theorem length_leBytes (k v : ℕ) : (leBytes k v).length = k := by
  induction k generalizing v with
  | zero => rfl
  | succ k ih => simp [leBytes, ih]

theorem leNat_lt (bs : List UInt8) : leNat bs < 256 ^ bs.length := by
  induction bs with
  | nil => simp [leNat]
  | cons b bs ih => grind [b.toNat_lt, leNat]

theorem leNat_leBytes (k v : ℕ) : leNat (leBytes k v) = v % 256 ^ k := by
  induction k generalizing v with
  | zero => simp [leBytes, leNat, Nat.mod_one]
  | succ k ih =>
    simp only [leBytes, leNat, ih]
    rw [pow_succ, Nat.mul_comm (256 ^ k) 256, Nat.mod_mul]
    simp

theorem leNat_zeros (k : ℕ) : leNat (replicate k 0) = 0 := by
  induction k with
  | zero => rfl
  | succ k ih => simp [replicate_succ, leNat, ih]

theorem take_drop_flatMap {α : Type} {k : ℕ} {f : ℕ → List α} (hf : ∀ i, (f i).length = k) :
    ∀ {m i : ℕ}, i < m → (((range m).flatMap f).drop (k * i)).take k = f i := by
  intro m
  induction m with
  | zero =>
    intro i hi
    omega
  | succ m ih =>
    intro i hi
    have hlen : ((range m).flatMap f).length = k * m := by
      simp [length_flatMap, hf, Nat.mul_comm]
    rw [range_succ, flatMap_append, flatMap_singleton]
    rcases Nat.lt_succ_iff_lt_or_eq.mp hi with hlt | rfl
    · grind
    · grind

namespace Bytes

variable {n : ℕ}
variable {k off : ℕ}

def getLe (b : Bytes n) (k off : ℕ) : ℕ := leNat (b.slice off k)

def putLe (b : Bytes n) (k off v : ℕ) : Bytes n := b.blit off (leBytes k v)

theorem getLe_lt (b : Bytes n) (k off : ℕ) : b.getLe k off < 256 ^ k := by
  simpa [getLe] using leNat_lt (b.slice off k)

theorem getLe_putLe_self (b : Bytes n) {v : ℕ} (h : off + k ≤ n) (hv : v < 256 ^ k) :
    (b.putLe k off v).getLe k off = v := by
  have hs := slice_blit_self b (leBytes k v) (by simpa using h : off + _ ≤ n)
  rw [length_leBytes] at hs
  rw [getLe, putLe, hs, leNat_leBytes, Nat.mod_eq_of_lt hv]

theorem getLe_putLe_disjoint (b : Bytes n) {k' off' : ℕ} (v : ℕ)
    (h : off' + k' ≤ off ∨ off + k ≤ off') : (b.putLe k off v).getLe k' off' = b.getLe k' off' := by
  rw [getLe, putLe, slice_blit_disjoint b _ (by simpa using h), getLe]

theorem getLe_blit (b : Bytes n) {x : ℕ} {src : List UInt8} (h : off + src.length ≤ n)
    (hx : x + k ≤ src.length) :
    (b.blit off src).getLe k (off + x) = leNat ((src.drop x).take k) := by
  have hs : (b.blit off src).slice (off + x) k = (src.drop x).take k := by
    refine ext_getElem (by simp; omega) fun j h₁ h₂ => ?_
    rw [length_slice] at h₁
    simp only [slice, getElem_map, getElem_range]
    rw [get_blit_of_mem b src (by omega) (by omega) (by omega)]
    have hlt : x + j < src.length := by omega
    rw [show off + x + j - off = x + j by omega, getElem_take, getElem_drop]
    simp [getD_eq_getElem?_getD, hlt]
  rw [getLe, hs]

theorem getLe_blit_disjoint (b : Bytes n) {off' : ℕ} {src : List UInt8}
    (h : off' + k ≤ off ∨ off + src.length ≤ off') :
    (b.blit off src).getLe k off' = b.getLe k off' := by
  rw [getLe, slice_blit_disjoint b _ h, getLe]

end Bytes

/-! ### Overwriting part of a list -/

section Splice

variable {α : Type}

/-- The list with the elements from `off` on replaced by `src`, which may reach
past its end. -/
def splice (l : List α) (off : ℕ) (src : List α) : List α :=
  l.take off ++ src ++ l.drop (off + src.length)

variable {l src : List α} {off : ℕ}

theorem length_splice (h : off ≤ l.length) :
    (splice l off src).length = max l.length (off + src.length) := by
  simp only [splice, length_append, length_take, length_drop]
  omega

theorem getD_splice (h : off ≤ l.length) (k : ℕ) (x : α) :
    (splice l off src).getD k x =
      if off ≤ k ∧ k < off + src.length then src.getD (k - off) x else l.getD k x := by
  simp only [getD_eq_getElem?_getD, splice, append_assoc]
  by_cases hk : k < off
  · grind
  · grind

theorem splice_nil (l : List α) (off : ℕ) : splice l off [] = l := by
  simp [splice]

end Splice

end Xv6
