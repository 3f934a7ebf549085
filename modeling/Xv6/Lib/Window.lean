import Mathlib

/-!
Rings between a producer and a consumer that count modulo a power of two.

The producer has put the items of a list `l` into a ring of `n` slots, item
`i` into slot `i % n`, and the consumer has taken those below `lo`. Both keep
their counts modulo `m`. As long as fewer than `n` items are outstanding, the
next slot holds none of them, and the two counts differ exactly when there is
something to take.
-/

namespace Xv6

open List
open Function (update update_self update_of_ne)

variable {α : Type*} {n lo : ℕ} {ring : ℕ → α} {l : List α}

def Window (n : ℕ) (ring : ℕ → α) (l : List α) (lo : ℕ) : Prop :=
  ∀ i x, lo ≤ i → l[i]? = some x → ring (i % n) = x

theorem slot_ne {i j : ℕ} (hij : i < j) (hj : j < i + n) : i % n ≠ j % n := by
  intro h
  have hdvd : n ∣ j - i := (Nat.modEq_iff_dvd' hij.le).mp h
  have := Nat.le_of_dvd (by omega) hdvd
  omega

namespace Window

theorem advance {lo' : ℕ} (h : Window n ring l lo) (hle : lo ≤ lo') : Window n ring l lo' :=
  fun i x hi hx => h i x (hle.trans hi) hx

theorem retract {l' : List α} (h : Window n ring (l ++ l') lo) : Window n ring l lo :=
  fun i x hi hx => h i x hi (by
    rw [getElem?_append_left (List.getElem?_eq_some_iff.mp hx).1]
    exact hx)

theorem write (h : Window n ring l lo) (hlt : l.length < lo + n) (x : α) :
    Window n (update ring (l.length % n) x) l lo := by
  intro i y hi hy
  have hil : i < l.length := (List.getElem?_eq_some_iff.mp hy).1
  rw [update_of_ne (slot_ne hil (by omega))]
  exact h i y hi hy

theorem append {x : α} (h : Window n ring l lo) (hx : ring (l.length % n) = x) :
    Window n ring (l ++ [x]) lo := by
  intro i y hi hy
  rcases Nat.lt_trichotomy i l.length with hlt | rfl | hgt
  · exact h i y hi (by rwa [getElem?_append_left hlt] at hy)
  · rw [getElem?_concat_length] at hy
    cases hy
    exact hx
  · rw [getElem?_eq_none (by simp; omega)] at hy
    cases hy

theorem push (h : Window n ring l lo) (hlt : l.length < lo + n) (x : α) :
    Window n (update ring (l.length % n) x) (l ++ [x]) lo :=
  (h.write hlt x).append (update_self ..)

end Window

end Xv6
