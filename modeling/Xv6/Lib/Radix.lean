import Mathlib

/-!
Radix trees whose nodes lie in a memory.

`child n i` is the node that entry `i` of node `n` points to, and `descend` follows a
path, a list of entries, from a node. In a tree without sharing no node is reached on two
paths, so a change of one entry is seen on one path only: `descend_graft` says so of a new
node that is hung into an empty entry, and `descend_congr` of a change of nodes on which
the paths do not depend.
-/

namespace Xv6

open List

section Radix

variable {ν ι : Type}

def descend (child : ν → ι → Option ν) : ν → List ι → Option ν
  | n, [] => some n
  | n, i :: p => (child n i).bind fun n => descend child n p

/-- The paths of up to `depth` entries lead to different nodes. -/
def NoSharing (child : ν → ι → Option ν) (root : ν) (depth : ℕ) : Prop :=
  ∀ p q n, p.length ≤ depth → q.length ≤ depth → descend child root p = some n →
    descend child root q = some n → p = q

variable {child child' : ν → ι → Option ν} {root n m : ν} {i j : ι} {p q : List ι} {depth : ℕ}

@[simp] theorem descend_nil : descend child n [] = some n := rfl

theorem descend_append : descend child n (p ++ q) =
    (descend child n p).bind fun n => descend child n q := by
  induction p generalizing n with
  | nil => rfl
  | cons i p ih =>
    rw [cons_append, descend, descend, Option.bind_assoc]
    congr
    ext1 n
    apply ih

theorem descend_concat : descend child n (p ++ [i]) =
    (descend child n p).bind fun n => child n i := by
  rw [descend_append]
  congr
  ext1 n
  cases h : child n i <;> simp [descend, h]

theorem descend_congr
    (h : ∀ q n, q.length < depth → descend child root q = some n → child' n = child n)
    (hp : p.length ≤ depth) : descend child' root p = descend child root p := by
  induction p using reverseRecOn with
  | nil => rfl
  | append_singleton p i ih =>
    rw [length_append, length_singleton] at hp
    rw [descend_concat, descend_concat, ih (by omega)]
    cases hn : descend child root p with
    | none => rfl
    | some n => exact congrFun (h p n (by omega) hn) i

theorem NoSharing.congr (hu : NoSharing child root depth)
    (h : ∀ q n, q.length < depth → descend child root q = some n → child' n = child n) :
    NoSharing child' root depth := by
  intro p q n hp hq hpn hqn
  rw [descend_congr h hp] at hpn
  rw [descend_congr h hq] at hqn
  exact hu p q n hp hq hpn hqn

section Graft

variable [DecidableEq ι] (hu : NoSharing child root depth) (hlen : p.length < depth)
  (hn : descend child root p = some n) (hi : child n i = none)
  (hm : ∀ q, q.length ≤ depth → descend child root q ≠ some m)
  (hself : child' n i = some m) (hempty : ∀ j, child' m j = none)
  (hother : ∀ x j, x ≠ m → ¬(x = n ∧ j = i) → child' x j = child x j)

include hu hlen hn hi hm hself hempty hother

theorem descend_graft (hq : q.length ≤ depth) :
    descend child' root q = if q = p ++ [i] then some m else descend child root q := by
  induction q using reverseRecOn with
  | nil => rw [if_neg (by simp)]; rfl
  | append_singleton q j ih =>
    rw [length_append, length_singleton] at hq
    rw [descend_concat, descend_concat, ih (by omega)]
    by_cases hqp : q = p ++ [i]
    · -- below the new node there is nothing, and there was nothing before
      rw [if_pos hqp, if_neg, hqp, descend_concat, hn]
      · simp [hempty, hi]
      · grind
    rw [if_neg hqp]
    cases hx : descend child root q with
    | none =>
      rw [if_neg]
      · rfl
      · intro h
        obtain ⟨rfl, -⟩ := append_inj' h rfl
        rw [hn] at hx
        cases hx
    | some x =>
      by_cases hxj : x = n ∧ j = i
      · obtain ⟨rfl, rfl⟩ := hxj
        rw [hu q p x (by omega) (by omega) hx hn, if_pos rfl]
        exact hself
      · grind [append_inj']

end Graft

theorem NoSharing.graft [DecidableEq ι] (hu : NoSharing child root depth)
    (hm : ∀ q, q.length ≤ depth → descend child root q ≠ some m)
    (h : ∀ q, q.length ≤ depth →
      descend child' root q = if q = p then some m else descend child root q) :
    NoSharing child' root depth := by
  intro q r x hq hr hqx hrx
  rw [h q hq] at hqx
  rw [h r hr] at hrx
  split at hqx <;> split at hrx
  · simp_all
  · cases hqx
    exact absurd hrx (hm r hr)
  · cases hrx
    exact absurd hqx (hm q hq)
  · exact hu q r x hq hr hqx hrx

end Radix

end Xv6
