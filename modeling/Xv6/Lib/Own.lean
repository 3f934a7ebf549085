import Mathlib

/-!
Cells with owners.

Every cell has a content and an owner, which is ghost state. `Changes P` says that a
computation has touched only cells whose owner is in `P`: all others keep their content
and owner, and a cell of an owner in `P` stays with one. A cell that is lent out for a
while (`Changes.borrow`) may be given back to any owner in `P`.
-/

namespace Xv6

open Function (update update_self update_of_ne)

section Own

variable {ι β ω : Type}

/-- Only cells with an owner in `P` have changed, and they have stayed within `P`. -/
structure Changes (P : ω → Prop) (w w' : ι → β) (o o' : ι → ω) : Prop where
  owner : ∀ m, ¬P (o m) → o' m = o m
  cell : ∀ m, ¬P (o m) → w' m = w m
  within : ∀ m, P (o m) → P (o' m)

namespace Changes

variable {P Q : ω → Prop} {w w₁ w₂ w' : ι → β} {o o₁ o₂ o' : ι → ω} {m n : ι} {q b : ω}

protected theorem refl (P : ω → Prop) (w : ι → β) (o : ι → ω) : Changes P w w o o :=
  ⟨fun _ _ => rfl, fun _ _ => rfl, fun _ h => h⟩

protected theorem trans (h : Changes P w w₁ o o₁) (h' : Changes P w₁ w' o₁ o') :
    Changes P w w' o o' := by
  have hnot : ∀ m, ¬P (o m) → ¬P (o₁ m) := fun m hm => by rwa [h.owner m hm]
  refine ⟨fun m hm => ?_, fun m hm => ?_, fun m hm => h'.within m (h.within m hm)⟩
  · rw [h'.owner m (hnot m hm), h.owner m hm]
  · rw [h'.cell m (hnot m hm), h.cell m hm]

theorem mono (h : Changes P w w' o o') (hPQ : ∀ q, P q → Q q) : Changes Q w w' o o' := by
  have hnot : ∀ m, ¬Q (o m) → ¬P (o m) := fun m hm hP => hm (hPQ _ hP)
  refine ⟨fun m hm => h.owner m (hnot m hm), fun m hm => h.cell m (hnot m hm), fun m hm => ?_⟩
  by_cases hP : P (o m)
  · exact hPQ _ (h.within m hP)
  · rwa [h.owner m hP]

theorem owner_iff (h : Changes P w w' o o') (hq : ¬P q) : o' m = q ↔ o m = q := by
  constructor
  · grind [h.within, h.owner]
  · intro hm
    rw [h.owner m (hm ▸ hq), hm]

theorem cell_of_owner (h : Changes P w w' o o') (hq : ¬P q) (hm : o m = q) : w' m = w m :=
  h.cell m (hm ▸ hq)

theorem store (hw : ∀ n, ¬P (o n) → w' n = w n) : Changes P w w' o o :=
  ⟨fun _ _ => rfl, hw, fun _ h => h⟩

variable [DecidableEq ι]

theorem single (hm : P (o m)) (hq : P q) (hw : ∀ n, n ≠ m → w' n = w n) :
    Changes P w w' o (update o m q) := by
  have hne : ∀ n, ¬P (o n) → n ≠ m := fun n hn h => hn (h ▸ hm)
  refine ⟨fun n hn => update_of_ne (hne n hn) .., fun n hn => hw n (hne n hn),
    fun n hn => ?_⟩
  by_cases h : n = m
  · rw [h, update_self]
    exact hq
  · rwa [update_of_ne h]

theorem borrow (hm : P (o m)) (hw : ∀ n, n ≠ m → w₁ n = w n) (h : Changes P w₁ w₂ (update o m b) o₂)
    (hw' : ∀ n, n ≠ m → w' n = w₂ n) (hq : P q) : Changes P w w' o (update o₂ m q) := by
  refine ⟨fun n hn => ?_, fun n hn => ?_, fun n hn => ?_⟩
  · grind [h.owner]
  · grind [h.cell]
  · grind [h.within]

end Changes

end Own

end Xv6
