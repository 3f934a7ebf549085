import Mathlib

/-!
Stores that are changed by a sequence of single writes, and the states a crash can leave
behind.

A crash keeps a prefix of the writes that were issued, so a crash argument is a statement
about every prefix; `prefix_append_cases` and `prefix_singleton_cases` follow the program
text: a prefix of a sequential composition stopped in the first part, or finished it and
stopped in the second.
-/

namespace Xv6

open List
open Function (update update_self update_of_ne)

variable {α β : Type*} [DecidableEq α]

def replay (d : α → β) (ws : List (α × β)) : α → β :=
  ws.foldl (fun d w => update d w.1 w.2) d

@[simp] theorem replay_nil (d : α → β) : replay d [] = d := rfl

@[simp] theorem replay_cons (d : α → β) (w : α × β) (ws : List (α × β)) :
    replay d (w :: ws) = replay (update d w.1 w.2) ws := rfl

@[simp] theorem replay_append (d : α → β) (ws ws' : List (α × β)) :
    replay d (ws ++ ws') = replay (replay d ws) ws' := by
  simp [replay]

theorem replay_of_notMem (d : α → β) {ws : List (α × β)} {a : α} (h : a ∉ ws.map Prod.fst) :
    replay d ws a = d a := by
  induction ws generalizing d with
  | nil => rfl
  | cons w ws ih =>
    simp only [map_cons, mem_cons, not_or] at h
    rw [replay_cons, ih _ h.2, update_of_ne h.1]

theorem replay_of_mem (d : α → β) {ws : List (α × β)} (hnd : (ws.map Prod.fst).Nodup)
    {w : α × β} (hw : w ∈ ws) : replay d ws w.1 = w.2 := by
  induction ws generalizing d with
  | nil => simp at hw
  | cons v ws ih =>
    rw [map_cons, nodup_cons] at hnd
    rw [replay_cons]
    rcases mem_cons.mp hw with rfl | hw
    · rw [replay_of_notMem _ hnd.1, update_self]
    · exact ih _ hnd.2 hw

theorem replay_congr {d d' : α → β} {ws : List (α × β)}
    (h : ∀ a, a ∉ ws.map Prod.fst → d a = d' a) : replay d ws = replay d' ws := by
  induction ws generalizing d d' with
  | nil => exact funext fun a => h a (by simp)
  | cons w ws ih => grind [replay_cons]

theorem prefix_append_cases {γ : Type*} {l l₁ l₂ : List γ} (h : l <+: l₁ ++ l₂) :
    l <+: l₁ ∨ ∃ t, t <+: l₂ ∧ l = l₁ ++ t := by
  rcases le_total l.length l₁.length with hle | hle
  · exact Or.inl (prefix_of_prefix_length_le h (prefix_append _ _) hle)
  · obtain ⟨t, rfl⟩ := prefix_of_prefix_length_le (prefix_append _ _) h hle
    exact Or.inr ⟨t, (prefix_append_right_inj l₁).mp h, rfl⟩

theorem prefix_singleton_cases {γ : Type*} {l : List γ} {x : γ} (h : l <+: [x]) :
    l = [] ∨ l = [x] := by
  rcases h with ⟨t, ht⟩
  cases l with
  | nil => exact Or.inl rfl
  | cons y l => simp_all

end Xv6
