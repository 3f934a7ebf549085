import Mathlib

/-!
Machines that take labelled steps and may fail, and counting in tables.

`Reachable init ok step` is the set of states a machine can get to from an initial state
by steps that the run condition `ok` allows. A safety proof is `Reachable.invariant`: the
invariant holds initially and one allowed step keeps it. `runActs` runs a whole schedule
of allowed steps. `cnt S f k` is the number of entries of the table `f`, over the finite
set `S` of places, that are equal to `k`.
-/

namespace Xv6

open Function (update update_self update_of_ne)

/-- For the numbers of processes in the runs of one and of two processes. -/
instance neZeroOne : NeZero 1 := ⟨Nat.one_ne_zero⟩

instance neZeroTwo : NeZero 2 := ⟨two_ne_zero⟩

section Machine

variable {σ α ε : Type*}
variable {init : σ → Prop} {ok : σ → α → Prop} {step : σ → α → Except ε σ}

/-- The states reached by steps that `ok` allows. -/
inductive Reachable (init : σ → Prop) (ok : σ → α → Prop) (step : σ → α → Except ε σ) : σ → Prop
  | init {s} (h : init s) : Reachable init ok step s
  | step {s s'} (a : α) (h : Reachable init ok step s) (hok : ok s a) (hs : step s a = .ok s') :
      Reachable init ok step s'

variable {s : σ}

theorem Reachable.invariant {I : σ → Prop} (hinit : ∀ s, init s → I s)
    (hstep : ∀ s a s', I s → ok s a → step s a = .ok s' → I s') (h : Reachable init ok step s) :
    I s := by
  induction h with
  | init h => exact hinit _ h
  | step a _ hok hs ih => exact hstep _ a _ ih hok hs

theorem Reachable.mono {ok' : σ → α → Prop} (hok : ∀ s a, ok s a → ok' s a)
    (h : Reachable init ok step s) : Reachable init ok' step s := by
  induction h with
  | init h => exact .init h
  | step a _ hs hstep ih => exact .step a ih (hok _ a hs) hstep

/-- The state after a schedule whose steps are all allowed and succeed. -/
def runActs (ok : σ → α → Prop) [∀ s a, Decidable (ok s a)] (step : σ → α → Except ε σ) :
    List α → σ → Option σ
  | [], s => some s
  | a :: as, s =>
    if ok s a then
      match step s a with
      | .ok s' => runActs ok step as s'
      | .error _ => none
    else none

theorem Reachable.runActs [∀ s a, Decidable (ok s a)] {as : List α} {s' : σ}
    (h : Reachable init ok step s) (hrun : runActs ok step as s = some s') :
    Reachable init ok step s' := by
  induction as generalizing s with
  | nil =>
    cases hrun
    exact h
  | cons a as ih =>
    rw [Xv6.runActs] at hrun
    split at hrun
    · rename_i hok
      split at hrun
      · rename_i t hs
        exact ih (.step a h hok hs) hrun
      · cases hrun
    · cases hrun

end Machine

section Table

theorem update_proj {ι α β : Type*} [DecidableEq ι] {f : ι → β} {q p : ι} {x : β} (g : β → α)
    (hg : g x = g (f q)) : g (update f q x p) = g (f p) := by
  rcases eq_or_ne p q with rfl | hne
  · rw [update_self, hg]
  · rw [update_of_ne hne]

/-- The first index below `i + fuel`, from `i` on, at which `free` holds. -/
def firstFree (free : ℕ → Bool) : (fuel i : ℕ) → Option ℕ
  | 0, _ => none
  | fuel + 1, i => if free i then some i else firstFree free fuel (i + 1)

theorem firstFree_some {free : ℕ → Bool} {fuel i j : ℕ} (h : firstFree free fuel i = some j) :
    j < i + fuel ∧ free j = true := by
  induction fuel generalizing i with
  | zero => cases h
  | succ fuel ih => grind [firstFree]

theorem firstFree_none {free : ℕ → Bool} {fuel i : ℕ} (h : firstFree free fuel i = none) :
    ∀ j, i ≤ j → j < i + fuel → free j = false := by
  induction fuel generalizing i with
  | zero => omega
  | succ fuel ih => grind [firstFree]

end Table

section Count

variable {ι κ : Type*} [DecidableEq κ]
variable {S : Finset ι} {f : ι → κ} {k : κ} {i : ι}

/-- The number of places of `S` at which the table `f` holds `k`. -/
def cnt (S : Finset ι) (f : ι → κ) (k : κ) : ℕ := (S.filter (f · = k)).card

theorem cnt_congr {g : ι → κ} (h : ∀ i ∈ S, f i = k ↔ g i = k) : cnt S f k = cnt S g k := by
  rw [cnt, cnt, Finset.filter_congr h]

theorem cnt_update [DecidableEq ι] (f : ι → κ) (hi : i ∈ S) (x k : κ) :
    cnt S (update f i x) k + (if f i = k then 1 else 0) =
      cnt S f k + (if x = k then 1 else 0) := by
  have hsplit : ∀ g : ι → κ, cnt S g k = cnt (S.erase i) g k + (if g i = k then 1 else 0) := by
    grind [cnt, Finset.insert_erase, Finset.filter_insert]
  have hrest : cnt (S.erase i) (update f i x) k = cnt (S.erase i) f k := by grind [cnt_congr]
  rw [hsplit (update f i x), hsplit f, hrest, update_self]
  omega

theorem cnt_pos (hi : i ∈ S) (h : f i = k) : 0 < cnt S f k :=
  Finset.card_pos.mpr ⟨i, by simp [hi, h]⟩

theorem cnt_eq_zero : cnt S f k = 0 ↔ ∀ i ∈ S, f i ≠ k := by
  simp [cnt, Finset.filter_eq_empty_iff]

theorem sum_change {M : Type*} [AddCommMonoid M] [DecidableEq ι] {f g : ι → M} (hi : i ∈ S)
    (h : ∀ j ∈ S, j ≠ i → f j = g j) : ∑ j ∈ S, f j + g i = ∑ j ∈ S, g j + f i := by
  have hrest :=
    Finset.sum_congr rfl fun j hj => h j (Finset.mem_of_mem_erase hj) (Finset.ne_of_mem_erase hj)
  rw [← Finset.add_sum_erase S f hi, ← Finset.add_sum_erase S g hi, hrest]
  abel

end Count

end Xv6
