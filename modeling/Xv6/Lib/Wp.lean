import Mathlib

/-!
Pre- and postconditions for computations with a state that may stop.

`wp E f Q s` says that `f`, started in the state `s`, either returns some `a` in a state
`s'` with `Q a s'`, or stops for a reason that `E` admits. The rules for the constructs of
a computation are equivalences, so that it is executed by rewriting; at a call the rule is
`wp.bind`, from what is known of the callee.
-/

namespace Xv6

section Wp

variable {σ ε α β : Type}
variable {a : α} {s' : σ}

def wp (E : ε → Prop) (f : StateT σ (Except ε) α) (Q : α → σ → Prop) (s : σ) : Prop :=
  match f s with
  | .ok (a, s') => Q a s'
  | .error e => E e

variable {E : ε → Prop} {f : StateT σ (Except ε) α} {k : α → StateT σ (Except ε) β}
  {Q Q' : α → σ → Prop} {R : β → σ → Prop} {s : σ}

theorem wp.mono (h : wp E f Q s) (hQ : ∀ a s', Q a s' → Q' a s') : wp E f Q' s := by
  unfold wp at *
  split at h
  · exact hQ _ _ h
  · exact h

theorem wp.mono_stop {E' : ε → Prop} (h : wp E f Q s) (hE : ∀ e, E e → E' e) : wp E' f Q s := by
  unfold wp at *
  split at h
  · exact h
  · exact hE _ h

theorem wp_bind : wp E (f >>= k) R s ↔ wp E f (fun a s' => wp E (k a) R s') s := by
  simp only [wp, bind, StateT.bind, Except.bind]
  cases f s with
  | error e | ok p => rfl

theorem wp.bind (h : wp E f Q s) (hk : ∀ a s', Q a s' → wp E (k a) R s') :
    wp E (f >>= k) R s := wp_bind.mpr (h.mono hk)

@[simp] theorem wp_pure : wp E (pure a) Q s ↔ Q a s := Iff.rfl

@[simp] theorem wp_throw {e : ε} : wp E (throw e : StateT σ (Except ε) α) Q s ↔ E e := Iff.rfl

@[simp] theorem wp_get {Q : σ → σ → Prop} :
    wp E (get : StateT σ (Except ε) σ) Q s ↔ Q s s := Iff.rfl

@[simp] theorem wp_set {Q : PUnit → σ → Prop} {t : σ} :
    wp E (set t : StateT σ (Except ε) PUnit) Q s ↔ Q ⟨⟩ t := Iff.rfl

@[simp] theorem wp_modify {Q : PUnit → σ → Prop} {g : σ → σ} :
    wp E (modify g : StateT σ (Except ε) PUnit) Q s ↔ Q ⟨⟩ (g s) := Iff.rfl

theorem wp.ite {c : Prop} [Decidable c] {g : StateT σ (Except ε) α} (hf : c → wp E f Q s)
    (hg : ¬c → wp E g Q s) : wp E (if c then f else g) Q s := by
  split
  · exact hf ‹_›
  · exact hg ‹_›

theorem wp.ok (h : wp E f Q s) (hf : f.run s = .ok (a, s')) : Q a s' := by
  unfold wp at h
  rw [show f s = .ok (a, s') from hf] at h
  exact h

theorem wp.error {e : ε} (h : wp E f Q s) (hf : f.run s = .error e) : E e := by
  unfold wp at h
  rw [show f s = .error e from hf] at h
  exact h

theorem wp.returned (h : wp E f Q s) (hE : ∀ e, ¬ E e) :
    ∃ a s', f.run s = .ok (a, s') ∧ Q a s' := by
  unfold wp at h
  split at h
  · rename_i a s' hf
    exact ⟨a, s', hf, h⟩
  · exact absurd h (hE _)

theorem wp_true : wp (fun _ => True) f Q s ↔ ∀ a s', f.run s = .ok (a, s') → Q a s' := by
  refine ⟨fun h a s' => h.ok, fun h => ?_⟩
  unfold wp
  split
  · rename_i a s' hf
    exact h a s' hf
  · trivial

theorem wp_of_ok (hf : f s = .ok (a, s')) (hQ : Q a s') : wp E f Q s := by
  unfold wp
  rw [hf]
  exact hQ

theorem run_bind_of_ok (h : f.run s = .ok (a, s')) : (f >>= k).run s = (k a).run s' := by
  rw [StateT.run_bind, h]
  rfl

theorem exists_of_run_bind {b : β} {t : σ} (h : (f >>= k).run s = .ok (b, t)) :
    ∃ a s', f.run s = .ok (a, s') ∧ (k a).run s' = .ok (b, t) := by
  cases hf : f.run s with
  | error e =>
    rw [StateT.run_bind, hf] at h
    cases h
  | ok r => exact ⟨r.1, r.2, rfl, (run_bind_of_ok hf).symm.trans h⟩

def returns (f : StateT σ (Except ε) α) (p : α → σ → Bool) (s : σ) : Bool :=
  match f s with
  | .ok (a, s') => p a s'
  | .error _ => false

theorem exists_of_returns {p : α → σ → Bool} (h : returns f p s = true) :
    ∃ a s', f.run s = .ok (a, s') ∧ p a s' = true := by
  unfold returns at h
  split at h
  · rename_i a s' hf
    exact ⟨a, s', hf, h⟩
  · cases h

end Wp

end Xv6
