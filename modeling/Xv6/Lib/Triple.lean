import Xv6.Lib.Wp

/-!
Triples about an abstraction of the state.

A computation runs on states `σ`; what is said about it is said of `abs s : τ`, for the
states that meet an invariant. `Tri inv abs E P f Q` says that `f`, from a state with the
invariant whose abstraction meets `P`, keeps the invariant and returns with `Q`, or stops
for a reason in `E`.
-/

namespace Xv6

section Tri

variable {σ τ ε α β : Type}

def Tri (inv : σ → Prop) (abs : σ → τ) (E : ε → Prop) (P : τ → Prop)
    (f : StateT σ (Except ε) α) (Q : α → τ → Prop) : Prop :=
  ∀ s, inv s → P (abs s) → wp E f (fun a s' => inv s' ∧ Q a (abs s')) s

namespace Tri

variable {inv : σ → Prop} {abs : σ → τ} {E : ε → Prop} {P P' : τ → Prop}
  {f g : StateT σ (Except ε) α} {k : α → StateT σ (Except ε) β} {Q Q' : α → τ → Prop}
  {R : β → τ → Prop}

theorem bind (hf : Tri inv abs E P f Q) (hk : ∀ a, Tri inv abs E (Q a) (k a) R) :
    Tri inv abs E P (f >>= k) R := fun s hs hP =>
  wp.bind (hf s hs hP) fun a s' h => hk a s' h.1 h.2

theorem mono (h : Tri inv abs E P f Q) (hQ : ∀ a g, Q a g → Q' a g) :
    Tri inv abs E P f Q' := fun s hs hP =>
  (h s hs hP).mono fun a _ h => ⟨h.1, hQ a _ h.2⟩

theorem pre (h : Tri inv abs E P f Q) (hP : ∀ g, P' g → P g) : Tri inv abs E P' f Q :=
  fun s hs hP' => h s hs (hP _ hP')

theorem pure {a : α} (h : ∀ g, P g → Q a g) : Tri inv abs E P (Pure.pure a) Q :=
  fun _ hs hP => ⟨hs, h _ hP⟩

theorem throw {e : ε} (h : E e) : Tri inv abs E P (throw e) Q := fun _ _ _ => h

theorem ite {c : Prop} [Decidable c] (hf : c → Tri inv abs E P f Q)
    (hg : ¬c → Tri inv abs E P g Q) : Tri inv abs E P (if c then f else g) Q := by
  split
  · exact hf ‹_›
  · exact hg ‹_›

theorem assume {c : Prop} (h : c → Tri inv abs E P f Q) :
    Tri inv abs E (fun g => P g ∧ c) f Q := fun s hs hP => h hP.2 s hs hP.1

theorem given {c : Prop} (h : c → Tri inv abs E P f Q) :
    Tri inv abs E (fun g => c ∧ P g) f Q := fun s hs hP => h hP.1 s hs hP.2

theorem from_pre {c : Prop} (hc : ∀ s, inv s → P (abs s) → c) (h : c → Tri inv abs E P f Q) :
    Tri inv abs E P f Q := fun s hs hP => h (hc s hs hP) s hs hP

theorem bind₂ {g : α → StateT σ (Except ε) β} {γ : Type} {k : β → StateT σ (Except ε) γ}
    {Q : β → τ → Prop} {R : γ → τ → Prop} (hfg : Tri inv abs E P (f >>= g) Q)
    (hk : ∀ a, Tri inv abs E (Q a) (k a) R) : Tri inv abs E P (f >>= fun a => g a >>= k) R := by
  rw [← bind_assoc]
  exact hfg.bind hk

theorem get_bind {k : σ → StateT σ (Except ε) β} (h : ∀ s, inv s → P (abs s) →
    Tri inv abs E P (k s) R) : Tri inv abs E P (get >>= k) R := fun s hs hP => h s hs hP s hs hP

theorem exists_pre {ι : Type} {P : ι → τ → Prop} (h : ∀ x, Tri inv abs E (P x) f Q) :
    Tri inv abs E (fun g => ∃ x, P x g) f Q := fun s hs ⟨x, hP⟩ => h x s hs hP

theorem or_pre (h : Tri inv abs E P f Q) (h' : Tri inv abs E P' f Q) :
    Tri inv abs E (fun g => P g ∨ P' g) f Q := fun s hs hP =>
  hP.elim (h s hs) (h' s hs)

theorem ok (h : Tri inv abs E P f Q) {s s' : σ} {a : α} (hs : inv s) (hP : P (abs s))
    (hrun : f.run s = .ok (a, s')) : inv s' ∧ Q a (abs s') := (h s hs hP).ok hrun

end Tri

end Tri

end Xv6
