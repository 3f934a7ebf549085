import Xv6.Fs.Dir
import Xv6.Fs.Low

/-!
The loops of `dirlookup` and `dirlink` over the entries of a directory.

Both read one entry after the other, and change nothing on the way. All that they need to
know is what `readi` delivers for an entry (`Scans`).
-/

namespace Xv6

variable {E : Stop → Prop} {stop : Stop} {dp fuel e : ℕ} {name : Name} {ent : ℕ → List UInt8}
  {s : Fs}

def Names (name : Name) (de : List UInt8) : Prop :=
  direntInum de ≠ 0 ∧ cname (direntName de) = cname name

/-- Entry `e` is read as `ent e`, unless `readi` returns less than an entry and the loop
stops. -/
def Scans (E : Stop → Prop) (stop : Stop) (dp : ℕ) (ent : ℕ → List UInt8) (s : Fs) (e : ℕ) :
    Prop :=
  wp E (readi dp .kernel (e * DESIZE) DESIZE) (fun r s' => s' = s ∧
    (r.1 ≠ DESIZE → E stop) ∧
    (r.1 = DESIZE → r.2 = ent e ∧ (e + 1) * DESIZE ≤ (s.itable dp).d.size)) s

theorem lt_fuel_mul (n : ℕ) : n < (0 + (n / DESIZE + 1)) * DESIZE := by
  rw [Nat.zero_add]
  exact Nat.lt_mul_of_div_lt (Nat.lt_succ_self _) (by norm_num)

section Lookup

variable {Q : Option (ℕ × ℕ) → Fs → Prop}
  (hscan : ∀ e, e * DESIZE < (s.itable dp).d.size → (∀ e' < e, ¬Names name (ent e')) →
    Scans E (.panic .dirlookupRead) dp ent s e)
  (hnone : ∀ n, (s.itable dp).d.size ≤ n * DESIZE → (∀ e < n, ¬Names name (ent e)) → Q none s)
  (hsome : ∀ e, (e + 1) * DESIZE ≤ (s.itable dp).d.size → Names name (ent e) →
    (∀ e' < e, ¬Names name (ent e')) → wp E (iget (s.itable dp).dev (direntInum (ent e)))
      (fun ip s' => Q (some (ip, e * DESIZE)) s') s)
include hscan hnone hsome

theorem dirlookupLoop_wp (hfuel : (s.itable dp).d.size < (e + fuel) * DESIZE)
    (hno : ∀ e' < e, ¬Names name (ent e')) :
    wp E (dirlookupLoop dp name fuel (e * DESIZE)) Q s := by
  induction fuel generalizing e with
  | zero => exact hnone e hfuel.le hno
  | succ fuel ih =>
    unfold dirlookupLoop
    rw [wp_bind, wp_inode]
    refine wp.ite (fun hlt => ?_) fun hge => hnone e (not_lt.mp hge) hno
    refine wp.bind (hscan e hlt hno) ?_
    rintro ⟨r, de⟩ s₁ ⟨hs₁, hshort, hfull⟩
    rw [hs₁]
    have hnext : ¬Names name (ent e) →
        wp E (dirlookupLoop dp name fuel (e * DESIZE + DESIZE)) Q s := by
      intro hskip
      rw [← Nat.succ_mul]
      refine ih (by rwa [Nat.succ_add_eq_add_succ]) fun e' he' => ?_
      rcases Nat.lt_succ_iff_lt_or_eq.mp he' with hlt' | rfl
      · exact hno e' hlt'
      · exact hskip
    refine wp.ite hshort fun hr => ?_
    obtain ⟨rfl, hfit⟩ := hfull (not_not.mp hr)
    refine wp.ite (fun h0 => hnext fun hm => hm.1 h0) fun h0 => ?_
    refine wp.ite (fun hname => ?_) fun hname => hnext fun hm =>
      hname (namecmp_eq_zero.mpr hm.2.symm)
    rw [wp_bind]
    exact hsome e hfit ⟨h0, (namecmp_eq_zero.mp hname).symm⟩ hno

theorem dirlookup_wp (htype : (s.itable dp).d.type = T_DIR) : wp E (dirlookup dp name) Q s := by
  unfold dirlookup
  rw [wp_bind, wp_inode, if_neg (not_not.mpr htype), ← Nat.zero_mul DESIZE]
  exact dirlookupLoop_wp hscan hnone hsome (lt_fuel_mul _) (by simp)

end Lookup

theorem dirlinkLoop_wp
    (hscan : ∀ e, e * DESIZE < (s.itable dp).d.size → Scans E (.panic .dirlinkRead) dp ent s e)
    (hfuel : (s.itable dp).d.size < (e + fuel) * DESIZE) (hle : e * DESIZE ≤ (s.itable dp).d.size)
    (hused : ∀ e' < e, direntInum (ent e') ≠ 0) :
    wp E (dirlinkLoop dp fuel (e * DESIZE)) (fun off s' => s' = s ∧ ∃ n, off = n * DESIZE ∧
      n * DESIZE ≤ (s.itable dp).d.size ∧ (∀ e' < n, direntInum (ent e') ≠ 0) ∧
      (n * DESIZE < (s.itable dp).d.size → direntInum (ent n) = 0)) s := by
  induction fuel generalizing e with
  | zero => exact absurd hle (not_le.mpr hfuel)
  | succ fuel ih =>
    unfold dirlinkLoop
    rw [wp_bind, wp_inode]
    refine wp.ite (fun hlt => ?_) fun hge =>
      ⟨rfl, e, rfl, hle, hused, fun hlt => absurd hlt hge⟩
    refine wp.bind (hscan e hlt) ?_
    rintro ⟨r, de⟩ s₁ ⟨hs₁, hshort, hfull⟩
    rw [hs₁]
    refine wp.ite hshort fun hr => ?_
    obtain ⟨rfl, hfit⟩ := hfull (not_not.mp hr)
    refine wp.ite (fun h0 => ⟨rfl, e, rfl, hle, hused, fun _ => h0⟩) fun h0 => ?_
    rw [← Nat.succ_mul]
    refine ih (by rwa [Nat.succ_add_eq_add_succ]) hfit fun e' he' => ?_
    rcases Nat.lt_succ_iff_lt_or_eq.mp he' with hlt' | rfl
    · exact hused e' hlt'
    · exact h0

end Xv6
