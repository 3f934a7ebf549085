import Mathlib

/-!
`memmove` of the kernel (`kernel/string.c`) and of the user library
(`user/ulib.c`).

Memory is a byte for every 64-bit address, and pointers wrap around as the
machine's do. The two versions choose the direction of the copy by different
tests. Either direction is right as long as no byte is read after it was
overwritten, which is what the tests see to.
-/

namespace Xv6

open Function (update update_self update_of_ne)

abbrev Addr := BitVec 64

/-- `while(n-- > 0) *d++ = *s++;` -/
def copyUp (m : Addr → UInt8) (d s : Addr) : ℕ → Addr → UInt8
  | 0 => m
  | n + 1 => copyUp (update m d (m s)) (d + 1) (s + 1) n

/-- `while(n-- > 0) *--d = *--s;` -/
def copyDown (m : Addr → UInt8) (d s : Addr) : ℕ → Addr → UInt8
  | 0 => m
  | n + 1 => copyDown (update m (d - 1) (m (s - 1))) (d - 1) (s - 1) n

/-- `memmove` of the kernel, whose count is a `uint`. -/
def memmove (m : Addr → UInt8) (dst src : Addr) (n : UInt32) : Addr → UInt8 :=
  if n = 0 then m
  else if src < dst ∧ dst < src + .ofNat 64 n.toNat then
    copyDown m (dst + .ofNat 64 n.toNat) (src + .ofNat 64 n.toNat) n.toNat
  else copyUp m dst src n.toNat

/-- `memmove` of the user library, whose count is an `int`. -/
def Ulib.memmove (m : Addr → UInt8) (dst src : Addr) (n : Int32) : Addr → UInt8 :=
  if dst < src then copyUp m dst src n.toInt.toNat
  else copyDown m (dst + .ofInt 64 n.toInt) (src + .ofInt 64 n.toInt) n.toInt.toNat

variable {m m' : Addr → UInt8} {d s : Addr} {n : ℕ}

/-- The `n` bytes from `d` on are those that were at `s`, and no other byte has
changed. -/
structure Moved (m : Addr → UInt8) (d s : Addr) (n : ℕ) (m' : Addr → UInt8) : Prop where
  moved : ∀ i < n, m' (d + .ofNat 64 i) = m (s + .ofNat 64 i)
  other : ∀ a, (∀ i < n, a ≠ d + .ofNat 64 i) → m' a = m a

theorem add_ofNat_succ (d : Addr) (i : ℕ) : d + .ofNat 64 (i + 1) = d + 1 + .ofNat 64 i := by
  rw [Nat.add_comm, BitVec.ofNat_add, ← BitVec.add_assoc]
  rfl

theorem add_ofNat_ne {i j : ℕ} (hd : d.toNat + n ≤ 2 ^ 64) (hi : i < n) (hj : j < n)
    (hne : i ≠ j) : d + .ofNat 64 i ≠ d + .ofNat 64 j := by
  bv_omega

theorem copyUp_moved (hd : d.toNat + n ≤ 2 ^ 64)
    (hsafe : ∀ i < n, ∀ j < i, s + .ofNat 64 i ≠ d + .ofNat 64 j) :
    Moved m d s n (copyUp m d s n) := by
  induction n generalizing m d s with
  | zero => exact ⟨nofun, fun _ _ => rfl⟩
  | succ n ih =>
    have hzero : d + .ofNat 64 0 = d := BitVec.add_zero d
    have hfirst : ∀ i < n, d ≠ d + 1 + .ofNat 64 i := by
      intro i hi
      bv_omega
    obtain ⟨hmoved, hother⟩ : Moved (update m d (m s)) (d + 1) (s + 1) n
        (copyUp (update m d (m s)) (d + 1) (s + 1) n) := by
      rcases n with _ | n
      · exact ⟨nofun, fun _ _ => rfl⟩
      refine ih (by bv_omega) fun i hi j hj => ?_
      rw [← add_ofNat_succ, ← add_ofNat_succ]
      exact hsafe (i + 1) (by omega) (j + 1) (by omega)
    refine ⟨fun i hi => ?_, fun a ha => ?_⟩
    · rcases i with _ | i
      · rw [hzero, BitVec.add_zero, copyUp, hother d hfirst, update_self]
      · have hread := hzero ▸ hsafe (i + 1) hi 0 (Nat.succ_pos i)
        rw [add_ofNat_succ, copyUp, hmoved i (by omega), ← add_ofNat_succ,
          update_of_ne hread]
    · have hfar : ∀ i < n, a ≠ d + 1 + .ofNat 64 i := fun i hi =>
        add_ofNat_succ d i ▸ ha (i + 1) (by omega)
      rw [copyUp, hother a hfar, update_of_ne (hzero ▸ ha 0 (Nat.succ_pos n))]

theorem copyDown_moved (hd : d.toNat + n ≤ 2 ^ 64)
    (hsafe : ∀ j < n, ∀ i < j, s + .ofNat 64 i ≠ d + .ofNat 64 j) :
    Moved m d s n (copyDown m (d + .ofNat 64 n) (s + .ofNat 64 n) n) := by
  induction n generalizing m with
  | zero => exact ⟨nofun, fun _ _ => rfl⟩
  | succ n ih =>
    have hlast : ∀ a : Addr, a + .ofNat 64 (n + 1) - 1 = a + .ofNat 64 n := by
      intro a
      bv_omega
    obtain ⟨hmoved, hother⟩ := ih (m := update m (d + .ofNat 64 n) (m (s + .ofNat 64 n)))
      (by omega) fun j hj i hi => hsafe j (by omega) i hi
    rw [copyDown, hlast, hlast]
    refine ⟨fun i hi => ?_, fun a ha => ?_⟩
    · rcases Nat.lt_succ_iff_lt_or_eq.mp hi with hlt | rfl
      · rw [hmoved i hlt, update_of_ne (hsafe n (by omega) i hlt)]
      · rw [hother _ fun j hj => add_ofNat_ne hd hi (by omega) (by omega), update_self]
    · rw [hother a fun i hi => ha i (by omega), update_of_ne (ha n (by omega))]

/-- Both versions move the bytes, however the two ranges overlap, as long as
neither range wraps around. -/
theorem memmove_moves (m : Addr → UInt8) (dst src : Addr) :
    (∀ n : UInt32, src.toNat + n.toNat ≤ 2 ^ 64 → dst.toNat + n.toNat ≤ 2 ^ 64 →
      Moved m dst src n.toNat (memmove m dst src n)) ∧
    ∀ n : Int32, src.toNat + n.toInt ≤ 2 ^ 64 → dst.toNat + n.toInt ≤ 2 ^ 64 →
      Moved m dst src n.toInt.toNat (Ulib.memmove m dst src n) := by
  refine ⟨fun n hsrc hdst => ?_, fun n hsrc hdst => ?_⟩
  · unfold memmove
    split_ifs with hzero hover
    · rw [hzero]
      exact ⟨nofun, fun _ _ => rfl⟩
    · exact copyDown_moved hdst fun j hj i hi => by bv_omega
    · have hpos : 0 < n.toNat := by
        rw [Nat.pos_iff_ne_zero]
        exact fun h => hzero (UInt32.toNat_inj.mp h)
      exact copyUp_moved hdst fun i hi j hj => by bv_omega
  · unfold Ulib.memmove
    have hn : n.toInt.toNat < 2 ^ 31 := by
      have := n.toInt_lt
      omega
    split_ifs with hlt
    · exact copyUp_moved (by omega) fun i hi j hj => by bv_omega
    · rcases le_or_gt 0 n.toInt with hpos | hneg
      · obtain ⟨k, hk⟩ := Int.eq_ofNat_of_zero_le hpos
        rw [hk] at hsrc hdst hn ⊢
        exact copyDown_moved (by omega) fun j hj i hi => by bv_omega
      · rw [Int.toNat_of_nonpos hneg.le]
        exact ⟨nofun, fun _ _ => rfl⟩

theorem memmove_moves_overlap :
    memmove (fun a => .ofNat a.toNat) 1 0 2 2 = 1 ∧
      Ulib.memmove (fun a => .ofNat a.toNat) 1 0 2 2 = 1 := by
  obtain ⟨hkernel, huser⟩ := memmove_moves (fun a => .ofNat a.toNat) 1 0
  exact ⟨(hkernel 2 (by decide) (by decide)).moved 1 (by decide),
    (huser 2 (by decide) (by decide)).moved 1 (by decide)⟩

end Xv6
