import Xv6.Param

/-!
Copies between the kernel and user memory: `copyin` and `copyout` of
`kernel/vm.c` and `either_copyin`/`either_copyout` of `kernel/proc.c`.

User memory is a partial map from page numbers to pages. A copy goes page by
page and stops at the first page it may not use, with the pages before it
already copied; the result of a copy is therefore whether it got to the end
and the bytes it moved.
-/

namespace Xv6

open List

variable {k m n va : ℕ} {mem : UserMem} {dst : Dst}

/-- A page mapped with `PTE_V` and `PTE_U`. -/
structure Page where
  data : ℕ → UInt8
  writable : Bool

abbrev UserMem := ℕ → Option Page

def walkaddr (mem : UserMem) (va : ℕ) : Option Page :=
  if va ≥ MAXVA then none else mem (va / PGSIZE)

def Page.read (pg : Page) (o n : ℕ) : List UInt8 := (range n).map fun k => pg.data (o + k)

/-- The loop of `copyin`: did it succeed, and the bytes it stored at `dst`.
Every turn copies at least one byte, so `len` turns are enough. -/
def copyinLoop (mem : UserMem) : (fuel len srcva : ℕ) → Bool × List UInt8
  | 0, _, _ => (true, [])
  | fuel + 1, len, srcva =>
    if len = 0 then (true, [])
    else
      let va0 := PGROUNDDOWN srcva
      match walkaddr mem va0 with
      | none => (false, [])
      | some pg =>
        let n := min (PGSIZE - (srcva - va0)) len
        let r := copyinLoop mem fuel (len - n) (va0 + PGSIZE)
        (r.1, pg.read (srcva - va0) n ++ r.2)

def copyin (mem : UserMem) (srcva len : ℕ) : Bool × List UInt8 := copyinLoop mem len len srcva

/-- The loop of `copyout`: did it succeed, and how many bytes it stored. -/
def copyoutLoop (mem : UserMem) : (fuel len dstva : ℕ) → Bool × ℕ
  | 0, _, _ => (true, 0)
  | fuel + 1, len, dstva =>
    if len = 0 then (true, 0)
    else
      let va0 := PGROUNDDOWN dstva
      match walkaddr mem va0 with
      | none => (false, 0)
      | some pg =>
        if pg.writable then
          let n := min (PGSIZE - (dstva - va0)) len
          let r := copyoutLoop mem fuel (len - n) (va0 + PGSIZE)
          (r.1, n + r.2)
        else (false, 0)

def copyout (mem : UserMem) (dstva len : ℕ) : Bool × ℕ := copyoutLoop mem len len dstva

/-- Where `writei` takes its bytes from: kernel memory (the bytes from the
source address on) or a user address. -/
inductive Src
  | kernel (bytes : List UInt8)
  | user (mem : UserMem) (va : ℕ)

def Src.advance : Src → ℕ → Src
  | .kernel bytes, m => .kernel (bytes.drop m)
  | .user mem va, m => .user mem ((va + m) % 2 ^ 64)

inductive Dst
  | kernel
  | user (mem : UserMem) (va : ℕ)

def Dst.advance : Dst → ℕ → Dst
  | .kernel, _ => .kernel
  | .user mem va, m => .user mem ((va + m) % 2 ^ 64)

def eitherCopyin : Src → ℕ → Bool × List UInt8
  | .kernel bytes, len => (true, (range len).map fun k => bytes.getD k 0)
  | .user mem va, len => copyin mem va len

def eitherCopyout : Dst → ℕ → Bool × ℕ
  | .kernel, len => (true, len)
  | .user mem va, len => copyout mem va len

/-! ### What a copy moves -/

def userByte (mem : UserMem) (a : ℕ) : Option UInt8 :=
  (walkaddr mem (PGROUNDDOWN a)).map fun pg => pg.data (a % PGSIZE)

def Src.byte : Src → ℕ → Option UInt8
  | .kernel bytes, k => some (bytes.getD k 0)
  | .user mem va, k => userByte mem (va + k)

/-- The copy `r` of `len` bytes has moved all of them, or those before the
first byte that is not there. -/
structure Copied (byte : ℕ → Option UInt8) (len : ℕ) (r : Bool × List UInt8) : Prop where
  le : r.2.length ≤ len
  bytes : ∀ k < r.2.length, byte k = some (r.2.getD k 0)
  done : r.1 = true → r.2.length = len
  fault : r.1 = false → r.2.length < len ∧ byte r.2.length = none

theorem Page.length_read (pg : Page) (o n : ℕ) : (pg.read o n).length = n := by
  simp [Page.read]

theorem Page.getD_read (pg : Page) {o : ℕ} (h : k < n) :
    (pg.read o n).getD k 0 = pg.data (o + k) := by
  simp [Page.read, getD_eq_getElem?_getD, h]

theorem walkaddr_lt {pg : Page} (h : walkaddr mem (PGROUNDDOWN va) = some pg) : va < MAXVA := by
  by_contra hge
  have hround : PGROUNDDOWN va ≥ MAXVA := by
    simp only [PGROUNDDOWN, PGSIZE, MAXVA] at hge ⊢
    omega
  rw [walkaddr, if_pos hround] at h
  cases h

theorem userByte_lt (h : userByte mem va ≠ none) : va < MAXVA := by
  obtain ⟨x, hx⟩ := Option.ne_none_iff_exists'.mp h
  obtain ⟨pg, hpg, -⟩ := Option.map_eq_some_iff.mp hx
  exact walkaddr_lt hpg

theorem userByte_page {pg : Page} (h : walkaddr mem (PGROUNDDOWN va) = some pg)
    (hk : k < PGSIZE - (va - PGROUNDDOWN va)) :
    userByte mem (va + k) = some (pg.data (va - PGROUNDDOWN va + k)) := by
  have hround : PGROUNDDOWN (va + k) = PGROUNDDOWN va := by grind [PGROUNDDOWN]
  have hmod : (va + k) % PGSIZE = va - PGROUNDDOWN va + k := by grind [PGROUNDDOWN]
  rw [userByte, hround, h, hmod]
  rfl

theorem copyinLoop_copied (mem : UserMem) {fuel len : ℕ} (hfuel : len ≤ fuel) :
    Copied (fun k => userByte mem (va + k)) len (copyinLoop mem fuel len va) := by
  induction fuel generalizing len va with
  | zero => grind [Copied, copyinLoop]
  | succ fuel ih =>
    unfold copyinLoop
    split
    · rename_i h0
      subst h0
      exact ⟨le_rfl, by simp, fun _ => rfl, by simp⟩
    · have hle : PGROUNDDOWN va ≤ va ∧ va < PGROUNDDOWN va + PGSIZE := by grind [PGROUNDDOWN]
      simp only []
      split
      · rename_i hnone
        refine ⟨by simp, by simp, by simp, fun _ => ⟨by simp; omega, ?_⟩⟩
        simp only [length_nil, Nat.add_zero, userByte, hnone, Option.map_none]
      · rename_i pg hpg
        obtain ⟨n, hn⟩ : ∃ n, n = min (PGSIZE - (va - PGROUNDDOWN va)) len := ⟨_, rfl⟩
        rw [← hn]
        have hrest := @ih (PGROUNDDOWN va + PGSIZE) (len - n) (by omega)
        have hlen := pg.length_read (va - PGROUNDDOWN va) n
        -- either the page ends here or nothing is left to copy
        have hnext : ∀ k, n + k < len → PGROUNDDOWN va + PGSIZE + k = va + (n + k) := by
          intro k hk
          omega
        refine ⟨?_, ?_, ?_, ?_⟩
        · have := hrest.le
          simp only [length_append, hlen]
          omega
        · intro k hk
          simp only [length_append, hlen] at hk
          by_cases hkn : k < n
          · rw [userByte_page hpg (by omega), getD_append _ _ _ _ (by omega),
              pg.getD_read hkn]
          · have hb := hrest.bytes (k - n) (by omega)
            have := hrest.le
            rw [getD_append_right _ _ _ _ (by omega), hlen, ← hb, hnext (k - n) (by omega),
              show n + (k - n) = k by omega]
        · intro hok
          have := hrest.done hok
          simp only [length_append, hlen]
          omega
        · intro hfail
          obtain ⟨hlt, hnone⟩ := hrest.fault hfail
          simp only [length_append, hlen]
          exact ⟨by omega, by rw [← hnone, hnext _ (by omega)]⟩

theorem eitherCopyin_copied (src : Src) (len : ℕ) : Copied src.byte len (eitherCopyin src len) := by
  cases src with
  | kernel bytes => grind [Copied, eitherCopyin, Src.byte]
  | user mem va => exact copyinLoop_copied mem le_rfl

theorem Src.byte_advance {src : Src} (hm : 0 < m) (h : src.byte (m - 1) ≠ none) (k : ℕ) :
    (src.advance m).byte k = src.byte (m + k) := by
  cases src with
  | kernel bytes => simp [Src.advance, Src.byte, getD_eq_getElem?_getD]
  | user mem va =>
    have hlt : va + (m - 1) < MAXVA := userByte_lt h
    have hmod : (va + m) % 2 ^ 64 = va + m := Nat.mod_eq_of_lt (by
      simp only [MAXVA] at hlt
      omega)
    simp only [Src.advance, Src.byte, hmod, Nat.add_assoc]

def Dst.Writable : Dst → ℕ → Prop
  | .kernel, _ => True
  | .user mem va, n =>
    ∀ k < n, ∃ pg, walkaddr mem (PGROUNDDOWN (va + k)) = some pg ∧ pg.writable = true

/-- The first byte from `dst` on that may not be written is `k` places after it. -/
def Dst.Faults (dst : Dst) (k : ℕ) : Prop := dst.Writable k ∧ ¬dst.Writable (k + 1)

theorem Dst.Writable.mono (h : dst.Writable n) (hm : m ≤ n) : dst.Writable m := by
  cases dst with
  | kernel => trivial
  | user mem va => exact fun k hk => h k (by omega)

theorem Dst.writable_zero (dst : Dst) : dst.Writable 0 := by
  cases dst with
  | kernel => trivial
  | user mem va => exact fun k hk => absurd hk (Nat.not_lt_zero k)

theorem Dst.advance_user (hpos : 0 < m) (h : (Dst.user mem va).Writable m) :
    (Dst.user mem va).advance m = .user mem (va + m) := by
  obtain ⟨pg, hpg, -⟩ := h (m - 1) (by omega)
  have hlt := walkaddr_lt hpg
  rw [Dst.advance, Nat.mod_eq_of_lt]
  simp only [MAXVA] at hlt
  omega

theorem Dst.writable_add (hpos : 0 < m) (h : dst.Writable m) :
    dst.Writable (m + k) ↔ (dst.advance m).Writable k := by
  cases dst with
  | kernel => exact Iff.rfl
  | user mem va =>
    rw [Dst.advance_user hpos h]
    constructor
    · intro hw j hj
      rw [Nat.add_assoc]
      exact hw (m + j) (by omega)
    · intro hw j hj
      by_cases hjm : j < m
      · exact h j hjm
      · have := hw (j - m) (by omega)
        rwa [show va + m + (j - m) = va + j by omega] at this

theorem Dst.Faults.add (hpos : 0 < m) (h : dst.Writable m) (hk : (dst.advance m).Faults k) :
    dst.Faults (m + k) :=
  ⟨(Dst.writable_add hpos h).mpr hk.1, fun hw => hk.2 ((Dst.writable_add hpos h).mp hw)⟩

/-- The copy of `len` bytes to `dst` has stored all of them, or those before the first that
may not be written. -/
def Dst.Copies (dst : Dst) (len : ℕ) (r : Bool × ℕ) : Prop :=
  dst.Writable len ∧ r = (true, len) ∨ ∃ k < len, dst.Faults k ∧ r = (false, k)

theorem writable_page {pg : Page} (hpg : walkaddr mem (PGROUNDDOWN va) = some pg)
    (hw : pg.writable = true) (hn : n ≤ PGSIZE - (va - PGROUNDDOWN va)) :
    (Dst.user mem va).Writable n := by
  intro k hk
  have hround : PGROUNDDOWN (va + k) = PGROUNDDOWN va := by
    simp only [PGROUNDDOWN, PGSIZE] at hn ⊢
    omega
  rw [← hround] at hpg
  exact ⟨pg, hpg, hw⟩

theorem copyoutLoop_copies {fuel len : ℕ} (hfuel : len ≤ fuel) :
    (Dst.user mem va).Copies len (copyoutLoop mem fuel len va) := by
  induction fuel generalizing len va with
  | zero =>
    obtain rfl : len = 0 := by omega
    exact .inl ⟨Dst.writable_zero _, rfl⟩
  | succ fuel ih =>
    by_cases h0 : len = 0
    · rw [h0]
      exact .inl ⟨Dst.writable_zero _, rfl⟩
    -- the page of `va` may not be written
    have hbad : ¬(Dst.user mem va).Writable 1 → (Dst.user mem va).Copies len (false, 0) :=
      fun h => .inr ⟨0, by omega, ⟨Dst.writable_zero _, h⟩, rfl⟩
    rw [copyoutLoop, if_neg h0]
    cases hpg : walkaddr mem (PGROUNDDOWN va) with
    | none =>
      simp only [hpg]
      refine hbad fun h => ?_
      obtain ⟨pg, hsome, -⟩ := h 0 Nat.one_pos
      rw [Nat.add_zero, hpg] at hsome
      cases hsome
    | some pg =>
      simp only [hpg]
      split_ifs with hw
      · obtain ⟨n, hn⟩ : ∃ n, n = min (PGSIZE - (va - PGROUNDDOWN va)) len := ⟨_, rfl⟩
        rw [← hn]
        have hle : PGROUNDDOWN va ≤ va ∧ va < PGROUNDDOWN va + PGSIZE := by
          simp only [PGROUNDDOWN, PGSIZE]
          omega
        have hpage : (Dst.user mem va).Writable n := writable_page hpg hw (by omega)
        have hrest := @ih (PGROUNDDOWN va + PGSIZE) (len - n) (by omega)
        by_cases hlast : n = len
        · rw [hlast, Nat.sub_self] at hrest ⊢
          obtain ⟨-, hr⟩ | ⟨k, hk, -⟩ := hrest
          · rw [hr]
            exact .inl ⟨hlast ▸ hpage, rfl⟩
          · exact absurd hk (Nat.not_lt_zero k)
        -- the page ends here
        have hpos : 0 < n := by omega
        have hnext : n + (len - n) = len := by omega
        rw [show PGROUNDDOWN va + PGSIZE = va + n by omega] at hrest ⊢
        rw [← Dst.advance_user hpos hpage] at hrest
        obtain ⟨hall, hr⟩ | ⟨k, hk, hfault, hr⟩ := hrest
        · rw [hr, hnext]
          exact .inl ⟨hnext ▸ (Dst.writable_add hpos hpage).mpr hall, rfl⟩
        · rw [hr]
          exact .inr ⟨n + k, by omega, hfault.add hpos hpage, rfl⟩
      · refine hbad fun h => ?_
        obtain ⟨pg', hsome, hw'⟩ := h 0 Nat.one_pos
        rw [Nat.add_zero, hpg] at hsome
        cases hsome
        exact hw hw'

theorem eitherCopyout_copies (dst : Dst) (len : ℕ) : dst.Copies len (eitherCopyout dst len) := by
  cases dst with
  | kernel => exact .inl ⟨trivial, rfl⟩
  | user mem va => exact copyoutLoop_copies le_rfl

end Xv6
