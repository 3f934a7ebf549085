import Xv6.Vm.Copy

/-!
What `copyout` does to user memory.

`copyoutMem` is the loop of `copyout` with the stores it makes. It stores the bytes before
the first one that may not be written (`Stores`), where `copyout` only says how many these
are. Whether a page may be written is not changed by a store, so a copy that is made in
parts goes as far as one made at once.
-/

namespace Xv6

open List
open Function (update update_self update_of_ne)

variable {mem : UserMem} {va : ℕ}

def Page.write (pg : Page) (o : ℕ) (bytes : List UInt8) : Page :=
  { pg with
    data := fun k => if o ≤ k ∧ k < o + bytes.length then bytes.getD (k - o) 0 else pg.data k }

theorem Page.data_write (pg : Page) (o : ℕ) (bytes : List UInt8) (k : ℕ) :
    (pg.write o bytes).data k =
      if o ≤ k ∧ k < o + bytes.length then bytes.getD (k - o) 0 else pg.data k := rfl

def copyoutMemLoop : (fuel : ℕ) → UserMem → (dstva : ℕ) → (src : List UInt8) → Bool × UserMem
  | 0, mem, _, _ => (true, mem)
  | fuel + 1, mem, dstva, src =>
    if src.length = 0 then (true, mem)
    else
      let va0 := PGROUNDDOWN dstva
      match walkaddr mem va0 with
      | none => (false, mem)
      | some pg =>
        if pg.writable then
          let n := min (PGSIZE - (dstva - va0)) src.length
          let pg := pg.write (dstva - va0) (src.take n)
          copyoutMemLoop fuel (update mem (va0 / PGSIZE) (some pg)) (va0 + PGSIZE)
            (src.drop n)
        else (false, mem)

def copyoutMem (mem : UserMem) (dstva : ℕ) (src : List UInt8) : Bool × UserMem :=
  copyoutMemLoop src.length mem dstva src

def writable (mem : UserMem) (a : ℕ) : Bool := (walkaddr mem (PGROUNDDOWN a)).any (·.writable)

structure Stores (mem : UserMem) (va : ℕ) (bytes : List UInt8) (mem' : UserMem) : Prop where
  byte : ∀ a, userByte mem' a =
    if va ≤ a ∧ a < va + bytes.length then some (bytes.getD (a - va) 0) else userByte mem a
  writable : ∀ a, writable mem' a = writable mem a

namespace Stores

variable {mem mem₁ mem₂ : UserMem} {va : ℕ} {bytes bytes' : List UInt8}

theorem nil : Stores mem va [] mem :=
  ⟨fun a => by rw [if_neg (by simp)], fun _ => rfl⟩

theorem trans (h₁ : Stores mem va bytes mem₁) (h₂ : Stores mem₁ (va + bytes.length) bytes' mem₂) :
    Stores mem va (bytes ++ bytes') mem₂ := by
  refine ⟨fun a => ?_, fun a => (h₂.writable a).trans (h₁.writable a)⟩
  rw [h₂.byte, h₁.byte, length_append]
  by_cases hlo : va ≤ a
  · grind
  · rw [if_neg (by omega), if_neg (by omega), if_neg (by omega)]

theorem outside (h : Stores mem va bytes mem₁) {n a : ℕ} (hlen : bytes.length ≤ n)
    (ha : ¬(va ≤ a ∧ a < va + n)) : userByte mem₁ a = userByte mem a := by
  rw [h.byte, if_neg (by omega)]

end Stores

theorem writable_lt {a : ℕ} (h : writable mem a = true) : a < MAXVA := by
  obtain ⟨pg, hpg, -⟩ := (Option.any_eq_true ..).mp h
  exact walkaddr_lt hpg

theorem Dst.writable_iff {n : ℕ} :
    (Dst.user mem va).Writable n ↔ ∀ k < n, writable mem (va + k) = true := by
  simp only [Dst.Writable, Xv6.writable, Option.any_eq_true]

theorem stores_page {pg : Page} {bytes : List UInt8} (hpg : walkaddr mem (PGROUNDDOWN va) = some pg)
    (hlen : bytes.length ≤ PGSIZE - (va - PGROUNDDOWN va)) :
    Stores mem va bytes (update mem (PGROUNDDOWN va / PGSIZE)
      (some (pg.write (va - PGROUNDDOWN va) bytes))) := by
  have hround : ∀ a, PGROUNDDOWN a / PGSIZE = a / PGSIZE := by grind [PGROUNDDOWN]
  have hsame : ∀ a, a / PGSIZE = va / PGSIZE → PGROUNDDOWN a = PGROUNDDOWN va := by
    grind [PGROUNDDOWN]
  have hwalk : ∀ a, walkaddr (update mem (PGROUNDDOWN va / PGSIZE)
      (some (pg.write (va - PGROUNDDOWN va) bytes))) (PGROUNDDOWN a) =
      if a / PGSIZE = va / PGSIZE then some (pg.write (va - PGROUNDDOWN va) bytes)
      else walkaddr mem (PGROUNDDOWN a) := by grind [walkaddr, update_self, update_of_ne]
  constructor
  · intro a
    rw [userByte, userByte, hwalk a]
    by_cases ha : a / PGSIZE = va / PGSIZE
    · have hin : va - PGROUNDDOWN va ≤ a % PGSIZE ∧
          a % PGSIZE < va - PGROUNDDOWN va + bytes.length ↔ va ≤ a ∧ a < va + bytes.length := by
        grind [PGROUNDDOWN]
      have hat : va ≤ a → a % PGSIZE - (va - PGROUNDDOWN va) = a - va := by grind [PGROUNDDOWN]
      rw [if_pos ha, hsame a ha, hpg, Option.map_some, Option.map_some, Page.data_write]
      by_cases hr : va ≤ a ∧ a < va + bytes.length
      · rw [if_pos hr, if_pos (hin.mpr hr), hat hr.1]
      · rw [if_neg hr, if_neg (hr ∘ hin.mp)]
    · rw [if_neg ha, if_neg]
      grind [PGROUNDDOWN]
  · intro a
    rw [writable, writable, hwalk a]
    split
    · rename_i ha
      rw [hsame a ha, hpg]
      rfl
    · rfl

theorem copyoutLoop_succ (mem : UserMem) (fuel len va : ℕ) :
    copyoutLoop mem (fuel + 1) len va =
      if len = 0 then (true, 0)
      else if writable mem va then
        let n := min (PGSIZE - (va - PGROUNDDOWN va)) len
        let r := copyoutLoop mem fuel (len - n) (PGROUNDDOWN va + PGSIZE)
        (r.1, n + r.2)
      else (false, 0) := by
  rw [copyoutLoop, writable]
  split
  · rfl
  · grind

theorem copyoutLoop_congr {mem' : UserMem} (h : ∀ a, writable mem' a = writable mem a)
    (fuel len va : ℕ) : copyoutLoop mem' fuel len va = copyoutLoop mem fuel len va := by
  induction fuel generalizing len va with
  | zero => rfl
  | succ fuel ih => simp only [copyoutLoop_succ, h, ih]

theorem copyoutMemLoop_fault {fuel : ℕ} {src : List UInt8} (h0 : src.length ≠ 0)
    (hw : writable mem va = false) : copyoutMemLoop (fuel + 1) mem va src = (false, mem) := by
  rw [copyoutMemLoop, if_neg h0]
  cases hpg : walkaddr mem (PGROUNDDOWN va) with
  | none => simp only [hpg]
  | some pg =>
    have hpgw : pg.writable = false := by simpa [writable, hpg] using hw
    simp only [hpg, hpgw, Bool.false_eq_true, if_false]

/-- What `copyout` says of a copy, `r`, is what it does, `r'`: it stores all bytes
of `src`, or those before the first that may not be written. -/
structure StoredUpTo (mem : UserMem) (va : ℕ) (src : List UInt8) (r : Bool × ℕ)
    (r' : Bool × UserMem) : Prop where
  same : r'.1 = r.1
  le : r.2 ≤ src.length
  stores : Stores mem va (src.take r.2) r'.2
  before : ∀ k < r.2, writable mem (va + k) = true
  done : r.1 = true → r.2 = src.length
  fault : r.1 = false → r.2 < src.length ∧ writable mem (va + r.2) = false

namespace StoredUpTo

variable {mem mem' : UserMem} {va n : ℕ} {src : List UInt8} {r : Bool × ℕ} {r' : Bool × UserMem}

theorem nil : StoredUpTo mem va [] (true, 0) (true, mem) :=
  ⟨rfl, le_rfl, Stores.nil, by simp, fun _ => rfl, by simp⟩

theorem bad (h0 : src.length ≠ 0) (hw : writable mem va = false) :
    StoredUpTo mem va src (false, 0) (false, mem) :=
  ⟨rfl, Nat.zero_le _, Stores.nil, by simp, by simp, fun _ => ⟨by omega, hw⟩⟩

theorem writable_page {k : ℕ} (hk : k < PGSIZE - (va - PGROUNDDOWN va)) :
    writable mem (va + k) = writable mem va := by
  have hround : PGROUNDDOWN (va + k) = PGROUNDDOWN va := by grind [PGROUNDDOWN]
  rw [writable, writable, hround]

theorem turn (hn : n = min (PGSIZE - (va - PGROUNDDOWN va)) src.length)
    (hw : writable mem va = true) (hpage : Stores mem va (src.take n) mem')
    (hrest : StoredUpTo mem' (PGROUNDDOWN va + PGSIZE) (src.drop n) r r') :
    StoredUpTo mem va src (r.1, n + r.2) r' := by
  have hle : PGROUNDDOWN va ≤ va ∧ va < PGROUNDDOWN va + PGSIZE := by grind [PGROUNDDOWN]
  have htake : (src.take n).length = n := by
    rw [length_take]
    omega
  have hrle := hrest.le
  rw [length_drop] at hrle
  -- either the page ends here or nothing is left to copy
  have hnext : r.2 = 0 ∨ PGROUNDDOWN va + PGSIZE = va + n := by omega
  refine ⟨hrest.same, ?_, ?_, ?_, ?_, ?_⟩
  · omega
  · rw [take_add]
    rcases hnext with h0 | hva
    · grind [Stores, hrest.stores]
    · refine hpage.trans ?_
      rw [htake, ← hva]
      exact hrest.stores
  · intro k hk
    by_cases hkn : k < n
    · rw [writable_page (by omega)]
      exact hw
    · have hb := hrest.before (k - n) (by omega)
      rw [hpage.writable] at hb
      rwa [show va + k = PGROUNDDOWN va + PGSIZE + (k - n) by omega]
  · grind [hrest.done]
  · intro hfail
    obtain ⟨hlt, hnw⟩ := hrest.fault hfail
    rw [length_drop] at hlt
    rw [hpage.writable] at hnw
    refine ⟨show n + r.2 < src.length by omega, ?_⟩
    show writable mem (va + (n + r.2)) = false
    rwa [show va + (n + r.2) = PGROUNDDOWN va + PGSIZE + r.2 by omega]

end StoredUpTo

theorem copyoutMemLoop_stores {fuel : ℕ} {src : List UInt8} (hfuel : src.length ≤ fuel) :
    StoredUpTo mem va src (copyoutLoop mem fuel src.length va)
      (copyoutMemLoop fuel mem va src) := by
  induction fuel generalizing mem va src with
  | zero =>
    obtain rfl : src = [] := eq_nil_of_length_eq_zero (by omega)
    exact .nil
  | succ fuel ih =>
    by_cases h0 : src.length = 0
    · obtain rfl := eq_nil_of_length_eq_zero h0
      exact .nil
    rw [copyoutLoop_succ, if_neg h0]
    by_cases hw : writable mem va = true
    · rw [if_pos hw]
      obtain ⟨pg, hpg, hpgw⟩ := Option.any_eq_true _ _ |>.mp hw
      rw [copyoutMemLoop, if_neg h0]
      simp only [hpg, hpgw, if_true]
      obtain ⟨n, hn⟩ : ∃ n, n = min (PGSIZE - (va - PGROUNDDOWN va)) src.length := ⟨_, rfl⟩
      rw [← hn]
      have hlen : (src.take n).length ≤ PGSIZE - (va - PGROUNDDOWN va) := by
        rw [length_take]
        omega
      have hpage := stores_page hpg hlen
      have hle : PGROUNDDOWN va ≤ va ∧ va < PGROUNDDOWN va + PGSIZE := by
        simp only [PGROUNDDOWN, PGSIZE]
        omega
      have hrest := @ih (update mem (PGROUNDDOWN va / PGSIZE)
        (some (pg.write (va - PGROUNDDOWN va) (src.take n)))) (PGROUNDDOWN va + PGSIZE)
        (src.drop n) (by rw [length_drop]; omega)
      rw [copyoutLoop_congr hpage.writable, length_drop] at hrest
      exact .turn hn hw hpage hrest
    · have hw' := Bool.eq_false_of_not_eq_true hw
      rw [if_neg hw, copyoutMemLoop_fault h0 hw']
      exact .bad h0 hw'

theorem copyoutMem_stores (mem : UserMem) (va : ℕ) (src : List UInt8) :
    StoredUpTo mem va src (copyout mem va src.length) (copyoutMem mem va src) :=
  copyoutMemLoop_stores le_rfl

theorem copyoutMem_byte (mem : UserMem) (a : ℕ) (ch : UInt8) :
    if writable mem a then
      (copyoutMem mem a [ch]).1 = true ∧ Stores mem a [ch] (copyoutMem mem a [ch]).2
    else copyoutMem mem a [ch] = (false, mem) := by
  split
  · have h := copyoutMem_stores mem a [ch]
    have hok : (copyout mem a [ch].length).1 = true := by grind [StoredUpTo]
    refine ⟨h.same.trans hok, ?_⟩
    have hstores := h.stores
    rwa [h.done hok, take_length] at hstores
  · rename_i hw
    exact copyoutMemLoop_fault (by simp) (Bool.eq_false_of_not_eq_true hw)

end Xv6
