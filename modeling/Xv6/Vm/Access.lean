import Xv6.Lib.Bytes
import Xv6.Vm.Map
import Xv6.Vm.Store

/-!
User memory behind a page table: `walkaddr`, `copyout`, `copyin` and `copyinstr` of
`kernel/vm.c` on physical memory.

A page table shows the pages that are mapped with `PTE_U` (`userMem`), and the copies
through it are the copies of `Vm/Copy` on what it shows: they read the table anew for each
page, which makes no difference as long as what they store is not in the table itself. A
page that is mapped to the physical address 0 counts as not mapped where `walkaddr` is
asked, since 0 is how it says no.
-/

namespace Xv6.Vm

open List
open Function (update update_self update_of_ne)

variable {a : ℕ} {bytes : List UInt8}

/-! ### Bytes -/

def Ram.byte (s : Ram) (page o : ℕ) : UInt8 :=
  UInt8.ofNat (s.word page (Fin.ofNat 512 (o / 8)) >>> (8 * (o % 8)))

def Ram.memmove (s : Ram) (page o : ℕ) (bytes : List UInt8) : Ram :=
  { s with word := update s.word page fun i =>
      if o < 8 * i.val + 8 ∧ 8 * i.val < o + bytes.length then
        leNat ((range 8).map fun k =>
          if o ≤ 8 * i.val + k ∧ 8 * i.val + k < o + bytes.length then
            bytes.getD (8 * i.val + k - o) 0
          else s.byte page (8 * i.val + k))
      else s.word page i }

/-! ### The functions -/

def walkaddr (pagetable va : ℕ) : M ℕ := do
  if va ≥ MAXVA then pure 0
  else
    match ← walk pagetable va false with
    | none => pure 0
    | some (t, i) =>
      let pte := (← get).word t i
      if pte &&& PTE_V = 0 then pure 0
      else if pte &&& PTE_U = 0 then pure 0
      else pure (PTE2PA pte)

/-- The loop of `copyout`. Every turn copies at least one byte. -/
def copyoutLoop (pagetable : ℕ) : (fuel dstva : ℕ) → (src : List UInt8) → M ℤ
  | 0, _, _ => pure 0
  | fuel + 1, dstva, src => do
      if src.length = 0 then pure 0
      else
        let va0 := PGROUNDDOWN dstva
        if va0 ≥ MAXVA then pure (-1)
        else
          match ← walk pagetable va0 false with
          | none => pure (-1)
          | some (t, i) =>
            let pte := (← get).word t i
            if pte &&& PTE_V = 0 ∨ pte &&& PTE_U = 0 ∨ pte &&& PTE_W = 0 then pure (-1)
            else
              let n := min (PGSIZE - (dstva - va0)) src.length
              modify (·.memmove (PTE2PA pte) (dstva - va0) (src.take n))
              copyoutLoop pagetable fuel ((va0 + PGSIZE) % 2 ^ 64) (src.drop n)

def copyout (pagetable dstva : ℕ) (src : List UInt8) : M ℤ :=
  copyoutLoop pagetable src.length dstva src

def copyinLoop (pagetable : ℕ) : (fuel srcva len : ℕ) → M (ℤ × List UInt8)
  | 0, _, _ => pure (0, [])
  | fuel + 1, srcva, len => do
      if len = 0 then pure (0, [])
      else
        let va0 := PGROUNDDOWN srcva
        let pa0 ← walkaddr pagetable va0
        if pa0 = 0 then pure (-1, [])
        else
          let n := min (PGSIZE - (srcva - va0)) len
          let s ← get
          let (r, rest) ← copyinLoop pagetable fuel ((va0 + PGSIZE) % 2 ^ 64) (len - n)
          pure (r, (range n).map (fun k => s.byte pa0 (srcva - va0 + k)) ++ rest)

def copyin (pagetable srcva len : ℕ) : M (ℤ × List UInt8) := copyinLoop pagetable len srcva len

/-- The inner loop of `copyinstr`: whether it came to the end of the string, and
the bytes it has stored. -/
def copyinstrPage (s : Ram) (pa : ℕ) : (n o : ℕ) → Bool × List UInt8
  | 0, _ => (false, [])
  | n + 1, o =>
    if s.byte pa o = 0 then (true, [0])
    else
      let r := copyinstrPage s pa n (o + 1)
      (r.1, s.byte pa o :: r.2)

def copyinstrLoop (pagetable : ℕ) : (fuel srcva max : ℕ) → M (ℤ × List UInt8)
  | 0, _, _ => pure (-1, [])
  | fuel + 1, srcva, max => do
      if max = 0 then pure (-1, [])
      else
        let va0 := PGROUNDDOWN srcva
        let pa0 ← walkaddr pagetable va0
        if pa0 = 0 then pure (-1, [])
        else
          let n := min (PGSIZE - (srcva - va0)) max
          let (gotNull, bytes) := copyinstrPage (← get) pa0 n (srcva - va0)
          if gotNull then pure (0, bytes)
          else
            let (r, rest) ← copyinstrLoop pagetable fuel ((va0 + PGSIZE) % 2 ^ 64) (max - n)
            pure (r, bytes ++ rest)

def copyinstr (pagetable srcva max : ℕ) : M (ℤ × List UInt8) :=
  copyinstrLoop pagetable max srcva max

/-! ### Bytes of words -/

theorem byte_leNat (bs : List UInt8) (j : ℕ) :
    UInt8.ofNat (leNat bs >>> (8 * j)) = bs.getD j 0 := by
  induction bs generalizing j with
  | nil => simp [leNat]
  | cons b bs ih =>
    cases j with
    | zero => simp [leNat, UInt8.ofNat_add, UInt8.ofNat_mul]
    | succ j =>
      have hb := b.toNat_lt
      rw [getD_cons_succ, ← ih j, leNat, Nat.mul_succ, Nat.add_comm (8 * j) 8,
        Nat.shiftRight_add, Nat.shiftRight_eq_div_pow _ 8]
      congr 2
      omega

section Bytes

variable {s : Ram} {page m o k : ℕ} {bytes : List UInt8}

theorem byte_memmove (hk : k < PGSIZE) : (s.memmove page o bytes).byte m k =
    if m = page ∧ o ≤ k ∧ k < o + bytes.length then bytes.getD (k - o) 0 else s.byte m k := by
  by_cases hm : m = page
  · subst hm
    have hi : (Fin.ofNat 512 (k / 8)).val = k / 8 := Nat.mod_eq_of_lt (by norm_num at hk; omega)
    rw [Ram.byte, Ram.memmove]
    simp only [update_self, hi, true_and]
    by_cases hmeet : o < 8 * (k / 8) + 8 ∧ 8 * (k / 8) < o + bytes.length
    · grind [byte_leNat]
    · rw [if_neg hmeet, if_neg (by omega), Ram.byte]
  · rw [if_neg (by simp [hm]), Ram.byte, Ram.byte, Ram.memmove]
    simp only [update_of_ne hm]

theorem word_memmove_ne (hm : m ≠ page) : (s.memmove page o bytes).word m = s.word m :=
  update_of_ne hm ..

end Bytes

/-! ### What a page table shows -/

def userMem (s : Ram) (root : ℕ) : UserMem := fun v =>
  match view s root v with
  | some (pa, flags) => if flags &&& PTE_U ≠ 0 then some ⟨s.byte pa, flags &&& PTE_W ≠ 0⟩ else none
  | none => none

variable {s s' : Ram} {root va v pa flags : ℕ}

/-- Page `v` is mapped with `PTE_U`, to the page `pa`. -/
def UserPage (s : Ram) (root v pa flags : ℕ) : Prop :=
  view s root v = some (pa, flags) ∧ flags &&& PTE_U ≠ 0

theorem userMem_eq (h : UserPage s root v pa flags) :
    userMem s root v = some ⟨s.byte pa, flags &&& PTE_W ≠ 0⟩ := by
  rw [userMem, h.1]
  exact if_pos h.2

theorem userMem_eq_none (h : ∀ pa flags, ¬UserPage s root v pa flags) :
    userMem s root v = none := by
  unfold userMem
  split
  · rename_i pa flags hv
    exact if_neg fun hu => h pa flags ⟨hv, hu⟩
  · rfl

def userPa (s : Ram) (root v : ℕ) : ℕ :=
  match view s root v with
  | some (pa, flags) => if flags &&& PTE_U ≠ 0 then pa else 0
  | none => 0

theorem walkaddr_run (hva : va < MAXVA) :
    (walkaddr root va).run s = .ok (userPa s root (va / PGSIZE), s) := by
  unfold walkaddr
  rw [if_neg (not_le.mpr hva), run_bind_of_ok (walk_find hva), userPa, view_div hva]
  cases ht : table s root va with
  | none => rfl
  | some t =>
    rw [Option.map_some, Option.bind_some, binding]
    show (if s.word t (PX 0 va) &&& PTE_V = 0 then pure 0
      else if s.word t (PX 0 va) &&& PTE_U = 0 then pure 0
      else pure (PTE2PA (s.word t (PX 0 va))) : M ℕ).run s = _
    by_cases hv : s.word t (PX 0 va) &&& PTE_V = 0
    · rw [if_pos hv, if_neg (not_not.mpr hv)]
      rfl
    · rw [if_neg hv, if_pos hv]
      dsimp only
      rw [flags_and rfl]
      by_cases hu : s.word t (PX 0 va) &&& PTE_U = 0
      · rw [if_pos hu, if_neg (not_not.mpr hu)]
        rfl
      · rw [if_neg hu, if_pos hu]
        rfl

/-- Every user page is mapped to a physical page other than the first. -/
def NonZero (s : Ram) (root : ℕ) : Prop := ∀ v pa flags, UserPage s root v pa flags → pa ≠ 0

/-- `walkaddr` finds the pages that the table shows. -/
theorem walkaddr_cases (hnz : NonZero s root) (va : ℕ) :
    ∃ x, (walkaddr root va).run s = .ok (x, s) ∧
    (x = 0 ∧ Xv6.walkaddr (userMem s root) va = none ∨
      x ≠ 0 ∧ va < MAXVA ∧ ∃ flags, UserPage s root (va / PGSIZE) x flags) := by
  by_cases hva : va < MAXVA
  · refine ⟨_, walkaddr_run hva, ?_⟩
    by_cases hu : ∃ pa flags, UserPage s root (va / PGSIZE) pa flags
    · obtain ⟨pa, flags, hu⟩ := hu
      have hpa : userPa s root (va / PGSIZE) = pa := by
        rw [userPa, hu.1]
        exact if_pos hu.2
      exact .inr ⟨hpa ▸ hnz _ _ _ hu, hva, flags, hpa ▸ hu⟩
    · push Not at hu
      left
      rw [Xv6.walkaddr, if_neg (not_le.mpr hva), userMem_eq_none hu]
      refine ⟨?_, rfl⟩
      unfold userPa
      split
      · rename_i pa flags hv
        exact if_neg fun h => hu pa flags ⟨hv, h⟩
      · rfl
  · refine ⟨0, ?_, .inl ⟨rfl, if_pos (not_lt.mp hva)⟩⟩
    unfold walkaddr
    rw [if_pos (not_lt.mp hva)]
    rfl

theorem next_page (ha : PGROUNDDOWN a < MAXVA) :
    (PGROUNDDOWN a + PGSIZE) % 2 ^ 64 = PGROUNDDOWN a + PGSIZE := by
  apply Nat.mod_eq_of_lt
  norm_num at ha ⊢
  omega

theorem copyinLoop_run (hnz : NonZero s root) (fuel va len : ℕ) :
    (copyinLoop root fuel va len).run s =
      .ok ((if (Xv6.copyinLoop (userMem s root) fuel len va).1 then 0 else -1,
        (Xv6.copyinLoop (userMem s root) fuel len va).2), s) := by
  induction fuel generalizing va len with
  | zero => rfl
  | succ fuel ih =>
    unfold copyinLoop Xv6.copyinLoop
    by_cases hlen : len = 0
    · simp only [hlen, if_true]
      rfl
    simp only [if_neg hlen]
    obtain ⟨x, hrun, ⟨rfl, hnone⟩ | ⟨hx, hva, flags, hu⟩⟩ :=
      walkaddr_cases hnz (PGROUNDDOWN va)
    · rw [run_bind_of_ok hrun, hnone]
      rfl
    · rw [run_bind_of_ok hrun, if_neg hx, next_page hva, Xv6.walkaddr, if_neg (not_le.mpr hva),
        userMem_eq hu]
      have hget : (get : M Ram).run s = .ok (s, s) := rfl
      rw [run_bind_of_ok hget, run_bind_of_ok (ih _ _)]
      rfl

theorem copyin_run (hnz : NonZero s root) (va len : ℕ) : (copyin root va len).run s =
    .ok ((if (Xv6.copyin (userMem s root) va len).1 then 0 else -1,
      (Xv6.copyin (userMem s root) va len).2), s) :=
  copyinLoop_run hnz len va len

/-! ### `copyout` -/

/-- The user pages are different pages, and none is a page of the table. -/
structure Plain (s : Ram) (root : ℕ) : Prop where
  nonzero : NonZero s root
  inj : ∀ v w pa f g, UserPage s root v pa f → UserPage s root w pa g → v = w
  apart : ∀ v pa f, UserPage s root v pa f → ¬IsTable s root pa

/-- From `s` to `s'` only bytes of user pages that may be written have changed. -/
structure OnlyUser (s s' : Ram) (root : ℕ) : Prop where
  word : ∀ m, (∀ v flags, UserPage s root v m flags → flags &&& PTE_W = 0) → s'.word m = s.word m
  freelist : s'.freelist = s.freelist
  kend : s'.kend = s.kend

theorem OnlyUser.agree (h : OnlyUser s s' root) (hp : Plain s root) : Agree s s' root :=
  ⟨fun t ht => h.word t fun _ _ hu => absurd ht (hp.apart _ _ _ hu)⟩

theorem OnlyUser.trans {s₁ : Ram} (hp : Plain s root) (h : OnlyUser s s₁ root)
    (h' : OnlyUser s₁ s' root) : OnlyUser s s' root := by
  have hview := (h.agree hp).view_eq
  refine ⟨fun m hm => (h'.word m fun v flags hu => hm v flags ?_).trans (h.word m hm),
    h'.freelist.trans h.freelist, h'.kend.trans h.kend⟩
  rwa [UserPage, hview] at hu

theorem Plain.of_agree (hp : Plain s root) (h : Agree s s' root) : Plain s' root := by
  have hu : ∀ v pa f, UserPage s' root v pa f ↔ UserPage s root v pa f := fun v pa f => by
    rw [UserPage, UserPage, h.view_eq]
  refine ⟨fun v pa f hv => hp.nonzero v pa f ((hu v pa f).mp hv), fun v w pa f g hv hw =>
    hp.inj v w pa f g ((hu v pa f).mp hv) ((hu w pa g).mp hw), fun v pa f hv ht => ?_⟩
  exact hp.apart v pa f ((hu v pa f).mp hv) (h.isTable.mp ht)

theorem onlyUser_memmove (o : ℕ) (bytes : List UInt8) (hu : UserPage s root v pa flags)
    (hw : flags &&& PTE_W ≠ 0) : OnlyUser s (s.memmove pa o bytes) root := by
  refine ⟨fun m hm => word_memmove_ne ?_, rfl, rfl⟩
  rintro rfl
  exact hw (hm v flags hu)

theorem PGROUNDDOWN_div (a : ℕ) : PGROUNDDOWN a / PGSIZE = a / PGSIZE :=
  Nat.mul_div_cancel _ (by decide)

theorem PGROUNDDOWN_lt : PGROUNDDOWN a < MAXVA ↔ a < MAXVA := by
  simp only [PGROUNDDOWN, PGSIZE, MAXVA]
  omega

theorem walkaddr_userMem (ha : a < MAXVA) :
    Xv6.walkaddr (userMem s root) (PGROUNDDOWN a) = userMem s root (a / PGSIZE) := by
  rw [Xv6.walkaddr, if_neg (not_le.mpr (PGROUNDDOWN_lt.mpr ha)), PGROUNDDOWN_div]

theorem userByte_userPage (ha : a < MAXVA) (hu : UserPage s root (a / PGSIZE) pa flags) :
    userByte (userMem s root) a = some (s.byte pa (a % PGSIZE)) := by
  rw [userByte, walkaddr_userMem ha, userMem_eq hu]
  rfl

theorem writable_userPage (ha : a < MAXVA) (hu : UserPage s root (a / PGSIZE) pa flags) :
    writable (userMem s root) a = decide (flags &&& PTE_W ≠ 0) := by
  rw [writable, walkaddr_userMem ha, userMem_eq hu]
  rfl

theorem walkaddr_none (h : ∀ pa flags, a < MAXVA → ¬UserPage s root (a / PGSIZE) pa flags) :
    Xv6.walkaddr (userMem s root) (PGROUNDDOWN a) = none := by
  by_cases ha : a < MAXVA
  · rw [walkaddr_userMem ha]
    exact userMem_eq_none fun pa flags => h pa flags ha
  · exact if_pos (not_lt.mp fun hr => ha (PGROUNDDOWN_lt.mp hr))

theorem stores_memmove (hp : Plain s root) (hva : va < MAXVA)
    (hu : UserPage s root (va / PGSIZE) pa flags) (hw : flags &&& PTE_W ≠ 0)
    (hlen : bytes.length ≤ PGSIZE - (va - PGROUNDDOWN va)) :
    Stores (userMem s root) va bytes (userMem (s.memmove pa (va - PGROUNDDOWN va) bytes) root) := by
  have hview := ((onlyUser_memmove (va - PGROUNDDOWN va) bytes hu hw).agree hp).view_eq
  generalize hs' : s.memmove pa (va - PGROUNDDOWN va) bytes = s' at hview ⊢
  have hpages : ∀ w m f, UserPage s' root w m f ↔ UserPage s root w m f := fun w m f => by
    rw [UserPage, UserPage, hview]
  have hrange : ∀ a, va ≤ a ∧ a < va + bytes.length ↔ a / PGSIZE = va / PGSIZE ∧
      va - PGROUNDDOWN va ≤ a % PGSIZE ∧ a % PGSIZE < va - PGROUNDDOWN va + bytes.length := by
    intro a
    simp only [PGROUNDDOWN, PGSIZE] at hlen ⊢
    omega
  constructor
  · intro a
    by_cases hex : ∃ m f, a < MAXVA ∧ UserPage s root (a / PGSIZE) m f
    · obtain ⟨m, f, ha, hm⟩ := hex
      have hsame : m = pa ↔ a / PGSIZE = va / PGSIZE := by
        constructor
        · rintro rfl
          exact hp.inj _ _ _ _ _ hm hu
        · intro h
          rw [h] at hm
          exact congrArg Prod.fst (Option.some.inj (hm.1.symm.trans hu.1))
      rw [userByte_userPage ha ((hpages _ _ _).mpr hm), userByte_userPage ha hm, ← hs',
        byte_memmove (Nat.mod_lt _ (by decide))]
      simp only [hsame, hrange]
      split
      · grind [PGROUNDDOWN]
      · rfl
    · grind [userByte, walkaddr_none]
  · intro a
    by_cases hex : ∃ m f, a < MAXVA ∧ UserPage s root (a / PGSIZE) m f
    · obtain ⟨m, f, ha, hm⟩ := hex
      rw [writable_userPage ha ((hpages _ _ _).mpr hm), writable_userPage ha hm]
    · grind [writable, walkaddr_none]

theorem OnlyUser.refl (s : Ram) (root : ℕ) : OnlyUser s s root := ⟨fun _ _ => rfl, rfl, rfl⟩

theorem writable_none
    (h : ∀ pa flags, a < MAXVA → UserPage s root (a / PGSIZE) pa flags → flags &&& PTE_W = 0) :
    writable (userMem s root) a = false := by
  by_cases hex : ∃ m f, a < MAXVA ∧ UserPage s root (a / PGSIZE) m f
  · grind [writable_userPage]
  · push Not at hex
    rw [writable, walkaddr_none hex]
    rfl

/-- A turn of the loop of `copyout`: it gives up at a page that may not be
written, or stores into the page of `va` and goes on. -/
theorem copyoutLoop_turn {fuel : ℕ} {src : List UInt8} (h0 : src.length ≠ 0) :
    writable (userMem s root) va = false ∧
        (copyoutLoop root (fuel + 1) va src).run s = .ok (-1, s) ∨
      ∃ pa flags, va < MAXVA ∧ UserPage s root (va / PGSIZE) pa flags ∧ flags &&& PTE_W ≠ 0 ∧
        ∀ n, n = min (PGSIZE - (va - PGROUNDDOWN va)) src.length →
          (copyoutLoop root (fuel + 1) va src).run s =
            (copyoutLoop root fuel (PGROUNDDOWN va + PGSIZE) (src.drop n)).run
              (s.memmove pa (va - PGROUNDDOWN va) (src.take n)) := by
  rw [copyoutLoop, if_neg h0]
  by_cases hva : va < MAXVA
  swap
  · left
    rw [if_pos (not_lt.mp fun h => hva (PGROUNDDOWN_lt.mp h))]
    exact ⟨writable_none fun _ _ ha => absurd ha hva, rfl⟩
  have hround : PGROUNDDOWN va < MAXVA := PGROUNDDOWN_lt.mpr hva
  have htable : table s root (PGROUNDDOWN va) = table s root va := table_page ..
  have hindex : PX 0 (PGROUNDDOWN va) = PX 0 va := PX_page ..
  rw [if_neg (not_le.mpr hround), run_bind_of_ok (walk_find hround), htable, hindex]
  have hview : view s root (va / PGSIZE) = _ := view_div hva
  cases ht : table s root va with
  | none =>
    left
    refine ⟨writable_none fun _ _ _ hu => ?_, rfl⟩
    rw [UserPage, hview, ht] at hu
    exact nomatch hu.1
  | some t =>
    rw [ht, Option.bind_some, binding] at hview
    by_cases hbad : s.word t (PX 0 va) &&& PTE_V = 0 ∨ s.word t (PX 0 va) &&& PTE_U = 0 ∨
        s.word t (PX 0 va) &&& PTE_W = 0
    · left
      refine ⟨writable_none ?_, congrFun (if_pos hbad) s⟩
      · rintro pa flags - ⟨hv, hu⟩
        by_cases hvalid : s.word t (PX 0 va) &&& PTE_V = 0
        · rw [hview, if_neg (not_not.mpr hvalid)] at hv
          cases hv
        · grind [flags_and]
    · push Not at hbad
      right
      rw [if_pos hbad.1] at hview
      refine ⟨_, _, hva, ⟨hview, ?_⟩, ?_, ?_⟩
      · rw [flags_and rfl]
        exact hbad.2.1
      · rw [flags_and rfl]
        exact hbad.2.2
      · rintro n rfl
        refine (congrFun (if_neg ?_) s).trans ?_
        · push Not
          exact hbad
        · rw [next_page hround]
          rfl

theorem copyoutLoop_run {fuel : ℕ} {src : List UInt8} (hp : Plain s root)
    (hfuel : src.length ≤ fuel) : ∃ s' b n, (copyoutLoop root fuel va src).run s =
      .ok (if b then 0 else -1, s') ∧ OnlyUser s s' root ∧
        StoredUpTo (userMem s root) va src (b, n) (b, userMem s' root) := by
  induction fuel generalizing s va src with
  | zero =>
    obtain rfl : src = [] := eq_nil_of_length_eq_zero (by omega)
    exact ⟨s, true, 0, rfl, .refl s root, .nil⟩
  | succ fuel ih =>
    by_cases h0 : src.length = 0
    · obtain rfl := eq_nil_of_length_eq_zero h0
      exact ⟨s, true, 0, rfl, .refl s root, .nil⟩
    obtain ⟨hw, hrun⟩ | ⟨pa, flags, hva, hu, hw, hrun⟩ := copyoutLoop_turn (s := s) h0
    · exact ⟨s, false, 0, hrun, .refl s root, .bad h0 hw⟩
    obtain ⟨n, hn⟩ : ∃ n, n = min (PGSIZE - (va - PGROUNDDOWN va)) src.length := ⟨_, rfl⟩
    have hlen : (src.take n).length ≤ PGSIZE - (va - PGROUNDDOWN va) := by grind
    have honly := onlyUser_memmove (va - PGROUNDDOWN va) (src.take n) hu hw
    have hpage := stores_memmove hp hva hu hw hlen
    have hle : PGROUNDDOWN va ≤ va ∧ va < PGROUNDDOWN va + PGSIZE := by grind [PGROUNDDOWN]
    obtain ⟨s', b, k, hrest, honly', hstored⟩ := @ih _ (PGROUNDDOWN va + PGSIZE) (src.drop n)
      (hp.of_agree (honly.agree hp)) (by rw [length_drop]; omega)
    refine ⟨s', b, n + k, (hrun n hn).trans hrest, honly.trans hp honly', ?_⟩
    refine .turn hn ?_ hpage hstored
    rw [writable_userPage hva hu]
    exact decide_eq_true hw

/-! ### The copies are exact -/

def MayRead (s : Ram) (root a : ℕ) : Prop :=
  a < MAXVA ∧ ∃ pa flags, view s root (a / PGSIZE) = some (pa, flags) ∧ flags &&& PTE_U ≠ 0

def MayWrite (s : Ram) (root a : ℕ) : Prop :=
  a < MAXVA ∧ ∃ pa flags, view s root (a / PGSIZE) = some (pa, flags) ∧ flags &&& PTE_U ≠ 0 ∧
    flags &&& PTE_W ≠ 0

def Ram.load (s : Ram) (root a : ℕ) : UInt8 := s.byte (userPa s root (a / PGSIZE)) (a % PGSIZE)

/-- From `s` to `s'` the bytes are stored at the user address `va`, and nothing
else has changed. -/
structure Sent (s s' : Ram) (root va : ℕ) (bytes : List UInt8) : Prop where
  view_eq : view s' root = view s root
  load : ∀ k < bytes.length, s'.load root (va + k) = bytes.getD k 0
  other : ∀ m o, o < PGSIZE → (∀ k < bytes.length,
    ¬(userPa s root ((va + k) / PGSIZE) = m ∧ (va + k) % PGSIZE = o)) → s'.byte m o = s.byte m o
  freelist_eq : s'.freelist = s.freelist
  kend_eq : s'.kend = s.kend

theorem UserPage.userPa_eq (hu : UserPage s root v pa flags) : userPa s root v = pa := by
  rw [userPa, hu.1]
  exact if_pos hu.2

theorem mayRead_iff : MayRead s root a ↔ userByte (userMem s root) a ≠ none := by
  constructor
  · rintro ⟨ha, pa, flags, hu⟩
    rw [userByte_userPage ha hu]
    exact Option.some_ne_none _
  · intro h
    by_contra hno
    refine h ?_
    rw [userByte, walkaddr_none fun pa flags ha hu => hno ⟨ha, pa, flags, hu⟩]
    rfl

theorem mayWrite_iff : MayWrite s root a ↔ writable (userMem s root) a = true := by
  constructor
  · rintro ⟨ha, pa, flags, hv, hu, hw⟩
    rw [writable_userPage ha ⟨hv, hu⟩]
    exact decide_eq_true hw
  · intro h
    by_contra hno
    refine absurd h (Bool.not_eq_true _ ▸ writable_none fun pa flags ha hu => ?_)
    by_contra hw
    exact hno ⟨ha, pa, flags, hu.1, hu.2, hw⟩

theorem userByte_load (h : MayRead s root a) :
    userByte (userMem s root) a = some (s.load root a) := by
  obtain ⟨ha, pa, flags, hu⟩ := h
  rw [userByte_userPage ha hu, Ram.load, UserPage.userPa_eq hu]

theorem view_lt {b : ℕ × ℕ} (h : view s root v = some b) : v < MAXVA / PGSIZE := by
  by_contra hv
  rw [view, if_neg hv] at h
  cases h

theorem MayRead.of_view_eq (h : MayRead s root a) (hview : view s' root = view s root) :
    MayRead s' root a := by
  rwa [MayRead, hview]

theorem MayWrite.mayRead (h : MayWrite s root a) : MayRead s root a := by
  obtain ⟨ha, pa, flags, hv, hu, -⟩ := h
  exact ⟨ha, pa, flags, hv, hu⟩

theorem Sent.of_stores (hp : Plain s root) (honly : OnlyUser s s' root)
    (hst : Stores (userMem s root) va bytes (userMem s' root))
    (hw : ∀ k < bytes.length, MayWrite s root (va + k)) : Sent s s' root va bytes := by
  have hview := (honly.agree hp).view_eq
  refine ⟨hview, ?_, ?_, honly.freelist, honly.kend⟩
  · intro k hk
    have h := hst.byte (va + k)
    rw [userByte_load ((hw k hk).mayRead.of_view_eq hview), if_pos (by omega),
      Nat.add_sub_cancel_left] at h
    exact Option.some.inj h
  · intro m o ho hout
    by_cases hex : ∃ v flags, UserPage s root v m flags
    · obtain ⟨v, flags, hu⟩ := hex
      -- the byte has one user address, and that is not in the range
      have hdiv : (v * PGSIZE + o) / PGSIZE = v := by
        simp only [PGSIZE] at ho ⊢
        omega
      have hmod : (v * PGSIZE + o) % PGSIZE = o := by
        simp only [PGSIZE] at ho ⊢
        omega
      have hlt := view_lt hu.1
      have ha : v * PGSIZE + o < MAXVA := by grind
      have hu' : UserPage s' root v m flags := by rwa [UserPage, hview]
      have hb := hst.byte (v * PGSIZE + o)
      rw [userByte_userPage ha (by rwa [hdiv]), userByte_userPage ha (by rwa [hdiv]), hmod,
        if_neg] at hb
      · exact Option.some.inj hb
      · grind [hu.userPa_eq]
    · grind [Ram.byte, honly.word]

theorem Sent.load_other (hp : Plain s root) (h : Sent s s' root va bytes)
    (hw : ∀ k < bytes.length, MayWrite s root (va + k)) (ha : ∀ k < bytes.length, a ≠ va + k) :
    s'.load root a = s.load root a := by
  have hpa : userPa s' root (a / PGSIZE) = userPa s root (a / PGSIZE) := by
    rw [userPa, userPa, h.view_eq]
  rw [Ram.load, Ram.load, hpa]
  refine h.other _ _ (Nat.mod_lt _ (by decide)) ?_
  rintro k hk ⟨hsame, hmod⟩
  obtain ⟨-, pa, flags, hv, hu, -⟩ := hw k hk
  have hu' : UserPage s root ((va + k) / PGSIZE) pa flags := ⟨hv, hu⟩
  rw [hu'.userPa_eq] at hsame
  -- the other address has the same page, and so the same page number
  have hdiv : a / PGSIZE = (va + k) / PGSIZE := by
    by_cases hex : ∃ m f, UserPage s root (a / PGSIZE) m f
    · obtain ⟨m, f, hm⟩ := hex
      rw [hm.userPa_eq] at hsame
      exact hp.inj _ _ _ _ _ hm (hsame ▸ hu')
    · refine absurd ?_ (hp.nonzero _ _ _ hu')
      rw [hsame, userPa]
      split
      · rename_i m f hm
        exact if_neg fun hf => hex ⟨m, f, hm, hf⟩
      · rfl
  refine ha k hk ?_
  rw [← Nat.div_add_mod a PGSIZE, hdiv, ← hmod, Nat.div_add_mod]

theorem eq_map_range {f : ℕ → UInt8} (h : ∀ k < bytes.length, bytes.getD k 0 = f k) :
    bytes = (range bytes.length).map f := by
  refine ext_getElem (by simp) fun k hk _ => ?_
  simpa [getD_eq_getElem?_getD, hk] using h k hk

theorem copyin_loads (hnz : NonZero s root) (va len : ℕ) : ∃ r bytes,
    (copyin root va len).run s = .ok ((r, bytes), s) ∧
      (r = 0 ↔ ∀ k < len, MayRead s root (va + k)) ∧
      (r = 0 → bytes = (range len).map fun k => s.load root (va + k)) ∧
      (r ≠ 0 → r = -1 ∧ ∃ n < len, (∀ k < n, MayRead s root (va + k)) ∧
        ¬MayRead s root (va + n) ∧
          bytes = (range n).map fun k => s.load root (va + k)) := by
  have hc : Copied (fun k => userByte (userMem s root) (va + k)) len
      (Xv6.copyin (userMem s root) va len) := copyinLoop_copied _ le_rfl
  refine ⟨_, _, copyin_run hnz va len, ?_⟩
  generalize Xv6.copyin (userMem s root) va len = R at hc ⊢
  obtain ⟨b, bytes⟩ := R
  have hread : ∀ k < bytes.length, MayRead s root (va + k) := fun k hk => by
    rw [mayRead_iff, hc.bytes k hk]
    exact Option.some_ne_none _
  have hbytes : bytes = (range bytes.length).map fun k => s.load root (va + k) := by
    refine eq_map_range fun k hk => Option.some.inj ?_
    exact (hc.bytes k hk).symm.trans (userByte_load (hread k hk))
  cases b with
  | true =>
    have hlen : bytes.length = len := hc.done rfl
    rw [hlen] at hread hbytes
    exact ⟨⟨fun _ => hread, fun _ => rfl⟩, fun _ => hbytes, fun h => absurd rfl h⟩
  | false =>
    obtain ⟨hlt, hnone⟩ := hc.fault rfl
    have hno : ¬MayRead s root (va + bytes.length) := fun h => mayRead_iff.mp h hnone
    have hne : (if false then 0 else -1 : ℤ) ≠ 0 := by decide
    exact ⟨⟨fun h => absurd h hne, fun h => absurd (h _ hlt) hno⟩, fun h => absurd h hne,
      fun _ => ⟨rfl, _, hlt, hread, hno, hbytes⟩⟩

theorem copyout_sent (hp : Plain s root) (va : ℕ) (src : List UInt8) : ∃ r s',
    (copyout root va src).run s = .ok (r, s') ∧ OnlyUser s s' root ∧
      (r = 0 ↔ ∀ k < src.length, MayWrite s root (va + k)) ∧ (r = 0 → Sent s s' root va src) ∧
      (r ≠ 0 → r = -1 ∧ ∃ n < src.length, (∀ k < n, MayWrite s root (va + k)) ∧
        ¬MayWrite s root (va + n) ∧ Sent s s' root va (src.take n)) := by
  obtain ⟨s', b, n, hrun, honly, hst⟩ := @copyoutLoop_run _ _ va _ _ hp (le_refl src.length)
  refine ⟨_, s', hrun, honly, ?_⟩
  have hwrite : ∀ k < n, MayWrite s root (va + k) := fun k hk => mayWrite_iff.mpr (hst.before k hk)
  have hsent : Sent s s' root va (src.take n) := by
    refine .of_stores hp honly hst.stores fun k hk => hwrite k ?_
    rw [length_take] at hk
    omega
  cases b with
  | true =>
    have hlen : n = src.length := hst.done rfl
    rw [hlen, take_length] at hsent
    rw [hlen] at hwrite
    exact ⟨⟨fun _ => hwrite, fun _ => rfl⟩, fun _ => hsent, fun h => absurd rfl h⟩
  | false =>
    obtain ⟨hlt, hnone⟩ := hst.fault rfl
    have hno : ¬MayWrite s root (va + n) := by
      rw [mayWrite_iff, hnone]
      exact Bool.false_ne_true
    have hne : (if false then 0 else -1 : ℤ) ≠ 0 := by decide
    exact ⟨⟨fun h => absurd h hne, fun h => absurd (h _ hlt) hno⟩, fun h => absurd h hne,
      fun _ => ⟨rfl, n, hlt, hwrite, hno, hsent⟩⟩

/-- `copyout` and `copyin` are exact, for a table whose user pages are
different pages other than the first and are not pages of the table itself.
They return 0 when every byte of the range may be written or read, and
otherwise have moved the bytes before the first that may not. -/
theorem copies_exact (hp : Plain s root) (va : ℕ) :
    (∀ src : List UInt8, ∃ r s', (copyout root va src).run s = .ok (r, s') ∧
      (r = 0 ↔ ∀ k < src.length, MayWrite s root (va + k)) ∧
      (r = 0 → Sent s s' root va src ∧
        (copyin root va src.length).run s' = .ok ((0, src), s')) ∧
      (r ≠ 0 → r = -1 ∧ ∃ n < src.length, (∀ k < n, MayWrite s root (va + k)) ∧
        ¬MayWrite s root (va + n) ∧ Sent s s' root va (src.take n))) ∧
    (∀ len, ∃ r bytes, (copyin root va len).run s = .ok ((r, bytes), s) ∧
      (r = 0 ↔ ∀ k < len, MayRead s root (va + k)) ∧
      (r = 0 → bytes = (range len).map fun k => s.load root (va + k)) ∧
      (r ≠ 0 → r = -1 ∧ ∃ n < len, (∀ k < n, MayRead s root (va + k)) ∧
        ¬MayRead s root (va + n) ∧ bytes = (range n).map fun k => s.load root (va + k))) := by
  refine ⟨fun src => ?_, copyin_loads hp.nonzero va⟩
  obtain ⟨r, s', hrun, honly, hiff, hsent, hbad⟩ := copyout_sent hp va src
  refine ⟨r, s', hrun, hiff, fun hr => ⟨hsent hr, ?_⟩, hbad⟩
  -- what was stored is read back
  have hs := hsent hr
  have hp' := hp.of_agree (honly.agree hp)
  obtain ⟨r', bytes, hin, hall, hbytes, -⟩ := copyin_loads hp'.nonzero va src.length
  have hr' := hall.mpr fun k hk => (hiff.mp hr k hk).mayRead.of_view_eq hs.view_eq
  rw [hin, hr', hbytes hr', ← eq_map_range fun k hk => (hs.load k hk).symm]

/-- A table with one page of level 0, at `0x80003000`, that has the given
entries. Every other page begins with `hi`. -/
def lowTable (entry : Fin 512 → ℕ) : Ram where
  word m i :=
    if m = 0x80001000 then if i = 0 then PA2PTE 0x80002000 ||| PTE_V else 0
    else if m = 0x80002000 then if i = 0 then PA2PTE 0x80003000 ||| PTE_V else 0
    else if m = 0x80003000 then entry i
    else if i = 0 then 0x6968 else 0
  freelist := []
  kend := 0x80001000

section LowTable

variable {entry : Fin 512 → ℕ} {i : Fin 512} {p : List (Fin 512)} {t : ℕ}

theorem child_lowTable_root :
    child (lowTable entry) 0x80001000 i = if i = 0 then some 0x80002000 else none := by
  by_cases hi : i = 0
  · have hw : (lowTable entry).word 0x80001000 i = PA2PTE 0x80002000 ||| PTE_V := by
      simp [lowTable, hi]
    rw [child, hw, if_pos hi]
    decide
  · simp [child, lowTable, hi]

theorem child_lowTable_middle :
    child (lowTable entry) 0x80002000 i = if i = 0 then some 0x80003000 else none := by
  by_cases hi : i = 0
  · have hw : (lowTable entry).word 0x80002000 i = PA2PTE 0x80003000 ||| PTE_V := by
      simp [lowTable, hi]
    rw [child, hw, if_pos hi]
    decide
  · simp [child, lowTable, hi]

theorem descend_lowTable (hp : p.length ≤ 2)
    (h : descend (child (lowTable entry)) 0x80001000 p = some t) :
    p = [] ∧ t = 0x80001000 ∨ p = [0] ∧ t = 0x80002000 ∨ p = [0, 0] ∧ t = 0x80003000 := by
  match p, hp with
  | [], _ =>
    cases h
    exact .inl ⟨rfl, rfl⟩
  | [i], _ => grind [descend, child_lowTable_root]
  | [i, j], _ => grind [descend, child_lowTable_root, child_lowTable_middle]

theorem view_lowTable {b : ℕ × ℕ} (h : view (lowTable entry) 0x80001000 v = some b) :
    v < 512 ∧ binding (entry (Fin.ofNat 512 v)) = some b := by
  have hv := view_lt h
  rw [view, if_pos hv] at h
  obtain ⟨t, ht, hb⟩ := Option.bind_eq_some_iff.mp h
  obtain ⟨hp, -⟩ | ⟨hp, -⟩ | ⟨hp, rfl⟩ := descend_lowTable (length_path _ 2).le ht
  · simp [path] at hp
  · simp [path] at hp
  · simp only [path, cons.injEq] at hp
    have h2 := congrArg Fin.val hp.1
    have h1 := congrArg Fin.val hp.2.1
    rw [PX_val] at h2 h1
    have hlt : v < 512 := by
      norm_num at h2 h1 hv
      omega
    refine ⟨hlt, ?_⟩
    have hi : PX 0 (v * PGSIZE) = Fin.ofNat 512 v := by
      apply Fin.ext
      rw [PX_val]
      norm_num
    rwa [hi] at hb

theorem lowTable_userPage {x : ℕ → Option (ℕ × ℕ)} (hx : ∀ i : Fin 512, binding (entry i) = x i)
    (h : UserPage (lowTable entry) 0x80001000 v pa flags) : x v = some (pa, flags) := by
  obtain ⟨hlt, hb⟩ := view_lowTable h.1
  rw [hx, Fin.val_ofNat, Nat.mod_eq_of_lt hlt] at hb
  exact hb

theorem isTable_lowTable (h : IsTable (lowTable entry) 0x80001000 t) : t ≤ 0x80003000 := by
  obtain ⟨p, hp, ht⟩ := h
  obtain ⟨-, rfl⟩ | ⟨-, rfl⟩ | ⟨-, rfl⟩ := descend_lowTable hp ht <;> decide

end LowTable

def onePage : Ram := lowTable fun i => if i = 0 then PA2PTE 0x80004000 ||| 0x17 else 0

theorem onePage_userPage (h : UserPage onePage 0x80001000 v pa flags) :
    v = 0 ∧ pa = 0x80004000 := by
  have hx := lowTable_userPage (x := fun v => if v = 0 then some (0x80004000, 0x17) else none) ?_ h
  · split at hx
    · cases hx
      exact ⟨‹_›, rfl⟩
    · cases hx
  · intro i
    by_cases hi : i = 0
    · subst hi
      decide
    · rw [if_neg hi, if_neg (fun h : i.val = 0 => hi (Fin.ext h)), binding_zero]

theorem onePage_plain : Plain onePage 0x80001000 := by
  refine ⟨fun v pa f h => ?_, fun v w pa f g hv hw => ?_, fun v pa f h ht => ?_⟩
  · obtain ⟨-, rfl⟩ := onePage_userPage h
    decide
  · rw [(onePage_userPage hv).1, (onePage_userPage hw).1]
  · obtain ⟨-, rfl⟩ := onePage_userPage h
    exact absurd (isTable_lowTable ht) (by decide)

theorem copies_exact_onePage : ∃ s', (copyout 0x80001000 10 [7, 8]).run onePage = .ok (0, s') ∧
    (copyin 0x80001000 10 2).run s' = .ok ((0, [7, 8]), s') := by
  obtain ⟨r, s', hrun, hiff, hsent, -⟩ := (copies_exact onePage_plain 10).1 [7, 8]
  have hr : r = 0 := hiff.mpr fun k hk => mayWrite_iff.mpr (by revert k; decide +kernel)
  rw [hr] at hrun
  exact ⟨s', hrun, (hsent hr).2⟩

/-- The page of level 0 is itself mapped, as page 510. -/
def tableMapped : Ram := lowTable fun i =>
  if i = 510 then PA2PTE 0x80003000 ||| 0x17
  else if i = 511 then PA2PTE 0x80004000 ||| 0x17 else 0

theorem tableMapped_userPage (h : UserPage tableMapped 0x80001000 v pa flags) :
    v = 510 ∧ pa = 0x80003000 ∨ v = 511 ∧ pa = 0x80004000 := by
  have hx := lowTable_userPage (x := fun v => if v = 510 then some (0x80003000, 0x17)
    else if v = 511 then some (0x80004000, 0x17) else none) ?_ h
  · grind
  · intro i
    by_cases h₀ : i = 510
    · subst h₀
      decide
    · by_cases h₁ : i = 511
      · subst h₁
        decide
      · grind [binding_zero]

/-- The user pages are different pages other than the first, and the nine bytes
may be written, but with the first eight of them the entry of the ninth is
overwritten. -/
theorem copyout_erases_entry : NonZero tableMapped 0x80001000 ∧
    (∀ v w pa f g, UserPage tableMapped 0x80001000 v pa f →
      UserPage tableMapped 0x80001000 w pa g → v = w) ∧
    (∀ k < 9, MayWrite tableMapped 0x80001000 (511 * PGSIZE - 8 + k)) ∧
    ∃ s', (copyout 0x80001000 (511 * PGSIZE - 8) (replicate 9 0)).run tableMapped =
      .ok (-1, s') := by
  refine ⟨fun v pa f h => ?_, fun v w pa f g hv hw => ?_, fun k hk => ?_, ?_⟩
  · obtain ⟨-, rfl⟩ | ⟨-, rfl⟩ := tableMapped_userPage h <;> decide
  · grind [tableMapped_userPage]
  · rw [mayWrite_iff]
    revert k
    decide +kernel
  · obtain ⟨r, s', hrun, hr⟩ := exists_of_returns (p := fun r _ => decide (r = -1))
      (f := copyout 0x80001000 (511 * PGSIZE - 8) (replicate 9 0)) (s := tableMapped)
      (by decide +kernel)
    exact ⟨s', by rw [hrun, of_decide_eq_true hr]⟩

end Xv6.Vm
