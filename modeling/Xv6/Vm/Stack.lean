import Xv6.Vm.Image

/-!
The stack of a new image: the guard page, the argument strings and the array
of their addresses.

`exec` moves the stack pointer down by the length of a string in `uint64`, and may
wrap around. Such a stack pointer is above `stackbase` and passes the check, but
`copyout` does not find a page there. A push that succeeds is therefore one within
the stack page (`Image.push`).
-/

namespace Xv6.Vm

open List
open Function (update update_self update_of_ne)

variable {s s' s₁ : Ram} {own own' own₁ : ℕ → Owner} {r c m v tramp trapframe sz pa flags : ℕ}
  {V : Set ℕ} {E : Panic → Prop} {p : Proc}
variable {sp : ℕ} {argv : List (List UInt8)}

/-! ### `uvmclear` -/

theorem binding_clear {pte : ℕ} (h : pte &&& PTE_V ≠ 0) :
    binding (pte &&& (2 ^ 64 - 1 - PTE_U)) =
      some (PTE2PA pte, PTE_FLAGS pte &&& (2 ^ 64 - 1 - PTE_U)) := by
  have hvalid : pte &&& (2 ^ 64 - 1 - PTE_U) &&& PTE_V ≠ 0 := by rwa [Nat.and_assoc]
  have hpa : PTE2PA (pte &&& (2 ^ 64 - 1 - PTE_U)) = PTE2PA pte := by
    have hmask : (2 ^ 64 - 1 - PTE_U) >>> 10 = 2 ^ 54 - 1 := by decide
    rw [PTE2PA, PTE2PA, Nat.shiftRight_and_distrib, hmask, Nat.and_two_pow_sub_one_eq_mod,
      Nat.shiftLeft_eq, Nat.shiftLeft_eq]
    omega
  rw [binding, if_pos hvalid, hpa, PTE_FLAGS, PTE_FLAGS, Nat.and_assoc, Nat.and_assoc,
    Nat.and_comm 0x3FF]

theorem Image.clear (h : Image s s₁ own own₁ tramp trapframe c sz) (hv : v < UTOP)
    (hb : view s₁ c v = some (pa, flags)) : wp E (uvmclear c (v * PGSIZE)) (fun _ s' =>
      Image s s' own own₁ tramp trapframe c sz ∧ ∃ flags', flags' &&& PTE_U = 0 ∧
        view s' c = update (view s₁ c) v (some (pa, flags'))) s₁ := by
  have hdiv : v * PGSIZE / PGSIZE = v := Nat.mul_div_cancel _ (by decide)
  have hva : v * PGSIZE < MAXVA := by
    norm_num at hv ⊢
    omega
  have hspace := h.fresh.mem.space
  have hown : own₁ pa = .data c v := hspace.user v _ hb hv
  have hR := hspace.leaf v _ hb
  obtain ⟨t, ht, hvalid, rfl, rfl⟩ := view_entry hva (hdiv.symm ▸ hb)
  generalize hpte : s₁.word t (PX 0 (v * PGSIZE)) = pte at *
  have hnew := binding_clear hvalid
  have hview : view (s₁.setPte t (PX 0 (v * PGSIZE)) (pte &&& (2 ^ 64 - 1 - PTE_U))) c = _ :=
    view_setPte hspace.tree ht hva
  rw [hdiv, hnew] at hview
  have hclear : Space (s₁.setPte t (PX 0 (v * PGSIZE)) (pte &&& (2 ^ 64 - 1 - PTE_U))) own₁ c := by
    refine hspace.setPte ht hva (fun _ => Iff.rfl) ?_ (fun _ _ _ => Iff.rfl) ?_
    · grind
    · grind [hspace.mapped]
  have hsame : ∀ w, w ≠ v → view (s₁.setPte t (PX 0 (v * PGSIZE)) (pte &&& (2 ^ 64 - 1 - PTE_U)))
      c w = view s₁ c w := fun w hw => by rw [hview, update_of_ne hw]
  rw [uvmclear, wp_bind]
  refine wp_of_ok (walk_find hva) ?_
  rw [ht, Option.map_some]
  dsimp only
  rw [wp_bind, wp_get, wp_modify, hpte]
  refine ⟨h.resize ⟨h.fresh.mem.heap.of_eq rfl rfl, h.fresh.mem.rooted, hclear⟩
    (touches_setPte (V := ∅) hspace ht) h.sz_le (fun w hw => ?_) fun w hw => hsame w (by omega),
    _, by rw [Nat.and_assoc]; exact Nat.and_zero _, hview⟩
  rw [← h.sized w hw]
  by_cases hwv : w = v
  · grind [congrFun hview]
  · rw [hsame w hwv]

/-! ### A push -/

namespace Image

variable (h : Image s s₁ own own₁ tramp trapframe c sz)

include h

theorem plain : Plain s₁ c where
  nonzero _ _ _ hu := h.ne_zero hu
  inj v w pa f g hv hw := by
    have hown := (h.own_user hv).symm.trans (h.own_user hw)
    injection hown
  apart v pa f hu ht := by
    have hown := (h.own_user hu).symm.trans ((h.fresh.mem.space.table_iff pa).mpr ht)
    cases hown

theorem only (honly : OnlyUser s₁ s' c) :
    Image s s' own own₁ tramp trapframe c sz ∧ view s' c = view s₁ c :=
  h.store (fun m hm => honly.word m fun v _ hu => absurd (h.own_user hu) (hm v)) honly.freelist
    honly.kend

end Image

def Holds (s : Ram) (c a : ℕ) (bytes : List UInt8) : Prop :=
  ∀ k < bytes.length, s.load c (a + k) = bytes.getD k 0

theorem Holds.congr {a : ℕ} {bytes : List UInt8} (h : Holds s c a bytes)
    (hload : ∀ k < bytes.length, s'.load c (a + k) = s.load c (a + k)) : Holds s' c a bytes :=
  fun k hk => (hload k hk).trans (h k hk)

def align16 (n : ℕ) : ℕ := (n + 15) / 16 * 16

def pushed (sp n : ℕ) : ℕ := uint64 (sp - n) - uint64 (sp - n) % 16

theorem pushed_mod (sp n : ℕ) : pushed sp n % 16 = 0 := by
  unfold pushed
  omega

theorem pushed_eq {n : ℕ} (hsp : sp % 16 = 0) (hle : sp ≤ MAXVA) (hn : 0 < n)
    (hfit : pushed sp n + n ≤ MAXVA) : pushed sp n + align16 n = sp := by
  unfold pushed uint64 align16 at *
  norm_num at hle hfit ⊢
  omega

theorem Image.push (h : Image s s₁ own own₁ tramp trapframe c sz) (bytes : List UInt8)
    (hsp : sp % 16 = 0) (hle : sp ≤ MAXVA) (hpos : 0 < bytes.length) :
    ∃ r s', (copyout c (pushed sp bytes.length) bytes).run s₁ = .ok (r, s') ∧
      Image s s' own own₁ tramp trapframe c sz ∧ view s' c = view s₁ c ∧
      (r < 0 ∨ r = 0 ∧ pushed sp bytes.length + align16 bytes.length = sp ∧
        Holds s' c (pushed sp bytes.length) bytes ∧
        ∀ a, sp ≤ a → s'.load c a = s₁.load c a) := by
  obtain ⟨r, s', hrun, honly, hiff, hsent, hbad⟩ :=
    copyout_sent h.plain (pushed sp bytes.length) bytes
  obtain ⟨h', hview⟩ := h.only honly
  refine ⟨r, s', hrun, h', hview, ?_⟩
  by_cases hr : r = 0
  · right
    have hw := hiff.mp hr
    have hlast := (hw (bytes.length - 1) (by omega)).1
    have hsum := pushed_eq hsp hle hpos (by omega)
    refine ⟨hr, hsum, (hsent hr).load, fun a ha => (hsent hr).load_other h.plain hw fun k hk => ?_⟩
    unfold align16 at hsum
    omega
  · left
    rw [(hbad hr).1]
    decide

/-! ### The arguments -/

/-- The strings lie below `top` one after the other, at the given addresses, down
to `sp`. -/
def Stacked (s : Ram) (c : ℕ) : (top : ℕ) → List (List UInt8) → List ℕ → (sp : ℕ) → Prop
  | top, [], [], sp => sp = top
  | top, arg :: argv, a :: as, sp =>
    a + align16 (arg.length + 1) = top ∧ Holds s c a (arg ++ [0]) ∧ Stacked s c a argv as sp
  | _, _, _, _ => False

def strings (argv : List (List UInt8)) : ℕ := (argv.map fun arg => align16 (arg.length + 1)).sum

namespace Stacked

variable {top sp : ℕ} {argv : List (List UInt8)} {as : List ℕ}

variable (h : Stacked s c top argv as sp)
include h

theorem size : as.length = argv.length ∧ sp + strings argv = top := by
  induction argv generalizing top as with
  | nil =>
    cases as with
    | nil => exact ⟨rfl, h⟩
    | cons a as => exact h.elim
  | cons arg argv ih =>
    cases as with
    | nil => exact h.elim
    | cons a as =>
      obtain ⟨htop, -, hrest⟩ := h
      obtain ⟨hlen, hsum⟩ := ih hrest
      rw [strings, map_cons, sum_cons, ← strings]
      exact ⟨congrArg (· + 1) hlen, by omega⟩

theorem congr (hload : ∀ a, sp ≤ a → a < top → s'.load c a = s.load c a) :
    Stacked s' c top argv as sp := by
  induction argv generalizing top as with
  | nil =>
    cases as with
    | nil => exact h
    | cons a as => exact h.elim
  | cons arg argv ih =>
    cases as with
    | nil => exact h.elim
    | cons a as =>
      obtain ⟨htop, hholds, hrest⟩ := h
      have hle := hrest.size.2
      have hlen : arg.length + 1 ≤ align16 (arg.length + 1) := by
        unfold align16
        omega
      refine ⟨htop, hholds.congr fun k hk => hload _ (by omega) ?_, ih hrest fun x hlo hhi =>
        hload x hlo (by omega)⟩
      rw [length_append, length_singleton] at hk
      omega

theorem holds {i : ℕ} (hi : i < argv.length) :
    Holds s c (as.getD i 0) (argv.getD i [] ++ [0]) ∧ sp ≤ as.getD i 0 ∧
      as.getD i 0 + (argv.getD i []).length + 1 ≤ top := by
  induction argv generalizing top as i with
  | nil => exact absurd hi (Nat.not_lt_zero i)
  | cons arg argv ih =>
    cases as with
    | nil => exact h.elim
    | cons a as =>
      obtain ⟨htop, hholds, hrest⟩ := h
      have hle := hrest.size.2
      have hlen : arg.length + 1 ≤ align16 (arg.length + 1) := by
        unfold align16
        omega
      cases i with
      | zero => exact ⟨hholds, by simp; omega, by simp; omega⟩
      | succ i =>
        obtain ⟨h₁, h₂, h₃⟩ := ih hrest (Nat.lt_of_succ_lt_succ hi)
        rw [getD_cons_succ, getD_cons_succ]
        exact ⟨h₁, h₂, by omega⟩

theorem below {i j : ℕ} (hij : i < j) (hj : j < argv.length) :
    as.getD j 0 + (argv.getD j []).length + 1 ≤ as.getD i 0 := by
  induction argv generalizing top as i j with
  | nil => exact absurd hj (Nat.not_lt_zero j)
  | cons arg argv ih =>
    cases as with
    | nil => exact h.elim
    | cons a as =>
      obtain ⟨htop, hholds, hrest⟩ := h
      cases j with
      | zero => exact absurd hij (Nat.not_lt_zero i)
      | succ j =>
        have hj' := Nat.lt_of_succ_lt_succ hj
        cases i with
        | zero => exact (hrest.holds hj').2.2
        | succ i => exact ih hrest (Nat.lt_of_succ_lt_succ hij) hj'

end Stacked

theorem pushLoop_wp {base : ℕ} {ustack : List ℕ} (h : Image s s₁ own own₁ tramp trapframe c sz)
    (hsp : sp % 16 = 0) (hle : sp ≤ MAXVA) (hbase : base ≤ sp) (hlen : ustack.length ≤ MAXARG) :
    wp E (pushLoop c base argv sp ustack) (fun x s' =>
      Image s s' own own₁ tramp trapframe c sz ∧ view s' c = view s₁ c ∧
      ∀ sp' us, x = some (sp', us) → us.length ≤ MAXARG ∧ base ≤ sp' ∧ sp' % 16 = 0 ∧
        (∀ a, sp ≤ a → s'.load c a = s₁.load c a) ∧
        ∃ as, us = ustack ++ as ∧ Stacked s' c sp argv as sp') s₁ := by
  induction argv generalizing s₁ sp ustack with
  | nil =>
    refine ⟨h, rfl, ?_⟩
    rintro sp' us ⟨⟩
    exact ⟨hlen, hbase, hsp, fun _ _ => rfl, [], (append_nil _).symm, rfl⟩
  | cons arg argv ih =>
    refine wp.ite (fun _ => ⟨h, rfl, nofun⟩) fun hroom => ?_
    refine wp.ite (fun _ => ⟨h, rfl, nofun⟩) fun hge => ?_
    obtain ⟨r, s₂, hrun, h₂, hview₂, hres⟩ := h.push (arg ++ [0]) hsp hle (by simp)
    rw [length_append, length_singleton] at hrun hres
    rw [wp_bind]
    refine wp_of_ok hrun ?_
    obtain hneg | ⟨rfl, hsum, hholds, hkept⟩ := hres
    · rw [if_pos hneg]
      exact ⟨h₂, hview₂, nofun⟩
    refine (ih h₂ (pushed_mod ..) (by omega) (not_lt.mp hge) ?_).mono ?_
    · rw [length_append, length_singleton]
      omega
    rintro x s' ⟨h', hview', hpost⟩
    refine ⟨h', hview'.trans hview₂, fun sp' us hx => ?_⟩
    obtain ⟨hus, hbase', hsp', hkept', as, rfl, hstacked⟩ := hpost sp' us hx
    refine ⟨hus, hbase', hsp', fun a ha => (hkept' a (by omega)).trans (hkept a ha),
      pushed sp (arg.length + 1) :: as, append_assoc .., hsum, ?_, hstacked⟩
    exact hholds.congr fun k _ => hkept' _ (Nat.le_add_right ..)

/-! ### The stack of an image -/

/-- The stack below `top`: the strings, and below them the array of their addresses, which ends
with 0. -/
structure Passed (s : Ram) (c top : ℕ) (argv : List (List UInt8)) (as : List ℕ) (sp : ℕ) :
    Prop where
  aligned : sp % 16 = 0
  stacked : Stacked s c top argv as (sp + align16 ((argv.length + 1) * 8))
  array : Holds s c sp ((as ++ [0]).flatMap (leBytes 8))

def stackNeed (argv : List (List UInt8)) : ℕ := strings argv + align16 ((argv.length + 1) * 8)

theorem length_flatMap_leBytes (xs : List ℕ) : (xs.flatMap (leBytes 8)).length = xs.length * 8 := by
  simp [length_flatMap]

theorem pushArgs_wp {base : ℕ} (h : Image s s₁ own own₁ tramp trapframe c sz) (hsp : sp % 16 = 0)
    (hle : sp ≤ MAXVA) (hbase : base ≤ sp) : wp (fun e => e = .ustack ∧ argv.length = MAXARG)
      (pushArgs c sp base argv) (fun x s' =>
        Image s s' own own₁ tramp trapframe c sz ∧ view s' c = view s₁ c ∧
        ∀ sp', x = some sp' → base ≤ sp' ∧ ∃ as, Passed s' c sp argv as sp') s₁ := by
  refine wp.bind (pushLoop_wp h hsp hle hbase (Nat.zero_le _)) ?_
  rintro (- | ⟨sp₂, us⟩) s₂ ⟨h₂, hview₂, hpost⟩
  · exact ⟨h₂, hview₂, nofun⟩
  obtain ⟨hus, hbase₂, hsp₂, -, as, rfl, hstacked⟩ := hpost sp₂ us rfl
  obtain ⟨hlen, hsum⟩ := hstacked.size
  refine wp.ite (fun hfull => ⟨rfl, by omega⟩) fun hroom => ?_
  refine wp.ite (fun _ => ⟨h₂, hview₂, nofun⟩) fun hge => ?_
  obtain ⟨r, s₃, hrun, h₃, hview₃, hres⟩ :=
    h₂.push ((us ++ [0]).flatMap (leBytes 8)) hsp₂ (by omega) (by simp)
  rw [length_flatMap_leBytes, length_append, length_singleton] at hrun hres
  rw [wp_bind]
  refine wp_of_ok hrun ?_
  obtain hneg | ⟨rfl, hsum₃, hholds, hkept⟩ := hres
  · rw [if_pos hneg]
    exact ⟨h₃, hview₃.trans hview₂, nofun⟩
  refine ⟨h₃, hview₃.trans hview₂, ?_⟩
  rintro sp' ⟨⟩
  refine ⟨not_lt.mp hge, us, pushed_mod .., ?_, hholds⟩
  rw [← hlen, ← pushed, hsum₃]
  exact hstacked.congr fun a hlo _ => hkept a hlo

/-- A stack of one page at the top of the image, above a page that the user may not use. -/
structure Stack (s : Ram) (c sz : ℕ) (argv : List (List UInt8)) (sp : ℕ) : Prop where
  mod : sz % PGSIZE = 0
  le : sz ≤ UTOP * PGSIZE
  room : (USERSTACK + 1) * PGSIZE ≤ sz
  page : ∃ pa, view s c (sz / PGSIZE - 1) = some (pa, PTE_R ||| PTE_U ||| PTE_W ||| PTE_V)
  guard : ∃ pa flags, view s c (sz / PGSIZE - 2) = some (pa, flags) ∧ flags &&& PTE_U = 0
  base : sz - USERSTACK * PGSIZE ≤ sp
  passed : ∃ as, Passed s c sz argv as sp

theorem makeStack_wp (h : Image s s₁ own own₁ tramp trapframe c sz) :
    wp (fun e => e = .ustack ∧ argv.length = MAXARG) (makeStack c sz argv) (fun x s' =>
      (∃ own', Image s s' own own' tramp trapframe c x.2) ∧
      ∀ sp, x.1 = some sp → Stack s' c x.2 argv sp) s₁ := by
  have hpages := h.pages_le
  obtain ⟨n, hn⟩ : ∃ n, n = npages sz := ⟨_, rfl⟩
  have hround := hn ▸ PGROUNDUP_eq sz
  have hmul : npages (n * PGSIZE) = n := npages_mul (by norm_num at hpages ⊢; omega)
  have h₁ : Image s s₁ own own₁ tramp trapframe c (n * PGSIZE) := by
    refine h.resize h.fresh.mem (.refl c ∅ _ _) ?_ ?_ fun _ _ => rfl
    · norm_num at hpages ⊢
      omega
    · rw [hmul, hn]
      exact h.sized
  have hnew : (n * PGSIZE + (USERSTACK + 1) * PGSIZE) % 2 ^ 64 = (n + 2) * PGSIZE := by grind
  rw [makeStack, hround, hnew]
  refine wp.bind (h₁.alloc (by decide)) ?_
  rintro x s₂ (⟨rfl, own₂, h₂⟩ | ⟨hx, hmax, ⟨own₂, h₂⟩, -, hfresh⟩)
  · exact ⟨⟨own₂, h₂⟩, nofun⟩
  rw [if_neg hx]
  have hle := h₂.pages_le
  obtain rfl : x = (n + 2) * PGSIZE := by
    rw [hmax]
    norm_num
  have hmul₂ : npages ((n + 2) * PGSIZE) = n + 2 := npages_mul (by norm_num at hpages ⊢; omega)
  rw [hmul, hmul₂] at hfresh
  obtain ⟨pa, hguard⟩ := hfresh n le_rfl (by omega)
  obtain ⟨pa', hstack⟩ := hfresh (n + 1) (by omega) (by omega)
  have hva : uint64 (((n + 2) * PGSIZE : ℕ) - ((USERSTACK + 1) * PGSIZE : ℕ)) = n * PGSIZE := by
    grind [uint64]
  have hbase : uint64 (((n + 2) * PGSIZE : ℕ) - (USERSTACK * PGSIZE : ℕ)) = (n + 1) * PGSIZE := by
    grind [uint64]
  rw [hva, hbase]
  refine wp.bind (h₂.clear (by norm_num at hpages ⊢; omega) hguard) ?_
  rintro - s₃ ⟨h₃, flags', hnone, hview₃⟩
  refine wp.bind (pushArgs_wp h₃ (by norm_num; omega) (by norm_num at hpages ⊢; omega)
    (Nat.mul_le_mul_right _ (by omega))) ?_
  rintro y s₄ ⟨h₄, hview₄, hpost⟩
  refine ⟨⟨own₂, h₄⟩, fun sp hsp => ?_⟩
  obtain ⟨hge, hpassed⟩ := hpost sp hsp
  have hdiv : (n + 2) * PGSIZE / PGSIZE = n + 2 := Nat.mul_div_cancel _ (by decide)
  have htwo : USERSTACK + 1 ≤ n + 2 := Nat.le_add_left 2 n
  have hpage : view s₄ c (n + 1) = some (pa', PTE_R ||| PTE_U ||| PTE_W ||| PTE_V) := by
    rw [hview₄, hview₃, update_of_ne (by omega), hstack]
  have hcleared : view s₄ c n = some (pa, flags') := by rw [hview₄, hview₃, update_self]
  show Stack s₄ c ((n + 2) * PGSIZE) argv sp
  refine ⟨Nat.mul_mod_left .., h₄.sz_le, Nat.mul_le_mul_right _ htwo, ⟨pa', ?_⟩,
    ⟨pa, flags', ?_⟩, ?_,
    hpassed⟩
  · rwa [hdiv]
  · rw [hdiv]
    exact ⟨hcleared, hnone⟩
  rw [← Nat.sub_mul]
  exact hge

end Xv6.Vm
