import Xv6.Umalloc.Tiling

/-!
`free` keeps the heap in order.

The loop of `free` finds the last free block below the one that is given back,
or `base` (`Inv.search_free`). What follows has two halves: the block is joined
to the one behind it or linked to the rest of the free list (`Mid`), and then the
block before it is joined or linked to it.
-/

namespace Xv6.Umalloc

open List
open Function (update update_self update_of_ne)

variable {base start : ℕ} {h : Heap} {B₁ B₂ : List Blk} {b : Blk}

namespace Inv

section

variable (hI : Inv base start h (B₁ ++ b :: B₂))
include hI

theorem sides : Tiles start B₁ b.addr ∧ 0 < b.units ∧ Tiles b.top B₂ h.brk := by
  obtain ⟨m, h₁, rfl, hpos, h₂⟩ := tiles_append.mp hI.tiles
  exact ⟨h₁, hpos, h₂⟩

theorem start_le : base < b.addr := by
  have hle := hI.sides.1.le
  have hbelow := hI.below
  omega

theorem lower {z : ℕ} (hz : z ∈ base :: frees B₁) : z < b.addr := by
  rcases mem_cons.mp hz with rfl | hz
  · exact hI.start_le
  · obtain ⟨x, hx, -, rfl⟩ := mem_frees.mp hz
    obtain ⟨-, hpos, htop⟩ := hI.sides.1.mem hx
    rw [Blk.top] at htop
    omega

theorem upper {z : ℕ} (hz : z ∈ frees B₂) : b.top ≤ z := by
  obtain ⟨x, hx, -, rfl⟩ := mem_frees.mp hz
  exact (hI.sides.2.2.mem hx).1

end

theorem frees_eq (hb : b.use ≠ none) : frees (B₁ ++ b :: B₂) = frees B₁ ++ frees B₂ := by
  rw [frees_append, frees_used hb]

theorem search_free (hI : Inv base start h (B₁ ++ b :: B₂)) (hb : b.use ≠ none) {fuel : ℕ}
    (hfuel : (frees (B₁ ++ b :: B₂)).length + 1 ≤ fuel) :
    search h.ptr (h.fits b.addr) fuel h.freep = some ((frees B₁).getLastD base) := by
  have hring := hI.ring
  have hsorted := hI.tiles.frees_sorted (show base < start from by have := hI.below; omega)
  have hfreep := hI.freep
  rw [frees_eq hb] at hring hsorted hfreep hfuel
  refine search_linked hring hfreep ?_ (fun z hz => ?_) hfuel
  · grind
  · have hpos := hI.sides.2.1
    rw [Heap.fits, decide_eq_true_eq]
    refine hring.gap_iff hsorted (fun y hy => hI.lower hy) (fun y hy => ?_) hz
    have := hI.upper hy
    rw [Blk.top] at this
    omega

end Inv

/-- The block `bp` of `u` units is free and linked to the free blocks behind it,
and nothing leads to it yet. -/
structure Mid (base start : ℕ) (h : Heap) (B₁ : List Blk) (bp u : ℕ) (R : List Blk) : Prop where
  tiles : Tiles start (B₁ ++ ⟨bp, u, none⟩ :: R) h.brk
  sizes : ∀ x ∈ B₁ ++ ⟨bp, u, none⟩ :: R, h.size x.addr = x.units
  left : Apart B₁
  right : Apart (⟨bp, u, none⟩ :: R)
  before : ∃ q, Linked h.ptr base (frees B₁) q
  after : Linked h.ptr bp (frees R) base
  baseSize : h.size base = 0
  below : base + 16 ≤ start

theorem Inv.linkUpper (hI : Inv base start h (B₁ ++ b :: B₂)) (hb : b.use ≠ none)
    (hhead : ∀ c ∈ B₂.head?, c.use ≠ none) :
    Mid base start (h.joinUpper b.addr ((frees B₁).getLastD base)) B₁ b.addr b.units B₂ := by
  obtain ⟨hleft, hpos, hright⟩ := hI.sides
  have hring := hI.ring
  rw [frees_eq hb] at hring
  have hbsize : h.size b.addr = b.units := hI.sizes b (by simp)
  -- the next free block does not begin where `b` ends
  have hcond : ¬b.addr + 16 * h.size b.addr = h.ptr ((frees B₁).getLastD base) := by
    rw [hbsize]
    intro heq
    have hafter := hring.from_last
    cases hF : frees B₂ with
    | nil =>
      rw [hF] at hafter
      have hbase := hI.start_le
      have : h.ptr ((frees B₁).getLastD base) = base := hafter
      omega
    | cons f F =>
      rw [hF] at hafter
      obtain ⟨x, hx, hfree, hxf⟩ := mem_frees.mp (show f ∈ frees B₂ by simp [hF])
      have hxtop : x.addr = b.top := by
        rw [hxf, ← hafter.1, ← heq]
        rfl
      cases B₂ with
      | nil => cases hx
      | cons c B₃ =>
        have hcx : c = x := hright.addr_inj (mem_cons_self ..) hx
          (hright.1.trans hxtop.symm)
        exact hhead c rfl (hcx ▸ hfree)
  have hne : ∀ z ∈ base :: frees B₁, z ≠ b.addr := fun z hz => (hI.lower hz).ne
  rw [Heap.joinUpper, if_neg hcond]
  refine ⟨?_, ?_, (isChain_append.mp hI.apart).1, ?_, ?_, ?_, hI.baseSize, hI.below⟩
  · exact tiles_append.mpr ⟨b.addr, hleft, rfl, hpos, hright⟩
  · intro x hx
    simp only [mem_append, mem_cons] at hx
    rcases hx with hx | rfl | hx
    · exact hI.sizes x (by simp [hx])
    · exact hbsize
    · exact hI.sizes x (by simp [hx])
  · rw [Apart, isChain_cons]
    refine ⟨fun c hc => .inr (hhead c hc), ?_⟩
    exact (isChain_cons.mp (isChain_append.mp hI.apart).2.1).2
  · refine ⟨_, hring.to_last.congr fun z hz => ?_⟩
    exact update_of_ne (hne z hz) ..
  · refine hring.from_last.shift (update_self ..) fun z hz => ?_
    refine update_of_ne ?_ ..
    have := hI.upper hz
    rw [Blk.top] at this
    omega

theorem Inv.mergeUpper {c : Blk} {B₃ : List Blk} (hI : Inv base start h (B₁ ++ b :: c :: B₃))
    (hb : b.use ≠ none) (hc : c.use = none) (hfits : b.units + c.units < 2 ^ 32) :
    Mid base start (h.joinUpper b.addr ((frees B₁).getLastD base)) B₁ b.addr (b.units + c.units)
      B₃ := by
  obtain ⟨hleft, hpos, hcaddr, hcpos, hright⟩ := hI.sides
  have hring := hI.ring
  rw [frees_eq hb, frees_free hc] at hring
  have hbsize : h.size b.addr = b.units := hI.sizes b (by simp)
  have hcsize : h.size c.addr = c.units := hI.sizes c (by simp)
  have hnext := hring.from_last.1
  have hsum : uint (b.units + c.units) = b.units + c.units := Nat.mod_eq_of_lt hfits
  have hne : ∀ z ∈ base :: frees B₁, z ≠ b.addr := fun z hz => (hI.lower hz).ne
  have hcond : b.addr + 16 * h.size b.addr = h.ptr ((frees B₁).getLastD base) := by
    rw [hbsize, hnext, hcaddr]
    rfl
  rw [Heap.joinUpper, if_pos hcond, hnext, hbsize, hcsize, hsum]
  have hsizes : ∀ x ∈ B₁ ++ B₃, x.addr ≠ b.addr := by
    intro x hx
    rcases mem_append.mp hx with hx | hx
    · obtain ⟨-, hxpos, htop⟩ := hleft.mem hx
      rw [Blk.top] at htop
      omega
    · have := (hright.mem hx).1
      simp only [Blk.top] at hcaddr this
      omega
  refine ⟨?_, ?_, (isChain_append.mp hI.apart).1, ?_, ?_, ?_, ?_, hI.below⟩
  · refine tiles_append.mpr ⟨b.addr, hleft, rfl, by simp only; omega, ?_⟩
    have htop : (⟨b.addr, b.units + c.units, none⟩ : Blk).top = c.top := by grind [Blk.top]
    rw [htop]
    exact hright
  · intro x hx
    simp only [mem_append, mem_cons] at hx
    rcases hx with hx | rfl | hx
    · refine (update_of_ne (hsizes x (by simp [hx])) ..).trans ?_
      exact hI.sizes x (by simp [hx])
    · exact update_self ..
    · refine (update_of_ne (hsizes x (by simp [hx])) ..).trans ?_
      exact hI.sizes x (by simp [hx])
  · -- the block behind `c` is in use, since `c` is free
    have hchain := isChain_cons.mp (isChain_cons.mp (isChain_append.mp hI.apart).2.1).2
    rw [Apart, isChain_cons]
    refine ⟨fun y hy => .inr ?_, hchain.2⟩
    exact (hchain.1 y hy).resolve_left (fun hne => hne hc)
  · refine ⟨_, hring.to_last.congr fun z hz => ?_⟩
    exact update_of_ne (hne z hz) ..
  · refine hring.from_last.2.shift (update_self ..) fun z hz => ?_
    refine update_of_ne ?_ ..
    obtain ⟨x, hx, -, rfl⟩ := mem_frees.mp hz
    exact hsizes x (by simp [hx])
  · exact (update_of_ne hI.start_le.ne ..).trans hI.baseSize

/-- `b` has been joined to what is behind it: `u` units, and `R` is what comes then. -/
structure Upper (B₂ : List Blk) (b : Blk) (u : ℕ) (R : List Blk) : Prop where
  le : b.units ≤ u
  eq : u ≤ b.units + spare B₂.head?
  subset : R ⊆ B₂
  used_eq : used R = used B₂
  length : (frees R).length ≤ (frees B₂).length

theorem Inv.joinUpper (hI : Inv base start h (B₁ ++ b :: B₂)) (hb : b.use ≠ none)
    (hfits : b.units + spare B₂.head? < 2 ^ 32) :
    ∃ u R, Mid base start (h.joinUpper b.addr ((frees B₁).getLastD base)) B₁ b.addr u R ∧
      Upper B₂ b u R := by
  have hlink : Upper B₂ b b.units B₂ :=
    ⟨le_rfl, Nat.le_add_right .., Subset.refl _, rfl, le_rfl⟩
  cases B₂ with
  | nil => exact ⟨_, _, hI.linkUpper hb (by simp), hlink⟩
  | cons c B₃ =>
    by_cases hc : c.use = none
    · have hspare : spare (c :: B₃).head? = c.units := if_pos hc
      rw [hspare] at hfits
      refine ⟨_, _, hI.mergeUpper hb hc hfits, Nat.le_add_right _ _, by rw [hspare],
        subset_cons_self .., (used_free hc).symm, ?_⟩
      rw [frees_free hc]
      exact Nat.le_succ _
    · refine ⟨_, _, hI.linkUpper hb ?_, hlink⟩
      rintro _ ⟨⟩
      exact hc

/-! ### The block before -/

/-- The blocks `B` are those of `B₁` and `R` and a free one between them, of at least `u`
units and up to `top`, to which the neighbours may have been joined. -/
structure Freed (B₁ R : List Blk) (top u : ℕ) (B : List Blk) : Prop where
  used_eq : used B = used B₁ ++ used R
  length : (frees B).length ≤ (frees B₁).length + (frees R).length + 1
  large : ∃ x ∈ B, x.use = none ∧ u ≤ x.units
  old : ∀ x ∈ B, x.use = none → x ∈ B₁ ++ R ∨ x.top = top

namespace Mid

variable {bp u : ℕ} {R : List Blk}

section

variable (hM : Mid base start h B₁ bp u R)
include hM

theorem sides : Tiles start B₁ bp ∧ 0 < u ∧ Tiles (bp + 16 * u) R h.brk := by
  obtain ⟨m, h₁, rfl, hpos, h₂⟩ := tiles_append.mp hM.tiles
  exact ⟨h₁, hpos, h₂⟩

theorem lower {z : ℕ} (hz : z ∈ base :: frees B₁) : z < bp := by
  have hle := hM.sides.1.le
  have hbelow := hM.below
  rcases mem_cons.mp hz with rfl | hz
  · omega
  · obtain ⟨x, hx, -, rfl⟩ := mem_frees.mp hz
    obtain ⟨-, hpos, htop⟩ := hM.sides.1.mem hx
    rw [Blk.top] at htop
    omega

theorem upper {z : ℕ} (hz : z ∈ frees R) : bp < z := by
  obtain ⟨x, hx, -, rfl⟩ := mem_frees.mp hz
  have hpos := hM.sides.2.1
  have := (hM.sides.2.2.mem hx).1
  omega

theorem linkLower (hlast : ∀ d ∈ B₁.getLast?, d.use ≠ none) :
    Inv base start
      { h.joinLower bp ((frees B₁).getLastD base) with freep := (frees B₁).getLastD base }
      (B₁ ++ ⟨bp, u, none⟩ :: R) := by
  obtain ⟨hleft, hpos, hright⟩ := hM.sides
  have hmem : (frees B₁).getLastD base ∈ base :: frees B₁ := getLastD_mem_cons
  have hlt := hM.lower hmem
  have hcond : ¬(frees B₁).getLastD base + 16 * h.size ((frees B₁).getLastD base) = bp := by
    intro heq
    rcases mem_cons.mp hmem with hbase | hfree
    · rw [hbase, hM.baseSize] at heq
      omega
    · obtain ⟨x, hx, hxfree, hxp⟩ := mem_frees.mp hfree
      rw [← hxp, hM.sizes x (by simp [hx])] at heq
      -- a block that ends at `bp` is the last one
      obtain ⟨A, C, rfl⟩ := append_of_mem hx
      obtain ⟨m, -, -, -, hC⟩ := tiles_append.mp hleft
      cases C with
      | nil => exact hlast x (by simp) hxfree
      | cons y C =>
        obtain ⟨hy, hypos, hC⟩ := hC
        have := hC.le
        simp only [Blk.top] at hy this
        omega
  have hnd := hleft.frees_nodup (show base < start from by have := hM.below; omega)
  rw [Heap.joinLower, if_neg hcond]
  obtain ⟨q, hbefore⟩ := hM.before
  have hring : Linked (update h.ptr ((frees B₁).getLastD base) bp) base
      (frees B₁ ++ bp :: frees R) base := by
    refine linked_append.mpr ⟨hbefore.retarget hnd bp, hM.after.congr fun z hz => ?_⟩
    refine update_of_ne ?_ ..
    rcases mem_cons.mp hz with rfl | hz
    · exact hlt.ne'
    · exact (hlt.trans (hM.upper hz)).ne'
  refine ⟨hM.tiles, hM.sizes, ?_, ?_, ?_, hM.baseSize, hM.below⟩
  · exact isChain_append.mpr ⟨hM.left, hM.right, fun d hd _ _ => .inl (hlast d hd)⟩
  · rw [frees_append, frees_free rfl]
    exact hring
  · grind [frees_append]

end

theorem mergeLower {B₀ : List Blk} {d : Blk} (hM : Mid base start h (B₀ ++ [d]) bp u R)
    (hd : d.use = none) (hfits : d.units + u < 2 ^ 32) :
    Inv base start { h.joinLower bp d.addr with freep := d.addr }
      (B₀ ++ ⟨d.addr, d.units + u, none⟩ :: R) := by
  obtain ⟨hleft, hpos, hright⟩ := hM.sides
  obtain ⟨m, hB₀, rfl, hdpos, hdtop⟩ := tiles_append.mp hleft
  have hstart := hB₀.le
  have hbelow := hM.below
  have hdsize : h.size d.addr = d.units := hM.sizes d (by simp)
  have hbpsize : h.size bp = u := hM.sizes ⟨bp, u, none⟩ (by simp)
  have hcond : d.addr + 16 * h.size d.addr = bp := by
    rw [hdsize]
    exact hdtop
  have hsum : uint (d.units + u) = d.units + u := Nat.mod_eq_of_lt hfits
  rw [Heap.joinLower, if_pos hcond, hdsize, hbpsize, hsum]
  have hsizes : ∀ x ∈ B₀ ++ R, x.addr ≠ d.addr := by
    intro x hx
    rcases mem_append.mp hx with hx | hx
    · obtain ⟨-, hxpos, htop⟩ := hB₀.mem hx
      rw [Blk.top] at htop
      omega
    · have := (hright.mem hx).1
      omega
  obtain ⟨q, hbefore⟩ := hM.before
  rw [frees_append, frees_free hd, linked_append] at hbefore
  have hring : Linked (update h.ptr d.addr (h.ptr bp)) base
      (frees B₀ ++ d.addr :: frees R) base := by
    refine linked_append.mpr ⟨hbefore.1.congr fun z hz => ?_,
      hM.after.shift (update_self ..) fun z hz => ?_⟩
    · grind [mem_frees.mp]
    · grind [mem_frees.mp]
  refine ⟨?_, ?_, ?_, ?_, ?_, ?_, hM.below⟩
  · refine tiles_append.mpr ⟨d.addr, hB₀, rfl, by simp only; omega, ?_⟩
    have htop : (⟨d.addr, d.units + u, none⟩ : Blk).top = bp + 16 * u := by grind [Blk.top]
    rw [htop]
    exact hright
  · intro x hx
    simp only [mem_append, mem_cons] at hx
    rcases hx with hx | rfl | hx
    · refine (update_of_ne (hsizes x (by simp [hx])) ..).trans ?_
      exact hM.sizes x (by simp [hx])
    · exact update_self ..
    · refine (update_of_ne (hsizes x (by simp [hx])) ..).trans ?_
      exact hM.sizes x (by simp [hx])
  · obtain ⟨hc₀, -, hlast⟩ := isChain_append.mp hM.left
    have hR := isChain_cons.mp hM.right
    refine isChain_append.mpr ⟨hc₀, isChain_cons.mpr ⟨hR.1, hR.2⟩, ?_⟩
    rintro x hx _ ⟨⟩
    exact .inl ((hlast x hx d rfl).resolve_right fun hne => hne hd)
  · rw [frees_append, frees_free rfl]
    exact hring
  · rw [frees_append, frees_free rfl]
    simp
  · refine (update_of_ne ?_ ..).trans hM.baseSize
    omega

theorem joinLower (hM : Mid base start h B₁ bp u R) (hfits : spare B₁.getLast? + u < 2 ^ 32) :
    ∃ B, Inv base start
        { h.joinLower bp ((frees B₁).getLastD base) with freep := (frees B₁).getLastD base } B ∧
      Freed B₁ R (bp + 16 * u) u B := by
  have hlink : Freed B₁ R (bp + 16 * u) u (B₁ ++ ⟨bp, u, none⟩ :: R) := by
    refine ⟨?_, ?_, ⟨⟨bp, u, none⟩, by simp, rfl, le_rfl⟩, fun x hx _ => ?_⟩
    · rw [used_append, used_free rfl]
    · rw [frees_append, frees_free rfl, length_append, length_cons]
      omega
    · simp only [mem_append, mem_cons] at hx ⊢
      rcases hx with hx | rfl | hx
      · exact .inl (.inl hx)
      · exact .inr rfl
      · exact .inl (.inr hx)
  rcases eq_nil_or_concat B₁ with rfl | ⟨B₀, d, rfl⟩
  · exact ⟨_, hM.linkLower (by simp), hlink⟩
  · rw [concat_eq_append] at hM hlink hfits ⊢
    by_cases hd : d.use = none
    · have hp : (frees (B₀ ++ [d])).getLastD base = d.addr := by
        rw [frees_append, frees_free hd]
        exact getLastD_append_cons ..
      have hspare : spare (B₀ ++ [d]).getLast? = d.units := by
        rw [getLast?_concat]
        exact if_pos hd
      rw [hspare] at hfits
      obtain ⟨m, -, -, -, hdtop⟩ := tiles_append.mp hM.sides.1
      rw [hp]
      refine ⟨_, hM.mergeLower hd hfits, ?_, ?_, ⟨⟨d.addr, d.units + u, none⟩, by simp, rfl,
        Nat.le_add_left u d.units⟩, fun x hx _ => ?_⟩
      · rw [used_append, used_append, used_free rfl, used_free hd, used, append_assoc]
        rfl
      · rw [frees_append, frees_append, frees_free rfl, frees_free hd]
        simp only [length_append, length_cons]
        omega
      · simp only [mem_append, mem_cons] at hx ⊢
        rcases hx with hx | rfl | hx
        · exact .inl (.inl (.inl hx))
        · right
          simp only [Blk.top, Tiles] at hdtop ⊢
          omega
        · exact .inl (.inr hx)
    · exact ⟨_, hM.linkLower (by simpa using hd), hlink⟩

end Mid

/-! ### The break -/

namespace Heap

theorem joinUpper_brk (h : Heap) (brk bp p : ℕ) :
    { h with brk := brk }.joinUpper bp p = { h.joinUpper bp p with brk := brk } := by
  rw [joinUpper, joinUpper]
  split_ifs <;> rfl

theorem joinLower_brk (h : Heap) (brk bp p : ℕ) :
    { h with brk := brk }.joinLower bp p = { h.joinLower bp p with brk := brk } := by
  rw [joinLower, joinLower]
  split_ifs <;> rfl

theorem brk_join (h : Heap) (bp p : ℕ) : ((h.joinUpper bp p).joinLower bp p).brk = h.brk := by
  rw [joinLower, joinUpper]
  split_ifs <;> rfl

end Heap

/-- `free` of a block in use ends, and the heap is in order without it. Some free block is
at least as large, and other free blocks either were there or end behind it. The break
`brk` is used only to cut the loop off. -/
theorem Inv.free (hI : Inv base start h (B₁ ++ b :: B₂)) (brk : ℕ) (hb : b.use ≠ none)
    (hfits : spare B₁.getLast? + (b.units + spare B₂.head?) < 2 ^ 32)
    (hfuel : (frees (B₁ ++ b :: B₂)).length + 1 ≤ brk + 8) :
    ∃ h' B, { h with brk := brk }.free (b.addr + 16) = some { h' with brk := brk } ∧
      Inv base start h' B ∧ h'.brk = h.brk ∧ ∃ top, b.top ≤ top ∧ Freed B₁ B₂ top b.units B := by
  obtain ⟨u, R, hM, hupper⟩ := hI.joinUpper hb (by omega)
  have hu := hupper.eq
  obtain ⟨B, hB, hfreed⟩ := hM.joinLower (by omega)
  have hrun : { h with brk := brk }.free (b.addr + 16) =
      some { (h.joinUpper b.addr ((frees B₁).getLastD base)).joinLower b.addr
        ((frees B₁).getLastD base) with freep := (frees B₁).getLastD base, brk := brk } := by
    rw [Heap.free, Nat.add_sub_cancel]
    refine (congrArg (Option.map _) (hI.search_free hb hfuel)).trans ?_
    rw [Option.map_some, Heap.joinUpper_brk, Heap.joinLower_brk]
  obtain ⟨x, hx, hxfree, hxu⟩ := hfreed.large
  have hle := hupper.le
  refine ⟨_, B, hrun, hB, ?_, b.addr + 16 * u, ?_, ?_, ?_, ⟨x, hx, hxfree, hle.trans hxu⟩,
    fun y hy hyfree => ?_⟩
  · exact Heap.brk_join ..
  · rw [Blk.top]
    omega
  · rw [hfreed.used_eq, hupper.used_eq]
  · have := hfreed.length
    have := hupper.length
    omega
  · refine (hfreed.old y hy hyfree).imp_left fun hmem => ?_
    rcases mem_append.mp hmem with hmem | hmem
    · exact mem_append_left _ hmem
    · exact mem_append_right _ (hupper.subset hmem)

end Xv6.Umalloc
