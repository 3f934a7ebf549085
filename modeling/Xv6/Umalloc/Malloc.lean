import Xv6.Umalloc.Free

/-!
`malloc` keeps the heap in order, and finds a block whenever there is one or `sbrk` gives
one.

The loop of `malloc` goes once around the free list (`mallocLoop_walk`). If no block is
large enough it calls `morecore`, which adds a block behind the last one and frees it, and
goes around again; this time it finds a block, at the latest when it is back where it
began.

A size is a `uint`, so all this needs the heap to stay below 2^32 units: a larger heap may
be one free block whose size does not fit (`heap_size_wraps`). And `sbrk` takes an `int`:
where `morecore` asks for 2^27 units or more the break does not move as far as it should,
and the block that is recorded lies behind it (`malloc_inside`).
-/

namespace Xv6.Umalloc

open List
open Function (update_self update_of_ne)

variable {base start : ℕ} {h : Heap} {B B₁ B₂ : List Blk} {x : Blk}
variable {k n : ℕ} {y : Blk}

/-! ### A block that is large enough -/

namespace Inv

variable (hI : Inv base start h (B₁ ++ x :: B₂)) (hx : x.use = none)
include hI hx

theorem eq_prev {prev : ℕ} (hprev : prev ∈ base :: frees (B₁ ++ x :: B₂))
    (hnext : h.ptr prev = x.addr) : prev = (frees B₁).getLastD base := by
  have hring := hI.ring
  have hnd := hI.tiles.frees_nodup (show base < start from by have := hI.below; omega)
  rw [frees_append, frees_free hx] at hring hprev hnd
  refine hring.next_inj hnd hprev ?_ (hnext.trans (linked_append.mp hring).1.next_last.symm)
  rcases mem_cons.mp (getLastD_mem_cons (l := frees B₁) (a := base)) with heq | hmem
  · rw [heq]
    exact mem_cons_self ..
  · exact mem_cons_of_mem base (mem_append_left _ hmem)

theorem takeWhole (n : ℕ) :
    Inv base start { h.setPtr ((frees B₁).getLastD base) (h.ptr x.addr) with
      freep := (frees B₁).getLastD base } (B₁ ++ ⟨x.addr, x.units, some n⟩ :: B₂) := by
  have hring := hI.ring
  have hnd := hI.tiles.frees_nodup (show base < start from by have := hI.below; omega)
  rw [frees_append, frees_free hx] at hring hnd
  have hframe : frees (B₁ ++ ⟨x.addr, x.units, some n⟩ :: B₂) = frees B₁ ++ frees B₂ :=
    frees_eq (by simp)
  obtain ⟨hA, hB, hAB⟩ := isChain_append.mp hI.apart
  refine ⟨?_, ?_, ?_, ?_, ?_, hI.baseSize, hI.below⟩
  · obtain ⟨m, h₁, h₂⟩ := tiles_append.mp hI.tiles
    exact tiles_append.mpr ⟨m, h₁, h₂⟩
  · intro y hy
    simp only [mem_append, mem_cons] at hy
    rcases hy with hy | rfl | hy
    · exact hI.sizes y (by simp [hy])
    · exact hI.sizes x (by simp)
    · exact hI.sizes y (by simp [hy])
  · refine isChain_append.mpr ⟨hA, isChain_cons.mpr ⟨?_, ?_⟩, ?_⟩
    · exact fun _ _ => .inl (by simp)
    · exact (isChain_cons.mp hB).2
    · rintro _ _ _ ⟨⟩
      exact .inr (by simp)
  · rw [hframe]
    exact hring.remove hnd
  · rw [hframe]
    rcases mem_cons.mp (getLastD_mem_cons (l := frees B₁) (a := base)) with heq | hmem
    · simp only [heq]
      exact mem_cons_self ..
    · exact mem_cons_of_mem base (mem_append_left _ hmem)

theorem takeTail {k prev : ℕ}
    (hk : 0 < k) (hlt : k < x.units) (hprev : prev ∈ base :: frees (B₁ ++ x :: B₂)) (n : ℕ) :
    Inv base start
      { (h.setSize x.addr (x.units - k)).setSize (x.addr + 16 * (x.units - k)) k with
        freep := prev }
      (B₁ ++ ⟨x.addr, x.units - k, none⟩ :: ⟨x.addr + 16 * (x.units - k), k, some n⟩ :: B₂) := by
  obtain ⟨hleft, hpos, hright⟩ := hI.sides
  have hframe : frees (B₁ ++ ⟨x.addr, x.units - k, none⟩ ::
      ⟨x.addr + 16 * (x.units - k), k, some n⟩ :: B₂) = frees (B₁ ++ x :: B₂) := by
    rw [frees_append, frees_append, frees_free rfl, frees_used (by simp), frees_free hx]
  have hne : ∀ y ∈ B₁ ++ B₂, y.addr ≠ x.addr ∧ y.addr ≠ x.addr + 16 * (x.units - k) := by
    intro y hy
    rcases mem_append.mp hy with hy | hy
    · obtain ⟨-, hypos, htop⟩ := hleft.mem hy
      rw [Blk.top] at htop
      omega
    · have := (hright.mem hy).1
      rw [Blk.top] at this
      omega
  have hsame : ∀ p, p ≠ x.addr → p ≠ x.addr + 16 * (x.units - k) →
      ((h.setSize x.addr (x.units - k)).setSize (x.addr + 16 * (x.units - k)) k).size p =
        h.size p := by
    intro p hp hp'
    exact (update_of_ne hp' ..).trans (update_of_ne hp ..)
  obtain ⟨hA, hB, hAB⟩ := isChain_append.mp hI.apart
  refine ⟨?_, ?_, ?_, ?_, ?_, ?_, hI.below⟩
  · refine tiles_append.mpr ⟨x.addr, hleft, rfl, by simp only; omega, rfl, hk, ?_⟩
    have htop : (⟨x.addr + 16 * (x.units - k), k, some n⟩ : Blk).top = x.top := by grind [Blk.top]
    rw [htop]
    exact hright
  · intro y hy
    simp only [mem_append, mem_cons] at hy
    rcases hy with hy | rfl | rfl | hy
    · grind [hI.sizes]
    · refine (update_of_ne ?_ ..).trans (update_self ..)
      simp only
      omega
    · exact update_self ..
    · grind [hI.sizes]
  · refine isChain_append.mpr ⟨hA, isChain_cons.mpr ⟨?_, isChain_cons.mpr ⟨?_, ?_⟩⟩, ?_⟩
    · rintro _ ⟨⟩
      exact .inr (by simp)
    · exact fun _ _ => .inl (by simp)
    · exact (isChain_cons.mp hB).2
    · rintro y hy _ ⟨⟩
      exact .inl ((hAB y hy x rfl).resolve_right fun hne => hne hx)
  · rw [hframe]
    exact hI.ring
  · rw [hframe]
    exact hprev
  · have hlt := hI.start_le
    exact (hsame _ (by omega) (by omega)).trans hI.baseSize

end Inv

structure Returned (base start k n : ℕ) (B : List Blk) (r : ℕ × Heap) (y : Blk) (B' : List Blk) :
    Prop where
  inv : Inv base start r.2 B'
  ptr : r.1 = y.addr + 16
  units : y.units = k
  use : y.use = some n
  perm : (used B').Perm (y :: used B)

theorem Returned.inside {r : ℕ × Heap} {B' : List Blk} (h : Returned base start k n B r y B') :
    start ≤ y.addr ∧ y.top ≤ r.2.brk := by
  have hmem : y ∈ used B' := h.perm.mem_iff.mpr (mem_cons_self ..)
  obtain ⟨hlo, -, hhi⟩ := h.inv.tiles.mem (mem_used.mp hmem).1
  exact ⟨hlo, hhi⟩

theorem Inv.carve (hI : Inv base start h (B₁ ++ x :: B₂)) (hx : x.use = none) {prev : ℕ}
    (hk : 0 < k) (hle : k ≤ x.units) (hprev : prev ∈ base :: frees (B₁ ++ x :: B₂))
    (hnext : h.ptr prev = x.addr) (n : ℕ) :
    ∃ y B, Returned base start k n (B₁ ++ x :: B₂) (h.carve k prev x.addr) y B ∧ y.top = x.top := by
  have hsize : h.size x.addr = x.units := hI.sizes x (by simp)
  rw [Heap.carve, hsize]
  have hperm : ∀ y : Blk, (used B₁ ++ y :: used B₂).Perm (y :: used (B₁ ++ x :: B₂)) := by
    intro y
    rw [used_append, used_free hx]
    exact perm_middle
  by_cases heq : x.units = k
  · rw [if_pos heq, hI.eq_prev hx hprev hnext]
    refine ⟨⟨x.addr, x.units, some n⟩, _, ⟨hI.takeWhole hx n, rfl, heq, rfl, ?_⟩, rfl⟩
    rw [used_append, used_used (by simp)]
    exact hperm _
  · rw [if_neg heq]
    refine ⟨⟨x.addr + 16 * (x.units - k), k, some n⟩, _,
      ⟨hI.takeTail hx hk (by omega) hprev n, rfl, rfl, rfl, ?_⟩, ?_⟩
    · rw [used_append, used_free rfl, used_used (by simp)]
      exact hperm _
    · simp only [Blk.top]
      omega

/-! ### The break -/

namespace Heap

variable {h' : Heap}

theorem growproc_units {nu : ℕ} (hnu : nu < 2 ^ 27) (brk : ℕ) :
    growproc brk (int (nu * 16)) = brk + 16 * nu := by
  have hint : int (nu * 16) = nu * 16 := by
    rw [int]
    omega
  rw [growproc, hint, if_neg (by omega)]
  omega

theorem growproc_lt {nu : ℕ} (hnu : 2 ^ 27 ≤ nu) (brk : ℕ) :
    growproc brk (int (nu * 16)) < brk + 16 * nu := by
  have hint : int (nu * 16) < 2 ^ 31 := by
    rw [int]
    omega
  rw [growproc]
  split_ifs <;> omega

theorem growproc_le {nu : ℕ} (hnu : 2 ^ 27 ≤ nu) (hlt : nu ≤ 2 ^ 28 + 1) (brk : ℕ) :
    growproc brk (int (nu * 16)) ≤ brk + 16 := by
  have hint : int (nu * 16) ≤ 16 := by
    rw [int]
    omega
  rw [growproc]
  split_ifs <;> omega

theorem brk_setSize (h : Heap) (p n : ℕ) : (h.setSize p n).brk = h.brk := rfl

theorem free_brk {ap : ℕ} (hfree : h.free ap = some h') : h'.brk = h.brk := by
  obtain ⟨p, -, rfl⟩ := Option.map_eq_some_iff.mp hfree
  exact brk_join ..

theorem morecore_some {nu p : ℕ} {grant : Bool} (hgrant : grant = true)
    (hmore : h.morecore nu grant = some (p, h')) :
    h'.brk = growproc h.brk (int ((max 4096 nu : ℕ) * 16)) := by
  have hmax : (if nu < 4096 then 4096 else nu) = max 4096 nu := by split_ifs <;> omega
  rw [morecore, hmax] at hmore
  dsimp only at hmore
  split_ifs at hmore with hfails hpage
  · cases hgrant.symm.trans hfails.1
  · split at hmore
    · cases hmore
    · rename_i h₁ hfree
      cases hmore
      rw [free_brk hfree, brk_setSize]

/-- The heap grows by the block that `morecore` records, unless that is too large. -/
theorem morecore_brk {nu p : ℕ} (hmore : h.morecore nu true = some (p, h')) :
    h'.brk = h.brk + 16 * max 4096 nu ↔ nu < 2 ^ 27 := by
  rw [morecore_some rfl hmore]
  constructor
  · intro heq
    by_contra hge
    exact (@growproc_lt (max 4096 nu) (by omega) h.brk).ne heq
  · intro hlt
    exact growproc_units (by omega) h.brk

theorem carve_brk (h : Heap) (brk k prev p : ℕ) :
    { h with brk := brk }.carve k prev p =
      ((h.carve k prev p).1, { (h.carve k prev p).2 with brk := brk }) := by
  rw [carve, carve]
  split_ifs <;> rfl

theorem brk_carve (h : Heap) (k prev p : ℕ) : (h.carve k prev p).2.brk = h.brk := by
  rw [carve]
  split_ifs <;> rfl

end Heap

/-! ### The loop of `malloc` -/

def Heap.grow (k fuel : ℕ) (grants : List Bool) (h : Heap) : Option (ℕ × Heap) :=
  match h.morecore k (grants.headD false) with
  | none => none
  | some (p, h) => if p = 0 then some (0, h) else Heap.mallocLoop k fuel grants.tail h p (h.ptr p)

theorem Heap.mallocLoop_walk {k fuel prevp : ℕ} {grants : List Bool} {G : List ℕ}
    (hl : Linked h.ptr prevp G h.freep) (hG : h.freep ∉ G) (hfuel : G.length + 1 ≤ fuel) :
    (∃ prev ∈ prevp :: G, (h.ptr prev ∈ G ∨ h.ptr prev = h.freep) ∧ k ≤ h.size (h.ptr prev) ∧
      Heap.mallocLoop k fuel grants h prevp (h.ptr prevp) = some (h.carve k prev (h.ptr prev))) ∨
    ((∀ q ∈ h.freep :: G, h.size q < k) ∧ Heap.mallocLoop k fuel grants h prevp (h.ptr prevp) =
      h.grow k (fuel - (G.length + 1)) grants) := by
  induction G generalizing prevp fuel with
  | nil =>
    obtain ⟨fuel, rfl⟩ : ∃ n, fuel = n + 1 := ⟨fuel - 1, by simp at hfuel; omega⟩
    have hp : h.ptr prevp = h.freep := hl
    by_cases hk : h.size (h.ptr prevp) ≥ k
    · grind [Heap.mallocLoop]
    · refine .inr ⟨?_, ?_⟩
      · intro q hq
        rw [mem_singleton.mp hq, ← hp]
        omega
      · rw [Heap.mallocLoop, if_neg hk, if_pos hp]
        rfl
  | cons y G ih =>
    obtain ⟨fuel, rfl⟩ : ∃ n, fuel = n + 1 := ⟨fuel - 1, by simp at hfuel; omega⟩
    obtain ⟨hp, hl⟩ := hl
    rw [mem_cons, not_or] at hG
    by_cases hk : h.size (h.ptr prevp) ≥ k
    · grind [Heap.mallocLoop]
    · have hne : ¬h.ptr prevp = h.freep := fun heq => hG.1 (heq.symm.trans hp)
      rw [Heap.mallocLoop, if_neg hk, if_neg hne, hp]
      rcases ih hl hG.2 (by simpa using hfuel) with ⟨prev, hprev, hmem, hsize, hrun⟩ | ⟨hall, hrun⟩
      · grind
      · grind

namespace Inv

theorem mallocLoop (hI : Inv base start h B) {k fuel n brk : ℕ} {grants : List Bool} (hk : 0 < k)
    (hfuel : (frees B).length + 1 ≤ fuel) :
    (∃ r y B', Heap.mallocLoop k fuel grants { h with brk := brk } h.freep (h.ptr h.freep) =
        some (r.1, { r.2 with brk := brk }) ∧
      Returned base start k n B r y B' ∧ r.2.brk = h.brk ∧
      ∃ x ∈ B, x.use = none ∧ k ≤ x.units ∧ y.top = x.top) ∨
    ((∀ x ∈ B, x.use = none → x.units < k) ∧
      Heap.mallocLoop k fuel grants { h with brk := brk } h.freep (h.ptr h.freep) =
        { h with brk := brk }.grow k (fuel - ((frees B).length + 1)) grants) := by
  obtain ⟨G, hG, hperm⟩ := hI.ring.rotate hI.freep
  have hnd := hI.tiles.frees_nodup (show base < start from by have := hI.below; omega)
  have hlen : G.length = (frees B).length := by simpa using hperm.length_eq
  have hnot : h.freep ∉ G := (nodup_cons.mp (hperm.nodup_iff.mpr hnd)).1
  rcases @Heap.mallocLoop_walk { h with brk := brk } k fuel h.freep grants G hG hnot
    (hlen ▸ hfuel) with ⟨prev, hprev, hmem, hsize, hrun⟩ | ⟨hall, hrun⟩
  · left
    have hmem : h.ptr prev ∈ G ∨ h.ptr prev = h.freep := hmem
    have hsize : k ≤ h.size (h.ptr prev) := hsize
    have hq : h.ptr prev ∈ base :: frees B := by
      rw [← hperm.mem_iff]
      exact hmem.elim (mem_cons_of_mem _) fun heq => heq ▸ mem_cons_self ..
    rcases mem_cons.mp hq with hbase | hfree
    · rw [hbase, hI.baseSize] at hsize
      omega
    · obtain ⟨x, hx, hxfree, hxq⟩ := mem_frees.mp hfree
      obtain ⟨B₁, B₂, rfl⟩ := append_of_mem hx
      have hxsize := hI.sizes x hx
      rw [← hxq] at hsize
      have hxk : k ≤ x.units := by omega
      obtain ⟨y, B', hreturned, htop⟩ :=
        hI.carve hxfree hk hxk (hperm.mem_iff.mp hprev) hxq.symm n
      refine ⟨h.carve k prev x.addr, y, B', ?_, hreturned, Heap.brk_carve .., x, hx, hxfree, hxk,
        htop⟩
      rw [← Heap.carve_brk]
      exact hxq ▸ hrun
  · right
    rw [hlen] at hrun
    refine ⟨fun x hx hxfree => ?_, hrun⟩
    rw [← hI.sizes x hx]
    apply hall
    rw [hperm.mem_iff]
    exact mem_cons_of_mem _ (mem_frees.mpr ⟨x, hx, hxfree, rfl⟩)

theorem morecore (hI : Inv base start h B) {k nu brk : ℕ} {grant : Bool} (hnu : nu = max 4096 k)
    (hall : ∀ x ∈ B, x.use = none → x.units < k) (hk : k < 2 ^ 29)
    (hsbrk : ¬Heap.SbrkFails (int (nu * 16)) grant)
    (hbrk : Heap.growproc h.brk (int (nu * 16)) = brk)
    (hpage : PGROUNDDOWN h.brk < brk) (hfuel : (frees B).length + 1 ≤ brk + 8) :
    ∃ h' B', h.morecore k grant = some (h'.freep, { h' with brk := brk }) ∧
      Inv base start h' B' ∧ h'.brk = h.brk + 16 * nu ∧ Freed B [] (h.brk + 16 * nu) nu B' := by
  have hne : ∀ y ∈ B, y.addr ≠ h.brk := by
    intro y hy
    obtain ⟨-, hypos, htop⟩ := hI.tiles.mem hy
    rw [Blk.top] at htop
    omega
  have hframe : frees (B ++ ⟨h.brk, nu, some 0⟩ :: []) = frees B := by
    rw [frees_append, frees_used (by simp)]
    exact append_nil _
  -- the new block is in use for the time being
  have hnew : Inv base start
      ({ h with brk := h.brk + 16 * nu }.setSize h.brk nu) (B ++ ⟨h.brk, nu, some 0⟩ :: []) := by
    refine ⟨?_, ?_, ?_, ?_, ?_, ?_, hI.below⟩
    · exact tiles_append.mpr ⟨h.brk, hI.tiles, rfl, by simp only; omega, rfl⟩
    · intro y hy
      simp only [mem_append, mem_singleton] at hy
      rcases hy with hy | rfl
      · exact (update_of_ne (hne y hy) ..).trans (hI.sizes y hy)
      · exact update_self ..
    · refine isChain_append.mpr ⟨hI.apart, isChain_singleton _, ?_⟩
      rintro _ _ _ ⟨⟩
      exact .inr (by simp)
    · rw [hframe]
      exact hI.ring
    · rw [hframe]
      exact hI.freep
    · refine (update_of_ne ?_ ..).trans hI.baseSize
      have := hI.tiles.le
      have := hI.below
      omega
  have hspare : spare B.getLast? ≤ k := by
    cases hlast : B.getLast? with
    | none => exact Nat.zero_le k
    | some d =>
      show (if d.use = none then d.units else 0) ≤ k
      split_ifs with hd
      · exact (hall d (mem_of_getLast? hlast) hd).le
      · exact Nat.zero_le k
  obtain ⟨h', B', hfree, hI', hbrk', top, htop, hfreed⟩ := hnew.free brk (by simp)
    (by show spare B.getLast? + (nu + 0) < 2 ^ 32; omega) (by rwa [hframe])
  -- nothing lies behind the new block
  have hend : ∀ x ∈ B', x.use = none → x ∈ B ++ [] ∨ x.top = h.brk + 16 * nu := by
    intro x hx hxfree
    refine (hfreed.old x hx hxfree).imp_right fun heq => le_antisymm ?_ (heq ▸ htop)
    exact (hI'.tiles.mem hx).2.2.trans hbrk'.le
  refine ⟨h', B', ?_, hI', hbrk', { hfreed with old := hend }⟩
  have hmax : (if k < 4096 then 4096 else k) = nu := by split_ifs <;> omega
  rw [Heap.morecore, hmax]
  dsimp only
  rw [if_neg hsbrk, hbrk, if_pos hpage]
  have hfree : ({ h with brk := brk }.setSize h.brk nu).free (h.brk + 16) =
      some { h' with brk := brk } := hfree
  rw [hfree]

theorem grow (hI : Inv base start h B) (hbase : 0 < base) {k n nu brk fuel : ℕ}
    {grants : List Bool} (hnu : nu = max 4096 k)
    (hall : ∀ x ∈ B, x.use = none → x.units < k) (hpos : 0 < k) (hk : k < 2 ^ 29)
    (hsbrk : ¬Heap.SbrkFails (int (nu * 16)) (grants.headD false))
    (hbrk : Heap.growproc h.brk (int (nu * 16)) = brk) (hpage : PGROUNDDOWN h.brk < brk)
    (hfuel : (frees B).length + 1 ≤ brk + 8) (hfuel' : (frees B).length + 2 ≤ fuel) :
    ∃ r y B', h.grow k fuel grants = some (r.1, { r.2 with brk := brk }) ∧
      Returned base start k n B r y B' ∧ r.2.brk = h.brk + 16 * nu ∧ y.top = h.brk + 16 * nu := by
  obtain ⟨h', B', hmore, hI', hbrk', hfreed⟩ := hI.morecore hnu hall hk hsbrk hbrk hpage hfuel
  have hfreep : h'.freep ≠ 0 := by
    rcases mem_cons.mp hI'.freep with heq | hfree
    · omega
    · obtain ⟨y, hy, -, hyp⟩ := mem_frees.mp hfree
      have := (hI'.tiles.mem hy).1
      have := hI'.below
      omega
  have hlen : (frees B').length ≤ (frees B).length + 0 + 1 := hfreed.length
  simp only [Heap.grow, hmore, if_neg hfreep]
  rcases @Inv.mallocLoop base start h' B' hI' k fuel n brk grants.tail hpos (by omega) with
    ⟨r, y, B'', hrun, hreturned, hr, x, hx, hxfree, hxk, htop⟩ | ⟨hall', -⟩
  · refine ⟨r, y, B'', hrun, { hreturned with perm := ?_ }, hr.trans hbrk', htop.trans ?_⟩
    · have hperm := hreturned.perm
      rw [hfreed.used_eq] at hperm
      simpa [used] using hperm
    · refine (hfreed.old x hx hxfree).resolve_left fun hmem => ?_
      rw [append_nil] at hmem
      have := hall x hmem hxfree
      omega
  · obtain ⟨x, hx, hxfree, hxu⟩ := hfreed.large
    have := hall' x hx hxfree
    omega

end Inv

theorem Heap.nunits_eq (hn : n < 2 ^ 32) : Heap.nunits n = (n + 15) / 16 + 1 :=
  Nat.mod_eq_of_lt (by omega)

/-- What becomes of a request of `k` units: a free block is large enough; or `sbrk` fails;
or the process is killed, as the new header has no page; or a new block is taken, and the
break is where `growproc` leaves it. -/
inductive Outcome (base start k n : ℕ) (h : Heap) (B : List Blk) (grant : Bool) :
    Option (ℕ × Heap) → Prop
  | fits {r : ℕ × Heap} {y : Blk} {B' : List Blk} (hfit : ∃ x ∈ B, x.use = none ∧ k ≤ x.units)
      (hr : Returned base start k n B r y B') (hbrk : r.2.brk = h.brk) :
      Outcome base start k n h B grant (some r)
  | refused (hall : ∀ x ∈ B, x.use = none → x.units < k)
      (hsbrk : Heap.SbrkFails (int ((max 4096 k : ℕ) * 16)) grant) :
      Outcome base start k n h B grant (some (0, h))
  | killed (hall : ∀ x ∈ B, x.use = none → x.units < k)
      (hsbrk : ¬Heap.SbrkFails (int ((max 4096 k : ℕ) * 16)) grant)
      (hpage : Heap.growproc h.brk (int ((max 4096 k : ℕ) * 16)) ≤ PGROUNDDOWN h.brk) :
      Outcome base start k n h B grant none
  | grows {r : ℕ × Heap} {y : Blk} {B' : List Blk} (hall : ∀ x ∈ B, x.use = none → x.units < k)
      (hsbrk : ¬Heap.SbrkFails (int ((max 4096 k : ℕ) * 16)) grant)
      (hpage : PGROUNDDOWN h.brk < Heap.growproc h.brk (int ((max 4096 k : ℕ) * 16)))
      (hr : Returned base start k n B r y B') (hbrk : r.2.brk = h.brk + 16 * max 4096 k)
      (htop : y.top = h.brk + 16 * max 4096 k) :
      Outcome base start k n h B grant (some (r.1, { r.2 with
        brk := Heap.growproc h.brk (int ((max 4096 k : ℕ) * 16)) }))

theorem Inv.malloc (hI : Inv base start h B) (hbase : 0 < base) {k n : ℕ} {grants : List Bool}
    (hpos : 0 < k) (hk : k < 2 ^ 29) (hstart : k < 2 ^ 27 ∨ PGSIZE ≤ start) :
    Outcome base start k n h B (grants.headD false)
      (Heap.mallocLoop k (h.brk + 8) grants h h.freep (h.ptr h.freep)) := by
  have hlen := hI.tiles.length_le
  have hlen' := @length_frees_le B
  rcases @Inv.mallocLoop base start h B hI k (h.brk + 8) n h.brk grants hpos (by omega) with
    ⟨r, y, B', hrun, hr, hbrk, x, hx, hxfree, hxk, -⟩ | ⟨hall, hrun⟩
  · rw [hrun, ← hbrk]
    exact .fits ⟨x, hx, hxfree, hxk⟩ hr hbrk
  rw [hrun]
  obtain ⟨nu, hnu⟩ : ∃ nu, nu = max 4096 k := ⟨_, rfl⟩
  have hmax : (if k < 4096 then 4096 else k) = nu := by split_ifs <;> omega
  by_cases hsbrk : Heap.SbrkFails (int (nu * 16)) (grants.headD false)
  · have hgrow : h.grow k (h.brk + 8 - ((frees B).length + 1)) grants = some (0, h) := by
      have hmore : h.morecore k (grants.headD false) = some (0, h) := by
        rw [Heap.morecore, hmax]
        exact if_pos hsbrk
      rw [Heap.grow, hmore]
      exact if_pos rfl
    rw [hgrow]
    exact .refused hall (hnu ▸ hsbrk)
  obtain ⟨brk, hbrk⟩ : ∃ brk, Heap.growproc h.brk (int (nu * 16)) = brk := ⟨_, rfl⟩
  by_cases hpage : PGROUNDDOWN h.brk < brk
  · have hfuel : (frees B).length + 1 ≤ brk + 8 := by
      rcases hstart with hlt | hstart
      · rw [← hbrk, Heap.growproc_units (by omega)]
        omega
      · simp only [PGROUNDDOWN, PGSIZE] at hpage hstart
        omega
    obtain ⟨r, y, B', hgrow, hr, hrbrk, htop⟩ :=
      @Inv.grow base start h B hI hbase k n nu brk (h.brk + 8 - ((frees B).length + 1)) grants hnu
        hall hpos hk hsbrk hbrk hpage hfuel (by omega)
    rw [hgrow, ← hbrk, hnu]
    rw [hnu] at hsbrk hrbrk htop hbrk
    exact .grows hall hsbrk (hbrk ▸ hpage) hr hrbrk htop
  · have hgrow : h.grow k (h.brk + 8 - ((frees B).length + 1)) grants = none := by
      have hmore : h.morecore k (grants.headD false) = none := by
        rw [Heap.morecore, hmax]
        dsimp only
        rw [if_neg hsbrk, hbrk]
        exact if_neg hpage
      rw [Heap.grow, hmore]
    rw [hgrow]
    rw [hnu] at hsbrk hbrk
    exact .killed hall hsbrk (hbrk ▸ not_lt.mp hpage)

/-! ### Sequences of calls -/

def Blk.request (x : Blk) : ℕ × ℕ := (x.addr + 16, x.use.getD 0)

/-- The heap is in order, and the blocks in use are those of the program. -/
structure Holds (base start : ℕ) (s : Sys) (B : List Blk) : Prop where
  inv : Inv base start s.heap B
  live : s.live.Perm ((used B).map Blk.request)
  room : ∀ x ∈ used B, x.request.2 + 16 ≤ 16 * x.units
  limit : s.heap.brk < start + 2 ^ 36

/-- The heap stays below 2^32 units if `sbrk` moves the break. -/
def Fits (start : ℕ) (s : Sys) : Act → Prop
  | .malloc nbytes grants =>
    true ∈ grants → s.heap.brk + 16 * max 4096 ((nbytes + 15) / 16 + 1) < start + 2 ^ 36
  | .free _ => True

instance (start : ℕ) (s : Sys) : (a : Act) → Decidable (Fits start s a)
  | .malloc _ _ => inferInstanceAs (Decidable (_ → _))
  | .free _ => .isTrue trivial

def Sys.Ok (base start : ℕ) (s : Sys) : Prop := Init start s ∨ ∃ B, Holds base start s B

variable {s s' : Sys}

theorem Init.inv (h : Init start s) (hbelow : base + 16 ≤ start) :
    Inv base start (s.heap.init base) [] := by
  have hinit : s.heap.init base =
      { (s.heap.setPtr base base).setSize base 0 with freep := base } := if_pos h.freep
  rw [hinit]
  exact ⟨h.brk.symm, by simp, isChain_nil, update_self .., mem_cons_self ..,
    update_self .., hbelow⟩

theorem Holds.init (h : Holds base start s B) (hbase : 0 < base) : s.heap.init base = s.heap := by
  refine if_neg ?_
  rcases mem_cons.mp h.inv.freep with heq | hfree
  · omega
  · obtain ⟨y, hy, -, hyp⟩ := mem_frees.mp hfree
    have := (h.inv.tiles.mem hy).1
    have := h.inv.below
    omega

theorem Heap.init_brk (h : Heap) (base : ℕ) : (h.init base).brk = h.brk := by
  rw [Heap.init]
  split_ifs <;> rfl

theorem Returned.holds {r : ℕ × Heap} {B' : List Blk} (hr : Returned base start k n B r y B')
    (hlive : s.live.Perm ((used B).map Blk.request))
    (hroom : ∀ x ∈ used B, x.request.2 + 16 ≤ 16 * x.units) (hn : n + 16 ≤ 16 * k)
    (hlimit : r.2.brk < start + 2 ^ 36) :
    Holds base start ⟨r.2, if r.1 = 0 then s.live else s.live ++ [(r.1, n)]⟩ B' := by
  have hptr := hr.ptr
  have hreq : y.request = (r.1, n) := by
    rw [Blk.request, hr.use, ← hptr]
    rfl
  refine ⟨hr.inv, ?_, fun x hx => ?_, hlimit⟩
  · simp only [if_neg (show r.1 ≠ 0 by omega)]
    refine Perm.trans ?_ (hr.perm.map Blk.request).symm
    rw [map_cons, hreq]
    exact (perm_append_singleton _ _).trans (hlive.cons _)
  · rcases mem_cons.mp (hr.perm.mem_iff.mp hx) with rfl | hx
    · rw [hreq, hr.units]
      exact hn
    · exact hroom x hx

theorem step_malloc (hI : Inv base start (s.heap.init base) B)
    (hlive : s.live.Perm ((used B).map Blk.request))
    (hroom : ∀ x ∈ used B, x.request.2 + 16 ≤ 16 * x.units) (hlimit : s.heap.brk < start + 2 ^ 36)
    (hbase : 0 < base) {grants : List Bool} (hn : (n + 15) / 16 + 1 < 2 ^ 27)
    (hfits : Fits start s (.malloc n grants)) :
    ∃ s', s.step base (.malloc n grants) = .ok s' ∧ ∃ B', Holds base start s' B' := by
  have hbrk := s.heap.init_brk base
  have hout := @Inv.malloc base start _ B hI hbase ((n + 15) / 16 + 1) n grants (Nat.succ_pos _)
    (by omega) (.inl hn)
  have hmalloc : s.heap.malloc base n grants = Heap.mallocLoop ((n + 15) / 16 + 1)
      ((s.heap.init base).brk + 8) grants (s.heap.init base) (s.heap.init base).freep
      ((s.heap.init base).ptr (s.heap.init base).freep) := by
    rw [← Heap.nunits_eq (by omega : n < 2 ^ 32)]
    rfl
  have hgrown := @Heap.growproc_units (max 4096 ((n + 15) / 16 + 1)) (by omega)
    (s.heap.init base).brk
  rw [← hmalloc] at hout
  rw [Sys.step]
  cases hresult : s.heap.malloc base n grants with
  | none =>
    rw [hresult] at hout
    -- the break has moved up, so the new header has a page
    obtain - | - | ⟨-, -, hpage⟩ := hout
    rw [hgrown] at hpage
    have := Nat.div_mul_le_self (s.heap.init base).brk PGSIZE
    rw [PGROUNDDOWN] at hpage
    omega
  | some r =>
    refine ⟨_, rfl, ?_⟩
    rw [hresult] at hout
    rcases hout with ⟨-, hr, hrbrk⟩ | - | - | ⟨-, hsbrk, -, hr, hrbrk, -⟩
    · exact ⟨_, hr.holds hlive hroom (by omega) (by omega)⟩
    · exact ⟨B, hI, hlive, hroom, hbrk.trans_lt hlimit⟩
    · have hint : int ((max 4096 ((n + 15) / 16 + 1) : ℕ) * 16) > 0 := by
        rw [int]
        omega
      have hmem : true ∈ grants := by
        rcases grants with _ | ⟨_ | _, gs⟩
        · exact absurd ⟨rfl, hint⟩ hsbrk
        · exact absurd ⟨rfl, hint⟩ hsbrk
        · exact mem_cons_self ..
      have := hfits hmem
      rw [hgrown, ← hrbrk]
      exact ⟨_, hr.holds hlive hroom (by omega) (by omega)⟩

theorem Inv.no_wrap (hI : Inv base start h (B₁ ++ x :: B₂)) (hlimit : h.brk < start + 2 ^ 36) :
    spare B₁.getLast? + (x.units + spare B₂.head?) < 2 ^ 32 := by
  obtain ⟨hleft, -, hright⟩ := hI.sides
  have hlast := hleft.spare_le fun _ => mem_of_getLast?
  have hhead := hright.spare_le fun _ => mem_of_mem_head?
  rw [Blk.top] at hhead
  omega

theorem step_free (h : Holds base start s B) {ap : ℕ} (hap : ap ∈ s.live.map Prod.fst) :
    ∃ s', s.step base (.free ap) = .ok s' ∧ ∃ B', Holds base start s' B' := by
  obtain ⟨q, hq, rfl⟩ := mem_map.mp hap
  obtain ⟨x, hx, rfl⟩ := mem_map.mp (h.live.mem_iff.mp hq)
  obtain ⟨hxB, hxuse⟩ := mem_used.mp hx
  obtain ⟨B₁, B₂, rfl⟩ := append_of_mem hxB
  obtain ⟨h', B', hfree, hI', hbrk, top, -, hfreed⟩ :=
    h.inv.free _ hxuse (h.inv.no_wrap h.limit) h.inv.length_lt
  have hused := hfreed.used_eq
  have hrun : s.heap.free x.request.1 = some h' := by
    refine hfree.trans ?_
    rw [← hbrk]
  refine ⟨⟨h', s.live.filter (·.1 ≠ x.request.1)⟩, ?_, B', hI', ?_, fun y hy => ?_, ?_⟩
  · rw [Sys.step, hrun]
    rfl
  · -- only the pointer to `x` is removed
    refine (h.live.filter _).trans ?_
    rw [hused, used_append, used_used hxuse, map_append, map_append, map_cons,
      filter_append, filter_cons_of_neg (by simp)]
    have hkeep : ∀ l : List Blk, (∀ y ∈ l, y ∈ B₁ ++ x :: B₂ ∧ y ≠ x) →
        (l.map Blk.request).filter (·.1 ≠ x.request.1) = l.map Blk.request := by
      intro l hl
      rw [filter_eq_self]
      intro q hq
      obtain ⟨y, hy, rfl⟩ := mem_map.mp hq
      simp only [Blk.request, ne_eq, Nat.add_right_cancel_iff, decide_not, Bool.not_eq_true',
        decide_eq_false_iff_not]
      exact fun heq => (hl y hy).2 (h.inv.tiles.addr_inj (hl y hy).1 hxB heq)
    have hpw := h.inv.tiles.pairwise
    have hxpos := (h.inv.tiles.mem hxB).2.1
    have hne₁ : ∀ y ∈ B₁, y ≠ x := by
      rintro y hy rfl
      have := (pairwise_append.mp hpw).2.2 y hy y (mem_cons_self ..)
      rw [Blk.top] at this
      omega
    have hne₂ : ∀ y ∈ B₂, y ≠ x := by
      rintro y hy rfl
      have := rel_of_pairwise_cons (pairwise_append.mp hpw).2.1 hy
      rw [Blk.top] at this
      omega
    rw [hkeep (used B₁), hkeep (used B₂)]
    · intro y hy
      have := (mem_used.mp hy).1
      exact ⟨by simp [this], hne₂ y this⟩
    · intro y hy
      have := (mem_used.mp hy).1
      exact ⟨by simp [this], hne₁ y this⟩
  · apply h.room
    rw [hused] at hy
    rw [used_append, used_used hxuse]
    rcases mem_append.mp hy with hy | hy
    · exact mem_append_left _ hy
    · exact mem_append_right _ (mem_cons_of_mem _ hy)
  · show h'.brk < start + 2 ^ 36
    rw [hbrk]
    exact h.limit

theorem Sys.Ok.step (h : s.Ok base start) (hbase : 0 < base) (hbelow : base + 16 ≤ start) {a : Act}
    (hcalls : Calls s a) (hfits : Fits start s a) :
    ∃ s', s.step base a = .ok s' ∧ s'.Ok base start := by
  cases a with
  | malloc n grants =>
    obtain ⟨s', hs', hB'⟩ : ∃ s', s.step base (.malloc n grants) = .ok s' ∧
        ∃ B', Holds base start s' B' := by
      rcases h with hinit | ⟨B, hB⟩
      · refine step_malloc (hinit.inv hbelow) ?_ (by simp [used]) ?_ hbase hcalls hfits
        · rw [hinit.live]
          exact List.Perm.refl _
        · rw [hinit.brk]
          omega
      · refine step_malloc (B := B) ?_ hB.live hB.room hB.limit hbase hcalls hfits
        rw [hB.init hbase]
        exact hB.inv
    exact ⟨s', hs', .inr hB'⟩
  | free ap =>
    rcases h with hinit | ⟨B, hB⟩
    · rw [Calls, hinit.live] at hcalls
      cases hcalls
    · obtain ⟨s', hs', hB'⟩ := step_free hB hcalls
      exact ⟨s', hs', .inr hB'⟩

/-! ### Results -/

theorem Inv.not_adjacent (hI : Inv base start h B) (hx : x ∈ B) (hy : y ∈ B) (hxfree : x.use = none)
    (hyfree : y.use = none) : x.top ≠ y.addr := by
  intro heq
  obtain ⟨B₁, B₂, rfl⟩ := append_of_mem hx
  obtain ⟨-, -, hright⟩ := hI.sides
  cases B₂ with
  | nil =>
    have htop : x.top = h.brk := hright
    obtain ⟨-, hypos, hytop⟩ := hI.tiles.mem hy
    rw [Blk.top] at hytop
    omega
  | cons z B₂ =>
    have hz : z = y := hI.tiles.addr_inj (by simp) hy (hright.1.trans heq)
    have hchain := (isChain_cons.mp (isChain_append.mp hI.apart).2.1).1 z rfl
    rw [hz] at hchain
    exact hchain.elim (fun hne => hne hxfree) fun hne => hne hyfree

theorem Holds.placed (h : Holds base start s B) (halign : 16 ∣ start) {q : ℕ × ℕ}
    (hq : q ∈ s.live) :
    16 ∣ q.1 ∧ start + 16 ≤ q.1 ∧ q.1 + q.2 ≤ s.heap.brk ∧
      (∀ q' ∈ s.live, q' ≠ q → q.1 + q.2 + 16 ≤ q'.1 ∨ q'.1 + q'.2 + 16 ≤ q.1) ∧
      ∀ p ∈ frees B, q.1 + q.2 ≤ p ∨ p + 16 * s.heap.size p + 16 ≤ q.1 := by
  obtain ⟨x, hx, rfl⟩ := mem_map.mp (h.live.mem_iff.mp hq)
  have hroom := h.room x hx
  obtain ⟨hxB, hxuse⟩ := mem_used.mp hx
  obtain ⟨hlo, hpos, hhi⟩ := h.inv.tiles.mem hxB
  simp only [Blk.request, Blk.top] at hroom hhi ⊢
  refine ⟨?_, by omega, by omega, fun q' hq' hne => ?_, fun p hp => ?_⟩
  · exact Nat.dvd_add (h.inv.tiles.aligned halign hxB) (Nat.dvd_refl 16)
  · obtain ⟨y, hy, rfl⟩ := mem_map.mp (h.live.mem_iff.mp hq')
    have hroom' := h.room y hy
    have hxy : x ≠ y := by
      rintro rfl
      exact hne rfl
    have hdisj := h.inv.tiles.disjoint hxB (mem_used.mp hy).1 hxy
    simp only [Blk.request, Blk.top] at hroom' hdisj ⊢
    omega
  · obtain ⟨y, hy, hyfree, rfl⟩ := mem_frees.mp hp
    have hxy : x ≠ y := by
      rintro rfl
      exact hxuse hyfree
    have hdisj := h.inv.tiles.disjoint hxB hy hxy
    rw [h.inv.sizes y hy]
    simp only [Blk.top] at hdisj
    omega

theorem Sys.Ok.of_reachable (hbase : 0 < base) (hbelow : base + 16 ≤ start)
    (h : Reachable (Init start) (fun s a => Calls s a ∧ Fits start s a) (Sys.step base) s) :
    s.Ok base start := by
  apply h.invariant
  · exact fun s hs => .inl hs
  · intro s a s' hI hok hs
    obtain ⟨t, ht, hIt⟩ := hI.step hbase hbelow hok.1 hok.2
    rw [ht] at hs
    cases hs
    exact hIt

/-- The allocator of user programs, as long as the heap stays below 2^32 units.
Every call returns. The memory from `sbrk` is cut into the blocks `B`, each with
its size in its header: those in use, which are the program's, and the free ones.
A pointer that was returned and not freed is aligned, and the bytes that were
asked for lie in the heap, apart from the other blocks and their headers. The free
list goes around from `base` through the free blocks in the order of their
addresses, and no two of them are neighbours. -/
theorem heap_allocator (hbase : 0 < base) (hbelow : base + 16 ≤ start) (halign : 16 ∣ start)
    (h : Reachable (Init start) (fun s a => Calls s a ∧ Fits start s a) (Sys.step base) s) :
    (∀ a, Calls s a → Fits start s a → ∃ s', s.step base a = .ok s') ∧
    ∃ B, Tiles start B s.heap.brk ∧ (∀ x ∈ B, s.heap.size x.addr = x.units) ∧
      s.live.Perm ((used B).map Blk.request) ∧
      (∀ q ∈ s.live, 16 ∣ q.1 ∧ start + 16 ≤ q.1 ∧ q.1 + q.2 ≤ s.heap.brk ∧
        (∀ q' ∈ s.live, q' ≠ q → q.1 + q.2 + 16 ≤ q'.1 ∨ q'.1 + q'.2 + 16 ≤ q.1) ∧
        ∀ p ∈ frees B, q.1 + q.2 ≤ p ∨ p + 16 * s.heap.size p + 16 ≤ q.1) ∧
      (s.heap.freep = 0 ∧ B = [] ∨ s.heap.freep ∈ base :: frees B ∧
        Linked s.heap.ptr base (frees B) base ∧ (base :: frees B).Pairwise (· < ·)) ∧
      ∀ p ∈ frees B, ∀ p' ∈ frees B, p + 16 * s.heap.size p ≠ p' := by
  have hok := Sys.Ok.of_reachable hbase hbelow h
  refine ⟨fun a hcalls hfits => ?_, ?_⟩
  · obtain ⟨s', hs', -⟩ := hok.step hbase hbelow hcalls hfits
    exact ⟨s', hs'⟩
  rcases hok with hinit | ⟨B, hB⟩
  · refine ⟨[], hinit.brk.symm, by simp, ?_, ?_, .inl ⟨hinit.freep, rfl⟩, by simp [frees]⟩
    · rw [hinit.live]
      exact List.Perm.refl _
    · rw [hinit.live]
      simp
  · refine ⟨B, hB.inv.tiles, hB.inv.sizes, hB.live, fun q hq => hB.placed halign hq,
      .inr ⟨hB.inv.freep, hB.inv.ring, hB.inv.tiles.frees_sorted (by omega)⟩, fun p hp p' hp' => ?_⟩
    obtain ⟨x, hx, hxfree, rfl⟩ := mem_frees.mp hp
    obtain ⟨y, hy, hyfree, rfl⟩ := mem_frees.mp hp'
    rw [hB.inv.sizes x hx]
    exact hB.inv.not_adjacent hx hy hxfree hyfree

def boot : Sys := ⟨⟨fun _ => 0, fun _ => 0, 0, 8192⟩, []⟩

def twoRequests : List Act := [.malloc 100 [true], .malloc 200 [], .free 73616]

theorem heap_allocator_twoRequests :
    ∃ s, runActs (fun s a => Calls s a ∧ Fits 8192 s a) (Sys.step 4096) twoRequests boot = some s ∧
      s.live = [(73392, 200)] ∧ 16 ∣ 73392 ∧ 73392 + 200 ≤ s.heap.brk := by
  obtain ⟨s, hs, hlive⟩ : ∃ s ∈ runActs (fun s a => Calls s a ∧ Fits 8192 s a) (Sys.step 4096)
      twoRequests boot, s.live = [(73392, 200)] := by
    decide +kernel
  have hreach : Reachable (Init 8192) (fun s a => Calls s a ∧ Fits 8192 s a) (Sys.step 4096) s :=
    (Reachable.init ⟨rfl, rfl, rfl⟩).runActs hs
  obtain ⟨-, B, -, -, -, hplaced, -⟩ :=
    heap_allocator (by norm_num) (by norm_num) (by norm_num) hreach
  obtain ⟨halign, -, hin, -⟩ := hplaced (73392, 200) (by simp [hlive])
  exact ⟨s, hs, hlive, halign, hin⟩

/-- What `malloc` returns, if it is not null, lies in the memory from `sbrk`, if and only if
a free block is large enough, or less than 2^27 units are asked for, or `sbrk` fails, or the
page of the new header is not there any more. In the last case only `malloc` does not return.
And `morecore` records a block that the heap has grown by if and only if this has less than
2^27 units. -/
theorem malloc_inside (hbase : 0 < base) (hstart : PGSIZE ≤ start)
    (hI : Inv base start (h.init base) B) {n : ℕ} (hn : n < 2 ^ 32) (grants : List Bool) :
    ((∀ p h', h.malloc base n grants = some (p, h') → p ≠ 0 → start ≤ p ∧ p + n ≤ h'.brk) ↔
      (∃ x ∈ B, x.use = none ∧ Heap.nunits n ≤ x.units) ∨ Heap.nunits n < 2 ^ 27 ∨
        Heap.SbrkFails (int (Heap.nunits n * 16)) (grants.headD false) ∨
        Heap.growproc h.brk (int (Heap.nunits n * 16)) ≤ PGROUNDDOWN h.brk) ∧
    (h.malloc base n grants = none → 2 ^ 27 ≤ Heap.nunits n ∧
      Heap.growproc h.brk (int (Heap.nunits n * 16)) ≤ PGROUNDDOWN h.brk) ∧
    ∀ nu p h', h.morecore nu true = some (p, h') →
      (h'.brk = h.brk + 16 * max 4096 nu ↔ nu < 2 ^ 27) := by
  rw [← and_assoc]
  refine ⟨?_, fun nu p h' => Heap.morecore_brk⟩
  have hk := Heap.nunits_eq hn
  have hbrk := h.init_brk base
  have hout := @Inv.malloc base start _ B hI hbase (Heap.nunits n) n grants (by omega) (by omega)
    (.inr hstart)
  have hmalloc : h.malloc base n grants = Heap.mallocLoop (Heap.nunits n)
      ((h.init base).brk + 8) grants (h.init base) (h.init base).freep
      ((h.init base).ptr (h.init base).freep) := rfl
  rw [← hmalloc] at hout
  generalize h.malloc base n grants = m at hout ⊢
  -- the new block has room for the request
  have hroom : ∀ {r : ℕ × Heap} {y : Blk} {B' : List Blk},
      Returned base start (Heap.nunits n) n B r y B' → start ≤ r.1 ∧ r.1 + n ≤ y.top := by
    intro r y B' hr
    have hlo := hr.inside.1
    have hptr := hr.ptr
    have hunits := hr.units
    rw [Blk.top]
    omega
  rcases hout with ⟨hfit, hr, hrbrk⟩ | ⟨hall, hsbrk⟩ | ⟨hall, hsbrk, hpage⟩ |
    ⟨hall, hsbrk, hpage, hr, hrbrk, htop⟩
  · refine ⟨iff_of_true ?_ (.inl hfit), by simp⟩
    rintro p h' ⟨⟩ -
    obtain ⟨hlo, hhi⟩ := hroom hr
    exact ⟨hlo, hhi.trans hr.inside.2⟩
  · refine ⟨iff_of_true ?_ ?_, by simp⟩
    · rintro p h' ⟨⟩ hne
      exact absurd rfl hne
    · by_cases hsmall : Heap.nunits n < 2 ^ 27
      · exact .inr (.inl hsmall)
      · rw [max_eq_right (by omega)] at hsbrk
        exact .inr (.inr (.inl hsbrk))
  · by_cases hsmall : Heap.nunits n < 2 ^ 27
    · -- the break has moved up
      rw [Heap.growproc_units (by omega)] at hpage
      have := Nat.div_mul_le_self (h.init base).brk PGSIZE
      rw [PGROUNDDOWN] at hpage
      omega
    · rw [max_eq_right (by omega), hbrk] at hpage
      exact ⟨iff_of_true (by simp) (.inr (.inr (.inr hpage))), fun _ => ⟨not_lt.mp hsmall, hpage⟩⟩
  · obtain ⟨hlo, hhi⟩ := hroom hr
    by_cases hsmall : Heap.nunits n < 2 ^ 27
    · refine ⟨iff_of_true ?_ (.inr (.inl hsmall)), by simp⟩
      rintro p h' ⟨⟩ -
      refine ⟨hlo, hhi.trans ?_⟩
      dsimp only
      rw [htop, Heap.growproc_units (by omega)]
    · -- the new block begins at the old break
      rw [max_eq_right (by omega)] at hsbrk hpage htop
      have hle := @Heap.growproc_le (Heap.nunits n) (by omega) (by omega) (h.init base).brk
      have hptr := hr.ptr
      have hunits := hr.units
      rw [Blk.top] at htop
      refine ⟨iff_of_false (fun hall' => ?_) ?_, by simp⟩
      · have hin := (hall' _ _ rfl (by omega)).2
        rw [max_eq_right (by omega)] at hin
        simp only at hin
        omega
      · rintro (⟨x, hx, hxfree, hxk⟩ | hlt | hfails | hgone)
        · have := hall x hx hxfree
          omega
        · exact hsmall hlt
        · exact hsbrk hfails
        · rw [hbrk] at hpage
          omega

theorem malloc_inside_boot : ∃ p h', boot.heap.malloc 4096 100 [true] = some (p, h') ∧
    p ≠ 0 ∧ 8192 ≤ p ∧ p + 100 ≤ h'.brk := by
  have hrun : (boot.heap.malloc 4096 100 [true]).map Prod.fst = some 73616 := by decide +kernel
  obtain ⟨⟨p, h'⟩, hp, hval⟩ := Option.map_eq_some_iff.mp hrun
  have hne : p ≠ 0 := by
    rintro rfl
    cases hval
  have hinv : Inv 4096 8192 (boot.heap.init 4096) [] := Init.inv ⟨rfl, rfl, rfl⟩ (by norm_num)
  obtain ⟨hinside, -⟩ := malloc_inside (by norm_num) (by norm_num) hinv (n := 100) (by norm_num)
    [true]
  exact ⟨p, h', hp, hne, hinside.mpr (.inr (.inl (by decide))) p h' hp hne⟩

/-- After a request of 70000 bytes, one of 2^31 bytes makes `sbrk`'s argument negative. The
break stays where it was, and the block that is returned begins behind it. -/
theorem malloc_outside : ((boot.heap.malloc 4096 70000 [true]).bind fun r =>
    r.2.malloc 4096 (2 ^ 31) [true]).map (fun r => (r.1, r.2.brk)) = some (78224, 78208) := by
  decide +kernel

def manyRequests (k : ℕ) : List Act :=
  replicate k (.malloc (2 ^ 31 - 32) [true]) ++
    (range k).map fun i => .free (8192 + 16 * (2 ^ 27 - 1) * i + 16)

/-- After 33 of them the heap is one free block, whose size has wrapped. -/
theorem heap_size_wraps :
    ∃ s, Reachable (Init 8192) Calls (Sys.step 4096) s ∧ s.live = [] ∧
      s.heap.ptr 4096 = 8192 ∧ s.heap.ptr 8192 = 4096 ∧
      8192 + 16 * s.heap.size 8192 < s.heap.brk := by
  obtain ⟨s, hs, hv⟩ : ∃ s ∈ runActs Calls (Sys.step 4096) (manyRequests 33) boot,
      s.live = [] ∧ s.heap.ptr 4096 = 8192 ∧ s.heap.ptr 8192 = 4096 ∧
      8192 + 16 * s.heap.size 8192 < s.heap.brk := by
    decide +kernel
  exact ⟨s, (Reachable.init ⟨rfl, rfl, rfl⟩).runActs hs, hv⟩

end Xv6.Umalloc
