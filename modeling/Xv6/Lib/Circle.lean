import Xv6.Lib.Ring

/-!
Circular singly linked lists.

`Linked next h L h` says that the links lead from `h` through `L` back to `h`. Such a list
can be seen from any of its elements (`Linked.rotate`), and a walk from one of them finds
an element that it looks for (`search_linked`). An element is put in or taken out by an
assignment to the link of the element before it, which is the last one of `h :: A` if `A`
is what comes before (`A.getLastD h`).
-/

namespace Xv6

open List
open Function (update update_self update_of_ne)

variable {α : Type*} {next : α → α} {a b h x y : α} {A B L : List α}

theorem linked_iff_map : Linked next a L b ↔ (a :: L).map next = L ++ [b] := by
  induction L generalizing a with
  | nil => simp [Linked]
  | cons x L ih => simp [Linked, ih]

theorem Linked.rotate (hl : Linked next h L h) (hx : x ∈ h :: L) :
    ∃ G, Linked next x G x ∧ (x :: G).Perm (h :: L) := by
  rcases mem_cons.mp hx with rfl | hx
  · exact ⟨L, hl, List.Perm.refl _⟩
  · obtain ⟨A, B, rfl⟩ := append_of_mem hx
    obtain ⟨hA, hB⟩ := linked_append.mp hl
    refine ⟨B ++ h :: A, linked_append.mpr ⟨hB, hA⟩, ?_⟩
    have hperm : (x :: B ++ h :: A).Perm (h :: A ++ x :: B) := perm_append_comm
    exact hperm

theorem Linked.next_inj (hl : Linked next h L h) (hnd : (h :: L).Nodup) (hx : x ∈ h :: L)
    (hy : y ∈ h :: L) (hxy : next x = next y) : x = y := by
  have hmap : ((h :: L).map next).Nodup := by
    rw [linked_iff_map.mp hl]
    have hperm : (L ++ [h]).Perm (h :: L) := perm_append_comm
    exact hperm.nodup_iff.mpr hnd
  exact inj_on_of_nodup_map hmap hx hy hxy

theorem Linked.shift {next' : α → α} (hl : Linked next a L b) (hy : next' y = next a)
    (hsame : ∀ x ∈ L, next' x = next x) : Linked next' y L b := by
  cases L with
  | nil => exact hy.trans hl
  | cons x L => exact ⟨hy.trans hl.1, hl.2.congr hsame⟩

theorem getLastD_append_cons (A B : List α) (a b : α) :
    (A ++ b :: B).getLastD a = B.getLastD b := by
  induction A generalizing a with
  | nil => exact getLastD_cons
  | cons x A ih => grind

theorem Linked.next_last (hl : Linked next a A b) : next (A.getLastD a) = b := by
  induction A generalizing a with
  | nil => exact hl
  | cons x A ih =>
    rw [getLastD_cons]
    exact ih hl.2

theorem Linked.from_last (hl : Linked next a (A ++ B) b) : Linked next (A.getLastD a) B b := by
  induction A generalizing a with
  | nil => exact hl
  | cons x A ih =>
    rw [getLastD_cons]
    exact ih hl.2

theorem Linked.to_last (hl : Linked next a (A ++ B) b) : Linked next a A (next (A.getLastD a)) := by
  induction A generalizing a with
  | nil => rfl
  | cons x A ih =>
    rw [getLastD_cons]
    exact ⟨hl.1, ih hl.2⟩

section Update

variable [DecidableEq α]

theorem Linked.retarget (hl : Linked next a A b) (hnd : (a :: A).Nodup) (y : α) :
    Linked (update next (A.getLastD a) y) a A y := by
  induction A generalizing a with
  | nil => exact update_self ..
  | cons x A ih =>
    rw [getLastD_cons]
    have hne : a ≠ A.getLastD x := by
      intro heq
      exact (nodup_cons.mp hnd).1 (heq ▸ getLastD_mem_cons)
    exact ⟨(update_of_ne hne ..).trans hl.1, ih hl.2 (nodup_cons.mp hnd).2⟩

theorem Linked.remove (hl : Linked next a (A ++ x :: B) b) (hnd : (a :: (A ++ x :: B)).Nodup) :
    Linked (update next (A.getLastD a) (next x)) a (A ++ B) b := by
  induction A generalizing a with
  | nil =>
    refine hl.2.shift (update_self ..) fun z hz => update_of_ne ?_ ..
    rintro rfl
    exact (nodup_cons.mp hnd).1 (mem_cons_of_mem x hz)
  | cons z A ih =>
    rw [getLastD_cons]
    have hne : a ≠ A.getLastD z := by
      intro heq
      refine (nodup_cons.mp hnd).1 (heq ▸ ?_)
      exact mem_append_left (x :: B) getLastD_mem_cons
    exact ⟨(update_of_ne hne ..).trans hl.1, ih hl.2 (nodup_cons.mp hnd).2⟩

end Update

/-! ### Sorted lists -/

theorem eq_getLastD_or (hx : x ∈ a :: L) :
    x = L.getLastD a ∨ ∃ C d D, L = C ++ d :: D ∧ x = C.getLastD a := by
  induction L generalizing a with
  | nil => exact .inl (mem_singleton.mp hx)
  | cons y L ih =>
    rcases mem_cons.mp hx with rfl | hx
    · exact .inr ⟨[], y, L, rfl, rfl⟩
    · rw [getLastD_cons]
      refine (ih hx).imp_right ?_
      rintro ⟨C, d, D, rfl, rfl⟩
      exact ⟨y :: C, d, D, rfl, (getLastD_cons).symm⟩

section Order

variable [LinearOrder α]

theorem le_getLastD (hs : (a :: L).Pairwise (· < ·)) (hx : x ∈ a :: L) : x ≤ L.getLastD a := by
  induction L generalizing a with
  | nil => exact (mem_singleton.mp hx).le
  | cons y L ih => grind

theorem Linked.gap_iff {z : α} (hl : Linked next h (A ++ B) h)
    (hs : (h :: (A ++ B)).Pairwise (· < ·)) (hA : ∀ z ∈ h :: A, z < x) (hB : ∀ z ∈ B, x < z)
    (hz : z ∈ h :: (A ++ B)) :
    ((z < x ∧ x < next z) ∨ (next z ≤ z ∧ (z < x ∨ x < next z))) ↔ z = A.getLastD h := by
  have hsA := hs.sublist (Sublist.cons_cons h (sublist_append_left A B))
  have hpx := hA _ getLastD_mem_cons
  rcases eq_getLastD_or hz with rfl | ⟨C, d, D, hCD, rfl⟩
  · -- the last element, whose link leads to `h`
    have hhx := hA h (mem_cons_self ..)
    have hhz := le_getLastD hs (mem_cons_self ..)
    rw [hl.next_last]
    cases B with
    | nil => grind
    | cons b B => grind
  · -- an element that is followed by `d`
    rw [hCD] at hl hs
    rw [(linked_append.mp hl).1.next_last]
    have hsC := hs.sublist (Sublist.cons_cons h (sublist_append_left C (d :: D)))
    have hcd : ∀ c ∈ h :: C, c < d := by grind
    have hlast := hcd _ getLastD_mem_cons
    constructor
    · rintro (⟨hlt, hgt⟩ | ⟨hle, -⟩)
      · -- both cut the list at `x`
        have hC : C = (A ++ B).filter (· < x) := by
          rw [hCD, filter_append, filter_eq_self.mpr, filter_eq_nil_iff.mpr,
            append_nil]
          · intro y hy
            have hxy : x < y := by
              rcases mem_cons.mp hy with rfl | hy
              · exact hgt
              · have := (pairwise_append.mp
                  (show ((h :: C) ++ d :: D).Pairwise (· < ·) from hs)).2.1
                exact hgt.trans (rel_of_pairwise_cons this hy)
            simpa using hxy.le
          · intro y hy
            have := le_getLastD hsC (mem_cons_of_mem h hy)
            simpa using this.trans_lt hlt
        have hA' : A = (A ++ B).filter (· < x) := by
          rw [filter_append, filter_eq_self.mpr, filter_eq_nil_iff.mpr,
            append_nil]
          · intro y hy
            simpa using (hB y hy).le
          · intro y hy
            simpa using hA y (mem_cons_of_mem h hy)
        rw [hC, ← hA']
      · exact absurd hlast (not_lt.mpr hle)
    · intro heq
      have hlt : C.getLastD h < x := heq ▸ hpx
      refine .inl ⟨hlt, ?_⟩
      have hd : d ∈ A ++ B := by
        rw [hCD]
        exact mem_append_right C (mem_cons_self ..)
      rcases mem_append.mp hd with hd | hd
      · have := le_getLastD hsA (mem_cons_of_mem h hd)
        rw [← heq] at this
        exact absurd hlast (not_lt.mpr this)
      · exact hB d hd

end Order

/-! ### Walks -/

/-- Follow `next` from `x` on until `stop` holds. It is `none` if the walk does not
end. -/
def search (next : α → α) (stop : α → Bool) : (fuel : ℕ) → α → Option α
  | 0, _ => none
  | fuel + 1, x => if stop x then some x else search next stop fuel (next x)

theorem search_append {stop : α → Bool} {fuel : ℕ} (hl : Linked next a (A ++ x :: B) b)
    (hnot : ∀ z ∈ a :: A, stop z = false) (hx : stop x = true) (hfuel : A.length + 2 ≤ fuel) :
    search next stop fuel a = some x := by
  induction A generalizing a fuel with
  | nil =>
    obtain ⟨fuel, rfl⟩ : ∃ n, fuel = n + 2 := ⟨fuel - 2, by simp at hfuel; omega⟩
    rw [search, if_neg (by simp [hnot a (mem_cons_self ..)]), hl.1, search, if_pos hx]
  | cons z A ih =>
    obtain ⟨fuel, rfl⟩ : ∃ n, fuel = n + 1 := ⟨fuel - 1, by simp at hfuel; omega⟩
    rw [search, if_neg (by simp [hnot a (mem_cons_self ..)]), hl.1]
    exact ih hl.2 (fun y hy => hnot y (mem_cons_of_mem a hy)) (by simpa using hfuel)

theorem search_linked {stop : α → Bool} {fuel : ℕ} (hl : Linked next h L h) (ha : a ∈ h :: L)
    (hx : x ∈ h :: L) (hstop : ∀ z ∈ h :: L, stop z = true ↔ z = x)
    (hfuel : L.length + 1 ≤ fuel) : search next stop fuel a = some x := by
  obtain ⟨G, hG, hperm⟩ := hl.rotate ha
  have hlen : G.length = L.length := by simpa using hperm.length_eq
  rcases mem_cons.mp (hperm.mem_iff.mpr hx) with rfl | hxG
  · obtain ⟨fuel, rfl⟩ : ∃ n, fuel = n + 1 := ⟨fuel - 1, by omega⟩
    rw [search, if_pos ((hstop x hx).mpr rfl)]
  · -- the first part of the walk does not meet `x`
    obtain ⟨C, D, rfl, hC⟩ := eq_append_cons_of_mem hxG
    by_cases hax : a = x
    · obtain ⟨fuel, rfl⟩ : ∃ n, fuel = n + 1 := ⟨fuel - 1, by omega⟩
      rw [search, if_pos ((hstop a ha).mpr hax), hax]
    · grind [search_append]

end Xv6
