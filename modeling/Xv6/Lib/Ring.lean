import Mathlib

/-!
Circular doubly linked lists.

The links are two functions, `next` and `prev`, and `h` is the head of the list, which is
not an element. `Linked next a L b` says that following `next` from `a` passes through `L`
and then gets to `b`; `Ring next prev h L` that `L` is the list from `h` around to `h`
again, and the same backwards with `prev`. `unlink` and `pushFront` are the usual
assignments to links, and `scan` is the loop that walks the list until it finds an element
or is back at the head.
-/

namespace Xv6

open List
open Function (update update_self update_of_ne)

variable {α : Type*}

/-- Following `next` from `a` passes through `L` and gets to `b`. -/
def Linked (next : α → α) : α → List α → α → Prop
  | a, [], b => next a = b
  | a, x :: L, b => next a = x ∧ Linked next x L b

theorem linked_append {next : α → α} {a b x : α} {A B : List α} :
    Linked next a (A ++ x :: B) b ↔ Linked next a A x ∧ Linked next x B b := by
  induction A generalizing a with
  | nil => exact Iff.rfl
  | cons y A ih => rw [cons_append, Linked, Linked, ih, and_assoc]

theorem Linked.congr {next next' : α → α} {a b : α} {L : List α} (h : Linked next a L b)
    (heq : ∀ x ∈ a :: L, next' x = next x) : Linked next' a L b := by
  induction L generalizing a with
  | nil => exact (heq a (mem_singleton_self a)).trans h
  | cons x L ih => grind [Linked]

structure Ring (next prev : α → α) (h : α) (L : List α) : Prop where
  nodup : (h :: L).Nodup
  next : Linked next h L h
  prev : Linked prev h L.reverse h

namespace Ring

variable {next prev : α → α} {h b : α} {L : List α}

theorem symm (hr : Ring next prev h L) : Ring prev next h L.reverse :=
  ⟨by simpa using hr.nodup, hr.prev, by simpa using hr.next⟩

theorem prev_next {x : α} (hr : Ring next prev h L) (hx : x ∈ h :: L) : prev (next x) = x := by
  -- cut the circle at `x`
  have key : ∀ A B : List α, h :: L = A ++ x :: B → prev (next x) = x := by
    intro A B hL
    have hnext := hr.next
    have hprev := hr.prev
    cases A with
    | nil =>
      obtain ⟨rfl, rfl⟩ := cons.inj hL
      cases L with
      | nil => rw [show next h = h from hnext]; exact hprev
      | cons y L =>
        rw [hnext.1]
        rw [reverse_cons, linked_append] at hprev
        exact hprev.2
    | cons a A =>
      rw [cons_append] at hL
      obtain ⟨rfl, rfl⟩ := cons.inj hL
      rw [linked_append] at hnext
      rw [reverse_append, reverse_cons] at hprev
      cases B with
      | nil =>
        rw [show next x = h from hnext.2]
        exact hprev.1
      | cons y B =>
        rw [hnext.2.1]
        rw [reverse_cons, append_assoc, append_assoc, singleton_append,
          linked_append] at hprev
        exact hprev.2.1
  obtain ⟨A, B, hL⟩ := append_of_mem hx
  exact key A B hL

theorem next_prev {x : α} (hr : Ring next prev h L) (hx : x ∈ h :: L) : next (prev x) = x :=
  hr.symm.prev_next (by simpa using hx)

end Ring

section Update

variable [DecidableEq α]

/-- `b->next->prev = b->prev; b->prev->next = b->next`. -/
def unlink (l : (α → α) × (α → α)) (b : α) : (α → α) × (α → α) :=
  (update l.1 (l.2 b) (l.1 b), update l.2 (l.1 b) (l.2 b))

/-- `b->next = h->next; b->prev = h; h->next->prev = b; h->next = b`. -/
def pushFront (l : (α → α) × (α → α)) (h b : α) : (α → α) × (α → α) :=
  let next := update l.1 b (l.1 h)
  let prev := update (update l.2 b h) (next h) b
  (update next h b, prev)

namespace Ring

variable {next prev : α → α} {h b : α} {L A B : List α}

theorem linked_unlink (hr : Ring next prev h (A ++ b :: B)) :
    Linked (update next (prev b) (next b)) h (A ++ B) h := by
  have hnext := linked_append.mp hr.next
  have hnodup := hr.nodup
  have hnb : next (prev b) = b := hr.next_prev (by simp)
  -- where `A` ends is where `prev` of `b` is
  have key : ∀ (a : α) (A : List α), Linked next a A b → (a :: (A ++ b :: B)).Nodup →
      prev b ∈ a :: A → Linked (update next (prev b) (next b)) a (A ++ B) h := by
    intro a A
    induction A generalizing a with
    | nil =>
      intro hA hnd hmem
      obtain rfl := mem_singleton.mp hmem
      cases B with
      | nil =>
        rw [nil_append, Linked, update_self]
        exact hnext.2
      | cons y B =>
        refine ⟨(update_self ..).trans hnext.2.1, hnext.2.2.congr fun x hx => ?_⟩
        refine update_of_ne ?_ ..
        rintro rfl
        exact (nodup_cons.mp hnd).1 (mem_append_right _ (mem_cons_of_mem _ hx))
    | cons x A ih =>
      intro hA hnd hmem
      have hne : a ≠ prev b := by
        intro ha
        have hx : x = b := hA.1.symm.trans (ha ▸ hnb)
        have := (nodup_cons.mp (nodup_cons.mp hnd).2).1
        exact this (mem_append_right _ (hx ▸ mem_cons_self ..))
      refine ⟨(update_of_ne hne ..).trans hA.1, ih x hA.2 (nodup_cons.mp hnd).2 ?_⟩
      exact (mem_cons.mp hmem).resolve_left hne.symm
  refine key h A hnext.1 hnodup ?_
  have hprev := hr.prev
  rw [reverse_append, reverse_cons, append_assoc, singleton_append,
    linked_append] at hprev
  cases hA : A.reverse with
  | nil =>
    rw [hA] at hprev
    rw [show prev b = h from hprev.2]
    exact mem_cons_self ..
  | cons x A' =>
    rw [hA] at hprev
    rw [hprev.2.1]
    exact mem_cons_of_mem _ (mem_reverse.mp (hA ▸ mem_cons_self ..))

theorem unlink (hr : Ring next prev h (A ++ b :: B)) :
    Ring (Xv6.unlink (next, prev) b).1 (Xv6.unlink (next, prev) b).2 h (A ++ B) := by
  refine ⟨?_, hr.linked_unlink, ?_⟩
  · grind [Ring]
  · have hs := hr.symm
    rw [reverse_append, reverse_cons, append_assoc, singleton_append] at hs
    have := hs.linked_unlink
    rwa [← reverse_append] at this

theorem pushFront (hr : Ring next prev h L) (hb : b ∉ h :: L) :
    Ring (Xv6.pushFront (next, prev) h b).1 (Xv6.pushFront (next, prev) h b).2 h (b :: L) := by
  have hne : h ≠ b := fun heq => hb (heq ▸ mem_cons_self ..)
  have hbL : b ∉ L := fun hmem => hb (mem_cons_of_mem h hmem)
  have hhL : h ∉ L := (nodup_cons.mp hr.nodup).1
  have hnext : update next b (next h) h = next h := update_of_ne hne ..
  refine ⟨?_, ⟨update_self .., ?_⟩, ?_⟩
  · grind [hr.nodup]
  · -- `b` gets the link of `h`, and the links of `L` stay
    have hb' : (Xv6.pushFront (next, prev) h b).1 b = next h :=
      (update_of_ne hne.symm ..).trans (update_self ..)
    have hL : ∀ x ∈ L, (Xv6.pushFront (next, prev) h b).1 x = next x := by
      intro x hx
      refine (update_of_ne ?_ ..).trans (update_of_ne ?_ ..)
      · rintro rfl
        exact hhL hx
      · rintro rfl
        exact hbL hx
    have hlinked := hr.next
    cases L with
    | nil => exact hb'.trans hlinked
    | cons y L => exact ⟨hb'.trans hlinked.1, hlinked.2.congr fun x hx => hL x hx⟩
  · -- the first element of `L`, or `h` if there is none, gets `b` as `prev`
    have hprev : (Xv6.pushFront (next, prev) h b).2 =
        update (update prev b h) (next h) b := by
      simp only [Xv6.pushFront, hnext]
    rw [reverse_cons, linked_append, hprev]
    have hlinked := hr.prev
    have hlinkedn := hr.next
    have hbn : b ≠ next h := by
      rintro heq
      cases L with
      | nil => exact hne (heq.trans hlinkedn).symm
      | cons y L => exact hbL ((heq.trans hlinkedn.1) ▸ mem_cons_self ..)
    constructor
    · cases L with
      | nil => grind [Linked]
      | cons y L =>
        rw [hlinkedn.1]
        rw [reverse_cons, linked_append] at hlinked ⊢
        refine ⟨hlinked.1.congr fun x hx => ?_, update_self ..⟩
        have hxy : x ≠ y := by grind [hr.nodup]
        have hxb : x ≠ b := by grind
        exact (update_of_ne hxy ..).trans (update_of_ne hxb ..)
    · exact (update_of_ne hbn ..).trans (update_self ..)

end Ring

/-- Walk along `next` from `x` until `ok` holds or the walk is at `h`: the element
that was found, or none. It is `none` at the outside if the walk does not end. -/
def scan (next : α → α) (h : α) (ok : α → Bool) : (fuel : ℕ) → α → Option (Option α)
  | 0, _ => none
  | fuel + 1, x =>
    if x = h then some none else if ok x then some (some x) else scan next h ok fuel (next x)

theorem scan_linked {next : α → α} {h a : α} {ok : α → Bool} {L : List α} {fuel : ℕ}
    (hl : Linked next a L h) (hh : h ∉ L) (hfuel : L.length < fuel) :
    scan next h ok fuel (next a) = some (L.find? ok) := by
  induction L generalizing a fuel with
  | nil =>
    obtain ⟨fuel, rfl⟩ := Nat.exists_eq_add_of_lt hfuel
    rw [show next a = h from hl]
    simp [scan]
  | cons x L ih =>
    obtain ⟨fuel, rfl⟩ : ∃ n, fuel = n + 1 := ⟨fuel - 1, by simp at hfuel; omega⟩
    have hxh : x ≠ h := fun heq => hh (heq ▸ mem_cons_self ..)
    rw [hl.1, scan, if_neg hxh]
    by_cases hx : ok x = true
    · rw [if_pos hx, find?_cons_of_pos hx]
    · rw [if_neg hx, find?_cons_of_neg hx]
      exact ih hl.2 (fun hmem => hh (mem_cons_of_mem x hmem)) (by simpa using hfuel)

end Update

end Xv6
