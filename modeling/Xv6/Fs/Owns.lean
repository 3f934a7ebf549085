import Xv6.Fs.Disk

/-!
Who owns which block.

`D.own i p` is the block at position `p` of inode `i`: the direct blocks, the
indirect block at `NDIRECT`, and after it the entries of the indirect block;
it is zero where there is none. `Owns sb D leak` is the invariant of the
allocator: positions never share a block, the bit of a block is set exactly
if it is metadata, owned or in `leak`, and no inode has a hole. The set
`leak` holds the blocks that are allocated and not owned: none at rest, and
within an operation those that are about to be attached or freed.
-/

namespace Xv6

open Function (update_self update_of_ne)

namespace Disk

def own (D : Disk) (i p : ℕ) : ℕ :=
  if (D.ino i).type = 0 then 0
  else if p ≤ NDIRECT then (D.ino i).addrs p
  else if (D.ino i).addrs NDIRECT ≠ 0 ∧ p - (NDIRECT + 1) < NINDIRECT then
    getEntry (D.blk ((D.ino i).addrs NDIRECT)) (p - (NDIRECT + 1))
  else 0

end Disk

def dataPos (bn : ℕ) : ℕ := if bn < NDIRECT then bn else bn + 1

theorem dataPos_ne (bn : ℕ) : dataPos bn ≠ NDIRECT := by
  unfold dataPos
  split <;> omega

theorem dataPos_inj {a b : ℕ} (h : dataPos a = dataPos b) : a = b := by
  unfold dataPos at h
  split at h <;> split at h <;> omega

def Disk.HoleFree (D : Disk) (i : ℕ) : Prop :=
  (D.ino i).type ≠ 0 → ∀ bn, bn * BSIZE < (D.ino i).size → D.own i (dataPos bn) ≠ 0

structure Owns (sb : Superblock) (D : Disk) (leak : Set ℕ) : Prop where
  ok : ∀ i, (D.ino i).Ok
  range : ∀ i p, D.own i p ≠ 0 → sb.dataStart ≤ D.own i p ∧ D.own i p < sb.size
  inj : ∀ i p j q, D.own i p ≠ 0 → D.own i p = D.own j q → i = j ∧ p = q
  leak_range : ∀ b ∈ leak, sb.dataStart ≤ b ∧ b < sb.size
  leak_own : ∀ b ∈ leak, ∀ i p, D.own i p ≠ b
  bit : ∀ b < sb.size,
    D.bit b = true ↔ b < sb.dataStart ∨ b ∈ leak ∨ ∃ i p, D.own i p ≠ 0 ∧ D.own i p = b
  hole : ∀ i, D.HoleFree i

namespace Disk

variable {D : Disk}
variable {i p : ℕ}

theorem own_of_type (h : (D.ino i).type = 0) (p : ℕ) : D.own i p = 0 := if_pos h

theorem own_direct (ht : (D.ino i).type ≠ 0) (hp : p ≤ NDIRECT) :
    D.own i p = (D.ino i).addrs p := by
  rw [own, if_neg ht, if_pos hp]

theorem own_entry {j : ℕ} (ht : (D.ino i).type ≠ 0) (ha : (D.ino i).addrs NDIRECT ≠ 0)
    (hj : j < NINDIRECT) :
    D.own i (NDIRECT + 1 + j) = getEntry (D.blk ((D.ino i).addrs NDIRECT)) j := by
  rw [own, if_neg ht, if_neg (by omega), if_pos ⟨ha, by omega⟩, Nat.add_sub_cancel_left]

theorem own_entry_zero (hp : NDIRECT < p) (ha : (D.ino i).addrs NDIRECT = 0) : D.own i p = 0 := by
  unfold own
  split
  · rfl
  · rw [if_neg (by omega), if_neg (by simp [ha])]

theorem own_far (hp : NDIRECT + 1 + NINDIRECT ≤ p) : D.own i p = 0 := by
  unfold own
  split
  · rfl
  · rw [if_neg (by omega), if_neg (by omega)]

theorem type_of_own (h : D.own i p ≠ 0) : (D.ino i).type ≠ 0 :=
  fun ht => h (own_of_type ht p)

@[simp] theorem own_setBit (b : ℕ) (v : Bool) : (D.setBit b v).own = D.own := rfl

theorem own_congr {D' : Disk} (hi : D'.ino i = D.ino i)
    (hb : D.own i NDIRECT ≠ 0 → D'.blk (D.own i NDIRECT) = D.blk (D.own i NDIRECT)) (p : ℕ) :
    D'.own i p = D.own i p := by
  unfold own
  rw [hi]
  split
  · rfl
  · grind [own_direct]

theorem own_setBlk {b : ℕ} (h : ∀ i, D.own i NDIRECT = b → b = 0) (x : Block) (i p : ℕ) :
    (D.setBlk b x).own i p = D.own i p := by
  have hino : (D.setBlk b x).ino i = D.ino i := rfl
  refine own_congr hino (fun h0 => ?_) p
  rw [blk_setBlk, update_of_ne]
  intro hb
  exact h0 (hb ▸ h i hb)

theorem own_setIno_ne {j : ℕ} (h : j ≠ i) (d : Dinode) (p : ℕ) :
    (D.setIno i d).own j p = D.own j p := by
  have hino : (D.setIno i d).ino j = D.ino j := by rw [ino_setIno, update_of_ne h]
  exact own_congr hino (fun _ => rfl) p

theorem own_setIno_addrs {d : Dinode} (ht : d.type = 0 ↔ (D.ino i).type = 0)
    (ha : d.addrs = (D.ino i).addrs) (j p : ℕ) : (D.setIno i d).own j p = D.own j p := by
  by_cases hj : j = i
  · subst hj
    simp only [own, ino_setIno, update_self, ha, blk_setIno, ht]
  · exact own_setIno_ne hj d p

end Disk

namespace Owns

variable {sb : Superblock} {D D' : Disk} {leak : Set ℕ} {b : ℕ}
variable {i : ℕ}

theorem congr (h : Owns sb D leak) (hown : ∀ i p, D'.own i p = D.own i p)
    (hbit : D'.bit = D.bit) (hok : ∀ i, (D'.ino i).Ok) (hhole : ∀ i, D'.HoleFree i) :
    Owns sb D' leak where
  ok := hok
  range i p := by simpa only [hown] using h.range i p
  inj i p j q := by simpa only [hown] using h.inj i p j q
  leak_range := h.leak_range
  leak_own b hb i p := by simpa only [hown] using h.leak_own b hb i p
  bit b hb := by simpa only [hown, hbit] using h.bit b hb
  hole := hhole

theorem holeFree_congr (h : D.HoleFree i) (hown : ∀ p, D'.own i p = D.own i p)
    (ht : (D'.ino i).type ≠ 0 → (D.ino i).type ≠ 0)
    (hs : (D'.ino i).type ≠ 0 → (D'.ino i).size ≤ (D.ino i).size) : D'.HoleFree i := by
  intro ht' bn hbn
  rw [hown]
  exact h (ht ht') bn (hbn.trans_le (hs ht'))

theorem of_clear (h : Owns sb D leak) (hb : b < sb.size) (hclear : D.bit b = false) :
    sb.dataStart ≤ b ∧ b ∉ leak ∧ ∀ i p, D.own i p ≠ 0 → D.own i p ≠ b := by
  have hnot : ¬D.bit b = true := by simp [hclear]
  rw [h.bit b hb, not_or, not_or] at hnot
  exact ⟨not_lt.mp hnot.1, hnot.2.1, fun i p h0 heq => hnot.2.2 ⟨i, p, h0, heq⟩⟩

theorem bit_own (h : Owns sb D leak) {p : ℕ} (h0 : D.own i p ≠ 0) : D.bit (D.own i p) = true :=
  (h.bit _ (h.range i p h0).2).mpr (.inr (.inr ⟨i, p, h0, rfl⟩))

theorem setBlk (h : Owns sb D leak) (hb : ∀ i, D.own i NDIRECT = b → b = 0) (x : Block) :
    Owns sb (D.setBlk b x) leak := by
  have hown := Disk.own_setBlk hb x
  exact h.congr hown rfl h.ok fun i => holeFree_congr (h.hole i) (hown i) id fun _ => le_rfl

theorem alloc (h : Owns sb D leak) (G : Geometry sb) (hb : b < sb.size)
    (hclear : D.bit b = false) : Owns sb (D.setBit b true) (leak ∪ {b}) := by
  obtain ⟨hdata, hleak, hfree⟩ := h.of_clear hb hclear
  have hpos : b ≠ 0 := by
    have := G.inodestart_lt_dataStart hb
    omega
  refine ⟨h.ok, h.range, h.inj, ?_, ?_, ?_, h.hole⟩
  · grind [Owns]
  · rintro a (ha | rfl) i p
    · exact h.leak_own a ha i p
    · intro heq
      exact hfree i p (heq ▸ hpos) heq
  · intro a ha
    simp only [Disk.own_setBit, Disk.bit_setBit]
    by_cases hab : a = b
    · subst hab
      simp
    · rw [update_of_ne hab, h.bit a ha]
      simp [hab]

theorem attach (h : Owns sb D (leak ∪ {b})) (hleak : b ∉ leak) (hb : b ≠ 0) {p : ℕ}
    (h0 : D.own i p = 0) (hown : ∀ j q, D'.own j q = if j = i ∧ q = p then b else D.own j q)
    (hbit : D'.bit = D.bit) (hok : ∀ i, (D'.ino i).Ok)
    (hino : ∀ j, (D'.ino j).type = (D.ino j).type ∧ (D'.ino j).size = (D.ino j).size) :
    Owns sb D' leak := by
  have hnew := h.leak_own b (.inr rfl)
  refine ⟨hok, ?_, ?_, fun a ha => h.leak_range a (.inl ha), ?_, ?_, ?_⟩
  · grind [Owns]
  · grind [h.inj]
  · grind [Owns]
  · grind [Owns]
  · intro j ht bn hbn
    rw [(hino j).1] at ht
    rw [(hino j).2] at hbn
    rw [hown]
    split
    · exact hb
    · exact h.hole j ht bn hbn

theorem detach (h : Owns sb D leak) (G : Geometry sb)
    (hown : ∀ j q, D'.own j q = if j = i then 0 else D.own j q) (hbit : D'.bit = D.bit)
    (hok : ∀ i, (D'.ino i).Ok) (hino : ∀ j ≠ i, D'.ino j = D.ino j) (hsize : (D'.ino i).size = 0) :
    Owns sb D' (leak ∪ {b | b ≠ 0 ∧ ∃ p, D.own i p = b}) := by
  refine ⟨hok, ?_, ?_, ?_, ?_, ?_, ?_⟩
  · grind [Owns]
  · grind [h.inj]
  · grind [Owns]
  · grind [Owns, G.inodestart_lt_dataStart]
  · grind [Owns]
  · intro j
    by_cases hj : j = i
    · subst hj
      intro _ bn hbn
      omega
    · intro ht bn hbn
      rw [hino j hj] at ht hbn
      rw [hown, if_neg hj]
      exact h.hole j ht bn hbn

theorem free (h : Owns sb D leak) (hb : b ∈ leak) : Owns sb (D.setBit b false) (leak \ {b}) where
  ok := h.ok
  range := h.range
  inj := h.inj
  leak_range a ha := h.leak_range a ha.1
  leak_own a ha := h.leak_own a ha.1
  bit a ha := by
    simp only [Disk.bit_setBit, Disk.own_setBit]
    by_cases hab : a = b
    · grind [h.leak_range, h.leak_own]
    · rw [update_of_ne hab, h.bit a ha]
      simp [hab]
  hole := h.hole

end Owns

end Xv6
