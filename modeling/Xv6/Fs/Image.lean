import Xv6.Fs.Content

/-!
Disk images written down by their files.

`Superblock.blocks` writes a `Disk` out as blocks; read back by `Superblock.disk` it is
the same disk. An `Image` lists the inodes of a file system with the run of blocks and the
bytes of each; it has no holes and no shared blocks as soon as the runs are disjoint and
long enough, which is a finite check.
-/

namespace Xv6

open List

/-! ### Blocks of a disk -/

def inodeBlock (ino : ℕ → Dinode) (i : ℕ) : Block :=
  (range IPB).foldl (fun b k => putDinode b (i + k) (ino (i + k))) zeroBlock

def bitBlock (bit : ℕ → Bool) (b : ℕ) : Block := fun t =>
  UInt8.ofNat (Nat.ofBits fun j : Fin 8 => bit (b + t.val * 8 + j.val))

def Superblock.blocks (sb : Superblock) (D : Disk) (b : ℕ) : Block :=
  if b < sb.inodestart then zeroBlock
  else if b < sb.bmapstart then inodeBlock D.ino ((b - sb.inodestart) * IPB)
  else if b < sb.dataStart then bitBlock D.bit ((b - sb.bmapstart) * BPB)
  else D.blk b

theorem getDinode_foldl {ino : ℕ → Dinode} (hok : ∀ j, (ino j).Ok) {i k n : ℕ} (hk : k < n)
    (hn : n ≤ IPB) :
    getDinode ((range n).foldl (fun b k => putDinode b (i + k) (ino (i + k))) zeroBlock)
      (i + k) = ino (i + k) := by
  induction n with
  | zero => omega
  | succ n ih => grind [range_succ, getDinode_putDinode, getDinode_putDinode_ne]

theorem getBit_bitBlock (bit : ℕ → Bool) (b : ℕ) {bi : ℕ} (hbi : bi < BPB) :
    getBit (bitBlock bit b) bi = bit (b + bi) := by
  have hmod : bi % 8 < 8 := Nat.mod_lt _ (by norm_num)
  have hbits : Nat.ofBits (fun j : Fin 8 => bit (b + bi / 8 * 8 + j.val)) < 2 ^ 8 :=
    Nat.ofBits_lt_two_pow _
  have hget : (bitBlock bit b).get (bi / 8) =
      UInt8.ofNat (Nat.ofBits fun j : Fin 8 => bit (b + bi / 8 * 8 + j.val)) := by
    grind [Bytes.get, bitBlock]
  rw [getBit_eq, hget, UInt8.toNat_ofNat_of_lt' hbits, Nat.testBit_ofBits_lt _ _ hmod]
  congr 1
  simp only
  omega

theorem Geometry.disk_blocks {sb : Superblock} (G : Geometry sb) {D : Disk}
    (hok : ∀ i, (D.ino i).Ok) (hino : ∀ i, sb.ninodes ≤ i → D.ino i = Dinode.zero)
    (hbit : ∀ b, sb.size ≤ b → D.bit b = true)
    (hblk : ∀ b, ¬(sb.dataStart ≤ b ∧ b < sb.size) → D.blk b = zeroBlock) :
    sb.disk (sb.blocks D) = D := by
  refine Disk.ext' (fun i => ?_) (fun b => ?_) fun b => ?_
  · by_cases hi : i < sb.ninodes
    · have hlt := G.inodes i hi
      have hle : sb.inodestart ≤ sb.IBLOCK i := Geometry.inodestart_le_IBLOCK i
      rw [Superblock.disk_ino hi, Superblock.blocks, if_neg (by omega), if_pos hlt]
      have hq : (sb.IBLOCK i - sb.inodestart) * IPB = i / IPB * IPB := by grind [Superblock.IBLOCK]
      have hget := getDinode_foldl hok (i := i / IPB * IPB) (k := i % IPB)
        (Nat.mod_lt _ (by norm_num)) le_rfl
      rw [Nat.div_add_mod' i IPB] at hget
      rw [hq]
      exact hget
    · rw [hino i (by omega)]
      exact if_neg hi
  · by_cases hb : b < sb.size
    · have hlt := G.bitmap b hb
      have hle := G.IBLOCK_lt_BBLOCK G.root b
      have hle' : sb.inodestart ≤ sb.IBLOCK ROOTINO := Geometry.inodestart_le_IBLOCK ROOTINO
      have hge : sb.bmapstart ≤ sb.BBLOCK b := Nat.le_add_left _ _
      rw [Superblock.disk_bit hb, Superblock.blocks, if_neg (by omega), if_neg (by omega),
        if_pos hlt, getBit_bitBlock _ _ (Nat.mod_lt _ (by norm_num))]
      congr 1
      rw [Superblock.BBLOCK, Nat.add_sub_cancel, Nat.div_add_mod' b BPB]
    · rw [hbit b (by omega)]
      exact if_neg hb
  · by_cases hb : sb.dataStart ≤ b ∧ b < sb.size
    · have hlo := G.inodestart_lt_dataStart hb.2
      have hbm := G.bitmap b hb.2
      have hge : sb.bmapstart ≤ sb.BBLOCK b := Nat.le_add_left _ _
      rw [Superblock.disk_blk hb.1 hb.2, Superblock.blocks, if_neg (by omega), if_neg (by omega),
        if_neg (by omega)]
    · rw [hblk b hb]
      exact if_neg hb

/-! ### Images -/

/-- An inode with a run of `cnt` blocks from `base` on, in the order of the
positions. -/
structure Extent where
  type : ℤ
  major : ℤ
  minor : ℤ
  nlink : ℤ
  size : ℕ
  base : ℕ
  cnt : ℕ

def Extent.dinode (e : Extent) : Dinode where
  type := e.type
  major := e.major
  minor := e.minor
  nlink := e.nlink
  size := e.size
  addrs k := if k ≤ NDIRECT ∧ k < e.cnt then e.base + k else 0

def indirectBlock (f : ℕ → ℕ) : Block := fun t => (leBytes 4 (f (t.val / 4))).getD (t.val % 4) 0

/-- The inodes 1 to `n` of a file system, and the bytes of each. -/
structure Image where
  n : ℕ
  ext : ℕ → Extent
  data : ℕ → ℕ → UInt8

namespace Image

variable (im : Image)

def owner (b : ℕ) : Option ℕ :=
  (range' 1 im.n).find? fun i =>
    decide ((im.ext i).base ≤ b ∧ b < (im.ext i).base + (im.ext i).cnt)

def posBlock (i p : ℕ) : Block :=
  if p = NDIRECT then
    indirectBlock fun j =>
      if NDIRECT + 1 + j < (im.ext i).cnt then (im.ext i).base + (NDIRECT + 1 + j) else 0
  else fun t => im.data i ((if p < NDIRECT then p else p - 1) * BSIZE + t.val)

def disk (sb : Superblock) : Disk where
  ino i := if 1 ≤ i ∧ i ≤ im.n then (im.ext i).dinode else Dinode.zero
  bit b := decide (b < sb.dataStart ∨ sb.size ≤ b) || (im.owner b).isSome
  blk b :=
    match im.owner b with
    | some i => im.posBlock i (b - (im.ext i).base)
    | none => zeroBlock

structure Ok (sb : Superblock) : Prop where
  lt : im.n < sb.ninodes
  type : ∀ i ≤ im.n, 1 ≤ i → (im.ext i).type ≠ 0
  short : ∀ i ≤ im.n, 1 ≤ i → short (im.ext i).type = (im.ext i).type ∧
    short (im.ext i).major = (im.ext i).major ∧ short (im.ext i).minor = (im.ext i).minor ∧
    short (im.ext i).nlink = (im.ext i).nlink ∧ (im.ext i).size < 2 ^ 32
  range : ∀ i ≤ im.n, 1 ≤ i →
    sb.dataStart ≤ (im.ext i).base ∧ (im.ext i).base + (im.ext i).cnt ≤ sb.size
  cnt : ∀ i ≤ im.n, 1 ≤ i → (im.ext i).cnt ≤ NDIRECT + 1 + NINDIRECT
  disjoint : ∀ i ≤ im.n, 1 ≤ i → ∀ j < i, 1 ≤ j →
    (im.ext i).base + (im.ext i).cnt ≤ (im.ext j).base ∨
      (im.ext j).base + (im.ext j).cnt ≤ (im.ext i).base
  hole : ∀ i ≤ im.n, 1 ≤ i →
    (im.ext i).size = 0 ∨ dataPos (((im.ext i).size - 1) / BSIZE) < (im.ext i).cnt

variable {im} {sb : Superblock}

theorem Ok.apart (h : im.Ok sb) {i j : ℕ} (hi : 1 ≤ i ∧ i ≤ im.n) (hj : 1 ≤ j ∧ j ≤ im.n)
    (hne : i ≠ j) : (im.ext i).base + (im.ext i).cnt ≤ (im.ext j).base ∨
      (im.ext j).base + (im.ext j).cnt ≤ (im.ext i).base := by
  rcases Nat.lt_or_gt_of_ne hne with hlt | hlt
  · exact (h.disjoint j hj.2 hj.1 i hlt hi.1).symm
  · exact h.disjoint i hi.2 hi.1 j hlt hj.1

theorem Ok.owner_eq_some (h : im.Ok sb) {b i : ℕ} :
    im.owner b = some i ↔
      (1 ≤ i ∧ i ≤ im.n) ∧ (im.ext i).base ≤ b ∧ b < (im.ext i).base + (im.ext i).cnt := by
  have hsome : ∀ {i}, im.owner b = some i →
      (1 ≤ i ∧ i ≤ im.n) ∧ (im.ext i).base ≤ b ∧ b < (im.ext i).base + (im.ext i).cnt := by
    intro i hi
    have hmem := mem_of_find?_eq_some hi
    have hp := find?_some hi
    rw [mem_range'_1] at hmem
    exact ⟨by omega, of_decide_eq_true hp⟩
  refine ⟨hsome, fun ⟨hi, hb⟩ => ?_⟩
  cases hown : im.owner b with
  | none =>
    have := find?_eq_none.mp hown i (mem_range'_1.mpr (by omega))
    simp [hb.1, hb.2] at this
  | some j =>
    obtain ⟨hj, hbj⟩ := hsome hown
    by_contra hne
    have := h.apart hi hj (fun heq => hne (heq ▸ rfl))
    omega

theorem getEntry_indirectBlock {f : ℕ → ℕ} {j : ℕ} (hj : j < NINDIRECT) (hf : f j < 2 ^ 32) :
    getEntry (indirectBlock f) j = f j := by
  have hs : (indirectBlock f).slice (4 * j) 4 = leBytes 4 (f j) := by
    refine ext_getElem (by simp) fun k hk hk' => ?_
    have hk4 : k < 4 := by simpa using hk
    have hlt : 4 * j + k < BSIZE := by
      norm_num at hj ⊢
      omega
    rw [← getD_eq_getElem _ 0 hk, ← getD_eq_getElem _ 0 hk', Bytes.getD_slice _ hk4]
    simp only [Bytes.get, dif_pos hlt, indirectBlock]
    rw [show (4 * j + k) / 4 = j by omega, show (4 * j + k) % 4 = k by omega]
  rw [getEntry, Bytes.getLe, hs, leNat_leBytes, Nat.mod_eq_of_lt (by norm_num at hf ⊢; omega)]

theorem Ok.blk_disk (h : im.Ok sb) {i p : ℕ} (hi : 1 ≤ i ∧ i ≤ im.n) (hp : p < (im.ext i).cnt) :
    (im.disk sb).blk ((im.ext i).base + p) = im.posBlock i p := by
  have hown := (h.owner_eq_some (b := (im.ext i).base + p) (i := i)).mpr ⟨hi, by omega⟩
  simp only [disk, hown, Nat.add_sub_cancel_left]

theorem ino_disk {i : ℕ} (hi : 1 ≤ i ∧ i ≤ im.n) : (im.disk sb).ino i = (im.ext i).dinode :=
  if_pos hi

variable (h : im.Ok sb) (G : Geometry sb)
include h G

theorem Ok.own_disk (i p : ℕ) :
    (im.disk sb).own i p =
      if (1 ≤ i ∧ i ≤ im.n) ∧ p < (im.ext i).cnt then (im.ext i).base + p else 0 := by
  by_cases hi : 1 ≤ i ∧ i ≤ im.n
  · have hino : (im.disk sb).ino i = (im.ext i).dinode := ino_disk hi
    have ht : ((im.disk sb).ino i).type ≠ 0 := by
      rw [hino]
      exact h.type i hi.2 hi.1
    have hcnt := h.cnt i hi.2 hi.1
    have hrange := h.range i hi.2 hi.1
    simp only [hi, true_and, and_true]
    by_cases hp : p ≤ NDIRECT
    · rw [Disk.own_direct ht hp, hino]
      simp [Extent.dinode, hp]
    · by_cases hind : NDIRECT < (im.ext i).cnt
      · have haddr : ((im.disk sb).ino i).addrs NDIRECT = (im.ext i).base + NDIRECT := by
          rw [hino]
          simp [Extent.dinode, hind]
        by_cases hfar : p - (NDIRECT + 1) < NINDIRECT
        · obtain ⟨j, rfl⟩ : ∃ j, p = NDIRECT + 1 + j := ⟨p - (NDIRECT + 1), by omega⟩
          rw [Disk.own_entry ht (by simp [haddr]) (by omega), haddr,
            h.blk_disk hi hind, posBlock, if_pos rfl, getEntry_indirectBlock (by omega)]
          split
          · have := G.size
            omega
          · norm_num
        · rw [Disk.own_far (by omega), if_neg (by omega)]
      · have haddr : ((im.disk sb).ino i).addrs NDIRECT = 0 := by
          rw [hino]
          simp [Extent.dinode, hind]
        rw [Disk.own_entry_zero (by omega) haddr, if_neg (by omega)]
  · rw [if_neg (by tauto), Disk.own_of_type]
    simp [disk, hi, Dinode.zero]

theorem Ok.owns : Owns sb (im.disk sb) ∅ where
  ok i := by
    by_cases hi : 1 ≤ i ∧ i ≤ im.n
    · rw [ino_disk hi]
      obtain ⟨ht, hmaj, hmin, hlink, hsize⟩ := h.short i hi.2 hi.1
      refine ⟨ht, hmaj, hmin, hlink, hsize, fun k => ?_, fun k hk => ?_⟩
      · have hrange := h.range i hi.2 hi.1
        have := G.size
        simp only [Extent.dinode]
        split
        · omega
        · norm_num
      · simp only [Extent.dinode]
        rw [if_neg (by omega)]
    · rw [show (im.disk sb).ino i = Dinode.zero from if_neg hi]
      exact Dinode.zero_ok
  range i p h0 := by
    rw [h.own_disk G] at h0 ⊢
    split at h0
    · rename_i hip
      have := h.range i hip.1.2 hip.1.1
      rw [if_pos hip]
      omega
    · exact absurd rfl h0
  inj i p j q h0 heq := by
    rw [h.own_disk G] at h0
    rw [h.own_disk G, h.own_disk G] at heq
    split at h0
    · rename_i hip
      rw [if_pos hip] at heq
      split at heq
      · rename_i hjq
        by_cases hij : i = j
        · subst hij
          exact ⟨rfl, by omega⟩
        · have := h.apart hip.1 hjq.1 hij
          omega
      · exact absurd heq h0
    · exact absurd rfl h0
  leak_range _ hb := absurd hb (Set.notMem_empty _)
  leak_own _ hb := absurd hb (Set.notMem_empty _)
  bit b hb := by
    have hbit : (im.disk sb).bit b =
        (decide (b < sb.dataStart ∨ sb.size ≤ b) || (im.owner b).isSome) := rfl
    simp only [hbit, Bool.or_eq_true, decide_eq_true_eq, Option.isSome_iff_exists,
      h.owner_eq_some, h.own_disk G, Set.mem_empty_iff_false, false_or]
    refine ⟨?_, ?_⟩
    · rintro ((hlt | hge) | ⟨i, hi, hlo, hhi⟩)
      · exact .inl hlt
      · omega
      · have hrange := h.range i hi.2 hi.1
        have hpos := G.inodestart_lt_dataStart hb
        refine .inr ⟨i, b - (im.ext i).base, ?_⟩
        rw [if_pos ⟨hi, by omega⟩]
        omega
    · grind
  hole i ht bn hbn := by
    by_cases hi : 1 ≤ i ∧ i ≤ im.n
    · rw [ino_disk hi] at hbn
      have hrange := h.range i hi.2 hi.1
      have hpos : dataPos bn < (im.ext i).cnt := by
        have hbn' : bn * BSIZE < (im.ext i).size := hbn
        have hle : bn ≤ ((im.ext i).size - 1) / BSIZE := by
          rw [Nat.le_div_iff_mul_le (by norm_num)]
          omega
        rcases h.hole i hi.2 hi.1 with h0 | hlt
        · omega
        · refine lt_of_le_of_lt ?_ hlt
          unfold dataPos
          split <;> split <;> omega
      rw [h.own_disk G, if_pos ⟨hi, hpos⟩]
      have hsize : (im.ext i).base < sb.size := by omega
      have := G.inodestart_lt_dataStart hsize
      omega
    · exact absurd rfl (show Dinode.zero.type ≠ 0 from (if_neg hi : (im.disk sb).ino i = _) ▸ ht)

theorem Ok.byte_disk {i k : ℕ} (hi : 1 ≤ i ∧ i ≤ im.n)
    (hk : dataPos (k / BSIZE) < (im.ext i).cnt) : (im.disk sb).byte i k = im.data i k := by
  have hmod : k % BSIZE < BSIZE := Nat.mod_lt _ (by norm_num)
  have hindex : (if dataPos (k / BSIZE) < NDIRECT then dataPos (k / BSIZE)
      else dataPos (k / BSIZE) - 1) = k / BSIZE := by
    unfold dataPos
    by_cases hd : k / BSIZE < NDIRECT
    · simp [hd]
    · simp only [if_neg hd]
      rw [if_neg (by omega), Nat.add_sub_cancel]
  rw [Disk.byte, h.own_disk G, if_pos ⟨hi, hk⟩, h.blk_disk hi hk, posBlock,
    if_neg (dataPos_ne _), hindex]
  simp only [Bytes.get, dif_pos hmod]
  congr 1
  exact Nat.div_add_mod' k BSIZE

theorem Ok.disk_blocks : sb.disk (sb.blocks (im.disk sb)) = im.disk sb := by
  refine G.disk_blocks (h.owns G).ok (fun i hi => ?_) (fun b hb => ?_) fun b hb => ?_
  · have := h.lt
    exact if_neg (by omega)
  · simp [disk, hb]
  · cases hown : im.owner b with
    | none => simp only [disk, hown]
    | some i =>
      obtain ⟨hi, hlt⟩ := h.owner_eq_some.mp hown
      have := h.range i hi.2 hi.1
      omega

end Image

/-! ### The file system that mkfs makes -/

def mkfsSuperblock : Superblock := ⟨2000, 1954, 200, 30, 2, 32, 45⟩

theorem mkfsSuperblock_geometry : Geometry mkfsSuperblock where
  nlog := by decide
  log := by decide
  inodes i hi := by
    simp only [mkfsSuperblock, Superblock.IBLOCK] at hi ⊢
    norm_num
    omega
  bitmap b hb := by
    simp only [mkfsSuperblock, Superblock.BBLOCK, Superblock.dataStart] at hb ⊢
    norm_num
    omega
  root := by decide
  inum := by decide
  size := by decide

end Xv6
