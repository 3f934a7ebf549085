import Xv6.Fs.State

/-!
The blocks of a file system as inodes, bits and data blocks.

`Superblock.disk` reads a whole array of blocks as a `Disk`: all inodes, all
bits of the free map and all data blocks. On a well laid out file system
(`Geometry`) the areas do not overlap, so a store into one inode, bit or data
block is an update of that one part of the `Disk`, and a store into the log
area changes nothing of it.
-/

namespace Xv6

open Function (update update_self update_of_ne)

/-- The areas of the disk follow one another and all numbers fit their
fields. -/
structure Geometry (sb : Superblock) : Prop where
  nlog : 0 < sb.nlog
  log : sb.logstart + sb.nlog ≤ sb.inodestart
  inodes : ∀ i < sb.ninodes, sb.IBLOCK i < sb.bmapstart
  bitmap : ∀ b < sb.size, sb.BBLOCK b < sb.dataStart
  root : ROOTINO < sb.ninodes
  inum : sb.ninodes ≤ 2 ^ 16
  size : sb.size ≤ 2 ^ 32

structure Disk where
  ino : ℕ → Dinode
  bit : ℕ → Bool
  blk : ℕ → Block

namespace Disk

theorem ext' {D E : Disk} (hi : ∀ i, D.ino i = E.ino i) (hb : ∀ b, D.bit b = E.bit b)
    (hk : ∀ b, D.blk b = E.blk b) : D = E := by
  cases D
  cases E
  simp_all [funext_iff]

def setIno (D : Disk) (i : ℕ) (d : Dinode) : Disk := { D with ino := update D.ino i d }

def setBit (D : Disk) (b : ℕ) (v : Bool) : Disk := { D with bit := update D.bit b v }

def setBlk (D : Disk) (b : ℕ) (x : Block) : Disk := { D with blk := update D.blk b x }

variable (D : Disk)

@[simp] theorem ino_setIno (i : ℕ) (d : Dinode) : (D.setIno i d).ino = update D.ino i d := rfl
@[simp] theorem bit_setIno (i : ℕ) (d : Dinode) : (D.setIno i d).bit = D.bit := rfl
@[simp] theorem blk_setIno (i : ℕ) (d : Dinode) : (D.setIno i d).blk = D.blk := rfl
@[simp] theorem ino_setBit (b : ℕ) (v : Bool) : (D.setBit b v).ino = D.ino := rfl
@[simp] theorem bit_setBit (b : ℕ) (v : Bool) : (D.setBit b v).bit = update D.bit b v := rfl
@[simp] theorem blk_setBit (b : ℕ) (v : Bool) : (D.setBit b v).blk = D.blk := rfl
@[simp] theorem ino_setBlk (b : ℕ) (x : Block) : (D.setBlk b x).ino = D.ino := rfl
@[simp] theorem bit_setBlk (b : ℕ) (x : Block) : (D.setBlk b x).bit = D.bit := rfl
@[simp] theorem blk_setBlk (b : ℕ) (x : Block) : (D.setBlk b x).blk = update D.blk b x := rfl

end Disk

namespace Superblock

def disk (sb : Superblock) (c : ℕ → Block) : Disk where
  ino i := if i < sb.ninodes then getDinode (c (sb.IBLOCK i)) i else Dinode.zero
  bit b := if b < sb.size then getBit (c (sb.BBLOCK b)) (b % BPB) else true
  blk b := if sb.dataStart ≤ b ∧ b < sb.size then c b else zeroBlock

variable {sb : Superblock} {c : ℕ → Block}

theorem disk_ino {i : ℕ} (h : i < sb.ninodes) :
    (sb.disk c).ino i = getDinode (c (sb.IBLOCK i)) i := if_pos h

theorem disk_bit {b : ℕ} (h : b < sb.size) :
    (sb.disk c).bit b = getBit (c (sb.BBLOCK b)) (b % BPB) := if_pos h

theorem disk_blk {b : ℕ} (h : sb.dataStart ≤ b) (h' : b < sb.size) : (sb.disk c).blk b = c b :=
  if_pos ⟨h, h'⟩

end Superblock

namespace Geometry

variable {sb : Superblock} {c : ℕ → Block} (G : Geometry sb)
variable {b i : ℕ}

theorem inodestart_le_IBLOCK (i : ℕ) : sb.inodestart ≤ sb.IBLOCK i := Nat.le_add_left _ _

include G

theorem IBLOCK_lt_BBLOCK (hi : i < sb.ninodes) (b : ℕ) : sb.IBLOCK i < sb.BBLOCK b :=
  (G.inodes i hi).trans_le (Nat.le_add_left _ _)

theorem IBLOCK_lt_dataStart (hi : i < sb.ninodes) (hb : b < sb.size) :
    sb.IBLOCK i < sb.dataStart := (G.IBLOCK_lt_BBLOCK hi b).trans (G.bitmap b hb)

theorem inodestart_lt_dataStart (hb : b < sb.size) : sb.inodestart < sb.dataStart :=
  (inodestart_le_IBLOCK ROOTINO).trans_lt (G.IBLOCK_lt_dataStart G.root hb)

theorem disk_log (hb : b < sb.inodestart) (x : Block) : sb.disk (update c b x) = sb.disk c := by
  refine Disk.ext' (fun i => ?_) (fun i => ?_) fun i => ?_
  · grind [Superblock.disk, inodestart_le_IBLOCK]
  · simp only [Superblock.disk]
    split
    · rw [update_of_ne]
      have hlt := (inodestart_le_IBLOCK _).trans_lt (G.IBLOCK_lt_BBLOCK G.root i)
      omega
    · rfl
  · grind [Superblock.disk, G.inodestart_lt_dataStart]

theorem disk_putDinode (hi : i < sb.ninodes) {d : Dinode} (hd : d.Ok) :
    sb.disk (update c (sb.IBLOCK i) (putDinode (c (sb.IBLOCK i)) i d)) =
      (sb.disk c).setIno i d := by
  refine Disk.ext' (fun j => ?_) (fun j => ?_) fun j => ?_
  · simp only [Superblock.disk, Disk.ino_setIno]
    by_cases hj : j = i
    · grind [getDinode_putDinode]
    · grind [Superblock.IBLOCK, getDinode_putDinode_ne]
  · simp only [Superblock.disk, Disk.bit_setIno]
    rw [update_of_ne (G.IBLOCK_lt_BBLOCK hi j).ne']
  · simp only [Superblock.disk, Disk.blk_setIno]
    split
    · rename_i h
      have := G.IBLOCK_lt_dataStart hi h.2
      rw [update_of_ne (by omega)]
    · rfl

theorem disk_putBit (hb : b < sb.size) {x : Block} {v : Bool}
    (hx : ∀ j, getBit x j = if b % BPB = j then v else getBit (c (sb.BBLOCK b)) j) :
    sb.disk (update c (sb.BBLOCK b) x) = (sb.disk c).setBit b v := by
  refine Disk.ext' (fun j => ?_) (fun j => ?_) fun j => ?_
  · simp only [Superblock.disk, Disk.ino_setBit]
    split
    · rename_i h
      rw [update_of_ne (G.IBLOCK_lt_BBLOCK h b).ne]
    · rfl
  · simp only [Superblock.disk, Disk.bit_setBit]
    by_cases hj : j = b
    · subst hj
      rw [if_pos hb, update_self, update_self, hx, if_pos rfl]
    · grind [Superblock.BBLOCK]
  · grind [Geometry, Superblock.disk, Disk.blk_setBit]

theorem disk_setBit (hb : b < sb.size) :
    sb.disk (update c (sb.BBLOCK b) (setBit (c (sb.BBLOCK b)) (b % BPB))) =
      (sb.disk c).setBit b true := by
  refine G.disk_putBit hb fun j => ?_
  rw [getBit_setBit _ (Nat.mod_lt _ (by norm_num))]
  split <;> simp_all

theorem disk_clearBit (hb : b < sb.size) :
    sb.disk (update c (sb.BBLOCK b) (clearBit (c (sb.BBLOCK b)) (b % BPB))) =
      (sb.disk c).setBit b false := by
  refine G.disk_putBit hb fun j => ?_
  rw [getBit_clearBit _ (Nat.mod_lt _ (by norm_num))]
  split <;> simp_all

theorem disk_putBlk (hlo : sb.dataStart ≤ b) (hb : b < sb.size) (x : Block) :
    sb.disk (update c b x) = (sb.disk c).setBlk b x := by
  refine Disk.ext' (fun j => ?_) (fun j => ?_) fun j => ?_
  · simp only [Superblock.disk, Disk.ino_setBlk]
    split
    · rename_i h
      have := G.IBLOCK_lt_dataStart h hb
      rw [update_of_ne (by omega)]
    · rfl
  · grind [Geometry, Superblock.disk, Disk.bit_setBlk]
  · simp only [Superblock.disk, Disk.blk_setBlk]
    by_cases hj : j = b
    · subst hj
      rw [if_pos ⟨hlo, hb⟩, update_self, update_self]
    · rw [update_of_ne hj, update_of_ne hj]

end Geometry

end Xv6
