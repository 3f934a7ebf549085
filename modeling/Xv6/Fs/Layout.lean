import Xv6.Bio

/-!
The on-disk format of `kernel/fs.h`: the super block, the inodes of an inode block, the
bits of a bitmap block, the entries of an indirect block and directory entries.

Each of these is a fixed place inside one block, with a reader and a writer: what was
written reads back, and the other places of the block are unchanged.
-/

namespace Xv6

open List

/-- `struct superblock`, less the magic number. -/
structure Superblock where
  size : ℕ
  nblocks : ℕ
  ninodes : ℕ
  nlog : ℕ
  logstart : ℕ
  inodestart : ℕ
  bmapstart : ℕ
  deriving DecidableEq

namespace Superblock

def IBLOCK (sb : Superblock) (i : ℕ) : ℕ := i / IPB + sb.inodestart

def BBLOCK (sb : Superblock) (b : ℕ) : ℕ := b / BPB + sb.bmapstart

/-- The first data block: `mkfs` puts the `nblocks` data blocks last. -/
def dataStart (sb : Superblock) : ℕ := sb.size - sb.nblocks

end Superblock

/-! ### Inodes -/

/-- `struct dinode`. The array `addrs` is zero from `NDIRECT + 1` on. -/
structure Dinode where
  type : ℤ
  major : ℤ
  minor : ℤ
  nlink : ℤ
  size : ℕ
  addrs : ℕ → ℕ

def Dinode.zero : Dinode := ⟨0, 0, 0, 0, 0, fun _ => 0⟩

/-- The 16 bits that store a `short`. -/
def ushort (x : ℤ) : ℕ := (x % 2 ^ 16).toNat

def dinodeBytes (d : Dinode) : List UInt8 :=
  leBytes 2 (ushort d.type) ++ leBytes 2 (ushort d.major) ++ leBytes 2 (ushort d.minor) ++
    leBytes 2 (ushort d.nlink) ++ leBytes 4 d.size ++
    (range (NDIRECT + 1)).flatMap fun k => leBytes 4 (d.addrs k)

def getDinode (b : Block) (i : ℕ) : Dinode where
  type := short (b.getLe 2 (i % IPB * 64))
  major := short (b.getLe 2 (i % IPB * 64 + 2))
  minor := short (b.getLe 2 (i % IPB * 64 + 4))
  nlink := short (b.getLe 2 (i % IPB * 64 + 6))
  size := b.getLe 4 (i % IPB * 64 + 8)
  addrs k := if k < NDIRECT + 1 then b.getLe 4 (i % IPB * 64 + 12 + 4 * k) else 0

def putDinode (b : Block) (i : ℕ) (d : Dinode) : Block :=
  b.blit (i % IPB * 64) (dinodeBytes d)

theorem short_ushort (x : ℤ) : short (ushort x) = short x := by
  unfold short ushort
  omega

theorem ushort_lt (x : ℤ) : ushort x < 256 ^ 2 := by
  unfold ushort
  omega

@[simp] theorem short_short (x : ℤ) : short (short x) = short x :=
  short_of_bounds (short_bounds x).1 (short_bounds x).2

/-- The values of an inode fit their fields. -/
structure Dinode.Ok (d : Dinode) : Prop where
  type : short d.type = d.type
  major : short d.major = d.major
  minor : short d.minor = d.minor
  nlink : short d.nlink = d.nlink
  size : d.size < 2 ^ 32
  addrs : ∀ k, d.addrs k < 2 ^ 32
  addrs_end : ∀ k, NDIRECT < k → d.addrs k = 0

theorem Dinode.zero_ok : Dinode.zero.Ok :=
  ⟨rfl, rfl, rfl, rfl, by norm_num [Dinode.zero], fun _ => by norm_num [Dinode.zero],
    fun _ _ => rfl⟩

theorem Dinode.Ok.setAddr {d : Dinode} (h : d.Ok) {k a : ℕ} (hk : k ≤ NDIRECT) (ha : a < 2 ^ 32) :
    Dinode.Ok { d with addrs := Function.update d.addrs k a } where
  type := h.type
  major := h.major
  minor := h.minor
  nlink := h.nlink
  size := h.size
  addrs j := by
    simp only [Function.update_apply]
    split
    · exact ha
    · exact h.addrs j
  addrs_end j hj := by
    simp only [Function.update_of_ne (show j ≠ k by omega)]
    exact h.addrs_end j hj

@[ext] theorem Dinode.ext' {d e : Dinode} (ht : d.type = e.type) (hM : d.major = e.major)
    (hm : d.minor = e.minor) (hn : d.nlink = e.nlink) (hs : d.size = e.size)
    (ha : ∀ k, d.addrs k = e.addrs k) : d = e := by
  cases d
  cases e
  simp_all [funext_iff]

theorem getDinode_ok (b : Block) (i : ℕ) : (getDinode b i).Ok where
  type := short_short _
  major := short_short _
  minor := short_short _
  nlink := short_short _
  size := b.getLe_lt 4 _
  addrs k := by
    simp only [getDinode]
    split
    · exact b.getLe_lt 4 _
    · norm_num
  addrs_end k hk := by
    simp only [getDinode]
    rw [if_neg (by omega)]

theorem length_dinodeBytes (d : Dinode) : (dinodeBytes d).length = 64 := by
  norm_num [dinodeBytes, length_flatMap]

theorem inode_slot_le (i : ℕ) : i % IPB * 64 + 64 ≤ BSIZE := by
  have := Nat.mod_lt i (show 0 < IPB by norm_num)
  norm_num at this ⊢
  omega

theorem getDinode_putDinode (b : Block) (i : ℕ) {d : Dinode} (hd : d.Ok) :
    getDinode (putDinode b i d) i = d := by
  have hlen := length_dinodeBytes d
  have hfit : i % IPB * 64 + (dinodeBytes d).length ≤ BSIZE := by exact inode_slot_le i
  have hget : ∀ {k x}, x + k ≤ 64 → (putDinode b i d).getLe k (i % IPB * 64 + x) =
      leNat (((dinodeBytes d).drop x).take k) := fun h => Bytes.getLe_blit b hfit (by omega)
  have hshort : ∀ x, short (leNat (leBytes 2 (ushort x))) = short x := fun x => by
    rw [leNat_leBytes, Nat.mod_eq_of_lt (ushort_lt x), short_ushort]
  ext
  · rw [show (getDinode (putDinode b i d) i).type =
      short ((putDinode b i d).getLe 2 (i % IPB * 64 + 0)) from rfl, hget (by omega)]
    simp [dinodeBytes, hshort, hd.type]
  · simp [getDinode, hget, dinodeBytes, hshort, hd.major, drop_append]
  · simp [getDinode, hget, dinodeBytes, hshort, hd.minor, drop_append,
      drop_eq_nil_of_le]
  · simp [getDinode, hget, dinodeBytes, hshort, hd.nlink, drop_append,
      drop_eq_nil_of_le]
  · simp [getDinode, hget, dinodeBytes, leNat_leBytes, drop_append,
      drop_eq_nil_of_le]
    exact hd.size
  · rename_i k
    simp only [getDinode]
    split
    · rename_i hk
      rw [Nat.add_assoc, hget (by norm_num at hk ⊢; omega)]
      have hdrop : (dinodeBytes d).drop (12 + 4 * k) =
          ((range (NDIRECT + 1)).flatMap fun k => leBytes 4 (d.addrs k)).drop (4 * k) := by
        rw [← drop_drop]
        simp [dinodeBytes, drop_append, drop_eq_nil_of_le]
      rw [hdrop, take_drop_flatMap (fun i => length_leBytes 4 _) hk, leNat_leBytes,
        Nat.mod_eq_of_lt (show d.addrs k < 256 ^ 4 from hd.addrs k)]
    · exact (hd.addrs_end k (by omega)).symm

theorem getDinode_putDinode_ne (b : Block) {i j : ℕ} (d : Dinode) (h : i % IPB ≠ j % IPB) :
    getDinode (putDinode b i d) j = getDinode b j := by
  have hget : ∀ {k x}, x + k ≤ 64 → (putDinode b i d).getLe k (j % IPB * 64 + x) =
      b.getLe k (j % IPB * 64 + x) := fun hx => by
    refine Bytes.getLe_blit_disjoint b ?_
    rw [length_dinodeBytes]
    omega
  have htype := hget (k := 2) (x := 0) (by omega)
  rw [Nat.add_zero] at htype
  ext
  · simp only [getDinode, htype]
  · simp only [getDinode, hget (k := 2) (x := 2) (by omega)]
  · simp only [getDinode, hget (k := 2) (x := 4) (by omega)]
  · simp only [getDinode, hget (k := 2) (x := 6) (by omega)]
  · simp only [getDinode, hget (k := 4) (x := 8) (by omega)]
  · simp only [getDinode]
    split
    · rename_i hk
      rw [Nat.add_assoc, hget (by norm_num at hk ⊢; omega)]
    · rfl

/-! ### Bits of the free map -/

def bitMask (bi : ℕ) : UInt8 := 1 <<< UInt8.ofNat (bi % 8)

def getBit (b : Block) (bi : ℕ) : Bool := b.get (bi / 8) &&& bitMask bi ≠ 0

def setBit (b : Block) (bi : ℕ) : Block := b.blit (bi / 8) [b.get (bi / 8) ||| bitMask bi]

def clearBit (b : Block) (bi : ℕ) : Block := b.blit (bi / 8) [b.get (bi / 8) &&& ~~~bitMask bi]

theorem toNat_bitMask (bi : ℕ) : (bitMask bi).toNat = 2 ^ (bi % 8) := by
  have h : ∀ k < 8, ((1 : UInt8) <<< UInt8.ofNat k).toNat = 2 ^ k := by decide
  exact h _ (Nat.mod_lt _ (by norm_num))

theorem and_bitMask_ne_zero (x : UInt8) (bi : ℕ) :
    x &&& bitMask bi ≠ 0 ↔ x.toNat.testBit (bi % 8) = true := by
  rw [ne_eq, ← UInt8.toNat_inj, UInt8.toNat_and, toNat_bitMask, Nat.and_two_pow]
  cases x.toNat.testBit (bi % 8) <;> simp

theorem getBit_eq (b : Block) (bi : ℕ) : getBit b bi = (b.get (bi / 8)).toNat.testBit (bi % 8) := by
  rw [getBit, Bool.eq_iff_iff, decide_eq_true_eq]
  exact and_bitMask_ne_zero _ _

theorem getBit_setBit (b : Block) {bi bj : ℕ} (hi : bi < BPB) :
    getBit (setBit b bi) bj = (decide (bi = bj) || getBit b bj) := by
  have hlt : bi / 8 < BSIZE := by norm_num at hi ⊢; omega
  rw [getBit_eq, getBit_eq, setBit]
  by_cases hbyte : bj / 8 = bi / 8
  · rw [hbyte, Bytes.get_blit_of_mem b _ hlt le_rfl (by simp), Nat.sub_self]
    simp only [getD_cons_zero, UInt8.toNat_or, toNat_bitMask, Nat.testBit_or,
      Nat.testBit_two_pow]
    rw [Bool.or_comm]
    congr 2
    rw [eq_iff_iff]
    omega
  · grind [Bytes.get_blit_of_notMem]

theorem getBit_clearBit (b : Block) {bi bj : ℕ} (hi : bi < BPB) :
    getBit (clearBit b bi) bj = (!decide (bi = bj) && getBit b bj) := by
  have hlt : bi / 8 < BSIZE := by norm_num at hi ⊢; omega
  rw [getBit_eq, getBit_eq, clearBit]
  by_cases hbyte : bj / 8 = bi / 8
  · rw [hbyte, Bytes.get_blit_of_mem b _ hlt le_rfl (by simp), Nat.sub_self]
    have hlt8 : bj % 8 < 8 := Nat.mod_lt _ (by norm_num)
    have hmask : (~~~bitMask bi).toNat.testBit (bj % 8) = !decide (bi % 8 = bj % 8) := by
      have hpow : 2 ^ (bi % 8) < 2 ^ 8 :=
        Nat.pow_lt_pow_right (by norm_num) (Nat.mod_lt _ (by norm_num))
      rw [UInt8.toNat_not, toNat_bitMask, show UInt8.size - 1 - 2 ^ (bi % 8) =
        2 ^ 8 - (2 ^ (bi % 8) + 1) by simp only [UInt8.size]; omega,
        Nat.testBit_two_pow_sub_succ hpow, Nat.testBit_two_pow]
      simp [hlt8]
    simp only [getD_cons_zero, UInt8.toNat_and, Nat.testBit_and, hmask]
    rw [Bool.and_comm]
    congr 2
    simp only [decide_eq_decide]
    omega
  · grind [Bytes.get_blit_of_notMem]

/-! ### Entries of an indirect block -/

def getEntry (b : Block) (j : ℕ) : ℕ := b.getLe 4 (4 * j)

def putEntry (b : Block) (j a : ℕ) : Block := b.putLe 4 (4 * j) a

theorem getLe_zeroBlock (k off : ℕ) : zeroBlock.getLe k off = 0 := by
  have hs : zeroBlock.slice off k = replicate k 0 := by
    refine ext_getElem (by simp) fun j h₁ h₂ => ?_
    simp [Bytes.slice, Bytes.get, zeroBlock]
  rw [Bytes.getLe, hs, leNat_zeros]

theorem getEntry_putEntry (b : Block) {j a : ℕ} (hj : j < NINDIRECT) (ha : a < 2 ^ 32) :
    getEntry (putEntry b j a) j = a :=
  Bytes.getLe_putLe_self b (by norm_num at hj ⊢; omega) ha

theorem getEntry_putEntry_ne (b : Block) {j k : ℕ} (a : ℕ) (h : j ≠ k) :
    getEntry (putEntry b j a) k = getEntry b k :=
  Bytes.getLe_putLe_disjoint b a (by omega)

theorem getEntry_zeroBlock (j : ℕ) : getEntry zeroBlock j = 0 := getLe_zeroBlock 4 _

/-! ### Directory entries -/

abbrev DESIZE : ℕ := 2 + DIRSIZ

/-- `strncmp(p, q, n)`; a string ends at its first NUL or where the list does. -/
def strncmp : ℕ → List UInt8 → List UInt8 → ℤ
  | 0, _, _ => 0
  | n + 1, p, q =>
    if p.headD 0 ≠ 0 ∧ p.headD 0 = q.headD 0 then strncmp n p.tail q.tail
    else (p.headD 0).toNat - (q.headD 0).toNat

def padName (name : List UInt8) : List UInt8 :=
  name.take DIRSIZ ++ replicate (DIRSIZ - name.length) 0

def namecmp (s t : List UInt8) : ℤ := strncmp DIRSIZ s t

/-- The bytes of a `struct dirent`; its `inum` is a `ushort`. -/
def direntBytes (inum : ℕ) (name : List UInt8) : List UInt8 := leBytes 2 inum ++ padName name

def direntInum (de : List UInt8) : ℕ := leNat (de.take 2)

def direntName (de : List UInt8) : List UInt8 := (de.drop 2).take DIRSIZ

def cname (name : List UInt8) : List UInt8 := (name.take DIRSIZ).takeWhile (· ≠ 0)

theorem takeWhile_take_succ (p : List UInt8) (n : ℕ) :
    (p.take (n + 1)).takeWhile (· ≠ 0) =
      if p.headD 0 = 0 then [] else p.headD 0 :: (p.tail.take n).takeWhile (· ≠ 0) := by
  cases p with
  | nil => simp
  | cons x p => by_cases hx : x = 0 <;> simp [hx]

theorem strncmp_eq_zero {n : ℕ} {p q : List UInt8} :
    strncmp n p q = 0 ↔ (p.take n).takeWhile (· ≠ 0) = (q.take n).takeWhile (· ≠ 0) := by
  induction n generalizing p q with
  | zero => simp [strncmp]
  | succ n ih =>
    rw [takeWhile_take_succ, takeWhile_take_succ, strncmp]
    by_cases hx : p.headD 0 ≠ 0 ∧ p.headD 0 = q.headD 0
    · rw [if_pos hx, if_neg hx.1, if_neg (hx.2 ▸ hx.1), ih, hx.2]
      simp
    · rw [if_neg hx, sub_eq_zero, Nat.cast_inj, UInt8.toNat_inj]
      grind

theorem namecmp_eq_zero {s t : List UInt8} : namecmp s t = 0 ↔ cname s = cname t :=
  strncmp_eq_zero

theorem length_padName (name : List UInt8) : (padName name).length = DIRSIZ := by
  simp [padName]
  omega

theorem length_direntBytes (inum : ℕ) (name : List UInt8) :
    (direntBytes inum name).length = DESIZE := by
  simp [direntBytes, length_padName]

theorem direntInum_direntBytes_mod (inum : ℕ) (name : List UInt8) :
    direntInum (direntBytes inum name) = inum % 2 ^ 16 := by
  rw [direntInum, direntBytes, take_append_of_le_length (by simp),
    take_of_length_le (by simp), leNat_leBytes, show 256 ^ 2 = 2 ^ 16 by norm_num]

theorem direntInum_direntBytes {inum : ℕ} (name : List UInt8) (h : inum < 2 ^ 16) :
    direntInum (direntBytes inum name) = inum := by
  rw [direntInum_direntBytes_mod, Nat.mod_eq_of_lt h]

theorem direntInum_zeros : direntInum (replicate DESIZE 0) = 0 := by decide

theorem cname_direntBytes (inum : ℕ) (name : List UInt8) :
    cname (direntName (direntBytes inum name)) = cname name := by
  have hdrop : (direntBytes inum name).drop 2 = padName name := by
    rw [direntBytes, drop_append_of_le_length (by simp), drop_of_length_le (by simp),
      nil_append]
  have htake := take_of_length_le (length_padName name).le
  rw [cname, direntName, hdrop, htake, htake, padName, cname, takeWhile_append]
  split
  · rename_i h
    rw [takeWhile_replicate, if_neg (by simp), append_nil]
    exact (( takeWhile_prefix _).eq_of_length h).symm
  · rfl

def dot : List UInt8 := [46]

def dotdot : List UInt8 := [46, 46]

end Xv6
