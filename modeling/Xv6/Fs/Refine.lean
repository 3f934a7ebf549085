import Xv6.Fs.Image

/-!
Files refine byte arrays.

The content of an inode is the list of its bytes below its size. In a state
whose inodes have no holes and whose blocks have one use each, `readi` of the
locked inode returns a part of that list and changes nothing, and a `writei`
that returns the number of bytes it was given is a `splice` of the source
bytes into it.
-/

namespace Xv6

open List

def Fs.view (s : Fs) : Disk := s.sb.disk s.bio.cache

def Disk.content (D : Disk) (i : ℕ) : List UInt8 := D.bytes i 0 (D.ino i).size

/-- Every block has at most one use: it belongs to the areas before the data
blocks, or to one position of one inode, or it is free. -/
structure Unshared (sb : Superblock) (D : Disk) : Prop where
  range : ∀ i p, D.own i p ≠ 0 → sb.dataStart ≤ D.own i p ∧ D.own i p < sb.size
  inj : ∀ i p j q, D.own i p ≠ 0 → D.own i p = D.own j q → i = j ∧ p = q
  used : ∀ b < sb.size, b < sb.dataStart ∨ (∃ i p, D.own i p ≠ 0 ∧ D.own i p = b) →
    D.bit b = true

/-- The entry `ip` holds a valid copy of an allocated inode. The copies in the
table agree with the buffers, and the log is between `begin_op` and `end_op`
or idle. -/
structure Held (sb : Superblock) (ip : ℕ) (s : Fs) : Prop where
  geometry : Geometry sb
  sb_eq : s.sb = sb
  unshared : Unshared sb s.view
  hole : ∀ i, s.view.HoleFree i
  sync : ∀ k, 0 < (s.itable k).ref → (s.itable k).valid = true →
    (s.itable k).d = s.view.ino (s.itable k).inum
  alone : ∀ k, k ≠ ip → 0 < (s.itable k).ref → (s.itable k).inum ≠ (s.itable ip).inum
  ref : 0 < (s.itable ip).ref
  valid : (s.itable ip).valid = true
  inum : (s.itable ip).inum < sb.ninodes
  type : (s.itable ip).d.type ≠ 0
  log : LogOk sb s

namespace Disk

variable {D D' : Disk} {i : ℕ}

@[simp] theorem length_content (D : Disk) (i : ℕ) : (D.content i).length = (D.ino i).size :=
  D.length_bytes i 0 _

theorem getD_bytes (D : Disk) (i off : ℕ) {n k : ℕ} (h : k < n) :
    (D.bytes i off n).getD k 0 = D.byte i (off + k) := by
  simp [bytes, getD_eq_getElem?_getD, h]

theorem getD_content (D : Disk) (i : ℕ) {k : ℕ} (h : k < (D.ino i).size) :
    (D.content i).getD k 0 = D.byte i k := by
  rw [content, D.getD_bytes i 0 h, Nat.zero_add]

theorem bytes_slice (D : Disk) (i : ℕ) {off m n : ℕ} (h : off + m ≤ n) :
    D.bytes i off m = ((D.bytes i 0 n).drop off).take m := by
  have hn : n = off + (m + (n - (off + m))) := by omega
  rw [hn, D.bytes_add, D.bytes_add, drop_left' (D.length_bytes i 0 off), Nat.zero_add,
    take_left' (D.length_bytes i off m)]

theorem bytes_eq_content (D : Disk) (i : ℕ) {off n : ℕ} (h : off + n ≤ (D.ino i).size) :
    D.bytes i off n = ((D.content i).drop off).take n := D.bytes_slice i h

theorem content_splice {off : ℕ} {l : List UInt8} (hoff : off ≤ (D.ino i).size)
    (hsize : (D'.ino i).size = max (D.ino i).size (off + l.length))
    (hbyte : ∀ k < (D'.ino i).size, D'.byte i k =
      if off ≤ k ∧ k < off + l.length then l.getD (k - off) 0 else D.byte i k) :
    D'.content i = splice (D.content i) off l := by
  have hlen : (D'.content i).length = (splice (D.content i) off l).length := by
    grind [length_splice, length_content]
  refine ext_getElem hlen fun k hk hk' => ?_
  have hk₁ : k < (D'.ino i).size := by simpa using hk
  rw [← getD_eq_getElem _ 0 hk, ← getD_eq_getElem _ 0 hk', D'.getD_content i hk₁,
    hbyte k hk₁, getD_splice (by simpa using hoff)]
  split
  · rfl
  · rw [D.getD_content i (by omega)]

end Disk

variable {sb : Superblock} {leak : Set ℕ} {D : Disk} {s : Fs} {E : Stop → Prop} {ip i : ℕ}

theorem Low.view_eq (h : Low sb leak none D s) : s.view = D := by
  rw [Fs.view, h.sb_eq]
  exact Disk.ext' (fun i => h.ino i (by simp)) (congrFun h.bit) (congrFun h.blk)

theorem Superblock.disk_ino_ok (sb : Superblock) (c : ℕ → Block) (i : ℕ) :
    ((sb.disk c).ino i).Ok := by
  simp only [Superblock.disk]
  split
  · exact getDinode_ok _ _
  · exact Dinode.zero_ok

def Disk.lost (sb : Superblock) (D : Disk) : Set ℕ :=
  {b | sb.dataStart ≤ b ∧ b < sb.size ∧ D.bit b = true ∧ ∀ i p, D.own i p ≠ b}

namespace Held

theorem low (h : Held sb ip s) : Low sb (s.view.lost sb) none s.view s where
  sb_eq := h.sb_eq
  bit := by rw [Fs.view, h.sb_eq]
  blk := by rw [Fs.view, h.sb_eq]
  ino _ _ := by rw [Fs.view, h.sb_eq]
  sync k _ := h.sync k
  alone := by simp
  owns := {
    ok := fun i => Superblock.disk_ino_ok _ _ i
    range := h.unshared.range
    inj := h.unshared.inj
    leak_range := fun b hb => ⟨hb.1, hb.2.1⟩
    leak_own := fun b hb => hb.2.2.2
    bit := fun b hb => by
      constructor
      · intro hbit
        by_contra hnone
        push Not at hnone
        refine hnone.2.1 ⟨hnone.1, hb, hbit, fun i p heq => ?_⟩
        have := h.geometry.inodestart_lt_dataStart hb
        exact hnone.2.2 i p (by omega) heq
      · rintro (hlt | hlost | hown)
        · exact h.unshared.used b hb (.inl hlt)
        · exact hlost.2.2.1
        · exact h.unshared.used b hb (.inr hown)
    hole := h.hole }
  log := h.log

theorem copy (h : Held sb ip s) : (s.itable ip).d = s.view.ino (s.itable ip).inum :=
  h.sync ip h.ref h.valid

theorem busy (h : Held sb ip s) (hph : phase s.trace = some true) :
    Busy sb (s.view.lost sb) ip (s.itable ip).inum s.view s :=
  ⟨h.low.exempt h.alone, hph, rfl, h.copy, h.copy ▸ h.type⟩

end Held

theorem Low.blk_zero {x : Option ℕ} (h : Low sb leak x D s) (G : Geometry sb) :
    D.blk 0 = zeroBlock := by
  rw [← h.blk]
  refine if_neg fun hb => ?_
  have := G.inodestart_lt_dataStart hb.2
  omega

namespace Wrote

variable {src : Src} {off n w : ℕ} {l : List UInt8} {D' : Disk} {s₁ s' : Fs}

variable (h : Wrote sb leak ip i D s src off n w l D' s₁ s')
include h

theorem view_eq : s'.view = D'.setSize i (max (D.ino i).size (off + w)) := h.low.view_eq

theorem size : (s'.view.ino i).size = max (D.ino i).size (off + w) := by
  rw [h.view_eq, Disk.ino_setSize]

theorem content_ne (G : Geometry sb)
    (h₀ : Low sb leak (some ip) D s) {j : ℕ} (hj : j ≠ i) : s'.view.content j = D.content j := by
  rw [h.view_eq, Disk.content, Disk.content, D'.ino_setSize_ne hj, h.written.grows.ino_ne j hj]
  refine Disk.bytes_congr fun k _ _ => ?_
  rw [Disk.byte_setSize]
  by_cases h0 : D.own j (dataPos (k / BSIZE)) = 0
  · rw [Disk.byte, Disk.byte, h.written.grows.own_ne j hj, h0, h₀.blk_zero G,
      h.written.busy.low.blk_zero G]
  · rw [h.written.byte j k (.inl h0), if_neg (by simp [hj])]

theorem content (h₀ : Owns sb D leak) (hoff : off ≤ (D.ino i).size) (ht : (D.ino i).type ≠ 0)
    (hjunk : ∀ k, off + w ≤ k → k < off + l.length → k < (D.ino i).size →
      l.getD (k - off) 0 = D.byte i k) :
    s'.view.content i = splice (D.content i) off (l.take w) := by
  have hle := h.written.le
  have hlen : (l.take w).length = w := by simp [hle]
  have hmap : ∀ k < (D.ino i).size, D.own i (dataPos (k / BSIZE)) ≠ 0 := fun k hk =>
    h₀.hole i ht _ ((Nat.div_mul_le_self k BSIZE).trans_lt hk)
  refine Disk.content_splice hoff (by rw [h.size, hlen]) fun k hk => ?_
  rw [h.size] at hk
  rw [hlen, h.view_eq, Disk.byte_setSize]
  by_cases hin : off ≤ k ∧ k < off + w
  · grind [h.written.byte]
  · grind [h.written.byte]

end Wrote

theorem Held.readi_eq (h : Held sb ip s) {dst : Dst} {off n : ℕ} (hoff : off < 2 ^ 32)
    (hn : n < 2 ^ 32) (hdst : dst.Writable (min n ((s.view.ino (s.itable ip).inum).size - off))) :
    (readi ip dst off n).run s = .ok (s.view.readResult (s.itable ip).inum off n, s) := by
  have hspec := (readi_spec h.low h.copy (h.copy ▸ h.type) hoff hn :
    wp (fun _ => False) (readi ip dst off n) _ s)
  cases hrun : (readi ip dst off n).run s with
  | error e => exact (hspec.error hrun).elim
  | ok p =>
    obtain ⟨heq, hr⟩ := hspec.ok hrun
    rw [← hr.eq hdst, ← heq]

theorem Held.writei_wrote (h : Held sb ip s) (hph : phase s.trace = some true) {src : Src}
    {off n : ℕ} (hoff : off < 2 ^ 32) (hn : n < 2 ^ 32) {r : ℤ} {s' : Fs}
    (hrun : (writei ip src off n).run s = .ok (r, s')) :
    s.view.writeRejected (s.itable ip).inum off n ∧ r = -1 ∧ s' = s ∨
    ¬s.view.writeRejected (s.itable ip).inum off n ∧
      ∃ (w : ℕ) (l : List UInt8) (D' : Disk) (s₁ : Fs), r = w ∧
        Wrote sb (s.view.lost sb) ip (s.itable ip).inum s.view s src off n w l D' s₁ s' :=
  (writei_spec (E := fun _ => True) h.geometry (fun _ _ => trivial) (h.busy hph) h.inum hoff hn).ok
    hrun

/-- In a state without holes and without shared blocks: a `writei` that
returns `n` splices the source bytes into the content and changes no other
content; a `readi` with a destination that can be written delivers a part of
the content and changes nothing; and neither `writei`, however it ends, nor
`itrunc` makes a hole. -/
theorem files_refine_byte_arrays (h : Held sb ip s) (hi : (s.itable ip).inum = i) {off n : ℕ}
    (hoff : off < 2 ^ 32) (hn : n < 2 ^ 32) :
    (phase s.trace = some true → ∀ (src : Src) (s' : Fs),
      (writei ip src off n).run s = .ok ((n : ℤ), s') →
      ∃ bs : List UInt8, bs.length = n ∧ (∀ k < n, src.byte k = some (bs.getD k 0)) ∧
        s'.view.content i = splice (s.view.content i) off bs ∧
        (s'.view.ino i).size = max (s.view.ino i).size (off + n) ∧
        ∀ j, j ≠ i → s'.view.content j = s.view.content j) ∧
    (∀ dst : Dst, dst.Writable (min n ((s.view.ino i).size - off)) →
      (readi ip dst off n).run s = .ok
        (if off > (s.view.ino i).size ∨ off + n ≥ 2 ^ 32 then (0, [])
          else ((min n ((s.view.ino i).size - off) : ℕ),
            ((s.view.content i).drop off).take (min n ((s.view.ino i).size - off))), s)) ∧
    (phase s.trace = some true → ∀ (src : Src) (r : ℤ) (s' : Fs),
      (writei ip src off n).run s = .ok (r, s') → ∀ j, s'.view.HoleFree j) ∧
    (phase s.trace = some true → ∀ s' : Fs,
      (itrunc ip).run s = .ok ((), s') → ∀ j, s'.view.HoleFree j) := by
  subst hi
  refine ⟨fun hph src s' hrun => ?_, fun dst hdst => ?_, fun hph src r s' hrun => ?_,
    fun hph s' hrun => ?_⟩
  · obtain ⟨-, hr, -⟩ | ⟨hacc, w, l, D', s₁, hr, hw⟩ := h.writei_wrote hph hoff hn hrun
    · omega
    · obtain rfl : n = w := by exact_mod_cast hr
      have hle := hw.written.le
      have hle_n := hw.written.le_n
      have hlen : l.length = n := by omega
      have hsize : off ≤ (s.view.ino (s.itable ip).inum).size := by grind [Disk.writeRejected]
      have hcontent := hw.content h.low.owns hsize (h.copy ▸ h.type) fun k hk hk' => by omega
      rw [take_of_length_le hlen.le] at hcontent
      exact ⟨l, hlen, fun k hk => hw.written.copied k (by omega), hcontent, hw.size,
        fun j hj => hw.content_ne h.geometry (h.busy hph).low hj⟩
  · grind [h.readi_eq, Disk.readResult, uint, Disk.bytes_eq_content]
  · obtain ⟨-, -, rfl⟩ | ⟨-, w, l, D', s₁, -, hw⟩ := h.writei_wrote hph hoff hn hrun
    · exact h.hole
    · rw [hw.view_eq]
      exact hw.low.owns.hole
  · obtain ⟨-, -, D', -, -, hlow⟩ := (itrunc_spec (E := fun _ => True) h.geometry
      (fun _ _ => trivial) (h.busy hph) h.inum).ok hrun
    rw [hlow.view_eq]
    exact hlow.owns.hole

/-! ### A file of two -/

def direntsByte (ds : List (ℕ × List UInt8)) (k : ℕ) : UInt8 :=
  (direntBytes (ds.getD (k / DESIZE) (0, [])).1 (ds.getD (k / DESIZE) (0, [])).2).getD
    (k % DESIZE) 0

def fileImage : Image where
  n := 2
  ext i :=
    if i = ROOTINO then ⟨T_DIR, 0, 0, 1, 3 * DESIZE, 46, 1⟩ else ⟨T_FILE, 0, 0, 1, 100, 47, 1⟩
  data i k :=
    if i = ROOTINO then direntsByte [(1, dot), (1, dotdot), (2, [97])] k else 65

theorem fileImage_ok : fileImage.Ok mkfsSuperblock :=
  ⟨by decide, by decide, by decide, by decide, by decide, by decide, by decide⟩

/-- The state with inode `i` of an image held in the first entry, inside an
operation. -/
def Image.fs (im : Image) (sb : Superblock) (i : ℕ) : Fs where
  sb := sb
  bio := Bio.boot (sb.blocks (im.disk sb))
  log := { start := sb.logstart, size := sb.nlog, outstanding := 1, committing := false, lh := [] }
  itable k :=
    if k = 0 then ⟨ROOTDEV, i, 1, true, true, (im.disk sb).ino i⟩
    else ⟨0, 0, 0, false, false, Dinode.zero⟩
  ftable _ := ⟨.FD_NONE, 0, false, false, 0, 0, 0⟩
  proc _ := ⟨.UNUSED, none, fun _ => none⟩
  full := []
  trace := [.beginOp]

theorem Image.Ok.held {im : Image} (h : im.Ok sb) (G : Geometry sb) (hi : 1 ≤ i ∧ i ≤ im.n) :
    Held sb 0 (im.fs sb i) := by
  have hview : (im.fs sb i).view = im.disk sb := h.disk_blocks G
  have howns := h.owns G
  have hlt := h.lt
  refine ⟨G, rfl, ?_, ?_, fun k hr _ => ?_, fun k hk hr => ?_, by simp [fs], rfl, by
    change i < _; omega, ?_, ⟨rfl, rfl, rfl, nodup_nil, by simp [fs], G.nlog,
      fun hph => by simp [fs, phase, phaseStep] at hph, fun _ => rfl⟩⟩
  · rw [hview]
    exact ⟨howns.range, howns.inj, fun b hb hu => (howns.bit b hb).mpr (hu.imp_right .inr)⟩
  · rw [hview]
    exact howns.hole
  · rw [hview]
    by_cases hk : k = 0
    · subst hk
      rfl
    · simp [fs, hk] at hr
  · simp [fs, hk] at hr
  · change ((im.disk sb).ino i).type ≠ 0
    rw [Image.ino_disk hi]
    exact h.type i hi.2 hi.1

/-- Three bytes written into the file at offset 98 extend it by one byte. -/
theorem files_refine_byte_arrays_extend :
    Held mkfsSuperblock 0 (fileImage.fs mkfsSuperblock 2) ∧
    ∃ s', (writei 0 (.kernel [66, 67, 68]) 98 3).run (fileImage.fs mkfsSuperblock 2) =
        .ok (3, s') ∧
      (s'.view.ino 2).size = max ((fileImage.fs mkfsSuperblock 2).view.ino 2).size (98 + 3) ∧
      s'.view.content 1 = (fileImage.fs mkfsSuperblock 2).view.content 1 := by
  have hheld := fileImage_ok.held mkfsSuperblock_geometry (i := 2) (by decide)
  obtain ⟨r, s', hrun, hr⟩ := exists_of_returns (f := writei 0 (.kernel [66, 67, 68]) 98 3)
    (p := fun r _ => decide (r = 3)) (s := fileImage.fs mkfsSuperblock 2) (by decide +kernel)
  obtain rfl := of_decide_eq_true hr
  obtain ⟨-, -, -, -, hsize, hother⟩ := (files_refine_byte_arrays hheld rfl
    (by norm_num : 98 < 2 ^ 32) (by norm_num : 3 < 2 ^ 32)).1 rfl _ _ hrun
  exact ⟨hheld, s', hrun, hsize, hother 1 (by decide)⟩

end Xv6
