import Xv6.Fs.Image
import Xv6.Fs.Refine
import Xv6.Mkfs.Basic

/-!
What `iappend` does.

The blocks of a file are allocated in the order of their positions, so how many
an inode has follows from its size, and so does `freeblock`. With the blocks
below `freeblock` counted as allocated, `fs.img` meets the invariant of the
kernel's allocator all the time; the bitmap is written at the end.
-/

namespace Xv6.Mkfs

open List
open Function (update update_self update_of_ne)

theorem sb_geometry : Geometry sb := mkfsSuperblock_geometry

theorem sb_dataStart : sb.dataStart = nmeta := rfl

theorem sb_size : sb.size = FSSIZE := rfl

/-- The number of positions that the first `nb` blocks of a file take, the
indirect block included. -/
def spots (nb : ℕ) : ℕ := if nb ≤ NDIRECT then nb else nb + 1

def blocks (n : ℕ) : ℕ := (n + (BSIZE - 1)) / BSIZE

def cost (n : ℕ) : ℕ := spots (blocks n)

theorem spots_mono {m n : ℕ} (h : m ≤ n) : spots m ≤ spots n := by
  unfold spots
  split_ifs <;> omega

theorem blocks_mono {m n : ℕ} (h : m ≤ n) : blocks m ≤ blocks n :=
  Nat.div_le_div_right (by omega)

theorem div_lt_blocks {k n : ℕ} (h : k < n) : k / BSIZE < blocks n := by
  unfold blocks
  norm_num
  omega

theorem cost_mono {m n : ℕ} (h : m ≤ n) : cost m ≤ cost n := spots_mono (blocks_mono h)

theorem dataPos_lt_spots {bn nb : ℕ} : dataPos bn < spots nb ↔ bn < nb := by
  unfold dataPos spots
  split_ifs <;> omega

/-- The disk in `fs.img`, with the blocks before `freeblock` marked. -/
def Img.disk (s : Img) : Disk :=
  { sb.disk s.sect with bit := fun b => decide (b < s.freeblock ∨ sb.size ≤ b) }

theorem Img.disk_newBlock (s : Img) :
    { s with freeblock := s.freeblock + 1 }.disk = s.disk.setBit s.freeblock true := by
  refine Disk.ext' (fun _ => rfl) (fun b => ?_) fun _ => rfl
  show decide (b < s.freeblock + 1 ∨ sb.size ≤ b) = update s.disk.bit s.freeblock true b
  rcases eq_or_ne b s.freeblock with rfl | hne
  · rw [update_self, decide_eq_true_eq]
    omega
  · rw [update_of_ne hne]
    refine decide_eq_decide.mpr ?_
    omega

def Img.write (s : Img) (sec : ℕ) (buf : Block) : Img :=
  { s with
    sect := update s.sect sec buf
    len := max s.len (sec + 1) }

theorem Img.disk_write (s : Img) {sec : ℕ} (hlo : nmeta ≤ sec) (hhi : sec < FSSIZE) (buf : Block) :
    (s.write sec buf).disk = s.disk.setBlk sec buf := by
  have hput := sb_geometry.disk_putBlk (c := s.sect) hlo hhi buf
  simp only [Img.disk, Img.write, hput]
  rfl

theorem Img.super_write {s : Img} {sec : ℕ} (hlo : nmeta ≤ sec) (buf : Block) :
    (s.write sec buf).sect 1 = s.sect 1 := by
  have : 1 < nmeta := by decide
  exact update_of_ne (by omega) ..

theorem wp_wsect {E : Die → Prop} {s : Img} {sec : ℕ} {buf : Block} {Q : Unit → Img → Prop} :
    wp E (wsect sec buf) Q s ↔ Q () (s.write sec buf) := Iff.rfl

theorem wp_rsect {E : Die → Prop} {s : Img} {sec : ℕ} (h : sec < s.len) {Q : Block → Img → Prop} :
    wp E (rsect sec) Q s ↔ Q (s.sect sec) s := by
  unfold rsect
  rw [wp_bind, wp_get, if_pos h, wp_pure]

/-- Inode `i`, as it is in memory, has the first `c` positions. The disk `D` has
the inode as it is in memory. -/
structure Draft (s : Img) (i : ℕ) (D : Disk) (c : ℕ) : Prop where
  len : s.len = FSSIZE
  super : s.sect 1 = superblock
  disk : s.disk.setIno i (D.ino i) = D
  owns : Owns sb D ∅
  zero : ∀ b, s.freeblock ≤ b → D.blk b = zeroBlock
  lo : nmeta ≤ s.freeblock
  hi : s.freeblock ≤ FSSIZE
  type : (D.ino i).type ≠ 0
  grown : ∀ p, D.own i p ≠ 0 ↔ p < c

namespace Draft

variable {s s' : Img} {i c : ℕ} {D D' : Disk}

theorem blk (h : Draft s i D c) : D.blk = (sb.disk s.sect).blk := by
  rw [← h.disk]
  rfl

theorem bit (h : Draft s i D c) (b : ℕ) : D.bit b = decide (b < s.freeblock ∨ sb.size ≤ b) := by
  rw [← h.disk]
  rfl

theorem attach (h : Draft s i D c) (hfree : s.freeblock < FSSIZE) (hlen : s'.len = s.len)
    (hsuper : s'.sect 1 = s.sect 1) (hdisk : s'.disk.setIno i (D'.ino i) = D')
    (hfb : s'.freeblock = s.freeblock + 1) (hbit : D'.bit = (D.setBit s.freeblock true).bit)
    (hown : ∀ j q, D'.own j q = if j = i ∧ q = c then s.freeblock else D.own j q)
    (hok : ∀ j, (D'.ino j).Ok)
    (hino : ∀ j, (D'.ino j).type = (D.ino j).type ∧ (D'.ino j).size = (D.ino j).size)
    (hzero : ∀ b, s'.freeblock ≤ b → D'.blk b = zeroBlock) : Draft s' i D' (c + 1) := by
  have hlo := h.lo
  have hpos : s.freeblock ≠ 0 := by
    have : 0 < nmeta := by decide
    omega
  have h0 : D.own i c = 0 := by grind [h.grown]
  have hclear : D.bit s.freeblock = false := by
    rw [h.bit, decide_eq_false_iff_not, sb_size]
    omega
  have halloc := h.owns.alloc sb_geometry hfree hclear
  refine ⟨hlen.trans h.len, hsuper.trans h.super, hdisk, ?_, hzero, by omega, by omega, ?_,
    fun p => ?_⟩
  · exact halloc.attach (Set.notMem_empty _) hpos h0 hown hbit hok hino
  · rw [(hino i).1]
    exact h.type
  · grind [h.grown]

theorem sect (h : Draft s i D c) {b : ℕ} (hlo : nmeta ≤ b) (hhi : b < FSSIZE) :
    s.sect b = D.blk b := by
  rw [h.blk, Superblock.disk_blk hlo hhi]

theorem own_range (h : Draft s i D c) {p : ℕ} (hp : p < c) :
    nmeta ≤ D.own i p ∧ D.own i p < FSSIZE := h.owns.range i p ((h.grown p).mpr hp)

/-- What a step of `iappend` in the middle of a file leaves: more positions, the
same data, and as many blocks less. -/
structure Next (s : Img) (i : ℕ) (D : Disk) (c : ℕ) (s' : Img) (D' : Disk) (c' : ℕ) : Prop where
  draft : Draft s' i D' c'
  ext : D.Ext i D'
  free : s'.freeblock + c = s.freeblock + c'
  freeinode : s'.freeinode = s.freeinode

theorem next (h : Draft s i D c) : Next s i D c s D c := ⟨h, .refl i D, rfl, rfl⟩

theorem Next.trans {s'' : Img} {D'' : Disk} {c' c'' : ℕ} (h : Next s i D c s' D' c')
    (h' : Next s' i D' c' s'' D'' c'') : Next s i D c s'' D'' c'' where
  draft := h'.draft
  ext := h.ext.trans h'.ext
  free := by
    have := h.free
    have := h'.free
    omega
  freeinode := h'.freeinode.trans h.freeinode

end Draft

variable {s : Img} {i c : ℕ} {D : Disk} {E : Die → Prop}

theorem mapAddr_spec (h : Draft s i D c) {k : ℕ} (hk : k ≤ NDIRECT) (hc : k ≤ c)
    (hroom : c = k → s.freeblock < FSSIZE) :
    wp E (mapAddr (D.ino i) k) (fun din s' => ∃ D', Draft.Next s i D c s' D' (max c (k + 1)) ∧
      D'.ino i = din) s := by
  have hown := Disk.own_direct h.type hk
  refine wp.ite (fun h0 => ?_) fun hne => ?_
  · -- the position is the next one
    have hkc : c = k := by grind [h.grown]
    subst hkc
    have hfree := hroom rfl
    rw [max_eq_right (Nat.le_succ c)]
    have hlt : s.freeblock < 2 ^ 32 := by grind
    let D₁ := D.setBit s.freeblock true
    have hset := Disk.own_setAddr (D := D₁) (b := s.freeblock) h.type hk (hown.trans h0)
      fun _ => h.zero _ le_rfl
    have hok := (h.owns.ok i).setAddr hk hlt
    let d := { D.ino i with addrs := update (D.ino i).addrs c s.freeblock }
    have hino {j : ℕ} (hj : j ≠ i) : (D₁.setIno i d).ino j = D.ino j := update_of_ne hj ..
    have hself : (D₁.setIno i d).ino i = d := update_self ..
    refine ⟨D₁.setIno i d, ⟨?_, ?_, by show _ + 1 + c = _; omega, rfl⟩, hself⟩
    · refine h.attach hfree rfl rfl ?_ rfl rfl hset (fun j => ?_) (fun j => ?_) fun b hb => ?_
      · rw [hself, s.disk_newBlock]
        show _ = (D.setBit s.freeblock true).setIno i d
        rw [← h.disk]
        simp [Disk.setIno, Disk.setBit]
      · grind [h.owns.ok]
      · grind
      · exact h.zero b (Nat.le_of_succ_le hb)
    · exact .attach (hown.trans h0) hset (fun j hj => hino hj) (by rw [hself]) fun _ _ _ => rfl
  · grind [h.grown, wp_pure, h.next]

theorem mapEntry_spec (h : Draft s i D c) {k : ℕ} (hk : k < NINDIRECT)
    (hc : NDIRECT + 1 + k ≤ c) (hroom : c = NDIRECT + 1 + k → s.freeblock < FSSIZE) :
    wp E (mapEntry ((D.ino i).addrs NDIRECT) k) (fun x s' => ∃ D',
      Draft.Next s i D c s' D' (max c (NDIRECT + 1 + k + 1)) ∧ D'.ino i = D.ino i ∧
        D'.own i (NDIRECT + 1 + k) = x) s := by
  have haddr := Disk.own_direct h.type (le_refl NDIRECT)
  obtain ⟨hlo, hhi⟩ := h.own_range (p := NDIRECT) (by omega)
  have hne := (h.grown NDIRECT).mpr (by omega)
  have hentry := Disk.own_entry h.type (haddr ▸ hne) hk
  rw [← haddr] at hentry ⊢
  unfold mapEntry
  rw [wp_bind, wp_rsect (by rw [h.len]; exact hhi), h.sect hlo hhi, ← hentry]
  refine wp.ite (fun h0 => ?_) fun hmapped => ?_
  · have hkc : c = NDIRECT + 1 + k := by
      have hnot := (h.grown (NDIRECT + 1 + k)).not.mp (not_not.mpr h0)
      omega
    have hfree := hroom hkc
    rw [hkc, max_eq_right (Nat.le_succ _)]
    simp only [newBlock, wp_bind, wp_get, wp_set, wp_pure, wp_wsect]
    have hlt : s.freeblock < 2 ^ 32 := by grind
    let D₁ := D.setBit s.freeblock true
    let x := putEntry (D.blk (D.own i NDIRECT)) k s.freeblock
    have hset : ∀ j q, (D₁.setBlk (D.own i NDIRECT) x).own j q =
        if j = i ∧ q = NDIRECT + 1 + k then s.freeblock else D.own j q :=
      h.owns.own_putEntry h.type hne hk hlt
    have hle := h.owns.bit_own hne
    rw [h.bit, decide_eq_true_eq, sb_size] at hle
    refine ⟨D₁.setBlk (D.own i NDIRECT) x, ⟨?_, ?_, ?_, rfl⟩, rfl, ?_⟩
    · refine (hkc ▸ h).attach hfree ?_ ?_ ?_ rfl rfl hset h.owns.ok (fun _ => ⟨rfl, rfl⟩)
        fun b hb => ?_
      · exact max_eq_left (by rw [h.len]; exact hhi)
      · exact Img.super_write hlo _
      · rw [Img.disk_write _ hlo hhi, s.disk_newBlock]
        conv_rhs =>
          rw [show D₁ = (s.disk.setIno i (D.ino i)).setBit s.freeblock true by rw [h.disk]]
        rfl
      · have hb : s.freeblock + 1 ≤ b := hb
        rw [Disk.blk_setBlk, update_of_ne (by omega)]
        exact h.zero b (by omega)
    · refine .attach h0 hset (fun _ _ => rfl) rfl fun j bn hj => ?_
      refine update_of_ne (fun heq => ?_) ..
      exact dataPos_ne bn (h.owns.inj j _ i NDIRECT hj heq).2
    · show s.freeblock + 1 + _ = _
      omega
    · rw [hset, if_pos ⟨rfl, rfl⟩]
  · grind [h.grown, wp_pure, h.next]

theorem mapBlock_spec {nb fbn : ℕ} (h : Draft s i D (spots nb)) (hfbn : fbn < MAXFILE)
    (hlo : fbn ≤ nb) (hhi : nb ≤ fbn + 1)
    (hroom : s.freeblock + spots (fbn + 1) ≤ FSSIZE + spots nb) :
    wp E (mapBlock (D.ino i) fbn) (fun r s' => ∃ D',
      Draft.Next s i D (spots nb) s' D' (spots (fbn + 1)) ∧ D'.ino i = r.1 ∧
        D'.own i (dataPos fbn) = r.2) s := by
  refine wp.ite (fun hdirect => ?_) fun hfar => ?_
  · have hpos : dataPos fbn = fbn := if_pos hdirect
    have hspots : spots nb = nb := if_pos (by omega)
    have hspots' : spots (fbn + 1) = fbn + 1 := if_pos (by omega)
    refine wp.bind (mapAddr_spec h hdirect.le (by omega) fun hc => by omega) ?_
    rintro din s' ⟨D', hnext, rfl⟩
    rw [hspots, max_eq_right hhi] at hnext
    rw [wp_pure, hspots, hspots', hpos]
    exact ⟨D', hnext, rfl, Disk.own_direct hnext.draft.type hdirect.le⟩
  · have hpos : dataPos fbn = NDIRECT + 1 + (fbn - NDIRECT) := by
      rw [dataPos, if_neg hfar]
      omega
    have hspots' : spots (fbn + 1) = fbn + 1 + 1 := if_neg (by omega)
    have hle : NDIRECT ≤ spots nb := by
      unfold spots
      split_ifs <;> omega
    rw [hspots'] at hroom ⊢
    refine wp.bind (mapAddr_spec h le_rfl hle fun hc => by omega) ?_
    rintro din s₁ ⟨D₁, hnext₁, rfl⟩
    have hfree₁ := hnext₁.free
    have hc₁ : fbn + 1 ≤ max (spots nb) (NDIRECT + 1) := by grind [spots]
    have hc₁' : max (spots nb) (NDIRECT + 1) ≤ fbn + 1 + 1 := by grind [spots]
    have hk : fbn - NDIRECT < NINDIRECT := by
      unfold MAXFILE at hfbn
      omega
    refine wp.bind (mapEntry_spec hnext₁.draft hk (by omega) fun hc => by omega) ?_
    rintro x s₂ ⟨D₂, hnext₂, hino, rfl⟩
    rw [show NDIRECT + 1 + (fbn - NDIRECT) + 1 = fbn + 1 + 1 by omega, max_eq_right hc₁'] at hnext₂
    rw [wp_pure, hpos]
    exact ⟨D₂, hnext₁.trans hnext₂, hino, rfl⟩

theorem Draft.blit (h : Draft s i D c) {off : ℕ} (hoff : dataPos (off / BSIZE) < c)
    (l : List UInt8) :
    Draft (s.write (D.own i (dataPos (off / BSIZE)))
      ((D.blk (D.own i (dataPos (off / BSIZE)))).blit (off % BSIZE) l)) i (D.blit i off l) c := by
  have hne := (h.grown _).mpr hoff
  obtain ⟨hlo, hhi⟩ := h.own_range hoff
  have hlt := h.owns.bit_own hne
  rw [h.bit, decide_eq_true_eq, sb_size] at hlt
  refine ⟨?_, (Img.super_write hlo _).trans h.super, ?_, h.owns.setBlk (h.owns.data_ne hne) _,
    fun b hb => ?_, h.lo, h.hi, h.type,
    fun q => ?_⟩
  · exact (max_eq_left (by rw [h.len]; exact hhi)).trans h.len
  · rw [s.disk_write hlo hhi]
    have hD : D.blit i off l = (s.disk.setIno i (D.ino i)).setBlk (D.own i (dataPos (off / BSIZE)))
        ((D.blk (D.own i (dataPos (off / BSIZE)))).blit (off % BSIZE) l) := by
      rw [h.disk, Disk.blit]
    rw [show (D.blit i off l).ino i = D.ino i from rfl, hD]
    rfl
  · have hb : s.freeblock ≤ b := hb
    rw [Disk.blit, Disk.blk_setBlk, update_of_ne (by omega)]
    exact h.zero b hb
  · rw [h.owns.own_blit hne]
    exact h.grown q

/-- What the loop of `iappend` has done when all of `p` is stored from `off` on. -/
structure Appended (s : Img) (i : ℕ) (D : Disk) (off : ℕ) (p : List UInt8) (s' : Img)
    (D' : Disk) : Prop where
  draft : Draft s' i D' (cost (off + p.length))
  grows : D.Grows i D'
  free : s'.freeblock + cost off = s.freeblock + cost (off + p.length)
  freeinode : s'.freeinode = s.freeinode
  byte : ∀ j k, D.own j (dataPos (k / BSIZE)) ≠ 0 ∨ j = i ∧ off ≤ k ∧ k < off + p.length →
    D'.byte j k = if j = i ∧ off ≤ k ∧ k < off + p.length then p.getD (k - off) 0 else D.byte j k

theorem Draft.appended {off : ℕ} (h : Draft s i D (cost off)) : Appended s i D off [] s D where
  draft := h
  grows := .refl i D
  free := rfl
  freeinode := rfl
  byte j k _ := by rw [if_neg (by simp)]

theorem Appended.cons {s₁ s' : Img} {D₁ D' : Disk} {off : ℕ} {l p : List UInt8}
    (h₁ : Draft.Next s i D (cost off) s₁ D₁ (cost (off + l.length)))
    (hl : off % BSIZE + l.length ≤ BSIZE) (hpos : 0 < l.length)
    (h : Appended (s₁.write (D₁.own i (dataPos (off / BSIZE)))
      ((D₁.blk (D₁.own i (dataPos (off / BSIZE)))).blit (off % BSIZE) l)) i (D₁.blit i off l)
      (off + l.length) p s' D') : Appended s i D off (l ++ p) s' D' := by
  have hmap : dataPos (off / BSIZE) < cost (off + l.length) := by
    rw [cost, dataPos_lt_spots, blocks]
    norm_num at hl ⊢
    omega
  have hne := (h₁.draft.grown _).mpr hmap
  have hlen : off + (l ++ p).length = off + l.length + p.length := by
    rw [length_append]
    omega
  have hfree₁ := h₁.free
  have hfree := h.free
  refine ⟨hlen ▸ h.draft, h₁.ext.toGrows.trans ((h₁.draft.owns.grows_blit hne l).trans h.grows), ?_,
    h.freeinode.trans h₁.freeinode, fun j k hjk => ?_⟩
  · have hsame : (s₁.write (D₁.own i (dataPos (off / BSIZE)))
      ((D₁.blk (D₁.own i (dataPos (off / BSIZE)))).blit (off % BSIZE) l)).freeblock =
        s₁.freeblock := rfl
    rw [hlen]
    omega
  · rw [hlen] at hjk ⊢
    have hown : D₁.own j (dataPos (k / BSIZE)) ≠ 0 ∨ j = i ∧ off + l.length ≤ k ∧
        k < off + l.length + p.length := by grind [h₁.ext.own_ne_zero]
    rw [← h₁.draft.owns.own_blit hne l] at hown
    rw [h.byte j k hown, h₁.draft.owns.byte_blit hne hl j k]
    by_cases hrest : j = i ∧ off + l.length ≤ k ∧ k < off + l.length + p.length
    · grind
    · grind [h₁.ext.byte]

/-- The loop of `iappend` stores all of `p`, unless that makes the file too large. -/
theorem iappendLoop_spec {fuel off : ℕ} {p : List UInt8} (h : Draft s i D (cost off))
    (hfuel : p.length ≤ fuel) (hoff : off ≤ MAXFILE * BSIZE)
    (hmax : MAXFILE * BSIZE < off + p.length → E .fbn)
    (hroom : s.freeblock + cost (off + p.length) ≤ FSSIZE + cost off) :
    wp E (iappendLoop fuel (D.ino i) off p) (fun r s' => off + p.length ≤ MAXFILE * BSIZE ∧
      ∃ D', Appended s i D off p s' D' ∧ D'.ino i = r.1 ∧ r.2 = off + p.length) s := by
  induction fuel generalizing s D off p with
  | zero =>
    obtain rfl : p = [] := length_eq_zero_iff.mp (Nat.le_zero.mp hfuel)
    exact ⟨hoff, D, h.appended, rfl, rfl⟩
  | succ fuel ih =>
    unfold iappendLoop
    refine wp.ite (fun hnil => ?_) fun hne => wp.ite (fun hfbn => ?_) fun hfbn => ?_
    · subst hnil
      exact ⟨hoff, D, h.appended, rfl, rfl⟩
    · have hpos := length_pos_iff.mpr hne
      have hcost : spots (off / BSIZE + 1) = cost (off + 1) := by grind [cost, blocks]
      have hmono := cost_mono (show off + 1 ≤ off + p.length by omega)
      have hdraft := h
      refine wp.bind (mapBlock_spec hdraft hfbn ?_ ?_ ?_) ?_
      · unfold blocks
        norm_num
        omega
      · unfold blocks
        norm_num
        omega
      · rw [hcost]
        exact (Nat.add_le_add_left hmono _).trans hroom
      · rintro ⟨din, x⟩ s₁ ⟨D₁, hnext, rfl, rfl⟩
        obtain ⟨n, hn⟩ : ∃ n, n = min p.length ((off / BSIZE + 1) * BSIZE - off) := ⟨_, rfl⟩
        have hmod : off - off / BSIZE * BSIZE = off % BSIZE := by
          norm_num
          omega
        have hend : (off / BSIZE + 1) * BSIZE ≤ MAXFILE * BSIZE := Nat.mul_le_mul_right _ hfbn
        have hn0 : 0 < n ∧ n ≤ p.length ∧ off % BSIZE + n ≤ BSIZE := by grind
        have htake : (p.take n).length = n := length_take_of_le hn0.2.1
        have hdrop : (p.drop n).length = p.length - n := length_drop
        have hcostn : spots (off / BSIZE + 1) = cost (off + n) := by
          rw [cost, blocks]
          congr 1
          norm_num at hn0 ⊢
          omega
        rw [hcostn] at hnext
        have hmap : dataPos (off / BSIZE) < cost (off + n) := by
          rw [← hcostn, dataPos_lt_spots]
          exact Nat.lt_succ_self _
        obtain ⟨hlo, hhi⟩ := hnext.draft.own_range hmap
        have hfree : s₁.freeblock + cost off = s.freeblock + cost (off + n) := hnext.free
        have hnext' : Draft.Next s i D (cost off) s₁ D₁ (cost (off + (p.take n).length)) := by
          grind [Draft.Next]
        dsimp only
        rw [← hn, hmod, wp_bind, wp_rsect (by rw [hnext.draft.len]; exact hhi), wp_bind, wp_wsect,
          hnext.draft.sect hlo hhi]
        have hblit := hnext.draft.blit hmap (p.take n)
        refine (ih hblit (by omega) (by omega) (fun hgt => hmax (by omega)) ?_).mono ?_
        · show s₁.freeblock + cost (off + n + (p.drop n).length) ≤ FSSIZE + cost (off + n)
          rw [hdrop, show off + n + (p.length - n) = off + p.length by omega]
          omega
        · rintro ⟨din, off'⟩ s' ⟨hle, D', happ, hino, hoff'⟩
          have hlen : off + n + (p.drop n).length = off + p.length := by omega
          have happ' := Appended.cons (p := p.drop n) hnext' (by omega) (by omega)
            (by rw [htake]; exact happ)
          rw [take_append_drop] at happ'
          exact ⟨by omega, D', happ', hino, hoff'.trans hlen⟩
    · have hpos := length_pos_iff.mpr hne
      have hge := (Nat.le_div_iff_mul_le (by norm_num)).mp (not_lt.mp hfbn)
      exact hmax (by omega)

end Xv6.Mkfs
