import Xv6.Fs.Low

/-!
`balloc`, `bfree`, `bmap` and `itrunc` keep the ownership of blocks.

`balloc` moves a free block to `leak`, `bmap` attaches it to the inode it
extends, and `itrunc` gives up all blocks of an inode at once and then frees
them one by one.
-/

namespace Xv6

open Function (update update_self update_of_ne)

variable {sb : Superblock} {leak : Set ℕ} {x : Option ℕ} {D : Disk} {s : Fs}
  {E : Stop → Prop} {b : ℕ}
variable {fuel k p : ℕ} {s' : Fs} {a : ℕ → ℕ}

/-! ### Allocating a block -/

def Fs.bit (s : Fs) (b : ℕ) : Bool := getBit (s.bio.cache (s.sb.BBLOCK b)) (b % BPB)

theorem ballocBits_some {size bi : ℕ} {data : Block} (h : ballocBits size b data fuel k = some bi) :
    bi < k + fuel ∧ b + bi < size ∧ getBit data bi = false ∧
      ∀ j, k ≤ j → j < bi → getBit data j = true := by
  induction fuel generalizing k with
  | zero => cases h
  | succ fuel ih =>
    rw [ballocBits] at h
    split_ifs at h with hlt hbit
    · obtain ⟨hbi, hsize, hclear, hbefore⟩ := ih h
      refine ⟨by omega, hsize, hclear, fun j hk hj => ?_⟩
      rcases hk.eq_or_lt with rfl | hk
      · exact hbit
      · exact hbefore j hk hj
    · cases h
      exact ⟨by omega, hlt, by simpa using hbit, fun j _ _ => by omega⟩

theorem ballocBits_none {size : ℕ} {data : Block} (h : ballocBits size b data fuel k = none)
    {bi : ℕ} (hk : k ≤ bi) (hbi : bi < k + fuel) (hlt : b + bi < size) : getBit data bi = true := by
  induction fuel generalizing k with
  | zero => omega
  | succ fuel ih => grind [ballocBits]

theorem Superblock.bit_add (sb : Superblock) (hb : b % BPB = 0) {bi : ℕ} (hbi : bi < BPB) :
    sb.BBLOCK (b + bi) = sb.BBLOCK b ∧ (b + bi) % BPB = bi := by
  simp only [BBLOCK, BPB, BSIZE] at *
  omega

section Search

variable {Q : ℕ → Fs → Prop}

theorem ballocLoop_wp (hnone : (∀ c < s.sb.size, s.bit c = true) → Q 0 s)
    (hsome : ∀ a < s.sb.size, s.bit a = false → (∀ c < a, s.bit c = true) → wp E (do
      store (s.sb.BBLOCK a) fun data => setBit data (a % BPB)
      logWrite (s.sb.BBLOCK a)
      bzero a
      return a) Q s)
    (hb : b % BPB = 0) (hfuel : s.sb.size ≤ b + fuel * BPB)
    (hset : ∀ c < b, c < s.sb.size → s.bit c = true) : wp E (ballocLoop fuel b) Q s := by
  induction fuel generalizing b with
  | zero => exact hnone fun c hc => hset c (by omega) hc
  | succ fuel ih =>
    refine wp.ite (fun hlt => ?_) fun hge => hnone fun c hc => hset c (by omega) hc
    have hbit : ∀ c, b ≤ c → c < b + BPB →
        s.bit c = getBit (s.bio.cache (s.sb.BBLOCK b)) (c - b) := by
      intro c hc hlt
      obtain ⟨bi, rfl⟩ := Nat.exists_eq_add_of_le hc
      obtain ⟨hblock, hmod⟩ := s.sb.bit_add hb (Nat.add_lt_add_iff_left.mp hlt)
      rw [Fs.bit, hblock, hmod, Nat.add_sub_cancel_left]
    rw [wp_bind, wp_bread]
    split
    · rename_i bi hbits
      obtain ⟨hbi, hsize, hclear, hbefore⟩ := ballocBits_some hbits
      rw [Nat.zero_add] at hbi
      obtain ⟨hblock, hmod⟩ := s.sb.bit_add hb hbi
      have hfound := hsome (b + bi) hsize
      rw [hblock, hmod] at hfound
      refine hfound ?_ fun c hc => ?_
      · rw [hbit _ (Nat.le_add_right ..) (by omega), Nat.add_sub_cancel_left]
        exact hclear
      · by_cases hcb : c < b
        · exact hset c hcb (by omega)
        · rw [hbit c (by omega) (by omega)]
          exact hbefore _ (Nat.zero_le _) (by omega)
    · rename_i hbits
      refine ih (by rw [Nat.add_mod_right, hb]) (by rw [Nat.add_mul] at hfuel; omega)
        fun c hc hlt' => ?_
      by_cases hcb : c < b
      · exact hset c hcb hlt'
      · rw [hbit c (by omega) hc]
        exact ballocBits_none hbits (Nat.zero_le _) (by omega) (by omega)

/-- `balloc` finds the first block whose bit is clear, if it is not told that the disk is
full. -/
theorem balloc_wp (hfull : s.full.headD false = true → Q 0 { s with full := s.full.tail })
    (hnone : s.full.headD false = false → (∀ c < s.sb.size, s.bit c = true) →
      Q 0 { s with full := s.full.tail })
    (hsome : ∀ a < s.sb.size, s.full.headD false = false → s.bit a = false →
      (∀ c < a, s.bit c = true) → wp E (do
        store (s.sb.BBLOCK a) fun data => setBit data (a % BPB)
        logWrite (s.sb.BBLOCK a)
        bzero a
        return a) Q { s with full := s.full.tail }) : wp E balloc Q s := by
  unfold balloc
  refine wp.ite hfull fun hne => ?_
  have hne := Bool.eq_false_iff.mpr hne
  refine ballocLoop_wp (hnone hne) (fun a ha => hsome a ha hne) (Nat.zero_mod _) ?_
    (by rintro _ ⟨⟩)
  have := @Nat.lt_div_mul_add s.sb.size BPB (by decide)
  show s.sb.size ≤ _
  rw [Nat.add_mul]
  omega

end Search

/-- What `balloc` leaves in any case: it logs blocks of the bitmap and the
block it returns. -/
structure Took (sb : Superblock) (s : Fs) (a : ℕ) (s' : Fs) : Prop where
  keep : Keep none s s'
  new : ∀ c ∈ s'.log.lh, c ∈ s.log.lh ∨ c < sb.dataStart ∨ c = a

/-- What a call of `balloc` that found block `b` leaves. -/
structure Allocated (sb : Superblock) (leak : Set ℕ) (x : Option ℕ) (D : Disk) (b : ℕ)
    (s' : Fs) : Prop where
  ne : b ≠ 0
  lt : b < sb.size
  clear : D.bit b = false
  logged : b ∈ s'.log.lh
  low : Low sb (leak ∪ {b}) x ((D.setBit b true).setBlk b zeroBlock) s'

theorem Low.setFull (h : Low sb leak x D s) (l : List Bool) :
    Low sb leak x D { s with full := l } :=
  { h with log := { h.log with } }

/-- `balloc` returns 0, which it does if `full` says so or no bit is clear, or
takes a block that was free. -/
theorem balloc_spec (G : Geometry sb) (hE : AdmitsLog E) (h : Low sb leak x D s)
    (hph : phase s.trace = some true) :
    wp E balloc (fun a s' => Took sb s a s' ∧ s'.full = s.full.tail ∧
      (a = 0 ∧ (s.full.headD false = false → ∀ c < sb.size, D.bit c = true) ∧
        Low sb leak x D s' ∨
      s.full.headD false = false ∧ Allocated sb leak x D a s')) s := by
  have hkeep : Keep none s { s with full := s.full.tail } :=
    ⟨⟨fun _ => rfl, fun _ _ => rfl, rfl, rfl, rfl, fun _ hb => hb, rfl⟩, fun _ => .inl rfl⟩
  obtain rfl := h.sb_eq
  have hbit : ∀ c < s.sb.size, D.bit c = s.bit c := by
    intro c hc
    rw [← h.bit, Superblock.disk_bit hc, Fs.bit]
  have h := h.setFull s.full.tail
  refine balloc_wp (fun hfull => ?_) (fun _ hall => ?_) fun a ha hfull hclear _ => ?_
  · exact ⟨⟨hkeep, fun _ => .inl⟩, rfl,
      .inl ⟨rfl, fun hf => absurd (hfull.symm.trans hf) (by simp), h⟩⟩
  · exact ⟨⟨hkeep, fun _ => .inl⟩, rfl,
      .inl ⟨rfl, fun _ c hc => (hbit c hc).trans (hall c hc), h⟩⟩
  have hclear : D.bit a = false := (hbit a ha).trans hclear
  have hdata := (h.owns.of_clear ha hclear).1
  have hpos := G.inodestart_lt_dataStart ha
  have howns := h.owns.alloc G ha hclear
  have howns' := howns.setBlk (b := a)
    (fun i heq => absurd heq (howns.leak_own _ (.inr rfl) i NDIRECT)) zeroBlock
  simp only [bzero, wp_bind, wp_store]
  refine wp_logWrite hE h.log fun hroom => ?_
  have hph : phase ({ s with full := s.full.tail } : Fs).trace = some true := hph
  have hkeep' := hkeep.trans (Keep.logged (b := s.sb.BBLOCK a) hph
    (setBit (s.bio.cache (s.sb.BBLOCK a)) (a % BPB)))
  have hlow := h.logged_bit G hph hroom (G.disk_setBit ha) howns
  have hph' := hkeep'.phase_eq.trans hph
  refine wp_logWrite hE hlow.log fun hroom' => ?_
  refine ⟨⟨hkeep'.trans (Keep.logged hph' _), fun c hc => ?_⟩, rfl,
    .inr ⟨hfull, by omega, ha, hclear, ?_, ?_⟩⟩
  · rcases Log.mem_absorb.mp hc with hc | rfl
    · rcases Log.mem_absorb.mp hc with hc | rfl
      · exact .inl hc
      · exact .inr (.inl (G.bitmap a ha))
    · exact .inr (.inr rfl)
  · exact Log.mem_absorb.mpr (.inr rfl)
  · exact hlow.logged_blk G hph' hdata ha hroom' howns'

theorem bfree_spec (G : Geometry sb) (hE : AdmitsLog E) (h : Low sb leak x D s)
    (hph : phase s.trace = some true) (hb : b ∈ leak) :
    wp E (bfree b) (fun _ s' => Keep none s s' ∧
      Low sb (leak \ {b}) x (D.setBit b false) s') s := by
  have hsize := (h.owns.leak_range b hb).2
  have hset : getBit (s.bio.cache (sb.BBLOCK b)) (b % BPB) = true := by
    rw [← Superblock.disk_bit hsize, h.bit, h.owns.bit b hsize]
    exact .inr (.inl hb)
  unfold bfree
  simp only [wp_bind, wp_get, wp_bread, h.sb_eq, hset, if_true, wp_store]
  refine wp_logWrite hE h.log fun hroom => ⟨Keep.logged hph _, ?_⟩
  exact h.logged_bit G hph hroom (G.disk_clearBit hsize) (h.owns.free hb)

/-! ### Mapping a block -/

/-- Inode `i` keeps its blocks and gets more; no other inode changes. -/
structure Disk.Grows (i : ℕ) (D D' : Disk) : Prop where
  ino_ne : ∀ j, j ≠ i → D'.ino j = D.ino j
  ino_eq : D'.ino i = { D.ino i with addrs := (D'.ino i).addrs }
  own : ∀ j q, D.own j q ≠ 0 → D'.own j q = D.own j q
  own_ne : ∀ j, j ≠ i → ∀ q, D'.own j q = D.own j q

/-- Moreover the blocks of all files have the same data. -/
structure Disk.Ext (i : ℕ) (D D' : Disk) : Prop extends Disk.Grows i D D' where
  blk : ∀ j bn, D.own j (dataPos bn) ≠ 0 →
    D'.blk (D.own j (dataPos bn)) = D.blk (D.own j (dataPos bn))

namespace Disk.Grows

variable {i : ℕ} {D D' D'' : Disk}

theorem refl (i : ℕ) (D : Disk) : D.Grows i D :=
  ⟨fun _ _ => rfl, rfl, fun _ _ _ => rfl, fun _ _ _ => rfl⟩

theorem trans (h : D.Grows i D') (h' : D'.Grows i D'') : D.Grows i D'' where
  ino_ne j hj := (h'.ino_ne j hj).trans (h.ino_ne j hj)
  ino_eq := by rw [h'.ino_eq, h.ino_eq]
  own j q hq := (h'.own j q (by rwa [h.own j q hq])).trans (h.own j q hq)
  own_ne j hj q := (h'.own_ne j hj q).trans (h.own_ne j hj q)

theorem own_ne_zero (h : D.Grows i D') {j q : ℕ} (hq : D.own j q ≠ 0) : D'.own j q ≠ 0 := by
  rwa [h.own j q hq]

theorem type (h : D.Grows i D') : (D'.ino i).type = (D.ino i).type := by rw [h.ino_eq]

theorem size (h : D.Grows i D') : (D'.ino i).size = (D.ino i).size := by rw [h.ino_eq]

end Disk.Grows

namespace Disk.Ext

variable {i : ℕ} {D D' D'' : Disk}

theorem refl (i : ℕ) (D : Disk) : D.Ext i D := ⟨.refl i D, fun _ _ _ => rfl⟩

theorem trans (h : D.Ext i D') (h' : D'.Ext i D'') : D.Ext i D'' := by
  refine ⟨h.toGrows.trans h'.toGrows, fun j bn hq => ?_⟩
  have hq' := h.own j _ hq
  rw [← h.blk j bn hq, ← hq', h'.blk j bn (by rwa [hq'])]

theorem attach {p a : ℕ} (h0 : D.own i p = 0)
    (hown : ∀ j q, D'.own j q = if j = i ∧ q = p then a else D.own j q)
    (hne : ∀ j, j ≠ i → D'.ino j = D.ino j)
    (heq : D'.ino i = { D.ino i with addrs := (D'.ino i).addrs })
    (hblk : ∀ j bn, D.own j (dataPos bn) ≠ 0 →
      D'.blk (D.own j (dataPos bn)) = D.blk (D.own j (dataPos bn))) : D.Ext i D' where
  ino_ne := hne
  ino_eq := heq
  own j q hq := by
    rw [hown, if_neg]
    rintro ⟨rfl, rfl⟩
    exact hq h0
  own_ne j hj q := by rw [hown, if_neg (by simp [hj])]
  blk := hblk

end Disk.Ext

/-- The entry `ip`, of inode `i`, while it is exempt and its copy is the
inode of `D`. -/
structure Busy (sb : Superblock) (leak : Set ℕ) (ip i : ℕ) (D : Disk) (s : Fs) : Prop where
  low : Low sb leak (some ip) D s
  phase_eq : phase s.trace = some true
  inum : (s.itable ip).inum = i
  copy : (s.itable ip).d = D.ino i
  type : (D.ino i).type ≠ 0

/-- What the allocator was asked for at position `p`, with the answer `a`. The
inode has an indirect block if the position is in it. -/
structure Supplied (sb : Superblock) (i p : ℕ) (D : Disk) (s : Fs) (a : ℕ) (D' : Disk)
    (s' : Fs) : Prop where
  old : D.own i p ≠ 0 → a ≠ 0 ∧ s' = s ∧ D' = D
  full : D.own i p = 0 → s'.full = s.full.tail
  none : D.own i p = 0 → a = 0 →
    (s.full.headD false = false → ∀ c < sb.size, D.bit c = true)
  some : D.own i p = 0 → a ≠ 0 → s.full.headD false = false ∧ a < sb.size ∧
    D.bit a = false ∧ D'.bit = update D.bit a true ∧
    ∀ q, q ≠ p → D'.own i q = D.own i q

/-- After a call of `bmap` for position `p`, which returned `a`. -/
structure Mapped (sb : Superblock) (leak : Set ℕ) (ip i p : ℕ) (D : Disk) (s : Fs)
    (a : ℕ) (D' : Disk) (s' : Fs) : Prop where
  busy : Busy sb leak ip i D' s'
  keep : Keep (some ip) s s'
  ext : D.Ext i D'
  own : D'.own i p = a
  only : ∀ q, q ≠ p → q ≠ NDIRECT → D'.own i q = D.own i q
  fresh : ∀ q, D.own i q = 0 → D'.own i q ≠ 0 → D'.own i q ∈ s'.log.lh
  new : ∀ q, D.own i q ≠ 0 → q ≠ NDIRECT → D.own i q ∈ s'.log.lh → D.own i q ∈ s.log.lh
  supplied : p ≤ NDIRECT ∨ D.own i NDIRECT ≠ 0 → Supplied sb i p D s a D' s'

variable {ip i : ℕ}

theorem Busy.mapped (h : Busy sb leak ip i D s) (h0 : D.own i p ≠ 0) :
    Mapped sb leak ip i p D s (D.own i p) D s where
  busy := h
  keep := .refl _ s
  ext := .refl i D
  own := rfl
  only _ _ _ := rfl
  fresh _ hz hne := absurd hz hne
  new _ _ _ hmem := hmem
  supplied _ := ⟨fun _ => ⟨h0, rfl, rfl⟩, fun hz => absurd hz h0, fun hz => absurd hz h0,
    fun hz => absurd hz h0⟩

theorem Busy.notMapped (h : Busy sb leak ip i D s) (h0 : D.own i p = 0) (htook : Took sb s 0 s')
    (hfull : s'.full = s.full.tail)
    (hall : s.full.headD false = false → ∀ c < sb.size, D.bit c = true)
    (hlow : Low sb leak (some ip) D s') : Mapped sb leak ip i p D s 0 D s' where
  busy := ⟨hlow, htook.keep.phase_eq.trans h.phase_eq, (htook.keep.inum ip).trans h.inum,
    (htook.keep.copy ip (by simp)).trans h.copy, h.type⟩
  keep := htook.keep.weaken _
  ext := .refl i D
  own := h0
  only _ _ _ := rfl
  fresh _ hz hne := absurd hz hne
  new q hq _ hmem := by
    rcases htook.new _ hmem with hmem | hlt | hz
    · exact hmem
    · exact absurd (h.low.owns.range i q hq).1 (by omega)
    · exact absurd hz hq
  supplied _ := ⟨fun hz => absurd h0 hz, fun _ => hfull, fun _ _ => hall,
    fun _ ha => absurd rfl ha⟩

theorem Allocated.notMem (ha : Allocated sb leak x D b s') (h : Owns sb D leak) :
    b ∉ leak := (h.of_clear ha.lt ha.clear).2.1

theorem Allocated.own_ne (ha : Allocated sb leak x D b s') (h : Owns sb D leak) (j q : ℕ) :
    D.own j q ≠ b := fun heq =>
  (h.of_clear ha.lt ha.clear).2.2 j q (heq ▸ ha.ne) heq

theorem Allocated.own_eq (ha : Allocated sb leak x D b s') (h : Owns sb D leak) (j q : ℕ) :
    ((D.setBit b true).setBlk b zeroBlock).own j q = D.own j q :=
  (Disk.own_setBlk (fun i heq => absurd heq (ha.own_ne h i NDIRECT)) zeroBlock j q).trans rfl

theorem Allocated.mapped {a : ℕ} {s₁ s₂ : Fs} {D₂ : Disk} (h : Busy sb leak ip i D s)
    (ha : Allocated sb leak (some ip) D a s₁) (htook : Took sb s a s₁)
    (hhead : s.full.headD false = false) (hfull : s₁.full = s.full.tail) (h0 : D.own i p = 0)
    (hset : ∀ j q, D₂.own j q = if j = i ∧ q = p then a else D.own j q) (hext : D.Ext i D₂)
    (hbit : D₂.bit = update D.bit a true) (hbusy : Busy sb leak ip i D₂ s₂)
    (hkeep : Keep (some ip) s₁ s₂) (hfull₂ : s₂.full = s₁.full)
    (hlh : ∀ c ∈ s₂.log.lh, c ∈ s₁.log.lh ∨ c = D.own i NDIRECT) :
    Mapped sb leak ip i p D s a D₂ s₂ where
  busy := hbusy
  keep := (htook.keep.weaken _).trans hkeep
  ext := hext
  own := by rw [hset, if_pos ⟨rfl, rfl⟩]
  only q hq _ := by rw [hset, if_neg (by simp [hq])]
  fresh q hz hne := by
    rw [hset] at hne ⊢
    split at hne
    · rename_i hq
      rw [if_pos hq]
      exact hkeep.lh _ ha.logged
    · exact absurd hz hne
  new q hq hne hmem := by
    rcases hlh _ hmem with hmem | heq
    · rcases htook.new _ hmem with hmem | hlt | heq
      · exact hmem
      · exact absurd (h.low.owns.range i q hq).1 (by omega)
      · exact absurd heq (ha.own_ne h.low.owns i q)
    · exact absurd (h.low.owns.inj i q i NDIRECT hq heq).2 hne
  supplied _ := ⟨fun hne => absurd h0 hne, fun _ => hfull₂.trans hfull,
    fun _ hz => absurd hz ha.ne, fun _ _ => ⟨hhead, ha.lt, ha.clear, hbit, fun q hq => by
      rw [hset, if_neg (by simp [hq])]⟩⟩

theorem Disk.own_setAddr (ht : (D.ino i).type ≠ 0) (hp : p ≤ NDIRECT) (h0 : D.own i p = 0)
    (hz : p = NDIRECT → D.blk b = zeroBlock) (j q : ℕ) :
    (D.setIno i { D.ino i with addrs := update (D.ino i).addrs p b }).own j q =
      if j = i ∧ q = p then b else D.own j q := by
  by_cases hj : j = i
  · subst hj
    by_cases hq : q ≤ NDIRECT
    · rw [Disk.own_direct (by simpa using ht) hq, Disk.own_direct ht hq]
      by_cases hqp : q = p
      · simp [hqp]
      · simp [hqp]
    · rw [if_neg (by omega)]
      by_cases hpn : p = NDIRECT
      · subst hpn
        rw [Disk.own_direct ht le_rfl] at h0
        rw [Disk.own_entry_zero (by omega) h0]
        simp [Disk.own, hq, hz rfl, getEntry_zeroBlock]
      · simp [Disk.own, hq, update_of_ne (Ne.symm hpn)]
  · rw [if_neg (by simp [hj]), Disk.own_setIno_ne hj]

theorem bmapAddr_spec (G : Geometry sb) (hE : AdmitsLog E) (h : Busy sb leak ip i D s)
    (hp : p ≤ NDIRECT) :
    wp E (bmapAddr ip p) (fun a s' => ∃ D', Mapped sb leak ip i p D s a D' s') s := by
  have hown := Disk.own_direct h.type hp
  unfold bmapAddr
  simp only [wp_bind, wp_inode, h.copy]
  rw [← hown]
  refine wp.ite (fun h0 => ?_) fun h0 => ⟨D, h.mapped h0⟩
  refine wp.bind (balloc_spec G hE h.low h.phase_eq) ?_
  rintro a s₁ ⟨htook, hfull, ⟨rfl, hall, hlow⟩ | ⟨hhead, ha⟩⟩
  · exact ⟨D, h.notMapped h0 htook hfull hall hlow⟩
  · have hkeep := htook.keep
    rw [if_neg ha.ne]
    simp only [wp_bind, setAddr, wp_modifyDinode, wp_pure]
    have hinum := (hkeep.inum ip).trans h.inum
    have hcopy : (s₁.itable ip).d = D.ino i := by rw [hkeep.copy ip (by simp), h.copy]
    let D₁ := (D.setBit a true).setBlk a zeroBlock
    let d := { D.ino i with addrs := update (D.ino i).addrs p a }
    have hset : ∀ j q, (D₁.setIno i d).own j q = if j = i ∧ q = p then a else D.own j q :=
      fun j q => by
        rw [← ha.own_eq h.low.owns j q]
        exact Disk.own_setAddr (D := D₁) h.type hp
          ((ha.own_eq h.low.owns i p).trans h0) (fun _ => by simp [D₁]) j q
    have hlt : a < 2 ^ 32 := ha.lt.trans_le G.size
    have hok : ∀ j, ((D₁.setIno i d).ino j).Ok := by
      intro j
      by_cases hj : j = i
      · subst hj
        simpa using (h.low.owns.ok j).setAddr hp hlt
      · simpa [D₁, update_of_ne hj] using h.low.owns.ok j
    have hino : ∀ j, ((D₁.setIno i d).ino j).type = (D₁.ino j).type ∧
        ((D₁.setIno i d).ino j).size = (D₁.ino j).size := by
      intro j
      by_cases hj : j = i
      · subst hj
        simp [d, D₁]
      · simp [update_of_ne hj]
    have howns := ha.low.owns.attach (ha.notMem h.low.owns) ha.ne
        ((ha.own_eq h.low.owns i p).trans h0)
        (fun j q => (hset j q).trans (by rw [ha.own_eq h.low.owns j q])) rfl hok hino
    have hext : D.Ext i (D₁.setIno i d) :=
      .attach h0 hset (fun j hj => by simp [D₁, update_of_ne hj]) (by simp [d])
        fun j bn _ => update_of_ne (ha.own_ne h.low.owns j _) _ D.blk
    refine ⟨D₁.setIno i d, ha.mapped h htook hhead hfull h0 hset hext rfl
      ⟨(ha.low.view hinum howns).copy _, ?_, ?_, ?_, ?_⟩ (.copied ip _) rfl fun _ => .inl⟩
    · exact hkeep.phase_eq.trans h.phase_eq
    · rw [Fs.inum_setCopy, hinum]
    · rw [Fs.copy_setCopy, hcopy, Disk.ino_setIno, update_self]
    · rw [hext.type]
      exact h.type

theorem Owns.own_putEntry (h : Owns sb D leak) (ht : (D.ino i).type ≠ 0)
    (hind : D.own i NDIRECT ≠ 0) (hk : k < NINDIRECT) (hb : b < 2 ^ 32) (j q : ℕ) :
    (D.setBlk (D.own i NDIRECT) (putEntry (D.blk (D.own i NDIRECT)) k b)).own j q =
      if j = i ∧ q = NDIRECT + 1 + k then b else D.own j q := by
  by_cases hj : j = i
  · subst hj
    have ha := Disk.own_direct ht (le_refl NDIRECT)
    by_cases hq : q ≤ NDIRECT
    · rw [if_neg (by omega), Disk.own_direct (by exact ht) hq, Disk.own_direct ht hq]
      rfl
    · rw [ha] at hind ⊢
      by_cases hfar : q - (NDIRECT + 1) < NINDIRECT
      · obtain ⟨m, rfl⟩ : ∃ m, q = NDIRECT + 1 + m := ⟨q - (NDIRECT + 1), by omega⟩
        rw [Disk.own_entry (by exact ht) (by exact hind) (by omega),
          Disk.own_entry ht hind (by omega)]
        simp only [Disk.ino_setBlk, Disk.blk_setBlk, update_self]
        by_cases hm : m = k
        · subst hm
          rw [if_pos (by simp), getEntry_putEntry _ hk hb]
        · rw [if_neg (by omega), getEntry_putEntry_ne _ _ (Ne.symm hm)]
      · rw [if_neg (by omega), Disk.own_far (by omega), Disk.own_far (by omega)]
  · rw [if_neg (by simp [hj])]
    have hino : (D.setBlk (D.own i NDIRECT) (putEntry (D.blk (D.own i NDIRECT)) k b)).ino j =
        D.ino j := rfl
    refine Disk.own_congr hino (fun hne => update_of_ne (fun heq => ?_) _ _) q
    exact hj (h.inj j NDIRECT i NDIRECT hne heq).1

theorem bmapEntry_spec (G : Geometry sb) (hE : AdmitsLog E) (h : Busy sb leak ip i D s)
    (hind : D.own i NDIRECT ≠ 0) (hk : k < NINDIRECT) :
    wp E (bmapEntry (D.own i NDIRECT) k)
      (fun a s' => ∃ D', Mapped sb leak ip i (NDIRECT + 1 + k) D s a D' s') s := by
  have haddr := Disk.own_direct h.type (le_refl NDIRECT)
  obtain ⟨hlo, hhi⟩ := h.low.owns.range i NDIRECT hind
  have hown : D.own i (NDIRECT + 1 + k) = getEntry (D.blk (D.own i NDIRECT)) k := by
    grind [Disk.own_entry, h.type]
  have hcache : s.bio.cache (D.own i NDIRECT) = D.blk (D.own i NDIRECT) := by
    rw [← h.low.blk, Superblock.disk_blk hlo hhi]
  unfold bmapEntry
  simp only [wp_bind, wp_bread, hcache, ← hown]
  refine wp.ite (fun h0 => ?_) fun h0 => ⟨D, h.mapped h0⟩
  refine wp.bind (balloc_spec G hE h.low h.phase_eq) ?_
  rintro a s₁ ⟨htook, hfull, ⟨rfl, hall, hlow⟩ | ⟨hhead, ha⟩⟩
  · rw [if_pos rfl]
    exact ⟨D, h.notMapped h0 htook hfull hall hlow⟩
  · have hkeep := htook.keep
    rw [if_neg ha.ne]
    simp only [wp_bind, wp_store]
    refine wp_logWrite hE ha.low.log fun hroom => ?_
    have hph := hkeep.phase_eq.trans h.phase_eq
    let D₁ := (D.setBit a true).setBlk a zeroBlock
    have hind₁ := ha.own_eq h.low.owns i NDIRECT
    have hblk₁ : D₁.blk (D.own i NDIRECT) = D.blk (D.own i NDIRECT) :=
      update_of_ne (ha.own_ne h.low.owns i NDIRECT) _ _
    have hcache₁ : s₁.bio.cache (D.own i NDIRECT) = D₁.blk (D₁.own i NDIRECT) := by
      rw [hind₁, ← ha.low.blk, Superblock.disk_blk hlo hhi]
    let D₂ := D₁.setBlk (D₁.own i NDIRECT) (putEntry (D₁.blk (D₁.own i NDIRECT)) k a)
    have hset₁ := ha.low.owns.own_putEntry h.type (hind₁ ▸ hind) hk (ha.lt.trans_le G.size)
    have hset : ∀ j q, D₂.own j q = if j = i ∧ q = NDIRECT + 1 + k then a else D.own j q :=
      fun j q => (hset₁ j q).trans (by rw [ha.own_eq h.low.owns j q])
    have howns : Owns sb D₂ leak :=
      ha.low.owns.attach (ha.notMem h.low.owns) ha.ne
        ((ha.own_eq h.low.owns i _).trans h0) hset₁ rfl h.low.owns.ok fun j => ⟨rfl, rfl⟩
    have hext : D.Ext i D₂ := by
      refine .attach h0 hset (fun _ _ => rfl) rfl fun j bn hne => ?_
      have hne₁ : D.own j (dataPos bn) ≠ D₁.own i NDIRECT := by
        rw [hind₁]
        exact fun heq => dataPos_ne bn (h.low.owns.inj j _ i NDIRECT hne heq).2
      exact (update_of_ne hne₁ _ _).trans
        (update_of_ne (ha.own_ne h.low.owns j _) _ _)
    have hlow := ha.low.logged_blk G hph (b := D₁.own i NDIRECT) (by rwa [hind₁])
      (by rwa [hind₁]) hroom howns
    rw [hcache₁, ← hind₁]
    refine ⟨D₂, ha.mapped h htook hhead hfull h0 hset hext rfl ⟨hlow, ?_, ?_, ?_, h.type⟩
      ((Keep.logged hph _).weaken _) rfl fun c hc => ?_⟩
    · simp [hph, phaseStep]
    · exact (hkeep.inum ip).trans h.inum
    · rw [Fs.itable_logged, hkeep.copy ip (by simp), h.copy]
      rfl
    · rw [hind₁] at hc
      exact Log.mem_absorb.mp hc

/-- `bmap` returns 0, or the block that the inode then has at `bn`. -/
theorem bmap_spec (G : Geometry sb) (hE : AdmitsLog E) (h : Busy sb leak ip i D s) {bn : ℕ}
    (hmax : bn < MAXFILE ∨ E (.panic .bmapOutOfRange)) :
    wp E (bmap ip bn) (fun a s' => ∃ D', Mapped sb leak ip i (dataPos bn) D s a D' s') s := by
  unfold bmap
  refine wp.ite (fun hbn => ?_) fun hbn => wp.ite (fun hk => ?_) fun hk =>
    wp_throw.mpr (hmax.resolve_left fun hlt => hk ?_)
  · rw [dataPos, if_pos hbn]
    exact bmapAddr_spec G hE h hbn.le
  · rw [dataPos, if_neg hbn]
    refine wp.bind (bmapAddr_spec G hE h le_rfl) ?_
    rintro a s₁ ⟨D₁, h₁⟩
    have hold := (h₁.supplied (.inl le_rfl)).old
    have hind := h₁.own
    refine wp.ite (fun h0 => ?_) fun h0 => ?_
    · have haddr := Disk.own_direct h₁.busy.type (le_refl NDIRECT)
      refine ⟨D₁, h₁.busy, h₁.keep, h₁.ext, Disk.own_entry_zero (by omega) ?_,
        fun q _ hq => h₁.only q hq hq, h₁.fresh, h₁.new, fun hp => ?_⟩
      · rw [← haddr, hind, h0]
      · exact absurd h0 (hold (hp.resolve_left (by omega))).1
    · have hentry := bmapEntry_spec G hE h₁.busy (k := bn - NDIRECT) (hind ▸ h0) hk
      rw [hind] at hentry
      refine hentry.mono ?_
      rintro a' s₂ ⟨D₂, h₂⟩
      have hpos : NDIRECT + 1 + (bn - NDIRECT) = bn + 1 := by omega
      rw [hpos] at h₂
      refine ⟨D₂, h₂.busy, h₁.keep.trans h₂.keep, h₁.ext.trans h₂.ext, h₂.own,
        fun q hq hne => (h₂.only q hq hne).trans (h₁.only q hne hne), fun q hz hne => ?_,
        fun q hq hne hmem => ?_, fun hp => ?_⟩
      · grind [h₂.fresh, h₂.ext.own, h₂.keep.lh, h₁.fresh]
      · grind [Mapped]
      · -- the indirect block is there, so the first call changed nothing
        obtain ⟨-, rfl, rfl⟩ := hold (hp.resolve_left (by omega))
        exact h₂.supplied (.inr (hind ▸ h0))
  · unfold MAXFILE at hlt
    omega

/-! ### Truncating -/

def owed (a : ℕ → ℕ) (P : ℕ → Prop) : Set ℕ := {b | b ≠ 0 ∧ ∃ p, P p ∧ a p = b}

theorem owed_congr {P P' : ℕ → Prop} (h : ∀ p, a p ≠ 0 → (P p ↔ P' p)) : owed a P = owed a P' := by
  ext b
  constructor
  · rintro ⟨h0, p, hp, rfl⟩
    exact ⟨h0, p, (h p h0).mp hp, rfl⟩
  · rintro ⟨h0, p, hp, rfl⟩
    exact ⟨h0, p, (h p h0).mpr hp, rfl⟩

/-- The blocks `a` of an inode that gives them up: no two positions have the
same, and `leak` has none of them. -/
structure GivenUp (leak : Set ℕ) (a : ℕ → ℕ) : Prop where
  inj : ∀ p q, a p ≠ 0 → a p = a q → p = q
  fresh : ∀ p, a p ∉ leak

theorem bfree_owed (G : Geometry sb) (hE : AdmitsLog E) (ha : GivenUp leak a) {P R : ℕ → Prop}
    {q : ℕ} (h : Low sb (leak ∪ owed a P) x D s) (hph : phase s.trace = some true) (hq : P q)
    (h0 : a q ≠ 0) (hP : ∀ p, a p ≠ 0 → (R p ↔ P p ∧ p ≠ q)) :
    wp E (bfree (a q)) (fun _ s' => Keep none s s' ∧
      Low sb (leak ∪ owed a R) x (D.setBit (a q) false) s') s := by
  refine (bfree_spec G hE h hph (.inr ⟨h0, q, hq, rfl⟩)).mono fun _ s' hs' => ?_
  have hset : (leak ∪ owed a P) \ {a q} = leak ∪ owed a R := by
    ext b
    constructor
    · rintro ⟨hb | ⟨hb0, p, hp, rfl⟩, hne⟩
      · exact .inl hb
      · refine .inr ⟨hb0, p, (hP p hb0).mpr ⟨hp, ?_⟩, rfl⟩
        rintro rfl
        exact hne rfl
    · rintro (hb | ⟨hb0, p, hp, rfl⟩)
      · refine ⟨.inl hb, ?_⟩
        rintro rfl
        exact ha.fresh q hb
      · obtain ⟨hp, hpq⟩ := (hP p hb0).mp hp
        exact ⟨.inr ⟨hb0, p, hp, rfl⟩, fun heq => hpq (ha.inj p q hb0 heq)⟩
  rw [hset] at hs'
  exact hs'

theorem itruncDirect_spec (G : Geometry sb) (hE : AdmitsLog E) (ha : GivenUp leak a)
    (hfuel : k + fuel = NDIRECT) (h : Low sb (leak ∪ owed a (k ≤ ·)) (some ip) D s)
    (hph : phase s.trace = some true)
    (hcopy : ∀ p, k ≤ p → p ≤ NDIRECT → (s.itable ip).d.addrs p = a p) :
    wp E (itruncDirect ip fuel k) (fun _ s' => Keep (some ip) s s' ∧
      (∃ D', D'.ino = D.ino ∧ D'.blk = D.blk ∧
        Low sb (leak ∪ owed a (NDIRECT ≤ ·)) (some ip) D' s') ∧
      (s'.itable ip).d = { (s.itable ip).d with
        addrs := fun p => if k ≤ p ∧ p < NDIRECT then 0 else (s.itable ip).d.addrs p }) s := by
  induction fuel generalizing k D s with
  | zero =>
    obtain rfl : k = NDIRECT := hfuel
    refine ⟨.refl _ s, ⟨D, rfl, rfl, h⟩, ?_⟩
    refine Dinode.ext' rfl rfl rfl rfl rfl fun p => ?_
    change _ = if NDIRECT ≤ p ∧ p < NDIRECT then 0 else _
    rw [if_neg (by omega)]
  | succ fuel ih =>
    unfold itruncDirect
    simp only [wp_bind, wp_inode, hcopy k le_rfl (by omega)]
    refine wp.ite (fun h0 => ?_) fun h0 => ?_
    · refine wp.bind (bfree_owed G hE ha (R := (k + 1 ≤ ·)) (q := k) h hph le_rfl h0
        fun p _ => by omega) fun _ s₁ h₁ => ?_
      simp only [wp_bind, setAddr, wp_modifyDinode]
      have hd := h₁.1.copy ip (by simp)
      have hkeep := (h₁.1.weaken (some ip)).trans (Keep.copied ip
        fun d => { d with addrs := update d.addrs k 0 })
      refine (ih (by omega) (h₁.2.copy _) (hkeep.phase_eq.trans hph) ?_).mono ?_
      · intro p hp hp'
        rw [Fs.copy_setCopy, hd]
        simp only [update_of_ne (show p ≠ k by omega)]
        exact hcopy p (by omega) hp'
      · rintro _ s₂ ⟨hkeep₂, ⟨D', hino, hblk, hlow⟩, hd₂⟩
        refine ⟨hkeep.trans hkeep₂, ⟨D', hino, hblk, hlow⟩, ?_⟩
        rw [hd₂, Fs.copy_setCopy, hd]
        refine Dinode.ext' rfl rfl rfl rfl rfl fun p => ?_
        by_cases hp : p = k
        · grind
        · simp only [update_of_ne hp]
          congr 1
          rw [eq_iff_iff]
          omega
    · rw [not_not] at h0
      have hsame : owed a (k ≤ ·) = owed a (k + 1 ≤ ·) :=
        owed_congr fun p hp => ⟨fun hle => by
          rcases Nat.lt_or_eq_of_le hle with hlt | rfl
          · exact hlt
          · exact absurd h0 hp, fun hle => by omega⟩
      refine (ih (by omega) (hsame ▸ h) hph fun p hp => hcopy p (by omega)).mono ?_
      rintro _ s₂ ⟨hkeep₂, hD, hd₂⟩
      refine ⟨hkeep₂, hD, ?_⟩
      rw [hd₂]
      refine Dinode.ext' rfl rfl rfl rfl rfl fun p => ?_
      by_cases hp : p = k
      · grind
      · grind

theorem itruncIndirect_spec (G : Geometry sb) (hE : AdmitsLog E) (ha : GivenUp leak a) {ind j : ℕ}
    (hlo : sb.dataStart ≤ ind) (hhi : ind < sb.size) (hfuel : j + fuel = NINDIRECT)
    (h : Low sb (leak ∪ owed a fun p => p = NDIRECT ∨ NDIRECT + 1 + j ≤ p) x D s)
    (hph : phase s.trace = some true)
    (hentry : ∀ k, k < NINDIRECT → getEntry (D.blk ind) k = a (NDIRECT + 1 + k))
    (hfar : ∀ p, NDIRECT + 1 + NINDIRECT ≤ p → a p = 0) :
    wp E (itruncIndirect ind fuel j) (fun _ s' => Keep none s s' ∧
      ∃ D', D'.ino = D.ino ∧ D'.blk = D.blk ∧
        Low sb (leak ∪ owed a (· = NDIRECT)) x D' s') s := by
  induction fuel generalizing j D s with
  | zero =>
    have hsame : owed a (fun p => p = NDIRECT ∨ NDIRECT + 1 + j ≤ p) = owed a (· = NDIRECT) :=
      owed_congr fun p hp => ⟨fun hle => by
        rcases hle with heq | hle
        · exact heq
        · exact absurd (hfar p (by omega)) hp, .inl⟩
    exact ⟨.refl none s, D, rfl, rfl, hsame ▸ h⟩
  | succ fuel ih =>
    have hcache : s.bio.cache ind = D.blk ind := by rw [← h.blk, Superblock.disk_blk hlo hhi]
    unfold itruncIndirect
    simp only [wp_bind, wp_bread, hcache, hentry j (by omega)]
    refine wp.ite (fun h0 => ?_) fun h0 => ?_
    · refine wp.bind (bfree_owed G hE ha
        (R := fun p => p = NDIRECT ∨ NDIRECT + 1 + (j + 1) ≤ p) h hph (.inr le_rfl) h0
        fun p _ => by omega) fun _ s₁ h₁ => ?_
      refine (ih (by omega) h₁.2 (h₁.1.phase_eq.trans hph) hentry).mono ?_
      rintro _ s₂ ⟨hkeep₂, hD⟩
      exact ⟨h₁.1.trans hkeep₂, hD⟩
    · rw [not_not] at h0
      have hsame : owed a (fun p => p = NDIRECT ∨ NDIRECT + 1 + j ≤ p) =
          owed a fun p => p = NDIRECT ∨ NDIRECT + 1 + (j + 1) ≤ p :=
        owed_congr fun p hp => ⟨fun hle => by
          by_cases hpj : p = NDIRECT + 1 + j
          · exact absurd (hpj ▸ h0) hp
          · omega, fun hle => by omega⟩
      exact ih (by omega) (hsame ▸ h) hph hentry

def Dinode.emptied (d : Dinode) : Dinode := { d with size := 0, addrs := fun _ => 0 }

theorem Dinode.Ok.emptied {d : Dinode} (h : d.Ok) : d.emptied.Ok where
  type := h.type
  major := h.major
  minor := h.minor
  nlink := h.nlink
  size := by norm_num [Dinode.emptied]
  addrs _ := by norm_num [Dinode.emptied]
  addrs_end _ _ := rfl

theorem Disk.own_emptied (i : ℕ) (d : Dinode) (j q : ℕ) :
    (D.setIno i d.emptied).own j q = if j = i then 0 else D.own j q := by
  split
  · rename_i hj
    subst hj
    simp [Disk.own, Dinode.emptied]
  · rename_i hj
    exact Disk.own_setIno_ne hj _ q

/-- `itrunc` frees all blocks of the inode and empties it. -/
theorem itrunc_spec (G : Geometry sb) (hE : AdmitsLog E) (h : Busy sb leak ip i D s)
    (hi : i < sb.ninodes) :
    wp E (itrunc ip) (fun _ s' => Keep (some ip) s s' ∧ (s'.itable ip).d = (D.ino i).emptied ∧
      ∃ D', D'.ino = update D.ino i (D.ino i).emptied ∧ D'.blk = D.blk ∧
        Low sb leak none D' s') s := by
  have ha : GivenUp leak (D.own i) :=
    ⟨fun p q h0 heq => (h.low.owns.inj i p i q h0 heq).2,
      fun p hp => h.low.owns.leak_own _ hp i p rfl⟩
  let D₀ := D.setIno i (D.ino i).emptied
  have hown₀ : ∀ j q, D₀.own j q = if j = i then 0 else D.own j q := Disk.own_emptied i _
  have hok₀ : ∀ j, (D₀.ino j).Ok := by
    intro j
    by_cases hj : j = i
    · subst hj
      simpa [D₀] using (h.low.owns.ok j).emptied
    · simpa [D₀, update_of_ne hj] using h.low.owns.ok j
  have howns₀ : Owns sb D₀ (leak ∪ owed (D.own i) (0 ≤ ·)) := by
    have hdetach := h.low.owns.detach G hown₀ rfl hok₀
      (fun j hj => by simp [D₀, update_of_ne hj]) (by simp [D₀, Dinode.emptied])
    have hset : {b | b ≠ 0 ∧ ∃ p, D.own i p = b} = owed (D.own i) (0 ≤ ·) := by grind [owed]
    rwa [hset] at hdetach
  have hlow₀ := h.low.view h.inum howns₀
  unfold itrunc
  refine wp.bind (itruncDirect_spec G hE ha (by norm_num) hlow₀ h.phase_eq fun p _ hp => ?_) ?_
  · rw [h.copy, Disk.own_direct h.type hp]
  rintro _ s₁ ⟨hkeep₁, ⟨D₁, hino₁, hblk₁, hlow₁⟩, hd₁⟩
  have hph₁ := hkeep₁.phase_eq.trans h.phase_eq
  have hown := Disk.own_direct h.type (le_refl NDIRECT)
  have hind : (s₁.itable ip).d.addrs NDIRECT = D.own i NDIRECT := by
    rw [hd₁, h.copy, hown]
    simp
  have hcopy₁ : (s₁.itable ip).d =
      { D.ino i with addrs := fun p => if p < NDIRECT then 0 else (D.ino i).addrs p } := by
    grind [h.copy]
  have hend : ∀ s₂, Keep (some ip) s s₂ →
      (s₂.itable ip).d = { D.ino i with addrs := fun _ => 0 } →
      (∃ D', D'.ino = D₁.ino ∧ D'.blk = D₁.blk ∧ Low sb leak (some ip) D' s₂) →
      wp E (do modifyDinode ip fun d => { d with size := 0 }; iupdate ip) (fun _ s' =>
        Keep (some ip) s s' ∧ (s'.itable ip).d = (D.ino i).emptied ∧
        ∃ D', D'.ino = update D.ino i (D.ino i).emptied ∧ D'.blk = D.blk ∧
          Low sb leak none D' s') s₂ := by
    rintro s₂ hkeep hd ⟨D₂, hino, hblk, hlow⟩
    simp only [wp_bind, wp_modifyDinode]
    have hinum₂ := (hkeep.inum ip).trans h.inum
    have hkeep' := hkeep.trans (Keep.copied ip fun d => { d with size := 0 })
    have hcopy : ((s₂.setCopy ip fun d => { d with size := 0 }).itable ip).d =
        (D.ino i).emptied := by
      rw [Fs.copy_setCopy, hd]
      rfl
    have hino' : D₂.ino = update D.ino i (D.ino i).emptied := hino.trans hino₁
    refine (iupdate_spec G hE (hlow.copy _) (hkeep'.phase_eq.trans h.phase_eq) ?_ ?_).mono ?_
    · rwa [Fs.inum_setCopy, hinum₂]
    · rw [hcopy, Fs.inum_setCopy, hinum₂, hino', update_self]
    · rintro _ s₃ ⟨hkeep₃, hlow₃, -⟩
      exact ⟨hkeep'.trans (hkeep₃.weaken _), (hkeep₃.copy ip (by simp)).trans hcopy, D₂, hino',
        hblk.trans hblk₁, hlow₃⟩
  simp only [wp_bind, wp_inode, hind]
  refine wp.ite (fun h0 => ?_) fun h0 => ?_
  · simp only [wp_bind]
    obtain ⟨hlo, hhi⟩ := h.low.owns.range i NDIRECT h0
    have hsame : owed (D.own i) (NDIRECT ≤ ·) =
        owed (D.own i) fun p => p = NDIRECT ∨ NDIRECT + 1 + 0 ≤ p :=
      owed_congr fun p _ => by omega
    refine (itruncIndirect_spec G hE ha hlo hhi (by norm_num) (hsame ▸ hlow₁) hph₁
      (fun k hk => ?_) fun p hp => Disk.own_far hp).mono ?_
    · grind [Busy, Low, Disk.own_entry]
    rintro _ s₂ ⟨hkeep₂, D₂, hino₂, hblk₂, hlow₂⟩
    refine (bfree_owed G hE ha (R := fun _ => False) hlow₂ (hkeep₂.phase_eq.trans hph₁) rfl h0
      fun p _ => by simp).mono ?_
    rintro _ s₃ ⟨hkeep₃, hlow₃⟩
    have hempty : leak ∪ owed (D.own i) (fun _ => False) = leak := by
      ext b
      simp [owed]
    rw [hempty] at hlow₃
    simp only [setAddr, wp_modifyDinode]
    have hkeep := hkeep₁.trans ((hkeep₂.trans hkeep₃).weaken (some ip))
    have hd₃ := (hkeep₃.copy ip (by simp)).trans (hkeep₂.copy ip (by simp))
    refine hend _ (hkeep.trans (.copied ip _)) ?_
      ⟨D₂.setBit (D.own i NDIRECT) false, hino₂, hblk₂, hlow₃.copy _⟩
    rw [Fs.copy_setCopy, hd₃, hcopy₁]
    refine Dinode.ext' rfl rfl rfl rfl rfl fun p => ?_
    by_cases hp : p = NDIRECT
    · simp [hp]
    · simp only [update_of_ne hp]
      split
      · rfl
      · exact (h.low.owns.ok i).addrs_end p (by omega)
  · rw [not_not] at h0
    have hempty : leak ∪ owed (D.own i) (NDIRECT ≤ ·) = leak := by
      ext b
      refine ⟨fun hb => hb.resolve_right ?_, .inl⟩
      rintro ⟨hb, p, hp, rfl⟩
      rcases Nat.lt_or_eq_of_le hp with hlt | rfl
      · exact absurd (Disk.own_entry_zero hlt (hown ▸ h0)) hb
      · exact absurd h0 hb
    rw [hempty] at hlow₁
    refine hend s₁ hkeep₁ ?_ ⟨D₁, rfl, rfl, hlow₁⟩
    rw [hcopy₁]
    refine Dinode.ext' rfl rfl rfl rfl rfl fun p => ?_
    simp only []
    split
    · rfl
    · by_cases hp : p = NDIRECT
      · rw [hp, ← hown, h0]
      · exact (h.low.owns.ok i).addrs_end p (by omega)

end Xv6
