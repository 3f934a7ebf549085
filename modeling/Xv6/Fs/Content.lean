import Xv6.Fs.Alloc

/-!
The content of files: `readi` delivers the bytes of an inode and changes nothing, `writei`
replaces bytes of one inode and of no other.

The content of inode `i` on the disk `D` is `D.byte i k` for `k` below its size. Where
there are no holes `bmap` only looks up. The loop of `writei` is described by what it has
done up to the offset it stops at (`Written`), which includes the bytes that a copy that
faults leaves in the buffer of the block it was to fill.
-/

namespace Xv6

open List
open Function (update update_self update_of_ne)

variable {n off : ℕ} {dst : Dst}

def Disk.byte (D : Disk) (i k : ℕ) : UInt8 :=
  (D.blk (D.own i (dataPos (k / BSIZE)))).get (k % BSIZE)

def Disk.bytes (D : Disk) (i off n : ℕ) : List UInt8 :=
  (range n).map fun k => D.byte i (off + k)

namespace Disk

variable {D : Disk} {i : ℕ}

@[simp] theorem length_bytes (D : Disk) (i off n : ℕ) : (D.bytes i off n).length = n := by
  simp [bytes]

theorem bytes_add (D : Disk) (i off m n : ℕ) :
    D.bytes i off (m + n) = D.bytes i off m ++ D.bytes i (off + m) n := by
  simp [bytes, range_add, Nat.add_assoc]

theorem bytes_congr {D' : Disk} {off n : ℕ}
    (h : ∀ k, off ≤ k → k < off + n → D'.byte i k = D.byte i k) :
    D'.bytes i off n = D.bytes i off n := by
  refine map_congr_left fun k hk => ?_
  rw [mem_range] at hk
  exact h _ (by omega) (by omega)

theorem slice_eq_bytes (D : Disk) (i : ℕ) {off m : ℕ} (h : off % BSIZE + m ≤ BSIZE) :
    (D.blk (D.own i (dataPos (off / BSIZE)))).slice (off % BSIZE) m = D.bytes i off m := by
  refine map_congr_left fun k hk => ?_
  rw [mem_range] at hk
  have hdiv : (off + k) / BSIZE = off / BSIZE := by
    norm_num at h ⊢
    omega
  have hmod : (off + k) % BSIZE = off % BSIZE + k := by
    norm_num at h ⊢
    omega
  rw [byte, hdiv, hmod]

end Disk

variable {sb : Superblock} {leak : Set ℕ} {x : Option ℕ} {D : Disk} {s : Fs}
  {E : Stop → Prop} {ip i : ℕ}

/-! ### Reading -/

structure Disk.Cached (sb : Superblock) (D : Disk) (s : Fs) : Prop where
  blk : (sb.disk s.bio.cache).blk = D.blk
  range : ∀ i p, D.own i p ≠ 0 → sb.dataStart ≤ D.own i p ∧ D.own i p < sb.size

theorem Low.cached (h : Low sb leak x D s) : D.Cached sb s := ⟨h.blk, h.owns.range⟩

theorem Disk.Cached.cache (h : D.Cached sb s) {p : ℕ} (h0 : D.own i p ≠ 0) :
    s.bio.cache (D.own i p) = D.blk (D.own i p) := by
  obtain ⟨hlo, hhi⟩ := h.range i p h0
  rw [← h.blk, Superblock.disk_blk hlo hhi]

/-- Where the inode has a block, `bmap` looks it up. -/
theorem wp_bmap_mapped (h : D.Cached sb s) (hcopy : (s.itable ip).d = D.ino i) {bn : ℕ}
    (h0 : D.own i (dataPos bn) ≠ 0) {Q : ℕ → Fs → Prop} (hQ : Q (D.own i (dataPos bn)) s) :
    wp E (bmap ip bn) Q s := by
  have ht := Disk.type_of_own h0
  unfold bmap
  by_cases hbn : bn < NDIRECT
  · have hpos : dataPos bn = bn := if_pos hbn
    rw [hpos, Disk.own_direct ht hbn.le] at h0 hQ
    rw [if_pos hbn]
    simp only [bmapAddr, wp_bind, wp_inode, hcopy]
    rwa [if_neg h0, wp_pure]
  · have hpos : dataPos bn = bn + 1 := if_neg hbn
    rw [hpos] at h0 hQ
    rw [if_neg hbn]
    have hfar : bn - NDIRECT < NINDIRECT := by
      by_contra hge
      exact h0 (Disk.own_far (by omega))
    have hne : (D.ino i).addrs NDIRECT ≠ 0 := fun hz => h0 (Disk.own_entry_zero (by omega) hz)
    have hown := Disk.own_direct ht (le_refl NDIRECT)
    have hentry := Disk.own_entry ht hne hfar
    rw [show NDIRECT + 1 + (bn - NDIRECT) = bn + 1 by omega] at hentry
    have hcache := hown ▸ h.cache (hown.symm ▸ hne)
    rw [if_pos hfar]
    simp only [bmapAddr, bmapEntry, wp_bind, wp_inode, hcopy]
    rw [if_neg hne, wp_pure, if_neg hne]
    simp only [wp_bind, wp_bread, hcache, ← hentry]
    rwa [if_neg h0, wp_pure]

/-- The loop of `readi` changes nothing, and delivers the bytes, or those before the first
that may not be written. -/
theorem readiLoop_spec (h : D.Cached sb s) (hcopy : (s.itable ip).d = D.ino i) {fuel : ℕ} {tot : ℕ}
    {acc : List UInt8} (htot : tot ≤ n) (hfuel : n - tot ≤ fuel)
    (hmap : ∀ k, off ≤ k → k < off + (n - tot) → D.own i (dataPos (k / BSIZE)) ≠ 0) :
    wp E (readiLoop ip n fuel dst tot off acc) (fun r s' => s' = s ∧
      (dst.Writable (n - tot) ∧ r = ((n : ℤ), acc ++ D.bytes i off (n - tot)) ∨
        ∃ k < n - tot, dst.Faults k ∧ r = (-1, acc ++ D.bytes i off k))) s := by
  induction fuel generalizing dst tot off acc with
  | zero =>
    obtain rfl : tot = n := by omega
    refine ⟨rfl, .inl ⟨?_, by simp [Disk.bytes]⟩⟩
    rw [Nat.sub_self]
    exact dst.writable_zero
  | succ fuel ih =>
    refine wp.ite (fun hlt => ?_) fun hge => ⟨rfl, .inl ?_⟩
    · have h0 := hmap off le_rfl (by omega)
      refine wp_bind.mpr (wp_bmap_mapped h hcopy h0 ?_)
      rw [if_neg h0]
      have hcache := h.cache h0
      obtain ⟨m, hm⟩ : ∃ m, m = min (n - tot) (BSIZE - off % BSIZE) := ⟨_, rfl⟩
      have hmod : off % BSIZE < BSIZE := Nat.mod_lt _ (by norm_num)
      simp only [wp_bind, wp_bread, hcache, ← hm]
      obtain ⟨hw, hr⟩ | ⟨k, hk, hfault, hr⟩ := eitherCopyout_copies dst m
      · rw [hr, D.slice_eq_bytes i (by omega)]
        refine (ih (by omega) (by omega) fun k hk hk' => hmap k (by omega) (by omega)).mono ?_
        have hrest : n - (tot + m) = n - tot - m := by omega
        have hadd : m + (n - tot - m) = n - tot := by omega
        rintro r s' ⟨rfl, ⟨hrw, hr⟩ | ⟨k, hk, hfault, hr⟩⟩
        · rw [hrest] at hrw hr
          rw [append_assoc, ← D.bytes_add, hadd] at hr
          exact ⟨rfl, .inl ⟨hadd ▸ (Dst.writable_add (by omega) hw).mpr hrw, hr⟩⟩
        · rw [append_assoc, ← D.bytes_add] at hr
          exact ⟨rfl, .inr ⟨m + k, by omega, hfault.add (by omega) hw, hr⟩⟩
      · rw [hr, D.slice_eq_bytes i (by omega)]
        exact ⟨rfl, .inr ⟨k, by omega, hfault, rfl⟩⟩
    · obtain rfl : tot = n := by omega
      refine ⟨?_, by simp [Disk.bytes]⟩
      rw [Nat.sub_self]
      exact dst.writable_zero

def Disk.readResult (D : Disk) (i off n : ℕ) : ℤ × List UInt8 :=
  if off > (D.ino i).size ∨ uint (off + n) < off then (0, [])
  else
    let r := min n ((D.ino i).size - off)
    (r, D.bytes i off r)

def Disk.Reads (D : Disk) (i off n : ℕ) (dst : Dst) (r : ℤ × List UInt8) : Prop :=
  if off > (D.ino i).size ∨ uint (off + n) < off then r = (0, [])
  else
    let m := min n ((D.ino i).size - off)
    dst.Writable m ∧ r = ((m : ℤ), D.bytes i off m) ∨
      ∃ k < m, dst.Faults k ∧ r = (-1, D.bytes i off k)

theorem Disk.Reads.eq {r : ℤ × List UInt8} (h : D.Reads i off n dst r)
    (hw : dst.Writable (min n ((D.ino i).size - off))) : r = D.readResult i off n := by
  rw [Disk.Reads] at h
  rw [Disk.readResult]
  split_ifs at h ⊢
  · exact h
  · obtain ⟨-, hr⟩ | ⟨k, hk, hfault, -⟩ := h
    · exact hr
    · exact absurd (hw.mono hk) hfault.2

theorem Disk.readResult_inside (hsize : off + n ≤ (D.ino i).size) (h32 : off + n < 2 ^ 32) :
    D.readResult i off n = ((n : ℤ), D.bytes i off n) := by
  have hnowrap : uint (off + n) = off + n := Nat.mod_eq_of_lt h32
  have hmin : min n ((D.ino i).size - off) = n := by omega
  rw [Disk.readResult, if_neg (by rw [hnowrap]; omega), hmin]

theorem readi_mapped (h : D.Cached sb s) (hcopy : (s.itable ip).d = D.ino i) (hoff : off < 2 ^ 32)
    (hn : n < 2 ^ 32)
    (hmap : ∀ k, off ≤ k → k < off + n → k < (D.ino i).size → D.own i (dataPos (k / BSIZE)) ≠ 0) :
    wp E (readi ip dst off n) (fun r s' => s' = s ∧ D.Reads i off n dst r) s := by
  unfold readi Disk.Reads
  simp only [wp_bind, wp_inode, hcopy]
  refine wp.ite (fun hc => ⟨rfl, by rw [if_pos hc]⟩) fun hc => ?_
  simp only [if_neg hc]
  push Not at hc
  have hnowrap : uint (off + n) = off + n := by
    have hge := hc.2
    unfold uint at hge ⊢
    omega
  have hmin : (if uint (off + n) > (D.ino i).size then (D.ino i).size - off else n) =
      min n ((D.ino i).size - off) := by
    split <;> omega
  rw [hmin]
  obtain ⟨r, hr⟩ : ∃ r, r = min n ((D.ino i).size - off) := ⟨_, rfl⟩
  rw [← hr]
  exact readiLoop_spec h hcopy (Nat.zero_le r) le_rfl fun k hlo hk =>
    hmap k hlo (by omega) (by omega)

theorem readi_spec (h : Low sb leak x D s) (hcopy : (s.itable ip).d = D.ino i)
    (ht : (D.ino i).type ≠ 0) (hoff : off < 2 ^ 32) (hn : n < 2 ^ 32) :
    wp E (readi ip dst off n) (fun r s' => s' = s ∧ D.Reads i off n dst r) s := by
  refine readi_mapped h.cached hcopy hoff hn fun k _ _ hk => ?_
  refine h.owns.hole i ht (k / BSIZE) ?_
  have := Nat.div_mul_le_self k BSIZE
  omega

/-! ### Writing -/

theorem Owns.data_ne (h : Owns sb D leak) {bn : ℕ} (h0 : D.own i (dataPos bn) ≠ 0) (j : ℕ)
    (heq : D.own j NDIRECT = D.own i (dataPos bn)) : D.own i (dataPos bn) = 0 :=
  absurd (h.inj i _ j NDIRECT h0 heq.symm).2 (dataPos_ne bn)

def Disk.blit (D : Disk) (i off : ℕ) (l : List UInt8) : Disk :=
  D.setBlk (D.own i (dataPos (off / BSIZE)))
    ((D.blk (D.own i (dataPos (off / BSIZE)))).blit (off % BSIZE) l)

theorem Owns.own_blit (h : Owns sb D leak) (h0 : D.own i (dataPos (off / BSIZE)) ≠ 0)
    (l : List UInt8) (j q : ℕ) :
    (D.blit i off l).own j q = D.own j q := Disk.own_setBlk (h.data_ne h0) _ j q

theorem Owns.grows_blit (h : Owns sb D leak) (h0 : D.own i (dataPos (off / BSIZE)) ≠ 0)
    (l : List UInt8) : D.Grows i (D.blit i off l) :=
  ⟨fun _ _ => rfl, rfl, fun j q _ => h.own_blit h0 l j q, fun j _ q => h.own_blit h0 l j q⟩

theorem Owns.byte_blit (h : Owns sb D leak) {l : List UInt8}
    (h0 : D.own i (dataPos (off / BSIZE)) ≠ 0) (hl : off % BSIZE + l.length ≤ BSIZE) (j k : ℕ) :
    (D.blit i off l).byte j k =
      if j = i ∧ off ≤ k ∧ k < off + l.length then l.getD (k - off) 0 else D.byte j k := by
  rw [Disk.byte, h.own_blit h0, Disk.byte]
  by_cases hb : D.own j (dataPos (k / BSIZE)) = D.own i (dataPos (off / BSIZE))
  · obtain ⟨rfl, hpos⟩ := h.inj i _ j _ h0 hb.symm
    have hdiv := dataPos_inj hpos
    rw [hb, Disk.blit, Disk.blk_setBlk, update_self]
    by_cases hin : off ≤ k ∧ k < off + l.length
    · grind [Bytes.get_blit_of_mem]
    · grind [Bytes.get_blit_of_notMem]
  · rw [Disk.blit, Disk.blk_setBlk, update_of_ne hb, if_neg]
    rintro ⟨rfl, hlo, hhi⟩
    refine hb (congrArg (fun bn => D.own j (dataPos bn)) ?_)
    norm_num at hl ⊢
    omega

theorem Disk.Ext.byte {D' : Disk} (h : D.Ext i D') {j k : ℕ}
    (h0 : D.own j (dataPos (k / BSIZE)) ≠ 0) : D'.byte j k = D.byte j k := by
  rw [Disk.byte, h.own j _ h0, h.blk j _ h0, Disk.byte]

/-- What the loop of `writei` has done when it stops: of the `n` bytes from `src`
on, `w` were written from `off` on, in whole chunks. The bytes `l` are all
that were copied, which are more if the last copy met a fault. -/
structure Written (sb : Superblock) (leak : Set ℕ) (ip i : ℕ) (D : Disk) (s : Fs) (src : Src)
    (off n w : ℕ) (l : List UInt8) (D' : Disk) (s' : Fs) : Prop where
  busy : Busy sb leak ip i D' s'
  frame : Frame (some ip) s s'
  grows : D.Grows i D'
  le : w ≤ l.length
  le_n : l.length ≤ n
  edge : w < n → w = 0 ∨ (off + w) % BSIZE = 0
  copied : ∀ k < l.length, src.byte k = some (l.getD k 0)
  fault : w < l.length → src.byte l.length = none ∧
    (off + l.length) / BSIZE = (off + w) / BSIZE ∧ l.length < n
  stop : w < n → src.byte l.length = none ∨ D'.own i (dataPos ((off + w) / BSIZE)) = 0
  only : ∀ q, q ≠ NDIRECT → (∀ k, off ≤ k → k ≤ off + w → q ≠ dataPos (k / BSIZE)) →
    D'.own i q = D.own i q
  mapped : ∀ k, off ≤ k → k < off + l.length → D'.own i (dataPos (k / BSIZE)) ≠ 0
  byte : ∀ j k, D.own j (dataPos (k / BSIZE)) ≠ 0 ∨ j = i ∧ off ≤ k ∧ k < off + l.length →
    D'.byte j k =
      if j = i ∧ off ≤ k ∧ k < off + l.length then l.getD (k - off) 0 else D.byte j k
  cache : ∀ b, s'.bio.cache b = s.bio.cache b ∨ b ∈ s'.log.lh ∨
    w < l.length ∧ b = D'.own i (dataPos ((off + w) / BSIZE))
  fresh : ∀ q, D.own i q = 0 → D'.own i q ≠ 0 → D'.own i q ∈ s'.log.lh
  new : ∀ bn, D.own i (dataPos bn) ≠ 0 →
    (∀ k, off ≤ k → k < off + w → k / BSIZE ≠ bn) →
    D.own i (dataPos bn) ∈ s'.log.lh → D.own i (dataPos bn) ∈ s.log.lh

section

variable {src : Src} {off n : ℕ}

theorem Written.nil (hbusy : Busy sb leak ip i D' s') (hkeep : Keep (some ip) s s')
    (hext : D.Ext i D') (hfresh : ∀ q, D.own i q = 0 → D'.own i q ≠ 0 → D'.own i q ∈ s'.log.lh)
    (hnew : ∀ q, D.own i q ≠ 0 → q ≠ NDIRECT → D.own i q ∈ s'.log.lh → D.own i q ∈ s.log.lh)
    (honly : ∀ q, q ≠ dataPos (off / BSIZE) → q ≠ NDIRECT → D'.own i q = D.own i q)
    (hstop : 0 < n → D'.own i (dataPos (off / BSIZE)) = 0) :
    Written sb leak ip i D s src off n 0 [] D' s' where
  busy := hbusy
  frame := hkeep.toFrame
  grows := hext.toGrows
  le := le_rfl
  le_n := Nat.zero_le n
  edge _ := .inl rfl
  copied k hk := by simp at hk
  fault hlt := by simp at hlt
  stop hlt := .inr (hstop hlt)
  only q hq hout := honly q (hout off le_rfl (Nat.le_add_right off 0)) hq
  mapped k hlo hhi := absurd hhi (by simp [hlo])
  byte j k hk := by
    have hout : ¬(j = i ∧ off ≤ k ∧ k < off + ([] : List UInt8).length) := by simp
    rw [if_neg hout]
    exact hext.byte (hk.resolve_right hout)
  cache b := (hkeep.cache b).imp_right .inl
  fresh := hfresh
  new bn h0 _ := hnew _ h0 (dataPos_ne bn)

theorem Mapped.written {a : ℕ} (h : Mapped sb leak ip i (dataPos (off / BSIZE)) D s a D' s')
    (h0 : a = 0) : Written sb leak ip i D s src off n 0 [] D' s' :=
  .nil h.busy h.keep h.ext h.fresh h.new h.only fun _ => h.own.trans h0

theorem Busy.written (h : Busy sb leak ip i D s) (hn : n = 0) :
    Written sb leak ip i D s src off n 0 [] D s :=
  .nil h (.refl _ s) (.refl i D) (fun _ hz hne => absurd hz hne) (fun _ _ _ hmem => hmem)
    (fun _ _ _ => rfl) fun hlt => absurd hn hlt.ne'

variable {D₁ D' : Disk} {s₁ s' : Fs} {l : List UInt8}

theorem Mapped.written_fault (G : Geometry sb)
    (h : Mapped sb leak ip i (dataPos (off / BSIZE)) D s (D₁.own i (dataPos (off / BSIZE))) D₁ s₁)
    (h0 : D₁.own i (dataPos (off / BSIZE)) ≠ 0) (hl : l.length < min n (BSIZE - off % BSIZE))
    (hcopied : ∀ k < l.length, src.byte k = some (l.getD k 0)) (hfault : src.byte l.length = none) :
    Written sb leak ip i D s src off n 0 l (D₁.blit i off l)
      (s₁.stored (D₁.own i (dataPos (off / BSIZE)))
        ((D₁.blk (D₁.own i (dataPos (off / BSIZE)))).blit (off % BSIZE) l)) := by
  have howns := h.busy.low.owns
  have hown := howns.own_blit h0 l
  obtain ⟨hlo, hhi⟩ := howns.range i _ h0
  have hdiv : ∀ k, off ≤ k → k ≤ off + l.length → k / BSIZE = off / BSIZE := by grind
  refine ⟨⟨h.busy.low.stored_blk G hlo hhi (howns.setBlk (howns.data_ne h0) _), h.busy.phase_eq,
    h.busy.inum, h.busy.copy, h.busy.type⟩,
    h.keep.toFrame.trans ⟨fun _ => rfl, fun _ _ => rfl, rfl, rfl, rfl, fun _ hb => hb, rfl⟩,
    h.ext.toGrows.trans (howns.grows_blit h0 l), Nat.zero_le _, by omega, fun _ => .inl rfl,
    hcopied,
    fun _ => ⟨hfault, hdiv _ (by omega) le_rfl, by omega⟩, fun _ => .inl hfault,
    fun q hq hout => ?_, fun k hk hk' => ?_, fun j k hk => ?_, fun b => ?_, fun q hz hne => ?_,
    fun bn hbn _ => h.new _ hbn (dataPos_ne bn)⟩
  · rw [hown]
    exact h.only q (hout off le_rfl (Nat.le_add_right off 0)) hq
  · rwa [hown, hdiv k hk (by omega)]
  · grind [howns.byte_blit, h.ext.byte]
  · by_cases hb : b = D₁.own i (dataPos (off / BSIZE))
    · by_cases hl0 : l = []
      · subst hl0
        refine (h.keep.cache b).imp (fun heq => ?_) .inl
        rw [← heq, hb]
        change update _ _ _ _ = _
        rw [update_self, ← h.busy.low.blk, Superblock.disk_blk hlo hhi]
        exact Bytes.ext_get fun k _ => Bytes.get_blit_of_notMem _ _ (by simp; omega)
      · grind
    · refine (h.keep.cache b).imp (fun heq => ?_) .inl
      rw [← heq]
      exact update_of_ne hb _ _
  · rw [hown] at hne ⊢
    exact h.fresh q hz hne

theorem Mapped.written_chunk {l₀ : List UInt8} {w : ℕ}
    (h : Mapped sb leak ip i (dataPos (off / BSIZE)) D s (D₁.own i (dataPos (off / BSIZE))) D₁ s₁)
    (h0 : D₁.own i (dataPos (off / BSIZE)) ≠ 0) (hl₀ : l₀.length = min n (BSIZE - off % BSIZE))
    (hpos : 0 < n) (hcopied : ∀ k < l₀.length, src.byte k = some (l₀.getD k 0))
    (hrest : Written sb leak ip i (D₁.blit i off l₀)
      (s₁.logged (D₁.own i (dataPos (off / BSIZE)))
        ((D₁.blk (D₁.own i (dataPos (off / BSIZE)))).blit (off % BSIZE) l₀))
      (src.advance l₀.length) (off + l₀.length) (n - l₀.length) w l D' s') :
    Written sb leak ip i D s src off n (l₀.length + w) (l₀ ++ l) D' s' := by
  have hmod : off % BSIZE < BSIZE := Nat.mod_lt _ (by norm_num)
  have howns := h.busy.low.owns
  have hown := howns.own_blit h0 l₀
  have hbyte := howns.byte_blit h0 (l := l₀) (by omega)
  have hlh : ∀ b ∈ s₁.log.lh, b ∈ s'.log.lh := fun b hb =>
    hrest.frame.lh b (Log.mem_absorb.mpr (.inl hb))
  have hblk := hrest.frame.lh _ (Log.mem_absorb.mpr (.inr rfl))
  have hdiv : ∀ k, off ≤ k → k < off + l₀.length → k / BSIZE = off / BSIZE := by grind
  have hadv : ∀ k, (src.advance l₀.length).byte k = src.byte (l₀.length + k) :=
    Src.byte_advance (by omega) (by rw [hcopied _ (by omega)]; simp)
  have hle := hrest.le
  have hle_n := hrest.le_n
  refine ⟨hrest.busy, (h.keep.trans ((Keep.logged h.busy.phase_eq _).weaken _)).toFrame.trans
    hrest.frame, (h.ext.toGrows.trans (howns.grows_blit h0 l₀)).trans hrest.grows, ?_, ?_,
    fun hlt => ?_, fun k hk => ?_, fun hlt => ?_, fun hlt => ?_, fun q hq hout => ?_,
    fun k hk hk' => ?_, fun j k hk => ?_, fun b => ?_, fun q hz hne => ?_,
    fun bn hbn hout hmem => ?_⟩
  all_goals try simp only [length_append] at *
  · omega
  · omega
  · -- a write that goes on after this chunk goes on at the next block
    have hedge : (off + l₀.length) % BSIZE = 0 := by
      norm_num at hl₀ hmod ⊢
      omega
    rcases hrest.edge (by omega) with rfl | hw
    · exact .inr hedge
    · exact .inr (by rwa [Nat.add_assoc] at hw)
  · by_cases hkm : k < l₀.length
    · rw [hcopied k hkm, getD_append _ _ _ _ (by omega)]
    · have hk' := hrest.copied (k - l₀.length) (by omega)
      rw [hadv, show l₀.length + (k - l₀.length) = k by omega] at hk'
      rw [hk', getD_append_right _ _ _ _ (by omega)]
  · grind [hrest.fault]
  · grind [hrest.stop]
  · grind [hrest.only, h.only]
  · grind [hrest.grows.own_ne_zero, hrest.mapped]
  · by_cases hlater : j = i ∧ off + l₀.length ≤ k ∧ k < off + l₀.length + l.length
    · rw [hrest.byte j k (.inr hlater), if_pos hlater, if_pos (by omega),
        getD_append_right _ _ _ _ (by omega), Nat.sub_sub]
    · have hown₁ : D₁.own j (dataPos (k / BSIZE)) ≠ 0 := by
        by_cases hnow : j = i ∧ off ≤ k ∧ k < off + l₀.length
        · rwa [hnow.1, hdiv k hnow.2.1 hnow.2.2]
        · exact h.ext.own_ne_zero (hk.resolve_right (by omega))
      rw [hrest.byte j k (.inl (by rwa [hown])), if_neg hlater, hbyte]
      by_cases hnow : j = i ∧ off ≤ k ∧ k < off + l₀.length
      · rw [if_pos hnow, if_pos (by omega), getD_append _ _ _ _ (by omega)]
      · rw [if_neg hnow, if_neg (by omega), h.ext.byte (hk.resolve_right (by omega))]
  · rcases hrest.cache b with heq | hmem | ⟨hlt, hb⟩
    · by_cases hb : b = D₁.own i (dataPos (off / BSIZE))
      · exact .inr (.inl (hb ▸ hblk))
      · rw [Fs.cache_logged, update_of_ne hb] at heq
        rw [heq]
        exact (h.keep.cache b).imp_right fun hmem => .inl (hlh b hmem)
    · exact .inr (.inl hmem)
    · rw [Nat.add_assoc] at hb
      exact .inr (.inr ⟨by omega, hb⟩)
  · grind [hrest.fresh, hrest.grows.own, h.fresh]
  · have hbn₁ := h.ext.own i _ hbn
    have hmem₁ := hrest.new bn (by rwa [hown, hbn₁]) (fun k hk hk' => hout k (by omega) (by omega))
      (by rwa [hown, hbn₁])
    rw [hown, hbn₁] at hmem₁
    rcases Log.mem_absorb.mp hmem₁ with hmem₁ | heq
    · exact h.new _ hbn (dataPos_ne bn) hmem₁
    · rw [← hbn₁] at heq
      have hpos := (howns.inj i _ i _ (by rwa [hbn₁]) heq).2
      exact absurd (dataPos_inj hpos).symm (hout off le_rfl (by omega))

theorem Busy.logged_blit (G : Geometry sb) (h : Busy sb leak ip i D s)
    (h0 : D.own i (dataPos (off / BSIZE)) ≠ 0) (hroom : s.log.lh.length + 1 < sb.nlog)
    (l : List UInt8) :
    Busy sb leak ip i (D.blit i off l) (s.logged (D.own i (dataPos (off / BSIZE)))
      ((D.blk (D.own i (dataPos (off / BSIZE)))).blit (off % BSIZE) l)) := by
  obtain ⟨hlo, hhi⟩ := h.low.owns.range i _ h0
  exact ⟨h.low.logged_blk G h.phase_eq hlo hhi hroom (h.low.owns.setBlk (h.low.owns.data_ne h0) _),
    by simp [h.phase_eq, phaseStep], h.inum, h.copy, h.type⟩

theorem writeiLoop_spec (G : Geometry sb) (hE : AdmitsLog E) (h : Busy sb leak ip i D s)
    {fuel tot : ℕ} (htot : tot ≤ n) (hfuel : n - tot ≤ fuel)
    (hmax : off + (n - tot) ≤ MAXFILE * BSIZE ∨ E (.panic .bmapOutOfRange)) :
    wp E (writeiLoop ip n fuel src tot off) (fun r s' => ∃ w l D', r = (tot + w, off + w) ∧
      Written sb leak ip i D s src off (n - tot) w l D' s') s := by
  induction fuel generalizing D s src tot off with
  | zero => exact ⟨0, [], D, rfl, h.written (by omega)⟩
  | succ fuel ih =>
    refine wp.ite (fun hlt => ?_) fun hge => ⟨0, [], D, rfl, h.written (by omega)⟩
    · have hbn : off / BSIZE < MAXFILE ∨ E (.panic .bmapOutOfRange) :=
        hmax.imp_left fun hle => Nat.div_lt_of_lt_mul (by rw [Nat.mul_comm]; omega)
      refine wp.bind (bmap_spec G hE h hbn) ?_
      rintro a s₁ ⟨D₁, h₁⟩
      refine wp.ite (fun h0 => ⟨0, [], D₁, rfl, h₁.written h0⟩) fun h0 => ?_
      obtain rfl := h₁.own
      obtain ⟨hlo, hhi⟩ := h₁.busy.low.owns.range i _ h0
      have hcache : s₁.bio.cache (D₁.own i (dataPos (off / BSIZE))) =
          D₁.blk (D₁.own i (dataPos (off / BSIZE))) := by
        rw [← h₁.busy.low.blk, Superblock.disk_blk hlo hhi]
      have hcopy := eitherCopyin_copied src (min (n - tot) (BSIZE - off % BSIZE))
      obtain ⟨⟨ok, l₀⟩, hr⟩ : ∃ r, r = eitherCopyin src (min (n - tot) (BSIZE - off % BSIZE)) :=
        ⟨_, rfl⟩
      rw [← hr] at hcopy
      simp only [wp_bind, ← hr, wp_store, hcache]
      refine wp.ite (fun hok => ?_) fun hfail => ?_
      · have hl₀ := hcopy.done hok
        have hmod : off % BSIZE < BSIZE := Nat.mod_lt _ (by norm_num)
        rw [← hl₀, wp_bind]
        refine wp_logWrite hE h₁.busy.low.log fun hroom => ?_
        refine (ih (h₁.busy.logged_blit G h0 hroom l₀) (by omega) (by omega)
          (hmax.imp_left fun _ => by omega)).mono ?_
        rintro r s' ⟨w, l, D', rfl, hw⟩
        rw [show n - (tot + l₀.length) = n - tot - l₀.length by omega] at hw
        exact ⟨l₀.length + w, l₀ ++ l, D', by simp only [Nat.add_assoc],
          h₁.written_chunk h0 hl₀ (by omega) hcopy.bytes hw⟩
      · obtain ⟨hl, hnone⟩ := hcopy.fault (by simpa using hfail)
        exact ⟨0, l₀, _, rfl, h₁.written_fault G h0 hl hcopy.bytes hnone⟩

end

def Disk.setSize (D : Disk) (i n : ℕ) : Disk := D.setIno i { D.ino i with size := n }

namespace Disk

@[simp] theorem own_setSize (D : Disk) (i n j q : ℕ) : (D.setSize i n).own j q = D.own j q :=
  own_setIno_addrs (d := { D.ino i with size := n }) Iff.rfl rfl j q

@[simp] theorem byte_setSize (D : Disk) (i n j k : ℕ) : (D.setSize i n).byte j k = D.byte j k := by
  rw [byte, own_setSize]
  rfl

@[simp] theorem ino_setSize (D : Disk) (i n : ℕ) :
    (D.setSize i n).ino i = { D.ino i with size := n } := update_self _ _ _

theorem ino_setSize_ne (D : Disk) {j : ℕ} (h : j ≠ i) (n : ℕ) :
    (D.setSize i n).ino j = D.ino j := update_of_ne h _ _

end Disk

theorem Owns.setSize (h : Owns sb D leak) (hn : n < 2 ^ 32)
    (hmap : ∀ bn, bn * BSIZE < n → D.own i (dataPos bn) ≠ 0) : Owns sb (D.setSize i n) leak := by
  refine h.congr (D.own_setSize i n) rfl (fun j => ?_) fun j ht bn hbn => ?_
  · by_cases hj : j = i
    · subst hj
      rw [Disk.ino_setSize]
      exact { h.ok j with size := hn }
    · rw [D.ino_setSize_ne hj]
      exact h.ok j
  · rw [Disk.own_setSize]
    by_cases hj : j = i
    · subst hj
      rw [Disk.ino_setSize] at hbn
      exact hmap bn hbn
    · rw [D.ino_setSize_ne hj] at ht hbn
      exact h.hole j ht bn hbn

def Disk.writeRejected (D : Disk) (i off n : ℕ) : Prop :=
  off > (D.ino i).size ∨ uint (off + n) < off ∨ uint (off + n) > MAXFILE * BSIZE

/-- What `writei` leaves of a range it accepts: after the loop it has updated
the size. -/
structure Wrote (sb : Superblock) (leak : Set ℕ) (ip i : ℕ) (D : Disk) (s : Fs) (src : Src)
    (off n w : ℕ) (l : List UInt8) (D' : Disk) (s₁ s' : Fs) : Prop where
  written : Written sb leak ip i D s src off n w l D' s₁
  low : Low sb leak none (D'.setSize i (max (D.ino i).size (off + w))) s'
  keep : Keep (some ip) s₁ s'
  copy : (s'.itable ip).d = { D'.ino i with size := max (D.ino i).size (off + w) }
  lh : ∀ b ∈ s'.log.lh, b ∈ s₁.log.lh ∨ b = sb.IBLOCK i

theorem writei_spec (G : Geometry sb) (hE : AdmitsLog E) (h : Busy sb leak ip i D s)
    (hi : i < sb.ninodes) {src : Src} (hoff : off < 2 ^ 32) (hn : n < 2 ^ 32) :
    wp E (writei ip src off n) (fun r s' =>
      D.writeRejected i off n ∧ r = -1 ∧ s' = s ∨
      ¬D.writeRejected i off n ∧ ∃ (w : ℕ) (l : List UInt8) (D' : Disk) (s₁ : Fs), r = w ∧
        Wrote sb leak ip i D s src off n w l D' s₁ s') s := by
  unfold writei
  simp only [wp_bind, wp_inode, h.copy]
  refine wp.ite (fun hc => .inl ⟨by unfold Disk.writeRejected; tauto, rfl, rfl⟩) fun hc => ?_
  refine wp.ite (fun hc' => .inl ⟨.inr (.inr hc'), rfl, rfl⟩) fun hc' => ?_
  have hacc : ¬D.writeRejected i off n := by
    unfold Disk.writeRejected
    tauto
  push Not at hc
  have hnowrap : uint (off + n) = off + n := by
    have hge := hc.2
    unfold uint at hge ⊢
    omega
  refine wp.bind (writeiLoop_spec G hE h (Nat.zero_le n) le_rfl (.inl (by omega))) ?_
  rintro r s₁ ⟨w, l, D', rfl, hw⟩
  have hle := hw.le
  have hle_n := hw.le_n
  simp only [wp_bind, wp_modifyDinode, Nat.zero_add]
  have hsize : (if off + w > (s₁.itable ip).d.size then off + w else (s₁.itable ip).d.size) =
      max (D.ino i).size (off + w) := by
    rw [hw.busy.copy, hw.grows.size]
    split <;> omega
  have hmax : max (D.ino i).size (off + w) < 2 ^ 32 := by
    have := (h.low.owns.ok i).size
    norm_num at hc' ⊢
    omega
  have howns : Owns sb (D'.setSize i (max (D.ino i).size (off + w))) leak := by
    refine hw.busy.low.owns.setSize hmax fun bn hbn => ?_
    by_cases hlt : bn * BSIZE < (D.ino i).size
    · exact hw.grows.own_ne_zero (h.low.owns.hole i h.type bn hlt)
    · have hmap := hw.mapped (bn * BSIZE) (by omega) (by omega)
      rwa [Nat.mul_div_cancel _ (by norm_num)] at hmap
  have hcopy : ((s₁.setCopy ip fun d =>
      { d with size := if off + w > d.size then off + w else d.size }).itable ip).d =
      { D'.ino i with size := max (D.ino i).size (off + w) } := by
    rw [Fs.copy_setCopy, hsize, hw.busy.copy]
  refine (iupdate_spec G hE ((hw.busy.low.view hw.busy.inum howns).copy _) hw.busy.phase_eq
    ?_ ?_).mono ?_
  · rwa [Fs.inum_setCopy, hw.busy.inum]
  · rw [hcopy, Fs.inum_setCopy, hw.busy.inum]
    exact (Disk.ino_setSize D' i _).symm
  · rintro _ s' ⟨hkeep, hlow, hlh⟩
    refine .inr ⟨hacc, w, l, D', s₁, rfl, hw, hlow, (Keep.copied ip _).trans (hkeep.weaken _),
      (hkeep.copy ip (by simp)).trans hcopy, ?_⟩
    rwa [Fs.inum_setCopy, hw.busy.inum] at hlh

end Xv6
