import Xv6.Fs.Refine

/-!
A `writei` whose source has unmapped pages.

The copy of a chunk stops at the first byte that is not there. The bytes before it are in
the buffer by then; `writei` does not count them and does not log the block. Whether that
shows is said by `Harmless`, a condition on the state before the call, and it is exact.
-/

namespace Xv6

open List

/-- The first of the `n` bytes from `src` on that is not there. -/
def Src.firstFault (src : Src) (n : ℕ) : Option ℕ :=
  (range n).find? fun k => (src.byte k).isNone

/-- The number of bytes before the chunk of `writei` that holds byte `f`. -/
def chunkStart (off f : ℕ) : ℕ := max off ((off + f) / BSIZE * BSIZE) - off

/-- How many of the blocks from `a` to before `b` inode `i` lacks. -/
def Disk.lacking (D : Disk) (i a b : ℕ) : ℕ :=
  ((Finset.Ico a b).filter fun bn => D.own i (dataPos bn) = 0).card

def Disk.clear (D : Disk) (sb : Superblock) : ℕ :=
  ((Finset.range sb.size).filter fun b => D.bit b = false).card

def CanAlloc (sb : Superblock) (full : List Bool) (D : Disk) (m : ℕ) : Prop :=
  (∀ k < m, full.getD k false = false) ∧ m ≤ D.clear sb

variable {sb : Superblock} {leak : Set ℕ} {D D' : Disk} {s s' : Fs} {E : Stop → Prop}
  {ip i : ℕ} {src : Src} {off n f : ℕ}

theorem Src.firstFault_eq_some :
    src.firstFault n = some f ↔ f < n ∧ src.byte f = none ∧ ∀ k < f, src.byte k ≠ none := by
  simp only [firstFault, find?_range_eq_some, mem_range, Option.isNone_iff_eq_none,
    Bool.not_eq_true', Option.isNone_eq_false_iff, Option.isSome_iff_ne_none]
  tauto

/-! ### Reaching the chunk -/

theorem Disk.lacking_congr (h : ∀ bn, D'.own i (dataPos bn) = D.own i (dataPos bn)) (a b : ℕ) :
    D'.lacking i a b = D.lacking i a b := by
  simp only [lacking, h]

theorem Disk.lacking_cons (D : Disk) (i : ℕ) {a b : ℕ} (h : a < b) :
    D.lacking i a b = D.lacking i (a + 1) b + if D.own i (dataPos a) = 0 then 1 else 0 := by
  rw [lacking, lacking, ← Finset.insert_Ico_add_one_left_eq_Ico h, Finset.filter_insert]
  split
  · rw [Finset.card_insert_of_notMem (by simp)]
  · rfl

theorem Disk.clear_update {a : ℕ} (ha : a < sb.size) (hclear : D.bit a = false)
    (hbit : D'.bit = Function.update D.bit a true) : D.clear sb = D'.clear sb + 1 := by
  have hset : (Finset.range sb.size).filter (fun b => D'.bit b = false) =
      ((Finset.range sb.size).filter fun b => D.bit b = false).erase a := by grind [congrFun hbit]
  rw [Disk.clear, Disk.clear, hset, Finset.card_erase_add_one]
  simp [ha, hclear]

theorem headD_eq_getD (l : List Bool) : l.headD false = l.getD 0 false := by cases l <;> rfl

theorem getD_tail (l : List Bool) (k : ℕ) : l.tail.getD k false = l.getD (k + 1) false := by
  cases l <;> rfl

theorem CanAlloc.succ {full : List Bool} {a m : ℕ} (hhead : full.headD false = false)
    (ha : a < sb.size) (hclear : D.bit a = false) (hbit : D'.bit = Function.update D.bit a true) :
    CanAlloc sb full D (m + 1) ↔ CanAlloc sb full.tail D' m := by
  rw [CanAlloc, CanAlloc, Disk.clear_update ha hclear hbit, Nat.add_le_add_iff_right]
  simp only [getD_tail]
  rw [headD_eq_getD] at hhead
  refine and_congr_left fun _ => ⟨fun h k hk => h (k + 1) (by omega), fun h k hk => ?_⟩
  cases k with
  | zero => exact hhead
  | succ k => exact h k (by omega)

theorem CanAlloc.not_succ {full : List Bool} {m : ℕ}
    (h : full.headD false = false → ∀ c < sb.size, D.bit c = true) :
    ¬CanAlloc sb full D (m + 1) := by
  rintro ⟨hfull, hclear⟩
  have hhead := hfull 0 (by omega)
  rw [← headD_eq_getD] at hhead
  have hnone : D.clear sb = 0 := by grind [Disk.clear, Finset.filter_eq_empty_iff]
  omega

theorem Disk.indirect_of_own {a b : ℕ} (hab : a ≤ b) (h : D.own i (dataPos b) ≠ 0) :
    dataPos a ≤ NDIRECT ∨ D.own i NDIRECT ≠ 0 := by
  by_contra hnot
  push Not at hnot
  have hpos : NDIRECT < dataPos b := by grind [dataPos]
  have ht := Disk.type_of_own h
  exact h (Disk.own_entry_zero hpos ((Disk.own_direct ht le_rfl).symm.trans hnot.2))

/-- The loop of `writei` gets to the chunk of the first missing byte `f`, which
has its block, exactly if the blocks lacking before it can be allocated. -/
theorem writeiLoop_reaches (G : Geometry sb) (hE : AdmitsLog E) (hmax : E (.panic .bmapOutOfRange))
    (h : Busy sb leak ip i D s) {fuel tot : ℕ} (hf : f < n - tot) (hfuel : n - tot ≤ fuel)
    (hpres : ∀ k < f, src.byte k ≠ none) (hown : D.own i (dataPos ((off + f) / BSIZE)) ≠ 0) :
    wp E (writeiLoop ip n fuel src tot off) (fun r _ => tot + chunkStart off f ≤ r.1 ↔
      CanAlloc sb s.full D (D.lacking i (off / BSIZE) ((off + f) / BSIZE))) s := by
  induction fuel generalizing D s src tot off f with
  | zero => omega
  | succ fuel ih =>
    by_cases hfirst : off / BSIZE = (off + f) / BSIZE
    · -- no chunk before it
      refine (writeiLoop_spec G hE h (by omega) hfuel (.inr hmax)).mono ?_
      rintro r _ ⟨w, l, D', rfl, -⟩
      have hzero : chunkStart off f = 0 := by grind [chunkStart]
      rw [hfirst, Disk.lacking, Finset.Ico_self]
      simp [CanAlloc, hzero]
    have hlt := lt_of_le_of_ne (Nat.div_le_div_right (by omega)) hfirst
    obtain ⟨m, hm⟩ : ∃ m, m = BSIZE - off % BSIZE := ⟨_, rfl⟩
    have hmod : off % BSIZE < BSIZE := Nat.mod_lt _ (by norm_num)
    have hmf : m ≤ f := by
      norm_num at hlt hm hmod ⊢
      omega
    have hnext : (off + m) / BSIZE = off / BSIZE + 1 := by
      norm_num at hm hmod ⊢
      omega
    have hstart : chunkStart off f = m + chunkStart (off + m) (f - m) := by grind [chunkStart]
    unfold writeiLoop
    refine wp.ite (fun _ => ?_) fun hge => absurd (by omega) hge
    refine wp.bind (bmap_spec G hE h (.inr hmax)) ?_
    rintro a s₁ ⟨D₁, h₁⟩
    have hsup := h₁.supplied (Disk.indirect_of_own hlt.le hown)
    refine wp.ite (fun h0 => ?_) fun h0 => ?_
    · have hz : D.own i (dataPos (off / BSIZE)) = 0 := by
        by_contra hne
        exact (hsup.old hne).1 h0
      rw [D.lacking_cons i hlt, if_pos hz, wp_pure]
      refine iff_of_false ?_ (CanAlloc.not_succ (hsup.none hz h0))
      rw [hstart]
      simp only
      omega
    · obtain rfl := h₁.own
      obtain ⟨hlo, hhi⟩ := h₁.busy.low.owns.range i _ h0
      have hcache : s₁.bio.cache (D₁.own i (dataPos (off / BSIZE))) =
          D₁.blk (D₁.own i (dataPos (off / BSIZE))) := by
        rw [← h₁.busy.low.blk, Superblock.disk_blk hlo hhi]
      have hmin : min (n - tot) (BSIZE - off % BSIZE) = m := by omega
      have hcopy := eitherCopyin_copied src m
      obtain ⟨⟨ok, l₀⟩, hr⟩ : ∃ r, r = eitherCopyin src m := ⟨_, rfl⟩
      rw [← hr] at hcopy
      simp only [wp_bind, hmin, ← hr, wp_store, hcache]
      refine wp.ite (fun hok => ?_) fun hfail => ?_
      · rw [wp_bind]
        refine wp_logWrite hE h₁.busy.low.log fun hroom => ?_
        have hbusy := h₁.busy.logged_blit G h0 hroom l₀
        have hown₂ := h₁.busy.low.owns.own_blit h0 l₀
        have hadv : ∀ k, (src.advance m).byte k = src.byte (m + k) :=
          Src.byte_advance (by omega) (hpres _ (by omega))
        have hsum : off + m + (f - m) = off + f := by omega
        refine (ih (f := f - m) hbusy (by omega) (by omega) (fun k hk => ?_) ?_).mono ?_
        · rw [hadv]
          exact hpres _ (by omega)
        · rw [hsum, hown₂]
          exact h₁.ext.own_ne_zero hown
        · intro r _ hiff
          rw [hsum, hnext, Disk.lacking_congr fun bn => hown₂ i _] at hiff
          rw [hstart, ← Nat.add_assoc, hiff, D.lacking_cons i hlt]
          change CanAlloc sb s₁.full D₁ _ ↔ _
          by_cases hz : D.own i (dataPos (off / BSIZE)) = 0
          · obtain ⟨hhead, hsize, hclear, hbit, hsame⟩ := hsup.some hz h0
            rw [if_pos hz, CanAlloc.succ hhead hsize hclear hbit, hsup.full hz]
            have hlack : D₁.lacking i (off / BSIZE + 1) ((off + f) / BSIZE) =
                D.lacking i (off / BSIZE + 1) ((off + f) / BSIZE) := by
              refine congrArg Finset.card (Finset.filter_congr fun bn hbn => ?_)
              rw [hsame]
              intro heq
              have := dataPos_inj heq
              rw [Finset.mem_Ico] at hbn
              omega
            rw [hlack]
          · obtain ⟨-, rfl, rfl⟩ := hsup.old hz
            rw [if_neg hz]
            exact Iff.rfl
      · grind [Copied]

theorem writei_loop {r : ℤ} (hrun : (writei ip src off n).run s = .ok (r, s')) (hr : r ≠ -1) :
    ∃ tot off' s₁, (writeiLoop ip n n src 0 off).run s = .ok ((tot, off'), s₁) ∧ r = tot := by
  have hwp : wp (fun _ => True) (writei ip src off n) (fun r _ => r ≠ -1 → ∃ tot off' s₁,
      (writeiLoop ip n n src 0 off).run s = .ok ((tot, off'), s₁) ∧ r = tot) s := by
    unfold writei
    refine wp.ite (fun _ hne => absurd rfl hne) fun _ => wp.ite (fun _ hne => absurd rfl hne)
      fun _ => ?_
    rw [wp_bind, wp_true]
    rintro ⟨tot, off'⟩ s₁ hloop
    simp only [wp_bind, wp_modifyDinode]
    rw [wp_true]
    exact fun _ _ _ _ => ⟨tot, off', s₁, hloop, rfl⟩
  exact hwp.ok hrun hr

theorem writei_reaches (h : Held sb ip s) (hph : phase s.trace = some true)
    (hi : (s.itable ip).inum = i) (hf : src.firstFault n = some f)
    (hown : s.view.own i (dataPos ((off + f) / BSIZE)) ≠ 0) {w : ℕ}
    (hrun : (writei ip src off n).run s = .ok ((w : ℤ), s')) :
    chunkStart off f ≤ w ↔
      CanAlloc sb s.full s.view (s.view.lacking i (off / BSIZE) ((off + f) / BSIZE)) := by
  subst hi
  obtain ⟨tot, off', s₁, hloop, htot⟩ := writei_loop hrun (by omega)
  obtain rfl : w = tot := by exact_mod_cast htot
  obtain ⟨hlt, -, hpres⟩ := Src.firstFault_eq_some.mp hf
  have hwp := writeiLoop_reaches (E := fun _ => True) h.geometry (fun _ _ => trivial) trivial
    (h.busy hph) (show f < n - 0 from hlt) le_rfl hpres hown
  simpa using hwp.ok hloop

/-! ### What a short write leaves -/

/-- The bytes that the faulting chunk had copied change nothing: its block is
not there yet, or the call does not get to it, or the bytes equal those in
the file. Past the end of the file they may differ if the block is already
in the log. -/
def Harmless (sb : Superblock) (s : Fs) (i : ℕ) (src : Src) (off n : ℕ) : Prop :=
  s.view.writeRejected i off n ∨ ∀ f, src.firstFault n = some f →
    s.view.own i (dataPos ((off + f) / BSIZE)) ≠ 0 →
    CanAlloc sb s.full s.view (s.view.lacking i (off / BSIZE) ((off + f) / BSIZE)) →
    ∀ k, chunkStart off f ≤ k → k < f →
      off + k < (s.view.ino i).size ∨
        s.view.own i (dataPos ((off + f) / BSIZE)) ∉ s.log.lh →
      src.byte k = some (s.view.byte i (off + k))

/-- After a `writei` that returned `r`, the file is the old one with the `r`
bytes from `off` on replaced (none for -1), and every buffer is logged or as
before. -/
structure LeavesRest (s s' : Fs) (ip i : ℕ) (src : Src) (off : ℕ) (r : ℤ) : Prop where
  size : (s'.view.ino i).size =
    if r = -1 then (s.view.ino i).size else max (s.view.ino i).size (off + r.toNat)
  read : ∃ bs : List UInt8, bs.length = r.toNat ∧
    (∀ k < bs.length, src.byte k = some (bs.getD k 0)) ∧
    (readi ip .kernel 0 (s'.view.ino i).size).run s' =
      .ok (((s'.view.ino i).size, splice (s.view.content i) off bs), s')
  buffers : ∀ b, b ∈ s'.log.lh ∨ s'.bio.cache b = s.bio.cache b

theorem Low.readi_whole {x : Option ℕ} (h : Low sb leak x D s) (hcopy : (s.itable ip).d = D.ino i)
    (ht : (D.ino i).type ≠ 0) :
    (readi ip .kernel 0 (D.ino i).size).run s = .ok (((D.ino i).size, D.content i), s) := by
  have hsize := (h.owns.ok i).size
  have hspec := (readi_spec h hcopy ht (by norm_num) hsize :
    wp (fun _ => False) (readi ip .kernel 0 (D.ino i).size) _ s)
  cases hrun : (readi ip .kernel 0 (D.ino i).size).run s with
  | error e => exact (hspec.error hrun).elim
  | ok p =>
    obtain ⟨heq, hr⟩ := hspec.ok hrun
    rw [show p = (p.1, p.2) from rfl, hr.eq trivial, heq, Disk.readResult, if_neg (by simp)]
    simp [Disk.content]

theorem chunkStart_of_edge {w : ℕ} (hedge : w = 0 ∨ (off + w) % BSIZE = 0)
    (hdiv : (off + f) / BSIZE = (off + w) / BSIZE) : chunkStart off f = w := by
  unfold chunkStart
  norm_num at hedge hdiv ⊢
  omega

theorem div_of_chunkStart_le {w : ℕ} (hc : chunkStart off f ≤ w) (hle : w ≤ f) :
    (off + f) / BSIZE = (off + w) / BSIZE := by
  unfold chunkStart at hc
  norm_num at hc ⊢
  omega

section

variable {w : ℕ} {l : List UInt8} {s₁ : Fs}

theorem Written.firstFault (h : Written sb leak ip i D s src off n w l D' s') (hlt : w < l.length) :
    src.firstFault n = some l.length := by
  obtain ⟨hnone, -, hlen⟩ := h.fault hlt
  exact Src.firstFault_eq_some.mpr ⟨hlen, hnone, fun k hk => by simp [h.copied k hk]⟩

theorem Written.length_of_reached (h : Written sb leak ip i D s src off n w l D' s')
    (hf : src.firstFault n = some f) (hown : D.own i (dataPos ((off + f) / BSIZE)) ≠ 0)
    (hc : chunkStart off f ≤ w) : l.length = f ∧ chunkStart off f = w := by
  obtain ⟨hlt, hnone, hpres⟩ := Src.firstFault_eq_some.mp hf
  have hle := h.le
  have hlf : l.length ≤ f := by grind [h.copied]
  have hdiv := div_of_chunkStart_le hc (hle.trans hlf)
  refine ⟨le_antisymm hlf ?_, chunkStart_of_edge (h.edge (by omega)) hdiv⟩
  by_contra hgt
  rcases h.stop (by omega) with hstop | hstop
  · exact hpres _ (by omega) hstop
  · rw [← hdiv] at hstop
    exact h.grows.own_ne_zero hown hstop

theorem Low.get_cache {x : Option ℕ} (h : Low sb leak x D s) {k : ℕ}
    (h0 : D.own i (dataPos (k / BSIZE)) ≠ 0) :
    (s.bio.cache (D.own i (dataPos (k / BSIZE)))).get (k % BSIZE) = D.byte i k := by
  obtain ⟨hlo, hhi⟩ := h.owns.range i _ h0
  rw [Disk.byte, ← h.blk, Superblock.disk_blk hlo hhi]

theorem Wrote.mem_lh (h : Wrote sb leak ip i D s src off n w l D' s₁ s') (G : Geometry sb)
    (hi : i < sb.ninodes) (h₀ : Owns sb D leak) {bn : ℕ} (h0 : D.own i (dataPos bn) ≠ 0)
    (hout : ∀ k, off ≤ k → k < off + w → k / BSIZE ≠ bn)
    (hmem : D.own i (dataPos bn) ∈ s'.log.lh) : D.own i (dataPos bn) ∈ s.log.lh := by
  rcases h.lh _ hmem with hmem | heq
  · exact h.written.new bn h0 hout hmem
  · grind [Owns, G.IBLOCK_lt_dataStart]

theorem Wrote.readi_whole (h : Wrote sb leak ip i D s src off n w l D' s₁ s')
    (ht : (D.ino i).type ≠ 0) : (readi ip .kernel 0 (s'.view.ino i).size).run s' =
      .ok (((s'.view.ino i).size, s'.view.content i), s') := by
  rw [h.view_eq]
  refine h.low.readi_whole (h.copy.trans (Disk.ino_setSize D' i _).symm) ?_
  rw [Disk.ino_setSize]
  change (D'.ino i).type ≠ 0
  rwa [h.written.grows.type]

theorem Wrote.get_cache (h : Wrote sb leak ip i D s src off n w l D' s₁ s') {k : ℕ}
    (h0 : D.own i (dataPos (k / BSIZE)) ≠ 0) :
    (s'.bio.cache (D.own i (dataPos (k / BSIZE)))).get (k % BSIZE) = D'.byte i k := by
  have hown := h.written.grows.own i _ h0
  have hget := h.low.get_cache (i := i) (k := k) (by rwa [Disk.own_setSize, hown])
  rwa [Disk.own_setSize, hown, Disk.byte_setSize] at hget

theorem Wrote.leavesRest (h : Wrote sb leak ip i s.view s src off n w l D' s₁ s')
    (h₀ : Owns sb s.view leak) (hoff : off ≤ (s.view.ino i).size) (ht : (s.view.ino i).type ≠ 0)
    (hjunk : ∀ k, w ≤ k → k < l.length → off + k < (s.view.ino i).size →
      l.getD k 0 = s.view.byte i (off + k))
    (hbuf : w < l.length → D'.own i (dataPos ((off + w) / BSIZE)) ∉ s'.log.lh →
      s'.bio.cache (D'.own i (dataPos ((off + w) / BSIZE))) =
        s.bio.cache (D'.own i (dataPos ((off + w) / BSIZE)))) : LeavesRest s s' ip i src off w := by
  have hle := h.written.le
  have hlen : (l.take w).length = w := by simp [hle]
  have hcontent := h.content h₀ hoff ht fun k hk hk' hlt => by
    have := hjunk (k - off) (by omega) (by omega) (by omega)
    rwa [show off + (k - off) = k by omega] at this
  refine ⟨by rw [h.size, if_neg (by omega)]; simp, ⟨l.take w, by simp [hlen], fun k hk => ?_, ?_⟩,
    fun b => ?_⟩
  · grind [h.written.copied]
  · rw [← hcontent]
    exact h.readi_whole ht
  · grind [h.keep.cache, h.written.cache, h.keep.lh]

end

/-- A `writei` that fails or is short leaves the rest of the file and the
unlogged buffers alone exactly if the bytes copied before the fault are
harmless. -/
theorem short_writei_leaves_rest_iff (h : Held sb ip s) (hi : (s.itable ip).inum = i)
    (hph : phase s.trace = some true) (hoff : off < 2 ^ 32) (hn : n < 2 ^ 32) {r : ℤ}
    (hrun : (writei ip src off n).run s = .ok (r, s')) (hshort : r = -1 ∨ 0 ≤ r ∧ r < n) :
    LeavesRest s s' ip i src off r ↔ Harmless sb s i src off n := by
  subst hi
  have ht := h.copy ▸ h.type
  obtain ⟨hrej, rfl, rfl⟩ | ⟨hacc, w, l, D', s₁, rfl, hw⟩ := h.writei_wrote hph hoff hn hrun
  · refine iff_of_true ⟨by simp, ⟨[], rfl, by simp, ?_⟩, fun b => .inr rfl⟩ (.inl hrej)
    rw [splice_nil]
    exact h.low.readi_whole h.copy ht
  have howns := h.low.owns
  have hsize : off ≤ (s.view.ino (s.itable ip).inum).size := by grind [Disk.writeRejected]
  have hwn : w < n := by omega
  constructor
  · intro hrest
    refine .inr fun f hf hown hcan k hk hkf hor => ?_
    have hc := (writei_reaches h hph rfl hf hown hrun).mpr hcan
    have hdiv := div_of_chunkStart_le hk hkf.le
    obtain ⟨rfl, rfl⟩ := hw.written.length_of_reached hf hown hc
    rw [hdiv] at hown hor
    have hbyte := hw.written.byte _ (off + k) (.inl hown)
    rw [if_pos ⟨rfl, by omega, by omega⟩, Nat.add_sub_cancel_left] at hbyte
    rw [hw.written.copied k hkf, ← hbyte]
    congr 1
    rcases hor with hlt | hnot
    · obtain ⟨bs, hbs, -, hread⟩ := hrest.read
      rw [hw.readi_whole ht, Except.ok.injEq, Prod.mk.injEq, Prod.mk.injEq] at hread
      have hget := congrArg (fun c => c.getD (off + k) 0) hread.1.2
      rw [getD_splice (by simpa using hsize), if_neg (by simp at hbs; omega),
        Disk.getD_content _ _ hlt, Disk.getD_content _ _ (by rw [hw.size]; omega), hw.view_eq,
        Disk.byte_setSize] at hget
      exact hget
    · rcases hrest.buffers (s.view.own _ (dataPos ((off + k) / BSIZE))) with hmem | heq
      · refine absurd (hw.mem_lh h.geometry h.inum howns hown (fun k' hlo hhi => ?_) hmem) hnot
        rw [← hdiv]
        unfold chunkStart at hhi
        norm_num at hhi ⊢
        omega
      · rw [← hw.get_cache hown, heq, h.low.get_cache hown]
  · intro hharm
    have hharm := hharm.resolve_left hacc
    have hfault : ∀ hlt : w < l.length, (off + l.length) / BSIZE = (off + w) / BSIZE ∧
        chunkStart off l.length = w := fun hlt =>
      have hdiv := (hw.written.fault hlt).2.1
      ⟨hdiv, chunkStart_of_edge (hw.written.edge hwn) hdiv⟩
    -- the copied bytes of a block that was there equal those in the file
    have hsame : ∀ k, w ≤ k → k < l.length →
        s.view.own (s.itable ip).inum (dataPos ((off + k) / BSIZE)) ≠ 0 →
        (off + k < (s.view.ino (s.itable ip).inum).size ∨
          s.view.own (s.itable ip).inum (dataPos ((off + k) / BSIZE)) ∉ s.log.lh) →
        l.getD k 0 = s.view.byte (s.itable ip).inum (off + k) := by
      intro k hk hkl hown hor
      obtain ⟨hdiv, hc⟩ := hfault (by omega)
      have hk' := div_of_chunkStart_le (f := l.length) (hc.le.trans hk) hkl.le
      rw [← hk'] at hown hor
      have hff := hw.written.firstFault (by omega)
      have hcan := (writei_reaches h hph rfl hff hown hrun).mp hc.le
      have := hharm _ hff hown hcan k (hc.le.trans hk) hkl hor
      rw [hw.written.copied k hkl] at this
      exact Option.some.inj this
    refine hw.leavesRest howns hsize ht (fun k hk hkl hlt => ?_) fun hlt hnot => ?_
    · exact hsame k hk hkl (howns.hole _ ht _ ((Nat.div_mul_le_self _ BSIZE).trans_lt hlt))
        (.inl hlt)
    · by_cases h0 : s.view.own (s.itable ip).inum (dataPos ((off + w) / BSIZE)) = 0
      · have hne := hw.written.mapped (off + w) (by omega) (by omega)
        exact absurd (hw.keep.lh _ (hw.written.fresh _ h0 hne)) hnot
      · have hown' := hw.written.grows.own _ _ h0
        rw [hown'] at hnot ⊢
        have hnot' := fun hmem => hnot (hw.keep.lh _ (hw.written.frame.lh _ hmem))
        refine Bytes.ext_get fun t ht' => ?_
        obtain ⟨k, hk⟩ : ∃ k, k = (off + w) / BSIZE * BSIZE + t := ⟨_, rfl⟩
        have hdiv : k / BSIZE = (off + w) / BSIZE := by
          norm_num at hk ht' ⊢
          omega
        have hmod : k % BSIZE = t := by
          norm_num at hk ht' ⊢
          omega
        rw [← hdiv] at h0 hnot' ⊢
        rw [← hmod, hw.get_cache h0, h.low.get_cache h0, hw.written.byte _ k (.inl h0)]
        split
        · have hedge : off + w ≤ k := by
            have := hw.written.edge hwn
            norm_num at this hdiv
            omega
          have := hsame (k - off) (by omega) (by omega)
          rw [show off + (k - off) = k by omega] at this
          exact this h0 (.inr hnot')
        · rfl

def onePage : UserMem := fun va => if va = 0 then some ⟨fun _ => 66, true⟩ else none

theorem short_writei_leaves_rest_unmapped :
    Held mkfsSuperblock 0 (fileImage.fs mkfsSuperblock 2) ∧
    ∃ s', (writei 0 (.user onePage 4096) 0 20).run (fileImage.fs mkfsSuperblock 2) =
        .ok (0, s') ∧
      LeavesRest (fileImage.fs mkfsSuperblock 2) s' 0 2 (.user onePage 4096) 0 0 := by
  have hheld := fileImage_ok.held mkfsSuperblock_geometry (i := 2) (by decide)
  obtain ⟨r, s', hrun, hr⟩ := exists_of_returns (f := writei 0 (.user onePage 4096) 0 20)
    (p := fun r _ => decide (r = 0)) (s := fileImage.fs mkfsSuperblock 2) (by decide +kernel)
  obtain rfl := of_decide_eq_true hr
  refine ⟨hheld, s', hrun, (short_writei_leaves_rest_iff hheld rfl rfl (by norm_num) (by norm_num)
    hrun (by decide)).mpr (.inr fun f hf _ _ k _ hk => ?_)⟩
  have hzero : (Src.user onePage 4096).firstFault 20 = some 0 := by decide
  rw [hzero, Option.some.injEq] at hf
  omega

/-- Twenty bytes, of which the first ten are there, written over a file of 100
bytes: the call returns 0, the next read finds the ten bytes, and their
buffer is not in the log. -/
theorem short_writei_shows :
    Held mkfsSuperblock 0 (fileImage.fs mkfsSuperblock 2) ∧
    ∃ s', (writei 0 (.user onePage 4086) 0 20).run (fileImage.fs mkfsSuperblock 2) =
        .ok (0, s') ∧
      (∃ out s'', (readi 0 .kernel 0 100).run s' = .ok (out, s'') ∧
        out.2 = replicate 10 66 ++ replicate 90 65) ∧
      ¬LeavesRest (fileImage.fs mkfsSuperblock 2) s' 0 2 (.user onePage 4086) 0 0 := by
  refine ⟨fileImage_ok.held mkfsSuperblock_geometry (by decide), ?_⟩
  obtain ⟨r, s', hrun, hr⟩ := exists_of_returns (f := writei 0 (.user onePage 4086) 0 20)
    (p := fun r s' => decide (r = 0 ∧ 47 ∉ s'.log.lh ∧ (s'.bio.cache 47).get 0 = 66) &&
      returns (readi 0 .kernel 0 100)
        (fun out _ => decide (out.2 = replicate 10 66 ++ replicate 90 65)) s')
    (s := fileImage.fs mkfsSuperblock 2) (by decide +kernel)
  rw [Bool.and_eq_true, decide_eq_true_eq] at hr
  obtain ⟨⟨rfl, hmem, hbyte⟩, hread⟩ := hr
  obtain ⟨out, s'', hout, heq⟩ := exists_of_returns hread
  refine ⟨s', hrun, ⟨out, s'', hout, of_decide_eq_true heq⟩, fun hrest => ?_⟩
  rcases hrest.buffers 47 with hin | heq
  · exact hmem hin
  · rw [heq] at hbyte
    revert hbyte
    decide +kernel

end Xv6
