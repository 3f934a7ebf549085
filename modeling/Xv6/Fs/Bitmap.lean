import Xv6.Fs.Alloc

/-!
The bitmap allocator by itself: `balloc` takes the first block whose bit is clear.

The numbers of blocks are below 2^31, so that `int` and `uint` agree. Nothing is assumed of
the layout of the disk, but the blocks of the bitmap must be marked as used in it. Otherwise
`balloc` may take one of them, and zeroes it.
-/

namespace Xv6

open Function (update update_self update_of_ne)

structure Fs.Room (s : Fs) (k : ℕ) : Prop where
  outstanding : 1 ≤ s.log.outstanding
  header : s.log.lh.length + k ≤ LOGSIZE
  size : s.log.lh.length + k + 1 ≤ s.log.size

/-- Block `a` was taken: its bit is set and it is zeroed. -/
structure Taken (s : Fs) (a : ℕ) (s' : Fs) : Prop where
  cache : s'.bio.cache = update (update s.bio.cache (s.sb.BBLOCK a)
    (setBit (s.bio.cache (s.sb.BBLOCK a)) (a % BPB))) a zeroBlock
  sb : s'.sb = s.sb
  room : s'.Room 1

variable {s s' : Fs} {b k : ℕ}

theorem Log.length_absorb_le (lh : List ℕ) (b : ℕ) : (absorb lh b).length ≤ lh.length + 1 := by
  induction lh with
  | nil => exact le_rfl
  | cons x lh ih =>
    rw [absorb]
    split_ifs
    · simp
    · exact Nat.succ_le_succ ih

theorem wp_logWrite_room {y : Block} {Q : PUnit → Fs → Prop} (h : s.Room (k + 1))
    (hQ : ∀ s' : Fs, s'.bio.cache = update s.bio.cache b y → s'.sb = s.sb → s'.Room k → Q ⟨⟩ s') :
    wp (fun _ => False) (logWrite b) Q (s.stored b y) := by
  have hout := h.outstanding
  have hheader := h.header
  have hsize := h.size
  have hlog : s.log.logWrite b = .ok { s.log with lh := Log.absorb s.log.lh b } := by
    rw [Log.logWrite, if_neg (by omega), if_neg (by omega)]
  have hlen := Log.length_absorb_le s.log.lh b
  unfold logWrite
  simp only [wp_bind, wp_emit, wp_get]
  rw [show (s.stored b y).log.logWrite b = _ from hlog, wp_set]
  refine hQ _ ?_ rfl ⟨hout, ?_, ?_⟩
  · split_ifs <;> rfl
  · show (Log.absorb s.log.lh b).length + k ≤ LOGSIZE
    omega
  · show (Log.absorb s.log.lh b).length + k + 1 ≤ s.log.size
    omega

theorem Fs.bit_update {a c : ℕ} {f : Block → ℕ → Block} {v : Bool} (hsb : s'.sb = s.sb)
    (hf : getBit (f (s.bio.cache (s.sb.BBLOCK a)) (a % BPB)) (c % BPB) =
      if a % BPB = c % BPB then v else getBit (s.bio.cache (s.sb.BBLOCK a)) (c % BPB))
    (hcache : s'.bio.cache (s.sb.BBLOCK c) =
      update s.bio.cache (s.sb.BBLOCK a) (f (s.bio.cache (s.sb.BBLOCK a)) (a % BPB))
        (s.sb.BBLOCK c)) :
    s'.bit c = if c = a then v else s.bit c := by
  rw [Fs.bit, hsb, hcache]
  by_cases hblock : s.sb.BBLOCK c = s.sb.BBLOCK a
  · have hca : c = a ↔ a % BPB = c % BPB := by
      simp only [Superblock.BBLOCK, BPB, BSIZE] at *
      omega
    rw [hblock, update_self, hf, Fs.bit, hblock]
    simp only [hca]
  · rw [update_of_ne hblock, if_neg (by rintro rfl; exact hblock rfl)]
    rfl

/-- `balloc` in an operation with room in the log returns the first block whose bit is
clear, sets this bit and no other, and zeroes this block and no other but the one with the
bit; `bfree` of it restores the bitmap. If no bit is clear, it returns 0 and changes
nothing. The blocks of the bitmap are marked as used. -/
theorem balloc_least {s : Fs} (hroom : s.Room 3) (hfull : s.full = []) (h0 : s.bit 0 = true)
    (hown : ∀ c < s.sb.size, s.sb.BBLOCK c < s.sb.size → s.bit (s.sb.BBLOCK c) = true) :
    ∃ a s', balloc.run s = .ok (a, s') ∧
      ((a = 0 ∧ (∀ c < s.sb.size, s.bit c = true) ∧ s' = s) ∨
      (0 < a ∧ a < s.sb.size ∧ s.bit a = false ∧ (∀ c < a, s.bit c = true) ∧
        s'.bio.cache a = zeroBlock ∧
        (∀ c, c ≠ a → c ≠ s.sb.BBLOCK a → s'.bio.cache c = s.bio.cache c) ∧
        (∀ c d, d < s.sb.size → s.sb.BBLOCK c = s.sb.BBLOCK d →
          s'.bit c = if c = a then true else s.bit c) ∧
        ∃ s'', (bfree a).run s' = .ok ((), s'') ∧
          ∀ c d, d < s.sb.size → s.sb.BBLOCK c = s.sb.BBLOCK d → s''.bit c = s.bit c)) := by
  have hstate : { s with full := s.full.tail } = s := by rw [hfull, List.tail_nil, ← hfull]
  have hwp : wp (fun _ => False) balloc (fun a s' =>
      (a = 0 ∧ (∀ c < s.sb.size, s.bit c = true) ∧ s' = s) ∨
      (a < s.sb.size ∧ s.bit a = false ∧ (∀ c < a, s.bit c = true) ∧ Taken s a s')) s := by
    refine balloc_wp (fun h => ?_) (fun _ hall => .inl ⟨rfl, hall, hstate⟩)
      fun a ha _ hclear hleast => ?_
    · rw [hfull] at h
      cases h
    rw [hstate]
    simp only [bzero, wp_bind, wp_store]
    refine wp_logWrite_room hroom fun s₁ hcache₁ hsb₁ hroom₁ =>
      wp_logWrite_room hroom₁ fun s₂ hcache₂ hsb₂ hroom₂ =>
      .inr ⟨ha, hclear, hleast, ?_, hsb₂.trans hsb₁, hroom₂⟩
    rw [hcache₂, hcache₁]
  obtain ⟨a, s', hrun, hres⟩ := hwp.returned fun _ => id
  refine ⟨a, s', hrun, hres.imp_right ?_⟩
  rintro ⟨hlt, hclear, hleast, htaken⟩
  have hpos : 0 < a := Nat.pos_of_ne_zero fun h => by
    rw [h, h0] at hclear
    cases hclear
  have hmap : ∀ {c d}, d < s.sb.size → s.sb.BBLOCK c = s.sb.BBLOCK d → s.sb.BBLOCK c ≠ a := by
    rintro c d hd hcd rfl
    rw [hcd, hown d hd (hcd ▸ hlt)] at hclear
    cases hclear
  have hbit : ∀ c d, d < s.sb.size → s.sb.BBLOCK c = s.sb.BBLOCK d →
      s'.bit c = if c = a then true else s.bit c := by
    intro c d hd hcd
    refine Fs.bit_update htaken.sb ?_ (by rw [htaken.cache, update_of_ne (hmap hd hcd)])
    rw [getBit_setBit _ (Nat.mod_lt _ (by decide))]
    split_ifs with h <;> simp [h]
  refine ⟨hpos, hlt, hclear, hleast, ?_, fun c hca hcb => ?_, hbit, ?_⟩
  · rw [htaken.cache, update_self]
  · rw [htaken.cache, update_of_ne hca, update_of_ne hcb]
  have hset : getBit (s'.bio.cache (s'.sb.BBLOCK a)) (a % BPB) = true := by
    have := hbit a a hlt rfl
    rwa [if_pos rfl] at this
  have hfree : wp (fun _ => False) (bfree a) (fun _ s'' =>
      ∀ c d, d < s.sb.size → s.sb.BBLOCK c = s.sb.BBLOCK d → s''.bit c = s.bit c) s' := by
    unfold bfree
    simp only [wp_bind, wp_get, wp_bread]
    rw [if_pos hset]
    simp only [wp_bind, wp_store]
    refine wp_logWrite_room htaken.room fun s'' hcache hsb _ c d hd hcd => ?_
    have hback : s''.bit c = if c = a then false else s'.bit c := by
      refine Fs.bit_update hsb ?_ (by rw [hcache])
      rw [getBit_clearBit _ (Nat.mod_lt _ (by decide))]
      split_ifs with h <;> simp [h]
    rw [hback, hbit c d hd hcd]
    split_ifs with h
    · rw [h, hclear]
    · rfl
  obtain ⟨_, s'', hrun', hback⟩ := hfree.returned fun _ => id
  exact ⟨s'', hrun', hback⟩

def tenBlocks (data : UInt8) : Fs where
  sb := ⟨10, 0, 0, 30, 2, 3, 5⟩
  bio := .boot fun b => if b = 5 then fun i => if i.val = 0 then data else 0 else zeroBlock
  log := { start := 2, size := 30, outstanding := 1, committing := false, lh := [] }
  itable _ := ⟨0, 0, 0, false, false, Dinode.zero⟩
  ftable _ := ⟨.FD_NONE, 0, false, false, 0, 0, 0⟩
  proc _ := ⟨.UNUSED, none, fun _ => none⟩
  full := []
  trace := []

theorem balloc_least_six : ∃ a s', balloc.run (tenBlocks 0x3f) = .ok (a, s') ∧ 0 < a := by
  obtain ⟨a, s', hrun, ⟨-, hall, -⟩ | ⟨hpos, -⟩⟩ := @balloc_least (tenBlocks 0x3f)
    ⟨by decide, by decide, by decide⟩ rfl (by decide +kernel) (by decide +kernel)
  · exact absurd (hall 6 (by decide)) (by decide +kernel)
  · exact ⟨a, s', hrun, hpos⟩

/-- Block 5, with the bitmap, is the first that is not in use: `balloc` takes it and clears
the bitmap. -/
theorem balloc_bitmap : (match balloc.run (tenBlocks 0x1f) with
    | .ok (a, s') => some (a, (tenBlocks 0x1f).bit 0, s'.bit 0)
    | .error _ => none) = some (5, true, false) := by
  decide +kernel

end Xv6
