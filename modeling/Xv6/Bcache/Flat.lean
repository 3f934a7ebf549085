import Xv6.Bcache.Refs

/-!
The buffer cache is a flat array of blocks.

A process that has read a block of the one device sees what was stored there
last, as long as no buffer is released with data that is neither written nor
pinned. What is on the disk is old for blocks with a dirty buffer only, and such
a buffer is not recycled.
-/

namespace Xv6.Bcache

open List
open Sys
open Function (update update_self update_of_ne update_eq_self)

variable {N : ℕ}
variable {s : Sys N}

/-- No buffer is released with data that is neither written nor pinned. -/
def WriteBack (s : Sys N) : Act N → Prop
  | .brelse _ k => s.dirty k = true → 0 < s.pins k
  | _ => True

def OneDevice (dev : ℕ) : Act N → Prop
  | .bread _ d _ => d = dev
  | _ => True

instance (s : Sys N) : (a : Act N) → Decidable (WriteBack s a)
  | .brelse _ _ => inferInstanceAs (Decidable (_ → _))
  | .bread .. | .store .. | .bwrite .. | .bpin .. | .bunpin .. | .step _ => .isTrue trivial

instance (dev : ℕ) : (a : Act N) → Decidable (OneDevice dev a)
  | .bread .. => inferInstanceAs (Decidable (_ = _))
  | .store .. | .bwrite .. | .brelse .. | .bpin .. | .bunpin .. | .step _ => .isTrue trivial

/-- What a process in `bread` knows: it reads from the device, and once the
disk is done the data is there. -/
def Reading (dev : ℕ) (s : Sys N) : Pc → Prop
  | .acquire d _ _ => d = dev
  | .fill d _ _ => d = dev
  | .filled d b k => d = dev ∧ (s.buf k).data = s.flat b
  | _ => True

/-- Buffers with valid data have the data stored last, and so does the disk
where no buffer is dirty. -/
structure Flat (dev : ℕ) (s : Sys N) : Prop where
  reading : ∀ p, Reading dev s (s.pc p)
  locked : ∀ k p, (s.buf k).lock = some p → (s.buf k).valid = true ∨
    ∃ d b, (s.pc p).reads = some (d, b, k)
  valid : ∀ k, (s.buf k).valid = true →
    k < NBUF ∧ (s.buf k).dev = dev ∧ (s.buf k).data = s.flat (s.buf k).blockno
  dirty : ∀ k, s.dirty k = true →
    (s.buf k).valid = true ∧ ((s.buf k).lock ≠ none ∨ 0 < s.pins k)
  clean : ∀ b, (∀ k, k < NBUF → (s.buf k).dev = dev → (s.buf k).blockno = b →
    s.dirty k = false) → s.disk b = s.flat b

namespace Flat

variable {dev : ℕ} {s s' : Sys N} {p : Fin N} {k : ℕ} {c : Pc} {x : Buf N}

variable (h : Flat dev s)
include h

theorem valid_of_locked (hpc : s.pc p = .idle)
    (hlock : (s.buf k).lock = some p) : (s.buf k).valid = true := by
  rcases h.locked k p hlock with hvalid | ⟨d, b, hreads⟩
  · exact hvalid
  · rw [hpc] at hreads
    cases hreads

theorem change (hbuf : s'.buf = update s.buf k x) (hpc : s'.pc = update s.pc p c)
    (hflat : s'.flat = s.flat) (hdisk : s'.disk = s.disk) (hdirty : s'.dirty = s.dirty)
    (hpins : ∀ j, j ≠ k → s'.pins j = s.pins j)
    (hx : x.dev = (s.buf k).dev ∧ x.blockno = (s.buf k).blockno ∧ x.data = (s.buf k).data ∧
      x.valid = (s.buf k).valid) (hc : Reading dev s c)
    (hlock : ∀ q, x.lock = some q → (s.buf k).lock = some q ∨
      q = p ∧ ∃ d b, c.reads = some (d, b, k)) (hreads : ∀ d b j, (s.pc p).reads = some (d, b, j) →
      c.reads = some (d, b, j) ∨ (s.buf j).valid = true)
    (hkeep : s.dirty k = true → x.lock ≠ none ∨ 0 < s'.pins k) : Flat dev s' := by
  have hdev' : ∀ j, (s'.buf j).dev = (s.buf j).dev := fun j => by
    rw [hbuf]
    exact update_proj Buf.dev hx.1
  have hblockno' : ∀ j, (s'.buf j).blockno = (s.buf j).blockno := fun j => by
    rw [hbuf]
    exact update_proj Buf.blockno hx.2.1
  have hdata' : ∀ j, (s'.buf j).data = (s.buf j).data := fun j => by
    rw [hbuf]
    exact update_proj Buf.data hx.2.2.1
  have hvalid' : ∀ j, (s'.buf j).valid = (s.buf j).valid := fun j => by
    rw [hbuf]
    exact update_proj Buf.valid hx.2.2.2
  have hreading : ∀ c, Reading dev s c → Reading dev s' c := by
    intro c hc
    cases c with
    | filled d b j => exact ⟨hc.1, by rw [hdata', hflat, hc.2]⟩
    | _ => exact hc
  refine ⟨fun q => ?_, fun j q hq => ?_, fun j hj => ?_, fun j hj => ?_, fun b hb => ?_⟩
  · grind [congrFun hpc, h.reading]
  · -- either the lock was taken just now, or its holder had it before
    have hold : (s.buf j).lock = some q ∨ j = k ∧ q = p ∧ ∃ d b, c.reads = some (d, b, k) := by
      grind [congrFun hbuf]
    rw [hvalid', hpc]
    rcases hold with hold | ⟨rfl, rfl, d, b, hcr⟩
    · grind [h.locked]
    · rw [update_self]
      exact .inr ⟨d, b, hcr⟩
  · grind [Flat]
  · grind [congrFun hbuf, h.dirty]
  · simp only [hdev', hblockno', hdirty] at hb
    rw [hdisk, hflat]
    exact h.clean b hb

theorem reading_of_ne {q : Fin N} (hn : Named s) (hbuf : ∀ j, j ≠ k → s'.buf j = s.buf j)
    (hflat : s'.flat = s.flat) (hlock : (s.buf k).lock ≠ some q) : Reading dev s' (s.pc q) := by
  have hreading := h.reading q
  have hfits := hn.fits q
  cases hq : s.pc q with
  | filled d b j =>
    rw [hq] at hreading hfits
    have hj : j ≠ k := fun heq => hlock (heq ▸ hfits.2.2.2)
    exact ⟨hreading.1, by rw [hbuf j hj, hflat, hreading.2]⟩
  | _ =>
    rw [hq] at hreading
    exact hreading

theorem recycle {b : ℕ} (hn : Named s) (hidle : s.pc p = .idle)
    (hlock : (s.buf k).lock = none) (hpins : s.pins k = 0) :
    Flat dev (((s.setBuf k
      { s.buf k with dev := dev, blockno := b, valid := false, refcnt := 1 }).setDirty k
        false).goto p (.acquire dev b k)) := by
  set s' := ((s.setBuf k
      { s.buf k with dev := dev, blockno := b, valid := false, refcnt := 1 }).setDirty k
        false).goto p (.acquire dev b k) with hs'
  have hself : s'.buf k = { s.buf k with dev := dev, blockno := b, valid := false, refcnt := 1 } :=
    update_self ..
  have hother : ∀ j, j ≠ k → s'.buf j = s.buf j := fun j hj => update_of_ne hj ..
  have hdirty : ∀ j, j ≠ k → s'.dirty j = s.dirty j := fun j hj => update_of_ne hj ..
  have hclean : s.dirty k = false := by grind [Flat]
  refine ⟨fun q => ?_, fun j q hq => ?_, fun j hj => ?_, fun j hj => ?_, fun b' hb' => ?_⟩
  · by_cases hqp : q = p
    · rw [show s'.pc q = .acquire dev b k from hqp ▸ update_self ..]
      exact rfl
    · rw [show s'.pc q = s.pc q from update_of_ne hqp ..]
      exact h.reading_of_ne hn hother rfl (by rw [hlock]; nofun)
  · have hj : j ≠ k := by
      rintro rfl
      rw [hself] at hq
      exact nomatch hlock.symm.trans hq
    rw [hother j hj] at hq ⊢
    rcases eq_or_ne q p with rfl | hqp
    · exact .inl (h.valid_of_locked hidle hq)
    · rw [show s'.pc q = s.pc q from update_of_ne hqp ..]
      exact h.locked j q hq
  · have hne : j ≠ k := by
      rintro rfl
      rw [hself] at hj
      cases hj
    rw [hother j hne] at hj ⊢
    exact h.valid j hj
  · have hne : j ≠ k := by
      rintro rfl
      rw [show s'.dirty j = false from update_self ..] at hj
      cases hj
    rw [hdirty j hne] at hj
    rw [hother j hne]
    exact h.dirty j hj
  · -- the recycled buffer was not dirty
    refine h.clean b' fun j hj hdev hblockno => ?_
    by_cases hne : j = k
    · rw [hne, hclean]
    · grind

theorem fill {b : ℕ} (hn : Named s) (hdev : dev ≠ 0)
    (hpc : s.pc p = .fill dev b k) (hvalid : (s.buf k).valid = false) :
    Flat dev ((s.setBuf k { s.buf k with data := s.disk (s.buf k).blockno }).goto p
      (.filled dev b k)) := by
  obtain ⟨hlt, hkdev, hkb, hlock⟩ : Fits s p (.fill dev b k) := hpc ▸ hn.fits p
  set s' := (s.setBuf k { s.buf k with data := s.disk (s.buf k).blockno }).goto p
    (.filled dev b k) with hs'
  have hself : s'.buf k = { s.buf k with data := s.disk (s.buf k).blockno } :=
    update_self ..
  have hother : ∀ j, j ≠ k → s'.buf j = s.buf j := fun j hj => update_of_ne hj ..
  have hlock' : ∀ j, (s'.buf j).lock = (s.buf j).lock := fun j => update_proj Buf.lock rfl
  have hvalid' : ∀ j, (s'.buf j).valid = (s.buf j).valid := fun j => update_proj Buf.valid rfl
  have hdev' : ∀ j, (s'.buf j).dev = (s.buf j).dev := fun j => update_proj Buf.dev rfl
  have hblockno' : ∀ j, (s'.buf j).blockno = (s.buf j).blockno :=
    fun j => update_proj Buf.blockno rfl
  refine ⟨fun q => ?_, fun j q hq => ?_, fun j hj => ?_, fun j hj => ?_, fun b' hb' => ?_⟩
  · by_cases hqp : q = p
    · rw [show s'.pc q = .filled dev b k from hqp ▸ update_self ..]
      refine ⟨rfl, ?_⟩
      -- no buffer of the block is dirty: this is the only one
      have hdisk : s.disk b = s.flat b := by grind [h.clean, hn.uniq, h.dirty]
      rw [hself]
      show s.disk (s.buf k).blockno = s.flat b
      rw [hkb, hdisk]
    · rw [show s'.pc q = s.pc q from update_of_ne hqp ..]
      refine h.reading_of_ne hn hother rfl fun hq => hqp ?_
      exact Option.some.inj (hq.symm.trans hlock)
  · rw [hlock'] at hq
    rw [hvalid']
    refine (h.locked j q hq).imp_right fun ⟨d, b', hr⟩ => ?_
    by_cases hqp : q = p
    · rw [hqp, hpc] at hr
      rw [show s'.pc q = .filled dev b k from hqp ▸ update_self ..]
      exact ⟨d, b', hr⟩
    · rw [show s'.pc q = s.pc q from update_of_ne hqp ..]
      exact ⟨d, b', hr⟩
  · rw [hvalid'] at hj
    have hne : j ≠ k := by grind
    rw [hother j hne]
    exact h.valid j hj
  · rw [hvalid', hlock']
    exact h.dirty j hj
  · simp only [hdev', hblockno'] at hb'
    exact h.clean b' hb'

theorem filled {b : ℕ} (hn : Named s) (hpc : s.pc p = .filled dev b k) :
    Flat dev ((s.setBuf k { s.buf k with valid := true }).goto p .idle) := by
  obtain ⟨hlt, hkdev, hkb, hlock⟩ : Fits s p (.filled dev b k) := hpc ▸ hn.fits p
  have hread := hpc ▸ h.reading p
  set s' := (s.setBuf k { s.buf k with valid := true }).goto p .idle with hs'
  have hself : s'.buf k = { s.buf k with valid := true } := update_self ..
  have hother : ∀ j, j ≠ k → s'.buf j = s.buf j := fun j hj => update_of_ne hj ..
  have hlock' : ∀ j, (s'.buf j).lock = (s.buf j).lock := fun j => update_proj Buf.lock rfl
  have hdev' : ∀ j, (s'.buf j).dev = (s.buf j).dev := fun j => update_proj Buf.dev rfl
  have hblockno' : ∀ j, (s'.buf j).blockno = (s.buf j).blockno :=
    fun j => update_proj Buf.blockno rfl
  refine ⟨fun q => ?_, fun j q hq => ?_, fun j hj => ?_, fun j hj => ?_, fun b' hb' => ?_⟩
  · by_cases hqp : q = p
    · rw [show s'.pc q = .idle from hqp ▸ update_self ..]
      trivial
    · rw [show s'.pc q = s.pc q from update_of_ne hqp ..]
      refine h.reading_of_ne hn hother rfl fun hq => hqp ?_
      exact Option.some.inj (hq.symm.trans hlock)
  · by_cases hne : j = k
    · rw [hne, hself]
      exact .inl rfl
    · rw [hlock'] at hq
      rw [hother j hne]
      rcases h.locked j q hq with hv | ⟨d, b', hr⟩
      · exact .inl hv
      · by_cases hqp : q = p
        · rw [hqp, hpc] at hr
          cases hr
          exact absurd rfl hne
        · rw [show s'.pc q = s.pc q from update_of_ne hqp ..]
          exact .inr ⟨d, b', hr⟩
  · by_cases hne : j = k
    · rw [hne, hself]
      exact ⟨hlt, hkdev, hkb.symm ▸ hread.2⟩
    · rw [hother j hne] at hj ⊢
      exact h.valid j hj
  · refine ⟨?_, by rw [hlock']; exact (h.dirty j hj).2⟩
    by_cases hne : j = k
    · rw [hne, hself]
    · rw [hother j hne]
      exact (h.dirty j hj).1
  · simp only [hdev', hblockno'] at hb'
    exact h.clean b' hb'

theorem store {d : Block} (hn : Named s) (hdev : dev ≠ 0)
    (hidle : s.pc p = .idle) (hlock : (s.buf k).lock = some p) :
    Flat dev { (s.setBuf k { s.buf k with data := d }).setDirty k true with
      flat := update s.flat (s.buf k).blockno d } := by
  have hvalid := h.valid_of_locked hidle hlock
  obtain ⟨hlt, hkdev, -⟩ := h.valid k hvalid
  set s' : Sys N := { (s.setBuf k { s.buf k with data := d }).setDirty k true with
      flat := update s.flat (s.buf k).blockno d } with hs'
  have hself : s'.buf k = { s.buf k with data := d } := update_self ..
  have hother : ∀ j, j ≠ k → s'.buf j = s.buf j := fun j hj => update_of_ne hj ..
  have hlock' : ∀ j, (s'.buf j).lock = (s.buf j).lock := fun j => update_proj Buf.lock rfl
  have hvalid' : ∀ j, (s'.buf j).valid = (s.buf j).valid := fun j => update_proj Buf.valid rfl
  have hdev' : ∀ j, (s'.buf j).dev = (s.buf j).dev := fun j => update_proj Buf.dev rfl
  have hblockno' : ∀ j, (s'.buf j).blockno = (s.buf j).blockno :=
    fun j => update_proj Buf.blockno rfl
  -- the other buffers are for other blocks
  have hflat : ∀ j, j < NBUF → (s.buf j).dev = dev → j ≠ k →
      s'.flat (s.buf j).blockno = s.flat (s.buf j).blockno := fun j hj hjdev hne =>
    update_of_ne (fun hb => hne (hn.uniq j k hj hlt (by rw [hjdev]; exact hdev)
      (by rw [hjdev, hkdev]) hb)) ..
  refine ⟨fun q => ?_, fun j q hq => ?_, fun j hj => ?_, fun j hj => ?_, fun b' hb' => ?_⟩
  · have hreading := h.reading q
    have hfits := hn.fits q
    show Reading dev s' (s.pc q)
    cases hq : s.pc q with
    | filled e b j =>
      rw [hq] at hreading hfits
      obtain ⟨hjlt, hjdev, hjb, hjlock⟩ := hfits
      have hne : j ≠ k := by grind
      refine ⟨hreading.1, ?_⟩
      rw [hother j hne, ← hjb, hflat j hjlt (hjdev.trans hreading.1) hne, hreading.2, hjb]
    | _ =>
      rw [hq] at hreading
      exact hreading
  · rw [hlock'] at hq
    rw [hvalid']
    exact h.locked j q hq
  · grind [h.valid]
  · rw [hvalid', hlock']
    by_cases hne : j = k
    · rw [hne, hlock]
      exact ⟨hvalid, .inl nofun⟩
    · rw [show s'.dirty j = s.dirty j from update_of_ne hne ..] at hj
      exact h.dirty j hj
  · have hne : b' ≠ (s.buf k).blockno := by
      rintro rfl
      have hd := hb' k hlt (by rw [hdev', hkdev]) (hblockno' k)
      rw [show s'.dirty k = true from update_self ..] at hd
      cases hd
    rw [show s'.flat b' = s.flat b' from update_of_ne hne ..]
    refine h.clean b' fun j hj hjdev hjb => ?_
    have hjk : j ≠ k := fun heq => hne (by rw [← heq, hjb])
    rw [← show s'.dirty j = s.dirty j from update_of_ne hjk ..]
    exact hb' j hj (by rw [hdev', hjdev]) (by rw [hblockno', hjb])

theorem bwrite (hidle : s.pc p = .idle) (hlock : (s.buf k).lock = some p) :
    Flat dev { s.setDirty k false with
      disk := update s.disk (s.buf k).blockno (s.buf k).data } := by
  obtain ⟨-, -, hdata⟩ := h.valid k (h.valid_of_locked hidle hlock)
  have hdirty : ∀ j, j ≠ k → update s.dirty k false j = s.dirty j :=
    fun j hj => update_of_ne hj ..
  refine ⟨fun q => ?_, h.locked, h.valid, fun j hj => ?_, fun b hb => ?_⟩
  · have hreading := h.reading q
    show Reading dev _ (s.pc q)
    cases hq : s.pc q with
    | _ =>
      rw [hq] at hreading
      exact hreading
  · have hne : j ≠ k := by
      rintro rfl
      have hfalse : update s.dirty j false j = false := update_self ..
      exact nomatch hfalse.symm.trans hj
    exact h.dirty j ((hdirty j hne).symm.trans hj)
  · show update s.disk (s.buf k).blockno (s.buf k).data b = s.flat b
    by_cases hkb : b = (s.buf k).blockno
    · rw [hkb, update_self, hdata]
    · rw [update_of_ne hkb]
      refine h.clean b fun j hj hjdev hjb => ?_
      rw [← hdirty j fun heq => hkb (by rw [← heq, hjb])]
      exact hb j hj hjdev hjb

theorem step {a : Act N} (hcache : Cache s) (hdev : dev ≠ 0) (hok : Contract s a)
    (hwrite : WriteBack s a) (hone : OneDevice dev a) (hs : Step s a s') : Flat dev s' := by
  obtain ⟨L, hL⟩ := hcache.list
  have hreading {p : Fin N} {c : Pc} (hpc : s.pc p = c) : Reading dev s c := hpc ▸ h.reading p
  have hpins (k : ℕ) : s.dirty k = true → (s.buf k).lock ≠ none ∨ 0 < s.pins k :=
    fun hd => (h.dirty k hd).2
  have hnone {p : Fin N} {c c' : Pc} (hpc : s.pc p = c) (hc : c.reads = none) : ∀ d b j,
      (s.pc p).reads = some (d, b, j) → c'.reads = some (d, b, j) ∨ (s.buf j).valid = true := by
    grind
  cases hs with
  | @hit p d b k hpc hk =>
    exact h.change rfl rfl rfl rfl rfl (fun _ _ => rfl) ⟨rfl, rfl, rfl, rfl⟩ hone
      (fun _ => .inl) (hnone hpc rfl) (hpins k)
  | @recycle p d b k hpc _ hk =>
    obtain ⟨hlt, hzero, -⟩ := hL.of_lru hk
    obtain ⟨-, hlock, hp⟩ := hcache.count.unused hlt hzero
    obtain rfl : d = dev := hone
    exact h.recycle hcache.named hpc hlock hp
  | @acquire p d b k hpc hlock =>
    exact h.change rfl rfl rfl rfl rfl (fun _ _ => rfl) ⟨rfl, rfl, rfl, rfl⟩
      (show d = dev from hreading hpc)
      (fun q hq => .inr ⟨(Option.some.inj hq).symm, d, b, rfl⟩) (hnone hpc rfl)
      fun _ => .inl nofun
  | @cached p d b k hpc hvalid =>
    refine h.change (update_eq_self k s.buf).symm rfl rfl rfl rfl (fun _ _ => rfl)
      ⟨rfl, rfl, rfl, rfl⟩ trivial (fun _ => .inl) (fun d' b' j hr => .inr ?_) (hpins k)
    rw [hpc] at hr
    cases hr
    exact hvalid
  | @fill p d b k hpc hvalid =>
    obtain rfl : d = dev := hreading hpc
    exact h.fill hcache.named hdev hpc hvalid
  | @filled p d b k hpc =>
    obtain rfl : d = dev := (hreading hpc).1
    exact h.filled hcache.named hpc
  | @release p k hpc =>
    rw [release_eq]
    exact h.change rfl rfl rfl rfl rfl (fun _ _ => rfl) ⟨rfl, rfl, rfl, rfl⟩ trivial
      (fun _ => .inl) (hnone hpc rfl) (hpins k)
  | store hpc => exact h.store hcache.named hdev hpc hok
  | bwrite hpc hlock => exact h.bwrite hpc hlock
  | @brelse p k hpc hlock =>
    exact h.change rfl rfl rfl rfl rfl (fun _ _ => rfl) ⟨rfl, rfl, rfl, rfl⟩ trivial
      (fun q hq => nomatch hq) (hnone hpc rfl) fun hd => .inr (hwrite hd)
  | @bpin p k hpc =>
    refine h.change rfl (update_eq_self p s.pc).symm rfl rfl rfl
      (fun _ hj => update_of_ne hj ..) ⟨rfl, rfl, rfl, rfl⟩ (h.reading p)
      (fun _ => .inl) (fun _ _ _ => .inl) fun _ => .inr ?_
    simp [setPins]
  | @bunpin p k hpc =>
    rw [unref_eq]
    refine h.change rfl (update_eq_self p s.pc).symm rfl rfl rfl
      (fun _ hj => update_of_ne hj ..) ⟨rfl, rfl, rfl, rfl⟩ (h.reading p)
      (fun _ => .inl) (fun _ _ _ => .inl) fun _ => .inl ?_
    rw [hok.1]
    nofun

end Flat

/-! ### The cache as a flat array -/

structure Init (s : Sys N) : Prop where
  links : s.links = binit NBUF
  buf : ∀ k, (s.buf k).valid = false ∧ (s.buf k).dev = 0 ∧ (s.buf k).refcnt = 0 ∧
    (s.buf k).lock = none
  pc : ∀ p, s.pc p = .idle
  flat : s.flat = s.disk
  dirty : ∀ k, s.dirty k = false
  pins : ∀ k, s.pins k = 0
  drop : ∀ k, s.drop k = 0
  clock : s.clock = 1

theorem ring_binit (n : ℕ) (hn : n ≤ NBUF) :
    Ring (binit n).1 (binit n).2 head (range n).reverse := by
  induction n with
  | zero => exact ⟨by simp, rfl, rfl⟩
  | succ n ih =>
    rw [range_succ, reverse_append]
    refine (ih (by omega)).pushFront fun hmem => ?_
    rcases mem_cons.mp hmem with hhead | hmem
    · exact absurd hhead (Nat.lt_of_succ_le hn).ne
    · simp at hmem

theorem Init.cache (h : Init s) : Cache s := by
  refine ⟨⟨(range NBUF).reverse, ?_, fun k => by simp, ?_, fun k => ?_⟩, fun k _ => ?_,
    fun k k' _ _ hne => ?_, fun p => ?_, fun k p hp => ?_⟩
  · rw [Sys.next, Sys.prev, h.links]
    exact ring_binit NBUF le_rfl
  · simp only [h.drop, le_refl]
    exact pairwise_of_forall fun _ _ => trivial
  · rw [h.drop, h.clock]
    exact Nat.one_pos
  · grind [Init, cnt_eq_zero.mpr, Pc.waits, Buf.locked]
  · exact absurd (h.buf k).2.1 hne
  · rw [h.pc]
    trivial
  · cases (h.buf k).2.2.2.symm.trans hp

theorem Init.flatInv {dev : ℕ} (h : Init s) : Flat dev s := by
  refine ⟨fun p => ?_, fun k p hp => ?_, fun k hk => ?_, fun k hk => ?_, fun b _ => ?_⟩
  · rw [h.pc]
    trivial
  · exact nomatch (h.buf k).2.2.2.symm.trans hp
  · exact nomatch (h.buf k).1.symm.trans hk
  · exact nomatch (h.dirty k).symm.trans hk
  · rw [h.flat]

theorem reachable_cache (h : Reachable Init Contract Sys.step s) : Cache s :=
  h.invariant (fun _ hs => hs.cache) fun _ _ _ hs hok hstep => hs.step hok (step_cases hstep)

theorem reachable_flat {dev : ℕ} (hdev : dev ≠ 0)
    (h : Reachable Init (fun s a => Contract s a ∧ WriteBack s a ∧ OneDevice dev a) Sys.step s) :
    Cache s ∧ Flat dev s :=
  h.invariant (I := fun s => Cache s ∧ Flat dev s) (fun _ hs => ⟨hs.cache, hs.flatInv⟩)
    fun _ _ _ hs hok hstep => ⟨hs.1.step hok.1 (step_cases hstep),
      hs.2.step hs.1 hdev hok.1 hok.2.1 hok.2.2 (step_cases hstep)⟩

theorem Listed.step_ne_loop {L : List ℕ} (h : Listed s L) (a : Act N) :
    s.step a ≠ .error .loop := by
  intro ha
  cases a with
  | bread p dev b => grind [Sys.step, Sys.bget, h.lookup_eq, h.lru_eq]
  | step p => grind [Sys.step, Sys.run]
  | _ =>
    simp only [Sys.step] at ha
    split_ifs at ha <;> cases ha

theorem Listed.recycled {s' : Sys N} {L : List ℕ} {a : Act N} {k : ℕ} (h : Listed s L)
    (hs : Step s a s')
    (hne : ((s'.buf k).dev, (s'.buf k).blockno) ≠ ((s.buf k).dev, (s.buf k).blockno)) :
    (s.buf k).refcnt = 0 ∧ ∀ k', k' < NBUF → (s.buf k').refcnt = 0 → s.drop k ≤ s.drop k' := by
  have hsame {j : ℕ} {x : Buf N} (hbuf : s'.buf = update s.buf j x)
      (hdev : x.dev = (s.buf j).dev) (hblockno : x.blockno = (s.buf j).blockno) : False := by
    grind [congrFun hbuf]
  cases hs with
  | @recycle p dev b j hpc _ hj =>
    have hjk : k = j := by
      by_contra hkj
      refine hne ?_
      simp only [goto, setDirty, setBuf, update_of_ne hkj]
    rw [hjk]
    exact (h.of_lru hj).2
  | @release p j => exact (hsame (congrArg Sys.buf (release_eq s j)) rfl rfl).elim
  | @bunpin p j => exact (hsame (congrArg Sys.buf (unref_eq s j)) rfl rfl).elim
  | cached | bwrite => exact (hne rfl).elim
  | _ => exact (hsame rfl rfl rfl).elim

/-- When `bread` returns, the process holds the buffer of the block. -/
theorem Named.returns {s' : Sys N} {p : Fin N} {d b k : ℕ} (h : Named s) (hs : Step s (.step p) s')
    (hreads : (s.pc p).reads = some (d, b, k)) (hidle : s'.pc p = .idle) :
    (s'.buf k).dev = d ∧ (s'.buf k).blockno = b ∧ (s'.buf k).lock = some p := by
  have hfits := h.fits p
  cases hs with
  | acquire hpc | release hpc =>
    rw [hpc] at hreads
    cases hreads
  | cached hpc =>
    rw [hpc] at hreads hfits
    cases hreads
    exact hfits.2
  | fill => simp [goto] at hidle
  | filled hpc =>
    rw [hpc] at hreads hfits
    cases hreads
    simp only [goto, setBuf, update_self]
    exact hfits.2

/-- The buffer cache shows a flat array of blocks. Each buffer is in the list
once, and no block has two; a buffer is recycled for another block only if it is
not in use and was used the longest ago; no walk along the list goes on for
ever. On one device, if buffers are written or pinned before they are released,
a process that has read a block sees the data stored there last. -/
theorem bcache_refines_blocks {s : Sys N} (h : Reachable Init Contract Sys.step s) :
    (∃ L, L.Nodup ∧ (∀ k, k ∈ L ↔ k < NBUF) ∧ Linked s.next head L head) ∧
    (∀ k, k ≤ NBUF → s.prev (s.next k) = k ∧ s.next (s.prev k) = k) ∧
    (∀ k k', k < NBUF → k' < NBUF → (s.buf k).dev ≠ 0 → (s.buf k).dev = (s.buf k').dev →
      (s.buf k).blockno = (s.buf k').blockno → k = k') ∧
    (∀ a s' k, s.step a = .ok s' →
      ((s'.buf k).dev, (s'.buf k).blockno) ≠ ((s.buf k).dev, (s.buf k).blockno) →
      (s.buf k).refcnt = 0 ∧
        ∀ k', k' < NBUF → (s.buf k').refcnt = 0 → s.drop k ≤ s.drop k') ∧
    (∀ a, s.step a ≠ .error .loop) ∧
    ∀ dev, dev ≠ 0 →
      Reachable Init (fun s a => Contract s a ∧ WriteBack s a ∧ OneDevice dev a) Sys.step s →
      (∀ p k, s.pc p = .idle → (s.buf k).lock = some p →
        (s.buf k).valid = true ∧ (s.buf k).data = s.flat (s.buf k).blockno) ∧
      ∀ p d b k s', (s.pc p).reads = some (d, b, k) → s.step (.step p) = .ok s' →
        s'.pc p = .idle → d = dev ∧ (s'.buf k).dev = d ∧ (s'.buf k).blockno = b ∧
          (s'.buf k).lock = some p ∧ (s'.buf k).data = s'.flat b := by
  have hcache := reachable_cache h
  obtain ⟨L, hL⟩ := hcache.list
  refine ⟨⟨L, hL.nodup, hL.mem, hL.ring.next⟩, fun k hk => ?_, hcache.named.uniq,
    fun a s' k hs hne => hL.recycled (step_cases hs) hne, hL.step_ne_loop,
    fun dev hdev hrun => ⟨fun p k hpc hlock => ?_, fun p d b k s' hreads hs hidle => ?_⟩⟩
  · grind [hL.mem, hL.ring.prev_next, hL.ring.next_prev]
  · have hflat := (reachable_flat hdev hrun).2
    have hvalid := hflat.valid_of_locked hpc hlock
    exact ⟨hvalid, (hflat.valid k hvalid).2.2⟩
  · obtain ⟨hcache', hflat'⟩ :=
      reachable_flat hdev (.step (.step p) hrun ⟨trivial, trivial, trivial⟩ hs)
    obtain ⟨hd, hb, hlock⟩ := hcache.named.returns (step_cases hs) hreads hidle
    obtain ⟨-, hkdev, hdata⟩ := hflat'.valid k (hflat'.valid_of_locked hidle hlock)
    exact ⟨hd.symm.trans hkdev, hd, hb, hlock, hb ▸ hdata⟩

def boot : Sys N where
  buf _ := ⟨false, 0, 0, 0, none, zeroBlock⟩
  links := binit NBUF
  disk _ := zeroBlock
  pc _ := .idle
  flat _ := zeroBlock
  dirty _ := false
  pins _ := 0
  drop _ := 0
  clock := 1

theorem init_boot : Init (boot : Sys N) :=
  ⟨rfl, fun _ => ⟨rfl, rfl, rfl, rfl⟩, fun _ => rfl, rfl, fun _ => rfl, fun _ => rfl, fun _ => rfl,
    rfl⟩

def start : Sys 1 := boot

theorem init_start : Init start := init_boot

/-- Block 5 is read for device 1, stored to and written. -/
def writeFive : List (Act 1) :=
  [.bread 0 1 5, .step 0, .step 0, .step 0, .store 0 0 fun _ => 1, .bwrite 0 0, .brelse 0 0,
    .step 0]

theorem bcache_refines_blocks_writeFive : ∃ s : Sys 1,
    Reachable Init Contract Sys.step s ∧ (s.buf 0).lock = some 0 ∧
    (s.buf 0).data = s.flat (s.buf 0).blockno ∧ s.flat (s.buf 0).blockno 0 = 1 := by
  obtain ⟨s, hs, hpc, hlock, hflat⟩ :
      ∃ s ∈ runActs (fun s a => Contract s a ∧ WriteBack s a ∧ OneDevice 1 a) Sys.step
        (writeFive ++ [.bread 0 1 5, .step 0, .step 0]) start,
        s.pc 0 = .idle ∧ (s.buf 0).lock = some 0 ∧ s.flat (s.buf 0).blockno 0 = 1 := by
    decide +kernel
  have hone := (Reachable.init init_start).runActs hs
  have hreach := hone.mono fun _ _ h => h.1
  have hdata := (bcache_refines_blocks hreach).2.2.2.2.2 1 one_ne_zero hone
  exact ⟨s, hreach, hlock, (hdata.1 0 0 hpc hlock).2, hflat⟩

/-- Then it is read for device 2 into another buffer, stored to and pinned, and
then it is read for device 3. -/
def threeDevices : List (Act 1) :=
  writeFive ++ [.bread 0 2 5, .step 0, .step 0, .step 0, .store 0 1 fun _ => 2, .bpin 0 1,
    .brelse 0 1, .step 0, .bread 0 3 5, .step 0, .step 0]

/-- The disk does not tell devices apart: `bread` for device 3 returns what was
stored before last, although nothing was ever stored for this device. -/
theorem bread_other_device : ∃ s s' : Sys 1, Init start ∧
    Reachable (start = ·) (fun s a => Contract s a ∧ WriteBack s a) Sys.step s ∧
    (s.pc 0).reads = some (3, 5, 2) ∧ s.step (.step 0) = .ok s' ∧ s'.pc 0 = .idle ∧
    (s'.buf 2).data ≠ s'.flat 5 ∧ (s'.buf 2).data ≠ start.flat 5 := by
  obtain ⟨s, hs, hpc, hdata, hflat⟩ :
      ∃ s ∈ runActs (fun s a => Contract s a ∧ WriteBack s a) Sys.step threeDevices start,
        s.pc 0 = .filled 3 5 2 ∧ (s.buf 2).data 0 = 1 ∧ s.flat 5 0 = 2 := by
    decide +kernel
  set s' := (s.setBuf 2 { s.buf 2 with valid := true }).goto 0 .idle with hs'
  have hdata' : (s'.buf 2).data 0 = 1 := hdata
  refine ⟨s, s', init_start, (Reachable.init rfl).runActs hs, by rw [hpc]; rfl, ?_,
    by simp [hs', goto], fun heq => ?_, fun heq => ?_⟩
  · rw [Sys.step, Sys.run, hpc]
  · rw [heq] at hdata'
    exact absurd (hdata'.symm.trans hflat) (by decide)
  · rw [heq] at hdata'
    exact absurd hdata' (by decide)

end Xv6.Bcache
