import Xv6.Bcache.Lru

/-!
References to buffers.

The count of a buffer is the number of processes that wait for its lock, hold it
or are about to drop their reference, and of pins. Hence nobody uses a buffer
that is recycled, and no block gets a second buffer.
-/

namespace Xv6.Bcache

open Sys
open Function (update update_self update_of_ne update_eq_self)

variable {N : ℕ}

/-- The buffer to which the process has a reference but not the lock. -/
def Pc.waits : Pc → Option ℕ
  | .acquire _ _ k => some k
  | .release k => some k
  | _ => none

/-- The block that the process reads, and into which buffer, once it has the
lock. -/
def Pc.reads : Pc → Option (ℕ × ℕ × ℕ)
  | .fill dev b k => some (dev, b, k)
  | .filled dev b k => some (dev, b, k)
  | _ => none

def Buf.locked (x : Buf N) : ℕ :=
  match x.lock with
  | none => 0
  | some _ => 1

theorem Buf.locked_some {x : Buf N} {p : Fin N} (h : x.lock = some p) : x.locked = 1 := by
  rw [Buf.locked, h]

/-! ### Dropping a reference -/

theorem unref_eq (s : Sys N) (k : ℕ) : s.unref k =
    { s.setBuf k { s.buf k with refcnt := (s.buf k).refcnt - 1 } with
      drop := (s.unref k).drop
      clock := (s.unref k).clock } := by
  unfold Sys.unref
  split_ifs <;> rfl

theorem release_eq (s : Sys N) (k : ℕ) : s.release k =
    { s.setBuf k { s.buf k with refcnt := (s.buf k).refcnt - 1 } with
      links := (s.release k).links
      drop := (s.release k).drop
      clock := (s.release k).clock } := by
  unfold Sys.release
  split_ifs <;> rw [unref_eq]

/-! ### Counts -/

def Counted (s : Sys N) : Prop :=
  ∀ k, k < NBUF → (s.buf k).refcnt =
    cnt Finset.univ (fun p => (s.pc p).waits) (some k) + (s.buf k).locked + s.pins k

namespace Counted

variable {s s' : Sys N} {p : Fin N} {k : ℕ}

theorem change {c : Pc} {x : Buf N} {n : ℕ} (h : Counted s)
    (hbuf : s'.buf = update s.buf k x) (hpc : s'.pc = update s.pc p c)
    (hpins : s'.pins = update s.pins k n)
    (hother : ∀ j, j ≠ k → ((s.pc p).waits = some j ↔ c.waits = some j))
    (hk : k < NBUF → x.refcnt + (if (s.pc p).waits = some k then 1 else 0) + (s.buf k).locked +
      s.pins k = (s.buf k).refcnt + (if c.waits = some k then 1 else 0) + x.locked + n) :
    Counted s' := by
  intro j hj
  have hwaits : (fun q => (s'.pc q).waits) =
      update (fun q => (s.pc q).waits) p c.waits := by grind [congrFun hpc]
  have hcnt := cnt_update (fun q => (s.pc q).waits) (Finset.mem_univ p) c.waits (some j)
  have hold := h j hj
  rw [hwaits, hbuf, hpins]
  rcases eq_or_ne j k with rfl | hne
  · rw [update_self, update_self]
    omega
  · grind

theorem frame {c : Pc} {x : Buf N} (h : Counted s) (hbuf : s'.buf = update s.buf k x)
    (hpc : s'.pc = update s.pc p c) (hpins : s'.pins = s.pins) (hwaits : c.waits = (s.pc p).waits)
    (hrefcnt : x.refcnt = (s.buf k).refcnt) (hlocked : x.locked = (s.buf k).locked) : Counted s' :=
  h.change hbuf hpc (hpins.trans (update_eq_self k s.pins).symm)
    (fun _ _ => by rw [hwaits]) fun _ => by rw [hwaits, hrefcnt, hlocked]

theorem step {a : Act N} (h : Counted s) (hs : Step s a s')
    (hunpin : ∀ p k, a = .bunpin p k → 0 < s.pins k)
    (hlru : ∀ k, s.lru = some (some k) → (s.buf k).refcnt = 0) : Counted s' := by
  have hself (k : ℕ) : s.pins = update s.pins k (s.pins k) :=
    (update_eq_self k s.pins).symm
  have hbuf (k : ℕ) : s.buf = update s.buf k (s.buf k) :=
    (update_eq_self k s.buf).symm
  have hpc' (p : Fin N) : s.pc = update s.pc p (s.pc p) :=
    (update_eq_self p s.pc).symm
  cases hs with
  | @hit p dev b k hpc _ =>
    refine h.change rfl rfl (hself k) (fun j hj => ?_) fun _ => ?_
    · simp [hpc, Pc.waits, hj.symm]
    · simp only [hpc, Pc.waits, Buf.locked, reduceCtorEq, if_false, if_true]
  | @recycle p dev b k hpc _ hk =>
    refine h.change rfl rfl (hself k) (fun j hj => ?_) fun hlt => ?_
    · simp [hpc, Pc.waits, hj.symm]
    · grind [Pc.waits, Buf.locked]
  | @acquire p dev b k hpc hlock | @brelse p k hpc hlock =>
    refine h.change rfl rfl (hself k) (fun j hj => ?_) fun _ => ?_
    · simp [hpc, Pc.waits, hj.symm]
    · simp only [hpc, Pc.waits, Buf.locked, hlock, reduceCtorEq, if_false, if_true]
  | @cached p dev b k hpc _ => exact h.frame (hbuf k) rfl rfl (by rw [hpc]; rfl) rfl rfl
  | fill hpc _ | filled hpc => exact h.frame rfl rfl rfl (by rw [hpc]; rfl) rfl rfl
  | @release p k hpc =>
    rw [release_eq]
    refine h.change rfl rfl (hself k) (fun j hj => ?_) fun hlt => ?_
    · simp [hpc, Pc.waits, hj.symm]
    · have hpos := cnt_pos (f := fun q => (s.pc q).waits) (Finset.mem_univ p)
        (show (s.pc p).waits = some k by rw [hpc]; rfl)
      have := h k hlt
      simp only [hpc, Pc.waits, Buf.locked, reduceCtorEq, if_false, if_true] at *
      omega
  | @store p k d hpc => exact h.frame rfl (hpc' p) rfl rfl rfl rfl
  | @bwrite p k hpc hlock => exact h.frame (hbuf k) (hpc' p) rfl rfl rfl rfl
  | @bpin p k hpc =>
    refine h.change rfl (hpc' p) rfl (fun j _ => Iff.rfl) fun _ => ?_
    simp only [Buf.locked]
    omega
  | @bunpin p k hpc =>
    rw [unref_eq]
    refine h.change rfl (hpc' p) rfl (fun j _ => Iff.rfl) fun hlt => ?_
    have := hunpin p k rfl
    have := h k hlt
    simp only [Buf.locked] at *
    omega

theorem unused (h : Counted s) (hk : k < NBUF) (hzero : (s.buf k).refcnt = 0) :
    (∀ p, (s.pc p).waits ≠ some k) ∧ (s.buf k).lock = none ∧ s.pins k = 0 := by
  have := h k hk
  refine ⟨fun p hp => ?_, ?_, by omega⟩
  · have := cnt_pos (f := fun q => (s.pc q).waits) (Finset.mem_univ p) hp
    omega
  · grind [Buf.locked]

end Counted

/-! ### What buffers are for -/

def Fits (s : Sys N) (p : Fin N) : Pc → Prop
  | .idle => True
  | .acquire dev b k => k < NBUF ∧ (s.buf k).dev = dev ∧ (s.buf k).blockno = b
  | .fill dev b k =>
    k < NBUF ∧ (s.buf k).dev = dev ∧ (s.buf k).blockno = b ∧ (s.buf k).lock = some p
  | .filled dev b k =>
    k < NBUF ∧ (s.buf k).dev = dev ∧ (s.buf k).blockno = b ∧ (s.buf k).lock = some p
  | .release k => k < NBUF

/-- A block has at most one buffer, and processes have the buffers of the blocks
they asked for. -/
structure Named (s : Sys N) : Prop where
  uniq : ∀ k k', k < NBUF → k' < NBUF → (s.buf k).dev ≠ 0 → (s.buf k).dev = (s.buf k').dev →
    (s.buf k).blockno = (s.buf k').blockno → k = k'
  fits : ∀ p, Fits s p (s.pc p)
  held : ∀ k p, (s.buf k).lock = some p → k < NBUF

namespace Named

variable {s s' : Sys N} {p : Fin N} {c : Pc} {k : ℕ} {x : Buf N}

theorem change (h : Named s) (hbuf : s'.buf = update s.buf k x) (hpc : s'.pc = update s.pc p c)
    (hdev : x.dev = (s.buf k).dev) (hblockno : x.blockno = (s.buf k).blockno)
    (hlock : ∀ q, q ≠ p → (s.buf k).lock = some q → x.lock = some q)
    (hheld : ∀ q, x.lock = some q → (s.buf k).lock = some q ∨ k < NBUF) (hc : Fits s' p c) :
    Named s' := by
  have hdev' : ∀ j, (s'.buf j).dev = (s.buf j).dev := fun j => by
    rw [hbuf]
    exact update_proj Buf.dev hdev
  have hblockno' : ∀ j, (s'.buf j).blockno = (s.buf j).blockno := fun j => by
    rw [hbuf]
    exact update_proj Buf.blockno hblockno
  have hlock' : ∀ q j, q ≠ p → (s.buf j).lock = some q → (s'.buf j).lock = some q := by
    grind [congrFun hbuf]
  refine ⟨fun j j' hj hj' => ?_, fun q => ?_, fun j q hq => ?_⟩
  · rw [hdev', hdev', hblockno', hblockno']
    exact h.uniq j j' hj hj'
  · rw [hpc]
    rcases eq_or_ne q p with rfl | hne
    · rwa [update_self]
    · rw [update_of_ne hne]
      have hfits := h.fits q
      cases hq : s.pc q with
      | idle => trivial
      | acquire dev b j => grind [Fits]
      | fill dev b j | filled dev b j => grind [Fits]
      | release j =>
        rw [hq] at hfits
        exact hfits
  · grind [Named, congrFun hbuf]

theorem recycle {dev b : ℕ} (h : Named s) (hk : k < NBUF) (hbuf : s'.buf = update s.buf k x)
    (hpc : s'.pc = update s.pc p (.acquire dev b k)) (hdev : x.dev = dev) (hblockno : x.blockno = b)
    (hnone : ∀ j, j < NBUF → (s.buf j).dev = dev → (s.buf j).blockno ≠ b)
    (hwaits : ∀ q, (s.pc q).waits ≠ some k) (hlock : (s.buf k).lock = none) : Named s' := by
  have hself : s'.buf k = x := by rw [hbuf, update_self]
  have hother : ∀ j, j ≠ k → s'.buf j = s.buf j := fun j hj => by
    rw [hbuf, update_of_ne hj]
  refine ⟨fun j j' hj hj' hne hd hb => ?_, fun q => ?_, fun j q hq => ?_⟩
  · grind [h.uniq]
  · rw [hpc]
    rcases eq_or_ne q p with rfl | hne
    · grind [Fits]
    · rw [update_of_ne hne]
      have hfits := h.fits q
      cases hq : s.pc q with
      | idle => trivial
      | acquire dev' b' j =>
        rw [hq] at hfits
        have hj : j ≠ k := fun heq => hwaits q (by rw [hq, heq]; rfl)
        simp only [Fits, hother j hj]
        exact hfits
      | fill dev' b' j | filled dev' b' j => grind [Fits]
      | release j =>
        rw [hq] at hfits
        exact hfits
  · grind [h.held]

theorem step {a : Act N} {L : List ℕ} (h : Named s) (hcount : Counted s) (hlist : Listed s L)
    (hs : Step s a s') : Named s' := by
  have hbuf (k : ℕ) : s.buf = update s.buf k (s.buf k) :=
    (update_eq_self k s.buf).symm
  have hpc' (p : Fin N) : s.pc = update s.pc p (s.pc p) :=
    (update_eq_self p s.pc).symm
  have hfits {p : Fin N} {c : Pc} (hpc : s.pc p = c) : Fits s p c := hpc ▸ h.fits p
  cases hs with
  | @hit p dev b k hpc hk =>
    obtain ⟨hlt, hdev, hblockno⟩ := hlist.of_lookup hk
    refine h.change rfl rfl rfl rfl (fun _ _ hq => hq) (fun _ => .inl) ⟨hlt, ?_, ?_⟩
    · simp [goto, setBuf, hdev]
    · simp [goto, setBuf, hblockno]
  | @recycle p dev b k hpc hnone hk =>
    obtain ⟨hlt, hzero, -⟩ := hlist.of_lru hk
    obtain ⟨hwaits, hlock, -⟩ := hcount.unused hlt hzero
    exact h.recycle hlt rfl rfl rfl rfl (fun _ hj => hlist.of_lookup_none hnone hj) hwaits hlock
  | @acquire p dev b k hpc hlock =>
    obtain ⟨hlt, hdev, hblockno⟩ := hfits hpc
    refine h.change rfl rfl rfl rfl (fun q _ hq => ?_) (fun _ _ => .inr hlt) ⟨hlt, ?_, ?_, ?_⟩
    · exact nomatch hlock.symm.trans hq
    · simp [goto, setBuf, hdev]
    · simp [goto, setBuf, hblockno]
    · simp [goto, setBuf]
  | @cached p dev b k hpc _ =>
    exact h.change (hbuf k) rfl rfl rfl (fun _ _ hq => hq) (fun _ => .inl) trivial
  | @fill p dev b k hpc _ =>
    obtain ⟨hlt, hdev, hblockno, hlock⟩ := hfits hpc
    refine h.change rfl rfl rfl rfl (fun _ _ hq => hq) (fun _ => .inl) ⟨hlt, ?_, ?_, ?_⟩
    · simp [goto, setBuf, hdev]
    · simp [goto, setBuf, hblockno]
    · simp [goto, setBuf, hlock]
  | filled hpc => exact h.change rfl rfl rfl rfl (fun _ _ hq => hq) (fun _ => .inl) trivial
  | @release p k hpc =>
    rw [release_eq]
    exact h.change rfl rfl rfl rfl (fun _ _ hq => hq) (fun _ => .inl) trivial
  | @store p k d hpc | @bpin p k hpc =>
    exact h.change rfl (hpc' p) rfl rfl (fun _ _ hq => hq) (fun _ => .inl) (by rw [hpc]; trivial)
  | @bwrite p k hpc hlock =>
    exact h.change (hbuf k) (hpc' p) rfl rfl (fun _ _ hq => hq) (fun _ => .inl)
      (by rw [hpc]; trivial)
  | @brelse p k hpc hlock =>
    refine h.change rfl rfl rfl rfl (fun q hne hq => ?_) nofun (h.held k p hlock)
    exact absurd (Option.some.inj (hq.symm.trans hlock)) hne
  | @bunpin p k hpc =>
    rw [unref_eq]
    exact h.change rfl (hpc' p) rfl rfl (fun _ _ hq => hq) (fun _ => .inl) (by rw [hpc]; trivial)

end Named

/-! ### Together -/

/-- A process unpins a buffer only while it holds it, and only one that is
pinned. The buffers it changes, writes and releases are those it holds. -/
def Contract (s : Sys N) : Act N → Prop
  | .bread _ _ _ => True
  | .store p k _ => (s.buf k).lock = some p
  | .bwrite p k => (s.buf k).lock = some p
  | .brelse p k => (s.buf k).lock = some p
  | .bpin _ k => k < NBUF
  | .bunpin p k => (s.buf k).lock = some p ∧ 0 < s.pins k
  | .step _ => True

instance (s : Sys N) (a : Act N) : Decidable (Contract s a) := by
  cases a <;> unfold Contract <;> infer_instance

structure Cache (s : Sys N) : Prop where
  list : ∃ L, Listed s L
  count : Counted s
  named : Named s

namespace Cache

variable {s s' : Sys N} {a : Act N} {p : Fin N} {k : ℕ}

theorem listed_unref (h : Cache s) (hpos : (s.buf k).refcnt - 1 ≠ 0) :
    ∃ L, Listed (s.unref k) L := by
  obtain ⟨L, hL⟩ := h.list
  rw [Sys.unref, if_neg hpos]
  exact ⟨L, hL.congr rfl rfl rfl⟩

theorem listed_release (h : Cache s) (hk : k < NBUF) : ∃ L, Listed (s.release k) L := by
  by_cases hzero : (s.buf k).refcnt - 1 = 0
  · obtain ⟨L, hL⟩ := h.list
    obtain ⟨L', hL'⟩ := hL.front hk
    rw [Sys.release, if_pos hzero, Sys.unref, if_pos hzero]
    exact ⟨L', hL'.congr rfl rfl rfl⟩
  · rw [Sys.release, if_neg hzero]
    exact h.listed_unref hzero

theorem listed_step (h : Cache s) (hok : Contract s a) (hs : Step s a s') : ∃ L, Listed s' L := by
  obtain ⟨L, hL⟩ := h.list
  cases hs with
  | @release p k hpc =>
    have hfits := h.named.fits p
    rw [hpc] at hfits
    obtain ⟨L', hL'⟩ := h.listed_release hfits
    exact ⟨L', hL'.congr rfl rfl rfl⟩
  | @bunpin p k hpc =>
    obtain ⟨hlock, hpins⟩ := hok
    have hcount := h.count k (h.named.held k p hlock)
    rw [Buf.locked_some hlock] at hcount
    obtain ⟨L', hL'⟩ := h.listed_unref (k := k) (by omega)
    exact ⟨L', hL'.congr rfl rfl rfl⟩
  | _ => exact ⟨L, hL.congr rfl rfl rfl⟩

theorem step (h : Cache s) (hok : Contract s a) (hs : Step s a s') : Cache s' := by
  obtain ⟨L, hL⟩ := h.list
  refine ⟨h.listed_step hok hs, h.count.step hs ?_ fun k hk => (hL.of_lru hk).2.1,
    h.named.step h.count hL hs⟩
  rintro p k rfl
  exact hok.2

end Cache

end Xv6.Bcache
