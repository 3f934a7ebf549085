import Xv6.Itable.Cached

/-!
Inodes that are allocated, and references that come and go.

What the counts have to do with the in-memory inodes: a new reference is to an
allocated inode that `iput` is not freeing, and the last one goes when nobody
uses the lock.
-/

namespace Xv6.Itable

open Sys
open Function (update_self update_of_ne)

variable {N : ℕ}

/-! ### References come and go -/

structure Hold (s s' : Sys N) (k : ℕ) : Prop where
  used : 0 < total s k
  tab : ∃ n, s'.tab k = { s.tab k with ref := n }
  others : ∀ k', k' ≠ k → s'.tab k' = s.tab k'
  disk : s'.disk = s.disk
  dirty : s'.dirty = s.dirty
  via : s'.via = s.via
  held : ∀ q k', k' ≠ k → s'.held q k' = s.held q k'
  pc : ∀ q, s'.pc q = s.pc q ∨ s.pc q = .putDec k ∧ s'.pc q = .idle
  own : ∀ q, s.Uses q k → 1 ≤ s'.held (s.via q k) k
  puts : ∀ q, (s'.pc q).puts = some k →
    s'.held q k = s.held q k ∧ ((s.pc q).late ≠ some k → total s' k = total s k)
  gain : (∀ q, 1 ≤ s'.held q k → 1 ≤ s.held q k ∧ s'.pc q = s.pc q) ∨
    (s.dinode k).type ≠ 0 ∧ ∀ q, s.pc q ≠ .allocated (s.tab k).dev (s.tab k).inum

namespace Hold

variable {s s' : Sys N} {k k' dev inum : ℕ} {q : Fin N}

variable (hs : Hold s s' k)
include hs

theorem lock_eq : (s'.tab k').lock = (s.tab k').lock := by
  rcases eq_or_ne k' k with rfl | hne
  · obtain ⟨n, hn⟩ := hs.tab
    rw [hn]
  · rw [hs.others k' hne]

theorem dev_eq : (s'.tab k').dev = (s.tab k').dev ∧ (s'.tab k').inum = (s.tab k').inum := by
  rcases eq_or_ne k' k with rfl | hne
  · obtain ⟨n, hn⟩ := hs.tab
    rw [hn]
    exact ⟨rfl, rfl⟩
  · rw [hs.others k' hne]
    exact ⟨rfl, rfl⟩

theorem dinode_eq : s'.dinode k' = s.dinode k' := by
  rw [dinode, hs.disk, hs.dev_eq.1, hs.dev_eq.2, dinode]

theorem pc_or (hc : s'.pc q ≠ .idle) : s'.pc q = s.pc q :=
  (hs.pc q).resolve_right fun h => hc h.2

theorem puts_of (hc : (s'.pc q).puts = some k') : (s.pc q).puts = some k' := by
  rwa [← hs.pc_or fun h => by rw [h] at hc; cases hc]

theorem uses_of (h : s'.Uses q k') : s.Uses q k' := by
  rcases h with h | h
  · grind [Uses, hs.pc_or]
  · exact .inr (hs.lock_eq ▸ h)

theorem stage_eq (h : Used s k) : s'.stage k = s.stage k := by
  simp only [Sys.stage, hs.lock_eq]
  refine Option.map_congr fun q hq => ?_
  rcases hs.pc q with heq | ⟨hdec, -⟩
  · rw [heq]
  · have := h.here q
    rw [hdec] at this
    exact absurd hq (this rfl).1

theorem used_self (h : Used s k) : Used s' k := by
  refine ⟨fun q hq => ?_, fun q => ?_, fun q hq => ?_, ?_⟩
  · have hold := hs.uses_of hq
    rw [hs.via]
    exact ⟨hs.own q hold, fun hp => (h.own q hold).2 (hs.puts_of hp)⟩
  · rw [hs.lock_eq]
    rcases hs.pc q with heq | ⟨-, hidle⟩
    · have hputs := hs.puts q
      rw [heq] at hputs ⊢
      exact (h.here q).mono Iff.rfl (fun hp => (hputs hp).1) fun hp hl ht =>
        ((hputs hp).2 hl).trans ht
    · rw [hidle]
      trivial
  · rw [hs.dinode_eq]
    rcases hs.gain with hold | ⟨htype, -⟩
    · obtain ⟨h₁, h₂⟩ := hold q hq.1
      exact h.active q ⟨h₁, h₂ ▸ hq.2⟩
    · exact htype
  · rw [hs.dinode_eq, hs.dirty, hs.stage_eq h]
    obtain ⟨n, hn⟩ := hs.tab
    exact h.body.congr (by rw [hn]) (by rw [hn])

theorem used_ne (hne : k' ≠ k) (h : Used s k') : Used s' k' := by
  refine h.frame (hs.others k' hne) hs.dinode_eq (by rw [hs.dirty]) (fun q => hs.held q k' hne)
    (fun q => by rw [hs.via]) fun q => ?_
  refine (hs.pc q).imp_right fun ⟨hdec, hidle⟩ => ⟨fun h => ?_, fun h => ?_⟩
  · rw [hdec] at h
    exact hne (Option.some.inj h).symm
  · rw [hidle] at h
    cases h

theorem unused_self (h : Used s k) (hk : total s' k = 0) :
    (s'.tab k).lock = none ∧ s'.dirty k = false ∧ ∀ q, (s'.pc q).about ≠ some k := by
  have hzero : ∀ q, s'.held q k = 0 := fun q => Nat.le_zero.mp (hk ▸ held_le_total s' q k)
  have hno : ∀ q, ¬ s.Uses q k := fun q hq => by
    have := hs.own q hq
    rw [hzero] at this
    cases this
  have hlock : (s.tab k).lock = none :=
    Option.eq_none_iff_forall_ne_some.mpr fun q hq => hno q (.inr hq)
  refine ⟨hs.lock_eq.trans hlock, ?_, fun q hq => ?_⟩
  · rw [hs.dirty]
    exact (h.body_of_free hlock).1
  · have heq := hs.pc_or (q := q) fun hi => by rw [hi] at hq; cases hq
    rw [heq] at hq
    rcases (h.here q).lock_or hq with hc | hc | hc
    · exact hno q (.inl hc)
    · exact hno q (.inr hc)
    · have hputs : (s.pc q).puts = some k := by rw [hc]; rfl
      have h₁ := (hs.puts q (heq ▸ hputs)).1
      rw [hzero, (h.here q).held_one hputs] at h₁
      cases h₁

theorem keeps_fresh (h : Fresh s) : Fresh s' := by
  have hpc : ∀ q dev inum, s'.pc q = .allocated dev inum → s.pc q = .allocated dev inum :=
    fun q dev inum hq => hs.pc_or (q := q) (fun hi => by rw [hi] at hq; cases hq) ▸ hq
  refine ⟨fun q dev inum t hq => ?_, fun q dev inum hq => ?_,
    fun q dev inum hq k' hdev hinum r hr => ?_,
    fun q r dev inum hq hr => h.inj q r dev inum (hpc q dev inum hq) (hpc r dev inum hr)⟩
  · grind [h.type, hs.pc_or]
  · rw [hs.disk]
    exact h.mark q dev inum (hpc q dev inum hq)
  · rw [hs.dev_eq.1] at hdev
    rw [hs.dev_eq.2] at hinum
    have hlate := h.late q dev inum (hpc q dev inum hq) k' hdev hinum r
    rcases eq_or_ne k' k with rfl | hne
    · grind [hs.gain]
    · have hlate := hlate (hs.held r k' hne ▸ hr)
      rcases hs.pc r with heq | ⟨hdec, -⟩
      · rwa [heq]
      · rw [hdec] at hlate
        exact absurd (Option.some.inj hlate).symm hne

end Hold

namespace Cached

variable {s s' : Sys N} {k k' dev inum : ℕ} {p q o : Fin N}

variable (h : Cached s)
include h

theorem hold (hs : Hold s s' k) : Cached s' := by
  have htotal : ∀ k', k' ≠ k → total s' k' = total s k' := fun k' hne =>
    total_congr fun q => hs.held q k' hne
  refine ⟨fun k' hk' => ?_, fun k' hk' => ?_, hs.keeps_fresh h.fresh⟩
  · grind [hs.used_self, h.used, hs.used, hs.used_ne]
  · rcases eq_or_ne k' k with rfl | hne
    · exact hs.unused_self (h.used k' hs.used) hk'
    · obtain ⟨h₁, h₂, h₃⟩ := h.unused k' (htotal k' hne ▸ hk')
      refine ⟨hs.lock_eq.trans h₁, by rwa [hs.dirty], fun q hq => ?_⟩
      rw [hs.pc_or fun hi => by rw [hi] at hq; cases hq] at hq
      exact h₃ q hq

theorem goto {c : Pc} (hsrc : (s.pc p).about = none) (hdst : c.about = none)
    (hialloc : ∀ dev inum t, c = .ialloc dev inum t → t ≠ 0)
    (hallocated : ∀ dev inum, c ≠ .allocated dev inum) : Cached (s.goto p c) := by
  have hself : (s.goto p c).pc p = c := update_self ..
  have hother : ∀ q, q ≠ p → (s.goto p c).pc q = s.pc q := fun q hq => update_of_ne hq ..
  have hpc : ∀ k q, (s.goto p c).pc q = s.pc q ∨
      (s.pc q).about ≠ some k ∧ ((s.goto p c).pc q).about ≠ some k := by grind
  have hold : ∀ q dev inum, (s.goto p c).pc q = .allocated dev inum →
      s.pc q = .allocated dev inum := by grind
  refine ⟨fun k hk => (h.used k hk).frame rfl rfl rfl (fun _ => rfl) (fun _ => rfl) (hpc k),
    fun k hk => ?_, ⟨fun q dev inum t hq => ?_, fun q dev inum hq => h.fresh.mark q dev inum
      (hold q dev inum hq), fun q dev inum hq k hdev hinum r hr => ?_,
      fun q r dev inum hq hr => h.fresh.inj q r dev inum (hold q dev inum hq) (hold r dev inum hr)⟩⟩
  · obtain ⟨h₁, h₂, h₃⟩ := h.unused k hk
    refine ⟨h₁, h₂, fun q => ?_⟩
    rcases hpc k q with heq | hne
    · rw [heq]
      exact h₃ q
    · exact hne.2
  · grind [h.fresh.type]
  · have hlate := h.fresh.late q dev inum (hold q dev inum hq) k hdev hinum r hr
    have hrp : r ≠ p := by grind [Pc.about_of_puts, Pc.puts_of_late]
    rwa [hother r hrp]

theorem pos_of_about (hp : (s.pc p).about = some k) : 0 < total s k :=
  Nat.pos_of_ne_zero fun hk => (h.unused k hk).2.2 p hp

theorem pos_of_lock (hp : (s.tab k).lock = some p) : 0 < total s k :=
  Nat.pos_of_ne_zero fun hk => by
    rw [(h.unused k hk).1] at hp
    cases hp

theorem live_via (hk : 0 < total s k) (hp : s.Uses p k)
    (hputs : (s.pc p).puts ≠ some k) : s.Live (s.via p k) k := by
  obtain ⟨h₁, h₂⟩ := (h.used k hk).own p hp
  refine ⟨h₁, fun hv => ?_⟩
  have heq := h₂ hv
  rw [heq] at hv
  exact hputs hv

theorem setVia (hv : s.Uses p k → 1 ≤ s.held o k ∧ ((s.pc o).puts = some k → o = p)) :
    Cached (s.setVia p k o) := by
  have hself : (s.setVia p k o).via p k = o := by simp [Sys.setVia]
  have hother : ∀ q k', q ≠ p ∨ k' ≠ k → (s.setVia p k o).via q k' = s.via q k' := by
    intro q k' hne
    simp only [Sys.setVia]
    rcases eq_or_ne q p with rfl | hq
    · rw [update_self, update_of_ne (hne.resolve_left fun h => h rfl)]
    · rw [update_of_ne hq]
  refine ⟨fun k' hk' => ?_, h.unused, { h.fresh with }⟩
  have hused := h.used k' hk'
  refine ⟨fun q hq => ?_, hused.here, hused.active, hused.body⟩
  by_cases heq : q = p ∧ k' = k
  · obtain ⟨rfl, rfl⟩ := heq
    rw [hself]
    exact hv hq
  · rw [hother q k' (by tauto)]
    exact hused.own q hq

/-! ### Allocation -/

theorem late_of_free (hk : 1 ≤ s.held q k) (hd : (s.dinode k).type = 0) :
    (s.pc q).late = some k := by
  have hused := h.used k (hk.trans (held_le_total s q k))
  have hputs : (s.pc q).puts = some k := by
    by_contra hp
    exact hused.active q ⟨hk, hp⟩ hd
  by_contra hl
  exact (hused.early hputs hl).2.1 hd

theorem mark {t : ℤ} (hc : s.pc p = .ialloc dev inum t) (hfree : (s.disk dev inum).type = 0) :
    Cached ((s.setDisk dev inum { Dinode.zero with type := t }).goto p (.allocated dev inum)) := by
  set s' := (s.setDisk dev inum { Dinode.zero with type := t }).goto p (.allocated dev inum)
    with hs'
  have ht : t ≠ 0 := h.fresh.type p dev inum t hc
  have hpc : s'.pc p = .allocated dev inum := update_self ..
  have hpc' : ∀ q, q ≠ p → s'.pc q = s.pc q := fun q hq => update_of_ne hq ..
  have habout : ∀ k q, s'.pc q = s.pc q ∨ (s.pc q).about ≠ some k ∧ (s'.pc q).about ≠ some k := by
    intro k q
    rcases eq_or_ne q p with rfl | hq
    · rw [hc, hpc]
      exact .inr ⟨nofun, nofun⟩
    · exact .inl (hpc' q hq)
  have hdisk : s'.disk dev inum = { Dinode.zero with type := t } := by simp [hs', setDisk, Sys.goto]
  have hdisk' : ∀ dev' inum', ¬ (dev' = dev ∧ inum' = inum) →
      s'.disk dev' inum' = s.disk dev' inum' := by
    intro dev' inum' hne
    simp only [hs', setDisk, Sys.goto]
    rcases eq_or_ne dev' dev with rfl | hd
    · rw [update_self, update_of_ne fun hi => hne ⟨rfl, hi⟩]
    · rw [update_of_ne hd]
  -- nobody else has marked the inode
  have hold : ∀ q dev' inum', s'.pc q = .allocated dev' inum' →
      q = p ∧ dev' = dev ∧ inum' = inum ∨
        s.pc q = .allocated dev' inum' ∧ ¬ (dev' = dev ∧ inum' = inum) := by grind [h.fresh.mark]
  refine ⟨fun k hk => ?_, fun k hk => ?_, ⟨fun q dev' inum' t' hq => ?_, fun q dev' inum' hq => ?_,
    fun q dev' inum' hq k hdev hinum r hr => ?_, fun q r dev' inum' hq hr => ?_⟩⟩
  · have hused := h.used k hk
    by_cases heq : (s.tab k).dev = dev ∧ (s.tab k).inum = inum
    · -- the entry is for an inode that was free
      have hd : s.dinode k = s.disk dev inum := by rw [dinode, heq.1, heq.2]
      have hd' : s'.dinode k = { Dinode.zero with type := t } := by
        rw [← hdisk, ← heq.1, ← heq.2]
        rfl
      have hmid : Used (s.goto p (.allocated dev inum)) k :=
        hused.frame rfl rfl rfl (fun _ => rfl) (fun _ => rfl) (habout k)
      refine ⟨hmid.own, hmid.here, fun _ _ => ?_, ?_⟩
      · rw [hd']
        exact ht
      · exact hmid.body.of_free (hd ▸ hfree)
    · exact hused.frame rfl (hdisk' _ _ heq) rfl (fun _ => rfl) (fun _ => rfl) (habout k)
  · obtain ⟨h₁, h₂, h₃⟩ := h.unused k hk
    refine ⟨h₁, h₂, fun q => ?_⟩
    rcases habout k q with heq | hne
    · rw [heq]
      exact h₃ q
    · exact hne.2
  · grind [h.fresh.type]
  · rcases hold q dev' inum' hq with ⟨-, rfl, rfl⟩ | ⟨hq, hne⟩
    · rw [hdisk]
      exact ⟨ht, rfl⟩
    · rw [hdisk' dev' inum' hne]
      exact h.fresh.mark q dev' inum' hq
  · have hlate : (s.pc r).late = some k := by
      rcases hold q dev' inum' hq with ⟨-, rfl, rfl⟩ | ⟨hq, -⟩
      · refine h.late_of_free hr ?_
        rw [dinode, show (s.tab k).dev = dev' from hdev, show (s.tab k).inum = inum' from hinum]
        exact hfree
      · exact h.fresh.late q dev' inum' hq k hdev hinum r hr
    have hrp : r ≠ p := by
      rintro rfl
      rw [hc] at hlate
      cases hlate
    rwa [hpc' r hrp]
  · grind [h.fresh.inj]

/-! ### References -/

theorem more {n : ℤ} (hpos : 0 < total s k) (hp : (s.pc p).puts ≠ some k)
    (hearly : ∀ q, (s.pc q).puts = some k → (s.pc q).late = some k) (htype : (s.dinode k).type ≠ 0)
    (hfresh : ∀ q, s.pc q ≠ .allocated (s.tab k).dev (s.tab k).inum) :
    Cached ((s.setEntry k fun e => { e with ref := n }).take p k) := by
  set s' := (s.setEntry k fun e => { e with ref := n }).take p k with hs'
  have hself : s'.held p k = s.held p k + 1 := held_setHeld_self (s.setEntry k _) p k _
  have hother : ∀ q, q ≠ p → s'.held q k = s.held q k := fun q hq => held_setHeld_other hq
  have hle : ∀ q, s.held q k ≤ s'.held q k := by grind
  refine h.hold (k := k) ⟨hpos, ⟨n, update_self ..⟩,
    fun k' hne => update_of_ne hne .., rfl, rfl, rfl, fun q k' hne => held_setHeld_ne hne,
    fun q => .inl rfl, fun q hq => ((h.used k hpos).own q hq).1.trans (hle _), fun q hq => ?_,
    .inr ⟨htype, hfresh⟩⟩
  have hqp : q ≠ p := by
    rintro rfl
    exact hp hq
  exact ⟨hother q hqp, fun hl => absurd (hearly q hq) hl⟩

theorem more_live {n : ℤ} (hp : (s.pc p).puts ≠ some k) (ho : s.Live o k) :
    Cached ((s.setEntry k fun e => { e with ref := n }).take p k) := by
  have hpos : 0 < total s k := ho.1.trans (held_le_total s o k)
  have hused := h.used k hpos
  refine h.more hpos hp (fun q hq => ?_) (hused.active o ho) fun q hq => ?_
  · by_contra hl
    have h₁ := (hused.here q).held_one hq
    have := held_of_total_one (hused.early hq hl).1 h₁.ge ho.1
    subst this
    exact ho.2 hq
  · exact ho.2 (Pc.puts_of_late (h.fresh.late q _ _ hq k rfl rfl o ho.1))

theorem less {n : ℤ} (hp : s.Live p k) (hfree : ∀ q, s.Uses q k → s.via q k = p → 2 ≤ s.held p k) :
    Cached ((s.setEntry k fun e => { e with ref := n }).drop p k) := by
  have hpos : 0 < total s k := hp.1.trans (held_le_total s p k)
  have hused := h.used k hpos
  set s' := (s.setEntry k fun e => { e with ref := n }).drop p k with hs'
  have hself : s'.held p k = s.held p k - 1 := held_setHeld_self (s.setEntry k _) p k _
  have hother : ∀ q, q ≠ p → s'.held q k = s.held q k := fun q hq => held_setHeld_other hq
  refine h.hold (k := k) ⟨hpos, ⟨n, update_self ..⟩,
    fun k' hne => update_of_ne hne .., rfl, rfl, rfl, fun q k' hne => held_setHeld_ne hne,
    fun q => .inl rfl, fun q hq => ?_, fun q hq => ?_, .inl fun q hq => ⟨?_, rfl⟩⟩
  · grind [Used]
  · have hqp : q ≠ p := by
      rintro rfl
      exact hp.2 hq
    refine ⟨hother q hqp, fun hl => ?_⟩
    have h₁ := (hused.here q).held_one hq
    exact absurd (held_of_total_one (hused.early hq hl).1 hp.1 h₁.ge) hqp
  · grind

theorem give (hp : s.Live p k) (hq : s.pc q = .idle)
    (hfree : ∀ r, s.Uses r k → s.via r k = p → 2 ≤ s.held p k) :
    Cached ((s.drop p k).take q k) := by
  have hpos : 0 < total s k := hp.1.trans (held_le_total s p k)
  have hused := h.used k hpos
  set s' := (s.drop p k).take q k with hs'
  have hother : ∀ r, r ≠ p → r ≠ q → s'.held r k = s.held r k := fun r hrp hrq =>
    (held_setHeld_other hrq).trans (held_setHeld_other hrp)
  have hmin : ∀ r, s.held r k ≤ s'.held r k + 1 ∧ (r ≠ p → s.held r k ≤ s'.held r k) := by
    intro r
    have hdrop : s.held r k ≤ (s.drop p k).held r k + 1 ∧
        (r ≠ p → s.held r k = (s.drop p k).held r k) := by
      rcases eq_or_ne r p with rfl | hrp
      · have : (s.drop r k).held r k = s.held r k - 1 := held_setHeld_self s r k _
        exact ⟨by omega, fun h => absurd rfl h⟩
      · have : (s.drop p k).held r k = s.held r k := held_setHeld_other hrp
        exact ⟨by omega, fun _ => this.symm⟩
    have htake : (s.drop p k).held r k ≤ s'.held r k := by
      rcases eq_or_ne r q with rfl | hrq
      · have : s'.held r k = (s.drop p k).held r k + 1 := held_setHeld_self (s.drop p k) r k _
        omega
      · exact (held_setHeld_other hrq).ge
    exact ⟨by omega, fun hrp => (hdrop.2 hrp).trans_le htake⟩
  refine h.hold (k := k) ⟨hpos, ⟨(s.tab k).ref, rfl⟩, fun _ _ => rfl, rfl, rfl, rfl,
    fun r k' hne => (held_setHeld_ne hne).trans (held_setHeld_ne hne), fun _ => .inl rfl,
    fun r hr => ?_, fun r hr => ?_, .inr ⟨hused.active p hp, fun r hr => ?_⟩⟩
  · grind [Used]
  · have hrp : r ≠ p := by
      rintro rfl
      exact hp.2 hr
    have hrq : r ≠ q := by
      rintro rfl
      rw [show s'.pc r = .idle from hq] at hr
      cases hr
    refine ⟨hother r hrp hrq, fun hl => ?_⟩
    have h₁ := (hused.here r).held_one hr
    exact absurd (held_of_total_one (hused.early hr hl).1 hp.1 h₁.ge) hrp
  · exact hp.2 (Pc.puts_of_late (h.fresh.late r _ _ hr k rfl rfl p hp.1))

theorem recycle (hk : total s k = 0)
    (htype : (s.disk dev inum).type ≠ 0) (hfresh : ∀ q, s.pc q ≠ .allocated dev inum) :
    Cached ((s.setEntry k fun e =>
      { e with dev := dev, inum := inum, ref := 1, valid := false }).take p k) := by
  set f : Entry N → Entry N := fun e =>
    { e with dev := dev, inum := inum, ref := 1, valid := false } with hf
  set s' := (s.setEntry k f).take p k with hs'
  have htab : s'.tab k = f (s.tab k) := update_self ..
  have htab' : ∀ k', k' ≠ k → s'.tab k' = s.tab k' := fun k' hne => update_of_ne hne ..
  have htotal' : ∀ k', k' ≠ k → total s' k' = total s k' := fun k' hne => total_setHeld_ne hne
  have htotal : total s' k ≠ 0 := by
    have := held_le_total s' p k
    have hself : s'.held p k = s.held p k + 1 := held_setHeld_self (s.setEntry k f) p k _
    omega
  obtain ⟨hlock, hdirty, habout⟩ := h.unused k hk
  refine ⟨fun k' hk' => ?_, fun k' hk' => ?_, ⟨h.fresh.type, h.fresh.mark,
    fun q dev' inum' hq k' hdev hinum r hr => ?_, h.fresh.inj⟩⟩
  · rcases eq_or_ne k' k with rfl | hne
    · have hd : s'.dinode k' = s.disk dev inum := by
        rw [dinode, htab]
        rfl
      refine ⟨fun q hq => ?_, fun q => Here.of_about_ne (habout q), fun q _ => ?_, ?_⟩
      · rcases hq with hq | hq
        · exact absurd (show (s.pc q).about = some k' by rw [show s.pc q = .lock k' from hq]; rfl)
            (habout q)
        · grind
      · rw [hd]
        exact htype
      · have hstage : s'.stage k' = none := by
          rw [Sys.stage, htab]
          simp only [hf, hlock, Option.map_none]
        rw [hstage, htab]
        exact ⟨hdirty, by rintro ⟨⟩⟩
    · refine (h.used k' (htotal' k' hne ▸ hk')).frame (htab' k' hne) ?_ rfl
        (fun q => held_setHeld_ne hne) (fun _ => rfl) fun _ => .inl rfl
      rw [dinode, htab' k' hne]
      rfl
  · have hne : k' ≠ k := by
      rintro rfl
      exact htotal hk'
    obtain ⟨h₁, h₂, h₃⟩ := h.unused k' (htotal' k' hne ▸ hk')
    exact ⟨htab' k' hne ▸ h₁, h₂, h₃⟩
  · rcases eq_or_ne k' k with rfl | hne
    · rw [htab] at hdev hinum
      exact absurd hq (hdev ▸ hinum ▸ hfresh q)
    · rw [htab' k' hne] at hdev hinum
      exact h.fresh.late q dev' inum' hq k' hdev hinum r (held_setHeld_ne hne ▸ hr)

end Cached

end Xv6.Itable
