import Xv6.Itable.Holds

/-!
Every step keeps the in-memory inodes in agreement with the disk, under the
rules that callers follow: an inode is locked, duplicated and put through
references, changed by the process that holds its lock, and written before it
is unlocked.
-/

namespace Xv6.Itable

open Sys
open Function (update_self update_of_ne)

variable {N : ℕ}
variable {s : Sys N}

/-! ### Steps as sections -/

namespace Sys

variable (s : Sys N) (p : Fin N) (k : ℕ) (c : Pc)

theorem setEntry_goto (f : Entry N → Entry N) :
    (s.setEntry k f).goto p c = s.sect p k (f (s.tab k)) (s.dinode k) (s.dirty k) c := by
  simp [sect, setEntry, setDisk, setDirty, goto, dinode]

theorem goto_eq : s.goto p c = s.sect p k (s.tab k) (s.dinode k) (s.dirty k) c := by
  simp [sect, setEntry, setDisk, setDirty, goto, dinode]

theorem change_goto (d : Dinode) :
    (s.change k d).goto p c = s.sect p k { s.tab k with d := d } (s.dinode k) true c := by
  simp [sect, change, setEntry, setDisk, setDirty, goto, dinode]

theorem iupdate_goto : (s.iupdate k).goto p c = s.sect p k (s.tab k) (s.tab k).d false c := by
  simp [sect, iupdate, setEntry, setDisk, setDirty, goto]

theorem goto_self : s.goto p (s.pc p) = s := by
  simp [goto]

end Sys

namespace Sect

variable {s : Sys N} {p o : Fin N} {k : ℕ} {e : Entry N} {d : Dinode} {b : Bool} {c : Pc}

theorem locked (h : Cached s) (hlock : (s.tab k).lock = some p) (hlock' : e.lock = some p)
    (hdev : e.dev = (s.tab k).dev) (hinum : e.inum = (s.tab k).inum)
    (hsrc : ∀ k', (s.pc p).about = some k' → k = k') (hdst : ∀ k', c.about = some k' → k = k')
    (hallocs : c.allocs = false) (hputs : c.puts = some k → (s.pc p).puts = some k)
    (hlate : (s.pc p).late = some k → c.late = some k)
    (hhere : Here (some p) (s.held p k) (total s k) p k c)
    (hactive : d.type ≠ 0 ∨ c.puts = some k ∧ (d = s.dinode k ∨ ∀ q, 1 ≤ s.held q k → q = p))
    (hfresh : d = s.dinode k ∨ (s.pc p).late ≠ some k)
    (hbody : Body e d b (some (c.stage k))) : Sect s p k e d b c := by
  have hpos := h.pos_of_lock hlock
  have hown := (h.used k hpos).own p (.inr hlock)
  refine ⟨hpos, hdev, hinum, hsrc, hdst, hallocs, .inl (hlock'.trans hlock.symm), fun _ => hown,
    fun hp => .inl (hputs hp), hlate, hlock' ▸ hhere, hactive, hfresh.imp_right fun hl => ?_, ?_⟩
  · grind [Pc.puts_of_late]
  · rw [hlock', Option.map_some, update_self]
    exact hbody

theorem unlocked (h : Cached s) (hlock : (s.tab k).lock = some p) (hlock' : e.lock = none)
    (hdev : e.dev = (s.tab k).dev) (hinum : e.inum = (s.tab k).inum)
    (hsrc : ∀ k', (s.pc p).about = some k' → k = k') (hdst : ∀ k', c.about = some k' → k = k')
    (hallocs : c.allocs = false) (hne : c ≠ .lock k)
    (hputs : c.puts = some k → (s.pc p).puts = some k)
    (hlate : (s.pc p).late = some k → c.late = some k)
    (hhere : Here none (s.held p k) (total s k) p k c)
    (hactive : (s.dinode k).type ≠ 0 ∨ c.puts = some k)
    (hbody : Body e (s.dinode k) b none) : Sect s p k e (s.dinode k) b c := by
  refine ⟨h.pos_of_lock hlock, hdev, hinum, hsrc, hdst, hallocs, .inr ⟨.inr hlock, .inl hlock'⟩,
    fun hown => ?_, fun hp => .inl (hputs hp), hlate, hlock' ▸ hhere,
    hactive.imp_right fun hp => ⟨hp, .inl rfl⟩, .inl rfl, ?_⟩
  · rw [hlock'] at hown
    exact hown.elim (fun hc => absurd hc hne) nofun
  · rw [hlock']
    exact hbody

theorem acquired (hpos : 0 < total s k) (hlock : (s.tab k).lock = none) (hlock' : e.lock = some p)
    (hdev : e.dev = (s.tab k).dev) (hinum : e.inum = (s.tab k).inum)
    (hsrc : ∀ k', (s.pc p).about = some k' → k = k') (hdst : ∀ k', c.about = some k' → k = k')
    (hallocs : c.allocs = false)
    (hown : 1 ≤ s.held (s.via p k) k ∧ ((s.pc (s.via p k)).puts = some k → s.via p k = p))
    (hputs : c.puts = some k → ∀ q, s.Uses q k → s.via q k = p → q = p)
    (hlate : (s.pc p).late ≠ some k) (hhere : Here (some p) (s.held p k) (total s k) p k c)
    (hactive : (s.dinode k).type ≠ 0) (hbody : Body e (s.dinode k) b (some (c.stage k))) :
    Sect s p k e (s.dinode k) b c := by
  refine ⟨hpos, hdev, hinum, hsrc, hdst, hallocs, .inr ⟨.inl hlock, .inr hlock'⟩, fun _ => hown,
    fun hp => .inr (hputs hp), fun hl => absurd hl hlate, hlock' ▸ hhere, .inl hactive,
    .inl rfl, ?_⟩
  rw [hlock', Option.map_some, update_self]
  exact hbody

end Sect

namespace Cached

variable {s s' : Sys N} {k k' dev inum : ℕ} {p q o : Fin N}
variable {c : Pc}

section

variable (hrefs : Refs s) (h : Cached s)
variable {c : Pc}
include hrefs h

theorem lock (hc : s.pc p = .lock k) (hlock : (s.tab k).lock = none) :
    Cached ((s.setEntry k fun e => { e with lock := some p }).goto p (.load k)) := by
  have hpos := h.pos_of_about (p := p) (k := k) (by rw [hc]; rfl)
  have hused := h.used k hpos
  have hown := hused.own p (.inl hc)
  have hlive := h.live_via hpos (.inl hc) (by rw [hc]; exact nofun)
  have htype := hused.active _ hlive
  obtain ⟨hdirty, hvalid⟩ := hused.body_of_free hlock
  rw [setEntry_goto]
  refine h.sect hrefs (.acquired hpos hlock rfl rfl rfl ?_ ?_ rfl hown nofun ?_ (fun _ => rfl)
    htype ?_)
  · rw [hc]
    exact fun _ => Option.some.inj
  · exact fun _ => Option.some.inj
  · rw [hc]
    exact nofun
  · rw [Pc.stage_of_about rfl]
    exact ⟨hdirty, htype, fun hv => (hvalid hv).1⟩

theorem work {e : Entry N} {d : Dinode} {b : Bool} {c' : Pc} (hc : s.pc p = c)
    (hlock : (s.tab k).lock = some p) (hlock' : e.lock = some p) (hdev : e.dev = (s.tab k).dev)
    (hinum : e.inum = (s.tab k).inum) (habout : c.about = some k) (habout' : c'.about = some k)
    (hputs : c'.puts = c.puts) (hlate : c.late = some k → c'.late = some k)
    (hhere : Here (some p) (s.held p k) (total s k) p k c')
    (hactive : d.type ≠ 0 ∨ c.puts = some k ∧ (d = s.dinode k ∨ ∀ q, 1 ≤ s.held q k → q = p))
    (hfresh : d = s.dinode k ∨ c.late ≠ some k) (hbody : Body e d b (some c')) :
    Cached (s.sect p k e d b c') := by
  subst hc
  refine h.sect hrefs (.locked h hlock hlock' hdev hinum ?_ ?_ ?_ ?_ hlate hhere
    (hputs ▸ hactive) hfresh ?_)
  · rw [habout]
    exact fun _ => Option.some.inj
  · rw [habout']
    exact fun _ => Option.some.inj
  · cases c' <;> first | rfl | cases habout'
  · rw [hputs]
    exact id
  · rwa [Pc.stage_of_about habout']

theorem done {e : Entry N} {d : Dinode} {b : Bool} (hc : s.pc p = c)
    (hlock : (s.tab k).lock = some p) (hlock' : e.lock = some p) (hdev : e.dev = (s.tab k).dev)
    (hinum : e.inum = (s.tab k).inum) (habout : c.about = some k ∨ c.about = none)
    (hputs : c.puts = none) (hbody : User e d b) : Cached (s.sect p k e d b .idle) := by
  subst hc
  have hlate : (s.pc p).late ≠ some k := fun hl => by
    rw [Pc.puts_of_late hl] at hputs
    cases hputs
  refine h.sect hrefs (.locked h hlock hlock' hdev hinum ?_ nofun rfl nofun
    (fun hl => absurd hl hlate) trivial (.inl hbody.alloc) (.inr hlate) hbody)
  intro k' hk'
  rcases habout with h₁ | h₁
  · rw [h₁] at hk'
    exact Option.some.inj hk'
  · rw [h₁] at hk'
    cases hk'

theorem ilock_run (hc : s.pc p = c) (hs : Run s p c s') (hin : c = .load k ∨ c = .loaded k) :
    Cached s' := by
  have hpos := h.pos_of_about (p := p) (k := k) (by rcases hin with rfl | rfl <;> rw [hc] <;> rfl)
  have hused := h.used k hpos
  have hhere := hused.here p
  rw [hc] at hhere
  have hlock : (s.tab k).lock = some p := by rcases hin with rfl | rfl <;> exact hhere rfl
  have hbody := hused.body_of_lock hlock (by rcases hin with rfl | rfl <;> rw [hc] <;> rfl)
  rw [hc] at hbody
  rcases hin with rfl | rfl
  · obtain ⟨hdirty, htype, hvalid⟩ := hbody
    cases hs with
    | cached hv =>
      rw [goto_eq s p k]
      exact h.done hrefs hc hlock hlock rfl rfl (.inl rfl) rfl
        ⟨hv, by rw [hvalid hv], htype, fun _ => hvalid hv⟩
    | load hv =>
      rw [setEntry_goto]
      exact h.work hrefs hc hlock hlock rfl rfl rfl rfl rfl nofun (fun _ => rfl) (.inl htype)
        (.inl rfl) ⟨hdirty, htype, rfl⟩
  · obtain ⟨hdirty, htype, hd⟩ := hbody
    cases hs with
    | loaded =>
      rw [setEntry_goto]
      exact h.done hrefs hc hlock hlock rfl rfl (.inl rfl) rfl
        ⟨rfl, congrArg Dinode.type hd, htype, fun _ => hd⟩

end

theorem here_body (h : Cached s) (hc : s.pc p = c) (habout : c.about = some k) :
    0 < total s k ∧ Here (s.tab k).lock (s.held p k) (total s k) p k c ∧
      ((s.tab k).lock = some p → Body (s.tab k) (s.dinode k) (s.dirty k) (some c)) := by
  subst hc
  have hpos := h.pos_of_about habout
  exact ⟨hpos, (h.used k hpos).here p, fun hlock => (h.used k hpos).body_of_lock hlock habout⟩

theorem itrunc_run {put : Bool} (hrefs : Refs s) (h : Cached s) (hc : s.pc p = c)
    (hs : Run s p c s') (hin : c = .trunc k put ∨ c = .truncUp k put) : Cached s' := by
  obtain ⟨-, hhere, hbody⟩ := h.here_body (k := k) hc (by rcases hin with rfl | rfl <;> rfl)
  rcases hin with rfl | rfl
  · obtain ⟨hlock, hheld⟩ := hhere rfl
    obtain ⟨huser, hnlink⟩ := hbody hlock
    cases hs with
    | trunc =>
      rw [change_goto]
      refine h.work hrefs hc hlock hlock rfl rfl rfl rfl ?_ nofun (fun _ => ⟨rfl, hheld⟩)
        (.inl huser.alloc) (.inl rfl) ⟨⟨huser.valid, huser.type, huser.alloc, nofun⟩, hnlink⟩
      cases put <;> rfl
  · obtain ⟨hlock, hheld⟩ := hhere rfl
    obtain ⟨huser, hnlink⟩ := hbody hlock
    have htype : (s.tab k).d.type ≠ 0 := huser.type ▸ huser.alloc
    have huser' : User (s.tab k) (s.tab k).d false := ⟨huser.valid, rfl, htype, fun _ => rfl⟩
    cases hs with
    | truncUp =>
      rw [iupdate_goto]
      cases put with
      | false => exact h.done hrefs hc hlock hlock rfl rfl (.inl rfl) rfl huser'
      | true =>
        exact h.work hrefs hc hlock hlock rfl rfl rfl rfl rfl nofun (fun _ => ⟨rfl, hheld rfl⟩)
          (.inl htype) (.inr nofun) ⟨huser', (hnlink rfl).2, (hnlink rfl).2⟩

theorem iput_free (hrefs : Refs s) (h : Cached s) (hc : s.pc p = c) (hs : Run s p c s')
    (hin : c = .putType k ∨ c = .putUp k) : Cached s' := by
  obtain ⟨-, hhere, hbody⟩ := h.here_body (k := k) hc (by rcases hin with rfl | rfl <;> rfl)
  rcases hin with rfl | rfl
  · obtain ⟨hlock, hheld, htotal⟩ := hhere rfl
    obtain ⟨huser, hnlink, -⟩ := hbody hlock
    cases hs with
    | putType =>
      rw [change_goto]
      exact h.work hrefs hc hlock hlock rfl rfl rfl rfl rfl nofun
        (fun _ => ⟨rfl, hheld, htotal⟩) (.inl huser.alloc) (.inl rfl) ⟨huser.alloc, hnlink⟩
  · obtain ⟨hlock, hheld, htotal⟩ := hhere rfl
    cases hs with
    | putUp =>
      -- from here on the inode may be allocated by others
      rw [iupdate_goto]
      exact h.work hrefs hc hlock hlock rfl rfl rfl rfl rfl nofun (fun _ => ⟨rfl, hheld⟩)
        (.inr ⟨rfl, .inr fun q hq => held_of_total_one htotal hheld.ge hq⟩) (.inr nofun) rfl

theorem iput_leave (hrefs : Refs s) (h : Cached s) (hc : s.pc p = c) (hs : Run s p c s')
    (hin : c = .putInvalid k ∨ c = .putUnlock k) : Cached s' := by
  obtain ⟨-, hhere, hbody⟩ := h.here_body (k := k) hc (by rcases hin with rfl | rfl <;> rfl)
  rcases hin with rfl | rfl
  · obtain ⟨hlock, hheld⟩ := hhere rfl
    cases hs with
    | putInvalid =>
      rw [setEntry_goto]
      exact h.work hrefs hc hlock hlock rfl rfl rfl rfl rfl (fun _ => rfl)
        (fun _ => ⟨rfl, hheld⟩) (.inr ⟨rfl, .inl rfl⟩) (.inl rfl) ⟨hbody hlock, rfl⟩
  · obtain ⟨hlock, hheld⟩ := hhere rfl
    obtain ⟨hdirty, hvalid⟩ := hbody hlock
    cases hs with
    | putUnlock =>
      rw [setEntry_goto]
      refine h.sect hrefs (.unlocked h hlock rfl rfl rfl ?_ (fun _ => Option.some.inj) rfl nofun ?_
        (fun _ => rfl) (fun _ => ⟨nofun, hheld⟩) (.inr rfl) ⟨hdirty, fun hv => ?_⟩)
      · rw [hc]
        exact fun _ => Option.some.inj
      · rw [hc]
        exact id
      · exact absurd (hvalid.symm.trans hv) nofun

/-- `iput` drops the reference of an inode that it has freed. -/
theorem iput_end (h : Cached s) (hc : s.pc p = .putDec k) :
    Cached (((s.setEntry k fun e => { e with ref := e.ref - 1 }).drop p k).goto p .idle) := by
  obtain ⟨hpos, hhere, -⟩ := h.here_body (k := k) hc rfl
  obtain ⟨hlock, hheld⟩ := hhere rfl
  set s' := ((s.setEntry k fun e => { e with ref := e.ref - 1 }).drop p k).goto p .idle with hs'
  have hpc : s'.pc p = .idle := update_self ..
  have hpc' : ∀ q, q ≠ p → s'.pc q = s.pc q := fun q hq => update_of_ne hq ..
  have hself : s'.held p k = 0 := by
    have : s'.held p k = s.held p k - 1 := held_setHeld_self (s.setEntry k _) p k _
    omega
  have hother : ∀ q, q ≠ p → s'.held q k = s.held q k := fun q hq => held_setHeld_other hq
  refine h.hold (k := k) ⟨hpos, ⟨_, update_self ..⟩, fun k' hne => update_of_ne hne ..,
    rfl, rfl, rfl, fun q k' hne => held_setHeld_ne hne, fun q => ?_, fun q hq => ?_, fun q hq => ?_,
    .inl fun q hq => ?_⟩
  · grind
  · -- nobody else uses the reference that is put
    obtain ⟨h₁, h₂⟩ := (h.used k hpos).own q hq
    have hv : s.via q k ≠ p := by
      intro hv
      have hqp : q = p := by rw [← h₂ (by rw [hv, hc]; rfl), hv]
      subst hqp
      rcases hq with hq | hq
      · rw [hc] at hq
        cases hq
      · exact hlock hq
    rwa [hother _ hv]
  · have hqp : q ≠ p := by
      rintro rfl
      rw [hpc] at hq
      cases hq
    refine ⟨hother q hqp, fun hl => ?_⟩
    -- a process that frees the inode would have the only reference
    rw [hpc' q hqp] at hq
    have htotal := ((h.used k hpos).early hq hl).1
    have hq1 := ((h.used k hpos).here q).held_one hq
    exact absurd (held_of_total_one htotal hheld.ge hq1.ge) hqp
  · grind

theorem iget (h : Cached s) (hrefs : Refs s) (hp : s.pc p = .idle)
    (htype : (s.disk dev inum).type ≠ 0) (hfresh : ∀ q, s.pc q ≠ .allocated dev inum)
    (hearly : ∀ k q, (s.tab k).dev = dev → (s.tab k).inum = inum → (s.pc q).puts = some k →
      (s.pc q).late = some k) (hs : Iget s p dev inum s') : Cached s' := by
  cases hs with
  | @hit k hk href hdev hinum =>
    rw [hrefs.count] at href
    subst hdev hinum
    exact h.more (by exact_mod_cast href) (by rw [hp]; exact nofun)
      (fun q => hearly k q rfl rfl) htype hfresh
  | @recycle k hk href => grind [hrefs.count, h.recycle]

theorem iget_linked (h : Cached s) (hrefs : Refs s) (hp : s.pc p = .idle)
    (htype : (s.disk dev inum).type ≠ 0) (hnlink : (s.disk dev inum).nlink ≠ 0)
    (hs : Iget s p dev inum s') : Cached s' := by
  refine h.iget hrefs hp htype (fun q hq => ?_) (fun k q hdev hinum hq => ?_) hs
  · exact hnlink (h.fresh.mark q dev inum hq).2
  · by_contra hl
    subst hdev hinum
    have hpos := h.pos_of_about (Pc.about_of_puts hq)
    exact hnlink ((h.used k hpos).early hq hl).2.2

theorem iget_marked (h : Cached s) (hrefs : Refs s) (hp : s.pc p = .allocated dev inum)
    (hs : Iget (s.goto p .idle) p dev inum s') : Cached s' := by
  have hmark := (h.fresh.mark p dev inum hp).1
  have hg : Cached (s.goto p .idle) := h.goto (by rw [hp]; rfl) rfl nofun nofun
  have hself : (s.goto p .idle).pc p = .idle := update_self ..
  have hother : ∀ q, q ≠ p → (s.goto p .idle).pc q = s.pc q := fun q hq =>
    update_of_ne hq ..
  refine hg.iget (hrefs.goto nofun) hself hmark (fun q hq => ?_) (fun k q hdev hinum hq => ?_) hs
  · grind [h.fresh.inj]
  · have hpos := hg.pos_of_about (Pc.about_of_puts hq)
    have hheld := ((hg.used k hpos).here q).held_one hq
    rcases eq_or_ne q p with rfl | hqp
    · rw [hself] at hq
      cases hq
    · rw [hother q hqp]
      exact h.fresh.late p dev inum hp k hdev hinum q hheld.ge

theorem run {c : Pc} (hrefs : Refs s) (h : Cached s) (hc : s.pc p = c) (hs : Run s p c s') :
    Cached s' := by
  cases hs with
  | @next dev inum t =>
    have ht := h.fresh.type p dev inum t hc
    refine h.goto (by rw [hc]; rfl) rfl (fun dev' inum' t' heq => ?_) nofun
    cases heq
    exact ht
  | none => exact h.goto (by rw [hc]; rfl) rfl nofun nofun
  | mark _ hfree => exact h.mark hc hfree
  | iget hget => exact h.iget_marked hrefs hc hget
  | lock hlock => exact h.lock hrefs hc hlock
  | cached hv => exact h.ilock_run hrefs hc (.cached hv) (.inl rfl)
  | load hv => exact h.ilock_run hrefs hc (.load hv) (.inl rfl)
  | loaded hd => exact h.ilock_run hrefs hc (.loaded hd) (.inr rfl)
  | trunc => exact h.itrunc_run hrefs hc .trunc (.inl rfl)
  | truncUp => exact h.itrunc_run hrefs hc .truncUp (.inr rfl)
  | putType => exact h.iput_free hrefs hc .putType (.inl rfl)
  | putUp => exact h.iput_free hrefs hc .putUp (.inr rfl)
  | putInvalid => exact h.iput_leave hrefs hc .putInvalid (.inl rfl)
  | putUnlock => exact h.iput_leave hrefs hc .putUnlock (.inr rfl)
  | putDec => exact h.iput_end hc

end Cached

/-! ### Calls -/

/-- The rules that callers follow. `iget` is called for inodes that have links;
an inode is locked and duplicated through a reference that `iput` is not at; a
reference that somebody locks the inode through is not put or handed on; only
who holds the lock changes the inode, and not its type; a change is written
before the inode is unlocked. -/
def Contract (s : Sys N) : Act N → Prop
  | .ialloc _ _ type => type ≠ 0
  | .iget _ dev inum => (s.disk dev inum).type ≠ 0 ∧ (s.disk dev inum).nlink ≠ 0
  | .idup _ k => ∃ o, s.Live o k
  | .ilock _ o k => s.Live o k
  | .iunlock _ k => s.dirty k = false
  | .iupdate p k => (s.tab k).lock = some p
  | .change p k d => (s.tab k).lock = some p ∧ d.type = (s.tab k).d.type
  | .itrunc p k => (s.tab k).lock = some p
  | .iput p k => s.Live p k ∧ ∀ q, s.Uses q k → s.via q k = p → 2 ≤ s.held p k
  | .give p _ k => s.Live p k ∧ ∀ q, s.Uses q k → s.via q k = p → 2 ≤ s.held p k
  | .step _ => True

theorem Contract.refsOk {a : Act N} (hrefs : Refs s) (h : Contract s a) : RefsOk s a := by
  cases a with
  | idup p k =>
    obtain ⟨o, ho⟩ := h
    have hpos : 0 < total s k := ho.1.trans (held_le_total s o k)
    rw [RefsOk, hrefs.count]
    exact_mod_cast hpos
  | iput p k => exact h.1.1
  | give p q k => exact h.1
  | _ => trivial

namespace Cached

variable {s s' : Sys N} {k : ℕ} {p q o : Fin N}

variable (hrefs : Refs s) (h : Cached s)
include hrefs h

theorem ilock (hc : s.pc p = .idle) (ho : s.Live o k) :
    Cached ((s.setVia p k o).goto p (.lock k)) := by
  have hpos : 0 < total s k := ho.1.trans (held_le_total s o k)
  have hv : Cached (s.setVia p k o) := h.setVia fun _ => ⟨ho.1, fun hp => absurd hp ho.2⟩
  have hvia : (s.setVia p k o).via p k = o := by simp [Sys.setVia]
  have hused := hv.used k hpos
  rw [goto_eq _ p k]
  refine hv.sect hrefs.setVia ⟨hpos, rfl, rfl, ?_, fun _ => Option.some.inj, rfl, .inl rfl,
    fun _ => ?_, by rintro ⟨⟩, ?_, trivial, .inl ((h.used k hpos).active o ho), .inl rfl, ?_⟩
  · rw [show (s.setVia p k o).pc p = .idle from hc]
    rintro _ ⟨⟩
  · rw [hvia]
    exact ⟨ho.1, fun hp => absurd hp ho.2⟩
  · rw [show (s.setVia p k o).pc p = .idle from hc]
    rintro ⟨⟩
  · -- a process that has the lock already waits for itself
    have hb := hused.body
    rw [Sys.stage] at hb
    rcases hlock : ((s.setVia p k o).tab k).lock with _ | q
    · rwa [hlock] at hb
    · rw [hlock, Option.map_some] at hb
      rw [Option.map_some]
      rcases eq_or_ne q p with rfl | hqp
      · rw [update_self, Pc.stage_of_about rfl]
        rw [show (s.setVia q k o).pc q = .idle from hc] at hb
        exact hb
      · rwa [update_of_ne hqp]

theorem iunlock (hc : s.pc p = .idle) (hlock : (s.tab k).lock = some p)
    (hdirty : s.dirty k = false) : Cached (s.setEntry k fun e => { e with lock := none }) := by
  have huser := (h.used k (h.pos_of_lock hlock)).user_of_lock hlock (by rw [hc]; exact nofun)
  rw [← goto_self (s.setEntry k _) p, setEntry_goto]
  refine h.sect hrefs ?_
  rw [show (s.setEntry k _).pc p = .idle from hc]
  refine .unlocked h hlock rfl rfl rfl ?_ nofun rfl nofun nofun ?_ trivial (.inl huser.alloc)
    ⟨hdirty, fun _ => ⟨huser.sync hdirty, huser.alloc⟩⟩
  · rw [hc]
    exact nofun
  · rw [hc]
    exact nofun

theorem iupdate (hc : s.pc p = .idle) (hlock : (s.tab k).lock = some p) : Cached (s.iupdate k) := by
  have huser := (h.used k (h.pos_of_lock hlock)).user_of_lock hlock (by rw [hc]; exact nofun)
  rw [← goto_self (s.iupdate k) p, iupdate_goto, show (s.iupdate k).pc p = .idle from hc]
  exact h.done hrefs hc hlock hlock rfl rfl (.inr rfl) rfl
    ⟨huser.valid, rfl, huser.type ▸ huser.alloc, fun _ => rfl⟩

theorem change {d : Dinode} (hc : s.pc p = .idle)
    (hlock : (s.tab k).lock = some p) (hd : d.type = (s.tab k).d.type) : Cached (s.change k d) := by
  have huser := (h.used k (h.pos_of_lock hlock)).user_of_lock hlock (by rw [hc]; exact nofun)
  rw [← goto_self (s.change k d) p, change_goto, show (s.change k d).pc p = .idle from hc]
  exact h.done hrefs hc hlock hlock rfl rfl (.inr rfl) rfl
    ⟨huser.valid, hd.trans huser.type, huser.alloc, nofun⟩

theorem itrunc (hc : s.pc p = .idle)
    (hlock : (s.tab k).lock = some p) : Cached (s.goto p (.trunc k false)) := by
  have huser := (h.used k (h.pos_of_lock hlock)).user_of_lock hlock (by rw [hc]; exact nofun)
  rw [goto_eq s p k]
  refine h.sect hrefs (.locked h hlock hlock rfl rfl ?_ (fun _ => Option.some.inj) rfl nofun ?_
    (fun _ => ⟨rfl, nofun⟩) (.inl huser.alloc) (.inl rfl) ?_)
  · rw [hc]
    exact nofun
  · rw [hc]
    exact nofun
  · rw [Pc.stage_of_about rfl]
    exact ⟨huser, nofun⟩

theorem lock_free (hok : Contract s (.iput p k))
    (href : (s.tab k).ref = 1) : (s.tab k).lock = none := by
  obtain ⟨hlive, hfree⟩ := hok
  rw [hrefs.count] at href
  have htotal : total s k = 1 := by exact_mod_cast href
  have hle := held_le_total s p k
  refine Option.eq_none_iff_forall_ne_some.mpr fun q hq => ?_
  have hown := (h.used k (by omega)).own q (.inr hq)
  have hv := held_of_total_one htotal hlive.1 hown.1
  have := hfree q (.inr hq) hv
  omega

theorem free (hc : s.pc p = .idle) (hok : Contract s (.iput p k))
    (href : (s.tab k).ref = 1) (hvalid : (s.tab k).valid = true)
    (hnlink : (s.tab k).d.nlink = 0) (hlock : (s.tab k).lock = none) :
    Cached (((s.setEntry k fun e => { e with lock := some p }).setVia p k p).goto p
      (.trunc k true)) := by
  obtain ⟨hlive, hfree⟩ := hok
  rw [hrefs.count] at href
  have htotal : total s k = 1 := by exact_mod_cast href
  have hheld : s.held p k = 1 := by
    have := hlive.1
    have := held_le_total s p k
    omega
  -- nobody waits for the lock, since it would be through this reference
  have hno : ∀ q, ¬ s.Uses q k := fun q hq => by
    have hown := (h.used k (by omega)).own q hq
    have := hfree q hq (held_of_total_one htotal hlive.1 hown.1)
    omega
  have hv : Cached (s.setVia p k p) := h.setVia fun hu => absurd hu (hno p)
  obtain ⟨hdirty, hd⟩ := (h.used k (by omega)).body_of_free hlock
  obtain ⟨hd, htype⟩ := hd hvalid
  have hvia : (s.setVia p k p).via p k = p := by simp [Sys.setVia]
  have hpc : (s.setVia p k p).pc p = .idle := hc
  have hs :
    ((s.setEntry k fun e => { e with lock := some p }).setVia p k p).goto p (.trunc k true) =
      ((s.setVia p k p).setEntry k fun e => { e with lock := some p }).goto p (.trunc k true) := rfl
  rw [hs, setEntry_goto]
  refine hv.sect hrefs.setVia (.acquired (htotal ▸ Nat.one_pos) hlock rfl rfl rfl ?_
    (fun _ => Option.some.inj) rfl ⟨?_, ?_⟩ (fun _ q hq => absurd hq (hno q)) ?_
    (fun _ => ⟨rfl, fun _ => ⟨hheld, htotal⟩⟩) htype ?_)
  · rw [hpc]
    rintro _ ⟨⟩
  · rw [hvia]
    exact hheld.ge
  · rw [hvia]
    exact fun _ => rfl
  · rw [hpc]
    rintro ⟨⟩
  · rw [Pc.stage_of_about rfl]
    exact ⟨⟨hvalid, congrArg Dinode.type hd, htype, fun _ => hd⟩, fun _ =>
      ⟨(congrArg Dinode.nlink hd).symm.trans hnlink, hnlink⟩⟩

theorem step {a : Act N} (hok : Contract s a) (hs : Step s a s') : Cached s' := by
  cases hs with
  | run hr => exact h.run hrefs rfl hr
  | ialloc hpc =>
    refine h.goto (by rw [hpc]; rfl) rfl (fun dev inum t heq => ?_) nofun
    cases heq
    exact hok
  | iget hpc hget => exact h.iget_linked hrefs hpc hok.1 hok.2 hget
  | idup hpc =>
    obtain ⟨o, ho⟩ := hok
    exact h.more_live (by rw [hpc]; exact nofun) ho
  | ilock hpc => exact h.ilock hrefs hpc hok
  | iunlock hpc hlock => exact h.iunlock hrefs hpc hlock hok
  | iupdate hpc => exact h.iupdate hrefs hpc hok
  | change hpc => exact h.change hrefs hpc hok.1 hok.2
  | itrunc hpc => exact h.itrunc hrefs hpc hok
  | free hpc href hvalid hnlink hlock => exact h.free hrefs hpc hok href hvalid hnlink hlock
  | iput hpc => exact h.less hok.1 hok.2
  | give hpc => exact h.give hok.1 hpc hok.2

end Cached

theorem Init.cached {s : Sys N} (h : Init s) : Cached s := by
  have htotal : ∀ k, total s k = 0 := fun k => Finset.sum_eq_zero fun p _ => h.held p k
  refine ⟨fun k hk => ?_, fun k _ => ⟨h.lock k, h.dirty k, fun q => ?_⟩,
    ⟨fun q _ _ _ hq => ?_, fun q _ _ hq => ?_, fun q _ _ hq => ?_, fun q _ _ _ hq => ?_⟩⟩
  · exact absurd (htotal k) hk.ne'
  · rw [h.pc]
    exact nofun
  all_goals
    rw [h.pc] at hq
    cases hq

theorem cached_of_reachable (h : Interleaving Contract s) : Refs s ∧ Cached s :=
  h.invariant (I := fun s => Refs s ∧ Cached s) (fun _ hs => ⟨hs.refs, hs.cached⟩)
    fun _ _ _ hI ha hs => ⟨hI.1.step (ha.refsOk hI.1) (step_cases hs),
      hI.2.step hI.1 ha (step_cases hs)⟩

/-- `ilock` never loads a free inode. -/
theorem Cached.loaded_type {p : Fin N} {k : ℕ} (h : Cached s) (hc : s.pc p = .loaded k) :
    (s.tab k).d.type ≠ 0 := by
  obtain ⟨-, hhere, hbody⟩ := h.here_body (k := k) hc rfl
  obtain ⟨-, htype, hd⟩ := hbody (hhere rfl)
  rwa [hd]

theorem noType_cases {a : Act N} (h : s.step a = .error .noType) :
    ∃ p k, s.pc p = .loaded k ∧ (s.tab k).d.type = 0 := by
  cases a with
  | step p => grind [Sys.step, Sys.run, Sys.iget]
  | iget p dev inum => grind [Sys.step, Sys.iget]
  | _ =>
    simp only [Sys.step] at h
    split_ifs at h <;> cases h

/-- In-memory inodes agree with the disk: a process that has locked an inode
with `ilock`, and has no change that is not written, sees the inode as it is on
disk, and it is allocated. When `iput` takes the lock of an inode to free it,
nobody holds it. Nor does `ilock` ever read a free inode. -/
theorem cached_inodes_agree {N : ℕ} {s : Sys N} (h : Interleaving Contract s) :
    (∀ p k, (s.tab k).lock = some p → (s.pc p).about ≠ some k → s.dirty k = false →
      (s.tab k).d = s.dinode k ∧ (s.tab k).d.type ≠ 0) ∧
    (∀ p k, Contract s (.iput p k) → (s.tab k).ref = 1 → (s.tab k).valid = true →
      (s.tab k).d.nlink = 0 → (s.tab k).lock = none) ∧
    ∀ a, Contract s a → s.step a ≠ .error .noType := by
  obtain ⟨hrefs, hcached⟩ := cached_of_reachable h
  refine ⟨fun p k hlock habout hdirty => ?_,
    fun p k hok href _ _ => hcached.lock_free hrefs hok href,
    fun a _ herr => ?_⟩
  · have huser := (hcached.used k (hcached.pos_of_lock hlock)).user_of_lock hlock habout
    exact ⟨huser.sync hdirty, huser.type ▸ huser.alloc⟩
  · obtain ⟨p, k, hpc, htype⟩ := noType_cases herr
    exact hcached.loaded_type hpc htype

instance (s : Sys N) (p : Fin N) (k : ℕ) : Decidable (s.Uses p k) :=
  inferInstanceAs (Decidable (_ ∨ _))

instance (s : Sys N) (o : Fin N) (k : ℕ) : Decidable (s.Live o k) :=
  inferInstanceAs (Decidable (_ ∧ _))

instance (s : Sys N) : (a : Act N) → Decidable (Contract s a)
  | .ialloc .. => inferInstanceAs (Decidable (_ ≠ _))
  | .idup _ k => inferInstanceAs (Decidable (∃ o, s.Live o k))
  | .ilock _ o k => inferInstanceAs (Decidable (s.Live o k))
  | .iunlock .. | .iupdate .. | .itrunc .. => inferInstanceAs (Decidable (_ = _))
  | .iget .. | .change .. => inferInstanceAs (Decidable (_ ∧ _))
  | .iput p k | .give p _ k =>
    inferInstanceAs (Decidable (s.Live p k ∧ ∀ q, s.Uses q k → s.via q k = p → 2 ≤ s.held p k))
  | .step _ => .isTrue trivial

def allocLock : List (Act 2) :=
  [.ialloc 0 1 2, .step 0, .step 0, .ilock 0 0 0, .step 0, .step 0, .step 0, .iunlock 0 0]

/-- Process 0 puts the inode. Process 1 allocates it while `iput` is at work,
and waits for the lock. -/
def putRealloc : List (Act 2) :=
  [.iput 0 0, .step 0, .step 0, .step 0, .step 0, .ialloc 1 1 2, .step 1, .step 1, .ilock 1 1 0,
    .step 0, .step 0, .step 1, .step 0, .step 1, .step 1]

theorem cached_inodes_agree_putRealloc :
    (∃ s, runActs Contract Sys.step allocLock (empty 2) = some s ∧ (s.tab 0).lock = none) ∧
    ∃ s, runActs Contract Sys.step (allocLock ++ putRealloc) (empty 2) = some s ∧
      (s.tab 0).lock = some 1 ∧ (s.tab 0).d = s.dinode 0 ∧ (s.tab 0).d.type ≠ 0 ∧
      s.step (.step 1) ≠ .error .noType := by
  constructor
  · obtain ⟨s, hs, href, hvalid, hnlink, hok⟩ :
        ∃ s ∈ runActs Contract Sys.step allocLock (empty 2), (s.tab 0).ref = 1 ∧
          (s.tab 0).valid = true ∧ (s.tab 0).d.nlink = 0 ∧ Contract s (.iput 0 0) := by
      decide +kernel
    have hreach : Interleaving Contract s := (Reachable.init (empty_init 2)).runActs hs
    exact ⟨s, hs, (cached_inodes_agree hreach).2.1 0 0 hok href hvalid hnlink⟩
  · obtain ⟨s, hs, hlock, hpc, hdirty⟩ :
        ∃ s ∈ runActs Contract Sys.step (allocLock ++ putRealloc) (empty 2),
          (s.tab 0).lock = some 1 ∧ s.pc 1 = .idle ∧ s.dirty 0 = false := by
      decide +kernel
    have hreach : Interleaving Contract s := (Reachable.init (empty_init 2)).runActs hs
    obtain ⟨hagree, -, hno⟩ := cached_inodes_agree hreach
    have h₁ := hagree 1 0 hlock (by rw [hpc]; exact nofun) hdirty
    exact ⟨s, hs, hlock, h₁.1, h₁.2, hno (.step 1) trivial⟩

end Xv6.Itable
