import Xv6.Itable.Refs

/-!
In-memory inodes agree with the disk.

What is known of an entry in use depends on whether its lock is held, and on where the
process that holds it is (`Body`). While `iput` frees an inode, nobody else has a
reference to it (`Here`), until the inode is free on disk. From then on another process
may allocate it and get a reference to the same entry, and `iput` only invalidates the
entry and drops its own reference.
-/

namespace Xv6.Itable

open Sys
open Function (update update_self update_of_ne)

variable {N : ℕ}

namespace Pc

variable {c : Pc} {k : ℕ}

/-- The entry that a process is about to lock, has locked or is putting. -/
def about : Pc → Option ℕ
  | .lock k => some k
  | .load k => some k
  | .loaded k => some k
  | .trunc k _ => some k
  | .truncUp k _ => some k
  | .putType k => some k
  | .putUp k => some k
  | .putInvalid k => some k
  | .putUnlock k => some k
  | .putDec k => some k
  | _ => none

/-- The entry that `iput` has freed on disk. -/
def late : Pc → Option ℕ
  | .putInvalid k => some k
  | .putUnlock k => some k
  | .putDec k => some k
  | _ => none

def allocs : Pc → Bool
  | .ialloc _ _ _ => true
  | .allocated _ _ => true
  | _ => false

theorem about_of_puts (h : c.puts = some k) : c.about = some k := by
  cases c with
  | trunc k' put | truncUp k' put =>
    cases put with
    | false => cases h
    | true => exact h
  | _ => first | exact h | cases h

theorem puts_of_late (h : c.late = some k) : c.puts = some k := by
  cases c <;> first | exact h | cases h

/-- What a process is doing to entry `k`, whose lock it may also just hold. -/
def stage (k : ℕ) (c : Pc) : Pc := if c.about = some k then c else .idle

theorem stage_of_about (h : c.about = some k) : c.stage k = c := if_pos h

theorem stage_of_ne (h : c.about ≠ some k) : c.stage k = .idle := if_neg h

end Pc

/-- The in-memory inode is the allocated one on disk, but for changes that are
not written yet. -/
structure User (e : Entry N) (d : Dinode) (dirty : Bool) : Prop where
  valid : e.valid = true
  type : e.d.type = d.type
  alloc : d.type ≠ 0
  sync : dirty = false → e.d = d

/-- What is known of an entry in use, whose disk inode is `d`, by the stage of
the process that has locked it. -/
def Body (e : Entry N) (d : Dinode) (dirty : Bool) : Option Pc → Prop
  | none => dirty = false ∧ (e.valid = true → e.d = d ∧ d.type ≠ 0)
  | some (.load _) => dirty = false ∧ d.type ≠ 0 ∧ (e.valid = true → e.d = d)
  | some (.loaded _) => dirty = false ∧ d.type ≠ 0 ∧ e.d = d
  | some (.trunc _ put) => User e d dirty ∧ (put = true → d.nlink = 0 ∧ e.d.nlink = 0)
  | some (.truncUp _ put) => User e d dirty ∧ (put = true → d.nlink = 0 ∧ e.d.nlink = 0)
  | some (.putType _) => User e d dirty ∧ d.nlink = 0 ∧ e.d.nlink = 0
  | some (.putUp _) => d.type ≠ 0 ∧ d.nlink = 0
  | some (.putInvalid _) => dirty = false
  | some (.putUnlock _) => dirty = false ∧ e.valid = false
  | some _ => User e d dirty

/-- What is known of process `q` at a point that is about entry `k`: who holds
the lock, how many references `q` has, and how many there are. -/
def Here (lock : Option (Fin N)) (held total : ℕ) (q : Fin N) (k : ℕ) : Pc → Prop
  | .load k' => k' = k → lock = some q
  | .loaded k' => k' = k → lock = some q
  | .trunc k' put => k' = k → lock = some q ∧ (put = true → held = 1 ∧ total = 1)
  | .truncUp k' put => k' = k → lock = some q ∧ (put = true → held = 1 ∧ total = 1)
  | .putType k' => k' = k → lock = some q ∧ held = 1 ∧ total = 1
  | .putUp k' => k' = k → lock = some q ∧ held = 1 ∧ total = 1
  | .putInvalid k' => k' = k → lock = some q ∧ held = 1
  | .putUnlock k' => k' = k → lock = some q ∧ held = 1
  | .putDec k' => k' = k → lock ≠ some q ∧ held = 1
  | _ => True

namespace Sys

def stage (s : Sys N) (k : ℕ) : Option Pc := (s.tab k).lock.map fun q => (s.pc q).stage k

/-- Process `p` waits for the lock of entry `k` or has it. -/
def Uses (s : Sys N) (p : Fin N) (k : ℕ) : Prop := s.pc p = .lock k ∨ (s.tab k).lock = some p

/-- Process `o` has a reference to entry `k` that `iput` is not at. -/
def Live (s : Sys N) (o : Fin N) (k : ℕ) : Prop := 1 ≤ s.held o k ∧ (s.pc o).puts ≠ some k

end Sys

structure Used (s : Sys N) (k : ℕ) : Prop where
  own : ∀ q, s.Uses q k → 1 ≤ s.held (s.via q k) k ∧
    ((s.pc (s.via q k)).puts = some k → s.via q k = q)
  here : ∀ q, Here (s.tab k).lock (s.held q k) (total s k) q k (s.pc q)
  active : ∀ q, s.Live q k → (s.dinode k).type ≠ 0
  body : Body (s.tab k) (s.dinode k) (s.dirty k) (s.stage k)

structure Fresh (s : Sys N) : Prop where
  type : ∀ q dev inum t, s.pc q = .ialloc dev inum t → t ≠ 0
  mark : ∀ q dev inum, s.pc q = .allocated dev inum →
    (s.disk dev inum).type ≠ 0 ∧ (s.disk dev inum).nlink = 0
  late : ∀ q dev inum, s.pc q = .allocated dev inum → ∀ k, (s.tab k).dev = dev →
    (s.tab k).inum = inum → ∀ r, 1 ≤ s.held r k → (s.pc r).late = some k
  inj : ∀ q r dev inum, s.pc q = .allocated dev inum → s.pc r = .allocated dev inum → q = r

structure Cached (s : Sys N) : Prop where
  used : ∀ k, 0 < total s k → Used s k
  unused : ∀ k, total s k = 0 →
    (s.tab k).lock = none ∧ s.dirty k = false ∧ ∀ q, (s.pc q).about ≠ some k
  fresh : Fresh s

/-! ### Points -/

namespace Here

variable {lock lock' : Option (Fin N)} {held held' total total' k : ℕ} {q : Fin N} {c : Pc}

theorem of_about_ne (h : c.about ≠ some k) : Here lock held total q k c := by
  have hne : ∀ k', some k' ≠ some k → k' = k → False := fun k' h heq => h (heq ▸ rfl)
  cases c with
  | idle | ialloc | allocated | lock => trivial
  | _ k' => exact fun heq => (hne _ h heq).elim

variable (h : Here lock held total q k c)
include h

theorem lock_or (hc : c.about = some k) : c = .lock k ∨ lock = some q ∨ c = .putDec k := by
  cases c <;> simp only [Pc.about, Option.some.injEq, reduceCtorEq] at hc <;> subst hc <;>
    simp_all [Here]

theorem held_one (hc : c.puts = some k) : held = 1 := by
  cases c with
  | trunc k' put | truncUp k' put => cases put <;> simp_all [Here, Pc.puts]
  | _ => simp_all [Here, Pc.puts]

theorem mono (hlock : lock' = some q ↔ lock = some q) (hheld : c.puts = some k → held' = held)
    (htotal : c.puts = some k → c.late ≠ some k → total = 1 → total' = 1) :
    Here lock' held' total' q k c := by
  cases c with
  | trunc k' put | truncUp k' put => cases put <;> simp_all [Here, Pc.puts, Pc.late]
  | _ => simp_all [Here, Pc.puts, Pc.late]

theorem early (hc : c.puts = some k) (hl : c.late ≠ some k) : lock = some q ∧ total = 1 := by
  cases c with
  | trunc k' put | truncUp k' put => cases put <;> simp_all [Here, Pc.puts, Pc.late]
  | _ => simp_all [Here, Pc.puts, Pc.late]

end Here

namespace Body

variable {e : Entry N} {d d' : Dinode} {b : Bool} {c : Pc}

theorem early {k : ℕ} (h : Body e d b (some c)) (hc : c.puts = some k) (hl : c.late ≠ some k) :
    d.type ≠ 0 ∧ d.nlink = 0 := by
  cases c with
  | trunc k' put | truncUp k' put =>
    cases put with
    | false => cases hc
    | true => exact ⟨h.1.alloc, (h.2 rfl).1⟩
  | putType => exact ⟨h.1.alloc, h.2.1⟩
  | putUp => exact h
  | putInvalid | putUnlock | putDec => exact absurd hc hl
  | _ => cases hc

theorem of_free {c : Option Pc} (h : Body e d b c) (hd : d.type = 0) : Body e d' b c := by
  rcases c with _ | c
  · exact ⟨h.1, fun hv => absurd hd (h.2 hv).2⟩
  · cases c with
    | load | loaded => exact absurd hd h.2.1
    | trunc | truncUp | putType => exact absurd hd h.1.alloc
    | putUp => exact absurd hd h.1
    | putInvalid | putUnlock => exact h
    | _ => exact absurd hd h.alloc

theorem congr {e' : Entry N} {c : Option Pc} (h : Body e d b c) (hvalid : e'.valid = e.valid)
    (hd : e'.d = e.d) : Body e' d b c := by
  have huser : User e d b → User e' d b := fun hu =>
    ⟨hvalid.trans hu.valid, hd ▸ hu.type, hu.alloc, fun hb => hd.trans (hu.sync hb)⟩
  rcases c with _ | c
  · exact ⟨h.1, fun hv => hd ▸ h.2 (hvalid ▸ hv)⟩
  · cases c with
    | load => exact ⟨h.1, h.2.1, fun hv => hd.trans (h.2.2 (hvalid ▸ hv))⟩
    | loaded => exact ⟨h.1, h.2.1, hd.trans h.2.2⟩
    | trunc | truncUp | putType => exact ⟨huser h.1, hd ▸ h.2⟩
    | putUp | putInvalid => exact h
    | putUnlock => exact ⟨h.1, hvalid.trans h.2⟩
    | _ => exact huser h

end Body

/-! ### An entry that nothing happens to -/

namespace Used

variable {s s' : Sys N} {k : ℕ} {p q : Fin N}

theorem frame (h : Used s k) (htab : s'.tab k = s.tab k) (hd : s'.dinode k = s.dinode k)
    (hdirty : s'.dirty k = s.dirty k) (hheld : ∀ q, s'.held q k = s.held q k)
    (hvia : ∀ q, s'.via q k = s.via q k)
    (hpc : ∀ q, s'.pc q = s.pc q ∨ (s.pc q).about ≠ some k ∧ (s'.pc q).about ≠ some k) :
    Used s' k := by
  have hputs : ∀ q, (s'.pc q).puts = some k ↔ (s.pc q).puts = some k := by grind [Pc.about_of_puts]
  have huses : ∀ q, s'.Uses q k → s.Uses q k := by
    rintro q (hq | hq)
    · rcases hpc q with heq | ⟨h₁, h₂⟩
      · exact .inl (heq ▸ hq)
      · rw [hq] at h₂
        exact absurd rfl h₂
    · exact .inr (htab ▸ hq)
  have htotal : total s' k = total s k := total_congr hheld
  refine ⟨fun q hq => ?_, fun q => ?_, fun q hq => ?_, ?_⟩
  · rw [hvia, hheld, hputs]
    exact h.own q (huses q hq)
  · grind [h.here, Here.of_about_ne]
  · rw [hd]
    exact h.active q ⟨hheld q ▸ hq.1, fun hp => hq.2 ((hputs q).mpr hp)⟩
  · grind [Sys.stage, Pc.stage_of_ne, h.body]

theorem body_of_lock (h : Used s k) (hlock : (s.tab k).lock = some p)
    (hc : (s.pc p).about = some k) : Body (s.tab k) (s.dinode k) (s.dirty k) (some (s.pc p)) := by
  have hb := h.body
  rwa [Sys.stage, hlock, Option.map_some, Pc.stage_of_about hc] at hb

theorem user_of_lock (h : Used s k) (hlock : (s.tab k).lock = some p)
    (hc : (s.pc p).about ≠ some k) : User (s.tab k) (s.dinode k) (s.dirty k) := by
  have hb := h.body
  rwa [Sys.stage, hlock, Option.map_some, Pc.stage_of_ne hc] at hb

theorem body_of_free (h : Used s k) (hlock : (s.tab k).lock = none) :
    s.dirty k = false ∧ ((s.tab k).valid = true → (s.tab k).d = s.dinode k ∧
      (s.dinode k).type ≠ 0) := by
  have hb := h.body
  rwa [Sys.stage, hlock, Option.map_none] at hb

theorem early (h : Used s k) (hputs : (s.pc p).puts = some k) (hlate : (s.pc p).late ≠ some k) :
    total s k = 1 ∧ (s.dinode k).type ≠ 0 ∧ (s.dinode k).nlink = 0 := by
  obtain ⟨hlock, htotal⟩ := (h.here p).early hputs hlate
  exact ⟨htotal, (h.body_of_lock hlock (Pc.about_of_puts hputs)).early hputs hlate⟩

end Used

theorem held_of_total_one {s : Sys N} {p q : Fin N} {k : ℕ} (ht : total s k = 1)
    (hp : 1 ≤ s.held p k) (hq : 1 ≤ s.held q k) : q = p := by
  by_contra hne
  have hle : s.held p k + s.held q k ≤ total s k := by
    have := Finset.add_le_sum (f := fun r => s.held r k) (s := Finset.univ)
      (fun _ _ => Nat.zero_le _) (Finset.mem_univ p) (Finset.mem_univ q) (Ne.symm hne)
    exact this
  omega

/-! ### A section of one process on one entry -/

namespace Sys

def sect (s : Sys N) (p : Fin N) (k : ℕ) (e : Entry N) (d : Dinode) (b : Bool) (c : Pc) : Sys N :=
  (((s.setEntry k fun _ => e).setDisk (s.tab k).dev (s.tab k).inum d).setDirty k b).goto p c

end Sys

structure Sect (s : Sys N) (p : Fin N) (k : ℕ) (e : Entry N) (d : Dinode) (b : Bool) (c : Pc) :
    Prop where
  used : 0 < total s k
  dev : e.dev = (s.tab k).dev
  inum : e.inum = (s.tab k).inum
  src : ∀ k', (s.pc p).about = some k' → k = k'
  dst : ∀ k', c.about = some k' → k = k'
  allocs : c.allocs = false
  lock : e.lock = (s.tab k).lock ∨ ((s.tab k).lock = none ∨ (s.tab k).lock = some p) ∧
    (e.lock = none ∨ e.lock = some p)
  own : c = .lock k ∨ e.lock = some p → 1 ≤ s.held (s.via p k) k ∧
    ((s.pc (s.via p k)).puts = some k → s.via p k = p)
  puts : c.puts = some k → (s.pc p).puts = some k ∨ ∀ q, s.Uses q k → s.via q k = p → q = p
  late : (s.pc p).late = some k → c.late = some k
  here : Here e.lock (s.held p k) (total s k) p k c
  active : d.type ≠ 0 ∨
    c.puts = some k ∧ (d = s.dinode k ∨ ∀ q, 1 ≤ s.held q k → q = p)
  fresh : d = s.dinode k ∨ ∃ o, 1 ≤ s.held o k ∧ (s.pc o).late ≠ some k
  body : Body e d b (e.lock.map fun q => (update s.pc p c q).stage k)

namespace Sect

variable {s : Sys N} {p q : Fin N} {k k' dev inum : ℕ} {e : Entry N} {d : Dinode} {b : Bool}
  {c : Pc}

theorem tab_self : (s.sect p k e d b c).tab k = e := update_self ..

theorem tab_ne (hne : k' ≠ k) : (s.sect p k e d b c).tab k' = s.tab k' :=
  update_of_ne hne ..

theorem pc_self : (s.sect p k e d b c).pc p = c := update_self ..

theorem pc_ne (hne : q ≠ p) : (s.sect p k e d b c).pc q = s.pc q := update_of_ne hne ..

theorem disk_self : (s.sect p k e d b c).disk (s.tab k).dev (s.tab k).inum = d := by
  simp [Sys.sect, setDisk, setDirty, Sys.goto]

theorem disk_ne (hne : ¬ (dev = (s.tab k).dev ∧ inum = (s.tab k).inum)) :
    (s.sect p k e d b c).disk dev inum = s.disk dev inum := by
  simp only [Sys.sect, setDisk, setDirty, Sys.goto, setEntry]
  rcases eq_or_ne dev (s.tab k).dev with rfl | hd
  · rw [update_self, update_of_ne fun hi => hne ⟨rfl, hi⟩]
  · rw [update_of_ne hd]

variable (hs : Sect s p k e d b c)
include hs

theorem dinode_self : (s.sect p k e d b c).dinode k = d := by
  rw [dinode, tab_self, hs.dev, hs.inum, disk_self]

theorem lock_iff (hq : q ≠ p) : e.lock = some q ↔ (s.tab k).lock = some q := by
  have hne : ∀ o : Option (Fin N), o = none ∨ o = some p → o ≠ some q := by grind
  rcases hs.lock with heq | ⟨h₁, h₂⟩
  · rw [heq]
  · exact ⟨fun h => absurd h (hne _ h₂), fun h => absurd h (hne _ h₁)⟩

theorem uses_other (hq : q ≠ p) (h : (s.sect p k e d b c).Uses q k) : s.Uses q k := by
  rcases h with h | h
  · exact .inl (pc_ne hq ▸ h)
  · rw [tab_self] at h
    exact .inr ((hs.lock_iff hq).mp h)

theorem own_self (h : Used s k) (hq : (s.sect p k e d b c).Uses q k) :
    1 ≤ s.held (s.via q k) k ∧
      (((s.sect p k e d b c).pc (s.via q k)).puts = some k → s.via q k = q) := by
  rcases eq_or_ne q p with rfl | hqp
  · rw [Uses, pc_self, tab_self] at hq
    obtain ⟨h₁, h₂⟩ := hs.own hq
    refine ⟨h₁, fun hp => ?_⟩
    by_contra hv
    rw [pc_ne hv] at hp
    exact hv (h₂ hp)
  · have hold := hs.uses_other hqp hq
    obtain ⟨h₁, h₂⟩ := h.own q hold
    refine ⟨h₁, fun hp => ?_⟩
    by_cases hv : s.via q k = p
    · rw [hv, pc_self] at hp
      rcases hs.puts hp with hp | hno
      · exact h₂ (hv ▸ hp)
      · exact absurd (hno q hold hv) hqp
    · rw [pc_ne hv] at hp
      exact h₂ hp

theorem used_self (h : Used s k) : Used (s.sect p k e d b c) k := by
  refine ⟨fun q hq => hs.own_self h hq, fun q => ?_, fun q hq => ?_, ?_⟩
  · rw [tab_self]
    rcases eq_or_ne q p with rfl | hqp
    · rw [pc_self]
      exact hs.here
    · rw [pc_ne hqp]
      exact (h.here q).mono (hs.lock_iff hqp) (fun _ => rfl) fun _ _ => id
  · rw [hs.dinode_self]
    rcases hs.active with hact | ⟨hputs, hact⟩
    · exact hact
    · have hqp : q ≠ p := by
        rintro rfl
        exact hq.2 (pc_self.symm ▸ hputs)
      rcases hact with rfl | hall
      · exact h.active q ⟨hq.1, pc_ne hqp ▸ hq.2⟩
      · exact absurd (hall q hq.1) hqp
  · have hdirty : (s.sect p k e d b c).dirty k = b := update_self ..
    rw [hs.dinode_self, hdirty, Sys.stage, tab_self]
    exact hs.body

theorem used_ne (hrefs : Refs s) (hne : k' ≠ k) (hk' : 0 < total s k')
    (h : Used s k') : Used (s.sect p k e d b c) k' := by
  refine h.frame (tab_ne hne) ?_ (update_of_ne hne ..) (fun _ => rfl) (fun _ => rfl)
    fun q => ?_
  · rw [dinode, tab_ne hne]
    exact disk_ne fun ⟨h₁, h₂⟩ => hne (hrefs.uniq k' k hk' hs.used h₁ h₂)
  · grind [hs.src, hs.dst, pc_self, pc_ne]

theorem allocated_of (hq : (s.sect p k e d b c).pc q = .allocated dev inum) :
    s.pc q = .allocated dev inum := by
  rcases eq_or_ne q p with rfl | hqp
  · rw [pc_self] at hq
    have hno := hs.allocs
    rw [hq] at hno
    cases hno
  · rwa [pc_ne hqp] at hq

theorem keeps_fresh (h : Fresh s) : Fresh (s.sect p k e d b c) := by
  refine ⟨fun q dev inum t hq => ?_, fun q dev inum hq => ?_,
    fun q dev inum hq k' hdev hinum r hr => ?_,
    fun q r dev inum hq hr => h.inj q r dev inum (hs.allocated_of hq) (hs.allocated_of hr)⟩
  · rcases eq_or_ne q p with rfl | hqp
    · rw [pc_self] at hq
      have hno := hs.allocs
      rw [hq] at hno
      cases hno
    · exact h.type q dev inum t (pc_ne hqp ▸ hq)
  · have hq := hs.allocated_of hq
    by_cases heq : dev = (s.tab k).dev ∧ inum = (s.tab k).inum
    · obtain ⟨rfl, rfl⟩ := heq
      rcases hs.fresh with hsame | ⟨o, ho, hlate⟩
      · rw [disk_self, hsame]
        exact h.mark q _ _ hq
      · exact absurd (h.late q _ _ hq k rfl rfl o ho) hlate
    · rw [disk_ne heq]
      exact h.mark q dev inum hq
  · have hkeep : ((s.sect p k e d b c).tab k').dev = (s.tab k').dev ∧
        ((s.sect p k e d b c).tab k').inum = (s.tab k').inum := by
      rcases eq_or_ne k' k with rfl | hne
      · rw [tab_self]
        exact ⟨hs.dev, hs.inum⟩
      · rw [tab_ne hne]
        exact ⟨rfl, rfl⟩
    have hlate := h.late q dev inum (hs.allocated_of hq) k' (hkeep.1 ▸ hdev) (hkeep.2 ▸ hinum) r hr
    rcases eq_or_ne r p with rfl | hrp
    · have := hs.src k' (Pc.about_of_puts (Pc.puts_of_late hlate))
      subst this
      rw [pc_self]
      exact hs.late hlate
    · rwa [pc_ne hrp]

end Sect

theorem Cached.sect {s : Sys N} {p : Fin N} {k : ℕ} {e : Entry N} {d : Dinode} {b : Bool} {c : Pc}
    (hrefs : Refs s) (h : Cached s) (hs : Sect s p k e d b c) : Cached (s.sect p k e d b c) := by
  refine ⟨fun k' hk' => ?_, fun k' hk' => ?_, hs.keeps_fresh h.fresh⟩
  · rcases eq_or_ne k' k with rfl | hne
    · exact hs.used_self (h.used k' hs.used)
    · exact hs.used_ne hrefs hne hk' (h.used k' hk')
  · have hne : k' ≠ k := by
      rintro rfl
      exact hs.used.ne' hk'
    obtain ⟨h₁, h₂, h₃⟩ := h.unused k' hk'
    refine ⟨?_, (update_of_ne hne ..).trans h₂, fun q => ?_⟩
    · rwa [Sect.tab_ne hne]
    rcases eq_or_ne q p with rfl | hqp
    · rw [Sect.pc_self]
      exact fun h₁ => hne.symm (hs.dst k' h₁)
    · rw [Sect.pc_ne hqp]
      exact h₃ q

end Xv6.Itable
