import Xv6.Itable.Step

/-!
References to the inode table.

Every reference is counted, so an entry that somebody refers to is not
recycled, and no two entries that are in use are for one inode. On one device
there are fewer inodes than entries, hence `iget` always finds an entry.
-/

namespace Xv6.Itable

open Sys
open Function (update_self update_of_ne)

variable {N : ℕ}
variable {s : Sys N} {k k' n : ℕ} {p : Fin N}

/-- The entry that `iput` is freeing; its reference is still counted. -/
def Pc.puts : Pc → Option ℕ
  | .trunc k true => some k
  | .truncUp k true => some k
  | .putType k => some k
  | .putUp k => some k
  | .putInvalid k => some k
  | .putUnlock k => some k
  | .putDec k => some k
  | _ => none

def total (s : Sys N) (k : ℕ) : ℕ := ∑ p, s.held p k

theorem held_le_total (s : Sys N) (p : Fin N) (k : ℕ) : s.held p k ≤ total s k :=
  Finset.single_le_sum (f := fun q => s.held q k) (fun _ _ => Nat.zero_le _) (Finset.mem_univ p)

theorem total_congr {s' : Sys N} (h : ∀ p, s'.held p k = s.held p k) : total s' k = total s k :=
  Finset.sum_congr rfl fun p _ => h p

theorem held_setHeld_ne {q : Fin N} (h : k' ≠ k) : (s.setHeld p k n).held q k' = s.held q k' := by
  simp only [setHeld]
  rcases eq_or_ne q p with rfl | hq
  · rw [update_self, update_of_ne h]
  · rw [update_of_ne hq]

theorem held_setHeld_other {q : Fin N} (h : q ≠ p) : (s.setHeld p k n).held q k' = s.held q k' := by
  simp only [setHeld, update_of_ne h]

@[simp] theorem held_setHeld_self (s : Sys N) (p : Fin N) (k n : ℕ) :
    (s.setHeld p k n).held p k = n := by
  simp [setHeld]

theorem total_setHeld (s : Sys N) (p : Fin N) (k n : ℕ) :
    total (s.setHeld p k n) k + s.held p k = total s k + n := by
  have h := sum_change (f := fun q => (s.setHeld p k n).held q k) (g := fun q => s.held q k)
    (Finset.mem_univ p) fun q _ hq => held_setHeld_other hq
  rwa [held_setHeld_self] at h

theorem total_setHeld_ne (h : k' ≠ k) : total (s.setHeld p k n) k' = total s k' :=
  total_congr fun _ => held_setHeld_ne h

structure Refs (s : Sys N) : Prop where
  count : ∀ k, (s.tab k).ref = total s k
  lt : ∀ k, 0 < total s k → k < NINODE
  uniq : ∀ k k', 0 < total s k → 0 < total s k' → (s.tab k).dev = (s.tab k').dev →
    (s.tab k).inum = (s.tab k').inum → k = k'
  puts : ∀ p k, (s.pc p).puts = some k → 1 ≤ s.held p k

namespace Refs

variable {s s' : Sys N} {p : Fin N} {k n : ℕ}

variable (h : Refs s)
include h

theorem frame (href : ∀ k, (s'.tab k).ref = (s.tab k).ref)
    (hdev : ∀ k, (s'.tab k).dev = (s.tab k).dev) (hinum : ∀ k, (s'.tab k).inum = (s.tab k).inum)
    (hheld : s'.held = s.held)
    (hputs : ∀ p k, (s'.pc p).puts = some k → (s.pc p).puts = some k ∨ 1 ≤ s.held p k) :
    Refs s' := by
  have htotal : ∀ k, total s' k = total s k := fun k => by simp only [total, hheld]
  refine ⟨fun k => ?_, fun k hk => ?_, fun k k' hk hk' hd hi => ?_, fun p k hp => ?_⟩
  · rw [href, htotal, h.count]
  · exact h.lt k (htotal k ▸ hk)
  · grind [h.uniq]
  · rw [hheld]
    exact (hputs p k hp).elim (h.puts p k) id

theorem goto {c : Pc} (hc : ∀ k, c.puts = some k → 1 ≤ s.held p k) : Refs (s.goto p c) := by
  refine h.frame (fun _ => rfl) (fun _ => rfl) (fun _ => rfl) rfl fun q k hq => ?_
  simp only [Sys.goto] at hq
  rcases eq_or_ne q p with rfl | hne
  · rw [update_self] at hq
    exact .inr (hc k hq)
  · rw [update_of_ne hne] at hq
    exact .inl hq

theorem setEntry {f : Entry N → Entry N} (href : (f (s.tab k)).ref = (s.tab k).ref)
    (hdev : (f (s.tab k)).dev = (s.tab k).dev) (hinum : (f (s.tab k)).inum = (s.tab k).inum) :
    Refs (s.setEntry k f) :=
  h.frame (fun _ => update_proj Entry.ref href) (fun _ => update_proj Entry.dev hdev)
    (fun _ => update_proj Entry.inum hinum) rfl fun _ _ => .inl

theorem setDisk {dev inum : ℕ} {d : Dinode} : Refs (s.setDisk dev inum d) :=
  h.frame (fun _ => rfl) (fun _ => rfl) (fun _ => rfl) rfl fun _ _ => .inl

theorem setVia {o : Fin N} : Refs (s.setVia p k o) :=
  h.frame (fun _ => rfl) (fun _ => rfl) (fun _ => rfl) rfl fun _ _ => .inl

theorem change (d : Dinode) : Refs (s.change k d) :=
  (h.setEntry (k := k) (f := fun e => { e with d := d }) rfl rfl rfl).frame (fun _ => rfl)
    (fun _ => rfl) (fun _ => rfl) rfl fun _ _ => .inl

theorem iupdate : Refs (s.iupdate k) :=
  h.frame (fun _ => rfl) (fun _ => rfl) (fun _ => rfl) rfl fun _ _ => .inl

theorem adjust {f : Entry N → Entry N} (href : (f (s.tab k)).ref = (s.tab k).ref - s.held p k + n)
    (hdev : (f (s.tab k)).dev = (s.tab k).dev) (hinum : (f (s.tab k)).inum = (s.tab k).inum)
    (hpos : 0 < n → 0 < total s k) (hputs : (s.pc p).puts = some k → 1 ≤ n) :
    Refs ((s.setEntry k f).setHeld p k n) := by
  have hsum := total_setHeld (s.setEntry k f) p k n
  have hk : total (s.setEntry k f) k = total s k := rfl
  have hheld : (s.setEntry k f).held p k = s.held p k := rfl
  have hother : ∀ k', k' ≠ k → total ((s.setEntry k f).setHeld p k n) k' = total s k' :=
    fun k' hne => total_setHeld_ne hne
  have hle : ∀ k', 0 < total ((s.setEntry k f).setHeld p k n) k' → 0 < total s k' := by grind
  have hd : ∀ k', (((s.setEntry k f).setHeld p k n).tab k').dev = (s.tab k').dev := fun _ =>
    update_proj Entry.dev hdev
  have hi : ∀ k', (((s.setEntry k f).setHeld p k n).tab k').inum = (s.tab k').inum := fun _ =>
    update_proj Entry.inum hinum
  refine ⟨fun k' => ?_, fun k' hk' => h.lt k' (hle k' hk'), fun k₁ k₂ h₁ h₂ hdev' hinum' => ?_,
    fun q k' hq => ?_⟩
  · rcases eq_or_ne k' k with rfl | hne
    · have hc := h.count k'
      have hself : (((s.setEntry k' f).setHeld p k' n).tab k') = f (s.tab k') :=
        update_self ..
      rw [hself, href]
      omega
    · have hself : (((s.setEntry k f).setHeld p k n).tab k') = s.tab k' :=
        update_of_ne hne ..
      rw [hself, hother k' hne, h.count]
  · grind [h.uniq]
  · have hold := h.puts q k' hq
    rcases eq_or_ne q p with rfl | hqp
    · rcases eq_or_ne k' k with rfl | hne
      · rw [held_setHeld_self]
        exact hputs hq
      · rwa [held_setHeld_ne hne]
    · rwa [held_setHeld_other hqp]

theorem more (hk : 0 < total s k) :
    Refs ((s.setEntry k fun e => { e with ref := e.ref + 1 }).take p k) := by
  refine h.adjust (n := s.held p k + 1) ?_ rfl rfl (fun _ => hk) fun _ => Nat.succ_pos _
  push_cast
  ring

theorem less (hp : 1 ≤ s.held p k) (hputs : (s.pc p).puts ≠ some k) :
    Refs ((s.setEntry k fun e => { e with ref := e.ref - 1 }).drop p k) := by
  refine h.adjust (n := s.held p k - 1) ?_ rfl rfl (fun _ => ?_) fun hq => absurd hq hputs
  · push_cast [Nat.cast_sub hp]
    ring
  · exact hp.trans (held_le_total s p k)

theorem recycle {dev inum : ℕ} (hlt : k < NINODE) (hk : total s k = 0)
    (hnone : ∀ k', k' < NINODE → 0 < (s.tab k').ref → (s.tab k').dev = dev →
      (s.tab k').inum ≠ inum) :
    Refs ((s.setEntry k fun e =>
      { e with dev := dev, inum := inum, ref := 1, valid := false }).take p k) := by
  set f : Entry N → Entry N := fun e =>
    { e with dev := dev, inum := inum, ref := 1, valid := false }
  have hself : (((s.setEntry k f).take p k).tab k) = f (s.tab k) := update_self ..
  have hother : ∀ k', k' ≠ k → ((s.setEntry k f).take p k).tab k' = s.tab k' := fun k' hne =>
    update_of_ne hne ..
  have htotal : total ((s.setEntry k f).take p k) k = 1 := by
    have := total_setHeld (s.setEntry k f) p k (s.held p k + 1)
    have hk' : total (s.setEntry k f) k = total s k := rfl
    have hheld' : (s.setEntry k f).held p k = s.held p k := rfl
    have : total ((s.setEntry k f).setHeld p k (s.held p k + 1)) k = 1 := by omega
    exact this
  have htotal' : ∀ k', k' ≠ k → total ((s.setEntry k f).take p k) k' = total s k' :=
    fun k' hne => total_setHeld_ne hne
  -- another entry in use is not for the new inode
  have hnew : ∀ k', k' ≠ k → 0 < total s k' → (s.tab k').dev = dev → (s.tab k').inum ≠ inum := by
    grind [h.lt, h.count]
  refine ⟨fun k' => ?_, fun k' hk' => ?_, fun k₁ k₂ h₁ h₂ hd hi => ?_, fun q k' hq => ?_⟩
  · grind [h.count]
  · grind [h.lt]
  · grind [h.uniq]
  · have hold := h.puts q k' hq
    have hne : k' ≠ k := by
      rintro rfl
      have := held_le_total s q k'
      omega
    exact hold.trans_eq (held_setHeld_ne hne).symm

theorem iget {dev inum : ℕ} (hs : Iget s p dev inum s') : Refs s' := by
  cases hs with
  | hit hk href =>
    rw [h.count] at href
    exact h.more (by exact_mod_cast href)
  | recycle hk href hnone =>
    rw [h.count] at href
    exact h.recycle hk (by exact_mod_cast href) hnone

theorem give {q : Fin N} (hp : 1 ≤ s.held p k) (hputs : (s.pc p).puts ≠ some k) :
    Refs ((s.drop p k).take q k) := by
  have hdrop := total_setHeld s p k (s.held p k - 1)
  have htake := total_setHeld (s.drop p k) q k ((s.drop p k).held q k + 1)
  have htotal : ∀ k', total ((s.drop p k).take q k) k' = total s k' := by
    intro k'
    rcases eq_or_ne k' k with rfl | hne
    · have h₁ : total (s.drop p k') k' = total (s.setHeld p k' (s.held p k' - 1)) k' := rfl
      have h₂ : total ((s.drop p k').take q k') k' =
        total ((s.drop p k').setHeld q k' ((s.drop p k').held q k' + 1)) k' := rfl
      omega
    · exact (total_setHeld_ne hne).trans (total_setHeld_ne hne)
  have hheld : ∀ r k', (r ≠ p ∨ k' ≠ k) → s.held r k' ≤ ((s.drop p k).take q k).held r k' := by
    intro r k' hr
    rcases eq_or_ne k' k with rfl | hne
    · have hrp : r ≠ p := hr.resolve_right fun hk => hk rfl
      have hdropped : (s.drop p k').held r k' = s.held r k' := held_setHeld_other hrp
      rcases eq_or_ne r q with rfl | hrq
      · rw [take, held_setHeld_self, hdropped]
        exact Nat.le_succ _
      · exact (hdropped.symm.trans (held_setHeld_other hrq).symm).le
    · exact ((held_setHeld_ne hne).symm.trans (held_setHeld_ne hne).symm).le
  refine ⟨fun k' => ?_, fun k' hk' => h.lt k' (htotal k' ▸ hk'), fun k₁ k₂ h₁ h₂ => ?_,
    fun r k' hr => (h.puts r k' hr).trans (hheld r k' ?_)⟩
  · rw [htotal]
    exact h.count k'
  · rw [htotal] at h₁ h₂
    exact h.uniq k₁ k₂ h₁ h₂
  · by_contra hcon
    push Not at hcon
    obtain ⟨rfl, rfl⟩ := hcon
    exact hputs hr

theorem run {c : Pc} (hc : s.pc p = c) (hs : Run s p c s') : Refs s' := by
  have hputs := h.puts p
  rw [hc] at hputs
  cases hs with
  | next | none | cached => exact h.goto nofun
  | mark => exact h.setDisk.goto nofun
  | iget hget =>
    have hg : Refs (s.goto p .idle) := h.goto nofun
    exact hg.iget hget
  | lock | load | loaded => exact (h.setEntry rfl rfl rfl).goto nofun
  | @trunc k put => exact (h.change _).goto fun k' hk' => hputs k' (by cases put <;> exact hk')
  | @truncUp k put =>
    refine h.iupdate.goto fun k' hk' => hputs k' ?_
    cases put with
    | false => cases hk'
    | true => exact hk'
  | putType => exact (h.change _).goto hputs
  | putUp => exact h.iupdate.goto hputs
  | putInvalid | putUnlock => exact (h.setEntry rfl rfl rfl).goto hputs
  | @putDec k =>
    -- the process stops counting on its reference first
    have hg : Refs (s.goto p .idle) := h.goto nofun
    exact hg.less (k := k) (hputs k rfl) (by simp [Sys.goto, Pc.puts])

end Refs

/-- Processes put, hand on and duplicate only references that there are, and
hand on none that `iput` is at. -/
def RefsOk (s : Sys N) : Act N → Prop
  | .idup _ k => 0 < (s.tab k).ref
  | .iput p k => 1 ≤ s.held p k
  | .give p _ k => 1 ≤ s.held p k ∧ (s.pc p).puts ≠ some k
  | _ => True

namespace Refs

variable {s s' : Sys N}

theorem step {a : Act N} (h : Refs s) (hok : RefsOk s a) (hs : Step s a s') : Refs s' := by
  cases hs with
  | run hr => exact h.run rfl hr
  | ialloc | itrunc => exact h.goto nofun
  | iget _ hget => exact h.iget hget
  | @idup p k =>
    refine h.more ?_
    have : 0 < (s.tab k).ref := hok
    rw [h.count] at this
    exact_mod_cast this
  | ilock => exact h.setVia.goto nofun
  | iunlock => exact h.setEntry rfl rfl rfl
  | iupdate => exact h.iupdate
  | change => exact h.change _
  | @free p k => exact (h.setEntry rfl rfl rfl).setVia.goto fun k' hk' => by cases hk'; exact hok
  | iput hpc => exact h.less hok (by rw [hpc]; exact nofun)
  | give => exact h.give hok.1 hok.2

end Refs

/-! ### Runs -/

structure Init (s : Sys N) : Prop where
  ref : ∀ k, (s.tab k).ref = 0
  lock : ∀ k, (s.tab k).lock = none
  pc : ∀ p, s.pc p = .idle
  held : ∀ p k, s.held p k = 0
  dirty : ∀ k, s.dirty k = false

abbrev Interleaving (ok : Sys N → Act N → Prop) : Sys N → Prop := Reachable Init ok Sys.step

theorem Init.refs (h : Init s) : Refs s := by
  have htotal : ∀ k, total s k = 0 := fun k => Finset.sum_eq_zero fun p _ => h.held p k
  refine ⟨fun k => ?_, fun k hk => ?_, fun k k' hk => ?_, fun p k hp => ?_⟩
  · rw [h.ref, htotal]
    rfl
  · rw [htotal] at hk
    cases hk
  · rw [htotal] at hk
    cases hk
  · rw [h.pc] at hp
    cases hp

theorem refs_of_reachable {ok : Sys N → Act N → Prop} (hok : ∀ s a, ok s a → RefsOk s a)
    (h : Interleaving ok s) : Refs s :=
  h.invariant (fun _ => Init.refs) fun s a _ hI ha hs => hI.step (hok s a ha) (step_cases hs)

/-! ### Capacity -/

def OneDevice (dev : ℕ) (s : Sys N) : Act N → Prop
  | .iget _ d inum => d = dev ∧ 1 ≤ inum ∧ inum < s.ninodes
  | .ialloc _ d _ => d = dev
  | _ => True

/-- The entries in use, and those that are asked for, are for inodes of the
device. -/
structure Ranged (dev : ℕ) (s : Sys N) : Prop where
  tab : ∀ k, (s.tab k).ref ≠ 0 →
    (s.tab k).dev = dev ∧ 1 ≤ (s.tab k).inum ∧ (s.tab k).inum < s.ninodes
  ialloc : ∀ p d inum type, s.pc p = .ialloc d inum type → d = dev ∧ 1 ≤ inum
  allocated : ∀ p d inum, s.pc p = .allocated d inum → d = dev ∧ 1 ≤ inum ∧ inum < s.ninodes

namespace Ranged

variable {s s' : Sys N} {dev k : ℕ} {p : Fin N}

theorem frame (h : Ranged dev s)
    (htab : ∀ k, (s'.tab k).ref ≠ 0 → (s.tab k).ref ≠ 0 ∧ (s'.tab k).dev = (s.tab k).dev ∧
      (s'.tab k).inum = (s.tab k).inum)
    (hn : s'.ninodes = s.ninodes) (hpc : s'.pc = s.pc) : Ranged dev s' := by
  refine ⟨fun k hk => ?_, ?_, ?_⟩
  · grind [h.tab]
  · rw [hpc]
    exact h.ialloc
  · rw [hpc, hn]
    exact h.allocated

theorem goto {c : Pc} (h : Ranged dev s)
    (hialloc : ∀ d inum type, c = .ialloc d inum type → d = dev ∧ 1 ≤ inum)
    (hallocated : ∀ d inum, c = .allocated d inum → d = dev ∧ 1 ≤ inum ∧ inum < s.ninodes) :
    Ranged dev (s.goto p c) := by
  refine ⟨h.tab, fun q d inum type hq => ?_, fun q d inum hq => ?_⟩
  all_goals simp only [Sys.goto] at hq
  all_goals rcases eq_or_ne q p with rfl | hne
  · rw [update_self] at hq
    exact hialloc d inum type hq
  · rw [update_of_ne hne] at hq
    exact h.ialloc q d inum type hq
  · rw [update_self] at hq
    exact hallocated d inum hq
  · rw [update_of_ne hne] at hq
    exact h.allocated q d inum hq

theorem setEntry {f : Entry N → Entry N} (h : Ranged dev s)
    (href : (f (s.tab k)).ref ≠ 0 → (s.tab k).ref ≠ 0) (hdev : (f (s.tab k)).dev = (s.tab k).dev)
    (hinum : (f (s.tab k)).inum = (s.tab k).inum) : Ranged dev (s.setEntry k f) := by
  refine h.frame (fun k' hk' => ⟨?_, update_proj Entry.dev hdev, update_proj Entry.inum hinum⟩) rfl
    rfl
  simp only [Sys.setEntry] at hk'
  rcases eq_or_ne k' k with rfl | hne
  · rw [update_self] at hk'
    exact href hk'
  · rwa [update_of_ne hne] at hk'

theorem setHeld {n : ℕ} (h : Ranged dev s) : Ranged dev (s.setHeld p k n) :=
  h.frame (fun _ hk => ⟨hk, rfl, rfl⟩) rfl rfl

theorem setVia {o : Fin N} (h : Ranged dev s) : Ranged dev (s.setVia p k o) :=
  h.frame (fun _ hk => ⟨hk, rfl, rfl⟩) rfl rfl

theorem iupdate (h : Ranged dev s) : Ranged dev (s.iupdate k) :=
  h.frame (fun _ hk => ⟨hk, rfl, rfl⟩) rfl rfl

theorem change (h : Ranged dev s) (d : Dinode) : Ranged dev (s.change k d) :=
  (h.setEntry (k := k) (f := fun e => { e with d := d }) id rfl rfl).frame
    (fun _ hk => ⟨hk, rfl, rfl⟩) rfl rfl

theorem iget {inum : ℕ} (h : Ranged dev s) (hinum : 1 ≤ inum ∧ inum < s.ninodes)
    (hs : Iget s p dev inum s') : Ranged dev s' := by
  cases hs with
  | hit hk href => exact (h.setEntry (fun _ => href.ne') rfl rfl).setHeld
  | @recycle k hk href hnone =>
    refine setHeld ⟨fun k' hk' => ?_, h.ialloc, h.allocated⟩
    simp only [Sys.setEntry] at hk' ⊢
    rcases eq_or_ne k' k with rfl | hne
    · rw [update_self]
      exact ⟨rfl, hinum⟩
    · rw [update_of_ne hne] at hk' ⊢
      exact h.tab k' hk'

variable (hrefs : Refs s) (h : Ranged dev s)
include hrefs h

theorem less (hp : 1 ≤ s.held p k) :
    Ranged dev ((s.setEntry k fun e => { e with ref := e.ref - 1 }).drop p k) := by
  refine (h.setEntry (fun _ => ?_) rfl rfl).setHeld
  rw [hrefs.count]
  have := held_le_total s p k
  exact_mod_cast (by omega : total s k ≠ 0)

theorem run {c : Pc} (hc : s.pc p = c) (hs : Run s p c s') : Ranged dev s' := by
  cases hs with
  | @next d inum type => grind [Refs, Ranged, h.goto]
  | none | cached => exact h.goto nofun nofun
  | @mark d inum type hlt =>
    have hd := h.ialloc p d inum type hc
    have hdisk : Ranged dev (s.setDisk d inum { Dinode.zero with type := type }) :=
      h.frame (fun _ hk => ⟨hk, rfl, rfl⟩) rfl rfl
    refine hdisk.goto nofun fun d' inum' heq => ?_
    cases heq
    exact ⟨hd.1, hd.2, hlt⟩
  | @iget d inum s' hget =>
    obtain ⟨rfl, hinum⟩ := h.allocated p d inum hc
    have hg : Ranged d (s.goto p .idle) := h.goto nofun nofun
    exact hg.iget hinum hget
  | lock | load | loaded | putInvalid | putUnlock => exact (h.setEntry id rfl rfl).goto nofun nofun
  | trunc | putType => exact (h.change _).goto nofun nofun
  | @truncUp k put => cases put <;> exact h.iupdate.goto nofun nofun
  | putUp => exact h.iupdate.goto nofun nofun
  | @putDec k => exact (h.less hrefs (hrefs.puts p k (by rw [hc]; rfl))).goto nofun nofun

theorem step {a : Act N} (hok : RefsOk s a)
    (hdev : OneDevice dev s a) (hs : Step s a s') : Ranged dev s' := by
  cases hs with
  | run hr => exact h.run hrefs rfl hr
  | @ialloc p d type =>
    refine h.goto (fun d' inum type' heq => ?_) nofun
    cases heq
    exact ⟨hdev, le_rfl⟩
  | iget _ hget =>
    obtain ⟨rfl, hinum⟩ := hdev
    exact h.iget hinum hget
  | idup => exact (h.setEntry (fun _ => (show 0 < (s.tab _).ref from hok).ne') rfl rfl).setHeld
  | ilock => exact h.setVia.goto nofun nofun
  | iunlock => exact h.setEntry id rfl rfl
  | iupdate => exact h.iupdate
  | change => exact h.change _
  | itrunc => exact h.goto nofun nofun
  | free => exact (h.setEntry id rfl rfl).setVia.goto nofun nofun
  | iput => exact h.less hrefs hok
  | give => exact h.setHeld.setHeld

theorem iget_ne_noInodes {d inum : ℕ} (hn : s.ninodes = 200) :
    s.iget p d inum ≠ .error .noInodes := by
  intro herr
  have hfull : ∀ k, k < NINODE → (s.tab k).ref ≠ 0 := by
    intro k hk
    unfold Sys.iget at herr
    split at herr
    · cases herr
    · rename_i hscan
      exact (igetScan_none hscan).2 k (Nat.zero_le _) (by simpa using hk)
    · cases herr
  have hpos : ∀ k, k < NINODE → 0 < total s k := by grind [hrefs.count]
  have hmaps : ∀ k ∈ Finset.range NINODE, (s.tab k).inum ∈ Finset.Ico 1 200 := by grind [Ranged]
  have hinj : Set.InjOn (fun k => (s.tab k).inum) (Finset.range NINODE) := by
    intro k hk k' hk' heq
    have hk : k < NINODE := by simpa using hk
    have hk' : k' < NINODE := by simpa using hk'
    refine hrefs.uniq k k' (hpos k hk) (hpos k' hk') ?_ heq
    rw [(h.tab k (hfull k hk)).1, (h.tab k' (hfull k' hk')).1]
  have hcard := Finset.card_le_card_of_injOn _ hmaps hinj
  norm_num at hcard

end Ranged

/-- The inode table is consistent: two entries in use are for different
inodes, and every reference is counted. So on one device with the 200 inodes
of `mkfs`, `iget` never runs out of entries. -/
theorem itable_consistent {N : ℕ} :
    (∀ s : Sys N, Interleaving RefsOk s →
      (∀ k k', 0 < (s.tab k).ref → 0 < (s.tab k').ref → (s.tab k).dev = (s.tab k').dev →
        (s.tab k).inum = (s.tab k').inum → k = k') ∧
      ∀ k, (s.tab k).ref = ∑ p, (s.held p k : ℤ)) ∧
    ∀ (dev : ℕ) (s : Sys N), Interleaving (fun s a => RefsOk s a ∧ OneDevice dev s a) s →
      s.ninodes = 200 → ∀ a, RefsOk s a → OneDevice dev s a → s.step a ≠ .error .noInodes := by
  constructor
  · intro s h
    have hrefs := refs_of_reachable (fun _ _ => id) h
    have hpos : ∀ k, 0 < (s.tab k).ref → 0 < total s k := fun k hk => by
      rw [hrefs.count] at hk
      exact_mod_cast hk
    refine ⟨fun k k' hk hk' => hrefs.uniq k k' (hpos k hk) (hpos k' hk'), fun k => ?_⟩
    rw [hrefs.count, total]
    push_cast
    rfl
  · intro dev s h hn a hok hdev herr
    have hinv : Refs s ∧ Ranged dev s := by
      refine h.invariant (I := fun s => Refs s ∧ Ranged dev s) (fun s hs => ⟨hs.refs, ?_⟩)
        fun s a s' hI ha hs => ?_
      · refine ⟨fun k hk => absurd (hs.ref k) hk, fun p d inum type hp => ?_, fun p d inum hp => ?_⟩
        · rw [hs.pc] at hp
          cases hp
        · rw [hs.pc] at hp
          cases hp
      · exact ⟨hI.1.step ha.1 (step_cases hs), hI.2.step hI.1 ha.1 ha.2 (step_cases hs)⟩
    obtain ⟨hrefs, hranged⟩ := hinv
    obtain ⟨p, d, inum, hget | hget⟩ := noInodes_cases herr
    · exact hranged.iget_ne_noInodes hrefs hn hget
    · have hg : Refs (s.goto p .idle) := hrefs.goto nofun
      have hr : Ranged dev (s.goto p .idle) := hranged.goto nofun nofun
      exact hr.iget_ne_noInodes hg hn hget

instance (s : Sys N) (a : Act N) : Decidable (RefsOk s a) := by
  cases a <;> unfold RefsOk <;> infer_instance

instance (dev : ℕ) (s : Sys N) (a : Act N) : Decidable (OneDevice dev s a) := by
  cases a <;> unfold OneDevice <;> infer_instance

def empty (N : ℕ) : Sys N where
  tab := fun _ => ⟨0, 0, 0, false, none, Dinode.zero⟩
  disk := fun _ _ => Dinode.zero
  ninodes := 200
  pc := fun _ => .idle
  held := fun _ _ => 0
  via := fun p _ => p
  dirty := fun _ => false

theorem empty_init (N : ℕ) : Init (empty N) :=
  ⟨fun _ => rfl, fun _ => rfl, fun _ => rfl, fun _ _ => rfl, fun _ => rfl⟩

def twoIgets : List (Act 2) := [.iget 0 1 5, .iget 1 1 5]

theorem itable_consistent_twoIgets :
    (∃ s, runActs RefsOk Sys.step twoIgets (empty 2) = some s ∧ (s.tab 0).ref = 2 ∧
      (s.tab 0).ref = ∑ p, (s.held p 0 : ℤ)) ∧
    ∃ s, runActs (fun s a => RefsOk s a ∧ OneDevice 1 s a) Sys.step twoIgets (empty 2) = some s ∧
      s.step (.iget 0 1 6) ≠ .error .noInodes := by
  constructor
  · obtain ⟨s, hs, href⟩ :
        ∃ s ∈ runActs RefsOk Sys.step twoIgets (empty 2), (s.tab 0).ref = 2 := by
      decide +kernel
    have hreach : Interleaving RefsOk s := (Reachable.init (empty_init 2)).runActs hs
    exact ⟨s, hs, href, (itable_consistent.1 s hreach).2 0⟩
  · obtain ⟨s, hs, hn⟩ : ∃ s ∈ runActs (fun s a => RefsOk s a ∧ OneDevice 1 s a) Sys.step
        twoIgets (empty 2), s.ninodes = 200 := by
      decide +kernel
    have hreach := (Reachable.init (empty_init 2)).runActs hs
    refine ⟨s, hs, itable_consistent.2 1 s hreach hn (.iget 0 1 6) trivial ⟨rfl, by decide, ?_⟩⟩
    rw [hn]
    decide

end Xv6.Itable
