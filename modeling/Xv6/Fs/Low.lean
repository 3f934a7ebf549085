import Xv6.Log.Crash
import Xv6.Fs.Inode
import Xv6.Fs.Owns
import Xv6.Lib.Wp

/-!
The block layer keeps the ownership of blocks.

`Low` relates a state to the disk `D` that its buffers hold: the allocator's invariant
holds of `D` and every valid in-memory copy of an inode agrees with `D`. One table entry
(`x`) may be exempt: while an inode is extended or truncated its copy runs ahead of the
buffers, and `D` has for it what the operation is about to write. `Keep` says what the
block layer leaves alone, and that every buffer it changes is in the log.
-/

namespace Xv6

open Log (InLog)
open Function (update update_self update_of_ne)

/-! ### The trace -/

/-- Operations alternate `begin_op` and `end_op`; `iput` and `log_write` come
in between. The phase is whether an operation is open. -/
def phaseStep : Option Bool → Event → Option Bool
  | some false, .beginOp => some true
  | some true, .endOp => some false
  | some true, .iput => some true
  | some true, .logWrite _ => some true
  | _, _ => none

def phase (tr : List Event) : Option Bool := tr.foldl phaseStep (some false)

@[simp] theorem phase_snoc (tr : List Event) (e : Event) :
    phase (tr ++ [e]) = phaseStep (phase tr) e := by
  simp [phase]

/-! ### The invariant -/

structure LogOk (sb : Superblock) (s : Fs) : Prop where
  start : s.log.start = sb.logstart
  size : s.log.size = sb.nlog
  committing : s.log.committing = false
  nodup : s.log.lh.Nodup
  home : ∀ b ∈ s.log.lh, sb.inodestart ≤ b
  room : s.log.lh.length < sb.nlog
  idle : phase s.trace = some false → s.log.outstanding = 0 ∧ s.log.lh = []
  busy : phase s.trace = some true → s.log.outstanding = 1

structure Low (sb : Superblock) (leak : Set ℕ) (x : Option ℕ) (D : Disk) (s : Fs) : Prop where
  sb_eq : s.sb = sb
  bit : (sb.disk s.bio.cache).bit = D.bit
  blk : (sb.disk s.bio.cache).blk = D.blk
  ino : ∀ i, (∀ k, x = some k → i ≠ (s.itable k).inum) → (sb.disk s.bio.cache).ino i = D.ino i
  sync : ∀ k, x ≠ some k → 0 < (s.itable k).ref → (s.itable k).valid = true →
    (s.itable k).d = D.ino (s.itable k).inum
  alone : ∀ ip, x = some ip → ∀ k, k ≠ ip → 0 < (s.itable k).ref →
    (s.itable k).inum ≠ (s.itable ip).inum
  owns : Owns sb D leak
  log : LogOk sb s

structure Ent where
  dev : ℕ
  inum : ℕ
  ref : ℤ
  locked : Bool
  valid : Bool

def Inode.ent (e : Inode) : Ent := ⟨e.dev, e.inum, e.ref, e.locked, e.valid⟩

/-- The block layer changes nothing but buffers, the log and the copy of the
entry `x`; the log header only grows. -/
structure Frame (x : Option ℕ) (s s' : Fs) : Prop where
  ent : ∀ k, (s'.itable k).ent = (s.itable k).ent
  copy : ∀ k, x ≠ some k → (s'.itable k).d = (s.itable k).d
  ftable : s'.ftable = s.ftable
  proc : s'.proc = s.proc
  phase_eq : phase s'.trace = phase s.trace
  lh : ∀ b ∈ s.log.lh, b ∈ s'.log.lh
  disk : s'.bio.disk = s.bio.disk

/-- Moreover every buffer that changed is in the log header. -/
structure Keep (x : Option ℕ) (s s' : Fs) : Prop extends Frame x s s' where
  cache : ∀ b, s'.bio.cache b = s.bio.cache b ∨ b ∈ s'.log.lh

section

variable {x : Option ℕ} {s s' s'' : Fs}

namespace Frame

theorem refl (x : Option ℕ) (s : Fs) : Frame x s s :=
  ⟨fun _ => rfl, fun _ _ => rfl, rfl, rfl, rfl, fun _ hb => hb, rfl⟩

theorem trans (h : Frame x s s') (h' : Frame x s' s'') : Frame x s s'' where
  ent k := (h'.ent k).trans (h.ent k)
  copy k hk := (h'.copy k hk).trans (h.copy k hk)
  ftable := h'.ftable.trans h.ftable
  proc := h'.proc.trans h.proc
  phase_eq := h'.phase_eq.trans h.phase_eq
  lh b hb := h'.lh b (h.lh b hb)
  disk := h'.disk.trans h.disk

theorem inum (h : Frame x s s') (k : ℕ) : (s'.itable k).inum = (s.itable k).inum :=
  congrArg Ent.inum (h.ent k)

theorem ref (h : Frame x s s') (k : ℕ) : (s'.itable k).ref = (s.itable k).ref :=
  congrArg Ent.ref (h.ent k)

end Frame

namespace Keep

theorem refl (x : Option ℕ) (s : Fs) : Keep x s s := ⟨.refl x s, fun _ => .inl rfl⟩

theorem trans (h : Keep x s s') (h' : Keep x s' s'') : Keep x s s'' := by
  refine ⟨h.toFrame.trans h'.toFrame, fun b => ?_⟩
  rcases h'.cache b with heq | hmem
  · exact (h.cache b).imp heq.trans (h'.lh b)
  · exact .inr hmem

theorem weaken (h : Keep none s s') (x : Option ℕ) : Keep x s s' :=
  { h with copy := fun k _ => h.copy k (by simp) }

end Keep

end

def Stop.guarded : Stop → Bool
  | .panic .freeingFreeBlock => true
  | .panic .ilockNoType => true
  | .panic .unlinkNlink => true
  | _ => false

/-- A computation may stop for every other reason. -/
def Admits (E : Stop → Prop) : Prop := ∀ e, e.guarded = false → E e

def LogFull (e : Stop) : Prop := ∃ p, e = .panic (.log p)

/-- A computation may stop when the log is full. -/
def AdmitsLog (E : Stop → Prop) : Prop := ∀ e, LogFull e → E e

theorem Admits.log {E : Stop → Prop} (hE : Admits E) : AdmitsLog E := by
  rintro _ ⟨p, rfl⟩
  exact hE _ rfl

/-! ### Stores that are logged -/

def Fs.stored (s : Fs) (b : ℕ) (y : Block) : Fs := { s with bio := s.bio.setData b y }

def Fs.logged (s : Fs) (b : ℕ) (y : Block) : Fs :=
  { s with
    bio := if b ∈ s.log.lh then s.bio.setData b y else (s.bio.setData b y).bpin b
    log := { s.log with lh := Log.absorb s.log.lh b }
    trace := s.trace ++ [.logWrite b] }

namespace Fs

variable (s : Fs) (b : ℕ) (y : Block)

@[simp] theorem cache_logged : (s.logged b y).bio.cache = update s.bio.cache b y := by
  simp only [logged]
  split <;> rfl

@[simp] theorem disk_logged : (s.logged b y).bio.disk = s.bio.disk := by
  simp only [logged]
  split <;> rfl

@[simp] theorem itable_logged : (s.logged b y).itable = s.itable := rfl

@[simp] theorem lh_logged : (s.logged b y).log.lh = Log.absorb s.log.lh b := rfl

@[simp] theorem trace_logged : (s.logged b y).trace = s.trace ++ [.logWrite b] := rfl

end Fs

def Fs.setEntry (s : Fs) (k : ℕ) (e : Inode) : Fs :=
  { s with itable := update s.itable k e }

namespace Fs

variable (s : Fs) (k : ℕ) (e : Inode)

@[simp] theorem itable_setEntry_self : (s.setEntry k e).itable k = e := update_self ..

theorem itable_setEntry_ne {j : ℕ} (h : j ≠ k) : (s.setEntry k e).itable j = s.itable j :=
  update_of_ne h ..

@[simp] theorem bio_setEntry : (s.setEntry k e).bio = s.bio := rfl

@[simp] theorem sb_setEntry : (s.setEntry k e).sb = s.sb := rfl

@[simp] theorem setEntry_setEntry (e' : Inode) :
    (s.setEntry k e).setEntry k e' = s.setEntry k e' := by
  simp [setEntry]

end Fs

def Fs.setCopy (s : Fs) (ip : ℕ) (f : Dinode → Dinode) : Fs :=
  { s with itable := update s.itable ip ({ s.itable ip with d := f (s.itable ip).d }) }

namespace Fs

variable (s : Fs) (ip : ℕ) (f : Dinode → Dinode)

theorem ent_setCopy (k : ℕ) : ((s.setCopy ip f).itable k).ent = (s.itable k).ent := by
  by_cases hk : k = ip
  · subst hk
    simp only [setCopy, update_self]
    rfl
  · simp only [setCopy, update_of_ne hk]

theorem itable_setCopy_ne {ip k : ℕ} (h : k ≠ ip) : (s.setCopy ip f).itable k = s.itable k :=
  update_of_ne h _ _

@[simp] theorem copy_setCopy : ((s.setCopy ip f).itable ip).d = f (s.itable ip).d := by
  simp [setCopy]

@[simp] theorem inum_setCopy (k : ℕ) : ((s.setCopy ip f).itable k).inum = (s.itable k).inum :=
  congrArg Ent.inum (s.ent_setCopy ip f k)

end Fs

section

variable {sb : Superblock} {leak leak' : Set ℕ} {x : Option ℕ} {D D' : Disk} {s s' : Fs}
  {E : Stop → Prop} {b : ℕ}
variable {ip : ℕ} {Q : PUnit → Fs → Prop} {y : Block}

@[simp] theorem wp_bread {Q : Block → Fs → Prop} :
    wp E (bread b) Q s ↔ Q (s.bio.cache b) s := Iff.rfl

@[simp] theorem wp_store {f : Block → Block} :
    wp E (store b f) Q s ↔ Q ⟨⟩ (s.stored b (f (s.bio.cache b))) := Iff.rfl

@[simp] theorem wp_emit {e : Event} :
    wp E (emit e) Q s ↔ Q ⟨⟩ { s with trace := s.trace ++ [e] } := Iff.rfl

@[simp] theorem wp_inode {Q : Inode → Fs → Prop} :
    wp E (inode ip) Q s ↔ Q (s.itable ip) s := Iff.rfl

@[simp] theorem wp_modifyInode {f : Inode → Inode} :
    wp E (modifyInode ip f) Q s ↔ Q ⟨⟩ (s.setEntry ip (f (s.itable ip))) := Iff.rfl

@[simp] theorem wp_modifyDinode {f : Dinode → Dinode} :
    wp E (modifyDinode ip f) Q s ↔ Q ⟨⟩ (s.setCopy ip f) := Iff.rfl

theorem wp_logWrite (hE : AdmitsLog E) (hlog : LogOk sb s)
    (hQ : s.log.lh.length + 1 < sb.nlog → Q ⟨⟩ (s.logged b y)) :
    wp E (logWrite b) Q (s.stored b y) := by
  unfold logWrite
  simp only [wp_bind, wp_emit, wp_get]
  split
  · exact wp_throw.mpr (hE _ ⟨_, rfl⟩)
  · rename_i L hL
    rw [wp_set, Log.logWrite_eq hL]
    refine hQ ?_
    simp only [Log.logWrite, Fs.stored, hlog.size] at hL
    split at hL
    · cases hL
    · omega

theorem LogOk.logged (h : LogOk sb s) (hph : phase s.trace = some true)
    (hb : sb.inodestart ≤ b) (hroom : s.log.lh.length + 1 < sb.nlog) (y : Block) :
    LogOk sb (s.logged b y) where
  start := h.start
  size := h.size
  committing := h.committing
  nodup := Log.nodup_absorb b h.nodup
  home a ha := by
    rcases Log.mem_absorb.mp ha with ha | rfl
    · exact h.home a ha
    · exact hb
  room := by
    rw [Fs.lh_logged]
    by_cases hmem : b ∈ s.log.lh
    · rw [Log.absorb_of_mem hmem]
      omega
    · grind [Log.absorb_of_notMem]
  idle hidle := by simp [hph, phaseStep] at hidle
  busy _ := h.busy hph

theorem Keep.logged (hph : phase s.trace = some true) (y : Block) :
    Keep none s (s.logged b y) where
  ent _ := rfl
  copy _ _ := rfl
  ftable := rfl
  proc := rfl
  phase_eq := by simp [hph, phaseStep]
  lh _ hb := Log.mem_absorb.mpr (.inl hb)
  disk := Fs.disk_logged s b y
  cache a := by
    rw [Fs.cache_logged, Fs.lh_logged, Log.mem_absorb]
    by_cases hab : a = b
    · exact .inr (.inr hab)
    · exact .inl (update_of_ne hab _ _)

theorem Low.logged (h : Low sb leak x D s) (hph : phase s.trace = some true)
    (hb : sb.inodestart ≤ b) (hroom : s.log.lh.length + 1 < sb.nlog)
    (hbit : (sb.disk (update s.bio.cache b y)).bit = D'.bit)
    (hblk : (sb.disk (update s.bio.cache b y)).blk = D'.blk)
    (hino : ∀ i, (∀ k, x = some k → i ≠ (s.itable k).inum) →
      (sb.disk (update s.bio.cache b y)).ino i = D'.ino i)
    (hsync : ∀ k, x ≠ some k → 0 < (s.itable k).ref → (s.itable k).valid = true →
      D'.ino (s.itable k).inum = D.ino (s.itable k).inum) (howns : Owns sb D' leak') :
    Low sb leak' x D' (s.logged b y) where
  sb_eq := h.sb_eq
  bit := by rwa [Fs.cache_logged]
  blk := by rwa [Fs.cache_logged]
  ino i hi := by
    rw [Fs.cache_logged]
    exact hino i hi
  sync k hk hr hv := (h.sync k hk hr hv).trans (hsync k hk hr hv).symm
  alone := h.alone
  owns := howns
  log := h.log.logged hph hb hroom y

theorem Low.logged_bit (h : Low sb leak x D s) (G : Geometry sb) (hph : phase s.trace = some true)
    (hroom : s.log.lh.length + 1 < sb.nlog) {v : Bool}
    (hy : sb.disk (update s.bio.cache (sb.BBLOCK b) y) = (sb.disk s.bio.cache).setBit b v)
    (howns : Owns sb (D.setBit b v) leak') :
    Low sb leak' x (D.setBit b v) (s.logged (sb.BBLOCK b) y) := by
  have hstart := (Geometry.inodestart_le_IBLOCK ROOTINO).trans (G.IBLOCK_lt_BBLOCK G.root b).le
  refine h.logged hph hstart hroom ?_ ?_ ?_ (fun _ _ _ _ => rfl) howns
  · rw [hy, Disk.bit_setBit, Disk.bit_setBit, h.bit]
  · rw [hy, Disk.blk_setBit, Disk.blk_setBit, h.blk]
  · intro i hi
    rw [hy]
    exact h.ino i hi

theorem Low.logged_blk (h : Low sb leak x D s) (G : Geometry sb) (hph : phase s.trace = some true)
    (hlo : sb.dataStart ≤ b) (hb : b < sb.size) (hroom : s.log.lh.length + 1 < sb.nlog)
    (howns : Owns sb (D.setBlk b y) leak') : Low sb leak' x (D.setBlk b y) (s.logged b y) := by
  have hstart : sb.inodestart ≤ b := (G.inodestart_lt_dataStart hb).le.trans hlo
  have hy := G.disk_putBlk (c := s.bio.cache) hlo hb y
  refine h.logged hph hstart hroom ?_ ?_ ?_ (fun _ _ _ _ => rfl) howns
  · rw [hy]
    exact h.bit
  · rw [hy, Disk.blk_setBlk, Disk.blk_setBlk, h.blk]
  · intro i hi
    rw [hy]
    exact h.ino i hi

theorem Low.stored_blk (h : Low sb leak x D s) (G : Geometry sb) (hlo : sb.dataStart ≤ b)
    (hb : b < sb.size) (howns : Owns sb (D.setBlk b y) leak') :
    Low sb leak' x (D.setBlk b y) (s.stored b y) := by
  have hy := G.disk_putBlk (c := s.bio.cache) hlo hb y
  refine ⟨h.sb_eq, ?_, ?_, fun i hi => ?_, h.sync, h.alone, howns, { h.log with }⟩
  · change (sb.disk (update s.bio.cache b y)).bit = _
    rw [hy]
    exact h.bit
  · change (sb.disk (update s.bio.cache b y)).blk = _
    rw [hy, Disk.blk_setBlk, Disk.blk_setBlk, h.blk]
  · change (sb.disk (update s.bio.cache b y)).ino i = _
    rw [hy]
    exact h.ino i hi

/-! ### The exempt entry -/

theorem Low.exempt (h : Low sb leak none D s)
    (halone : ∀ k, k ≠ ip → 0 < (s.itable k).ref → (s.itable k).inum ≠ (s.itable ip).inum) :
    Low sb leak (some ip) D s where
  sb_eq := h.sb_eq
  bit := h.bit
  blk := h.blk
  ino i _ := h.ino i (by simp)
  sync k _ := h.sync k (by simp)
  alone := by
    rintro _ ⟨⟩
    exact halone
  owns := h.owns
  log := h.log

theorem Low.view (h : Low sb leak (some ip) D s) {i : ℕ} (hi : (s.itable ip).inum = i) {d : Dinode}
    (howns : Owns sb (D.setIno i d) leak') :
    Low sb leak' (some ip) (D.setIno i d) s where
  sb_eq := h.sb_eq
  bit := h.bit
  blk := h.blk
  ino j hj := by
    have hne := hj ip rfl
    rw [hi] at hne
    rw [Disk.ino_setIno, update_of_ne hne]
    exact h.ino j hj
  sync k hk hr hv := by
    have hne := h.alone ip rfl k (fun heq => hk (heq ▸ rfl)) hr
    rw [hi] at hne
    rw [Disk.ino_setIno, update_of_ne hne]
    exact h.sync k hk hr hv
  alone := h.alone
  owns := howns
  log := h.log

theorem Low.copy (h : Low sb leak (some ip) D s) (f : Dinode → Dinode) :
    Low sb leak (some ip) D (s.setCopy ip f) := by
  have hinum := fun k => congrArg Ent.inum (s.ent_setCopy ip f k)
  have href := fun k => congrArg Ent.ref (s.ent_setCopy ip f k)
  simp only [Inode.ent] at hinum href
  refine ⟨h.sb_eq, h.bit, h.blk, fun i hi => h.ino i fun k hk => ?_, fun k hk hr hv => ?_,
    fun j hj k hk hr => ?_, h.owns, { h.log with }⟩
  · rw [← hinum]
    exact hi k hk
  · grind [s.itable_setCopy_ne, h.sync]
  · rw [hinum, hinum]
    rw [href] at hr
    exact h.alone j hj k hk hr

theorem Keep.copied (ip : ℕ) (f : Dinode → Dinode) : Keep (some ip) s (s.setCopy ip f) where
  ent := s.ent_setCopy ip f
  copy k hk := by
    have hne : k ≠ ip := fun heq => hk (heq ▸ rfl)
    rw [s.itable_setCopy_ne f hne]
  ftable := rfl
  proc := rfl
  phase_eq := rfl
  lh _ hb := hb
  disk := rfl
  cache _ := .inl rfl

/-- `iupdate` of the exempt entry brings the buffers up to date. -/
theorem iupdate_spec (G : Geometry sb) (hE : AdmitsLog E) (h : Low sb leak (some ip) D s)
    (hph : phase s.trace = some true) (hi : (s.itable ip).inum < sb.ninodes)
    (hcopy : (s.itable ip).d = D.ino (s.itable ip).inum) :
    wp E (iupdate ip) (fun _ s' => Keep none s s' ∧ Low sb leak none D s' ∧
      ∀ b ∈ s'.log.lh, b ∈ s.log.lh ∨ b = sb.IBLOCK (s.itable ip).inum) s := by
  unfold iupdate
  simp only [wp_bind, wp_inode, wp_get, wp_store, h.sb_eq]
  refine wp_logWrite hE h.log fun hroom => ⟨Keep.logged hph _, ?_, fun _ => Log.mem_absorb.mp⟩
  have hput := G.disk_putDinode (c := s.bio.cache) hi (hcopy ▸ h.owns.ok _)
  have hlow : Low sb leak (some ip) D (s.logged (sb.IBLOCK (s.itable ip).inum)
      (putDinode (s.bio.cache (sb.IBLOCK (s.itable ip).inum)) (s.itable ip).inum
        (s.itable ip).d)) := by
    refine h.logged hph (Geometry.inodestart_le_IBLOCK (s.itable ip).inum) hroom ?_ ?_ ?_
      (fun _ _ _ _ => rfl) h.owns
    · rw [hput]
      exact h.bit
    · rw [hput]
      exact h.blk
    · intro j hj
      rw [hput, Disk.ino_setIno, update_of_ne (hj ip rfl)]
      exact h.ino j hj
  refine ⟨hlow.sb_eq, hlow.bit, hlow.blk, fun j _ => ?_, fun k _ hr hv => ?_, by simp,
    hlow.owns, hlow.log⟩
  · by_cases hj : j = (s.itable ip).inum
    · rw [Fs.cache_logged, hput, Disk.ino_setIno, hj, update_self, hcopy]
    · refine hlow.ino j ?_
      rintro _ ⟨⟩
      exact hj
  · by_cases hk : k = ip
    · rw [hk]
      exact hcopy
    · exact hlow.sync k (fun heq => hk (Option.some.inj heq).symm) hr hv

end

end Xv6
