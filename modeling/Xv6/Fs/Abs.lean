import Xv6.Fs.Dir
import Xv6.Fs.Refine
import Xv6.Lib.Triple

/-!
The file system as its system calls see it.

`Abs` has of a state what the calls are about: the allocated inodes with their content
(`Node`) and their blocks, the inode table without its copies, the file table, the
processes, whether an operation is open, and what was passed to `log_write`. `Wf` is the
invariant under which it determines the state below as far as the calls can tell: the
block layer's invariant, a table with one entry for each inode, directories whose entries
are inode numbers, and buffers that agree with the disk unless they are logged or hold
data of a plain file.
-/

namespace Xv6

open Function (update update_self update_of_ne)

/-! ### Nodes -/

structure Node where
  type : ℤ
  major : ℤ
  minor : ℤ
  nlink : ℤ
  data : List UInt8
  deriving DecidableEq

namespace Node

def dirent (nd : Node) (e : ℕ) : List UInt8 := (nd.data.drop (e * DESIZE)).take DESIZE

def inum (nd : Node) (e : ℕ) : ℕ := direntInum (nd.dirent e)

def name (nd : Node) (e : ℕ) : Name := cname (direntName (nd.dirent e))

end Node

def Disk.node (D : Disk) (i : ℕ) : Option Node :=
  if (D.ino i).type = 0 then none
  else some ⟨(D.ino i).type, (D.ino i).major, (D.ino i).minor, (D.ino i).nlink, D.content i⟩

namespace Disk

variable {D D' : Disk} {i : ℕ} {nd : Node}

theorem node_eq_none : D.node i = none ↔ (D.ino i).type = 0 := by
  unfold node
  split <;> simp [*]

theorem node_ne_none : D.node i ≠ none ↔ (D.ino i).type ≠ 0 := node_eq_none.not

theorem node_of_type (h : (D.ino i).type ≠ 0) : D.node i =
    some ⟨(D.ino i).type, (D.ino i).major, (D.ino i).minor, (D.ino i).nlink, D.content i⟩ :=
  if_neg h

structure Shows (d : Dinode) (nd : Node) : Prop where
  type : d.type = nd.type
  major : d.major = nd.major
  minor : d.minor = nd.minor
  nlink : d.nlink = nd.nlink
  size : d.size = nd.data.length

theorem shows (h : D.node i = some nd) : Shows (D.ino i) nd := by
  unfold node at h
  split at h
  · cases h
  · cases h
    exact ⟨rfl, rfl, rfl, rfl, (D.length_content i).symm⟩

theorem content_of_node (h : D.node i = some nd) : D.content i = nd.data := by
  unfold node at h
  split at h
  · cases h
  · cases h
    rfl

theorem type_of_node (h : D.node i = some nd) : (D.ino i).type ≠ 0 :=
  node_ne_none.mp (by simp [h])

theorem node_congr (hi : D'.ino i = D.ino i)
    (hb : (D.ino i).type ≠ 0 → ∀ k < (D.ino i).size, D'.byte i k = D.byte i k) :
    D'.node i = D.node i := by
  unfold node
  rw [hi]
  split
  · rfl
  · grind [content, bytes_congr]

theorem node_fields {d : Dinode} (h : D.node i = some nd) (hi : D'.ino i = d)
    (ht : d.type = nd.type) (hs : d.size = nd.data.length)
    (hb : ∀ k < nd.data.length, D'.byte i k = D.byte i k) :
    D'.node i = some { nd with major := d.major, minor := d.minor, nlink := d.nlink } := by
  have hshow := shows h
  have h0 := type_of_node h
  have hcontent : D'.content i = nd.data := by
    rw [← content_of_node h, content, content, hi, hs, hshow.size]
    exact bytes_congr fun k _ hk => hb k (by omega)
  rw [node_of_type (by rwa [hi, ht, ← hshow.type]), hi, hcontent, ht]

theorem byte_eq {j k : ℕ} (hown : D'.own j (dataPos (k / BSIZE)) = D.own j (dataPos (k / BSIZE)))
    (hblk : D'.blk (D.own j (dataPos (k / BSIZE))) = D.blk (D.own j (dataPos (k / BSIZE)))) :
    D'.byte j k = D.byte j k := by
  rw [byte, byte, hown, hblk]

end Disk

/-! ### The abstraction -/

/-- `blocks` are the blocks that the open operation has passed to `log_write`;
`most` is the largest number of blocks of a closed operation. -/
structure Ops where
  most : ℕ
  blocks : Finset ℕ

def Ops.step (o : Ops) : Event → Ops
  | .beginOp => { o with blocks := ∅ }
  | .endOp => ⟨max o.most o.blocks.card, ∅⟩
  | .iput => o
  | .logWrite b => { o with blocks := insert b o.blocks }

def ops (tr : List Event) : Ops := tr.foldl Ops.step ⟨0, ∅⟩

@[simp] theorem ops_snoc (tr : List Event) (e : Event) : ops (tr ++ [e]) = (ops tr).step e := by
  simp [ops]

structure Abs where
  node : ℕ → Option Node
  own : ℕ → ℕ → ℕ
  ent : ℕ → Ent
  ftable : ℕ → File
  proc : ℕ → Proc
  phase : Option Bool
  ops : Ops

def Fs.abs (s : Fs) : Abs where
  node := s.view.node
  own := s.view.own
  ent k := (s.itable k).ent
  ftable := s.ftable
  proc := s.proc
  phase := Xv6.phase s.trace
  ops := Xv6.ops s.trace

/-- The entries in use are for different inodes of the root device, and a valid
copy is of an allocated inode. -/
structure TabOk (sb : Superblock) (g : Abs) : Prop where
  ref : ∀ k, 0 ≤ (g.ent k).ref
  lt : ∀ k, 0 < (g.ent k).ref → k < NINODE
  dev : ∀ k, 0 < (g.ent k).ref → (g.ent k).dev = ROOTDEV
  inum : ∀ k, 0 < (g.ent k).ref → (g.ent k).inum < sb.ninodes
  uniq : ∀ k k', 0 < (g.ent k).ref → 0 < (g.ent k').ref → (g.ent k).inum = (g.ent k').inum → k = k'
  valid : ∀ k, 0 < (g.ent k).ref → (g.ent k).valid = true → g.node (g.ent k).inum ≠ none

def DirRange (sb : Superblock) (node : ℕ → Option Node) : Prop :=
  ∀ i nd, node i = some nd → nd.type = T_DIR → ∀ e, nd.inum e < sb.ninodes

def Disk.Loose (D : Disk) (b : ℕ) : Prop :=
  ∀ j q, D.own j q ≠ 0 → D.own j q = b → q ≠ NDIRECT ∧ (D.ino j).type ≠ T_DIR

/-- A buffer agrees with the disk, or it is logged, or it is loose. -/
def Durable (sb : Superblock) (s : Fs) : Prop :=
  ∀ b, sb.inodestart ≤ b → s.bio.cache b = s.bio.disk b ∨ b ∈ s.log.lh ∨
    sb.dataStart ≤ b ∧ s.view.Loose b

structure Wf (sb : Superblock) (s : Fs) : Prop where
  geo : Geometry sb
  low : Low sb ∅ none s.view s
  tab : TabOk sb s.abs
  dirs : DirRange sb s.view.node
  durable : Durable sb s

variable {sb : Superblock} {s s' : Fs} {x : Option ℕ}

theorem Durable.keep (h : Durable sb s) (hkeep : Keep x s s')
    (hown : ∀ j q, s'.view.own j q ≠ 0 → s'.view.own j q ∉ s'.log.lh →
      s.view.own j q = s'.view.own j q ∧
        ((s'.view.ino j).type = T_DIR → (s.view.ino j).type = T_DIR)) : Durable sb s' := by
  intro b hb
  rcases hkeep.cache b with heq | hmem
  · rw [heq, hkeep.disk]
    rcases h b hb with hclean | hmem | ⟨hlo, hloose⟩
    · exact .inl hclean
    · exact .inr (.inl (hkeep.lh b hmem))
    · by_cases hlh : b ∈ s'.log.lh
      · exact .inr (.inl hlh)
      · refine .inr (.inr ⟨hlo, fun j q h0 hj => ?_⟩)
        obtain ⟨hsame, htype⟩ := hown j q h0 (hj ▸ hlh)
        obtain ⟨hq, ht⟩ := hloose j q (hsame ▸ h0) (hsame.trans hj)
        exact ⟨hq, fun ht' => ht (htype ht')⟩
  · exact .inr (.inl hmem)

theorem Frame.abs_eq (h : Frame x s s') :
    s'.abs = { s.abs with
      node := s'.view.node
      own := s'.view.own
      ops := ops s'.trace } := by
  have hent : s'.abs.ent = s.abs.ent := funext h.ent
  rw [Fs.abs, h.ftable, h.proc, h.phase_eq]
  exact congrArg (fun e => Abs.mk s'.view.node s'.view.own e s.ftable s.proc (phase s.trace)
    (ops s'.trace)) hent

/-! ### Changes of the table -/

def Abs.setEnt (g : Abs) (k : ℕ) (e : Ent) : Abs := { g with ent := update g.ent k e }

@[simp] theorem Abs.setEnt_setEnt (g : Abs) (k : ℕ) (e e' : Ent) :
    (g.setEnt k e).setEnt k e' = g.setEnt k e' := by
  simp [Abs.setEnt]

theorem Fs.abs_setEntry (s : Fs) (k : ℕ) (e : Inode) :
    (s.setEntry k e).abs = s.abs.setEnt k e.ent := by
  have hent : ∀ j, ((s.setEntry k e).itable j).ent = update s.abs.ent k e.ent j := by
    intro j
    by_cases hj : j = k
    · subst hj
      simp
    · rw [s.itable_setEntry_ne k e hj, update_of_ne hj]
      rfl
  exact congrArg (fun f => Abs.mk s.view.node s.view.own f s.ftable s.proc (phase s.trace)
    (ops s.trace)) (funext hent)

theorem Low.setEntry {leak : Set ℕ} {D : Disk} (h : Low sb leak none D s) {k : ℕ} {e : Inode}
    (hsync : 0 < e.ref → e.valid = true → e.d = D.ino e.inum) :
    Low sb leak none D (s.setEntry k e) := by
  refine { h with
    ino := fun i _ => h.ino i (by simp), sync := fun j _ hr hv => ?_, alone := by simp,
    log := { h.log with } }
  by_cases hj : j = k
  · grind [Fs.itable_setEntry_self]
  · grind [s.itable_setEntry_ne, h.sync]

theorem Low.trace {leak : Set ℕ} {D : Disk} (h : Low sb leak x D s) {tr : List Event}
    (htr : phase tr = phase s.trace) : Low sb leak x D { s with trace := tr } :=
  { h with
    log := { h.log with
      idle := fun hp => h.log.idle (htr ▸ hp), busy := fun hp => h.log.busy (htr ▸ hp) } }

namespace TabOk

variable {g : Abs} {k : ℕ} {e : Ent}

theorem setEnt (h : TabOk sb g) (href : 0 ≤ e.ref) (hlt : 0 < e.ref → k < NINODE)
    (hdev : 0 < e.ref → e.dev = ROOTDEV) (hinum : 0 < e.ref → e.inum < sb.ninodes)
    (huniq : 0 < e.ref → ∀ j, j ≠ k → 0 < (g.ent j).ref → (g.ent j).inum ≠ e.inum)
    (hvalid : 0 < e.ref → e.valid = true → g.node e.inum ≠ none) : TabOk sb (g.setEnt k e) := by
  have hcase : ∀ {p : ℕ → Ent → Prop}, p k e → (∀ j, p j (g.ent j)) →
      ∀ j, p j (update g.ent k e j) := by grind
  refine ⟨hcase (p := fun _ e => 0 ≤ e.ref) href h.ref,
    hcase (p := fun k e => 0 < e.ref → k < NINODE)
    hlt h.lt, hcase (p := fun _ e => 0 < e.ref → e.dev = ROOTDEV) hdev h.dev,
    hcase (p := fun _ e => 0 < e.ref → e.inum < sb.ninodes) hinum h.inum, fun j j' => ?_,
    hcase (p := fun _ e => 0 < e.ref → e.valid = true → g.node e.inum ≠ none) hvalid h.valid⟩
  simp only [Abs.setEnt]
  by_cases hj : j = k
  · grind
  · grind [h.uniq]

theorem touch (h : TabOk sb g) (hr : 0 < (g.ent k).ref) (href : 0 ≤ e.ref)
    (hdev : e.dev = (g.ent k).dev) (hinum : e.inum = (g.ent k).inum)
    (hvalid : e.valid = true → g.node e.inum ≠ none) : TabOk sb (g.setEnt k e) :=
  h.setEnt href (fun _ => h.lt k hr) (fun _ => hdev.trans (h.dev k hr))
    (fun _ => hinum ▸ h.inum k hr)
    (fun _ j hj hrj heq => hj (h.uniq j k hrj hr (heq.trans hinum))) fun _ => hvalid

end TabOk

namespace Wf

theorem change (h : Wf sb s) {D : Disk} (hlow : Low sb ∅ none D s')
    (hent : ∀ k, (s'.itable k).ent = (s.itable k).ent)
    (hnode : ∀ i, s.view.node i ≠ none → D.node i ≠ none) (hdirs : DirRange sb D.node)
    (hdur : Durable sb s') : Wf sb s' := by
  have hview := hlow.view_eq
  have habs : s'.abs.ent = s.abs.ent := funext hent
  refine ⟨h.geo, hview.symm ▸ hlow, ?_, hview.symm ▸ hdirs, hdur⟩
  constructor
  all_goals rw [habs]
  · exact h.tab.ref
  · exact h.tab.lt
  · exact h.tab.dev
  · exact h.tab.inum
  · exact h.tab.uniq
  · intro k hr hv
    change s'.view.node _ ≠ none
    rw [hview]
    exact hnode _ (h.tab.valid k hr hv)

theorem setEntry (h : Wf sb s) {k : ℕ} {e : Inode}
    (hsync : 0 < e.ref → e.valid = true → e.d = s.view.ino e.inum)
    (htab : TabOk sb (s.abs.setEnt k e.ent)) : Wf sb (s.setEntry k e) :=
  ⟨h.geo, h.low.setEntry hsync, (s.abs_setEntry k e).symm ▸ htab, h.dirs, h.durable⟩

theorem iput_event (h : Wf sb s) (hph : phase s.trace = some true) :
    Wf sb { s with trace := s.trace ++ [.iput] } ∧
      ({ s with trace := s.trace ++ [.iput] } : Fs).abs = s.abs := by
  have htr : phase (s.trace ++ [.iput]) = phase s.trace := by simp [hph, phaseStep]
  have habs : ({ s with trace := s.trace ++ [.iput] } : Fs).abs = s.abs := by
    rw [Fs.abs, htr, ops_snoc]
    rfl
  exact ⟨⟨h.geo, h.low.trace htr, habs ▸ h.tab, h.dirs, h.durable⟩, habs⟩

end Wf

end Xv6
