import Xv6.Fs.Trail
import Xv6.Fs.Sysfile

/-!
Between two calls.

`Rest` is what holds of the file system when no call is in progress: no operation is open,
no inode is locked, and the reference count of every entry of the inode table is the
number of pointers to it in open files and current directories. `Change` relates the files
and processes before and after a call to the references it has taken (`h`) and dropped
(`d`).
-/

namespace Xv6

def File.inode (x : File) : Option ℕ :=
  if x.type = .FD_INODE ∨ x.type = .FD_DEVICE then some x.ip else none

def Abs.refs (g : Abs) (k : ℕ) : ℕ :=
  cnt (Finset.range NFILE) (fun f => (g.ftable f).inode) (some k) +
    cnt (Finset.range NPROC) (fun p => (g.proc p).cwd) (some k)

structure FilesOk (g : Abs) : Prop where
  closed : ∀ f, (g.ftable f).ref = 0 → (g.ftable f).type = .FD_NONE
  off : ∀ f, (g.ftable f).off < 2 ^ 32
  fds : ∀ p fd f, (g.proc p).ofile fd = some f → f < NFILE
  unused : ∀ p, (g.proc p).state ≠ .LIVE → (g.proc p).cwd = none

def File.MayHave (x : File) (nd : Node) : Prop :=
  x.type = .FD_INODE → x.writable = true → nd.type = T_FILE

def Abs.Live (g : Abs) : Prop := ∀ k, 0 < (g.ent k).ref → g.node (g.ent k).inum ≠ none

structure Rest (g : Abs) : Prop where
  phase : g.phase = some false
  unlocked : ∀ k, (g.ent k).locked = false
  refs : ∀ k, (g.ent k).ref = g.refs k
  ok : FilesOk g
  live : g.Live
  kinds : g.Kinds
  node : ∀ f k, f < NFILE → (g.ftable f).inode = some k →
    ∃ nd, g.node (g.ent k).inum = some nd ∧ (g.ftable f).MayHave nd

structure Since (a g : Abs) : Prop where
  type : ∀ f k nd, f < NFILE → (a.ftable f).inode = some k → (g.ftable f).inode = some k →
    a.node (a.ent k).inum = some nd →
    (g.ent k).inum = (a.ent k).inum ∧
      ∃ nd', g.node (a.ent k).inum = some nd' ∧ nd'.type = nd.type

/-- A file that was not opened by the call: it stayed as it was, or it is
closed. -/
def Kept (x y : File) : Prop :=
  y.inode = none ∨ y.inode = x.inode ∧ y.type = x.type ∧ y.writable = x.writable

/-- From `a` to `a'` only files and processes change, and the pointers to inodes
in them as the references that were taken and dropped. -/
structure Change (a : Abs) (h : List (ℕ × ℕ)) (d : List ℕ) (a' : Abs) : Prop where
  ent : a'.ent = a.ent
  node : a'.node = a.node
  refs : ∀ k, a'.refs k + d.count k = a.refs k + holds h k
  keep : ∀ f k, f < NFILE → (a.ftable f).inode = some k → (a'.ftable f).inode = some k →
    d.count k < a.refs k
  ok : FilesOk a'

variable {sb : Superblock} {E : Stop → Prop} {a a' b g : Abs} {h : List (ℕ × ℕ)}
  {d : List ℕ} {f k : ℕ}

theorem Abs.refs_pos (hf : f < NFILE) (hk : (g.ftable f).inode = some k) : 0 < g.refs k :=
  Nat.add_pos_left (cnt_pos (f := fun f => (g.ftable f).inode) (Finset.mem_range.mpr hf) hk) _

theorem Change.refl (hok : FilesOk a) : Change a [] [] a :=
  ⟨rfl, rfl, fun _ => rfl, fun _ _ hf hk _ => Abs.refs_pos hf hk, hok⟩

theorem Abs.refs_pos_cwd {p : ℕ} (hp : p < NPROC) (hk : (g.proc p).cwd = some k) : 0 < g.refs k :=
  Nat.add_pos_right _ (cnt_pos (f := fun p => (g.proc p).cwd) (Finset.mem_range.mpr hp) hk)

theorem Rest.keepsCwd (hrest : Rest a) {p : ℕ} (hp : p < NPROC) : KeepsCwd a [] p := by
  intro k hk
  rw [hrest.refs k]
  exact_mod_cast Abs.refs_pos_cwd hp hk

theorem Rest.st (hrest : Rest a) : St a [] [] [] a :=
  .refl a fun k => by rw [hrest.refs k]; positivity

theorem Rest.finish (hrest : Rest a) (hchange : Change a h d a') (hend : Ended a' d b)
    (hst : St b h d [] g) (hheld : ∀ x ∈ h, b.node x.2 ≠ none)
    (hnew : ∀ f k, f < NFILE → (a'.ftable f).inode = some k → Kept (a.ftable f) (a'.ftable f) ∨
      ∃ i nd, (k, i) ∈ h ∧ b.node i = some nd ∧ (a'.ftable f).MayHave nd) : Rest g ∧ Since a g := by
  have hft : g.ftable = a'.ftable := hst.ftable.trans hend.ftable
  have hpr : g.proc = a'.proc := hst.proc.trans hend.proc
  have hent : b.ent = a.ent := hend.ent.trans hchange.ent
  have hrefs : ∀ k, g.refs k = a'.refs k := fun k => by rw [Abs.refs, Abs.refs, hft, hpr]
  -- what a file that stays open says of its inode
  have hkeep : ∀ f k nd, f < NFILE → (a.ftable f).inode = some k →
      (a'.ftable f).inode = some k → a.node (a.ent k).inum = some nd →
      (g.ent k).inum = (a.ent k).inum ∧
        ∃ nd', g.node (a.ent k).inum = some nd' ∧ nd'.type = nd.type := by
    intro f k nd hf hk hk' hnd
    have hlt : (d.count k : ℤ) < (a.ent k).ref := by grind [Change, hrest.refs]
    refine ⟨(hst.live k (by rwa [hent])).1.trans (by rw [hent]), ?_⟩
    rw [hst.node]
    refine hend.type k _ nd (.inr ⟨?_, ?_⟩) (by rwa [hchange.node])
    · rwa [hchange.ent]
    · rw [hchange.ent]
  refine ⟨⟨hst.phase.trans hend.phase, fun k => ?_, fun k => ?_, ?_, fun k hr => ?_, ?_,
    fun f k hf hk => ?_⟩,
    ⟨fun f k nd hf hk hk' hnd => hkeep f k nd hf hk (hft ▸ hk') hnd⟩⟩
  · have hlock := hst.lock k
    rw [hent, hrest.unlocked k] at hlock
    simpa using hlock
  · grind [Rest, St, hchange.refs]
  · exact ⟨hft ▸ hchange.ok.closed, hft ▸ hchange.ok.off, hpr ▸ hchange.ok.fds,
      hpr ▸ hchange.ok.unused⟩
  · rw [hst.node]
    rcases hst.has_of_ref hr with hmem | hlt
    · exact hheld _ hmem
    · rw [hent] at hlt
      have hpos : 0 < (a.ent k).ref := lt_of_le_of_lt (Int.natCast_nonneg _) hlt.1
      obtain ⟨nd, hnd⟩ := Option.ne_none_iff_exists'.mp (hrest.live k hpos)
      rw [hlt.2] at hnd
      obtain ⟨nd', hnd', -⟩ := hend.type k _ nd (.inr (hchange.ent.symm ▸ hlt))
        (hchange.node.symm ▸ hnd)
      exact Option.ne_none_iff_exists'.mpr ⟨nd', hnd'⟩
  · intro i nd hnd
    refine hend.kinds (fun j n hn => hrest.kinds j n ?_) i nd ((congrFun hst.node i).symm.trans hnd)
    rwa [← hchange.node]
  · rw [hft] at hk ⊢
    rcases hnew f k hf hk with hkept | ⟨i, nd, hmem, hnd, hmay⟩
    · obtain hnone | ⟨hino, htype, hwrite⟩ := hkept
      · simp [hnone] at hk
      have hk₀ := hino.symm.trans hk
      obtain ⟨nd, hnd, hmay⟩ := hrest.node f k hf hk₀
      obtain ⟨hinum, nd', hnd', ht⟩ := hkeep f k nd hf hk₀ hk hnd
      refine ⟨nd', hinum ▸ hnd', fun hfd hwr => ?_⟩
      rw [ht]
      exact hmay (htype ▸ hfd) (hwrite ▸ hwr)
    · grind [St]

/-! ### Stores to files and processes -/

theorem Wf.files {s : Fs} (hwf : Wf sb s) (F : ℕ → File) (P : ℕ → Proc) :
    Wf sb { s with ftable := F, proc := P } where
  geo := hwf.geo
  low := { hwf.low with log := { hwf.low.log with } }
  tab := { hwf.tab with }
  dirs := hwf.dirs
  durable := hwf.durable

section Stores

variable {l : List ℕ} {p : ℕ}

theorem modifyFile_spec {u : File → File} :
    Spec sb E (St b h d l) (modifyFile f u) fun _ => St (b.setFile f (u (b.ftable f))) h d l := by
  intro s hwf hst
  refine ⟨hwf.files _ s.proc, ?_⟩
  rw [← hst.ftable]
  exact { hst with ftable := congrFun (congrFun (congrArg Function.update hst.ftable) f) _ }

theorem modifyProc_spec {u : Proc → Proc} :
    Spec sb E (St b h d l) (modifyProc p u) fun _ => St (b.setProc p (u (b.proc p))) h d l := by
  intro s hwf hst
  refine ⟨hwf.files s.ftable _, ?_⟩
  rw [← hst.proc]
  exact { hst with proc := congrFun (congrFun (congrArg Function.update hst.proc) p) _ }

theorem filealloc_spec : Spec sb E (St b h d l) filealloc fun r g =>
    (r = none ∧ ∀ f < NFILE, (b.ftable f).ref ≠ 0) ∧ St b h d l g ∨
    ∃ f, r = some f ∧ f < NFILE ∧ (b.ftable f).ref = 0 ∧
      St (b.setFile f { b.ftable f with ref := 1 }) h d l g := by
  refine Tri.get_bind fun s _ hst => ?_
  rw [show s.ftable = b.ftable from hst.ftable]
  split
  · rename_i hfull
    refine Tri.pure fun g hg => .inl ⟨⟨rfl, fun f hf => ?_⟩, hg⟩
    simpa using firstFree_none hfull f (Nat.zero_le f) (by omega)
  · rename_i f hfree
    obtain ⟨hlt, hzero⟩ := firstFree_some hfree
    refine modifyFile_spec.bind fun _ => Tri.pure fun g hg => .inr ⟨f, rfl, by omega, ?_, hg⟩
    simpa using hzero

theorem fdalloc_spec : Spec sb E (St b h d l) (fdalloc p f) fun r g =>
    (r = none ∧ ∀ fd < NOFILE, (b.proc p).ofile fd ≠ none) ∧ St b h d l g ∨
    ∃ fd, r = some fd ∧ fd < NOFILE ∧ (b.proc p).ofile fd = none ∧
      St (b.setProc p { b.proc p with
        ofile := Function.update (b.proc p).ofile fd (some f) }) h d l g := by
  refine Tri.get_bind fun s _ hst => ?_
  rw [show s.proc = b.proc from hst.proc]
  split
  · rename_i hfull
    refine Tri.pure fun g hg => .inl ⟨⟨rfl, fun fd hfd => ?_⟩, hg⟩
    simpa using firstFree_none hfull fd (Nat.zero_le fd) (by omega)
  · rename_i fd hfree
    obtain ⟨hlt, hnone⟩ := firstFree_some hfree
    exact modifyProc_spec.bind fun _ => Tri.pure fun g hg =>
      .inr ⟨fd, rfl, by omega, by simpa using hnone, hg⟩

end Stores

end Xv6
