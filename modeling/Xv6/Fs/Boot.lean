import Xv6.Fs.Rest

/-!
The state of a system that has just started on an image.

The first process runs with the root as its current directory, and may have
open pipes; `Image.booted` is this state, within an operation or between two.
If the entries of the directories of the image are its inodes and every inode
has a link, then the state is well formed and settled.
-/

namespace Xv6

namespace Image

variable (im : Image) (sb : Superblock)

def node (i : ℕ) : Node :=
  ⟨(im.ext i).type, (im.ext i).major, (im.ext i).minor, (im.ext i).nlink,
    (List.range (im.ext i).size).map (im.data i)⟩

/-- The state in which the first process has `pipes` open files, all of them
pipes; `op` says whether it is in an operation. -/
def booted (op : Bool) (full : List Bool) (pipes : ℕ) : Fs where
  sb := sb
  bio := Bio.boot (sb.blocks (im.disk sb))
  log :=
    { start := sb.logstart
      size := sb.nlog
      outstanding := if op then 1 else 0
      committing := false
      lh := [] }
  itable k :=
    if k = 0 then ⟨ROOTDEV, ROOTINO, 1, false, false, Dinode.zero⟩
    else ⟨0, 0, 0, false, false, Dinode.zero⟩
  ftable f :=
    if f < pipes then ⟨.FD_PIPE, 1, true, true, 0, 0, 0⟩ else ⟨.FD_NONE, 0, false, false, 0, 0, 0⟩
  proc p :=
    if p = 0 then ⟨.LIVE, some 0, fun fd => if fd < pipes then some fd else none⟩
    else ⟨.UNUSED, none, fun _ => none⟩
  full := full
  trace := if op then [.beginOp] else []

/-- The entries of the directories are numbers of the inodes 1 to `n` or zero,
and every inode has a link and one of the three types. -/
def Settled : Prop :=
  1 ≤ im.n ∧ ∀ i ≤ im.n, 1 ≤ i → (im.ext i).nlink ≠ 0 ∧
    ((im.ext i).type = T_DIR ∨ (im.ext i).type = T_FILE ∨ (im.ext i).type = T_DEVICE) ∧
    ((im.ext i).type = T_DIR →
      DESIZE ∣ (im.ext i).size ∧ ∀ e < (im.ext i).size / DESIZE, (im.node i).inum e ≤ im.n)

instance : Decidable im.Settled := inferInstanceAs (Decidable (_ ∧ _))

variable {im sb} {op : Bool} {full : List Bool} {pipes : ℕ}

theorem Ok.node_disk (h : im.Ok sb) (G : Geometry sb) (i : ℕ) :
    (im.disk sb).node i = if 1 ≤ i ∧ i ≤ im.n then some (im.node i) else none := by
  split
  · rename_i hi
    have hino : (im.disk sb).ino i = (im.ext i).dinode := ino_disk hi
    have hcontent : (im.disk sb).content i = (im.node i).data := by
      rw [Disk.content, hino]
      refine List.map_congr_left fun k hk => ?_
      have hk : k < (im.ext i).size := List.mem_range.mp hk
      rw [Nat.zero_add]
      refine h.byte_disk G hi ?_
      refine lt_of_le_of_lt ?_ ((h.hole i hi.2 hi.1).resolve_left (by omega))
      have hdiv := Nat.div_le_div_right (c := BSIZE) (show k ≤ (im.ext i).size - 1 by omega)
      unfold dataPos
      split <;> split <;> omega
    rw [Disk.node_of_type (by rw [hino]; exact h.type i hi.2 hi.1), hcontent, hino]
    rfl
  · rename_i hi
    exact Disk.node_eq_none.mpr
      (congrArg Dinode.type (if_neg hi : (im.disk sb).ino i = Dinode.zero))

theorem Ok.node_booted (h : im.Ok sb) (G : Geometry sb) (i : ℕ) :
    (im.booted sb op full pipes).view.node i =
      if 1 ≤ i ∧ i ≤ im.n then some (im.node i) else none := by
  rw [show (im.booted sb op full pipes).view = im.disk sb from h.disk_blocks G, h.node_disk G]

theorem Ok.eq_node (h : im.Ok sb) (G : Geometry sb) {i : ℕ} {nd : Node}
    (hnd : (im.booted sb op full pipes).view.node i = some nd) :
    1 ≤ i ∧ i ≤ im.n ∧ nd = im.node i := by
  rw [h.node_booted G] at hnd
  split at hnd
  · rename_i hi
    exact ⟨hi.1, hi.2, (Option.some.inj hnd).symm⟩
  · cases hnd

theorem Settled.inum_le (hset : im.Settled) {i : ℕ} (hi : 1 ≤ i ∧ i ≤ im.n)
    (ht : (im.ext i).type = T_DIR) (e : ℕ) : (im.node i).inum e ≤ im.n := by
  obtain ⟨hdvd, hle⟩ := (hset.2 i hi.2 hi.1).2.2 ht
  by_cases he : e < (im.ext i).size / DESIZE
  · exact hle e he
  · grind [node, Node.inum_of_le]

theorem ref_booted {k : ℕ} (hr : 0 < ((im.booted sb op full pipes).itable k).ref) : k = 0 := by
  by_contra hk
  simp [booted, hk] at hr

theorem phase_booted : phase (im.booted sb op full pipes).trace = some op := by
  cases op <;> rfl

section

variable (h : im.Ok sb) (G : Geometry sb) (hset : im.Settled)
include h G hset

theorem Ok.wf_booted : Wf sb (im.booted sb op full pipes) := by
  have hview : (im.booted sb op full pipes).view = im.disk sb := h.disk_blocks G
  refine ⟨G, ⟨rfl, rfl, rfl, fun _ _ => rfl, fun k _ hr hv => ?_, by simp, hview ▸ h.owns G,
    ⟨rfl, rfl, rfl, List.nodup_nil, by simp [booted], G.nlog, fun hph => ?_, fun hph => ?_⟩⟩,
    ⟨fun k => ?_, fun k hr => ?_, fun k hr => ?_, fun k hr => ?_, fun k k' hr hr' _ => ?_,
      fun k hr hv => ?_⟩, fun i nd hnd ht e => ?_, fun b _ => .inl rfl⟩
  · obtain rfl := ref_booted hr
    cases hv
  · grind [phase_booted, booted]
  · rw [phase_booted, Option.some.injEq] at hph
    simp [booted, hph]
  · by_cases hk : k = 0 <;> simp [Fs.abs, Inode.ent, booted, hk]
  · rw [ref_booted hr]
    decide
  · rw [ref_booted hr]
    rfl
  · rw [ref_booted hr]
    exact G.root
  · rw [ref_booted hr, ref_booted hr']
  · obtain rfl := ref_booted hr
    cases hv
  · obtain ⟨hpos, hle, rfl⟩ := h.eq_node G hnd
    exact (hset.inum_le ⟨hpos, hle⟩ ht e).trans_lt h.lt

theorem Ok.live_booted : (im.booted sb op full pipes).abs.Live := by
  intro k hr
  obtain rfl := ref_booted hr
  change (im.booted sb op full pipes).view.node ROOTINO ≠ none
  rw [h.node_booted G, if_pos ⟨le_rfl, hset.1⟩]
  exact Option.some_ne_none _

theorem Ok.calm_booted : Calm (im.booted sb op full pipes).abs [] [] := by
  intro i nd hnd h0
  obtain ⟨hpos, hle, rfl⟩ := h.eq_node G hnd
  exact absurd h0 (hset.2 i hle hpos).1

theorem Ok.rest_booted (hpipes : pipes ≤ NFILE) : Rest (im.booted sb false full pipes).abs where
  phase := phase_booted
  unlocked k := by by_cases hk : k = 0 <;> simp [Fs.abs, Inode.ent, booted, hk]
  refs k := by
    have hfiles : Xv6.cnt (Finset.range NFILE)
        (fun f => ((im.booted sb false full pipes).ftable f).inode) (some k) = 0 := by
      refine cnt_eq_zero.mpr fun f _ => ?_
      by_cases hf : f < pipes <;> simp [booted, File.inode, hf]
    have hcwd : (fun p => ((im.booted sb false full pipes).proc p).cwd) =
        Function.update (fun _ => none) 0 (some 0) := by
      funext p
      by_cases hp : p = 0 <;> simp [booted, hp]
    have hcnt := cnt_update (fun _ => none) (S := Finset.range NPROC) (i := 0) (by simp) (some 0)
      (some k)
    have hnone : Xv6.cnt (Finset.range NPROC) (fun _ => (none : Option ℕ)) (some k) = 0 :=
      cnt_eq_zero.mpr (by simp)
    change ((im.booted sb false full pipes).itable k).ref = ((Xv6.cnt (Finset.range NFILE)
      (fun f => ((im.booted sb false full pipes).ftable f).inode) (some k) +
      Xv6.cnt (Finset.range NPROC) (fun p => ((im.booted sb false full pipes).proc p).cwd)
        (some k) :
        ℕ) : ℤ)
    rw [hfiles, hcwd]
    by_cases hk : k = 0
    · subst hk
      simp [hnone] at hcnt
      simp [booted, hcnt]
    · simp [hnone, Ne.symm hk] at hcnt
      simp [booted, hk, hcnt]
  ok := by
    refine ⟨fun f h0 => ?_, fun f => ?_, fun p fd f hf => ?_, fun p hp => ?_⟩
    · by_cases hf : f < pipes
      · simp [Fs.abs, booted, hf] at h0
      · simp [Fs.abs, booted, hf]
    · by_cases hf : f < pipes <;> simp [Fs.abs, booted, hf]
    · by_cases hp : p = 0
      · by_cases hfd : fd < pipes
        · simp only [Fs.abs, booted, hp, hfd, ↓reduceIte, Option.some.injEq] at hf
          omega
        · simp [Fs.abs, booted, hp, hfd] at hf
      · simp [Fs.abs, booted, hp] at hf
    · by_cases hp0 : p = 0
      · simp [Fs.abs, booted, hp0] at hp
      · simp [Fs.abs, booted, hp0]
  live := h.live_booted G hset
  kinds i nd hnd := by
    obtain ⟨hpos, hle, rfl⟩ := h.eq_node G hnd
    exact (hset.2 i hle hpos).2.1
  node f k _ hk := by
    by_cases hf : f < pipes <;> simp [Fs.abs, booted, File.inode, hf] at hk

end

theorem keepsCwd_booted : KeepsCwd (im.booted sb op full pipes).abs [] 0 := by
  intro k hk
  obtain rfl : 0 = k := by simpa [Fs.abs, booted] using hk
  simp [Fs.abs, Inode.ent, booted]

theorem Ok.named_booted (h : im.Ok sb) (G : Geometry sb) (hset : im.Settled) :
    (im.booted sb op full pipes).abs.Named := by
  intro i nd e hnd ht h0
  obtain ⟨hpos, hle, rfl⟩ := h.eq_node G hnd
  change (im.booted sb op full pipes).view.node _ ≠ none
  rw [h.node_booted G, if_pos ⟨Nat.one_le_iff_ne_zero.mpr h0, hset.inum_le ⟨hpos, hle⟩ ht e⟩]
  exact Option.some_ne_none _

theorem Ok.whole_booted (h : im.Ok sb) (G : Geometry sb) (hset : im.Settled) :
    (im.booted sb op full pipes).abs.Whole := by
  intro i nd hnd ht
  obtain ⟨hpos, hle, rfl⟩ := h.eq_node G hnd
  simpa [node] using ((hset.2 i hle hpos).2.2 ht).1

end Image

theorem fileImage_settled : fileImage.Settled := by decide +kernel

end Xv6
