import Xv6.Lib.Machine
import Xv6.Mkfs.Append

/-!
The state of `fs.img` between the calls of `ialloc` and `iappend`: which inodes
there are and what they hold.
-/

namespace Xv6.Mkfs

open Function (update update_self update_of_ne)

variable {i : ℕ} {s : Img}

def used (data : ℕ → List UInt8) : ℕ := nmeta + ∑ i ∈ Finset.range NINODES, cost (data i).length

theorem used_mono {data data' : ℕ → List UInt8} (h : ∀ i, (data i).length ≤ (data' i).length) :
    used data ≤ used data' :=
  Nat.add_le_add_left (Finset.sum_le_sum fun i _ => cost_mono (h i)) _

theorem used_update {data : ℕ → List UInt8} (hi : i < NINODES) (l : List UInt8) :
    used (update data i l) + cost (data i).length = used data + cost l.length := by
  have hsum := sum_change (f := fun j => cost (update data i l j).length)
    (g := fun j => cost (data j).length) (Finset.mem_range.mpr hi) fun j _ hj => by
      simp only [update_of_ne hj]
  simp only [update_self] at hsum
  unfold used
  omega

/-- The inodes in `fs.img` have the types `type` and hold `data`, and their
blocks are all that is allocated. -/
structure Built (s : Img) (type : ℕ → ℤ) (data : ℕ → List UInt8) : Prop where
  len : s.len = FSSIZE
  super : s.sect 1 = superblock
  owns : Owns sb s.disk ∅
  zero : ∀ b, s.freeblock ≤ b → s.disk.blk b = zeroBlock
  types : ∀ i, (s.disk.ino i).type = type i
  content : ∀ i, s.disk.content i = data i
  grown : ∀ i p, s.disk.own i p ≠ 0 ↔ p < cost (data i).length
  free : s.freeblock = used data
  hi : used data ≤ FSSIZE
  max : ∀ i, (data i).length ≤ MAXFILE * BSIZE
  fresh : ∀ i, s.freeinode ≤ i → type i = 0

namespace Built

variable {s : Img} {type : ℕ → ℤ} {data : ℕ → List UInt8} {i : ℕ} {E : Die → Prop}

theorem size (h : Built s type data) (i : ℕ) : (s.disk.ino i).size = (data i).length := by
  rw [← h.content i, Disk.length_content]

theorem draft (h : Built s type data) (ht : type i ≠ 0) :
    Draft s i s.disk (cost (data i).length) where
  len := h.len
  super := h.super
  disk := by simp [Disk.setIno]
  owns := h.owns
  zero := h.zero
  lo := by
    rw [h.free]
    exact Nat.le_add_right ..
  hi := h.free.le.trans h.hi
  type := by rwa [h.types]
  grown := h.grown i

theorem mapped (h : Built s type data) {k : ℕ} (hk : k < (data i).length) :
    s.disk.own i (dataPos (k / BSIZE)) ≠ 0 := by
  rw [h.grown, cost, dataPos_lt_spots]
  exact div_lt_blocks hk

theorem IBLOCK_lt (hi : i < NINODES) : sb.IBLOCK i < FSSIZE := by
  have hlt := sb_geometry.IBLOCK_lt_dataStart (i := i) (b := 0) hi (by decide)
  have : sb.dataStart < FSSIZE := by decide
  omega

end Built

theorem wp_winode {E : Die → Prop} {d : Dinode} {Q : Unit → Img → Prop} (hlen : s.len = FSSIZE)
    (hi : i < NINODES) (hQ : Q () (s.write (sb.IBLOCK i) (putDinode (s.sect (sb.IBLOCK i)) i d))) :
    wp E (winode i d) Q s := by
  unfold winode
  rw [wp_bind, wp_rsect (by rw [hlen]; exact Built.IBLOCK_lt hi), wp_wsect]
  exact hQ

theorem Img.disk_winode (hi : i < NINODES) {d : Dinode} (hd : d.Ok) :
    (s.write (sb.IBLOCK i) (putDinode (s.sect (sb.IBLOCK i)) i d)).disk = s.disk.setIno i d := by
  have hput := sb_geometry.disk_putDinode (c := s.sect) hi hd
  simp only [Img.disk, Img.write, hput]
  rfl

theorem Img.len_winode (hlen : s.len = FSSIZE) (hi : i < NINODES) (x : Block) :
    (s.write (sb.IBLOCK i) x).len = FSSIZE := by
  refine (max_eq_left ?_).trans hlen
  rw [hlen]
  exact Built.IBLOCK_lt hi

theorem Img.super_winode (x : Block) : (s.write (sb.IBLOCK i) x).sect 1 = s.sect 1 := by
  have hle : sb.inodestart ≤ sb.IBLOCK i := Geometry.inodestart_le_IBLOCK i
  have : 1 < sb.inodestart := by decide
  show update s.sect (sb.IBLOCK i) x 1 = s.sect 1
  rw [update_of_ne (by omega)]

theorem wp_rinode {E : Die → Prop} {Q : Dinode → Img → Prop} (hlen : s.len = FSSIZE)
    (hi : i < NINODES) (hQ : Q (s.disk.ino i) s) : wp E (rinode i) Q s := by
  unfold rinode
  rw [wp_bind, wp_rsect (by rw [hlen]; exact Built.IBLOCK_lt hi), wp_pure]
  rwa [Img.disk, Superblock.disk_ino hi] at hQ

theorem Draft.disk_winode {c n : ℕ} {D : Disk} (h : Draft s i D c) (hi : i < NINODES)
    (hn : n < 2 ^ 32) :
    (s.write (sb.IBLOCK i) (putDinode (s.sect (sb.IBLOCK i)) i
      { D.ino i with size := n })).disk = D.setSize i n := by
  have hok : Dinode.Ok { D.ino i with size := n } := { h.owns.ok i with size := hn }
  rw [Img.disk_winode hi hok]
  conv_rhs => rw [Disk.setSize, ← h.disk]
  simp [Disk.setIno]

namespace Built

variable {s : Img} {type : ℕ → ℤ} {data : ℕ → List UInt8} {i : ℕ} {E : Die → Prop}

theorem content_append (h : Built s type data) {p : List UInt8} {s' : Img} {D' : Disk}
    (happ : Appended s i s.disk (data i).length p s' D') (j : ℕ) :
    (D'.setSize i ((data i).length + p.length)).content j = update data i (data i ++ p) j := by
  rcases eq_or_ne j i with rfl | hj
  · have hsize := h.size j
    rw [update_self, ← h.content j, Disk.length_content,
      Disk.content_splice (D := s.disk) (l := p) (le_refl (s.disk.ino j).size)]
    · grind [Built, splice, List.drop_of_length_le]
    · rw [Disk.ino_setSize, max_eq_right (Nat.le_add_right ..)]
    · grind [Disk.ino_setSize, Disk.byte_setSize, happ.byte, h.mapped]
  · rw [update_of_ne hj, ← h.content j]
    unfold Disk.content
    rw [Disk.ino_setSize_ne _ hj, happ.grows.ino_ne j hj]
    refine Disk.bytes_congr fun k _ hk => ?_
    rw [Nat.zero_add] at hk
    rw [Disk.byte_setSize, happ.byte j k, if_neg (by simp [hj])]
    exact .inl (h.mapped (by rw [← h.size]; exact hk))

/-- `iappend` appends, unless that makes the file too large. -/
theorem iappend_spec (h : Built s type data) (hi : i < NINODES) (ht : type i ≠ 0) {p : List UInt8}
    (hmax : MAXFILE * BSIZE < (data i).length + p.length → E .fbn)
    (hroom : used (update data i (data i ++ p)) ≤ FSSIZE) :
    wp E (iappend i p) (fun _ s' => Built s' type (update data i (data i ++ p)) ∧
      s'.freeinode = s.freeinode) s := by
  have hused : used (update data i (data i ++ p)) + cost (data i).length =
      used data + cost (data i ++ p).length := used_update hi _
  rw [List.length_append] at hused
  have hfree := h.free
  refine wp_bind.mpr (wp_rinode h.len hi ?_)
  rw [h.size]
  refine wp.bind (iappendLoop_spec (h.draft ht) le_rfl (h.max i) hmax (by omega)) ?_
  rintro ⟨din, off⟩ s' ⟨hle, D', happ, rfl, rfl⟩
  have h32 : (data i).length + p.length < 2 ^ 32 := by
    norm_num [MAXFILE] at hle ⊢
    omega
  refine wp_winode happ.draft.len hi ⟨?_, happ.freeinode⟩
  have hdisk := happ.draft.disk_winode hi h32
  have hfree' := happ.free
  refine ⟨Img.len_winode happ.draft.len hi _, (Img.super_winode _).trans happ.draft.super, ?_,
    fun b hb => ?_, fun j => ?_, fun j => ?_,
    fun j q => ?_, ?_, hroom, fun j => ?_, ?_⟩
  · rw [hdisk]
    refine happ.draft.owns.setSize h32 fun bn hbn => ?_
    rw [happ.draft.grown, cost, dataPos_lt_spots, blocks]
    norm_num at hbn ⊢
    omega
  · rw [hdisk]
    exact happ.draft.zero b hb
  · rw [hdisk, ← h.types j]
    rcases eq_or_ne j i with rfl | hj
    · rw [Disk.ino_setSize, happ.grows.ino_eq]
    · rw [Disk.ino_setSize_ne _ hj, happ.grows.ino_ne j hj]
  · rw [hdisk]
    exact h.content_append happ j
  · grind [Disk.own_setSize, happ.draft.grown, happ.grows.own_ne, h.grown]
  · show s'.freeblock = _
    omega
  · grind [Built]
  · intro j hj
    exact h.fresh j (happ.freeinode.ge.trans hj)

theorem data_unused (h : Built s type data) (ht : type i = 0) : data i = [] := by
  by_contra hne
  exact h.mapped (List.length_pos_iff.mpr hne) (Disk.own_of_type ((h.types i).trans ht) _)

theorem ialloc_spec (h : Built s type data) (hn : s.freeinode < NINODES) {t : ℤ}
    (ht : short t = t) :
    wp E (ialloc t) (fun r s' => r = s.freeinode ∧
      Built s' (update type s.freeinode t) data ∧ s'.freeinode = s.freeinode + 1) s := by
  let d : Dinode := { Dinode.zero with type := t, nlink := 1 }
  have hok : d.Ok := { Dinode.zero_ok with type := ht, nlink := rfl }
  have hunused := h.fresh s.freeinode le_rfl
  have hdata := h.data_unused hunused
  unfold ialloc
  simp only [wp_bind, wp_get, wp_set]
  refine wp_winode h.len hn ⟨rfl, ?_, rfl⟩
  have hdisk : (({ s with freeinode := s.freeinode + 1 } : Img).write (sb.IBLOCK s.freeinode)
      (putDinode (s.sect (sb.IBLOCK s.freeinode)) s.freeinode d)).disk =
        s.disk.setIno s.freeinode d := Img.disk_winode hn hok
  have hown : ∀ j q, (s.disk.setIno s.freeinode d).own j q = s.disk.own j q := by
    intro j q
    rcases eq_or_ne j s.freeinode with rfl | hj
    · rw [Disk.own_of_type ((h.types _).trans hunused)]
      simp [Disk.own, d, Dinode.zero]
    · exact Disk.own_setIno_ne hj d q
  have hino : ∀ {j}, j ≠ s.freeinode → (s.disk.setIno s.freeinode d).ino j = s.disk.ino j :=
    fun hj => update_of_ne hj ..
  have hself : (s.disk.setIno s.freeinode d).ino s.freeinode = d := update_self ..
  refine ⟨?_, (Img.super_winode _).trans h.super, ?_, fun b hb => ?_, fun j => ?_, fun j => ?_,
    fun j q => ?_, h.free, h.hi, h.max, fun j hj => ?_⟩
  · exact Img.len_winode (s := { s with freeinode := s.freeinode + 1 }) h.len hn _
  · rw [hdisk]
    refine h.owns.congr hown rfl (fun j => ?_) fun j => ?_
    · grind [h.owns.ok]
    · rcases eq_or_ne j s.freeinode with rfl | hj
      · intro _ bn hbn
        rw [hself] at hbn
        exact absurd hbn (Nat.not_lt_zero _)
      · exact Owns.holeFree_congr (h.owns.hole j) (hown j) (fun h0 => hino hj ▸ h0)
          fun _ => (hino hj).symm ▸ le_rfl
  · rw [hdisk]
    exact h.zero b hb
  · grind [h.types]
  · rw [hdisk]
    rcases eq_or_ne j s.freeinode with rfl | hj
    · rw [hdata, Disk.content, hself]
      rfl
    · rw [← h.content j]
      unfold Disk.content
      rw [hino hj]
      exact Disk.bytes_congr fun k _ _ => by unfold Disk.byte; rw [hown]; rfl
  · rw [hdisk, hown]
    exact h.grown j q
  · have hj : s.freeinode + 1 ≤ j := hj
    rw [update_of_ne (by omega)]
    exact h.fresh j (by omega)

end Built

end Xv6.Mkfs
