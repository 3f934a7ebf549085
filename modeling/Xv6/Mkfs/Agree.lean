import Xv6.Fs.Scan
import Xv6.Mkfs.Main

/-!
The kernel on an image that `mkfs` wrote.

`Mounted` is a kernel that has the image in its buffers and its root directory
in the inode table, with whatever else is in the table.
-/

namespace Xv6.Mkfs

open List

variable {files : List HostFile} {e : ℕ}

def readsb (b : Block) : ℕ × Superblock :=
  (b.getLe 4 0, ⟨b.getLe 4 4, b.getLe 4 8, b.getLe 4 12, b.getLe 4 16, b.getLe 4 20, b.getLe 4 24,
    b.getLe 4 28⟩)

theorem readsb_superblock : readsb superblock = (FSMAGIC, sb) := by decide +kernel

structure Mounted (sect : ℕ → Block) (dp : ℕ) (k : Fs) : Prop where
  sb : readsb (sect 1) = (FSMAGIC, k.sb)
  cache : k.bio.cache = sect
  ref : 0 < (k.itable dp).ref
  inum : (k.itable dp).inum = ROOTINO
  valid : (k.itable dp).valid = true
  sync : ∀ j, 0 < (k.itable j).ref → (k.itable j).dev = (k.itable dp).dev →
    (k.itable j).valid = true → (k.itable j).d = (k.sb.disk sect).ino (k.itable j).inum
  unlocked : ∀ j, j ≠ dp → (k.itable j).locked = false
  room : ∃ j < NINODE, (k.itable j).ref = 0

/-- Look the name up and read the whole file: its size, and what `readi`
returns and stores. -/
def readFile (dp : ℕ) (name : Name) (dst : Dst) : Xv6.M (Option (ℕ × ℤ × List UInt8)) := do
  match ← dirlookup dp name with
  | none => return none
  | some (ip, _) => do
      ilock ip
      let size := (← inode ip).d.size
      let (r, bytes) ← readi ip dst 0 size
      return some (size, r, bytes)

/-! ### The root directory -/

theorem take_drop_flatten {α : Type*} {L : List (List α)} {l : List α} {m : ℕ}
    (hL : ∀ l ∈ L, l.length = m) (he : L[e]? = some l) : (L.flatten.drop (e * m)).take m = l := by
  induction L generalizing e with
  | nil => simp at he
  | cons x L ih =>
    obtain ⟨hx, hL⟩ := forall_mem_cons.mp hL
    cases e with
    | zero =>
      obtain rfl : x = l := by simpa using he
      rw [Nat.zero_mul, drop_zero, flatten_cons, take_left' hx]
    | succ e =>
      rw [flatten_cons, Nat.succ_mul, Nat.add_comm, ← drop_drop,
        drop_left' hx]
      exact ih hL (by simpa using he)

theorem dirent_rootData {de : ℕ × Name} (he : (rootDirents files)[e]? = some de) :
    ((rootData files).drop (e * DESIZE)).take DESIZE = direntBytes de.1 de.2 := by
  refine take_drop_flatten (fun l hl => ?_) (by rw [getElem?_map, he]; rfl)
  obtain ⟨de', -, rfl⟩ := mem_map.mp hl
  exact length_direntBytes ..

namespace Finished

variable {files : List HostFile} {im : Img} {k : Fs} {dp : ℕ} {E : Stop → Prop}
variable {de : ℕ × Name} {e i : ℕ}

theorem sb_eq (h : Finished files im) (hk : Mounted im.sect dp k) : k.sb = sb := by
  have hsb := hk.sb
  rw [h.super, readsb_superblock] at hsb
  exact (Prod.mk.inj hsb).2.symm

theorem cached (h : Finished files im) {k : Fs} (hk : k.bio.cache = im.sect) :
    (sb.disk im.sect).Cached sb k where
  blk := by rw [hk]
  range i p h0 := ⟨(h.range i p h0).1, (h.range i p h0).2.trans_le h.le_size⟩

theorem mapped_byte (h : Finished files im) {n : ℕ} (hn : n < (fileData files i).length) :
    (sb.disk im.sect).own i (dataPos (n / BSIZE)) ≠ 0 := by
  rw [h.mapped, cost, dataPos_lt_spots]
  exact div_lt_blocks hn

theorem root_copy (h : Finished files im) (hk : Mounted im.sect dp k) :
    (k.itable dp).d = (sb.disk im.sect).ino ROOTINO := by
  rw [hk.sync dp hk.ref rfl hk.valid, hk.inum, h.sb_eq hk]

theorem size_lt (im : Img) (i : ℕ) : ((sb.disk im.sect).ino i).size < 2 ^ 32 :=
  (sb.disk_ino_ok im.sect i).size

theorem dirent_le (he : (rootDirents files)[e]? = some de) :
    e * DESIZE + DESIZE ≤ (rootData files).length := by
  have hlt := (List.getElem?_eq_some_iff.mp he).1
  rw [rootDirents, length_cons, length_cons, length_mapIdx] at hlt
  rw [length_rootData]
  norm_num
  omega

theorem root_size (h : Finished files im) :
    ((sb.disk im.sect).ino ROOTINO).size = rootSize files := by rw [h.size, if_pos rfl]

theorem length_lt_rootSize (files : List HostFile) : (rootData files).length < rootSize files := by
  rw [rootSize]
  norm_num
  omega

theorem readi_dirent (h : Finished files im) (hk : Mounted im.sect dp k)
    (he : (rootDirents files)[e]? = some de) :
    wp E (readi dp .kernel (e * DESIZE) DESIZE) (fun r k' =>
      k' = k ∧ r = ((DESIZE : ℤ), direntBytes de.1 de.2)) k := by
  have hle := dirent_le he
  have hroot := h.root_size
  have hsize := length_lt_rootSize files
  have h32 := size_lt im ROOTINO
  refine (readi_mapped (h.cached hk.cache) (h.root_copy hk) (by omega) (by norm_num)
    fun n _ hn _ => h.mapped_byte ?_).mono ?_
  · rw [fileData_root]
    omega
  · rintro r k' ⟨rfl, hr⟩
    refine ⟨rfl, (hr.eq trivial).trans ?_⟩
    rw [Disk.readResult_inside (by omega) (by omega), Disk.bytes_slice _ _ hle, ← fileData_root,
      h.bytes, fileData_root, dirent_rootData he]

theorem dirent_inum (he : (rootDirents files)[e]? = some de) :
    de.1 = if e < 2 then ROOTINO else e := by
  match e with
  | 0 => grind [rootDirents]
  | 1 => grind [rootDirents]
  | e + 2 => grind [rootDirents]

def rootEntry (files : List HostFile) (e : ℕ) : List UInt8 :=
  ((rootData files).drop (e * DESIZE)).take DESIZE

theorem names_rootEntry (name : Name) (hcount : files.length + 2 ≤ NINODES)
    (he : (rootDirents files)[e]? = some de) :
    direntInum (rootEntry files e) = de.1 ∧
      (Names name (rootEntry files e) ↔ cname name = cname de.2) := by
  have hinum := dirent_inum he
  have hrange : 0 < de.1 ∧ de.1 < 2 ^ 16 := by grind [rootDirents]
  rw [Names, rootEntry, dirent_rootData he, direntInum_direntBytes _ hrange.2, cname_direntBytes,
    and_iff_right hrange.1.ne']
  exact ⟨rfl, eq_comm⟩

/-- `dirlookup` finds the first entry with the name. -/
theorem dirlookup_found (h : Finished files im) (hk : Mounted im.sect dp k)
    (hcount : files.length + 2 ≤ NINODES) {name : Name} {m : ℕ}
    (hm : (rootDirents files)[m]? = some de) (heq : cname name = cname de.2)
    (hno : ∀ e < m, ∀ de, (rootDirents files)[e]? = some de → cname name ≠ cname de.2)
    {Q : Option (ℕ × ℕ) → Fs → Prop}
    (hQ : wp E (iget (k.itable dp).dev de.1) (fun ip k' => Q (some (ip, m * DESIZE)) k') k) :
    wp E (dirlookup dp name) Q k := by
  have hsize : (k.itable dp).d.size = rootSize files := by rw [h.root_copy hk, h.root_size]
  have hlen := length_lt_rootSize files
  have htype : (k.itable dp).d.type = T_DIR := by
    rw [h.root_copy hk, h.type, fileType, if_pos rfl]
  obtain ⟨hinum, hnames⟩ := names_rootEntry name hcount hm
  have hscan : ∀ e, (∀ e' < e, ¬Names name (rootEntry files e')) →
      Scans E (.panic .dirlookupRead) dp (rootEntry files) k e := by
    intro e hnot
    have hem : e ≤ m := not_lt.mp fun hlt => hnot m hlt (hnames.mpr heq)
    obtain ⟨de', he⟩ : ∃ de', (rootDirents files)[e]? = some de' := by grind
    have hle := dirent_le he
    refine (h.readi_dirent hk he).mono ?_
    rintro _ _ ⟨rfl, rfl⟩
    rw [hsize, rootEntry, dirent_rootData he, Nat.succ_mul]
    exact ⟨rfl, fun hne => absurd rfl hne, fun _ => ⟨rfl, hle.trans hlen.le⟩⟩
  refine dirlookup_wp (fun e _ hnot => hscan e hnot) (fun n hn hnot => ?_)
    (fun e _ hhit hnot => ?_) htype
  · have hle := dirent_le hm
    refine absurd (hnames.mpr heq) (hnot m ?_)
    rw [hsize] at hn
    norm_num at hle hn
    omega
  · have hem : e ≤ m := not_lt.mp fun hlt => hnot m hlt (hnames.mpr heq)
    rcases Nat.eq_or_lt_of_le hem with rfl | hlt
    · rwa [hinum]
    · obtain ⟨de', he⟩ : ∃ de', (rootDirents files)[e]? = some de' := by grind
      exact absurd ((names_rootEntry name hcount he).2.mp hhit) (hno e hlt de' he)

theorem iget_agrees (h : Finished files im) (hk : Mounted im.sect dp k) (i : ℕ) :
    wp E (iget (k.itable dp).dev i) (fun ip k' => k'.sb = sb ∧ k'.bio.cache = im.sect ∧
      (k'.itable ip).inum = i ∧ 0 < (k'.itable ip).ref ∧
      ((k'.itable ip).valid = true → (k'.itable ip).d = (sb.disk im.sect).ino i) ∧
      (i ≠ ROOTINO → (k'.itable ip).locked = false)) k := by
  have hsb := h.sb_eq hk
  unfold iget
  simp only [wp_bind, wp_get]
  split
  · rename_i ip hscan
    obtain ⟨href, hdev, hinum⟩ := igetScan_inl hscan
    rw [wp_bind, wp_modifyInode, wp_pure]
    have hself : (k.setEntry ip { k.itable ip with ref := (k.itable ip).ref + 1 }).itable ip =
        { k.itable ip with ref := (k.itable ip).ref + 1 } := Fs.itable_setEntry_self ..
    rw [hself]
    refine ⟨hsb, hk.cache, hinum, by show 0 < (k.itable ip).ref + 1; omega, fun hv => ?_,
      fun hi => ?_⟩
    · rw [← hinum, ← hsb]
      exact hk.sync ip href hdev hv
    · grind [hk.unlocked, hk.inum]
  · grind [hk.room, igetScan_none]
  · rename_i ip hscan
    have hfree : (k.itable ip).ref = 0 := by grind [igetScan_inr]
    rw [wp_bind, wp_modifyInode, wp_pure]
    have hself := k.itable_setEntry_self ip
      { k.itable ip with dev := (k.itable dp).dev, inum := i, ref := 1, valid := false }
    rw [hself]
    refine ⟨hsb, hk.cache, rfl, Int.one_pos, fun hv => absurd hv (by simp), fun _ => ?_⟩
    refine hk.unlocked ip ?_
    rintro rfl
    exact absurd hfree hk.ref.ne'

theorem ilock_agrees {ip : ℕ} (hi : i < NINODES) (hsb : k.sb = sb) (hcache : k.bio.cache = im.sect)
    (hinum : (k.itable ip).inum = i) (href : 0 < (k.itable ip).ref)
    (hunlocked : (k.itable ip).locked = false)
    (hsync : (k.itable ip).valid = true → (k.itable ip).d = (sb.disk im.sect).ino i)
    (ht : ((sb.disk im.sect).ino i).type ≠ 0) :
    wp E (ilock ip) (fun _ k' => k'.bio.cache = im.sect ∧
      (k'.itable ip).d = (sb.disk im.sect).ino i) k := by
  have hino : (sb.disk im.sect).ino i = getDinode (im.sect (sb.IBLOCK i)) i :=
    Superblock.disk_ino hi
  unfold ilock acquiresleep
  simp only [wp_bind, wp_inode]
  rw [if_neg (by omega), wp_bind, wp_bind, wp_inode, hunlocked, if_neg (by simp), wp_modifyInode]
  set k₁ := k.setEntry ip { k.itable ip with locked := true } with hk₁
  have hself : k₁.itable ip = { k.itable ip with locked := true } := Fs.itable_setEntry_self ..
  rw [wp_bind, wp_inode, hself]
  refine wp.ite (fun hv => ?_) fun hv => ?_
  · rw [wp_pure, hself]
    exact ⟨hcache, hsync hv⟩
  · have hd : getDinode (k₁.bio.cache (k₁.sb.IBLOCK (k.itable ip).inum)) (k.itable ip).inum =
        (sb.disk im.sect).ino i := by
      rw [hinum, hino, show k₁.bio.cache = im.sect from hcache, show k₁.sb = sb from hsb]
    rw [wp_bind, wp_get, wp_bind, wp_bread]
    dsimp only
    rw [hd, wp_bind, wp_modifyInode, if_neg ht, wp_pure]
    refine ⟨hcache, ?_⟩
    rw [Fs.itable_setEntry_self]

theorem readi_whole (h : Finished files im) {ip : ℕ} (hcache : k.bio.cache = im.sect)
    (hcopy : (k.itable ip).d = (sb.disk im.sect).ino i) (hi : i ≠ ROOTINO) {dst : Dst}
    (hdst : dst.Writable (fileData files i).length) :
    wp E (readi ip dst 0 (fileData files i).length) (fun r _ =>
      r = (((fileData files i).length : ℤ), fileData files i)) k := by
  have hsize : ((sb.disk im.sect).ino i).size = (fileData files i).length := by
    rw [h.size, if_neg hi]
  have h32 := size_lt im i
  refine (readi_mapped (h.cached hcache) hcopy (by norm_num) (by omega) fun n _ hn _ =>
    h.mapped_byte (by omega)).mono ?_
  rintro r _ ⟨-, hr⟩
  rw [hr.eq (by rwa [hsize, Nat.sub_zero, min_self]), Disk.readResult_inside (by omega) (by omega),
    h.bytes]

end Finished

/-! ### Names -/

theorem HostFile.zero_notMem_shortname (f : HostFile) : 0 ∉ f.shortname := by
  have hbase : 0 ∉ f.base := by grind [HostFile.base, f.path_ne]
  unfold HostFile.shortname
  split_ifs
  · exact fun h => hbase (mem_of_mem_tail h)
  · exact hbase

theorem cname_of_fits {name : List UInt8} (hlen : name.length ≤ DIRSIZ) (h0 : 0 ∉ name) :
    cname name = name := by
  rw [cname, take_of_length_le hlen, takeWhile_eq_self_iff]
  intro x hx
  simp only [decide_eq_true_eq]
  rintro rfl
  exact h0 hx

structure Distinct (files : List HostFile) : Prop where
  nodup : (files.map HostFile.shortname).Nodup
  length : ∀ f ∈ files, f.shortname.length ≤ DIRSIZ
  ne_dot : ∀ f ∈ files, f.shortname ≠ dot
  ne_dotdot : ∀ f ∈ files, f.shortname ≠ dotdot

theorem Distinct.cname_eq (h : Distinct files) {f : HostFile} (hf : f ∈ files) :
    cname f.shortname = f.shortname :=
  cname_of_fits (h.length f hf) f.zero_notMem_shortname

theorem Distinct.first (h : Distinct files) {j : ℕ} {f : HostFile} (hj : files[j]? = some f)
    (he : e < j + 2) {de : ℕ × Name} (hde : (rootDirents files)[e]? = some de) :
    cname f.shortname ≠ cname de.2 := by
  have hf := mem_of_getElem? hj
  rw [h.cname_eq hf]
  match e with
  | 0 =>
    obtain rfl : (ROOTINO, dot) = de := by simpa [rootDirents] using hde
    exact h.ne_dot f hf
  | 1 =>
    obtain rfl : (ROOTINO, dotdot) = de := by simpa [rootDirents] using hde
    exact h.ne_dotdot f hf
  | e + 2 =>
    rw [rootDirents, getElem?_cons_succ, getElem?_cons_succ, getElem?_mapIdx] at hde
    obtain ⟨f', hf', rfl⟩ := Option.map_eq_some_iff.mp hde
    rw [h.cname_eq (mem_of_getElem? hf')]
    intro heq
    have hsame : (files.map HostFile.shortname)[j]? = (files.map HostFile.shortname)[e]? := by grind
    have hlt : j < (files.map HostFile.shortname).length := by grind
    have := (getElem?_inj hlt h.nodup).mp hsame
    omega

namespace Finished

variable {files : List HostFile} {im : Img} {k : Fs} {dp : ℕ} {E : Stop → Prop}

theorem readFile_agrees (h : Finished files im) (hk : Mounted im.sect dp k)
    (hcount : files.length + 2 ≤ NINODES) (hd : Distinct files) {f : HostFile} (hf : f ∈ files)
    {dst : Dst} (hdst : dst.Writable f.bytes.length) :
    wp E (readFile dp f.shortname dst) (fun r _ =>
      r = some (f.bytes.length, (f.bytes.length : ℤ), f.bytes)) k := by
  obtain ⟨j, hj⟩ := mem_iff_getElem?.mp hf
  have hlt := (List.getElem?_eq_some_iff.mp hj).1
  have hdata : fileData files (j + 2) = f.bytes := by
    rw [fileData_file, hj]
    rfl
  have hroot : j + 2 ≠ ROOTINO := show j + 2 ≠ 1 by omega
  have hsize : ((sb.disk im.sect).ino (j + 2)).size = f.bytes.length := by grind [h.size]
  have htype : ((sb.disk im.sect).ino (j + 2)).type ≠ 0 := by grind [h.type, fileType]
  have hde : (rootDirents files)[j + 2]? = some (j + 2, f.shortname) := by grind [rootDirents]
  unfold readFile
  rw [wp_bind]
  refine h.dirlookup_found hk hcount hde rfl (fun e he de => hd.first hj he) ?_
  refine (h.iget_agrees hk (j + 2)).mono ?_
  rintro ip k₁ ⟨hsb, hcache, hinum, href, hsync, hunlocked⟩
  refine wp.bind (ilock_agrees (by omega) hsb hcache hinum href (hunlocked hroot) hsync htype) ?_
  rintro _ k₂ ⟨hcache₂, hcopy₂⟩
  rw [wp_bind, wp_inode, hcopy₂, hsize, ← hdata]
  refine wp.bind (h.readi_whole hcache₂ hcopy₂ hroot (by rwa [hdata])) ?_
  rintro _ k₃ rfl
  exact wp_pure.mpr rfl

end Finished

/-! ### The free blocks -/

theorem balloc_clear (s : Fs) : wp (fun _ => True) Xv6.balloc (fun a _ =>
    a = 0 ∨ a < s.sb.size ∧ (s.sb.disk s.bio.cache).bit a = false) s := by
  refine balloc_wp (fun _ => .inl rfl) (fun _ _ => .inl rfl) fun a ha _ hclear _ => ?_
  -- what the log does then does not matter
  have hany : ∀ (f : Xv6.M Unit) s', wp (fun _ => True) f (fun _ _ => True) s' :=
    fun f s' => wp_true.mpr fun _ _ _ => trivial
  refine wp.bind (hany _ _) fun _ _ _ => wp.bind (hany _ _) fun _ _ _ =>
    wp.bind (hany _ _) fun _ _ _ => .inr ⟨ha, ?_⟩
  rw [Superblock.disk_bit ha]
  exact hclear

namespace Finished

variable {files : List HostFile} {im : Img} {k : Fs} {dp : ℕ}

theorem bit (h : Finished files im) {b : ℕ} (hb : b < FSSIZE) :
    (sb.disk im.sect).bit b = decide (b < im.freeblock) := by
  have hlt : b < BPB := hb.trans (by decide)
  have hblock : sb.BBLOCK b = sb.bmapstart := by grind [Superblock.BBLOCK]
  rw [Superblock.disk_bit hb, hblock, Nat.mod_eq_of_lt hlt, h.bitmap b hlt]

theorem balloc_unused (h : Finished files im) (hk : Mounted im.sect dp k) :
    wp (fun _ => True) Xv6.balloc (fun b _ =>
      b = 0 ∨ nmeta ≤ b ∧ ∀ i p, (sb.disk im.sect).own i p ≠ b) k := by
  refine (balloc_clear k).mono fun b _ hb => hb.imp_right fun ⟨hlt, hclear⟩ => ?_
  rw [h.sb_eq hk] at hlt hclear
  rw [hk.cache, h.bit hlt, decide_eq_false_iff_not, not_lt] at hclear
  have hnmeta : nmeta ≤ im.freeblock := by grind [h.free, blocksFor]
  refine ⟨hnmeta.trans hclear, fun i p hown => ?_⟩
  have hne : (sb.disk im.sect).own i p ≠ 0 := by
    have : 0 < nmeta := by decide
    omega
  have := (h.range i p hne).2
  omega

theorem dots_agree {E : Stop → Prop} (h : Finished files im) (hk : Mounted im.sect dp k)
    (hcount : files.length + 2 ≤ NINODES) {name : Name} (hname : name = dot ∨ name = dotdot) :
    wp E (dirlookup dp name) (fun r k' => ∃ ip off, r = some (ip, off) ∧
      (k'.itable ip).inum = ROOTINO) k := by
  have hfound : ∀ m : ℕ, (rootDirents files)[m]? = some (ROOTINO, name) →
      (∀ e < m, ∀ de, (rootDirents files)[e]? = some de → cname name ≠ cname de.2) →
      wp E (dirlookup dp name) (fun r k' => ∃ ip off, r = some (ip, off) ∧
        (k'.itable ip).inum = ROOTINO) k := by
    intro m hde hno
    refine h.dirlookup_found hk hcount hde rfl hno ?_
    refine (h.iget_agrees hk ROOTINO).mono ?_
    rintro ip k' ⟨-, -, hinum, -⟩
    exact ⟨ip, m * DESIZE, rfl, hinum⟩
  rcases hname with rfl | rfl
  · exact hfound 0 rfl fun e he => absurd he (Nat.not_lt_zero e)
  · refine hfound 1 rfl fun e he de hde => ?_
    obtain rfl : e = 0 := by omega
    obtain rfl : (ROOTINO, dot) = de := Option.some.inj hde
    decide

end Finished

/-! ### The format -/

-- the unifier would go around the loop for each sector
attribute [local irreducible] zeroSects

/-- The kernel agrees with `mkfs` on the image: it finds each file by its name
and reads the bytes that it was made from, no block has two uses, and the bitmap
has the blocks before `freeblock`. -/
theorem kernel_reads_mkfs {files : List HostFile} (hcount : files.length ≤ NINODES - 2)
    (hnodup : (files.map HostFile.shortname).Nodup)
    (hname : ∀ f ∈ files, f.shortname ≠ [] ∧ f.shortname.length ≤ DIRSIZ ∧ f.shortname ≠ dot ∧
      f.shortname ≠ dotdot)
    (hsize : ∀ f ∈ files, f.bytes.length ≤ MAXFILE * BSIZE) (hroom : blocksFor files ≤ FSSIZE) :
    wp (fun e => e = .slash ∧ ∃ f ∈ files, 47 ∈ f.base) (main files) (fun _ im =>
      readsb (im.sect 1) = (FSMAGIC, sb) ∧
      (∀ dp k, Mounted im.sect dp k →
        (∀ f ∈ files, ∀ dst : Dst, dst.Writable f.bytes.length →
          wp (fun _ => False) (readFile dp f.shortname dst)
            (fun r _ => r = some (f.bytes.length, (f.bytes.length : ℤ), f.bytes)) k) ∧
        (∀ name, name = dot ∨ name = dotdot →
          wp (fun _ => False) (dirlookup dp name)
            (fun r k' => ∃ ip off, r = some (ip, off) ∧ (k'.itable ip).inum = ROOTINO) k) ∧
        wp (fun _ => True) Xv6.balloc
          (fun b _ => b = 0 ∨ nmeta ≤ b ∧ ∀ i p, (sb.disk im.sect).own i p ≠ b) k) ∧
      (∀ i p, (sb.disk im.sect).own i p ≠ 0 → nmeta ≤ (sb.disk im.sect).own i p ∧
        ∀ j q, (sb.disk im.sect).own i p = (sb.disk im.sect).own j q → i = j ∧ p = q) ∧
      ∀ b < BPB, getBit (im.sect sb.bmapstart) b = true ↔ b < im.freeblock) start := by
  have hcount' := Nat.add_le_of_le_sub (by decide) hcount
  have hd : Distinct files := ⟨hnodup, fun f hf => (hname f hf).2.1, fun f hf => (hname f hf).2.2.1,
    fun f hf => (hname f hf).2.2.2⟩
  refine (main_spec hcount' (fun f hf hslash => ⟨rfl, f, hf, hslash⟩) hd.length
    (fun f hf hlt => absurd (hsize f hf) (not_le.mpr hlt)) hroom).mono fun _ im h => ?_
  refine ⟨?_, fun dp k hk => ⟨?_, ?_, h.balloc_unused hk⟩, fun i p hne => ?_, fun b hb => ?_⟩
  · rw [h.super, readsb_superblock]
  · exact fun f hf dst hdst => h.readFile_agrees hk hcount' hd hf hdst
  · exact fun name hname => h.dots_agree hk hcount' hname
  · exact ⟨(h.range i p hne).1, fun j q => h.inj i p j q hne⟩
  · rw [h.bitmap b hb, decide_eq_true_eq]

def catFile : HostFile where
  path := [117, 115, 101, 114, 47, 95, 99, 97, 116]
  chunks := [[1, 2], [3]]
  path_ne := by decide
  chunk := by decide

def boot (sect : ℕ → Block) : Fs where
  sb := (readsb (sect 1)).2
  bio := Bio.boot sect
  log := { start := 2, size := LOGSIZE, outstanding := 0, committing := false, lh := [] }
  itable k :=
    if k = 0 then ⟨ROOTDEV, ROOTINO, 1, true, true, ((readsb (sect 1)).2.disk sect).ino ROOTINO⟩
    else ⟨0, 0, 0, false, false, Dinode.zero⟩
  ftable _ := ⟨.FD_NONE, 0, false, false, 0, 0, 0⟩
  proc _ := ⟨.UNUSED, none, fun _ => none⟩
  full := []
  trace := []

theorem mounted_boot {sect : ℕ → Block} {sb : Superblock} (h : readsb (sect 1) = (FSMAGIC, sb)) :
    Mounted sect 0 (boot sect) where
  sb := by rwa [show (boot sect).sb = sb from congrArg Prod.snd h]
  cache := rfl
  ref := Int.one_pos
  inum := rfl
  valid := rfl
  sync j hr _ _ := by
    by_cases hj : j = 0
    · subst hj
      rfl
    · exact absurd hr (by simp [boot, hj])
  unlocked j hj := by simp [boot, hj]
  room := ⟨1, by decide, rfl⟩

theorem kernel_reads_mkfs_cat : ∃ im, (main [catFile]).run start = .ok ((), im) ∧
    Mounted im.sect 0 (boot im.sect) ∧
    wp (fun _ => False) (readFile 0 [99, 97, 116] .kernel)
      (fun r _ => r = some (3, 3, [1, 2, 3])) (boot im.sect) := by
  have hslash : ∀ e, ¬(e = Die.slash ∧ ∃ f ∈ [catFile], 47 ∈ f.base) := by
    rintro e ⟨-, f, hf, hmem⟩
    obtain rfl := mem_singleton.mp hf
    exact absurd hmem (by decide)
  have hspec := @kernel_reads_mkfs [catFile] (by decide) (by decide) (by decide)
    (by decide) (by decide)
  obtain ⟨⟨⟩, im, hrun, hsb, hkernel, -⟩ := hspec.returned hslash
  have hboot := mounted_boot hsb
  exact ⟨im, hrun, hboot, (hkernel 0 _ hboot).1 catFile (mem_singleton.mpr rfl) .kernel trivial⟩

/-! ### The size of the root directory -/

namespace Finished

variable {files : List HostFile} {im : Img}

theorem mapped_block (h : Finished files im) (hfull : (rootData files).length % BSIZE ≠ 0)
    {i bn : ℕ} (hbn : bn < blocks ((sb.disk im.sect).ino i).size) :
    (sb.disk im.sect).own i (dataPos bn) ≠ 0 := by
  rw [h.mapped, cost, dataPos_lt_spots]
  rw [h.size] at hbn
  split_ifs at hbn with hroot
  · rw [hroot, fileData_root]
    rw [rootSize, blocks] at hbn
    rw [blocks]
    norm_num at hbn hfull ⊢
    omega
  · exact hbn

theorem root_hole (h : Finished files im) (hfull : (rootData files).length % BSIZE = 0) :
    (rootData files).length / BSIZE < blocks ((sb.disk im.sect).ino ROOTINO).size ∧
      (sb.disk im.sect).own ROOTINO (dataPos ((rootData files).length / BSIZE)) = 0 := by
  constructor
  · rw [h.root_size, rootSize, blocks]
    norm_num at hfull ⊢
    omega
  · by_contra hne
    rw [← ne_eq, h.mapped, cost, dataPos_lt_spots, fileData_root, blocks] at hne
    norm_num at hfull hne
    omega

end Finished

/-- The image has no holes, and a kernel that reads the root directory allocates nothing,
if and only if the entries of the root directory do not fill its last block. -/
theorem mkfs_has_no_holes {files : List HostFile} (hcount : files.length ≤ NINODES - 2)
    (hname : ∀ f ∈ files, f.shortname.length ≤ DIRSIZ) (hroom : blocksFor files ≤ FSSIZE) :
    wp (fun e => e = .slash ∧ (∃ f ∈ files, 47 ∈ f.base) ∨
        e = .fbn ∧ ∃ f ∈ files, MAXFILE * BSIZE < f.bytes.length) (main files) (fun _ im =>
      ((∀ i bn, bn < blocks ((sb.disk im.sect).ino i).size →
        (sb.disk im.sect).own i (dataPos bn) ≠ 0 ∧
          (sb.disk im.sect).bit ((sb.disk im.sect).own i (dataPos bn)) = true) ∧
      ∀ dp k, Mounted im.sect dp k → ∀ dst off n, off < 2 ^ 32 → n < 2 ^ 32 →
        wp (fun _ => False) (readi dp dst off n) (fun _ k' => k' = k) k) ↔
      ¬ BSIZE ∣ DESIZE * (files.length + 2)) start := by
  have hcount' := Nat.add_le_of_le_sub (by decide) hcount
  refine (main_spec hcount' (fun f hf hslash => .inl ⟨rfl, f, hf, hslash⟩) hname
    (fun f hf hlt => .inr ⟨rfl, f, hf, hlt⟩) hroom).mono fun _ im h => ?_
  rw [← length_rootData, Nat.dvd_iff_mod_eq_zero]
  constructor
  · rintro ⟨hmap, -⟩ hfull
    obtain ⟨hlt, hzero⟩ := h.root_hole hfull
    exact (hmap ROOTINO _ hlt).1 hzero
  intro hfull
  refine ⟨fun i bn hbn => ?_, fun dp k hk dst off n hoff hn => ?_⟩
  · have hne := h.mapped_block hfull hbn
    obtain ⟨-, hlt⟩ := h.range i _ hne
    refine ⟨hne, ?_⟩
    rw [h.bit (hlt.trans_le h.le_size), decide_eq_true_eq]
    exact hlt
  · refine (readi_mapped (h.cached hk.cache) (h.root_copy hk) hoff hn fun j _ _ hj => ?_).mono
      fun _ _ hs => hs.1
    exact h.mapped_block hfull (div_lt_blocks hj)

theorem balloc_outside {s : Fs} (hsb : s.sb = sb) (hfull : s.full.headD false = false)
    (hlog : ∀ b, s.log.logWrite b = .error .outsideTrans) {b : ℕ} (hb : b < FSSIZE)
    (hfree : (sb.disk s.bio.cache).bit b = false) :
    wp (fun e => e = .panic (.log .outsideTrans)) Xv6.balloc (fun _ _ => False) s := by
  rw [← hsb] at hfree
  refine balloc_wp (fun h => ?_) (fun _ hall => ?_) fun a _ _ _ _ => ?_
  · rw [hfull] at h
    cases h
  · have hlt : b < s.sb.size := hsb ▸ hb
    rw [Superblock.disk_bit hlt] at hfree
    cases hfree.symm.trans (hall b hlt)
  · rw [wp_bind, wp_store]
    unfold logWrite
    rw [wp_bind, wp_bind, wp_emit, wp_bind, wp_get]
    simp only [Fs.stored, hlog, wp_throw]

theorem Finished.mounted {im : Img} (h : Finished files im) : Mounted im.sect 0 (boot im.sect) :=
  mounted_boot ((congrArg readsb h.super).trans readsb_superblock)

theorem Finished.hole_panics {im : Img} (h : Finished files im) (hroom : im.freeblock < FSSIZE)
    {bn : ℕ} (hbn : bn < NDIRECT) (hsize : bn * BSIZE < ((sb.disk im.sect).ino ROOTINO).size)
    (hhole : (sb.disk im.sect).own ROOTINO (dataPos bn) = 0) :
    wp (fun e => e = .panic (.log .outsideTrans)) (readi 0 .kernel (bn * BSIZE) 1)
      (fun _ _ => False) (boot im.sect) := by
  have hk := h.mounted
  have h32 := size_lt im ROOTINO
  have hlt : bn * BSIZE + 1 < 2 ^ 32 := Nat.lt_of_le_of_lt hsize h32
  have hnowrap : uint (bn * BSIZE + 1) = bn * BSIZE + 1 := Nat.mod_eq_of_lt hlt
  have htype : ((sb.disk im.sect).ino ROOTINO).type ≠ 0 := by grind [h.type, fileType]
  rw [dataPos, if_pos hbn, Disk.own_direct htype hbn.le] at hhole
  have hballoc := balloc_outside (h.sb_eq hk) rfl (fun b => rfl) hroom (b := im.freeblock) (by
    rw [hk.cache, h.bit hroom, decide_eq_false_iff_not]
    exact lt_irrefl _)
  unfold readi
  rw [wp_bind, wp_inode, h.root_copy hk]
  dsimp only
  rw [if_neg (by rw [hnowrap]; omega), if_neg (by rw [hnowrap]; omega)]
  unfold readiLoop
  rw [if_pos Nat.one_pos, wp_bind, Nat.mul_div_cancel _ (by norm_num)]
  unfold bmap bmapAddr
  rw [if_pos hbn, wp_bind, wp_inode, h.root_copy hk]
  rw [if_pos hhole]
  exact wp.bind hballoc fun _ _ hf => hf.elim

theorem mkfs_has_no_holes_cat : ∃ im, (main [catFile]).run start = .ok ((), im) ∧
    ∀ i bn, bn < blocks ((sb.disk im.sect).ino i).size →
      (sb.disk im.sect).own i (dataPos bn) ≠ 0 := by
  have hstop : ∀ e, ¬(e = Die.slash ∧ (∃ f ∈ [catFile], 47 ∈ f.base) ∨
      e = Die.fbn ∧ ∃ f ∈ [catFile], MAXFILE * BSIZE < f.bytes.length) := by
    rintro e (⟨-, h⟩ | ⟨-, h⟩)
    · exact absurd h (by decide)
    · exact absurd h (by decide)
  have hspec := @mkfs_has_no_holes [catFile] (by decide) (by decide) (by decide)
  obtain ⟨⟨⟩, im, hrun, hiff⟩ := hspec.returned hstop
  exact ⟨im, hrun, fun i bn hbn => ((hiff.mpr (by decide)).1 i bn hbn).1⟩

def letterFile (k : Fin 62) : HostFile where
  path := [97, UInt8.ofNat (65 + k)]
  chunks := []
  path_ne := by revert k; decide
  chunk := by simp

/-- With 62 files the root directory has 64 entries, which are one block. Its size
is rounded up to two blocks, and the second is a hole, at which a kernel that is
not in a transaction panics. -/
theorem mkfs_leaves_a_hole : ∃ files : List HostFile, files.length ≤ NINODES - 2 ∧
    (files.map HostFile.shortname).Nodup ∧ (∀ f ∈ files, f.shortname.length ≤ DIRSIZ) ∧
    blocksFor files ≤ FSSIZE ∧ ∃ im, (main files).run start = .ok ((), im) ∧
      ((sb.disk im.sect).ino ROOTINO).size = 2 * BSIZE ∧
      (sb.disk im.sect).own ROOTINO (dataPos 1) = 0 ∧ Mounted im.sect 0 (boot im.sect) ∧
      wp (fun e => e = .panic (.log .outsideTrans)) (readi 0 .kernel (1 * BSIZE) 1)
        (fun _ _ => False) (boot im.sect) := by
  have hslash : ∀ f ∈ ofFn letterFile, 47 ∉ f.base := by decide
  have hname : ∀ f ∈ ofFn letterFile, f.shortname.length ≤ DIRSIZ := by decide
  have hbytes : ∀ f ∈ ofFn letterFile, f.bytes.length ≤ MAXFILE * BSIZE := by
    rw [forall_mem_ofFn_iff]
    exact fun _ => Nat.zero_le _
  have hcount : (ofFn letterFile).length = 62 := length_ofFn
  have hroom : blocksFor (ofFn letterFile) ≤ FSSIZE := by decide
  have hspec := main_spec (E := fun _ => False) (by rw [hcount]; decide)
    (fun f hf h => absurd h (hslash f hf)) hname
    (fun f hf h => absurd (hbytes f hf) (not_le.mpr h)) hroom
  obtain ⟨⟨⟩, im, hrun, h⟩ := hspec.returned fun _ => not_false
  have hsize : ((sb.disk im.sect).ino ROOTINO).size = 2 * BSIZE := by
    grind [h.root_size, rootSize, length_rootData]
  have hhole : (sb.disk im.sect).own ROOTINO (dataPos 1) = 0 := by
    refine of_not_not ((h.mapped ROOTINO (dataPos 1)).not.mpr ?_)
    rw [fileData_root, length_rootData, hcount]
    decide
  have hfree : im.freeblock < FSSIZE := by
    rw [h.free]
    decide
  refine ⟨ofFn letterFile, by rw [hcount]; decide, ?_, hname, hroom, im, hrun, hsize, hhole,
    h.mounted, h.hole_panics hfree (by decide) (by rw [hsize]; decide) hhole⟩
  rw [map_ofFn]
  exact nodup_ofFn.mpr (by decide)

end Xv6.Mkfs
