import Xv6.Mkfs.Build

/-!
What `mkfs` leaves in `fs.img`.

Inode 1 is the root directory, and inode `k + 2` is file `k` of the command
line. At the end the size of the root directory is rounded up; where its entries
fill its last block that adds a block which is not there.
-/

namespace Xv6.Mkfs

open List
open Function (update update_self update_of_ne update_eq_self update_idem)

variable {E : Die → Prop}

/-! ### The files -/

def rootDirents (files : List HostFile) : List (ℕ × List UInt8) :=
  (ROOTINO, dot) :: (ROOTINO, dotdot) :: files.mapIdx fun k f => (k + 2, f.shortname)

def rootData (files : List HostFile) : List UInt8 :=
  ((rootDirents files).map fun de => direntBytes de.1 de.2).flatten

def fileData (files : List HostFile) (i : ℕ) : List UInt8 :=
  if i = ROOTINO then rootData files
  else if 2 ≤ i then files[i - 2]?.elim [] HostFile.bytes
  else []

def fileType (files : List HostFile) (i : ℕ) : ℤ :=
  if i = ROOTINO then T_DIR else if 2 ≤ i ∧ i < files.length + 2 then T_FILE else 0

section

variable (files : List HostFile)
include files

theorem fileData_root : fileData files ROOTINO = rootData files := if_pos rfl

theorem fileData_file (k : ℕ) : fileData files (k + 2) = files[k]?.elim [] HostFile.bytes := by
  rw [fileData, if_neg (show k + 2 ≠ 1 by omega), if_pos (by omega), Nat.add_sub_cancel]

theorem fileData_zero : fileData files 0 = [] := by
  rw [fileData, if_neg (by decide), if_neg (by decide)]

theorem length_rootData : (rootData files).length = DESIZE * (files.length + 2) := by
  simp [rootData, rootDirents, length_flatten, Function.comp_def, length_direntBytes]
  ring

theorem rootData_append (f : HostFile) :
    rootData (files ++ [f]) = rootData files ++ direntBytes (files.length + 2) f.shortname := by
  simp [rootData, rootDirents, mapIdx_append]

end

def blocksFor (files : List HostFile) : ℕ :=
  nmeta + cost (DESIZE * (files.length + 2)) + (files.map fun f => cost f.bytes.length).sum

theorem sum_getElem? {α : Type*} (l : List α) (g : α → ℕ) {n : ℕ} (hn : l.length ≤ n) :
    ∑ i ∈ Finset.range n, l[i]?.elim 0 g = (l.map g).sum := by
  induction l generalizing n with
  | nil => simp
  | cons x l ih =>
    obtain ⟨m, rfl⟩ : ∃ m, n = m + 1 := ⟨n - 1, by simp at hn; omega⟩
    rw [Finset.sum_range_succ', map_cons, sum_cons, ← ih (by simpa using hn),
      Nat.add_comm]
    rfl

variable {files : List HostFile}

theorem used_fileData (hcount : files.length + 2 ≤ NINODES) :
    used (fileData files) = blocksFor files := by
  have hfile : ∀ i, cost (fileData files (i + 2)).length =
      files[i]?.elim 0 fun f => cost f.bytes.length := by
    intro i
    rw [fileData_file]
    cases files[i]? <;> rfl
  have hroot : cost (fileData files 1).length = cost (DESIZE * (files.length + 2)) := by
    grind [fileData_root, length_rootData]
  have hsum := sum_getElem? files (fun f => cost f.bytes.length) (Nat.le_sub_of_add_le hcount)
  rw [used, show NINODES = NINODES - 2 + 1 + 1 from rfl, Finset.sum_range_succ',
    Finset.sum_range_succ', Finset.sum_congr rfl fun i _ => hfile i, hsum, fileData_zero, hroot,
    blocksFor]
  have hnil : cost ([] : List UInt8).length = 0 := by decide
  omega

theorem fileData_append (files : List HostFile) (f : HostFile) :
    update (update (fileData files) ROOTINO
      (fileData files ROOTINO ++ direntBytes (files.length + 2) f.shortname))
        (files.length + 2) f.bytes = fileData (files ++ [f]) := by
  funext i
  rcases eq_or_ne i (files.length + 2) with rfl | hi
  · rw [update_self, fileData_file, getElem?_concat_length]
    rfl
  · grind [rootData_append, fileData]

theorem fileType_append (files : List HostFile) (f : HostFile) :
    update (fileType files) (files.length + 2) T_FILE = fileType (files ++ [f]) := by
  funext i
  unfold fileType
  rcases eq_or_ne i (files.length + 2) with rfl | hi
  · grind
  · grind

/-! ### The loops -/

variable {s : Img} {type : ℕ → ℤ} {data : ℕ → List UInt8}

theorem appendAll_spec {i : ℕ} {chunks : List (List UInt8)} (h : Built s type data)
    (hi : i < NINODES) (ht : type i ≠ 0)
    (hmax : MAXFILE * BSIZE < (data i ++ chunks.flatten).length → E .fbn)
    (hroom : used (update data i (data i ++ chunks.flatten)) ≤ FSSIZE) :
    wp E (appendAll i chunks) (fun _ s' =>
      Built s' type (update data i (data i ++ chunks.flatten)) ∧
        s'.freeinode = s.freeinode) s := by
  induction chunks generalizing s data with
  | nil =>
    rw [flatten_nil, append_nil, update_eq_self]
    exact ⟨h, rfl⟩
  | cons c cs ih =>
    rw [flatten_cons, ← append_assoc] at hmax hroom
    rw [length_append, length_append] at hmax
    refine wp.bind (h.iappend_spec hi ht (fun hgt => hmax (by omega)) ?_) ?_
    · refine (used_mono fun j => ?_).trans hroom
      rcases eq_or_ne j i with rfl | hj
      · simp
      · simp [update_of_ne hj]
    · rintro _ s' ⟨h', hfree⟩
      have hself : update data i (data i ++ c) i = data i ++ c := update_self ..
      rw [flatten_cons, ← append_assoc]
      have hrest := ih h' (by rwa [hself, length_append, length_append])
        (by rwa [hself, update_idem])
      rw [hself, update_idem] at hrest
      refine hrest.mono fun _ s'' hs'' => ⟨hs''.1, hs''.2.trans hfree⟩

theorem used_append_le (files files' : List HostFile) :
    used (fileData files) ≤ used (fileData (files ++ files')) := by
  refine used_mono fun i => ?_
  unfold fileData
  split_ifs
  · grind [length_rootData]
  · grind
  · exact le_rfl

theorem addFile_spec {done : List HostFile} {f : HostFile}
    (h : Built s (fileType done) (fileData done)) (hfree : s.freeinode = done.length + 2)
    (hcount : done.length + 2 < NINODES) (hslash : 47 ∈ f.base → E .slash)
    (hname : f.shortname.length ≤ DIRSIZ) (hmax : MAXFILE * BSIZE < f.bytes.length → E .fbn)
    (hroom : used (fileData (done ++ [f])) ≤ FSSIZE) :
    wp E (addFile ROOTINO f)
      (fun _ s' => Built s' (fileType (done ++ [f])) (fileData (done ++ [f])) ∧
      s'.freeinode = done.length + 2 + 1) s := by
  refine wp.ite hslash fun _ => ?_
  rw [if_pos hname]
  refine wp.bind (h.ialloc_spec (hfree.trans_lt hcount) (t := T_FILE) (by decide)) ?_
  rintro _ s₁ ⟨rfl, h₁, hfree₁⟩
  rw [hfree, fileType_append done f] at h₁
  rw [hfree]
  have hdata := fileData_append done f
  have hnil : update (fileData done) ROOTINO
      (fileData done ROOTINO ++ direntBytes (done.length + 2) f.shortname)
        (done.length + 2) = [] := by
    grind [fileData_file]
  refine wp.bind (h₁.iappend_spec (by decide) (by rw [fileType, if_pos rfl]; decide) ?_ ?_) ?_
  · grind [fileData_root, length_rootData, length_direntBytes]
  · refine (used_mono fun i => ?_).trans hroom
    rw [← hdata]
    rcases eq_or_ne i (done.length + 2) with rfl | hi
    · rw [hnil]
      exact Nat.zero_le _
    · rw [update_of_ne hi]
  · rintro _ s₂ ⟨h₂, hfree₂⟩
    have ht : fileType (done ++ [f]) (done.length + 2) ≠ 0 := by
      rw [← fileType_append, update_self]
      decide
    refine (appendAll_spec h₂ hcount ht ?_ ?_).mono ?_
    · rwa [hnil]
    · rwa [hnil, nil_append, show f.chunks.flatten = f.bytes from rfl, hdata]
    · rintro _ s₃ ⟨h₃, hfree₃⟩
      rw [hnil, nil_append, show f.chunks.flatten = f.bytes from rfl, hdata] at h₃
      exact ⟨h₃, by omega⟩

theorem addFiles_spec {done : List HostFile} (h : Built s (fileType done) (fileData done))
    (hfree : s.freeinode = done.length + 2) (hcount : done.length + files.length + 2 ≤ NINODES)
    (hslash : ∀ f ∈ files, 47 ∈ f.base → E .slash)
    (hname : ∀ f ∈ files, f.shortname.length ≤ DIRSIZ)
    (hmax : ∀ f ∈ files, MAXFILE * BSIZE < f.bytes.length → E .fbn)
    (hroom : used (fileData (done ++ files)) ≤ FSSIZE) :
    wp E (addFiles ROOTINO files) (fun _ s' =>
      Built s' (fileType (done ++ files)) (fileData (done ++ files))) s := by
  induction files generalizing s done with
  | nil =>
    rw [append_nil]
    exact h
  | cons f files ih =>
    rw [forall_mem_cons] at hslash hname hmax
    rw [append_cons] at hroom ⊢
    rw [length_cons] at hcount
    unfold addFiles
    refine wp.bind (addFile_spec h hfree (by omega) hslash.1 hname.1 hmax.1
      ((used_append_le _ files).trans hroom)) ?_
    rintro _ s' ⟨h', hfree'⟩
    have hlen : (done ++ [f]).length = done.length + 1 := by simp
    exact ih h' (by omega) (by omega) hslash.2 hname.2 hmax.2 hroom

theorem zeroSects_spec (fuel i : ℕ) (hi : i ≤ s.len) (hzero : ∀ b, s.sect b = zeroBlock) :
    wp E (zeroSects fuel i) (fun _ s' => s' = { s with len := max s.len (i + fuel) }) s := by
  induction fuel generalizing s i with
  | zero =>
    unfold zeroSects
    rw [wp_pure, Nat.add_zero, max_eq_left hi]
  | succ fuel ih =>
    have hsame : s.write i zeroBlock = { s with len := max s.len (i + 1) } := by
      grind [Img.write, update_eq_self]
    unfold zeroSects
    rw [wp_bind, wp_wsect, hsame]
    refine (ih (s := { s with len := max s.len (i + 1) }) (i + 1) (le_max_right ..) hzero).mono ?_
    rintro _ s' rfl
    simp only [Img.mk.injEq, true_and, and_true]
    omega

theorem getDinode_zeroBlock (i : ℕ) : getDinode zeroBlock i = Dinode.zero := by
  ext <;> simp [getDinode, getLe_zeroBlock, Dinode.zero, short]

def blank : Img where
  sect := update (fun _ => zeroBlock) 1 superblock
  len := FSSIZE
  freeinode := 1
  freeblock := nmeta

theorem sect_blank {b : ℕ} (hb : b ≠ 1) : blank.sect b = zeroBlock := by
  show update (fun _ => zeroBlock) 1 superblock b = zeroBlock
  rw [update_of_ne hb]

theorem ino_blank (i : ℕ) : blank.disk.ino i = Dinode.zero := by
  have hlog : sb.disk blank.sect = sb.disk fun _ => zeroBlock :=
    sb_geometry.disk_log (c := fun _ => zeroBlock) (by decide) superblock
  show (sb.disk blank.sect).ino i = Dinode.zero
  rw [hlog]
  simp only [Superblock.disk, getDinode_zeroBlock, ite_self]

theorem built_blank : Built blank (fun _ => 0) fun _ => [] := by
  have htype : ∀ i, (blank.disk.ino i).type = 0 := fun i => by
    rw [ino_blank]
    rfl
  have hown : ∀ i p, blank.disk.own i p = 0 := fun i p => Disk.own_of_type (htype i) p
  have hcost : cost ([] : List UInt8).length = 0 := by decide
  have hused : used (fun _ => []) = nmeta := by
    rw [used, hcost, Finset.sum_const_zero, Nat.add_zero]
  refine ⟨rfl, rfl, ⟨?_, ?_, ?_, ?_, ?_, ?_, ?_⟩, ?_, htype, ?_, ?_, hused.symm,
    hused ▸ by decide, fun _ => Nat.zero_le _, fun _ _ => rfl⟩
  · intro i
    rw [ino_blank]
    exact Dinode.zero_ok
  · exact fun i p h => absurd (hown i p) h
  · exact fun i p _ _ h => absurd (hown i p) h
  · exact fun b hb => absurd hb (Set.notMem_empty b)
  · exact fun b hb => absurd hb (Set.notMem_empty b)
  · intro b hb
    have hbit : blank.disk.bit b = decide (b < nmeta ∨ sb.size ≤ b) := rfl
    rw [hbit, decide_eq_true_eq]
    simp only [hown, Set.mem_empty_iff_false, ne_eq, not_true_eq_false, false_and, exists_false,
      or_false, sb_dataStart]
    omega
  · exact fun i ht => absurd (htype i) ht
  · intro b hb
    have hne : b ≠ 1 := by
      have : 1 < nmeta := by decide
      have hb : nmeta ≤ b := hb
      omega
    show (if sb.dataStart ≤ b ∧ b < sb.size then blank.sect b else zeroBlock) = zeroBlock
    rw [sect_blank hne, ite_self]
  · intro i
    rw [Disk.content, ino_blank]
    rfl
  · intro i p
    rw [hown, hcost]
    simp

/-! ### The image -/

def rootSize (files : List HostFile) : ℕ := ((rootData files).length / BSIZE + 1) * BSIZE

structure Finished (files : List HostFile) (s : Img) : Prop where
  super : s.sect 1 = superblock
  free : s.freeblock = blocksFor files
  le_size : s.freeblock ≤ FSSIZE
  bitmap : ∀ b < BPB, getBit (s.sect sb.bmapstart) b = decide (b < s.freeblock)
  type : ∀ i, ((sb.disk s.sect).ino i).type = fileType files i
  size : ∀ i, ((sb.disk s.sect).ino i).size =
    if i = ROOTINO then rootSize files else (fileData files i).length
  bytes : ∀ i, (sb.disk s.sect).bytes i 0 (fileData files i).length = fileData files i
  mapped : ∀ i p, (sb.disk s.sect).own i p ≠ 0 ↔ p < cost (fileData files i).length
  range : ∀ i p, (sb.disk s.sect).own i p ≠ 0 →
    nmeta ≤ (sb.disk s.sect).own i p ∧ (sb.disk s.sect).own i p < s.freeblock
  inj : ∀ i p j q, (sb.disk s.sect).own i p ≠ 0 →
    (sb.disk s.sect).own i p = (sb.disk s.sect).own j q → i = j ∧ p = q

theorem getBit_marked {n b : ℕ} (hn : n ≤ BPB) :
    getBit ((range n).foldl setBit zeroBlock) b = decide (b < n) := by
  induction n with
  | zero =>
    rw [getBit_eq]
    simp [Bytes.get, zeroBlock]
  | succ n ih => grind [range_succ, getBit_setBit]

theorem ino_bitmap (c : ℕ → Block) (x : Block) :
    (sb.disk (update c sb.bmapstart x)).ino = (sb.disk c).ino := by
  funext i
  show (if i < sb.ninodes then _ else _) = if i < sb.ninodes then _ else _
  split_ifs with hi
  · rw [update_of_ne (sb_geometry.inodes i hi).ne]
  · rfl

theorem blk_bitmap (c : ℕ → Block) (x : Block) :
    (sb.disk (update c sb.bmapstart x)).blk = (sb.disk c).blk := by
  funext b
  show (if _ ∧ _ then _ else _) = if _ ∧ _ then _ else _
  split_ifs with hb
  · have : sb.bmapstart < sb.dataStart := by decide
    rw [update_of_ne (by omega)]
  · rfl

theorem Built.finished {s₁ s' : Img} (h : Built s (fileType files) (fileData files))
    (hcount : files.length + 2 ≤ NINODES) (hlt : s.freeblock < BPB)
    (hdisk : s₁.disk = s.disk.setSize ROOTINO (rootSize files)) (hsuper : s₁.sect 1 = s.sect 1)
    (hsect : s'.sect =
      update s₁.sect sb.bmapstart ((range s.freeblock).foldl setBit zeroBlock))
    (hfree : s'.freeblock = s.freeblock) : Finished files s' := by
  have hino : (sb.disk s'.sect).ino = (s.disk.setSize ROOTINO (rootSize files)).ino := by
    rw [hsect, ino_bitmap, ← hdisk]
    rfl
  have hblk : (sb.disk s'.sect).blk = s.disk.blk := by
    rw [show s.disk.blk = s₁.disk.blk by rw [hdisk]; rfl, hsect, blk_bitmap]
    rfl
  have hown : ∀ i p, (sb.disk s'.sect).own i p = s.disk.own i p := by
    intro i p
    rw [← s.disk.own_setSize ROOTINO (rootSize files)]
    unfold Disk.own
    rw [hino, hblk]
    rfl
  refine ⟨?_, ?_, ?_, fun b _ => ?_, fun i => ?_, fun i => ?_, fun i => ?_, fun i p => ?_,
    fun i p => ?_, fun i p j q => ?_⟩
  · rw [hsect, update_of_ne (by decide), hsuper, h.super]
  · rw [hfree, h.free, used_fileData hcount]
  · rw [hfree, h.free]
    exact h.hi
  · rw [hsect, update_self, getBit_marked hlt.le, hfree]
  · rw [hino, ← h.types i]
    rcases eq_or_ne i ROOTINO with rfl | hi
    · rw [Disk.ino_setSize]
    · rw [Disk.ino_setSize_ne _ hi]
  · rw [hino]
    rcases eq_or_ne i ROOTINO with rfl | hi
    · rw [Disk.ino_setSize, if_pos rfl]
    · rw [Disk.ino_setSize_ne _ hi, if_neg hi, h.size]
  · rw [← h.size]
    refine Eq.trans (Disk.bytes_congr fun k _ _ => ?_) (h.content i)
    unfold Disk.byte
    rw [hown, hblk]
  · rw [hown]
    exact h.grown i p
  · rw [hown, hfree]
    intro hne
    obtain ⟨hlo, hhi⟩ := h.owns.range i p hne
    have hbit : decide (s.disk.own i p < s.freeblock ∨ sb.size ≤ s.disk.own i p) = true :=
      h.owns.bit_own hne
    rw [decide_eq_true_eq] at hbit
    exact ⟨hlo, hbit.resolve_right (not_le.mpr hhi)⟩
  · rw [hown, hown]
    exact h.owns.inj i p j q

theorem Built.finish {files : List HostFile} (h : Built s (fileType files) (fileData files))
    (hcount : files.length + 2 ≤ NINODES) :
    wp E (do fixSize ROOTINO; balloc (← get).freeblock) (fun _ s' => Finished files s') s := by
  have hroot : ROOTINO < NINODES := by decide
  have hsize : (s.disk.ino ROOTINO).size = (rootData files).length := by rw [h.size, fileData_root]
  have h32 : rootSize files < 2 ^ 32 := by grind [rootSize, length_rootData]
  have hlt : s.freeblock < BPB := by grind [Built]
  have hdraft := h.draft (i := ROOTINO) (by rw [fileType, if_pos rfl]; decide)
  unfold fixSize balloc
  simp only [wp_bind]
  refine wp_rinode h.len hroot (wp_winode h.len hroot ?_)
  rw [wp_get, hsize]
  refine wp.ite (fun _ => ?_) fun hge => absurd hlt hge
  rw [wp_wsect]
  exact h.finished hcount hlt (hdraft.disk_winode hroot h32) (Img.super_winode _) rfl rfl

-- the unifier would go around the loop for each sector
attribute [local irreducible] zeroSects

theorem blank_spec {Q : Unit → Img → Prop} {k : M Unit} (h : wp E k Q blank) :
    wp E (do modify fun s => { s with freeblock := nmeta }
             zeroSects FSSIZE 0
             wsect 1 superblock
             k) Q start := by
  rw [wp_bind, wp_modify, wp_bind]
  refine (zeroSects_spec FSSIZE 0 (Nat.zero_le _) fun _ => rfl).mono ?_
  rintro _ s₀ rfl
  rw [wp_bind, wp_wsect]
  have hblank :
    Img.write { start with freeblock := nmeta, len := max 0 (0 + FSSIZE) } 1 superblock =
      blank := by grind [Img.write, start, blank]
  exact hblank ▸ h

theorem fileType_nil : update (fun _ => (0 : ℤ)) ROOTINO T_DIR = fileType [] := by
  funext i
  unfold fileType
  rcases eq_or_ne i ROOTINO with rfl | hi
  · rw [update_self, if_pos rfl]
  · grind

theorem fileData_nil : update (fun _ => []) ROOTINO
    (direntBytes ROOTINO dot ++ direntBytes ROOTINO dotdot) = fileData [] := by
  funext i
  unfold fileData
  rcases eq_or_ne i ROOTINO with rfl | hi
  · rfl
  · rw [update_of_ne hi, if_neg hi]
    simp

theorem dots_spec {Q : Unit → Img → Prop} {k : M Unit}
    (h : Built s (fileType []) fun _ => []) (hroom : used (fileData []) ≤ FSSIZE)
    (hk : ∀ s', Built s' (fileType []) (fileData []) → s'.freeinode = s.freeinode → wp E k Q s') :
    wp E (do iappend ROOTINO (direntBytes ROOTINO dot)
             iappend ROOTINO (direntBytes ROOTINO dotdot)
             k) Q s := by
  have hroot : ROOTINO < NINODES := by decide
  have htype : fileType [] ROOTINO ≠ 0 := by decide
  have hself : update (fun _ => []) ROOTINO (direntBytes ROOTINO dot) ROOTINO =
    direntBytes ROOTINO dot := update_self ..
  rw [← fileData_nil] at hroom
  refine wp.bind (h.iappend_spec hroot htype (fun hgt => ?_) ?_) ?_
  · exact absurd hgt (by decide)
  · refine (used_mono fun i => ?_).trans hroom
    rcases eq_or_ne i ROOTINO with rfl | hi
    · simp only [update_self, nil_append, length_append]
      omega
    · simp only [update_of_ne hi, le_refl]
  · rintro _ s₁ ⟨h₁, hfree₁⟩
    rw [nil_append] at h₁
    refine wp.bind (h₁.iappend_spec hroot htype (fun hgt => ?_) ?_) ?_
    · exact absurd hgt (by decide)
    · simpa only [hself, update_idem] using hroom
    · grind [update_idem, fileData_nil]

theorem main_spec (hcount : files.length + 2 ≤ NINODES)
    (hslash : ∀ f ∈ files, 47 ∈ f.base → E .slash)
    (hname : ∀ f ∈ files, f.shortname.length ≤ DIRSIZ)
    (hmax : ∀ f ∈ files, MAXFILE * BSIZE < f.bytes.length → E .fbn)
    (hroom : blocksFor files ≤ FSSIZE) :
    wp E (main files) (fun _ s' => Finished files s') start := by
  rw [← used_fileData hcount] at hroom
  have hialloc := built_blank.ialloc_spec (E := E) (by decide) (t := T_DIR) (by decide)
  unfold main
  refine blank_spec (wp.bind hialloc ?_)
  rintro _ s₀ ⟨rfl, h₀, hfree₀⟩
  have hroot : blank.freeinode = ROOTINO := rfl
  rw [hroot, fileType_nil] at h₀
  rw [hroot] at hfree₀ ⊢
  rw [if_pos rfl]
  refine dots_spec h₀ ((used_append_le [] files).trans hroom) fun s₁ h₁ hfree₁ => ?_
  refine wp.bind (addFiles_spec h₁ (hfree₁.trans hfree₀) (by simpa using hcount) hslash hname hmax
    hroom) ?_
  intro _ s₂ h₂
  exact h₂.finish hcount

end Xv6.Mkfs
