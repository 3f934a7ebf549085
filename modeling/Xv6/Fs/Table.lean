import Xv6.Fs.Abs
import Xv6.Lib.Machine

/-!
References to inodes and locks on them.

In the middle of a call the state is described relative to a base `b`, which has the
nodes, files and processes as they are now and the inode table as it was when the call
began. `St b h d l` says how the table has moved on: `h` are the references the call
holds, each an entry with its inode, `d` the entries to which it dropped a reference that
was there before, and `l` the locks it took.
-/

namespace Xv6

open List
open Function (update update_self update_of_ne)

variable {g : Abs}

abbrev Spec {α : Type} (sb : Superblock) (E : Stop → Prop) (P : Abs → Prop) (f : M α)
    (Q : α → Abs → Prop) : Prop :=
  Tri (Wf sb) Fs.abs E P f Q

abbrev holds (h : List (ℕ × ℕ)) (k : ℕ) : ℕ := (h.map Prod.fst).count k

structure St (b : Abs) (h : List (ℕ × ℕ)) (d l : List ℕ) (g : Abs) : Prop where
  node : g.node = b.node
  blocks : g.own = b.own
  ftable : g.ftable = b.ftable
  proc : g.proc = b.proc
  phase : g.phase = b.phase
  drop : ∀ k, (d.count k : ℤ) ≤ (b.ent k).ref
  ref : ∀ k, (g.ent k).ref = (b.ent k).ref - d.count k + holds h k
  live : ∀ k, (d.count k : ℤ) < (b.ent k).ref → (g.ent k).inum = (b.ent k).inum ∧
    ((b.ent k).valid = true → (g.ent k).valid = true)
  held : ∀ x ∈ h, (g.ent x.1).inum = x.2
  lock : ∀ k, (g.ent k).locked = true ↔ (b.ent k).locked = true ∨ k ∈ l
  nodup : l.Nodup
  own : ∀ k ∈ l, (b.ent k).locked = false ∧ 0 < (g.ent k).ref ∧ (g.ent k).valid = true

/-- The call may use entry `k` for inode `i`: it holds a reference, or one that
was there before has not been dropped. -/
def Has (b : Abs) (h : List (ℕ × ℕ)) (d : List ℕ) (k i : ℕ) : Prop :=
  (k, i) ∈ h ∨ (d.count k : ℤ) < (b.ent k).ref ∧ (b.ent k).inum = i

def Abs.setNode (b : Abs) (i : ℕ) (nd : Option Node) : Abs :=
  { b with node := update b.node i nd }

def Abs.setOwn (b : Abs) (i : ℕ) (o : ℕ → ℕ) : Abs := { b with own := update b.own i o }

def Abs.setOps (g : Abs) (o : Ops) : Abs := { g with ops := o }

theorem TabOk.setNode (h : TabOk sb g) {nd : Option Node}
    (hnd : nd = none → ∀ k, 0 < (g.ent k).ref → (g.ent k).inum ≠ i) :
    TabOk sb (g.setNode i nd) := by
  refine ⟨h.ref, h.lt, h.dev, h.inum, h.uniq, fun k hr hv => ?_⟩
  by_cases hk : (g.ent k).inum = i
  · simp only [Abs.setNode, hk, update_self]
    exact fun hnone => hnd hnone k hr hk
  · simp only [Abs.setNode, update_of_ne hk]
    exact h.valid k hr hv

theorem TabOk.setOwn (h : TabOk sb g) (i : ℕ) (o : ℕ → ℕ) : TabOk sb (g.setOwn i o) :=
  { h with }

theorem TabOk.setOps (h : TabOk sb g) (o : Ops) : TabOk sb (g.setOps o) :=
  { h with }

namespace St

variable {b g : Abs} {h h' : List (ℕ × ℕ)} {d d' l l' : List ℕ} {k i : ℕ} {e : Ent}

theorem refl (g : Abs) (href : ∀ k, 0 ≤ (g.ent k).ref) : St g [] [] [] g where
  node := rfl
  blocks := rfl
  ftable := rfl
  proc := rfl
  phase := rfl
  drop k := by simpa using href k
  ref k := by simp [holds]
  live k _ := ⟨rfl, id⟩
  held x hx := by simp at hx
  lock k := by simp
  nodup := nodup_nil
  own k hk := by simp at hk

section

variable (hst : St b h d l g)
include hst

theorem has (hk : Has b h d k i) : 0 < (g.ent k).ref ∧ (g.ent k).inum = i := by
  have href := hst.ref k
  rcases hk with hmem | ⟨hlt, hi⟩
  · grind [St, mem_map_of_mem]
  · exact ⟨by omega, (hst.live k hlt).1.trans hi⟩

theorem has_of_ref (hr : 0 < (g.ent k).ref) : Has b h d k (g.ent k).inum := by
  by_cases hlt : (d.count k : ℤ) < (b.ent k).ref
  · exact .inr ⟨hlt, (hst.live k hlt).1.symm⟩
  · have hpos : 0 < holds h k := by
      have := hst.ref k
      omega
    obtain ⟨⟨k', j⟩, hmem, rfl⟩ := mem_map.mp (count_pos_iff.mp hpos)
    have hj := hst.held _ hmem
    exact .inl (hj ▸ hmem)

theorem perm (hh : h.Perm h') (hl : l.Perm l') : St b h' d l' g :=
  { hst with
    ref := fun k => by rw [hst.ref k, holds, holds, (hh.map Prod.fst).count_eq]
    held := fun x hx => hst.held x (hh.mem_iff.mpr hx)
    lock := fun k => by rw [hst.lock k, hl.mem_iff]
    nodup := hl.nodup_iff.mp hst.nodup
    own := fun k hk => hst.own k (hl.mem_iff.mpr hk) }

theorem setNode (i : ℕ) (nd : Option Node) : St (b.setNode i nd) h d l (g.setNode i nd) :=
  { hst with node := by rw [Abs.setNode, Abs.setNode, hst.node] }

theorem setOwn (i : ℕ) (o : ℕ → ℕ) : St (b.setOwn i o) h d l (g.setOwn i o) :=
  { hst with blocks := by rw [Abs.setOwn, Abs.setOwn, hst.blocks] }

theorem setOps (o : Ops) : St b h d l (g.setOps o) := { hst with }

theorem setEnt (hd : ∀ j, j ≠ k → d'.count j = d.count j) (hh : ∀ j, j ≠ k → holds h' j = holds h j)
    (hdrop : (d'.count k : ℤ) ≤ (b.ent k).ref)
    (href : e.ref = (b.ent k).ref - d'.count k + holds h' k)
    (hlive : (d'.count k : ℤ) < (b.ent k).ref → e.inum = (b.ent k).inum ∧
      ((b.ent k).valid = true → e.valid = true)) (hheld : ∀ x ∈ h', x.1 = k → e.inum = x.2)
    (hmem : ∀ x ∈ h', x.1 ≠ k → x ∈ h) (hlock : e.locked = true ↔ (b.ent k).locked = true ∨ k ∈ l')
    (hl : ∀ j, j ≠ k → (j ∈ l' ↔ j ∈ l)) (hnodup : l'.Nodup)
    (hown : k ∈ l' → (b.ent k).locked = false ∧ 0 < e.ref ∧ e.valid = true) :
    St b h' d' l' (g.setEnt k e) := by
  have hself : (g.setEnt k e).ent k = e := update_self ..
  have hne : ∀ j, j ≠ k → (g.setEnt k e).ent j = g.ent j := fun j hj => update_of_ne hj ..
  refine ⟨hst.node, hst.blocks, hst.ftable, hst.proc, hst.phase, fun j => ?_, fun j => ?_,
    fun j => ?_, fun x hx => ?_, fun j => ?_, hnodup, fun j => ?_⟩
  · by_cases hj : j = k
    · exact hj ▸ hdrop
    · rw [hd j hj]
      exact hst.drop j
  · grind [hst.ref]
  · grind [hst.live]
  · grind [hst.held]
  · grind [hst.lock]
  · grind [hst.own]

theorem relock (href : e.ref = (g.ent k).ref)
    (hinum : e.inum = (g.ent k).inum) (hvalid : (g.ent k).valid = true → e.valid = true)
    (hlock : e.locked = true ↔ (b.ent k).locked = true ∨ k ∈ l')
    (hl : ∀ j, j ≠ k → (j ∈ l' ↔ j ∈ l)) (hnodup : l'.Nodup)
    (hown : k ∈ l' → (b.ent k).locked = false ∧ 0 < e.ref ∧ e.valid = true) :
    St b h d l' (g.setEnt k e) :=
  hst.setEnt (fun _ _ => rfl) (fun _ _ => rfl) (hst.drop k) (href.trans (hst.ref k))
    (fun hlt => ⟨hinum.trans (hst.live k hlt).1, fun hv => hvalid ((hst.live k hlt).2 hv)⟩)
    (fun x hx hxk => hinum.trans (hxk ▸ hst.held x hx)) (fun _ hx _ => hx) hlock hl hnodup hown

theorem dup (hi : (g.ent k).inum = i) (hr : 0 < (g.ent k).ref) :
    St b ((k, i) :: h) d l (g.setEnt k { g.ent k with ref := (g.ent k).ref + 1 }) := by
  refine hst.setEnt (fun _ _ => rfl) (fun j hj => by simp [holds, Ne.symm hj]) (hst.drop k) ?_
    (hst.live k) ?_ ?_ (hst.lock k) (fun _ _ => Iff.rfl) hst.nodup fun hk => ?_
  · grind [hst.ref]
  · grind [St]
  · grind
  · grind [hst.own]

theorem fill (hr : (g.ent k).ref = 0) (dev : ℕ) :
    St b ((k, i) :: h) d l
      (g.setEnt k { g.ent k with dev := dev, inum := i, ref := 1, valid := false }) := by
  have href := hst.ref k
  have hdrop := hst.drop k
  have hnone : ∀ x ∈ h, x.1 ≠ k := by grind [mem_map_of_mem]
  refine hst.setEnt (fun _ _ => rfl) (fun j hj => by simp [holds, Ne.symm hj]) hdrop ?_
    (fun hlt => by omega) ?_ ?_ (hst.lock k) (fun _ _ => Iff.rfl) hst.nodup fun hk => ?_
  · grind
  · grind
  · grind
  · have := (hst.own k hk).2.1
    omega

end

theorem put (hst : St b ((k, i) :: h) d l g) (hk : k ∈ l → Has b h d k i)
    (href : e.ref = (g.ent k).ref - 1) (hinum : e.inum = (g.ent k).inum)
    (hlock : e.locked = (g.ent k).locked) (hvalid : 0 < e.ref → e.valid = (g.ent k).valid) :
    St b h d l (g.setEnt k e) := by
  have hr := hst.ref k
  have hdrop := hst.drop k
  simp only [holds, map_cons, count_cons_self] at hr
  refine hst.setEnt (fun _ _ => rfl) (fun j hj => by simp [holds, Ne.symm hj]) hdrop ?_ ?_
    ?_ (fun x hx _ => mem_cons_of_mem _ hx) (hlock ▸ hst.lock k) (fun _ _ => Iff.rfl)
    hst.nodup fun hmem => ?_
  · rw [href, hr]
    push_cast
    ring
  · intro hlt
    rw [hinum, hvalid (by omega)]
    exact hst.live k hlt
  · intro x hx hxk
    rw [hinum, ← hxk]
    exact hst.held x (mem_cons_of_mem _ hx)
  · have hpos : 0 < e.ref := by
      rcases hk hmem with hheld | ⟨hlt, -⟩
      · grind [mem_map_of_mem]
      · omega
    obtain ⟨hfree, -, hv⟩ := hst.own k hmem
    exact ⟨hfree, hpos, (hvalid hpos).trans hv⟩

end St

variable {sb : Superblock} {E : Stop → Prop} {b : Abs} {h : List (ℕ × ℕ)} {d l : List ℕ}
  {k i : ℕ} {s : Fs}

/-! ### `iget` and `idup` -/

/-- There is an entry left when `n` more are in use, or there are so few inodes that each
can have one. -/
def Abs.Room (b : Abs) (sb : Superblock) (n : ℕ) : Prop :=
  ((Finset.range NINODE).filter fun k => 0 < (b.ent k).ref).card + n < NINODE ∨
    sb.ninodes ≤ NINODE

theorem St.room (hst : St b h d l g) (href : ∀ k, 0 ≤ (g.ent k).ref)
    (hroom : ((Finset.range NINODE).filter fun k => 0 < (b.ent k).ref).card + h.length < NINODE) :
    ∃ k < NINODE, (g.ent k).ref = 0 := by
  by_contra hno
  push Not at hno
  -- every entry was in use or is held
  have hsub : Finset.range NINODE ⊆
      ((Finset.range NINODE).filter fun k => 0 < (b.ent k).ref) ∪ (h.map Prod.fst).toFinset := by
    grind [hst.ref, mem_toFinset]
  have hcard := (Finset.card_le_card hsub).trans (Finset.card_union_le ..)
  have hlen := (h.map Prod.fst).toFinset_card_le
  rw [Finset.card_range] at hcard
  rw [length_map] at hlen
  omega

theorem TabOk.exists_inum (h : TabOk sb g) (hfew : sb.ninodes ≤ NINODE) (hi : i < sb.ninodes)
    (hfull : ∀ k < NINODE, (g.ent k).ref ≠ 0) : ∃ k < NINODE, (g.ent k).inum = i := by
  by_contra hno
  push Not at hno
  have hpos : ∀ k < NINODE, 0 < (g.ent k).ref := fun k hk => (h.ref k).lt_of_ne' (hfull k hk)
  have hcard : ((Finset.range sb.ninodes).erase i).card < (Finset.range NINODE).card := by
    rw [Finset.card_erase_of_mem (Finset.mem_range.mpr hi), Finset.card_range, Finset.card_range]
    omega
  obtain ⟨k, hk, k', hk', hne, heq⟩ := Finset.exists_ne_map_eq_of_card_lt_of_maps_to hcard
    (f := fun k => (g.ent k).inum) fun k hk => by
      have hlt := Finset.mem_range.mp hk
      exact Finset.mem_erase.mpr ⟨hno k hlt, Finset.mem_range.mpr (h.inum k (hpos k hlt))⟩
  exact hne (h.uniq k k' (hpos k (Finset.mem_range.mp hk)) (hpos k' (Finset.mem_range.mp hk')) heq)

theorem Wf.idup (hwf : Wf sb s) (hr : 0 < (s.itable k).ref) :
    Wf sb (s.setEntry k { s.itable k with ref := (s.itable k).ref + 1 }) := by
  refine hwf.setEntry (fun _ hv => hwf.low.sync k (by simp) hr hv) ?_
  exact hwf.tab.touch hr (by simp only [Inode.ent]; omega) rfl rfl (hwf.tab.valid k hr)

theorem iget_spec (hE : E (.panic .igetNoInodes) ∨ b.Room sb h.length) (hi : i < sb.ninodes) :
    Spec sb E (St b h d l) (iget ROOTDEV i) fun ip => St b ((ip, i) :: h) d l := by
  intro s hwf hst
  unfold iget
  simp only [wp_bind, wp_get]
  split
  · rename_i ip hscan
    obtain ⟨hr, -, rfl⟩ := igetScan_inl hscan
    simp only [wp_bind, wp_modifyInode, wp_pure]
    refine ⟨hwf.idup hr, ?_⟩
    rw [Fs.abs_setEntry]
    exact hst.dup rfl hr
  · rename_i hscan
    have hfull : ∀ k < NINODE, (s.itable k).ref ≠ 0 := fun k hk =>
      (igetScan_none hscan).2 k (Nat.zero_le k) (by omega)
    refine wp_throw.mpr (hE.resolve_right ?_)
    rintro (hroom | hfew)
    · obtain ⟨k, hk, hr⟩ := hst.room hwf.tab.ref hroom
      exact hfull k hk hr
    · obtain ⟨k, hk, hinum⟩ := hwf.tab.exists_inum hfew hi hfull
      have hr := (hwf.tab.ref k).lt_of_ne' (hfull k hk)
      exact (igetScan_inr hscan).1 k (Nat.zero_le k) (by omega) hr (hwf.tab.dev k hr) hinum
  · rename_i ip hscan
    obtain ⟨hnone, hempty⟩ := igetScan_inr hscan
    simp only [reduceCtorEq, Option.some.injEq, false_or, zero_add] at hempty hnone
    obtain ⟨_, rfl, hlt, hr⟩ := hempty
    simp only [wp_bind, wp_modifyInode, wp_pure]
    refine ⟨hwf.setEntry (by simp) (hwf.tab.setEnt (by simp [Inode.ent]) (fun _ => hlt)
      (fun _ => rfl) (fun _ => hi) (fun _ j _ hrj => ?_) (by simp [Inode.ent])), ?_⟩
    · exact hnone j (Nat.zero_le j) (hwf.tab.lt j hrj) hrj (hwf.tab.dev j hrj)
    · rw [Fs.abs_setEntry]
      exact hst.fill hr ROOTDEV

theorem idup_spec (hk : Has b h d k i) :
    Spec sb E (St b h d l) (idup k) fun ip g => St b ((k, i) :: h) d l g ∧ ip = k := by
  intro s hwf hst
  obtain ⟨hr, hi⟩ := hst.has hk
  unfold idup
  simp only [wp_bind, wp_modifyInode, wp_pure]
  refine ⟨hwf.idup hr, ?_⟩
  rw [Fs.abs_setEntry]
  exact ⟨hst.dup hi hr, trivial⟩

/-! ### `ilock` and `iunlock` -/

theorem ilock_spec (hE : E .blocked ∨ (b.ent k).locked = false ∧ k ∉ l) (hk : Has b h d k i)
    (hno : E (.panic .ilockNoType) ∨ b.node i ≠ none) :
    Spec sb E (St b h d l) (ilock k) fun _ g => St b h d (k :: l) g ∧ ∃ nd, b.node i = some nd := by
  intro s hwf hst
  obtain ⟨hr, hi⟩ := hst.has hk
  change 0 < (s.itable k).ref at hr
  have hnode : s.view.node = b.node := hst.node
  unfold ilock acquiresleep
  simp only [wp_bind, wp_inode, if_neg (show ¬(s.itable k).ref < 1 by omega)]
  refine wp.ite (fun hlock => ?_) fun hlock => ?_
  · refine wp_throw.mpr (hE.resolve_right ?_)
    rintro ⟨hfree, hnot⟩
    have hlocked := (hst.lock k).mp hlock
    simp [hfree, hnot] at hlocked
  simp only [wp_modifyInode, Fs.itable_setEntry_self]
  -- the entry is now locked, and what remains is to make it valid
  have hnl : (s.abs.ent k).locked ≠ true := hlock
  have hfree : (b.ent k).locked ≠ true ∧ k ∉ l := by grind [hst.lock]
  have hlocked : ∀ e : Ent, e.ref = (s.abs.ent k).ref → e.inum = (s.abs.ent k).inum →
      e.locked = true → e.valid = true → St b h d (k :: l) (s.abs.setEnt k e) := by
    intro e href hinum hl hv
    refine hst.relock href hinum (fun _ => hv) (by simp [hl]) (fun j hj => by simp [hj])
      (nodup_cons.mpr ⟨hfree.2, hst.nodup⟩) fun _ => ⟨by simpa using hfree.1, ?_, hv⟩
    rw [href]
    exact hr
  refine wp.ite (fun hv => ?_) fun hv => ?_
  · have hvalid := hwf.tab.valid k hr hv
    refine ⟨hwf.setEntry (fun _ _ => hwf.low.sync k (by simp) hr hv)
      (hwf.tab.touch hr hr.le rfl rfl fun _ => hvalid), ?_⟩
    rw [Fs.abs_setEntry]
    refine ⟨hlocked _ rfl rfl rfl hv, Option.ne_none_iff_exists'.mp ?_⟩
    rw [← hnode, ← hi]
    exact hvalid
  · simp only [wp_bind, wp_get, wp_bread, wp_modifyInode, Fs.itable_setEntry_self,
      Fs.setEntry_setEntry, Fs.bio_setEntry, Fs.sb_setEntry]
    have hd : getDinode (s.bio.cache (s.sb.IBLOCK (s.itable k).inum)) (s.itable k).inum =
        s.view.ino (s.itable k).inum := by
      have hlt := hwf.low.sb_eq ▸ hwf.tab.inum k hr
      exact (Superblock.disk_ino hlt).symm
    simp only [hd]
    refine wp.ite (fun h0 => ?_) fun h0 => ?_
    · refine wp_throw.mpr (hno.resolve_right ?_)
      rw [not_not, ← hnode, ← hi]
      exact Disk.node_eq_none.mpr h0
    · have hvalid := Disk.node_ne_none.mpr h0
      refine ⟨hwf.setEntry (fun _ _ => rfl) (hwf.tab.touch hr hr.le rfl rfl fun _ => hvalid), ?_⟩
      rw [Fs.abs_setEntry]
      refine ⟨hlocked _ rfl rfl rfl rfl, Option.ne_none_iff_exists'.mp ?_⟩
      rw [← hnode, ← hi]
      exact hvalid

theorem iunlock_spec : Spec sb E (St b h d (k :: l)) (iunlock k) fun _ g =>
    St b h d l g ∧ (g.ent k).valid = true := by
  intro s hwf hst
  obtain ⟨hfree, hr, hv⟩ := hst.own k (by simp)
  change 0 < (s.itable k).ref at hr
  have hlocked : (s.itable k).locked = true := (hst.lock k).mpr (by simp)
  unfold iunlock releasesleep
  simp only [wp_bind, wp_inode, hlocked, Bool.true_eq_false, false_or,
    if_neg (show ¬(s.itable k).ref < 1 by omega), wp_modifyInode]
  refine ⟨hwf.setEntry (fun _ hv => hwf.low.sync k (by simp) hr hv)
    (hwf.tab.touch hr hr.le rfl rfl (hwf.tab.valid k hr)), ?_⟩
  rw [Fs.abs_setEntry]
  have hnodup := nodup_cons.mp hst.nodup
  refine ⟨hst.relock rfl rfl id ?_ (fun j hj => by simp [hj]) hnodup.2
    fun hmem => absurd hmem hnodup.1, ?_⟩
  · simp [Inode.ent, hfree, hnodup.1]
  · simp only [Abs.setEnt, update_self]
    exact hv

/-! ### `iput` -/

/-- The inode of entry `k` goes when its last reference is dropped. -/
def Abs.Last (g : Abs) (k : ℕ) : Prop :=
  (g.ent k).ref = 1 ∧ (g.ent k).valid = true ∧
    ∃ nd, g.node (g.ent k).inum = some nd ∧ nd.nlink = 0

theorem Wf.last_iff (hwf : Wf sb s) : s.abs.Last k ↔
    (s.itable k).ref = 1 ∧ (s.itable k).valid = true ∧ (s.itable k).d.nlink = 0 := by
  refine and_congr_right fun hr => and_congr_right fun hv => ?_
  have hpos : 0 < (s.abs.ent k).ref := hr ▸ Int.one_pos
  have hsync : (s.itable k).d = s.view.ino (s.abs.ent k).inum :=
    hwf.low.sync k (by simp) hpos hv
  obtain ⟨nd, hnd⟩ := Option.ne_none_iff_exists'.mp (hwf.tab.valid k hpos hv)
  rw [hsync, (Disk.shows hnd).nlink]
  exact ⟨fun ⟨nd', hnd', h0⟩ => by rwa [Option.some.inj (hnd.symm.trans hnd')],
    fun h0 => ⟨nd, hnd, h0⟩⟩

theorem Wf.alone (hwf : Wf sb s) (hr : 0 < (s.itable k).ref) (j : ℕ) (hj : j ≠ k)
    (hrj : 0 < (s.itable j).ref) : (s.itable j).inum ≠ (s.itable k).inum := fun heq =>
  hj (hwf.tab.uniq j k hrj hr heq)

theorem Disk.node_removed {D D' : Disk} {d : Dinode} (hino : D'.ino = update D.ino i d)
    (hblk : D'.blk = D.blk) (hd : d.type = 0) (j : ℕ) :
    D'.node j = update D.node i none j ∧ ∀ q, D'.own j q = if j = i then 0 else D.own j q := by
  by_cases hj : j = i
  · grind [congrFun hino, Disk.node_eq_none.mpr, Disk.own_of_type]
  · grind [congrFun hino, Disk.own_congr, Disk.node_congr, Disk.byte_eq]

theorem iput_last (hE : Admits E) (hwf : Wf sb s) (hph : phase s.trace = some true)
    (hlast : s.abs.Last k) :
    wp E (iput k) (fun _ s' => Wf sb s' ∧ (s.abs.ent k).locked = false ∧
      s'.abs = (((s.abs.setNode (s.abs.ent k).inum none).setOwn (s.abs.ent k).inum 0).setEnt k
        { s.abs.ent k with ref := 0, valid := false, locked := false }).setOps
          (ops s'.trace)) s := by
  obtain ⟨hr, hv, hnl⟩ := hwf.last_iff.mp hlast
  have hpos : 0 < (s.itable k).ref := by omega
  have hi := hwf.tab.inum k hpos
  have hsync := hwf.low.sync k (by simp) hpos hv
  have htype := Disk.node_ne_none.mp (hwf.tab.valid k hpos hv)
  generalize hinum : (s.abs.ent k).inum = i at hi htype ⊢
  change (s.itable k).inum = i at hinum
  unfold iput acquiresleep
  simp only [wp_bind, wp_emit, wp_inode, hr, hv, hnl, and_self, if_true]
  refine wp.ite (fun _ => hE _ rfl) fun hlock => ?_
  set s₀ : Fs := { s with trace := s.trace ++ [.iput] } with hs₀
  set s₁ := s₀.setEntry k { s.itable k with locked := true } with hs₁
  have hself : s₁.itable k = { s.itable k with locked := true } := Fs.itable_setEntry_self ..
  have htr : phase s₀.trace = phase s.trace := by simp [hs₀, hph, phaseStep]
  have hlow₁ : Low sb ∅ none s.view s₁ := (hwf.low.trace htr).setEntry fun _ _ => hsync
  have halone : ∀ j, j ≠ k → 0 < (s₁.itable j).ref → (s₁.itable j).inum ≠ (s₁.itable k).inum := by
    grind [s₀.itable_setEntry_ne, hwf.alone]
  have hbusy : Busy sb ∅ k i s.view s₁ :=
    ⟨hlow₁.exempt halone, htr.trans hph, by rw [hself, hinum], by rw [hself, ← hinum, hsync], htype⟩
  refine (itrunc_spec hwf.geo hE.log hbusy hi).mono ?_
  rintro _ s₂ ⟨hkeep₂, hcopy₂, D₂, hino₂, hblk₂, hlow₂⟩
  set d : Dinode := { (s.view.ino i).emptied with type := 0 } with hd
  set s₃ := s₂.setCopy k fun d => { d with type := 0 } with hs₃
  have hkeep₃ : Keep (some k) s₁ s₃ := hkeep₂.trans (.copied k _)
  have hinum₃ := (hkeep₃.inum k).trans (by rw [hself, hinum])
  have hown₂ : ∀ j q, (D₂.setIno i d).own j q = D₂.own j q := by
    intro j q
    by_cases hj : j = i
    · subst hj
      rw [Disk.own_of_type (by simp [hd])]
      simp [Disk.own, hino₂, Dinode.emptied]
    · exact Disk.own_setIno_ne hj d q
  have howns₃ : Owns sb (D₂.setIno i d) ∅ := by
    refine hlow₂.owns.congr hown₂ rfl (fun j => ?_) fun j => ?_
    · by_cases hj : j = i
      · have hok := (hwf.low.owns.ok i).emptied
        simpa [hj, hd] using (⟨rfl, hok.major, hok.minor, hok.nlink, hok.size, hok.addrs,
          hok.addrs_end⟩ : d.Ok)
      · simpa [update_of_ne hj] using hlow₂.owns.ok j
    · by_cases hj : j = i
      · exact fun h0 => absurd (by simp [hj, hd]) h0
      · have hsame : (D₂.setIno i d).ino j = D₂.ino j := by simp [update_of_ne hj]
        exact Owns.holeFree_congr (hlow₂.owns.hole j) (hown₂ j) (fun h0 => hsame ▸ h0)
          fun _ => hsame ▸ le_rfl
  have halone₂ : ∀ j, j ≠ k → 0 < (s₂.itable j).ref → (s₂.itable j).inum ≠ (s₂.itable k).inum := by
    grind [hkeep₂.ref, hkeep₂.inum]
  have hlow₃ : Low sb ∅ (some k) (D₂.setIno i d) s₃ :=
    ((hlow₂.exempt halone₂).copy _).view hinum₃ howns₃
  refine (iupdate_spec hwf.geo hE.log hlow₃ (hkeep₃.phase_eq.trans (htr.trans hph))
    (by rwa [hinum₃])
    ?_).mono ?_
  · rw [hinum₃, hs₃, Fs.copy_setCopy, hcopy₂]
    simp [hd]
  rintro _ s₄ ⟨hkeep₄, hlow₄, -⟩
  have hkeep : Keep (some k) s₁ s₄ := hkeep₃.trans (hkeep₄.weaken _)
  have hgone : ∀ j, (D₂.setIno i d).node j = update s.view.node i none j ∧
      ∀ q, (D₂.setIno i d).own j q = if j = i then 0 else s.view.own j q :=
    Disk.node_removed (by rw [Disk.ino_setIno, hino₂, Function.update_idem]) hblk₂ rfl
  have hnode : s₄.view.node = update s.view.node i none := by grind [hlow₄.view_eq]
  have hown : s₄.view.own = update s.view.own i 0 := by
    rw [hlow₄.view_eq]
    funext j q
    rw [(hgone j).2]
    by_cases hj : j = i
    · rw [if_pos hj, hj, update_self]
      rfl
    · rw [if_neg hj, update_of_ne hj]
  have habs₄ : s₄.abs = (((s.abs.setNode i none).setOwn i 0).setEnt k
      { s.abs.ent k with locked := true }).setOps (ops s₄.trace) := by
    have habs₁ : s₁.abs = s.abs.setEnt k { s.abs.ent k with locked := true } := by
      rw [hs₁, Fs.abs_setEntry, (hwf.iput_event hph).2]
      rfl
    rw [hkeep.abs_eq, habs₁, hnode, hown]
    rfl
  simp only [wp_modifyInode, releasesleep, Fs.itable_setEntry_self, Fs.setEntry_setEntry]
  have hr₄ : (s₄.itable k).ref - 1 = 0 := by
    rw [hkeep.ref, hself]
    simp only
    omega
  have hent₄ : (s₄.itable k).ent = { s.abs.ent k with locked := true } := by
    rw [hkeep.ent, hself]
    rfl
  have habs₅ : ∀ e : Inode,
      e.ent = { s.abs.ent k with ref := 0, valid := false, locked := false } →
      (s₄.setEntry k e).abs = (((s.abs.setNode i none).setOwn i 0).setEnt k
        { s.abs.ent k with ref := 0, valid := false, locked := false }).setOps (ops s₄.trace) := by
    intro e he
    rw [Fs.abs_setEntry, habs₄, ← he]
    exact congrArg (Abs.setOps · _) (Abs.setEnt_setEnt ..)
  set e₅ : Inode := { s₄.itable k with
    ref := (s₄.itable k).ref - 1
    locked := false
    valid := false } with he₅
  have hent₅ : e₅.ent = { s.abs.ent k with ref := 0, valid := false, locked := false } := by
    rw [he₅, hr₄]
    exact congrArg (fun e : Ent => { e with ref := 0, valid := false, locked := false }) hent₄
  refine ⟨⟨hwf.geo, ?_, ?_, ?_, ?_⟩, Bool.not_eq_true _ ▸ hlock, habs₅ _ hent₅⟩
  · have hlow₅ := hlow₄.setEntry (k := k) (e := e₅) fun _ hv => by simp [he₅] at hv
    rw [hlow₅.view_eq]
    exact hlow₅
  · rw [habs₅ _ hent₅]
    have htab := hwf.tab.setEnt (k := k)
      (e := { s.abs.ent k with ref := 0, valid := false, locked := false })
      le_rfl (by simp) (by simp) (by simp) (by simp) (by simp)
    refine ((htab.setNode fun _ j hrj => ?_).setOwn i 0).setOps _
    by_cases hj : j = k
    · simp [hj, Abs.setEnt] at hrj
    · simp only [Abs.setEnt, update_of_ne hj] at hrj ⊢
      exact hinum ▸ hwf.alone hpos j hj hrj
  · change DirRange sb s₄.view.node
    rw [hnode]
    intro j nd hj
    by_cases hji : j = i
    · simp [hji] at hj
    · rw [update_of_ne hji] at hj
      exact hwf.dirs j nd hj
  · have hdur : Durable sb s₁ := hwf.durable
    change Durable sb s₄
    refine hdur.keep hkeep fun j q hown _ => ?_
    rw [hlow₄.view_eq, (hgone j).2] at hown ⊢
    split at hown
    · exact absurd rfl hown
    · rename_i hji
      rw [if_neg hji]
      refine ⟨rfl, fun ht => ?_⟩
      rwa [Disk.ino_setIno, update_of_ne hji, hino₂, update_of_ne hji] at ht

theorem iput_more (hwf : Wf sb s) (hph : phase s.trace = some true) (hr : 0 < (s.itable k).ref)
    (hmore : ¬s.abs.Last k) :
    wp E (iput k) (fun _ s' => Wf sb s' ∧
      s'.abs = s.abs.setEnt k { s.abs.ent k with ref := (s.abs.ent k).ref - 1 }) s := by
  obtain ⟨hwf', habs⟩ := hwf.iput_event hph
  unfold iput
  rw [hwf.last_iff] at hmore
  simp only [wp_bind, wp_emit, wp_inode, if_neg hmore, wp_modifyInode]
  refine ⟨hwf'.setEntry (fun _ hv => hwf.low.sync k (by simp) hr hv) ?_, ?_⟩
  · rw [habs]
    exact hwf.tab.touch hr (by simp only [Inode.ent]; omega) rfl rfl (hwf.tab.valid k hr)
  · rw [Fs.abs_setEntry, habs]
    rfl

/-- Nothing refers to inode `i` any more: no link and no entry that the call
may use. -/
def Gone (b : Abs) (h : List (ℕ × ℕ)) (d : List ℕ) (i : ℕ) : Prop :=
  (∃ nd, b.node i = some nd ∧ nd.nlink = 0) ∧ ∀ k, ¬Has b h d k i

/-- Nothing that is left would go: what has no links is in use. -/
def Calm (b : Abs) (h : List (ℕ × ℕ)) (d : List ℕ) : Prop :=
  ∀ i nd, b.node i = some nd → nd.nlink = 0 → ∃ k, Has b h d k i

theorem Calm.not_gone (hcalm : Calm b h d) : ¬Gone b h d i := by
  rintro ⟨⟨nd, hnd, h0⟩, hno⟩
  obtain ⟨k, hk⟩ := hcalm i nd hnd h0
  exact hno k hk

def Abs.free (b : Abs) (i : ℕ) : Abs := (b.setNode i none).setOwn i 0

/-- The base after a reference to inode `i` was dropped; `h` and `d` are what is
left. If the entry was valid (`v`) the inode does not outlive its last
reference. -/
structure Put (b : Abs) (h : List (ℕ × ℕ)) (d : List ℕ) (i : ℕ) (v : Bool)
    (b' : Abs) : Prop where
  base : b' = b ∨ b' = b.free i ∧ Gone b h d i
  gone : v = true → Gone b h d i → b' = b.free i

/-- From `b` to `b'` nodes may go, but none that is in use, and if nothing was
about to go nothing changes. -/
structure Quiet (b : Abs) (h : List (ℕ × ℕ)) (d : List ℕ) (b' : Abs) : Prop where
  ent : b'.ent = b.ent
  ftable : b'.ftable = b.ftable
  proc : b'.proc = b.proc
  phase : b'.phase = b.phase
  keep : ∀ k i, Has b h d k i → b'.node i = b.node i
  sub : ∀ i nd, b'.node i = some nd → b.node i = some nd
  calm : Calm b h d → b' = b

namespace Quiet

variable {b' b'' : Abs}

theorem refl (b : Abs) (h : List (ℕ × ℕ)) (d : List ℕ) : Quiet b h d b :=
  ⟨rfl, rfl, rfl, rfl, fun _ _ _ => rfl, fun _ _ => id, fun _ => rfl⟩

theorem has (hq : Quiet b h d b') {h' : List (ℕ × ℕ)} {d' : List ℕ} :
    Has b' h' d' k i ↔ Has b h' d' k i := by
  rw [Has, Has, hq.ent]

theorem trans (hq : Quiet b h d b') (hq' : Quiet b' h d b'') : Quiet b h d b'' where
  ent := hq'.ent.trans hq.ent
  ftable := hq'.ftable.trans hq.ftable
  proc := hq'.proc.trans hq.proc
  phase := hq'.phase.trans hq.phase
  keep k i hk := (hq'.keep k i (hq.has.mpr hk)).trans (hq.keep k i hk)
  sub i nd hnd := hq.sub i nd (hq'.sub i nd hnd)
  calm hcalm := by
    obtain rfl := hq.calm hcalm
    exact hq'.calm hcalm

end Quiet

theorem Put.quiet {b' : Abs} {v : Bool} (hput : Put b h d i v b') : Quiet b h d b' := by
  rcases hput.base with rfl | ⟨rfl, hgone⟩
  · exact .refl _ h d
  · refine ⟨rfl, rfl, rfl, rfl, fun k j hk => ?_, fun j nd hnd => ?_, fun hcalm =>
      absurd hgone hcalm.not_gone⟩
    · have hj : j ≠ i := fun hji => hgone.2 k (hji ▸ hk)
      exact update_of_ne hj ..
    · by_cases hj : j = i
      · simp [hj, Abs.free, Abs.setOwn, Abs.setNode] at hnd
      · exact (update_of_ne hj ..).symm.trans hnd

theorem iput_cases {d' : List ℕ} {h' : List (ℕ × ℕ)} {v : Bool} (hE : Admits E ∨ ¬Gone b h' d' i)
    (hwf : Wf sb s) (hst : St b h d l s.abs) (hk : Has b h d k i) (hph : b.phase = some true)
    (hv : v = true → (s.abs.ent k).valid = true)
    (hafter : ∀ e : Ent, e.ref = (s.abs.ent k).ref - 1 → e.inum = (s.abs.ent k).inum →
      e.locked = (s.abs.ent k).locked → (0 < e.ref → e.valid = (s.abs.ent k).valid) →
      St b h' d' l (s.abs.setEnt k e)) :
    wp E (iput k) (fun _ s' => Wf sb s' ∧ ∃ b', Put b h' d' i v b' ∧ St b' h' d' l s'.abs) s := by
  obtain ⟨hr, hi⟩ := hst.has hk
  have hph' := hst.phase.trans hph
  by_cases hlast : s.abs.Last k
  · have hgone : Gone b h' d' i := by
      have hst' := hafter { s.abs.ent k with ref := 0, valid := false } (by simp [hlast.1]) rfl rfl
        (by simp)
      refine ⟨by rw [← hst.node, ← hi]; exact hlast.2.2, fun j hj => ?_⟩
      obtain ⟨hrj, hij⟩ := hst'.has hj
      by_cases hjk : j = k
      · simp [hjk, Abs.setEnt] at hrj
      · simp only [Abs.setEnt, update_of_ne hjk] at hrj hij
        exact hjk (hwf.tab.uniq j k hrj hr (hij.trans hi.symm))
    refine (iput_last (hE.resolve_right (not_not.mpr hgone)) hwf hph' hlast).mono ?_
    rintro _ s' ⟨hwf', hlock, habs⟩
    have hst' := hafter { s.abs.ent k with ref := 0, valid := false, locked := false }
      (by simp [hlast.1]) rfl hlock.symm (by simp)
    refine ⟨hwf', b.free i, ⟨.inr ⟨rfl, hgone⟩, fun _ _ => rfl⟩, ?_⟩
    rw [hi] at habs
    rw [habs]
    exact ((hst'.setNode i none).setOwn i 0).setOps _
  · refine (iput_more hwf hph' hr hlast).mono ?_
    rintro _ s' ⟨hwf', habs⟩
    have hst' := hafter { s.abs.ent k with ref := (s.abs.ent k).ref - 1 } rfl rfl rfl fun _ => rfl
    refine ⟨hwf', b, ⟨.inl rfl, fun hvt hgone => absurd ?_ hlast⟩, habs ▸ hst'⟩
    refine ⟨?_, hv hvt, by rw [hst.node, hi]; exact hgone.1⟩
    -- the entry would still be in use for the inode
    by_contra hne
    have hself : (s.abs.setEnt k { s.abs.ent k with ref := (s.abs.ent k).ref - 1 }).ent k =
        { s.abs.ent k with ref := (s.abs.ent k).ref - 1 } := update_self ..
    have hhas := hst'.has_of_ref (k := k) (by rw [hself]; simp only; omega)
    rw [hself] at hhas
    exact hgone.2 k (hi ▸ hhas)

theorem iput_spec (hE : Admits E ∨ ¬Gone b h d i) (hk : k ∈ l → Has b h d k i)
    (hph : b.phase = some true) :
    Spec sb E (St b ((k, i) :: h) d l) (iput k) fun _ g =>
      ∃ b', Put b h d i false b' ∧ St b' h d l g := by
  intro s hwf hst
  exact iput_cases hE hwf hst (.inl (by simp)) hph (by simp) fun e => hst.put hk

theorem iunlockput_spec (hE : Admits E ∨ ¬Gone b h d i) (hph : b.phase = some true) :
    Spec sb E (St b ((k, i) :: h) d (k :: l)) (iunlockput k) fun _ g =>
      ∃ b', Put b h d i true b' ∧ St b' h d l g := by
  refine Tri.bind (Q := fun _ g => (St b ((k, i) :: h) d l g ∧ (g.ent k).valid = true) ∧ k ∉ l)
    ?_ fun _ => ?_
  · intro s hwf hst
    exact (iunlock_spec s hwf hst).mono fun _ s' h =>
      ⟨h.1, h.2, (nodup_cons.mp hst.nodup).1⟩
  · refine Tri.assume fun hk s hwf hst => ?_
    exact iput_cases hE hwf hst.1 (.inl (by simp)) hph (fun _ => hst.2) fun e =>
      hst.1.put fun hmem => absurd hmem hk

end Xv6
