import Xv6.Fs.Table

/-!
What the operations on inodes do to the nodes.

Each specification says how the base of `St` changes: `begin_op` and `end_op` open and
close the operation, `ialloc` adds a node, an `iupdate` changes a node's fields, `writei`
and `itrunc` its content, and `readi` delivers a part of it. The references and locks stay
as they are.
-/

namespace Xv6

open List
open Function (update update_self update_of_ne update_eq_self)

variable {sb : Superblock} {E : Stop → Prop} {b : Abs} {h : List (ℕ × ℕ)} {d l : List ℕ}
  {k i : ℕ} {nd : Node} {s s' : Fs}
variable {D : Disk} {x : Option ℕ} {nd' : Node} {leak : Set ℕ} {e : ℕ} {de : List UInt8}

/-! ### Operations -/

def Abs.event (b : Abs) (e : Event) : Abs :=
  { b with phase := phaseStep b.phase e, ops := b.ops.step e }

theorem St.event {g : Abs} (hst : St b h d l g) (e : Event) : St (b.event e) h d l (g.event e) :=
  { hst with phase := congrArg (phaseStep · e) hst.phase }

theorem TabOk.event {g : Abs} (h : TabOk sb g) (e : Event) : TabOk sb (g.event e) :=
  { h with }

theorem beginOp_spec (hE : Admits E) (hph : b.phase = some false) :
    Spec sb E (St b h d l) beginOp fun _ => St (b.event .beginOp) h d l := by
  intro s hwf hst
  have hph' : phase s.trace = some false := hst.phase.trans hph
  have hidle := hwf.low.log.idle hph'
  have htr : phase (s.trace ++ [.beginOp]) = some true := by simp [hph', phaseStep]
  unfold beginOp
  simp only [wp_bind, wp_emit, wp_get]
  split
  · exact hE _ rfl
  · rename_i log hlog
    obtain ⟨-, rfl⟩ := Log.beginOp_eq hlog
    have habs : ({ s with
        log := { s.log with outstanding := s.log.outstanding + 1 }
        trace := s.trace ++ [.beginOp] } : Fs).abs = s.abs.event .beginOp := by
      rw [Fs.abs, phase_snoc, ops_snoc]
      rfl
    refine ⟨⟨hwf.geo, ?_, ?_, hwf.dirs, hwf.durable⟩, habs ▸ hst.event _⟩
    · exact { hwf.low with
        log := { hwf.low.log with
          idle := fun hp => by simp [htr] at hp, busy := fun _ => by simp [hidle.1] } }
    · rw [habs]
      exact hwf.tab.event _

theorem Geometry.disk_congr (G : Geometry sb) {c c' : ℕ → Block}
    (hc : ∀ a, sb.inodestart ≤ a → c' a = c a) : sb.disk c' = sb.disk c := by
  refine Disk.ext' (fun j => ?_) (fun a => ?_) fun a => ?_
  · simp only [Superblock.disk, hc _ (Geometry.inodestart_le_IBLOCK j)]
  · have hlt := (Geometry.inodestart_le_IBLOCK ROOTINO).trans (G.IBLOCK_lt_BBLOCK G.root a).le
    simp only [Superblock.disk, hc _ hlt]
  · grind [Superblock.disk, G.inodestart_lt_dataStart]

theorem endOp_spec (hE : Admits E) (hph : b.phase = some true) :
    Spec sb E (St b h d l) endOp fun _ => St (b.event .endOp) h d l := by
  intro s hwf hst
  have hph' : phase s.trace = some true := hst.phase.trans hph
  have L := hwf.low.log
  have hbusy := L.busy hph'
  unfold endOp
  simp only [wp_bind, wp_emit, wp_get]
  split
  · exact hE _ rfl
  · rename_i log hlog
    have := (Log.endOp_eq hlog).1
    simp [hbusy] at this
  · rename_i log hlog
    obtain ⟨-, rfl⟩ := Log.endOp_eq hlog
    simp only [Log.commit, Log.endCommit, wp_set]
    have hnotin : ∀ a, sb.inodestart ≤ a → ¬Log.InLog s.log.start s.log.size a := by
      rintro a ha ⟨-, hlt⟩
      rw [L.start, L.size] at hlt
      have := hwf.geo.log
      omega
    have hhome : ∀ a, sb.inodestart ≤ a →
        (Log.commitBio s.log.start s.log.lh s.bio).cache a = s.bio.cache a ∧
          (Log.commitBio s.log.start s.log.lh s.bio).disk a =
            if a ∈ s.log.lh then s.bio.cache a else s.bio.disk a := fun a ha =>
      Log.commitBio_home s.bio L.nodup (fun a ha => hnotin a (L.home a ha))
        (L.size.symm ▸ L.room) (hnotin a ha)
    have hview : sb.disk (Log.commitBio s.log.start s.log.lh s.bio).cache = s.view := by
      grind [Fs.view, hwf.low.sb_eq, hwf.geo.disk_congr]
    set s' : Fs := { s with
      log := { s.log with outstanding := s.log.outstanding - 1, committing := false, lh := [] }
      bio := Log.commitBio s.log.start s.log.lh s.bio
      trace := s.trace ++ [.endOp] } with hs'
    have hview' : s'.view = s.view := by rw [← hview, Fs.view, show s'.sb = sb from hwf.low.sb_eq]
    have habs : s'.abs = s.abs.event .endOp := by
      rw [Fs.abs, hview', show s'.trace = s.trace ++ [.endOp] from rfl, phase_snoc, ops_snoc]
      rfl
    refine ⟨⟨hwf.geo, ?_, ?_, hview'.symm ▸ hwf.dirs, ?_⟩, habs ▸ hst.event _⟩
    · rw [hview']
      exact ⟨hwf.low.sb_eq, by rw [hview], by rw [hview], fun j _ => by rw [hview],
        hwf.low.sync, hwf.low.alone, hwf.low.owns, ⟨L.start, L.size, rfl, nodup_nil, by simp [hs'],
          by simpa [hs'] using hwf.geo.nlog, fun _ => ⟨by simp [hs', hbusy], rfl⟩,
          fun hp => by simp [hs', hph', phaseStep] at hp⟩⟩
    · rw [habs]
      exact hwf.tab.event _
    · grind [Durable, hwf.durable]

/-! ### A locked inode -/

structure Locked (b : Abs) (h : List (ℕ × ℕ)) (d l : List ℕ) (k i : ℕ) (nd : Node) : Prop where
  mem : k ∈ l
  has : Has b h d k i
  node : b.node i = some nd

structure At (sb : Superblock) (k i : ℕ) (nd : Node) (s : Fs) : Prop where
  ref : 0 < (s.itable k).ref
  inum : (s.itable k).inum = i
  lt : i < sb.ninodes
  valid : (s.itable k).valid = true
  copy : (s.itable k).d = s.view.ino i
  node : s.view.node i = some nd
  alone : ∀ j, j ≠ k → 0 < (s.itable j).ref → (s.itable j).inum ≠ (s.itable k).inum

theorem Locked.at (hk : Locked b h d l k i nd) (hwf : Wf sb s) (hst : St b h d l s.abs) :
    At sb k i nd s := by
  obtain ⟨hr, hi⟩ := hst.has hk.has
  have hv := (hst.own k hk.mem).2.2
  have hnode : s.view.node i = some nd := (congrFun hst.node i).trans hk.node
  exact ⟨hr, hi, hi ▸ hwf.tab.inum k hr, hv, hi ▸ hwf.low.sync k (by simp) hr hv, hnode,
    hwf.alone hr⟩

namespace At

theorem shows (hat : At sb k i nd s) : Disk.Shows (s.itable k).d nd :=
  hat.copy ▸ Disk.shows hat.node

theorem busy (hat : At sb k i nd s) (hwf : Wf sb s) (hph : phase s.trace = some true) :
    Busy sb ∅ k i s.view s :=
  ⟨hwf.low.exempt hat.alone, hph, hat.inum, hat.copy, Disk.type_of_node hat.node⟩

end At

theorem inode_spec (hk : Locked b h d l k i nd) :
    Spec sb E (St b h d l) (inode k) fun e g =>
      St b h d l g ∧ e.inum = i ∧ e.dev = ROOTDEV ∧ Disk.Shows e.d nd := by
  intro s hwf hst
  have hat := hk.at hwf hst
  exact ⟨hwf, hst, hat.inum, hwf.tab.dev k hat.ref, hat.shows⟩

/-! ### Changes of one node -/

theorem Wf.node_change (hwf : Wf sb s) (hst : St b h d l s.abs) (hframe : Frame x s s')
    (hlow : Low sb ∅ none D s') (hnode : ∀ j, D.node j = update s.view.node i (some nd') j)
    (hown : ∀ j, j ≠ i → ∀ q, D.own j q = s.view.own j q)
    (hdir : nd'.type = T_DIR → ∀ e, nd'.inum e < sb.ninodes) (hdur : Durable sb s') :
    Wf sb s' ∧ St ((b.setNode i (some nd')).setOwn i (D.own i)) h d l s'.abs := by
  have hnode' : s'.view.node = update s.view.node i (some nd') := by grind [hlow.view_eq]
  have hown' : s'.view.own = update s.view.own i (D.own i) := by
    rw [hlow.view_eq]
    funext j q
    by_cases hj : j = i
    · rw [hj, update_self]
    · rw [update_of_ne hj, hown j hj]
  have habs : s'.abs =
      ((s.abs.setNode i (some nd')).setOwn i (D.own i)).setOps (ops s'.trace) := by
    rw [hframe.abs_eq, hnode', hown']
    rfl
  refine ⟨hwf.change hlow hframe.ent (fun j hj => ?_) (fun j n hj ht => ?_) hdur,
    habs ▸ ((hst.setNode i _).setOwn i _).setOps _⟩
  · grind
  · rw [hnode] at hj
    by_cases hji : j = i
    · grind
    · rw [update_of_ne hji] at hj
      exact hwf.dirs j n hj ht

theorem Abs.setOwn_self {o : ℕ → ℕ} (ho : b.own i = o) : b.setOwn i o = b := by
  rw [Abs.setOwn, ← ho, update_eq_self]

theorem Wf.node_update (hwf : Wf sb s) (hst : St b h d l s.abs) (hframe : Frame x s s')
    (hlow : Low sb ∅ none D s') (hnode : ∀ j, D.node j = update s.view.node i (some nd') j)
    (hown : ∀ j q, D.own j q = s.view.own j q)
    (hdir : nd'.type = T_DIR → ∀ e, nd'.inum e < sb.ninodes) (hdur : Durable sb s') :
    Wf sb s' ∧ St (b.setNode i (some nd')) h d l s'.abs := by
  have hself : (b.setNode i (some nd')).own i = D.own i := by
    funext q
    rw [hown]
    exact (congrFun (congrFun hst.blocks i) q).symm
  have hchange := hwf.node_change hst hframe hlow hnode (fun j _ => hown j) hdir hdur
  rwa [Abs.setOwn_self hself] at hchange

/-- A change of the copy of a locked inode that leaves its type and content
alone, and `iupdate`. -/
theorem update_spec {f : Dinode → Dinode} (hE : Admits E) (hph : b.phase = some true)
    (hk : Locked b h d l k i nd) (hf : ∀ e : Dinode, e.Ok → Disk.Shows e nd →
      (f e).Ok ∧ Disk.Shows (f e) nd' ∧ (f e).addrs = e.addrs) (ht : nd'.type = nd.type)
    (hdata : nd'.data = nd.data) :
    Spec sb E (St b h d l) (do modifyDinode k f; iupdate k) fun _ =>
      St (b.setNode i (some nd')) h d l := by
  intro s hwf hst
  have hat := hk.at hwf hst
  have hph' := hst.phase.trans hph
  have hshow := Disk.shows hat.node
  obtain ⟨hok, hshow', haddrs⟩ := hf _ (hwf.low.owns.ok i) hshow
  have htype' : (f (s.view.ino i)).type = (s.view.ino i).type := by rw [hshow'.type, ht, hshow.type]
  have hsize : (f (s.view.ino i)).size = (s.view.ino i).size := by
    rw [hshow'.size, hdata, hshow.size]
  set D := s.view.setIno i (f (s.view.ino i)) with hD
  have hown := Disk.own_setIno_addrs (by rw [htype']) haddrs
  have hino : ∀ j, j ≠ i → D.ino j = s.view.ino j := fun j hj => update_of_ne hj ..
  have hself : D.ino i = f (s.view.ino i) := update_self ..
  have hdino : ∀ j, (D.ino j).type = (s.view.ino j).type ∧
      (D.ino j).size = (s.view.ino j).size := by
    grind
  have howns : Owns sb D ∅ := by
    refine hwf.low.owns.congr hown rfl (fun j => ?_) fun j => ?_
    · by_cases hj : j = i
      · rw [hj, hself]
        exact hok
      · rw [hino j hj]
        exact hwf.low.owns.ok j
    · exact Owns.holeFree_congr (hwf.low.owns.hole j) (hown j) (by rw [(hdino j).1]; exact id)
        fun _ => (hdino j).2.le
  refine (iupdate_spec hwf.geo hE.log ((((hat.busy hwf hph').low.view hat.inum howns).copy f))
    hph' ?_ ?_).mono ?_
  · rw [Fs.inum_setCopy, hat.inum]
    exact hat.lt
  · rw [Fs.inum_setCopy, hat.inum, Fs.copy_setCopy, hat.copy, hself]
  rintro _ s' ⟨hkeep', hlow, -⟩
  have hkeep : Keep (some k) s s' := (Keep.copied k f).trans (hkeep'.weaken _)
  refine hwf.node_update hst hkeep.toFrame hlow (fun j => ?_) hown (fun hdir e => ?_) ?_
  · by_cases hj : j = i
    · rw [hj, update_self]
      have hbyte : ∀ x < nd.data.length, D.byte i x = s.view.byte i x := fun x _ =>
        Disk.byte_eq (hown _ _) rfl
      rw [Disk.node_fields hat.node hself (htype'.trans hshow.type) (hsize.trans hshow.size) hbyte,
        hshow'.major, hshow'.minor, hshow'.nlink, ← ht, ← hdata]
    · rw [update_of_ne hj]
      exact Disk.node_congr (hino j hj) fun _ x _ => Disk.byte_eq (hown _ _) rfl
  · have hinum : nd'.inum e = nd.inum e := by rw [Node.inum, Node.dirent, hdata]; rfl
    rw [hinum]
    exact hwf.dirs i nd hat.node (ht ▸ hdir) e
  · grind [hwf.durable.keep, hlow.view_eq]

theorem nlink_spec {f : ℤ → ℤ} (hE : Admits E) (hph : b.phase = some true)
    (hk : Locked b h d l k i nd) (hf : ∀ x, short (f x) = f x) :
    Spec sb E (St b h d l) (do modifyDinode k fun e => { e with nlink := f e.nlink }; iupdate k)
      fun _ => St (b.setNode i (some { nd with nlink := f nd.nlink })) h d l :=
  update_spec hE hph hk (fun e hok hshow => ⟨{ hok with nlink := hf e.nlink },
    { hshow with nlink := congrArg f hshow.nlink }, rfl⟩) rfl rfl

theorem Abs.setNode_self {n : Option Node} (hn : b.node i = n) : b.setNode i n = b := by
  rw [Abs.setNode, ← hn, update_eq_self]

def Node.new (type : ℤ) : Node := ⟨type, 0, 0, 0, []⟩

theorem Node.inum_of_nil (hnil : nd.data = []) (e : ℕ) : nd.inum e = 0 := by
  rw [Node.inum, Node.dirent, hnil, drop_nil, take_nil]
  rfl

theorem iallocLoop_spec {type : ℤ} {fuel inum : ℕ} (hE : Admits E) (hph : b.phase = some true)
    (htype : short type = type) (h0 : type ≠ 0) (hpos : 0 < inum) :
    Spec sb E (St b h d l) (iallocLoop ROOTDEV type fuel inum) fun r g =>
      (r = none ∧ St b h d l g) ∨ ∃ ip j, r = some ip ∧ 0 < j ∧ b.node j = none ∧
        St (b.setNode j (some (.new type))) ((ip, j) :: h) d l g := by
  induction fuel generalizing inum with
  | zero => exact Tri.pure fun g hg => .inl ⟨rfl, hg⟩
  | succ fuel ih =>
    intro s hwf hst
    have hph' : phase s.trace = some true := hst.phase.trans hph
    unfold iallocLoop
    simp only [wp_bind, wp_get, hwf.low.sb_eq]
    refine wp.ite (fun hlt => ?_) fun _ => ⟨hwf, .inl ⟨rfl, hst⟩⟩
    have hdino : getDinode (s.bio.cache (sb.IBLOCK inum)) inum = s.view.ino inum := by
      grind [Fs.view, hwf.low.sb_eq, Superblock.disk_ino]
    simp only [wp_bind, wp_bread, hdino]
    refine wp.ite (fun hfree => ?_) fun _ => ih (Nat.succ_pos _) s hwf hst
    have hnone := Disk.node_eq_none.mpr hfree
    simp only [wp_bind, wp_store]
    refine wp_logWrite hE.log hwf.low.log fun hroom => ?_
    set e : Dinode := { Dinode.zero with type := type } with he
    have hok : e.Ok := ⟨htype, rfl, rfl, rfl, Dinode.zero_ok.size, Dinode.zero_ok.addrs,
      Dinode.zero_ok.addrs_end⟩
    set s₁ := s.logged (sb.IBLOCK inum) (putDinode (s.bio.cache (sb.IBLOCK inum)) inum e) with hs₁
    have hput := hwf.geo.disk_putDinode (c := s.bio.cache) hlt hok
    rw [← hwf.low.sb_eq] at hput
    set D := s.view.setIno inum e with hD
    have hino : ∀ j, j ≠ inum → D.ino j = s.view.ino j := fun j hj => update_of_ne hj ..
    have hself : D.ino inum = e := update_self ..
    have hown : ∀ j q, D.own j q = s.view.own j q := by
      intro j q
      by_cases hj : j = inum
      · rw [hj, Disk.own_of_type hfree]
        simp [Disk.own, hself, he, Dinode.zero]
      · exact Disk.own_setIno_ne hj e q
    have howns : Owns sb D ∅ := by
      refine hwf.low.owns.congr hown rfl (fun j => ?_) fun j => ?_
      · grind [hwf.low.owns.ok]
      · by_cases hj : j = inum
        · intro _ bn hbn
          rw [hj, hself] at hbn
          exact absurd hbn (Nat.not_lt_zero _)
        · exact Owns.holeFree_congr (hwf.low.owns.hole j) (hown j) (by rw [hino j hj]; exact id)
            fun _ => (congrArg Dinode.size (hino j hj)).le
    have hlow : Low sb ∅ none D s₁ := by
      have hview := hput
      rw [hwf.low.sb_eq] at hview
      refine hwf.low.logged hph' (Geometry.inodestart_le_IBLOCK inum) hroom ?_ ?_ ?_ ?_ howns
      · rw [hview]
        exact hwf.low.bit
      · rw [hview]
        exact hwf.low.blk
      · intro j _
        rw [hview]
        by_cases hj : j = inum
        · simp [hj, hD]
        · rw [hino j hj, Disk.ino_setIno, update_of_ne hj]
          exact hwf.low.ino j (by simp)
      · intro j _ hr hv
        refine hino _ fun heq => hwf.tab.valid j hr hv ?_
        rw [show (s.abs.ent j).inum = inum from heq]
        exact hnone
    have hchange : Wf sb s₁ ∧
        St (b.setNode inum (some (.new type))) h d l s₁.abs := by
      refine hwf.node_update hst (Keep.logged hph' _).toFrame hlow
        (fun j => ?_) hown (fun _ n => ?_) ?_
      · by_cases hj : j = inum
        · subst hj
          rw [update_self, Disk.node_of_type (by rwa [hself]), hself]
          simp [Node.new, he, Dinode.zero, Disk.content, Disk.bytes, hself]
        · rw [update_of_ne hj]
          exact Disk.node_congr (hino j hj) fun _ x _ => Disk.byte_eq (hown _ _) rfl
      · rw [Node.inum_of_nil rfl]
        exact (Nat.zero_le inum).trans_lt hlt
      · grind [hwf.durable.keep, Keep.logged, hlow.view_eq, Disk.own_of_type]
    refine (iget_spec (.inl (hE _ rfl)) hlt s₁ hchange.1 hchange.2).mono fun ip s₂ hip => ?_
    exact ⟨hip.1, .inr ⟨ip, inum, rfl, hpos, (congrFun hst.node inum).symm.trans hnone, hip.2⟩⟩

theorem ialloc_spec {type : ℤ} (hE : Admits E) (hph : b.phase = some true)
    (htype : short type = type) (h0 : type ≠ 0) :
    Spec sb E (St b h d l) (ialloc ROOTDEV type) fun r g =>
      (r = none ∧ St b h d l g) ∨ ∃ ip j, r = some ip ∧ 0 < j ∧ b.node j = none ∧
        St (b.setNode j (some (.new type))) ((ip, j) :: h) d l g :=
  fun s hwf hst =>
  iallocLoop_spec hE hph htype h0 Nat.one_pos s hwf hst

/-! ### Content -/

theorem Owns.size_le (hD : Owns sb D leak) (ht : (D.ino i).type ≠ 0) :
    (D.ino i).size ≤ MAXFILE * BSIZE := by
  by_contra hlt
  refine hD.hole i ht MAXFILE (by omega) (Disk.own_far ?_)
  norm_num [dataPos]

theorem Low.length_le (hlow : Low sb leak x D s) (hnode : D.node i = some nd) :
    nd.data.length ≤ MAXFILE * BSIZE := by
  rw [← (Disk.shows hnode).size]
  exact hlow.owns.size_le (Disk.type_of_node hnode)

theorem At.length_le (hat : At sb k i nd s) (hwf : Wf sb s) :
    nd.data.length ≤ MAXFILE * BSIZE := hwf.low.length_le hat.node

def Node.setDirent (nd : Node) (e : ℕ) (de : List UInt8) : Node :=
  { nd with data := splice nd.data (e * DESIZE) de }

theorem Node.dirent_setDirent (hde : de.length = DESIZE) (he : e * DESIZE ≤ nd.data.length)
    (e' : ℕ) : (nd.setDirent e de).dirent e' = if e' = e then de else nd.dirent e' := by
  have hlen : (nd.data.take (e * DESIZE)).length = e * DESIZE := by simp [he]
  split
  · grind [dirent, setDirent, splice]
  · rename_i hne
    refine ext_getElem? fun x => ?_
    by_cases hx : x < DESIZE
    · simp only [dirent, setDirent, getElem?_take_of_lt hx, getElem?_drop, splice,
        getElem?_append, length_append, hlen, hde]
      rcases Nat.lt_or_gt_of_ne hne with hlt | hlt
      · grind
      · grind
    · simp [dirent, hx]

section Wrote

variable {leak : Set ℕ} {src : Src} {off n w : ℕ} {bs : List UInt8} {D' : Disk} {s₁ : Fs}

theorem Wrote.ino (hw : Wrote sb leak k i s.view s src off n w bs D' s₁ s') (j : ℕ) :
    s'.view.ino j = if j = i then { s.view.ino i with
      size := max (s.view.ino i).size (off + w)
      addrs := (D'.ino i).addrs } else s.view.ino j := by
  rw [hw.view_eq]
  split
  · rename_i hj
    rw [hj, Disk.ino_setSize, hw.written.grows.ino_eq]
  · rename_i hj
    rw [D'.ino_setSize_ne hj, hw.written.grows.ino_ne j hj]

theorem Wrote.node (hw : Wrote sb leak k i s.view s src off n w bs D' s₁ s') (G : Geometry sb)
    (hlow : Low sb leak (some k) s.view s) (hnd : s.view.node i = some nd) (j : ℕ) :
    s'.view.node j = update s.view.node i (some { nd with data := s'.view.content i }) j := by
  have hino := hw.ino j
  by_cases hj : j = i
  · grind [Disk.node_of_type, Disk.type_of_node]
  · grind [Disk.node, hw.content_ne]

theorem Wrote.durable (hw : Wrote sb ∅ k i s.view s src off n w bs D' s₁ s') (hdur : Durable sb s)
    (hjunk : w < bs.length → (s.view.ino i).type ≠ T_DIR) : Durable sb s' := by
  have hown : ∀ j q, s'.view.own j q = D'.own j q := by grind [hw.view_eq, Disk.own_setSize]
  have htype : ∀ j, (s'.view.ino j).type = (s.view.ino j).type := by grind [hw.ino]
  intro a ha
  rcases hw.written.cache a with hsame | hmem | ⟨hlt, heq⟩
  · rcases hw.keep.cache a with hsame' | hmem
    · rw [hsame', hsame, hw.keep.disk, hw.written.frame.disk]
      rcases hdur a ha with hclean | hmem | ⟨hlo, hloose⟩
      · exact .inl hclean
      · exact .inr (.inl (hw.keep.lh a (hw.written.frame.lh a hmem)))
      · by_cases hlh : a ∈ s'.log.lh
        · exact .inr (.inl hlh)
        · refine .inr (.inr ⟨hlo, fun j q h0 hj => ?_⟩)
          rw [hown] at h0 hj
          have hold : s.view.own j q ≠ 0 := by
            grind [hw.keep.lh, hw.written.fresh, hw.written.grows.own_ne]
          rw [htype]
          exact hloose j q hold ((hw.written.grows.own j q hold).symm.trans hj)
    · exact .inr (.inl hmem)
  · exact .inr (.inl (hw.keep.lh a hmem))
  · have h0 : D'.own i (dataPos ((off + w) / BSIZE)) ≠ 0 :=
      hw.written.mapped _ (by omega) (by omega)
    refine .inr (.inr ⟨heq ▸ (hw.written.busy.low.owns.range _ _ h0).1, fun j q hj hja => ?_⟩)
    rw [hown] at hj hja
    obtain ⟨rfl, rfl⟩ := hw.written.busy.low.owns.inj _ _ _ _ h0 (heq ▸ hja.symm)
    exact ⟨dataPos_ne _, by rw [htype]; exact hjunk hlt⟩

theorem Wrote.change {data : List UInt8}
    (hw : Wrote sb ∅ k i s.view s src off n w bs D' s₁ s') (hwf : Wf sb s)
    (hst : St b h d l s.abs) (hat : At sb k i nd s)
    (hdata : s'.view.content i = data)
    (hdir : nd.type = T_DIR → ∀ e, Node.inum { nd with data := data } e < sb.ninodes)
    (hjunk : w < bs.length → nd.type ≠ T_DIR) :
    Wf sb s' ∧ St ((b.setNode i (some { nd with data := data })).setOwn i (D'.own i))
      h d l s'.abs := by
  have hown : ∀ j q, (D'.setSize i (max (s.view.ino i).size (off + w))).own j q = D'.own j q :=
    D'.own_setSize i _
  rw [← funext (hown i)]
  refine hwf.node_change hst (hw.written.frame.trans hw.keep.toFrame) hw.low (fun j => ?_)
    (fun j hj q => ?_) hdir (hw.durable hwf.durable fun hlt => ?_)
  · rw [← hdata, ← hw.view_eq]
    exact hw.node hwf.geo (hwf.low.exempt hat.alone) hat.node j
  · rw [hown, hw.written.grows.own_ne j hj]
  · rw [(Disk.shows hat.node).type]
    exact hjunk hlt

end Wrote

theorem Wrote.dirent {w : ℕ} {bs : List UInt8} {D' : Disk} {s₁ : Fs}
    (hw : Wrote sb leak k i s.view s (.kernel de) (e * DESIZE) DESIZE w bs D' s₁ s')
    (hlow : Low sb leak none s.view s) (hnode : s.view.node i = some nd)
    (he : e * DESIZE ≤ nd.data.length) (hde : de.length = DESIZE) :
    w = DESIZE ∧ bs = de ∧ s'.view.content i = (nd.setDirent e de).data ∨
      w = 0 ∧ bs = [] ∧ s'.view.content i = nd.data := by
  have hle := hw.written.le
  have hle_n := hw.written.le_n
  have hsize := (Disk.shows hnode).size
  have hfull : bs.length = w := by
    refine le_antisymm (not_lt.mp fun hlt => ?_) hle
    exact absurd (hw.written.fault hlt).1 (by simp [Src.byte])
  have hcontent := hw.content hlow.owns (hsize ▸ he) (Disk.type_of_node hnode) (by omega)
  rw [Disk.content_of_node hnode, ← hfull, take_length] at hcontent
  by_cases hw16 : w = DESIZE
  · have hbs : bs = de := by
      refine ext_getElem (by omega) fun x hx hx' => ?_
      have hx16 := hw.written.copied x hx
      rw [getD_eq_getElem _ _ hx, Src.byte, getD_eq_getElem _ _ hx'] at hx16
      exact (Option.some.inj hx16).symm
    exact .inl ⟨hw16, hbs, hbs ▸ hcontent⟩
  · have hzero : w = 0 := by
      rcases hw.written.edge (by omega) with h0 | hedge
      · exact h0
      · norm_num at hedge hw16 hle_n
        omega
    obtain rfl : bs = [] := length_eq_zero_iff.mp (by omega)
    rw [splice_nil] at hcontent
    exact .inr ⟨hzero, rfl, hcontent⟩

/-- An inode has the same blocks as before, or an indirect block more. -/
def Padded (o o' : ℕ → ℕ) : Prop := ∀ p, o' p = o p ∨ p = NDIRECT ∧ o p = 0

theorem writei_dirent (hE : Admits E) (hph : b.phase = some true) (hk : Locked b h d l k i nd)
    (he : e * DESIZE ≤ nd.data.length) (hde : de.length = DESIZE)
    (hi : direntInum de < sb.ninodes) :
    Spec sb E (St b h d l) (writei k (.kernel de) (e * DESIZE) DESIZE) fun r g =>
      ∃ o : ℕ → ℕ,
        r = DESIZE ∧ St ((b.setNode i (some (nd.setDirent e de))).setOwn i o) h d l g ∨
          r ≠ DESIZE ∧ Padded (b.own i) o ∧ St (b.setOwn i o) h d l g := by
  intro s hwf hst
  have hat := hk.at hwf hst
  have hbusy := hat.busy hwf (hst.phase.trans hph)
  have hlen := hat.length_le hwf
  have hoff : e * DESIZE < 2 ^ 32 := by
    norm_num at he hlen ⊢
    omega
  refine (writei_spec hwf.geo hE.log hbusy hat.lt hoff (by norm_num)).mono ?_
  rintro r s' (⟨-, rfl, rfl⟩ | ⟨-, w, bs, D', s₁, rfl, hw⟩)
  · refine ⟨hwf, b.own i, .inr ⟨by norm_num, fun _ => .inl rfl, ?_⟩⟩
    rw [Abs.setOwn_self rfl]
    exact hst
  have hstop := hw.written.stop
  have honly := hw.written.only
  rcases hw.dirent hwf.low hat.node he hde with ⟨rfl, rfl, hcontent⟩ | ⟨rfl, rfl, hcontent⟩
  · have hrange : nd.type = T_DIR → ∀ e', (nd.setDirent e bs).inum e' < sb.ninodes := by
      intro hdir e'
      rw [Node.inum, Node.dirent_setDirent hde he]
      split
      · exact hi
      · exact hwf.dirs i nd hat.node hdir e'
    obtain ⟨hwf', hst'⟩ := hw.change hwf hst hat hcontent hrange (by omega)
    exact ⟨hwf', _, .inl ⟨rfl, hst'⟩⟩
  · obtain ⟨hwf', hst'⟩ := hw.change hwf hst hat hcontent (hwf.dirs i nd hat.node) (by simp)
    rw [Abs.setNode_self hk.node] at hst'
    refine ⟨hwf', _, .inr ⟨by norm_num, fun p => ?_, hst'⟩⟩
    have hold : s.view.own i p = b.own i p := congrFun (congrFun hst.blocks i) p
    rw [← hold]
    by_cases hp : D'.own i p = s.view.own i p
    · exact .inl hp
    have hnew : s.view.own i p = 0 := by
      by_contra h0
      exact hp (hw.written.grows.own i p h0)
    refine .inr ⟨by_contra fun hind => hp (honly p hind fun x hlo hhi hx => ?_), hnew⟩
    -- the block of the entry was not mapped
    obtain rfl : x = e * DESIZE := by omega
    have hzero := (hstop (by norm_num)).resolve_left (by simp [Src.byte])
    rw [Nat.add_zero, ← hx] at hzero
    exact hp (hzero.trans hnew.symm)

theorem itrunc_node (hE : Admits E) (hph : b.phase = some true) (hk : Locked b h d l k i nd) :
    Spec sb E (St b h d l) (itrunc k) fun _ =>
      St ((b.setNode i (some { nd with data := [] })).setOwn i 0) h d l := by
  intro s hwf hst
  have hat := hk.at hwf hst
  refine (itrunc_spec hwf.geo hE.log (hat.busy hwf (hst.phase.trans hph)) hat.lt).mono ?_
  rintro _ s' ⟨hkeep, -, D', hino, hblk, hlow⟩
  have hshow := Disk.shows hat.node
  have hne : ∀ j, j ≠ i → D'.ino j = s.view.ino j := fun j hj => by
    rw [hino, update_of_ne hj]
  have hself : D'.ino i = (s.view.ino i).emptied := by rw [hino, update_self]
  have hown : ∀ j, j ≠ i → ∀ q, D'.own j q = s.view.own j q := fun j hj =>
    Disk.own_congr (hne j hj) fun _ => by rw [hblk]
  have hzero : D'.own i = 0 := by
    funext q
    simp [Disk.own, hself, Dinode.emptied]
  rw [← hzero]
  refine hwf.node_change hst hkeep.toFrame hlow (fun j => ?_) hown (fun _ e => ?_) ?_
  · by_cases hj : j = i
    · subst hj
      rw [update_self, Disk.node_of_type (by rw [hself]; exact Disk.type_of_node hat.node),
        hself]
      simp [Dinode.emptied, hshow.type, hshow.major, hshow.minor, hshow.nlink, Disk.content,
        Disk.bytes, hself]
    · grind [Disk.node_congr, Disk.byte_eq]
  · rw [Node.inum_of_nil rfl]
    exact (Nat.zero_le i).trans_lt hat.lt
  · refine hwf.durable.keep hkeep fun j q hq _ => ?_
    rw [hlow.view_eq] at hq ⊢
    have hj : j ≠ i := by
      rintro rfl
      exact hq (congrFun hzero q)
    rw [hown j hj, hne j hj]
    exact ⟨rfl, id⟩

end Xv6
