import Xv6.Fs.Path

/-!
Directories as finite maps.

`Node.bound` is the inode number that a directory binds a name to. `dirlookup` reads the
map, `dirlink` adds a binding and `sys_unlink` erases one; that no two entries in use have
the same name is what each of them keeps.

The inode numbers are any numbers here, so the invariant of the table and the blocks is
weaker than `Wf`: an entry may be for an inode that does not exist.
-/

namespace Xv6

open List
open Function (update update_self update_of_ne)

variable {ip j : ℕ}

/-! ### The map of a directory -/

namespace Node

/-- The size is a number of entries, and the entries in use have different names. -/
structure IsMap (nd : Node) : Prop where
  size : DESIZE ∣ nd.data.length
  inj : ∀ e e', nd.inum e ≠ 0 → nd.inum e' ≠ 0 → nd.name e = nd.name e' → e = e'

/-- The inode number that the name is bound to, 0 if it is not. -/
def bound (nd : Node) (name : Name) : ℕ := (nd.lookup name).elim 0 nd.inum

variable {nd : Node} {name : Name} {e : ℕ}

theorem lt_of_inum (hsize : DESIZE ∣ nd.data.length) (h : nd.inum e ≠ 0) :
    (e + 1) * DESIZE ≤ nd.data.length :=
  fits hsize (not_le.mp fun hge => h (inum_of_le hge))

theorem IsMap.lookup_eq (h : nd.IsMap) (hm : nd.Matches name e) : nd.lookup name = some e := by
  refine lookup_eq_some.mpr ⟨lt_entries (lt_of_inum h.size hm.1), hm, fun e' he' hm' => ?_⟩
  exact he'.ne (h.inj e' e hm'.1 hm.1 (hm'.2.trans hm.2.symm))

theorem IsMap.bound_eq (h : nd.IsMap) (hm : nd.Matches name e) : nd.bound name = nd.inum e := by
  rw [bound, h.lookup_eq hm]
  rfl

theorem bound_eq_zero : nd.bound name = 0 ↔ nd.lookup name = none := by
  unfold bound
  cases hl : nd.lookup name with
  | none => simp
  | some e => simpa using (lookup_eq_some.mp hl).2.1.1

theorem IsMap.bound_eq_zero (h : nd.IsMap) : nd.bound name = 0 ↔ ∀ e, ¬nd.Matches name e := by
  rw [Node.bound_eq_zero, lookup_eq_none]
  exact ⟨fun hno e hm => hno e (lt_entries (lt_of_inum h.size hm.1)) hm, fun hno e _ => hno e⟩

theorem IsMap.bound_congr {nd' : Node} (h : nd.IsMap) (h' : nd'.IsMap)
    (hm : ∀ e, nd'.Matches name e ↔ nd.Matches name e)
    (hi : ∀ e, nd.Matches name e → nd'.inum e = nd.inum e) : nd'.bound name = nd.bound name := by
  by_cases hex : ∃ e, nd.Matches name e
  · grind [h.bound_eq, h'.bound_eq]
  · grind [h.bound_eq_zero.mpr, h'.bound_eq_zero.mpr]

/-! ### One entry overwritten -/

section setDirent

variable {de : List UInt8}

section

variable (hde : de.length = DESIZE) (he : e * DESIZE ≤ nd.data.length)
include hde he

theorem inum_setDirent (e' : ℕ) :
    (nd.setDirent e de).inum e' = if e' = e then direntInum de else nd.inum e' := by
  rw [inum, dirent_setDirent hde he, inum]
  split <;> rfl

theorem name_setDirent (e' : ℕ) :
    (nd.setDirent e de).name e' = if e' = e then cname (direntName de) else nd.name e' := by
  rw [Node.name, dirent_setDirent hde he, Node.name]
  split <;> rfl

theorem dvd_setDirent (hsize : DESIZE ∣ nd.data.length) :
    DESIZE ∣ (nd.setDirent e de).data.length := by
  rw [setDirent, length_splice he, hde]
  rcases max_choice nd.data.length (e * DESIZE + DESIZE) with hmax | hmax
  · rwa [hmax]
  · rw [hmax]
    exact ⟨e + 1, by ring⟩

theorem matches_setDirent (m : List UInt8) (e' : ℕ) : (nd.setDirent e de).Matches m e' ↔
      if e' = e then direntInum de ≠ 0 ∧ cname (direntName de) = cname m
      else nd.Matches m e' := by
  rw [Matches, inum_setDirent hde he, name_setDirent hde he, Matches]
  split <;> rfl

end

theorem IsMap.setDirent (h : nd.IsMap) (hde : de.length = DESIZE) (he : e * DESIZE ≤ nd.data.length)
    (hnew : direntInum de ≠ 0 → ∀ e', e' ≠ e → nd.inum e' ≠ 0 →
      nd.name e' ≠ cname (direntName de)) : (nd.setDirent e de).IsMap where
  size := dvd_setDirent hde he h.size
  inj a b := by
    rw [inum_setDirent hde he, inum_setDirent hde he, name_setDirent hde he, name_setDirent hde he]
    by_cases ha : a = e <;> by_cases hb : b = e
    · exact fun _ _ _ => ha.trans hb.symm
    · grind
    · grind
    · rw [if_neg ha, if_neg hb, if_neg ha, if_neg hb]
      exact h.inj a b

theorem IsMap.link (h : nd.IsMap) (hno : nd.bound name = 0) (he : e * DESIZE ≤ nd.data.length)
    (hfree : nd.inum e = 0) (j : ℕ) :
    (nd.setDirent e (direntBytes j name)).IsMap ∧
      ∀ m, (nd.setDirent e (direntBytes j name)).bound m =
        if cname m = cname name then j % 2 ^ 16 else nd.bound m := by
  have hde := length_direntBytes j name
  have hinum := direntInum_direntBytes_mod j name
  have hname := cname_direntBytes j name
  have hno' := h.bound_eq_zero.mp hno
  have hmap : (nd.setDirent e (direntBytes j name)).IsMap := by
    refine h.setDirent hde he fun _ e' _ h0 heq => hno' e' ⟨h0, ?_⟩
    rw [heq, hname]
  refine ⟨hmap, fun m => ?_⟩
  have hmatch := matches_setDirent hde he m
  simp only [hinum, hname] at hmatch
  by_cases hm : cname m = cname name
  · rw [if_pos hm]
    by_cases hj0 : j % 2 ^ 16 = 0
    · refine (hmap.bound_eq_zero.mpr fun e' => ?_).trans hj0.symm
      rw [hmatch]
      split_ifs
      · exact fun hc => hc.1 hj0
      · exact fun hc => hno' e' ⟨hc.1, hc.2.trans hm⟩
    · have hself := (hmatch e).mpr (by rw [if_pos rfl]; exact ⟨hj0, hm.symm⟩)
      rw [hmap.bound_eq hself, inum_setDirent hde he, if_pos rfl, hinum]
  · rw [if_neg hm]
    refine h.bound_congr hmap (fun e' => ?_) fun e' hold => ?_
    · rw [hmatch]
      split_ifs with heq
      · exact iff_of_false (fun hc => hm hc.2.symm) fun hc => hc.1 (heq ▸ hfree)
      · rfl
    · rw [inum_setDirent hde he, if_neg]
      rintro rfl
      exact hold.1 hfree

theorem IsMap.erase (h : nd.IsMap) (hm : nd.Matches name e) :
    (nd.setDirent e (replicate DESIZE 0)).IsMap ∧
      ∀ m, (nd.setDirent e (replicate DESIZE 0)).bound m =
        if cname m = cname name then 0 else nd.bound m := by
  have hde : (replicate DESIZE (0 : UInt8)).length = DESIZE := length_replicate
  have hle := lt_of_inum h.size hm.1
  have he := (Nat.mul_le_mul_right _ (Nat.le_succ e)).trans hle
  have hmap := h.setDirent hde he fun h0 => absurd direntInum_zeros h0
  refine ⟨hmap, fun m' => ?_⟩
  have hmatch := matches_setDirent hde he m'
  simp only [direntInum_zeros, ne_eq, not_true_eq_false, false_and] at hmatch
  by_cases hname : cname m' = cname name
  · rw [if_pos hname, hmap.bound_eq_zero]
    intro e'
    rw [hmatch]
    split_ifs with heq
    · exact not_false
    · exact fun hc => heq (h.inj e' e hc.1 hm.1 (hc.2.trans (hname.trans hm.2.symm)))
  · rw [if_neg hname]
    have hne : ∀ {e'}, nd.Matches m' e' → e' ≠ e := by
      rintro e' hc rfl
      exact hname (hc.2.symm.trans hm.2)
    refine h.bound_congr hmap (fun e' => ?_) fun e' hold => ?_
    · grind
    · rw [inum_setDirent hde he, if_neg (hne hold)]

end setDirent

end Node

/-! ### The state -/

variable {sb : Superblock} {s s' : Fs} {dp i : ℕ} {nd : Node} {name : Name} {E : Stop → Prop}

structure Sound (sb : Superblock) (s : Fs) : Prop where
  geo : Geometry sb
  low : ∃ leak, Low sb leak none s.view s
  ref : ∀ k, 0 ≤ (s.itable k).ref
  lt : ∀ k, 0 < (s.itable k).ref → k < NINODE
  dev : ∀ k, 0 < (s.itable k).ref → (s.itable k).dev = ROOTDEV
  uniq : ∀ k k', 0 < (s.itable k).ref → 0 < (s.itable k').ref →
    (s.itable k).inum = (s.itable k').inum → k = k'

structure InDir (sb : Superblock) (s : Fs) (dp i : ℕ) (nd : Node) : Prop where
  ref : 0 < (s.itable dp).ref
  inum : (s.itable dp).inum = i
  lt : i < sb.ninodes
  valid : (s.itable dp).valid = true
  node : s.view.node i = some nd
  type : nd.type = T_DIR

theorem Sound.sync (h : Sound sb s) {k : ℕ} (hr : 0 < (s.itable k).ref)
    (hv : (s.itable k).valid = true) : (s.itable k).d = s.view.ino (s.itable k).inum := by
  obtain ⟨leak, hlow⟩ := h.low
  exact hlow.sync k (by simp) hr hv

theorem InDir.at (hd : InDir sb s dp i nd) (h : Sound sb s) : At sb dp i nd s where
  ref := hd.ref
  inum := hd.inum
  lt := hd.lt
  valid := hd.valid
  copy := hd.inum ▸ h.sync hd.ref hd.valid
  node := hd.node
  alone j hj hr heq := hj (h.uniq j dp hr hd.ref heq)

theorem Sound.setEntry (h : Sound sb s) {k : ℕ} {e : Inode} (href : 0 ≤ e.ref)
    (hlt : 0 < e.ref → k < NINODE) (hdev : 0 < e.ref → e.dev = ROOTDEV)
    (huniq : 0 < e.ref → ∀ j, j ≠ k → 0 < (s.itable j).ref → (s.itable j).inum ≠ e.inum)
    (hsync : 0 < e.ref → e.valid = true → e.d = s.view.ino e.inum) : Sound sb (s.setEntry k e) := by
  have hcase : ∀ {p : ℕ → Inode → Prop}, p k e → (∀ j, p j (s.itable j)) →
      ∀ j, p j ((s.setEntry k e).itable j) := by
    grind [Fs.itable_setEntry_self, s.itable_setEntry_ne]
  obtain ⟨leak, hlow⟩ := h.low
  refine ⟨h.geo, ⟨leak, hlow.setEntry hsync⟩, hcase (p := fun _ e => 0 ≤ e.ref) href h.ref,
    hcase (p := fun k e => 0 < e.ref → k < NINODE) hlt h.lt,
    hcase (p := fun _ e => 0 < e.ref → e.dev = ROOTDEV) hdev h.dev, fun a b => ?_⟩
  rcases eq_or_ne a k with rfl | ha <;> rcases eq_or_ne b a with rfl | hab
  · exact fun _ _ _ => rfl
  · grind [Fs.itable_setEntry_self, s.itable_setEntry_ne]
  · exact fun _ _ _ => rfl
  · grind [s.itable_setEntry_ne, Fs.itable_setEntry_self, h.uniq]

theorem Sound.trace (h : Sound sb s) {tr : List Event} (htr : phase tr = phase s.trace) :
    Sound sb { s with trace := tr } :=
  ⟨h.geo, h.low.imp fun _ hlow => hlow.trace htr, h.ref, h.lt, h.dev, h.uniq⟩

/-- What `iget` of inode `j` leaves: one more reference to its entry, or an entry
that was empty. -/
inductive Got (s : Fs) (j ip : ℕ) : Fs → Prop
  | hit (href : 0 < (s.itable ip).ref) (hinum : (s.itable ip).inum = j) :
      Got s j ip (s.setEntry ip { s.itable ip with ref := (s.itable ip).ref + 1 })
  | new (hlt : ip < NINODE) (href : (s.itable ip).ref = 0)
      (hno : ∀ k, 0 < (s.itable k).ref → (s.itable k).inum ≠ j) :
      Got s j ip (s.setEntry ip
        { s.itable ip with dev := ROOTDEV, inum := j, ref := 1, valid := false })

/-- `iget` finds an entry, unless the table is full. -/
theorem iget_got (h : Sound sb s) (j : ℕ)
    (hE : (∀ k < NINODE, (s.itable k).ref ≠ 0) → E (.panic .igetNoInodes)) :
    wp E (iget ROOTDEV j) (fun ip s' => Got s j ip s') s := by
  unfold iget
  simp only [wp_bind, wp_get]
  split
  · rename_i ip hscan
    obtain ⟨href, -, hinum⟩ := igetScan_inl hscan
    exact Got.hit href hinum
  · rename_i hscan
    exact hE fun k hk => (igetScan_none hscan).2 k (Nat.zero_le k) (by omega)
  · rename_i ip hscan
    obtain ⟨hno, hempty⟩ := igetScan_inr hscan
    obtain ⟨hlt, hfree⟩ : ip < NINODE ∧ (s.itable ip).ref = 0 := by grind
    exact Got.new hlt hfree fun k hr => hno k (Nat.zero_le k) (by have := h.lt k hr; omega) hr
      (h.dev k hr)

theorem Got.view (hg : Got s j ip s') : s'.view = s.view := by
  cases hg with
  | hit | new => rfl

theorem Got.trace (hg : Got s j ip s') : s'.trace = s.trace := by
  cases hg with
  | hit | new => rfl

theorem Got.inum (hg : Got s j ip s') : (s'.itable ip).inum = j := by
  cases hg with
  | hit href hinum => rwa [Fs.itable_setEntry_self]
  | new => rw [Fs.itable_setEntry_self]

theorem Got.sound (hg : Got s j ip s') (h : Sound sb s) : Sound sb s' := by
  cases hg with
  | hit href hinum =>
    refine h.setEntry ?_ (fun _ => h.lt ip href) (fun _ => h.dev ip href)
      (fun _ k hk hr heq => hk (h.uniq k ip hr href heq))
      fun _ hv => h.sync href hv
    show 0 ≤ (s.itable ip).ref + 1
    omega
  | new hlt href hno => grind [h.setEntry]

theorem Got.inDir (hg : Got s j ip s') (hd : InDir sb s dp i nd) : InDir sb s' dp i nd := by
  have hent : 0 < (s'.itable dp).ref ∧ (s'.itable dp).inum = (s.itable dp).inum ∧
      (s'.itable dp).valid = (s.itable dp).valid := by
    have href := hd.ref
    cases hg with
    | hit => grind [Fs.itable_setEntry_self, s.itable_setEntry_ne]
    | new _ hfree => grind [s.itable_setEntry_ne]
  exact ⟨hent.1, hent.2.1.trans hd.inum, hd.lt, hent.2.2.trans hd.valid, hg.view ▸ hd.node, hd.type⟩

theorem Got.iput (hg : Got s j ip s') (h : Sound sb s) (hph : phase s.trace = some true) :
    wp E (iput ip) (fun _ s'' => Sound sb s'' ∧ s''.view = s.view) s' := by
  have hs' := hg.sound h
  have hkeep : ¬((s'.itable ip).ref = 1 ∧ (s'.itable ip).valid = true ∧
      (s'.itable ip).d.nlink = 0) := by
    rintro ⟨hr, hv, -⟩
    cases hg with
    | hit href => grind [Fs.itable_setEntry_self]
    | new =>
      rw [Fs.itable_setEntry_self] at hv
      cases hv
  have hpos : 0 < (s'.itable ip).ref := by
    cases hg with
    | hit href => grind [Fs.itable_setEntry_self]
    | new =>
      rw [Fs.itable_setEntry_self]
      exact Int.one_pos
  unfold Xv6.iput
  simp only [wp_bind, wp_emit, wp_inode]
  rw [if_neg hkeep, wp_modifyInode]
  have htr : phase (s'.trace ++ [.iput]) = phase s'.trace := by simp [hg.trace, hph, phaseStep]
  refine ⟨(hs'.trace htr).setEntry ?_ (fun _ => hs'.lt ip hpos) (fun _ => hs'.dev ip hpos)
    (fun _ k hk hr heq => hk (hs'.uniq k ip hr hpos heq))
    fun _ hv => hs'.sync hpos hv, hg.view⟩
  show 0 ≤ (s'.itable ip).ref - 1
  omega

/-! ### Looking a name up -/

theorem dirlookup_bound (h : Sound sb s) (hd : InDir sb s dp i nd) (hmap : nd.IsMap)
    (hE : (∀ k < NINODE, (s.itable k).ref ≠ 0) → E (.panic .igetNoInodes)) :
    wp E (dirlookup dp name) (fun r s' =>
      r = none ∧ nd.bound name = 0 ∧ s' = s ∨
      ∃ ip e, r = some (ip, e * DESIZE) ∧ nd.bound name ≠ 0 ∧ nd.Matches name e ∧
        Got s (nd.bound name) ip s') s := by
  obtain ⟨leak, hlow⟩ := h.low
  refine (hd.at h).dirlookup hlow hd.type (.inr hmap.size)
    (fun hnone => .inl ⟨rfl, Node.bound_eq_zero.mpr hnone, rfl⟩) fun e he => ?_
  rw [h.dev dp hd.ref]
  have hm := (Node.lookup_eq_some.mp he).2.1
  refine (iget_got h _ hE).mono fun ip s' hg => .inr ⟨ip, e, rfl, ?_, hm, ?_⟩
  · rw [hmap.bound_eq hm]
    exact hm.1
  · rwa [hmap.bound_eq hm]

/-! ### Changing an entry -/

theorem Sound.frame (h : Sound sb s) {x : Option ℕ} (hframe : Frame x s s')
    (hlow : ∃ leak, Low sb leak none s'.view s') : Sound sb s' where
  geo := h.geo
  low := hlow
  ref k := hframe.ref k ▸ h.ref k
  lt k hr := h.lt k (hframe.ref k ▸ hr)
  dev k hr := (congrArg Ent.dev (hframe.ent k)).trans (h.dev k (hframe.ref k ▸ hr))
  uniq k k' hr hr' heq := by
    rw [hframe.ref] at hr hr'
    rw [hframe.inum, hframe.inum] at heq
    exact h.uniq k k' hr hr' heq

theorem writei_entry (h : Sound sb s) (hd : InDir sb s dp i nd) (hph : phase s.trace = some true)
    {e : ℕ} {de : List UInt8} (he : e * DESIZE ≤ nd.data.length) (hde : de.length = DESIZE) :
    wp LogFull (writei dp (.kernel de) (e * DESIZE) DESIZE) (fun r s' => Sound sb s' ∧
      (r = DESIZE ∧ s'.view.node = update s.view.node i (some (nd.setDirent e de)) ∨
        r ≠ DESIZE ∧ nd.data.length < (e + 1) * DESIZE ∧ s'.view.node = s.view.node)) s := by
  obtain ⟨leak, hlow⟩ := h.low
  have hat := hd.at h
  have hlen := hlow.length_le hat.node
  have hsize := (Disk.shows hat.node).size
  have htype := Disk.type_of_node hat.node
  have hexempt := hlow.exempt hat.alone
  have hbusy : Busy sb leak dp i s.view s := ⟨hexempt, hph, hat.inum, hat.copy, htype⟩
  have hoff : e * DESIZE < 2 ^ 32 := by
    norm_num at he hlen ⊢
    omega
  refine (writei_spec h.geo (fun _ he => he) hbusy hat.lt hoff
    (show DESIZE < 2 ^ 32 by norm_num)).mono ?_
  rintro r s' (⟨hrej, rfl, rfl⟩ | ⟨-, w, bs, D', s₁, rfl, hw⟩)
  · grind [Disk.writeRejected, uint]
  have hlow' : Low sb leak none s'.view s' := by
    rw [hw.view_eq]
    exact hw.low
  have hs' := h.frame (hw.written.frame.trans hw.keep.toFrame) ⟨leak, hlow'⟩
  have hnode := hw.node h.geo hexempt hat.node
  refine ⟨hs', ?_⟩
  rcases hw.dirent hlow hat.node he hde with ⟨rfl, rfl, hcontent⟩ | ⟨rfl, rfl, hcontent⟩
  · refine .inl ⟨rfl, funext fun j => ?_⟩
    rw [hnode j, hcontent]
    rfl
  · refine .inr ⟨by norm_num, ?_, funext fun j => ?_⟩
    · rw [Nat.succ_mul]
      by_contra hge
      have hmap := hlow.owns.hole i htype (e * DESIZE / BSIZE) (by
        have := Nat.div_mul_le_self (e * DESIZE) BSIZE
        have : 0 < DESIZE := by decide
        omega)
      rcases hw.written.stop (by norm_num) with hbyte | hzero
      · grind [Src.byte]
      · exact hw.written.grows.own_ne_zero hmap hzero
    · rw [hnode j, hcontent]
      exact congrFun (Function.update_eq_self_iff.mpr hat.node.symm) j

theorem Node.inum_slot (hsize : DESIZE ∣ nd.data.length) : nd.inum nd.slot = 0 := by
  unfold Node.slot
  cases hfind : (range nd.entries).find? fun e => nd.inum e = 0 with
  | none => grind [Node.inum_of_le, Node.entries]
  | some e => simpa using find?_some hfind

/-- The map of directory `i` is changed to `f`, and no other inode is. -/
def Remapped (s : Fs) (i : ℕ) (f : Name → ℕ) (s' : Fs) : Prop :=
  ∃ nd', s'.view.node = update s.view.node i (some nd') ∧ nd'.type = T_DIR ∧ nd'.IsMap ∧
    nd'.bound = f

/-- `dirlink` adds the binding if the name has none. -/
theorem dirlink_bound (h : Sound sb s) (hd : InDir sb s dp i nd) (hmap : nd.IsMap)
    (hph : phase s.trace = some true) (j : ℕ) :
    wp (fun e => LogFull e ∨ e = .panic .igetNoInodes ∧ ∀ k < NINODE, (s.itable k).ref ≠ 0)
      (dirlink dp name j) (fun r s' => Sound sb s' ∧
        (r = 0 ∧ nd.bound name = 0 ∧
          Remapped s i (fun m => if cname m = cname name then j % 2 ^ 16 else nd.bound m) s' ∨
        r = -1 ∧ s'.view.node = s.view.node)) s := by
  refine wp.bind (dirlookup_bound h hd hmap fun hfull => .inr ⟨rfl, hfull⟩) ?_
  rintro _ s₁ (⟨rfl, hzero, rfl⟩ | ⟨ip, e, rfl, -, -, hg⟩)
  · obtain ⟨leak, hlow⟩ := h.low
    have hfit := (Nat.mul_le_mul_right DESIZE nd.slot_le).trans nd.entries_mul_le
    rw [wp_bind, wp_inode]
    refine wp.bind ((hd.at h).dirlinkLoop hlow (.inr hmap.size)) ?_
    rintro off s₂ ⟨hs₂, rfl⟩
    rw [hs₂]
    refine wp.bind
      ((writei_entry h hd hph hfit (length_direntBytes j name)).mono_stop fun _ => .inl) ?_
    rintro r s' ⟨hs', ⟨rfl, hnode⟩ | ⟨hr, -, hnode⟩⟩
    · obtain ⟨hmap', hbound⟩ := hmap.link hzero hfit (Node.inum_slot hmap.size) j
      exact ⟨hs', .inl ⟨if_neg (not_not.mpr rfl), hzero, _, hnode, hd.type, hmap', funext hbound⟩⟩
    · exact ⟨hs', .inr ⟨if_pos hr, hnode⟩⟩
  · refine wp.bind (hg.iput h hph) ?_
    rintro _ s' ⟨hs', hview⟩
    exact ⟨hs', .inr ⟨rfl, congrArg Disk.node hview⟩⟩

def eraseEntry (dp off : ℕ) : M Unit := do
  if (← writei dp (.kernel (replicate DESIZE 0)) off DESIZE) ≠ DESIZE then
    throw (.panic .unlinkWritei)

theorem eraseEntry_bound (h : Sound sb s) (hd : InDir sb s dp i nd) (hmap : nd.IsMap)
    (hph : phase s.trace = some true) {e : ℕ} (hm : nd.Matches name e) :
    wp LogFull (eraseEntry dp (e * DESIZE)) (fun _ s' => Sound sb s' ∧
      Remapped s i (fun m => if cname m = cname name then 0 else nd.bound m) s') s := by
  have hfit := Node.lt_of_inum hmap.size hm.1
  refine wp.bind (writei_entry h hd hph ?_ length_replicate) ?_
  · rw [Nat.succ_mul] at hfit
    omega
  · rintro r s' ⟨hs', ⟨rfl, hnode⟩ | ⟨-, hlt, -⟩⟩
    · obtain ⟨hmap', hbound⟩ := hmap.erase hm
      exact ⟨hs', _, hnode, hd.type, hmap', funext hbound⟩
    · exact absurd hfit (not_le.mpr hlt)

/-! ### Runs -/

/-- One step: `dirlink`, the erasure of an entry that `dirlookup` found, or anything
that leaves the inodes as they are. -/
inductive DirStep (sb : Superblock) (s : Fs) : Fs → Prop
  | link {dp i : ℕ} {nd : Node} (name : Name) (j : ℕ) {r : ℤ} {s' : Fs}
      (hd : InDir sb s dp i nd) (hph : phase s.trace = some true)
      (hrun : (dirlink dp name j).run s = .ok (r, s')) : DirStep sb s s'
  | erase {dp i : ℕ} {nd : Node} (name : Name) {ip off : ℕ} {s₁ s' : Fs}
      (hd : InDir sb s dp i nd) (hph : phase s.trace = some true)
      (hfound : (dirlookup dp name).run s = .ok (some (ip, off), s₁))
      (hrun : (eraseEntry dp off).run s₁ = .ok ((), s')) : DirStep sb s s'
  | other {s' : Fs} (hsound : Sound sb s') (hnode : s'.view.node = s.view.node) : DirStep sb s s'

def Maps (s : Fs) : Prop := ∀ i nd, s.view.node i = some nd → nd.type = T_DIR → nd.IsMap

theorem Maps.remapped (h : Maps s) {f : Name → ℕ} (hr : Remapped s i f s') : Maps s' := by
  obtain ⟨nd', hnode, -, hmap, -⟩ := hr
  intro k nd hk ht
  rw [hnode] at hk
  rcases eq_or_ne k i with rfl | hne
  · rw [update_self] at hk
    exact Option.some.inj hk ▸ hmap
  · rw [update_of_ne hne] at hk
    exact h k nd hk ht

theorem Maps.congr (h : Maps s) (hnode : s'.view.node = s.view.node) : Maps s' := by
  intro k nd hk
  rw [hnode] at hk
  exact h k nd hk

theorem DirStep.keeps (hstep : DirStep sb s s') (h : Sound sb s) (hmaps : Maps s) :
    Sound sb s' ∧ Maps s' := by
  cases hstep with
  | link name j hd hph hrun =>
    have hmap := hmaps _ _ hd.node hd.type
    obtain ⟨hs', ⟨-, -, hr⟩ | ⟨-, hnode⟩⟩ := (dirlink_bound h hd hmap hph j).ok hrun
    · exact ⟨hs', hmaps.remapped hr⟩
    · exact ⟨hs', hmaps.congr hnode⟩
  | erase name hd hph hfound hrun =>
    have hmap := hmaps _ _ hd.node hd.type
    have hlook : wp (fun _ => True) (dirlookup _ name) _ _ :=
      dirlookup_bound h hd hmap fun _ => trivial
    obtain ⟨hnone, -⟩ | ⟨ip, e, heq, -, hm, hg⟩ := hlook.ok hfound
    · cases hnone
    · cases heq
      have hmaps₁ : Maps _ := hmaps.congr (congrArg Disk.node hg.view)
      obtain ⟨hs', hr⟩ := (eraseEntry_bound (hg.sound h) (hg.inDir hd) hmap
        (hg.trace.symm ▸ hph) hm).ok hrun
      exact ⟨hs', hmaps₁.remapped hr⟩
  | other hsound hnode => exact ⟨hsound, hmaps.congr hnode⟩

theorem run_keeps {s₀ : Fs} (h : Sound sb s₀) (hmaps : Maps s₀)
    (hrun : Relation.ReflTransGen (DirStep sb) s₀ s) : Sound sb s ∧ Maps s := by
  induction hrun with
  | refl => exact ⟨h, hmaps⟩
  | tail _ hstep ih => exact hstep.keeps ih.1 ih.2

/-- Directories are finite maps. Along every run the size of a directory is a number
of entries and its entries in use have different names; `dirlookup` finds what the
name is bound to; `dirlink` adds one binding or changes nothing; and the erasure of
the entry that `dirlookup` found removes its binding. -/
theorem directories_are_maps {s₀ : Fs} (h₀ : Sound sb s₀) (hmaps₀ : Maps s₀)
    (hrun : Relation.ReflTransGen (DirStep sb) s₀ s) :
    (∀ i nd, s.view.node i = some nd → nd.type = T_DIR → DESIZE ∣ (s.view.ino i).size ∧
      ∀ e e', nd.inum e ≠ 0 → nd.inum e' ≠ 0 → nd.name e = nd.name e' → e = e') ∧
    ∀ dp i nd, InDir sb s dp i nd → ∀ name : Name,
      (wp (fun e => e = .panic .igetNoInodes ∧ ∀ k < NINODE, (s.itable k).ref ≠ 0)
        (dirlookup dp name) (fun r s' => s'.view = s.view ∧
          (r = none ∧ nd.bound name = 0 ∨
            ∃ ip off, r = some (ip, off) ∧ nd.bound name ≠ 0 ∧
              (s'.itable ip).inum = nd.bound name)) s) ∧
      (phase s.trace = some true →
        (∀ j < 65536,
          wp (fun e => LogFull e ∨ e = .panic .igetNoInodes ∧ ∀ k < NINODE, (s.itable k).ref ≠ 0)
            (dirlink dp name j) (fun r s' =>
              r = 0 ∧ nd.bound name = 0 ∧
                Remapped s i (fun m => if cname m = cname name then j else nd.bound m) s' ∨
              r = -1 ∧ s'.view.node = s.view.node) s) ∧
        ∀ ip off s₁, (dirlookup dp name).run s = .ok (some (ip, off), s₁) →
          wp LogFull (eraseEntry dp off) (fun _ s' =>
            Remapped s i (fun m => if cname m = cname name then 0 else nd.bound m) s') s₁) := by
  obtain ⟨h, hmaps⟩ := run_keeps h₀ hmaps₀ hrun
  refine ⟨fun i nd hnd ht => ?_, fun dp i nd hd name => ?_⟩
  · have hmap := hmaps i nd hnd ht
    rw [(Disk.shows hnd).size]
    exact ⟨hmap.size, hmap.inj⟩
  have hmap := hmaps i nd hd.node hd.type
  refine ⟨?_, fun hph => ⟨fun j hj => ?_, fun ip off s₁ hfound => ?_⟩⟩
  · refine (dirlookup_bound h hd hmap fun hfull => ⟨rfl, hfull⟩).mono ?_
    rintro r s' (⟨rfl, hzero, rfl⟩ | ⟨ip, e, rfl, hne, -, hg⟩)
    · exact ⟨rfl, .inl ⟨rfl, hzero⟩⟩
    · exact ⟨hg.view, .inr ⟨ip, _, rfl, hne, hg.inum⟩⟩
  · have hlink : wp _ (dirlink dp name j) _ s := dirlink_bound h hd hmap hph j
    rw [Nat.mod_eq_of_lt (show j < 2 ^ 16 from hj)] at hlink
    exact hlink.mono fun r s' hr => hr.2
  · have hlook : wp (fun _ => True) (dirlookup dp name) _ s :=
      dirlookup_bound h hd hmap fun _ => trivial
    obtain ⟨hnone, -⟩ | ⟨ip, e, heq, -, hm, hg⟩ := hlook.ok hfound
    · cases hnone
    · cases heq
      refine (eraseEntry_bound (hg.sound h) (hg.inDir hd) hmap (hg.trace.symm ▸ hph) hm).mono ?_
      rintro _ s' ⟨-, nd', hnode, hrest⟩
      exact ⟨nd', by rw [hnode, congrArg Disk.node hg.view], hrest⟩

def rootNode : Node :=
  ⟨T_DIR, 0, 0, 1, (range (3 * DESIZE)).map (direntsByte [(1, dot), (1, dotdot), (2, [97])])⟩

theorem rootNode_isMap : rootNode.IsMap where
  size := by decide
  inj e e' := by
    have hlt : ∀ e, rootNode.inum e ≠ 0 → e < 3 := by
      intro e h0
      have hfit := Node.lt_of_inum (e := e) (by decide) h0
      have hlen : rootNode.data.length = 3 * DESIZE := by decide
      rw [hlen] at hfit
      norm_num at hfit
      omega
    intro h0 h0' heq
    have hall : ∀ e < 3, ∀ e' < 3, rootNode.name e = rootNode.name e' → e = e' := by decide +kernel
    exact hall e (hlt e h0) e' (hlt e' h0') heq

theorem node_fileImage : (fileImage.disk mkfsSuperblock).node ROOTINO = some rootNode := by
  have hino : (fileImage.disk mkfsSuperblock).ino ROOTINO = (fileImage.ext ROOTINO).dinode :=
    Image.ino_disk (by decide)
  have hcontent : (fileImage.disk mkfsSuperblock).content ROOTINO = rootNode.data := by
    rw [Disk.content, hino]
    refine map_congr_left fun k hk => ?_
    have hk : k < 3 * DESIZE := mem_range.mp hk
    have hdiv : (0 + k) / BSIZE = 0 := Nat.div_eq_of_lt (by norm_num at hk ⊢; omega)
    rw [fileImage_ok.byte_disk mkfsSuperblock_geometry (by decide) (by rw [hdiv]; decide),
      Nat.zero_add]
    rfl
  have htype : ((fileImage.disk mkfsSuperblock).ino ROOTINO).type = T_DIR := by rw [hino]; rfl
  rw [Disk.node_of_type (by rw [htype]; decide), hcontent, hino]
  rfl

theorem maps_fileImage : Maps (fileImage.fs mkfsSuperblock ROOTINO) := by
  have hview : (fileImage.fs mkfsSuperblock ROOTINO).view = fileImage.disk mkfsSuperblock :=
    fileImage_ok.disk_blocks mkfsSuperblock_geometry
  intro i nd hnd ht
  rw [hview] at hnd
  rcases eq_or_ne i ROOTINO with rfl | hi
  · rw [node_fileImage] at hnd
    exact Option.some.inj hnd ▸ rootNode_isMap
  · have hshow := (Disk.shows hnd).type
    rw [ht] at hshow
    by_cases hlt : 1 ≤ i ∧ i ≤ fileImage.n
    · rw [Image.ino_disk hlt] at hshow
      simp [fileImage, Extent.dinode, hi] at hshow
    · rw [show (fileImage.disk mkfsSuperblock).ino i = Dinode.zero from if_neg hlt] at hshow
      cases hshow

theorem sound_fileImage : Sound mkfsSuperblock (fileImage.fs mkfsSuperblock ROOTINO) := by
  have hlow := (fileImage_ok.held mkfsSuperblock_geometry (i := ROOTINO) (by decide)).low
  have huse : ∀ k, 0 < ((fileImage.fs mkfsSuperblock ROOTINO).itable k).ref → k = 0 := by
    grind [Image.fs]
  refine ⟨mkfsSuperblock_geometry, ⟨_, hlow⟩, fun k => ?_, fun k hr => ?_, fun k hr => ?_,
    fun k k' hr hr' _ => (huse k hr).trans (huse k' hr').symm⟩
  · grind [Image.fs]
  · rw [huse k hr]
    decide
  · rw [huse k hr]
    rfl

-- the elaborator would run `dirlookup` on the image
attribute [local irreducible] wp

theorem directories_are_maps_root : ∃ nd,
    InDir mkfsSuperblock (fileImage.fs mkfsSuperblock ROOTINO) 0 ROOTINO nd ∧ nd.bound [97] = 2 ∧
    wp (fun e => e = .panic .igetNoInodes ∧
        ∀ k < NINODE, ((fileImage.fs mkfsSuperblock ROOTINO).itable k).ref ≠ 0)
      (dirlookup 0 [97]) (fun r s' => s'.view = (fileImage.fs mkfsSuperblock ROOTINO).view ∧
        (r = none ∧ nd.bound [97] = 0 ∨ ∃ ip off, r = some (ip, off) ∧ nd.bound [97] ≠ 0 ∧
          (s'.itable ip).inum = nd.bound [97])) (fileImage.fs mkfsSuperblock ROOTINO) := by
  have hnode : (fileImage.fs mkfsSuperblock ROOTINO).view.node ROOTINO = some rootNode := by
    rw [show (fileImage.fs mkfsSuperblock ROOTINO).view = fileImage.disk mkfsSuperblock from
      fileImage_ok.disk_blocks mkfsSuperblock_geometry, node_fileImage]
  have hd : InDir mkfsSuperblock (fileImage.fs mkfsSuperblock ROOTINO) 0 ROOTINO rootNode :=
    ⟨Int.one_pos, rfl, by decide, rfl, hnode, rfl⟩
  have hmaps := directories_are_maps sound_fileImage maps_fileImage .refl
  have hbound : rootNode.bound [97] = 2 := by decide +kernel
  exact ⟨rootNode, hd, hbound, (hmaps.2 0 ROOTINO rootNode hd [97]).1⟩

end Xv6
