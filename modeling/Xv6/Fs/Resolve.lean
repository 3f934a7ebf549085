import Xv6.Fs.Boot

/-!
What a path leads to.

A path is split at its slashes; its components are the parts that are not empty, cut to
the length of a name. From the root or the current directory they are looked up one after
the other. `namei` returns the inode that is reached, `nameiparent` the directory that is
reached before the last lookup. Both are said of `Abs.entry` and a fold over the
components, without the loop of `namex`.
-/

namespace Xv6

open List

/-! ### Components -/

def pathParts (path : List UInt8) : List (List UInt8) := (path.splitOn slash).filter (· ≠ [])

def components (path : List UInt8) : List Name := (pathParts path).map (take DIRSIZ)

theorem pathParts_append_slash (w path : List UInt8) :
    pathParts (w ++ slash :: path) = pathParts w ++ pathParts path := by
  simp only [pathParts, splitOn, ← filter_append]
  rw [splitOnP_append_cons _ _ (by simp)]

theorem pathParts_nil : pathParts [] = [] := by decide

theorem pathParts_slash (path : List UInt8) : pathParts (slash :: path) = pathParts path :=
  pathParts_append_slash [] path

theorem pathParts_dropWhile (path : List UInt8) :
    pathParts (path.dropWhile (· = slash)) = pathParts path := by
  induction path with
  | nil => rfl
  | cons c path ih =>
    grind [dropWhile_cons_of_pos, pathParts_slash, dropWhile_cons_of_neg]

theorem pathParts_word {w : List UInt8} (hne : w ≠ []) (hw : ∀ c ∈ w, c ≠ slash) :
    pathParts w = [w] := by
  rw [pathParts, splitOn, splitOnP_eq_singleton (by simpa using hw)]
  simp [hne]

/-- What `skipelem` returns is the first part of the path. -/
theorem pathParts_skipelem (hne : path.dropWhile (· = slash) ≠ []) :
    pathParts path = (path.dropWhile (· = slash)).takeWhile (· ≠ slash) ::
      pathParts (((path.dropWhile (· = slash)).dropWhile (· ≠ slash)).dropWhile (· = slash)) := by
  obtain ⟨p, hp⟩ : ∃ p, p = path.dropWhile (· = slash) := ⟨_, rfl⟩
  rw [← pathParts_dropWhile path, ← hp, pathParts_dropWhile]
  rw [← hp] at hne
  have hword : ∀ c ∈ p.takeWhile (· ≠ slash), c ≠ slash := fun c hc => by
    simpa using mem_takeWhile_imp hc
  have hstart : p.takeWhile (· ≠ slash) ≠ [] := by
    intro hnil
    have hhead := head_dropWhile_not (fun c => decide (c = slash)) (hp ▸ hne)
    obtain ⟨c, t, rfl⟩ := exists_cons_of_ne_nil hne
    simp only [← hp, head_cons, decide_eq_false_iff_not] at hhead
    simp [hhead] at hnil
  have hsplit := takeWhile_append_dropWhile (p := fun c => decide (c ≠ slash)) (l := p)
  cases hrest : p.dropWhile (· ≠ slash) with
  | nil => grind [pathParts_word, pathParts_nil]
  | cons c rest =>
    obtain rfl : c = slash := by
      have hhead := head_dropWhile_not (fun c => decide (c ≠ slash))
        (hrest ▸ cons_ne_nil c rest)
      simpa only [hrest, head_cons, decide_eq_false_iff_not, not_not] using hhead
    conv_lhs => rw [← hsplit, hrest, pathParts_append_slash, pathParts_word hstart hword]
    rfl

theorem elemsLoop_eq {fuel : ℕ} (hfuel : path.length ≤ fuel) :
    elemsLoop fuel path = components path := by
  induction fuel generalizing path with
  | zero =>
    rw [length_eq_zero_iff.mp (Nat.le_zero.mp hfuel)]
    decide
  | succ fuel ih =>
    unfold elemsLoop skipelem
    by_cases hnil : path.dropWhile (· = slash) = []
    · simp only [hnil, ↓reduceIte]
      rw [components, ← pathParts_dropWhile, hnil]
      decide
    · grind [components, pathParts_skipelem, dropWhile_sublist, length_cons]

/-- The calls of `skipelem` return the components of the path. -/
theorem elems_eq_components (path : List UInt8) : elems path = components path :=
  elemsLoop_eq le_rfl

/-! ### Lookups in order -/

variable {b : Abs} {p i : ℕ} {path : List UInt8} {names : List Name}

def Abs.IsDir (b : Abs) (i : ℕ) : Prop := ∃ nd ∈ b.node i, nd.type = T_DIR

instance (b : Abs) (i : ℕ) : Decidable (b.IsDir i) :=
  inferInstanceAs (Decidable (∃ nd ∈ b.node i, nd.type = T_DIR))

/-- The inode that is reached when the names are looked up in order. -/
def Abs.reached (b : Abs) (i : ℕ) (names : List Name) : Option ℕ := names.foldlM b.entry i

/-- The directory that all names but the last lead to, and the last name. -/
def Abs.reachedParent (b : Abs) (i : ℕ) (names : List Name) : Option (ℕ × Name) := do
  let name ← names.getLast?
  let dir ← b.reached i names.dropLast
  if b.IsDir dir then some (dir, name) else none

theorem Abs.walk_eq_reached (b : Abs) (i : ℕ) (names : List Name) :
    b.walk i names = b.reached i names := by
  induction names generalizing i with
  | nil => rfl
  | cons name names ih => simp only [walk, reached, foldlM_cons, ih, Option.bind_eq_bind]

theorem Abs.not_isDir (h : ¬b.IsDir i) (name : Name) : b.entry i name = none := by
  unfold entry
  split
  · rename_i nd hnd
    exact if_neg fun ht => h ⟨nd, hnd, ht⟩
  · rfl

theorem Abs.walkParent_eq_reached (b : Abs) (i : ℕ) (names : List Name) :
    b.walkParent i names = b.reachedParent i names := by
  induction names generalizing i with
  | nil => rfl
  | cons name names ih =>
    cases names with
    | nil => grind [walkParent, reachedParent, IsDir, reached]
    | cons name' names =>
      have hlast : b.reachedParent i (name :: name' :: names) =
          (b.entry i name).bind fun j => b.reachedParent j (name' :: names) := by
        simp only [reachedParent, reached, getLast?_cons_cons, dropLast_cons_cons,
          foldlM_cons, Option.bind_eq_bind]
        cases b.entry i name <;> simp
      rw [hlast, walkParent]
      by_cases hdir : b.IsDir i
      · obtain ⟨nd, hnd, ht⟩ := hdir
        simp only [Option.mem_def.mp hnd, ht, ↓reduceIte, cons_ne_nil, ih]
      · grind [not_isDir]

theorem Abs.reached_eq_bind (hne : names ≠ []) :
    b.reached i names = (b.reachedParent i names).bind fun r => b.entry r.1 r.2 := by
  obtain ⟨init, name, rfl⟩ : ∃ init name, names = init ++ [name] :=
    ⟨_, _, (dropLast_append_getLast hne).symm⟩
  simp only [reached, reachedParent, foldlM_append, getLast?_append,
    getLast?_singleton, dropLast_concat, foldlM_cons, foldlM_nil,
    Option.bind_eq_bind]
  cases foldlM b.entry i init with
  | none => rfl
  | some dir =>
    by_cases hdir : b.IsDir dir
    · simp [hdir]
    · simp [hdir, not_isDir hdir]

theorem Abs.target_eq (b : Abs) (p : ℕ) (path : List UInt8) :
    b.target p path = (b.start p path).bind fun i => b.reached i (components path) := by
  simp only [target, elems_eq_components, walk_eq_reached]

theorem Abs.parent_eq (b : Abs) (p : ℕ) (path : List UInt8) :
    b.parent p path = (b.start p path).bind fun i => b.reachedParent i (components path) := by
  simp only [parent, elems_eq_components, walkParent_eq_reached]

theorem Abs.target_eq_bind (hne : components path ≠ []) :
    b.target p path = (b.parent p path).bind fun r => b.entry r.1 r.2 := by
  rw [target_eq, parent_eq, Option.bind_assoc]
  exact congrArg _ (funext fun i => reached_eq_bind hne)

theorem Abs.target_of_parent {name : Name} (h : b.parent p path = some (i, name)) :
    b.target p path = b.entry i name := by
  have hne : components path ≠ [] := by
    intro hnil
    rw [parent_eq, hnil] at h
    cases hstart : b.start p path <;> simp [hstart, reachedParent] at h
  rw [target_eq_bind hne, h]
  rfl

theorem Abs.isDir_of_parent {name : Name} (h : b.parent p path = some (i, name)) : b.IsDir i := by
  rw [parent_eq] at h
  obtain ⟨j, -, hj⟩ := Option.bind_eq_some_iff.mp h
  obtain ⟨n, -, hn⟩ := Option.bind_eq_some_iff.mp hj
  obtain ⟨dir, -, hdir⟩ := Option.bind_eq_some_iff.mp hn
  split at hdir
  · rename_i hd
    cases hdir
    exact hd
  · cases hdir

/-! ### The lookups of the file system -/

/-- The state is one in which `p` can follow paths: it is in an operation, the
inodes without links are in use, directories consist of whole entries that
name allocated inodes, and the root and the current directory are there. -/
structure Passable (sb : Superblock) (p : ℕ) (s : Fs) : Prop where
  wf : Wf sb s
  phase : phase s.trace = some true
  live : s.abs.Live
  calm : Calm s.abs [] []
  named : s.abs.Named
  whole : s.abs.Whole
  root : s.view.node ROOTINO ≠ none
  cwd : ∃ k, (s.proc p).cwd = some k ∧ 0 < (s.itable k).ref

/-- Why a lookup may not return: an inode is locked already, or there are more inodes
than entries in the inode table and not two entries left. -/
def Stuck (s : Fs) (e : Stop) : Prop :=
  e = .blocked ∧ (∃ k, (s.itable k).locked = true) ∨
    e = .panic .igetNoInodes ∧ ¬s.abs.Room s.sb 1

structure Resolved (s : Fs) (i r : Option ℕ) (s' : Fs) : Prop where
  found : r.map (fun ip => (s'.itable ip).inum) = i
  ref : ∀ k, (s'.itable k).ref = (s.itable k).ref + if r = some k then 1 else 0
  inum : ∀ k, 0 < (s.itable k).ref → (s'.itable k).inum = (s.itable k).inum
  locked : ∀ k, (s'.itable k).locked = (s.itable k).locked
  node : s'.view.node = s.view.node
  own : s'.view.own = s.view.own

namespace Passable

variable {sb : Superblock} {s s' : Fs}

variable (hs : Passable sb p s)
include hs

theorem follows : Follows sb (Stuck s) s.abs [] [] where
  blocked := by
    by_cases hlock : ∃ k, (s.itable k).locked = true
    · exact .inl (.inl ⟨rfl, hlock⟩)
    · exact .inr fun k => Bool.eq_false_iff.mpr fun hk => hlock ⟨k, hk⟩
  whole := .inr hs.whole
  room := by
    rw [← hs.wf.low.sb_eq]
    by_cases hroom : s.abs.Room s.sb 1
    · exact .inr hroom
    · exact .inl (.inr ⟨rfl, hroom⟩)
  calm := .inr hs.calm
  named := .inr ⟨hs.calm, hs.named⟩

theorem hasCwd : (s.abs.proc p).cwd ≠ none := by
  obtain ⟨k, hk, -⟩ := hs.cwd
  exact (Option.ne_none_iff_exists'.mpr ⟨k, hk⟩)

theorem keepsCwd : KeepsCwd s.abs [] p := by
  intro k hk
  obtain ⟨k', hk', hr⟩ := hs.cwd
  obtain rfl : k' = k := Option.some.inj (hk'.symm.trans hk)
  exact hr

theorem starts : Starts (Stuck s) s.abs p path := by
  intro i hi
  right
  unfold Abs.start at hi
  split at hi
  · cases hi
    exact hs.root
  · obtain ⟨k, hk, rfl⟩ := Option.map_eq_some_iff.mp hi
    exact hs.live k (hs.keepsCwd k hk)

theorem resolved {α : Type} {target r : Option (ℕ × α)}
    (hled : Led s.abs [] [] target r s'.abs) :
    Resolved s (target.map Prod.fst) (r.map Prod.fst) s' ∧
      r.map Prod.snd = target.map Prod.snd := by
  have hlock : ∀ {h : List (ℕ × ℕ)}, St s.abs h [] [] s'.abs →
      ∀ k, (s'.itable k).locked = (s.itable k).locked := fun hst k => by
    have hk : (s'.itable k).locked = true ↔ (s.itable k).locked = true ∨ k ∈ [] := hst.lock k
    simpa using hk
  have hinum : ∀ {h : List (ℕ × ℕ)}, St s.abs h [] [] s'.abs →
      ∀ k, 0 < (s.itable k).ref → (s'.itable k).inum = (s.itable k).inum := fun hst k hr =>
    (hst.live k hr).1
  cases r with
  | none =>
    obtain ⟨b', hq, hst, htarget⟩ := hled
    obtain rfl := hq.calm hs.calm
    rw [htarget hs.calm]
    refine ⟨⟨rfl, fun k => ?_, hinum hst, hlock hst, hst.node, hst.blocks⟩, rfl⟩
    have href : (s'.itable k).ref = (s.itable k).ref - ([] : List ℕ).count k + holds [] k :=
      hst.ref k
    simpa [holds] using href
  | some r =>
    obtain ⟨ip, x⟩ := r
    obtain ⟨b', i, hq, hst, htarget⟩ := hled
    obtain rfl := hq.calm hs.calm
    rw [htarget hs.calm]
    have hi : (s'.itable ip).inum = i := hst.held (ip, i) (by simp)
    refine ⟨⟨congrArg some hi, fun k => ?_, hinum hst, hlock hst, hst.node, hst.blocks⟩, rfl⟩
    have href : (s'.itable k).ref = (s.itable k).ref - ([] : List ℕ).count k + holds [(ip, i)] k :=
      hst.ref k
    simp only [holds, count_nil, map_cons, map_nil, count_singleton] at href
    by_cases hk : ip = k
    · simpa [hk] using href
    · simpa [hk] using href

end Passable

def lookupInParent (p : ℕ) (path : List UInt8) : M (Option ℕ) := do
  match ← nameiparent p path with
  | none => return none
  | some (dp, name) => do
      ilock dp
      match ← dirlookup dp name with
      | none => do
          iunlockput dp
          return none
      | some (ip, _) => do
          iunlockput dp
          return some ip

variable {sb : Superblock} {s : Fs}

theorem lookupInParent_spec (hs : Passable sb p s) (hne : components path ≠ []) :
    Spec sb (Stuck s) (St s.abs [] [] []) (lookupInParent p path) fun r =>
      Led s.abs [] [] ((s.abs.target p path).map (·, ())) (r.map (·, ())) := by
  have hf := hs.follows
  refine (nameiparent_spec hf hs.phase (.inr hs.hasCwd) hs.keepsCwd hs.starts).bind fun r => ?_
  rw [Abs.target_eq_bind hne]
  cases r with
  | none =>
    refine Tri.pure fun g ⟨b', hq, hst, hnone⟩ => ⟨b', hq, hst, fun hcalm => ?_⟩
    rw [hnone hcalm]
    rfl
  | some r =>
    obtain ⟨dp, name⟩ := r
    refine Tri.exists_pre fun b' => Tri.exists_pre fun i => Tri.given fun hq =>
      Tri.assume fun hparent => ?_
    obtain rfl := hq.calm hs.calm
    obtain ⟨nd, hnd, ht⟩ := Abs.isDir_of_parent (hparent hs.calm)
    have hnode : s.abs.node i = some nd := hnd
    have hheld : Has s.abs [(dp, i)] [] dp i := .inl (by simp)
    refine (ilock_spec (hf.unlocked dp) hheld (.inr (by simp [hnode]))).bind fun _ =>
      Tri.assume fun _ => ?_
    have hk : Locked s.abs [(dp, i)] [] [dp] dp i nd := ⟨by simp, hheld, hnode⟩
    have hentry : (s.abs.parent p path).bind (fun r => s.abs.entry r.1 r.2) =
        (nd.lookup name).map nd.inum := by grind [hs.calm, Abs.entry_eq]
    rw [hentry]
    refine namex_next (hf.look hnode ht) (.inr hs.calm) hs.phase hk
      (fun hnone b' g hq hst => ⟨b', hq, hst, fun _ => by rw [hnone]; rfl⟩)
      fun e b' next hfound hq => Tri.pure fun g hg => ⟨b', nd.inum e, hq, hg, fun _ => ?_⟩
    rw [hfound]
    rfl

/-- `namei` returns the inode that is reached from the root or from the current
directory when the components of the path are looked up in order, and none if
a lookup fails; `nameiparent` returns the directory that all components but
the last lead to, with the last; the lookup of that in the directory returns
what `namei` does. One reference is added, to the inode that is returned. -/
theorem paths_resolve (hs : Passable sb p s) (path : List UInt8) :
    wp (Stuck s) (namei p path) (Resolved s ((s.abs.start p path).bind fun i =>
      s.abs.reached i (components path))) s ∧
    wp (Stuck s) (nameiparent p path) (fun r s' =>
      Resolved s (((s.abs.start p path).bind fun i =>
        s.abs.reachedParent i (components path)).map Prod.fst) (r.map Prod.fst) s' ∧
      r.map Prod.snd = ((s.abs.start p path).bind fun i =>
        s.abs.reachedParent i (components path)).map Prod.snd) s ∧
    (components path ≠ [] → wp (Stuck s) (lookupInParent p path)
      (Resolved s ((s.abs.start p path).bind fun i => s.abs.reached i (components path))) s) := by
  have hst := St.refl s.abs hs.wf.tab.ref
  have hplain : ∀ {r : Option ℕ} {s' : Fs},
      Led s.abs [] [] ((s.abs.target p path).map (·, ())) (r.map (·, ())) s'.abs →
      Resolved s (s.abs.target p path) r s' := fun hled => by
    simpa [Option.map_map, Function.comp_def] using (hs.resolved hled).1
  rw [← Abs.target_eq, ← Abs.parent_eq]
  refine ⟨?_, ?_, fun hne => ?_⟩
  · exact (namei_spec hs.follows hs.phase (.inr hs.hasCwd) hs.keepsCwd hs.starts s hs.wf hst).mono
      fun r s' hled => hplain hled.2
  · exact (nameiparent_spec hs.follows hs.phase (.inr hs.hasCwd) hs.keepsCwd hs.starts s hs.wf
      hst).mono fun r s' hled => hs.resolved hled.2
  · exact (lookupInParent_spec hs hne s hs.wf hst).mono fun r s' hled => hplain hled.2

theorem Image.Ok.passable_booted {im : Image} (h : im.Ok sb) (G : Geometry sb)
    (hset : im.Settled) {full : List Bool} {pipes : ℕ} :
    Passable sb 0 (im.booted sb true full pipes) where
  wf := h.wf_booted G hset
  phase := Image.phase_booted
  live := h.live_booted G hset
  calm := h.calm_booted G hset
  named := h.named_booted G hset
  whole := h.whole_booted G hset
  root := by
    rw [h.node_booted G, if_pos ⟨le_rfl, hset.1⟩]
    exact Option.some_ne_none _
  cwd := ⟨0, rfl, Int.one_pos⟩

-- the elaborator would run `namei` on the image
attribute [local irreducible] wp

/-- The path `//a/` leads to the file `a`. -/
theorem paths_resolve_file :
    Passable mkfsSuperblock 0 (fileImage.booted mkfsSuperblock true [] 0) ∧
    components [slash, slash, 97, slash] = [[97]] ∧
    ∃ ip s', (namei 0 [slash, slash, 97, slash]).run (fileImage.booted mkfsSuperblock true [] 0) =
        .ok (some ip, s') ∧ (s'.itable ip).inum = 2 ∧
      some 2 = (fileImage.booted mkfsSuperblock true [] 0).abs.reached ROOTINO [[97]] := by
  have hs : Passable mkfsSuperblock 0 (fileImage.booted mkfsSuperblock true [] 0) :=
    fileImage_ok.passable_booted mkfsSuperblock_geometry fileImage_settled
  obtain ⟨r, s', hrun, hr⟩ := exists_of_returns (f := namei 0 [slash, slash, 97, slash])
    (p := fun r s' => decide (r = some 1 ∧ (s'.itable 1).inum = 2))
    (s := fileImage.booted mkfsSuperblock true [] 0) (by decide +kernel)
  obtain ⟨rfl, hinum⟩ := of_decide_eq_true hr
  have hres := ((paths_resolve hs [slash, slash, 97, slash]).1.ok hrun).found
  rw [Option.map_some, hinum] at hres
  exact ⟨hs, by decide, 1, s', hrun, hinum, hres⟩

end Xv6
