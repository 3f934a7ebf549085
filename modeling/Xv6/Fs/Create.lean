import Xv6.Fs.Resolve

/-!
`create` and the calls that make an inode.

`create` ends with two locked inodes, a directory and an entry of it that was found or
made; `Pair` describes the base while both are held. A `create` that fails has changed no
inode, and the only block it may have taken for good is an indirect block of the
directory.
-/

namespace Xv6

open Function (update_self update_of_ne)

variable {sb : Superblock} {E : Stop → Prop} {q : Prop} {a b b' : Abs} {dp ip i j p : ℕ}
  {nd ne nd' : Node} {name : Name}

/-! ### What has changed -/

def Only (i : ℕ) (b b' : Abs) : Prop := ∀ j, j ≠ i → b'.node j = b.node j ∧ b'.own j = b.own j

theorem Only.refl (i : ℕ) (b : Abs) : Only i b b := fun _ _ => ⟨rfl, rfl⟩

theorem Only.trans {b'' : Abs} (h : Only i b b') (h' : Only i b' b'') : Only i b b'' := fun j hj =>
  ⟨(h' j hj).1.trans (h j hj).1, (h' j hj).2.trans (h j hj).2⟩

theorem Only.setNode (b : Abs) (i : ℕ) (n : Option Node) : Only i b (b.setNode i n) := fun _ hj =>
  ⟨update_of_ne hj .., rfl⟩

theorem Only.setOwn (b : Abs) (i : ℕ) (o : ℕ → ℕ) : Only i b (b.setOwn i o) := fun _ hj =>
  ⟨rfl, update_of_ne hj ..⟩

/-- Every inode is as before, and so are its blocks, but for an indirect block
of the directory `dir`. -/
structure Undone (a : Abs) (dir : Option ℕ) (b : Abs) : Prop where
  node : b.node = a.node
  own : ∀ i, b.own i = a.own i ∨ dir = some i ∧ Padded (a.own i) (b.own i)

/-! ### Two inodes -/

/-- The call holds the directory `dp`, inode `i`, and `ip`, inode `j`. -/
structure Pair (q : Prop) (a : Abs) (dp i ip j : ℕ) (nd ne : Node) (b : Abs) : Prop where
  trail : Trail q a [] {i, j} b
  distinct : i ≠ j
  dir : b.node i = some nd
  file : b.node j = some ne
  calm : q → Calm b [(ip, j), (dp, i)] []

theorem St.swap {g : Abs} (hst : St b [(ip, j), (dp, i)] [] [ip, dp] g) :
    St b [(dp, i), (ip, j)] [] [dp, ip] g :=
  hst.perm (.swap _ _ _) (.swap _ _ _)

namespace Pair

theorem lockedDir (hp : Pair q a dp i ip j nd ne b) :
    Locked b [(ip, j), (dp, i)] [] [ip, dp] dp i nd :=
  ⟨by simp, .inl (by simp), hp.dir⟩

theorem lockedFile (hp : Pair q a dp i ip j nd ne b) :
    Locked b [(ip, j), (dp, i)] [] [ip, dp] ip j ne :=
  ⟨by simp, .inl (by simp), hp.file⟩

theorem holdsAll (b : Abs) (ip j dp i : ℕ) :
    ∀ k ∈ [ip, dp], ∃ i', Has b [(ip, j), (dp, i)] [] k i' := by
  intro k hk
  rcases List.mem_pair.mp hk with rfl | rfl
  · exact ⟨j, .inl (by simp)⟩
  · exact ⟨i, .inl (by simp)⟩

section

variable (hp : Pair q a dp i ip j nd ne b)
include hp

theorem setDir (ht : nd'.type = nd.type) :
    Pair q a dp i ip j nd' ne (b.setNode i (some nd')) where
  trail := hp.trail.setNode (by simp) (fun n hn => by
    rw [hp.dir] at hn
    rw [ht, Option.some.inj hn]) fun hn => by simp [hp.dir] at hn
  distinct := hp.distinct
  dir := update_self ..
  file := (update_of_ne hp.distinct.symm ..).trans hp.file
  calm hq := (hp.calm hq).held (k := dp) (.inl (by simp))

theorem setFile (ht : nd'.type = ne.type) :
    Pair q a dp i ip j nd nd' (b.setNode j (some nd')) where
  trail := hp.trail.setNode (by simp) (fun n hn => by
    rw [hp.file] at hn
    rw [ht, Option.some.inj hn]) fun hn => by simp [hp.file] at hn
  distinct := hp.distinct
  dir := (update_of_ne hp.distinct ..).trans hp.dir
  file := update_self ..
  calm hq := (hp.calm hq).held (k := ip) (.inl (by simp))

theorem setOwnDir (o : ℕ → ℕ) : Pair q a dp i ip j nd ne (b.setOwn i o) :=
  { hp with trail := hp.trail.setOwn (by simp) o }

theorem quiet (hq : Quiet b [(ip, j), (dp, i)] [] b') : Pair q a dp i ip j nd ne b' where
  trail := hp.trail.quiet hq hp.calm
  distinct := hp.distinct
  dir := (hq.keep dp i (.inl (by simp))).trans hp.dir
  file := (hq.keep ip j (.inl (by simp))).trans hp.file
  calm h := by
    have hc := hp.calm h
    rwa [hq.calm hc]

end

theorem dirlink (hE : Admits E) (hp : Pair q a dp i ip j nd ne b) {m : ℕ} (hm : m < sb.ninodes) :
    Spec sb E (St b [(ip, j), (dp, i)] [] [ip, dp]) (dirlink dp name m) fun r g =>
      ∃ b' nd', Pair q a dp i ip j nd' ne b' ∧ (nd'.type = nd.type ∧ nd'.nlink = nd.nlink) ∧
        (q → Only i b b') ∧ St b' [(ip, j), (dp, i)] [] [ip, dp] g ∧
        (r = 0 ∧ nd.lookup name = none ∧ nd' = nd.setDirent nd.slot (direntBytes m name) ∨
          r = -1 ∧ nd' = nd ∧ (q → Padded (b.own i) (b'.own i))) := by
  refine (dirlink_spec hE hp.trail.phase hp.lockedDir (holdsAll b ip j dp i) hm).mono ?_
  rintro r g (⟨-, hnone, o, ⟨rfl, hst⟩ | ⟨rfl, hpad, hst⟩⟩ | ⟨rfl, -, b', hq, hst⟩)
  · refine ⟨_, nd.setDirent nd.slot (direntBytes m name), (hp.setDir ?_).setOwnDir o,
      ⟨rfl, rfl⟩, fun _ => ?_, hst, .inl ⟨rfl, hnone, rfl⟩⟩
    · rfl
    · exact (Only.setNode b i _).trans (.setOwn _ i o)
  · refine ⟨_, nd, hp.setOwnDir o, ⟨rfl, rfl⟩, fun _ => .setOwn b i o, hst,
      .inr ⟨rfl, rfl, fun _ => ?_⟩⟩
    simpa only [Abs.setOwn, update_self] using hpad
  · have hp' := hp.quiet hq
    have heq : q → b' = b := fun h => hq.calm (hp.calm h)
    exact ⟨b', nd, hp', ⟨rfl, rfl⟩, fun h => heq h ▸ .refl i b, hst,
      .inr ⟨rfl, rfl, fun h => heq h ▸ fun _ => .inl rfl⟩⟩

theorem swap (hp : Pair q a dp i ip j nd ne b) : Pair q a ip j dp i ne nd b where
  trail := Finset.pair_comm i j ▸ hp.trail
  distinct := hp.distinct.symm
  dir := hp.file
  file := hp.dir
  calm hq := (hp.calm hq).mono (by simp)

end Pair

/-! ### `create` -/

section Create

variable {type major minor : ℤ} {path : List UInt8} {dir : Option ℕ}

abbrev Pair.Locks (b : Abs) (dp i ip j : ℕ) : Abs → Prop :=
  St b [(ip, j), (dp, i)] [] [ip, dp]

theorem createDots_spec (hE : Admits E) (hp : Pair q a dp i ip j nd ne b) :
    Spec sb E (Pair.Locks b dp i ip j) (createDots ip dp) fun _ g =>
      ∃ b' ne', Pair q a dp i ip j nd ne' b' ∧ (ne'.type = ne.type ∧ ne'.nlink = ne.nlink) ∧
        (q → Only j b b') ∧ Pair.Locks b' dp i ip j g := by
  have hlink : ∀ {b : Abs} {ne : Node} {m : ℕ} {name : Name},
      Pair q a dp i ip j nd ne b → m < sb.ninodes →
      Spec sb E (Pair.Locks b dp i ip j) (dirlink ip name m) fun _ g =>
        ∃ b' ne', Pair q a dp i ip j nd ne' b' ∧ (ne'.type = ne.type ∧ ne'.nlink = ne.nlink) ∧
          (q → Only j b b') ∧ Pair.Locks b' dp i ip j g := by
    intro b ne m name hp hm
    refine ((hp.swap.dirlink hE hm).pre fun g hg => hg.swap).mono fun r g hg => ?_
    obtain ⟨b', ne', hp', ht, honly, hst, -⟩ := hg
    exact ⟨b', ne', hp'.swap, ht, honly, hst.swap⟩
  unfold createDots
  refine (inode_spec hp.lockedFile).bind fun en => Tri.assume fun ⟨hinum, _, _⟩ => ?_
  rw [hinum]
  refine Tri.from_pre (fun s hwf hst => (hp.lockedFile.at hwf hst).lt) fun hj => ?_
  refine (hlink hp hj).bind fun r => Tri.exists_pre fun b₁ => Tri.exists_pre fun ne₁ =>
    Tri.given fun hp₁ => Tri.given fun ht₁ => Tri.given fun honly₁ => ?_
  refine Tri.ite (fun _ => Tri.pure fun g hg => ⟨b₁, ne₁, hp₁, ht₁, honly₁, hg⟩) fun _ => ?_
  refine (inode_spec hp₁.lockedDir).bind fun en => Tri.assume fun ⟨hinum, _, _⟩ => ?_
  rw [hinum]
  refine Tri.from_pre (fun s hwf hst => (hp₁.lockedDir.at hwf hst).lt) fun hi => ?_
  have hend : ∀ (r : Bool) (g : Abs),
      (∃ b' ne', Pair q a dp i ip j nd ne' b' ∧ (ne'.type = ne₁.type ∧ ne'.nlink = ne₁.nlink) ∧
        (q → Only j b₁ b') ∧ Pair.Locks b' dp i ip j g) →
      ∃ b' ne', Pair q a dp i ip j nd ne' b' ∧ (ne'.type = ne.type ∧ ne'.nlink = ne.nlink) ∧
        (q → Only j b b') ∧ Pair.Locks b' dp i ip j g := by
    rintro - g ⟨b', ne', hp', ht, honly, hst⟩
    exact ⟨b', ne', hp', ⟨ht.1.trans ht₁.1, ht.2.trans ht₁.2⟩,
      fun h => (honly₁ h).trans (honly h), hst⟩
  exact (hlink hp₁ hi).bind fun r => Tri.ite (fun _ => Tri.pure (hend false)) fun _ =>
    Tri.pure (hend true)

structure Fresh (a : Abs) (p : ℕ) (path : List UInt8) (type : ℤ) (j : ℕ) (nd : Node) : Prop where
  target : a.target p path = none
  node : a.node j = none
  type_eq : nd.type = type
  nlink : nd.nlink = 1

/-- What `create` returns: nothing, or a locked inode, which it has made or found. -/
def Made (q : Prop) (a : Abs) (p : ℕ) (path : List UInt8) (type : ℤ) :
    Option ℕ → Abs → Prop
  | none => fun g => ∃ b J, Trail q a [] J b ∧
      (q → Undone a ((a.parent p path).map Prod.fst) b) ∧ St b [] [] [] g
  | some ip => fun g => ∃ b J j nd, Trail q a [] J b ∧ j ∈ J ∧ b.node j = some nd ∧
      (type = T_FILE → nd.type ≠ T_DIR) ∧
      (q → Fresh a p path type j nd ∨ a.target p path ≠ none ∧ b.node = a.node) ∧
      St b [(ip, j)] [] [ip] g

/-- The inode `j` is new, and what was done to the directory can be undone. -/
structure New (q : Prop) (a : Abs) (p : ℕ) (path : List UInt8) (i j : ℕ) (b : Abs) : Prop where
  free : q → a.node j = none ∧ a.own j = 0
  unused : ∀ k, ¬Has a [] [] k j
  node : q → b.node i = a.node i
  dir : q → (a.parent p path).map Prod.fst = some i
  fresh : q → a.target p path = none
  pad : q → Padded (a.own i) (b.own i)
  calm : q → Calm a [] []

theorem Undone.of_same (hb : b.node = a.node ∧ b.own = a.own) : Undone a dir b :=
  ⟨hb.1, fun i => .inl (congrFun hb.2 i)⟩

theorem New.only (hn : New q a p path i j b) (hij : i ≠ j) (honly : q → Only j b b') :
    New q a p path i j b' :=
  { hn with
    node := fun h => ((honly h i hij).1).trans (hn.node h)
    pad := fun h => by
      rw [(honly h i hij).2]
      exact hn.pad h }

theorem New.undone {b₁ b₂ : Abs} (hn : New q a p path i j b) (hp : Pair q a dp i ip j nd ne b)
    (h0 : ne.nlink = 0) (hput₁ : Put b [(dp, i)] [] j true b₁) (hput₂ : Put b₁ [] [] i true b₂)
    (hq : q) : Undone a ((a.parent p path).map Prod.fst) b₂ := by
  have hgone : Gone b [(dp, i)] [] j := by
    refine ⟨⟨ne, hp.file, h0⟩, fun k hk => ?_⟩
    obtain hmem | hlt := hk
    · grind [hp.distinct]
    · exact hn.unused k (.inr (hp.trail.ent ▸ hlt))
  obtain rfl := hput₁.gone rfl hgone
  have hdir : (b.free j).node i = a.node i :=
    (update_of_ne hp.distinct ..).trans (hn.node hq)
  have hkept : ¬Gone (b.free j) [] [] i := by
    rintro ⟨⟨n, hnode, hzero⟩, hno⟩
    obtain ⟨k, hk⟩ := hn.calm hq i n (hdir.symm.trans hnode) hzero
    exact hno k (hp.trail.has hk)
  obtain rfl := hput₂.base.resolve_right fun h => hkept h.2
  obtain ⟨hnone, hown⟩ := hn.free hq
  refine ⟨funext fun m => ?_, fun m => ?_⟩
  · by_cases hmj : m = j
    · rw [hmj, hnone]
      exact update_self ..
    by_cases hmi : m = i
    · rw [hmi, hdir]
    · exact (update_of_ne hmj ..).trans (hp.trail.other hq m (by simp [hmi, hmj]))
  · by_cases hmj : m = j
    · left
      rw [hmj, hown]
      exact update_self ..
    have hsame : (b.free j).own m = b.own m := update_of_ne hmj ..
    rw [hsame]
    by_cases hmi : m = i
    · right
      rw [hmi]
      exact ⟨hn.dir hq, hn.pad hq⟩
    · exact .inl (hp.trail.own hq m (by simp [hmi, hmj]))

theorem createFail_spec (hE : Admits E) (hp : Pair q a dp i ip j nd ne b)
    (hn : New q a p path i j b) :
    Spec sb E (Pair.Locks b dp i ip j) (createFail dp ip) (Made q a p path type) := by
  refine Tri.bind₂ (nlink_spec (f := fun _ => 0) hE hp.trail.phase hp.lockedFile fun _ => rfl)
    fun _ => ?_
  have hp₁ := hp.setFile (show ({ ne with nlink := 0 } : Node).type = ne.type from rfl)
  have hn₁ := hn.only hp.distinct fun _ => Only.setNode b j (some { ne with nlink := 0 })
  refine (iunlockput_spec (.inl hE) hp₁.trail.phase).bind fun _ => Tri.exists_pre fun b₂ =>
    Tri.given fun hput₂ => ?_
  have ht₂ := hp₁.trail.put hput₂ (by simp)
  refine (iunlockput_spec (.inl hE) ht₂.phase).bind fun _ => Tri.exists_pre fun b₃ =>
    Tri.given fun hput₃ => Tri.pure fun g hg => ?_
  exact ⟨b₃, _, ht₂.put hput₃ (by simp), hn₁.undone hp₁ rfl hput₂ hput₃, hg⟩

theorem Padded.trans {o o' o'' : ℕ → ℕ} (h : Padded o o') (h' : Padded o' o'') : Padded o o'' := by
  intro k
  rcases h' k with heq | ⟨hk, hz⟩
  · rw [heq]
    exact h k
  · rcases h k with heq | hnew
    · exact .inr ⟨hk, heq ▸ hz⟩
    · exact .inr hnew

theorem createEntry_spec (hE : Admits E) (hp : Pair q a dp i ip j nd ne b)
    (hn : New q a p path i j b) (hmade : ne.type = type ∧ ne.nlink = 1) :
    Spec sb E (Pair.Locks b dp i ip j) (createEntry dp ip name type) (Made q a p path type) := by
  unfold createEntry
  refine (inode_spec hp.lockedFile).bind fun en => Tri.assume fun ⟨hinum, _, _⟩ => ?_
  rw [hinum]
  refine Tri.from_pre (fun s hwf hst => (hp.lockedFile.at hwf hst).lt) fun hj => ?_
  refine (hp.dirlink hE hj).bind fun r => Tri.exists_pre fun b₁ => Tri.exists_pre fun nd₁ =>
    Tri.given fun hp₁ => Tri.given fun _ => Tri.given fun _ => Tri.assume fun hr => ?_
  refine Tri.ite (fun hneg => ?_) fun _ => ?_
  · obtain ⟨rfl, -⟩ | ⟨-, rfl, hpad⟩ := hr
    · simp at hneg
    · refine createFail_spec hE hp₁ { hn with
        node := fun hq => ?_
        pad := fun hq => (hn.pad hq).trans (hpad hq) }
      rw [hp₁.dir, ← hp.dir]
      exact hn.node hq
  have hput : ∀ {b : Abs} {nd : Node}, Pair q a dp i ip j nd ne b →
      Spec sb E (Pair.Locks b dp i ip j) (do iunlockput dp; return some ip)
        (Made q a p path type) := by
    intro b nd hp
    refine ((iunlockput_spec (.inl hE) hp.trail.phase).pre fun g hg => hg.swap).bind fun _ =>
      Tri.exists_pre fun b₂ => Tri.given fun hput => Tri.pure fun g hg => ?_
    refine ⟨b₂, _, j, ne, hp.trail.put hput (by simp), by simp,
      (hput.quiet.keep ip j (.inl (by simp))).trans hp.file, fun ht => ?_,
      fun hq => .inl ⟨hn.fresh hq, (hn.free hq).1, hmade.1, hmade.2⟩, hg⟩
    rw [hmade.1, ht]
    decide
  refine Tri.ite (fun _ => ?_) fun _ => hput hp₁
  exact Tri.bind₂ (nlink_spec (f := fun x => short (x + 1)) hE hp₁.trail.phase hp₁.lockedDir
    fun x => short_short (x + 1)) fun _ => hput (hp₁.setDir
    (show ({ nd₁ with nlink := short (nd₁.nlink + 1) } : Node).type = nd₁.type from rfl))

def Node.made (type major minor : ℤ) : Node := ⟨type, major, minor, 1, []⟩

/-- Where `create` makes its inode: the directory is locked, and nothing has
changed before. -/
structure Parent (q : Prop) (a : Abs) (p : ℕ) (path : List UInt8) (i : ℕ)
    (nd : Node) (b : Abs) : Prop where
  trail : Trail q a [] {i} b
  node : b.node i = some nd
  same : q → b.node = a.node ∧ b.own = a.own
  dir : q → (a.parent p path).map Prod.fst = some i
  fresh : q → a.target p path = none
  calm : q → Calm a [] []
  live : a.Live
  own : ∀ j, b.node j = none → b.own j = 0

namespace Parent

abbrev put (b : Abs) (j : ℕ) (nd : Node) : Abs := b.setNode j (some nd)

variable (hd : Parent q a p path i nd b)
include hd

theorem distinct (hfree : b.node j = none) : i ≠ j := by
  rintro rfl
  simp [hd.node] at hfree

theorem calm_base (hq : q) : Calm b [] [] :=
  (hd.calm hq).of_same (hd.same hq).1 hd.trail.ent

theorem pair (hfree : b.node j = none)
    (htype : type = T_DIR ∨ type = T_FILE ∨ type = T_DEVICE) (major minor : ℤ) (dp ip : ℕ) :
    Pair q a dp i ip j nd (.made type major minor)
      (put (put b j (.new type)) j (.made type major minor)) := by
  have hij := hd.distinct hfree
  have hnew : (put b j (.new type)).node j = some (.new type) := update_self ..
  have ht₁ : Trail q a [] {i, j} (put b j (.new type)) :=
    (hd.trail.grow (by simp)).setNode (by simp) (by simp [hfree]) fun _ => htype
  refine ⟨?_, hij, ?_, update_self .., fun hq => ?_⟩
  · refine ht₁.setNode (by simp) (fun n hn => ?_) (by simp [hnew])
    rw [hnew] at hn
    cases hn
    rfl
  · exact (update_of_ne hij ..).trans ((update_of_ne hij ..).trans hd.node)
  · have hcalm : Calm b [(ip, j), (dp, i)] [] := (hd.calm_base hq).mono (by simp)
    have hheld : Has b [(ip, j), (dp, i)] [] ip j := .inl (by simp)
    exact (hcalm.held hheld).held hheld

theorem new (hfree : b.node j = none) (n n' : Node) :
    New q a p path i j (put (put b j n) j n') where
  free hq := by
    rw [← (hd.same hq).1, ← (hd.same hq).2]
    exact ⟨hfree, hd.own j hfree⟩
  unused k hk := by
    have hnode : a.node j ≠ none := by
      obtain hmem | ⟨hlt, hj⟩ := hk
      · simp at hmem
      · exact hj ▸ hd.live k (by simpa using hlt)
    obtain ⟨nd', hnd'⟩ := Option.ne_none_iff_exists'.mp hnode
    obtain ⟨nd'', hnd'', -⟩ := hd.trail.type k j nd' hk hnd'
    simp [hfree] at hnd''
  node hq := by
    have hij := hd.distinct hfree
    have hsame : b.node i = a.node i := congrFun (hd.same hq).1 i
    exact (update_of_ne hij ..).trans ((update_of_ne hij ..).trans hsame)
  dir := hd.dir
  fresh := hd.fresh
  pad hq := by
    have hsame : b.own i = a.own i := congrFun (hd.same hq).2 i
    exact fun k => .inl (congrFun hsame k)
  calm := hd.calm

end Parent

theorem createNew_spec (hE : Admits E) (hd : Parent q a p path i nd b)
    (htype : type = T_DIR ∨ type = T_FILE ∨ type = T_DEVICE) (hmajor : short major = major)
    (hminor : short minor = minor) :
    Spec sb E (St b [(dp, i)] [] [dp]) (createNew dp name type major minor)
      (Made q a p path type) := by
  have hk : Locked b [(dp, i)] [] [dp] dp i nd := ⟨by simp, .inl (by simp), hd.node⟩
  have hshort : short type = type := by rcases htype with rfl | rfl | rfl <;> decide
  have hne : type ≠ 0 := by rcases htype with rfl | rfl | rfl <;> decide
  refine (inode_spec hk).bind fun en => Tri.assume fun ⟨_, hdev, _⟩ => ?_
  rw [hdev]
  refine (ialloc_spec hE hd.trail.phase hshort hne).bind fun r => ?_
  refine Tri.or_pre (Tri.given ?_) (Tri.exists_pre fun ip => Tri.exists_pre fun j =>
    Tri.given ?_)
  · rintro rfl
    refine (iunlockput_spec (.inl hE) hd.trail.phase).bind fun _ => Tri.exists_pre fun b₁ =>
      Tri.given fun hput => Tri.pure fun g hg => ?_
    refine ⟨b₁, {i}, hd.trail.put hput (by simp), fun hq => .of_same ?_, hg⟩
    rw [hput.quiet.calm (hd.calm_base hq)]
    exact hd.same hq
  · rintro rfl
    refine Tri.given fun _ => Tri.given fun hfree => ?_
    have hnew : (Parent.put b j (.new type)).node j = some (.new type) :=
      update_self ..
    have hheld : Has (Parent.put b j (.new type)) [(ip, j), (dp, i)] [] ip j := .inl (by simp)
    refine (ilock_spec (.inl (hE _ rfl)) hheld (.inr (by simp [hnew]))).bind fun _ =>
      Tri.assume fun _ => ?_
    have hlock : Locked (Parent.put b j (.new type)) [(ip, j), (dp, i)] [] [ip, dp] ip j
        (.new type) := ⟨by simp, hheld, hnew⟩
    have hupdate : Spec sb E (Pair.Locks (Parent.put b j (.new type)) dp i ip j)
        (do
          modifyDinode ip fun d => { d with major := major, minor := minor, nlink := 1 }
          iupdate ip) fun _ =>
        Pair.Locks (Parent.put (Parent.put b j (.new type)) j (.made type major minor)) dp i
          ip j := by
      refine update_spec hE hd.trail.phase hlock (fun e hok hshow => ?_) rfl rfl
      exact ⟨{ hok with major := hmajor, minor := hminor, nlink := rfl },
        ⟨hshow.type, rfl, rfl, rfl, hshow.size⟩, rfl⟩
    refine Tri.bind₂ hupdate fun _ => ?_
    have hp := hd.pair hfree htype major minor dp ip
    have hn := hd.new hfree (.new type) (.made type major minor)
    refine Tri.ite (fun _ => ?_) fun _ => createEntry_spec hE hp hn ⟨rfl, rfl⟩
    refine (createDots_spec hE hp).bind fun r => Tri.exists_pre fun b₁ => Tri.exists_pre fun ne =>
      Tri.given fun hp₁ => Tri.given fun ht => Tri.given fun honly => ?_
    have hn₁ := hn.only hp.distinct honly
    exact Tri.ite (fun _ => createEntry_spec hE hp₁ hn₁ ht) fun _ => createFail_spec hE hp₁ hn₁

theorem create_spec {b₀ : Abs} (hE : Admits E) (hno : E (.panic .ilockNoType))
    (ht₀ : Trail q a [] ∅ b₀) (hcwd : KeepsCwd a [] p) (hcalm : q → Calm a [] []) (hlive : a.Live)
    (htype : type = T_DIR ∨ type = T_FILE ∨ type = T_DEVICE) (hmajor : short major = major)
    (hminor : short minor = minor) :
    Spec sb E (St b₀ [] [] []) (create p path type major minor) (Made q a p path type) := by
  have hsame₀ := ht₀.same
  have hcalm₀ : q → Calm b₀ [] [] := fun hq => (hcalm hq).of_same (hsame₀ hq).1 ht₀.ent
  have hcwd₀ : KeepsCwd b₀ [] p := by
    unfold KeepsCwd
    rw [ht₀.proc, ht₀.ent]
    exact hcwd
  -- what a lookup leaves unless it frees an inode
  have hquiet : ∀ {b h}, Quiet b₀ h [] b → q → b = b₀ := fun hq h =>
    hq.calm ((hcalm₀ h).mono (by simp))
  refine (nameiparent_spec (.of_admits hE (.inl hno)) ht₀.phase (.inl (hE _ rfl)) hcwd₀
    fun _ _ => .inl hno).bind fun r => ?_
  cases r with
  | none =>
    refine Tri.pure fun g ⟨b, hq, hst, _⟩ => ⟨b, ∅, ht₀.quiet hq hcalm₀, fun h => .of_same ?_,
      hst⟩
    rw [hquiet hq h]
    exact hsame₀ h
  | some r =>
    obtain ⟨dp, name⟩ := r
    refine Tri.exists_pre fun b => Tri.exists_pre fun i => Tri.given fun hq =>
      Tri.assume fun htarget => ?_
    have ht : Trail q a [] {i} b := (ht₀.quiet hq hcalm₀).grow (by simp)
    have hheld : Has b [(dp, i)] [] dp i := .inl (by simp)
    refine (ilock_spec (.inl (hE _ rfl)) hheld (.inl hno)).bind fun _ =>
      Tri.assume fun ⟨nd, hnode⟩ => ?_
    have hk : Locked b [(dp, i)] [] [dp] dp i nd := ⟨by simp, hheld, hnode⟩
    have hparent : q → a.parent p path = some (i, name) := fun h => by
      rw [← Abs.parent_congr (hsame₀ h).1 ht₀.proc ht₀.ent, htarget (hcalm₀ h)]
    refine (dirlookup_spec (.of_admits hE) hk).bind fun r => Tri.assume fun hdir => ?_
    have hlookup : q → a.target p path = (nd.lookup name).map nd.inum := fun h => by
      rw [hquiet hq h, (hsame₀ h).1] at hnode
      rw [Abs.target_of_parent (hparent h), Abs.entry_eq hnode hdir]
    cases r with
    | none =>
      refine Tri.assume fun hnone => ?_
      refine Tri.from_pre (c := ∀ j, b.node j = none → b.own j = 0) (fun s _ hst j hj => ?_)
        fun hown => ?_
      · rw [← hst.node] at hj
        rw [← hst.blocks]
        exact funext (Disk.own_of_type (Disk.node_eq_none.mp hj))
      refine createNew_spec hE ⟨ht, hnode, fun h => ?_, fun h => ?_, fun h => ?_, hcalm, hlive,
        hown⟩ htype hmajor hminor
      · rw [hquiet hq h]
        exact hsame₀ h
      · rw [hparent h]
        rfl
      · rw [hlookup h, hnone]
        rfl
    | some r =>
      obtain ⟨ip, off⟩ := r
      refine Tri.exists_pre fun e => Tri.assume fun ⟨_, hfound⟩ => ?_
      have hput : Spec sb E (St b ((ip, nd.inum e) :: [(dp, i)]) [] [dp]) (iunlockput dp)
          fun _ g => ∃ b', Put b [(ip, nd.inum e)] [] i true b' ∧
            St b' [(ip, nd.inum e)] [] [] g :=
        (iunlockput_spec (.inl hE) ht.phase).pre fun g hg => hg.perm (.swap _ _ _) (.refl _)
      refine hput.bind fun _ => Tri.exists_pre fun b₁ => Tri.given fun hput₁ => ?_
      have hsame₁ : q → b₁ = b₀ := fun h => by
        obtain rfl := hquiet hq h
        exact hquiet hput₁.quiet h
      have ht₁ : Trail q a [] {i, nd.inum e} b₁ := (ht.put hput₁ (by simp)).grow (by simp)
      have hheld₁ : Has b₁ [(ip, nd.inum e)] [] ip (nd.inum e) := .inl (by simp)
      refine (ilock_spec (.inl (hE _ rfl)) hheld₁ (.inl hno)).bind fun _ =>
        Tri.assume fun ⟨ne, hnode₁⟩ => ?_
      have hk₁ : Locked b₁ [(ip, nd.inum e)] [] [ip] ip (nd.inum e) ne :=
        ⟨by simp, hheld₁, hnode₁⟩
      refine (inode_spec hk₁).bind fun en => Tri.assume fun ⟨_, _, hshow⟩ => ?_
      rw [hshow.type]
      refine Tri.ite (fun hfile => Tri.pure fun g hg => ?_) fun _ => ?_
      · refine ⟨b₁, _, _, ne, ht₁, by simp, hnode₁, fun _ hdir => ?_,
          fun h => .inr ⟨?_, ?_⟩, hg⟩
        · rw [hdir] at hfile
          exact absurd hfile.2 (by decide)
        · rw [hlookup h, hfound]
          exact Option.some_ne_none _
        · rw [hsame₁ h]
          exact (hsame₀ h).1
      · refine (iunlockput_spec (.inl hE) ht₁.phase).bind fun _ => Tri.exists_pre fun b₂ =>
          Tri.given fun hput₂ => Tri.pure fun g hg => ?_
        refine ⟨b₂, _, ht₁.put hput₂ (by simp), fun h => .of_same ?_, hg⟩
        obtain rfl := hsame₁ h
        rw [hquiet hput₂.quiet h]
        exact hsame₀ h

theorem Undone.bit {D D' : Disk} (hu : Undone a dir b) (ha : a.own = D.own) (hb : b.own = D'.own)
    (howns : Owns sb D ∅) (howns' : Owns sb D' ∅) {k : ℕ} (hk : k < sb.size) :
    D'.bit k = true ↔ D.bit k = true ∨
      ∃ i, dir = some i ∧ D.own i NDIRECT = 0 ∧ D'.own i NDIRECT = k ∧ k ≠ 0 := by
  rw [howns.bit k hk, howns'.bit k hk]
  -- a position of an inode is as before, or it is the new indirect block
  have hpos : ∀ i p, D'.own i p = D.own i p ∨ dir = some i ∧ p = NDIRECT ∧ D.own i p = 0 := by
    intro i p
    rw [← ha, ← hb]
    obtain hsame | ⟨hdir, hpad⟩ := hu.own i
    · exact .inl (congrFun hsame p)
    · exact (hpad p).imp_right fun h => ⟨hdir, h⟩
  constructor
  · grind
  · grind

/-- A `create` that returns no inode has left every inode with its fields and
its content as they were, and the blocks in use are those of before but for
an indirect block that the parent directory has got. -/
theorem failed_create_undone {s s' : Fs} (hwf : Wf sb s) (hph : phase s.trace = some true)
    (hlive : s.abs.Live) (hcalm : Calm s.abs [] []) (hcwd : KeepsCwd s.abs [] p)
    (htype : type = T_DIR ∨ type = T_FILE ∨ type = T_DEVICE) (hmajor : short major = major)
    (hminor : short minor = minor)
    (hrun : (create p path type major minor).run s = .ok (none, s')) :
    s'.view.node = s.view.node ∧
    ∀ k < sb.size, s'.view.bit k = true ↔ s.view.bit k = true ∨
      ∃ i, (s.abs.parent p path).map Prod.fst = some i ∧ s.view.own i NDIRECT = 0 ∧
        s'.view.own i NDIRECT = k ∧ k ≠ 0 := by
  have hspec : Spec sb (fun _ => True) (St s.abs [] [] []) (create p path type major minor)
      (Made True s.abs p path type) :=
    create_spec (fun _ _ => trivial) trivial (.within hph) hcwd (fun _ => hcalm) hlive htype hmajor
      hminor
  obtain ⟨hwf', b, J, -, hundone, hst⟩ :=
    hspec.ok hwf (.refl s.abs hwf.tab.ref) hrun
  have hundone := hundone trivial
  refine ⟨hst.node.trans hundone.node, fun k hk => ?_⟩
  exact hundone.bit rfl hst.blocks.symm hwf.low.owns hwf'.low.owns hk

/-- `create` of a directory when there is no block for its entries. -/
theorem failed_create_undone_diskFull :
    ∃ s', (create 0 [slash, 100] T_DIR 0 0).run (fileImage.booted mkfsSuperblock true [true] 0) =
        .ok (none, s') ∧
      s'.view.node = (fileImage.booted mkfsSuperblock true [true] 0).view.node := by
  obtain ⟨r, s', hrun, hr⟩ := exists_of_returns (f := create 0 [slash, 100] T_DIR 0 0)
    (p := fun r _ => decide (r = none)) (s := fileImage.booted mkfsSuperblock true [true] 0)
    (by decide +kernel)
  obtain rfl := of_decide_eq_true hr
  exact ⟨s', hrun, (failed_create_undone (fileImage_ok.wf_booted mkfsSuperblock_geometry
    fileImage_settled) Image.phase_booted (fileImage_ok.live_booted mkfsSuperblock_geometry
    fileImage_settled) (fileImage_ok.calm_booted mkfsSuperblock_geometry fileImage_settled)
    Image.keepsCwd_booted (.inl rfl) rfl rfl hrun).1⟩

end Create

end Xv6
