import Xv6.Fs.Create

/-!
Opening files, and the other calls that end in `create`.

`sys_open` looks a path up or creates it, and then needs a file structure and a
descriptor. If one of them is missing it gives the inode back, but not what
`create` has made: the call returns -1 and the new file stays. In every other
case a failed call leaves the nodes, the files and the descriptors as they
were.
-/

namespace Xv6

open Function (update update_self update_of_ne update_idem)

variable {sb : Superblock} {E : Stop → Prop} {q : Prop} {a a' b g : Abs} {ip i j f p omode : ℕ}
  {nd : Node} {J : Finset ℕ} {path : List UInt8}
variable {r : ℤ} {new : Prop}

/-! ### The pointers to inodes -/

theorem Abs.refs_setFile (a : Abs) (hf : f < NFILE) (x : File) (k : ℕ) :
    (a.setFile f x).refs k + (if (a.ftable f).inode = some k then 1 else 0) =
      a.refs k + (if x.inode = some k then 1 else 0) := by
  have hupd : (fun f' => ((a.setFile f x).ftable f').inode) =
      update (fun f' => (a.ftable f').inode) f x.inode := by
    funext f'
    by_cases hf' : f' = f <;> simp [Abs.setFile, hf']
  have hcnt := cnt_update (fun f' => (a.ftable f').inode) (Finset.mem_range.mpr hf) x.inode (some k)
  rw [Abs.refs, Abs.refs, hupd]
  change _ + cnt (Finset.range NPROC) (fun p => (a.proc p).cwd) (some k) + _ = _
  omega

theorem Abs.refs_setOfile (a : Abs) (p : ℕ) (o : ℕ → Option ℕ) (k : ℕ) :
    (a.setProc p { a.proc p with ofile := o }).refs k = a.refs k := by
  have hcwd : (fun p' => ((a.setProc p { a.proc p with ofile := o }).proc p').cwd) =
      fun p' => (a.proc p').cwd := by
    funext p'
    by_cases hp' : p' = p <;> simp [Abs.setProc, hp']
  rw [Abs.refs, Abs.refs, hcwd]
  rfl

theorem FilesOk.inode_closed (h : FilesOk a) (hf : (a.ftable f).ref = 0) :
    (a.ftable f).inode = none := by
  simp [File.inode, h.closed f hf]

theorem Change.open (hok : FilesOk a) (hf : f < NFILE) (hfree : (a.ftable f).ref = 0) {x : File}
    (hx : x.inode = some ip) (href : x.ref ≠ 0) (hoff : x.off < 2 ^ 32) (p fd : ℕ) :
    Change a [(ip, j)] [] ((a.setFile f x).setProc p { a.proc p with
      ofile := update (a.proc p).ofile fd (some f) }) where
  ent := rfl
  node := rfl
  refs k := by
    have hcount := a.refs_setFile hf x k
    have hproc := (a.setFile f x).refs_setOfile p (update (a.proc p).ofile fd (some f)) k
    rw [hok.inode_closed hfree, hx] at hcount
    simp only [Abs.setFile, Abs.setProc] at hproc hcount ⊢
    by_cases hk : ip = k <;> simp [hk, holds] at hcount ⊢ <;> omega
  keep f' k hf' hk _ := by simpa using Abs.refs_pos hf' hk
  ok := by
    refine ⟨fun f' h0 => ?_, fun f' => ?_, fun p' fd' f' hfd => ?_, fun p' hst => ?_⟩
    · by_cases hf' : f' = f
      · subst hf'
        simp [Abs.setFile, Abs.setProc, href] at h0
      · simp only [Abs.setFile, Abs.setProc, update_of_ne hf'] at h0 ⊢
        exact hok.closed f' h0
    · by_cases hf' : f' = f
      · subst hf'
        simpa [Abs.setFile, Abs.setProc] using hoff
      · simpa only [Abs.setFile, Abs.setProc, update_of_ne hf'] using hok.off f'
    · by_cases hp' : p' = p
      · subst hp'
        simp only [Abs.setProc, update_self] at hfd
        by_cases hfd' : fd' = fd
        · grind
        · rw [update_of_ne hfd'] at hfd
          exact hok.fds p' fd' f' hfd
      · simp only [Abs.setProc, update_of_ne hp'] at hfd
        exact hok.fds p' fd' f' hfd
    · by_cases hp' : p' = p
      · subst hp'
        simp only [Abs.setProc, update_self] at hst ⊢
        exact hok.unused p' hst
      · simp only [Abs.setProc, update_of_ne hp'] at hst ⊢
        exact hok.unused p' hst

/-! ### Endings -/

structure Back (a g : Abs) : Prop where
  rest : Rest g
  since : Since a g
  ftable : g.ftable = a.ftable
  proc : g.proc = a.proc

theorem Back.of_trail (hrest : Rest a) (ht : Trail q a [] J b)
    (hst : St (b.event .endOp) [] [] [] g) : Back a g := by
  have hend := ht.finish
  have hfin := hrest.finish (.refl hrest.ok) hend hst (by simp) fun f k _ hk =>
    .inl (.inr ⟨rfl, rfl, rfl⟩)
  exact ⟨hfin.1, hfin.2, hst.ftable.trans hend.ftable, hst.proc.trans hend.proc⟩

theorem end_spec (hE : Admits E) (hrest : Rest a) (ht : Trail q a [] J b) (r : ℤ) :
    Spec sb E (St b [] [] []) (do endOp; return r) fun r' g =>
      r' = r ∧ Back a g ∧ g.node = b.node :=
  (endOp_spec hE ht.phase).bind fun _ => Tri.pure fun _ hg =>
    ⟨rfl, .of_trail hrest ht hg, hg.node⟩

theorem putEnd_spec (hE : Admits E) (hrest : Rest a) (ht : Trail q a [] J b) (hj : j ∈ J)
    (r : ℤ) :
    Spec sb E (St b [(ip, j)] [] [ip]) (do iunlockput ip; endOp; return r) fun r' g =>
      r' = r ∧ Back a g ∧ (g.node = b.node ∨ Gone b [] [] j) := by
  refine (iunlockput_spec (.inl hE) ht.phase).bind fun _ => Tri.exists_pre fun b' =>
    Tri.given fun hput => ?_
  refine (end_spec hE hrest (ht.put hput hj) r).mono fun r' g ⟨hr, hback, hnode⟩ =>
    ⟨hr, hback, ?_⟩
  rw [hnode]
  exact hput.base.imp (congrArg Abs.node) And.right

/-! ### `sys_open` -/

theorem fileclose_unused {h : List (ℕ × ℕ)} {d l : List ℕ} (href : (b.ftable f).ref = 1)
    (htype : (b.ftable f).type = .FD_NONE) :
    Spec sb E (St b h d l) (fileclose f) fun _ =>
      St (b.setFile f { b.ftable f with ref := 0, type := .FD_NONE }) h d l := by
  refine Tri.get_bind fun s _ hst => ?_
  rw [show s.ftable = b.ftable from hst.ftable]
  dsimp only
  rw [href, htype]
  refine Tri.ite (fun hlt => absurd hlt (by decide)) fun _ => ?_
  refine Tri.ite (fun hgt => absurd hgt (by decide)) fun _ => ?_
  exact modifyFile_spec.bind fun _ => Tri.ite (fun h => absurd h (by simp)) fun _ =>
    Tri.pure fun g hg => hg

structure Unopened (a b : Abs) (p j : ℕ) (nd : Node) (g : Abs) : Prop where
  back : Back a g
  node : g.node = b.node ∨ Gone b [] [] j
  why : nd.type = T_DEVICE ∨ (∀ f < NFILE, (a.ftable f).ref ≠ 0) ∨
    ∀ fd < NOFILE, (a.proc p).ofile fd ≠ none

def File.opened (ip omode : ℕ) (d : Dinode) (x : File) : File :=
  { x with
    type := if d.type = T_DEVICE then .FD_DEVICE else .FD_INODE
    major := if d.type = T_DEVICE then d.major else x.major
    off := if d.type = T_DEVICE then x.off else 0
    ip := ip
    readable := omode &&& O_WRONLY = 0
    writable := omode &&& O_WRONLY ≠ 0 ∨ omode &&& O_RDWR ≠ 0 }

theorem opened_inode (ip omode : ℕ) (d : Dinode) (x : File) :
    (File.opened ip omode d x).inode = some ip := by
  unfold File.inode File.opened
  by_cases h : d.type = T_DEVICE <;> simp [h]

theorem opened_mayHave {d : Dinode} (hd : d.type = nd.type)
    (hkind : nd.type = T_DIR ∨ nd.type = T_FILE ∨ nd.type = T_DEVICE)
    (hdir : omode ≠ O_RDONLY → nd.type ≠ T_DIR) (x : File) :
    (File.opened ip omode d x).MayHave nd := by
  intro htype hwrite
  have hmode : omode ≠ O_RDONLY := by
    rintro rfl
    simp [File.opened] at hwrite
  have hdev : nd.type ≠ T_DEVICE := by
    intro hdev
    simp [File.opened, hd, hdev] at htype
  tauto

def CanOpen (a : Abs) (p : ℕ) : Prop :=
  (∃ f < NFILE, (a.ftable f).ref = 0) ∧ ∃ fd < NOFILE, (a.proc p).ofile fd = none

theorem openInode_spec (hE : Admits E) (hrest : Rest a) (ht : Trail q a [] J b) (hj : j ∈ J)
    (hnode : b.node j = some nd) (hdir : omode ≠ O_RDONLY → nd.type ≠ T_DIR) :
    Spec sb E (St b [(ip, j)] [] [ip]) (openInode p ip omode) fun r g =>
      r = -1 ∧ Unopened a b p j nd g ∨ 0 ≤ r ∧ CanOpen a p ∧ Rest g ∧ Since a g := by
  have hk : Locked b [(ip, j)] [] [ip] ip j nd := ⟨by simp, .inl (by simp), hnode⟩
  -- the three exits that fail
  have hfail : (nd.type = T_DEVICE ∨ (∀ f < NFILE, (a.ftable f).ref ≠ 0) ∨
      ∀ fd < NOFILE, (a.proc p).ofile fd ≠ none) →
      Spec sb E (St b [(ip, j)] [] [ip]) (do iunlockput ip; endOp; return -1) fun r g =>
        r = -1 ∧ Unopened a b p j nd g ∨ 0 ≤ r ∧ CanOpen a p ∧ Rest g ∧ Since a g :=
    fun hwhy => (putEnd_spec hE hrest ht hj (-1)).mono fun r g ⟨hr, hback, hn⟩ =>
      .inl ⟨hr, hback, hn, hwhy⟩
  refine (inode_spec hk).bind fun en => Tri.assume fun ⟨_, _, hshow⟩ => ?_
  refine Tri.ite (fun hdev => hfail (.inl (hshow.type ▸ hdev.1))) fun _ => ?_
  refine filealloc_spec.bind fun r => Tri.or_pre (Tri.given ?_) (Tri.exists_pre fun f =>
    Tri.given ?_)
  · rintro ⟨rfl, hfull⟩
    exact hfail (.inr (.inl (ht.ftable ▸ hfull)))
  rintro rfl
  refine Tri.given fun hf => Tri.given fun hfree => ?_
  rw [ht.ftable] at hfree
  have hnone := hrest.ok.closed f hfree
  refine fdalloc_spec.bind fun r => Tri.or_pre (Tri.given ?_) (Tri.exists_pre fun fd =>
    Tri.given ?_)
  · rintro ⟨rfl, hfull⟩
    refine (fileclose_unused (by simp [Abs.setFile])
      (by simp [Abs.setFile, ht.ftable, hnone])).bind fun _ => ?_
    refine (hfail (.inr (.inr (ht.proc ▸ hfull)))).pre fun g hg => ?_
    -- the structure is as it was
    have hsame : ((b.setFile f { b.ftable f with ref := 1 }).setFile f
        { (b.setFile f { b.ftable f with ref := 1 }).ftable f with ref := 0, type := .FD_NONE }) =
        b := by
      simp only [Abs.setFile, update_self, update_idem]
      rw [← hnone, ← hfree, ← ht.ftable, Function.update_eq_self]
    rwa [hsame] at hg
  · rintro rfl
    refine Tri.given fun hfd => Tri.given fun hfdfree => ?_
    have hcan : CanOpen a p := ⟨⟨f, hf, hfree⟩, fd, hfd, ht.proc ▸ hfdfree⟩
    -- the file and the descriptor, from the state before the call on
    obtain ⟨x, hx⟩ : ∃ x, x = File.opened ip omode en.d { a.ftable f with ref := 1 } := ⟨_, rfl⟩
    obtain ⟨y, hy⟩ : ∃ y : Proc, y =
      { a.proc p with ofile := update (a.proc p).ofile fd (some f) } := ⟨_, rfl⟩
    have hfile : Spec sb E (St ((b.setFile f { b.ftable f with ref := 1 }).setProc p
        { b.proc p with ofile := update (b.proc p).ofile fd (some f) }) [(ip, j)] [] [ip])
        (modifyFile f (File.opened ip omode en.d)) fun _ =>
        St ((b.setFile f x).setProc p y) [(ip, j)] [] [ip] :=
      modifyFile_spec.mono fun _ g hg => by
        simpa only [Abs.setFile, Abs.setProc, update_self, update_idem, hx, hy,
          ht.ftable, ht.proc] using hg
    refine hfile.bind fun _ => ?_
    have ht₁ := (ht.setFile f x).setProc p y
    have hk₁ : Locked ((b.setFile f x).setProc p y) [(ip, j)] [] [ip] ip j nd :=
      ⟨by simp, .inl (by simp), hnode⟩
    have hchange : Change a [(ip, j)] [] ((a.setFile f x).setProc p y) := by
      rw [hx, hy]
      refine .open hrest.ok hf hfree (opened_inode ..) (by simp [File.opened]) ?_ p fd
      have hoff := hrest.ok.off f
      simp only [File.opened]
      split <;> omega
    have hdone : ∀ (b' : Abs) (nd' : Node),
        Trail q ((a.setFile f x).setProc p y) [] J b' → b'.node j = some nd' →
        nd'.type = nd.type →
        Spec sb E (St b' [(ip, j)] [] [ip]) (do iunlock ip; endOp; return (fd : ℤ)) fun r g =>
          r = -1 ∧ Unopened a b p j nd g ∨ 0 ≤ r ∧ CanOpen a p ∧ Rest g ∧ Since a g := by
      intro b' nd' ht' hnode' htype
      refine (iunlock_spec.mono fun _ _ h => h.1).bind fun _ => ?_
      refine (endOp_spec hE ht'.phase).bind fun _ => Tri.pure fun g hg =>
        .inr ⟨by simp, hcan, ?_⟩
      refine hrest.finish hchange ht'.finish hg ?_ fun f' k hf' hk' => ?_
      · intro x hx
        obtain rfl : x = (ip, j) := List.mem_singleton.mp hx
        exact Option.ne_none_iff_exists'.mpr ⟨nd', hnode'⟩
      · by_cases hff : f' = f
        · subst hff
          simp only [Abs.setProc, Abs.setFile, update_self] at hk' ⊢
          rw [hx, opened_inode, Option.some.injEq] at hk'
          refine .inr ⟨j, nd', by simp [hk'], hnode', ?_⟩
          rw [hx]
          refine opened_mayHave (hshow.type.trans htype.symm) ?_ ?_ _
          · exact ht'.kinds hrest.kinds j nd' hnode'
          · rw [htype]
            exact hdir
        · left
          right
          simp only [Abs.setProc, Abs.setFile, update_of_ne hff, and_self]
    refine Tri.ite (fun _ => ?_) fun _ => hdone _ nd ht₁ hnode rfl
    refine (itrunc_node hE ht₁.phase hk₁).bind fun _ =>
      hdone _ { nd with data := [] } ?_ (update_self ..) rfl
    refine (ht₁.setNode hj (fun n hn => ?_) fun hn => ?_).setOwn hj 0
    · grind [Locked]
    · grind [Disk.Shows]

/-- What `sys_open` leaves: if it fails, everything as it was, unless it has made a new
file. Such a file it can open if there is a file structure and a descriptor, and it leaves
it there if not. -/
structure Opened (q : Prop) (a : Abs) (p : ℕ) (new : Prop) (r : ℤ) (g : Abs) : Prop where
  rest : Rest g
  since : Since a g
  ftable : r = -1 → g.ftable = a.ftable
  proc : r = -1 → g.proc = a.proc
  node : r = -1 → q → ¬new → g.node = a.node
  stays : r = -1 → q → new → g.node ≠ a.node
  fails : q → new → (r = -1 ↔ ¬CanOpen a p)

theorem Opened.of_back (hback : Back a g) (hnode : q → g.node = a.node) (hnew : q → ¬new) :
    Opened q a p new r g :=
  ⟨hback.rest, hback.since, fun _ => hback.ftable, fun _ => hback.proc, fun _ hq _ => hnode hq,
    fun _ hq h => absurd h (hnew hq), fun hq h => absurd h (hnew hq)⟩

theorem Opened.of_old (hcalm : q → Calm a [] []) (hent : b.ent = a.ent)
    (hsame : q → b.node = a.node) (hnew : q → ¬new)
    (hr : r = -1 ∧ Unopened a b p j nd g ∨ 0 ≤ r ∧ CanOpen a p ∧ Rest g ∧ Since a g) :
    Opened q a p new r g := by
  obtain ⟨-, hun⟩ | ⟨hpos, -, hrest, hsince⟩ := hr
  · refine .of_back hun.back (fun hq => ?_) hnew
    have hgone : ¬Gone b [] [] j := ((hcalm hq).of_same (hsame hq) hent).not_gone
    exact (hun.node.resolve_right hgone).trans (hsame hq)
  · exact ⟨hrest, hsince, fun h => by omega, fun h => by omega, fun h => by omega,
      fun h => by omega, fun hq h => absurd h (hnew hq)⟩

theorem Opened.of_fresh (hnode : b.node j = some nd) (hfresh : Fresh a p path T_FILE j nd)
    (hnew : new) (hr : r = -1 ∧ Unopened a b p j nd g ∨ 0 ≤ r ∧ CanOpen a p ∧ Rest g ∧ Since a g) :
    Opened q a p new r g := by
  obtain ⟨rfl, hun⟩ | ⟨hpos, hcan, hrest, hsince⟩ := hr
  · refine ⟨hun.back.rest, hun.back.since, fun _ => hun.back.ftable, fun _ => hun.back.proc,
      fun _ _ h => absurd hnew h, fun _ _ _ heq => ?_, fun _ _ => iff_of_true rfl ?_⟩
    · -- it has a link, so it does not go
      have hgone : ¬Gone b [] [] j := by
        rintro ⟨⟨n, hn, h0⟩, -⟩
        rw [hnode] at hn
        cases hn
        rw [hfresh.nlink] at h0
        cases h0
      have hj := congrFun (hun.node.resolve_right hgone) j
      rw [heq, hfresh.node, hnode] at hj
      cases hj
    · -- it is no device, so a table is full
      rintro ⟨⟨f, hf, hf0⟩, fd, hfd, hfd0⟩
      rcases hun.why with hdev | hfull | hfull
      · rw [hfresh.type_eq] at hdev
        exact absurd hdev (by decide)
      · exact hfull f hf hf0
      · exact hfull fd hfd hfd0
  · exact ⟨hrest, hsince, fun h => by omega, fun h => by omega, fun h => by omega,
      fun h => by omega, fun _ _ => iff_of_false (by omega) (not_not.mpr hcan)⟩

theorem openCreated_spec (hE : Admits E) (hrest : Rest a) (hcalm : q → Calm a [] [])
    (c : Option ℕ) :
    Spec sb E (Made q a p path T_FILE c)
      (match c with
        | none => do
            endOp
            return -1
        | some ip => openInode p ip omode)
      (Opened q a p (c ≠ none ∧ a.target p path = none)) := by
  cases c with
  | none =>
    refine Tri.exists_pre fun b => Tri.exists_pre fun J => Tri.given fun ht =>
      Tri.given fun hundone => ?_
    refine (end_spec hE hrest ht (-1)).mono fun r g ⟨_, hback, hnode⟩ =>
      .of_back hback (fun hq => ?_) fun _ hnew => hnew.1 rfl
    rw [hnode]
    exact (hundone hq).node
  | some ip =>
    refine Tri.exists_pre fun b => Tri.exists_pre fun J => Tri.exists_pre fun j =>
      Tri.exists_pre fun nd => Tri.given fun ht => Tri.given fun hj =>
      Tri.given fun hnode => Tri.given fun hdir => Tri.given fun hcase => ?_
    refine (openInode_spec hE hrest ht hj hnode fun _ => hdir rfl).mono fun r g hr => ?_
    by_cases hq : q
    · rcases hcase hq with hfresh | ⟨hfound, hsame⟩
      · exact .of_fresh hnode hfresh ⟨Option.some_ne_none ip, hfresh.target⟩ hr
      · exact .of_old hcalm ht.ent (fun _ => hsame) (fun _ hnew => hfound hnew.2) hr
    · exact .of_old hcalm ht.ent (fun h => absurd h hq) (fun h => absurd h hq) hr

theorem openNamed_spec (hE : Admits E) (hno : E (.panic .ilockNoType)) (hrest : Rest a)
    (hp : p < NPROC) (hcalm : q → Calm a [] []) :
    Spec sb E (St (a.event .beginOp) [] [] []) (do
      match ← namei p path with
      | none => do
          endOp
          return -1
      | some ip => do
          ilock ip
          if (← inode ip).d.type = T_DIR ∧ omode ≠ O_RDONLY then
            iunlockput ip
            endOp
            return -1
          else openInode p ip omode) (Opened q a p False) := by
  have ht₀ : Trail q a [] ∅ (a.event .beginOp) := .start hrest.phase
  refine (namei_spec (.of_admits hE (.inl hno)) ht₀.phase (.inl (hE _ rfl)) (hrest.keepsCwd hp)
    fun _ _ => .inl hno).bind fun r => ?_
  cases r with
  | none =>
    refine Tri.exists_pre fun b => Tri.given fun hq => Tri.assume fun _ => ?_
    refine (end_spec hE hrest (ht₀.quiet hq hcalm) (-1)).mono
      fun r g ⟨_, hback, hnode⟩ => .of_back hback (fun h => ?_) fun _ => not_false
    rw [hnode, hq.calm (hcalm h)]
    rfl
  | some ip =>
    refine Tri.exists_pre fun b => Tri.exists_pre fun i => Tri.given fun hq =>
      Tri.assume fun _ => ?_
    have ht : Trail q a [] {i} b := (ht₀.quiet hq hcalm).grow (by simp)
    have hsame : q → b.node = a.node := fun h => by
      rw [hq.calm (hcalm h)]
      rfl
    have hheld : Has b [(ip, i)] [] ip i := .inl (by simp)
    refine (ilock_spec (.inl (hE _ rfl)) hheld (.inl hno)).bind fun _ =>
      Tri.assume fun ⟨nd, hnode⟩ => ?_
    have hk : Locked b [(ip, i)] [] [ip] ip i nd := ⟨by simp, hheld, hnode⟩
    refine (inode_spec hk).bind fun en => Tri.assume fun ⟨_, _, hshow⟩ => ?_
    rw [hshow.type]
    refine Tri.ite (fun _ => ?_) fun hdir => ?_
    · refine (putEnd_spec hE hrest ht (by simp) (-1)).mono
        fun r g ⟨_, hback, hput⟩ => .of_back hback (fun h => ?_) fun _ => not_false
      have hgone : ¬Gone b [] [] i := ((hcalm h).of_same (hsame h) ht.ent).not_gone
      exact (hput.resolve_right hgone).trans (hsame h)
    · refine (openInode_spec hE hrest ht (by simp) hnode fun hmode htype =>
        hdir ⟨htype, hmode⟩).mono fun r g hr =>
          .of_old hcalm ht.ent hsame (fun _ => not_false) hr

/-- A file is made that cannot be opened: the path leads nowhere, `create` returns an inode
for it, and there is no file structure or no descriptor. -/
structure Strands (s : Fs) (p : ℕ) (path : List UInt8) (omode : ℕ) : Prop where
  mode : omode &&& O_CREATE ≠ 0
  target : s.abs.target p path = none
  made : ∃ ip s', (do beginOp; create p path T_FILE 0 0 : M (Option ℕ)).run s = .ok (some ip, s')
  full : ¬CanOpen s.abs p

end Xv6
