import Xv6.Fs.Path

/-!
What an operation does to the base on its way.

`Trail q a d J b` says of the base `b` of a later state of the operation that began in
`a`: the inode table, the files and the processes are those of `a`, the inodes to which
`a` has a reference that was not dropped (`d`) have kept their type, and no inode outside
`J` has changed and none has other blocks. The last two are under a condition `q`, which
for a call with a path says that in `a` every inode without links is in use: otherwise
each step of a path lookup could free one. `Ended` is what is left of this when the
operation is over.
-/

namespace Xv6

open Function (update update_self update_of_ne)

def Abs.Kinds (b : Abs) : Prop :=
  ∀ i nd, b.node i = some nd → nd.type = T_DIR ∨ nd.type = T_FILE ∨ nd.type = T_DEVICE

structure Trail (q : Prop) (a : Abs) (d : List ℕ) (J : Finset ℕ) (b : Abs) : Prop where
  phase : b.phase = some true
  ftable : b.ftable = a.ftable
  proc : b.proc = a.proc
  ent : b.ent = a.ent
  type : ∀ k i nd, Has a [] d k i → a.node i = some nd →
    ∃ nd', b.node i = some nd' ∧ nd'.type = nd.type
  kinds : a.Kinds → b.Kinds
  other : q → ∀ i, i ∉ J → b.node i = a.node i
  own : q → ∀ i, i ∉ J → b.own i = a.own i

variable {a b b' : Abs} {h : List (ℕ × ℕ)} {d : List ℕ} {J J' : Finset ℕ} {i k : ℕ}
  {nd nd' : Node} {q : Prop}

namespace Trail

theorem start (hph : a.phase = some false) : Trail q a [] ∅ (a.event .beginOp) where
  phase := by simp [Abs.event, hph, phaseStep]
  ftable := rfl
  proc := rfl
  ent := rfl
  type _ _ nd _ hnd := ⟨nd, hnd, rfl⟩
  kinds hkinds := hkinds
  other _ _ _ := rfl
  own _ _ _ := rfl

theorem within (hph : a.phase = some true) : Trail q a [] ∅ a where
  phase := hph
  ftable := rfl
  proc := rfl
  ent := rfl
  type _ _ nd _ hnd := ⟨nd, hnd, rfl⟩
  kinds hkinds := hkinds
  other _ _ _ := rfl
  own _ _ _ := rfl

theorem same (ht : Trail q a d ∅ b) (hq : q) : b.node = a.node ∧ b.own = a.own :=
  ⟨funext fun i => ht.other hq i (by simp), funext fun i => ht.own hq i (by simp)⟩

variable (ht : Trail q a d J b)
include ht

theorem grow (hJ : J ⊆ J') : Trail q a d J' b :=
  { ht with
    other := fun hq i hi => ht.other hq i fun hmem => hi (hJ hmem)
    own := fun hq i hi => ht.own hq i fun hmem => hi (hJ hmem) }

theorem has (hk : Has a [] d k i) : Has b h d k i := by
  obtain hmem | hlt := hk
  · simp at hmem
  · exact .inr (ht.ent.symm ▸ hlt)

theorem setNode (hi : i ∈ J) (hold : ∀ nd, b.node i = some nd → nd'.type = nd.type)
    (hkind : b.node i = none → nd'.type = T_DIR ∨ nd'.type = T_FILE ∨ nd'.type = T_DEVICE) :
    Trail q a d J (b.setNode i (some nd')) :=
  { ht with
    type := fun k j nd hk hnd => by
      obtain ⟨nd₁, hnd₁, htype⟩ := ht.type k j nd hk hnd
      by_cases hj : j = i
      · subst hj
        exact ⟨nd', update_self .., (hold nd₁ hnd₁).trans htype⟩
      · exact ⟨nd₁, (update_of_ne hj ..).trans hnd₁, htype⟩
    kinds := fun hk j nd hnd => by
      by_cases hj : j = i
      · subst hj
        simp only [Abs.setNode, update_self, Option.some.injEq] at hnd
        subst hnd
        cases hb : b.node j with
        | none => exact hkind hb
        | some nd₁ => exact hold nd₁ hb ▸ ht.kinds hk j nd₁ hb
      · exact ht.kinds hk j nd ((update_of_ne hj ..).symm.trans hnd)
    other := fun hq j hj => by
      have hne : j ≠ i := fun hji => hj (hji ▸ hi)
      exact (update_of_ne hne ..).trans (ht.other hq j hj) }

theorem setOwn (hi : i ∈ J) (o : ℕ → ℕ) : Trail q a d J (b.setOwn i o) :=
  { ht with
    own := fun hq j hj => by
      have hne : j ≠ i := fun hji => hj (hji ▸ hi)
      exact (update_of_ne hne ..).trans (ht.own hq j hj) }

theorem free (hgone : Gone b h d i) (hi : i ∈ J) : Trail q a d J (b.free i) := by
  refine (setOwn (b := b.setNode i none) { ht with
    type := fun k j nd hk hnd => ?_
    kinds := fun hk j nd hnd => ?_
    other := fun hq j hj => ?_ } hi 0)
  · have hj : j ≠ i := fun hj => hgone.2 k (hj ▸ ht.has hk)
    obtain ⟨nd', hnd', htype⟩ := ht.type k j nd hk hnd
    exact ⟨nd', (update_of_ne hj ..).trans hnd', htype⟩
  · by_cases hj : j = i
    · simp [hj, Abs.setNode] at hnd
    · exact ht.kinds hk j nd ((update_of_ne hj ..).symm.trans hnd)
  · have hne : j ≠ i := fun hji => hj (hji ▸ hi)
    exact (update_of_ne hne ..).trans (ht.other hq j hj)

theorem put {v : Bool} (hput : Put b h d i v b') (hi : i ∈ J) : Trail q a d J b' := by
  rcases hput.base with rfl | ⟨rfl, hgone⟩
  · exact ht
  · exact ht.free hgone hi

theorem quiet (hq : Quiet b h d b')
    (hcalm : q → Calm b h d) : Trail q a d J b' where
  phase := hq.phase.trans ht.phase
  ftable := hq.ftable.trans ht.ftable
  proc := hq.proc.trans ht.proc
  ent := hq.ent.trans ht.ent
  type k i nd hk hnd := by
    obtain ⟨nd', hnd', htype⟩ := ht.type k i nd hk hnd
    exact ⟨nd', (hq.keep k i (ht.has hk)).trans hnd', htype⟩
  kinds hk i nd hnd := ht.kinds hk i nd (hq.sub i nd hnd)
  other hc i hi := by
    rw [hq.calm (hcalm hc)]
    exact ht.other hc i hi
  own hc i hi := by
    rw [hq.calm (hcalm hc)]
    exact ht.own hc i hi

end Trail

structure Ended (a : Abs) (d : List ℕ) (b : Abs) : Prop where
  phase : b.phase = some false
  ftable : b.ftable = a.ftable
  proc : b.proc = a.proc
  ent : b.ent = a.ent
  type : ∀ k i nd, Has a [] d k i → a.node i = some nd →
    ∃ nd', b.node i = some nd' ∧ nd'.type = nd.type
  kinds : a.Kinds → b.Kinds

theorem Trail.finish (ht : Trail q a d J b) : Ended a d (b.event .endOp) where
  phase := by simp [Abs.event, ht.phase, phaseStep]
  ftable := ht.ftable
  proc := ht.proc
  ent := ht.ent
  type := ht.type
  kinds := ht.kinds

/-! ### Files and processes -/

def Abs.setFile (b : Abs) (f : ℕ) (x : File) : Abs :=
  { b with ftable := update b.ftable f x }

def Abs.setProc (b : Abs) (p : ℕ) (x : Proc) : Abs := { b with proc := update b.proc p x }

theorem Trail.setFile (ht : Trail q a d J b) (f : ℕ) (x : File) :
    Trail q (a.setFile f x) d J (b.setFile f x) :=
  { ht with ftable := by simp only [Abs.setFile, ht.ftable] }

theorem Trail.setProc (ht : Trail q a d J b) (p : ℕ) (x : Proc) :
    Trail q (a.setProc p x) d J (b.setProc p x) :=
  { ht with proc := by simp only [Abs.setProc, ht.proc] }

/-! ### What is still in use -/

theorem Calm.of_same (hcalm : Calm a h d) (hnode : b.node = a.node) (hent : b.ent = a.ent) :
    Calm b h d := by
  unfold Calm Has
  rw [hnode, hent]
  exact hcalm

theorem Calm.held (hcalm : Calm b h d) (hk : Has b h d k i) : Calm (b.setNode i (some nd)) h d := by
  intro j n hn h0
  by_cases hj : j = i
  · exact ⟨k, hj ▸ hk⟩
  · exact hcalm j n ((update_of_ne hj ..).symm.trans hn) h0

end Xv6
