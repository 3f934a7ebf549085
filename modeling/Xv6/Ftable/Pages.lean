import Xv6.Ftable.Objects

/-!
The pages of pipes.

A page is a pipe from `pipealloc` on until both ends are closed. Its flags say
which ends are, and files that are open for an end find their pipe in it.
-/

namespace Xv6.Ftable

open List
open Sys
open Function (update update_self update_of_ne)

variable {N : ℕ}

def Page.isOpen (x : Page) (w : Bool) : Bool := if w then x.writeopen else x.readopen

theorem Page.isOpen_close (x : Page) (w w' : Bool) :
    (x.close w).isOpen w' = (x.isOpen w' && w != w') := by
  cases w <;> cases w' <;> simp [Page.close, Page.isOpen]

theorem Page.id_close (x : Page) (w : Bool) : (x.close w).id = x.id := by
  cases w <;> rfl

structure Page.Live (s : Sys N) (x : Page) : Prop where
  opened : ∀ w, s.opened (.pipe x.id w) = 1
  ends : ∀ w, x.isOpen w = true ↔ s.closed (.pipe x.id w) = 0
  some : ∃ w, x.isOpen w = true
  freed : s.freed x.id = 0

def Backed (s : Sys N) (x : File) : Prop :=
  x.type = .FD_PIPE → ∃ y, s.page x.pipe = some y ∧ y.id = x.id

def Pc.Backed (s : Sys N) : Pc N → Prop
  | .release ff _ => Ftable.Backed s ff
  | _ => True

/-- A pipe is there from `pipealloc` on until both ends are closed. -/
structure Pages (s : Sys N) : Prop where
  file : ∀ f, Backed s (s.file f)
  drop : ∀ p, (s.pc p).Backed s
  live : ∀ pi x, s.page pi = some x → x.Live s
  inj : ∀ pi pi' x y, s.page pi = some x → s.page pi' = some y → x.id = y.id → pi = pi'
  gone : ∀ n w, s.opened (.pipe n w) = 1 → (∃ pi x, s.page pi = some x ∧ x.id = n) ∨
    s.freed n = 1 ∧ ∀ w', s.closed (.pipe n w') = 1
  never : ∀ n w, s.opened (.pipe n w) = 0 → s.freed n = 0

namespace Pages

variable {s s' : Sys N} {p np : Fin N} {c c' : Pc N} {f g : ℕ}
variable {ff x : File} {k : Cont}

theorem backed_congr (hpage : s'.page = s.page) (h : Backed s x) : Backed s' x := by
  rw [Backed, hpage]
  exact h

theorem resume_backed (s : Sys N) (k : Cont) : (k.resume : Pc N).Backed s := by
  cases k <;> trivial

variable (h : Pages s)
include h

theorem frame (hpage : s'.page = s.page)
    (hopened : ∀ n w, s'.opened (.pipe n w) = s.opened (.pipe n w))
    (hclosed : ∀ n w, s'.closed (.pipe n w) = s.closed (.pipe n w))
    (hfreed : ∀ n, s'.freed n = s.freed n) (hfile : ∀ f, Backed s (s'.file f))
    (hdrop : ∀ p, (s'.pc p).Backed s) : Pages s' := by
  refine ⟨fun f => backed_congr hpage (hfile f), fun p => ?_, fun pi x hx => ?_, ?_,
    fun n w hn => ?_,
    fun n w hn => ?_⟩
  · have := hdrop p
    revert this
    cases s'.pc p with
    | release ff k => exact backed_congr hpage
    | _ => exact id
  · rw [hpage] at hx
    obtain ⟨h₁, h₂, h₃, h₄⟩ := h.live pi x hx
    exact ⟨fun w => (hopened _ w).trans (h₁ w), fun w => by rw [hclosed]; exact h₂ w, h₃,
      (hfreed _).trans h₄⟩
  · rw [hpage]
    exact h.inj
  · rw [hpage, hfreed]
    simp only [hclosed]
    exact h.gone n w (hopened n w ▸ hn)
  · rw [hfreed]
    exact h.never n w (hopened n w ▸ hn)

theorem drop_goto (hpc : s'.pc = update s.pc p c') (hc' : c'.Backed s) :
    ∀ p, (s'.pc p).Backed s := by
  intro q
  rw [hpc]
  rcases eq_or_ne q p with rfl | hq
  · rw [update_self]
    exact hc'
  · rw [update_of_ne hq]
    exact h.drop q

theorem move (hpage : s'.page = s.page) (hlog : s'.log = s.log) (hfile : ∀ f, Backed s (s'.file f))
    (hpc : s'.pc = update s.pc p c') (hc' : c'.Backed s) : Pages s' :=
  h.frame hpage (fun _ _ => by rw [opened, opened, hlog]) (fun _ _ => by rw [closed, closed, hlog])
    (fun _ => by rw [freed, freed, hlog]) hfile (h.drop_goto hpc hc')

theorem goto (hc' : c'.Backed s) : Pages (s.goto p c') :=
  h.move rfl rfl h.file rfl hc'

theorem file_setFile (hx : Backed s x) : ∀ f, Backed s (update s.file g x f) := by
  intro f
  rcases eq_or_ne f g with rfl | hne
  · rw [update_self]
    exact hx
  · rw [update_of_ne hne]
    exact h.file f

theorem setRef {n : ℤ} (hc' : c'.Backed s) : Pages ((s.setRef f n).goto p c') :=
  h.move rfl rfl (h.file_setFile (h.file f)) rfl hc'

/-! ### Pipes come and go -/

theorem kalloc {f0 f1 pi : ℕ} (hobj : Objects s) (hpage : s.page pi = none) :
    Pages ((s.openPipe pi f0 f1).goto p (.pipeFd f0 f1)) := by
  set s' := (s.openPipe pi f0 f1).goto p (.pipeFd f0 f1) with hs'
  have hself : s'.page pi = some ⟨true, true, s.next⟩ := update_self ..
  have hother : ∀ pi', pi' ≠ pi → s'.page pi' = s.page pi' := fun pi' hne =>
    update_of_ne hne ..
  have hopened : ∀ n w, s'.opened (.pipe n w) =
      s.opened (.pipe n w) + if n = s.next then 1 else 0 := by
    intro n w
    show count _ (_ :: _ :: s.log) = _
    simp only [count_cons, beq_iff_eq, Event.opened.injEq, Obj.pipe.injEq, opened]
    cases w <;> simp [eq_comm]
  have hclosed : ∀ n w, s'.closed (.pipe n w) = s.closed (.pipe n w) := by
    intro n w
    show count _ (_ :: _ :: s.log) = _
    rw [count_cons_of_ne (by simp), count_cons_of_ne (by simp), closed]
  have hfreed : ∀ n, s'.freed n = s.freed n := by
    intro n
    show count _ (_ :: _ :: s.log) = _
    rw [count_cons_of_ne (by simp), count_cons_of_ne (by simp), freed]
  have hnew : ∀ w, s.opened (.pipe s.next w) = 0 := fun w => hobj.fresh _ le_rfl
  -- the number of the pipe is not in use
  have hid : ∀ pi' x, s.page pi' = some x → x.id ≠ s.next := by
    intro pi' x hx heq
    have h₁ := (h.live pi' x hx).opened true
    rw [heq, hnew] at h₁
    cases h₁
  have hne : ∀ pi' x, s.page pi' = some x → pi' ≠ pi := by grind
  have hback : ∀ x, Backed s x → Backed s' x := by
    intro x hx htype
    obtain ⟨y, hy, hyid⟩ := hx htype
    exact ⟨y, (hother _ (hne _ y hy)).trans hy, hyid⟩
  refine ⟨fun f => ?_, fun q => ?_, fun pi' x hx => ?_, fun pi₁ pi₂ x y hx hy hxy => ?_,
    fun n w hn => ?_,
    fun n w hn => ?_⟩
  · have hnewFile : ∀ (x : File) b, Backed s' (x.openPipe b pi s.next) := fun _ _ _ =>
      ⟨_, hself, rfl⟩
    show Backed s' (update (update s.file f0 _) f1 _ f)
    rcases eq_or_ne f f1 with rfl | hf1
    · rw [update_self]
      exact hnewFile _ _
    · grind [h.file]
  · show (update s.pc p _ q).Backed s'
    rcases eq_or_ne q p with rfl | hq
    · rw [update_self]
      trivial
    · rw [update_of_ne hq]
      have := h.drop q
      revert this
      cases s.pc q with
      | release ff k => exact hback ff
      | _ => exact id
  · rcases eq_or_ne pi' pi with rfl | hpi
    · rw [hself] at hx
      cases hx
      have hzero : ∀ w, s.closed (.pipe s.next w) = 0 := fun w => by
        have := hobj.balance (.pipe s.next w)
        rw [hnew] at this
        omega
      refine ⟨fun w => ?_, fun w => ?_, ⟨true, rfl⟩, ?_⟩
      · rw [hopened, hnew, if_pos rfl]
      · rw [hclosed, hzero]
        cases w <;> simp [Page.isOpen]
      · exact h.never _ true (hnew true)
    · grind [Pages, Page.Live]
  · grind [h.inj]
  · grind [h.gone]
  · rw [hopened] at hn
    exact h.never n w (by omega)

theorem backed_ne {y : Page} (hobj : Objects s) (hff : ff.type = .FD_PIPE)
    (hy : s.page ff.pipe = some y) (hyid : y.id = ff.id)
    (hread : (y.close ff.writable).readopen = false)
    (hwrite : (y.close ff.writable).writeopen = false) (hx : Backed s x) (htype : x.type = .FD_PIPE)
    (hheld : ∀ e, x.obj = some e → 1 ≤ held s e ∧ (ff.obj = some e → 2 ≤ held s e)) :
    x.pipe ≠ ff.pipe := by
  intro hpipe
  obtain ⟨z, hz, hzid⟩ := hx htype
  rw [hpipe, hy] at hz
  cases hz
  obtain ⟨h₁, h₂⟩ := hheld _ (obj_pipe htype)
  obtain ⟨hclosed, -, hone⟩ := hobj.closed_of_held h₁
  rcases eq_or_ne x.writable ff.writable with hw | hw
  · have := h₂ (by rw [obj_pipe hff, hw, ← hyid, hzid])
    omega
  · -- the other end would still be open
    have hopen : y.isOpen x.writable = true := by
      rw [(h.live _ y hy).ends, hzid]
      exact hclosed
    have hclose : ∀ w, (y.close ff.writable).isOpen w = false := by
      intro w
      cases w
      · exact hread
      · exact hwrite
    have := hclose x.writable
    rw [Page.isOpen_close, hopen, Bool.true_and] at this
    simp only [bne_eq_false_iff_eq] at this
    exact hw this.symm

theorem page_id {x : Page} (hc : s.pc p = .release ff k) (htype : ff.type = .FD_PIPE)
    (hx : s.page ff.pipe = some x) : x.id = ff.id := by
  have hback := h.drop p
  rw [hc] at hback
  obtain ⟨y, hy, hyid⟩ := hback htype
  rw [hx] at hy
  cases hy
  exact hyid

theorem close_first {x : Page} (hobj : Objects s) (hc : s.pc p = .release ff k)
    (htype : ff.type = .FD_PIPE) (hx : s.page ff.pipe = some x)
    (hopen : (x.close ff.writable).readopen = true ∨ (x.close ff.writable).writeopen = true) :
    Pages (((s.record (.closed (.pipe ff.id ff.writable))).setPage ff.pipe
      (some (x.close ff.writable))).goto p k.resume) := by
  have hxid := h.page_id hc htype hx
  have hheld := held_drop (p := p) (by rw [hc]; exact obj_pipe htype)
  set s' := ((s.record (.closed (.pipe ff.id ff.writable))).setPage ff.pipe
    (some (x.close ff.writable))).goto p k.resume with hs'
  have hself : s'.page ff.pipe = some (x.close ff.writable) := update_self ..
  have hother : ∀ pi, pi ≠ ff.pipe → s'.page pi = s.page pi := fun pi hne =>
    update_of_ne hne ..
  have hopened : ∀ e, s'.opened e = s.opened e := fun e => count_cons_of_ne (by simp)
  have hclosed : ∀ e, s'.closed e =
      s.closed e + if Obj.pipe ff.id ff.writable = e then 1 else 0 := fun e => by
    show count _ (_ :: s.log) = _
    simp only [count_cons, beq_iff_eq, Event.closed.injEq, closed]
  have hfreed : ∀ n, s'.freed n = s.freed n := fun n => count_cons_of_ne (by simp)
  -- the page keeps its number
  have hkeep : ∀ pi y, s.page pi = some y → ∃ z, s'.page pi = some z ∧ z.id = y.id := by
    grind [x.id_close]
  have hkeep' : ∀ pi z, s'.page pi = some z → ∃ y, s.page pi = some y ∧ z.id = y.id := by grind
  have hback : ∀ y, Backed s y → Backed s' y := by
    intro y hy hty
    obtain ⟨z, hz, hzid⟩ := hy hty
    obtain ⟨z', hz', hzid'⟩ := hkeep _ z hz
    exact ⟨z', hz', hzid'.trans hzid⟩
  refine ⟨fun f => hback _ (h.file f), fun q => ?_, fun pi y hy => ?_,
    fun pi₁ pi₂ y z hy hz hyz => ?_,
    fun n w hn => ?_, fun n w hn => ?_⟩
  · show (update s.pc p _ q).Backed s'
    rcases eq_or_ne q p with rfl | hq
    · rw [update_self]
      exact resume_backed s' k
    · rw [update_of_ne hq]
      have := h.drop q
      revert this
      cases s.pc q with
      | release ff k => exact hback ff
      | _ => exact id
  · rcases eq_or_ne pi ff.pipe with rfl | hne
    · rw [hself] at hy
      cases hy
      obtain ⟨h₁, h₂, -, h₄⟩ := h.live _ x hx
      have hzero := (hobj.closed_of_held hheld).1
      refine ⟨fun w => ?_, fun w => ?_, ?_, ?_⟩
      · rw [hopened, Page.id_close]
        exact h₁ w
      · grind [Page.isOpen_close]
      · exact hopen.elim (fun ho => ⟨false, ho⟩) fun ho => ⟨true, ho⟩
      · rw [hfreed, Page.id_close]
        exact h₄
    · rw [hother pi hne] at hy
      obtain ⟨h₁, h₂, h₃, h₄⟩ := h.live pi y hy
      have hid : y.id ≠ ff.id := fun heq => hne (h.inj pi ff.pipe y x hy hx (heq.trans hxid.symm))
      refine ⟨fun w => (hopened _).trans (h₁ w), fun w => ?_, h₃, (hfreed _).trans h₄⟩
      rw [hclosed, if_neg (by simp [hid.symm]), add_zero]
      exact h₂ w
  · grind [h.inj]
  · grind [h.gone]
  · rw [hfreed]
    exact h.never n w (hopened _ ▸ hn)

theorem close_last {x : Page} (hobj : Objects s) (htyp : Typed s) (hc : s.pc p = .release ff k)
    (htype : ff.type = .FD_PIPE) (hx : s.page ff.pipe = some x)
    (hread : (x.close ff.writable).readopen = false)
    (hwrite : (x.close ff.writable).writeopen = false) :
    Pages ((((s.record (.closed (.pipe ff.id ff.writable))).setPage ff.pipe none).record
      (.freed x.id)).goto p k.resume) := by
  have hxid := h.page_id hc htype hx
  have hdrops : (s.pc p).drops = some (.pipe ff.id ff.writable) := by
    rw [hc]
    exact obj_pipe htype
  have hzero := (hobj.closed_of_held (held_drop hdrops)).1
  set s' := (((s.record (.closed (.pipe ff.id ff.writable))).setPage ff.pipe none).record
    (.freed x.id)).goto p k.resume with hs'
  have hself : s'.page ff.pipe = none := update_self ..
  have hother : ∀ pi, pi ≠ ff.pipe → s'.page pi = s.page pi := fun pi hne =>
    update_of_ne hne ..
  have hopened : ∀ e, s'.opened e = s.opened e := fun e => by
    show count _ (_ :: _ :: s.log) = _
    rw [count_cons_of_ne (by simp), count_cons_of_ne (by simp), opened]
  have hclosed : ∀ e, s'.closed e =
      s.closed e + if Obj.pipe ff.id ff.writable = e then 1 else 0 := fun e => by
    show count _ (_ :: _ :: s.log) = _
    simp only [count_cons, beq_iff_eq, Event.closed.injEq, closed, reduceCtorEq, if_false,
      add_zero]
  have hfreed : ∀ n, s'.freed n = s.freed n + if ff.id = n then 1 else 0 := fun n => by
    show count _ (_ :: _ :: s.log) = _
    simp only [count_cons, beq_iff_eq, Event.freed.injEq, freed, reduceCtorEq, if_false,
      add_zero, hxid]
  have hback : ∀ y, Backed s y → (y.type = .FD_PIPE → y.pipe ≠ ff.pipe) → Backed s' y := by
    intro y hy hne hty
    obtain ⟨z, hz, hzid⟩ := hy hty
    exact ⟨z, (hother _ (hne hty)).trans hz, hzid⟩
  have hlive : ∀ pi y, s'.page pi = some y → s.page pi = some y ∧ y.id ≠ ff.id := by grind [h.inj]
  refine ⟨fun f => ?_, fun q => ?_, fun pi y hy => ?_, fun pi₁ pi₂ y z hy hz hyz => ?_,
    fun n w hn => ?_, fun n w hn => ?_⟩
  · refine hback (s.file f) (h.file f) fun hty => ?_
    have hlt : f < NFILE := htyp.lt f fun href => by
      rw [htyp.free f href] at hty
      cases hty
    refine h.backed_ne hobj htype hx hxid hread hwrite (h.file f) hty fun e he => ?_
    exact ⟨held_file hlt he, fun hff => held_file_drop hlt he (by rw [hc]; exact hff)⟩
  · show (update s.pc p _ q).Backed s'
    rcases eq_or_ne q p with rfl | hq
    · rw [update_self]
      exact resume_backed s' k
    · rw [update_of_ne hq]
      have hd := h.drop q
      rcases hcq : s.pc q with _ | _ | _ | _ | _ | _ | _ | _ | _ | _ | _ | _ | _ | _ | _ | _ | _ |
        _ | _ | _ | ⟨fq, kq⟩ | _
      case release =>
        rw [hcq] at hd
        refine hback fq hd fun hty => ?_
        refine h.backed_ne hobj htype hx hxid hread hwrite hd hty fun e he => ?_
        have hdq : (s.pc q).drops = some e := by
          rw [hcq]
          exact he
        exact ⟨held_drop hdq, fun hff => held_drop_drop hq hdq (by rw [hc]; exact hff)⟩
      all_goals trivial
  · obtain ⟨hy, hid⟩ := hlive pi y hy
    obtain ⟨h₁, h₂, h₃, h₄⟩ := h.live pi y hy
    refine ⟨fun w => (hopened _).trans (h₁ w), fun w => ?_, h₃, ?_⟩
    · rw [hclosed, if_neg (by simp [hid.symm]), add_zero]
      exact h₂ w
    · rw [hfreed, if_neg hid.symm, add_zero]
      exact h₄
  · exact h.inj pi₁ pi₂ y z (hlive pi₁ y hy).1 (hlive pi₂ z hz).1 hyz
  · obtain ⟨h₁, h₂, -, h₄⟩ := h.live _ x hx
    rcases eq_or_ne n ff.id with rfl | hne
    · refine .inr ⟨?_, fun w' => ?_⟩
      · rw [hfreed, if_pos rfl, ← hxid, h₄]
      · rw [hclosed]
        rcases eq_or_ne ff.writable w' with rfl | hw
        · rw [if_pos rfl, hzero]
        · -- the other end was closed before
          rw [if_neg (by simp [hw]), add_zero]
          have hshut : x.isOpen w' = false := by
            have hclose : (x.close ff.writable).isOpen w' = false := by
              cases w'
              · exact hread
              · exact hwrite
            rw [Page.isOpen_close] at hclose
            simpa [hw] using hclose
          have hne := mt (h₂ w').mpr (by rw [hshut]; exact Bool.false_ne_true)
          rw [hxid] at hne
          have hb := hobj.balance (.pipe ff.id w')
          have ho := hobj.once (.pipe ff.id w')
          omega
    · grind [h.gone]
  · rw [hopened] at hn
    have hne : ff.id ≠ n := by
      rintro rfl
      have := (h.live _ x hx).opened w
      rw [hxid, hn] at this
      cases this
    rw [hfreed, if_neg hne, add_zero]
    exact h.never n w hn

theorem run_step (hobj : Objects s) (htyp : Typed s) (hc : s.pc p = c)
    (hs : Run s p c s') : Pages s' := by
  cases hs with
  | dup | filealloc | pipe | pipe1 | forkDup => exact h.setRef trivial
  | noFile | openNoFd | pipeNoFile | pipe1NoFile | pipeNoFd | forkNone | exitNone | exitClose
  | exitEnd => exact h.goto trivial
  | openFd | openEnd | openFail | pipeFd | pipeNoFd1 | pipeFd1 | forkSet | exitClear
  | releaseInode => exact h.move rfl rfl h.file rfl trivial
  | @openSet o f fd =>
    refine h.frame rfl (fun n w => count_cons_of_ne (by simp))
      (fun n w => count_cons_of_ne (by simp)) (fun n => count_cons_of_ne (by simp))
      (h.file_setFile fun htype => ?_) (h.drop_goto rfl trivial)
    have := obj_openInode (s.file f) o s.next
    rw [obj_pipe htype] at this
    cases this
  | @forkEnd np i =>
    have h' : Pages (s.goto np .idle) := h.goto trivial
    exact h'.goto trivial
  | closeOne => exact h.setRef (resume_backed s _)
  | @closeLast f k => exact h.move rfl rfl (h.file_setFile nofun) rfl (h.file f)
  | releaseNone => exact h.goto (resume_backed s _)
  | releasePipe htype hclose =>
    cases hclose with
    | first hx hopen => exact h.close_first hobj hc htype hx hopen
    | last hx hread hwrite => exact h.close_last hobj htyp hc htype hx hread hwrite
  | put =>
    exact h.frame rfl (fun n w => count_cons_of_ne (by simp))
      (fun n w => count_cons_of_ne (by simp)) (fun n => count_cons_of_ne (by simp))
      h.file (h.drop_goto rfl (resume_backed s _))

theorem step {a : Act N} (hobj : Objects s) (htyp : Typed s) (hs : Step s a s') : Pages s' := by
  cases hs with
  | run hr => exact h.run_step hobj htyp rfl hr
  | fail => exact h
  | «open» | dup | close | noCopyout => exact h.move rfl rfl h.file rfl trivial
  | pipe | exit | noPage | copyout => exact h.goto trivial
  | @fork p np =>
    have h' : Pages (s.goto np .embryo) := h.goto trivial
    exact h'.goto trivial
  | kalloc _ hpage => exact h.kalloc hobj hpage

end Pages

end Xv6.Ftable
