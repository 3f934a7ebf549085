import Xv6.Virtio.Request

/-!
The driver and the device follow the protocol: every step keeps the invariant,
no step fails, and a call of `virtio_disk_rw` returns after its own request.
-/

namespace Xv6.Virtio

open Function (update update_self update_of_ne)

variable {N : ℕ} {β δ : Type} {s s' : Sys N β δ} {p : Fin N}

namespace Inv

theorem init (h : s.Init) : Inv s := by
  have hpoint : ∀ q, s.point q = none := fun q => by
    rw [Sys.point, h.pc]
    rfl
  have hchain : ∀ q, s.chain q = none := fun q => by
    rw [Sys.chain, hpoint]
    rfl
  refine ⟨⟨?_, ?_, ?_⟩, ⟨?_, ?_, ?_, ?_, fun i hi => ?_⟩, ⟨?_, ?_, ?_, ?_, ?_, ?_⟩, ?_, ?_⟩
  · simp [h.pc]
  · simp [hpoint]
  · simp [hpoint]
  · simp [hchain]
  · simp [hchain]
  · simp [hchain]
  · simp [hchain]
  · simp [hchain, h.free i hi]
  · simp [hpoint]
  · simp [hpoint]
  · simp [hpoint]
  · simp [h.hist]
  · simp [hpoint]
  · simp [hpoint]
  · constructor
    all_goals simp [hpoint, h.hist, h.dev, h.avail, h.used, h.usedIdx, Window]
  · constructor
    all_goals simp [Sys.jobs, h.hist, h.dev]

variable [DecidableEq β]

theorem freeChain_run {b : β} {idx : List ℕ} {n : ℕ} (h : Inv s)
    (hp : s.point p = some (.finish b idx n)) :
    ∃ t, (freeChain (idx.getD 0 0)).run
        (s.setInfo (idx.getD 0 0) ⟨none, (s.disk.info (idx.getD 0 0)).status⟩) = .ok ((), t) ∧
      Marked (s.setInfo (idx.getD 0 0) ⟨none, (s.disk.info (idx.getD 0 0)).status⟩) idx true t := by
  have hchain : s.chain p = some idx := chain_eq hp
  have hform := h.served.format p _ b idx hp rfl
  obtain ⟨i, j, k, rfl, -⟩ := hform.addr
  exact freeChainLoop_run (NUM + 1) hform.chained (h.split.nodup p _ hchain)
    (fun x hx => h.split.lt p _ x hchain hx) (fun x hx => h.split.held hchain hx) (by simp)

theorem run {k : Point β} (h : Inv s) (hpc : s.pc p = .run k) (hrun : Run s p k s') : Inv s' := by
  have hlock := h.ctl.holder p k hpc
  cases hrun with
  | alloc hlen hidx hmark => exact h.alloc hpc hlen hidx hmark
  | allocSleep hidx hmark => exact h.allocSleep hpc hidx hmark
  | format => exact h.format hpc
  | post => exact h.post hpc
  | publish => exact h.publish hpc
  | waitSleep hbusy =>
    refine h.stay (by rw [Sys.point, hpc]; rfl) (h.ctl.move hpc (.refl _) rfl rfl ?_ ?_)
    · refine .inr ⟨rfl, by simp, ?_⟩
      rintro _ ⟨⟩
      trivial
    · rintro _ _ ⟨⟩ hb
      exact hb
  | waitDone hbusy => exact h.waitDone hpc hbusy
  | finish hfree =>
    obtain ⟨t, hrun, hmark⟩ := h.freeChain_run (point_of_run hpc)
    rw [hrun] at hfree
    cases hfree
    exact h.finish hpc hmark
  | more hne =>
    refine h.pass ?_ ?_ (fun _ => ?_) (h.ctl.move hpc (.refl _) rfl rfl (.inl ⟨hlock, _, rfl⟩) ?_)
    · rw [point_of_run hpc]
      rintro _ ⟨⟩
      exact ⟨rfl, rfl⟩
    · rintro _ ⟨⟩
      exact ⟨rfl, rfl⟩
    · grind [h.rings.drvUsed, h.rings.usedIdx, h.rings.seen_le]
    · rintro _ _ ⟨⟩ ⟨⟩
  | leave heq =>
    refine h.pass ?_ (by rintro _ ⟨⟩) (by rintro ⟨⟩) (h.ctl.move hpc (.refl _) rfl rfl ?_ ?_)
    · rw [point_of_run hpc]
      rintro _ ⟨⟩
      exact ⟨rfl, rfl⟩
    · exact .inr ⟨rfl, by simp, by rintro _ ⟨⟩⟩
    · rintro _ _ ⟨⟩
  | handle hh =>
    obtain ⟨j, r, hj, hr, hring, hinfo, hseen⟩ :=
      h.handle_found (h.rings.more p (point_of_run hpc))
    obtain ⟨t, hrun, hhandled⟩ := handle_run hring hinfo
    rw [hrun] at hh
    cases hh
    exact h.handle hpc hj hr hseen rfl hhandled

theorem step {a : Act N β} (h : Inv s) (hs : Step s a s') : Inv s' := by
  cases hs with
  | @acquire p k hpc hlock =>
    have hp : s.point p = some k := by
      rw [Sys.point, hpc]
      rfl
    refine h.stay (c := .run k) hp.symm (h.ctl.acquire hpc hlock)
  | run hpc hrun => exact h.run hpc hrun
  | lock hpc hfree =>
    refine h.quiet ?_ rfl (fun _ _ _ => Iff.rfl) h.rings.more rfl rfl rfl rfl
    refine ⟨h.ctl.holder, h.ctl.entry, fun q k b hq hb => ?_⟩
    refine (update_of_ne ?_ _ _).trans (h.ctl.buf q k b hq hb)
    · rintro rfl
      have := h.ctl.buf q k _ hq hb
      rw [hfree] at this
      cases this
  | @unlock p b hpc hheld =>
    refine h.quiet ?_ rfl (fun _ _ _ => Iff.rfl) h.rings.more rfl rfl rfl rfl
    refine ⟨h.ctl.holder, h.ctl.entry, fun q k b' hq hb => ?_⟩
    have hq' := h.ctl.buf q k b' hq hb
    refine (update_of_ne ?_ _ _).trans hq'
    · rintro rfl
      have heq : p = q := Option.some.inj (hheld.symm.trans hq')
      rw [← heq, Sys.point, hpc] at hq
      cases hq
  | rw hpc hheld =>
    refine h.pass ?_ ?_ (by rintro ⟨⟩) (h.ctl.arrive (by simp [hpc]) (by simp) ?_ ?_)
    · rw [Sys.point, hpc]
      rintro _ ⟨⟩
    · rintro _ ⟨⟩
      exact ⟨rfl, rfl⟩
    · rintro _ ⟨⟩
      trivial
    · rintro _ _ ⟨⟩ ⟨⟩
      exact hheld
  | intr hpc =>
    refine h.pass ?_ ?_ (by rintro ⟨⟩) (h.ctl.arrive (by simp [hpc]) (by simp) ?_ ?_)
    · rw [Sys.point, hpc]
      rintro _ ⟨⟩
    · rintro _ ⟨⟩
      exact ⟨rfl, rfl⟩
    · rintro _ ⟨⟩
      trivial
    · rintro _ _ ⟨⟩ ⟨⟩
  | @kill p c k hpc =>
    have hp : s.point p = some k := by
      rw [Sys.point, hpc]
      rfl
    refine h.stay (c := .acquire k) hp.symm
      (h.ctl.arrive (by simp [hpc]) (by simp) ?_ fun k' b hk hb => ?_)
    · rintro _ ⟨⟩
      exact h.ctl.entry p k hp (by simp [hpc])
    · cases hk
      exact h.ctl.buf p k b hp hb
  | take hne => exact h.take hne
  | finish hj hcmd => grind [h.command, h.jobDone]
  | fill hj => exact h.fill hj
  | publish => exact h.shown

end Inv

variable [DecidableEq β]

theorem reachable_inv (h : Reachable Sys.Init (fun _ _ => True) Sys.step s) : Inv s :=
  h.invariant (fun _ hs => .init hs) fun _ _ _ hI _ hs => hI.step (step_cases hs)

/-! ### Faults -/

theorem Inv.run_disabled {e : Fault} (h : Inv s) (he : s.run p = .error e) : e = .disabled := by
  unfold Sys.run at he
  split at he
  next =>
    split_ifs at he
    cases he
    rfl
  next =>
    rcases alloc3Desc_run s with ⟨_, _, hrun, -⟩ | ⟨_, _, hrun, -⟩
    all_goals
      rw [hrun] at he
      cases he
  next => cases he
  next => cases he
  next => cases he
  next => split_ifs at he
  next b idx n hpc =>
    obtain ⟨t, hrun, -⟩ := h.freeChain_run (Inv.point_of_run hpc)
    dsimp only at he
    rw [hrun] at he
    cases he
  next => split_ifs at he
  next hpc =>
    obtain ⟨j, r, -, -, hring, hinfo, -⟩ := h.handle_found (h.rings.more p (Inv.point_of_run hpc))
    obtain ⟨t, hrun, -⟩ := handle_run hring hinfo
    rw [hrun] at he
    cases he
  next =>
    cases he
    rfl

theorem Inv.disabled {a : Act N β} {e : Fault} (h : Inv s) (he : s.step a = .error e) :
    e = .disabled := by
  cases a with
  | step p => exact h.run_disabled he
  | finish j =>
    simp only [Sys.step] at he
    split_ifs at he with hj
    · obtain ⟨data, store, hrun⟩ := h.command hj
      rw [hrun] at he
      cases he
    · cases he
      rfl
  | kill p => grind [Sys.step]
  | publish => cases he
  | _ => grind [Sys.step]

/-! ### Returning -/

/-- Only the last stretch of `virtio_disk_rw` and the end of
`virtio_disk_intr` lead out of the driver. -/
theorem Inv.out_of_run {q : Fin N} {k : Point β} (h : Inv s) (hpc : s.pc p = .run k)
    (hrun : Run s p k s') (hout : s'.pc q = .out) :
    s.pc q = .out ∨ q = p ∧ (k = .loop ∨ ∃ b idx n, k = .finish b idx n) := by
  have hwoke : ∀ {pc : Fin N → Pc β}, Woke s.pc pc → pc q = .out → s.pc q = .out := by
    intro pc hw hq
    rcases hw q with heq | ⟨_, _, -, hacq⟩
    · exact heq.symm.trans hq
    · rw [hq] at hacq
      cases hacq
  have hmove : ∀ {pc : Fin N → Pc β} {c : Pc β}, Woke s.pc pc → c ≠ .out →
      update pc p c q = .out → s.pc q = .out := by grind
  have hleave : ∀ {pc : Fin N → Pc β}, Woke s.pc pc → update pc p .out q = .out →
      s.pc q = .out ∨ q = p := by grind
  cases hrun with
  | alloc _ _ hmark | allocSleep _ hmark => exact .inl (hmove hmark.pc (by simp) hout)
  | format | post | publish | waitSleep _ | waitDone _ | more _ =>
    exact .inl (hmove (.refl _) (by simp) hout)
  | @finish b idx n s' hfree =>
    obtain ⟨t, hrun, hmark⟩ := h.freeChain_run (Inv.point_of_run hpc)
    rw [hrun] at hfree
    cases hfree
    exact (hleave hmark.pc hout).imp_right fun hq => ⟨hq, .inr ⟨b, idx, n, rfl⟩⟩
  | leave _ => exact (hleave (.refl _) hout).imp_right fun hq => ⟨hq, .inl rfl⟩
  | handle hh =>
    obtain ⟨j, r, -, -, hring, hinfo, -⟩ := h.handle_found (h.rings.more p (point_of_run hpc))
    obtain ⟨t, hrun, hhandled⟩ := handle_run hring hinfo
    rw [hrun] at hh
    cases hh
    exact .inl (hmove hhandled.pc (by simp) hout)

theorem Inv.returns {a : Act N β} {k : Point β} {b : β} (h : Inv s) (hp : s.point p = some k)
    (hb : k.buf = some b) (hs : Step s a s') (hout : s'.pc p = .out) :
    ∃ idx n, s.pc p = .run (.finish b idx n) := by
  have hne : s.pc p ≠ .out := by
    intro hpc
    rw [Sys.point, hpc] at hp
    cases hp
  have hmove : ∀ {q : Fin N} {c : Pc β}, c ≠ .out → (s.goto q c).pc p = .out → False := by
    intro q c hc hq
    rcases eq_or_ne p q with rfl | hpq
    · exact hc (by simpa [Sys.goto] using hq)
    · exact hne (by simpa [Sys.goto, hpq] using hq)
  cases hs with
  | run hpc hrun =>
    rcases h.out_of_run hpc hrun hout with hq | ⟨rfl, rfl | ⟨b', idx, n, rfl⟩⟩
    · exact absurd hq hne
    · rw [Inv.point_of_run hpc] at hp
      cases hp
      cases hb
    · rw [Inv.point_of_run hpc] at hp
      cases hp
      cases hb
      exact ⟨idx, n, hpc⟩
  | acquire hpc _ => exact (hmove (c := .run _) (by simp) hout).elim
  | rw _ _ | intr _ | kill _ => exact (hmove (by simp) hout).elim
  | lock _ _ | unlock _ _ | take _ | fill _ | publish => exact absurd hout hne
  | finish hj hcmd => grind [h.command]

/-- The protocol between the driver and the device, for threads that call
`virtio_disk_rw` with the lock of their buffer held. The chains of the requests
in flight are disjoint and not free, and three descriptors of each request and
the free ones make up all `NUM`. The avail ring keeps every head until the
device takes it, and `virtio_disk_rw` writes the next one to another slot. The
interrupt handler finds the buffer of the request that the device completed,
with its status written, and a thread that waits for it. A call returns after
the device has completed its own request, and there is no panic. -/
theorem disk_protocol {s : Sys N β δ} (h : Reachable Sys.Init (fun _ _ => True) Sys.step s) :
    (∀ p idx, s.chain p = some idx →
      idx.length = 3 ∧ idx.Nodup ∧ ∀ i ∈ idx, i < NUM ∧ s.disk.free i = false) ∧
    (∀ p q idx idx', p ≠ q → s.chain p = some idx → s.chain q = some idx' →
      idx.Disjoint idx') ∧
    ((Finset.range NUM).filter (s.disk.free · = true)).card +
      3 * (Finset.univ.filter (s.chain · ≠ none)).card = NUM ∧
    (∀ n r, s.hist.taken ≤ n → s.hist.sent[n]? = some r →
      s.disk.avail.ring (n % NUM) = r.head ∧
      ((∃ p b idx, s.pc p = .run (.post b idx)) → n % NUM ≠ s.disk.avail.idx % NUM)) ∧
    (∀ p, s.pc p = .run .handle →
      ∃ j r idx, s.hist.filled[s.hist.seen]? = some j ∧ s.hist.sent[j.n]? = some r ∧
        s.disk.used.ring (s.disk.usedIdx % NUM) = r.head ∧
        s.disk.info r.head = ⟨some r.b, 0⟩ ∧ s.point r.proc = some (.wait r.b idx j.n)) ∧
    (∀ a s' p k b, s.step a = .ok s' → s.point p = some k → k.buf = some b → s'.pc p = .out →
      ∃ idx n j, s.pc p = .run (.finish b idx n) ∧
        s.hist.sent[n]? = some ⟨p, b, idx.getD 0 0⟩ ∧
        j ∈ s.hist.filled.take s.hist.shown ∧ j.n = n) ∧
    ∀ a e, s.step a = .error e → e = .disabled := by
  have hinv := reachable_inv h
  refine ⟨fun p idx hp => ⟨hinv.split.size p idx hp, hinv.split.nodup p idx hp, fun i hi =>
    ⟨hinv.split.lt p idx i hp hi, hinv.split.held hp hi⟩⟩, hinv.split.disjoint, hinv.split.count,
    fun n r hn hr => ⟨?_, fun _ => ?_⟩, fun p hp => ?_, fun a s' p k b hs hp hb hout => ?_,
    fun a e he => hinv.disabled he⟩
  · refine hinv.rings.avail n r.head hn ?_
    rw [List.getElem?_map, hr]
    rfl
  · grind [hinv.outstanding, hinv.rings.availIdx]
  · obtain ⟨j, r, hj, hr, hring, hinfo, hseen⟩ :=
      hinv.handle_found (hinv.rings.more p (Inv.point_of_run hp))
    obtain ⟨idx, hpoint, -⟩ := hinv.waiting hr hseen
    exact ⟨j, r, idx, hj, hr, hring, hinfo, hpoint⟩
  · obtain ⟨idx, n, hpc⟩ := hinv.returns hp hb (step_cases hs) hout
    have hfin := Inv.point_of_run hpc
    obtain ⟨j, hj, hn⟩ := hinv.served.finish p b idx n hfin
    exact ⟨idx, n, j, hpc, hinv.served.sent p b idx n (.inr hfin),
      (List.take_subset_take_left _ hinv.rings.seen_le) hj, hn⟩

def idle : Sys 2 Bool ℕ where
  disk := ⟨fun _ => ⟨.null, 0, 0, 0⟩, ⟨0, fun _ => 0⟩, ⟨0, fun _ => 0⟩, fun _ => true, 0,
    fun _ => ⟨none, 0⟩, fun _ => ⟨0, 0, 0⟩⟩
  busy := fun _ => false
  data := fun b => if b then 7 else 5
  holder := fun _ => none
  lock := none
  pc := fun _ => .out
  dev := ⟨0, 0, [], []⟩
  store := fun _ => 0
  hist := ⟨[], 0, [], 0, 0⟩

/-- Thread 0 writes a buffer and sleeps, the device carries out the command,
and thread 1 takes the interrupt, up to where it handles the request. -/
def oneWrite : List (Act 2 Bool) :=
  [.lock 0 true, .rw 0 true true 3, .step 0, .step 0, .step 0, .step 0, .step 0, .step 0,
    .take, .finish ⟨0, 0⟩, .fill ⟨0, 0⟩, .publish, .intr 1, .step 1, .step 1]

theorem disk_protocol_write :
    ∃ s : Sys 2 Bool ℕ, Reachable Sys.Init (fun _ _ => True) Sys.step s ∧
      s.pc 1 = .run .handle ∧ s.chain 0 = some [0, 1, 2] ∧ s.store 6 = 7 ∧
      ∃ j r idx, s.hist.filled[s.hist.seen]? = some j ∧ s.hist.sent[j.n]? = some r ∧
        s.disk.used.ring (s.disk.usedIdx % NUM) = r.head ∧
        s.disk.info r.head = ⟨some r.b, 0⟩ ∧ s.point r.proc = some (.wait r.b idx j.n) := by
  obtain ⟨s, hs, hpc, hchain, hstore⟩ : ∃ s ∈ runActs (fun _ _ => True) Sys.step oneWrite idle,
      s.pc 1 = .run .handle ∧ s.chain 0 = some [0, 1, 2] ∧ s.store 6 = 7 := by
    decide +kernel
  have hinit : Sys.Init idle :=
    ⟨fun _ _ => rfl, rfl, rfl, rfl, rfl, fun _ => rfl, fun _ => rfl, rfl, rfl⟩
  have hreach := (Reachable.init hinit).runActs hs
  exact ⟨s, hreach, hpc, hchain, hstore, (disk_protocol hreach).2.2.2.2.1 1 hpc⟩

end Xv6.Virtio
