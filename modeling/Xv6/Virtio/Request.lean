import Xv6.Virtio.Flight

/-!
What the stretches of the driver and the actions of the device do to the
requests in flight: each of them keeps the invariant `Inv`.
-/

namespace Xv6.Virtio

open List
open Function (update update_self update_of_ne update_eq_self update_apply)

variable {N : ℕ} {β δ : Type} {s s' : Sys N β δ} {p : Fin N}

/-! ### Steps that leave the requests alone -/

theorem Served.keep (h : Served s)
    (hform : ∀ q k b idx, s'.point q = some k → k.request = some (b, idx) → Formatted s'.disk b idx)
    (hnew : ∀ q b idx, s'.point q = some (.post b idx) ∨ s'.point q = some (.publish b idx) →
      s'.busy b = true)
    (hwait : ∀ q b idx n, s'.point q = some (.wait b idx n) ↔ s.point q = some (.wait b idx n))
    (hfinish : ∀ q b idx n, s'.point q = some (.finish b idx n) →
      s.point q = some (.finish b idx n))
    (hbusy : ∀ q b idx n, s.point q = some (.wait b idx n) → s'.busy b = s.busy b)
    (hhist : s'.hist = s.hist) : Served s' := by
  refine ⟨hform, hnew, fun q b idx n hq => ?_, fun n r hr hn => ?_, fun q b idx n hq hb => ?_,
    fun q b idx n hq => ?_⟩
  · grind [h.sent]
  · rw [hhist] at hr hn
    obtain ⟨hb, idx, hidx⟩ := h.live n r hr hn
    exact ⟨(hbusy _ _ _ _ hidx).trans hb, idx, (hwait _ _ _ _).mpr hidx⟩
  · grind [h.wait]
  · rw [hhist]
    exact h.finish q b idx n (hfinish q b idx n hq)

theorem Rings.frame (h : Rings s)
    (hpoint : ∀ q b idx, s'.point q = some (.publish b idx) → s.point q = some (.publish b idx))
    (hmore : ∀ q, s'.point q = some .handle → s.hist.seen < s.hist.shown)
    (havail : s'.disk.avail = s.disk.avail) (hused : s'.disk.used = s.disk.used)
    (husedIdx : s'.disk.usedIdx = s.disk.usedIdx) (hdev : s'.dev = s.dev)
    (hhist : s'.hist = s.hist) : Rings s' := by
  constructor
  case posted =>
    intro q b idx hq
    rw [havail, hhist]
    exact h.posted q b idx (hpoint q b idx hq)
  case more =>
    rw [hhist]
    exact hmore
  all_goals simp only [havail, hused, husedIdx, hdev, hhist]
  · exact h.avail
  · exact h.used
  · exact h.availIdx
  · exact h.devAvail
  · exact h.devUsed
  · exact h.usedIdx
  · exact h.drvUsed
  · exact h.taken_le
  · exact h.shown_le
  · exact h.seen_le

theorem Jobs.frame (h : Jobs s) (hdev : s'.dev = s.dev) (hhist : s'.hist = s.hist)
    (hstatus : ∀ j, j ∈ s.dev.done ∨ j ∈ s.hist.filled.drop s.hist.seen →
      (s'.disk.info j.head).status = (s.disk.info j.head).status) : Jobs s' := by
  have hjobs : s'.jobs = s.jobs := by rw [Sys.jobs, hdev, hhist, Sys.jobs]
  refine ⟨?_, ?_, fun j hj => ?_⟩
  · rw [hjobs, hhist]
    exact h.perm
  · rw [hjobs, hhist]
    exact h.head
  · rw [hdev, hhist] at hj
    rw [hstatus j hj]
    exact h.status j hj

theorem Ctl.congr (h : Ctl s) (hpc : s'.pc = s.pc) (hlock : s'.lock = s.lock)
    (hholder : s'.holder = s.holder) : Ctl s' := by
  refine ⟨?_, ?_, ?_⟩
  all_goals simp only [Sys.point, hpc, hlock, hholder]
  · exact h.holder
  · exact h.entry
  · exact h.buf

namespace Inv

variable {k : Point β}

theorem reshape (h : Inv s) (hctl : Ctl s') (hsplit : Split s'.disk.free s'.chain)
    (hpoint : ∀ q k, s'.point q = some k → k.request ≠ none → s.point q = some k)
    (hwait : ∀ q b idx n, s.point q = some (.wait b idx n) → s'.point q = some (.wait b idx n))
    (hmore : ∀ q, s'.point q = some .handle → s.hist.seen < s.hist.shown)
    (hchain : ∀ q k b idx, s'.point q = some k → k.request = some (b, idx) → ∀ i ∈ idx,
      s'.disk.desc i = s.disk.desc i ∧ (s'.disk.info i).b = (s.disk.info i).b)
    (hstatus : ∀ i, (s'.disk.info i).status = (s.disk.info i).status)
    (havail : s'.disk.avail = s.disk.avail) (hused : s'.disk.used = s.disk.used)
    (husedIdx : s'.disk.usedIdx = s.disk.usedIdx) (hbusy : s'.busy = s.busy)
    (hdev : s'.dev = s.dev) (hhist : s'.hist = s.hist) : Inv s' := by
  have hreq : ∀ q k x, s'.point q = some k → k.request = some x → s.point q = some k :=
    fun q k x hq hk => hpoint q k hq (by simp [hk])
  refine ⟨hctl, hsplit, ?_, h.rings.frame (fun q b idx hq => hreq q _ _ hq rfl) hmore havail
    hused husedIdx hdev hhist, h.jobs.frame hdev hhist fun j _ => hstatus _⟩
  refine h.served.keep (fun q k b idx hq hk => ?_) (fun q b idx hq => ?_)
    (fun q b idx n => ⟨fun hq => hreq q _ _ hq rfl, hwait q b idx n⟩)
    (fun q b idx n hq => hreq q _ _ hq rfl) (fun _ _ _ _ _ => by rw [hbusy]) hhist
  · have hidx := hchain q k b idx hq hk
    have hform := h.served.format q k b idx (hreq q k _ hq hk) hk
    exact hform.congr (fun i hi => (hidx i hi).1) (hidx _ hform.head_mem).2
  · rw [hbusy]
    exact h.served.busy q b idx
      (hq.imp (fun hq => hreq q _ _ hq rfl) fun hq => hreq q _ _ hq rfl)

theorem quiet (h : Inv s) (hctl : Ctl s') (hchain : s'.chain = s.chain)
    (hpoint : ∀ q k, k.request ≠ none → (s'.point q = some k ↔ s.point q = some k))
    (hmore : ∀ q, s'.point q = some .handle → s.hist.seen < s.hist.shown) (hdisk : s'.disk = s.disk)
    (hbusy : s'.busy = s.busy) (hdev : s'.dev = s.dev) (hhist : s'.hist = s.hist) : Inv s' := by
  refine h.reshape hctl ?_ (fun q k hq hk => (hpoint q k hk).mp hq) (fun q b idx n hq => ?_) hmore
    (fun _ _ _ _ _ _ _ _ => by rw [hdisk]; exact ⟨rfl, rfl⟩) (fun _ => by rw [hdisk])
    (by rw [hdisk]) (by rw [hdisk]) (by rw [hdisk]) hbusy hdev hhist
  · rw [hdisk, hchain]
    exact h.split
  · exact (hpoint q _ (by simp [Point.request])).mpr hq

theorem point_of_run (hpc : s.pc p = .run k) : s.point p = some k := by
  rw [Sys.point, hpc]
  rfl

theorem stay {c : Pc β} (h : Inv s) (hpoint : c.point = s.point p)
    {lock : Option (Fin N)} (hctl : Ctl { s.goto p c with lock := lock }) :
    Inv { s.goto p c with lock := lock } := by
  have heq : ∀ q, (Sys.point { s.goto p c with lock := lock } q) = s.point q := by
    intro q
    show (s.goto p c).point q = _
    rw [Sys.point_goto, hpoint, update_eq_self]
  refine h.quiet hctl (funext fun q => ?_) (fun q k _ => by rw [heq q])
    (fun q hq => h.rings.more q ((heq q).symm.trans hq)) rfl rfl rfl rfl
  rw [Sys.chain, heq q, Sys.chain]

theorem pass {c : Pc β} (h : Inv s) {lock : Option (Fin N)}
    (hold : ∀ k, s.point p = some k → k.chain = none ∧ k.request = none)
    (hnew : ∀ k, c.point = some k → k.chain = none ∧ k.request = none)
    (hmore : c.point = some .handle → s.hist.seen < s.hist.shown)
    (hctl : Ctl { s.goto p c with lock := lock }) : Inv { s.goto p c with lock := lock } := by
  have hpoint : ∀ q, Sys.point { s.goto p c with lock := lock } q =
      update s.point p c.point q := fun q => congrFun (s.point_goto p c) q
  refine h.quiet hctl (funext fun q => ?_) (fun q k hk => ?_) (fun q hq => ?_) rfl rfl rfl rfl
  · rw [Sys.chain, hpoint, Sys.chain]
    rcases eq_or_ne q p with rfl | hq
    · rw [update_self]
      cases hc : c.point <;> cases hs : s.point q
      · rfl
      · exact (hold _ hs).1.symm
      · exact (hnew _ hc).1
      · exact (hnew _ hc).1.trans (hold _ hs).1.symm
    · rw [update_of_ne hq]
  · grind
  · grind [h.rings.more]

/-! ### Allocating and freeing -/

theorem chain_eq (hp : s.point p = some k) : s.chain p = k.chain := by
  rw [Sys.chain, hp]
  rfl

theorem not_avail (h : Inv s) {q : Fin N} {idx idx' : List ℕ} {i : ℕ} (hq : s.point q = some k)
    (hk : k.chain = some idx') (hi : i ∈ idx') (hidx : Avail s idx) : i ∉ idx := by
  intro hmem
  have hheld : s.disk.free i = false := h.split.held ((chain_eq hq).trans hk) hi
  rw [hidx.free i hmem] at hheld
  cases hheld

theorem alloc {b : β} {write : Bool} {sector : ℕ} {idx : List ℕ} {t : Sys N β δ} (h : Inv s)
    (hpc : s.pc p = .run (.alloc b write sector)) (hlen : idx.length = 3) (hidx : Avail s idx)
    (hmark : Marked s idx false t) : Inv (t.goto p (.run (.format b write sector idx))) := by
  have hp := point_of_run hpc
  have hpoint : ∀ q k, k.request ≠ none →
      ((t.goto p (.run (.format b write sector idx))).point q = some k ↔ s.point q = some k) := by
    intro q k hk
    rw [Sys.point_goto, hmark.point]
    rcases eq_or_ne q p with rfl | hq
    · rw [update_self, hp]
      constructor <;> rintro ⟨⟩ <;> exact absurd rfl hk
    · rw [update_of_ne hq]
  have hctl : Ctl (t.goto p (.run (.format b write sector idx))) := by
    refine h.ctl.move hpc hmark.pc rfl (by rw [hmark.eq]; rfl) (.inl ⟨?_, _, rfl⟩) ?_
    · rw [hmark.eq]
      exact h.ctl.holder p _ hpc
    · rintro _ _ ⟨⟩ hb
      exact hb
  refine h.reshape hctl ?_ (fun q k hq hk => (hpoint q k hk).mp hq) (fun q b idx n hq => ?_)
    (fun q hq => ?_) (fun q k b' idx' hq hk i hi => ⟨?_, ?_⟩) (fun _ => ?_) ?_ ?_ ?_ ?_ ?_ ?_
  · rw [Sys.chain_goto, hmark.chain]
    refine h.split.alloc ?_ hlen hidx.nodup hidx.lt hidx.free hmark.free
    rw [Sys.chain, hp]
    rfl
  · exact (hpoint q _ (by simp [Point.request])).mpr hq
  · rw [Sys.point_goto, hmark.point] at hq
    rcases eq_or_ne q p with rfl | hqp
    · rw [update_self] at hq
      cases hq
    · rw [update_of_ne hqp] at hq
      exact h.rings.more q hq
  · exact hmark.desc i (h.not_avail ((hpoint q k (by simp [hk])).mp hq)
      (Point.chain_of_request hk) hi hidx)
  all_goals
    rw [hmark.eq]
    rfl

theorem allocSleep {b : β} {write : Bool} {sector : ℕ} {idx : List ℕ} {t : Sys N β δ} (h : Inv s)
    (hpc : s.pc p = .run (.alloc b write sector)) (hidx : Avail s idx)
    (hmark : Marked s idx true t) : Inv (t.sleep p .free (.alloc b write sector)) := by
  have hpoint : (t.sleep p .free (.alloc b write sector)).point = s.point := by
    show (t.goto p _).point = _
    rw [Sys.point_goto, hmark.point, Function.update_eq_self_iff, point_of_run hpc]
    rfl
  have hctl : Ctl (t.sleep p .free (.alloc b write sector)) := by
    refine h.ctl.move hpc hmark.pc rfl (by rw [hmark.eq]; rfl)
      (.inr ⟨rfl, by simp, ?_⟩) ?_
    · rintro _ ⟨⟩
      trivial
    · rintro _ _ ⟨⟩ hb
      exact hb
  refine h.reshape hctl ?_ (fun q k hq _ => hpoint ▸ hq) (fun q b idx n hq => hpoint ▸ hq)
    (fun q hq => h.rings.more q (hpoint ▸ hq)) (fun q k b' idx' hq hk i hi => ⟨?_, ?_⟩)
    (fun _ => ?_) ?_ ?_ ?_ ?_ ?_ ?_
  · have hfree : t.disk.free = s.disk.free := by
      funext i
      rw [hmark.free]
      split_ifs with hi
      · exact (hidx.free i hi).symm
      · rfl
    show Split t.disk.free _
    rw [hfree, show (t.sleep p .free (.alloc b write sector)).chain = s.chain from
      funext fun q => by rw [Sys.chain, hpoint, Sys.chain]]
    exact h.split
  · exact hmark.desc i (h.not_avail (hpoint ▸ hq) (Point.chain_of_request hk) hi hidx)
  all_goals
    rw [hmark.eq]
    rfl

theorem finish {b : β} {idx : List ℕ} {n : ℕ} {t : Sys N β δ} (h : Inv s)
    (hpc : s.pc p = .run (.finish b idx n))
    (hmark : Marked (s.setInfo (idx.getD 0 0) ⟨none, (s.disk.info (idx.getD 0 0)).status⟩) idx
      true t) : Inv (t.release p) := by
  have hp := point_of_run hpc
  have hchain : s.chain p = some idx := chain_eq hp
  have hhead := (h.served.format p _ b idx hp rfl).head_mem
  have hpoint : (t.release p).point = update s.point p none := by
    show (t.goto p _).point = _
    rw [Sys.point_goto, hmark.point]
    rfl
  have hback : ∀ q k, (t.release p).point q = some k → q ≠ p ∧ s.point q = some k := by
    grind [congrFun hpoint]
  have hnot : ∀ q k b' idx', (t.release p).point q = some k → k.request = some (b', idx') →
      ∀ i ∈ idx', i ∉ idx := by
    intro q k b' idx' hq hk i hi hmem
    obtain ⟨hqp, hq⟩ := hback q k hq
    exact h.split.disjoint q p idx' idx hqp
      ((chain_eq hq).trans (Point.chain_of_request hk)) hchain hi hmem
  have hinfo : (t.release p).disk.info = update s.disk.info (idx.getD 0 0)
      ⟨none, (s.disk.info (idx.getD 0 0)).status⟩ := by
    rw [hmark.eq]
    rfl
  have hctl : Ctl (t.release p) := by
    refine h.ctl.move hpc hmark.pc rfl (by rw [hmark.eq]; rfl) (.inr ⟨rfl, by simp, ?_⟩) ?_
    all_goals
      intro _
      simp [Pc.point]
  refine h.reshape hctl ?_ (fun q k hq _ => (hback q k hq).2) (fun q b' idx' n' hq => ?_)
    (fun q hq => h.rings.more q (hback q _ hq).2) (fun q k b' idx' hq hk i hi => ⟨?_, ?_⟩)
    (fun i => ?_) ?_ ?_ ?_ ?_ ?_ ?_
  · show Split t.disk.free (t.goto p .out).chain
    rw [Sys.chain_goto, hmark.chain]
    refine h.split.release hchain fun i => ?_
    rw [hmark.free]
    rfl
  · grind [congrFun hpoint]
  · exact hmark.desc i (hnot q k b' idx' hq hk i hi)
  · grind [congrFun hinfo]
  · rw [hinfo]
    exact update_proj Info.status rfl
  all_goals
    rw [hmark.eq]
    rfl

/-! ### Publishing a request -/

theorem job_chain (h : Inv s) {j : Job}
    (hj : j ∈ s.dev.taken ++ s.dev.done ∨ j ∈ s.hist.filled.drop s.hist.seen) :
    ∃ q b idx, s.point q = some (.wait b idx j.n) ∧ j.head = idx.getD 0 0 ∧
      Formatted s.disk b idx ∧ s.chain q = some idx := by
  have hseen : ¬ s.hist.Seen j.n := hj.elim h.not_seen_of_dev h.not_seen
  have hmem : j ∈ s.jobs := by grind [Sys.jobs]
  obtain ⟨r, hr, hhead⟩ := Option.map_eq_some_iff.mp (h.jobs.head j hmem)
  obtain ⟨idx, hpoint, hidx, hform, hchain⟩ := h.waiting hr hseen
  exact ⟨r.proc, r.b, idx, hpoint, hhead ▸ hidx, hform, hchain⟩

end Inv

namespace Inv

variable {m : Point β} {b : β} {idx : List ℕ}

theorem advance {k : Point β} {t : Sys N β δ} (h : Inv s) (hpc : s.pc p = .run k) (ht : t.pc = s.pc)
    (hlock : t.lock = s.lock) (hholder : t.holder = s.holder) (hfree : t.disk.free = s.disk.free)
    (hchain : m.chain = k.chain) (hbuf : m.buf = k.buf) :
    Ctl (t.goto p (.run m)) ∧ Split t.disk.free (t.goto p (.run m)).chain ∧
      (t.goto p (.run m)).point p = some m ∧
      (∀ q, q ≠ p → (t.goto p (.run m)).point q = s.point q) ∧
      ∀ q k', q ≠ p → s.point q = some k' → k'.Entry := by
  have hp := h.ctl.holder p k hpc
  have hpoint : t.point = s.point := funext fun q => by rw [Sys.point, ht, Sys.point]
  refine ⟨?_, ?_, ?_, fun q hq => ?_, fun q k' hq hk => h.ctl.others hp hq hk⟩
  · refine h.ctl.move hpc (ht ▸ .refl _) rfl hholder (.inl ⟨hlock.trans hp, _, rfl⟩) ?_
    rintro _ b ⟨⟩ hb
    exact hbuf.symm.trans hb
  · have hself : m.chain = s.chain p := hchain.trans (chain_eq (point_of_run hpc)).symm
    rw [hfree, Sys.chain_goto]
    show Split _ (update t.chain p m.chain)
    rw [hself, show t.chain = s.chain from funext fun q => by rw [Sys.chain, hpoint, Sys.chain],
      update_eq_self]
    exact h.split
  · rw [Sys.point_goto, update_self]
    rfl
  · rw [Sys.point_goto, update_of_ne hq, hpoint]

theorem moved_iff {k x : Point β} {q : Fin N} (hp : s.point p = some k)
    (hself : s'.point p = some m) (hother : ∀ q, q ≠ p → s'.point q = s.point q) (hk : k ≠ x)
    (hm : m ≠ x) : s'.point q = some x ↔ s.point q = some x := by
  rcases eq_or_ne q p with rfl | hq
  · grind
  · rw [hother q hq]

theorem moved {x : Point β} {q : Fin N} (hself : s'.point p = some m)
    (hother : ∀ q, q ≠ p → s'.point q = s.point q) (hq : s'.point q = some x) :
    q = p ∧ m = x ∨ q ≠ p ∧ s.point q = some x := by
  rcases eq_or_ne q p with rfl | hqp
  · exact .inl ⟨rfl, Option.some.inj (hself.symm.trans hq)⟩
  · exact .inr ⟨hqp, hother q hqp ▸ hq⟩

theorem post (h : Inv s) (hpc : s.pc p = .run (.post b idx)) :
    Inv ((s.post (idx.getD 0 0)).goto p (.run (.publish b idx))) := by
  have hp := point_of_run hpc
  obtain ⟨hctl, hsplit, hself, hother, hentry⟩ :=
    h.advance (t := s.post (idx.getD 0 0)) (m := .publish b idx) hpc rfl rfl rfl rfl rfl rfl
  have hmoved := fun q x => moved_iff (q := q) (x := x) hp hself hother
  have hslot : s.disk.avail.idx % NUM = s.hist.sent.length % NUM := by grind [h.rings.availIdx]
  have hring : (s.post (idx.getD 0 0)).disk.avail.ring =
      update s.disk.avail.ring (s.hist.sent.length % NUM) (idx.getD 0 0) := by
    rw [← hslot]
    rfl
  refine ⟨hctl, hsplit, ?_, ?_, h.jobs.frame rfl rfl fun _ _ => rfl⟩
  · refine h.served.keep (fun q k b' idx' hq hk => ?_) (fun q b' idx' hq => ?_)
      (fun q b' idx' n => hmoved q _ (by simp) (by simp))
      (fun q b' idx' n => (hmoved q _ (by simp) (by simp)).mp) (fun _ _ _ _ _ => rfl) rfl
    · refine Formatted.congr (d := s.disk) ?_ (fun _ _ => rfl) rfl
      rcases moved hself hother hq with ⟨rfl, ⟨⟩⟩ | ⟨-, hq⟩
      · exact h.served.format q _ b' idx' hp hk
      · exact h.served.format q k b' idx' hq hk
    · rcases eq_or_ne q p with rfl | hqp
      · rw [hself] at hq
        rcases hq with hq | hq
        · cases hq
        · cases hq
          exact h.served.busy q b idx (.inl hp)
      · rw [hother q hqp] at hq
        exact h.served.busy q b' idx' hq
  · refine { h.rings with
      avail := ?_
      posted := fun q b' idx' hq => ?_
      more := fun q hq => h.rings.more q ((hmoved q _ (by simp) (by simp)).mp hq) }
    · show Window NUM (s.post (idx.getD 0 0)).disk.avail.ring _ _
      rw [hring, ← length_map (f := Request.head)]
      refine h.rings.avail.write ?_ _
      rw [length_map]
      exact h.outstanding
    · show (s.post (idx.getD 0 0)).disk.avail.ring _ = _
      rcases moved hself hother hq with ⟨rfl, ⟨⟩⟩ | ⟨hqp, hq⟩
      · rw [hring]
        exact update_self ..
      · exact (hentry q _ hqp hq).elim

theorem publish (h : Inv s) (hpc : s.pc p = .run (.publish b idx)) :
    Inv ((s.publish ⟨p, b, idx.getD 0 0⟩).goto p (.run (.wait b idx s.hist.sent.length))) := by
  have hp := point_of_run hpc
  obtain ⟨hctl, hsplit, hself, hother, hentry⟩ :=
    h.advance (t := s.publish ⟨p, b, idx.getD 0 0⟩) (m := .wait b idx s.hist.sent.length) hpc rfl
      rfl rfl rfl rfl rfl
  have hsent : ∀ {n : ℕ} {r : Request N β}, s.hist.sent[n]? = some r →
      (s.hist.sent ++ [⟨p, b, idx.getD 0 0⟩])[n]? = some r := by grind
  refine ⟨hctl, hsplit, ⟨fun q k b' idx' hq hk => ?_, fun q b' idx' hq => ?_,
    fun q b' idx' n hq => ?_, fun n r hr hn => ?_, fun q b' idx' n hq hb => ?_,
    fun q b' idx' n hq => ?_⟩, ?_, ?_⟩
  · refine Formatted.congr (d := s.disk) ?_ (fun _ _ => rfl) rfl
    rcases moved hself hother hq with ⟨rfl, ⟨⟩⟩ | ⟨-, hq⟩
    · exact h.served.format q _ b' idx' hp hk
    · exact h.served.format q k b' idx' hq hk
  · rcases eq_or_ne q p with rfl | hqp
    · rw [hself] at hq
      rcases hq with hq | hq <;> cases hq
    · rw [hother q hqp] at hq
      exact h.served.busy q b' idx' hq
  · rcases eq_or_ne q p with rfl | hqp
    · rw [hself] at hq
      rcases hq with hq | hq <;> cases hq
      exact getElem?_concat_length ..
    · rw [hother q hqp] at hq
      exact hsent (h.served.sent q b' idx' n hq)
  · -- the new request, or one of the others
    rcases Nat.lt_or_ge n s.hist.sent.length with hn' | hn'
    · have hr' : s.hist.sent[n]? = some r := by
        rw [← hr]
        exact (getElem?_append_left hn').symm
      obtain ⟨hbusy, idx', hidx'⟩ := h.served.live n r hr' hn
      refine ⟨hbusy, idx', ?_⟩
      rw [hother _ ?_]
      · exact hidx'
      · intro heq
        rw [heq, hp] at hidx'
        cases hidx'
    · have hn' : n = s.hist.sent.length := by
        have := (List.getElem?_eq_some_iff.mp hr).1
        change n < (s.hist.sent ++ [_]).length at this
        rw [length_append, length_singleton] at this
        omega
      subst hn'
      have hr' := (getElem?_concat_length ..).symm.trans hr
      cases hr'
      exact ⟨h.served.busy p b idx (.inr hp), idx, hself⟩
  · rcases moved hself hother hq with ⟨rfl, ⟨⟩⟩ | ⟨-, hq⟩
    · intro hseen
      have := h.seen_lt hseen
      have := h.rings.taken_le
      omega
    · exact h.served.wait q b' idx' n hq hb
  · obtain ⟨-, ⟨⟩⟩ | ⟨-, hq⟩ := moved hself hother hq
    exact h.served.finish q b' idx' n hq
  · refine { h.rings with
      avail := ?_
      posted := fun q b' idx' hq => ?_
      availIdx := ?_
      taken_le := ?_
      more := fun q hq => h.rings.more q
        ((moved_iff hp hself hother (by simp) (by simp)).mp hq) }
    · show Window NUM s.disk.avail.ring
        ((s.hist.sent ++ [(⟨p, b, idx.getD 0 0⟩ : Request N β)]).map Request.head) s.hist.taken
      rw [map_append]
      refine h.rings.avail.append ?_
      rw [length_map]
      exact h.rings.posted p b idx hp
    · obtain ⟨-, ⟨⟩⟩ | ⟨hqp, hq⟩ := moved hself hother hq
      exact (hentry q _ hqp hq).elim
    · show (s.disk.avail.idx + 1) % WRAP =
        (s.hist.sent ++ [(⟨p, b, idx.getD 0 0⟩ : Request N β)]).length % WRAP
      rw [h.rings.availIdx, Nat.mod_add_mod, length_append, length_singleton]
    · show s.hist.taken ≤ (s.hist.sent ++ [(⟨p, b, idx.getD 0 0⟩ : Request N β)]).length
      rw [length_append]
      exact h.rings.taken_le.trans (Nat.le_add_right ..)
  · refine { h.jobs with head := fun j hj => ?_ }
    obtain ⟨r, hr, hhead⟩ := Option.map_eq_some_iff.mp (h.jobs.head j hj)
    exact Option.map_eq_some_iff.mpr ⟨r, hsent hr, hhead⟩

theorem waitDone {n : ℕ} (h : Inv s) (hpc : s.pc p = .run (.wait b idx n))
    (hbusy : s.busy b = false) : Inv (s.goto p (.run (.finish b idx n))) := by
  have hp := point_of_run hpc
  have hsent := h.served.sent p b idx n (.inl hp)
  have hseen : s.hist.Seen n := by
    by_contra hn
    have := (h.served.live n _ hsent hn).1
    rw [hbusy] at this
    cases this
  obtain ⟨hctl, hsplit, hself, hother, hentry⟩ :=
    h.advance (t := s) (m := .finish b idx n) hpc rfl rfl rfl rfl rfl rfl
  refine ⟨hctl, hsplit, ⟨fun q k b' idx' hq hk => ?_, fun q b' idx' hq => ?_,
    fun q b' idx' n' hq => ?_, fun n' r hr hn => ?_, fun q b' idx' n' hq hb => ?_,
    fun q b' idx' n' hq => ?_⟩, ?_, h.jobs.frame rfl rfl fun _ _ => rfl⟩
  · rcases moved hself hother hq with ⟨rfl, ⟨⟩⟩ | ⟨-, hq⟩
    · exact h.served.format q _ b' idx' hp hk
    · exact h.served.format q k b' idx' hq hk
  · rcases eq_or_ne q p with rfl | hqp
    · rw [hself] at hq
      rcases hq with hq | hq <;> cases hq
    · rw [hother q hqp] at hq
      exact h.served.busy q b' idx' hq
  · rcases eq_or_ne q p with rfl | hqp
    · rw [hself] at hq
      rcases hq with hq | hq <;> cases hq
      exact hsent
    · rw [hother q hqp] at hq
      exact h.served.sent q b' idx' n' hq
  · obtain ⟨hb, idx', hidx'⟩ := h.served.live n' r hr hn
    refine ⟨hb, idx', ?_⟩
    rw [hother _ ?_]
    · exact hidx'
    · grind
  · obtain ⟨-, ⟨⟩⟩ | ⟨-, hq⟩ := moved hself hother hq
    exact h.served.wait q b' idx' n' hq hb
  · rcases moved hself hother hq with ⟨rfl, ⟨⟩⟩ | ⟨-, hq⟩
    · exact hseen
    · exact h.served.finish q b' idx' n' hq
  · refine h.rings.frame (fun q b' idx' => ?_) (fun q hq => h.rings.more q ?_) rfl rfl rfl rfl rfl
    · exact (moved_iff hp hself hother (by simp) (by simp)).mp
    · exact (moved_iff hp hself hother (by simp) (by simp)).mp hq

end Inv

variable [DecidableEq β]

theorem formatted_format (s : Sys N β δ) (b : β) (write : Bool) (sector : ℕ) {i j k : ℕ}
    (hnodup : [i, j, k].Nodup) :
    Formatted (s.format b write sector [i, j, k]).disk b [i, j, k] ∧
      ∀ x, x ∉ [i, j, k] →
        (s.format b write sector [i, j, k]).disk.desc x = s.disk.desc x ∧
        (s.format b write sector [i, j, k]).disk.info x = s.disk.info x := by
  obtain ⟨⟨hij, hik⟩, hjk⟩ : (i ≠ j ∧ i ≠ k) ∧ j ≠ k := by simpa using hnodup
  have hi : (s.format b write sector [i, j, k]).disk.desc i =
      ⟨.op i, 16, VRING_DESC_F_NEXT, j⟩ := by
    simp [Sys.format, Sys.setDesc, Sys.setInfo, Sys.setBusy, hij, hik]
  have hj : (s.format b write sector [i, j, k]).disk.desc j =
      ⟨.data b, BSIZE, (if write then 0 else VRING_DESC_F_WRITE) ||| VRING_DESC_F_NEXT, k⟩ := by
    simp [Sys.format, Sys.setDesc, Sys.setInfo, Sys.setBusy, hjk]
  have hk : (s.format b write sector [i, j, k]).disk.desc k =
      ⟨.status i, 1, VRING_DESC_F_WRITE, 0⟩ := by
    simp [Sys.format, Sys.setDesc, Sys.setInfo, Sys.setBusy]
  refine ⟨⟨⟨?_, ?_, ?_, ?_, ?_⟩, ?_, i, j, k, rfl, ?_, ?_, ?_⟩, fun x hx => ?_⟩
  · rw [hi]
    dsimp only
    decide
  · rw [hi]
  · rw [hj]
    dsimp only
    cases write <;> decide
  · rw [hj]
  · rw [Chained, hk]
    dsimp only
    decide
  · simp [Sys.format, Sys.setDesc, Sys.setInfo, Sys.setBusy]
  · rw [hi]
  · rw [hj]
  · rw [hk]
  · simp only [mem_cons, not_mem_nil, or_false, not_or] at hx
    simp [Sys.format, Sys.setDesc, Sys.setInfo, Sys.setBusy, hx]

namespace Inv

variable {j : Job}

theorem format {b : β} {write : Bool} {sector : ℕ} {idx : List ℕ} (h : Inv s)
    (hpc : s.pc p = .run (.format b write sector idx)) :
    Inv ((s.format b write sector idx).goto p (.run (.post b idx))) := by
  have hp := point_of_run hpc
  have hchain : s.chain p = some idx := chain_eq hp
  obtain ⟨hform, hsame⟩ : Formatted (s.format b write sector idx).disk b idx ∧ ∀ x, x ∉ idx →
      (s.format b write sector idx).disk.desc x = s.disk.desc x ∧
      (s.format b write sector idx).disk.info x = s.disk.info x := by
    obtain ⟨i, j, k, rfl⟩ := length_eq_three.mp (h.split.size p idx hchain)
    exact formatted_format s b write sector (h.split.nodup p _ hchain)
  have hbusy : ∀ b', (s.format b write sector idx).busy b' = if b' = b then true else s.busy b' :=
    fun b' => update_apply ..
  have hdisj : ∀ q idx', q ≠ p → s.chain q = some idx' → ∀ i ∈ idx', i ∉ idx :=
    fun q idx' hqp hq i hi => h.split.disjoint q p idx' idx hqp hq hchain hi
  obtain ⟨hctl, hsplit, hself, hother, hentry⟩ :=
    h.advance (t := s.format b write sector idx) (m := .post b idx) hpc rfl rfl rfl rfl rfl rfl
  have hmoved := fun q x => moved_iff (q := q) (x := x) hp hself hother
  refine ⟨hctl, hsplit, ?_, ?_, ?_⟩
  · refine h.served.keep (fun q k b' idx' hq hk => ?_) (fun q b' idx' hq => ?_)
      (fun q b' idx' n => hmoved q _ (by simp) (by simp))
      (fun q b' idx' n => (hmoved q _ (by simp) (by simp)).mp) (fun q b' idx' n hq => ?_) rfl
    · rcases moved hself hother hq with ⟨rfl, ⟨⟩⟩ | ⟨hqp, hq⟩
      · cases hk
        exact hform
      · have hq' := (chain_eq hq).trans (Point.chain_of_request hk)
        have hform' := h.served.format q k b' idx' hq hk
        exact hform'.congr (fun i hi => (hsame i (hdisj q idx' hqp hq' i hi)).1)
          (congrArg Info.b (hsame _ (hdisj q idx' hqp hq' _ hform'.head_mem)).2)
    · rcases eq_or_ne q p with rfl | hqp
      · rw [hself] at hq
        rcases hq with hq | hq
        · cases hq
          exact (hbusy b).trans (if_pos rfl)
        · cases hq
      · rw [hother q hqp] at hq
        rcases hq with hq | hq
        · exact (hentry q _ hqp hq).elim
        · exact (hentry q _ hqp hq).elim
    · have hne : b' ≠ b := by
        rintro rfl
        have := h.ctl.buf_inj hq hp rfl rfl
        subst this
        rw [hp] at hq
        cases hq
      exact (hbusy b').trans (if_neg hne)
  · refine h.rings.frame (fun q b' idx' => ?_) (fun q hq => h.rings.more q ?_) rfl rfl rfl rfl rfl
    · exact (hmoved q _ (by simp) (by simp)).mp
    · exact (hmoved q _ (by simp) (by simp)).mp hq
  · refine h.jobs.frame rfl rfl fun j hj => ?_
    obtain ⟨q, b', idx', hq, hhead, hform', hq'⟩ := h.job_chain
      (hj.imp_left (mem_append_right _))
    have hqp : q ≠ p := by
      rintro rfl
      rw [hp] at hq
      cases hq
    have := hdisj q idx' hqp hq' _ (hhead ▸ hform'.head_mem)
    exact congrArg Info.status (hsame _ this).2

/-! ### Completing a request -/

omit [DecidableEq β] in
theorem handle_found (h : Inv s) (hlt : s.hist.seen < s.hist.shown) :
    ∃ j r, s.hist.filled[s.hist.seen]? = some j ∧ s.hist.sent[j.n]? = some r ∧
      s.disk.used.ring (s.disk.usedIdx % NUM) = r.head ∧
      s.disk.info r.head = ⟨some r.b, 0⟩ ∧ ¬ s.hist.Seen j.n := by
  have hlt' := hlt.trans_le h.rings.shown_le
  have hj : s.hist.filled[s.hist.seen] ∈ s.hist.filled.drop s.hist.seen := by
    grind [drop_eq_getElem_cons]
  have hget := getElem?_eq_getElem hlt'
  generalize s.hist.filled[s.hist.seen] = j at hj hget
  have hmem : j ∈ s.jobs := by grind [Sys.jobs]
  obtain ⟨r, hr, hhead⟩ := Option.map_eq_some_iff.mp (h.jobs.head j hmem)
  have hseen := h.not_seen hj
  obtain ⟨idx, -, hidx, hform, -⟩ := h.waiting hr hseen
  refine ⟨j, r, hget, hr, ?_, ?_, hseen⟩
  · rw [h.rings.drvUsed, Nat.mod_mod_of_dvd _ (by decide), hhead]
    refine h.rings.used s.hist.seen j.head le_rfl ?_
    rw [getElem?_map, hget]
    rfl
  · have hbuf := hidx ▸ hform.buf
    have hstatus := hhead ▸ h.jobs.status j (.inr hj)
    rw [← hbuf, ← hstatus]

theorem handle {b : β} {r : Request N β} {t : Sys N β δ} (h : Inv s) (hpc : s.pc p = .run .handle)
    (hj : s.hist.filled[s.hist.seen]? = some j) (hr : s.hist.sent[j.n]? = some r)
    (hseen : ¬ s.hist.Seen j.n) (hb : r.b = b) (ht : Handled s b t) :
    Inv (t.goto p (.run .loop)) := by
  have hp := point_of_run hpc
  have hpoint : t.point = s.point := funext ht.pc.point
  have hmoved : ∀ {q x}, x ≠ .handle → x ≠ .loop →
      ((t.goto p (.run .loop)).point q = some x ↔ s.point q = some x) := by
    intro q x hx hx'
    refine moved_iff hp (m := .loop) ?_ (fun q hq => ?_) hx.symm hx'.symm
    · rw [Sys.point_goto, update_self]
      rfl
    · rw [Sys.point_goto, update_of_ne hq, hpoint]
  -- the entry is that of one waiting thread, known by its buffer or its number
  have hwaits : ∀ q b' idx n, s.point q = some (.wait b' idx n) → (b' = b ↔ n = j.n) := by
    intro q b' idx n hq
    obtain ⟨idx', hr', -⟩ := h.waiting hr hseen
    rw [hb] at hr'
    constructor
    · rintro rfl
      have heq := h.ctl.buf_inj hq hr' rfl rfl
      rw [heq, hr'] at hq
      cases hq
      rfl
    · rintro rfl
      have hsent := h.served.sent q b' idx _ (.inl hq)
      rw [hr] at hsent
      cases hsent
      exact hb
  have hnext : ∀ n, t.hist.Seen n ↔ s.hist.Seen n ∨ j.n = n := by
    intro n
    have htake : s.hist.filled.take (s.hist.seen + 1) = s.hist.filled.take s.hist.seen ++ [j] := by
      grind [take_add_one]
    rw [ht.eq]
    show (∃ j' ∈ s.hist.filled.take (s.hist.seen + 1), j'.n = n) ↔ _
    rw [htake]
    simp only [mem_append, mem_singleton, or_and_right, exists_or, exists_eq_left,
      Hist.Seen]
  have hbusy : ∀ b', t.busy b' = if b' = b then false else s.busy b' := by
    intro b'
    rw [ht.eq]
    exact update_apply ..
  have hdisk : t.disk = { s.disk with usedIdx := (s.disk.usedIdx + 1) % WRAP } := by rw [ht.eq]
  have hhist : t.hist = { s.hist with seen := s.hist.seen + 1 } := by rw [ht.eq]
  have hdev : t.dev = s.dev := by rw [ht.eq]
  have hlock := h.ctl.holder p _ hpc
  refine ⟨?_, ?_, ⟨fun q k b' idx hq hk => ?_, fun q b' idx hq => ?_, fun q b' idx n hq => ?_,
    fun n r' hr' hn => ?_, fun q b' idx n hq hb' => ?_, fun q b' idx n hq => ?_⟩, ?_, ?_⟩
  · refine h.ctl.move hpc ht.pc rfl (by rw [ht.eq]; rfl) (.inl ⟨?_, _, rfl⟩)
      (by rintro _ _ ⟨⟩ ⟨⟩)
    rw [ht.eq]
    exact hlock
  · show Split t.disk.free _
    have hchain : s.chain p = none := chain_eq hp
    rw [hdisk, Sys.chain_goto,
      show t.chain = s.chain from funext fun q => by rw [Sys.chain, hpoint, Sys.chain]]
    show Split s.disk.free (update s.chain p none)
    rw [← hchain, update_eq_self]
    exact h.split
  · have hq := (hmoved (by rintro rfl; cases hk) (by rintro rfl; cases hk)).mp hq
    refine (h.served.format q k b' idx hq hk).congr (fun i _ => ?_) ?_
    · show t.disk.desc i = _
      rw [hdisk]
    · show (t.disk.info _).b = _
      rw [hdisk]
  · have hqp : q ≠ p := by
      rintro rfl
      rw [Sys.point_goto, update_self] at hq
      rcases hq with hq | hq <;> cases hq
    rcases hq with hq | hq
    · exact (h.ctl.others hlock hqp ((hmoved (by simp) (by simp)).mp hq)).elim
    · exact (h.ctl.others hlock hqp ((hmoved (by simp) (by simp)).mp hq)).elim
  · show t.hist.sent[n]? = _
    rw [hhist]
    exact h.served.sent q b' idx n
      (hq.imp (hmoved (by simp) (by simp)).mp (hmoved (by simp) (by simp)).mp)
  · change t.hist.sent[n]? = some r' at hr'
    rw [hhist] at hr'
    have hn : ¬ (s.hist.Seen n ∨ j.n = n) := fun hor => hn ((hnext n).mpr hor)
    rw [not_or] at hn
    obtain ⟨hbusy', idx', hidx'⟩ := h.served.live n r' hr' hn.1
    refine ⟨?_, idx', (hmoved (by simp) (by simp)).mpr hidx'⟩
    have hne : r'.b ≠ b := fun heq => hn.2 ((hwaits _ _ _ _ hidx').mp heq).symm
    exact (hbusy r'.b).trans ((if_neg hne).trans hbusy')
  · have hq := (hmoved (by simp) (by simp)).mp hq
    have hb' := (hbusy b').symm.trans hb'
    split_ifs at hb' with hne
    intro hn
    rcases (hnext n).mp hn with hn | hn
    · exact h.served.wait q b' idx n hq hb' hn
    · exact hne ((hwaits q b' idx n hq).mpr hn.symm)
  · exact (hnext n).mpr (.inl (h.served.finish q b' idx n ((hmoved (by simp) (by simp)).mp hq)))
  · have hlt := h.rings.more p hp
    constructor
    case posted =>
      intro q b' idx hq
      show t.disk.avail.ring (t.hist.sent.length % NUM) = _
      rw [hdisk, hhist]
      exact h.rings.posted q b' idx ((hmoved (by simp) (by simp)).mp hq)
    case more =>
      intro q hq
      rw [Sys.point_goto, hpoint] at hq
      rcases eq_or_ne q p with rfl | hqp
      · rw [update_self] at hq
        cases hq
      · rw [update_of_ne hqp] at hq
        exact (h.ctl.others hlock hqp hq).elim
    all_goals simp only [Sys.goto, hdisk, hhist, hdev]
    · exact h.rings.avail
    · exact h.rings.used.advance (Nat.le_succ _)
    · exact h.rings.availIdx
    · exact h.rings.devAvail
    · exact h.rings.devUsed
    · exact h.rings.usedIdx
    · rw [h.rings.drvUsed, Nat.mod_add_mod]
    · exact h.rings.taken_le
    · exact h.rings.shown_le
    · exact hlt
  · have hjobs : (t.goto p (.run .loop)).jobs = s.jobs := by
      show t.dev.taken ++ t.dev.done ++ t.hist.filled = _
      rw [hdev, hhist, Sys.jobs]
    refine ⟨?_, ?_, fun j' hj' => ?_⟩
    · rw [hjobs]
      show Perm _ (range t.hist.taken)
      rw [hhist]
      exact h.jobs.perm
    · rw [hjobs]
      show ∀ j ∈ s.jobs, (t.hist.sent[j.n]?).map _ = _
      rw [hhist]
      exact h.jobs.head
    · change j' ∈ t.dev.done ∨ j' ∈ t.hist.filled.drop t.hist.seen at hj'
      show (t.disk.info j'.head).status = 0
      rw [hdev, hhist] at hj'
      rw [hdisk]
      refine h.jobs.status j' (hj'.imp_right fun hmem => ?_)
      exact (drop_subset_drop_left _ (Nat.le_succ _)) hmem

/-! ### The device -/

omit [DecidableEq β] in
theorem device {t : Sys N β δ} (h : Inv s) (hpc : t.pc = s.pc) (hlock : t.lock = s.lock)
    (hholder : t.holder = s.holder) (hfree : t.disk.free = s.disk.free) (hbusy : t.busy = s.busy)
    (hdesc : t.disk.desc = s.disk.desc)
    (hinfo : ∀ i, (t.disk.info i).b = (s.disk.info i).b) (hsent : t.hist.sent = s.hist.sent)
    (hseen : ∀ n, t.hist.Seen n ↔ s.hist.Seen n) (hrings : Rings t) (hjobs : Jobs t) : Inv t := by
  have hpoint : t.point = s.point := funext fun q => by rw [Sys.point, hpc, Sys.point]
  have hchain : t.chain = s.chain := funext fun q => by rw [Sys.chain, hpoint, Sys.chain]
  refine ⟨h.ctl.congr hpc hlock hholder, ?_, ⟨?_, ?_, ?_, ?_, ?_, ?_⟩, hrings, hjobs⟩
  · rw [hfree, hchain]
    exact h.split
  · rw [hpoint]
    exact fun q k b idx hq hk => (h.served.format q k b idx hq hk).congr (fun i _ => by rw [hdesc])
      (hinfo _)
  · rw [hpoint, hbusy]
    exact h.served.busy
  · rw [hpoint, hsent]
    exact h.served.sent
  · rw [hpoint, hsent, hbusy]
    exact fun n r hr hn => h.served.live n r hr fun hs => hn ((hseen n).mpr hs)
  · rw [hpoint, hbusy]
    exact fun q b idx n hq hb hn => h.served.wait q b idx n hq hb ((hseen n).mp hn)
  · rw [hpoint]
    exact fun q b idx n hq => (hseen n).mpr (h.served.finish q b idx n hq)

omit [DecidableEq β] in
theorem take (h : Inv s) (hne : s.dev.availIdx ≠ s.disk.avail.idx) :
    Inv { s with
      dev.availIdx := (s.dev.availIdx + 1) % WRAP
      dev.taken := s.dev.taken ++ [⟨s.hist.taken, s.disk.avail.ring (s.dev.availIdx % NUM)⟩]
      hist.taken := s.hist.taken + 1 } := by
  have hlt : s.hist.taken < s.hist.sent.length := by
    grind [h.rings.devAvail, h.rings.availIdx, h.rings.taken_le]
  have hget := getElem?_eq_getElem hlt
  have hhead : s.disk.avail.ring (s.dev.availIdx % NUM) = s.hist.sent[s.hist.taken].head := by
    rw [h.rings.devAvail, Nat.mod_mod_of_dvd _ (by decide)]
    refine h.rings.avail s.hist.taken _ le_rfl ?_
    rw [getElem?_map, hget]
    rfl
  refine h.device rfl rfl rfl rfl rfl rfl (fun _ => rfl) rfl (fun _ => Iff.rfl) ?_ ?_
  · refine { h.rings with
      avail := h.rings.avail.advance (Nat.le_succ _)
      devAvail := ?_
      taken_le := hlt }
    rw [h.rings.devAvail, Nat.mod_add_mod]
  · refine { h.jobs with perm := ?_, head := fun j hj => ?_ }
    · show ((s.dev.taken ++ [_] ++ s.dev.done ++ s.hist.filled).map Job.n).Perm
        (range (s.hist.taken + 1))
      have hperm := h.jobs.perm
      rw [Sys.jobs] at hperm
      rw [range_succ]
      simp only [map_append, map_cons, map_nil, append_assoc] at hperm ⊢
      refine (perm_append_comm_assoc ..).trans ?_
      exact (hperm.cons s.hist.taken).trans (perm_append_singleton _ _).symm
    · change j ∈ s.dev.taken ++ [_] ++ s.dev.done ++ s.hist.filled at hj
      simp only [append_assoc, mem_append, mem_singleton] at hj
      rcases hj with hj | rfl | hj | hj
      · exact h.jobs.head j (by simp [Sys.jobs, hj])
      · rw [hhead]
        exact congrArg (Option.map Request.head) hget
      · exact h.jobs.head j (by simp [Sys.jobs, hj])
      · exact h.jobs.head j (by simp [Sys.jobs, hj])

theorem command (h : Inv s) (hj : j ∈ s.dev.taken) :
    ∃ data store, s.command j.head = .ok { s with
      disk.info := update s.disk.info j.head ⟨(s.disk.info j.head).b, 0⟩
      data := data
      store := store } := by
  obtain ⟨q, b, idx, -, hhead, hform, -⟩ := h.job_chain (.inl (mem_append_left _ hj))
  obtain ⟨i, k, l, rfl, hi, hk, hl⟩ := hform.addr
  obtain ⟨-, hik, -, hkl, -⟩ := hform.chained
  obtain rfl : j.head = i := hhead
  exact command_run hi hik hk hkl hl

omit [DecidableEq β] in
theorem jobDone {data : β → δ} {store : ℕ → δ} (h : Inv s) (hj : j ∈ s.dev.taken) :
    Inv { s with
      disk.info := update s.disk.info j.head ⟨(s.disk.info j.head).b, 0⟩
      data := data
      store := store
      dev.taken := s.dev.taken.erase j
      dev.done := s.dev.done ++ [j] } := by
  refine h.device rfl rfl rfl rfl rfl rfl (fun i => update_proj Info.b rfl) rfl
    (fun _ => Iff.rfl) { h.rings with } ?_
  have hperm : Perm (s.dev.taken.erase j ++ (s.dev.done ++ [j]) ++ s.hist.filled) s.jobs := by
    grind [Sys.jobs]
  refine ⟨(hperm.map _).trans h.jobs.perm, fun j' hj' => h.jobs.head j' (hperm.subset hj'),
    fun j' hj' => ?_⟩
  show (update s.disk.info j.head _ j'.head : Info β).status = 0
  rcases eq_or_ne j'.head j.head with heq | hne
  · rw [heq, update_self]
  · grind [h.jobs.status]

omit [DecidableEq β] in
theorem fill {j : Job} (h : Inv s) (hj : j ∈ s.dev.done) :
    Inv { s with
      disk.used.ring := update s.disk.used.ring (s.dev.usedIdx % NUM) j.head
      dev.usedIdx := (s.dev.usedIdx + 1) % WRAP
      dev.done := s.dev.done.erase j
      hist.filled := s.hist.filled ++ [j] } := by
  have hle := h.rings.seen_le.trans h.rings.shown_le
  have hslot : s.dev.usedIdx % NUM = (s.hist.filled.map Job.head).length % NUM := by
    rw [h.rings.devUsed, Nat.mod_mod_of_dvd _ (by decide), length_map]
  refine h.device rfl rfl rfl rfl rfl rfl (fun i => rfl) rfl (fun n => ?_) ?_ ?_
  · grind [Hist.Seen]
  · refine { h.rings with used := ?_, devUsed := ?_, shown_le := ?_ }
    · rw [hslot, map_append]
      refine h.rings.used.push ?_ _
      rw [length_map]
      exact h.unseen
    · rw [h.rings.devUsed, Nat.mod_add_mod, length_append, length_singleton]
    · rw [length_append]
      exact h.rings.shown_le.trans (Nat.le_add_right ..)
  · have hperm : Perm (s.dev.taken ++ s.dev.done.erase j ++ (s.hist.filled ++ [j])) s.jobs := by
      rw [Sys.jobs, append_assoc, append_assoc]
      refine Perm.append_left _ ?_
      rw [← append_assoc]
      refine (perm_append_singleton j _).trans ?_
      exact (perm_cons_erase hj).symm.append_right _
    refine ⟨(hperm.map _).trans h.jobs.perm, fun j' hj' => h.jobs.head j' (hperm.subset hj'),
      fun j' hj' => ?_⟩
    rw [drop_append_of_le_length hle, mem_append, mem_singleton] at hj'
    rcases hj' with hj' | hj' | rfl
    · exact h.jobs.status j' (.inl (mem_of_mem_erase hj'))
    · exact h.jobs.status j' (.inr hj')
    · exact h.jobs.status j' (.inl hj)

omit [DecidableEq β] in
theorem shown (h : Inv s) :
    Inv { s with
      disk.used.idx := s.dev.usedIdx
      hist.shown := s.hist.filled.length } := by
  refine h.device rfl rfl rfl rfl rfl rfl (fun i => rfl) rfl (fun n => Iff.rfl) ?_ { h.jobs with }
  exact { h.rings with
    usedIdx := h.rings.devUsed
    shown_le := le_rfl
    seen_le := h.rings.seen_le.trans h.rings.shown_le
    more := fun q hq => (h.rings.more q hq).trans_le h.rings.shown_le }

end Inv

end Xv6.Virtio
