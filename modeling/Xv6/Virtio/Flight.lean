import Xv6.Virtio.Step
import Xv6.Lib.Window

/-!
Requests in flight.

Three things hold whenever a thread may run. `vdisk_lock` is held by the thread that is
between two stretches of the code, and all others are at a point where they wait (`Ctl`).
The descriptors are split between the free ones and the chains of the threads (`Split`).
The requests that were published and not yet seen by `virtio_disk_intr` are those of the
threads that wait, and the rings, the chains and the device agree on them (`Work`).
-/

namespace Xv6.Virtio

open List
open Function (update update_self update_of_ne)

variable {N : ℕ} {β δ : Type}

namespace Point

def chain : Point β → Option (List ℕ)
  | .alloc _ _ _ => none
  | .format _ _ _ idx => some idx
  | .post _ idx => some idx
  | .publish _ idx => some idx
  | .wait _ idx _ => some idx
  | .finish _ idx _ => some idx
  | .loop => none
  | .handle => none

def buf : Point β → Option β
  | .alloc b _ _ => some b
  | .format b _ _ _ => some b
  | .post b _ => some b
  | .publish b _ => some b
  | .wait b _ _ => some b
  | .finish b _ _ => some b
  | .loop => none
  | .handle => none

def Entry : Point β → Prop
  | .alloc _ _ _ => True
  | .wait _ _ _ => True
  | .loop => True
  | _ => False

/-- The buffer and the chain of a request that has been formatted. -/
def request : Point β → Option (β × List ℕ)
  | .post b idx => some (b, idx)
  | .publish b idx => some (b, idx)
  | .wait b idx _ => some (b, idx)
  | .finish b idx _ => some (b, idx)
  | _ => none

theorem chain_of_request {k : Point β} {b : β} {idx : List ℕ} (h : k.request = some (b, idx)) :
    k.chain = some idx := by
  cases k <;> cases h <;> rfl

end Point

/-! ### The lock and the buffers -/

structure Ctl (s : Sys N β δ) : Prop where
  holder : ∀ p k, s.pc p = .run k → s.lock = some p
  entry : ∀ p k, s.point p = some k → (∀ k', s.pc p ≠ .run k') → k.Entry
  buf : ∀ p k b, s.point p = some k → k.buf = some b → s.holder b = some p

namespace Ctl

variable {s s' : Sys N β δ} {p : Fin N}

theorem buf_inj {q : Fin N} {k k' : Point β} {b : β} (h : Ctl s) (hp : s.point p = some k)
    (hq : s.point q = some k') (hk : k.buf = some b) (hk' : k'.buf = some b) : p = q := by
  have := (h.buf p k b hp hk).symm.trans (h.buf q k' b hq hk')
  exact Option.some.inj this

theorem others {q : Fin N} {k : Point β} (h : Ctl s) (hlock : s.lock = some p) (hq : q ≠ p)
    (hk : s.point q = some k) : k.Entry := by
  refine h.entry q k hk fun k' hrun => hq ?_
  exact Option.some.inj ((h.holder q k' hrun).symm.trans hlock)

theorem move {pc : Fin N → Pc β} {c : Pc β} {k : Point β} (h : Ctl s) (hpc : s.pc p = .run k)
    (hwoke : Woke s.pc pc) (hpc' : s'.pc = update pc p c) (hholder : s'.holder = s.holder)
    (hlock : (s'.lock = some p ∧ ∃ k', c = .run k') ∨
      s'.lock = none ∧ (∀ k', c ≠ .run k') ∧ ∀ k', c.point = some k' → k'.Entry)
    (hbuf : ∀ k' b, c.point = some k' → k'.buf = some b → k.buf = some b) : Ctl s' := by
  have hp := h.holder p k hpc
  have hself : s'.pc p = c := by rw [hpc', update_self]
  have hpoint : ∀ q, q ≠ p → s'.point q = s.point q := by
    grind [congrFun hpc', Sys.point, hwoke.point]
  refine ⟨fun q k' hq => ?_, fun q k' hq hne => ?_, fun q k' b hq hb => ?_⟩
  · grind [congrFun hpc', h.holder, hwoke.run_of]
  · grind [Sys.point, h.others]
  · rw [hholder]
    by_cases hqp : q = p
    · subst hqp
      rw [Sys.point, hself] at hq
      exact h.buf q k b (by rw [Sys.point, hpc]; rfl) (hbuf k' b hq hb)
    · exact h.buf q k' b ((hpoint q hqp).symm.trans hq) hb

theorem arrive {c : Pc β} (h : Ctl s) (hpc : ∀ k, s.pc p ≠ .run k) (hc : ∀ k, c ≠ .run k)
    (hentry : ∀ k, c.point = some k → k.Entry)
    (hbuf : ∀ k b, c.point = some k → k.buf = some b → s.holder b = some p) : Ctl (s.goto p c) := by
  have hself : (s.goto p c).pc p = c := update_self ..
  have hother : ∀ q, q ≠ p → (s.goto p c).pc q = s.pc q := fun q hq => update_of_ne hq ..
  refine ⟨fun q k hq => ?_, fun q k hq hne => ?_, fun q k b hq hb => ?_⟩
  all_goals by_cases hqp : q = p
  · subst hqp
    exact absurd (hself.symm.trans hq) (hc k)
  · exact h.holder q k ((hother q hqp).symm.trans hq)
  · subst hqp
    rw [Sys.point, hself] at hq
    exact hentry k hq
  · rw [Sys.point, hother q hqp] at hq
    rw [hother q hqp] at hne
    exact h.entry q k hq hne
  · subst hqp
    rw [Sys.point, hself] at hq
    exact hbuf k b hq hb
  · rw [Sys.point, hother q hqp] at hq
    exact h.buf q k b hq hb

theorem acquire {k : Point β} (h : Ctl s) (hpc : s.pc p = .acquire k) (hlock : s.lock = none) :
    Ctl { s.goto p (.run k) with lock := some p } := by
  have hpoint : ∀ q, Sys.point { s.goto p (.run k) with lock := some p } q = s.point q := by
    intro q
    rcases eq_or_ne q p with rfl | hq
    · simp [Sys.point, Sys.goto, hpc, Pc.point]
    · simp [Sys.point, Sys.goto, hq]
  refine ⟨fun q k' hq => ?_, fun q k' hq hne => ?_, fun q k' b hq hb => ?_⟩
  · rcases eq_or_ne q p with rfl | hqp
    · rfl
    · have hq : s.pc q = .run k' := by simpa [Sys.goto, hqp] using hq
      have := h.holder q k' hq
      rw [hlock] at this
      cases this
  · grind [Ctl]
  · rw [hpoint] at hq
    exact h.buf q k' b hq hb

end Ctl

/-! ### The descriptors -/

/-- The descriptors are free or belong to the chain of one thread. -/
structure Split (free : ℕ → Bool) (chain : Fin N → Option (List ℕ)) : Prop where
  size : ∀ p idx, chain p = some idx → idx.length = 3
  nodup : ∀ p idx, chain p = some idx → idx.Nodup
  lt : ∀ p idx i, chain p = some idx → i ∈ idx → i < NUM
  disjoint : ∀ p q idx idx', p ≠ q → chain p = some idx → chain q = some idx' → idx.Disjoint idx'
  free : ∀ i, i < NUM → (free i = false ↔ ∃ p idx, chain p = some idx ∧ i ∈ idx)

namespace Split

variable {free free' : ℕ → Bool} {chain : Fin N → Option (List ℕ)} {p : Fin N} {idx : List ℕ}

theorem held (h : Split free chain) {i : ℕ} (hp : chain p = some idx) (hi : i ∈ idx) :
    free i = false :=
  (h.free i (h.lt p idx i hp hi)).mpr ⟨p, idx, hp, hi⟩

theorem update_cases {q : Fin N} {x : Option (List ℕ)} (h : update chain p x q = some idx) :
    q = p ∧ x = some idx ∨ q ≠ p ∧ chain q = some idx := by
  rcases eq_or_ne q p with rfl | hq
  · rw [update_self] at h
    exact .inl ⟨rfl, h⟩
  · rw [update_of_ne hq] at h
    exact .inr ⟨hq, h⟩

theorem alloc (h : Split free chain) (hp : chain p = none) (hlen : idx.length = 3)
    (hnodup : idx.Nodup) (hlt : ∀ i ∈ idx, i < NUM) (hidx : ∀ i ∈ idx, free i = true)
    (hfree : ∀ i, free' i = if i ∈ idx then false else free i) :
    Split free' (update chain p (some idx)) := by
  have hnew : ∀ q idx', chain q = some idx' → idx'.Disjoint idx := by
    intro q idx' hq i hi hmem
    have := h.held hq hi
    rw [hidx i hmem] at this
    cases this
  refine ⟨fun q idx' hq => ?_, fun q idx' hq => ?_, fun q idx' i hq hi => ?_,
    fun q r idx₁ idx₂ hqr hq hr => ?_, fun i hi => ?_⟩
  · grind [h.size]
  · grind [h.nodup]
  · grind [Split]
  · rcases update_cases hq with ⟨hqp, ⟨⟩⟩ | ⟨-, hq⟩ <;>
      rcases update_cases hr with ⟨hrp, ⟨⟩⟩ | ⟨-, hr⟩
    · exact absurd (hqp.trans hrp.symm) hqr
    · exact (hnew r idx₂ hr).symm
    · exact hnew q idx₁ hq
    · exact h.disjoint q r idx₁ idx₂ hqr hq hr
  · rw [hfree]
    split_ifs with hmem
    · exact ⟨fun _ => ⟨p, idx, update_self .., hmem⟩, fun _ => rfl⟩
    · rw [h.free i hi]
      constructor
      · rintro ⟨q, idx', hq, hi'⟩
        refine ⟨q, idx', ?_, hi'⟩
        rw [update_of_ne]
        · exact hq
        · rintro rfl
          rw [hp] at hq
          cases hq
      · grind

theorem release (h : Split free chain) (hp : chain p = some idx)
    (hfree : ∀ i, free' i = if i ∈ idx then true else free i) :
    Split free' (update chain p none) := by
  have hsub : ∀ q idx', update chain p none q = some idx' →
      q ≠ p ∧ chain q = some idx' := by grind
  refine ⟨fun q idx' hq => h.size q idx' (hsub q idx' hq).2,
    fun q idx' hq => h.nodup q idx' (hsub q idx' hq).2,
    fun q idx' i hq hi => h.lt q idx' i (hsub q idx' hq).2 hi,
    fun q r idx₁ idx₂ hqr hq hr =>
      h.disjoint q r idx₁ idx₂ hqr (hsub q idx₁ hq).2 (hsub r idx₂ hr).2, fun i hi => ?_⟩
  rw [hfree]
  split_ifs with hmem
  · refine ⟨fun hc => absurd hc (by simp), fun ⟨q, idx', hq, hi'⟩ => ?_⟩
    obtain ⟨hqp, hq⟩ := hsub q idx' hq
    exact absurd hmem (h.disjoint q p idx' idx hqp hq hp hi')
  · grind [h.free]

theorem count (h : Split free chain) :
    ((Finset.range NUM).filter (free · = true)).card +
      3 * (Finset.univ.filter (chain · ≠ none)).card = NUM := by
  have hheld : (Finset.range NUM).filter (free · ≠ true) =
      (Finset.univ.filter (chain · ≠ none)).biUnion fun p => ((chain p).getD []).toFinset := by
    ext i
    simp only [Finset.mem_filter, Finset.mem_range, Finset.mem_biUnion, Finset.mem_univ, true_and,
      mem_toFinset, ne_eq, Bool.not_eq_true]
    constructor
    · grind [h.free]
    · rintro ⟨p, hne, hmem⟩
      obtain ⟨idx, hp⟩ := Option.ne_none_iff_exists'.mp hne
      rw [hp] at hmem
      exact ⟨h.lt p idx i hp hmem, h.held hp hmem⟩
  have hcard : ((Finset.range NUM).filter (free · ≠ true)).card =
      3 * (Finset.univ.filter (chain · ≠ none)).card := by
    rw [hheld, Finset.card_biUnion, Finset.sum_const_nat, mul_comm]
    · intro p hp
      obtain ⟨idx, hp⟩ := Option.ne_none_iff_exists'.mp (Finset.mem_filter.mp hp).2
      rw [hp, Option.getD_some, toFinset_card_of_nodup (h.nodup p idx hp)]
      exact h.size p idx hp
    · intro p hp q hq hpq
      obtain ⟨idx, hp⟩ := Option.ne_none_iff_exists'.mp (Finset.mem_filter.mp hp).2
      obtain ⟨idx', hq⟩ := Option.ne_none_iff_exists'.mp (Finset.mem_filter.mp hq).2
      show Disjoint ((chain p).getD []).toFinset ((chain q).getD []).toFinset
      rw [hp, hq]
      exact disjoint_toFinset_iff_disjoint.mpr (h.disjoint p q idx idx' hpq hp hq)
  rw [← hcard, Finset.card_filter_add_card_filter_not, Finset.card_range]

end Split

namespace Sys

def chain (s : Sys N β δ) (p : Fin N) : Option (List ℕ) := (s.point p).bind Point.chain

def number (s : Sys N β δ) (p : Fin N) : ℕ :=
  match s.point p with
  | some (.wait _ _ n) => n
  | _ => 0

theorem point_goto (s : Sys N β δ) (p : Fin N) (c : Pc β) :
    (s.goto p c).point = update s.point p c.point := by
  funext q
  rcases eq_or_ne q p with rfl | hq
  · simp [point, goto]
  · simp [point, goto, hq]

theorem chain_goto (s : Sys N β δ) (p : Fin N) (c : Pc β) :
    (s.goto p c).chain = update s.chain p (c.point.bind Point.chain) := by
  funext q
  rw [chain, point_goto]
  rcases eq_or_ne q p with rfl | hq
  · rw [update_self, update_self]
  · rw [update_of_ne hq, update_of_ne hq, chain]

end Sys

namespace Marked

variable {s s' : Sys N β δ} {idx : List ℕ} {x : Bool}

theorem point (h : Marked s idx x s') : s'.point = s.point := funext h.pc.point

theorem chain (h : Marked s idx x s') : s'.chain = s.chain := by
  funext p
  rw [Sys.chain, h.point, Sys.chain]

end Marked

/-! ### The requests -/

/-- The chain is that of a disk command on the data of `b`. -/
structure Formatted (d : Disk β) (b : β) (idx : List ℕ) : Prop where
  chained : Chained d.desc idx
  buf : (d.info (idx.getD 0 0)).b = some b
  addr : ∃ i j k, idx = [i, j, k] ∧ (d.desc i).addr = .op i ∧ (d.desc j).addr = .data b ∧
    (d.desc k).addr = .status i

theorem Formatted.congr {d d' : Disk β} {b : β} {idx : List ℕ} (h : Formatted d b idx)
    (hdesc : ∀ i ∈ idx, d'.desc i = d.desc i)
    (hinfo : (d'.info (idx.getD 0 0)).b = (d.info (idx.getD 0 0)).b) : Formatted d' b idx := by
  refine ⟨h.chained.congr hdesc, hinfo.trans h.buf, ?_⟩
  obtain ⟨i, j, k, rfl, hi, hj, hk⟩ := h.addr
  refine ⟨i, j, k, rfl, ?_, ?_, ?_⟩
  · rwa [hdesc i (by simp)]
  · rwa [hdesc j (by simp)]
  · rwa [hdesc k (by simp)]

theorem Formatted.head_mem {d : Disk β} {b : β} {idx : List ℕ} (h : Formatted d b idx) :
    idx.getD 0 0 ∈ idx := by
  obtain ⟨i, j, k, rfl, -⟩ := h.addr
  simp

def Hist.Seen (t : Hist N β) (n : ℕ) : Prop := ∃ j ∈ t.filled.take t.seen, j.n = n

/-- The threads have formatted their chains, and those of the requests that
were published and not yet seen wait for them. -/
structure Served (s : Sys N β δ) : Prop where
  format : ∀ p k b idx, s.point p = some k → k.request = some (b, idx) → Formatted s.disk b idx
  busy : ∀ p b idx, s.point p = some (.post b idx) ∨ s.point p = some (.publish b idx) →
    s.busy b = true
  sent : ∀ p b idx n, s.point p = some (.wait b idx n) ∨ s.point p = some (.finish b idx n) →
    s.hist.sent[n]? = some ⟨p, b, idx.getD 0 0⟩
  live : ∀ n r, s.hist.sent[n]? = some r → ¬ s.hist.Seen n →
    s.busy r.b = true ∧ ∃ idx, s.point r.proc = some (.wait r.b idx n)
  wait : ∀ p b idx n, s.point p = some (.wait b idx n) → s.busy b = true → ¬ s.hist.Seen n
  finish : ∀ p b idx n, s.point p = some (.finish b idx n) → s.hist.Seen n

/-- The rings hold what is on its way to the device and back, and the indices
count it. -/
structure Rings (s : Sys N β δ) : Prop where
  avail : Window NUM s.disk.avail.ring (s.hist.sent.map Request.head) s.hist.taken
  posted : ∀ p b idx, s.point p = some (.publish b idx) →
    s.disk.avail.ring (s.hist.sent.length % NUM) = idx.getD 0 0
  used : Window NUM s.disk.used.ring (s.hist.filled.map Job.head) s.hist.seen
  availIdx : s.disk.avail.idx = s.hist.sent.length % WRAP
  devAvail : s.dev.availIdx = s.hist.taken % WRAP
  devUsed : s.dev.usedIdx = s.hist.filled.length % WRAP
  usedIdx : s.disk.used.idx = s.hist.shown % WRAP
  drvUsed : s.disk.usedIdx = s.hist.seen % WRAP
  taken_le : s.hist.taken ≤ s.hist.sent.length
  shown_le : s.hist.shown ≤ s.hist.filled.length
  seen_le : s.hist.seen ≤ s.hist.shown
  more : ∀ p, s.point p = some .handle → s.hist.seen < s.hist.shown

def Sys.jobs (s : Sys N β δ) : List Job := s.dev.taken ++ s.dev.done ++ s.hist.filled

/-- The device has taken every request once, and has written the status of
those that it is done with. -/
structure Jobs (s : Sys N β δ) : Prop where
  perm : (s.jobs.map Job.n).Perm (range s.hist.taken)
  head : ∀ j ∈ s.jobs, (s.hist.sent[j.n]?).map Request.head = some j.head
  status : ∀ j, j ∈ s.dev.done ∨ j ∈ s.hist.filled.drop s.hist.seen →
    (s.disk.info j.head).status = 0

structure Inv (s : Sys N β δ) : Prop where
  ctl : Ctl s
  split : Split s.disk.free s.chain
  served : Served s
  rings : Rings s
  jobs : Jobs s

namespace Inv

variable {s : Sys N β δ}

variable (h : Inv s)
include h

theorem n_lt {j : Job} (hj : j ∈ s.jobs) : j.n < s.hist.taken :=
  mem_range.mp (h.jobs.perm.mem_iff.mp (mem_map_of_mem hj))

theorem seen_lt {n : ℕ} (hn : s.hist.Seen n) : n < s.hist.taken := by
  obtain ⟨j, hj, rfl⟩ := hn
  refine h.n_lt ?_
  rw [Sys.jobs, mem_append]
  exact .inr (mem_of_mem_take hj)

theorem filled_nodup : (s.hist.filled.map Job.n).Nodup := by
  have hall := h.jobs.perm.nodup_iff.mpr nodup_range
  rw [Sys.jobs, map_append] at hall
  exact hall.of_append_right

theorem not_seen {j : Job} (hj : j ∈ s.hist.filled.drop s.hist.seen) : ¬ s.hist.Seen j.n := by
  rintro ⟨j', hj', heq⟩
  have hnodup := h.filled_nodup
  rw [← take_append_drop s.hist.seen s.hist.filled, map_append] at hnodup
  exact hnodup.disjoint (mem_map_of_mem hj') (heq ▸ mem_map_of_mem hj)

theorem not_seen_of_dev {j : Job} (hj : j ∈ s.dev.taken ++ s.dev.done) : ¬ s.hist.Seen j.n := by
  rintro ⟨j', hj', heq⟩
  have hall := h.jobs.perm.nodup_iff.mpr nodup_range
  rw [Sys.jobs, map_append] at hall
  exact hall.disjoint (mem_map_of_mem hj)
    (heq ▸ mem_map_of_mem (mem_of_mem_take hj'))

theorem waiting {n : ℕ} {r : Request N β} (hr : s.hist.sent[n]? = some r) (hn : ¬ s.hist.Seen n) :
    ∃ idx, s.point r.proc = some (.wait r.b idx n) ∧ r.head = idx.getD 0 0 ∧
      Formatted s.disk r.b idx ∧ s.chain r.proc = some idx := by
  obtain ⟨-, idx, hpoint⟩ := h.served.live n r hr hn
  have hsent := h.served.sent _ _ _ _ (.inl hpoint)
  rw [hr] at hsent
  have hhead : r.head = idx.getD 0 0 := congrArg Request.head (Option.some.inj hsent)
  have hform := h.served.format _ _ _ _ hpoint rfl
  refine ⟨idx, hpoint, hhead, hform, ?_⟩
  rw [Sys.chain, hpoint]
  rfl

theorem card_le (S : Finset ℕ)
    (hS : ∀ n ∈ S, n < s.hist.sent.length ∧ ¬ s.hist.Seen n) : S.card ≤ 2 := by
  have hcount := h.split.count
  have hsub : S ⊆ (Finset.univ.filter (s.chain · ≠ none)).image s.number := by
    intro n hn
    obtain ⟨hlt, hseen⟩ := hS n hn
    obtain ⟨idx, hpoint, -, -, hchain⟩ := h.waiting (getElem?_eq_getElem hlt) hseen
    refine Finset.mem_image.mpr ⟨s.hist.sent[n].proc, ?_, by simp only [Sys.number, hpoint]⟩
    simp [hchain]
  have hcard := (Finset.card_le_card hsub).trans Finset.card_image_le
  have hnum : NUM = 8 := rfl
  omega

theorem outstanding : s.hist.sent.length < s.hist.taken + NUM := by
  have := h.card_le (Finset.Ico s.hist.taken s.hist.sent.length) fun n hn => by
    rw [Finset.mem_Ico] at hn
    exact ⟨hn.2, fun hseen => absurd (h.seen_lt hseen) (by omega)⟩
  rw [Nat.card_Ico] at this
  have hnum : NUM = 8 := rfl
  omega

theorem unseen : s.hist.filled.length < s.hist.seen + NUM := by
  have hnodup : ((s.hist.filled.drop s.hist.seen).map Job.n).Nodup :=
    h.filled_nodup.sublist ((drop_sublist ..).map _)
  have := h.card_le ((s.hist.filled.drop s.hist.seen).map Job.n).toFinset fun n hn => by
    rw [mem_toFinset, mem_map] at hn
    obtain ⟨j, hj, rfl⟩ := hn
    refine ⟨(h.n_lt ?_).trans_le h.rings.taken_le, h.not_seen hj⟩
    rw [Sys.jobs, mem_append]
    exact .inr (mem_of_mem_drop hj)
  rw [toFinset_card_of_nodup hnodup, length_map, length_drop] at this
  have hnum : NUM = 8 := rfl
  omega

end Inv

end Xv6.Virtio
