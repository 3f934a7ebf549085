import Xv6.Virtio.Basic

/-!
What the functions on descriptors do, and what a step does to the driver and
the device, one case for each way through the code.
-/

namespace Xv6.Virtio

open List
open Function (update update_of_ne update_apply)

variable {N : ℕ} {β δ : Type}
variable {s : Sys N β δ} {idx : List ℕ} {i : ℕ}

def Pc.point : Pc β → Option (Point β)
  | .out => none
  | .acquire k => some k
  | .asleep _ k => some k
  | .run k => some k

def Sys.point (s : Sys N β δ) (p : Fin N) : Option (Point β) := (s.pc p).point

def Woke (pc pc' : Fin N → Pc β) : Prop :=
  ∀ q, pc' q = pc q ∨ ∃ c k, pc q = .asleep c k ∧ pc' q = .acquire k

namespace Woke

theorem refl (pc : Fin N → Pc β) : Woke pc pc := fun _ => .inl rfl

theorem trans {c : Fin N → Pc β} (hab : Woke a b) (hbc : Woke b c) : Woke a c := by
  intro q
  rcases hab q with heq | ⟨ch, k, ha, hb⟩
  · rw [← heq]
    exact hbc q
  · rcases hbc q with heq | ⟨_, _, hb', -⟩
    · exact .inr ⟨ch, k, ha, heq.trans hb⟩
    · rw [hb] at hb'
      cases hb'

variable {a b : Fin N → Pc β}

theorem point (h : Woke a b) (q : Fin N) : (b q).point = (a q).point := by
  rcases h q with heq | ⟨c, k, ha, hb⟩
  · rw [heq]
  · rw [ha, hb]
    rfl

theorem run_of (h : Woke a b) {q : Fin N} {k : Point β} (hq : b q = .run k) : a q = .run k := by
  rcases h q with heq | ⟨_, _, -, hb⟩
  · rw [← heq, hq]
  · rw [hq] at hb
    cases hb

variable [DecidableEq β]

theorem wakeup (s : Sys N β δ) (c : Chan β) : Woke s.pc (s.wakeup c).pc := by
  intro q
  show (s.pc q).woken c = s.pc q ∨ _
  cases hq : s.pc q with
  | asleep c' k => grind [Pc.woken, Sys.wakeup]
  | _ => exact .inl rfl

end Woke

/-! ### Allocating and freeing descriptors -/

/-- `s'` is `s` with the descriptors of `idx` marked as free or not, with other
contents of them perhaps, and with some sleepers woken. -/
structure Marked (s : Sys N β δ) (idx : List ℕ) (x : Bool) (s' : Sys N β δ) : Prop where
  eq : s' = { s with
    disk.desc := s'.disk.desc
    disk.free := s'.disk.free
    pc := s'.pc }
  free : ∀ i, s'.disk.free i = if i ∈ idx then x else s.disk.free i
  desc : ∀ i, i ∉ idx → s'.disk.desc i = s.disk.desc i
  pc : Woke s.pc s'.pc

namespace Marked

variable {s s' s'' : Sys N β δ} {idx idx' : List ℕ} {x : Bool}

theorem refl (s : Sys N β δ) (x : Bool) : Marked s [] x s :=
  ⟨rfl, fun _ => rfl, fun _ _ => rfl, .refl _⟩

theorem append (h : Marked s idx x s') (h' : Marked s' idx' x s'') :
    Marked s (idx ++ idx') x s'' := by
  refine ⟨?_, fun i => ?_, fun i hi => ?_, h.pc.trans h'.pc⟩
  · rw [h'.eq, h.eq]
  · grind [h'.free, h.free]
  · rw [mem_append, not_or] at hi
    rw [h'.desc i hi.2, h.desc i hi.1]

theorem overwrite {y : Bool} (h : Marked s idx x s') (h' : Marked s' idx y s'') :
    Marked s idx y s'' := by
  refine ⟨?_, fun i => ?_, fun i hi => ?_, h.pc.trans h'.pc⟩
  · rw [h'.eq, h.eq]
  · rw [h'.free, h.free]
    split_ifs <;> rfl
  · rw [h'.desc i hi, h.desc i hi]

end Marked

theorem marked_setFree (s : Sys N β δ) (i : ℕ) (x : Bool) : Marked s [i] x (s.setFree i x) := by
  refine ⟨rfl, fun j => ?_, fun _ _ => rfl, .refl _⟩
  simp only [Sys.setFree, mem_singleton, update_apply]

structure Avail (s : Sys N β δ) (idx : List ℕ) : Prop where
  nodup : idx.Nodup
  lt : ∀ i ∈ idx, i < NUM
  free : ∀ i ∈ idx, s.disk.free i = true

theorem allocDesc_run (s : Sys N β δ) :
    (∃ i, i < NUM ∧ s.disk.free i = true ∧ allocDesc.run s = .ok (some i, s.setFree i false)) ∨
      allocDesc.run s = .ok (none, s) := by
  cases hfirst : firstFree s.disk.free NUM 0 with
  | some i =>
    obtain ⟨hlt, hfree⟩ := firstFree_some hfirst
    refine .inl ⟨i, by simpa using hlt, hfree, ?_⟩
    simp [allocDesc, hfirst]
    rfl
  | none =>
    refine .inr ?_
    simp [allocDesc, hfirst]
    rfl

variable [DecidableEq β]

theorem freeDesc_run (hlt : i < NUM) (hfree : s.disk.free i = false) :
    ∃ s', (freeDesc i).run s = .ok ((), s') ∧ Marked s [i] true s' := by
  refine ⟨((s.setDesc i ⟨.null, 0, 0, 0⟩).setFree i true).wakeup .free, ?_, rfl, fun j => ?_,
    fun j hj => ?_, .wakeup _ _⟩
  · simp only [freeDesc, if_neg (not_le.mpr hlt)]
    simp [hfree]
    rfl
  · simp only [Sys.setFree, Sys.setDesc, Sys.wakeup, mem_singleton, update_apply]
  · exact update_of_ne (by simpa using hj) ..

theorem freeDescs_run (hnodup : idx.Nodup) (hlt : ∀ i ∈ idx, i < NUM)
    (hfree : ∀ i ∈ idx, s.disk.free i = false) :
    ∃ s', (freeDescs idx).run s = .ok ((), s') ∧ Marked s idx true s' := by
  induction idx generalizing s with
  | nil => exact ⟨s, rfl, .refl s true⟩
  | cons i idx ih =>
    rw [nodup_cons] at hnodup
    obtain ⟨s₁, hrun, hmark⟩ := freeDesc_run (hlt i (by simp)) (hfree i (by simp))
    have hfree₁ : ∀ j ∈ idx, s₁.disk.free j = false := by grind [hmark.free]
    obtain ⟨s₂, hrun₂, hmark₂⟩ := ih hnodup.2 (fun j hj => hlt j (by simp [hj])) hfree₁
    refine ⟨s₂, ?_, hmark.append hmark₂⟩
    rw [freeDescs, StateT.run_bind, hrun]
    exact hrun₂

/-- `alloc3_desc` ends with as many descriptors as it wants, or with none and
all descriptors as free as before. -/
theorem alloc3Loop_run {t : Sys N β δ} (todo : ℕ) (hidx : Avail s idx)
    (hmark : Marked s idx false t) :
    ∃ r t', (alloc3Loop todo idx).run t = .ok (r, t') ∧
      match r with
      | some idx' => idx'.length = idx.length + todo ∧ Avail s idx' ∧ Marked s idx' false t'
      | none => ∃ idx', Avail s idx' ∧ Marked s idx' true t' := by
  induction todo generalizing t idx with
  | zero => exact ⟨some idx, t, rfl, rfl, hidx, hmark⟩
  | succ todo ih =>
    rcases allocDesc_run t with ⟨i, hi, hfree, hrun⟩ | hrun
    · have hnot : i ∉ idx := by
        intro hmem
        rw [hmark.free, if_pos hmem] at hfree
        cases hfree
      have hfree' : s.disk.free i = true := by rwa [hmark.free, if_neg hnot] at hfree
      have hidx' : Avail s (idx ++ [i]) := by grind [Avail]
      obtain ⟨r, t', hloop, hr⟩ := ih hidx' (hmark.append (marked_setFree t i false))
      refine ⟨r, t', ?_, ?_⟩
      · rw [alloc3Loop, StateT.run_bind, hrun]
        exact hloop
      · grind
    · have hheld : ∀ i ∈ idx, t.disk.free i = false := by
        intro i hi
        rw [hmark.free, if_pos hi]
      obtain ⟨t', hrun', hmark'⟩ := freeDescs_run hidx.nodup hidx.lt hheld
      refine ⟨none, t', ?_, idx, hidx, hmark.overwrite hmark'⟩
      rw [alloc3Loop, StateT.run_bind, hrun]
      show ((freeDescs idx).run t >>= _) = _
      rw [hrun']
      rfl

theorem alloc3Desc_run (s : Sys N β δ) :
    (∃ idx s', alloc3Desc.run s = .ok (some idx, s') ∧ idx.length = 3 ∧ Avail s idx ∧
        Marked s idx false s') ∨
      ∃ idx s', alloc3Desc.run s = .ok (none, s') ∧ Avail s idx ∧ Marked s idx true s' := by
  have hnil : Avail s [] := ⟨nodup_nil, by simp, by simp⟩
  obtain ⟨r, s', hrun, hr⟩ := alloc3Loop_run 3 hnil (.refl s false)
  cases r with
  | some idx => exact .inl ⟨idx, s', hrun, by simpa using hr⟩
  | none =>
    obtain ⟨idx, hr⟩ := hr
    exact .inr ⟨idx, s', hrun, hr⟩

def Chained (desc : ℕ → Desc β) : List ℕ → Prop
  | [] => False
  | [i] => (desc i).flags &&& VRING_DESC_F_NEXT = 0
  | i :: j :: idx => (desc i).flags &&& VRING_DESC_F_NEXT ≠ 0 ∧ (desc i).next = j ∧
      Chained desc (j :: idx)

omit [DecidableEq β] in
theorem Chained.congr {desc desc' : ℕ → Desc β} (h : Chained desc idx)
    (heq : ∀ i ∈ idx, desc' i = desc i) : Chained desc' idx := by
  induction idx with
  | nil => exact h
  | cons i idx ih =>
    cases idx with
    | nil =>
      rw [Chained, heq i (by simp)]
      exact h
    | cons j idx => grind [Chained]

theorem freeChainLoop_run (fuel : ℕ) (hchain : Chained s.disk.desc (i :: idx))
    (hnodup : (i :: idx).Nodup) (hlt : ∀ j ∈ i :: idx, j < NUM)
    (hfree : ∀ j ∈ i :: idx, s.disk.free j = false) (hfuel : idx.length < fuel) :
    ∃ s', (freeChainLoop fuel i).run s = .ok ((), s') ∧ Marked s (i :: idx) true s' := by
  induction idx generalizing s fuel i with
  | nil =>
    obtain ⟨fuel, rfl⟩ := Nat.exists_eq_add_of_lt hfuel
    obtain ⟨s₁, hrun, hmark⟩ := freeDesc_run (hlt i (by simp)) (hfree i (by simp))
    refine ⟨s₁, ?_, hmark⟩
    show ((freeDesc i).run s >>= _) = _
    rw [hrun]
    rw [Chained] at hchain
    rw [if_neg (not_not.mpr hchain)]
    rfl
  | cons j idx ih =>
    obtain ⟨fuel, rfl⟩ := Nat.exists_eq_add_of_lt hfuel
    rw [nodup_cons] at hnodup
    obtain ⟨hflag, hnext, hrest⟩ := hchain
    obtain ⟨s₁, hrun, hmark⟩ := freeDesc_run (hlt i (by simp)) (hfree i (by simp))
    have hne : ∀ k ∈ j :: idx, k ∉ [i] := by grind
    have hfree₁ : ∀ k ∈ j :: idx, s₁.disk.free k = false := by grind [hmark.free]
    obtain ⟨s₂, hrun₂, hmark₂⟩ := ih ((j :: idx).length + fuel)
      (hrest.congr fun k hk => hmark.desc k (hne k hk)) hnodup.2
      (fun k hk => hlt k (mem_cons_of_mem _ hk)) hfree₁ (by simp; omega)
    refine ⟨s₂, ?_, hmark.append hmark₂⟩
    show ((freeDesc i).run s >>= _) = _
    rw [hrun]
    rw [if_pos hflag, hnext]
    exact hrun₂

/-! ### Completing and carrying out a request -/

/-- `virtio_disk_intr` has handled one entry of the used ring, for buffer
`b`. -/
structure Handled (s : Sys N β δ) (b : β) (s' : Sys N β δ) : Prop where
  eq : s' = { s with
    busy := update s.busy b false
    disk.usedIdx := (s.disk.usedIdx + 1) % WRAP
    hist.seen := s.hist.seen + 1
    pc := s'.pc }
  pc : Woke s.pc s'.pc

theorem handle_run {id : ℕ} {b : β} (hid : s.disk.used.ring (s.disk.usedIdx % NUM) = id)
    (hinfo : s.disk.info id = ⟨some b, 0⟩) : ∃ s', s.handle = .ok s' ∧ Handled s b s' := by
  refine ⟨{ (s.setBusy b false).wakeup (.buf b) with
    disk.usedIdx := (s.disk.usedIdx + 1) % WRAP
    hist.seen := s.hist.seen + 1 }, ?_, rfl, .wakeup (s.setBusy b false) (.buf b)⟩
  simp only [Sys.handle, hid, hinfo, ne_eq, not_true_eq_false, if_false]
  rfl

theorem command_run {j k : ℕ} {b : β} (hi : (s.disk.desc i).addr = .op i)
    (hij : (s.disk.desc i).next = j) (hj : (s.disk.desc j).addr = .data b)
    (hjk : (s.disk.desc j).next = k) (hk : (s.disk.desc k).addr = .status i) :
    ∃ data store, s.command i = .ok { s with
      disk.info := update s.disk.info i ⟨(s.disk.info i).b, 0⟩
      data := data
      store := store } := by
  simp only [Sys.command, hi, hij, hj, hjk, hk]
  split_ifs with htype
  · exact ⟨_, _, rfl⟩
  · exact ⟨_, _, rfl⟩

/-! ### Steps -/

inductive Run (s : Sys N β δ) (p : Fin N) : Point β → Sys N β δ → Prop
  | alloc {b write sector idx s'} (hlen : idx.length = 3) (hidx : Avail s idx)
      (hmark : Marked s idx false s') :
      Run s p (.alloc b write sector) (s'.goto p (.run (.format b write sector idx)))
  | allocSleep {b write sector idx s'} (hidx : Avail s idx) (hmark : Marked s idx true s') :
      Run s p (.alloc b write sector) (s'.sleep p .free (.alloc b write sector))
  | format {b write sector idx} :
      Run s p (.format b write sector idx)
        ((s.format b write sector idx).goto p (.run (.post b idx)))
  | post {b idx} :
      Run s p (.post b idx) ((s.post (idx.getD 0 0)).goto p (.run (.publish b idx)))
  | publish {b idx} :
      Run s p (.publish b idx)
        ((s.publish ⟨p, b, idx.getD 0 0⟩).goto p (.run (.wait b idx s.hist.sent.length)))
  | waitSleep {b idx n} (hbusy : s.busy b = true) :
      Run s p (.wait b idx n) (s.sleep p (.buf b) (.wait b idx n))
  | waitDone {b idx n} (hbusy : s.busy b = false) :
      Run s p (.wait b idx n) (s.goto p (.run (.finish b idx n)))
  | finish {b idx n s'}
      (hfree : (freeChain (idx.getD 0 0)).run
        (s.setInfo (idx.getD 0 0) ⟨none, (s.disk.info (idx.getD 0 0)).status⟩) = .ok ((), s')) :
      Run s p (.finish b idx n) (s'.release p)
  | more (hne : s.disk.usedIdx ≠ s.disk.used.idx) : Run s p .loop (s.goto p (.run .handle))
  | leave (heq : s.disk.usedIdx = s.disk.used.idx) : Run s p .loop (s.release p)
  | handle {s'} (h : s.handle = .ok s') : Run s p .handle (s'.goto p (.run .loop))

inductive Step (s : Sys N β δ) : Act N β → Sys N β δ → Prop
  | acquire {p k} (hpc : s.pc p = .acquire k) (hlock : s.lock = none) :
      Step s (.step p) { s.goto p (.run k) with lock := some p }
  | run {p k s'} (hpc : s.pc p = .run k) (h : Run s p k s') : Step s (.step p) s'
  | lock {p b} (hpc : s.pc p = .out) (hfree : s.holder b = none) :
      Step s (.lock p b) { s with holder := update s.holder b (some p) }
  | unlock {p b} (hpc : s.pc p = .out) (hheld : s.holder b = some p) :
      Step s (.unlock p b) { s with holder := update s.holder b none }
  | rw {p b write blockno} (hpc : s.pc p = .out) (hheld : s.holder b = some p) :
      Step s (.rw p b write blockno)
        (s.goto p (.acquire (.alloc b write (blockno * (BSIZE / 512) % 2 ^ 32))))
  | intr {p} (hpc : s.pc p = .out) : Step s (.intr p) (s.goto p (.acquire .loop))
  | kill {p c k} (hpc : s.pc p = .asleep c k) : Step s (.kill p) (s.goto p (.acquire k))
  | take (hne : s.dev.availIdx ≠ s.disk.avail.idx) :
      Step s .take { s with
        dev.availIdx := (s.dev.availIdx + 1) % WRAP
        dev.taken := s.dev.taken ++
          [⟨s.hist.taken, s.disk.avail.ring (s.dev.availIdx % NUM)⟩]
        hist.taken := s.hist.taken + 1 }
  | finish {j s'} (hj : j ∈ s.dev.taken) (h : s.command j.head = .ok s') :
      Step s (.finish j) { s' with
        dev.taken := s'.dev.taken.erase j
        dev.done := s'.dev.done ++ [j] }
  | fill {j} (hj : j ∈ s.dev.done) :
      Step s (.fill j) { s with
        disk.used.ring := update s.disk.used.ring (s.dev.usedIdx % NUM) j.head
        dev.usedIdx := (s.dev.usedIdx + 1) % WRAP
        dev.done := s.dev.done.erase j
        hist.filled := s.hist.filled ++ [j] }
  | publish :
      Step s .publish { s with
        disk.used.idx := s.dev.usedIdx
        hist.shown := s.hist.filled.length }

theorem run_cases {s' : Sys N β δ} {p : Fin N} (h : s.run p = .ok s') : Step s (.step p) s' := by
  unfold Sys.run at h
  split at h
  next k hpc =>
    split_ifs at h with hlock
    cases h
    exact .acquire hpc hlock
  next b write sector hpc =>
    rcases alloc3Desc_run s with ⟨idx, s₁, hrun, hlen, hidx, hmark⟩ | ⟨idx, s₁, hrun, hidx, hmark⟩
    · rw [hrun] at h
      cases h
      exact .run hpc (.alloc hlen hidx hmark)
    · rw [hrun] at h
      cases h
      exact .run hpc (.allocSleep hidx hmark)
  next b write sector idx hpc =>
    cases h
    exact .run hpc .format
  next b idx hpc =>
    cases h
    exact .run hpc .post
  next b idx hpc =>
    cases h
    exact .run hpc .publish
  next b idx n hpc =>
    split_ifs at h with hbusy <;> cases h
    · exact .run hpc (.waitSleep hbusy)
    · exact .run hpc (.waitDone (Bool.eq_false_iff.mpr hbusy))
  next b idx n hpc =>
    dsimp only at h
    cases hrun : (freeChain (idx.getD 0 0)).run
        (s.setInfo (idx.getD 0 0) ⟨none, (s.disk.info (idx.getD 0 0)).status⟩) with
    | error e =>
      rw [hrun] at h
      cases h
    | ok r =>
      rw [hrun] at h
      cases h
      exact .run hpc (.finish hrun)
  next hpc =>
    split_ifs at h with hne <;> cases h
    · exact .run hpc (.more hne)
    · exact .run hpc (.leave (not_not.mp hne))
  next hpc =>
    cases hrun : s.handle with
    | error e =>
      rw [hrun] at h
      cases h
    | ok s₁ =>
      rw [hrun] at h
      cases h
      exact .run hpc (.handle hrun)
  next => cases h

theorem step_cases {s' : Sys N β δ} {a : Act N β} (h : s.step a = .ok s') : Step s a s' := by
  cases a with
  | step p => exact run_cases h
  | lock p b =>
    simp only [Sys.step] at h
    split_ifs at h with hif
    cases h
    exact .lock hif.1 hif.2
  | unlock p b =>
    simp only [Sys.step] at h
    split_ifs at h with hif
    cases h
    exact .unlock hif.1 hif.2
  | rw p b write blockno =>
    simp only [Sys.step] at h
    split_ifs at h with hif
    cases h
    exact .rw hif.1 hif.2
  | intr p =>
    simp only [Sys.step] at h
    split_ifs at h with hpc
    cases h
    exact .intr hpc
  | kill p =>
    simp only [Sys.step] at h
    split at h
    · rename_i hpc
      cases h
      exact .kill hpc
    · cases h
  | take =>
    simp only [Sys.step] at h
    split_ifs at h with hne
    cases h
    exact .take hne
  | finish j =>
    simp only [Sys.step] at h
    split_ifs at h with hj
    cases hrun : s.command j.head with
    | error e =>
      rw [hrun] at h
      cases h
    | ok s₁ =>
      rw [hrun] at h
      cases h
      exact .finish hj hrun
  | fill j =>
    simp only [Sys.step] at h
    split_ifs at h with hj
    cases h
    exact .fill hj
  | publish =>
    cases h
    exact .publish

end Xv6.Virtio
