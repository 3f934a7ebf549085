import Xv6.Bcache.Basic

/-!
The list of buffers is a ring of all buffers, sorted by when they were last
used, and every block has at most one buffer.
-/

namespace Xv6.Bcache

open List
open Sys
open Function (update update_self update_of_ne)

variable {N : ℕ}

/-! ### Steps -/

inductive Step (s : Sys N) : Act N → Sys N → Prop
  | hit {p dev b k} (hpc : s.pc p = .idle) (hk : s.lookup dev b = some (some k)) :
      Step s (.bread p dev b)
        ((s.setBuf k { s.buf k with refcnt := (s.buf k).refcnt + 1 }).goto p (.acquire dev b k))
  | recycle {p dev b k} (hpc : s.pc p = .idle) (hnone : s.lookup dev b = some none)
      (hk : s.lru = some (some k)) :
      Step s (.bread p dev b)
        (((s.setBuf k
          { s.buf k with dev := dev, blockno := b, valid := false, refcnt := 1 }).setDirty
          k false).goto p (.acquire dev b k))
  | acquire {p dev b k} (hpc : s.pc p = .acquire dev b k) (hlock : (s.buf k).lock = none) :
      Step s (.step p)
        ((s.setBuf k { s.buf k with lock := some p }).goto p (.fill dev b k))
  | cached {p dev b k} (hpc : s.pc p = .fill dev b k) (hvalid : (s.buf k).valid = true) :
      Step s (.step p) (s.goto p .idle)
  | fill {p dev b k} (hpc : s.pc p = .fill dev b k) (hvalid : (s.buf k).valid = false) :
      Step s (.step p)
        ((s.setBuf k { s.buf k with data := s.disk (s.buf k).blockno }).goto p (.filled dev b k))
  | filled {p dev b k} (hpc : s.pc p = .filled dev b k) :
      Step s (.step p) ((s.setBuf k { s.buf k with valid := true }).goto p .idle)
  | release {p k} (hpc : s.pc p = .release k) : Step s (.step p) ((s.release k).goto p .idle)
  | store {p k d} (hpc : s.pc p = .idle) :
      Step s (.store p k d) { (s.setBuf k { s.buf k with data := d }).setDirty k true with
        flat := update s.flat (s.buf k).blockno d }
  | bwrite {p k} (hpc : s.pc p = .idle) (hlock : (s.buf k).lock = some p) :
      Step s (.bwrite p k) { s.setDirty k false with
        disk := update s.disk (s.buf k).blockno (s.buf k).data }
  | brelse {p k} (hpc : s.pc p = .idle) (hlock : (s.buf k).lock = some p) :
      Step s (.brelse p k) ((s.setBuf k { s.buf k with lock := none }).goto p (.release k))
  | bpin {p k} (hpc : s.pc p = .idle) :
      Step s (.bpin p k)
        ((s.setBuf k { s.buf k with refcnt := (s.buf k).refcnt + 1 }).setPins k (s.pins k + 1))
  | bunpin {p k} (hpc : s.pc p = .idle) :
      Step s (.bunpin p k) ((s.unref k).setPins k (s.pins k - 1))

theorem step_cases {s s' : Sys N} {a : Act N} (h : s.step a = .ok s') : Step s a s' := by
  cases a with
  | bread p dev b =>
    simp only [Sys.step] at h
    split_ifs at h with hpc
    unfold Sys.bget at h
    split at h
    · cases h
    · cases h
      exact .hit hpc ‹_›
    · split at h <;> cases h
      exact .recycle hpc ‹_› ‹_›
  | step p =>
    simp only [Sys.step, Sys.run] at h
    split at h
    · cases h
    · split_ifs at h with hlock
      cases h
      exact .acquire ‹_› hlock
    · split_ifs at h with hvalid <;> cases h
      · exact .cached ‹_› hvalid
      · exact .fill ‹_› (Bool.eq_false_iff.mpr hvalid)
    · cases h
      exact .filled ‹_›
    · cases h
      exact .release ‹_›
  | store p k d =>
    simp only [Sys.step] at h
    split_ifs at h with hpc
    cases h
    exact .store hpc
  | bwrite p k =>
    simp only [Sys.step] at h
    split_ifs at h with hpc hlock
    cases h
    exact .bwrite hpc hlock
  | brelse p k =>
    simp only [Sys.step] at h
    split_ifs at h with hpc hlock
    cases h
    exact .brelse hpc hlock
  | bpin p k =>
    simp only [Sys.step] at h
    split_ifs at h with hpc
    cases h
    exact .bpin hpc
  | bunpin p k =>
    simp only [Sys.step] at h
    split_ifs at h with hpc
    cases h
    exact .bunpin hpc

/-! ### The list -/

/-- All buffers are in the list, those that were used last in front. -/
structure Listed (s : Sys N) (L : List ℕ) : Prop where
  ring : Ring s.next s.prev head L
  mem : ∀ k, k ∈ L ↔ k < NBUF
  sorted : L.Pairwise fun i j => s.drop j ≤ s.drop i
  clock : ∀ k, s.drop k < s.clock

namespace Listed

variable {s s' : Sys N} {L : List ℕ} {k dev b : ℕ}

variable (h : Listed s L)
include h

theorem nodup : L.Nodup := (nodup_cons.mp h.ring.nodup).2

theorem length : L.length = NBUF := by
  have hperm := (perm_ext_iff_of_nodup h.nodup nodup_range).mpr fun k => by
      rw [h.mem, mem_range]
  rw [hperm.length_eq, length_range]

theorem congr (hlinks : s'.links = s.links) (hdrop : s'.drop = s.drop)
    (hclock : s'.clock = s.clock) : Listed s' L := by
  refine ⟨?_, h.mem, hdrop ▸ h.sorted, hdrop ▸ hclock ▸ h.clock⟩
  rw [Sys.next, Sys.prev, hlinks]
  exact h.ring

theorem lookup_eq : s.lookup dev b =
    some (L.find? fun k => (s.buf k).dev = dev ∧ (s.buf k).blockno = b) :=
  scan_linked h.ring.next (nodup_cons.mp h.ring.nodup).1 (by rw [h.length]; omega)

theorem lru_eq : s.lru = some (L.reverse.find? fun k => (s.buf k).refcnt = 0) :=
  scan_linked h.ring.prev (by simpa using (nodup_cons.mp h.ring.nodup).1)
    (by rw [length_reverse, h.length]; omega)

theorem of_lookup (hk : s.lookup dev b = some (some k)) :
    k < NBUF ∧ (s.buf k).dev = dev ∧ (s.buf k).blockno = b := by
  rw [h.lookup_eq] at hk
  have hk := Option.some.inj hk
  refine ⟨(h.mem k).mp (mem_of_find?_eq_some hk), ?_⟩
  simpa using find?_some hk

theorem of_lookup_none (hnone : s.lookup dev b = some none) (hk : k < NBUF)
    (hdev : (s.buf k).dev = dev) : (s.buf k).blockno ≠ b := by
  rw [h.lookup_eq] at hnone
  have := find?_eq_none.mp (Option.some.inj hnone) k ((h.mem k).mpr hk)
  simp only [decide_eq_true_eq, not_and] at this
  exact this hdev

theorem of_lru (hk : s.lru = some (some k)) :
    k < NBUF ∧ (s.buf k).refcnt = 0 ∧
      ∀ k', k' < NBUF → (s.buf k').refcnt = 0 → s.drop k ≤ s.drop k' := by
  rw [h.lru_eq] at hk
  have hk := Option.some.inj hk
  have hmem := mem_reverse.mp (mem_of_find?_eq_some hk)
  refine ⟨(h.mem k).mp hmem, by simpa using find?_some hk, fun k' hk' hzero => ?_⟩
  obtain ⟨-, A, B, hL, hA⟩ := find?_eq_some_iff_append.mp hk
  have hL' : L = B.reverse ++ k :: A.reverse := by
    rw [← reverse_reverse L, hL]
    simp
  -- behind `k` all buffers are in use
  have hk'mem := (h.mem k').mpr hk'
  rw [hL'] at hk'mem
  have hsorted := h.sorted
  rw [hL', pairwise_append] at hsorted
  rcases mem_append.mp hk'mem with hB | hA'
  · exact hsorted.2.2 k' hB k (mem_cons_self ..)
  · grind

theorem front (hk : k < NBUF) :
    ∃ L', Listed { s with
      links := pushFront (unlink s.links k) head k
      drop := update s.drop k s.clock
      clock := s.clock + 1 } L' := by
  obtain ⟨A, B, rfl⟩ := append_of_mem ((h.mem k).mpr hk)
  have hnodup := h.nodup
  have hkAB : k ∉ A ++ B := by grind
  have hkh : k ∉ head :: (A ++ B) := by grind
  have hold : ∀ j ∈ A ++ B, update s.drop k s.clock j = s.drop j := fun j hj =>
    update_of_ne (fun heq : j = k => hkAB (heq ▸ hj)) ..
  refine ⟨k :: (A ++ B), h.ring.unlink.pushFront hkh, fun j => ?_, ?_, fun j => ?_⟩
  · rw [← h.mem j]
    simp only [mem_cons, mem_append]
    tauto
  · refine pairwise_cons.mpr ⟨fun j hj => ?_, ?_⟩
    · grind [Listed]
    · have hAB :=
        h.sorted.sublist (Sublist.append (Sublist.refl A) (sublist_cons_self k B))
      refine hAB.imp_of_mem fun {i j} hi hj hle => ?_
      show update s.drop k s.clock j ≤ update s.drop k s.clock i
      rwa [hold i hi, hold j hj]
  · grind [Listed]

end Listed

end Xv6.Bcache
