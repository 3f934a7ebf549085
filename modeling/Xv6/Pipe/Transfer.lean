import Xv6.Pipe.Basic

/-!
What goes through a pipe, and who sleeps on it.

A pipe is first in, first out and loses nothing, also when its counters have
wrapped: the invariant (`Ring`) reads them as the numbers of bytes written
and read so far, of which the 32 bits and the place in the ring are
remainders. `Monitor.Wakes` gives that nobody sleeps without reason, as long
as no writer is killed between storing a byte and its next `wakeup`.
-/

namespace Xv6.Pipe

open List

/-! ### First in, first out -/

structure Ring (pi : Pipe) : Prop where
  le : pi.returned.length ≤ pi.stored.length
  fits : pi.stored.length ≤ pi.returned.length + PIPESIZE
  nread : pi.nread.toNat = pi.returned.length % 2 ^ 32
  nwrite : pi.nwrite.toNat = pi.stored.length % 2 ^ 32
  taken : pi.returned = pi.stored.take pi.returned.length
  kept : ∀ k x, pi.returned.length ≤ k → pi.stored[k]? = some x → ∀ j : Fin PIPESIZE,
    (j : ℕ) = k % PIPESIZE → pi.data j = x

namespace Ring

variable {pi : Pipe}

section

variable (h : Ring pi)
include h

theorem empty_iff : pi.Empty ↔ pi.stored.length = pi.returned.length := by
  have hr := h.nread
  have hw := h.nwrite
  have hle := h.le
  have hfits := h.fits
  rw [Empty, ← UInt32.toNat_inj, hr, hw]
  simp only [PIPESIZE] at hfits
  omega

theorem full_iff : pi.Full ↔ pi.stored.length = pi.returned.length + PIPESIZE := by
  have hr := h.nread
  have hw := h.nwrite
  have hle := h.le
  have hfits := h.fits
  have hsize : (UInt32.ofNat PIPESIZE).toNat = 512 := rfl
  rw [Full, ← UInt32.toNat_inj, UInt32.toNat_add, hr, hw, hsize]
  simp only [PIPESIZE] at hfits ⊢
  omega

theorem slot_nwrite : (slot pi.nwrite : ℕ) = pi.stored.length % PIPESIZE := by
  have hw := h.nwrite
  simp only [slot, PIPESIZE]
  omega

theorem slot_nread : (slot pi.nread : ℕ) = pi.returned.length % PIPESIZE := by
  have hr := h.nread
  simp only [slot, PIPESIZE]
  omega

theorem toNat_sub : (pi.nwrite - pi.nread).toNat = pi.stored.length - pi.returned.length := by
  have hr := h.nread
  have hw := h.nwrite
  have hle := h.le
  have hfits := h.fits
  rw [UInt32.toNat_sub, hr, hw]
  simp only [PIPESIZE] at hfits
  omega

theorem put (hfull : ¬pi.Full) (ch : UInt8) : Ring (pi.put ch) := by
  have hle := h.le
  have hfits := h.fits
  rw [h.full_iff] at hfull
  refine ⟨?_, ?_, h.nread, ?_, ?_, fun k x hk hx j hj => ?_⟩
  · simp only [Pipe.put, length_append, length_singleton]
    omega
  · simp only [Pipe.put, length_append, length_singleton]
    omega
  · grind [h.nwrite, Pipe.put, UInt32.toNat_add]
  · grind [Pipe.put, h.taken]
  · simp only [Pipe.put] at hk hx ⊢
    rcases Nat.lt_or_ge k pi.stored.length with hlt | hge
    · rw [getElem?_append_left hlt] at hx
      -- an older byte is less than a round away from the new one
      have hne : j ≠ slot pi.nwrite := by grind [h.slot_nwrite]
      rw [Function.update_of_ne hne]
      exact h.kept k x hk hx j hj
    · obtain rfl : k = pi.stored.length := by
        have hlt := (List.getElem?_eq_some_iff.mp hx).1
        simp only [length_append, length_singleton] at hlt
        omega
      have heq : j = slot pi.nwrite := Fin.ext (hj.trans h.slot_nwrite.symm)
      rw [heq, Function.update_self]
      simpa using hx

theorem get (hempty : ¬pi.Empty) : Ring pi.get := by
  have hle := h.le
  have hfits := h.fits
  rw [h.empty_iff] at hempty
  have hlt : pi.returned.length < pi.stored.length := by omega
  have hbyte := h.kept _ _ le_rfl (getElem?_eq_getElem hlt) _ h.slot_nread
  refine ⟨?_, ?_, ?_, h.nwrite, ?_, fun k x hk hx j hj => ?_⟩
  · grind [Pipe.get, Pipe.drop]
  · grind [Pipe.get, Pipe.drop]
  · grind [h.nread, Pipe.get, Pipe.drop, UInt32.toNat_add]
  · grind [Pipe.get, Pipe.drop, take_succ_eq_append_getElem, h.taken]
  · grind [Ring, Pipe.get, Pipe.drop]

theorem congr {pi' : Pipe} (hdata : pi'.data = pi.data)
    (hnread : pi'.nread = pi.nread) (hnwrite : pi'.nwrite = pi.nwrite)
    (hstored : pi'.stored = pi.stored) (hreturned : pi'.returned = pi.returned) : Ring pi' := by
  obtain ⟨h₁, h₂, h₃, h₄, h₅, h₆⟩ := h
  constructor
  all_goals simp only [hdata, hnread, hnwrite, hstored, hreturned]
  all_goals assumption

end

theorem new (h : New pi) : Ring pi := by
  refine ⟨?_, ?_, ?_, ?_, ?_, fun k x _ hx => ?_⟩
  · simp [h.stored, h.returned]
  · simp [h.stored]
  · simp [h.nread, h.returned]
  · simp [h.nwrite, h.stored]
  · simp [h.returned]
  · simp [h.stored] at hx

theorem exec {k : Point} {killed : Bool} {ch : UInt8} (h : Ring pi) :
    Ring (pi.exec killed (some ch) k).1 := by
  cases k with
  | put n i => grind [Pipe.exec, h.put]
  | get n i => grind [Pipe.exec, h.get]
  | write n i dirty | read n =>
    simp only [Pipe.exec]
    split_ifs <;> exact h
  | close writable => cases writable <;> exact h.congr rfl rfl rfl rfl rfl
  | closed => grind [Pipe.exec, h.congr]
  | full n i | empty n | ret => exact h

end Ring

def NoFault {N : ℕ} (_ : Sys N) (a : Act N) : Prop := ∀ p, a ≠ .step p none

instance {N : ℕ} (s : Sys N) (a : Act N) : Decidable (NoFault s a) :=
  inferInstanceAs (Decidable (∀ _, _))

theorem ring_of_noFault {N : ℕ} {s : Sys N} (h : Interleaving NoFault s) : Ring s.shared := by
  refine Monitor.shared_invariant (I := Ring) (A := fun io => io ≠ none) (fun _ => Ring.new) ?_ ?_ h
  · rintro s p io hok rfl
    exact hok p rfl
  · intro pi k killed io pi' next hring hio hexec
    obtain ⟨ch, rfl⟩ := Option.ne_none_iff_exists'.mp hio
    simp only [code] at hexec
    split at hexec
    · cases hexec
    · grind [hring.exec]

/-- Pipes are first in, first out and lose nothing, for any number of readers
and writers and for runs of any length. -/
theorem fifo_lossless {N : ℕ} {s : Sys N} (h : Interleaving NoFault s) :
    (s.shared.nwrite - s.shared.nread).toNat ≤ PIPESIZE ∧
      s.shared.returned <+: s.shared.stored ∧
      s.shared.stored.length =
        s.shared.returned.length + (s.shared.nwrite - s.shared.nread).toNat := by
  have hring := ring_of_noFault h
  have hle := hring.le
  have hfits := hring.fits
  rw [hring.toNat_sub]
  refine ⟨by omega, ?_, by omega⟩
  rw [hring.taken]
  exact take_prefix _ _

def fresh : Pipe where
  data := fun _ => 0
  nread := 0
  nwrite := 0
  readopen := true
  writeopen := true
  stored := []
  returned := []
  freed := false

def freshSys (N : ℕ) : Sys N where
  shared := fresh
  lock := none
  pc := fun _ => .out
  killed := fun _ => false

theorem freshSys_initial (N : ℕ) : Monitor.Sys.Initial New (freshSys N) :=
  ⟨⟨rfl, rfl, rfl, rfl, rfl, rfl, rfl⟩, rfl, fun _ => rfl⟩

def writeRead : List (Act 2) :=
  [.call 0 (.write 2 0 false)] ++ replicate 10 (.step 0 (some 7)) ++
    [.call 1 (.read 1)] ++ replicate 4 (.step 1 (some 0))

theorem fifo_lossless_writeRead :
    ∃ s, runActs NoFault (Monitor.Sys.step code) writeRead (freshSys 2) = some s ∧
      s.shared.stored.length = 2 ∧ s.shared.returned <+: s.shared.stored := by
  obtain ⟨s, hs⟩ : ∃ s, runActs NoFault (Monitor.Sys.step code) writeRead (freshSys 2) = some s :=
    ⟨_, rfl⟩
  have hreach : Interleaving NoFault s := (Reachable.init (freshSys_initial 2)).runActs hs
  refine ⟨s, hs, ?_, (fifo_lossless hreach).2.1⟩
  cases hs
  rfl

/-! ### Wakeups -/

inductive Stretch (pi : Pipe) (killed : Bool) : Point → Pipe → Monitor.Next Point Chan → Prop
  | quit {n i dirty} (h : pi.readopen = false ∨ killed = true) :
      Stretch pi killed (.write n i dirty) pi .done
  | test {n i dirty} (hopen : pi.readopen = true) (hkilled : killed = false) :
      Stretch pi killed (.write n i dirty) pi (.goto (.put n i))
  | wrote {n i dirty} : Stretch pi killed (.write n i dirty) pi (.wakeup .nread .ret)
  | isFull {n i} (h : pi.Full) : Stretch pi killed (.put n i) pi (.wakeup .nread (.full n i))
  | putFault {n i} : Stretch pi killed (.put n i) pi (.wakeup .nread .ret)
  | put {n i} (ch : UInt8) (h : ¬pi.Full) :
      Stretch pi killed (.put n i) (pi.put ch) (.goto (.write n (i + 1) true))
  | full {n i} : Stretch pi killed (.full n i) pi (.sleep .nwrite (.write n i false))
  | quitRead {n} : Stretch pi killed (.read n) pi .done
  | isEmpty {n} (h : pi.Empty) (hopen : pi.writeopen = true) :
      Stretch pi killed (.read n) pi (.goto (.empty n))
  | read {n} : Stretch pi killed (.read n) pi (.goto (.get n 0))
  | empty {n} : Stretch pi killed (.empty n) pi (.sleep .nread (.read n))
  | got {n i} : Stretch pi killed (.get n i) pi (.wakeup .nwrite .ret)
  | drop {n i} (h : ¬pi.Empty) : Stretch pi killed (.get n i) pi.drop (.wakeup .nwrite .ret)
  | get {n i} (h : ¬pi.Empty) : Stretch pi killed (.get n i) pi.get (.goto (.get n (i + 1)))
  | closeWrite : Stretch pi killed (.close true) { pi with writeopen := false }
      (.wakeup .nread .closed)
  | closeRead : Stretch pi killed (.close false) { pi with readopen := false }
      (.wakeup .nwrite .closed)
  | free : Stretch pi killed .closed { pi with freed := true } .done
  | closed : Stretch pi killed .closed pi .done
  | ret : Stretch pi killed .ret pi .done

theorem exec_stretch {pi pi' : Pipe} {killed : Bool} {io : Option UInt8} {k : Point}
    {next : Monitor.Next Point Chan} (h : code.exec pi k killed io = some (pi', next)) :
    Stretch pi killed k pi' next := by
  simp only [code] at h
  split at h
  · cases h
  cases k with
  | write n i dirty =>
    simp only [exec] at h
    split_ifs at h with hi hquit
    · cases h
      exact .quit hquit
    · cases h
      simp only [not_or, Bool.not_eq_false, Bool.not_eq_true] at hquit
      exact .test hquit.1 hquit.2
    · cases h
      exact .wrote
  | put n i =>
    simp only [exec] at h
    split_ifs at h with hfull
    · cases h
      exact .isFull hfull
    · cases io <;> cases h
      · exact .putFault
      · exact .put _ hfull
  | read n =>
    simp only [exec] at h
    split_ifs at h with hempty hkilled
    · cases h
      exact .quitRead
    · cases h
      exact .isEmpty hempty.1 hempty.2
    · cases h
      exact .read
  | get n i =>
    simp only [exec] at h
    split_ifs at h with hi hempty
    · cases h
      exact .got
    · cases io <;> cases h
      · exact .drop hempty
      · exact .get hempty
    · cases h
      exact .got
  | close writable =>
    cases writable <;> cases h
    · exact .closeRead
    · exact .closeWrite
  | closed =>
    simp only [exec] at h
    split_ifs at h <;> cases h
    · exact .free
    · exact .closed
  | full n i =>
    cases h
    exact .full
  | empty n =>
    cases h
    exact .empty
  | ret =>
    cases h
    exact .ret

def Blocks (pi : Pipe) : Chan → Prop
  | .nread => pi.Empty ∧ pi.writeopen = true
  | .nwrite => pi.Full ∧ pi.readopen = true

/-- A writer owes the readers a wakeup from the test before it stores its first
byte on, and a reader owes the writers one from the point where it begins to
take bytes. -/
def Owes : Point → Chan → Prop
  | .write _ _ dirty, .nread => dirty = true
  | .put _ _, .nread => True
  | .get _ _, .nwrite => True
  | _, _ => False

def Entry : Point → Prop
  | .write _ _ dirty => dirty = false
  | .read _ => True
  | .close _ => True
  | _ => False

def Here (pi : Pipe) (killed : Bool) : Point → Prop
  | .write _ _ dirty => dirty = true → pi.readopen = true ∧ killed = false
  | .put _ _ => pi.readopen = true ∧ killed = false
  | .full _ _ => pi.Full ∧ pi.readopen = true
  | .empty _ => pi.Empty ∧ pi.writeopen = true
  | _ => True

theorem Entry.here {pi : Pipe} {killed : Bool} {k : Point} (h : Entry k) : pi.Here killed k := by
  cases k with
  | write n i dirty =>
    intro hdirty
    rw [show dirty = false from h] at hdirty
    cases hdirty
  | read n | close w => trivial
  | _ => exact h.elim

theorem entry_of_start {k : Point} (h : start k = true) : Entry k := by
  cases k with
  | write n i dirty => exact (of_decide_eq_true h).2
  | read n | close w => trivial
  | _ => cases h

section

variable {pi pi' : Pipe} {killed : Bool} {k k' : Point} {c c' : Chan}

theorem Stretch.goto (h : Stretch pi killed k pi' (.goto k')) (hhere : pi.Here killed k) :
    pi'.Here killed k' ∧ ∀ c, pi.Blocks c ∨ Owes k c → pi'.Blocks c ∨ Owes k' c := by
  cases h with
  | test hopen hkilled =>
    refine ⟨⟨hopen, hkilled⟩, fun c hc => ?_⟩
    cases c with
    | nread => exact .inr trivial
    | nwrite => exact hc
  | put ch hfull =>
    refine ⟨fun _ => hhere, fun c hc => ?_⟩
    cases c with
    | nread => exact .inr rfl
    | nwrite => exact absurd hc (not_or.mpr ⟨fun hb => hfull hb.1, id⟩)
  | isEmpty hempty hopen => exact ⟨⟨hempty, hopen⟩, fun c hc => hc⟩
  | read =>
    refine ⟨trivial, fun c hc => hc.imp_right fun ho => ?_⟩
    cases c <;> exact ho.elim
  | get hempty =>
    refine ⟨trivial, fun c hc => ?_⟩
    cases c with
    | nread => exact absurd hc (not_or.mpr ⟨fun hb => hempty hb.1, id⟩)
    | nwrite => exact .inr trivial

theorem Stretch.wakeup (h : Stretch pi killed k pi' (.wakeup c' k')) (hhere : pi.Here killed k) :
    pi'.Here killed k' ∧ ∀ c, pi.Blocks c ∨ Owes k c → c = c' ∨ pi'.Blocks c ∨ Owes k' c := by
  cases h with
  | wrote | putFault | got => exact ⟨trivial, fun c hc => by cases c <;> simp_all [Owes]⟩
  | isFull hfull => exact ⟨⟨hfull, hhere.1⟩, fun c hc => by cases c <;> simp_all [Owes]⟩
  | drop hempty => exact ⟨trivial, fun c hc => by cases c <;> simp_all [Owes, Blocks]⟩
  | closeWrite => exact ⟨trivial, fun c hc => by cases c <;> simp_all [Owes, Blocks, Full]⟩
  | closeRead => exact ⟨trivial, fun c hc => by cases c <;> simp_all [Owes, Blocks, Empty]⟩

theorem Stretch.sleep (h : Stretch pi killed k pi' (.sleep c' k')) (hhere : pi.Here killed k) :
    Entry k' ∧ pi'.Blocks c' ∧ ∀ c, pi.Blocks c ∨ Owes k c → pi'.Blocks c := by
  cases h with
  | full => exact ⟨rfl, hhere, fun c hc => hc.resolve_right (by cases c <;> exact id)⟩
  | empty => exact ⟨trivial, hhere, fun c hc => hc.resolve_right (by cases c <;> exact id)⟩

theorem Stretch.done (h : Stretch pi killed k pi' .done) (hhere : pi.Here killed k) (c : Chan)
    (hc : pi.Blocks c ∨ Owes k c) : pi'.Blocks c := by
  cases h with
  | @quit n i dirty hquit =>
    refine hc.resolve_right fun ho => ?_
    cases c with
    | nwrite => exact ho
    | nread =>
      obtain ⟨hopen, hkilled⟩ := hhere ho
      simp [hopen, hkilled] at hquit
  | quitRead | closed | ret => exact hc.resolve_right (by cases c <;> exact id)
  | free =>
    have hb := hc.resolve_right (by cases c <;> exact id)
    cases c <;> exact hb

end

def wakes : Monitor.Wakes code where
  entry := Entry
  here := Here
  blocks pi c _ := pi.Blocks c
  owes := Owes
  start _ := entry_of_start
  resume _ _ _ h := h.here
  goto hhere hexec :=
    have h := (exec_stretch hexec).goto hhere
    ⟨h.1, fun c _ => h.2 c⟩
  wakeup hhere hexec :=
    have h := (exec_stretch hexec).wakeup hhere
    ⟨h.1, fun c _ => h.2 c⟩
  sleep hhere hexec :=
    have h := (exec_stretch hexec).sleep hhere
    ⟨h.1, h.2.1, fun c _ => h.2.2 c⟩
  done hhere hexec c _ := (exec_stretch hexec).done hhere c

/-- Between a writer's test of `killed` and the `wakeup` or the test that
follows. -/
def Point.storing : Point → Bool
  | .put _ _ => true
  | .write _ _ dirty => dirty
  | _ => false

/-- No writer is killed while it stores a byte. -/
def KillSafe {N : ℕ} (s : Sys N) (a : Act N) : Prop :=
  ∀ p, a = .kill p → (s.pc p).inside.all (fun k => !k.storing) = true

instance {N : ℕ} (s : Sys N) (a : Act N) : Decidable (KillSafe s a) :=
  inferInstanceAs (Decidable (∀ _, _))

theorem KillSafe.here {N : ℕ} {s : Sys N} {p : Fin N} {k : Point} (h : KillSafe s (.kill p))
    (hk : (s.pc p).inside = some k) (hhere : s.shared.Here (s.killed p) k) :
    s.shared.Here true k := by
  have hstoring := h p rfl
  simp only [hk, Option.all_some, Bool.not_eq_true'] at hstoring
  cases k with
  | write n i dirty =>
    rintro rfl
    cases hstoring
  | put n i => cases hstoring
  | full n i | empty n => exact hhere
  | _ => trivial

/-- If writers are killed only where they have nothing to tell the readers, no
wakeup is lost: when the lock is free, whoever sleeps on the pipe has nothing
to do there. -/
theorem no_lost_wakeup {N : ℕ} {s : Sys N} (h : Interleaving KillSafe s) (hlock : s.lock = none)
    (p : Fin N) :
    (∀ k, s.pc p = .asleep .nread k → s.shared.Empty ∧ s.shared.writeopen = true) ∧
      ∀ k, s.pc p = .asleep .nwrite k → s.shared.Full ∧ s.shared.readopen = true := by
  have hblocks : ∀ c k, s.pc p = .asleep c k → s.shared.Blocks c := fun c k hp =>
    wakes.blocked_of_free (fun _ _ _ hok => hok.here) h hlock hp
  exact ⟨hblocks .nread, hblocks .nwrite⟩

/-- Process 0 goes to sleep in `piperead`, and process 1 begins to write two
bytes. -/
def sleepWrite : List (Act 2) :=
  [.call 0 (.read 1)] ++ replicate 4 (.step 0 (some 0)) ++
    [.call 1 (.write 2 0 false)] ++ replicate 3 (.step 1 (some 7))

theorem no_lost_wakeup_sleep :
    ∃ s, runActs KillSafe (Monitor.Sys.step code) (sleepWrite.take 5) (freshSys 2) = some s ∧
      s.pc 0 = .asleep .nread (.read 1) ∧ s.shared.Empty := by
  obtain ⟨s, hs⟩ : ∃ s, runActs KillSafe (Monitor.Sys.step code) (sleepWrite.take 5) (freshSys 2) =
    some s := ⟨_, rfl⟩
  have hreach : Interleaving KillSafe s := (Reachable.init (freshSys_initial 2)).runActs hs
  have hpc : s.lock = none ∧ s.pc 0 = .asleep .nread (.read 1) := by
    cases hs
    decide
  exact ⟨s, hs, hpc.2, ((no_lost_wakeup hreach hpc.1 0).1 _ hpc.2).1⟩

/-- The writer is killed when it has stored its first byte: it returns, and the
reader sleeps on beside a byte. -/
theorem killed_writer_wakes_nobody :
    ∃ s : Sys 2, Interleaving (fun _ _ => True) s ∧ s.lock = none ∧
      s.pc 0 = .asleep .nread (.read 1) ∧ ¬s.shared.Empty := by
  obtain ⟨s, hs⟩ : ∃ s, runActs (fun _ _ => True) (Monitor.Sys.step code)
      (sleepWrite ++ [.kill 1, .step 1 (some 7)]) (freshSys 2) = some s := ⟨_, rfl⟩
  refine ⟨s, (Reachable.init (freshSys_initial 2)).runActs hs, ?_⟩
  cases hs
  decide

end Xv6.Pipe
