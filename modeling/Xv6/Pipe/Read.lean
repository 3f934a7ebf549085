import Xv6.Pipe.Basic
import Xv6.Vm.Store

/-!
`piperead` and the memory of its caller.

Once `piperead` has found something to read it does not give up the lock, so what it does
is a function of the pipe and of user memory: a turn of its loop is the stretch at
`Point.get`, for the outcome of its `copyout` (`pipereadLoop_exec`). The loop takes a byte
out of the pipe before it copies it. If that byte cannot be stored, it is gone, and the
result does not count it.
-/

namespace Xv6.Pipe

open List

/-- The loop of `piperead`, from `i` on: the value of `i` after it, the pipe and
the memory. -/
def pipereadLoop (addr : ℕ) (n : ℤ) : (fuel i : ℕ) → Pipe → UserMem → ℕ × Pipe × UserMem
  | 0, i, pi, mem => (i, pi, mem)
  | fuel + 1, i, pi, mem =>
    if i < n then
      if pi.Empty then (i, pi, mem)
      else
        match copyoutMem mem ((addr + i) % 2 ^ 64) [pi.data (slot pi.nread)] with
        | (false, mem) => (i, pi.drop, mem)
        | (true, mem) => pipereadLoop addr n fuel (i + 1) pi.get mem
    else (i, pi, mem)

/-- `piperead`, for a process that has the lock; none if it goes to sleep. -/
def piperead (pi : Pipe) (killed : Bool) (mem : UserMem) (addr : ℕ) (n : ℤ) :
    Option (ℤ × Pipe × UserMem) :=
  if pi.Empty ∧ pi.writeopen then if killed then some (-1, pi, mem) else none
  else
    let r := pipereadLoop addr n n.toNat 0 pi mem
    some (r.1, r.2)

/-- A turn of the loop is the stretch at `Point.get`, for the `copyout` that it makes. -/
theorem pipereadLoop_exec (addr : ℕ) (n : ℤ) (fuel i : ℕ) (pi : Pipe) (mem : UserMem)
    (killed : Bool) (ch : UInt8) :
    pipereadLoop addr n (fuel + 1) i pi mem =
      let copy := if i < n ∧ ¬pi.Empty then
        copyoutMem mem ((addr + i) % 2 ^ 64) [pi.data (slot pi.nread)] else (false, mem)
      match pi.exec killed (if copy.1 then some ch else none) (.get n i) with
      | (pi', .goto (.get _ j)) => pipereadLoop addr n fuel j.toNat pi' copy.2
      | (pi', _) => (i, pi', copy.2) := by
  rw [pipereadLoop]
  unfold exec
  by_cases hi : (i : ℤ) < n
  · by_cases he : pi.Empty
    · simp [hi, he]
    · simp only [hi, he, if_true, if_false, not_false_eq_true, and_self]
      generalize copyoutMem mem ((addr + i) % 2 ^ 64) [pi.data (slot pi.nread)] = copy
      obtain ⟨_ | _, mem'⟩ := copy <;> rfl
  · simp [hi]

theorem piperead_exec (pi : Pipe) (killed : Bool) (mem : UserMem) (addr : ℕ) (n : ℤ) :
    pi.piperead killed mem addr n =
      match pi.exec killed none (.read n) with
      | (pi', .goto (.get n i)) =>
        let r := pipereadLoop addr n n.toNat i.toNat pi' mem
        some (r.1, r.2)
      | (_, .goto _) => none
      | (pi', _) => some (-1, pi', mem) := by
  rw [piperead, exec]
  by_cases hwait : pi.Empty ∧ pi.writeopen = true
  · cases killed <;> simp [hwait]
  · simp [hwait]

def unread (pi : Pipe) : List UInt8 :=
  (range (pi.nwrite - pi.nread).toNat).map fun k => pi.data (slot (pi.nread + UInt32.ofNat k))

theorem unread_empty {pi : Pipe} (h : pi.Empty) : pi.unread = [] := by
  rw [Empty] at h
  simp [unread, h]

theorem unread_cons {pi : Pipe} (h : ¬pi.Empty) :
    pi.unread = pi.data (slot pi.nread) :: pi.drop.unread := by
  have hpos : (pi.nwrite - pi.nread).toNat = (pi.nwrite - (pi.nread + 1)).toNat + 1 := by
    rw [Empty, ← UInt32.toNat_inj] at h
    have hr := pi.nread.toNat_lt
    have hw := pi.nwrite.toNat_lt
    have h1 : (1 : UInt32).toNat = 1 := rfl
    rw [UInt32.toNat_sub, UInt32.toNat_sub, UInt32.toNat_add, h1]
    omega
  rw [unread, hpos, range_succ_eq_map, map_cons, map_map, unread]
  congr 1
  · simp
  · apply map_congr_left
    intro k _
    simp only [Function.comp_apply, drop]
    congr 2
    rw [UInt32.add_assoc]
    congr 1
    rw [← UInt32.toNat_inj]
    simp [UInt32.toNat_add, Nat.add_comm]

theorem unread_get (pi : Pipe) : pi.get.unread = pi.drop.unread := rfl

/-- The loop has delivered `m` bytes; with `lost`, it has taken one more that it
could not store. -/
structure Delivers (pi : Pipe) (mem : UserMem) (va m : ℕ) (lost : Bool) (pi' : Pipe)
    (mem' : UserMem) : Prop where
  le : m + lost.toNat ≤ pi.unread.length
  writable : ∀ k < m, writable mem (va + k) = true
  stores : Stores mem va (pi.unread.take m) mem'
  unread : pi'.unread = pi.unread.drop (m + lost.toNat)
  nread : pi'.nread = pi.nread + UInt32.ofNat (m + lost.toNat)
  nwrite : pi'.nwrite = pi.nwrite

theorem Delivers.nil {pi : Pipe} {mem : UserMem} {va : ℕ} : Delivers pi mem va 0 false pi mem :=
  ⟨Nat.zero_le _, fun k hk => absurd hk (Nat.not_lt_zero k), Stores.nil, rfl, by simp, rfl⟩

theorem Delivers.cons {pi pi' : Pipe} {mem mem₁ mem' : UserMem} {va m : ℕ} {lost : Bool}
    (hne : ¬pi.Empty) (hw : Xv6.writable mem va = true)
    (hbyte : Stores mem va [pi.data (slot pi.nread)] mem₁)
    (h : Delivers pi.get mem₁ (va + 1) m lost pi' mem') :
    Delivers pi mem va (m + 1) lost pi' mem' := by
  have hcons := unread_cons hne
  have hle := h.le
  rw [unread_get] at hle
  refine ⟨?_, fun k hk => ?_, ?_, ?_, ?_, h.nwrite⟩
  · rw [hcons, length_cons]
    omega
  · cases k with
    | zero => exact hw
    | succ k =>
      rw [Nat.add_comm k, ← Nat.add_assoc, ← hbyte.writable]
      exact h.writable k (by omega)
  · rw [hcons, take_succ_cons]
    exact hbyte.trans h.stores
  · rw [h.unread, unread_get, hcons, Nat.add_right_comm, drop_succ_cons]
  · rw [h.nread]
    show pi.nread + 1 + _ = _
    rw [UInt32.add_assoc]
    congr 1
    rw [← UInt32.toNat_inj]
    simp [UInt32.toNat_add]
    omega

theorem pipereadLoop_delivers {addr fuel i : ℕ} {n : ℤ} {pi : Pipe} {mem : UserMem}
    (haddr : addr + i < 2 ^ 64) (hfuel : n ≤ i + fuel) :
    ∃ m lost, (pipereadLoop addr n fuel i pi mem).1 = i + m ∧
      Delivers pi mem (addr + i) m lost (pipereadLoop addr n fuel i pi mem).2.1
        (pipereadLoop addr n fuel i pi mem).2.2 ∧
      (lost = false → m = min (n - i).toNat pi.unread.length) ∧
      (lost = true → writable mem (addr + i + m) = false ∧ (m : ℤ) < n - i) := by
  induction fuel generalizing i pi mem with
  | zero =>
    refine ⟨0, false, rfl, .nil, fun _ => ?_, by simp⟩
    omega
  | succ fuel ih =>
    rw [pipereadLoop, Nat.mod_eq_of_lt haddr]
    by_cases hi : (i : ℤ) < n
    · rw [if_pos hi]
      by_cases he : pi.Empty
      · rw [if_pos he]
        exact ⟨0, false, rfl, .nil, fun _ => by simp [unread_empty he], by simp⟩
      · rw [if_neg he]
        have hcons := unread_cons he
        have hbyte := copyoutMem_byte mem (addr + i) (pi.data (slot pi.nread))
        by_cases hw : writable mem (addr + i) = true
        · rw [if_pos hw] at hbyte
          have hlt := writable_lt hw
          obtain ⟨hok, hstores⟩ := hbyte
          obtain ⟨m, lost, hres, hdel, hall, hlost⟩ :=
            @ih (i + 1) pi.get (copyoutMem mem (addr + i) [pi.data (slot pi.nread)]).2
              (by simp only [MAXVA] at hlt; omega) (by push_cast; omega)
          rw [← Prod.mk.eta (p := copyoutMem mem (addr + i) [pi.data (slot pi.nread)]), hok]
          refine ⟨m + 1, lost, ?_, hdel.cons he hw hstores, fun hl => ?_, fun hl => ?_⟩
          · rw [hres]
            omega
          · have := hall hl
            rw [unread_get] at this
            rw [hcons, length_cons]
            omega
          · obtain ⟨hnw, hm⟩ := hlost hl
            rw [hstores.writable] at hnw
            refine ⟨?_, by push_cast at hm ⊢; omega⟩
            rwa [show addr + i + (m + 1) = addr + (i + 1) + m by omega]
        · rw [if_neg hw] at hbyte
          rw [hbyte]
          refine ⟨0, true, rfl, ⟨?_, by simp, Stores.nil, ?_, rfl, rfl⟩, by simp, fun _ => ?_⟩
          · rw [hcons]
            simp
          · rw [hcons]
            rfl
          · exact ⟨Bool.eq_false_of_not_eq_true hw, by simpa using hi⟩
    · rw [if_neg hi]
      refine ⟨0, false, rfl, .nil, fun _ => ?_, by simp⟩
      omega

/-- A call of `piperead` by a process that finds the pipes of the list, one when it
takes the lock and one for each time it has slept: the result, or none while it
sleeps, and the memory. -/
def pipereadCall : List (Pipe × Bool) → UserMem → (addr : ℕ) → (n : ℤ) → Option ℤ × UserMem
  | [], mem, _, _ => (none, mem)
  | (pi, killed) :: woken, mem, addr, n =>
    match pi.piperead killed mem addr n with
    | none => pipereadCall woken mem addr n
    | some (r, _, mem') => (some r, mem')

theorem pipereadCall_stores {found : List (Pipe × Bool)} {mem : UserMem} {addr : ℕ} {n : ℤ}
    (haddr : addr < 2 ^ 64) :
    ∃ bytes, Stores mem addr bytes (pipereadCall found mem addr n).2 ∧ bytes.length ≤ n.toNat ∧
      ∀ r, (pipereadCall found mem addr n).1 = some r → r = -1 ∨ r = bytes.length := by
  induction found with
  | nil => exact ⟨[], Stores.nil, by simp, by simp [pipereadCall]⟩
  | cons f woken ih =>
    obtain ⟨pi, killed⟩ := f
    rw [pipereadCall, piperead]
    by_cases hwait : pi.Empty ∧ pi.writeopen = true
    · rw [if_pos hwait]
      cases killed with
      | true => exact ⟨[], Stores.nil, by simp, by simp⟩
      | false => exact ih
    · rw [if_neg hwait]
      obtain ⟨m, lost, hres, hdel, hall, hlost⟩ :=
        @pipereadLoop_delivers addr n.toNat 0 n pi mem (by omega) (by simp)
      simp only [Nat.cast_zero, sub_zero, Nat.zero_add, Nat.add_zero] at hres hdel hall hlost
      have hle := hdel.le
      have hlen : (pi.unread.take m).length = m := by
        rw [length_take]
        omega
      refine ⟨_, hdel.stores, ?_, ?_⟩
      · rw [hlen]
        cases lost with
        | false => exact (hall rfl).trans_le (min_le_left _ _)
        | true =>
          have := (hlost rfl).2
          omega
      · rintro _ ⟨⟩
        right
        rw [hlen, hres]

/-! ### Results -/

/-- `piperead` loses nothing, if and only if the bytes that it is to deliver can all be
stored: it returns the number of the bytes that are now in the caller's buffer, and the
pipe holds the others. A reader that returns -1 has done nothing. -/
theorem piperead_lossless {pi pi' : Pipe} {killed : Bool} {mem mem' : UserMem} {addr : ℕ}
    {n result : ℤ} (haddr : addr < 2 ^ 64)
    (h : pi.piperead killed mem addr n = some (result, pi', mem')) :
    ((result = -1 ∧ pi' = pi ∧ mem' = mem) ∨
      ∃ i : ℕ, result = i ∧ i ≤ pi.unread.length ∧ Stores mem addr (pi.unread.take i) mem' ∧
        pi'.unread = pi.unread.drop i ∧ pi'.nread = pi.nread + UInt32.ofNat i) ↔
      (Dst.user mem addr).Writable (min n.toNat pi.unread.length) := by
  rw [piperead] at h
  split at h
  · rename_i hwait
    split at h
    · cases h
      refine iff_of_true (.inl ⟨rfl, rfl, rfl⟩) ?_
      rw [unread_empty hwait.1, Dst.writable_iff]
      simp
    · cases h
  · obtain ⟨m, lost, hres, hdel, hall, hlost⟩ :=
      @pipereadLoop_delivers addr n.toNat 0 n pi mem (by omega) (by simp)
    simp only [Nat.cast_zero, sub_zero, Nat.zero_add, Nat.add_zero] at hres hdel hall hlost
    have hle := hdel.le
    obtain ⟨hresult, hafter⟩ := Prod.mk.inj (Option.some.inj h)
    rw [hafter] at hdel
    rw [hres] at hresult
    rw [Dst.writable_iff]
    cases lost with
    | false =>
      refine iff_of_true (.inr ⟨m, hresult.symm, hle, hdel.stores, hdel.unread, hdel.nread⟩) ?_
      rw [← hall rfl]
      exact hdel.writable
    | true =>
      obtain ⟨hnot, hm⟩ := hlost rfl
      refine iff_of_false ?_ fun hw => ?_
      · rintro (⟨hneg, -⟩ | ⟨i, hi, -, -, -, hnread⟩)
        · omega
        · -- `nread` has gone one further than the result
          obtain rfl : m = i := by omega
          rw [hdel.nread, UInt32.add_right_inj] at hnread
          simp [← UInt32.toNat_inj] at hnread
      · rw [hw m (by simp only [Bool.toNat_true] at hle; omega)] at hnot
        cases hnot

def oneByte : Pipe where
  data := fun _ => 7
  nread := 0
  nwrite := 1
  readopen := true
  writeopen := true
  stored := [7]
  returned := []
  freed := false

def onePage : UserMem := fun vpn => if vpn = 0 then some ⟨fun _ => 0, true⟩ else none

theorem piperead_lossless_oneByte :
    ∃ pi' mem', oneByte.piperead false onePage 100 5 = some (1, pi', mem') ∧
      userByte mem' 100 = some 7 ∧ pi'.unread = [] := by
  obtain ⟨r, hr⟩ : ∃ r, oneByte.piperead false onePage 100 5 = some r := ⟨_, rfl⟩
  obtain ⟨result, pi', mem'⟩ := r
  have hunread : oneByte.unread = [7] := by decide
  have hw : (Dst.user onePage 100).Writable (min (5 : ℤ).toNat oneByte.unread.length) := by
    rw [hunread, Dst.writable_iff]
    decide
  obtain rfl : result = 1 := by
    have hres : (oneByte.piperead false onePage 100 5).map Prod.fst = some 1 := by decide
    rw [hr] at hres
    exact Option.some.inj hres
  rcases (piperead_lossless (by norm_num) hr).mpr hw with
    ⟨hneg, -⟩ | ⟨i, hi, -, hstores, hrest, -⟩
  · cases hneg
  · obtain rfl : i = 1 := by omega
    rw [hunread] at hstores hrest
    exact ⟨pi', mem', hr, hstores.byte 100, hrest⟩

/-- A reader whose buffer is not mapped gets nothing, and the byte is gone. -/
theorem piperead_loses_byte :
    ∃ pi' mem', oneByte.piperead false (fun _ => none) 100 1 = some (0, pi', mem') ∧
      oneByte.unread = [7] ∧ pi'.unread = [] ∧ pi'.nread = oneByte.nread + 1 :=
  ⟨_, _, rfl, by decide, by decide, rfl⟩

end Xv6.Pipe
