import Xv6.Console.Read
import Xv6.Fs.Nodes
import Xv6.Fs.Sysfile
import Xv6.Pipe.Read

/-!
`fileread` and the memory of its caller.

`filereadMem` is `fileread` with the stores it makes: those of `piperead`, of
`consoleread`, or of `readi`, which copies block by block (`readiMem`) the bytes that the
model of `readi` reports. What a read can store is bounded by what was asked for, except
that a negative `n` is a large number for `readi`. Then the bound holds only where nothing
is seen of the rest of the file (`Unseen`).
-/

namespace Xv6

open List

variable {mem mem' : UserMem} {s s' : Fs} {addr ip n off : ℕ} {r : Option ℤ}

/-! ### `readi` -/

def readiMemLoop (ip n : ℕ) : (fuel : ℕ) → UserMem → (dst tot off : ℕ) → M (ℤ × UserMem)
  | 0, mem, _, tot, _ => return (tot, mem)
  | fuel + 1, mem, dst, tot, off => do
      if tot < n then
        let addr ← bmap ip (off / BSIZE)
        if addr = 0 then return (tot, mem)
        else
          let data ← bread addr
          let m := min (n - tot) (BSIZE - off % BSIZE)
          match copyoutMem mem dst (data.slice (off % BSIZE) m) with
          | (true, mem) => readiMemLoop ip n fuel mem ((dst + m) % 2 ^ 64) (tot + m) (off + m)
          | (false, mem) => return (-1, mem)
      else return (tot, mem)

def readiMem (ip : ℕ) (mem : UserMem) (dst off n : ℕ) : M (ℤ × UserMem) := do
  let size := (← inode ip).d.size
  if off > size ∨ uint (off + n) < off then return (0, mem)
  else
    let n := if uint (off + n) > size then size - off else n
    readiMemLoop ip n n mem dst 0 off

theorem readiMemLoop_end {dst tot : ℕ} {r : ℤ} (htot : tot ≤ n) (acc : List UInt8)
    (h : (pure ((tot : ℤ), mem) : M (ℤ × UserMem)).run s = .ok ((r, mem'), s')) :
    ∃ bytes, (pure ((tot : ℤ), acc) : M (ℤ × List UInt8)).run s = .ok ((r, acc ++ bytes), s') ∧
      Stores mem dst bytes mem' ∧ bytes.length ≤ n - tot ∧ r ≤ n := by
  cases h
  refine ⟨[], ?_, Stores.nil, by simp, by exact_mod_cast htot⟩
  rw [append_nil]
  rfl

/-- The loop stores the bytes that `readi` reports, at most `n - tot`. Whether a
page may be written is the same before and after, so it is the loop of `readi` on
the memory `mem₀` at the beginning. -/
theorem readiMemLoop_stores {fuel dst tot : ℕ} {mem₀ : UserMem} {r : ℤ} (hdst : dst < 2 ^ 64)
    (htot : tot ≤ n) (hsame : ∀ a, writable mem a = writable mem₀ a) (acc : List UInt8)
    (h : (readiMemLoop ip n fuel mem dst tot off).run s = .ok ((r, mem'), s')) :
    ∃ bytes, (readiLoop ip n fuel (.user mem₀ dst) tot off acc).run s =
        .ok ((r, acc ++ bytes), s') ∧
      Stores mem dst bytes mem' ∧ bytes.length ≤ n - tot ∧ r ≤ n := by
  induction fuel generalizing mem dst tot off s acc with
  | zero => exact readiMemLoop_end htot acc h
  | succ fuel ih =>
    rw [readiMemLoop] at h
    rw [readiLoop]
    by_cases hlt : tot < n
    · rw [if_pos hlt] at h ⊢
      obtain ⟨addr, s₁, hbmap, h⟩ := exists_of_run_bind h
      rw [run_bind_of_ok hbmap]
      by_cases h0 : addr = 0
      · rw [if_pos h0] at h ⊢
        exact readiMemLoop_end htot acc h
      rw [if_neg h0] at h ⊢
      obtain ⟨data, s₂, hdata, h⟩ := exists_of_run_bind h
      rw [run_bind_of_ok hdata]
      obtain ⟨m, hm⟩ : ∃ m, m = min (n - tot) (BSIZE - off % BSIZE) := ⟨_, rfl⟩
      simp only [← hm] at h ⊢
      have hpos : 0 < m := by
        norm_num at hm ⊢
        omega
      have hstored := copyoutMem_stores mem dst (data.slice (off % BSIZE) m)
      have hcopy : copyout mem dst (data.slice (off % BSIZE) m).length =
          eitherCopyout (.user mem₀ dst) m := by
        rw [Bytes.length_slice]
        exact copyoutLoop_congr hsame m m dst
      rw [hcopy] at hstored
      obtain ⟨ok, k, hok⟩ : ∃ ok k, eitherCopyout (.user mem₀ dst) m = (ok, k) := ⟨_, _, rfl⟩
      rw [hok] at hstored ⊢
      have hk : k ≤ m := by simpa using hstored.le
      have hslice : (data.slice (off % BSIZE) m).take k = data.slice (off % BSIZE) k := by
        rw [Bytes.slice, Bytes.slice, ← map_take, take_range, min_eq_left hk]
      have hstores : Stores mem dst (data.slice (off % BSIZE) k)
          (copyoutMem mem dst (data.slice (off % BSIZE) m)).2 := hslice ▸ hstored.stores
      have hlen : (data.slice (off % BSIZE) k).length = k := Bytes.length_slice ..
      rw [← Prod.mk.eta (p := copyoutMem mem dst (data.slice (off % BSIZE) m)),
        show (copyoutMem mem dst (data.slice (off % BSIZE) m)).1 = ok from hstored.same] at h
      cases ok with
      | false =>
        cases h
        refine ⟨_, rfl, hstores, ?_, ?_⟩
        · rw [hlen]
          omega
        · exact (by norm_num : (-1 : ℤ) ≤ 0).trans (Int.natCast_nonneg n)
      | true =>
        obtain rfl : k = m := by simpa using hstored.done rfl
        -- the last byte was stored, so the next address is not wrapped
        have hnext : dst + k < 2 ^ 64 := by
          have hlast : userByte (copyoutMem mem dst (data.slice (off % BSIZE) k)).2
              (dst + (k - 1)) ≠ none := by
            rw [hstores.byte, hlen, if_pos (by omega)]
            exact Option.some_ne_none _
          have hlt := userByte_lt hlast
          simp only [MAXVA] at hlt
          omega
        rw [Nat.mod_eq_of_lt hnext] at h
        obtain ⟨bytes, hrun, hrest, hle, hr⟩ :=
          ih hnext (by omega) (fun a => (hstores.writable a).trans (hsame a))
            (acc ++ data.slice (off % BSIZE) k) h
        refine ⟨data.slice (off % BSIZE) k ++ bytes, ?_, ?_, ?_, hr⟩
        · rw [Dst.advance, Nat.mod_eq_of_lt hnext, ← append_assoc]
          exact hrun
        · apply hstores.trans
          rw [hlen]
          exact hrest
        · rw [length_append, hlen]
          omega
    · rw [if_neg hlt] at h ⊢
      exact readiMemLoop_end htot acc h

/-- `readi` of `n` bytes stores at most `n`, and those it reports; it stores
nothing if offset and length together do not fit a `uint`. -/
theorem readiMem_stores {dst : ℕ} {r : ℤ} (hdst : dst < 2 ^ 64) (hn : n < 2 ^ 32)
    (h : (readiMem ip mem dst off n).run s = .ok ((r, mem'), s')) :
    ∃ bytes, (readi ip (.user mem dst) off n).run s = .ok ((r, bytes), s') ∧
      Stores mem dst bytes mem' ∧ bytes.length ≤ n ∧ r ≤ n ∧
      (2 ^ 32 ≤ off + n → bytes = [] ∧ r = 0) := by
  rw [readi]
  obtain ⟨e, s₁, hinode, h⟩ := exists_of_run_bind h
  rw [run_bind_of_ok hinode]
  by_cases hskip : off > e.d.size ∨ uint (off + n) < off
  · rw [if_pos hskip] at h ⊢
    cases h
    exact ⟨[], rfl, Stores.nil, Nat.zero_le _, Int.natCast_nonneg n, fun _ => ⟨rfl, rfl⟩⟩
  · rw [if_neg hskip] at h ⊢
    obtain ⟨bytes, hrun, hstores, hle, hr⟩ :=
      readiMemLoop_stores hdst (Nat.zero_le _) (fun _ => rfl) [] h
    rw [uint] at hskip
    have hbound : (if uint (off + n) > e.d.size then e.d.size - off else n) ≤ n := by grind [uint]
    exact ⟨bytes, hrun, hstores, by omega, by omega, fun hwrap => by omega⟩

/-! ### `fileread` -/

abbrev CONSOLE : ℤ := 1

/-- `fileread` with the memory; the result is none while the read sleeps. A pipe
and the console are given as the reader finds them. `devsw` has a function to
read the console only. -/
def filereadMem (f : ℕ) (mem : UserMem) (addr : ℕ) (n : ℤ) (pipes : List (Pipe × Bool))
    (consoles : List (Cons × Bool)) : M (Option ℤ × UserMem) := do
  let ff := (← get).ftable f
  if ff.readable = false then return (some (-1), mem)
  else
    match ff.type with
    | .FD_PIPE => return Pipe.pipereadCall pipes mem addr n
    | .FD_DEVICE =>
      return if ff.major < 0 ∨ ff.major ≥ NDEV ∨ ff.major ≠ CONSOLE then (some (-1), mem)
        else Cons.consoleread consoles mem addr n
    | .FD_INODE => do
        ilock ff.ip
        let (r, mem) ← readiMem ff.ip mem addr ff.off (n % 2 ^ 32).toNat
        if r > 0 then modifyFile f fun x => { x with off := uint (x.off + r.toNat) }
        iunlock ff.ip
        return (some r, mem)
    | .FD_NONE => throw (.panic .fileread)

theorem filereadMem_inode {f : ℕ} {n : ℤ} {pipes : List (Pipe × Bool)}
    {consoles : List (Cons × Bool)} (haddr : addr < 2 ^ 64) (hread : (s.ftable f).readable = true)
    (htype : (s.ftable f).type = .FD_INODE)
    (h : (filereadMem f mem addr n pipes consoles).run s = .ok ((r, mem'), s'))
    (io : ℤ × List UInt8) :
    ∃ x bytes s₁ s₂, r = some x ∧ (fileread f mem addr n io).run s = .ok ((x, bytes), s') ∧
      (ilock (s.ftable f).ip).run s = .ok ((), s₁) ∧
      (readi (s.ftable f).ip (.user mem addr) (s.ftable f).off (n % 2 ^ 32).toNat).run s₁ =
        .ok ((x, bytes), s₂) ∧
      Stores mem addr bytes mem' ∧ bytes.length ≤ (n % 2 ^ 32).toNat ∧
      x ≤ (n % 2 ^ 32).toNat ∧
      (2 ^ 32 ≤ (s.ftable f).off + (n % 2 ^ 32).toNat → bytes = [] ∧ x = 0) := by
  have hget : (get : M Fs).run s = .ok (s, s) := rfl
  rw [filereadMem, run_bind_of_ok hget] at h
  rw [fileread, run_bind_of_ok hget]
  simp only [hread, Bool.true_eq_false, if_false, htype] at h ⊢
  obtain ⟨u, s₁, hlock, h⟩ := exists_of_run_bind h
  rw [run_bind_of_ok hlock]
  obtain ⟨⟨x, mem₁⟩, s₂, hreadi, h⟩ := exists_of_run_bind h
  have hn : (n % 2 ^ 32).toNat < 2 ^ 32 := by omega
  obtain ⟨bytes, hrun, hstores, hlen, hx, hwrap⟩ := readiMem_stores haddr hn hreadi
  rw [run_bind_of_ok hrun]
  refine ⟨x, bytes, s₁, s₂, ?_⟩
  by_cases hpos : x > 0
  · rw [if_pos hpos] at h ⊢
    obtain ⟨u, s₃, hoff, h⟩ := exists_of_run_bind h
    obtain ⟨u', s₄, hunlock, h⟩ := exists_of_run_bind h
    rw [run_bind_of_ok hoff, run_bind_of_ok hunlock]
    cases h
    exact ⟨rfl, rfl, hlock, hrun, hstores, hlen, hx, hwrap⟩
  · rw [if_neg hpos] at h ⊢
    obtain ⟨u', s₄, hunlock, h⟩ := exists_of_run_bind h
    rw [run_bind_of_ok hunlock]
    cases h
    exact ⟨rfl, rfl, hlock, hrun, hstores, hlen, hx, hwrap⟩

/-- A read of `n` bytes delivers no more: it returns at most `n`, or at most 0 if that is
negative, and stores nothing outside as many bytes from `addr` on. -/
structure Bounded (mem : UserMem) (addr : ℕ) (n : ℤ) (r : Option ℤ) (mem' : UserMem) : Prop where
  count : ∀ x, r = some x → x ≤ max n 0
  outside : ∀ a, ¬(addr ≤ a ∧ a < addr + (max n 0).toNat) → userByte mem' a = userByte mem a

theorem Stores.bounded {bytes : List UInt8} {n : ℤ} (h : Stores mem addr bytes mem')
    (hlen : bytes.length ≤ n.toNat) (hr : ∀ x, r = some x → x ≤ max n 0) :
    Bounded mem addr n r mem' :=
  ⟨hr, fun _ ha => h.outside (n := (max n 0).toNat) (by omega) ha⟩

theorem filereadMem_bounded {f : ℕ} {n : ℤ} {pipes : List (Pipe × Bool)}
    {consoles : List (Cons × Bool)} (haddr : addr < 2 ^ 64) (hn : -2 ^ 31 ≤ n ∧ n < 2 ^ 31)
    (hneg : (s.ftable f).readable = true → (s.ftable f).type = .FD_INODE →
      0 ≤ n ∨ -n ≤ (s.ftable f).off)
    (h : (filereadMem f mem addr n pipes consoles).run s = .ok ((r, mem'), s')) :
    Bounded mem addr n r mem' := by
  have hminus : ∀ x, some (-1) = some x → x ≤ max n 0 := by
    rintro _ ⟨⟩
    omega
  by_cases hread : (s.ftable f).readable = true
  · cases htype : (s.ftable f).type with
    | FD_INODE =>
      obtain ⟨x, bytes, -, -, rfl, -, -, -, hstores, hlen, hx, hwrap⟩ :=
        filereadMem_inode haddr hread htype h (0, [])
      rcases lt_or_ge n 0 with hlt | hge
      · -- offset and length do not fit a `uint`
        have hoff := (hneg hread htype).resolve_left (by omega)
        obtain ⟨rfl, rfl⟩ := hwrap (by omega)
        refine hstores.bounded (Nat.zero_le _) ?_
        rintro _ ⟨⟩
        exact le_max_right n 0
      · refine hstores.bounded (by omega) ?_
        rintro _ ⟨⟩
        omega
    | FD_PIPE =>
      obtain ⟨bytes, hstores, hlen, hr⟩ := @Pipe.pipereadCall_stores pipes mem addr n haddr
      simp only [filereadMem, run_bind_of_ok (rfl : (get : M Fs).run s = .ok (s, s)), hread,
        Bool.true_eq_false, if_false, htype] at h
      obtain ⟨hres, -⟩ := Prod.mk.inj (Except.ok.inj h)
      rw [hres] at hstores hr
      refine hstores.bounded hlen fun x hx => ?_
      have := hr x hx
      omega
    | FD_DEVICE =>
      simp only [filereadMem, run_bind_of_ok (rfl : (get : M Fs).run s = .ok (s, s)), hread,
        Bool.true_eq_false, if_false, htype] at h
      obtain ⟨hres, -⟩ := Prod.mk.inj (Except.ok.inj h)
      split at hres
      · cases hres
        exact Stores.nil.bounded (Nat.zero_le _) hminus
      · obtain ⟨bytes, hstores, hlen, hr⟩ := @Cons.consoleread_stores consoles mem addr n hn haddr
        rw [hres] at hstores hr
        refine hstores.bounded hlen fun x hx => ?_
        have := hr x hx
        omega
    | FD_NONE =>
      simp only [filereadMem, run_bind_of_ok (rfl : (get : M Fs).run s = .ok (s, s)), hread,
        Bool.true_eq_false, if_false, htype] at h
      cases h
  · simp only [filereadMem, run_bind_of_ok (rfl : (get : M Fs).run s = .ok (s, s)),
      Bool.eq_false_of_not_eq_true hread, if_true] at h
    cases h
    exact Stores.nil.bounded (Nat.zero_le _) hminus

/-! ### A negative length -/

/-- Nothing is seen of a copy of `rest` to `addr`: it is empty, or one of its bytes has no
place there, and those before it are there already. -/
def Unseen (mem : UserMem) (addr : ℕ) (rest : List UInt8) : Prop :=
  rest = [] ∨ ∃ j < rest.length, writable mem (addr + j) = false ∧
    ∀ k < j, userByte mem (addr + k) = rest[k]?

theorem unseen_of_fault {k : ℕ} {rest : List UInt8} (hfault : (Dst.user mem addr).Faults k)
    (hk : k < rest.length) :
    Unseen mem addr rest ↔ ∀ j < k, userByte mem (addr + j) = rest[j]? := by
  obtain ⟨hw, hnw⟩ := hfault
  rw [Dst.writable_iff] at hw hnw
  constructor
  · rintro (rfl | ⟨m, hm, hnot, hsame⟩) j hj
    · cases hk
    · refine hsame j (lt_of_lt_of_le hj (not_lt.mp fun hlt => ?_))
      rw [hw m hlt] at hnot
      cases hnot
  · intro hsame
    refine .inr ⟨k, hk, Bool.eq_false_of_not_eq_true fun hwk => hnw fun j hj => ?_, hsame⟩
    rcases Nat.lt_succ_iff_lt_or_eq.mp hj with hlt | rfl
    · exact hw j hlt
    · exact hwk

theorem Held.ilock_eq {sb : Superblock} {s₁ : Fs} (h : Held sb ip s)
    (hrun : (ilock ip).run s = .ok ((), s₁)) :
    s₁ = s.setEntry ip { s.itable ip with locked := true } := by
  have href := h.ref
  have hwp : wp (fun _ => True) (ilock ip)
      (fun _ s₁ => s₁ = s.setEntry ip { s.itable ip with locked := true }) s := by
    unfold ilock acquiresleep
    simp only [wp_bind, wp_inode, if_neg (show ¬(s.itable ip).ref < 1 by omega)]
    refine wp.ite (fun _ => wp_throw.mpr trivial) fun _ => ?_
    simp only [wp_modifyInode, Fs.itable_setEntry_self]
    rw [if_pos h.valid]
    rfl
  exact hwp.ok hrun

theorem readi_rest {sb : Superblock} {s₁ s₂ : Fs} {x : ℤ} {bytes : List UInt8} (h : Held sb ip s)
    (hlock : (ilock ip).run s = .ok ((), s₁))
    (hrun : (readi ip (.user mem addr) off n).run s₁ = .ok ((x, bytes), s₂))
    (hstores : Stores mem addr bytes mem') (h32 : off + n < 2 ^ 32)
    (hbig : (s.view.ino (s.itable ip).inum).size ≤ off + n) :
    (x ≤ 0 ∧ ∀ a, userByte mem' a = userByte mem a) ↔
      Unseen mem addr ((s.view.content (s.itable ip).inum).drop off) := by
  have hhole := h.low.owns.hole _ (h.copy ▸ h.type)
  have hcached : s.view.Cached sb s₁ := by
    rw [h.ilock_eq hlock]
    exact ⟨h.low.blk, h.low.owns.range⟩
  have hcopy : (s₁.itable ip).d = s.view.ino (s.itable ip).inum := by
    rw [h.ilock_eq hlock, Fs.itable_setEntry_self]
    exact h.copy
  obtain ⟨-, hreads⟩ := (readi_mapped (E := fun _ => True) hcached hcopy (by omega) (by omega)
    fun k _ _ hk => hhole (k / BSIZE) ((Nat.div_mul_le_self k BSIZE).trans_lt hk)).ok hrun
  have hnowrap : uint (off + n) = off + n := Nat.mod_eq_of_lt h32
  rw [Disk.Reads, hnowrap] at hreads
  have hlen : ((s.view.content (s.itable ip).inum).drop off).length =
      (s.view.ino (s.itable ip).inum).size - off := by rw [length_drop, Disk.length_content]
  split_ifs at hreads with hpast
  · -- behind the end of the file
    cases hreads
    refine iff_of_true ⟨le_rfl, fun a => hstores.outside (n := 0) le_rfl (by omega)⟩ (.inl ?_)
    exact eq_nil_of_length_eq_zero (by omega)
  rw [min_eq_right (by omega), ← hlen] at hreads
  have hbytes : ∀ k ≤ ((s.view.content (s.itable ip).inum).drop off).length,
      s.view.bytes (s.itable ip).inum off k =
        ((s.view.content (s.itable ip).inum).drop off).take k := by
    intro k hk
    exact Disk.bytes_eq_content _ _ (by omega)
  generalize (s.view.content (s.itable ip).inum).drop off = rest at hlen hreads hbytes ⊢
  obtain ⟨hw, hr⟩ | ⟨k, hk, hfault, hr⟩ := hreads
  · obtain ⟨rfl, rfl⟩ := Prod.mk.inj hr
    rw [hbytes _ le_rfl, take_length] at hstores
    rw [Dst.writable_iff] at hw
    constructor
    · rintro ⟨hx, -⟩
      exact .inl (eq_nil_of_length_eq_zero (by omega))
    · rintro (rfl | ⟨j, hj, hnot, -⟩)
      · exact ⟨le_rfl, fun a => hstores.outside (n := 0) le_rfl (by omega)⟩
      · rw [hw j hj] at hnot
        cases hnot
  · obtain ⟨rfl, rfl⟩ := Prod.mk.inj hr
    rw [hbytes k hk.le] at hstores
    rw [unseen_of_fault hfault hk]
    have hbyte := hstores.byte
    rw [length_take, min_eq_left hk.le] at hbyte
    have hget : ∀ j < k, some ((rest.take k).getD j 0) = rest[j]? := by
      intro j hj
      rw [getD_eq_getElem?_getD, getElem?_take_of_lt hj,
        getElem?_eq_getElem (hj.trans hk)]
      rfl
    constructor
    · rintro ⟨-, hsame⟩ j hj
      rw [← hsame, hbyte, if_pos (by omega), Nat.add_sub_cancel_left, hget j hj]
    · intro hsame
      refine ⟨by omega, fun a => ?_⟩
      rw [hbyte]
      split_ifs with ha
      · rw [hget _ (by omega), ← hsame _ (by omega), Nat.add_sub_cancel' ha.1]
      · rfl

/-- A read delivers more than was asked for in one case only: `n` is negative, the file is
an inode whose offset is less than `-n`, and something is seen of what it has from there
on. -/
theorem fileread_bounded {sb : Superblock} {f addr : ℕ} {mem mem' : UserMem} {n : ℤ} {s s' : Fs}
    {pipes : List (Pipe × Bool)} {consoles : List (Cons × Bool)} {r : Option ℤ}
    (haddr : addr < 2 ^ 64) (hn : -2 ^ 31 ≤ n ∧ n < 2 ^ 31)
    (hheld : (s.ftable f).type = .FD_INODE → Held sb (s.ftable f).ip s)
    (h : (filereadMem f mem addr n pipes consoles).run s = .ok ((r, mem'), s')) :
    ((∀ x, r = some x → x ≤ max n 0) ∧
      ∀ a, ¬(addr ≤ a ∧ a < addr + (max n 0).toNat) → userByte mem' a = userByte mem a) ↔
    ((s.ftable f).readable = true → (s.ftable f).type = .FD_INODE → n < 0 →
      (s.ftable f).off < -n →
      Unseen mem addr
        ((s.view.content (s.itable (s.ftable f).ip).inum).drop (s.ftable f).off)) := by
  by_cases hcase : (s.ftable f).readable = true ∧ (s.ftable f).type = .FD_INODE ∧ n < 0 ∧
      (s.ftable f).off < -n
  · obtain ⟨hread, htype, hlt, hoff⟩ := hcase
    obtain ⟨x, bytes, s₁, s₂, rfl, -, hlock, hrun, hstores, -⟩ :=
      filereadMem_inode haddr hread htype h (0, [])
    have hheld := hheld htype
    have hsize := hheld.low.owns.size_le (hheld.copy ▸ hheld.type)
    norm_num at hsize
    have hrest := readi_rest hheld hlock hrun hstores (by omega) (by omega)
    simp only [hread, htype, hlt, hoff, true_implies, ← hrest, max_eq_right hlt.le]
    refine and_congr ?_ (forall_congr' fun a => ?_)
    · simp only [Option.some.injEq, forall_eq']
    · exact imp_iff_right (by omega)
  · refine iff_of_true ?_ fun hread htype hlt hoff => absurd ⟨hread, htype, hlt, hoff⟩ hcase
    have hbounded := filereadMem_bounded haddr hn (fun hread htype => ?_) h
    · exact ⟨hbounded.count, hbounded.outside⟩
    · by_contra hneg
      push Not at hneg
      exact hcase ⟨hread, htype, hneg⟩

def openFile : Fs :=
  { fileImage.fs mkfsSuperblock 2 with
    itable := fun k => { (fileImage.fs mkfsSuperblock 2).itable k with locked := false }
    ftable := fun _ => ⟨.FD_INODE, 1, true, false, 0, 0, 0⟩ }

def writablePage : UserMem := fun vpn => if vpn = 0 then some ⟨fun _ => 0, true⟩ else none

theorem openFile_held : Held mkfsSuperblock 0 openFile := by
  have h := fileImage_ok.held mkfsSuperblock_geometry (i := 2) (by decide)
  exact { h with log := { h.log with } }

theorem fileread_bounded_ten :
    ∃ mem' s', (filereadMem 0 writablePage 200 10 [] []).run openFile = .ok ((some 10, mem'), s') ∧
      userByte mem' 209 = some 65 ∧ userByte mem' 210 = userByte writablePage 210 := by
  obtain ⟨⟨r, mem'⟩, s', hrun, hp⟩ := exists_of_returns
    (f := filereadMem 0 writablePage 200 10 [] [])
    (p := fun a _ => decide (a.1 = some 10 ∧ userByte a.2 209 = some 65)) (s := openFile)
    (by decide +kernel)
  obtain ⟨rfl, hbyte⟩ := of_decide_eq_true hp
  exact ⟨mem', s', hrun, hbyte,
    ((fileread_bounded (by norm_num) (by norm_num) (fun _ => openFile_held) hrun).mpr
      fun _ _ hneg => absurd hneg (by norm_num)).2 210 (by decide)⟩

/-- A read of -1 bytes returns the whole file and stores it. -/
theorem fileread_negative :
    ∃ mem' s', (filereadMem 0 writablePage 200 (-1) [] []).run openFile =
        .ok ((some 100, mem'), s') ∧
      userByte writablePage 299 = some 0 ∧ userByte mem' 299 = some 65 := by
  obtain ⟨⟨r, mem'⟩, s', hrun, hp⟩ := exists_of_returns
    (f := filereadMem 0 writablePage 200 (-1) [] [])
    (p := fun a _ => decide (a.1 = some 100 ∧ userByte a.2 299 = some 65)) (s := openFile)
    (by decide +kernel)
  obtain ⟨rfl, hbyte⟩ := of_decide_eq_true hp
  exact ⟨mem', s', hrun, by decide, hbyte⟩

end Xv6
