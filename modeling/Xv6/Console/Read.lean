import Xv6.Console.Basic
import Xv6.Vm.Store

/-!
`consoleread` and the memory of its caller.

What a read does to memory is a function of the consoles it finds: the one when it takes
the lock, and one for each time it has slept. A turn of the loop is the stretch at
`Point.read`, for the outcome of its `either_copyout` (`consolereadLoop_exec`).
-/

namespace Xv6.Cons

/-- The loop of `consoleread`: the result, or none while the read sleeps, and the
memory. `woken` holds the console and the `killed` flag at the end of each
sleep; every turn ends one of these or stores a byte. -/
def consolereadLoop (arg : ℤ) : (fuel : ℕ) → (woken : List (Cons × Bool)) → Cons → (killed : Bool) →
    (n : ℤ) → UserMem → (dst : ℕ) → Option ℤ × UserMem
  | 0, _, _, _, _, mem, _ => (none, mem)
  | fuel + 1, woken, cons, killed, n, mem, dst =>
    if 0 < n then
      if cons.r = cons.w then
        if killed then (some (-1), mem)
        else
          match woken with
          | [] => (none, mem)
          | (cons', killed') :: woken => consolereadLoop arg fuel woken cons' killed' n mem dst
      else
        let c := cons.buf (slot cons.r)
        if c = ctrlD then (some (int (arg % 2 ^ 32 - n)), mem)
        else
          match copyoutMem mem dst [c] with
          | (false, mem) => (some (int (arg % 2 ^ 32 - n)), mem)
          | (true, mem) =>
            if c = newline then (some (int (arg % 2 ^ 32 - (n - 1))), mem)
            else
              consolereadLoop arg fuel woken
                { cons with r := cons.r + 1, delivered := cons.delivered ++ [c] } killed (n - 1)
                mem ((dst + 1) % 2 ^ 64)
    else (some (int (arg % 2 ^ 32 - n)), mem)

/-- A turn of the loop is the stretch at `Point.read`, for the `either_copyout` that it
makes. -/
theorem consolereadLoop_exec (arg : ℤ) (fuel : ℕ) (woken : List (Cons × Bool)) (cons : Cons)
    (killed : Bool) (n : ℤ) (mem : UserMem) (dst : ℕ) (got : List UInt8) :
    consolereadLoop arg (fuel + 1) woken cons killed n mem dst = let c := cons.buf (slot cons.r)
      let copy := if 0 < n ∧ cons.r ≠ cons.w ∧ c ≠ ctrlD then copyoutMem mem dst [c]
        else (false, mem)
      match cons.exec killed copy.1 (.read arg n got) with
      | (cons', .goto (.read _ n' _)) =>
        consolereadLoop arg fuel woken cons' killed n' copy.2 ((dst + 1) % 2 ^ 64)
      | (_, .goto _) =>
        match woken with
        | [] => (none, copy.2)
        | (cons', killed') :: woken => consolereadLoop arg fuel woken cons' killed' n copy.2 dst
      | (cons', _) => (cons'.reads.getLast?.map Read.result, copy.2) := by
  rw [consolereadLoop.eq_def]
  unfold exec
  dsimp only
  by_cases hpos : 0 < n
  · by_cases hempty : cons.r = cons.w
    · cases killed <;> simp [hpos, hempty]
    · by_cases hd : cons.buf (slot cons.r) = ctrlD
      · simp [hpos, hempty, hd, take, finish]
      · simp only [hpos, hempty, hd, if_true, if_false, ne_eq, not_false_eq_true, and_self, take]
        generalize copyoutMem mem dst [cons.buf (slot cons.r)] = copy
        obtain ⟨_ | _, mem'⟩ := copy
        · simp [finish]
        · by_cases hnl : cons.buf (slot cons.r) = newline <;> simp [hnl, finish]
  · simp [hpos, finish]

def consoleread (found : List (Cons × Bool)) (mem : UserMem) (dst : ℕ) (n : ℤ) :
    Option ℤ × UserMem :=
  match found with
  | [] => (none, mem)
  | (cons, killed) :: woken =>
    consolereadLoop n (n.toNat + woken.length + 1) woken cons killed n mem dst

theorem int_target {arg n : ℤ} (harg : -2 ^ 31 ≤ arg ∧ arg < 2 ^ 31)
    (hn : n = arg ∨ 0 ≤ n ∧ n < arg) : int (arg % 2 ^ 32 - n) = arg - n := by
  rw [int]
  omega

theorem consolereadLoop_stores {arg : ℤ} {fuel : ℕ} {woken : List (Cons × Bool)} {cons : Cons}
    {killed : Bool} {n : ℤ} {mem : UserMem} {dst : ℕ} (harg : -2 ^ 31 ≤ arg ∧ arg < 2 ^ 31)
    (hn : n = arg ∨ 0 ≤ n ∧ n < arg) (hdst : dst < 2 ^ 64) :
    ∃ bytes, Stores mem dst bytes (consolereadLoop arg fuel woken cons killed n mem dst).2 ∧
      bytes.length ≤ n.toNat ∧
      ∀ r, (consolereadLoop arg fuel woken cons killed n mem dst).1 = some r →
        r = -1 ∨ r = arg - n + bytes.length := by
  induction fuel generalizing woken cons killed n mem dst with
  | zero => exact ⟨[], Stores.nil, by simp, by simp [consolereadLoop]⟩
  | succ fuel ih =>
    have hresult : ∃ bytes, Stores mem dst bytes mem ∧ bytes.length ≤ n.toNat ∧
        ∀ r, some (int (arg % 2 ^ 32 - n)) = some r → r = -1 ∨ r = arg - n + bytes.length := by
      refine ⟨[], Stores.nil, by simp, ?_⟩
      rintro _ ⟨⟩
      rw [int_target harg hn]
      simp
    rw [consolereadLoop.eq_def]
    dsimp only
    by_cases hpos : 0 < n
    · rw [if_pos hpos]
      by_cases hempty : cons.r = cons.w
      · rw [if_pos hempty]
        cases killed with
        | true => exact ⟨[], Stores.nil, by simp, by simp⟩
        | false =>
          cases woken with
          | nil => exact ⟨[], Stores.nil, by simp, by simp⟩
          | cons w woken => exact ih hn hdst
      · rw [if_neg hempty]
        by_cases hd : cons.buf (slot cons.r) = ctrlD
        · simp only [if_pos hd]
          exact hresult
        · simp only [if_neg hd]
          have hbyte := copyoutMem_byte mem dst (cons.buf (slot cons.r))
          by_cases hw : writable mem dst = true
          · rw [if_pos hw] at hbyte
            have hlt := writable_lt hw
            obtain ⟨hok, hstores⟩ := hbyte
            rw [← Prod.mk.eta (p := copyoutMem mem dst [cons.buf (slot cons.r)]), hok]
            dsimp only
            have hn' : n - 1 = arg ∨ 0 ≤ n - 1 ∧ n - 1 < arg := by omega
            by_cases hnl : cons.buf (slot cons.r) = newline
            · rw [if_pos hnl]
              refine ⟨_, hstores, by simp; omega, ?_⟩
              rintro _ ⟨⟩
              rw [int_target harg hn']
              simp
              omega
            · rw [if_neg hnl]
              have hnext : (dst + 1) % 2 ^ 64 = dst + 1 := Nat.mod_eq_of_lt (by
                simp only [MAXVA] at hlt
                omega)
              rw [hnext]
              obtain ⟨bytes, hrest, hlen, hres⟩ := @ih woken { cons with
                r := cons.r + 1
                delivered := cons.delivered ++ [cons.buf (slot cons.r)] } killed (n - 1)
                (copyoutMem mem dst [cons.buf (slot cons.r)]).2 (dst + 1) hn' (by omega)
              refine ⟨_ :: bytes, hstores.trans hrest, by simp; omega, fun r hr => ?_⟩
              refine (hres r hr).imp_right fun heq => ?_
              rw [heq, List.length_cons]
              omega
          · rw [if_neg hw] at hbyte
            rw [hbyte]
            exact hresult
    · rw [if_neg hpos]
      exact hresult

theorem consoleread_stores {found : List (Cons × Bool)} {mem : UserMem} {dst : ℕ} {n : ℤ}
    (hn : -2 ^ 31 ≤ n ∧ n < 2 ^ 31) (hdst : dst < 2 ^ 64) :
    ∃ bytes, Stores mem dst bytes (consoleread found mem dst n).2 ∧ bytes.length ≤ n.toNat ∧
      ∀ r, (consoleread found mem dst n).1 = some r → r = -1 ∨ r = bytes.length := by
  cases found with
  | nil => exact ⟨[], Stores.nil, by simp, by simp [consoleread]⟩
  | cons f woken =>
    obtain ⟨bytes, hstores, hlen, hres⟩ :=
      @consolereadLoop_stores n (n.toNat + woken.length + 1) woken f.1 f.2 n mem dst hn
        (.inl rfl) hdst
    refine ⟨bytes, hstores, hlen, fun r hr => (hres r hr).imp_right fun heq => ?_⟩
    omega

end Xv6.Cons
