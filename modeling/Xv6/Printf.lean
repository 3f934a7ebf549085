import Mathlib

/-!
`printf` of the kernel (`kernel/printf.c`) and of user programs (`user/printf.c`).

A format is the list of its characters up to the NUL. The arguments are what the calls
of `va_arg` take, one register after the other. `str` is the string at an address. There
is no output, `none`, if `printint` writes behind its buffer of 16 characters.

The two differ in their loops, one with a look ahead and one with a state, in their digits
and in `printint`, to which the kernel gives 64 bits and user programs 32.
-/

namespace Xv6.Printf

open List

abbrev ch (c : Char) : UInt8 := c.toNat.toUInt8

def lower (d : ℕ) : UInt8 := if d < 10 then ch '0' + d.toUInt8 else ch 'a' + (d - 10).toUInt8

def upper (d : ℕ) : UInt8 := if d < 10 then ch '0' + d.toUInt8 else ch 'A' + (d - 10).toUInt8

def base (hex : Bool) : ℕ := if hex then 16 else 10

/-! ### Numbers -/

def put (buf : List UInt8) (c : UInt8) : Option (List UInt8) :=
  if buf.length < 16 then some (c :: buf) else none

def digitLoop (tab : ℕ → UInt8) (hex : Bool) (x : ℕ) (buf : List UInt8) : Option (List UInt8) :=
  (put buf (tab (x % base hex))).bind fun buf =>
    if x / base hex ≠ 0 then digitLoop tab hex (x / base hex) buf else some buf
termination_by x
decreasing_by
  rename_i h
  have := Nat.pos_of_ne_zero h
  exact Nat.div_lt_self (Nat.pos_of_div_pos this) (by cases hex <;> decide)

def printint (tab : ℕ → UInt8) {w : ℕ} (xx : BitVec w) (hex sign : Bool) : Option (List UInt8) :=
  let neg := sign && decide (xx.toInt < 0)
  (digitLoop tab hex (if neg then -xx else xx).toNat []).bind fun buf =>
    if neg then put buf (ch '-') else some buf

def Kernel.int (sign hex long : Bool) (a : BitVec 64) : Option (List UInt8) :=
  printint lower (if long then a else (a.setWidth 32).signExtend 64) hex sign

def User.int (sign hex _long : Bool) (a : BitVec 64) : Option (List UInt8) :=
  printint upper (a.setWidth 32) hex sign

def ptrLoop (tab : ℕ → UInt8) : ℕ → BitVec 64 → List UInt8
  | 0, _ => []
  | n + 1, x => tab (x >>> 60).toNat :: ptrLoop tab n (x <<< 4)

def printptr (tab : ℕ → UInt8) (x : BitVec 64) : List UInt8 := ch '0' :: ch 'x' :: ptrLoop tab 16 x

/-! ### The loops -/

inductive Conv
  | int (sign hex long : Bool)
  | ptr
  | str
  | percent
  | other (c0 : UInt8)

/-- The conversion behind a `%`, and the characters it has beside the first one. -/
def directive (c0 c1 c2 : UInt8) : Conv × ℕ :=
  if c0 = ch 'd' then (.int true false false, 0)
  else if c0 = ch 'l' ∧ c1 = ch 'd' then (.int true false true, 1)
  else if c0 = ch 'l' ∧ c1 = ch 'l' ∧ c2 = ch 'd' then (.int true false true, 2)
  else if c0 = ch 'u' then (.int false false false, 0)
  else if c0 = ch 'l' ∧ c1 = ch 'u' then (.int false false true, 1)
  else if c0 = ch 'l' ∧ c1 = ch 'l' ∧ c2 = ch 'u' then (.int false false true, 2)
  else if c0 = ch 'x' then (.int false true false, 0)
  else if c0 = ch 'l' ∧ c1 = ch 'x' then (.int false true true, 1)
  else if c0 = ch 'l' ∧ c1 = ch 'l' ∧ c2 = ch 'x' then (.int false true true, 2)
  else if c0 = ch 'p' then (.ptr, 0)
  else if c0 = ch 's' then (.str, 0)
  else if c0 = ch '%' then (.percent, 0)
  else (.other c0, 0)

/-- What a conversion prints for the argument `a`. -/
def Conv.out (int : Bool → Bool → Bool → BitVec 64 → Option (List UInt8)) (tab : ℕ → UInt8)
    (str : BitVec 64 → List UInt8) (a : BitVec 64) : Conv → Option (List UInt8)
  | .int sign hex long => int sign hex long a
  | .ptr => some (printptr tab a)
  | .str => some (if a = 0 then "(null)".toList.map ch else str a)
  | .percent => some [ch '%']
  | .other c0 => some [ch '%', c0]

def Conv.rest (ap : List (BitVec 64)) : Conv → List (BitVec 64)
  | .percent | .other _ => ap
  | _ => ap.tail

variable (str : BitVec 64 → List UInt8)

def printf (fmt : List UInt8) (ap : List (BitVec 64)) : Option (List UInt8) :=
  match fmt with
  | [] => some []
  | cx :: fmt =>
    if cx ≠ ch '%' then (printf fmt ap).map (cx :: ·)
    else
      match fmt with
      | [] => some []
      | c0 :: fmt =>
        let d := directive c0 (fmt.headD 0) (fmt.tail.headD 0)
        (d.1.out Kernel.int lower str (ap.headD 0)).bind fun out =>
          (printf (fmt.drop d.2) (d.1.rest ap)).map (out ++ ·)
termination_by fmt.length
decreasing_by all_goals simp; try omega

/-- `vprintf` of user programs; `state` is whether a `%` was read. -/
def vprintf (fmt : List UInt8) (state : Bool) (ap : List (BitVec 64)) : Option (List UInt8) :=
  match fmt with
  | [] => some []
  | c0 :: fmt =>
    if state then
      let d := directive c0 (fmt.headD 0) (fmt.tail.headD 0)
      (d.1.out User.int upper str (ap.headD 0)).bind fun out =>
        (vprintf (fmt.drop d.2) false (d.1.rest ap)).map (out ++ ·)
    else if c0 = ch '%' then vprintf fmt true ap
    else (vprintf fmt false ap).map (c0 :: ·)
termination_by fmt.length
decreasing_by all_goals simp; try omega

/-! ### Numerals -/

def digits (hex : Bool) (x : ℕ) : List ℕ := if x = 0 then [0] else (base hex).digits x

def numeral (tab : ℕ → UInt8) (hex : Bool) (x : ℕ) : List UInt8 := (digits hex x).reverse.map tab

def text (tab : ℕ → UInt8) (hex : Bool) (v : ℤ) : List UInt8 :=
  if v < 0 then ch '-' :: numeral tab hex v.natAbs else numeral tab hex v.natAbs

def value (sign long : Bool) (a : BitVec 64) : ℤ :=
  if long then if sign then a.toInt else a.toNat
  else if sign then (a.setWidth 32).toInt else (a.setWidth 32).toNat

variable {str} {tab : ℕ → UInt8} {hex sign long : Bool} {x : ℕ} {a : BitVec 64}

theorem one_lt_base : 1 < base hex := by
  cases hex <;> decide

theorem numeral_small (h : x / base hex = 0) : numeral tab hex x = [tab (x % base hex)] := by
  have hlt : x < base hex :=
    (Nat.div_eq_zero_iff.mp h).resolve_left (by have := @one_lt_base hex; omega)
  rw [numeral, digits, Nat.mod_eq_of_lt hlt]
  split_ifs with hx
  · rw [hx]
    rfl
  · rw [Nat.digits_of_lt _ _ hx hlt]
    rfl

theorem numeral_step (h : x / base hex ≠ 0) :
    numeral tab hex x = numeral tab hex (x / base hex) ++ [tab (x % base hex)] := by
  have hx : x ≠ 0 := fun hx => h (by rw [hx, Nat.zero_div])
  rw [numeral, digits, if_neg hx, numeral, digits, if_neg h,
    Nat.digits_def' one_lt_base (Nat.pos_of_ne_zero hx),
    reverse_cons, map_append]
  rfl

theorem digitLoop_eq (buf : List UInt8) : digitLoop tab hex x buf =
    if buf.length + (numeral tab hex x).length ≤ 16 then some (numeral tab hex x ++ buf)
    else none := by
  induction x using Nat.strong_induction_on generalizing buf with
  | _ x ih =>
    rw [digitLoop, put]
    by_cases h : x / base hex = 0
    · rw [numeral_small h]
      by_cases hroom : buf.length < 16
      · simp [h]
      · rw [if_neg hroom, if_neg (by simpa using hroom)]
        rfl
    · rw [numeral_step h]
      by_cases hroom : buf.length < 16
      · have hlt : x / base hex < x :=
          Nat.div_lt_self (Nat.pos_of_div_pos (Nat.pos_of_ne_zero h)) one_lt_base
        rw [if_pos hroom, Option.bind_some, if_pos h, ih _ hlt]
        simp only [length_append, length_cons, length_nil, append_assoc,
          singleton_append]
        simp only [Nat.add_assoc, Nat.add_comm 1]
      · rw [if_neg hroom, if_neg (by simp; omega)]
        rfl

theorem toNat_neg_eq {w : ℕ} {xx : BitVec w} (h : xx.toInt < 0) :
    (-xx).toNat = xx.toInt.natAbs := by
  rw [BitVec.toInt_eq_toNat_cond] at h ⊢
  rw [BitVec.toNat_neg]
  split_ifs at h ⊢ with hmsb
  · omega
  · rw [Nat.mod_eq_of_lt (by omega)]
    omega

/-- `printint` prints the numeral, if there is room for it. -/
theorem printint_eq {w : ℕ} (xx : BitVec w) : printint tab xx hex sign =
    let v : ℤ := if sign then xx.toInt else xx.toNat
    if (text tab hex v).length ≤ 16 then some (text tab hex v) else none := by
  have hpos : 0 ≤ xx.toInt → xx.toInt = xx.toNat := fun h => by
    rw [BitVec.toInt_eq_toNat_cond] at h ⊢
    split_ifs at h ⊢ with hmsb
    · rfl
    · omega
  have hplain : (digitLoop tab hex xx.toNat []).bind some =
      if (text tab hex xx.toNat).length ≤ 16 then some (text tab hex xx.toNat) else none := by
    have hnn : ¬(xx.toNat : ℤ) < 0 := by omega
    simp [digitLoop_eq, text, hnn]
  by_cases hneg : sign ∧ xx.toInt < 0
  · obtain ⟨rfl, hneg⟩ := hneg
    simp only [printint, hneg, decide_true, Bool.and_self, if_true, toNat_neg_eq hneg, text,
      digitLoop_eq, length_nil, Nat.zero_add, append_nil, length_cons]
    by_cases hlen : (numeral tab hex xx.toInt.natAbs).length < 16
    · rw [if_pos (by omega), if_pos (by omega), Option.bind_some, put, if_pos hlen]
    · simp only [show ¬(numeral tab hex xx.toInt.natAbs).length + 1 ≤ 16 by omega, if_false]
      split_ifs
      · exact if_neg hlen
      · rfl
  · cases sign with
    | false => exact hplain
    | true =>
      have hnn : ¬xx.toInt < 0 := fun h => hneg ⟨rfl, h⟩
      simp only [printint, hnn, decide_false, Bool.and_false, Bool.false_eq_true, if_false, if_true]
      rw [hpos (not_lt.mp hnn)]
      exact hplain

/-! ### Numerals of different numbers -/

theorem digits_lt {d : ℕ} (hd : d ∈ digits hex x) : d < 16 := by
  rw [digits] at hd
  split_ifs at hd with hx
  · rw [mem_singleton.mp hd]
    decide
  · refine (Nat.digits_lt_base one_lt_base hd).trans_le ?_
    cases hex <;> decide

theorem ofDigits_digits (hex : Bool) (x : ℕ) : Nat.ofDigits (base hex) (digits hex x) = x := by
  rw [digits]
  split_ifs with hx
  · rw [hx]
    rfl
  · exact Nat.ofDigits_digits _ x

theorem mem_numeral {c : UInt8} (hc : c ∈ numeral tab hex x) : ∃ d < 16, tab d = c := by
  obtain ⟨d, hd, rfl⟩ := mem_map.mp hc
  exact ⟨d, digits_lt (mem_reverse.mp hd), rfl⟩

theorem numeral_ne_nil : numeral tab hex x ≠ [] := by
  rw [numeral, digits]
  split_ifs with hx
  · exact cons_ne_nil _ _
  · simpa [Nat.digits_eq_nil_iff_eq_zero] using hx

/-- The characters that are not a minus sign. -/
def weight (l : List UInt8) : ℕ := l.countP (· ≠ ch '-')

theorem weight_append (l l' : List UInt8) : weight (l ++ l') = weight l + weight l' :=
  countP_append

theorem weight_text (htab : ∀ d < 16, tab d ≠ ch '-') (v : ℤ) :
    weight (text tab hex v) = (numeral tab hex v.natAbs).length := by
  have hnum : weight (numeral tab hex v.natAbs) = (numeral tab hex v.natAbs).length := by
    refine countP_eq_length.mpr fun c hc => decide_eq_true ?_
    obtain ⟨d, hd, rfl⟩ := mem_numeral hc
    exact htab d hd
  rw [text]
  split_ifs
  · exact (countP_cons_of_neg (by simp)).trans hnum
  · exact hnum

section Told

variable {tab' : ℕ → UInt8} {R : UInt8 → UInt8 → Prop} {y : ℕ} {v w : ℤ} {l l' : List UInt8}
  (hR : ∀ d < 16, ∀ e < 16, R (tab d) (tab' e) → d = e)
include hR

theorem numeral_inj (hlen : (numeral tab hex x).length = (numeral tab' hex y).length)
    (h : Forall₂ R (numeral tab hex x ++ l) (numeral tab' hex y ++ l')) : x = y := by
  have h := forall₂_take (numeral tab hex x).length h
  rw [take_left, hlen, take_left, numeral, numeral, forall₂_map_left_iff,
    forall₂_map_right_iff, forall₂_iff_get] at h
  have heq : (digits hex x).reverse = (digits hex y).reverse := by
    refine ext_get h.1 fun i hx hy => hR _ ?_ _ ?_ (h.2 i hx hy)
    · exact digits_lt (mem_reverse.mp (get_mem _ ⟨i, hx⟩))
    · exact digits_lt (mem_reverse.mp (get_mem _ ⟨i, hy⟩))
  rw [← ofDigits_digits hex x, reverse_injective heq, ofDigits_digits]

theorem text_inj (hminus : ∀ d < 16, ¬R (ch '-') (tab' d) ∧ ¬R (tab d) (ch '-'))
    (hlen : (numeral tab hex v.natAbs).length = (numeral tab' hex w.natAbs).length)
    (h : Forall₂ R (text tab hex v ++ l) (text tab' hex w ++ l')) : v = w := by
  rw [text, text] at h
  split_ifs at h with hv hw hw
  · have := numeral_inj hR hlen (forall₂_cons.mp h).2
    omega
  · obtain ⟨c, n, hn⟩ := exists_cons_of_ne_nil (@numeral_ne_nil tab' hex w.natAbs)
    obtain ⟨d, hd, rfl⟩ := mem_numeral (hn ▸ mem_cons_self ..)
    rw [hn] at h
    exact absurd (forall₂_cons.mp h).1 (hminus d hd).1
  · obtain ⟨c, n, hn⟩ := exists_cons_of_ne_nil (@numeral_ne_nil tab hex v.natAbs)
    obtain ⟨d, hd, rfl⟩ := mem_numeral (hn ▸ mem_cons_self ..)
    rw [hn] at h
    exact absurd (forall₂_cons.mp h).1 (hminus d hd).2
  · have := numeral_inj hR hlen h
    omega

end Told

theorem text_lower_inj {v w : ℤ} (h : text lower hex v = text lower hex w) : v = w := by
  have hlen := congrArg weight h
  rw [weight_text (by decide), weight_text (by decide)] at hlen
  have hall : Forall₂ Eq (text lower hex v ++ []) (text lower hex w ++ []) := by
    rw [h, forall₂_eq_eq_eq]
  exact text_inj (by decide) (by decide) hlen hall

/-! ### The numbers of the kernel -/

def Kernel.value (sign long : Bool) (a : BitVec 64) : ℤ :=
  let xx := if long then a else (a.setWidth 32).signExtend 64
  if sign then xx.toInt else xx.toNat

theorem Kernel.int_eq : Kernel.int sign hex long a =
    if (text lower hex (Kernel.value sign long a)).length ≤ 16 then
      some (text lower hex (Kernel.value sign long a)) else none := by
  rw [Kernel.int, printint_eq]
  rfl

theorem kernel_value_unsigned : Kernel.value false false a =
    (a.setWidth 32).toNat + if 2 ^ 31 ≤ (a.setWidth 32).toNat then 2 ^ 64 - 2 ^ 32 else 0 := by
  have hlt := (a.setWidth 32).isLt
  have hmsb : (a.setWidth 32).msb = decide (2 ^ 31 ≤ (a.setWidth 32).toNat) := by
    rw [BitVec.msb_eq_decide]
  show ((((a.setWidth 32).signExtend 64).toNat : ℕ) : ℤ) = _
  rw [BitVec.toNat_signExtend, hmsb, BitVec.toNat_setWidth, Nat.mod_eq_of_lt (by omega)]
  simp

theorem kernel_value : Kernel.value sign long a = value sign long a ↔
    (sign = false → long = false → (a.setWidth 32).toNat < 2 ^ 31) := by
  cases long with
  | true => simp [Kernel.value, value]
  | false =>
    cases sign with
    | true =>
      refine iff_of_true ?_ (by simp)
      exact BitVec.toInt_signExtend_of_le (by decide)
    | false =>
      rw [kernel_value_unsigned]
      show _ = ((a.setWidth 32).toNat : ℤ) ↔ _
      split_ifs with hbig
      · exact iff_of_false (by omega) fun h => absurd (h rfl rfl) (not_lt.mpr hbig)
      · exact iff_of_true (by omega) fun _ _ => not_le.mp hbig

/-- The kernel's `printint` stays in its buffer and prints the numeral of its argument, if
and only if the numeral has at most 16 characters and what is printed by `%u` or `%x` is
below 2^31. -/
theorem kernel_int_numeral (sign hex long : Bool) (a : BitVec 64) :
    Kernel.int sign hex long a = some (text lower hex (value sign long a)) ↔
      (sign = false → long = false → (a.setWidth 32).toNat < 2 ^ 31) ∧
        (text lower hex (value sign long a)).length ≤ 16 := by
  rw [Kernel.int_eq]
  constructor
  · intro h
    split_ifs at h with hlen
    have hvalue := text_lower_inj (Option.some.inj h)
    exact ⟨kernel_value.mp hvalue, hvalue ▸ hlen⟩
  · rintro ⟨hsmall, hlen⟩
    rw [kernel_value.mpr hsmall, if_pos hlen]

theorem kernel_int_numeral_min : Kernel.int true false false 0xffffffff80000000 =
    some ("-2147483648".toList.map ch) :=
  ((kernel_int_numeral true false false 0xffffffff80000000).mpr ⟨by simp, by decide⟩).trans
    (by decide)

/-- A numeral with 17 characters does not fit, and `%x` of 2^31 prints 16 digits. -/
theorem kernel_int_overrun : Kernel.int true false true (10 ^ 16) = none ∧
    Kernel.int false true false (2 ^ 31) = some ("ffffffff80000000".toList.map ch) := by
  constructor
  · rw [Kernel.int, printint_eq]
    decide
  · rw [Kernel.int, printint_eq]
    decide

/-! ### The same output -/

inductive Piece
  | lit (c : UInt8)
  | conv (k : Conv)

def parse (fmt : List UInt8) : List Piece :=
  match fmt with
  | [] => []
  | c :: fmt =>
    if c ≠ ch '%' then .lit c :: parse fmt
    else
      match fmt with
      | [] => []
      | c0 :: fmt =>
        let d := directive c0 (fmt.headD 0) (fmt.tail.headD 0)
        .conv d.1 :: parse (fmt.drop d.2)
termination_by fmt.length
decreasing_by all_goals simp; try omega

def run (int : Bool → Bool → Bool → BitVec 64 → Option (List UInt8)) (tab : ℕ → UInt8)
    (str : BitVec 64 → List UInt8) : List Piece → List (BitVec 64) → Option (List UInt8)
  | [], _ => some []
  | .lit c :: ps, ap => (run int tab str ps ap).map (c :: ·)
  | .conv k :: ps, ap => (k.out int tab str (ap.headD 0)).bind fun out =>
    (run int tab str ps (k.rest ap)).map (out ++ ·)

theorem printf_eq_run (fmt : List UInt8) (ap : List (BitVec 64)) :
    printf str fmt ap = run Kernel.int lower str (parse fmt) ap := by
  induction fmt using parse.induct generalizing ap with
  | case1 => rw [printf, parse, run]
  | case2 c fmt hc ih =>
    rw [printf.eq_def, parse.eq_def]
    dsimp only
    rw [if_pos hc, if_pos hc, run, ih]
  | case3 c hc => rw [printf, parse, if_neg hc, if_neg hc, run]
  | case4 c hc c0 fmt d ih =>
    rw [printf, parse, if_neg hc, if_neg hc, run]
    simp only [d] at ih
    simp only [ih]

theorem vprintf_eq_run (fmt : List UInt8) (ap : List (BitVec 64)) :
    vprintf str fmt false ap = run User.int upper str (parse fmt) ap := by
  induction fmt using parse.induct generalizing ap with
  | case1 => rw [vprintf, parse, run]
  | case2 c fmt hc ih =>
    rw [vprintf, parse.eq_def]
    dsimp only
    rw [if_pos hc, if_neg nofun, if_neg hc, run, ih]
  | case3 c hc => rw [vprintf, parse, if_neg hc, if_neg nofun, if_pos (not_not.mp hc), vprintf, run]
  | case4 c hc c0 fmt d ih =>
    rw [vprintf, parse, if_neg hc, if_neg nofun, if_pos (not_not.mp hc), vprintf, if_pos rfl, run]
    simp only [d] at ih
    simp only [ih]

/-- The same character, or the same digit. -/
def Alike (b c : UInt8) : Prop := b = c ∨ ∃ d < 16, b = upper d ∧ c = lower d

/-- An argument that both `printint` print in full. -/
def Conv.Small (a : BitVec 64) : Conv → Prop
  | .int sign _ long => if long then if sign then -2 ^ 31 ≤ a.toInt ∧ a.toInt < 2 ^ 31
      else a.toNat < 2 ^ 32 else sign = true ∨ (a.setWidth 32).toNat < 2 ^ 31
  | _ => True

/-- Every number that is printed is small. -/
def Small : List Piece → List (BitVec 64) → Prop
  | [], _ => True
  | .lit _ :: ps, ap => Small ps ap
  | .conv k :: ps, ap => k.Small (ap.headD 0) ∧ Small ps (k.rest ap)

instance (b c : UInt8) : Decidable (Alike b c) := inferInstanceAs (Decidable (_ ∨ _))

theorem alike_refl (l : List UInt8) : Forall₂ Alike l l :=
  forall₂_same.mpr fun _ _ => .inl rfl

theorem alike_numeral (hex : Bool) (x : ℕ) :
    Forall₂ Alike (numeral upper hex x) (numeral lower hex x) := by
  rw [numeral, numeral, forall₂_map_left_iff, forall₂_map_right_iff, forall₂_same]
  exact fun d hd => .inr ⟨d, digits_lt (mem_reverse.mp hd), rfl, rfl⟩

theorem alike_text (hex : Bool) (v : ℤ) :
    Forall₂ Alike (text upper hex v) (text lower hex v) := by
  rw [text, text]
  split_ifs
  · exact .cons (.inl rfl) (alike_numeral hex _)
  · exact alike_numeral hex _

theorem alike_ptrLoop (n : ℕ) (x : BitVec 64) :
    Forall₂ Alike (ptrLoop upper n x) (ptrLoop lower n x) := by
  induction n generalizing x with
  | zero => exact .nil
  | succ n ih =>
    refine .cons (.inr ⟨(x >>> 60).toNat, ?_, rfl, rfl⟩) (ih _)
    rw [BitVec.toNat_ushiftRight, Nat.shiftRight_eq_div_pow]
    omega

theorem length_numeral_mono {y : ℕ} {tab' : ℕ → UInt8} (h : x ≤ y) :
    (numeral tab hex x).length ≤ (numeral tab' hex y).length := by
  simp only [numeral, length_map, length_reverse, digits]
  split_ifs with hx hy hy
  · exact le_rfl
  · exact length_pos_iff.mpr (Nat.digits_ne_nil_iff_ne_zero.mpr hy)
  · omega
  · exact Nat.le_length_digits_le _ _ _ h

theorem length_text_le {v : ℤ} (h : v.natAbs < 10 ^ 15) : (text tab hex v).length ≤ 16 := by
  have hnum : (numeral tab hex v.natAbs).length ≤ 15 := by
    rw [numeral, length_map, length_reverse, digits]
    split_ifs
    · decide
    · rw [Nat.digits_length_le_iff one_lt_base]
      exact h.trans_le (Nat.pow_le_pow_left (by cases hex <;> decide) 15)
  rw [text]
  split_ifs
  · rw [length_cons]
    omega
  · omega

/-! ### One conversion -/

/-- Numerals of different numbers, where that of the kernel is not the shorter one. -/
def Unlike (u k : List UInt8) : Prop :=
  ∃ hex v w, v ≠ w ∧ v.natAbs ≤ w.natAbs ∧ u = text upper hex v ∧ k = text lower hex w

theorem toInt_eq {w : ℕ} (y : BitVec w) : y.toInt =
    if 2 * y.toNat < 2 ^ w then (y.toNat : ℤ) else (y.toNat : ℤ) - 2 ^ w := by
  rw [BitVec.toInt_eq_toNat_cond]
  norm_cast

def User.value (sign : Bool) (a : BitVec 64) : ℤ :=
  if sign then (a.setWidth 32).toInt else (a.setWidth 32).toNat

theorem User.value_lt : (User.value sign a).natAbs < 2 ^ 32 := by
  have hlt := (a.setWidth 32).isLt
  rw [User.value, toInt_eq]
  split_ifs <;> omega

theorem User.int_eq : User.int sign hex long a = some (text upper hex (User.value sign a)) := by
  rw [User.int, printint_eq]
  exact if_pos (length_text_le (User.value_lt.trans (by decide)))

theorem small_iff : ((Conv.int sign hex long).Small a ↔
      User.value sign a = Kernel.value sign long a) ∧
    (User.value sign a).natAbs ≤ (Kernel.value sign long a).natAbs := by
  have hlt := a.isLt
  cases long with
  | false =>
    cases sign with
    | false =>
      rw [kernel_value_unsigned]
      simp only [Conv.Small, User.value, Bool.false_eq_true, if_false, false_or]
      split_ifs <;> omega
    | true =>
      have hsame : Kernel.value true false a = User.value true a :=
        BitVec.toInt_signExtend_of_le (by decide)
      simp [Conv.Small, hsame]
  | true =>
    cases sign
    all_goals
      simp only [Conv.Small, User.value, Kernel.value, Bool.false_eq_true, if_false, if_true,
        toInt_eq, BitVec.toNat_setWidth]
      try split_ifs
    all_goals omega

theorem Conv.outcome (d : Conv) {k : List UInt8} (hk : d.out Kernel.int lower str a = some k) :
    ∃ u, d.out User.int upper str a = some u ∧
      (d.Small a ∧ Forall₂ Alike u k ∨ ¬d.Small a ∧ Unlike u k) := by
  cases d with
  | int sign hex long =>
    obtain ⟨hiff, hle⟩ := @small_iff hex sign long a
    rw [Conv.out, Kernel.int_eq] at hk
    split_ifs at hk
    cases hk
    refine ⟨_, @User.int_eq hex sign long a, ?_⟩
    by_cases hsmall : (Conv.int sign hex long).Small a
    · rw [hiff.mp hsmall]
      exact .inl ⟨hsmall, alike_text hex _⟩
    · exact .inr ⟨hsmall, hex, _, _, mt hiff.mpr hsmall, hle, rfl, rfl⟩
  | ptr =>
    cases hk
    exact ⟨_, rfl, .inl ⟨trivial, .cons (.inl rfl) (.cons (.inl rfl) (alike_ptrLoop 16 a))⟩⟩
  | str | percent | other =>
    cases hk
    exact ⟨_, rfl, .inl ⟨trivial, alike_refl _⟩⟩

theorem Conv.out_of_small {d : Conv} (h : d.Small a) :
    ∃ k, d.out Kernel.int lower str a = some k := by
  cases d with
  | int sign hex long =>
    refine ⟨_, Kernel.int_eq.trans (if_pos (length_text_le ?_))⟩
    rw [← small_iff.1.mp h]
    exact User.value_lt.trans (by decide)
  | ptr | str | percent | other => exact ⟨_, rfl⟩

/-! ### All of them -/

variable {u k p q : List UInt8} {d : Conv} {ps : List Piece} {ap : List (BitVec 64)}

theorem alike_weight (h : Forall₂ Alike u k) : weight u = weight k := by
  induction h with
  | nil => rfl
  | @cons b c _ _ hbc _ ih =>
    have hminus : b = ch '-' ↔ c = ch '-' := by
      rcases hbc with rfl | ⟨d, hd, rfl, rfl⟩
      · rfl
      · revert d
        decide
    rw [weight, countP_cons, weight, countP_cons]
    simp only [ne_eq, hminus]
    exact congrArg (· + _) ih

theorem Unlike.weight_le (h : Unlike u k) : weight u ≤ weight k := by
  obtain ⟨hex, v, w, -, hle, rfl, rfl⟩ := h
  rw [weight_text (by decide), weight_text (by decide)]
  exact length_numeral_mono hle

theorem Unlike.not_alike (h : Unlike p q) (hle : weight q ≤ weight p) :
    ¬Forall₂ Alike (p ++ u) (q ++ k) := by
  intro hall
  have heq := h.weight_le.antisymm hle
  obtain ⟨hex, v, w, hne, -, rfl, rfl⟩ := h
  rw [weight_text (by decide), weight_text (by decide)] at heq
  exact hne (text_inj (by decide) (by decide) heq hall)

theorem run_conv {int : Bool → Bool → Bool → BitVec 64 → Option (List UInt8)}
    (h : run int tab str (.conv d :: ps) ap = some k) :
    ∃ o l, d.out int tab str (ap.headD 0) = some o ∧ run int tab str ps (d.rest ap) = some l ∧
      k = o ++ l := by
  obtain ⟨o, ho, h⟩ := Option.bind_eq_some_iff.mp h
  obtain ⟨l, hl, rfl⟩ := Option.map_eq_some_iff.mp h
  exact ⟨o, l, ho, hl, rfl⟩

theorem run_weight (hk : run Kernel.int lower str ps ap = some k)
    (hu : run User.int upper str ps ap = some u) : weight u ≤ weight k := by
  induction ps generalizing ap k u with
  | nil =>
    cases hk
    cases hu
    exact le_rfl
  | cons p ps ih =>
    cases p with
    | lit c =>
      obtain ⟨k', hk', rfl⟩ := Option.map_eq_some_iff.mp hk
      obtain ⟨u', hu', rfl⟩ := Option.map_eq_some_iff.mp hu
      rw [weight, countP_cons, weight, countP_cons]
      exact Nat.add_le_add_right (ih hk' hu') _
    | conv d =>
      obtain ⟨kd, k', hkd, hk', rfl⟩ := run_conv hk
      obtain ⟨ud, u', hud, hu', rfl⟩ := run_conv hu
      obtain ⟨u₀, hu₀, hcase⟩ := d.outcome hkd
      obtain rfl : u₀ = ud := Option.some.inj (hu₀.symm.trans hud)
      rw [weight_append, weight_append]
      refine Nat.add_le_add ?_ (ih hk' hu')
      exact hcase.elim (fun h => (alike_weight h.2).le) fun h => h.2.weight_le

theorem run_alike :
    (∃ k u, run Kernel.int lower str ps ap = some k ∧ run User.int upper str ps ap = some u ∧
      Forall₂ Alike u k) ↔ Small ps ap := by
  induction ps generalizing ap with
  | nil => exact iff_of_true ⟨[], [], rfl, rfl, .nil⟩ trivial
  | cons p ps ih =>
    cases p with
    | lit c =>
      rw [Small, ← ih]
      constructor
      · rintro ⟨k, u, hk, hu, hall⟩
        obtain ⟨k', hk', rfl⟩ := Option.map_eq_some_iff.mp hk
        obtain ⟨u', hu', rfl⟩ := Option.map_eq_some_iff.mp hu
        exact ⟨k', u', hk', hu', (forall₂_cons.mp hall).2⟩
      · rintro ⟨k, u, hk, hu, hall⟩
        exact ⟨c :: k, c :: u, by rw [run, hk]; rfl, by rw [run, hu]; rfl, .cons (.inl rfl) hall⟩
    | conv d =>
      rw [Small, ← ih]
      constructor
      · rintro ⟨k, u, hk, hu, hall⟩
        obtain ⟨kd, k', hkd, hk', rfl⟩ := run_conv hk
        obtain ⟨ud, u', hud, hu', rfl⟩ := run_conv hu
        obtain ⟨u₀, hu₀, hcase⟩ := d.outcome hkd
        obtain rfl : u₀ = ud := Option.some.inj (hu₀.symm.trans hud)
        rcases hcase with ⟨hsmall, hpiece⟩ | ⟨-, hunlike⟩
        · refine ⟨hsmall, k', u', hk', hu', ?_⟩
          have hdrop := forall₂_drop u₀.length hall
          rwa [drop_left, hpiece.length_eq, drop_left] at hdrop
        · have hweight := alike_weight hall
          rw [weight_append, weight_append] at hweight
          have := run_weight hk' hu'
          exact absurd hall (hunlike.not_alike (by omega))
      · rintro ⟨hsmall, k, u, hk, hu, hall⟩
        obtain ⟨kd, hkd⟩ := @Conv.out_of_small str _ _ hsmall
        obtain ⟨ud, hud, hcase⟩ := d.outcome hkd
        obtain ⟨-, hpiece⟩ := hcase.resolve_right fun hnot => hnot.1 hsmall
        exact ⟨kd ++ k, ud ++ u, by rw [run, hkd, hk]; rfl, by rw [run, hud, hu]; rfl,
          rel_append hpiece hall⟩

/-- Both print the same, up to the case of hexadecimal digits, if and only if all the
numbers are small. -/
theorem vprintf_alike (str : BitVec 64 → List UInt8) (fmt : List UInt8) (ap : List (BitVec 64)) :
    (∃ k u, printf str fmt ap = some k ∧ vprintf str fmt false ap = some u ∧
      Forall₂ Alike u k) ↔ Small (parse fmt) ap := by
  rw [printf_eq_run, vprintf_eq_run]
  exact run_alike

theorem parse_x : parse [ch '%', ch 'x'] = [.conv (.int false true false)] := by
  simp [parse, directive]

theorem parse_ld : parse [ch '%', ch 'l', ch 'd'] = [.conv (.int true false true)] := by
  simp [parse, directive]

theorem vprintf_alike_hex : ∃ k u, printf (fun _ => []) [ch '%', ch 'x'] [255] = some k ∧
    vprintf (fun _ => []) [ch '%', ch 'x'] false [255] = some u ∧ Forall₂ Alike u k :=
  (vprintf_alike _ _ _).mpr (parse_x ▸ ⟨.inr (by decide), trivial⟩)

/-- `%ld` of 2^32. -/
theorem vprintf_truncates :
    printf (fun _ => []) [ch '%', ch 'l', ch 'd'] [2 ^ 32] = some ("4294967296".toList.map ch) ∧
    vprintf (fun _ => []) [ch '%', ch 'l', ch 'd'] false [2 ^ 32] = some [ch '0'] := by
  rw [printf_eq_run, vprintf_eq_run, parse_ld]
  simp only [run, Conv.out, Kernel.int, User.int, printint_eq]
  decide

end Xv6.Printf
