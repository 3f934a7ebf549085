import Mathlib

/-!
`grep` (`user/grep.c`): the matcher, and the loop that prints the lines which
match.

A string is the list of its characters up to the NUL. The meaning of a pattern is a
list of items, each with the set of strings that it matches; what matches a pattern is
a product of such sets.

The loop reads into a buffer of 1024 bytes behind what is left of the last line. How
many bytes a `read` delivers, if it can deliver any, is given by `want`, for each call.
-/

namespace Xv6.Grep

open List
open Computability

variable {line rest : List UInt8}

abbrev star : UInt8 := 42
abbrev dollar : UInt8 := 36
abbrev dot : UInt8 := 46
abbrev caret : UInt8 := 94
abbrev newline : UInt8 := 10

/-! ### The matcher -/

mutual

def matchhere (re text : List UInt8) : Bool :=
  match re with
  | [] => true
  | c :: re =>
    if re.head? = some star then matchstar c re.tail text
    else if c = dollar ∧ re = [] then text = []
    else
      match text with
      | [] => false
      | a :: text => (c = dot ∨ c = a) && matchhere re text
termination_by (2 * re.length, text.length)
decreasing_by
  · refine Prod.Lex.left _ _ ?_
    simp only [length_tail, length_cons]
    omega
  · refine Prod.Lex.left _ _ ?_
    simp only [length_cons]
    omega

def matchstar (c : UInt8) (re text : List UInt8) : Bool :=
  if matchhere re text then true
  else
    match text with
    | [] => false
    | a :: text => (a = c ∨ c = dot) && matchstar c re text
termination_by (2 * re.length + 1, text.length)

end

/-- The loop of `match`, which also looks at the empty string. -/
def matchAny (re : List UInt8) : List UInt8 → Bool
  | [] => matchhere re []
  | a :: text => matchhere re (a :: text) || matchAny re text

def matchText (re text : List UInt8) : Bool :=
  if re.head? = some caret then matchhere re.tail text else matchAny re text

/-! ### Patterns -/

def Fits (c a : UInt8) : Prop := c = dot ∨ c = a

structure Item where
  c : UInt8
  starred : Bool

def one (c : UInt8) : Language UInt8 := { w | ∃ a, Fits c a ∧ w = [a] }

def Item.lang (x : Item) : Language UInt8 := if x.starred then (one x.c)∗ else one x.c

/-- The items of a pattern without its `^`, and whether it ends in the anchor `$`. -/
def items : List UInt8 → List Item × Bool
  | [] => ([], false)
  | [c] => if c = dollar then ([], true) else ([⟨c, false⟩], false)
  | c :: d :: re =>
    if d = star then (⟨c, true⟩ :: (items re).1, (items re).2)
    else (⟨c, false⟩ :: (items (d :: re)).1, (items (d :: re)).2)

/-- The strings that are concatenations of strings matched by the items in order. -/
def lang (xs : List Item) : Language UInt8 := (xs.map Item.lang).prod

variable {re text : List UInt8} {c : UInt8}

@[simp] theorem matchhere_nil : matchhere [] text = true := by
  rw [matchhere.eq_def]

theorem matchhere_cons : matchhere (c :: re) text =
    if re.head? = some star then matchstar c re.tail text
    else if c = dollar ∧ re = [] then decide (text = [])
    else
      match text with
      | [] => false
      | a :: text => decide (c = dot ∨ c = a) && matchhere re text := by
  rw [matchhere.eq_def]

theorem matchstar_iff : matchstar c re text = true ↔
    ∃ u v, u ++ v = text ∧ (∀ a ∈ u, Fits c a) ∧ matchhere re v = true := by
  induction text with
  | nil =>
    rw [matchstar]
    simp
  | cons a text ih =>
    rw [matchstar]
    simp only [Bool.if_true_left, Bool.or_eq_true, Bool.and_eq_true, ih, decide_eq_true_eq]
    constructor
    · rintro (h | ⟨hfit, u, v, rfl, hu, h⟩)
      · exact ⟨[], _, rfl, nofun, h⟩
      · exact ⟨a :: u, v, rfl, forall_mem_cons.mpr ⟨hfit.symm.imp_right Eq.symm, hu⟩, h⟩
    · rintro ⟨u, v, huv, hu, h⟩
      cases u with
      | nil => exact .inl (huv ▸ h)
      | cons b u =>
        obtain ⟨rfl, rfl⟩ := cons.inj huv
        obtain ⟨hfit, hu⟩ := forall_mem_cons.mp hu
        exact .inr ⟨hfit.symm.imp_left Eq.symm, u, v, rfl, hu, h⟩

theorem mem_lang_star {w : List UInt8} : w ∈ Item.lang ⟨c, true⟩ ↔ ∀ a ∈ w, Fits c a := by
  constructor
  · rintro ⟨L, rfl, hL⟩ a ha
    obtain ⟨y, hy, hay⟩ := mem_flatten.mp ha
    obtain ⟨b, hb, rfl⟩ := hL y hy
    rwa [mem_singleton.mp hay]
  · intro hw
    refine ⟨w.map fun a => [a], by rw [← flatMap_def, flatMap_singleton'], fun y hy => ?_⟩
    obtain ⟨a, ha, rfl⟩ := mem_map.mp hy
    exact ⟨a, hw a ha, rfl⟩

theorem mem_lang_char {v : List UInt8} {xs : List Item} :
    v ∈ lang (⟨c, false⟩ :: xs) ↔ ∃ a u, Fits c a ∧ u ∈ lang xs ∧ v = a :: u := by
  constructor
  · rintro ⟨_, ⟨a, ha, rfl⟩, u, hu, rfl⟩
    exact ⟨a, u, ha, hu, rfl⟩
  · rintro ⟨a, u, ha, hu, rfl⟩
    exact ⟨[a], ⟨a, ha, rfl⟩, u, hu, rfl⟩

theorem matchhere_char {xs : List Item} {P : List UInt8 → Prop} (hstar : re.head? ≠ some star)
    (hend : ¬(c = dollar ∧ re = []))
    (ih : ∀ text, matchhere re text = true ↔ ∃ v w, v ++ w = text ∧ v ∈ lang xs ∧ P w) :
    matchhere (c :: re) text = true ↔
      ∃ v w, v ++ w = text ∧ v ∈ lang (⟨c, false⟩ :: xs) ∧ P w := by
  rw [matchhere_cons, if_neg hstar, if_neg hend]
  simp only [mem_lang_char]
  cases text with
  | nil =>
    refine iff_of_false nofun ?_
    rintro ⟨_, w, hvw, ⟨a, u, -, -, rfl⟩, -⟩
    cases hvw
  | cons a text =>
    simp only [Bool.and_eq_true, decide_eq_true_eq, ih]
    constructor
    · rintro ⟨hfit, v, w, rfl, hv, hw⟩
      exact ⟨a :: v, w, rfl, ⟨a, v, hfit, hv, rfl⟩, hw⟩
    · rintro ⟨_, w, hvw, ⟨b, u, hfit, hu, rfl⟩, hw⟩
      obtain ⟨rfl, rfl⟩ := cons.inj hvw
      exact ⟨hfit, u, w, rfl, hu, hw⟩

/-- `matchhere` finds a part at the beginning of the text, which is all of it if the
pattern ends in `$`. -/
theorem matchhere_iff : matchhere re text = true ↔
    ∃ v w, v ++ w = text ∧ v ∈ lang (items re).1 ∧ ((items re).2 = true → w = []) := by
  induction re using items.induct generalizing text with
  | case1 => exact iff_of_true matchhere_nil ⟨[], text, rfl, rfl, nofun⟩
  | case2 =>
    rw [matchhere_cons]
    simp [items, lang, Language.mem_one]
  | case3 c hc =>
    rw [items, if_neg hc]
    refine matchhere_char nofun (fun h => hc h.1) fun text => ?_
    exact iff_of_true matchhere_nil ⟨[], text, rfl, rfl, nofun⟩
  | case4 c re ih =>
    rw [matchhere_cons]
    simp only [head?_cons, if_true, tail_cons, matchstar_iff, ih, items, lang,
      map_cons, prod_cons, Language.mem_mul, mem_lang_star]
    constructor
    · rintro ⟨u, _, rfl, hu, v, w, rfl, hv, hw⟩
      exact ⟨u ++ v, w, append_assoc .., ⟨u, hu, v, hv, rfl⟩, hw⟩
    · rintro ⟨_, w, rfl, ⟨u, hu, v, hv, rfl⟩, hw⟩
      exact ⟨u, v ++ w, (append_assoc ..).symm, hu, v, w, rfl, hv, hw⟩
  | case5 c d re hd ih =>
    rw [items, if_neg hd]
    exact matchhere_char (fun h => hd (Option.some.inj h)) nofun fun _ => ih

theorem matchAny_iff : matchAny re text = true ↔ ∃ u v, u ++ v = text ∧ matchhere re v = true := by
  induction text with
  | nil => simp [matchAny]
  | cons a text ih =>
    rw [matchAny, Bool.or_eq_true, ih]
    constructor
    · rintro (h | ⟨u, v, rfl, h⟩)
      · exact ⟨[], _, rfl, h⟩
      · exact ⟨a :: u, v, rfl, h⟩
    · rintro ⟨u, v, huv, h⟩
      cases u with
      | nil => exact .inl (huv ▸ h)
      | cons b u => exact .inr ⟨u, v, (cons.inj huv).2, h⟩

/-- A text matches if a part of it is a concatenation of strings that the items match,
a part at the beginning after `^` and at the end before `$`. -/
theorem matchText_iff (re text : List UInt8) : matchText re text = true ↔
    let anchored := re.head? = some caret
    let (xs, atEnd) := items (if anchored then re.tail else re)
    ∃ u v w, u ++ v ++ w = text ∧ v ∈ lang xs ∧ (anchored → u = []) ∧ (atEnd = true → w = []) := by
  unfold matchText
  split_ifs with hcaret
  · simp only [matchhere_iff, hcaret, true_implies]
    constructor
    · rintro ⟨v, w, rfl, hv, hw⟩
      exact ⟨[], v, w, rfl, hv, rfl, hw⟩
    · rintro ⟨_, v, w, rfl, hv, rfl, hw⟩
      exact ⟨v, w, rfl, hv, hw⟩
  · simp only [matchAny_iff, matchhere_iff, hcaret, false_implies, true_and]
    constructor
    · rintro ⟨u, _, rfl, v, w, rfl, hv, hw⟩
      exact ⟨u, v, w, append_assoc .., hv, hw⟩
    · rintro ⟨u, v, w, rfl, hv, hw⟩
      exact ⟨u, v ++ w, (append_assoc ..).symm, v, w, rfl, hv, hw⟩

/-! ### The loop -/

/-- `strchr(p, '\n')`: the line before the newline and what is behind it. -/
def strchr : List UInt8 → Option (List UInt8 × List UInt8)
  | [] => none
  | c :: p =>
    if c = 0 then none
    else if c = newline then some ([], p)
    else (strchr p).map fun r => (c :: r.1, r.2)

theorem strchr_length (h : strchr p = some (line, rest)) :
    p = line ++ newline :: rest ∧ newline ∉ line := by
  induction p generalizing line with
  | nil => cases h
  | cons c p ih =>
    rw [strchr] at h
    split_ifs at h with h0 hc
    · cases h
      exact ⟨by rw [hc]; rfl, nofun⟩
    · obtain ⟨⟨line', rest'⟩, hp, heq⟩ := Option.map_eq_some_iff.mp h
      cases heq
      obtain ⟨rfl, hline⟩ := ih hp
      exact ⟨rfl, fun hmem => (mem_cons.mp hmem).elim (fun h => hc h.symm) hline⟩

def printed (pattern line : List UInt8) : List UInt8 :=
  if matchText pattern line then line ++ [newline] else []

/-- The inner loop: what it prints, and what it leaves of the buffer. -/
def printLines (pattern p : List UInt8) : List UInt8 × List UInt8 :=
  match _h : strchr p with
  | none => ([], p)
  | some (line, rest) =>
    (printed pattern line ++ (printLines pattern rest).1, (printLines pattern rest).2)
termination_by p.length
decreasing_by
  all_goals
    rw [(strchr_length _h).1, length_append, length_cons]
    omega

/-- The outer loop, with `kept` in the buffer before call `i` of `read`. -/
def grepLoop (pattern : List UInt8) (want : ℕ → ℕ) : (fuel i : ℕ) → (kept input : List UInt8) →
    Option (List UInt8)
  | 0, _, _, _ => none
  | fuel + 1, i, kept, input =>
    let n := min (1024 - kept.length - 1) (max 1 (want i))
    if (input.take n).length > 0 then
      let r := printLines pattern (kept ++ input.take n)
      (grepLoop pattern want fuel (i + 1) r.2 (input.drop n)).map fun out => r.1 ++ out
    else some []

def grep (pattern : List UInt8) (want : ℕ → ℕ) (input : List UInt8) : Option (List UInt8) :=
  grepLoop pattern want (input.length + 1) 0 [] input

variable {pattern : List UInt8} {want : ℕ → ℕ}

theorem printLines_none (h : strchr p = none) : printLines pattern p = ([], p) := by
  rw [printLines]
  split
  · rfl
  · rename_i hsome
    rw [h] at hsome
    cases hsome

theorem printLines_some (h : strchr p = some (line, rest)) :
    printLines pattern p =
      (printed pattern line ++ (printLines pattern rest).1, (printLines pattern rest).2) := by
  rw [printLines]
  split
  · rename_i hnone
    rw [h] at hnone
    cases hnone
  · rename_i hsome
    rw [h] at hsome
    cases hsome
    rfl

theorem strchr_line (h0 : 0 ∉ line) (hnl : newline ∉ line) :
    strchr (line ++ newline :: rest) = some (line, rest) := by
  induction line with
  | nil => rfl
  | cons c line ih =>
    rw [mem_cons, not_or] at h0 hnl
    rw [cons_append, strchr, if_neg (Ne.symm h0.1), if_neg (Ne.symm hnl.1), ih h0.2 hnl.2]
    rfl

theorem strchr_none (h : newline ∉ p) : strchr p = none := by
  cases hp : strchr p with
  | none => rfl
  | some r => exact absurd (by rw [(strchr_length hp).1]; simp) h

variable {ls : List (List UInt8)} {tail p : List UInt8}

theorem printLines_lines (hls : ∀ l ∈ ls, 0 ∉ l ∧ newline ∉ l) (htail : newline ∉ tail) :
    printLines pattern (ls.flatMap (· ++ [newline]) ++ tail) =
      ((ls.filter (matchText pattern)).flatMap (· ++ [newline]), tail) := by
  induction ls with
  | nil =>
    rw [flatMap_nil, nil_append, printLines_none (strchr_none htail)]
    rfl
  | cons l ls ih =>
    obtain ⟨hl, hls⟩ := forall_mem_cons.mp hls
    rw [flatMap_cons, append_assoc, append_assoc, singleton_append,
      printLines_some (strchr_line hl.1 hl.2), ih hls]
    by_cases hmatch : matchText pattern l <;> simp [printed, hmatch]

theorem prefix_line {l : List UInt8} (hp : p <+: l ++ [newline] ++ rest) :
    p <+: l ∨ l ++ [newline] <+: p := by
  rcases prefix_or_prefix_of_prefix hp (prefix_append ..) with h | h
  · rcases prefix_concat_iff.mp h with rfl | h
    · exact .inr prefix_rfl
    · exact .inl h
  · exact .inr h

theorem prefix_lines (hls : ∀ l ∈ ls, newline ∉ l) (htail : newline ∉ tail)
    (hp : p <+: ls.flatMap (· ++ [newline]) ++ tail) :
    ∃ ls₁ ls₂ kept, ls = ls₁ ++ ls₂ ∧ p = ls₁.flatMap (· ++ [newline]) ++ kept ∧
      newline ∉ kept := by
  induction ls generalizing p with
  | nil => exact ⟨[], [], p, rfl, rfl, fun hmem => htail (hp.subset hmem)⟩
  | cons l ls ih =>
    obtain ⟨hl, hls⟩ := forall_mem_cons.mp hls
    rw [flatMap_cons, append_assoc] at hp
    rcases prefix_line hp with h | ⟨p, rfl⟩
    · exact ⟨[], l :: ls, p, rfl, rfl, fun hmem => hl (h.subset hmem)⟩
    · obtain ⟨ls₁, ls₂, kept, rfl, rfl, hkept⟩ := ih hls ((prefix_append_right_inj _).mp hp)
      exact ⟨l :: ls₁, ls₂, kept, rfl, (append_assoc ..).symm, hkept⟩

theorem takeWhile_short {kept input : List UInt8} (hkept : newline ∉ kept)
    (htext : kept ++ input = ls.flatMap (· ++ [newline]) ++ tail)
    (hend : 1023 ≤ kept.length ∨ input = []) : ls.takeWhile (·.length ≤ 1022) = [] := by
  cases ls with
  | nil => rfl
  | cons l ls =>
    rw [flatMap_cons, append_assoc] at htext
    rcases prefix_line ⟨input, htext⟩ with h | ⟨v, rfl⟩
    · have hle := h.length_le
      rcases hend with hfull | rfl
      · exact takeWhile_cons_of_neg (by simp; omega)
      · rw [append_nil] at htext
        exact absurd (by simp [htext]) hkept
    · exact absurd (by simp) hkept

theorem grepLoop_eq {fuel i : ℕ} {kept input : List UInt8} (hls : ∀ l ∈ ls, 0 ∉ l ∧ newline ∉ l)
    (htail : newline ∉ tail) (htext : kept ++ input = ls.flatMap (· ++ [newline]) ++ tail)
    (hkept : newline ∉ kept) (hroom : kept.length ≤ 1023) (hfuel : input.length < fuel) :
    grepLoop pattern want fuel i kept input = some
      (((ls.takeWhile (·.length ≤ 1022)).filter (matchText pattern)).flatMap (· ++ [newline])) := by
  induction fuel generalizing i kept input ls with
  | zero => omega
  | succ fuel ih =>
    rw [grepLoop]
    generalize hn : min (1024 - kept.length - 1) (max 1 (want i)) = n
    dsimp only
    split_ifs with hread
    · rw [length_take] at hread
      have hsplit : (kept ++ input.take n) ++ input.drop n =
          ls.flatMap (· ++ [newline]) ++ tail := by
        rw [append_assoc, take_append_drop, htext]
      obtain ⟨ls₁, ls₂, kept', rfl, hp, hkept'⟩ :=
        prefix_lines (fun l hl => (hls l hl).2) htail ⟨_, hsplit⟩
      have hlen := congrArg length hp
      rw [length_append, length_append, length_take] at hlen
      rw [hp, flatMap_append, append_assoc, append_assoc] at hsplit
      obtain ⟨hls₁, hls₂⟩ := forall_mem_append.mp hls
      rw [hp, printLines_lines hls₁ hkept', ih hls₂ (append_cancel_left hsplit) hkept'
        (by omega) (by rw [length_drop]; omega), Option.map_some, ← flatMap_append,
        ← filter_append, takeWhile_append_of_pos]
      intro l hl
      have hline := (sublist_flatten_of_mem
        (mem_map_of_mem (f := (· ++ [newline])) hl)).length_le
      rw [← flatMap_def, length_append, length_singleton] at hline
      exact decide_eq_true (by omega)
    · rw [takeWhile_short hkept htext]
      · rfl
      · rw [length_take] at hread
        rw [← length_eq_zero_iff]
        omega

theorem grep_eq (pattern : List UInt8) (want : ℕ → ℕ) (hls : ∀ l ∈ ls, 0 ∉ l ∧ newline ∉ l)
    (htail : newline ∉ tail) : grep pattern want (ls.flatMap (· ++ [newline]) ++ tail) = some
      (((ls.takeWhile (·.length ≤ 1022)).filter (matchText pattern)).flatMap (· ++ [newline])) :=
  grepLoop_eq hls htail rfl not_mem_nil (Nat.zero_le _) (Nat.lt_succ_self _)

/-- The lines that match are printed, each once and in order and whatever pieces the input
comes in, if and only if no line does that is a last one without a newline, or that does not
fit into the buffer, or that comes behind such a line. -/
theorem grep_prints_matches (pattern : List UInt8) (want : ℕ → ℕ) {ls : List (List UInt8)}
    {tail : List UInt8} (hls : ∀ l ∈ ls, 0 ∉ l ∧ newline ∉ l) (htail : 0 ∉ tail ∧ newline ∉ tail) :
    grep pattern want (ls.flatMap (· ++ [newline]) ++ tail) =
      some ((ls.filter (matchText pattern)).flatMap (· ++ [newline]) ++
        if tail ≠ [] ∧ matchText pattern tail then tail else []) ↔
    (∀ l ∈ ls.dropWhile (·.length ≤ 1022), matchText pattern l = false) ∧
      (tail ≠ [] → matchText pattern tail = false) := by
  have hfilter : ls.filter (matchText pattern) =
      (ls.takeWhile (·.length ≤ 1022)).filter (matchText pattern) ++
        (ls.dropWhile (·.length ≤ 1022)).filter (matchText pattern) := by
    rw [← filter_append, takeWhile_append_dropWhile]
  rw [grep_eq pattern want hls htail.2, hfilter, flatMap_append, append_assoc,
    Option.some.injEq, self_eq_append_right, append_eq_nil_iff]
  refine and_congr ?_ ?_
  · rw [flatMap_eq_nil_iff]
    simp
  · by_cases hmatch : matchText pattern tail <;> simp [hmatch]

/-- Two lines, of which the second begins with `b`, in pieces of two bytes. -/
theorem grep_prints_matches_second :
    grep [caret, 98] (fun _ => 2) ([[97], [98, 98]].flatMap (· ++ [newline]) ++ []) =
      some [98, 98, newline] := by
  rw [(grep_prints_matches [caret, 98] (fun _ => 2) (by decide) (by decide)).mpr ⟨by simp, by simp⟩]
  simp [filter, matchText, matchhere_cons, matchhere_nil, caret, dollar, star, dot]

/-- A last line without a newline is not printed, although it matches. -/
theorem grep_drops_last : matchText [98] [98] = true ∧ grep [98] (fun _ => 1) [98] = some [] := by
  refine ⟨by simp [matchText, matchAny, matchhere_cons, matchhere_nil], ?_⟩
  have hnone : printLines [98] [98] = ([], [98]) := printLines_none rfl
  simp [grep, grepLoop, hnone]

end Xv6.Grep
