import Mathlib

/-!
The parser of the shell (`user/sh.c`), which undoes printing.

A cursor is what is left of the line. A word is the pair of the places in the line where it
begins and ends; `n` is the length of the line. `parseexec` goes on filling its node after
`parseredirs` has wrapped it, so the redirections are collected and the node is wrapped at the
end. The depth of the recursion is bounded by `fuel`.
-/

namespace Xv6.Sh

open List
open Function (update update_apply)

def MAXARGS : ℕ := 10

abbrev less : UInt8 := 60
abbrev greater : UInt8 := 62
abbrev bar : UInt8 := 124
abbrev amp : UInt8 := 38
abbrev semi : UInt8 := 59
abbrev lparen : UInt8 := 40
abbrev rparen : UInt8 := 41

def whitespace : List UInt8 := [32, 9, 13, 10, 11]
def symbols : List UInt8 := [less, bar, greater, amp, semi, lparen, rparen]

/-- `<`, `>` and `>>`, each with its mode and file descriptor. -/
inductive Dir
  | input
  | output
  | append

inductive Cmd (α : Type)
  | exec (argv : List α)
  | redir (cmd : Cmd α) (dir : Dir) (file : α)
  | pipe (left right : Cmd α)
  | list (left right : Cmd α)
  | back (cmd : Cmd α)

inductive Panic
  | missingFile
  | parseblock
  | missingParen
  | unexpected
  | tooManyArgs
  | leftovers
  | depth

/-! ### Tokens -/

inductive Kind
  | eof
  | sym (c : UInt8)
  | append
  | word
  deriving DecidableEq

structure Token where
  kind : Kind
  q : List UInt8
  eq : List UInt8
  next : List UInt8

def isWord (c : UInt8) : Bool := c ∉ whitespace ∧ c ∉ symbols

def skip (s : List UInt8) : List UInt8 := s.dropWhile (· ∈ whitespace)

def token : List UInt8 → Kind × List UInt8
  | [] => (.eof, [])
  | c :: s =>
    if c = greater then if s.head? = some greater then (.append, s.tail) else (.sym c, s)
    else if c ∈ symbols then (.sym c, s)
    else (.word, (c :: s).dropWhile isWord)

def gettoken (s : List UInt8) : Token :=
  ⟨(token (skip s)).1, skip s, (token (skip s)).2, skip (token (skip s)).2⟩

def peek (toks s : List UInt8) : Bool × List UInt8 := ((skip s).head?.any (· ∈ toks), skip s)

/-! ### The parser -/

abbrev Word := ℕ × ℕ

def Token.place (n : ℕ) (t : Token) : Word := (n - t.q.length, n - t.eq.length)

def Kind.dir : Kind → Dir
  | .append => .append
  | .sym c => if c = less then .input else .output
  | _ => .output

def wrap {α : Type} (cmd : Cmd α) (rs : List (Dir × α)) : Cmd α :=
  rs.foldl (fun cmd r => .redir cmd r.1 r.2) cmd

def parseredirs (n : ℕ) : ℕ → List UInt8 → Except Panic (List (Dir × Word) × List UInt8)
  | 0, _ => .error .depth
  | fuel + 1, s =>
    let p := peek [less, greater] s
    if p.1 then
      let t := gettoken p.2
      let f := gettoken t.next
      if f.kind ≠ .word then .error .missingFile
      else do
        let r ← parseredirs n fuel f.next
        return ((t.kind.dir, f.place n) :: r.1, r.2)
    else return ([], p.2)

def argLoop (n : ℕ) : ℕ → List Word → List (Dir × Word) → List UInt8 →
    Except Panic (Cmd Word × List UInt8)
  | 0, _, _, _ => .error .depth
  | fuel + 1, argv, rs, s => do
      let r ← parseredirs n fuel s
      let p := peek [bar, rparen, amp, semi] r.2
      let t := gettoken p.2
      if p.1 then return (wrap (.exec argv) (rs ++ r.1), p.2)
      else if t.kind = .eof then return (wrap (.exec argv) (rs ++ r.1), t.next)
      else if t.kind ≠ .word then throw .unexpected
      else if argv.length + 1 ≥ MAXARGS then throw .tooManyArgs
      else argLoop n fuel (argv ++ [t.place n]) (rs ++ r.1) t.next

def backLoop : ℕ → Cmd Word → List UInt8 → Except Panic (Cmd Word × List UInt8)
  | 0, _, _ => .error .depth
  | fuel + 1, cmd, s =>
    let p := peek [amp] s
    if p.1 then backLoop fuel (.back cmd) (gettoken p.2).next else return (cmd, p.2)

mutual

def parseline (n : ℕ) : ℕ → List UInt8 → Except Panic (Cmd Word × List UInt8)
  | 0, _ => .error .depth
  | fuel + 1, s => do
      let c ← parseback n fuel s
      let p := peek [semi] c.2
      if p.1 then
        let r ← parseline n fuel (gettoken p.2).next
        return (.list c.1 r.1, r.2)
      else return (c.1, p.2)

def parseback (n : ℕ) : ℕ → List UInt8 → Except Panic (Cmd Word × List UInt8)
  | 0, _ => .error .depth
  | fuel + 1, s => do
      let c ← parsepipe n fuel s
      backLoop fuel c.1 c.2

def parsepipe (n : ℕ) : ℕ → List UInt8 → Except Panic (Cmd Word × List UInt8)
  | 0, _ => .error .depth
  | fuel + 1, s => do
      let c ← parseexec n fuel s
      let p := peek [bar] c.2
      if p.1 then
        let r ← parsepipe n fuel (gettoken p.2).next
        return (.pipe c.1 r.1, r.2)
      else return (c.1, p.2)

def parseexec (n : ℕ) : ℕ → List UInt8 → Except Panic (Cmd Word × List UInt8)
  | 0, _ => .error .depth
  | fuel + 1, s =>
    let p := peek [lparen] s
    if p.1 then parseblock n fuel p.2 else argLoop n fuel [] [] p.2

def parseblock (n : ℕ) : ℕ → List UInt8 → Except Panic (Cmd Word × List UInt8)
  | 0, _ => .error .depth
  | fuel + 1, s =>
    let p := peek [lparen] s
    if ¬p.1 then .error .parseblock
    else do
      let c ← parseline n fuel (gettoken p.2).next
      let p := peek [rparen] c.2
      if ¬p.1 then throw .missingParen
      else
        let r ← parseredirs n fuel (gettoken p.2).next
        return (wrap c.1 r.1, r.2)

end

def nulterminate : Cmd Word → (ℕ → UInt8) → ℕ → UInt8
  | .exec argv, buf => argv.foldl (fun buf w => update buf w.2 0) buf
  | .redir cmd _ file, buf => update (nulterminate cmd buf) file.2 0
  | .pipe left right, buf | .list left right, buf => nulterminate right (nulterminate left buf)
  | .back cmd, buf => nulterminate cmd buf

/-- The command, and the line after `nulterminate`. -/
def parsecmd (fuel : ℕ) (line : List UInt8) : Except Panic (Cmd Word × (ℕ → UInt8)) := do
  let c ← parseline line.length fuel line
  if (peek [] c.2).2 ≠ [] then throw .leftovers
  else return (c.1, nulterminate c.1 fun i => line.getD i 0)

/-! ### Printing -/

inductive Tok
  | word (w : List UInt8)
  | sym (c : UInt8)
  | append

def Tok.text : Tok → List UInt8
  | .word w => w
  | .sym c => [c]
  | .append => [greater, greater]

def Tok.kind : Tok → Kind
  | .word _ => .word
  | .sym c => .sym c
  | .append => .append

def Tok.Ok : Tok → Prop
  | .word w => w ≠ [] ∧ ∀ c ∈ w, isWord c ∧ c ≠ 0
  | .sym c => c ∈ symbols
  | .append => True

def Tok.Clear (s : List UInt8) : Tok → Prop
  | .word _ => ∀ c ∈ s.head?, ¬isWord c
  | .sym c => c = greater → s.head? ≠ some greater
  | .append => True

/-- The text of the tokens, with whitespace anywhere between them. -/
inductive Spaced : List Tok → List UInt8 → Prop
  | nil : Spaced [] []
  | space {ts c s} (hc : c ∈ whitespace) (h : Spaced ts s) : Spaced ts (c :: s)
  | tok {t ts s} (ht : t.Ok) (hs : t.Clear s) (h : Spaced ts s) : Spaced (t :: ts) (t.text ++ s)

def Dir.tok : Dir → Tok
  | .input => .sym less
  | .output => .sym greater
  | .append => .append

/-- How loosely a command binds. -/
def Cmd.level {α : Type} : Cmd α → ℕ
  | .exec _ | .redir .. => 0
  | .pipe .. => 1
  | .back _ => 2
  | .list .. => 3

def paren (k : ℕ) (c : Cmd (List UInt8)) (ts : List Tok) : List Tok :=
  if c.level ≤ k then ts else .sym lparen :: ts ++ [.sym rparen]

def print : Cmd (List UInt8) → List Tok
  | .exec argv => argv.map .word
  | .redir cmd dir file => paren 0 cmd (print cmd) ++ [dir.tok, .word file]
  | .pipe left right => paren 0 left (print left) ++ .sym bar :: paren 1 right (print right)
  | .list left right => paren 2 left (print left) ++ .sym semi :: print right
  | .back cmd => paren 2 cmd (print cmd) ++ [.sym amp]

def Cmd.Short {α : Type} : Cmd α → Prop
  | .exec argv => argv.length < MAXARGS
  | .redir cmd _ _ | .back cmd => cmd.Short
  | .pipe left right | .list left right => left.Short ∧ right.Short

inductive Cmd.Rel {α β : Type} (R : α → β → Prop) : Cmd α → Cmd β → Prop
  | exec {a b} (h : Forall₂ R a b) : Rel R (.exec a) (.exec b)
  | redir {c d k f g} (h : Rel R c d) (hf : R f g) : Rel R (.redir c k f) (.redir d k g)
  | pipe {c d c' d'} (h : Rel R c d) (h' : Rel R c' d') : Rel R (.pipe c c') (.pipe d d')
  | list {c d c' d'} (h : Rel R c d) (h' : Rel R c' d') : Rel R (.list c c') (.list d d')
  | back {c d} (h : Rel R c d) : Rel R (.back c) (.back d)

/-! ### The cursor -/

theorem Tok.Ok.head {t : Tok} (ht : t.Ok) : ∃ c s, t.text = c :: s ∧ c ∉ whitespace := by
  cases t with
  | word w =>
    obtain ⟨hw, hc⟩ := ht
    obtain ⟨c, w, rfl⟩ := exists_cons_of_ne_nil hw
    have := (hc c (by simp)).1
    exact ⟨c, w, rfl, by simp_all [isWord]⟩
  | sym c =>
    have hs : ∀ c ∈ symbols, c ∉ whitespace := by decide +kernel
    exact ⟨c, [], rfl, hs c ht⟩
  | append => exact ⟨greater, [greater], rfl, by decide⟩

theorem skip_of_head {c : UInt8} {s : List UInt8} (hc : c ∉ whitespace) :
    skip (c :: s) = c :: s := by
  simp [skip, hc]

theorem Spaced.skip {ts : List Tok} {s : List UInt8} (h : Spaced ts s) : Spaced ts (skip s) := by
  induction h with
  | nil => exact .nil
  | space hc _ ih => simpa [Sh.skip, hc] using ih
  | tok ht hs h _ =>
    obtain ⟨c, w, hw, hc⟩ := ht.head
    have h' := Spaced.tok ht hs h
    rw [hw, cons_append] at h' ⊢
    rwa [skip_of_head hc]

theorem Spaced.first {t : Tok} {ts : List Tok} {s : List UInt8} (h : Spaced (t :: ts) s) :
    t.Ok ∧ ∃ s', Sh.skip s = t.text ++ s' ∧ t.Clear s' ∧ Spaced ts s' := by
  generalize hl : t :: ts = l at h
  induction h with
  | nil => cases hl
  | space hc _ ih => simpa [Sh.skip, hc] using ih hl
  | tok ht hs h _ =>
    cases hl
    obtain ⟨c, w, hw, hc⟩ := ht.head
    refine ⟨ht, _, ?_, hs, h⟩
    rw [hw, cons_append, skip_of_head hc]

theorem Spaced.last {s : List UInt8} (h : Spaced [] s) : Sh.skip s = [] := by
  generalize hl : ([] : List Tok) = l at h
  induction h with
  | nil => rfl
  | space hc _ ih => simpa [Sh.skip, hc] using ih hl
  | tok => cases hl

theorem token_text {t : Tok} {s : List UInt8} (ht : t.Ok) (hs : t.Clear s) :
    token (t.text ++ s) = (t.kind, s) := by
  cases t with
  | word w =>
    obtain ⟨hw, hc⟩ := ht
    have hd : (w ++ s).dropWhile isWord = s := by
      rw [dropWhile_append_of_pos fun c h => (hc c h).1]
      cases s with
      | nil => rfl
      | cons c s => exact dropWhile_cons_of_neg (hs c rfl)
    obtain ⟨c, w, rfl⟩ := exists_cons_of_ne_nil hw
    have hcs : c ∉ symbols := by
      have := (hc c (by simp)).1
      simp_all [isWord]
    have hg : c ≠ greater := by rintro rfl; exact hcs (by decide)
    simp only [Tok.text, cons_append] at hd ⊢
    simp only [token, if_neg hg, if_neg hcs, hd, Tok.kind]
  | sym c =>
    have hc : c ∈ symbols := ht
    simp only [Tok.text, singleton_append, token, hc, if_true, Tok.kind]
    by_cases hg : c = greater
    · rw [if_pos hg, if_neg (hs hg)]
    · rw [if_neg hg]
  | append => simp [Tok.text, token, Tok.kind]

/-- The cursor stands before these tokens. -/
def At (line : List UInt8) (ts : List Tok) (s : List UInt8) : Prop :=
  Spaced ts s ∧ s <:+ line

/-- The places bound the word, which ends there. -/
def Denotes (line : List UInt8) (p : Word) (w : List UInt8) : Prop :=
  (Tok.word w).Ok ∧ ∃ l r, line = l ++ (w ++ r) ∧ p = (l.length, l.length + w.length) ∧
    (Tok.word w).Clear r

section Cursor

variable {line s toks : List UInt8} {t : Tok} {ts : List Tok}

theorem skip_suffix (s : List UInt8) : skip s <:+ s := dropWhile_suffix _

theorem At.skip (h : At line ts s) : At line ts (skip s) :=
  ⟨h.1.skip, (skip_suffix s).trans h.2⟩

theorem At.peek_yes {c : UInt8} (h : At line (.sym c :: ts) s) (hc : c ∈ toks) :
    (peek toks s).1 = true ∧ At line (.sym c :: ts) (peek toks s).2 := by
  obtain ⟨-, r, hr, -⟩ := h.1.first
  exact ⟨by simp [peek, hr, Tok.text, hc], h.skip⟩

def Avoids (toks : List UInt8) (ts : List Tok) : Prop :=
  ∀ t ∈ ts.head?, ∀ c ∈ t.text.head?, c ∉ toks

theorem At.peek_no (toks : List UInt8) (h : At line ts s) (hn : Avoids toks ts) :
    (peek toks s).1 = false ∧ At line ts (peek toks s).2 := by
  refine ⟨?_, h.skip⟩
  cases ts with
  | nil => simp [peek, h.1.last]
  | cons t ts =>
    obtain ⟨ht, r, hr, -⟩ := h.1.first
    obtain ⟨c, w, hw, -⟩ := ht.head
    have := hn t rfl c (by simp [hw])
    simp [peek, hr, hw, this]

theorem At.gettoken (h : At line (t :: ts) s) :
    (gettoken s).kind = t.kind ∧ At line ts (gettoken s).next ∧
      ∀ w, t = .word w → Denotes line ((gettoken s).place line.length) w := by
  obtain ⟨ht, r, hr, hc, hs⟩ := h.1.first
  have htok : token (Sh.skip s) = (t.kind, r) := by rw [hr, token_text ht hc]
  have hsuf : t.text ++ r <:+ line := hr ▸ h.skip.2
  have hrl : r <:+ line := (suffix_append _ _).trans hsuf
  refine ⟨by simp [Sh.gettoken, htok], ?_, ?_⟩
  · simpa [Sh.gettoken, htok] using At.skip ⟨hs, hrl⟩
  · rintro w rfl
    obtain ⟨l, hl⟩ := hsuf
    refine ⟨ht, l, r, hl.symm, ?_, hc⟩
    have hlen : line.length = l.length + (w.length + r.length) := by simp [← hl, Tok.text]
    simp only [Sh.gettoken, Token.place, htok]
    simp only [hr, Tok.text, length_append, Prod.mk.injEq]
    omega

theorem At.eof (h : At line [] s) :
    (Sh.gettoken s).kind = .eof ∧ At line [] (Sh.gettoken s).next := by
  have hl : Sh.gettoken s = ⟨.eof, [], [], []⟩ := by
    simp only [Sh.gettoken, h.1.last]
    rfl
  rw [hl]
  exact ⟨rfl, .nil, nil_suffix⟩

end Cursor

/-! ### Reading -/

@[simp] theorem ok_bind {α β : Type} (a : α) (f : α → Except Panic β) :
    (Except.ok a >>= f) = f a := rfl

@[simp] theorem pure_eq {α : Type} (a : α) : (pure a : Except Panic α) = .ok a := rfl

def redirToks (rs : List (Dir × List UInt8)) : List Tok :=
  rs.flatMap fun r => [r.1.tok, .word r.2]

def RedirRel (line : List UInt8) (p : Dir × Word) (r : Dir × List UInt8) : Prop :=
  p.1 = r.1 ∧ Denotes line p.2 r.2

theorem wrap_rel {line : List UInt8} {c : Cmd Word} {d : Cmd (List UInt8)}
    {out : List (Dir × Word)} {rs : List (Dir × List UInt8)} (hc : Cmd.Rel (Denotes line) c d)
    (h : Forall₂ (RedirRel line) out rs) :
    Cmd.Rel (Denotes line) (wrap c out) (wrap d rs) := by
  induction h generalizing c d with
  | nil => exact hc
  | @cons p r _ _ hr _ ih =>
    obtain ⟨p, f⟩ := p
    obtain ⟨rfl, hf⟩ := hr
    exact ih (.redir hc hf)

/-- What `peek` says of the tokens that may follow is decided by their symbols. -/
def Follows (cs : List UInt8) (ts : List Tok) : Prop :=
  ∀ t ∈ ts.head?, ∃ c ∈ cs, t = .sym c

theorem Follows.avoids {cs toks : List UInt8} {ts : List Tok} (h : Follows cs ts)
    (hd : ∀ c ∈ cs, c ∉ toks) : Avoids toks ts := by
  intro t ht c hc
  obtain ⟨c', hc', rfl⟩ := h t ht
  simp only [Tok.text, head?_cons, Option.mem_some_iff] at hc
  exact hc ▸ hd c' hc'

theorem Follows.mono {cs cs' : List UInt8} {ts : List Tok} (h : Follows cs ts)
    (hd : ∀ c ∈ cs, c ∈ cs') : Follows cs' ts := fun t ht =>
  let ⟨c, hc, ht⟩ := h t ht
  ⟨c, hd c hc, ht⟩

theorem avoids_word {w toks : List UInt8} {ts : List Tok} (hw : (Tok.word w).Ok)
    (hd : ∀ c ∈ toks, c ∈ symbols) : Avoids toks (.word w :: ts) := by
  rintro t ⟨⟩ c hc ht
  have := (hw.2 c (mem_of_mem_head? hc)).1
  simp_all [isWord]

theorem follows_sym {cs : List UInt8} {c : UInt8} {ts : List Tok} (h : c ∈ cs) :
    Follows cs (.sym c :: ts) := by
  rintro t ⟨⟩
  exact ⟨c, h, rfl⟩

theorem Dir.tok_kind (d : Dir) : d.tok.kind.dir = d := by
  cases d <;> rfl

theorem At.peek_redir {line s : List UInt8} {d : Dir} {ts : List Tok}
    (h : At line (d.tok :: ts) s) :
    (peek [less, greater] s).1 = true ∧ At line (d.tok :: ts) (peek [less, greater] s).2 := by
  obtain ⟨-, r, hr, -⟩ := h.1.first
  refine ⟨?_, h.skip⟩
  cases d <;> simp [peek, hr, Dir.tok, Tok.text]

theorem parseredirs_reads {line : List UInt8} {rest : List Tok}
    (hrest : Avoids [less, greater] rest) (rs : List (Dir × List UInt8)) {k : ℕ}
    {s : List UInt8} (hk : rs.length < k) (h : At line (redirToks rs ++ rest) s) :
    ∃ out s', parseredirs line.length k s = .ok (out, s') ∧ At line rest s' ∧
      Forall₂ (RedirRel line) out rs := by
  induction rs generalizing k s with
  | nil =>
    obtain ⟨k, rfl⟩ := Nat.exists_eq_add_of_lt hk
    obtain ⟨hp, h⟩ := h.peek_no _ hrest
    exact ⟨[], _, by simp [parseredirs, hp], h, .nil⟩
  | cons r rs ih =>
    obtain ⟨k, rfl⟩ := Nat.exists_eq_succ_of_ne_zero hk.ne_bot
    obtain ⟨hp, h⟩ := At.peek_redir (d := r.1) h
    obtain ⟨hd, h, -⟩ := h.gettoken
    obtain ⟨hw, h, hden⟩ := At.gettoken (t := .word r.2) h
    obtain ⟨out, s', hout, h, hrs⟩ := ih (by simpa using hk) h
    refine ⟨(r.1, _) :: out, s', ?_, h, .cons ⟨rfl, hden _ rfl⟩ hrs⟩
    rw [Tok.kind] at hw
    simp [parseredirs, hp, hd, hw, hout, Dir.tok_kind, Token.place]

theorem argLoop_reads {line : List UInt8} {rest : List Tok}
    (hrest : Follows [bar, rparen, amp, semi] rest) (rs : List (Dir × List UInt8))
    (ws : List (List UInt8)) {k : ℕ} {s : List UInt8} {argv : List Word}
    {args : List (List UInt8)} (hk : ws.length + rs.length + 1 < k)
    (hn : args.length + ws.length < MAXARGS) (ha : Forall₂ (Denotes line) argv args)
    (h : At line (ws.map .word ++ (redirToks rs ++ rest)) s) :
    ∃ t s', argLoop line.length k argv [] s = .ok (t, s') ∧ At line rest s' ∧
      Cmd.Rel (Denotes line) t (wrap (.exec (args ++ ws)) rs) := by
  induction ws generalizing k s argv args with
  | nil =>
    obtain ⟨k, rfl⟩ := Nat.exists_eq_succ_of_ne_zero hk.ne_bot
    obtain ⟨out, s', hout, h, hrs⟩ :=
      parseredirs_reads (hrest.avoids (by decide +kernel)) rs (k := k) (by simp at hk; omega) h
    have hrel := wrap_rel (.exec ha) hrs
    rw [append_nil]
    -- the loop stops at a symbol or at the end of the line
    cases rest with
    | nil =>
      obtain ⟨hp, h⟩ := h.peek_no [bar, rparen, amp, semi] nofun
      obtain ⟨he, h⟩ := h.eof
      exact ⟨_, _, by simp [argLoop, hout, hp, he], h, hrel⟩
    | cons t rest =>
      obtain ⟨c, hc, rfl⟩ := hrest t rfl
      obtain ⟨hp, h⟩ := h.peek_yes hc
      exact ⟨_, _, by simp [argLoop, hout, hp], h, hrel⟩
  | cons w ws ih =>
    obtain ⟨k, rfl⟩ := Nat.exists_eq_succ_of_ne_zero hk.ne_bot
    have hw : (Tok.word w).Ok := h.1.first.1
    obtain ⟨out, s', hout, h, ⟨⟩⟩ :=
      parseredirs_reads (avoids_word hw (by decide +kernel)) [] (k := k) (by simp; omega) h
    obtain ⟨hp, h⟩ := h.peek_no [bar, rparen, amp, semi] (avoids_word hw (by decide +kernel))
    obtain ⟨hd, h, hden⟩ := h.gettoken
    have hlen := ha.length_eq
    obtain ⟨t, s', ht, h, hrel⟩ := ih (k := k)
      (by simp at hk; omega) (by simp at hn ⊢; omega)
      (rel_append ha (.cons (hden w rfl) .nil)) h
    refine ⟨t, s', ?_, h, by simpa using hrel⟩
    have hmax : ¬MAXARGS ≤ argv.length + 1 := by simp at hn; omega
    simpa [argLoop, hout, hp, hd, Tok.kind, hmax] using ht

/-- A routine of the parser that reads the command from the tokens, given enough fuel, whenever
one of the symbols or the end of the line follows. -/
def Reads (cs : List UInt8) (f : ℕ → ℕ → List UInt8 → Except Panic (Cmd Word × List UInt8))
    (ts : List Tok) (c : Cmd (List UInt8)) : Prop :=
  ∃ N, ∀ k ≥ N, ∀ line rest s, Follows cs rest → At line (ts ++ rest) s →
    ∃ t s', f line.length k s = .ok (t, s') ∧ At line rest s' ∧ Cmd.Rel (Denotes line) t c

/-- `parsepipe` and `parseline`: `g` joins what `f` reads, to the right, at each separator. -/
def Joins (sep : UInt8) (op : Cmd Word → Cmd Word → Cmd Word)
    (f g : ℕ → ℕ → List UInt8 → Except Panic (Cmd Word × List UInt8)) : Prop :=
  ∀ n k s c s', f n k s = .ok (c, s') → g n (k + 1) s =
    if (peek [sep] s').1 then do
      let r ← g n k (gettoken (peek [sep] s').2).next
      return (op c r.1, r.2)
    else return (c, (peek [sep] s').2)

theorem joins_pipe : Joins bar .pipe parseexec parsepipe := by
  intro n k s c s' h
  simp [parsepipe, h]

theorem joins_list : Joins semi .list parseback parseline := by
  intro n k s c s' h
  simp [parseline, h]

section Routines

variable {cs ds : List UInt8} {sep : UInt8} {op : Cmd Word → Cmd Word → Cmd Word}
  {f g : ℕ → ℕ → List UInt8 → Except Panic (Cmd Word × List UInt8)}
  {ts ts' : List Tok} {c c' d : Cmd (List UInt8)}

theorem Joins.reads (hj : Joins sep op f g) (hsep : sep ∈ cs)
    (hop : ∀ line t t', Cmd.Rel (Denotes line) t c → Cmd.Rel (Denotes line) t' c' →
      Cmd.Rel (Denotes line) (op t t') d)
    (hc : Reads cs f ts c) (hc' : Reads ds g ts' c') : Reads ds g (ts ++ .sym sep :: ts') d := by
  obtain ⟨N, hN⟩ := hc
  obtain ⟨N', hN'⟩ := hc'
  refine ⟨N + N' + 1, fun k hk line rest s hrest h => ?_⟩
  obtain ⟨k, rfl⟩ := Nat.exists_eq_add_of_le' (Nat.le_of_add_left_le hk : 1 ≤ k)
  rw [append_assoc, cons_append] at h
  obtain ⟨t, s', ht, h, hrel⟩ := hN k (by omega) _ _ _ (follows_sym hsep) h
  obtain ⟨hp, h⟩ := h.peek_yes (mem_singleton_self sep)
  obtain ⟨-, h, -⟩ := h.gettoken
  obtain ⟨t', s', ht', h, hrel'⟩ := hN' k (by omega) _ _ _ hrest h
  exact ⟨_, s', by simp [hj _ _ _ _ _ ht, hp, ht'], h, hop _ _ _ hrel hrel'⟩

theorem Joins.reads_last (hj : Joins sep op f g) (hds : ∀ x ∈ ds, x ∈ cs ∧ x ≠ sep)
    (hc : Reads cs f ts c) : Reads ds g ts c := by
  obtain ⟨N, hN⟩ := hc
  refine ⟨N + 1, fun k hk line rest s hrest h => ?_⟩
  obtain ⟨k, rfl⟩ := Nat.exists_eq_add_of_le' (Nat.le_of_add_left_le hk : 1 ≤ k)
  obtain ⟨t, s', ht, h, hrel⟩ := hN k (by omega) _ _ _ (hrest.mono fun x hx => (hds x hx).1) h
  obtain ⟨hp, h⟩ := h.peek_no [sep] (hrest.avoids fun x hx => by simpa using (hds x hx).2)
  exact ⟨t, _, by simp [hj _ _ _ _ _ ht, hp], h, hrel⟩

theorem reads_args {ws : List (List UInt8)} (hws : ws.length < MAXARGS)
    (rs : List (Dir × List UInt8)) :
    Reads [bar, rparen, amp, semi] parseexec (ws.map .word ++ redirToks rs)
      (wrap (.exec ws) rs) := by
  refine ⟨ws.length + rs.length + 3, fun k hk line rest s hrest h => ?_⟩
  obtain ⟨k, rfl⟩ := Nat.exists_eq_add_of_le' (Nat.le_of_add_left_le hk : 1 ≤ k)
  rw [append_assoc] at h
  have ha : Avoids [lparen] (ws.map .word ++ (redirToks rs ++ rest)) := by
    cases ws with
    | cons w ws => exact avoids_word h.1.first.1 (by decide +kernel)
    | nil =>
      cases rs with
      | cons r rs =>
        rintro t ⟨⟩ c hc
        obtain ⟨d, f⟩ := r
        cases d <;> cases hc <;> decide
      | nil => exact hrest.avoids (by decide +kernel)
  obtain ⟨hp, h⟩ := h.peek_no _ ha
  obtain ⟨t, s', ht, h, hrel⟩ :=
    argLoop_reads hrest rs ws (k := k) (by omega) (by simpa using hws) .nil h
  exact ⟨t, s', by simpa [parseexec, hp] using ht, h, hrel⟩

theorem Reads.block (hc : Reads [rparen] parseline ts c) (rs : List (Dir × List UInt8)) :
    Reads [bar, rparen, amp, semi] parseexec (.sym lparen :: ts ++ [.sym rparen] ++ redirToks rs)
      (wrap c rs) := by
  obtain ⟨N, hN⟩ := hc
  refine ⟨N + rs.length + 3, fun k hk line rest s hrest h => ?_⟩
  obtain ⟨k, rfl⟩ := Nat.exists_eq_add_of_le' (Nat.le_of_add_left_le hk : 2 ≤ k)
  simp only [cons_append, append_assoc, nil_append] at h
  obtain ⟨hp, h⟩ := h.peek_yes (mem_singleton_self lparen)
  obtain ⟨hp', h⟩ := h.peek_yes (mem_singleton_self lparen)
  obtain ⟨-, h, -⟩ := h.gettoken
  obtain ⟨t, s', ht, h, hrel⟩ := hN k (by omega) _ _ _ (follows_sym (by simp)) h
  obtain ⟨hp'', h⟩ := h.peek_yes (mem_singleton_self rparen)
  obtain ⟨-, h, -⟩ := h.gettoken
  obtain ⟨out, s', hout, h, hrs⟩ :=
    parseredirs_reads (hrest.avoids (by decide +kernel)) rs (k := k) (by omega) h
  exact ⟨_, s', by simp [parseexec, parseblock, hp, hp', ht, hp'', hout], h, wrap_rel hrel hrs⟩

theorem backLoop_reads {line : List UInt8} {rest : List Tok} (hrest : Follows [rparen, semi] rest)
    (j : ℕ) {k : ℕ} {s : List UInt8} {t : Cmd Word} (hk : j < k)
    (hrel : Cmd.Rel (Denotes line) t c) (h : At line (replicate j (.sym amp) ++ rest) s) :
    ∃ t' s', backLoop k t s = .ok (t', s') ∧ At line rest s' ∧
      Cmd.Rel (Denotes line) t' (Cmd.back^[j] c) := by
  induction j generalizing k s t c with
  | zero =>
    obtain ⟨k, rfl⟩ := Nat.exists_eq_succ_of_ne_zero hk.ne_bot
    obtain ⟨hp, h⟩ := At.peek_no [amp] h (hrest.avoids (by decide +kernel))
    exact ⟨t, _, by simp [backLoop, hp], h, hrel⟩
  | succ j ih =>
    obtain ⟨k, rfl⟩ := Nat.exists_eq_succ_of_ne_zero hk.ne_bot
    obtain ⟨hp, h⟩ := At.peek_yes h (mem_singleton_self amp)
    obtain ⟨-, h, -⟩ := h.gettoken
    obtain ⟨t', s', ht, h⟩ := ih (Nat.succ_lt_succ_iff.1 hk) (.back hrel) h
    exact ⟨t', s', by simpa [backLoop, hp] using ht, h⟩

theorem Reads.back (hc : Reads [rparen, amp, semi] parsepipe ts c) (j : ℕ) :
    Reads [rparen, semi] parseback (ts ++ replicate j (.sym amp)) (Cmd.back^[j] c) := by
  obtain ⟨N, hN⟩ := hc
  refine ⟨N + j + 2, fun k hk line rest s hrest h => ?_⟩
  obtain ⟨k, rfl⟩ := Nat.exists_eq_add_of_le' (Nat.le_of_add_left_le hk : 1 ≤ k)
  rw [append_assoc] at h
  have hamp : Follows [rparen, amp, semi] (replicate j (.sym amp) ++ rest) := by
    cases j with
    | zero => exact hrest.mono (by decide +kernel)
    | succ j => exact follows_sym (by simp)
  obtain ⟨t, s', ht, h, hrel⟩ := hN k (by omega) _ _ _ hamp h
  obtain ⟨t', s', ht', h, hrel⟩ := backLoop_reads hrest j (k := k) (by omega) hrel h
  exact ⟨t', s', by simp [parseback, ht, ht'], h, hrel⟩

theorem Reads.pipe (hc : ∀ rs, Reads [bar, rparen, amp, semi] parseexec (ts ++ redirToks rs)
    (wrap c rs)) : Reads [rparen, amp, semi] parsepipe ts c := by
  have := hc []
  rw [redirToks, flatMap_nil, append_nil] at this
  exact joins_pipe.reads_last (by decide +kernel) this

theorem Reads.line (hc : ∀ j, Reads [rparen, semi] parseback
    (ts ++ replicate j (.sym amp)) (Cmd.back^[j] c)) : Reads [rparen] parseline ts c := by
  have := hc 0
  rw [replicate_zero, append_nil] at this
  exact joins_list.reads_last (by decide +kernel) this

end Routines

/-- What each routine reads from the printed command, in the position the routine is for. -/
structure Parses (c : Cmd (List UInt8)) : Prop where
  exec : ∀ rs, Reads [bar, rparen, amp, semi] parseexec (paren 0 c (print c) ++ redirToks rs)
    (wrap c rs)
  pipe : Reads [rparen, amp, semi] parsepipe (paren 1 c (print c)) c
  back : ∀ j, Reads [rparen, semi] parseback
    (paren 2 c (print c) ++ replicate j (.sym amp)) (Cmd.back^[j] c)
  line : Reads [rparen] parseline (print c) c

section Parses

variable {c : Cmd (List UInt8)}

theorem Parses.of_line (hline : Reads [rparen] parseline (print c) c)
    (hexec : c.level = 0 → ∀ rs, Reads [bar, rparen, amp, semi] parseexec
      (print c ++ redirToks rs) (wrap c rs))
    (hpipe : c.level ≤ 1 → Reads [rparen, amp, semi] parsepipe (print c) c)
    (hback : c.level ≤ 2 → ∀ j, Reads [rparen, semi] parseback
      (print c ++ replicate j (.sym amp)) (Cmd.back^[j] c)) : Parses c := by
  have hblock := Reads.pipe hline.block
  refine ⟨fun rs => ?_, ?_, fun j => ?_, hline⟩
  · unfold paren
    split_ifs with h
    · exact hexec (Nat.le_zero.1 h) rs
    · exact hline.block rs
  · unfold paren
    split_ifs with h
    · exact hpipe h
    · exact hblock
  · unfold paren
    split_ifs with h
    · exact hback h j
    · exact hblock.back j

theorem Parses.of_pipe (hpipe : Reads [rparen, amp, semi] parsepipe (print c) c)
    (hexec : c.level = 0 → ∀ rs, Reads [bar, rparen, amp, semi] parseexec
      (print c ++ redirToks rs) (wrap c rs)) : Parses c :=
  .of_line (.line hpipe.back) hexec (fun _ => hpipe) fun _ => hpipe.back

theorem parses (c : Cmd (List UInt8)) (hc : c.Short) : Parses c := by
  induction c with
  | exec ws => exact .of_pipe (.pipe (reads_args hc)) fun _ => reads_args hc
  | redir c d f ih =>
    have hexec (rs) := (ih hc).exec ((d, f) :: rs)
    simp only [redirToks, flatMap_cons, ← append_assoc] at hexec
    exact .of_pipe (.pipe hexec) fun _ => hexec
  | pipe l r ihl ihr =>
    have hl := (ihl hc.1).exec []
    rw [redirToks, flatMap_nil, append_nil] at hl
    exact .of_pipe (joins_pipe.reads (by simp) (fun _ _ _ => .pipe) hl (ihr hc.2).pipe) nofun
  | list l r ihl ihr =>
    have hl := (ihl hc.1).back 0
    rw [replicate_zero, append_nil] at hl
    exact .of_line (joins_list.reads (by simp) (fun _ _ _ => .list) hl (ihr hc.2).line)
      nofun (fun h => absurd h (by simp [Cmd.level])) fun h => absurd h (by simp [Cmd.level])
  | back c ih =>
    have hback (j) : Reads [rparen, semi] parseback
        (print (.back c) ++ replicate j (.sym amp)) (Cmd.back^[j] (.back c)) := by
      rw [print, append_assoc]
      exact (ih hc).back (j + 1)
    exact .of_line (.line hback) nofun (fun h => absurd h (by simp [Cmd.level])) fun _ => hback

end Parses

/-! ### The strings -/

def Cmd.words {α : Type} : Cmd α → List α
  | .exec argv => argv
  | .redir cmd _ file => cmd.words ++ [file]
  | .pipe left right | .list left right => left.words ++ right.words
  | .back cmd => cmd.words

theorem nulterminate_eq (t : Cmd Word) (buf : ℕ → UInt8) (i : ℕ) :
    nulterminate t buf i = if ∃ p ∈ t.words, p.2 = i then 0 else buf i := by
  induction t generalizing buf with
  | exec argv =>
    simp only [nulterminate, Cmd.words]
    induction argv generalizing buf with
    | nil => simp
    | cons w ws ih =>
      rw [foldl_cons, ih]
      simp only [exists_mem_cons_iff, update_apply, eq_comm (a := i)]
      split_ifs <;> simp_all
  | redir c d f ih =>
    simp only [nulterminate, Cmd.words, mem_append, or_and_right, exists_or, ih,
      update_apply, mem_singleton, exists_eq_left, eq_comm (a := i)]
    split_ifs <;> simp_all
  | pipe l r ihl ihr | list l r ihl ihr =>
    simp only [nulterminate, Cmd.words, mem_append, or_and_right, exists_or, ihl, ihr]
    split_ifs <;> simp_all
  | back c ih => exact ih buf

theorem Cmd.Rel.words {α β : Type} {R : α → β → Prop} {t : Cmd α} {c : Cmd β}
    (h : Cmd.Rel R t c) {P : α → Prop} (hP : ∀ p w, R p w → P p) : ∀ p ∈ t.words, P p := by
  induction h with
  | exec h => exact ((forall₂_and_left _ _).1 (h.imp fun p w hr => ⟨hP p w hr, hr⟩)).1
  | redir _ hf ih => grind [Cmd.words]
  | pipe _ _ ih ih' => grind [Cmd.words]
  | list _ _ ih ih' => grind [Cmd.words]
  | back _ ih => exact ih

theorem Cmd.Rel.imp {α β : Type} {R R' : α → β → Prop} {t : Cmd α} {c : Cmd β}
    (h : Cmd.Rel R t c) (hi : ∀ p ∈ t.words, ∀ w, R p w → R' p w) : Cmd.Rel R' t c := by
  induction h with
  | exec h =>
    have := (forall₂_and_left _ _).2 ⟨hi, h⟩
    exact .exec (this.imp fun p w h => h.1 w h.2)
  | redir _ hf ih =>
    exact .redir (ih fun p hp => hi p (mem_append_left _ hp))
      (hi _ (mem_append_right _ (mem_singleton_self _)) _ hf)
  | pipe _ _ ih ih' =>
    exact .pipe (ih fun p hp => hi p (mem_append_left _ hp))
      (ih' fun p hp => hi p (mem_append_right _ hp))
  | list _ _ ih ih' =>
    exact .list (ih fun p hp => hi p (mem_append_left _ hp))
      (ih' fun p hp => hi p (mem_append_right _ hp))
  | back _ ih => exact .back (ih hi)

/-- Read from the place as a NUL-terminated string, the buffer holds the word. -/
def IsString (buf : ℕ → UInt8) (p : Word) (w : List UInt8) : Prop :=
  0 ∉ w ∧ ∀ i ≤ w.length, buf (p.1 + i) = w.getD i 0

theorem Denotes.stop {text w : List UInt8} {p : Word} (h : Denotes text p w) :
    ∀ c, text[p.2]? = some c → ¬isWord c := by
  obtain ⟨-, l, r, rfl, rfl, hr⟩ := h
  intro c hc
  refine hr c ?_
  simpa [← append_assoc, getElem?_append_right, head?_eq_getElem?] using hc

theorem Denotes.isString {text w : List UInt8} {p : Word} (h : Denotes text p w) {t : Cmd Word}
    (hp : p ∈ t.words) (ht : ∀ p ∈ t.words, ∀ c, text[p.2]? = some c → ¬isWord c) :
    IsString (nulterminate t fun i => text.getD i 0) p w := by
  obtain ⟨⟨-, hw⟩, l, r, rfl, rfl, hr⟩ := h
  refine ⟨fun h0 => (hw 0 h0).2 rfl, fun i hi => ?_⟩
  rw [nulterminate_eq]
  rcases hi.lt_or_eq with hi | rfl
  · have hget : (l ++ (w ++ r))[l.length + i]? = some w[i] := by
      rw [getElem?_append_right (by omega), Nat.add_sub_cancel_left,
        getElem?_append_left hi, getElem?_eq_getElem hi]
    have hne : ¬∃ q ∈ t.words, q.2 = l.length + i := by
      rintro ⟨q, hq, he⟩
      exact ht q hq w[i] (he ▸ hget) (hw _ (getElem_mem hi)).1
    simp [if_neg hne, hget, hi]
  · simp [if_pos (⟨_, hp, rfl⟩ : ∃ q ∈ t.words, q.2 = l.length + w.length)]

/-- Whatever the whitespace, the line of a command parses to the command, and after
`nulterminate` every word of it is a string. -/
theorem parsecmd_print (c : Cmd (List UInt8)) (hc : c.Short) :
    ∃ N, ∀ k ≥ N, ∀ line, Spaced (print c) line →
      ∃ t buf, parsecmd k line = .ok (t, buf) ∧ Cmd.Rel (IsString buf) t c := by
  obtain ⟨N, hN⟩ := (parses c hc).line
  refine ⟨N, fun k hk line h => ?_⟩
  obtain ⟨t, s, ht, hs, hrel⟩ :=
    hN k hk line [] line nofun ⟨by rwa [append_nil], suffix_refl _⟩
  refine ⟨t, nulterminate t fun i => line.getD i 0, ?_, ?_⟩
  · simp [parsecmd, ht, peek, hs.1.last]
  · exact hrel.imp fun p hp w hw => hw.isString hp (hrel.words fun _ _ h => h.stop)

/-- `(a;b)>f |c&`. -/
theorem parsecmd_print_block :
    let c : Cmd (List UInt8) :=
      .back (.pipe (.redir (.list (.exec [[97]]) (.exec [[98]])) .output [102]) (.exec [[99]]))
    ∃ N, ∀ k ≥ N, ∃ t buf,
      parsecmd k [40, 97, 59, 98, 41, 62, 102, 32, 124, 99, 38] = .ok (t, buf) ∧
        Cmd.Rel (IsString buf) t c := by
  intro c
  have hline : Spaced (print c) [40, 97, 59, 98, 41, 62, 102, 32, 124, 99, 38] := by
    have hs (x : UInt8) (h : x ∈ symbols) : (Tok.sym x).Ok := h
    have hw (x : UInt8) (h : isWord x ∧ x ≠ 0) : (Tok.word [x]).Ok := ⟨by simp, by simpa using h⟩
    have hc (w x s) (h : ¬isWord x) : (Tok.word w).Clear (x :: s) := by
      rintro _ ⟨⟩
      exact h
    exact .tok (hs lparen (by decide)) nofun <|
      .tok (hw 97 (by decide)) (hc _ _ _ (by decide)) <|
      .tok (hs semi (by decide)) nofun <|
      .tok (hw 98 (by decide)) (hc _ _ _ (by decide)) <|
      .tok (hs rparen (by decide)) nofun <|
      .tok (hs greater (by decide)) (fun _ => by decide) <|
      .tok (hw 102 (by decide)) (hc _ _ _ (by decide)) <| .space (by decide) <|
      .tok (hs bar (by decide)) nofun <|
      .tok (hw 99 (by decide)) (hc _ _ _ (by decide)) <|
      .tok (hs amp (by decide)) nofun .nil
  obtain ⟨N, hN⟩ := parsecmd_print c (by simp [c, Cmd.Short, MAXARGS])
  exact ⟨N, fun k hk => hN k hk _ hline⟩

end Xv6.Sh
