import Xv6.Console.Basic
import Xv6.Lib.Window

/-!
The line discipline of the console.

What has been typed is two lists (`Lines`): the stream of characters that are there for
readers, and the line that is still edited. Control-U and backspace take back characters
of the line, a character that finds no place is lost, and a newline, Control-D or the last
free place add the line to the stream.

The console keeps the part of this that has not been read in a ring, and counts modulo
2^32. From this (`Buffer`) follows that nothing in the stream is changed later, and that
the reads together take the characters of the stream in order, each of them once.
-/

namespace Xv6

open List

structure Lines where
  committed : List UInt8
  line : List UInt8

/-- One more input: the character, and how many places are free. -/
def Lines.key (l : Lines) (k : UInt32 × ℕ) : Lines :=
  if k.1 = C 'P' then l
  else if k.1 = C 'U' then { l with line := l.line.rdropWhile (· ≠ newline) }
  else if k.1 = C 'H' ∨ k.1 = 0x7f then { l with line := l.line.dropLast }
  else if k.1 = 0 ∨ k.2 = 0 then l
  else
    let c := if k.1 = '\r'.val then '\n'.val else k.1
    let line := l.line ++ [c.toUInt8]
    if c = '\n'.val ∨ c = C 'D' ∨ k.2 = 1 then ⟨l.committed ++ line, []⟩ else ⟨l.committed, line⟩

def lines (input : List (UInt32 × ℕ)) : Lines := input.foldl Lines.key ⟨[], []⟩

theorem lines_concat (input : List (UInt32 × ℕ)) (k : UInt32 × ℕ) :
    lines (input ++ [k]) = (lines input).key k := by
  simp [lines, foldl_append]

theorem Lines.committed_key (l : Lines) (k : UInt32 × ℕ) : l.committed <+: (l.key k).committed := by
  simp only [Lines.key]
  split_ifs
  all_goals first
    | exact prefix_rfl
    | exact prefix_append _ _

/-- A read that has returned gives its caller what it has stored, and ended at
the first newline, at a Control-D or when it had what was asked for. -/
def Read.Ends (rd : Read) : Prop :=
  rd.result = rd.bytes.length ∧ rd.bytes.length ≤ rd.arg.toNat ∧ ctrlD ∉ rd.bytes ∧
    match rd.ending with
    | .count => newline ∉ rd.bytes ∧ rd.bytes.length = rd.arg.toNat
    | .newline => ∃ bs, rd.bytes = bs ++ [newline] ∧ newline ∉ bs
    | .eof => newline ∉ rd.bytes
    | .killed => False
    | .fault => False

def Read.Eof (rd : Read) : Bool := rd.ending = .eof ∧ rd.bytes = []

namespace Cons

/-! ### The ring -/

/-- The ring holds the characters of `l` from number `t` on. -/
structure Buffer (cons : Cons) (l : Lines) (t : ℕ) : Prop where
  le : t ≤ l.committed.length
  fits : l.committed.length + l.line.length ≤ t + INPUT_BUF_SIZE
  r : cons.r.toNat = t % 2 ^ 32
  w : cons.w.toNat = l.committed.length % 2 ^ 32
  e : cons.e.toNat = (l.committed.length + l.line.length) % 2 ^ 32
  kept : Window INPUT_BUF_SIZE cons.buf (l.committed ++ l.line) t

namespace Buffer

variable {cons : Cons} {l : Lines} {t : ℕ}

section

variable (h : Buffer cons l t)
include h

theorem congr {cons' : Cons} (hbuf : cons'.buf = cons.buf) (hr : cons'.r = cons.r)
    (hw : cons'.w = cons.w) (he : cons'.e = cons.e) : Buffer cons' l t := by
  refine ⟨h.le, h.fits, ?_, ?_, ?_, ?_⟩
  · rw [hr, h.r]
  · rw [hw, h.w]
  · rw [he, h.e]
  · rw [hbuf]
    exact h.kept

theorem ready : (cons.w - cons.r).toNat = l.committed.length - t := by
  have hle := h.le
  have hfits := h.fits
  rw [UInt32.toNat_sub, h.r, h.w]
  simp only [INPUT_BUF_SIZE] at hfits
  omega

theorem used : (cons.e - cons.r).toNat = l.committed.length + l.line.length - t := by
  have hle := h.le
  have hfits := h.fits
  rw [UInt32.toNat_sub, h.r, h.e]
  simp only [INPUT_BUF_SIZE] at hfits
  omega

theorem pending : (cons.e - cons.w).toNat = l.line.length := by
  have hle := h.le
  have hfits := h.fits
  rw [UInt32.toNat_sub, h.w, h.e]
  simp only [INPUT_BUF_SIZE] at hfits
  omega

theorem edited_iff : cons.e ≠ cons.w ↔ l.line ≠ [] := by
  have hle := h.le
  have hfits := h.fits
  rw [Ne, ← UInt32.toNat_inj, h.w, h.e, ← length_pos_iff]
  simp only [INPUT_BUF_SIZE] at hfits
  omega

theorem empty_iff : cons.r = cons.w ↔ l.committed.length = t := by
  have hle := h.le
  have hfits := h.fits
  rw [← UInt32.toNat_inj, h.r, h.w]
  simp only [INPUT_BUF_SIZE] at hfits
  omega

theorem front (hne : cons.r ≠ cons.w) : l.committed[t]? = some (cons.buf (slot cons.r)) := by
  have hlt : t < l.committed.length := lt_of_le_of_ne h.le fun heq => hne (h.empty_iff.mpr heq.symm)
  have hslot : slot cons.r = t % INPUT_BUF_SIZE := by
    have hr := h.r
    simp only [slot, INPUT_BUF_SIZE]
    omega
  have hget : (l.committed ++ l.line)[t]? = some l.committed[t] := by grind
  rw [hslot, h.kept t _ le_rfl hget, getElem?_eq_getElem hlt]

end

theorem back {l₀ : List UInt8} {c : UInt8} (h : Buffer cons ⟨l.committed, l₀ ++ [c]⟩ t) :
    Buffer { cons with e := cons.e - 1 } ⟨l.committed, l₀⟩ t ∧
      cons.buf (slot (cons.e - 1)) = c := by
  have hle := h.le
  have hfits := h.fits
  have he := h.e
  have hkept := h.kept
  simp only [length_append, length_singleton] at hfits he hle
  simp only [← append_assoc] at hkept
  have he' : (cons.e - 1).toNat = (l.committed.length + l₀.length) % 2 ^ 32 := by
    grind [UInt32.toNat_sub]
  refine ⟨⟨hle, by simp only; omega, h.r, h.w, he', hkept.retract⟩, ?_⟩
  have hslot : slot (cons.e - 1) = (l.committed ++ l₀).length % INPUT_BUF_SIZE := by grind [slot]
  rw [hslot]
  apply hkept
  · rw [length_append]
    omega
  · exact getElem?_concat_length

theorem killLine {fuel : ℕ} (h : Buffer cons l t) (hfuel : l.line.length ≤ fuel) :
    Buffer (cons.killLine fuel) { l with line := l.line.rdropWhile (· ≠ newline) } t := by
  obtain ⟨committed, line⟩ := l
  induction line using reverseRecOn generalizing cons fuel with
  | nil =>
    have hsame : cons.killLine fuel = cons := by
      cases fuel with
      | zero => rfl
      | succ fuel => grind [Cons.killLine, h.edited_iff.mp]
    rw [hsame]
    exact h
  | append_singleton l₀ c ih =>
    obtain ⟨fuel, rfl⟩ : ∃ n, fuel = n + 1 := ⟨fuel - 1, by simp at hfuel; omega⟩
    obtain ⟨hback, hlast⟩ := back (l := ⟨committed, l₀⟩) h
    have hedited : cons.e ≠ cons.w := h.edited_iff.mpr (by simp)
    rw [Cons.killLine, hlast]
    by_cases hc : c = newline
    · grind [rdropWhile_concat]
    · grind [rdropWhile_concat]

theorem put (h : Buffer cons l t) (hroom : l.committed.length + l.line.length < t + INPUT_BUF_SIZE)
    (c : UInt32) : Buffer (cons.put c) ⟨l.committed, l.line ++ [c.toUInt8]⟩ t := by
  have hfits := h.fits
  have he := h.e
  have hslot : slot cons.e = (l.committed ++ l.line).length % INPUT_BUF_SIZE := by grind [slot]
  refine ⟨h.le, ?_, h.r, h.w, ?_, ?_⟩
  · simp only [length_append, length_singleton]
    omega
  · grind [Cons.put, UInt32.toNat_add]
  · grind [Cons.put, h.kept.push]

theorem commit (h : Buffer cons l t) :
    Buffer { cons with w := cons.e } ⟨l.committed ++ l.line, []⟩ t := by
  have hle := h.le
  have hfits := h.fits
  refine ⟨?_, ?_, h.r, ?_, ?_, ?_⟩
  · simp only [length_append]
    omega
  · simp only [length_append, length_nil]
    omega
  · simpa using h.e
  · simpa using h.e
  · simpa using h.kept

/-- `consoleintr` does to the ring what the input does to the lines. -/
theorem consoleintr (h : Buffer cons l t) (c : UInt32) :
    Buffer (cons.consoleintr c).1 (l.key (c, cons.room)) t := by
  have hused := h.used
  simp only [Cons.consoleintr, Lines.key]
  by_cases hP : c = C 'P'
  · rw [if_pos hP, if_pos hP]
    exact h
  rw [if_neg hP, if_neg hP]
  by_cases hU : c = C 'U'
  · rw [if_pos hU, if_pos hU]
    exact h.killLine h.pending.ge
  rw [if_neg hU, if_neg hU]
  by_cases hH : c = C 'H' ∨ c = 0x7f
  · rcases eq_nil_or_concat l.line with hnil | ⟨l₀, x, hline⟩
    · grind [Buffer, h.edited_iff.mp]
    · grind [Buffer, back]
  rw [if_neg hH, if_neg hH]
  by_cases hfree : c ≠ 0 ∧ (cons.e - cons.r).toNat < INPUT_BUF_SIZE
  · have hroom : l.committed.length + l.line.length < t + INPUT_BUF_SIZE := by omega
    have hskip : ¬(c = 0 ∨ cons.room = 0) := by grind [room]
    rw [if_pos hfree, if_neg hskip]
    generalize (if c = '\r'.val then '\n'.val else c) = c'
    have hput := h.put hroom c'
    have hlast : ((cons.put c').e - (cons.put c').r).toNat = INPUT_BUF_SIZE ↔ cons.room = 1 := by
      grind [hput.used, room]
    by_cases hcommit : c' = '\n'.val ∨ c' = C 'D' ∨ cons.room = 1
    · rw [if_pos (by rwa [hlast]), if_pos hcommit]
      exact hput.commit
    · rw [if_neg (by rwa [hlast]), if_neg hcommit]
      exact hput
  · grind [room]

end Buffer

/-! ### Reads -/

/-- How far a read of `arg` bytes has come. -/
structure Progress (arg n : ℤ) (got : List UInt8) : Prop where
  isInt : -2 ^ 31 ≤ arg ∧ arg < 2 ^ 31
  left : n = arg - got.length
  began : got ≠ [] → 0 ≤ n
  noNewline : newline ∉ got
  noCtrlD : ctrlD ∉ got

def Point.Ok : Point → Prop
  | .read arg n got => Progress arg n got
  | .empty arg n got => Progress arg n got
  | _ => True

namespace Progress

variable {arg n : ℤ} {got : List UInt8}

theorem start (harg : -2 ^ 31 ≤ arg ∧ arg < 2 ^ 31) : Progress arg arg [] :=
  ⟨harg, by simp, by simp, by simp, by simp⟩

variable (h : Progress arg n got)
include h

theorem result : int (arg % 2 ^ 32 - n) = got.length := by
  obtain ⟨hlo, hhi⟩ := h.isInt
  have hleft := h.left
  have hbegan := h.began
  cases got with
  | nil => grind [int]
  | cons b got => grind [int]

theorem began_iff (hn : 0 < n) : n % 2 ^ 32 < arg % 2 ^ 32 ↔ got ≠ [] := by
  obtain ⟨hlo, hhi⟩ := h.isInt
  have hleft := h.left
  rw [← length_pos_iff]
  omega

theorem length_le : got.length ≤ arg.toNat := by
  have hleft := h.left
  rcases eq_or_ne got [] with rfl | hne
  · exact Nat.zero_le _
  · have := h.began hne
    omega

theorem more (hn : 0 < n) {c : UInt8} (hc : c ≠ ctrlD)
    (hnl : c ≠ newline) : Progress arg (n - 1) (got ++ [c]) := by
  have hleft := h.left
  refine ⟨h.isInt, ?_, fun _ => by omega, ?_, ?_⟩
  · simp only [length_append, length_singleton]
    omega
  · grind [h.noNewline]
  · grind [h.noCtrlD]

theorem ends_eof : Read.Ends ⟨arg, got, int (arg % 2 ^ 32 - n), .eof⟩ :=
  ⟨h.result, h.length_le, h.noCtrlD, h.noNewline⟩

theorem ends_count (hn : ¬0 < n) : Read.Ends ⟨arg, got, int (arg % 2 ^ 32 - n), .count⟩ := by
  have hleft := h.left
  refine ⟨h.result, h.length_le, h.noCtrlD, h.noNewline, ?_⟩
  rcases eq_or_ne got [] with rfl | hne
  · simp only [length_nil, Nat.cast_zero, sub_zero] at hleft ⊢
    omega
  · have := h.began hne
    show got.length = arg.toNat
    omega

theorem ends_newline (hn : 0 < n) :
    Read.Ends ⟨arg, got ++ [newline], int (arg % 2 ^ 32 - (n - 1)), .newline⟩ := by
  have hleft := h.left
  obtain ⟨hlo, hhi⟩ := h.isInt
  refine ⟨?_, ?_, ?_, got, rfl, h.noNewline⟩
  · simp only [length_append, length_singleton, int]
    omega
  · simp only [length_append, length_singleton]
    omega
  · simp only [mem_append, mem_singleton, not_or]
    exact ⟨h.noCtrlD, by decide⟩

end Progress

/-! ### What every stretch keeps -/

theorem killLine_frame (cons : Cons) (fuel : ℕ) :
    (cons.killLine fuel).input = cons.input ∧ (cons.killLine fuel).delivered = cons.delivered ∧
      (cons.killLine fuel).reads = cons.reads ∧ (cons.killLine fuel).buf = cons.buf := by
  induction fuel generalizing cons with
  | zero => exact ⟨rfl, rfl, rfl, rfl⟩
  | succ fuel ih => grind [killLine]

theorem consoleintr_frame (cons : Cons) (c : UInt32) :
    (cons.consoleintr c).1.input = cons.input ∧
      (cons.consoleintr c).1.delivered = cons.delivered ∧
      (cons.consoleintr c).1.reads = cons.reads := by
  have hkill := cons.killLine_frame (cons.e - cons.w).toNat
  simp only [consoleintr]
  split_ifs
  · exact ⟨rfl, rfl, rfl⟩
  · exact ⟨hkill.1, hkill.2.1, hkill.2.2.1⟩
  all_goals exact ⟨rfl, rfl, rfl⟩

theorem consoleintr_buf (cons : Cons) (c : UInt32) :
    (cons.consoleintr c).1.buf = cons.buf ∨ (cons.e - cons.r).toNat < INPUT_BUF_SIZE ∧
      ∃ b, (cons.consoleintr c).1.buf = Function.update cons.buf (slot cons.e) b := by
  have hkill := cons.killLine_frame (cons.e - cons.w).toNat
  simp only [consoleintr]
  split_ifs with hP hU hH hne hfree
  · exact .inl rfl
  · exact .inl hkill.2.2.2
  · exact .inl rfl
  · exact .inl rfl
  all_goals first
    | exact .inr ⟨hfree.2, _, rfl⟩
    | exact .inl rfl

/-- The reads have taken the first `t` characters of the stream: the bytes they
stored are those that are not Control-D, and every Control-D made one read
return 0. -/
structure Ok (cons : Cons) (t : ℕ) : Prop where
  buffer : Buffer cons (lines cons.input) t
  delivered : cons.delivered = ((lines cons.input).committed.take t).filter (· ≠ ctrlD)
  marks : ((lines cons.input).committed.take t).count ctrlD = cons.reads.countP Read.Eof
  reads : ∀ rd ∈ cons.reads, rd.Ends

namespace Ok

variable {cons : Cons} {t : ℕ} {arg n : ℤ} {got : List UInt8}

theorem new (h : New cons) : Ok cons 0 := by
  constructor
  · constructor
    · exact Nat.zero_le _
    · simp [h.input, lines]
    · simp [h.r]
    · simp [h.w, h.input, lines]
    · simp [h.e, h.input, lines]
    · intro i x _ hx
      simp [h.input, lines] at hx
  · simp [h.delivered]
  · simp [h.reads]
  · simp [h.reads]

variable (h : Ok cons t)
include h

theorem finish {ending : Ending} (hends : Read.Ends ⟨arg, got, int (arg % 2 ^ 32 - n), ending⟩)
    (hmark : ending = .eof → got ≠ []) : Ok (cons.finish arg n got ending) t := by
  refine ⟨h.buffer.congr rfl rfl rfl rfl, h.delivered, ?_, ?_⟩
  · grind [Read.Eof, Cons.finish, h.marks]
  · intro rd hrd
    rcases mem_append.mp hrd with hrd | hrd
    · exact h.reads rd hrd
    · rw [mem_singleton.mp hrd]
      exact hends

theorem take_succ (hne : cons.r ≠ cons.w) :
    (lines cons.input).committed.take (t + 1) =
      (lines cons.input).committed.take t ++ [cons.buf (slot cons.r)] := by
  rw [take_add_one, h.buffer.front hne]
  rfl

theorem next (hne : cons.r ≠ cons.w) :
    Buffer { cons with r := cons.r + 1 } (lines cons.input) (t + 1) := by
  have hle := h.buffer.le
  have hfits := h.buffer.fits
  have hr := h.buffer.r
  have hlt : t ≠ (lines cons.input).committed.length := fun heq =>
    hne (h.buffer.empty_iff.mpr heq.symm)
  refine ⟨by omega, by omega, ?_, h.buffer.w, h.buffer.e, h.buffer.kept.advance (by omega)⟩
  have h1 : (1 : UInt32).toNat = 1 := rfl
  rw [UInt32.toNat_add, hr, h1]
  omega

theorem deliver (hne : cons.r ≠ cons.w) (hc : cons.buf (slot cons.r) ≠ ctrlD) :
    Ok { cons with
      r := cons.r + 1
      delivered := cons.delivered ++ [cons.buf (slot cons.r)] } (t + 1) := by
  refine ⟨(h.next hne).congr rfl rfl rfl rfl, ?_, ?_, h.reads⟩
  · simp only [h.take_succ hne, filter_append, h.delivered]
    simp [hc]
  · grind [h.take_succ, h.marks]

theorem eof (hne : cons.r ≠ cons.w) (hc : cons.buf (slot cons.r) = ctrlD)
    (hends : Read.Ends ⟨arg, [], int (arg % 2 ^ 32 - n), .eof⟩) :
    Ok ({ cons with r := cons.r + 1 }.finish arg n [] .eof) (t + 1) := by
  refine ⟨(h.next hne).congr rfl rfl rfl rfl, ?_, ?_, ?_⟩
  · simp only [Cons.finish, h.take_succ hne, filter_append, h.delivered]
    simp [hc]
  · grind [Cons.finish, h.take_succ, h.marks, Read.Eof]
  · intro rd hrd
    rcases mem_append.mp hrd with hrd | hrd
    · exact h.reads rd hrd
    · rw [mem_singleton.mp hrd]
      exact hends

theorem take (hp : Progress arg n got) (hn : 0 < n) (hne : cons.r ≠ cons.w) :
    (∃ t', Ok (cons.take arg n got true).1 t') ∧
      ∀ k, (cons.take arg n got true).2.point = some k → k.Ok := by
  simp only [Cons.take]
  by_cases hc : cons.buf (slot cons.r) = ctrlD
  · rw [if_pos hc]
    refine ⟨?_, by simp [Monitor.Next.point]⟩
    by_cases hbegan : n % 2 ^ 32 < arg % 2 ^ 32
    · rw [if_pos hbegan]
      have hback : cons.r + 1 - 1 = cons.r := by simp
      simp only [hback]
      exact ⟨t, h.finish hp.ends_eof fun _ => (hp.began_iff hn).mp hbegan⟩
    · rw [if_neg hbegan]
      obtain rfl : got = [] := not_not.mp (mt (hp.began_iff hn).mpr hbegan)
      exact ⟨t + 1, h.eof hne hc hp.ends_eof⟩
  · rw [if_neg hc, if_neg (by simp)]
    have hdeliver := h.deliver hne hc
    by_cases hnl : cons.buf (slot cons.r) = newline
    · rw [if_pos hnl]
      refine ⟨⟨t + 1, hdeliver.finish ?_ (by simp)⟩, by simp [Monitor.Next.point]⟩
      rw [hnl]
      exact hp.ends_newline hn
    · rw [if_neg hnl]
      refine ⟨⟨t + 1, hdeliver⟩, ?_⟩
      rintro _ ⟨⟩
      exact hp.more hn hc hnl

theorem intr (c : UInt32) :
    Ok ({ cons with input := cons.input ++ [(c, cons.room)] }.consoleintr c).1 t := by
  obtain ⟨hinput, hdelivered, hreads⟩ :=
    consoleintr_frame { cons with input := cons.input ++ [(c, cons.room)] } c
  have hbuffer : Buffer { cons with input := cons.input ++ [(c, cons.room)] }
      (lines cons.input) t := h.buffer.congr rfl rfl rfl rfl
  -- what was taken stays at the beginning of the stream
  have htake : (lines (cons.input ++ [(c, cons.room)])).committed.take t =
      (lines cons.input).committed.take t := by
    obtain ⟨rest, hrest⟩ := (lines cons.input).committed_key (c, cons.room)
    rw [lines_concat, ← hrest, take_append_of_le_length h.buffer.le]
  constructor
  · rw [hinput, lines_concat]
    exact hbuffer.consoleintr c
  · rw [hinput, hdelivered, htake]
    exact h.delivered
  · rw [hinput, hreads, htake]
    exact h.marks
  · rw [hreads]
    exact h.reads

theorem exec {k : Point} (hk : k.Ok) :
    (∃ t', Ok (cons.exec false true k).1 t') ∧
      ∀ k', (cons.exec false true k).2.point = some k' → k'.Ok := by
  cases k with
  | read arg n got =>
    simp only [Cons.exec]
    split
    · rename_i hn
      split
      · refine ⟨⟨t, h⟩, ?_⟩
        rintro _ ⟨⟩
        exact hk
      · rename_i hne
        exact h.take hk hn hne
    · rename_i hn
      refine ⟨⟨t, h.finish (Progress.ends_count hk hn) (by simp)⟩, ?_⟩
      rintro _ ⟨⟩
  | empty arg n got =>
    refine ⟨⟨t, h⟩, ?_⟩
    rintro _ ⟨⟩
    exact hk
  | intr c =>
    refine ⟨⟨t, h.intr c⟩, ?_⟩
    intro k' hk'
    simp only [Cons.exec] at hk'
    split at hk'
    · cases hk'
      trivial
    · cases hk'
  | ret =>
    refine ⟨⟨t, h⟩, ?_⟩
    rintro _ ⟨⟩

end Ok

/-! ### Results -/

variable {N : ℕ} {s s' : Sys N}

theorem Interleaving.ok (h : Interleaving s) :
    (∃ t, Ok s.shared t) ∧ ∀ p k, (s.pc p).point = some k → k.Ok := by
  apply Monitor.points_invariant (I := fun cons => ∃ t, Ok cons t) (K := Point.Ok)
    (A := fun killed copied => killed = false ∧ copied = true) ?_ ?_ ?_ ?_ h
  · intro cons hnew
    exact ⟨0, Ok.new hnew⟩
  · intro s p copied hok
    exact hok
  · intro s p k hok hstart
    cases k with
    | read arg n got =>
      obtain ⟨rfl, rfl⟩ := of_decide_eq_true hstart
      exact Progress.start hok
    | empty arg n got => cases hstart
    | intr c | ret => trivial
  · rintro cons k killed copied cons' next ⟨t, hok⟩ hk ⟨rfl, rfl⟩ hexec
    have hx := Option.some.inj hexec
    have := hok.exec hk
    rwa [hx] at this

theorem Interleaving.keeps (h : Interleaving s) {a : Act N}
    (hs : Monitor.Sys.step code s a = .ok s') {k : ℕ} (hk : k < (s.shared.w - s.shared.r).toNat) :
    s'.shared.buf (slot (s.shared.r + UInt32.ofNat k)) =
      s.shared.buf (slot (s.shared.r + UInt32.ofNat k)) := by
  obtain ⟨⟨t, hok⟩, -⟩ := h.ok
  have hbuffer := hok.buffer
  rw [hbuffer.ready] at hk
  -- the place that `consoleintr` may write is another one
  have hplace : (s.shared.e - s.shared.r).toNat < INPUT_BUF_SIZE →
      slot (s.shared.r + UInt32.ofNat k) ≠ slot s.shared.e := by
    intro hfree
    rw [hbuffer.used] at hfree
    have hr := hbuffer.r
    have he := hbuffer.e
    have hfits := hbuffer.fits
    simp only [slot, INPUT_BUF_SIZE, UInt32.toNat_add, UInt32.toNat_ofNat'] at hfree hfits ⊢
    omega
  have hread : ∀ killed copied arg n got,
      (s.shared.exec killed copied (.read arg n got)).1.buf = s.shared.buf := by
    grind [exec, take, finish]
  cases Monitor.Sys.step_cases hs with
  | @exec p k' copied x next hpc hexec =>
    have hx := Option.some.inj hexec
    rw [(Monitor.point_leave s p x next).2.2, ← show _ = x from congrArg Prod.fst hx]
    cases k' with
    | intr c =>
      rcases consoleintr_buf { s.shared with
          input := s.shared.input ++ [(c, s.shared.room)] } c with hbuf | ⟨hfree, b, hbuf⟩
      · exact congrFun hbuf _
      · refine (congrFun hbuf _).trans ?_
        exact Function.update_of_ne (hplace hfree) ..
    | read arg n got => rw [hread]
    | empty arg n got | ret => rfl
  | call | killAsleep | kill | acquire | rouse | pass | woken | sleep => rfl

theorem Interleaving.eof (h : Interleaving s) {p : Fin N} {arg n : ℤ} {got : List UInt8}
    {copied : Bool} (hpc : s.pc p = .run (.read arg n got)) (hn : 0 < n)
    (hne : s.shared.r ≠ s.shared.w) (hc : s.shared.buf (slot s.shared.r) = ctrlD)
    (hs : Monitor.Sys.step code s (.step p copied) = .ok s') :
    s'.pc p = .out ∧ s'.shared.w = s.shared.w ∧
      s'.shared.r = (if got = [] then s.shared.r + 1 else s.shared.r) ∧
      s'.shared.reads = s.shared.reads ++ [⟨arg, got, got.length, .eof⟩] := by
  have hp : Progress arg n got := h.ok.2 p (.read arg n got) (by rw [hpc]; rfl)
  have hexec : code.exec s.shared (.read arg n got) (s.killed p) copied =
      some (s.shared.take arg n got copied) := by
    simp only [code, exec, if_pos hn, if_neg hne]
  simp only [Monitor.Sys.step, hpc, hexec, take, hc, if_true] at hs
  cases hs
  refine ⟨Function.update_self .., ?_, ?_, ?_⟩
  · split_ifs <;> rfl
  · grind [Monitor.Sys.leave, finish, hp.began_iff]
  · simp only [Monitor.Sys.leave, finish, hp.result]
    split_ifs <;> rfl

/-- The console is a line discipline, for any number of readers and for runs of
any length. Its indices are in order, modulo 2^32; no step changes a character
that is there for readers; the bytes that reads have stored are the beginning of
what was typed, less the Control-Ds, for each of which one read returned 0; every
read ended at the first newline, at a Control-D or with what it asked for; and a
Control-D that ends a read with some bytes stays where it is, until a read that
has none returns 0 for it. -/
theorem line_discipline (h : Interleaving s) :
    (s.shared.w - s.shared.r ≤ s.shared.e - s.shared.r ∧
      (s.shared.e - s.shared.r).toNat ≤ INPUT_BUF_SIZE) ∧
    (∀ a s', Monitor.Sys.step code s a = .ok s' → ∀ k < (s.shared.w - s.shared.r).toNat,
      s'.shared.buf (slot (s.shared.r + UInt32.ofNat k)) =
        s.shared.buf (slot (s.shared.r + UInt32.ofNat k))) ∧
    s.shared.delivered <+: (lines s.shared.input).committed.filter (· ≠ ctrlD) ∧
    (∃ taken, taken <+: (lines s.shared.input).committed ∧
      s.shared.delivered = taken.filter (· ≠ ctrlD) ∧
      taken.count ctrlD = s.shared.reads.countP Read.Eof) ∧
    (∀ rd ∈ s.shared.reads, rd.Ends) ∧
    ∀ p arg n got copied s', s.pc p = .run (.read arg n got) → 0 < n →
      s.shared.r ≠ s.shared.w → s.shared.buf (slot s.shared.r) = ctrlD →
      Monitor.Sys.step code s (.step p copied) = .ok s' →
      s'.pc p = .out ∧ s'.shared.w = s.shared.w ∧
        s'.shared.r = (if got = [] then s.shared.r + 1 else s.shared.r) ∧
        s'.shared.reads = s.shared.reads ++ [⟨arg, got, got.length, .eof⟩] := by
  obtain ⟨⟨t, hok⟩, -⟩ := h.ok
  have hbuffer := hok.buffer
  have hfits := hbuffer.fits
  refine ⟨⟨?_, ?_⟩, fun a s' hs k hk => h.keeps hs hk, ?_,
    ⟨_, take_prefix t _, hok.delivered, hok.marks⟩, hok.reads,
    fun p arg n got copied s' hpc hn hne hc hs => h.eof hpc hn hne hc hs⟩
  · rw [UInt32.le_iff_toNat_le, hbuffer.ready, hbuffer.used]
    omega
  · rw [hbuffer.used]
    omega
  · rw [hok.delivered]
    exact IsPrefix.filter _ ( take_prefix _ _)

def freshSys : Sys 2 where
  shared := ⟨fun _ => 0, 0, 0, 0, [], [], []⟩
  lock := none
  pc := fun _ => .out
  killed := fun _ => false

/-- `a`, a character that is taken back, and Control-D are typed, and process 0
reads twice. -/
def typeRead : List (Act 2) :=
  ['a'.val, 'b'.val, C 'H', C 'D'].flatMap (fun c => .call 1 (.intr c) ::
    replicate (if c = C 'D' then 6 else 2) (.step 1 true)) ++
  ([.call 0 (.read 10 10 [])] ++ replicate 3 (.step 0 true)) ++
  ([.call 0 (.read 10 10 [])] ++ replicate 2 (.step 0 true))

theorem line_discipline_typeRead :
    ∃ s : Sys 2, Interleaving s ∧ s.shared.delivered = [97] ∧
      s.shared.reads = [⟨10, [97], 1, .eof⟩, ⟨10, [], 0, .eof⟩] ∧
      s.shared.delivered <+: (lines s.shared.input).committed.filter (· ≠ ctrlD) := by
  obtain ⟨s, hs, hdelivered, hreads⟩ :
      ∃ s ∈ runActs Quiet (Monitor.Sys.step code) typeRead freshSys,
        s.shared.delivered = [97] ∧
        s.shared.reads = [⟨10, [97], 1, .eof⟩, ⟨10, [], 0, .eof⟩] := by
    decide +kernel
  have hreach : Interleaving s :=
    (Reachable.init ⟨⟨rfl, rfl, rfl, rfl, rfl, rfl⟩, rfl, fun _ => rfl⟩).runActs hs
  exact ⟨s, hreach, hdelivered, hreads, (line_discipline hreach).2.2.1⟩

end Cons

end Xv6
