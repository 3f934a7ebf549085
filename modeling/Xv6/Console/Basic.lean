import Xv6.Lib.Monitor
import Xv6.Param

/-!
Console input: `consoleintr` and `consoleread` of `kernel/console.c`.

Both run under `cons.lock`, which a reader gives up while it sleeps on `&cons.r`. The
three indices are of type `uint` and wrap; `c` is an `int`, of which the buffer keeps the
low byte. The echo and the list of processes that Control-P prints are left out. Whether a
reader's `either_copyout` of one byte stores it is the input of the stretch.

Not in the source are `input`, the characters that `consoleintr` was called with and the
free places that each of them found, `delivered`, the bytes that reads have stored for
their callers, and `reads`, the reads that have returned.
-/

namespace Xv6

abbrev INPUT_BUF_SIZE : ℕ := 128

def C (x : Char) : UInt32 := x.val - '@'.val

def ctrlD : UInt8 := (C 'D').toUInt8

def newline : UInt8 := '\n'.val.toUInt8

inductive Ending
  | count
  | newline
  | eof
  | killed
  | fault
  deriving DecidableEq

structure Read where
  arg : ℤ
  bytes : List UInt8
  result : ℤ
  ending : Ending
  deriving DecidableEq

structure Cons where
  buf : ℕ → UInt8
  r : UInt32
  w : UInt32
  e : UInt32
  input : List (UInt32 × ℕ)
  delivered : List UInt8
  reads : List Read

namespace Cons

def slot (i : UInt32) : ℕ := i.toNat % INPUT_BUF_SIZE

/-! ### `consoleintr` -/

/-- The loop for Control-U. It takes back at most what was typed since `w`. -/
def killLine : (fuel : ℕ) → Cons → Cons
  | 0, cons => cons
  | fuel + 1, cons =>
    if cons.e ≠ cons.w ∧ cons.buf (slot (cons.e - 1)) ≠ newline then
      killLine fuel { cons with e := cons.e - 1 }
    else cons

def put (cons : Cons) (c : UInt32) : Cons :=
  { cons with
    buf := Function.update cons.buf (slot cons.e) c.toUInt8
    e := cons.e + 1 }

/-- The console input interrupt handler, for the character `c`; whether it
wakes the readers. -/
def consoleintr (cons : Cons) (c : UInt32) : Cons × Bool :=
  if c = C 'P' then (cons, false)
  else if c = C 'U' then (cons.killLine (cons.e - cons.w).toNat, false)
  else if c = C 'H' ∨ c = 0x7f then
    (if cons.e ≠ cons.w then { cons with e := cons.e - 1 } else cons, false)
  else if c ≠ 0 ∧ (cons.e - cons.r).toNat < INPUT_BUF_SIZE then
    let c := if c = '\r'.val then '\n'.val else c
    let cons := cons.put c
    if c = '\n'.val ∨ c = C 'D' ∨ (cons.e - cons.r).toNat = INPUT_BUF_SIZE then
      ({ cons with w := cons.e }, true)
    else (cons, false)
  else (cons, false)

def room (cons : Cons) : ℕ := INPUT_BUF_SIZE - (cons.e - cons.r).toNat

/-! ### `consoleread` -/

/-- The points of the code. `read` is the head of the loops of `consoleread`,
with the `n` it was called with, the `n` that is left and the bytes that it has
stored; `empty` is its call of `sleep`. -/
inductive Point
  | read (arg n : ℤ) (got : List UInt8)
  | empty (arg n : ℤ) (got : List UInt8)
  | intr (c : UInt32)
  | ret
  deriving DecidableEq

def start : Point → Bool
  | .read arg n got => n = arg ∧ got = []
  | .intr _ => true
  | _ => false

/-- `return target - n`, where `target` is the argument as a `uint`. -/
def finish (cons : Cons) (arg n : ℤ) (got : List UInt8) (ending : Ending) : Cons :=
  { cons with reads := cons.reads ++ [⟨arg, got, int (arg % 2 ^ 32 - n), ending⟩] }

def take (cons : Cons) (arg n : ℤ) (got : List UInt8) (copied : Bool) :
    Cons × Monitor.Next Point Unit :=
  let c := cons.buf (slot cons.r)
  let cons := { cons with r := cons.r + 1 }
  if c = ctrlD then
    -- Control-D is kept for the next read if this one has something to return
    let cons := if n % 2 ^ 32 < arg % 2 ^ 32 then { cons with r := cons.r - 1 } else cons
    (cons.finish arg n got .eof, .done)
  else if copied = false then (cons.finish arg n got .fault, .done)
  else
    let cons := { cons with delivered := cons.delivered ++ [c] }
    if c = newline then (cons.finish arg (n - 1) (got ++ [c]) .newline, .done)
    else (cons, .goto (.read arg (n - 1) (got ++ [c])))

def exec (cons : Cons) (killed copied : Bool) : Point → Cons × Monitor.Next Point Unit
  | .read arg n got =>
    if 0 < n then
      if cons.r = cons.w then
        if killed then
          ({ cons with reads := cons.reads ++ [⟨arg, got, -1, .killed⟩] }, .done)
        else (cons, .goto (.empty arg n got))
      else cons.take arg n got copied
    else (cons.finish arg n got .count, .done)
  | .empty arg n got => (cons, .sleep () (.read arg n got))
  | .intr c =>
    let r := { cons with input := cons.input ++ [(c, cons.room)] }.consoleintr c
    (r.1, if r.2 then .wakeup () .ret else .done)
  | .ret => (cons, .done)

def code : Monitor.Code Cons Point Unit Bool where
  start := start
  exec cons k killed copied := some (cons.exec killed copied k)

structure New (cons : Cons) : Prop where
  r : cons.r = 0
  w : cons.w = 0
  e : cons.e = 0
  input : cons.input = []
  delivered : cons.delivered = []
  reads : cons.reads = []

abbrev Sys (N : ℕ) := Monitor.Sys N Cons Point Unit

abbrev Act (N : ℕ) := Monitor.Act N Point Bool

/-- No process is killed and no copy faults; the argument of a read is an
`int`. -/
def Quiet {N : ℕ} (s : Sys N) : Act N → Prop
  | .call _ (.read arg _ _) => -2 ^ 31 ≤ arg ∧ arg < 2 ^ 31
  | .call _ _ => True
  | .step p copied => s.killed p = false ∧ copied = true
  | .kill _ => False

instance {N : ℕ} (s : Sys N) : (a : Act N) → Decidable (Quiet s a)
  | .call _ (.read _ _ _) => inferInstanceAs (Decidable (_ ∧ _))
  | .call _ (.empty _ _ _) => .isTrue trivial
  | .call _ (.intr _) => .isTrue trivial
  | .call _ .ret => .isTrue trivial
  | .step _ _ => inferInstanceAs (Decidable (_ ∧ _))
  | .kill _ => .isFalse id

abbrev Interleaving {N : ℕ} : Sys N → Prop :=
  Reachable (Monitor.Sys.Initial New) Quiet (Monitor.Sys.step code)

end Cons

end Xv6
