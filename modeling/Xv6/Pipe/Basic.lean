import Xv6.Lib.Monitor

/-!
The pipes of `kernel/pipe.c`.

`pipewrite`, `piperead` and `pipeclose` run under `pi->lock`; a point of their code is
named by where it is in the loops. What a `copyin` or `copyout` of one byte does is the
input of the stretch: the byte that is in user memory (for `copyout` any byte), or none at
an address that faults.

Not in the source are `stored` and `returned`, the bytes that writes have put into the
pipe and that reads have copied to users, oldest first, and `freed`, set when the last
`pipeclose` gives back the page.
-/

namespace Xv6

abbrev PIPESIZE : ℕ := 512

/-- `struct pipe`, less the lock. -/
structure Pipe where
  data : Fin PIPESIZE → UInt8
  nread : UInt32
  nwrite : UInt32
  readopen : Bool
  writeopen : Bool
  stored : List UInt8
  returned : List UInt8
  freed : Bool

namespace Pipe

def slot (n : UInt32) : Fin PIPESIZE := ⟨n.toNat % PIPESIZE, Nat.mod_lt _ (by norm_num)⟩

def Empty (pi : Pipe) : Prop := pi.nread = pi.nwrite

def Full (pi : Pipe) : Prop := pi.nwrite = pi.nread + UInt32.ofNat PIPESIZE

instance (pi : Pipe) : Decidable pi.Empty := inferInstanceAs (Decidable (_ = _))

instance (pi : Pipe) : Decidable pi.Full := inferInstanceAs (Decidable (_ = _))

/-- `pi->data[pi->nwrite++ % PIPESIZE] = ch`. -/
def put (pi : Pipe) (ch : UInt8) : Pipe :=
  { pi with
    data := Function.update pi.data (slot pi.nwrite) ch
    nwrite := pi.nwrite + 1
    stored := pi.stored ++ [ch] }

/-- `ch = pi->data[pi->nread++ % PIPESIZE]`, for a byte that cannot be copied to
the user. -/
def drop (pi : Pipe) : Pipe := { pi with nread := pi.nread + 1 }

/-- The same, and the byte is copied to the user. -/
def get (pi : Pipe) : Pipe :=
  { pi.drop with returned := pi.returned ++ [pi.data (slot pi.nread)] }

inductive Chan
  | nread
  | nwrite
  deriving DecidableEq

/-- The points of the code. `write` is the head of the loop of `pipewrite`,
with `dirty` if a byte was stored since the lock was taken, and `put` is
past the test of `readopen` and `killed`; `full` and `empty` are the calls of
`sleep`; `read` and `get` are the heads of the loops of `piperead`. -/
inductive Point
  | write (n i : ℤ) (dirty : Bool)
  | put (n i : ℤ)
  | full (n i : ℤ)
  | read (n : ℤ)
  | empty (n : ℤ)
  | get (n i : ℤ)
  | close (writable : Bool)
  | closed
  | ret
  deriving DecidableEq

def start : Point → Bool
  | .write _ i dirty => i = 0 ∧ dirty = false
  | .read _ => true
  | .close _ => true
  | _ => false

def exec (pi : Pipe) (killed : Bool) (io : Option UInt8) :
    Point → Pipe × Monitor.Next Point Chan
  | .write n i _ =>
    if i < n then
      if pi.readopen = false ∨ killed then (pi, .done) else (pi, .goto (.put n i))
    else (pi, .wakeup .nread .ret)
  | .put n i =>
    if pi.Full then (pi, .wakeup .nread (.full n i))
    else
      match io with
      | none => (pi, .wakeup .nread .ret)
      | some ch => (pi.put ch, .goto (.write n (i + 1) true))
  | .full n i => (pi, .sleep .nwrite (.write n i false))
  | .read n =>
    if pi.Empty ∧ pi.writeopen then
      if killed then (pi, .done) else (pi, .goto (.empty n))
    else (pi, .goto (.get n 0))
  | .empty n => (pi, .sleep .nread (.read n))
  | .get n i =>
    if i < n then
      if pi.Empty then (pi, .wakeup .nwrite .ret)
      else
        match io with
        | none => (pi.drop, .wakeup .nwrite .ret)
        | some _ => (pi.get, .goto (.get n (i + 1)))
    else (pi, .wakeup .nwrite .ret)
  | .close true => ({ pi with writeopen := false }, .wakeup .nread .closed)
  | .close false => ({ pi with readopen := false }, .wakeup .nwrite .closed)
  | .closed =>
    if pi.readopen = false ∧ pi.writeopen = false then ({ pi with freed := true }, .done)
    else (pi, .done)
  | .ret => (pi, .done)

def code : Monitor.Code Pipe Point Chan (Option UInt8) where
  start := start
  exec pi k killed io := if pi.freed then none else some (exec pi killed io k)

structure New (pi : Pipe) : Prop where
  nread : pi.nread = 0
  nwrite : pi.nwrite = 0
  readopen : pi.readopen = true
  writeopen : pi.writeopen = true
  stored : pi.stored = []
  returned : pi.returned = []
  freed : pi.freed = false

abbrev Sys (N : ℕ) := Monitor.Sys N Pipe Point Chan

abbrev Act (N : ℕ) := Monitor.Act N Point (Option UInt8)

abbrev Interleaving {N : ℕ} (ok : Sys N → Act N → Prop) : Sys N → Prop :=
  Reachable (Monitor.Sys.Initial New) ok (Monitor.Sys.step code)

end Pipe

end Xv6
