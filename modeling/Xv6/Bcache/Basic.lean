import Xv6.Lib.Machine
import Xv6.Lib.Ring
import Xv6.Bio

/-!
The buffer cache of `kernel/bio.c` under interleaving.

`N` processes call `bread`, `bwrite`, `brelse`, `bpin` and `bunpin`, and store data in
buffers. A step is a section of `bcache.lock`, or a stretch under a buffer's lock that
ends at a transfer from or to the disk. Buffers are numbered. There is one disk, and
`virtio_disk_rw` looks at the block number only. A reference count is a natural number:
there is one for each process that waits for or has the buffer and for each pin, far from
the range of a `uint`.

Not in the source are `flat`, the data last stored in each block; `dirty`, set while a
buffer has data that was not written since; `pins`, the calls of `bpin` less those of
`bunpin`; and `drop`, when the count of a buffer last became 0 (0 if it never did), on a
clock that starts at 1.
-/

namespace Xv6

open Function (update)

abbrev NBUF : ℕ := MAXOPBLOCKS * 3

namespace Bcache

/-- `struct buf`, less the links; `lock` is who holds the sleep lock. -/
structure Buf (N : ℕ) where
  valid : Bool
  dev : ℕ
  blockno : ℕ
  refcnt : ℕ
  lock : Option (Fin N)
  data : Block

abbrev head : ℕ := NBUF

/-- Where a process is: in `bread` of a block, waiting for the lock of buffer
`k`, before it looks at `valid` and before it sets it; or in `brelse`, after it
has released the lock. -/
inductive Pc
  | idle
  | acquire (dev blockno k : ℕ)
  | fill (dev blockno k : ℕ)
  | filled (dev blockno k : ℕ)
  | release (k : ℕ)
  deriving DecidableEq

structure Sys (N : ℕ) where
  buf : ℕ → Buf N
  links : (ℕ → ℕ) × (ℕ → ℕ)
  disk : ℕ → Block
  pc : Fin N → Pc
  flat : ℕ → Block
  dirty : ℕ → Bool
  pins : ℕ → ℕ
  drop : ℕ → ℕ
  clock : ℕ

inductive Act (N : ℕ)
  | bread (p : Fin N) (dev blockno : ℕ)
  | store (p : Fin N) (k : ℕ) (d : Block)
  | bwrite (p : Fin N) (k : ℕ)
  | brelse (p : Fin N) (k : ℕ)
  | bpin (p : Fin N) (k : ℕ)
  | bunpin (p : Fin N) (k : ℕ)
  | step (p : Fin N)

inductive Fault
  | disabled
  | noBuffers
  | bwrite
  | brelse
  | loop
  deriving DecidableEq

/-- The links after `binit` has put the first `n` buffers into the list. -/
def binit : ℕ → (ℕ → ℕ) × (ℕ → ℕ)
  | 0 => (fun _ => head, fun _ => head)
  | n + 1 => pushFront (binit n) head n

namespace Sys

variable {N : ℕ}

def next (s : Sys N) : ℕ → ℕ := s.links.1

def prev (s : Sys N) : ℕ → ℕ := s.links.2

def setBuf (s : Sys N) (k : ℕ) (x : Buf N) : Sys N := { s with buf := update s.buf k x }

def setDirty (s : Sys N) (k : ℕ) (b : Bool) : Sys N :=
  { s with dirty := update s.dirty k b }

def setPins (s : Sys N) (k n : ℕ) : Sys N := { s with pins := update s.pins k n }

def goto (s : Sys N) (p : Fin N) (c : Pc) : Sys N := { s with pc := update s.pc p c }

def lookup (s : Sys N) (dev blockno : ℕ) : Option (Option ℕ) :=
  scan s.next head (fun k => (s.buf k).dev = dev ∧ (s.buf k).blockno = blockno) (NBUF + 1)
    (s.next head)

def lru (s : Sys N) : Option (Option ℕ) :=
  scan s.prev head (fun k => (s.buf k).refcnt = 0) (NBUF + 1) (s.prev head)

def bget (s : Sys N) (p : Fin N) (dev blockno : ℕ) : Except Fault (Sys N) :=
  match s.lookup dev blockno with
  | none => .error .loop
  | some (some k) =>
    .ok ((s.setBuf k { s.buf k with refcnt := (s.buf k).refcnt + 1 }).goto p
      (.acquire dev blockno k))
  | some none =>
    match s.lru with
    | none => .error .loop
    | some none => .error .noBuffers
    | some (some k) =>
      .ok (((s.setBuf k
        { s.buf k with dev := dev, blockno := blockno, valid := false, refcnt := 1 }).setDirty k
          false).goto p (.acquire dev blockno k))

def unref (s : Sys N) (k : ℕ) : Sys N :=
  let s' := s.setBuf k { s.buf k with refcnt := (s.buf k).refcnt - 1 }
  if (s.buf k).refcnt - 1 = 0 then
    { s' with
      drop := update s.drop k s.clock
      clock := s.clock + 1 }
  else s'

def release (s : Sys N) (k : ℕ) : Sys N :=
  if (s.buf k).refcnt - 1 = 0 then
    { s.unref k with links := pushFront (unlink s.links k) head k }
  else s.unref k

def run (s : Sys N) (p : Fin N) : Except Fault (Sys N) :=
  match s.pc p with
  | .idle => .error .disabled
  | .acquire dev blockno k =>
    if (s.buf k).lock = none then
      .ok ((s.setBuf k { s.buf k with lock := some p }).goto p (.fill dev blockno k))
    else .error .disabled
  | .fill dev blockno k =>
    if (s.buf k).valid then .ok (s.goto p .idle)
    else
      .ok ((s.setBuf k { s.buf k with data := s.disk (s.buf k).blockno }).goto p
        (.filled dev blockno k))
  | .filled _ _ k => .ok ((s.setBuf k { s.buf k with valid := true }).goto p .idle)
  | .release k => .ok ((s.release k).goto p .idle)

def step (s : Sys N) : Act N → Except Fault (Sys N)
  | .step p => s.run p
  | .bread p dev blockno => if s.pc p = .idle then s.bget p dev blockno else .error .disabled
  | .store p k d =>
    if s.pc p = .idle then
      .ok { (s.setBuf k { s.buf k with data := d }).setDirty k true with
        flat := update s.flat (s.buf k).blockno d }
    else .error .disabled
  | .bwrite p k =>
    if s.pc p = .idle then
      if (s.buf k).lock = some p then
        .ok { s.setDirty k false with
          disk := update s.disk (s.buf k).blockno (s.buf k).data }
      else .error .bwrite
    else .error .disabled
  | .brelse p k =>
    if s.pc p = .idle then
      if (s.buf k).lock = some p then
        .ok ((s.setBuf k { s.buf k with lock := none }).goto p (.release k))
      else .error .brelse
    else .error .disabled
  | .bpin p k =>
    if s.pc p = .idle then
      .ok ((s.setBuf k { s.buf k with refcnt := (s.buf k).refcnt + 1 }).setPins k (s.pins k + 1))
    else .error .disabled
  | .bunpin p k =>
    if s.pc p = .idle then
      .ok ((s.unref k).setPins k (s.pins k - 1))
    else .error .disabled

end Sys

end Bcache

end Xv6
