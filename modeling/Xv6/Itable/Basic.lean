import Xv6.Lib.Machine
import Xv6.Fs.Inode

/-!
The inode table under interleaving.

`N` processes call `ialloc`, `iget`, `idup`, `ilock`, `iupdate`, `itrunc`, `iunlock` and
`iput` of `kernel/fs.c`. A step is a section of `itable.lock`, a section of a buffer lock
(between `bread` and `brelse` of an inode block), or a stretch between the two under
`ip->lock`. The disk inodes are those that the buffer cache shows, and the blocks of a
file that `itrunc` frees are left out.

Not in the source are `held`, the number of references to an entry that a process has;
`via`, whose reference a process locks an entry through; and `dirty`, set from a change of
the in-memory inode to the next `iupdate`. Processes that share an open file lock its
inode through the reference of one of them, which may be handed on to the process that
closes the file.

A reference count is an integer without a bound. It stays far from the range of an `int`:
the kernel has a reference for each entry of the file table, for the current directory of
each process, and a few for the call that each is in.
-/

namespace Xv6.Itable

open Function (update)

/-- `struct inode`; `lock` is who holds the sleep lock. -/
structure Entry (N : ℕ) where
  dev : ℕ
  inum : ℕ
  ref : ℤ
  valid : Bool
  lock : Option (Fin N)
  d : Dinode

def Entry.inode {N : ℕ} (e : Entry N) : Inode :=
  ⟨e.dev, e.inum, e.ref, e.lock.isSome, e.valid, e.d⟩

/-- Where a process is. `ialloc` is at inode `inum` of its loop and `allocated`
before its `iget`; `lock` to `loaded` are in `ilock`; `trunc` and `truncUp` are
in `itrunc`, called by `iput` or not; `putType` to `putDec` are the rest of
`iput`. -/
inductive Pc
  | idle
  | ialloc (dev inum : ℕ) (type : ℤ)
  | allocated (dev inum : ℕ)
  | lock (k : ℕ)
  | load (k : ℕ)
  | loaded (k : ℕ)
  | trunc (k : ℕ) (put : Bool)
  | truncUp (k : ℕ) (put : Bool)
  | putType (k : ℕ)
  | putUp (k : ℕ)
  | putInvalid (k : ℕ)
  | putUnlock (k : ℕ)
  | putDec (k : ℕ)
  deriving DecidableEq

structure Sys (N : ℕ) where
  tab : ℕ → Entry N
  disk : ℕ → ℕ → Dinode
  ninodes : ℕ
  pc : Fin N → Pc
  held : Fin N → ℕ → ℕ
  via : Fin N → ℕ → Fin N
  dirty : ℕ → Bool

inductive Act (N : ℕ)
  | ialloc (p : Fin N) (dev : ℕ) (type : ℤ)
  | iget (p : Fin N) (dev inum : ℕ)
  | idup (p : Fin N) (k : ℕ)
  | ilock (p o : Fin N) (k : ℕ)
  | iunlock (p : Fin N) (k : ℕ)
  | iupdate (p : Fin N) (k : ℕ)
  | change (p : Fin N) (k : ℕ) (d : Dinode)
  | itrunc (p : Fin N) (k : ℕ)
  | iput (p : Fin N) (k : ℕ)
  | give (p q : Fin N) (k : ℕ)
  | step (p : Fin N)

/-- The step cannot be taken now, the kernel panics, or it goes to sleep with
`itable.lock` held. -/
inductive Fault
  | disabled
  | noInodes
  | ilock
  | noType
  | iunlock
  | asleep
  deriving DecidableEq

def truncated (d : Dinode) : Dinode := { d with size := 0, addrs := fun _ => 0 }

namespace Sys

variable {N : ℕ}

def setEntry (s : Sys N) (k : ℕ) (f : Entry N → Entry N) : Sys N :=
  { s with tab := update s.tab k (f (s.tab k)) }

def setDisk (s : Sys N) (dev inum : ℕ) (d : Dinode) : Sys N :=
  { s with disk := update s.disk dev (update (s.disk dev) inum d) }

def goto (s : Sys N) (p : Fin N) (c : Pc) : Sys N := { s with pc := update s.pc p c }

def setHeld (s : Sys N) (p : Fin N) (k n : ℕ) : Sys N :=
  { s with held := update s.held p (update (s.held p) k n) }

def setVia (s : Sys N) (p : Fin N) (k : ℕ) (o : Fin N) : Sys N :=
  { s with via := update s.via p (update (s.via p) k o) }

def setDirty (s : Sys N) (k : ℕ) (b : Bool) : Sys N :=
  { s with dirty := update s.dirty k b }

def dinode (s : Sys N) (k : ℕ) : Dinode := s.disk (s.tab k).dev (s.tab k).inum

def take (s : Sys N) (p : Fin N) (k : ℕ) : Sys N := s.setHeld p k (s.held p k + 1)

def drop (s : Sys N) (p : Fin N) (k : ℕ) : Sys N := s.setHeld p k (s.held p k - 1)

def iget (s : Sys N) (p : Fin N) (dev inum : ℕ) : Except Fault (Sys N) :=
  match igetScan (fun k => (s.tab k).inode) dev inum NINODE 0 none with
  | .inl k => .ok ((s.setEntry k fun e => { e with ref := e.ref + 1 }).take p k)
  | .inr none => .error .noInodes
  | .inr (some k) =>
    .ok ((s.setEntry k fun e =>
      { e with dev := dev, inum := inum, ref := 1, valid := false }).take p k)

def iupdate (s : Sys N) (k : ℕ) : Sys N :=
  (s.setDisk (s.tab k).dev (s.tab k).inum (s.tab k).d).setDirty k false

def change (s : Sys N) (k : ℕ) (d : Dinode) : Sys N :=
  (s.setEntry k fun e => { e with d := d }).setDirty k true

def run (s : Sys N) (p : Fin N) : Except Fault (Sys N) :=
  match s.pc p with
  | .ialloc dev inum type =>
    if inum < s.ninodes then
      if (s.disk dev inum).type = 0 then
        .ok ((s.setDisk dev inum { Dinode.zero with type := type }).goto p (.allocated dev inum))
      else .ok (s.goto p (.ialloc dev (inum + 1) type))
    else .ok (s.goto p .idle)
  | .allocated dev inum => (s.goto p .idle).iget p dev inum
  | .lock k =>
    if (s.tab k).lock = none then
      .ok ((s.setEntry k fun e => { e with lock := some p }).goto p (.load k))
    else .error .disabled
  | .load k =>
    if (s.tab k).valid then .ok (s.goto p .idle)
    else .ok ((s.setEntry k fun e => { e with d := s.dinode k }).goto p (.loaded k))
  | .loaded k =>
    if (s.tab k).d.type = 0 then .error .noType
    else .ok ((s.setEntry k fun e => { e with valid := true }).goto p .idle)
  | .trunc k put => .ok ((s.change k (truncated (s.tab k).d)).goto p (.truncUp k put))
  | .truncUp k put => .ok ((s.iupdate k).goto p (if put then .putType k else .idle))
  | .putType k => .ok ((s.change k { (s.tab k).d with type := 0 }).goto p (.putUp k))
  | .putUp k => .ok ((s.iupdate k).goto p (.putInvalid k))
  | .putInvalid k => .ok ((s.setEntry k fun e => { e with valid := false }).goto p (.putUnlock k))
  | .putUnlock k => .ok ((s.setEntry k fun e => { e with lock := none }).goto p (.putDec k))
  | .putDec k => .ok (((s.setEntry k fun e => { e with ref := e.ref - 1 }).drop p k).goto p .idle)
  | .idle => .error .disabled

def step (s : Sys N) : Act N → Except Fault (Sys N)
  | .step p => s.run p
  | .ialloc p dev type =>
    if s.pc p = .idle then .ok (s.goto p (.ialloc dev 1 type)) else .error .disabled
  | .iget p dev inum => if s.pc p = .idle then s.iget p dev inum else .error .disabled
  | .idup p k =>
    if s.pc p = .idle then
      .ok ((s.setEntry k fun e => { e with ref := e.ref + 1 }).take p k)
    else .error .disabled
  | .ilock p o k =>
    if s.pc p = .idle then
      if (s.tab k).ref < 1 then .error .ilock else .ok ((s.setVia p k o).goto p (.lock k))
    else .error .disabled
  | .iunlock p k =>
    if s.pc p = .idle then
      if (s.tab k).lock ≠ some p ∨ (s.tab k).ref < 1 then .error .iunlock
      else .ok (s.setEntry k fun e => { e with lock := none })
    else .error .disabled
  | .iupdate p k => if s.pc p = .idle then .ok (s.iupdate k) else .error .disabled
  | .change p k d => if s.pc p = .idle then .ok (s.change k d) else .error .disabled
  | .itrunc p k => if s.pc p = .idle then .ok (s.goto p (.trunc k false)) else .error .disabled
  | .iput p k =>
    if s.pc p = .idle then
      if (s.tab k).ref = 1 ∧ (s.tab k).valid ∧ (s.tab k).d.nlink = 0 then
        if (s.tab k).lock = none then
          .ok (((s.setEntry k fun e => { e with lock := some p }).setVia p k p).goto p
            (.trunc k true))
        else .error .asleep
      else .ok ((s.setEntry k fun e => { e with ref := e.ref - 1 }).drop p k)
    else .error .disabled
  | .give p q k => if s.pc q = .idle then .ok ((s.drop p k).take q k) else .error .disabled

end Sys

end Xv6.Itable
