import Xv6.Log.Basic
import Xv6.Fs.Layout
import Xv6.Vm.Copy

/-!
The state of the file system and the computations on it.

`Fs` is what the system calls of `kernel/sysfile.c` share: the buffer cache and the log,
the inode table, the file table and, of each process, its open files and current
directory. A system call is a computation `M` that changes this state and may stop before
it returns: by a panic, by a sleep that nothing in the call will end, or at a null
pointer.

Pointers to a `struct inode` or a `struct file` are indices into their tables. Not in the
source are `full`, which decides which calls of `balloc` find the disk full although it is
not, and `trace`, which records the calls of `begin_op`, `end_op`, `iput` and `log_write`.
-/

namespace Xv6

/-- In-memory copy of an inode; `d` is the copy of the disk inode. -/
structure Inode where
  dev : ℕ
  inum : ℕ
  ref : ℤ
  locked : Bool
  valid : Bool
  d : Dinode

inductive FdType
  | FD_NONE
  | FD_PIPE
  | FD_INODE
  | FD_DEVICE
  deriving DecidableEq

/-- `struct file`, less the pipe. -/
structure File where
  type : FdType
  ref : ℤ
  readable : Bool
  writable : Bool
  ip : ℕ
  off : ℕ
  major : ℤ

inductive ProcState
  | UNUSED
  | LIVE
  | ZOMBIE
  deriving DecidableEq

structure Proc where
  state : ProcState
  cwd : Option ℕ
  ofile : ℕ → Option ℕ

inductive Event
  | beginOp
  | endOp
  | iput
  | logWrite (b : ℕ)
  deriving DecidableEq

structure Fs where
  sb : Superblock
  bio : Bio
  log : Log
  itable : ℕ → Inode
  ftable : ℕ → File
  proc : ℕ → Proc
  full : List Bool
  trace : List Event

inductive FsPanic
  | log (p : LogPanic)
  | freeingFreeBlock
  | igetNoInodes
  | ilock
  | ilockNoType
  | iunlock
  | bmapOutOfRange
  | dirlookupNotDir
  | dirlookupRead
  | dirlinkRead
  | isdiremptyReadi
  | unlinkNlink
  | unlinkWritei
  | filedup
  | fileclose
  | fileread
  | filewrite
  | loadseg
  | initExiting
  deriving DecidableEq

/-- Why a computation does not return. -/
inductive Stop
  | panic (p : FsPanic)
  | blocked
  | nullPointer
  deriving DecidableEq

abbrev M (α : Type) := StateT Fs (Except Stop) α

/-! ### Buffers and the log -/

def bread (b : ℕ) : M Block := do
  let s ← get
  return s.bio.bread b

def store (b : ℕ) (f : Block → Block) : M Unit :=
  modify fun s => { s with bio := s.bio.setData b (f (s.bio.bread b)) }

def emit (e : Event) : M Unit := modify fun s => { s with trace := s.trace ++ [e] }

/-- `log_write`; a block that is not in the header yet is pinned. -/
def logWrite (b : ℕ) : M Unit := do
  emit (.logWrite b)
  let s ← get
  match s.log.logWrite b with
  | .error p => throw (.panic (.log p))
  | .ok log => set { s with log := log, bio := if b ∈ s.log.lh then s.bio else s.bio.bpin b }

def beginOp : M Unit := do
  emit .beginOp
  let s ← get
  match s.log.beginOp with
  | none => throw .blocked
  | some log => set { s with log := log }

/-- `end_op`; no other operation runs while this one commits. -/
def endOp : M Unit := do
  emit .endOp
  let s ← get
  match s.log.endOp with
  | .error p => throw (.panic (.log p))
  | .ok (false, log) => set { s with log := log }
  | .ok (true, log) =>
    let (log, bio) := log.commit s.bio
    set { s with log := log.endCommit, bio := bio }

/-! ### The inode table -/

def inode (ip : ℕ) : M Inode := do
  let s ← get
  return s.itable ip

def modifyInode (ip : ℕ) (f : Inode → Inode) : M Unit :=
  modify fun s => { s with itable := Function.update s.itable ip (f (s.itable ip)) }

def modifyDinode (ip : ℕ) (f : Dinode → Dinode) : M Unit :=
  modifyInode ip fun e => { e with d := f e.d }

def acquiresleep (ip : ℕ) : M Unit := do
  if (← inode ip).locked then throw .blocked
  else modifyInode ip fun e => { e with locked := true }

def releasesleep (ip : ℕ) : M Unit := modifyInode ip fun e => { e with locked := false }

end Xv6
