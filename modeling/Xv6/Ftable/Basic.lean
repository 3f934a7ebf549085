import Xv6.Lib.Machine
import Xv6.Fs.State

/-!
Open files under interleaving.

`N` processes call `open`, `dup`, `close`, `pipe`, `fork` and `exit`. A state has the file
table of `kernel/file.c`, the descriptors of every process, the pages that are pipes, and
the point at which each process is. A step is a section of `ftable.lock` or of a pipe's
lock, or a stretch between two of them in which a process works on its own descriptors, or
on files that nobody else can see. The inode that `open` has found or created, and what
`kalloc` and `copyout` do, are inputs.

Not in the source are the numbers that tell apart the inode references and the pipes that
files were opened for (`id` and `next`), and `log`, which records what was opened, what
was passed to `pipeclose` and `iput`, and which pipes were freed, newest first.

The count `ref` of a file is an integer without a bound. It is the number of descriptors
that the file is in, with the one that a call is about to set or has cleared (`Counted`),
so that `NPROC` processes get nowhere near the range of an `int`.
-/

namespace Xv6.Ftable

open Function (update)

structure File extends Xv6.File where
  pipe : ℕ
  id : ℕ

structure Page where
  readopen : Bool
  writeopen : Bool
  id : ℕ

/-- What a file is open for: an end of a pipe, for writing or not, or an inode. -/
inductive Obj
  | pipe (id : ℕ) (writable : Bool)
  | inode (id : ℕ)
  deriving DecidableEq

inductive Event
  | opened (e : Obj)
  | closed (e : Obj)
  | freed (id : ℕ)
  deriving DecidableEq

/-- What `sys_open` knows when it allocates a file: the inode, its type and
device, and the mode. -/
structure Open where
  ip : ℕ
  type : ℤ
  major : ℤ
  omode : ℕ

/-- What comes after a call of `fileclose`: return to the user, go on with the
loop of `exit`, the rest of the error path of `sys_open`, or another
`fileclose`. -/
inductive Cont
  | ret
  | exit (fd f : ℕ)
  | openFail
  | fileclose (f : ℕ)

/-- Where a process is. The slot of a process may be unused (`dead`) or be that
of a child that `fork` is at (`embryo`); `idle` is in user mode. In `dup` the
descriptor is set and the file is not yet counted. `openFd` to `openEnd`, `pipe1`
to `pipeCopy`, `forkSet` and `exitClear` are points in the calls that they are
named after; `release` and `put` are in `fileclose`, when the entry is free. -/
inductive Pc (N : ℕ)
  | dead
  | embryo
  | idle
  | dup (f : ℕ)
  | open (o : Open)
  | openFd (o : Open) (f : ℕ)
  | openSet (o : Open) (f fd : ℕ)
  | openEnd
  | openFail
  | pipe
  | pipe1 (f0 : ℕ)
  | pipeKalloc (f0 f1 : ℕ)
  | pipeFd (f0 f1 : ℕ)
  | pipeFd1 (fd0 f0 f1 : ℕ)
  | pipeCopy (fd0 fd1 f0 f1 : ℕ)
  | fork (np : Fin N) (i : ℕ)
  | forkSet (np : Fin N) (i f : ℕ)
  | exit (fd : ℕ)
  | exitClear (fd f : ℕ)
  | fileclose (f : ℕ) (k : Cont)
  | release (ff : File) (k : Cont)
  | put (ff : File) (k : Cont)

structure Sys (N : ℕ) where
  file : ℕ → File
  ofile : Fin N → ℕ → Option ℕ
  page : ℕ → Option Page
  trans : Fin N → Bool
  pc : Fin N → Pc N
  next : ℕ
  log : List Event

inductive Act (N : ℕ)
  | open (p : Fin N) (o : Open)
  | dup (p : Fin N) (fd : ℤ)
  | close (p : Fin N) (fd : ℤ)
  | pipe (p : Fin N)
  | fork (p np : Fin N)
  | exit (p : Fin N)
  | step (p : Fin N)
  | kalloc (p : Fin N) (page : Option ℕ)
  | copyout (p : Fin N) (ok : Bool)

/-- The step cannot be taken now, the kernel panics, a transaction begins inside
another one, or a pipe is closed that is not there. -/
inductive Fault
  | disabled
  | filedup
  | fileclose
  | nested
  | pipeclose
  deriving DecidableEq

def Page.close (x : Page) (writable : Bool) : Page :=
  if writable then { x with writeopen := false } else { x with readopen := false }

namespace File

def openInode (x : File) (o : Open) (id : ℕ) : File :=
  { x with
    type := if o.type = T_DEVICE then .FD_DEVICE else .FD_INODE
    major := if o.type = T_DEVICE then o.major else x.major
    off := if o.type = T_DEVICE then x.off else 0
    ip := o.ip
    readable := o.omode &&& O_WRONLY = 0
    writable := o.omode &&& O_WRONLY ≠ 0 ∨ o.omode &&& O_RDWR ≠ 0
    id := id }

def openPipe (x : File) (writable : Bool) (pi id : ℕ) : File :=
  { x with
    type := .FD_PIPE
    readable := !writable
    writable := writable
    pipe := pi
    id := id }

def clear (x : File) : File := { x with ref := 0, type := .FD_NONE }

def obj (x : File) : Option Obj :=
  match x.type with
  | .FD_NONE => none
  | .FD_PIPE => some (.pipe x.id x.writable)
  | .FD_INODE => some (.inode x.id)
  | .FD_DEVICE => some (.inode x.id)

end File

def Cont.resume {N : ℕ} : Cont → Pc N
  | .ret => .idle
  | .exit fd f => .exitClear fd f
  | .openFail => .openFail
  | .fileclose f => .fileclose f .ret

namespace Sys

variable {N : ℕ}

def setFile (s : Sys N) (f : ℕ) (x : File) : Sys N := { s with file := update s.file f x }

def setRef (s : Sys N) (f : ℕ) (n : ℤ) : Sys N := s.setFile f { s.file f with ref := n }

def setFd (s : Sys N) (p : Fin N) (fd : ℕ) (f : Option ℕ) : Sys N :=
  { s with ofile := update s.ofile p (update (s.ofile p) fd f) }

def setPage (s : Sys N) (pi : ℕ) (x : Option Page) : Sys N :=
  { s with page := update s.page pi x }

def setTrans (s : Sys N) (p : Fin N) (b : Bool) : Sys N :=
  { s with trans := update s.trans p b }

def goto (s : Sys N) (p : Fin N) (c : Pc N) : Sys N := { s with pc := update s.pc p c }

def record (s : Sys N) (e : Event) : Sys N := { s with log := e :: s.log }

def filealloc (s : Sys N) : Option ℕ := firstFree (fun f => (s.file f).ref = 0) NFILE 0

def fdalloc (s : Sys N) (p : Fin N) : Option ℕ :=
  firstFree (fun fd => s.ofile p fd = none) NOFILE 0

def argfd (s : Sys N) (p : Fin N) (fd : ℤ) : Option ℕ :=
  if fd < 0 ∨ NOFILE ≤ fd then none else s.ofile p fd.toNat

/-- `begin_op`, by a process that should have no transaction open. -/
def beginOp (s : Sys N) (p : Fin N) : Except Fault (Sys N) :=
  if s.trans p then .error .nested else .ok (s.setTrans p true)

def openFile (s : Sys N) (o : Open) (f : ℕ) : Sys N :=
  { (s.setFile f ((s.file f).openInode o s.next)).record (.opened (.inode s.next)) with
    next := s.next + 1 }

def openPipe (s : Sys N) (pi f0 f1 : ℕ) : Sys N :=
  let s₀ := s.setPage pi (some ⟨true, true, s.next⟩)
  let s₁ := (s₀.setFile f0 ((s₀.file f0).openPipe false pi s.next)).record
    (.opened (.pipe s.next false))
  let s₂ := (s₁.setFile f1 ((s₁.file f1).openPipe true pi s.next)).record
    (.opened (.pipe s.next true))
  { s₂ with next := s.next + 1 }

def pipeclose (s : Sys N) (ff : File) : Except Fault (Sys N) :=
  match s.page ff.pipe with
  | none => .error .pipeclose
  | some x =>
    let y := x.close ff.writable
    let s := s.record (.closed (.pipe ff.id ff.writable))
    if y.readopen = false ∧ y.writeopen = false then
      .ok ((s.setPage ff.pipe none).record (.freed x.id))
    else .ok (s.setPage ff.pipe (some y))

/-- `filealloc` in the middle of a call, with what comes after it. -/
def allocThen (s : Sys N) (p : Fin N) (fail : Pc N) (next : ℕ → Pc N) : Sys N :=
  match s.filealloc with
  | none => s.goto p fail
  | some f => (s.setRef f 1).goto p (next f)

def run (s : Sys N) (p : Fin N) : Except Fault (Sys N) :=
  match s.pc p with
  | .dup f =>
    if (s.file f).ref < 1 then .error .filedup
    else .ok ((s.setRef f ((s.file f).ref + 1)).goto p .idle)
  | .open o => .ok (s.allocThen p .openFail (.openFd o))
  | .openFd o f =>
    match s.fdalloc p with
    | none => .ok (s.goto p (.fileclose f .openFail))
    | some fd => .ok ((s.setFd p fd (some f)).goto p (.openSet o f fd))
  | .openSet o f _ => .ok ((s.openFile o f).goto p .openEnd)
  | .openEnd => .ok ((s.setTrans p false).goto p .idle)
  | .openFail => .ok ((s.setTrans p false).goto p .idle)
  | .pipe => .ok (s.allocThen p .idle .pipe1)
  | .pipe1 f0 => .ok (s.allocThen p (.fileclose f0 .ret) (.pipeKalloc f0))
  | .pipeFd f0 f1 =>
    match s.fdalloc p with
    | none => .ok (s.goto p (.fileclose f0 (.fileclose f1)))
    | some fd0 => .ok ((s.setFd p fd0 (some f0)).goto p (.pipeFd1 fd0 f0 f1))
  | .pipeFd1 fd0 f0 f1 =>
    match s.fdalloc p with
    | none => .ok ((s.setFd p fd0 none).goto p (.fileclose f0 (.fileclose f1)))
    | some fd1 => .ok ((s.setFd p fd1 (some f1)).goto p (.pipeCopy fd0 fd1 f0 f1))
  | .fork np i =>
    if i < NOFILE then
      match s.ofile p i with
      | none => .ok (s.goto p (.fork np (i + 1)))
      | some f =>
        if (s.file f).ref < 1 then .error .filedup
        else .ok ((s.setRef f ((s.file f).ref + 1)).goto p (.forkSet np i f))
    else .ok ((s.goto np .idle).goto p .idle)
  | .forkSet np i f => .ok ((s.setFd np i (some f)).goto p (.fork np (i + 1)))
  | .exit fd =>
    if fd < NOFILE then
      match s.ofile p fd with
      | none => .ok (s.goto p (.exit (fd + 1)))
      | some f => .ok (s.goto p (.fileclose f (.exit fd f)))
    else .ok (s.goto p .dead)
  | .exitClear fd _ => .ok ((s.setFd p fd none).goto p (.exit (fd + 1)))
  | .fileclose f k =>
    let ff := s.file f
    if ff.ref < 1 then .error .fileclose
    else if ff.ref - 1 > 0 then .ok ((s.setRef f (ff.ref - 1)).goto p k.resume)
    else .ok ((s.setFile f ff.clear).goto p (.release ff k))
  | .release ff k =>
    match ff.type with
    | .FD_NONE => .ok (s.goto p k.resume)
    | .FD_PIPE => (s.pipeclose ff).map fun s => s.goto p k.resume
    | _ => (s.beginOp p).map fun s => s.goto p (.put ff k)
  | .put ff k => .ok (((s.record (.closed (.inode ff.id))).setTrans p false).goto p k.resume)
  | _ => .error .disabled

def step (s : Sys N) : Act N → Except Fault (Sys N)
  | .step p => s.run p
  | .open p o =>
    match s.pc p with
    | .idle => (s.beginOp p).map fun s => s.goto p (.open o)
    | _ => .error .disabled
  | .dup p fd =>
    match s.pc p with
    | .idle =>
      match s.argfd p fd with
      | none => .ok s
      | some f =>
        match s.fdalloc p with
        | none => .ok s
        | some fd' => .ok ((s.setFd p fd' (some f)).goto p (.dup f))
    | _ => .error .disabled
  | .close p fd =>
    match s.pc p with
    | .idle =>
      match s.argfd p fd with
      | none => .ok s
      | some f => .ok ((s.setFd p fd.toNat none).goto p (.fileclose f .ret))
    | _ => .error .disabled
  | .pipe p =>
    match s.pc p with
    | .idle => .ok (s.goto p .pipe)
    | _ => .error .disabled
  | .fork p np =>
    match s.pc p, s.pc np with
    | .idle, .dead => .ok ((s.goto np .embryo).goto p (.fork np 0))
    | _, _ => .error .disabled
  | .exit p =>
    match s.pc p with
    | .idle => .ok (s.goto p (.exit 0))
    | _ => .error .disabled
  | .kalloc p pi =>
    match s.pc p, pi with
    | .pipeKalloc f0 f1, none => .ok (s.goto p (.fileclose f0 (.fileclose f1)))
    | .pipeKalloc f0 f1, some pi =>
      match s.page pi with
      | none => .ok ((s.openPipe pi f0 f1).goto p (.pipeFd f0 f1))
      | some _ => .error .disabled
    | _, _ => .error .disabled
  | .copyout p ok =>
    match s.pc p with
    | .pipeCopy fd0 fd1 f0 f1 =>
      if ok then .ok (s.goto p .idle)
      else
        .ok (((s.setFd p fd0 none).setFd p fd1 none).goto p (.fileclose f0 (.fileclose f1)))
    | _ => .error .disabled

end Sys

end Xv6.Ftable
