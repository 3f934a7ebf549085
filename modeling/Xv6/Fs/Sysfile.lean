import Xv6.Lib.Machine
import Xv6.Fs.Dir

/-!
Open files, `create` and `open`: `kernel/file.c` and `kernel/sysfile.c`.

A path argument is `none` when `argstr` fails on it. Pipes and devices do not
touch the file system; what a read from them returns is an argument (`io`) of
`fileread`, -1 where `devsw` has no such function.
-/

namespace Xv6

/-! ### Open files -/

def modifyFile (f : ℕ) (g : File → File) : M Unit :=
  modify fun s => { s with ftable := Function.update s.ftable f (g (s.ftable f)) }

def modifyProc (p : ℕ) (g : Proc → Proc) : M Unit :=
  modify fun s => { s with proc := Function.update s.proc p (g (s.proc p)) }

def setOfile (p fd : ℕ) (f : Option ℕ) : M Unit :=
  modifyProc p fun q => { q with ofile := Function.update q.ofile fd f }

def filealloc : M (Option ℕ) := do
  let s ← get
  match firstFree (fun f => (s.ftable f).ref = 0) NFILE 0 with
  | none => return none
  | some f => do
      modifyFile f fun x => { x with ref := 1 }
      return some f

def fdalloc (p f : ℕ) : M (Option ℕ) := do
  let s ← get
  match firstFree (fun fd => (s.proc p).ofile fd = none) NOFILE 0 with
  | none => return none
  | some fd => do
      setOfile p fd (some f)
      return some fd

def fileclose (f : ℕ) : M Unit := do
  let ff := (← get).ftable f
  if ff.ref < 1 then throw (.panic .fileclose)
  else if ff.ref - 1 > 0 then modifyFile f fun x => { x with ref := x.ref - 1 }
  else
    modifyFile f fun x => { x with ref := 0, type := .FD_NONE }
    if ff.type = .FD_INODE ∨ ff.type = .FD_DEVICE then
      beginOp
      iput ff.ip
      endOp

/-- Read from file `f`: what `fileread` returns and the bytes stored. The
`int` `n` becomes a `uint` when it is passed to `readi`. -/
def fileread (f : ℕ) (mem : UserMem) (addr : ℕ) (n : ℤ) (io : ℤ × List UInt8) :
    M (ℤ × List UInt8) := do
  let ff := (← get).ftable f
  if ff.readable = false then return (-1, [])
  else
    match ff.type with
    | .FD_PIPE => return io
    | .FD_DEVICE => return if ff.major < 0 ∨ ff.major ≥ NDEV then (-1, []) else io
    | .FD_INODE => do
        ilock ff.ip
        let (r, bytes) ← readi ff.ip (.user mem addr) ff.off (n % 2 ^ 32).toNat
        if r > 0 then modifyFile f fun x => { x with off := uint (x.off + r.toNat) }
        iunlock ff.ip
        return (r, bytes)
    | .FD_NONE => throw (.panic .fileread)

/-! ### Opening and creating -/

/-- The entries `.` and `..` of a new directory `ip`; `true` if both were
made. -/
def createDots (ip dp : ℕ) : M Bool := do
  if (← dirlink ip dot (← inode ip).inum) < 0 then return false
  else if (← dirlink ip dotdot (← inode dp).inum) < 0 then return false
  else return true

def createFail (dp ip : ℕ) : M (Option ℕ) := do
  modifyDinode ip fun d => { d with nlink := 0 }
  iupdate ip
  iunlockput ip
  iunlockput dp
  return none

/-- The entry `name` for the new inode `ip` in `dp`, the last part of
`create`. -/
def createEntry (dp ip : ℕ) (name : Name) (type : ℤ) : M (Option ℕ) := do
  if (← dirlink dp name (← inode ip).inum) < 0 then createFail dp ip
  else
    if type = T_DIR then
      modifyDinode dp fun d => { d with nlink := short (d.nlink + 1) }
      iupdate dp
    iunlockput dp
    return some ip

/-- The new inode of `create`, for the entry `name` of `dp`. -/
def createNew (dp : ℕ) (name : Name) (type major minor : ℤ) : M (Option ℕ) := do
  match ← ialloc (← inode dp).dev type with
  | none => do
      iunlockput dp
      return none
  | some ip => do
      ilock ip
      modifyDinode ip fun d => { d with major := major, minor := minor, nlink := 1 }
      iupdate ip
      if type = T_DIR then
        if ← createDots ip dp then createEntry dp ip name type
        else createFail dp ip
      else createEntry dp ip name type

def create (p : ℕ) (path : List UInt8) (type major minor : ℤ) : M (Option ℕ) := do
  match ← nameiparent p path with
  | none => return none
  | some (dp, name) => do
      ilock dp
      match ← dirlookup dp name with
      | some (ip, _) => do
          iunlockput dp
          ilock ip
          let t := (← inode ip).d.type
          if type = T_FILE ∧ (t = T_FILE ∨ t = T_DEVICE) then return some ip
          else
            iunlockput ip
            return none
      | none => createNew dp name type major minor

/-- The end of `sys_open`, for the inode `ip` that it has locked. -/
def openInode (p ip omode : ℕ) : M ℤ := do
  let d := (← inode ip).d
  if d.type = T_DEVICE ∧ (d.major < 0 ∨ d.major ≥ NDEV) then
    iunlockput ip
    endOp
    return -1
  else
    match ← filealloc with
    | none => do
        iunlockput ip
        endOp
        return -1
    | some f => do
        match ← fdalloc p f with
        | none => do
            fileclose f
            iunlockput ip
            endOp
            return -1
        | some fd => do
            modifyFile f fun x =>
              { x with
                type := if d.type = T_DEVICE then .FD_DEVICE else .FD_INODE
                major := if d.type = T_DEVICE then d.major else x.major
                off := if d.type = T_DEVICE then x.off else 0
                ip := ip
                readable := omode &&& O_WRONLY = 0
                writable := omode &&& O_WRONLY ≠ 0 ∨ omode &&& O_RDWR ≠ 0 }
            if omode &&& O_TRUNC ≠ 0 ∧ d.type = T_FILE then itrunc ip
            iunlock ip
            endOp
            return fd

def sysOpen (p : ℕ) (path : Option (List UInt8)) (omode : ℕ) : M ℤ := do
  match path with
  | none => return -1
  | some path => do
      beginOp
      if omode &&& O_CREATE ≠ 0 then
        match ← create p path T_FILE 0 0 with
        | none => do
            endOp
            return -1
        | some ip => openInode p ip omode
      else
        match ← namei p path with
        | none => do
            endOp
            return -1
        | some ip => do
            ilock ip
            if (← inode ip).d.type = T_DIR ∧ omode ≠ O_RDONLY then
              iunlockput ip
              endOp
              return -1
            else openInode p ip omode

end Xv6
