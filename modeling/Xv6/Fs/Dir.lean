import Xv6.Fs.Inode

/-!
Directories and path names: the second half of `kernel/fs.c`.

A path is the list of its bytes before the NUL, and a name is the list that `skipelem`
copies, at most `DIRSIZ` bytes long. `skipelem` reads the path alone, so the elements of a
path are taken first (`elems`) and the loop of `namex` goes along them; `*path == '\0'`
after a call of `skipelem` says that no element follows.
-/

namespace Xv6

abbrev Name := List UInt8

/-! ### Directories -/

def dirlookupLoop (dp : ℕ) (name : Name) : (fuel off : ℕ) → M (Option (ℕ × ℕ))
  | 0, _ => return none
  | fuel + 1, off => do
      let e ← inode dp
      if off < e.d.size then
        let (r, de) ← readi dp .kernel off DESIZE
        if r ≠ DESIZE then throw (.panic .dirlookupRead)
        else if direntInum de = 0 then dirlookupLoop dp name fuel (off + DESIZE)
        else if namecmp name (direntName de) = 0 then
          return some (← iget e.dev (direntInum de), off)
        else dirlookupLoop dp name fuel (off + DESIZE)
      else return none

def dirlookup (dp : ℕ) (name : Name) : M (Option (ℕ × ℕ)) := do
  let e ← inode dp
  if e.d.type ≠ T_DIR then throw (.panic .dirlookupNotDir)
  else dirlookupLoop dp name (e.d.size / DESIZE + 1) 0

/-- The loop of `dirlink`: the offset of the first empty entry, or the size. -/
def dirlinkLoop (dp : ℕ) : (fuel off : ℕ) → M ℕ
  | 0, off => return off
  | fuel + 1, off => do
      if off < (← inode dp).d.size then
        let (r, de) ← readi dp .kernel off DESIZE
        if r ≠ DESIZE then throw (.panic .dirlinkRead)
        else if direntInum de = 0 then return off
        else dirlinkLoop dp fuel (off + DESIZE)
      else return off

def dirlink (dp : ℕ) (name : Name) (inum : ℕ) : M ℤ := do
  match ← dirlookup dp name with
  | some (ip, _) => do
      iput ip
      return -1
  | none => do
      let off ← dirlinkLoop dp ((← inode dp).d.size / DESIZE + 1) 0
      let r ← writei dp (.kernel (direntBytes inum name)) off DESIZE
      return if r ≠ DESIZE then -1 else 0

/-! ### Paths -/

abbrev slash : UInt8 := 47

def skipelem (path : List UInt8) : Option (Name × List UInt8) :=
  let path := path.dropWhile (· = slash)
  if path = [] then none
  else
    some ((path.takeWhile (· ≠ slash)).take DIRSIZ,
      (path.dropWhile (· ≠ slash)).dropWhile (· = slash))

/-- The elements that at most `fuel` calls of `skipelem` return. -/
def elemsLoop : ℕ → List UInt8 → List Name
  | 0, _ => []
  | fuel + 1, path =>
    match skipelem path with
    | none => []
    | some (name, path) => name :: elemsLoop fuel path

def elems (path : List UInt8) : List Name := elemsLoop path.length path

def nameiLoop (ip : ℕ) : List Name → M (Option ℕ)
  | [] => return some ip
  | name :: names => do
      ilock ip
      if (← inode ip).d.type ≠ T_DIR then
        iunlockput ip
        return none
      else
        match ← dirlookup ip name with
        | none => do
            iunlockput ip
            return none
        | some (next, _) => do
            iunlockput ip
            nameiLoop next names

/-- The loop of `namex` for `nameiparent`: it stops one level early. -/
def nameiparentLoop (ip : ℕ) : List Name → M (Option (ℕ × Name))
  | [] => do
      iput ip
      return none
  | name :: names => do
      ilock ip
      if (← inode ip).d.type ≠ T_DIR then
        iunlockput ip
        return none
      else if names = [] then
        iunlock ip
        return some (ip, name)
      else
        match ← dirlookup ip name with
        | none => do
            iunlockput ip
            return none
        | some (next, _) => do
            iunlockput ip
            nameiparentLoop next names

/-- Where `namex` starts: at the root or at the current directory of `p`. -/
def namexStart (p : ℕ) (path : List UInt8) : M ℕ := do
  if path.head? = some slash then iget ROOTDEV ROOTINO
  else
    match ((← get).proc p).cwd with
    | some cwd => idup cwd
    | none => throw .nullPointer

def namei (p : ℕ) (path : List UInt8) : M (Option ℕ) := do
  nameiLoop (← namexStart p path) (elems path)

def nameiparent (p : ℕ) (path : List UInt8) : M (Option (ℕ × Name)) := do
  nameiparentLoop (← namexStart p path) (elems path)

end Xv6
