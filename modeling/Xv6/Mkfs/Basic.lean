import Xv6.Fs.Layout
import Xv6.Lib.Wp

/-!
`mkfs/mkfs.c`, which builds the first file system.

The state is the file `fs.img`, as sectors, and the two counters. A run stops early where
an assertion fails or a sector behind the end of the file is read; that the host's `open`,
`lseek` and `write` succeed is taken for granted. An input file is given by its path and
by what the calls of `read` return. The magic number is the only part of the super block
that is not in `sb`.
-/

namespace Xv6.Mkfs

abbrev NINODES : ℕ := 200

abbrev FSMAGIC : ℕ := 0x10203040

def nbitmap : ℕ := FSSIZE / BPB + 1

def ninodeblocks : ℕ := NINODES / IPB + 1

def nlog : ℕ := LOGSIZE

def nmeta : ℕ := 2 + nlog + ninodeblocks + nbitmap

def nblocks : ℕ := FSSIZE - nmeta

def sb : Superblock :=
  ⟨FSSIZE, nblocks, NINODES, nlog, 2, 2 + nlog, 2 + nlog + ninodeblocks⟩

/-- The sectors of `fs.img`, the number of sectors in it, `freeinode` and
`freeblock`. -/
structure Img where
  sect : ℕ → Block
  len : ℕ
  freeinode : ℕ
  freeblock : ℕ

/-- Where a run ends early: at the end of `fs.img`, or at an assertion. -/
inductive Die
  | read
  | rootino
  | slash
  | strlen
  | fbn
  | used
  deriving DecidableEq

abbrev M (α : Type) := StateT Img (Except Die) α

def wsect (sec : ℕ) (buf : Block) : M Unit :=
  modify fun s =>
    { s with
      sect := Function.update s.sect sec buf
      len := max s.len (sec + 1) }

def rsect (sec : ℕ) : M Block := do
  let s ← get
  if sec < s.len then return s.sect sec else throw .read

def winode (inum : ℕ) (ip : Dinode) : M Unit := do
  let buf ← rsect (sb.IBLOCK inum)
  wsect (sb.IBLOCK inum) (putDinode buf inum ip)

def rinode (inum : ℕ) : M Dinode := do
  let buf ← rsect (sb.IBLOCK inum)
  return getDinode buf inum

def ialloc (type : ℤ) : M ℕ := do
  let s ← get
  set { s with freeinode := s.freeinode + 1 }
  winode s.freeinode { Dinode.zero with type := type, nlink := 1 }
  return s.freeinode

def balloc (used : ℕ) : M Unit := do
  if used < BPB then wsect sb.bmapstart ((List.range used).foldl setBit zeroBlock)
  else throw .used

def newBlock : M ℕ := do
  let s ← get
  set { s with freeblock := s.freeblock + 1 }
  return s.freeblock

/-- `if(xint(din.addrs[k]) == 0) din.addrs[k] = xint(freeblock++);`. -/
def mapAddr (din : Dinode) (k : ℕ) : M Dinode := do
  if din.addrs k = 0 then
    let b ← newBlock
    return { din with addrs := Function.update din.addrs k b }
  else return din

def mapEntry (ind j : ℕ) : M ℕ := do
  let indirect ← rsect ind
  if getEntry indirect j = 0 then
    let b ← newBlock
    wsect ind (putEntry indirect j b)
    return b
  else return getEntry indirect j

def mapBlock (din : Dinode) (fbn : ℕ) : M (Dinode × ℕ) := do
  if fbn < NDIRECT then
    let din ← mapAddr din fbn
    return (din, din.addrs fbn)
  else
    let din ← mapAddr din NDIRECT
    let x ← mapEntry (din.addrs NDIRECT) (fbn - NDIRECT)
    return (din, x)

def iappendLoop : (fuel : ℕ) → Dinode → (off : ℕ) → (p : List UInt8) → M (Dinode × ℕ)
  | 0, din, off, _ => return (din, off)
  | fuel + 1, din, off, p => do
      if p = [] then return (din, off)
      else if off / BSIZE < MAXFILE then
        let (din, x) ← mapBlock din (off / BSIZE)
        let n1 := min p.length ((off / BSIZE + 1) * BSIZE - off)
        let buf ← rsect x
        wsect x (buf.blit (off - off / BSIZE * BSIZE) (p.take n1))
        iappendLoop fuel din (off + n1) (p.drop n1)
      else throw .fbn

def iappend (inum : ℕ) (p : List UInt8) : M Unit := do
  let din ← rinode inum
  let (din, off) ← iappendLoop p.length din din.size p
  winode inum { din with size := off }

/-! ### The program -/

/-- An input file: its path on the command line, which is a C string, and what
`read(fd, buf, sizeof(buf))` returns until the end. -/
structure HostFile where
  path : List UInt8
  chunks : List (List UInt8)
  path_ne : 0 ∉ path
  chunk : ∀ c ∈ chunks, c ≠ [] ∧ c.length ≤ BSIZE

namespace HostFile

def user : List UInt8 := [117, 115, 101, 114, 47]

def base (f : HostFile) : List UInt8 :=
  if strncmp 5 f.path user = 0 then f.path.drop 5 else f.path

def shortname (f : HostFile) : List UInt8 := if f.base.head? = some 95 then f.base.tail else f.base

def bytes (f : HostFile) : List UInt8 := f.chunks.flatten

end HostFile

def appendAll (inum : ℕ) : List (List UInt8) → M Unit
  | [] => return ()
  | c :: cs => do
      iappend inum c
      appendAll inum cs

def addFile (rootino : ℕ) (f : HostFile) : M Unit := do
  if 47 ∈ f.base then throw .slash
  else if f.shortname.length ≤ DIRSIZ then
    let inum ← ialloc T_FILE
    iappend rootino (direntBytes inum f.shortname)
    appendAll inum f.chunks
  else throw .strlen

def addFiles (rootino : ℕ) : List HostFile → M Unit
  | [] => return ()
  | f :: fs => do
      addFile rootino f
      addFiles rootino fs

/-- `for(i = 0; i < FSSIZE; i++) wsect(i, zeroes);`, from `i` on. -/
def zeroSects : (fuel i : ℕ) → M Unit
  | 0, _ => return ()
  | fuel + 1, i => do
      wsect i zeroBlock
      zeroSects fuel (i + 1)

def superblockBytes : List UInt8 :=
  leBytes 4 FSMAGIC ++ leBytes 4 sb.size ++ leBytes 4 sb.nblocks ++ leBytes 4 sb.ninodes ++
    leBytes 4 sb.nlog ++ leBytes 4 sb.logstart ++ leBytes 4 sb.inodestart ++
    leBytes 4 sb.bmapstart

def superblock : Block := zeroBlock.blit 0 superblockBytes

def fixSize (rootino : ℕ) : M Unit := do
  let din ← rinode rootino
  winode rootino { din with size := (din.size / BSIZE + 1) * BSIZE }

def main (files : List HostFile) : M Unit := do
  modify fun s => { s with freeblock := nmeta }
  zeroSects FSSIZE 0
  wsect 1 superblock
  let rootino ← ialloc T_DIR
  if rootino = ROOTINO then
    iappend rootino (direntBytes rootino dot)
    iappend rootino (direntBytes rootino dotdot)
    addFiles rootino files
    fixSize rootino
    balloc (← get).freeblock
  else throw .rootino

/-- The state before `main`: `fs.img` was just truncated. -/
def start : Img where
  sect _ := zeroBlock
  len := 0
  freeinode := 1
  freeblock := 0

end Xv6.Mkfs
