import Xv6.Vm.Access
import Xv6.Vm.Create

/-!
`exec` of `kernel/exec.c`, and the image it builds from an executable.

The executable is its bytes, or nothing if there is no such file. The locks and the
transaction of the file system are not modelled here. All sizes and addresses in the
headers are `uint64`; `loadseg` gets the offset and the size of a segment as `uint`, and
the offset of a program header is kept in an `int`, which `readi` takes for a `uint`. The
arguments are strings without their NUL.
-/

namespace Xv6.Vm

/-! ### `kernel/elf.h` -/

abbrev ELF_MAGIC : ℕ := 0x464C457F
abbrev ELF_PROG_LOAD : ℕ := 1
abbrev MAXARG : ℕ := 32
abbrev USERSTACK : ℕ := 1

def field (bytes : List UInt8) (o n : ℕ) : ℕ := leNat ((bytes.drop o).take n)

structure Elfhdr where
  magic : ℕ
  entry : ℕ
  phoff : ℕ
  phnum : ℕ

abbrev Elfhdr.size : ℕ := 64

def Elfhdr.parse (b : List UInt8) : Elfhdr where
  magic := field b 0 4
  entry := field b 24 8
  phoff := field b 32 8
  phnum := field b 56 2

structure Proghdr where
  type : ℕ
  flags : ℕ
  off : ℕ
  vaddr : ℕ
  filesz : ℕ
  memsz : ℕ

abbrev Proghdr.size : ℕ := 56

def Proghdr.parse (b : List UInt8) : Proghdr where
  type := field b 0 4
  flags := field b 4 4
  off := field b 8 8
  vaddr := field b 16 8
  filesz := field b 32 8
  memsz := field b 40 8

/-! ### The functions -/

def readi (file : List UInt8) (off n : ℕ) : List UInt8 :=
  if off > file.length ∨ uint (off + n) < off then [] else (file.drop off).take n

def flags2perm (flags : ℕ) : ℕ :=
  (if flags &&& 1 ≠ 0 then PTE_X else 0) ||| (if flags &&& 2 ≠ 0 then PTE_W else 0)

/-- The loop of `loadseg`. It would not end for a segment so large that `i` wraps
around. -/
def loadsegLoop (pagetable va : ℕ) (file : List UInt8) (offset sz : ℕ) : (turns i : ℕ) → M ℤ
  | 0, _ => throw .turns
  | turns + 1, i => do
      if i < sz then
        let pa ← walkaddr pagetable ((va + i) % 2 ^ 64)
        if pa = 0 then throw .loadseg
        else
          let n := if sz - i < PGSIZE then sz - i else PGSIZE
          let bytes := readi file (uint (offset + i)) n
          modify (·.memmove pa 0 bytes)
          if bytes.length ≠ n then pure (-1)
          else loadsegLoop pagetable va file offset sz turns (uint (i + PGSIZE))
      else pure 0

def loadseg (pagetable va : ℕ) (file : List UInt8) (offset sz : ℕ) : M ℤ :=
  loadsegLoop pagetable va file offset sz (sz / PGSIZE + 2) 0

/-- The loop of `exec` over the program headers: whether it came to the end, and the size
so far. -/
def loadLoop (pagetable : ℕ) (file : List UInt8) : (phnum off sz : ℕ) → M (Bool × ℕ)
  | 0, _, sz => pure (true, sz)
  | phnum + 1, off, sz => do
      let b := readi file off Proghdr.size
      let ph := Proghdr.parse b
      if b.length ≠ Proghdr.size then pure (false, sz)
      else if ph.type ≠ ELF_PROG_LOAD then
        loadLoop pagetable file phnum (uint (off + Proghdr.size)) sz
      else if ph.memsz < ph.filesz then pure (false, sz)
      else if (ph.vaddr + ph.memsz) % 2 ^ 64 < ph.vaddr then pure (false, sz)
      else if ph.vaddr % PGSIZE ≠ 0 then pure (false, sz)
      else
        let sz1 ← uvmalloc pagetable sz ((ph.vaddr + ph.memsz) % 2 ^ 64) (flags2perm ph.flags)
        if sz1 = 0 then pure (false, sz)
        else
          let r ← loadseg pagetable ph.vaddr file (uint ph.off) (uint ph.filesz)
          if r < 0 then pure (false, sz1)
          else loadLoop pagetable file phnum (uint (off + Proghdr.size)) sz1

/-- The loop of `exec` that pushes the argument strings: the stack pointer and the
addresses of the strings, unless they do not fit. -/
def pushLoop (pagetable stackbase : ℕ) : (argv : List (List UInt8)) → (sp : ℕ) →
    (ustack : List ℕ) → M (Option (ℕ × List ℕ))
  | [], sp, ustack => pure (some (sp, ustack))
  | arg :: argv, sp, ustack => do
      if ustack.length ≥ MAXARG then pure none
      else
        let sp := uint64 (sp - (arg.length + 1 : ℕ))
        let sp := sp - sp % 16
        if sp < stackbase then pure none
        else
          let r ← copyout pagetable sp (arg ++ [0])
          if r < 0 then pure none else pushLoop pagetable stackbase argv sp (ustack ++ [sp])

/-- Push the strings and then the array of their addresses. The array `ustack` has
`MAXARG` entries. -/
def pushArgs (pagetable sp stackbase : ℕ) (argv : List (List UInt8)) : M (Option ℕ) := do
  match ← pushLoop pagetable stackbase argv sp [] with
  | none => pure none
  | some (sp, ustack) =>
    if ustack.length ≥ MAXARG then throw .ustack
    else
      let sp := uint64 (sp - ((ustack.length + 1) * 8 : ℕ))
      let sp := sp - sp % 16
      if sp < stackbase then pure none
      else
        let r ← copyout pagetable sp ((ustack ++ [0]).flatMap (leBytes 8))
        if r < 0 then pure none else pure (some sp)

/-- The stack of a new image, below which there is a guard page: the size, and the stack
pointer with all arguments pushed. -/
def makeStack (pagetable sz : ℕ) (argv : List (List UInt8)) : M (Option ℕ × ℕ) := do
  let sz := PGROUNDUP sz
  let sz1 ← uvmalloc pagetable sz ((sz + (USERSTACK + 1) * PGSIZE) % 2 ^ 64) PTE_W
  if sz1 = 0 then pure (none, sz)
  else
    uvmclear pagetable (uint64 (sz1 - ((USERSTACK + 1) * PGSIZE : ℕ)))
    let r ← pushArgs pagetable sz1 (uint64 (sz1 - (USERSTACK * PGSIZE : ℕ))) argv
    pure (r, sz1)

/-- The part of a path after the last slash, as far as it fits into `p->name`. -/
def procName (path : List UInt8) : List UInt8 :=
  ((path.reverse.takeWhile (· ≠ 47)).reverse).take 15

def Ram.setTrapframe (s : Ram) (trapframe : ℕ) (i : Fin 512) (x : ℕ) : Ram :=
  s.setPte trapframe i x

abbrev EPC : Fin 512 := 3
abbrev SP : Fin 512 := 6
abbrev A1 : Fin 512 := 15

def exec (trampoline : ℕ) (file : Option (List UInt8)) (path : List UInt8)
    (argv : List (List UInt8)) (p : Proc) : M (ℤ × Proc) := do
  match file with
  | none => pure (-1, p)
  | some file =>
    let b := readi file 0 Elfhdr.size
    let elf := Elfhdr.parse b
    if b.length ≠ Elfhdr.size then pure (-1, p)
    else if elf.magic ≠ ELF_MAGIC then pure (-1, p)
    else
      match ← procPagetable trampoline p.trapframe with
      | none => pure (-1, p)
      | some pagetable =>
        let (loaded, sz) ← loadLoop pagetable file elf.phnum (uint elf.phoff) 0
        if !loaded then
          procFreepagetable pagetable sz
          pure (-1, p)
        else
          match ← makeStack pagetable sz argv with
          | (none, sz) =>
            procFreepagetable pagetable sz
            pure (-1, p)
          | (some sp, sz) =>
            modify (·.setTrapframe p.trapframe A1 sp)
            modify (·.setTrapframe p.trapframe EPC elf.entry)
            modify (·.setTrapframe p.trapframe SP sp)
            procFreepagetable p.pagetable p.sz
            pure (argv.length, { p with
              pagetable := pagetable
              sz := sz
              name := procName path })

end Xv6.Vm
