import Mathlib

/-!
The compile-time constants of the kernel that the models below read:
`kernel/param.h`, `kernel/fs.h`, `kernel/stat.h`, `kernel/fcntl.h` and the
paging constants of `kernel/riscv.h`.
-/

namespace Xv6

/-! ### `kernel/param.h` -/

abbrev NPROC : ℕ := 64
abbrev NOFILE : ℕ := 200
abbrev NFILE : ℕ := 100
abbrev NINODE : ℕ := 200
abbrev NDEV : ℕ := 10
abbrev ROOTDEV : ℕ := 1
abbrev MAXOPBLOCKS : ℕ := 10
abbrev LOGSIZE : ℕ := MAXOPBLOCKS * 3
abbrev FSSIZE : ℕ := 2000

/-! ### `kernel/fs.h` -/

abbrev ROOTINO : ℕ := 1
abbrev BSIZE : ℕ := 1024
abbrev NDIRECT : ℕ := 12
abbrev NINDIRECT : ℕ := BSIZE / 4
abbrev MAXFILE : ℕ := NDIRECT + NINDIRECT
abbrev IPB : ℕ := BSIZE / 64
abbrev BPB : ℕ := BSIZE * 8
abbrev DIRSIZ : ℕ := 14

/-! ### `kernel/stat.h` and `kernel/fcntl.h` -/

abbrev T_DIR : ℤ := 1
abbrev T_FILE : ℤ := 2
abbrev T_DEVICE : ℤ := 3

abbrev O_RDONLY : ℕ := 0x000
abbrev O_WRONLY : ℕ := 0x001
abbrev O_RDWR : ℕ := 0x002
abbrev O_CREATE : ℕ := 0x200
abbrev O_TRUNC : ℕ := 0x400

/-! ### `kernel/riscv.h` -/

abbrev PGSIZE : ℕ := 4096
abbrev MAXVA : ℕ := 2 ^ 38

/-- For the indices of a page of words. -/
instance neZeroWords : NeZero 512 := ⟨by decide⟩

def PGROUNDDOWN (a : ℕ) : ℕ := a / PGSIZE * PGSIZE

def uint (x : ℕ) : ℕ := x % 2 ^ 32

/-- `x` as a C `short`: what assigning an `int` to a 16-bit field keeps. -/
def short (x : ℤ) : ℤ := (x + 2 ^ 15) % 2 ^ 16 - 2 ^ 15

def int (x : ℤ) : ℤ := (x + 2 ^ 31) % 2 ^ 32 - 2 ^ 31

theorem short_bounds (x : ℤ) : -2 ^ 15 ≤ short x ∧ short x < 2 ^ 15 := by
  unfold short
  omega

theorem short_of_bounds {x : ℤ} (hlo : -2 ^ 15 ≤ x) (hhi : x < 2 ^ 15) : short x = x := by
  unfold short
  omega

end Xv6
