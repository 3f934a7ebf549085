import Xv6.Vm.Table

/-!
User address spaces: `uvmcreate`, `uvmalloc`, `uvmdealloc`, `freewalk`, `uvmfree`,
`uvmcopy` and `uvmclear` of `kernel/vm.c`, and `proc_pagetable`,
`proc_freepagetable` and `growproc` of `kernel/proc.c`.

Sizes are `uint64` and may be anything; `growproc` adds a signed `int` to one.
-/

namespace Xv6.Vm

abbrev TRAMPOLINE : ℕ := MAXVA - PGSIZE
abbrev TRAPFRAME : ℕ := TRAMPOLINE - PGSIZE

def PGROUNDUP (sz : ℕ) : ℕ := (sz + (PGSIZE - 1)) % 2 ^ 64 / PGSIZE * PGSIZE

def uint64 (x : ℤ) : ℕ := (x % 2 ^ 64).toNat

def Ram.copyPage (s : Ram) (dst src : ℕ) : Ram :=
  { s with word := Function.update s.word dst (s.word src) }

def uvmcreate : M (Option ℕ) := do
  match ← kalloc with
  | none => pure none
  | some pagetable =>
    modify (·.memset pagetable 0)
    pure (some pagetable)

/-- Shrink from `oldsz` to `newsz`. The number of pages is an `int`. -/
def uvmdealloc (pagetable oldsz newsz : ℕ) : M ℕ := do
  if newsz ≥ oldsz then pure oldsz
  else if PGROUNDUP newsz < PGROUNDUP oldsz then
    let npages := int ((PGROUNDUP oldsz - PGROUNDUP newsz) / PGSIZE : ℕ)
    uvmunmap pagetable (PGROUNDUP newsz) (uint64 npages) true
    pure newsz
  else pure newsz

def uvmallocLoop (pagetable oldsz newsz xperm : ℕ) : (turns a : ℕ) → M ℕ
  | 0, _ => pure newsz
  | turns + 1, a => do
      if a < newsz then
        match ← kalloc with
        | none =>
          let _ ← uvmdealloc pagetable a oldsz
          pure 0
        | some mem =>
          modify (·.memset mem 0)
          let r ← mappages pagetable a PGSIZE mem (PTE_R ||| PTE_U ||| xperm)
          if r ≠ 0 then
            kfree mem
            let _ ← uvmdealloc pagetable a oldsz
            pure 0
          else uvmallocLoop pagetable oldsz newsz xperm turns (a + PGSIZE)
      else pure newsz

/-- Grow from `oldsz` to `newsz`: the new size, or 0. -/
def uvmalloc (pagetable oldsz newsz xperm : ℕ) : M ℕ := do
  if newsz < oldsz then pure oldsz
  else
    let oldsz := PGROUNDUP oldsz
    uvmallocLoop pagetable oldsz newsz xperm ((newsz - oldsz) / PGSIZE + 1) oldsz

@[irreducible] def indices : List (Fin 512) := List.finRange 512

/-- The loop of `freewalk` over entries of a page, with `free` for the page
of the next level. -/
def freewalkLoop (free : ℕ → M Unit) (pagetable : ℕ) : List (Fin 512) → M Unit
  | [] => pure ()
  | i :: is => do
      let pte := (← get).word pagetable i
      if pte &&& PTE_V ≠ 0 ∧ pte &&& (PTE_R ||| PTE_W ||| PTE_X) = 0 then
        free (PTE2PA pte)
        modify (·.setPte pagetable i 0)
        freewalkLoop free pagetable is
      else if pte &&& PTE_V ≠ 0 then throw .freewalkLeaf
      else freewalkLoop free pagetable is

def freewalk : (level pagetable : ℕ) → M Unit
  | 0, pagetable => do
      freewalkLoop (fun _ => throw .depth) pagetable indices
      kfree pagetable
  | level + 1, pagetable => do
      freewalkLoop (freewalk level) pagetable indices
      kfree pagetable

def uvmfree (pagetable sz : ℕ) : M Unit := do
  if sz > 0 then uvmunmap pagetable 0 (PGROUNDUP sz / PGSIZE) true
  freewalk 2 pagetable

def uvmcopyLoop (old new sz : ℕ) : (turns i : ℕ) → M ℤ
  | 0, _ => pure 0
  | turns + 1, i => do
      if i < sz then
        match ← walk old i false with
        | none => throw .uvmcopyPte
        | some (t, j) =>
          let pte := (← get).word t j
          if pte &&& PTE_V = 0 then throw .uvmcopyPresent
          match ← kalloc with
          | none =>
            uvmunmap new 0 (i / PGSIZE) true
            pure (-1)
          | some mem =>
            modify (·.copyPage mem (PTE2PA pte))
            let r ← mappages new i PGSIZE mem (PTE_FLAGS pte)
            if r ≠ 0 then
              kfree mem
              uvmunmap new 0 (i / PGSIZE) true
              pure (-1)
            else uvmcopyLoop old new sz turns (i + PGSIZE)
      else pure 0

def uvmcopy (old new sz : ℕ) : M ℤ := uvmcopyLoop old new sz (sz / PGSIZE + 1) 0

def uvmclear (pagetable va : ℕ) : M Unit := do
  match ← walk pagetable va false with
  | none => throw .uvmclear
  | some (t, i) =>
    let pte := (← get).word t i
    modify (·.setPte t i (pte &&& (2 ^ 64 - 1 - PTE_U)))

/-- A user page table without user memory, for the trampoline code at
`trampoline` and the trapframe at `trapframe`. -/
def procPagetable (trampoline trapframe : ℕ) : M (Option ℕ) := do
  match ← uvmcreate with
  | none => pure none
  | some pagetable =>
    let r ← mappages pagetable TRAMPOLINE PGSIZE trampoline (PTE_R ||| PTE_X)
    if r < 0 then
      uvmfree pagetable 0
      pure none
    else
      let r ← mappages pagetable TRAPFRAME PGSIZE trapframe (PTE_R ||| PTE_W)
      if r < 0 then
        uvmunmap pagetable TRAMPOLINE 1 false
        uvmfree pagetable 0
        pure none
      else pure (some pagetable)

def procFreepagetable (pagetable sz : ℕ) : M Unit := do
  uvmunmap pagetable TRAMPOLINE 1 false
  uvmunmap pagetable TRAPFRAME 1 false
  uvmfree pagetable sz

structure Proc where
  pagetable : ℕ
  sz : ℕ
  trapframe : ℕ
  name : List UInt8
  deriving DecidableEq

def growproc (p : Proc) (n : ℤ) : M (ℤ × Proc) := do
  if n > 0 then
    let sz ← uvmalloc p.pagetable p.sz (uint64 (p.sz + n)) PTE_W
    if sz = 0 then pure (-1, p) else pure (0, { p with sz := sz })
  else if n < 0 then
    let sz ← uvmdealloc p.pagetable p.sz (uint64 (p.sz + n))
    pure (0, { p with sz := sz })
  else pure (0, p)

end Xv6.Vm
