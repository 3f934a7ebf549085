import Xv6.Lib.Circle
import Xv6.Lib.Machine
import Xv6.Param

/-!
The memory allocator of user programs, `user/umalloc.c`.

Addresses are numbers and a header is 16 bytes long; `ptr` and `size` are the two fields
of the header at an address. `size` is a `uint`, in units of a header. `base` is the
address of the header that is not in the heap. Whether there is memory to move the break
up is given to `malloc`, for each call of `sbrk`.

The loops of `free` and `malloc` follow the free list. They are cut off, with no result,
after more turns than there can be headers. There is no result either if `morecore` stores
its header where the process has no page: it is killed.
-/

namespace Xv6.Umalloc

structure Heap where
  ptr : ℕ → ℕ
  size : ℕ → ℕ
  freep : ℕ
  brk : ℕ

namespace Heap

def setPtr (h : Heap) (p q : ℕ) : Heap := { h with ptr := Function.update h.ptr p q }

def setSize (h : Heap) (p n : ℕ) : Heap := { h with size := Function.update h.size p n }

/-! ### `free` -/

/-- The loop of `free` ends at `p`: the block `bp` lies between `p` and the
next one, or `p` is the last and `bp` lies at one of the ends. -/
def fits (h : Heap) (bp p : ℕ) : Bool :=
  (bp > p ∧ bp < h.ptr p) ∨ (p ≥ h.ptr p ∧ (bp > p ∨ bp < h.ptr p))

def joinUpper (h : Heap) (bp p : ℕ) : Heap :=
  if bp + 16 * h.size bp = h.ptr p then
    (h.setSize bp (uint (h.size bp + h.size (h.ptr p)))).setPtr bp (h.ptr (h.ptr p))
  else h.setPtr bp (h.ptr p)

def joinLower (h : Heap) (bp p : ℕ) : Heap :=
  if p + 16 * h.size p = bp then
    (h.setSize p (uint (h.size p + h.size bp))).setPtr p (h.ptr bp)
  else h.setPtr p bp

def free (h : Heap) (ap : ℕ) : Option Heap :=
  let bp := ap - 16
  (search h.ptr (h.fits bp) (h.brk + 8) h.freep).map fun p =>
    { (h.joinUpper bp p).joinLower bp p with freep := p }

/-! ### `malloc` -/

/-- The size of the process after `growproc(n)`. If it would become negative, the sum
wraps around and `uvmdealloc` leaves the size as it is. -/
def growproc (sz : ℕ) (n : ℤ) : ℕ := if sz + n < 0 then sz else (sz + n).toNat

/-- `sbrk(n)` fails: the break is to be moved up, and there is no memory. -/
abbrev SbrkFails (n : ℤ) (grant : Bool) : Prop := grant = false ∧ n > 0

def morecore (h : Heap) (nu : ℕ) (grant : Bool) : Option (ℕ × Heap) :=
  let nu := if nu < 4096 then 4096 else nu
  if SbrkFails (int (nu * 16)) grant then some (0, h)
  else
    let hp := h.brk
    let h := { h with brk := growproc h.brk (int (nu * 16)) }
    -- the pages that the process has are those that begin below the break
    if PGROUNDDOWN hp < h.brk then
      match (h.setSize hp nu).free (hp + 16) with
      | none => none
      | some h => some (h.freep, h)
    else none

def carve (h : Heap) (nunits prevp p : ℕ) : ℕ × Heap :=
  if h.size p = nunits then (p + 16, { h.setPtr prevp (h.ptr p) with freep := prevp })
  else
    let rest := h.size p - nunits
    let q := p + 16 * rest
    (q + 16, { (h.setSize p rest).setSize q nunits with freep := prevp })

def mallocLoop (nunits : ℕ) : (fuel : ℕ) → (grants : List Bool) → Heap → (prevp p : ℕ) →
    Option (ℕ × Heap)
  | 0, _, _, _, _ => none
  | fuel + 1, grants, h, prevp, p =>
    if h.size p ≥ nunits then some (h.carve nunits prevp p)
    else if p = h.freep then
      match h.morecore nunits (grants.headD false) with
      | none => none
      | some (p, h) =>
        if p = 0 then some (0, h) else mallocLoop nunits fuel grants.tail h p (h.ptr p)
    else mallocLoop nunits fuel grants h p (h.ptr p)

def nunits (nbytes : ℕ) : ℕ := uint ((nbytes + 16 - 1) / 16 + 1)

def init (h : Heap) (base : ℕ) : Heap :=
  if h.freep = 0 then { (h.setPtr base base).setSize base 0 with freep := base } else h

def malloc (base : ℕ) (h : Heap) (nbytes : ℕ) (grants : List Bool) : Option (ℕ × Heap) :=
  let h := h.init base
  mallocLoop (nunits nbytes) (h.brk + 8) grants h h.freep (h.ptr h.freep)

end Heap

/-! ### A program that allocates -/

/-- The heap, and the pointers that were returned and not freed with the bytes
that were asked for. -/
structure Sys where
  heap : Heap
  live : List (ℕ × ℕ)

inductive Act
  | malloc (nbytes : ℕ) (grants : List Bool)
  | free (ap : ℕ)
  deriving DecidableEq

inductive Fault
  | stops
  deriving DecidableEq

def ends {α : Type} : Option α → Except Fault α
  | none => .error .stops
  | some r => .ok r

def Sys.step (base : ℕ) (s : Sys) : Act → Except Fault Sys
  | .malloc nbytes grants =>
    ends ((s.heap.malloc base nbytes grants).map fun r =>
      ⟨r.2, if r.1 = 0 then s.live else s.live ++ [(r.1, nbytes)]⟩)
  | .free ap => ends ((s.heap.free ap).map fun h => ⟨h, s.live.filter (·.1 ≠ ap)⟩)

structure Init (brk : ℕ) (s : Sys) : Prop where
  freep : s.heap.freep = 0
  brk : s.heap.brk = brk
  live : s.live = []

/-- Requests have less than 2^27 units, and only live pointers are freed. -/
def Calls (s : Sys) : Act → Prop
  | .malloc nbytes _ => (nbytes + 15) / 16 + 1 < 2 ^ 27
  | .free ap => ap ∈ s.live.map Prod.fst

instance (s : Sys) : (a : Act) → Decidable (Calls s a)
  | .malloc _ _ => inferInstanceAs (Decidable (_ < _))
  | .free _ => inferInstanceAs (Decidable (_ ∈ _))

end Xv6.Umalloc
