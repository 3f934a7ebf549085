import Xv6.Param
import Xv6.Lib.Bytes

/-!
Blocks, the disk and the buffer cache, as `kernel/bio.c` presents them to the rest of the
file system.

`cache b` is the data of the buffer that a `bread` of block `b` yields, which is what the
disk holds if the block is not cached. A `bread` therefore changes nothing, a store
through `bp->data` is `setData`, and a `bwrite` copies the buffer to the disk.
-/

namespace Xv6

open Function (update)

abbrev Block := Bytes BSIZE

def zeroBlock : Block := fun _ => 0

/-- Disk, buffer cache and the pins of `bpin`/`bunpin`. The field `writes`
records the blocks `virtio_disk_rw` has written, oldest first. -/
structure Bio where
  disk : ℕ → Block
  cache : ℕ → Block
  pin : ℕ → ℕ
  writes : List (ℕ × Block)

namespace Bio

/-- The data of the buffer `bread` returns for block `b`. -/
def bread (m : Bio) (b : ℕ) : Block := m.cache b

def setData (m : Bio) (b : ℕ) (d : Block) : Bio :=
  { m with cache := update m.cache b d }

def bwrite (m : Bio) (b : ℕ) : Bio :=
  { m with disk := update m.disk b (m.cache b),
           writes := m.writes ++ [(b, m.cache b)] }

def bpin (m : Bio) (b : ℕ) : Bio := { m with pin := update m.pin b (m.pin b + 1) }

def bunpin (m : Bio) (b : ℕ) : Bio := { m with pin := update m.pin b (m.pin b - 1) }

/-- Memory is lost; every later `bread` goes to the disk `d`. -/
def boot (d : ℕ → Block) : Bio := { disk := d, cache := d, pin := fun _ => 0, writes := [] }

variable (m : Bio) (b : ℕ)
include m b

@[simp] theorem cache_setData (d : Block) : (m.setData b d).cache = update m.cache b d := rfl

@[simp] theorem disk_setData (d : Block) : (m.setData b d).disk = m.disk := rfl

@[simp] theorem writes_setData (d : Block) : (m.setData b d).writes = m.writes := rfl

@[simp] theorem cache_bwrite : (m.bwrite b).cache = m.cache := rfl

@[simp] theorem disk_bwrite : (m.bwrite b).disk = update m.disk b (m.cache b) := rfl

@[simp] theorem writes_bwrite : (m.bwrite b).writes = m.writes ++ [(b, m.cache b)] := rfl

end Bio

end Xv6
