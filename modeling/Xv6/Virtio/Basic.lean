import Xv6.Lib.Machine
import Xv6.Param

/-!
The disk driver of `kernel/virtio_disk.c` and the device.

`N` threads call `virtio_disk_rw`, as `bread` and `bwrite` do it, with the lock of the
buffer held, or `virtio_disk_intr`. A step is one stretch of code under `vdisk_lock`; the
device works between any two of them. It takes the heads of chains out of the avail ring,
carries out the commands in any order, puts the heads into the used ring and shows them by
moving `used->idx`, one or several at a time.

Memory is what the descriptors point to: the command headers `ops`, the data of the
buffers and the status bytes in `info`. Not in the source is `hist`, the history of the
requests, which are numbered in the order in which they were published, and the number of
its request that a point of the code keeps.
-/

namespace Xv6.Virtio

open Function (update)

abbrev NUM : ℕ := 8

abbrev WRAP : ℕ := 2 ^ 16

def VRING_DESC_F_NEXT : ℕ := 1

def VRING_DESC_F_WRITE : ℕ := 2

def VIRTIO_BLK_T_IN : ℕ := 0

def VIRTIO_BLK_T_OUT : ℕ := 1

/-- The addresses that the driver hands to the device. -/
inductive Addr (β : Type)
  | null
  | op (i : ℕ)
  | data (b : β)
  | status (i : ℕ)
  deriving DecidableEq

structure Desc (β : Type) where
  addr : Addr β
  len : ℕ
  flags : ℕ
  next : ℕ
  deriving DecidableEq

structure BlkReq where
  type : ℕ
  reserved : ℕ
  sector : ℕ
  deriving DecidableEq

structure Info (β : Type) where
  b : Option β
  status : ℕ
  deriving DecidableEq

/-- `struct virtq_avail`, and `struct virtq_used` with the `id` of its
elements. -/
structure Queue where
  idx : ℕ
  ring : ℕ → ℕ

structure Disk (β : Type) where
  desc : ℕ → Desc β
  avail : Queue
  used : Queue
  free : ℕ → Bool
  usedIdx : ℕ
  info : ℕ → Info β
  ops : ℕ → BlkReq

/-- The points of `virtio_disk_rw`, from the loop around `alloc3_desc` to the
code after the wait, and the two of the loop of `virtio_disk_intr`. -/
inductive Point (β : Type)
  | alloc (b : β) (write : Bool) (sector : ℕ)
  | format (b : β) (write : Bool) (sector : ℕ) (idx : List ℕ)
  | post (b : β) (idx : List ℕ)
  | publish (b : β) (idx : List ℕ)
  | wait (b : β) (idx : List ℕ) (n : ℕ)
  | finish (b : β) (idx : List ℕ) (n : ℕ)
  | loop
  | handle
  deriving DecidableEq

inductive Chan (β : Type)
  | free
  | buf (b : β)
  deriving DecidableEq

inductive Pc (β : Type)
  | out
  | acquire (k : Point β)
  | asleep (c : Chan β) (k : Point β)
  | run (k : Point β)
  deriving DecidableEq

structure Job where
  n : ℕ
  head : ℕ
  deriving DecidableEq

/-- The device: how far it has read the avail ring and written the used ring,
the chains it works on and those whose status it has written. -/
structure Device where
  availIdx : ℕ
  usedIdx : ℕ
  taken : List Job
  done : List Job

structure Request (N : ℕ) (β : Type) where
  proc : Fin N
  b : β
  head : ℕ
  deriving DecidableEq

/-- The requests published so far, how many of them the device has taken, those
that it has put into the used ring, in the order of the ring, and how many of
these it has shown and the driver has seen. -/
structure Hist (N : ℕ) (β : Type) where
  sent : List (Request N β)
  taken : ℕ
  filled : List Job
  shown : ℕ
  seen : ℕ

/-- `busy` is the field `disk` of the buffers, `data` their contents, `holder`
who has their sleep lock; `store` is what is on the disk, by the first sector
of a block. -/
structure Sys (N : ℕ) (β δ : Type) where
  disk : Disk β
  busy : β → Bool
  data : β → δ
  holder : β → Option (Fin N)
  lock : Option (Fin N)
  pc : Fin N → Pc β
  dev : Device
  store : ℕ → δ
  hist : Hist N β

inductive Act (N : ℕ) (β : Type)
  | lock (p : Fin N) (b : β)
  | unlock (p : Fin N) (b : β)
  | rw (p : Fin N) (b : β) (write : Bool) (blockno : ℕ)
  | intr (p : Fin N)
  | kill (p : Fin N)
  | step (p : Fin N)
  | take
  | finish (j : Job)
  | fill (j : Job)
  | publish
  deriving DecidableEq

/-- The step cannot be taken now, the kernel panics or follows a null pointer,
or the device is given a chain that is no disk command. -/
inductive Fault
  | disabled
  | freeDesc1
  | freeDesc2
  | intrStatus
  | nullBuf
  | badChain
  deriving DecidableEq

variable {N : ℕ} {β δ : Type} [DecidableEq β]

def Pc.woken (c : Chan β) : Pc β → Pc β
  | .asleep c' k => if c' = c then .acquire k else .asleep c' k
  | pc => pc

namespace Sys

def goto (s : Sys N β δ) (p : Fin N) (c : Pc β) : Sys N β δ :=
  { s with pc := update s.pc p c }

def setDesc (s : Sys N β δ) (i : ℕ) (d : Desc β) : Sys N β δ :=
  { s with disk.desc := update s.disk.desc i d }

def setFree (s : Sys N β δ) (i : ℕ) (x : Bool) : Sys N β δ :=
  { s with disk.free := update s.disk.free i x }

def setInfo (s : Sys N β δ) (i : ℕ) (x : Info β) : Sys N β δ :=
  { s with disk.info := update s.disk.info i x }

def setBusy (s : Sys N β δ) (b : β) (x : Bool) : Sys N β δ :=
  { s with busy := update s.busy b x }

/-- `sleep(c, &disk.vdisk_lock)`, up to where the process waits for the lock
again to go on at `k`. -/
def sleep (s : Sys N β δ) (p : Fin N) (c : Chan β) (k : Point β) : Sys N β δ :=
  { s.goto p (.asleep c k) with lock := none }

def wakeup (s : Sys N β δ) (c : Chan β) : Sys N β δ :=
  { s with pc := fun q => (s.pc q).woken c }

def release (s : Sys N β δ) (p : Fin N) : Sys N β δ := { s.goto p .out with lock := none }

end Sys

abbrev M (N : ℕ) (β δ : Type) := StateT (Sys N β δ) (Except Fault)

def allocDesc : M N β δ (Option ℕ) := do
  let s ← get
  match firstFree s.disk.free NUM 0 with
  | some i =>
    set (s.setFree i false)
    return some i
  | none => return none

def freeDesc (i : ℕ) : M N β δ Unit := do
  if i ≥ NUM then throw .freeDesc1
  let s ← get
  if s.disk.free i then throw .freeDesc2
  set (((s.setDesc i ⟨.null, 0, 0, 0⟩).setFree i true).wakeup .free)

/-- The loop of `free_chain`, which ends after `NUM` descriptors at the latest
because it finds the next one free. -/
def freeChainLoop : (fuel : ℕ) → ℕ → M N β δ Unit
  | 0, _ => throw .freeDesc2
  | fuel + 1, i => do
      let d := (← get).disk.desc i
      freeDesc i
      if d.flags &&& VRING_DESC_F_NEXT ≠ 0 then freeChainLoop fuel d.next

def freeChain (i : ℕ) : M N β δ Unit := freeChainLoop (NUM + 1) i

def freeDescs : List ℕ → M N β δ Unit
  | [] => pure ()
  | i :: idx => do
      freeDesc i
      freeDescs idx

/-- The loop of `alloc3_desc`, with `idx` allocated and `todo` to go. -/
def alloc3Loop : (todo : ℕ) → (idx : List ℕ) → M N β δ (Option (List ℕ))
  | 0, idx => return some idx
  | todo + 1, idx => do
      match ← allocDesc with
      | some i => alloc3Loop todo (idx ++ [i])
      | none =>
        freeDescs idx
        return none

def alloc3Desc : M N β δ (Option (List ℕ)) := alloc3Loop 3 []

namespace Sys

/-- Format the three descriptors and record the buffer for
`virtio_disk_intr`. -/
def format (s : Sys N β δ) (b : β) (write : Bool) (sector : ℕ) (idx : List ℕ) : Sys N β δ :=
  let i₀ := idx.getD 0 0
  let i₁ := idx.getD 1 0
  let i₂ := idx.getD 2 0
  let type := if write then VIRTIO_BLK_T_OUT else VIRTIO_BLK_T_IN
  let s := { s with disk.ops := update s.disk.ops i₀ ⟨type, 0, sector⟩ }
  let s := s.setDesc i₀ ⟨.op i₀, 16, VRING_DESC_F_NEXT, i₁⟩
  let s := s.setDesc i₁
    ⟨.data b, BSIZE, (if write then 0 else VRING_DESC_F_WRITE) ||| VRING_DESC_F_NEXT, i₂⟩
  let s := s.setInfo i₀ ⟨(s.disk.info i₀).b, 0xff⟩
  let s := s.setDesc i₂ ⟨.status i₀, 1, VRING_DESC_F_WRITE, 0⟩
  let s := s.setBusy b true
  s.setInfo i₀ ⟨some b, (s.disk.info i₀).status⟩

def post (s : Sys N β δ) (i : ℕ) : Sys N β δ :=
  { s with disk.avail.ring := update s.disk.avail.ring (s.disk.avail.idx % NUM) i }

def publish (s : Sys N β δ) (r : Request N β) : Sys N β δ :=
  { s with
    disk.avail.idx := (s.disk.avail.idx + 1) % WRAP
    hist.sent := s.hist.sent ++ [r] }

def handle (s : Sys N β δ) : Except Fault (Sys N β δ) :=
  let id := s.disk.used.ring (s.disk.usedIdx % NUM)
  if (s.disk.info id).status ≠ 0 then .error .intrStatus
  else
    match (s.disk.info id).b with
    | none => .error .nullBuf
    | some b =>
      let s := (s.setBusy b false).wakeup (.buf b)
      .ok { s with
        disk.usedIdx := (s.disk.usedIdx + 1) % WRAP
        hist.seen := s.hist.seen + 1 }

def run (s : Sys N β δ) (p : Fin N) : Except Fault (Sys N β δ) :=
  match s.pc p with
  | .acquire k =>
    if s.lock = none then .ok { s.goto p (.run k) with lock := some p } else .error .disabled
  | .run (.alloc b write sector) => do
      let (r, s) ← alloc3Desc.run s
      match r with
      | some idx => return s.goto p (.run (.format b write sector idx))
      | none => return s.sleep p .free (.alloc b write sector)
  | .run (.format b write sector idx) =>
    .ok ((s.format b write sector idx).goto p (.run (.post b idx)))
  | .run (.post b idx) => .ok ((s.post (idx.getD 0 0)).goto p (.run (.publish b idx)))
  | .run (.publish b idx) =>
    .ok ((s.publish ⟨p, b, idx.getD 0 0⟩).goto p (.run (.wait b idx s.hist.sent.length)))
  | .run (.wait b idx n) =>
    if s.busy b then .ok (s.sleep p (.buf b) (.wait b idx n))
    else .ok (s.goto p (.run (.finish b idx n)))
  | .run (.finish _ idx _) => do
      let i₀ := idx.getD 0 0
      let (_, s) ← (freeChain i₀).run (s.setInfo i₀ ⟨none, (s.disk.info i₀).status⟩)
      return s.release p
  | .run .loop =>
    if s.disk.usedIdx ≠ s.disk.used.idx then .ok (s.goto p (.run .handle))
    else .ok (s.release p)
  | .run .handle => do
      let s ← s.handle
      return s.goto p (.run .loop)
  | _ => .error .disabled

def command (s : Sys N β δ) (head : ℕ) : Except Fault (Sys N β δ) :=
  let d₀ := s.disk.desc head
  let d₁ := s.disk.desc d₀.next
  let d₂ := s.disk.desc d₁.next
  match d₀.addr, d₁.addr, d₂.addr with
  | .op i, .data b, .status k =>
    let r := s.disk.ops i
    let s :=
      if r.type = VIRTIO_BLK_T_OUT then
        { s with store := update s.store r.sector (s.data b) }
      else { s with data := update s.data b (s.store r.sector) }
    .ok (s.setInfo k ⟨(s.disk.info k).b, 0⟩)
  | _, _, _ => .error .badChain

def step (s : Sys N β δ) : Act N β → Except Fault (Sys N β δ)
  | .lock p b =>
    if s.pc p = .out ∧ s.holder b = none then
      .ok { s with holder := update s.holder b (some p) }
    else .error .disabled
  | .unlock p b =>
    if s.pc p = .out ∧ s.holder b = some p then
      .ok { s with holder := update s.holder b none }
    else .error .disabled
  | .rw p b write blockno =>
    if s.pc p = .out ∧ s.holder b = some p then
      .ok (s.goto p (.acquire (.alloc b write (blockno * (BSIZE / 512) % 2 ^ 32))))
    else .error .disabled
  | .intr p => if s.pc p = .out then .ok (s.goto p (.acquire .loop)) else .error .disabled
  | .kill p =>
    match s.pc p with
    | .asleep _ k => .ok (s.goto p (.acquire k))
    | _ => .error .disabled
  | .step p => s.run p
  | .take =>
    if s.dev.availIdx ≠ s.disk.avail.idx then
      let j : Job := ⟨s.hist.taken, s.disk.avail.ring (s.dev.availIdx % NUM)⟩
      .ok { s with
        dev.availIdx := (s.dev.availIdx + 1) % WRAP
        dev.taken := s.dev.taken ++ [j]
        hist.taken := s.hist.taken + 1 }
    else .error .disabled
  | .finish j =>
    if j ∈ s.dev.taken then do
      let s ← s.command j.head
      return { s with
        dev.taken := s.dev.taken.erase j
        dev.done := s.dev.done ++ [j] }
    else .error .disabled
  | .fill j =>
    if j ∈ s.dev.done then
      .ok { s with
        disk.used.ring := update s.disk.used.ring (s.dev.usedIdx % NUM) j.head
        dev.usedIdx := (s.dev.usedIdx + 1) % WRAP
        dev.done := s.dev.done.erase j
        hist.filled := s.hist.filled ++ [j] }
    else .error .disabled
  | .publish =>
    .ok { s with
      disk.used.idx := s.dev.usedIdx
      hist.shown := s.hist.filled.length }

structure Init (s : Sys N β δ) : Prop where
  free : ∀ i, i < NUM → s.disk.free i = true
  avail : s.disk.avail.idx = 0
  used : s.disk.used.idx = 0
  usedIdx : s.disk.usedIdx = 0
  lock : s.lock = none
  holder : ∀ b, s.holder b = none
  pc : ∀ p, s.pc p = .out
  dev : s.dev = ⟨0, 0, [], []⟩
  hist : s.hist = ⟨[], 0, [], 0, 0⟩

end Sys

end Xv6.Virtio
