import Xv6.Fs.State

/-!
Blocks and inodes: the first half of `kernel/fs.c`, from `bzero` to `writei`.

Each loop of the source is a function of the same state with a bound on the
number of turns that the loop cannot exceed.
-/

namespace Xv6

variable {tab : ℕ → Inode} {dev fuel i ip : ℕ} {empty : Option ℕ}

/-! ### Blocks -/

def bzero (bno : ℕ) : M Unit := do
  store bno fun _ => zeroBlock
  logWrite bno

/-- The inner loop of `balloc`, from bit `bi` of the bitmap block `data` on:
the first bit that is clear. -/
def ballocBits (size b : ℕ) (data : Block) : (fuel bi : ℕ) → Option ℕ
  | 0, _ => none
  | fuel + 1, bi =>
    if b + bi < size then
      if getBit data bi then ballocBits size b data fuel (bi + 1) else some bi
    else none

def ballocLoop : (fuel b : ℕ) → M ℕ
  | 0, _ => return 0
  | fuel + 1, b => do
      let sb := (← get).sb
      if b < sb.size then
        match ballocBits sb.size b (← bread (sb.BBLOCK b)) BPB 0 with
        | some bi => do
            store (sb.BBLOCK b) fun data => setBit data bi
            logWrite (sb.BBLOCK b)
            bzero (b + bi)
            return b + bi
        | none => ballocLoop fuel (b + BPB)
      else return 0

/-- Allocate a zeroed disk block; 0 if out of disk space, which `full` may
also decide. -/
def balloc : M ℕ := do
  let s ← get
  set { s with full := s.full.tail }
  if s.full.headD false then return 0
  else ballocLoop (s.sb.size / BPB + 1) 0

def bfree (b : ℕ) : M Unit := do
  let sb := (← get).sb
  if getBit (← bread (sb.BBLOCK b)) (b % BPB) then
    store (sb.BBLOCK b) fun data => clearBit data (b % BPB)
    logWrite (sb.BBLOCK b)
  else throw (.panic .freeingFreeBlock)

/-! ### Inodes -/

/-- The loop of `iget`: the entry of inode `inum`, or else the first empty
entry. -/
def igetScan (tab : ℕ → Inode) (dev inum : ℕ) : (fuel ip : ℕ) → Option ℕ → ℕ ⊕ Option ℕ
  | 0, _, empty => .inr empty
  | fuel + 1, ip, empty =>
    if (tab ip).ref > 0 ∧ (tab ip).dev = dev ∧ (tab ip).inum = inum then .inl ip
    else
      igetScan tab dev inum fuel (ip + 1)
        (if empty = none ∧ (tab ip).ref = 0 then some ip else empty)

theorem igetScan_inl {k : ℕ} (hscan : igetScan tab dev i fuel ip empty = .inl k) :
    0 < (tab k).ref ∧ (tab k).dev = dev ∧ (tab k).inum = i := by
  induction fuel generalizing ip empty with
  | zero => simp [igetScan] at hscan
  | succ fuel ih =>
    rw [igetScan] at hscan
    split at hscan
    · cases hscan
      assumption
    · exact ih hscan

theorem igetScan_inr {o : Option ℕ} (hscan : igetScan tab dev i fuel ip empty = .inr o) :
    (∀ k, ip ≤ k → k < ip + fuel → 0 < (tab k).ref → (tab k).dev = dev → (tab k).inum ≠ i) ∧
      (o = empty ∨ ∃ k, o = some k ∧ k < ip + fuel ∧ (tab k).ref = 0) := by
  induction fuel generalizing ip empty with
  | zero => grind [igetScan]
  | succ fuel ih =>
    rw [igetScan] at hscan
    split at hscan
    · cases hscan
    · rename_i hno
      obtain ⟨hnone, hempty⟩ := ih hscan
      refine ⟨fun k hlo hhi hr hdev hi => ?_, ?_⟩
      · rcases Nat.eq_or_lt_of_le hlo with rfl | hlt
        · exact hno ⟨hr, hdev, hi⟩
        · exact hnone k hlt (by omega) hr hdev hi
      · rcases hempty with heq | ⟨k, heq, hk, hr⟩
        · split at heq
          · rename_i hfree
            exact .inr ⟨ip, heq, by omega, hfree.2⟩
          · exact .inl heq
        · exact .inr ⟨k, heq, by omega, hr⟩

theorem igetScan_lt {k : ℕ} (hscan : igetScan tab dev i fuel ip empty = .inl k) :
    k < ip + fuel := by
  induction fuel generalizing ip empty with
  | zero => simp [igetScan] at hscan
  | succ fuel ih =>
    rw [igetScan] at hscan
    split at hscan
    · cases hscan
      omega
    · have := ih hscan
      omega

theorem igetScan_none (hscan : igetScan tab dev i fuel ip empty = .inr none) :
    empty = none ∧ ∀ k, ip ≤ k → k < ip + fuel → (tab k).ref ≠ 0 := by
  induction fuel generalizing ip empty with
  | zero => grind [igetScan]
  | succ fuel ih =>
    rw [igetScan] at hscan
    split at hscan
    · cases hscan
    · obtain ⟨hempty, hfull⟩ := ih hscan
      split at hempty
      · cases hempty
      · rename_i hno
        refine ⟨hempty, fun k hlo hhi => ?_⟩
        rcases Nat.eq_or_lt_of_le hlo with rfl | hlt
        · exact fun hr => hno ⟨hempty, hr⟩
        · exact hfull k hlt (by omega)

def iget (dev inum : ℕ) : M ℕ := do
  let s ← get
  match igetScan s.itable dev inum NINODE 0 none with
  | .inl ip => do
      modifyInode ip fun e => { e with ref := e.ref + 1 }
      return ip
  | .inr none => throw (.panic .igetNoInodes)
  | .inr (some ip) => do
      modifyInode ip fun e => { e with dev := dev, inum := inum, ref := 1, valid := false }
      return ip

def iallocLoop (dev : ℕ) (type : ℤ) : (fuel inum : ℕ) → M (Option ℕ)
  | 0, _ => return none
  | fuel + 1, inum => do
      let sb := (← get).sb
      if inum < sb.ninodes then
        if (getDinode (← bread (sb.IBLOCK inum)) inum).type = 0 then
          store (sb.IBLOCK inum) fun data => putDinode data inum { Dinode.zero with type := type }
          logWrite (sb.IBLOCK inum)
          return some (← iget dev inum)
        else iallocLoop dev type fuel (inum + 1)
      else return none

def ialloc (dev : ℕ) (type : ℤ) : M (Option ℕ) := do
  iallocLoop dev type (← get).sb.ninodes 1

def iupdate (ip : ℕ) : M Unit := do
  let e ← inode ip
  let sb := (← get).sb
  store (sb.IBLOCK e.inum) fun data => putDinode data e.inum e.d
  logWrite (sb.IBLOCK e.inum)

def idup (ip : ℕ) : M ℕ := do
  modifyInode ip fun e => { e with ref := e.ref + 1 }
  return ip

def ilock (ip : ℕ) : M Unit := do
  if (← inode ip).ref < 1 then throw (.panic .ilock)
  else
    acquiresleep ip
    let e ← inode ip
    if e.valid then return ()
    else
      let d := getDinode (← bread ((← get).sb.IBLOCK e.inum)) e.inum
      modifyInode ip fun e => { e with d := d, valid := true }
      if d.type = 0 then throw (.panic .ilockNoType)
      else return ()

def iunlock (ip : ℕ) : M Unit := do
  let e ← inode ip
  if e.locked = false ∨ e.ref < 1 then throw (.panic .iunlock)
  else releasesleep ip

/-! ### Inode content -/

def setAddr (ip k addr : ℕ) : M Unit :=
  modifyDinode ip fun d => { d with addrs := Function.update d.addrs k addr }

/-- `ip->addrs[k]`, allocating if it is zero; 0 if out of disk space. -/
def bmapAddr (ip k : ℕ) : M ℕ := do
  let addr := (← inode ip).d.addrs k
  if addr = 0 then
    let addr ← balloc
    if addr = 0 then return 0
    else
      setAddr ip k addr
      return addr
  else return addr

/-- Entry `bn` of the indirect block `ind`, allocating if it is zero. -/
def bmapEntry (ind bn : ℕ) : M ℕ := do
  let addr := getEntry (← bread ind) bn
  if addr = 0 then
    let addr ← balloc
    if addr = 0 then return 0
    else
      store ind fun data => putEntry data bn addr
      logWrite ind
      return addr
  else return addr

/-- The disk block address of the `bn`th block in inode `ip`; if there is no
such block, `bmap` allocates one. -/
def bmap (ip bn : ℕ) : M ℕ := do
  if bn < NDIRECT then bmapAddr ip bn
  else if bn - NDIRECT < NINDIRECT then
    let addr ← bmapAddr ip NDIRECT
    if addr = 0 then return 0
    else bmapEntry addr (bn - NDIRECT)
  else throw (.panic .bmapOutOfRange)

def itruncDirect (ip : ℕ) : (fuel i : ℕ) → M Unit
  | 0, _ => return ()
  | fuel + 1, i => do
      let addr := (← inode ip).d.addrs i
      if addr ≠ 0 then
        bfree addr
        setAddr ip i 0
        itruncDirect ip fuel (i + 1)
      else itruncDirect ip fuel (i + 1)

def itruncIndirect (ind : ℕ) : (fuel j : ℕ) → M Unit
  | 0, _ => return ()
  | fuel + 1, j => do
      let addr := getEntry (← bread ind) j
      if addr ≠ 0 then
        bfree addr
        itruncIndirect ind fuel (j + 1)
      else itruncIndirect ind fuel (j + 1)

def itrunc (ip : ℕ) : M Unit := do
  itruncDirect ip NDIRECT 0
  let ind := (← inode ip).d.addrs NDIRECT
  if ind ≠ 0 then
    itruncIndirect ind NINDIRECT 0
    bfree ind
    setAddr ip NDIRECT 0
  modifyDinode ip fun d => { d with size := 0 }
  iupdate ip

/-- Drop a reference to an in-memory inode; if that was the last reference
and the inode has no links to it, free the inode on disk. -/
def iput (ip : ℕ) : M Unit := do
  emit .iput
  let e ← inode ip
  if e.ref = 1 ∧ e.valid ∧ e.d.nlink = 0 then
    acquiresleep ip
    itrunc ip
    modifyDinode ip fun d => { d with type := 0 }
    iupdate ip
    modifyInode ip fun e => { e with valid := false }
    releasesleep ip
  modifyInode ip fun e => { e with ref := e.ref - 1 }

def iunlockput (ip : ℕ) : M Unit := do
  iunlock ip
  iput ip

/-- The loop of `readi`. The result is what `readi` returns and the bytes
stored from `dst` on. -/
def readiLoop (ip n : ℕ) : (fuel : ℕ) → Dst → (tot off : ℕ) → List UInt8 → M (ℤ × List UInt8)
  | 0, _, tot, _, acc => return (tot, acc)
  | fuel + 1, dst, tot, off, acc => do
      if tot < n then
        let addr ← bmap ip (off / BSIZE)
        if addr = 0 then return (tot, acc)
        else
          let data ← bread addr
          let m := min (n - tot) (BSIZE - off % BSIZE)
          let (ok, k) := eitherCopyout dst m
          let acc := acc ++ data.slice (off % BSIZE) k
          if ok then readiLoop ip n fuel (dst.advance m) (tot + m) (off + m) acc
          else return (-1, acc)
      else return (tot, acc)

def readi (ip : ℕ) (dst : Dst) (off n : ℕ) : M (ℤ × List UInt8) := do
  let size := (← inode ip).d.size
  if off > size ∨ uint (off + n) < off then return (0, [])
  else
    let n := if uint (off + n) > size then size - off else n
    readiLoop ip n n dst 0 off []

/-- The loop of `writei`: the values of `tot` and `off` after it. -/
def writeiLoop (ip n : ℕ) : (fuel : ℕ) → Src → (tot off : ℕ) → M (ℕ × ℕ)
  | 0, _, tot, off => return (tot, off)
  | fuel + 1, src, tot, off => do
      if tot < n then
        let addr ← bmap ip (off / BSIZE)
        if addr = 0 then return (tot, off)
        else
          let m := min (n - tot) (BSIZE - off % BSIZE)
          let (ok, bytes) := eitherCopyin src m
          store addr fun data => data.blit (off % BSIZE) bytes
          if ok then
            logWrite addr
            writeiLoop ip n fuel (src.advance m) (tot + m) (off + m)
          else return (tot, off)
      else return (tot, off)

def writei (ip : ℕ) (src : Src) (off n : ℕ) : M ℤ := do
  let size := (← inode ip).d.size
  if off > size ∨ uint (off + n) < off then return -1
  else if uint (off + n) > MAXFILE * BSIZE then return -1
  else
    let (tot, off) ← writeiLoop ip n n src 0 off
    modifyDinode ip fun d => { d with size := if off > d.size then off else d.size }
    iupdate ip
    return tot

end Xv6
