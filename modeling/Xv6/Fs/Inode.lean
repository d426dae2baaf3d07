/-
  Xv6.Fs.Inode — the block and inode layers of kernel/fs.c: `balloc` and `bfree`, the
  inode table, `bmap`, `itrunc`, `readi` and `writei`.

  An inode pointer is an index into the table. A source of `writei` gives its bytes by
  offset, `none` where a user page is not mapped; a kernel source has them all. A
  destination of `readi` says which of its bytes can be stored to.
-/
import Xv6.Fs.State

namespace Xv6.Fs

variable (sb : Superblock)

/-! ## Blocks -/

def bzero (b : Nat) : M Unit := do
  let _ ← bread b
  setData b zeroBlock
  logWrite sb b
  brelse b

/-- The first clear bit of the bitmap block that starts with block `b`'s bit. -/
def freeBit (d : Block) (b : Nat) : Option Nat :=
  (List.range (min BPB (sb.size - b))).find? fun bi => !getBit d bi

/-- `balloc`'s outer loop, over the first bits of the bitmap blocks left. -/
def ballocLoop : List Nat → M Nat
  | [] => return 0
  | b :: bs => do
    let d ← bread (sb.bblock b)
    match freeBit sb d b with
    | some bi => do
      setData (sb.bblock b) (setBit d bi)
      logWrite sb (sb.bblock b)
      brelse (sb.bblock b)
      bzero sb (b + bi)
      return b + bi
    | none => do
      brelse (sb.bblock b)
      ballocLoop bs

/-- 0 if there is no free block. -/
def balloc : M Nat := ballocLoop sb ((List.range ((sb.size + BPB - 1) / BPB)).map (· * BPB))

def bfree (b : Nat) : M Unit := do
  let d ← bread (sb.bblock b)
  if getBit d (b % BPB) = false then throw .freeingFree
  else do
    setData (sb.bblock b) (clearBit d (b % BPB))
    logWrite sb (sb.bblock b)
    brelse (sb.bblock b)

/-! ## The inode table -/

def iget (dev inum : Nat) : M Nat := do
  let s ← get
  match (List.range NINODE).find? fun i =>
      decide (0 < (s.itable i).ref ∧ (s.itable i).dev = dev ∧ (s.itable i).inum = inum) with
  | some i => do
    setInode i fun ip => { ip with ref := ip.ref + 1 }
    return i
  | none =>
    match (List.range NINODE).find? fun i => decide ((s.itable i).ref = 0) with
    | none => throw .noInodes
    | some i => do
      setInode i fun ip => { ip with dev := dev, inum := inum, ref := 1, valid := false }
      return i

def iallocLoop (dev : Nat) (type : Int) : List Nat → M (Option Nat)
  | [] => return none
  | inum :: inums => do
    let d ← bread (sb.iblock inum)
    if (getDinode d (inum % IPB)).type = 0 then do
      setData (sb.iblock inum) (putDinode d (inum % IPB) { Dinode.zero with type := type })
      logWrite sb (sb.iblock inum)
      brelse (sb.iblock inum)
      return some (← iget dev inum)
    else do
      brelse (sb.iblock inum)
      iallocLoop dev type inums

def ialloc (dev : Nat) (type : Int) : M (Option Nat) := iallocLoop sb dev type (List.range' 1 (sb.ninodes - 1))

def iupdate (i : Nat) : M Unit := do
  let ip := (← get).itable i
  emit (.iupdate ip.inum)
  let d ← bread (sb.iblock ip.inum)
  setData (sb.iblock ip.inum) (putDinode d (ip.inum % IPB) ip.copy)
  logWrite sb (sb.iblock ip.inum)
  brelse (sb.iblock ip.inum)

def idup (i : Nat) : M Nat := do
  setInode i fun ip => { ip with ref := ip.ref + 1 }
  return i

def ilock (i : Nat) : M Unit := do
  let ip := (← get).itable i
  if ip.ref < 1 then throw .ilock
  else if ip.lock then throw .inodeSleeps
  else do
    setInode i fun ip => { ip with lock := true }
    if ip.valid then return ()
    else do
      let d ← bread (sb.iblock ip.inum)
      setInode i fun ip => { ip with copy := getDinode d (ip.inum % IPB) }
      brelse (sb.iblock ip.inum)
      setInode i fun ip => { ip with valid := true }
      if (getDinode d (ip.inum % IPB)).type = 0 then throw .noType else return ()

def iunlock (i : Nat) : M Unit := do
  let ip := (← get).itable i
  if ip.lock = false ∨ ip.ref < 1 then throw .iunlock
  else setInode i fun ip => { ip with lock := false }

/-! ## Inode content -/

/-- The address in entry `j` of the indirect block `ind`, allocated if necessary. -/
def bmapEntry (ind j : Nat) : M Nat := do
  let a ← bread ind
  if le32 a (4 * j) ≠ 0 then do
    brelse ind
    return le32 a (4 * j)
  else do
    let addr ← balloc sb
    if addr = 0 then do
      brelse ind
      return 0
    else do
      setData ind (putLe32 a (4 * j) addr)
      logWrite sb ind
      brelse ind
      return addr

/-- 0 if out of disk space. -/
def bmap (i bn : Nat) : M Nat := do
  let ip := (← get).itable i
  if bn < NDIRECT then
    if ip.copy.addrs bn ≠ 0 then return ip.copy.addrs bn
    else do
      let addr ← balloc sb
      if addr = 0 then return 0
      else do
        setCopy i fun d => { d with addrs := upd d.addrs bn addr }
        return addr
  else if bn - NDIRECT < NINDIRECT then
    -- Load indirect block, allocating if necessary.
    if ip.copy.addrs NDIRECT ≠ 0 then bmapEntry sb (ip.copy.addrs NDIRECT) (bn - NDIRECT)
    else do
      let addr ← balloc sb
      if addr = 0 then return 0
      else do
        setCopy i fun d => { d with addrs := upd d.addrs NDIRECT addr }
        bmapEntry sb addr (bn - NDIRECT)
  else throw .bmapRange

def itruncDirect (i : Nat) : List Nat → M Unit
  | [] => return ()
  | k :: ks => do
    let ip := (← get).itable i
    if ip.copy.addrs k ≠ 0 then do
      bfree sb (ip.copy.addrs k)
      setCopy i fun d => { d with addrs := upd d.addrs k 0 }
      itruncDirect i ks
    else itruncDirect i ks

/-- `itrunc`'s loop over the entries of the indirect block left. -/
def itruncIndirect (a : Block) : List Nat → M Unit
  | [] => return ()
  | j :: js =>
    if le32 a (4 * j) ≠ 0 then do
      bfree sb (le32 a (4 * j))
      itruncIndirect a js
    else itruncIndirect a js

def itrunc (i : Nat) : M Unit := do
  emit (.itrunc ((← get).itable i).inum)
  itruncDirect sb i (List.range NDIRECT)
  let ip := (← get).itable i
  if ip.copy.addrs NDIRECT ≠ 0 then do
    let a ← bread (ip.copy.addrs NDIRECT)
    itruncIndirect sb a (List.range NINDIRECT)
    brelse (ip.copy.addrs NDIRECT)
    bfree sb (ip.copy.addrs NDIRECT)
    setCopy i fun d => { d with addrs := upd d.addrs NDIRECT 0 }
  else pure ()
  setCopy i fun d => { d with size := 0 }
  iupdate sb i

/-- The last reference to an inode without links frees the inode. -/
def iput (i : Nat) : M Unit := do
  let ip := (← get).itable i
  emit (.iput ip.inum)
  if ip.ref = 1 ∧ ip.valid ∧ ip.copy.nlink = 0 then do
    if ip.lock then throw .inodeSleeps
    else do
      setInode i fun ip => { ip with lock := true }
      itrunc sb i
      setCopy i fun d => { d with type := 0 }
      iupdate sb i
      setInode i fun ip => { ip with valid := false, lock := false }
  else pure ()
  setInode i fun ip => { ip with ref := ip.ref - 1 }

def iunlockput (i : Nat) : M Unit := do
  iunlock i
  iput sb i

/-- Where `readi` copies to: by offset, whether the byte can be stored. -/
abbrev Dst := Nat → Bool

def Dst.takes (dst : Dst) (tot m : Nat) : Bool := (List.range m).all fun k => dst (tot + k)

def kernelDst : Dst := fun _ => true

/-- `readi`'s loop: `acc` is what has been copied out so far. -/
def readLoop (i : Nat) (dst : Dst) (n : Nat) : Nat → Nat → Nat → (Nat → UInt8) → M (Int × (Nat → UInt8))
  | 0, tot, _, acc => return (tot, acc)
  | fuel + 1, tot, off, acc =>
    if tot < n then do
      let addr ← bmap sb i (off / BSIZE)
      if addr = 0 then return (tot, acc)
      else do
        let d ← bread addr
        let m := min (n - tot) (BSIZE - off % BSIZE)
        if dst.takes tot m then do
          brelse addr
          readLoop i dst n fuel (tot + m) (off + m) (patch acc tot m fun k => d (off % BSIZE + k))
        else do
          brelse addr
          return (-1, acc)
    else return (tot, acc)

/-- What is read, and the bytes at the destination. Each turn of the loop copies a byte at
    least, so `n` turns are enough. -/
def readi (i : Nat) (dst : Dst) (off n : Nat) : M (Int × (Nat → UInt8)) := do
  let ip := (← get).itable i
  if ip.copy.size < off ∨ (off + n) % 2 ^ 32 < off then return (0, fun _ => 0)
  else
    let n := if ip.copy.size < off + n then ip.copy.size - off else n
    readLoop sb i dst n n 0 off fun _ => 0

/-- Where `writei` copies from: by offset, the byte, or `none` where no page is mapped. -/
abbrev Src := Nat → Option UInt8

def kernelSrc (b : Nat → UInt8) : Src := fun k => some (b k)

/-- `either_copyin` of `m` bytes from offset `tot`: the bytes before the first one that
    faults, if one does. -/
def Src.fault (src : Src) (tot m : Nat) : Option Nat := (List.range m).find? fun k => (src (tot + k)).isNone

def Src.byte (src : Src) (k : Nat) : UInt8 := (src k).getD 0

/-- `writei`'s loop; the result is `tot` and `off` at its end. -/
def writeLoop (i : Nat) (src : Src) (n : Nat) : Nat → Nat → Nat → M (Nat × Nat)
  | 0, tot, off => return (tot, off)
  | fuel + 1, tot, off =>
    if tot < n then do
      let addr ← bmap sb i (off / BSIZE)
      if addr = 0 then return (tot, off)
      else do
        let d ← bread addr
        let m := min (n - tot) (BSIZE - off % BSIZE)
        match src.fault tot m with
        | some k => do
          -- the pages before the fault have been copied; the buffer is not logged
          setData addr (patch d (off % BSIZE) k fun j => src.byte (tot + j))
          brelse addr
          return (tot, off)
        | none => do
          setData addr (patch d (off % BSIZE) m fun j => src.byte (tot + j))
          logWrite sb addr
          brelse addr
          writeLoop i src n fuel (tot + m) (off + m)
    else return (tot, off)

def writei (i : Nat) (src : Src) (off n : Nat) : M Int := do
  let ip := (← get).itable i
  if ip.copy.size < off ∨ (off + n) % 2 ^ 32 < off then return -1
  else if MAXFILE * BSIZE < off + n then return -1
  else do
    let (tot, off) ← writeLoop sb i src n n 0 off
    setCopy i fun d => { d with size := max d.size off }
    iupdate sb i
    return tot

end Xv6.Fs
