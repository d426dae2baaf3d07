/-
  Xv6.Fs.State — what the file system of kernel/fs.c, kernel/file.c and kernel/sysfile.c
  keeps: the superblock, the on-disk inodes, the inode table, the file table and the
  processes' descriptors and current directories, with the buffer and log calls its code
  is made of.

  One process runs at a time here: MAXOPBLOCKS = LOGSIZE, so `begin_op` admits one
  operation at a time, and what runs outside an operation holds one inode's lock.
  `cache` is what `bread` returns for each block; `disk` is what a commit has written, so
  a buffer that was changed and never logged is a block where the two differ
  (`evict` in `Xv6.Fs.Syscall` takes it back). A call that would put the process to sleep
  for ever on a lock or a log reservation of its own stops like a panic.

  `trace` records the calls of `begin_op`, `end_op`, `bread`, `brelse`, `log_write`,
  `iput`, `itrunc` and `iupdate` in program order, those that panic excepted; no code
  reads it.
-/
import Xv6.Param
import Xv6.Lib.Table
import Xv6.Disk.Block
import Xv6.Log.Commit
import Mathlib

namespace Xv6.Fs

inductive Panic where
  /-- panic("too big a transaction") -/
  | tooBig
  /-- panic("log_write outside of trans") -/
  | outsideTrans
  /-- `begin_op` inside an operation: it waits for itself -/
  | beginOpSleeps
  /-- panic("freeing free block") -/
  | freeingFree
  /-- panic("iget: no inodes") -/
  | noInodes
  /-- panic("ilock") -/
  | ilock
  /-- `acquiresleep` of an inode lock the process holds: it waits for itself -/
  | inodeSleeps
  /-- panic("ilock: no type") -/
  | noType
  /-- panic("iunlock") -/
  | iunlock
  /-- panic("bmap: out of range") -/
  | bmapRange
  /-- panic("dirlookup not DIR") -/
  | notDir
  /-- panic("dirlookup read") -/
  | dirlookupRead
  /-- panic("dirlink read") -/
  | dirlinkRead
  /-- panic("isdirempty: readi") -/
  | isdiremptyReadi
  /-- panic("unlink: nlink < 1") -/
  | unlinkNlink
  /-- panic("unlink: writei") -/
  | unlinkWritei
  /-- panic("filedup") -/
  | filedup
  /-- panic("fileclose") -/
  | fileclose
  /-- panic("fileread") -/
  | fileread
  /-- panic("filewrite") -/
  | filewrite
  /-- panic("init exiting") -/
  | initExiting
  /-- a null `p->cwd` -/
  | nullCwd
  deriving DecidableEq, Repr

/-! ## On disk -/

/-- The superblock, with the areas in the order mkfs lays them out: boot block,
    superblock, log, inode blocks, bitmap, data blocks. -/
structure Superblock where
  size : Nat
  ninodes : Nat
  nlog : Nat
  logstart : Nat
  inodestart : Nat
  bmapstart : Nat
  boot : 2 ≤ logstart
  log_le : logstart + nlog ≤ inodestart
  inodes_le : inodestart + (ninodes / IPB + 1) ≤ bmapstart
  bmap_le : bmapstart + (size / BPB + 1) ≤ size
  /-- block numbers are C `int`s in `balloc` -/
  size_lt : size < 2 ^ 31
  /-- inode numbers are `ushort`s in a directory entry -/
  ninodes_le : ninodes ≤ 2 ^ 16
  root_lt : ROOTINO < ninodes

namespace Superblock

def nmeta (sb : Superblock) : Nat := sb.bmapstart + (sb.size / BPB + 1)

def iblock (sb : Superblock) (i : Nat) : Nat := i / IPB + sb.inodestart

def bblock (sb : Superblock) (b : Nat) : Nat := b / BPB + sb.bmapstart

def Bitmap (sb : Superblock) (b : Nat) : Prop := sb.bmapstart ≤ b ∧ b < sb.nmeta

end Superblock

abbrev T_DIR : Int := 1
abbrev T_FILE : Int := 2
abbrev T_DEVICE : Int := 3

def short (v : Int) : Int := if v % 65536 < 32768 then v % 65536 else v % 65536 - 65536

def ushort (v : Int) : Nat := (v % 65536).toNat

structure Dinode where
  type : Int
  major : Int
  minor : Int
  nlink : Int
  size : Nat
  /-- `uint addrs[NDIRECT+1]`, 0 behind its end -/
  addrs : Nat → Nat

def Dinode.zero : Dinode := ⟨0, 0, 0, 0, 0, fun _ => 0⟩

/-- `(struct dinode*)b + k`: four shorts, the size, the addresses. -/
def getDinode (b : Block) (k : Nat) : Dinode where
  type := short (le16 b (64 * k))
  major := short (le16 b (64 * k + 2))
  minor := short (le16 b (64 * k + 4))
  nlink := short (le16 b (64 * k + 6))
  size := le32 b (64 * k + 8)
  addrs j := if j ≤ NDIRECT then le32 b (64 * k + 12 + 4 * j) else 0

def putAddrs (b : Block) (o : Nat) (addrs : Nat → Nat) : Block :=
  (List.range (NDIRECT + 1)).foldl (fun b j => putLe32 b (o + 4 * j) (addrs j)) b

def putDinode (b : Block) (k : Nat) (d : Dinode) : Block :=
  let b := putLe16 b (64 * k) (ushort d.type)
  let b := putLe16 b (64 * k + 2) (ushort d.major)
  let b := putLe16 b (64 * k + 4) (ushort d.minor)
  let b := putLe16 b (64 * k + 6) (ushort d.nlink)
  let b := putLe32 b (64 * k + 8) d.size
  putAddrs b (64 * k + 12) d.addrs

/-! ## In memory -/

/-- `struct inode`: `copy` holds the fields below "copy of disk inode". -/
structure Inode where
  dev : Nat
  inum : Nat
  ref : Nat
  lock : Bool
  valid : Bool
  copy : Dinode

inductive FdType where
  | none
  | pipe
  | inode
  | device
  deriving DecidableEq, Repr

structure File where
  type : FdType
  ref : Nat
  readable : Bool
  writable : Bool
  ip : Nat
  off : Nat
  major : Int

inductive ProcState where
  | unused
  | used
  | zombie
  deriving DecidableEq, Repr

/-- The fields of `struct proc` the file system uses: `cwd` is an index into the inode
    table, `ofile fd` one into the file table. -/
structure Proc where
  state : ProcState
  cwd : Option Nat
  ofile : Nat → Option Nat

inductive Ev where
  | beginOp
  | endOp
  | bread (b : Nat)
  | brelse (b : Nat)
  | logWrite (b : Nat)
  | iput (inum : Nat)
  | itrunc (inum : Nat)
  | iupdate (inum : Nat)
  deriving DecidableEq, Repr

structure St where
  cache : Disk
  disk : Disk
  itable : Nat → Inode
  ftable : Nat → File
  proc : Nat → Proc
  outstanding : Int
  lh : List Nat
  trace : List Ev

abbrev M := EStateM Panic St

namespace St

@[simps -fullyApplied] def ev (s : St) (e : Ev) : St := { s with trace := s.trace ++ [e] }

@[simps -fullyApplied] def store (s : St) (b : Nat) (d : Block) : St := { s with cache := upd s.cache b d }

@[simps -fullyApplied] def log (s : St) (b : Nat) : St := { s with lh := Log.absorb s.lh b }

@[simps -fullyApplied] def node (s : St) (i : Nat) (ip : Inode) : St := { s with itable := upd s.itable i ip }

@[simps -fullyApplied] def file (s : St) (f : Nat) (x : File) : St := { s with ftable := upd s.ftable f x }

@[simps -fullyApplied] def process (s : St) (p : Nat) (x : Proc) : St := { s with proc := upd s.proc p x }

@[simps -fullyApplied] def opened (s : St) (n : Int) : St := { s with outstanding := n }

@[simps -fullyApplied] def committed (s : St) : St :=
    { s with disk := fun b => if b ∈ s.lh then s.cache b else s.disk b, lh := [] }

end St

/-! ## Buffers and the log -/

def emit (e : Ev) : M Unit := modify (·.ev e)

def bread (b : Nat) : M Block := do
  emit (.bread b)
  return (← get).cache b

def brelse (b : Nat) : M Unit := emit (.brelse b)

def setData (b : Nat) (d : Block) : M Unit := modify (·.store b d)

variable (sb : Superblock)

def logWrite (b : Nat) : M Unit := do
  let s ← get
  if LOGSIZE ≤ s.lh.length ∨ sb.nlog - 1 ≤ s.lh.length then throw .tooBig
  else if s.outstanding < 1 then throw .outsideTrans
  else do
    modify (·.log b)
    emit (.logWrite b)

def beginOp : M Unit := do
  let s ← get
  if (LOGSIZE : Int) < s.lh.length + (s.outstanding + 1) * MAXOPBLOCKS then throw .beginOpSleeps
  else do
    modify fun s => s.opened (s.outstanding + 1)
    emit .beginOp

def endOp : M Unit := do
  modify fun s => s.opened (s.outstanding - 1)
  if (← get).outstanding = 0 then modify St.committed else pure ()
  emit .endOp

/-! ## Fields of the tables -/

def setInode (i : Nat) (f : Inode → Inode) : M Unit := modify fun s => s.node i (f (s.itable i))

def setCopy (i : Nat) (f : Dinode → Dinode) : M Unit := setInode i fun ip => { ip with copy := f ip.copy }

def setFile (f : Nat) (g : File → File) : M Unit := modify fun s => s.file f (g (s.ftable f))

def setProc (p : Nat) (g : Proc → Proc) : M Unit := modify fun s => s.process p (g (s.proc p))

end Xv6.Fs
