/-
  Xv6.Log.Commit — the redo log of kernel/log.c: `log_write`, `commit` and
  `recover_from_log`, down to the `platform_disk_write` calls they issue.

  `disk` is what has reached the disk. `mem` is what `bread` returns for each block: its
  cached copy, or the disk's where none is cached. A reboot forgets `mem`. The in-memory
  header `log.lh` is the list of its first `n` entries; the on-disk header is the bytes
  of block `log.start`, so entries of earlier transactions stay in it behind `n`.
  Every function below is its source's, with the buffers' `bread` / `memmove` / `bwrite`
  as reads of `mem`, updates of `mem` and `bwrite`; `writes` collects the
  `platform_disk_write` calls in program order, so that a crash is a prefix of them.
-/
import Xv6.Param
import Xv6.Disk.Block

namespace Xv6.Log

inductive Panic where
  /-- panic("too big a transaction") -/
  | tooBig
  /-- panic("log_write outside of trans") -/
  | outsideTrans
  deriving DecidableEq, Repr

/-- `log.start` and `log.size`, as `initlog` reads them from the superblock; the size
    counts the header block. -/
structure Conf where
  start : Nat
  size : Nat
  header : 0 < size

/-! ## The header block -/

def int32 (b : Block) (o : Nat) : Int :=
  if le32 b o < 2 ^ 31 then le32 b o else le32 b o - 2 ^ 32

def headN (b : Block) : Int := int32 b 0

def headBlock (b : Block) (i : Nat) : Nat := le32 b (4 + 4 * i)

def headList (b : Block) : List Nat := (List.range (headN b).toNat).map (headBlock b)

def putBlocks (b : Block) (i : Nat) : List Nat → Block
  | [] => b
  | x :: xs => putBlocks (putLe32 b (4 + 4 * i) x) (i + 1) xs

/-- `write_head`'s edit of the header buffer: `n` and the first `n` entries. -/
def putHead (b : Block) (lh : List Nat) : Block := putBlocks (putLe32 b 0 lh.length) 0 lh

/-! ## The code -/

structure St where
  disk : Disk
  mem : Disk
  lh : List Nat
  writes : List (Nat × Block)

def bwrite (s : St) (b : Nat) : St :=
  { s with disk := Function.update s.disk b (s.mem b), writes := s.writes ++ [(b, s.mem b)] }

/-- `log_write`'s loop: the entry that already names `b`, else a new one. -/
def absorb (lh : List Nat) (b : Nat) : List Nat := if b ∈ lh then lh else lh ++ [b]

theorem mem_absorb {lh : List Nat} {b x : Nat} : x ∈ absorb lh b ↔ x = b ∨ x ∈ lh := by
  unfold absorb
  split
  · rename_i h
    exact ⟨Or.inr, fun e => e.elim (fun e => e ▸ h) id⟩
  · rw [List.mem_append, List.mem_singleton, or_comm]

theorem absorb_nodup {lh : List Nat} {b : Nat} (h : lh.Nodup) : (absorb lh b).Nodup := by
  unfold absorb
  split
  · exact h
  · rename_i hb
    exact List.nodup_append.mpr ⟨h, by simp, fun x hx y hy e => hb (List.mem_singleton.mp hy ▸ e ▸ hx)⟩

theorem absorb_length (lh : List Nat) (b : Nat) : (absorb lh b).length ≤ lh.length + 1 := by
  simp only [absorb]
  split
  · omega
  · simp

/-- `log_write(b)`. The capacity check stands before the search for an old entry. -/
def logWrite (C : Conf) (outstanding : Nat) (lh : List Nat) (b : Nat) : Except Panic (List Nat) :=
  if LOGSIZE ≤ lh.length ∨ C.size - 1 ≤ lh.length then .error .tooBig
  else if outstanding < 1 then .error .outsideTrans
  else .ok (absorb lh b)

variable (C : Conf)

def writeLogFrom (tail : Nat) : List Nat → St → St
  | [], s => s
  | b :: bs, s =>
    let slot := C.start + tail + 1
    writeLogFrom (tail + 1) bs (bwrite { s with mem := Function.update s.mem slot (s.mem b) } slot)

def writeLog (s : St) : St := writeLogFrom C 0 s.lh s

def installFrom (tail : Nat) : List Nat → St → St
  | [], s => s
  | b :: bs, s =>
    let slot := C.start + tail + 1
    installFrom (tail + 1) bs (bwrite { s with mem := Function.update s.mem b (s.mem slot) } b)

def installTrans (s : St) : St := installFrom C 0 s.lh s

def readHead (s : St) : St := { s with lh := headList (s.mem C.start) }

def writeHead (s : St) : St :=
  bwrite { s with mem := Function.update s.mem C.start (putHead (s.mem C.start) s.lh) } C.start

def commit (s : St) : St :=
  if 0 < s.lh.length then
    let s := installTrans C (writeHead C (writeLog C s))
    writeHead C { s with lh := [] }
  else s

def recoverFromLog (s : St) : St :=
  let s := installTrans C (readHead C s)
  writeHead C { s with lh := [] }

/-! ## Transactions, crashes and restarts -/

/-- What one transaction stores: block numbers and the buffers' new contents, in
    `log_write` order; a block may be stored more than once. -/
abbrev Tx := List (Nat × Block)

/-- The file system's calls between `begin_op` and the last `end_op`: each modifies a
    buffer and `log_write`s it. -/
def logWrites : Tx → St → Except Panic St
  | [], s => .ok s
  | (b, v) :: ops, s => do
    let lh ← logWrite C 1 s.lh b
    logWrites ops { s with mem := Function.update s.mem b v, lh := lh }

def Outside (b : Nat) : Prop := b < C.start ∨ C.start + C.size ≤ b

def applyWrites (ws : List (Nat × Block)) (d : Disk) : Disk := ws.foldl (fun d w => Function.update d w.1 w.2) d

/-- The disk after whole transactions, one after the other. -/
def afterTxs (txs : List Tx) (d : Disk) : Disk := txs.foldl (fun d t => applyWrites t d) d

def headWritten (ws : List (Nat × Block)) : Bool := ws.any (·.1 == C.start)

/-- Nothing cached, nothing logged: the kernel just started. -/
def boot (d : Disk) : St := ⟨d, d, [], []⟩

inductive Mach where
  | up (s : St)
  | down (d : Disk)

/-- Every state of the machine that starts on disk `d0`, with the transactions whose
    first `write_head` reached the disk. A crash keeps any prefix of the writes issued
    since the last completed call, and so does a crash in the middle of a recovery. -/
inductive Reach (d0 : Disk) : Mach → List Tx → Prop
  | init : Reach d0 (.down d0) []
  | commit {s s' : St} {txs : List Tx} (t : Tx) : Reach d0 (.up s) txs →
      (∀ w ∈ t, Outside C w.1 ∧ w.1 < 2 ^ 32) → logWrites C t s = .ok s' →
      Reach d0 (.up { commit C s' with writes := [] })
        (if headWritten C (commit C s').writes then txs ++ [t] else txs)
  | crash {s s' : St} {txs : List Tx} (t : Tx) (p : Nat) : Reach d0 (.up s) txs →
      (∀ w ∈ t, Outside C w.1 ∧ w.1 < 2 ^ 32) → logWrites C t s = .ok s' →
      Reach d0 (.down (applyWrites ((commit C s').writes.take p) s.disk))
        (if headWritten C ((commit C s').writes.take p) then txs ++ [t] else txs)
  | recoverCut {d : Disk} {txs : List Tx} (p : Nat) : Reach d0 (.down d) txs →
      Reach d0 (.down (applyWrites ((recoverFromLog C (boot d)).writes.take p) d)) txs
  | recover {d : Disk} {txs : List Tx} : Reach d0 (.down d) txs →
      Reach d0 (.up { recoverFromLog C (boot d) with writes := [] }) txs

end Xv6.Log
