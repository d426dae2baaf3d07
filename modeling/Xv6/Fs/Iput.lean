/-
  Xv6.Fs.Iput — the inode table of kernel/fs.c under any interleaving of `iget`, `idup`,
  `ilock`, `iunlock`, `iput` and `ialloc`.

  Any number of processes. Each call runs in steps, cut where another process can come in:
  at `itable.lock`, at an inode's sleep-lock, at a buffer (one read or write of an on-disk
  inode is one step), and, in `iput`'s free branch, between its statements. An inode number
  stands for device and number. `ialloc` may take any free number, not only the first.

  The discipline of the callers: a process calls `idup`, `ilock` and `iput` with a reference it
  holds; it may hand the reference that `idup` takes to another process (`fork`); it calls
  `iput` of an inode it has locked only if it holds a second reference. Who has the sleep-lock
  may change the copy's fields, `type` excepted, and write it to disk (`iupdate`).

  Ghost fields. `held`: the references, each with its process. `gen n`: how often number `n`
  has been allocated; an entry's `gen` is the allocation its copy was read from. `given n`: the
  contents number `n` has had since its last `ialloc`, by which it got the first and lock holders the
  others; `dirty`: the copy was changed and not yet written. `truncs` and `clears` count `itrunc` and
  `type = 0` for each allocation.
-/
import Xv6.Fs.State
import Mathlib

namespace Xv6.Iput

open Fs (Dinode)

structure Entry where
  inum : Nat
  ref : Nat
  valid : Bool
  /-- `type` to `addrs` -/
  copy : Dinode
  /-- the process in `lock.pid`, while `lock.locked` -/
  lock : Option Nat
  gen : Nat
  dirty : Bool

inductive Pc where
  | idle
  | igetWait (n : Nat)
  | igetScan (n : Nat)
  | idupWait (i q : Nat)
  | idupInc (i q : Nat)
  /-- in `acquiresleep` -/
  | ilockWait (i : Nat)
  | ilockGot (i : Nat)
  /-- the copy is read, `valid` is not set -/
  | ilockRead (i : Nat)
  | iputWait (i : Nat)
  | iputTest (i : Nat)
  /-- the free branch, at `acquiresleep` -/
  | iputAcq (i : Nat)
  | iputRel (i : Nat)
  | iputTrunc (i : Nat)
  | iputClear (i : Nat)
  | iputInval (i : Nat)
  | iputUnlock (i : Nat)
  | iputAgain (i : Nat)
  | iputDec (i : Nat)
  /-- at the last `release(&itable.lock)` -/
  | relTable
  deriving DecidableEq, Repr

inductive Panic where
  /-- panic("iget: no inodes") -/
  | noInodes
  /-- panic("ilock") -/
  | ilock
  /-- panic("ilock: no type") -/
  | noType
  /-- panic("iunlock") -/
  | iunlock
  /-- `acquiresleep` with `itable.lock` held would sleep: panic("sched locks") -/
  | sleeps
  deriving DecidableEq, Repr

structure St where
  ent : Nat → Entry
  /-- the process that has `itable.lock` -/
  tlock : Option Nat
  pc : Nat → Pc
  disk : Nat → Dinode
  held : Multiset (Nat × Nat)
  gen : Nat → Nat
  given : Nat → List Dinode
  truncs : Nat → Nat → Nat
  clears : Nat → Nat → Nat
  stop : Option Panic

def boot (disk : Nat → Dinode) : St where
  ent _ := ⟨0, 0, false, Dinode.zero, none, 0, false⟩
  tlock := none
  pc _ := .idle
  disk := disk
  held := 0
  gen _ := 0
  given n := [disk n]
  truncs _ _ := 0
  clears _ _ := 0
  stop := none

namespace St

def goto (s : St) (p : Nat) (c : Pc) : St := { s with pc := upd s.pc p c }

def setEnt (s : St) (i : Nat) (e : Entry) : St := { s with ent := upd s.ent i e }

def putDisk (s : St) (n : Nat) (d : Dinode) : St := { s with disk := upd s.disk n d }

def take (s : St) (p i : Nat) : St := { s with held := (p, i) ::ₘ s.held }

def give (s : St) (n : Nat) (d : Dinode) : St := { s with given := upd s.given n (d :: s.given n) }

def panic (s : St) (e : Panic) : St := { s with stop := some e }

def find (s : St) (n : Nat) : Option Nat :=
  (List.range NINODE).find? fun i => decide (0 < (s.ent i).ref ∧ (s.ent i).inum = n)

def empty (s : St) : Option Nat := (List.range NINODE).find? fun i => decide ((s.ent i).ref = 0)

end St

def truncated (d : Dinode) : Dinode := { d with size := 0, addrs := fun _ => 0 }

def Entry.isFreed (e : Entry) : Bool := e.ref = 1 ∧ e.valid = true ∧ e.copy.nlink = 0

inductive Step (p : Nat) : St → St → Prop where
  | iget {s : St} (n : Nat) : s.pc p = .idle → Step p s (s.goto p (.igetWait n))
  /-- The disk part of `ialloc`; it goes on with `iget`. -/
  | ialloc {s : St} (n : Nat) (t : Int) : s.pc p = .idle → (s.disk n).type = 0 → t ≠ 0 →
      Step p s ({ s.putDisk n { Dinode.zero with type := t } with
        gen := upd s.gen n (s.gen n + 1), given := upd s.given n [{ Dinode.zero with type := t }] }.goto p
        (.igetWait n))
  | igetLock {s : St} {n : Nat} : s.pc p = .igetWait n → s.tlock = none →
      Step p s ({ s with tlock := some p }.goto p (.igetScan n))
  | igetFound {s : St} {n i : Nat} : s.pc p = .igetScan n → s.find n = some i →
      Step p s (((s.setEnt i { s.ent i with ref := (s.ent i).ref + 1 }).take p i).goto p .relTable)
  | igetEmpty {s : St} {n i : Nat} : s.pc p = .igetScan n → s.find n = none → s.empty = some i →
      Step p s (((s.setEnt i { s.ent i with inum := n, ref := 1, valid := false }).take p i).goto p .relTable)
  | igetPanic {s : St} {n : Nat} : s.pc p = .igetScan n → s.find n = none → s.empty = none →
    Step p s (s.panic .noInodes)
  | idup {s : St} (i q : Nat) : s.pc p = .idle → (p, i) ∈ s.held → Step p s (s.goto p (.idupWait i q))
  | idupLock {s : St} {i q : Nat} : s.pc p = .idupWait i q → s.tlock = none →
      Step p s ({ s with tlock := some p }.goto p (.idupInc i q))
  | idupInc {s : St} {i q : Nat} : s.pc p = .idupInc i q →
      Step p s (((s.setEnt i { s.ent i with ref := (s.ent i).ref + 1 }).take q i).goto p .relTable)
  | relTable {s : St} : s.pc p = .relTable → Step p s ({ s with tlock := none }.goto p .idle)
  | ilock {s : St} (i : Nat) : s.pc p = .idle → (p, i) ∈ s.held → 1 ≤ (s.ent i).ref → Step p s (s.goto p (.ilockWait i))
  | ilockBad {s : St} (i : Nat) : s.pc p = .idle → (p, i) ∈ s.held → (s.ent i).ref < 1 → Step p s (s.panic .ilock)
  | ilockAcq {s : St} {i : Nat} : s.pc p = .ilockWait i → (s.ent i).lock = none →
      Step p s ((s.setEnt i { s.ent i with lock := some p }).goto p (.ilockGot i))
  | ilockValid {s : St} {i : Nat} : s.pc p = .ilockGot i → (s.ent i).valid = true → Step p s (s.goto p .idle)
  | ilockRead {s : St} {i : Nat} : s.pc p = .ilockGot i → (s.ent i).valid = false →
      Step p s ((s.setEnt i { s.ent i with
        copy := s.disk (s.ent i).inum, gen := s.gen (s.ent i).inum, dirty := false }).goto p (.ilockRead i))
  | ilockDone {s : St} {i : Nat} : s.pc p = .ilockRead i → (s.ent i).copy.type ≠ 0 →
      Step p s ((s.setEnt i { s.ent i with valid := true }).goto p .idle)
  /-- `valid` is set before this panic, and not read after it. -/
  | ilockPanic {s : St} {i : Nat} : s.pc p = .ilockRead i → (s.ent i).copy.type = 0 → Step p s (s.panic .noType)
  | iunlock {s : St} (i : Nat) : s.pc p = .idle → (s.ent i).lock = some p → 1 ≤ (s.ent i).ref →
      Step p s (s.setEnt i { s.ent i with lock := none })
  | iunlockBad {s : St} (i : Nat) : s.pc p = .idle → (s.ent i).lock ≠ some p ∨ (s.ent i).ref < 1 →
      Step p s (s.panic .iunlock)
  | modify {s : St} (i : Nat) (d : Dinode) : s.pc p = .idle → (s.ent i).lock = some p → d.type = (s.ent i).copy.type →
      Step p s ((s.setEnt i { s.ent i with copy := d, dirty := true }).give (s.ent i).inum d)
  | iupdate {s : St} (i : Nat) : s.pc p = .idle → (s.ent i).lock = some p →
      Step p s ((s.setEnt i { s.ent i with dirty := false }).putDisk (s.ent i).inum (s.ent i).copy)
  | iput {s : St} (i : Nat) : s.pc p = .idle → (p, i) ∈ s.held → ((s.ent i).lock = some p → 2 ≤ s.held.count (p, i)) →
      Step p s (s.goto p (.iputWait i))
  | iputLock {s : St} {i : Nat} : s.pc p = .iputWait i → s.tlock = none →
      Step p s ({ s with tlock := some p }.goto p (.iputTest i))
  | iputFree {s : St} {i : Nat} : s.pc p = .iputTest i → (s.ent i).isFreed = true → Step p s (s.goto p (.iputAcq i))
  | iputKeep {s : St} {i : Nat} : s.pc p = .iputTest i → (s.ent i).isFreed = false → Step p s (s.goto p (.iputDec i))
  | iputAcq {s : St} {i : Nat} : s.pc p = .iputAcq i → (s.ent i).lock = none →
      Step p s ((s.setEnt i { s.ent i with lock := some p }).goto p (.iputRel i))
  | iputSleeps {s : St} {i : Nat} : s.pc p = .iputAcq i → (s.ent i).lock ≠ none → Step p s (s.panic .sleeps)
  | iputRel {s : St} {i : Nat} : s.pc p = .iputRel i → Step p s ({ s with tlock := none }.goto p (.iputTrunc i))
  | iputTrunc {s : St} {i : Nat} : s.pc p = .iputTrunc i →
      Step p s (({ s.setEnt i { s.ent i with copy := truncated (s.ent i).copy, dirty := false } with
        truncs := upd s.truncs (s.ent i).inum
          (upd (s.truncs (s.ent i).inum) (s.ent i).gen (s.truncs (s.ent i).inum (s.ent i).gen + 1)) }.give
            (s.ent i).inum (truncated (s.ent i).copy)).putDisk (s.ent i).inum (truncated (s.ent i).copy) |>.goto p
            (.iputClear i))
  | iputClear {s : St} {i : Nat} : s.pc p = .iputClear i →
      Step p s (({ s.setEnt i { s.ent i with copy := { (s.ent i).copy with type := 0 }, dirty := false } with
        clears := upd s.clears (s.ent i).inum
          (upd (s.clears (s.ent i).inum) (s.ent i).gen (s.clears (s.ent i).inum (s.ent i).gen + 1)) }.putDisk
            (s.ent i).inum { (s.ent i).copy with type := 0 }).goto p (.iputInval i))
  | iputInval {s : St} {i : Nat} : s.pc p = .iputInval i →
      Step p s ((s.setEnt i { s.ent i with valid := false }).goto p (.iputUnlock i))
  | iputUnlock {s : St} {i : Nat} : s.pc p = .iputUnlock i →
      Step p s ((s.setEnt i { s.ent i with lock := none }).goto p (.iputAgain i))
  | iputAgain {s : St} {i : Nat} : s.pc p = .iputAgain i → s.tlock = none →
      Step p s ({ s with tlock := some p }.goto p (.iputDec i))
  | iputDec {s : St} {i : Nat} : s.pc p = .iputDec i →
      Step p s ({ s.setEnt i { s.ent i with ref := (s.ent i).ref - 1 } with held := s.held.erase (p, i) }.goto
      p .relTable)

/-- What a run reaches from a boot over some disk; there is no step after a panic. -/
inductive Reachable : St → Prop where
  | boot (disk : Nat → Dinode) : Reachable (boot disk)
  | step {s s' : St} {p : Nat} : Reachable s → s.stop = none → Step p s s' → Reachable s'

end Xv6.Iput
