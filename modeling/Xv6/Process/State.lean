/-
  Xv6.Process.State — `struct proc` of kernel/proc.h and what kernel/proc.c does to one entry of
  the process table. Shared by the model at the level of whole calls (`Xv6.Process.Calls`) and
  the one at the level of single lock operations (`Xv6.Process.Sched`).

  A page table and a trapframe are kept as whether the pointer is non-zero, an open file as
  the index of its entry in `ftable`. `kstack`, `context` and `name` are left out here: the
  first never changes, the second is the saved thread of `Xv6.Process.Sched`, the third is only
  printed.
-/
import Xv6.Param
import Xv6.Lib.Table

namespace Xv6.Process

inductive PState where
  | unused
  | used
  | sleeping
  | runnable
  | running
  | zombie
  deriving DecidableEq, Repr

inductive Chan where
  /-- a `struct proc`: `wait` -/
  | proc (p : Nat)
  /-- a `struct sleeplock` -/
  | sleeplock (n : Nat)
  /-- any other address -/
  | other (n : Nat)
  deriving DecidableEq, Repr

structure Proc where
  state : PState
  chan : Option Chan
  killed : Bool
  xstate : Int
  pid : Int
  parent : Option Nat
  sz : Nat
  pagetable : Bool
  trapframe : Bool
  ofile : Nat → Option Nat
  cwd : Option Nat

namespace Proc

def zero : Proc :=
  { state := .unused, chan := none, killed := false, xstate := 0, pid := 0, parent := none, sz := 0, pagetable := false,
    trapframe := false, ofile := fun _ => none, cwd := none }

def freeproc (q : Proc) : Proc :=
  { q with trapframe := false, pagetable := false, sz := 0, pid := 0, parent := none, chan := none, killed := false,
           xstate := 0, state := .unused }

def wake (q : Proc) (c : Option Chan) : Proc :=
  if q.state = .sleeping ∧ q.chan = c then { q with state := .runnable } else q

def kill (q : Proc) : Proc :=
  if q.state = .sleeping then { q with killed := true, state := .runnable } else { q with killed := true }

/-- `fork`, once the child's memory is copied: `sz`, the open files and `cwd` of the parent. -/
def inherit (q parent : Proc) : Proc :=
  { q with
    sz := parent.sz
    ofile := fun fd => if fd < NOFILE ∧ parent.ofile fd ≠ none then parent.ofile fd else q.ofile fd
    cwd := parent.cwd }

def close (q : Proc) : Proc :=
  { q with ofile := fun fd => if fd < NOFILE then none else q.ofile fd, cwd := none }

end Proc

/-- `proc[0]` is the first one `allocproc` takes: `userinit` runs before any `fork`. -/
def initproc : Nat := 0

def bootProcs : Nat → Proc :=
  upd (fun _ => Proc.zero) initproc
    { Proc.zero with state := .runnable, pid := 1, sz := PGSIZE, pagetable := true, trapframe := true, cwd := some 0 }

def pidSucc (n : Int) : Int := Int.bmod (n + 1) (2 ^ 32)

end Xv6.Process
