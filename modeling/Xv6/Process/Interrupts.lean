/-
  Xv6.Process.Interrupts — `push_off` and `pop_off` of kernel/spinlock.c across the context
  switches of kernel/proc.c.

  Threads. A hart runs its scheduler or the kernel thread of a process. A thread may do
  anything that keeps the discipline of the code: push and pop in balance, take and release
  locks, turn interrupts on or off while nothing is pushed (`intr_on`, `intr_off`, a trap and
  its return), and change `p->state` under `p->lock`. It leaves its hart in `sched` only and
  gets one in `scheduler` only, whose loop is written out (`pick`, `look`, `finish`). `acquire`
  spins as a step of its own, and so does `sched`'s last line, which restores `intena`.

  Ghost fields. `depth` counts a thread's unmatched `push_off`s; a new process starts in
  `forkret` with the one that its scheduler did for it. `base` says whether interrupts were on
  at the outermost of them. `back` is, for a scheduler whose process has come back since, the
  `base` of that process.
-/
import Mathlib
import Xv6.Process.State

namespace Xv6.Interrupts

open Process (PState)

inductive Thread where
  | proc (p : Nat)
  /-- the scheduler of hart `h` -/
  | sched (h : Nat)
  deriving DecidableEq, Repr

inductive Lock where
  /-- `p->lock` -/
  | proc (p : Nat)
  | other (n : Nat)
  deriving DecidableEq, Repr

inductive Panic where
  /-- panic("pop_off - interruptible") -/
  | interruptible
  /-- panic("pop_off") -/
  | popOff
  /-- panic("acquire") -/
  | acquire
  /-- panic("release") -/
  | release
  /-- panic("sched p->lock") -/
  | schedLock
  /-- panic("sched locks") -/
  | schedLocks
  /-- panic("sched running") -/
  | schedRunning
  /-- panic("sched interruptible") -/
  | schedInterruptible
  /-- `swtch` to a context that is not saved: its process is running -/
  | badContext
  deriving DecidableEq, Repr

inductive Mode where
  | free
  /-- in `acquire`, after its `push_off` -/
  | spin (lk : Lock)
  /-- in `sched`, with the local `intena`: switched away, or just back -/
  | inSched (intena : Bool)
  /-- not run yet -/
  | forkret
  /-- a scheduler in `acquire(&p->lock)` -/
  | pickSpin (p : Nat)
  /-- a scheduler with `p->lock`, before it looks at `p->state` -/
  | picked (p : Nat)
  /-- a scheduler in `swtch` -/
  | away (p : Nat)
  /-- a scheduler after `swtch` -/
  | returned (p : Nat)
  deriving DecidableEq, Repr

structure Thr where
  mode : Mode
  depth : Nat
  base : Bool
  back : Option Bool
  deriving DecidableEq, Repr

/-- `struct cpu`, with `sstatus.SIE` and the process whose thread the hart runs, if any. -/
structure Hart where
  noff : Nat
  intena : Bool
  intr : Bool
  on : Option Nat
  deriving DecidableEq, Repr

structure St where
  harts : Nat → Hart
  thr : Thread → Thr
  /-- the hart in `lk->cpu`, while `lk->locked` -/
  lock : Lock → Option Nat
  state : Nat → PState
  stop : Option Panic

def boot : St where
  harts _ := ⟨0, false, false, none⟩
  thr
    | .proc _ => ⟨.forkret, 0, false, none⟩
    | .sched _ => ⟨.free, 0, false, none⟩
  lock _ := none
  state _ := .unused
  stop := none

def St.cur (s : St) (h : Nat) : Thread :=
  match (s.harts h).on with
  | some p => .proc p
  | none => .sched h

def St.setHart (s : St) (h : Nat) (c : Hart) : St := { s with harts := upd s.harts h c }

def St.setThr (s : St) (t : Thread) (x : Thr) : St := { s with thr := Function.update s.thr t x }

def St.setMode (s : St) (t : Thread) (m : Mode) : St := s.setThr t { s.thr t with mode := m }

def St.setLock (s : St) (lk : Lock) (v : Option Nat) : St := { s with lock := Function.update s.lock lk v }

def St.panic (s : St) (e : Panic) : St := { s with stop := some e }

/-! ## kernel/spinlock.c -/

def pushOff (s : St) (h : Nat) : St :=
  let c := s.harts h
  let x := s.thr (s.cur h)
  (s.setHart h { c with noff := c.noff + 1, intena := if c.noff = 0 then c.intr else c.intena, intr := false }).setThr
    (s.cur h)
    { x with
      depth := x.depth + 1
      base := if x.depth = 0 then c.intr else x.base
      back := if x.depth = 0 then none else x.back }

def popOff (s : St) (h : Nat) : St :=
  let c := s.harts h
  let x := s.thr (s.cur h)
  if c.intr then s.panic .interruptible
  else if c.noff < 1 then s.panic .popOff
  else
    (s.setHart h { c with noff := c.noff - 1, intr := decide (c.noff - 1 = 0) && c.intena }).setThr
      (s.cur h) { x with depth := x.depth - 1 }

/-- `acquire` up to its loop, where the thread is then in mode `m`. -/
def acquire (s : St) (h : Nat) (lk : Lock) (m : Mode) : St :=
  if s.lock lk = some h then (pushOff s h).panic .acquire else (pushOff s h).setMode (s.cur h) m

def release (s : St) (h : Nat) (lk : Lock) : St :=
  if s.lock lk = some h then popOff (s.setLock lk none) h else s.panic .release

/-! ## kernel/proc.c -/

def sched (s : St) (h p : Nat) : St :=
  let c := s.harts h
  let x := s.thr (.proc p)
  if s.lock (.proc p) ≠ some h then s.panic .schedLock
  else if c.noff ≠ 1 then s.panic .schedLocks
  else if s.state p = .running then s.panic .schedRunning
  else if c.intr then s.panic .schedInterruptible
  else
    -- `swtch`: the scheduler goes on behind its own `swtch`
    ((s.setHart h { c with on := none }).setThr (.proc p) { x with mode := .inSched c.intena }).setThr
      (.sched h) { s.thr (.sched h) with mode := .returned p, back := some x.base }

def switch (s : St) (h p : Nat) : St :=
  let s' := (({ s with state := upd s.state p .running } : St).setHart h { s.harts h with on := some p }).setMode
    (.sched h) (.away p)
  match (s.thr (.proc p)).mode with
  | .forkret => s'.setThr (.proc p) ⟨.free, 1, (s.thr (.sched h)).base, none⟩
  | .inSched _ => s'
  | _ => s'.panic .badContext

inductive Act where
  | pushOff
  | popOff
  /-- `intr_on`, `intr_off`, a trap or its return -/
  | intr (b : Bool)
  | acquire (lk : Lock)
  /-- the test-and-set of a free lock -/
  | take
  | release (lk : Lock)
  | setState (p : Nat) (v : PState)
  | allocproc (p : Nat)
  | sched
  /-- `mycpu()->intena = intena` at the end of `sched` -/
  | restore
  /-- the scheduler's `acquire(&p->lock)` -/
  | pick (p : Nat)
  /-- the scheduler's test of `p->state` -/
  | look
  /-- the scheduler's `release(&p->lock)` after `swtch` -/
  | finish
  deriving DecidableEq, Repr

/-- A process keeps its own lock from when it leaves the state RUNNING until it is in `sched`. -/
def mayRelease (s : St) (h : Nat) : Lock → Bool
  | .proc p => (s.harts h).on ≠ some p ∨ s.state p = .running
  | .other _ => true

/-- `p->state` is changed under `p->lock`, by the process itself or while it does not run. -/
def maySet (s : St) (h p : Nat) (v : PState) : Bool :=
  s.lock (.proc p) = some h ∧ v ≠ .running ∧
    if (s.harts h).on = some p then v ≠ .unused else s.state p ≠ .running

/-- What hart `h` does next; `none` if its thread does not do this here. -/
def exec (s : St) (h : Nat) (a : Act) : Option St :=
  let t := s.cur h
  let x := s.thr t
  match a, x.mode with
  | .pushOff, .free => some (pushOff s h)
  | .popOff, .free => if 0 < x.depth then some (popOff s h) else none
  | .intr b, .free => if x.depth = 0 then some (s.setHart h { s.harts h with intr := b }) else none
  | .acquire lk, .free => some (acquire s h lk (.spin lk))
  | .take, .spin lk => if s.lock lk = none then some ((s.setLock lk (some h)).setMode t .free) else none
  | .release lk, .free => if 0 < x.depth ∧ mayRelease s h lk then some (release s h lk) else none
  | .setState p v, .free => if maySet s h p v then some { s with state := upd s.state p v } else none
  | .allocproc p, .free =>
    if s.lock (.proc p) = some h ∧ s.state p = .unused then
      some (({ s with state := upd s.state p .used } : St).setMode (.proc p) .forkret)
    else none
  | .sched, .free => (s.harts h).on.map fun p => sched s h p
  | .restore, .inSched b => some ((s.setHart h { s.harts h with intena := b }).setMode t .free)
  | .pick p, .free => if t = .sched h ∧ x.depth = 0 then some (acquire s h (.proc p) (.pickSpin p)) else none
  | .take, .pickSpin p =>
    if s.lock (.proc p) = none then some ((s.setLock (.proc p) (some h)).setMode t (.picked p)) else none
  | .look, .picked p =>
    if s.state p = .runnable then some (switch s h p) else some ((release s h (.proc p)).setMode t .free)
  | .finish, .returned p => some ((release s h (.proc p)).setMode t .free)
  | _, _ => none

def step (s : St) (h : Nat) (a : Act) : Option St := if s.stop = none then exec s h a else none

inductive Reachable : St → Prop where
  | boot : Reachable boot
  | step {s s' : St} {h : Nat} {a : Act} : Reachable s → step s h a = some s' → Reachable s'

end Xv6.Interrupts
