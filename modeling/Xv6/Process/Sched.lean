/-
  Xv6.Process.Sched — kernel/proc.c, kernel/spinlock.c and kernel/sleeplock.c on any number of
  harts, one lock operation, state change or `swtch` at a time.

  Each hart has a thread of its own, `scheduler`, and each process has one; `cur h` is the
  process whose thread hart `h` executes, `none` for its scheduler. A thread is the list of
  what it has still to do, the next instruction first: a call replaces itself by the body of
  the function, a loop by its next turn. `swtch` leaves the rest of the list behind, which is
  what the saved `struct context` and the kernel stack hold. An interrupt puts
  `kerneltrap`'s instructions in front.

  A step is the first instruction of the thread a hart executes (`run`), or an interrupt that
  hart takes (`irq`). `acquire` is one step that is possible once the lock is free; a hart
  that spins has interrupts off, so it takes none meanwhile in the source, and may in the
  model. What an instruction cannot know is part of the step (`Choice`): which trap brings a
  process into the kernel, whether memory runs out, what the rest of the kernel does next.

  `code` is the rest of the kernel: it takes and releases other spinlocks, and, outside
  `p->lock`s, calls `wakeup`; on behalf of a process it also calls `sleep` holding one
  spinlock and that one only, and takes and releases sleep-locks holding no spinlock. `iput` takes a sleep-lock while
  it holds `itable.lock`; it does so only when
  nobody else can have it (`ref == 1`), so there it does not sleep (`Op.iputLock`).

  `holders`, `naps`, `maker`, `exits`, `mark` and `reaped`, and the lock list `wakeup` carries,
  are not in the source, and no instruction reads them except that a process frees only
  sleep-locks it is a holder of: `brelse` and `iunlock` check `holdingsleep`.
-/
import Xv6.Process.State
import Mathlib

namespace Xv6.Process

inductive Lock where
  /-- `p->lock` -/
  | proc (p : Nat)
  /-- `wait_lock` -/
  | wait
  /-- `pid_lock` -/
  | pid
  /-- the spinlock inside sleep-lock `n` -/
  | sleeplock (n : Nat)
  | other (n : Nat)
  deriving DecidableEq, Repr

inductive Ctx where
  /-- called under a `p->lock` or `wait_lock`: `kalloc`, `uvmcopy`, `filedup`, ... -/
  | quiet
  /-- an interrupt handler -/
  | irq
  /-- a system call -/
  | proc
  deriving DecidableEq, Repr

inductive Instr where
  /- spinlock.c, and the interrupt flag -/
  | acquire (l : Lock)
  | release (l : Lock)
  | intrOn
  | intrOff
  /-- the `sret` at the end of `kernelvec` -/
  | iret
  /- scheduler -/
  | scheduler
  | scan (i : Nat)
  /-- `if(p->state == RUNNABLE)` -/
  | dispatch (i : Nat)
  /-- `c->proc = ...` -/
  | setProc (p : Option Nat)
  /-- `swtch(&c->context, &p->context)` -/
  | swtchTo (p : Nat)
  /- sched, yield, forkret -/
  | sched
  /-- `swtch(&p->context, &mycpu()->context)` -/
  | swtchBack
  /-- `mycpu()->intena = intena` -/
  | setIntena (b : Bool)
  | yield
  /-- `p->state = RUNNABLE` in `yield` -/
  | setRunnable (p : Nat)
  /-- the end of `kerneltrap` for a timer interrupt -/
  | yieldIf
  | forkret
  /- sleep, wakeup -/
  | sleep (c : Chan) (lk : Lock)
  /-- `p->chan = chan` -/
  | setChan (p : Nat) (c : Chan) (lk : Lock)
  /-- `p->state = SLEEPING` -/
  | nap (p : Nat) (c : Chan) (lk : Lock)
  /-- `p->chan = 0` -/
  | tidy (p : Nat) (c : Chan) (lk : Lock)
  | wakeupFrom (i : Nat) (c : Option Chan) (held : List Lock)
  | wakeAt (i : Nat) (c : Option Chan) (held : List Lock)
  /- kill, killed, setkilled -/
  | killFrom (i : Nat) (pid : Int)
  | killAt (i : Nat) (pid : Int)
  | setKilled (p : Nat)
  /-- `if(killed(p)) exit(-1)` -/
  | checkKilled
  | killedExit (p : Nat)
  /- fork -/
  | fork
  | allocFrom (i p : Nat)
  | allocAt (i p : Nat)
  /-- `allocpid` -/
  | takePid (i p : Nat)
  | setUsed (i p : Nat) (pid : Int)
  /-- the trapframe, the page table and the context -/
  | allocMem (i p : Nat)
  | forkCopy (i p : Nat)
  /-- `np->parent = p` -/
  | forkParent (i p : Nat)
  /-- `np->state = RUNNABLE` -/
  | forkRun (i p : Nat)
  /- exit -/
  | exit (status : Int)
  | exitClosed (p : Nat)
  | exitReparent (i p : Nat) (status : Int)
  | exitZombie (p : Nat) (status : Int)
  /-- `panic("zombie exit")` -/
  | zombieExit
  /- wait -/
  | wait
  | waitScan (i p : Nat) (havekids : Bool)
  | waitAt (i p : Nat)
  | waitKilled (p : Nat)
  /- sleeplock.c -/
  | acquiresleep (n : Nat)
  /-- `while (lk->locked)` -/
  | sleepLoop (n p : Nat)
  /-- the same where the lock is known to be free -/
  | takeFree (n p : Nat)
  | releasesleep (n : Nat)
  | freeSleep (n p : Nat)
  /- the rest -/
  | code (k : Ctx) (held : List Nat)
  /-- in user space -/
  | user

inductive Trap where
  | fork
  | exit (status : Int)
  | wait
  | kill (pid : Int)
  /-- any other system call -/
  | call
  | timer
  | device
  /-- an exception `usertrap` does not handle -/
  | fault
  deriving DecidableEq, Repr

inductive Op where
  | done
  | acquire (n : Nat)
  | release (n : Nat)
  | wakeup (c : Nat)
  | sleep (c n : Nat)
  /-- `killed(myproc())` -/
  | killed
  | acquiresleep (n : Nat)
  | iputLock (n : Nat)
  | releasesleep (n : Nat)
  /-- the process changes what it owns by itself -/
  | own (sz : Nat) (ofile : Nat → Option Nat) (cwd : Option Nat)

inductive Choice where
  | go
  /-- memory runs out, or `copyout` fails -/
  | fail
  | trap (t : Trap)
  | op (o : Op)

inductive Panic where
  | acquire
  | release
  | popOffInterruptible
  | popOff
  | schedLock
  | schedLocks
  | schedRunning
  | schedInterruptible
  | initExiting
  | zombieExit
  /-- `myproc()` is 0 and is dereferenced -/
  | noProc
  deriving DecidableEq, Repr

structure Hart where
  proc : Option Nat
  noff : Nat
  intena : Bool
  intr : Bool
  deriving DecidableEq, Repr

structure Data where
  procs : Nat → Proc
  nextpid : Int
  /-- `locked` and `pid` of sleep-lock `n` -/
  locked : Nat → Bool
  lpid : Nat → Int
  /-- the processes that have come back from `acquiresleep(n)` and not yet freed it -/
  holders : Nat → List Nat
  /-- how often the process has called `sleep` -/
  naps : Nat → Nat
  /-- the process that last took the slot in `allocproc` -/
  maker : Nat → Option Nat
  /-- pid and status of each `exit`, in order, and the number of the slot's last one -/
  exits : List (Int × Int)
  mark : Nat → Nat
  /-- the `exit`s `wait` has returned, with the pid and the status it found -/
  reaped : List (Nat × Int × Int)

structure St where
  data : Data
  harts : Nat → Hart
  /-- the hart that holds the lock -/
  lock : Lock → Option Nat
  cur : Nat → Option Nat
  /-- the threads -/
  sched : Nat → List Instr
  proc : Nat → List Instr
  panic : Option Panic

/-- Every hart is about to enter `scheduler`; `userinit` has run. -/
def init : St :=
  { data :=
      { procs := bootProcs, nextpid := 2, locked := fun _ => false, lpid := fun _ => 0, holders := fun _ => [],
        naps := fun _ => 0, maker := fun _ => none, exits := [], mark := fun _ => 0, reaped := [] }
    harts := fun _ => ⟨none, 0, false, false⟩
    lock := fun _ => none
    cur := fun _ => none
    sched := fun _ => [.scheduler]
    proc := fun p => if p = initproc then [.forkret] else []
    panic := none }

/-! ## Interrupts and spinlocks -/

def Hart.pushOff (c : Hart) : Hart :=
  { c with intr := false, intena := if c.noff = 0 then c.intr else c.intena, noff := c.noff + 1 }

def Hart.popOff (c : Hart) : Except Panic Hart :=
  if c.intr then .error .popOffInterruptible
  else if c.noff < 1 then .error .popOff
  else .ok { c with noff := c.noff - 1, intr := decide (c.noff - 1 = 0) && c.intena }

def St.code (s : St) (h : Nat) : List Instr :=
  match s.cur h with
  | none => s.sched h
  | some p => s.proc p

def St.goto (s : St) (h : Nat) (is : List Instr) : St :=
  match s.cur h with
  | none => { s with sched := upd s.sched h is }
  | some p => { s with proc := upd s.proc p is }

def St.setHart (s : St) (h : Nat) (c : Hart) : St := { s with harts := upd s.harts h c }

def St.setLock (s : St) (l : Lock) (x : Option Nat) : St := { s with lock := fun k => if k = l then x else s.lock k }

def St.stop (s : St) (e : Panic) : St := { s with panic := some e }

/-- `acquire(l)`: no step while another hart holds the lock. -/
def St.acquire (s : St) (h : Nat) (l : Lock) : Option St :=
  let s := s.setHart h (s.harts h).pushOff
  match s.lock l with
  | none => some (s.setLock l (some h))
  | some k => if k = h then some (s.stop .acquire) else none

def St.release (s : St) (h : Nat) (l : Lock) : St :=
  if s.lock l ≠ some h then s.stop .release
  else
    let s := s.setLock l none
    match (s.harts h).popOff with
    | .error e => s.stop e
    | .ok c => s.setHart h c

/-! ## The process table -/

namespace Data

def put (d : Data) (i : Nat) (q : Proc) : Data := { d with procs := upd d.procs i q }

def takeLock (d : Data) (n p : Nat) : Data :=
  { d with
    locked := upd d.locked n true, lpid := upd d.lpid n (d.procs p).pid, holders := upd d.holders n (p :: d.holders n) }

def freeLock (d : Data) (n p : Nat) : Data :=
  { d with locked := upd d.locked n false, lpid := upd d.lpid n 0, holders := upd d.holders n ((d.holders n).erase p) }

def setZombie (d : Data) (p : Nat) (status : Int) : Data :=
  { d.put p { d.procs p with xstate := status, state := .zombie } with
    exits := d.exits ++ [((d.procs p).pid, status)]
    mark := upd d.mark p d.exits.length }

def reap (d : Data) (i : Nat) : Data :=
  { d.put i (d.procs i).freeproc with reaped := d.reaped ++ [(d.mark i, (d.procs i).pid, (d.procs i).xstate)] }

def state (d : Data) (i : Nat) : PState := (d.procs i).state

end Data

/-- What an instruction does to the data, and what comes next; `spawn` resets the context of a
    slot to `forkret`. -/
inductive Res where
  | ok (d : Data) (is : List Instr) (spawn : Option Nat)
  | panic (e : Panic)

def next (d : Data) (is : List Instr) : Option Res := some (.ok d is none)

def withProc (me : Option Nat) (f : Nat → Option Res) : Option Res :=
  match me with
  | some p => f p
  | none => some (.panic .noProc)

/-- What a process does between its trap into the kernel and its return: `usertrap`, which ends in
    `usertrapret` with its `intr_off()`. -/
def usertrap (p : Nat) : Trap → List Instr
  | .fork => [.checkKilled, .intrOn, .fork, .checkKilled, .intrOff, .user]
  | .exit status => [.checkKilled, .intrOn, .exit status, .checkKilled, .intrOff, .user]
  | .wait => [.checkKilled, .intrOn, .wait, .checkKilled, .intrOff, .user]
  | .kill pid => [.checkKilled, .intrOn, .killFrom 0 pid, .checkKilled, .intrOff, .user]
  | .call => [.checkKilled, .intrOn, .code .proc [], .checkKilled, .intrOff, .user]
  | .timer => [.code .irq [], .checkKilled, .yield, .intrOff, .user]
  | .device => [.code .irq [], .checkKilled, .intrOff, .user]
  | .fault => [.acquire (.proc p), .setKilled p, .release (.proc p), .checkKilled, .intrOff, .user]

def codeOp (me : Option Nat) (d : Data) (k : Ctx) (held : List Nat) : Op → Option Res
  | .done => if held = [] then next d [] else none
  | .acquire n => if n ∈ held then none else next d [.acquire (.other n), .code k (n :: held)]
  | .release n => if n ∈ held then next d [.release (.other n), .code k (held.erase n)] else none
  | .wakeup c =>
    if k = .quiet then none else next d [.wakeupFrom 0 (some (.other c)) (held.map .other), .code k held]
  | .sleep c n => if k = .proc ∧ held = [n] then next d [.sleep (.other c) (.other n), .code k held] else none
  | .killed =>
    if k = .proc then withProc me fun p => next d [.acquire (.proc p), .release (.proc p), .code k held] else none
  | .acquiresleep n => if k = .proc ∧ held = [] then next d [.acquiresleep n, .code k held] else none
  | .iputLock n =>
    if k = .proc then withProc me fun p => next d [.acquire (.sleeplock n), .takeFree n p, .code k held] else none
  | .releasesleep n => if k = .proc ∧ held = [] then next d [.releasesleep n, .code k held] else none
  | .own sz ofile cwd =>
    if k = .proc then
      withProc me fun p => next (d.put p { d.procs p with sz := sz, ofile := ofile, cwd := cwd }) [.code k held]
    else none

/-- The instructions that read or write the data; `me` is `c->proc`. -/
def exec (me : Option Nat) (d : Data) (ch : Choice) : Instr → Option Res
  -- scheduler
  | .scan i => next d (if i < NPROC then [.acquire (.proc i), .dispatch i] else [.scheduler])
  | .dispatch i =>
    if d.state i = .runnable then
      next (d.put i { d.procs i with state := .running })
        [.setProc (some i), .swtchTo i, .setProc none, .release (.proc i), .scan (i + 1)]
    else next d [.release (.proc i), .scan (i + 1)]
  -- yield, forkret
  | .yield => withProc me fun p => next d [.acquire (.proc p), .setRunnable p, .sched, .release (.proc p)]
  | .setRunnable p => next (d.put p { d.procs p with state := .runnable }) []
  | .yieldIf =>
    match me with
    | some p => next d (if d.state p = .running then [.yield] else [])
    | none => next d []
  | .forkret => withProc me fun p => next d [.release (.proc p), .code .proc [], .intrOff, .user]
  -- sleep, wakeup
  | .sleep c lk =>
    withProc me fun p => next { d with naps := upd d.naps p (d.naps p + 1) }
      [.acquire (.proc p), .release lk, .setChan p c lk, .nap p c lk, .sched, .tidy p c lk, .release (.proc p),
      .acquire lk]
  | .setChan p c _ => next (d.put p { d.procs p with chan := some c }) []
  | .nap p _ _ => next (d.put p { d.procs p with state := .sleeping }) []
  | .tidy p _ _ => next (d.put p { d.procs p with chan := none }) []
  | .wakeupFrom i c g =>
    next d (if i < NPROC then (if me = some i then [.wakeupFrom (i + 1) c g] else
      [.acquire (.proc i), .wakeAt i c g]) else [])
  | .wakeAt i c g => next (d.put i ((d.procs i).wake c)) [.release (.proc i), .wakeupFrom (i + 1) c g]
  -- kill
  | .killFrom i pid => next d (if i < NPROC then [.acquire (.proc i), .killAt i pid] else [])
  | .killAt i pid =>
    if (d.procs i).pid = pid then next (d.put i (d.procs i).kill) [.release (.proc i)]
    else next d [.release (.proc i), .killFrom (i + 1) pid]
  | .setKilled p => next (d.put p { d.procs p with killed := true }) []
  | .checkKilled => withProc me fun p => next d [.acquire (.proc p), .killedExit p]
  | .killedExit p => next d (if (d.procs p).killed then [.release (.proc p), .exit (-1)] else [.release (.proc p)])
  -- fork
  | .fork => withProc me fun p => next d [.allocFrom 0 p]
  | .allocFrom i p => next d (if i < NPROC then [.acquire (.proc i), .allocAt i p] else [])
  | .allocAt i p =>
    if d.state i = .unused then next { d with maker := upd d.maker i (some p) } [.acquire .pid, .takePid i p]
    else next d [.release (.proc i), .allocFrom (i + 1) p]
  | .takePid i p => next { d with nextpid := pidSucc d.nextpid } [.release .pid, .setUsed i p d.nextpid]
  | .setUsed i p pid => next (d.put i { d.procs i with pid := pid, state := .used }) [.code .quiet [], .allocMem i p]
  | .allocMem i p =>
    match ch with
    | .fail => next (d.put i (d.procs i).freeproc) [.release (.proc i)]
    | .go => some (.ok (d.put i { d.procs i with trapframe := true, pagetable := true })
        [.code .quiet [], .forkCopy i p] (some i))
    | _ => none
  | .forkCopy i p =>
    match ch with
    | .fail => next (d.put i (d.procs i).freeproc) [.release (.proc i)]
    | .go => next (d.put i ((d.procs i).inherit (d.procs p)))
        [.code .quiet [], .release (.proc i), .acquire .wait, .forkParent i p]
    | _ => none
  | .forkParent i p =>
    next (d.put i { d.procs i with parent := some p }) [.release .wait, .acquire (.proc i), .forkRun i p]
  | .forkRun i _ => next (d.put i { d.procs i with state := .runnable }) [.release (.proc i)]
  -- exit
  | .exit status =>
    withProc me fun p =>
      if p = initproc then some (.panic .initExiting)
      else next d [.code .proc [], .exitClosed p, .acquire .wait, .exitReparent 0 p status]
  | .exitClosed p => next (d.put p (d.procs p).close) []
  | .exitReparent i p status =>
    if i < NPROC then
      if (d.procs i).parent = some p then
        next (d.put i { d.procs i with parent := some initproc })
          [.wakeupFrom 0 (some (.proc initproc)) [.wait], .exitReparent (i + 1) p status]
      else next d [.exitReparent (i + 1) p status]
    else
      next d [.wakeupFrom 0 ((d.procs p).parent.map .proc) [.wait], .acquire (.proc p), .exitZombie p status]
  | .exitZombie p status =>
    next (d.setZombie p status) [.release .wait, .sched, .zombieExit]
  | .zombieExit => some (.panic .zombieExit)
  -- wait
  | .wait => withProc me fun p => next d [.acquire .wait, .waitScan 0 p false]
  | .waitScan i p havekids =>
    if i < NPROC then
      if (d.procs i).parent = some p then next d [.acquire (.proc i), .waitAt i p]
      else next d [.waitScan (i + 1) p havekids]
    else if havekids then next d [.acquire (.proc p), .waitKilled p]
    else next d [.release .wait]
  | .waitAt i p =>
    if d.state i = .zombie then
      match ch with
      | .fail => next d [.release (.proc i), .release .wait]
      | .go => next (d.reap i) [.release (.proc i), .release .wait]
      | _ => none
    else next d [.release (.proc i), .waitScan (i + 1) p true]
  | .waitKilled p =>
    next d (if (d.procs p).killed then [.release (.proc p), .release .wait]
      else [.release (.proc p), .sleep (.proc p) .wait, .waitScan 0 p false])
  -- sleeplock.c
  | .acquiresleep n => withProc me fun p => next d [.acquire (.sleeplock n), .sleepLoop n p]
  | .sleepLoop n p =>
    if d.locked n then next d [.sleep (.sleeplock n) (.sleeplock n), .sleepLoop n p]
    else next (d.takeLock n p) [.release (.sleeplock n)]
  | .takeFree n p =>
    if d.locked n then none
    else next (d.takeLock n p) [.release (.sleeplock n)]
  | .releasesleep n => withProc me fun p => next d [.acquire (.sleeplock n), .freeSleep n p]
  | .freeSleep n p =>
    if p ∈ d.holders n then
      next (d.freeLock n p) [.wakeupFrom 0 (some (.sleeplock n)) [.sleeplock n], .release (.sleeplock n)]
    else none
  -- the rest
  | .code k held =>
    match ch with
    | .op o => codeOp me d k held o
    | _ => none
  | .user =>
    match ch with
    | .trap t => withProc me fun p => next d (usertrap p t)
    | _ => none
  | _ => none

def schedCheck (s : St) (h : Nat) : Option Panic :=
  match (s.harts h).proc with
  | none => some .noProc
  | some p =>
    if s.lock (.proc p) ≠ some h then some .schedLock
    else if (s.harts h).noff ≠ 1 then some .schedLocks
    else if s.data.state p = .running then some .schedRunning
    else if (s.harts h).intr then some .schedInterruptible
    else none

inductive Ev where
  | run (h : Nat) (ch : Choice)
  | irq (h : Nat) (timer : Bool)

/-- Hart `h` goes on after an instruction that has read or written the data. -/
def St.finish (s : St) (h : Nat) (rest : List Instr) : Option Res → Option St
  | none => none
  | some (.panic e) => some (s.stop e)
  | some (.ok d is none) => some ({ s with data := d }.goto h (is ++ rest))
  | some (.ok d is (some q)) =>
    let s := { s with data := d }.goto h (is ++ rest)
    some { s with proc := upd s.proc q [.forkret] }

/-- Hart `h` executes instruction `i` of its thread, with `rest` to follow. -/
def run (s : St) (h : Nat) (ch : Choice) (i : Instr) (rest : List Instr) : Option St :=
  let c := s.harts h
  match i with
  | .acquire l => (s.acquire h l).map (·.goto h rest)
  | .release l => some ((s.release h l).goto h rest)
  | .intrOn => some ((s.setHart h { c with intr := true }).goto h rest)
  | .intrOff => some ((s.setHart h { c with intr := false }).goto h rest)
  | .iret => some ((s.setHart h { c with intr := true }).goto h rest)
  | .scheduler => some ((s.setHart h { c with intr := true }).goto h (.scan 0 :: rest))
  | .setProc p => some ((s.setHart h { c with proc := p }).goto h rest)
  | .swtchTo p => some { s.goto h rest with cur := upd s.cur h (some p) }
  | .sched =>
    match schedCheck s h with
    | some e => some (s.stop e)
    | none => some (s.goto h (.swtchBack :: .setIntena c.intena :: rest))
  | .swtchBack => some { s.goto h rest with cur := upd s.cur h none }
  | .setIntena b => some ((s.setHart h { c with intena := b }).goto h rest)
  | i => s.finish h rest (exec c.proc s.data ch i)

def step (s : St) : Ev → Option St
  | .run h ch =>
    match s.code h with
    | [] => none
    | i :: rest => run s h ch i rest
  | .irq h timer =>
    -- `kerneltrap`: the hardware clears the flag, `devintr`, for the timer perhaps `yield`, `sret`
    if (s.harts h).intr then
      some ((s.setHart h { s.harts h with intr := false }).goto h
        ((if timer then [.code .irq [], .yieldIf, .iret] else [.code .irq [], .iret]) ++ s.code h))
    else none

/-- The states reached; a panicked kernel takes no further step. -/
inductive Reach : St → Prop
  | init : Reach init
  | step {s s' : St} (e : Ev) : Reach s → s.panic = none → step s e = some s' → Reach s'

def runs (s : St) : List Ev → Option St
  | [] => some s
  | e :: es => if s.panic = none then (step s e).bind (runs · es) else none

theorem Reach.runs {s s' : St} (es : List Ev) (hr : Reach s) (hs : runs s es = some s') : Reach s' := by
  induction es generalizing s with
  | nil => cases hs; exact hr
  | cons e es ih =>
    simp only [Process.runs] at hs
    split at hs
    · rename_i hp
      obtain ⟨t, ht, hs⟩ := Option.bind_eq_some_iff.mp hs
      exact ih (.step e hr hp ht) hs
    · cases hs

end Xv6.Process
