/-
  Xv6.Ipc.Files — the file table of kernel/file.c, the descriptors of kernel/sysfile.c and what
  `fork` and `exit` do to them, and the pages of kernel/pipe.c's pipes.

  Inodes are left to `Xv6.Fs`: what `sys_open` finds before it allocates a file is part of the
  call, and the last close of an inode's file does nothing here. Every allocation takes an `ok`;
  where it is false the allocation fails although there is room. `sys_pipe` runs with one of
  these for each allocation it may make and for its two `copyout`s (`PipeOk`).

  A process in `piperead` or `pipewrite` stays there over other processes' calls and may touch its
  pipe at any time (`touch`) until it returns. The rest of the kernel takes pages off the free list
  and puts them back (`take`, `give`).

  `trace` records what is done with the pages of pipes: allocated, used, freed. No code reads it.
-/
import Xv6.Fs.Syscall

namespace Xv6.Ipc.Files

open Xv6.Fs (FdType ProcState Panic Dinode T_DEVICE has openedFile)

/-- `struct pipe` without its lock and data. -/
structure Pipe where
  nread : Nat
  nwrite : Nat
  readopen : Int
  writeopen : Int

def junk (c : Nat) : Pipe := ⟨c * 0x1010101, c * 0x1010101, c * 0x1010101, c * 0x1010101⟩

structure File extends Fs.File where
  /-- the page of the pipe -/
  pipe : Nat

/-- `io` is the pipe a process is in `piperead` or `pipewrite` of. -/
structure Proc where
  state : ProcState
  ofile : Nat → Option Nat
  io : Option Nat

inductive PageEv where
  | alloc (pa : Nat)
  | use (pa : Nat)
  | free (pa : Nat)
  deriving DecidableEq, Repr

structure St where
  ftable : Nat → File
  proc : Nat → Proc
  /-- `kmem.freelist` -/
  freelist : List Nat
  /-- pages the rest of the kernel has -/
  held : List Nat
  page : Nat → Pipe
  trace : List PageEv

abbrev M := EStateM Panic St

namespace St

@[simps -fullyApplied] def file (s : St) (f : Nat) (x : File) : St := { s with ftable := upd s.ftable f x }

@[simps -fullyApplied] def process (s : St) (p : Nat) (x : Proc) : St := { s with proc := upd s.proc p x }

def fd (s : St) (p fd : Nat) (y : Option Nat) : St := s.process p { s.proc p with ofile := upd (s.proc p).ofile fd y }

end St

def emit (e : PageEv) : M Unit := modify fun s => { s with trace := s.trace ++ [e] }

def setFile (f : Nat) (g : File → File) : M Unit := modify fun s => s.file f (g (s.ftable f))

def setProc (p : Nat) (g : Proc → Proc) : M Unit := modify fun s => s.process p (g (s.proc p))

def setPage (pa : Nat) (g : Pipe → Pipe) : M Unit := modify fun s => { s with page := upd s.page pa (g (s.page pa)) }

/-! ## kernel/kalloc.c -/

def kalloc (ok : Bool) : M (Option Nat) := do
  match ok, (← get).freelist with
  | true, pa :: rest => do
    modify fun s => { s with freelist := rest }
    setPage pa fun _ => junk 5
    emit (.alloc pa)
    return some pa
  | _, _ => return none

def kfree (pa : Nat) : M Unit := do
  setPage pa fun _ => junk 1
  modify fun s => { s with freelist := pa :: s.freelist }
  emit (.free pa)

/-! ## kernel/pipe.c and kernel/file.c -/

def pipeclose (pi : Nat) (writable : Bool) : M Unit := do
  emit (.use pi)
  if writable then setPage pi fun x => { x with writeopen := 0 } else setPage pi fun x => { x with readopen := 0 }
  let x := (← get).page pi
  if x.readopen = 0 ∧ x.writeopen = 0 then kfree pi else pure ()

def filealloc (ok : Bool) : M (Option Nat) := do
  let s ← get
  match ok, (List.range NFILE).find? fun f => decide ((s.ftable f).ref = 0) with
  | true, some f => do
    setFile f fun x => { x with ref := 1 }
    return some f
  | _, _ => return none

def filedup (f : Nat) : M Unit := do
  if ((← get).ftable f).ref < 1 then throw .filedup
  else setFile f fun x => { x with ref := x.ref + 1 }

def fileclose (f : Nat) : M Unit := do
  let ff := (← get).ftable f
  if ff.ref < 1 then throw .fileclose
  else if 0 < ff.ref - 1 then setFile f fun x => { x with ref := x.ref - 1 }
  else do
    setFile f fun x => { x with ref := 0, type := .none }
    if ff.type = .pipe then pipeclose ff.pipe ff.writable else pure ()

structure PipeOk where
  file0 : Bool
  file1 : Bool
  page : Bool
  fd0 : Bool
  fd1 : Bool
  out0 : Bool
  out1 : Bool

def pipeallocBad (pi f0 f1 : Option Nat) : M (Option (Nat × Nat)) := do
  match pi with
  | some pi => kfree pi
  | none => pure ()
  match f0 with
  | some f0 => fileclose f0
  | none => pure ()
  match f1 with
  | some f1 => fileclose f1
  | none => pure ()
  return none

def pipealloc (o : PipeOk) : M (Option (Nat × Nat)) := do
  match ← filealloc o.file0 with
  | none => pipeallocBad none none none
  | some f0 => do
    match ← filealloc o.file1 with
    | none => pipeallocBad none (some f0) none
    | some f1 => do
      match ← kalloc o.page with
      | none => pipeallocBad none (some f0) (some f1)
      | some pi => do
        emit (.use pi)
        setPage pi fun x => { x with readopen := 1, writeopen := 1, nwrite := 0, nread := 0 }
        setFile f0 fun x => { x with type := .pipe, readable := true, writable := false, pipe := pi }
        setFile f1 fun x => { x with type := .pipe, readable := false, writable := true, pipe := pi }
        return some (f0, f1)

/-! ## kernel/sysfile.c -/

def argfd (p : Nat) (fd : Int) : M (Option Nat) := do
  if fd < 0 ∨ (NOFILE : Int) ≤ fd then return none
  else return ((← get).proc p).ofile fd.toNat

def setFd (p fd : Nat) (f : Option Nat) : M Unit := modify (·.fd p fd f)

def fdalloc (p f : Nat) (ok : Bool) : M (Option Nat) := do
  let s ← get
  match ok, (List.range NOFILE).find? fun fd => decide ((s.proc p).ofile fd = none) with
  | true, some fd => do
    setFd p fd (some f)
    return some fd
  | _, _ => return none

def sysDup (p : Nat) (fd : Int) (ok : Bool) : M Int := do
  match ← argfd p fd with
  | none => return -1
  | some f => do
    match ← fdalloc p f ok with
    | none => return -1
    | some fd => do
      filedup f
      return fd

def sysClose (p : Nat) (fd : Int) : M Int := do
  match ← argfd p fd with
  | none => return -1
  | some f => do
    setFd p fd.toNat none
    fileclose f
    return 0

/-- `ino` is the inode `sys_open` has locked, if the path leads to one it may open. -/
def sysOpen (p : Nat) (ino : Option (Nat × Dinode)) (omode : Nat) (okFile okFd : Bool) : M Int := do
  match ino with
  | none => return -1
  | some (ip, d) =>
    if d.type = T_DEVICE ∧ (d.major < 0 ∨ NDEV ≤ d.major) then return -1
    else do
      match ← filealloc okFile with
      | none => return -1
      | some f => do
        match ← fdalloc p f okFd with
        | none => do
          fileclose f
          return -1
        | some fd => do
          setFile f fun x => { x with toFile := openedFile x.toFile ip d omode }
          return fd

def pipeUndo (rf wf : Nat) : M Int := do
  fileclose rf
  fileclose wf
  return -1

def sysPipe (p : Nat) (o : PipeOk) : M Int := do
  match ← pipealloc o with
  | none => return -1
  | some (rf, wf) => do
    match ← fdalloc p rf o.fd0 with
    | none => pipeUndo rf wf
    | some fd0 => do
      match ← fdalloc p wf o.fd1 with
      | none => do
        setFd p fd0 none
        pipeUndo rf wf
      | some fd1 => do
        if o.out0 = false ∨ o.out1 = false then do
          setFd p fd0 none
          setFd p fd1 none
          pipeUndo rf wf
        else return 0

/-! ## kernel/proc.c -/

def forkFds (p q : Nat) : List Nat → M Unit
  | [] => return ()
  | fd :: fds => do
    match ((← get).proc p).ofile fd with
    | some f => do
      filedup f
      setFd q fd (some f)
      forkFds p q fds
    | none => forkFds p q fds

/-- `mem` is whether the child gets its memory. -/
def fork (p : Nat) (mem : Bool) : M Int := do
  let s ← get
  match (List.range NPROC).find? fun q => decide ((s.proc q).state = .unused) with
  | none => return -1
  | some q =>
    if mem = false then return -1
    else do
      forkFds p q (List.range NOFILE)
      setProc q fun x => { x with state := .used }
      return q

def exitFds (p : Nat) : List Nat → M Unit
  | [] => return ()
  | fd :: fds => do
    match ((← get).proc p).ofile fd with
    | some f => do
      fileclose f
      setFd p fd none
      exitFds p fds
    | none => exitFds p fds

def exit (p : Nat) : M Int := do
  if p = 0 then throw .initExiting
  else do
    exitFds p (List.range NOFILE)
    setProc p fun x => { x with state := .zombie }
    return 0

def reap (q : Nat) : M Int := do
  if ((← get).proc q).state = .zombie then do
    setProc q fun x => { x with state := .unused }
    return q
  else return -1

/-! ## Runs -/

inductive Call where
  | open (ino : Option (Nat × Dinode)) (omode : Nat) (okFile okFd : Bool)
  | pipe (o : PipeOk)
  | dup (fd : Int) (ok : Bool)
  | close (fd : Int)
  | fork (mem : Bool)
  | exit
  | exec (r : Int)
  | wait (q : Nat)

/-- `exec` keeps the descriptors. -/
def sys (p : Nat) : Call → M Int
  | .open ino omode okFile okFd => sysOpen p ino omode okFile okFd
  | .pipe o => sysPipe p o
  | .dup fd ok => sysDup p fd ok
  | .close fd => sysClose p fd
  | .fork mem => fork p mem
  | .exit => exit p
  | .exec r => return r
  | .wait q => reap q

/-- The pipe that `fileread` or `filewrite` goes to through descriptor `fd`. -/
def pipeOf (s : St) (p : Nat) (fd : Nat) (writes : Bool) : Option Nat :=
  match (s.proc p).ofile fd with
  | none => none
  | some f =>
    let x := s.ftable f
    if (if writes then x.writable else x.readable) ∧ x.type = .pipe then some x.pipe else none

inductive Step : St → St → Prop
  | call {s s' : St} {p : Nat} {c : Call} {r : Int} (hp : p < NPROC) (hu : (s.proc p).state = .used)
      (hio : (s.proc p).io = none) (h : sys p c s = .ok r s') : Step s s'
  /-- `read` or `write` enters `piperead` or `pipewrite` -/
  | enter {s : St} {p fd : Nat} {writes : Bool} {pa : Nat} (hp : p < NPROC) (hfd : fd < NOFILE)
      (hu : (s.proc p).state = .used) (hio : (s.proc p).io = none) (h : pipeOf s p fd writes = some pa) :
      Step s (s.process p { s.proc p with io := some pa })
  | touch {s : St} {p pa nread nwrite : Nat} (h : (s.proc p).io = some pa) :
      Step s { s with
        page := upd s.page pa { s.page pa with nread := nread, nwrite := nwrite }
        trace := s.trace ++ [.use pa] }
  | leave {s : St} {p pa : Nat} (h : (s.proc p).io = some pa) :
      Step s (s.process p { s.proc p with io := none })
  | take {s : St} {pa : Nat} {rest : List Nat} (h : s.freelist = pa :: rest) :
      Step s { s with freelist := rest, held := pa :: s.held }
  | give {s : St} {pa : Nat} (h : pa ∈ s.held) :
      Step s { s with freelist := pa :: s.freelist, held := s.held.erase pa }

/-- `userinit` has made process 0; no file is open and no page is a pipe's. -/
structure Init (s : St) : Prop where
  ref : ∀ f, (s.ftable f).ref = 0
  type : ∀ f, (s.ftable f).type = .none
  ofile : ∀ p fd, (s.proc p).ofile fd = none
  io : ∀ p, (s.proc p).io = none
  state : ∀ p, (s.proc p).state = if p = 0 then .used else .unused
  pages : (s.freelist ++ s.held).Nodup
  trace : s.trace = []

inductive Reach : St → Prop
  | init {s : St} : Init s → Reach s
  | step {s s' : St} : Reach s → Step s s' → Reach s'

end Xv6.Ipc.Files
