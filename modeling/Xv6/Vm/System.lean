/-
  Xv6.Vm.System — all processes, their memory and their files, over one free list.

  The memory calls are those of `Xv6.Vm.Calls`, on the process's own fields; the file calls are those
  of `Xv6.Ipc.Files`, whose pages come off the free list of this memory and go back to it (`onFiles`).
  What `sys_pipe` and other calls copy to user memory is part of `touch`: user programs, and
  the kernel on their behalf, write the pages of processes, their trapframes, pipes and kernel stacks
  at any time.

  `wait` is modelled from where it has found a child that has exited; a process that reads or writes
  a pipe is in `io`, as in `Xv6.Ipc.Files`.
-/
import Xv6.Vm.Calls
import Xv6.Ipc.Replay

namespace Xv6.Vm

open Ipc.Files (PageEv PipeOk lives)
open Fs (Dinode)

structure Sys where
  ram : St
  files : Ipc.Files.St
  proc : Nat → Proc

abbrev Err := Panic ⊕ Fs.Panic

abbrev SM := EStateM Err Sys

def freeList (m : Nat → UInt8) : Nat → Nat → List Nat
  | 0, _ => []
  | fuel + 1, f => if f = 0 then [] else f :: freeList m fuel (load32 m f)

def St.free (s : St) : List Nat := freeList s.mem (2 ^ 20) s.freelist

/-- Every page event of `Xv6.Ipc.Files` is one of this memory. -/
def replay (K : Image) : List PageEv → M Unit
  | [] => return ()
  | .alloc _ :: evs => do
    -- whether the allocation fails has been decided already
    modify fun s => { s with refuse := fun n => if n = 0 then false else s.refuse (n - 1) }
    let _ ← kalloc
    replay K evs
  | .use _ :: evs => replay K evs
  | .free pa :: evs => do
    kfree K pa
    replay K evs

def onRam {α : Type} (m : M α) : SM α := fun s =>
  match m s.ram with
  | .ok a r => .ok a { s with ram := r }
  | .error e r => .error (.inl e) { s with ram := r }

def onFiles {α : Type} (K : Image) (m : Ipc.Files.M α) : SM α := fun s =>
  match m { s.files with freelist := s.ram.free, held := [] } with
  | .ok a i =>
    match replay K (i.trace.drop s.files.trace.length) s.ram with
    | .ok _ r => .ok a { s with files := i, ram := r }
    | .error e r => .error (.inl e) { s with files := i, ram := r }
  | .error e i => .error (.inr e) { s with files := i }

def setProc (p : Nat) (x : Proc) : SM Unit := modify fun s => { s with proc := upd s.proc p x }

inductive Call where
  | fork
  | exec (args : List Fetch) (file : Option File) (path : List UInt8)
  | sbrk (n : Int)
  | wait (q addr xstate : Nat)
  | open (ino : Option (Nat × Dinode)) (omode : Nat) (okFile okFd : Bool)
  | pipe (o : PipeOk)
  | dup (fd : Int) (ok : Bool)
  | close (fd : Int)
  | exit

def Call.Ok : Call → Prop
  | .sbrk n => -2 ^ 31 ≤ n ∧ n < 2 ^ 31
  | .wait q addr _ => q < NPROC ∧ addr < 2 ^ 32
  | _ => True

def call (K : Image) (p : Nat) : Call → SM Int
  | .fork => do
    let s ← get
    match (List.range NPROC).find? fun q => decide ((s.files.proc q).state = .unused) with
    | none => return -1
    | some q => do
      match ← onRam (fork K (s.proc p) (s.proc q)) with
      | none => return -1
      | some np => do
        setProc q np
        onFiles K (Ipc.Files.fork p true)
  | .exec args file path => do
    let s ← get
    let r ← onRam (sysExec K (s.proc p) args file path)
    setProc p r.2
    return r.1
  | .sbrk n => do
    let s ← get
    let r ← onRam (growproc K (s.proc p).pagetable (s.proc p).sz n)
    setProc p { s.proc p with sz := r.2 }
    if r.1 < 0 then return -1
    return (s.proc p).sz
  | .wait q addr xstate => do
    let s ← get
    if (s.files.proc q).state ≠ .zombie then return -1
    if addr ≠ 0 then
      if (← onRam (copyout (s.proc p).pagetable addr (words fun _ => xstate) 4)) < 0 then return -1
    onRam (freeproc K (s.proc q))
    setProc q .zero
    onFiles K (Ipc.Files.reap q)
  | .open ino omode okFile okFd => onFiles K (Ipc.Files.sysOpen p ino omode okFile okFd)
  | .pipe o => onFiles K (Ipc.Files.sysPipe p o)
  | .dup fd ok => onFiles K (Ipc.Files.sysDup p fd ok)
  | .close fd => onFiles K (Ipc.Files.sysClose p fd)
  | .exit => onFiles K (Ipc.Files.exit p)

/-! ## Who has what -/

/-- What the kernel took at boot: the kernel stacks, and the kernel's page table and disk queues. -/
structure Boot where
  kstacks : Set Nat
  pages : Set Nat

def Sys.Live (s : Sys) (p : Nat) : Prop := p < NPROC ∧ (s.files.proc p).state ≠ .unused

inductive Role where
  | free
  | leaf (p page : Nat)
  | table (p : Nat)
  | trapframe (p : Nat)
  | kstack
  | pipe
  | boot
  deriving DecidableEq, Repr

/-- `f` has the role in `s`; a pipe has at least one open end. -/
def HasRole (B : Boot) (s : Sys) : Role → Nat → Prop
  | .free, f => f ∈ s.ram.free
  | .leaf p q, f => s.Live p ∧ q < pages (s.proc p).sz ∧ ∃ fl, view s.ram.mem (s.proc p).pagetable q = some (f, fl)
  | .table p, f => s.Live p ∧ f ∈ nodes s.ram.mem (s.proc p).pagetable
  | .trapframe p, f => s.Live p ∧ f = (s.proc p).trapframe
  | .kstack, f => f ∈ B.kstacks
  | .pipe, f => ∃ g w, 0 < (s.files.ftable g).ref ∧ Ipc.Files.IsEnd s.files.ftable g f w
  | .boot, f => f ∈ B.pages

/-! ## Runs -/

/-- Pages that programs and the kernel write between calls. -/
def Scribble (B : Boot) (s : Sys) : Set Nat :=
  {f | (∃ p q, HasRole B s (.leaf p q) f) ∨ (∃ p, HasRole B s (.trapframe p) f) ∨ HasRole B s .pipe f ∨
    HasRole B s .kstack f}

inductive Step (K : Image) (B : Boot) : Sys → Sys → Prop
  | call {s s' : Sys} {p : Nat} {c : Call} {r : Int} (hp : p < NPROC) (hu : (s.files.proc p).state = .used)
      (hio : (s.files.proc p).io = none) (hc : c.Ok) (h : call K p c s = .ok r s') : Step K B s s'
  | touch {s : Sys} {m : Nat → UInt8} (h : SameOff (Scribble B s) s.ram.mem m) :
    Step K B s { s with ram := { s.ram with mem := m } }
  /-- `read` or `write` enters `piperead` or `pipewrite` -/
  | enter {s : Sys} {p fd : Nat} {writes : Bool} {pa : Nat} (hp : p < NPROC) (hfd : fd < NOFILE)
      (hu : (s.files.proc p).state = .used) (hio : (s.files.proc p).io = none)
      (h : Ipc.Files.pipeOf s.files p fd writes = some pa) :
      Step K B s { s with files := s.files.process p { s.files.proc p with io := some pa } }
  | leave {s : Sys} {p pa : Nat} (h : (s.files.proc p).io = some pa) :
      Step K B s { s with files := s.files.process p { s.files.proc p with io := none } }

/-- `userinit` has made process 0, no file is open, and every frame has one role. -/
structure Init (K : Image) (B : Boot) (s : Sys) : Prop where
  files : Ipc.Files.Init { s.files with freelist := s.ram.free, held := [] }
  heap : Heap K s.ram {f | f ∈ s.ram.free}
  first : Aspace K s.ram (s.proc 0).pagetable (s.proc 0).sz (s.proc 0).trapframe {f | f ∈ s.ram.free}
  rest : ∀ p, p ≠ 0 → s.proc p = .zero
  role : ∀ f, Frame K f → ∃! r, HasRole B s r f
  frame : ∀ r f, HasRole B s r f → Frame K f

inductive Reach (K : Image) (B : Boot) : Sys → Prop
  | init {s : Sys} : Init K B s → Reach K B s
  | step {s s' : Sys} : Reach K B s → Step K B s s' → Reach K B s'

end Xv6.Vm
