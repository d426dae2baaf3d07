/-
  Xv6.Vm.Exec — kernel/exec.c on the memory model.

  A file is what `readi` makes of it: its size and its bytes, read as `Fs.readi_exact` says.
  `exec` holds its file's inode lock while it reads, so the file does not change. `elf`,
  `ph` and `ustack` are local variables and are values here; the strings of `argv` are given
  without their NUL. A write behind the end of `ustack` stops, and so does a stack pointer
  that would wrap.
-/
import Xv6.Vm.Free
import Xv6.Vm.Copy
import Xv6.Fs.Readi

namespace Xv6.Vm

abbrev MAXARG : Nat := 16
abbrev ELF_MAGIC : Nat := 0x464C457F
abbrev ELF_PROG_LOAD : Nat := 1

structure File where
  size : Nat
  byte : Nat → UInt8

/-- What a process keeps of itself. `regs` are the trapframe's other fields. -/
structure Proc where
  pagetable : Nat
  sz : Nat
  /-- the trapframe's page -/
  trapframe : Nat
  epc : Nat
  sp : Nat
  a1 : Nat
  regs : Nat → Nat
  name : List UInt8

def flags2perm (flags : Nat) : Nat :=
  let perm := if flags &&& 0x1 ≠ 0 then PTE_X else 0
  if flags &&& 0x2 ≠ 0 then perm ||| PTE_W else perm

structure Proghdr where
  type : Nat
  off : Nat
  vaddr : Nat
  filesz : Nat
  memsz : Nat
  flags : Nat
  deriving DecidableEq, Repr

def File.ph (f : File) (off : Nat) : Proghdr where
  type := load32 f.byte off
  off := load32 f.byte (off + 4)
  vaddr := load32 f.byte (off + 8)
  filesz := load32 f.byte (off + 16)
  memsz := load32 f.byte (off + 20)
  flags := load32 f.byte (off + 24)

def loadsegLoop (pagetable va : Nat) (f : File) (offset sz : Nat) : Nat → Nat → M Int
  | fuel, i =>
    if i < sz then
      match fuel with
      | 0 => throw .spins
      | fuel + 1 => do
        let pa ← walkaddr pagetable ((va + i) % 2 ^ 32)
        if pa = 0 then throw .loadseg
        let n := if sz - i < PGSIZE then sz - i else PGSIZE
        let off := (offset + i) % 2 ^ 32
        let cnt := Fs.readCount f.size off n
        modify fun s => { s with mem := blit s.mem pa cnt fun k => f.byte (off + k) }
        if cnt ≠ n then return -1
        loadsegLoop pagetable va f offset sz fuel ((i + PGSIZE) % 2 ^ 32)
    else return 0

def loadseg (pagetable va : Nat) (f : File) (offset sz : Nat) : M Int := loadsegLoop pagetable va f offset sz (2 ^ 20) 0

/-- The loop over the program headers left: whether all are loaded, and `sz`. -/
def execSegs (K : Image) (pagetable : Nat) (f : File) : Nat → Nat → Nat → M (Bool × Nat)
  | 0, _, sz => return (true, sz)
  | n + 1, off, sz => do
    if Fs.readCount f.size off 32 ≠ 32 then return (false, sz)
    let ph := f.ph off
    if ph.type ≠ ELF_PROG_LOAD then
      execSegs K pagetable f n ((off + 32) % 2 ^ 32) sz
    else
      if ph.memsz < ph.filesz then return (false, sz)
      if (ph.vaddr + ph.memsz) % 2 ^ 32 < ph.vaddr then return (false, sz)
      if ph.vaddr % PGSIZE ≠ 0 then return (false, sz)
      let sz1 ← uvmalloc K pagetable sz ((ph.vaddr + ph.memsz) % 2 ^ 32) (flags2perm ph.flags)
      if sz1 = 0 then return (false, sz)
      if (← loadseg pagetable ph.vaddr f ph.off ph.filesz) < 0 then return (false, sz1)
      execSegs K pagetable f n ((off + 32) % 2 ^ 32) sz1

def subSp (sp n : Nat) : M Nat := if n ≤ sp then return sp - n else throw .spWraps

def cbytes (str : List UInt8) (k : Nat) : UInt8 := str.getD k 0

/-- The loop over the strings left: `argc`, `sp` and `ustack`, `none` for `goto bad`. -/
def execArgs (pagetable stackbase : Nat) : List (List UInt8) → Nat → Nat → (Nat → Nat) →
  M (Option (Nat × Nat × (Nat → Nat)))
  | [], argc, sp, ustack => return some (argc, sp, ustack)
  | str :: argv, argc, sp, ustack => do
    if argc ≥ MAXARG then return none
    let sp ← subSp sp (str.length + 1)
    let sp := sp - sp % 16
    if sp < stackbase then return none
    if (← copyout pagetable sp (cbytes str) (str.length + 1)) < 0 then return none
    execArgs pagetable stackbase argv (argc + 1) sp (upd ustack argc sp)

def words (a : Nat → Nat) (k : Nat) : UInt8 := UInt8.ofNat (a (k / 4) / 2 ^ (8 * (k % 4)))

/-- From the stack's allocation to the pointers: `argc`, `sp` and `sz`; on `goto bad` only `sz`. -/
def execStack (K : Image) (pagetable sz : Nat) (argv : List (List UInt8)) : M (Option (Nat × Nat) × Nat) := do
  let sz := PGROUNDUP sz
  let sz1 ← uvmalloc K pagetable sz ((sz + 2 * PGSIZE) % 2 ^ 32) PTE_W
  if sz1 = 0 then return (none, sz)
  uvmclear pagetable ((sz1 + 2 ^ 32 - 2 * PGSIZE) % 2 ^ 32)
  let stackbase := sz1 - PGSIZE
  match ← execArgs pagetable stackbase argv 0 sz1 fun _ => 0 with
  | none => return (none, sz1)
  | some (argc, sp, ustack) =>
    if argc ≥ MAXARG then throw .ustack
    let ustack := upd ustack argc 0
    let sp ← subSp sp ((argc + 1) * 4)
    let sp := sp - sp % 16
    if sp < stackbase then return (none, sz1)
    if (← copyout pagetable sp (words ustack) ((argc + 1) * 4)) < 0 then return (none, sz1)
    return (some (argc, sp), sz1)

/-- The part of `path` behind its last `/`, at most 15 bytes of it. -/
def progName (path : List UInt8) : List UInt8 :=
  ((path.reverse.takeWhile (· ≠ 0x2F)).reverse).take 15

/-- `exec` up to its commit: `pagetable`, `argc`, `sp` and `sz`; `none` for `goto bad`. -/
def execImage (K : Image) (trapframe : Nat) (f : File) (argv : List (List UInt8)) :
    M (Option (Nat × Nat × Nat × Nat)) := do
  if Fs.readCount f.size 0 52 ≠ 52 then return none
  if load32 f.byte 0 ≠ ELF_MAGIC then return none
  let pagetable ← procPagetable K trapframe
  if pagetable = 0 then return none
  let phnum := (f.byte 44).toNat + 2 ^ 8 * (f.byte 45).toNat
  let (ok, sz) ← execSegs K pagetable f phnum (load32 f.byte 28) 0
  if !ok then
    procFreepagetable K pagetable sz
    return none
  let (done, sz) ← execStack K pagetable sz argv
  match done with
  | none =>
    procFreepagetable K pagetable sz
    return none
  | some (argc, sp) => return some (pagetable, argc, sp, sz)

/-- `file` is what `namei(path)` finds. The return value, and the process after the call. -/
def exec (K : Image) (p : Proc) (file : Option File) (path : List UInt8) (argv : List (List UInt8)) :
    M (Int × Proc) := do
  match file with
  | none => return (-1, p)
  | some f =>
    match ← execImage K p.trapframe f argv with
    | none => return (-1, p)
    | some (pagetable, argc, sp, sz) =>
      procFreepagetable K p.pagetable p.sz
      return (argc, { p with pagetable, sz, epc := load32 f.byte 24, sp, a1 := sp, name := progName path })

end Xv6.Vm
