/-
  Xv6.Vm.Machine — kernel/kalloc.c and kernel/vm.c, with the macros of kernel/riscv.h and
  the page table functions of kernel/proc.c.

  `mem` is RAM as the kernel sees it through its direct map: page-table pages, user pages
  and the free list are all in it. `kern` is the kernel's own data and stacks, where the
  buffers of `copyin` and `copyinstr` lie; what `copyout` writes is given by its bytes. A
  `uint32` is a number computed modulo 2^32, a pointer into RAM its physical address.

  `refuse` says which of the next calls of `kalloc` fail while there are free pages: other
  processes take and give back pages at any time.

  A loop that C ends by a comparison has a bound here, and stops with `spins` at the bound.
-/
import Xv6.Param
import Xv6.Lib.Mem
import Xv6.Lib.Table
import Xv6.Lib.Wp

namespace Xv6.Vm

inductive Panic where
  /-- panic("walk") -/
  | walk
  /-- panic("mappages: size") -/
  | mappagesSize
  /-- panic("mappages: remap") -/
  | remap
  /-- panic("uvmunmap: not aligned") -/
  | unmapNotAligned
  /-- panic("uvmunmap: walk") -/
  | unmapWalk
  /-- panic("uvmunmap: not mapped") -/
  | unmapNotMapped
  /-- panic("uvmunmap: not a leaf") -/
  | unmapNotLeaf
  /-- panic("freewalk: leaf") -/
  | freewalkLeaf
  /-- panic("uvmcopy: pte should exist") -/
  | copyPte
  /-- panic("uvmcopy: page not present") -/
  | copyPage
  /-- panic("uvmclear") -/
  | uvmclear
  /-- panic("kfree") -/
  | kfree
  /-- panic("loadseg: address should exist") -/
  | loadseg
  /-- a write behind the end of `ustack` -/
  | ustack
  /-- `sp` below 0 -/
  | spWraps
  /-- a loop that has not ended at its bound -/
  | spins
  deriving DecidableEq, Repr

/-! ## kernel/memlayout.h -/

abbrev KERNBASE : Nat := 0x80000000
abbrev PHYSTOP : Nat := KERNBASE + 16 * 1024 * 1024
abbrev MAXVA : Nat := 0xFFFFFFFF
abbrev TRAMPOLINE : Nat := MAXVA - PGSIZE + 1
abbrev TRAPFRAME : Nat := TRAMPOLINE - PGSIZE

/-- What the linker decides: the first address after the kernel, and the page of the trampoline. -/
structure Image where
  kend : Nat
  trampoline : Nat
  base_lt : KERNBASE < kend
  kend_le : kend ≤ PHYSTOP
  trampoline_aligned : trampoline % PGSIZE = 0
  trampoline_text : KERNBASE ≤ trampoline ∧ trampoline + PGSIZE ≤ kend

/-! ## kernel/riscv.h -/

def PGROUNDUP (sz : Nat) : Nat := (sz + PGSIZE - 1) % 2 ^ 32 / PGSIZE * PGSIZE

def PGROUNDDOWN (a : Nat) : Nat := a / PGSIZE * PGSIZE

abbrev PTE_V : Nat := 1 <<< 0
abbrev PTE_R : Nat := 1 <<< 1
abbrev PTE_W : Nat := 1 <<< 2
abbrev PTE_X : Nat := 1 <<< 3
abbrev PTE_U : Nat := 1 <<< 4
abbrev PTE_A : Nat := 1 <<< 6
abbrev PTE_D : Nat := 1 <<< 7

def PA2PTE (pa : Nat) : Nat := pa >>> 12 <<< 10

def PTE2PA (pte : Nat) : Nat := pte >>> 10 <<< 12 % 2 ^ 32

def PTE_FLAGS (pte : Nat) : Nat := pte &&& 0x3FF

def PX (level va : Nat) : Nat := va >>> (12 + 10 * level) &&& 0x3FF

/-! ## kernel/kalloc.c -/

structure St where
  mem : Nat → UInt8
  kern : Nat → UInt8
  /-- `kmem.freelist`; the next free page's address is in the first word of each -/
  freelist : Nat
  refuse : Nat → Bool

abbrev M := EStateM Panic St

def memset (a : Nat) (c : UInt8) (n : Nat) : M Unit := modify fun s => { s with mem := blit s.mem a n fun _ => c }

def load (a : Nat) : M Nat := return load32 (← get).mem a

def store (a w : Nat) : M Unit := modify fun s => { s with mem := store32 s.mem a w }

def kalloc : M Nat := do
  let s ← get
  set { s with refuse := fun n => s.refuse (n + 1) }
  let r := if s.refuse 0 then 0 else s.freelist
  if r = 0 then return 0
  let next ← load r
  modify fun s => { s with freelist := next }
  memset r 5 PGSIZE
  return r

def kfree (K : Image) (pa : Nat) : M Unit := do
  if pa % PGSIZE ≠ 0 ∨ pa < K.kend ∨ pa ≥ PHYSTOP then throw .kfree
  memset pa 1 PGSIZE
  store pa (← get).freelist
  modify fun s => { s with freelist := pa }

/-! ## kernel/vm.c -/

/-- The address of the entry for `va`, 0 if there is none; there is one level above the last. -/
def walk (pagetable va : Nat) (alloc : Bool) : M Nat := do
  if va > MAXVA then throw .walk
  let pte := pagetable + 4 * PX 1 va
  let w ← load pte
  if w &&& PTE_V ≠ 0 then
    return PTE2PA w + 4 * PX 0 va
  else
    if !alloc then return 0
    let pagetable ← kalloc
    if pagetable = 0 then return 0
    memset pagetable 0 PGSIZE
    store pte (PA2PTE pagetable ||| PTE_V)
    return pagetable + 4 * PX 0 va

def walkaddr (pagetable va : Nat) : M Nat := do
  if va > MAXVA then return 0
  let pte ← walk pagetable va false
  if pte = 0 then return 0
  let w ← load pte
  if w &&& PTE_V = 0 then return 0
  if w &&& PTE_U = 0 then return 0
  return PTE2PA w

def permAD (perm : Nat) : Nat :=
  let perm := perm ||| PTE_A
  if perm &&& PTE_W ≠ 0 then perm ||| PTE_D else perm

def mappagesLoop (pagetable last : Nat) : Nat → Nat → Nat → Nat → M Int
  | 0, _, _, _ => throw .spins
  | fuel + 1, a, pa, perm => do
    let pte ← walk pagetable a true
    if pte = 0 then return -1
    let w ← load pte
    if w &&& PTE_V ≠ 0 then throw .remap
    store pte (PA2PTE pa ||| permAD perm ||| PTE_V)
    if a = last then return 0
    mappagesLoop pagetable last fuel ((a + PGSIZE) % 2 ^ 32) ((pa + PGSIZE) % 2 ^ 32) (permAD perm)

def mappages (pagetable va size pa perm : Nat) : M Int := do
  if size = 0 then throw .mappagesSize
  mappagesLoop pagetable (PGROUNDDOWN ((va + size - 1) % 2 ^ 32)) (2 ^ 20) (PGROUNDDOWN va) pa perm

/-- `for(a = va>>12; a < (va>>12) + npages; a++)`, with what is left to do. -/
def uvmunmapLoop (K : Image) (pagetable : Nat) (doFree : Bool) : Nat → Nat → M Unit
  | 0, _ => return
  | n + 1, a => do
    let pte ← walk pagetable (a <<< 12 % 2 ^ 32) false
    if pte = 0 then throw .unmapWalk
    let w ← load pte
    if w &&& PTE_V = 0 then throw .unmapNotMapped
    if PTE_FLAGS w = PTE_V then throw .unmapNotLeaf
    if doFree then kfree K (PTE2PA w)
    store pte 0
    uvmunmapLoop K pagetable doFree n (a + 1)

def uvmunmap (K : Image) (pagetable va npages : Nat) (doFree : Bool) : M Unit := do
  if va % PGSIZE ≠ 0 then throw .unmapNotAligned
  let a := va >>> 12
  uvmunmapLoop K pagetable doFree ((a + npages) % 2 ^ 32 - a) a

def uvmcreate : M Nat := do
  let pagetable ← kalloc
  if pagetable = 0 then return 0
  memset pagetable 0 PGSIZE
  return pagetable

def uvmdealloc (K : Image) (pagetable oldsz newsz : Nat) : M Nat := do
  if newsz ≥ oldsz then return oldsz
  if PGROUNDUP newsz < PGROUNDUP oldsz then
    let npages := (PGROUNDUP oldsz - PGROUNDUP newsz) / PGSIZE
    uvmunmap K pagetable (PGROUNDUP newsz) npages true
  return newsz

def uvmallocLoop (K : Image) (pagetable oldsz newsz xperm : Nat) : Nat → Nat → M Nat
  | fuel, a =>
    if a < newsz then
      match fuel with
      | 0 => throw .spins
      | fuel + 1 => do
        let mem ← kalloc
        if mem = 0 then
          let _ ← uvmdealloc K pagetable a oldsz
          return 0
        memset mem 0 PGSIZE
        let r ← mappages pagetable a PGSIZE mem (PTE_R ||| PTE_U ||| xperm)
        if r ≠ 0 then
          kfree K mem
          let _ ← uvmdealloc K pagetable a oldsz
          return 0
        uvmallocLoop K pagetable oldsz newsz xperm fuel ((a + PGSIZE) % 2 ^ 32)
    else return newsz

def uvmalloc (K : Image) (pagetable oldsz newsz xperm : Nat) : M Nat := do
  if newsz < oldsz then return oldsz
  uvmallocLoop K pagetable (PGROUNDUP oldsz) newsz xperm (2 ^ 20) (PGROUNDUP oldsz)

/-- The loop of `freewalk`; `rec` is the call for a lower-level table. -/
def freewalkLoop (rec : Nat → M Unit) (pagetable : Nat) : Nat → Nat → M Unit
  | 0, _ => return
  | n + 1, i => do
    let pte ← load (pagetable + 4 * i)
    if pte &&& PTE_V ≠ 0 ∧ pte &&& (PTE_R ||| PTE_W ||| PTE_X) = 0 then
      rec (PTE2PA pte)
      store (pagetable + 4 * i) 0
    else if pte &&& PTE_V ≠ 0 then throw .freewalkLeaf
    freewalkLoop rec pagetable n (i + 1)

/-- `freewalk`, `depth` levels down; a table of the code's making has two. -/
def freewalk (K : Image) : Nat → Nat → M Unit
  | 0, _ => throw .spins
  | depth + 1, pagetable => do
    freewalkLoop (freewalk K depth) pagetable 1024 0
    kfree K pagetable

def uvmfree (K : Image) (pagetable sz : Nat) : M Unit := do
  if sz > 0 then uvmunmap K pagetable 0 (PGROUNDUP sz / PGSIZE) true
  freewalk K 2 pagetable

def uvmcopyLoop (K : Image) (old new sz : Nat) : Nat → Nat → M Int
  | fuel, i =>
    if i < sz then
      match fuel with
      | 0 => throw .spins
      | fuel + 1 => do
        let pte ← walk old i false
        if pte = 0 then throw .copyPte
        let w ← load pte
        if w &&& PTE_V = 0 then throw .copyPage
        let pa := PTE2PA w
        let flags := PTE_FLAGS w
        let mem ← kalloc
        if mem = 0 then
          uvmunmap K new 0 (i / PGSIZE) true
          return -1
        modify fun s => { s with mem := blit s.mem mem PGSIZE fun k => s.mem (pa + k) }
        let r ← mappages new i PGSIZE mem flags
        if r ≠ 0 then
          kfree K mem
          uvmunmap K new 0 (i / PGSIZE) true
          return -1
        uvmcopyLoop K old new sz fuel ((i + PGSIZE) % 2 ^ 32)
    else return 0

def uvmcopy (K : Image) (old new sz : Nat) : M Int := uvmcopyLoop K old new sz (2 ^ 20) 0

def uvmclear (pagetable va : Nat) : M Unit := do
  let pte ← walk pagetable va false
  if pte = 0 then throw .uvmclear
  let w ← load pte
  store pte (w - (w &&& PTE_U))

/-! ## Between the kernel and user pages -/

def copyoutLoop (pagetable : Nat) (src : Nat → UInt8) : Nat → Nat → Nat → Nat → M Int
  | fuel, dstva, off, len =>
    if len > 0 then
      match fuel with
      | 0 => throw .spins
      | fuel + 1 => do
        let va0 := PGROUNDDOWN dstva
        let pa0 ← walkaddr pagetable va0
        if pa0 = 0 then return -1
        let n := min (PGSIZE - (dstva - va0)) len
        modify fun s => { s with mem := blit s.mem (pa0 + (dstva - va0)) n fun k => src (off + k) }
        copyoutLoop pagetable src fuel ((va0 + PGSIZE) % 2 ^ 32) (off + n) (len - n)
    else return 0

def copyout (pagetable dstva : Nat) (src : Nat → UInt8) (len : Nat) : M Int := copyoutLoop pagetable src len dstva 0 len

def copyinLoop (pagetable : Nat) : Nat → Nat → Nat → Nat → M Int
  | fuel, dst, srcva, len =>
    if len > 0 then
      match fuel with
      | 0 => throw .spins
      | fuel + 1 => do
        let va0 := PGROUNDDOWN srcva
        let pa0 ← walkaddr pagetable va0
        if pa0 = 0 then return -1
        let n := min (PGSIZE - (srcva - va0)) len
        modify fun s => { s with kern := blit s.kern dst n fun k => s.mem (pa0 + (srcva - va0) + k) }
        copyinLoop pagetable fuel (dst + n) ((va0 + PGSIZE) % 2 ^ 32) (len - n)
    else return 0

def copyin (pagetable dst srcva len : Nat) : M Int := copyinLoop pagetable len dst srcva len

def copyinstrPage : Nat → Nat → Nat → Nat → M (Bool × Nat × Nat)
  | 0, max, _, dst => return (false, max, dst)
  | n + 1, max, p, dst => do
    let c := (← get).mem p
    modify fun s => { s with kern := upd s.kern dst c }
    if c = 0 then return (true, max, dst)
    copyinstrPage n (max - 1) (p + 1) (dst + 1)

def copyinstrLoop (pagetable : Nat) : Nat → Bool → Nat → Nat → Nat → M Int
  | fuel, gotNull, dst, srcva, max =>
    if gotNull = false ∧ max > 0 then
      match fuel with
      | 0 => throw .spins
      | fuel + 1 => do
        let va0 := PGROUNDDOWN srcva
        let pa0 ← walkaddr pagetable va0
        if pa0 = 0 then return -1
        let n := min (PGSIZE - (srcva - va0)) max
        let (gotNull, max, dst) ← copyinstrPage n max (pa0 + (srcva - va0)) dst
        copyinstrLoop pagetable fuel gotNull dst ((va0 + PGSIZE) % 2 ^ 32) max
    else return if gotNull then 0 else -1

def copyinstr (pagetable dst srcva max : Nat) : M Int := copyinstrLoop pagetable max false dst srcva max

/-! ## kernel/proc.c -/

/-- A user page table with no user memory, but with the trampoline and the process's trapframe. -/
def procPagetable (K : Image) (trapframe : Nat) : M Nat := do
  let pagetable ← uvmcreate
  if pagetable = 0 then return 0
  if (← mappages pagetable TRAMPOLINE PGSIZE K.trampoline (PTE_R ||| PTE_X)) < 0 then
    uvmfree K pagetable 0
    return 0
  if (← mappages pagetable TRAPFRAME PGSIZE trapframe (PTE_R ||| PTE_W)) < 0 then
    uvmunmap K pagetable TRAMPOLINE 1 false
    uvmfree K pagetable 0
    return 0
  return pagetable

def procFreepagetable (K : Image) (pagetable sz : Nat) : M Unit := do
  uvmunmap K pagetable TRAMPOLINE 1 false
  uvmunmap K pagetable TRAPFRAME 1 false
  uvmfree K pagetable sz

def addSz (sz : Nat) (n : Int) : Nat := ((sz + n) % 2 ^ 32).toNat

/-- For the process with this page table and size: the return value and the new `p->sz`. -/
def growproc (K : Image) (pagetable sz : Nat) (n : Int) : M (Int × Nat) := do
  if n > 0 then
    let sz' ← uvmalloc K pagetable sz (addSz sz n) PTE_W
    if sz' = 0 then return (-1, sz)
    return (0, sz')
  else if n < 0 then
    let sz' ← uvmdealloc K pagetable sz (addSz sz n)
    return (0, sz')
  else return (0, sz)

end Xv6.Vm
