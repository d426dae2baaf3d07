/-
  Xv6.Disk.Virtio — the QEMU virtio disk driver (platform/qemu/platform.c):
  `platform_qemu_disk_rw` by any number of processes, `platform_qemu_disk_intr`, and the
  device that consumes the avail ring and fills the used ring.

  A step is one section that holds `qemu_disk.lock` (`rw`, `intr`), or the status check
  `platform_qemu_disk_rw` makes after it has released the lock (`check`), or a step of
  the device: taking the next avail entry (`consume`), completing a chain it has taken
  (`complete`, any chain, in any order, with any status byte). A process that cannot get
  three descriptors, or whose request is not done, goes back to sleep and may be woken
  at any time, so `rw` may be tried again at any time.

  `wait` and `check` carry the call's local `idx[]`. `serial` numbers the submissions,
  `tag h` is the last submission that armed slot `info[h]`, and `wait` and `check` carry
  their own number: no code reads these.
-/
import Xv6.Param
import Mathlib

namespace Xv6.Disk.Virtio

inductive Panic where
  /-- panic("platform_qemu_free_desc 1") -/
  | freeDesc1
  /-- panic("platform_qemu_free_desc 2") -/
  | freeDesc2
  /-- panic("platform_qemu_disk_rw status") -/
  | status
  /-- panic("platform_qemu_disk_intr: bad status") -/
  | badStatus
  deriving DecidableEq, Repr

inductive Addr where
  | null
  /-- `&qemu_disk.ops[i]` -/
  | op (i : Nat)
  /-- the caller's buffer -/
  | buf (a : Nat)
  /-- `&qemu_disk.info[i].status` -/
  | status (i : Nat)
  deriving DecidableEq, Repr

structure Desc where
  addr : Addr
  len : Nat
  flags : Nat
  next : Nat
  deriving DecidableEq, Repr

def fNext : Nat := 1
def fWrite : Nat := 2

def Desc.hasNext (d : Desc) : Bool := d.flags &&& fNext != 0

structure Req where
  blockno : Nat
  buf : Nat
  write : Bool
  deriving DecidableEq, Repr

/-- `struct virtio_blk_req`: the type (`VIRTIO_BLK_T_OUT` for a write) and the sector. -/
structure Op where
  write : Bool
  sector : Nat
  deriving DecidableEq, Repr

structure Idx where
  a : Nat
  b : Nat
  c : Nat
  deriving DecidableEq, Repr

inductive PSt where
  | idle
  /-- in the loop around `platform_qemu_alloc3_desc` -/
  | want (r : Req)
  /-- in the loop around `info[idx[0]].done` -/
  | wait (r : Req) (idx : Idx) (n : Nat)
  /-- the lock is released, the status not yet looked at -/
  | check (r : Req) (idx : Idx) (n : Nat)
  deriving DecidableEq, Repr

structure St where
  desc : Nat → Desc
  availIdx : Nat
  availRing : Nat → Nat
  usedIdx : Nat
  usedRing : Nat → Nat
  free : Nat → Bool
  /-- `qemu_disk.used_idx` -/
  seenIdx : Nat
  status : Nat → Nat
  done : Nat → Bool
  ops : Nat → Op
  procs : Nat → PSt
  /-- The device: the next avail entry it will take, and the heads it has taken. -/
  devIdx : Nat
  inflight : List Nat
  panic : Option Panic
  serial : Nat
  tag : Nat → Nat

/-- `platform_disk_init` has run: zeroed queues, every descriptor free. -/
def init : St :=
  { desc := fun _ => ⟨.null, 0, 0, 0⟩, availIdx := 0, availRing := fun _ => 0, usedIdx := 0, usedRing := fun _ => 0,
    free := fun i => decide (i < NUM), seenIdx := 0, status := fun _ => 0, done := fun _ => false,
    ops := fun _ => ⟨false, 0⟩, procs := fun _ => .idle, devIdx := 0, inflight := [], panic := none, serial := 0,
    tag := fun _ => 0 }

def setProc (s : St) (p : Nat) (x : PSt) : St := { s with procs := Function.update s.procs p x }

/-! ## Descriptors -/

def allocDesc (s : St) : Option (Nat × St) :=
  match (List.range NUM).find? s.free with
  | some i => some (i, { s with free := Function.update s.free i false })
  | none => none

def freeDesc (s : St) (i : Nat) : Except Panic St :=
  if NUM ≤ i then .error .freeDesc1
  else if s.free i then .error .freeDesc2
  else .ok { s with desc := Function.update s.desc i ⟨.null, 0, 0, 0⟩, free := Function.update s.free i true }

/-- The loop of `platform_qemu_free_chain`. Each turn frees a descriptor that was not
    free, so NUM + 1 turns are more than it can take. -/
def freeChainFrom : Nat → St → Nat → Except Panic St
  | 0, s, _ => .ok s
  | n + 1, s, i => do
    let d := s.desc i
    let s ← freeDesc s i
    if d.hasNext then freeChainFrom n s d.next else .ok s

def freeChain (s : St) (i : Nat) : Except Panic St := freeChainFrom (NUM + 1) s i

def alloc3Desc (s : St) : Except Panic (Option Idx × St) :=
  match allocDesc s with
  | none => .ok (none, s)
  | some (a, s) =>
    match allocDesc s with
    | none => do
      let s ← freeDesc s a
      .ok (none, s)
    | some (b, s) =>
      match allocDesc s with
      | none => do
        let s ← freeDesc s a
        let s ← freeDesc s b
        .ok (none, s)
      | some (c, s) => .ok (some ⟨a, b, c⟩, s)

/-! ## The driver -/

/-- `platform_qemu_disk_rw` from its successful allocation to the sleep on `info[idx[0]]`:
    the request header, the three descriptors, the armed status slot, the avail ring. -/
def submit (s : St) (p : Nat) (r : Req) (idx : Idx) : St :=
  let d0 : Desc := ⟨.op idx.a, 16, fNext, idx.b⟩
  let d1 : Desc := ⟨.buf r.buf, BSIZE, (if r.write then 0 else fWrite) ||| fNext, idx.c⟩
  let d2 : Desc := ⟨.status idx.a, 1, fWrite, 0⟩
  setProc
    { s with
      ops := Function.update s.ops idx.a ⟨r.write, r.blockno * (BSIZE / 512)⟩
      desc := Function.update (Function.update (Function.update s.desc idx.a d0) idx.b d1) idx.c d2
      status := Function.update s.status idx.a 0xff
      done := Function.update s.done idx.a false
      availRing := Function.update s.availRing (s.availIdx % NUM) idx.a
      availIdx := (s.availIdx + 1) % 2 ^ 16
      serial := s.serial + 1
      tag := Function.update s.tag idx.a s.serial }
    p (.wait r idx s.serial)

def intrOne (s : St) : St :=
  let id := s.usedRing (s.seenIdx % NUM)
  if s.status id ≠ 0 then { s with panic := some .badStatus }
  else { s with done := Function.update s.done id true, seenIdx := (s.seenIdx + 1) % 2 ^ 16 }

def intrLoop : Nat → St → St
  | 0, s => s
  | n + 1, s => if s.seenIdx ≠ s.usedIdx ∧ s.panic = none then intrLoop n (intrOne s) else s

/-- `used_idx` and `used->idx` are 16 bits wide: the loop takes fewer than 2^16 turns. -/
def diskIntr (s : St) : St := intrLoop (2 ^ 16) s

def devStore (s : St) (a : Addr) (v : Nat) : St :=
  match a with
  | .status i => { s with status := Function.update s.status i v }
  | _ => s

inductive Ev where
  | call (p : Nat) (r : Req)
  | rw (p : Nat)
  | check (p : Nat)
  | intr
  | consume
  | complete (h v : Nat)
  deriving DecidableEq, Repr

def step (s : St) : Ev → Option St
  | .call p r => if s.procs p = .idle then some (setProc s p (.want r)) else none
  | .rw p =>
    match s.procs p with
    | .want r =>
      match alloc3Desc s with
      | .error e => some { s with panic := some e }
      | .ok (none, s) => some s
      | .ok (some idx, s) => some (submit s p r idx)
    | .wait r idx n =>
      if s.done idx.a then
        match freeChain s idx.a with
        | .error e => some { s with panic := some e }
        | .ok s => some (setProc s p (.check r idx n))
      else some s
    | _ => none
  | .check p =>
    match s.procs p with
    | .check _ idx _ => if s.status idx.a ≠ 0 then some { s with panic := some .status } else some (setProc s p .idle)
    | _ => none
  | .intr => some (diskIntr s)
  | .consume =>
    if s.devIdx ≠ s.availIdx then
      some { s with devIdx := (s.devIdx + 1) % 2 ^ 16, inflight := s.inflight ++ [s.availRing (s.devIdx % NUM)] }
    else none
  | .complete h v =>
    if h ∈ s.inflight then
      -- the status byte goes through the chain's third descriptor
      let s := devStore s (s.desc (s.desc (s.desc h).next).next).addr v
      some { s with
        inflight := s.inflight.erase h
        usedRing := Function.update s.usedRing (s.usedIdx % NUM) h
        usedIdx := (s.usedIdx + 1) % 2 ^ 16 }
    else none

/-- The states reached by steps that meet `P`; a panicked kernel takes no further step. -/
inductive Reach (P : St → Ev → Prop) : St → Prop
  | init : Reach P init
  | step {s s' : St} (e : Ev) : Reach P s → s.panic = none → P s e → step s e = some s' → Reach P s'

/-- The device reports success: every status byte it writes is 0. -/
def Success (_ : St) (e : Ev) : Prop := ∀ h v, e = .complete h v → v = 0

end Xv6.Disk.Virtio
