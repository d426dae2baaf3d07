/-
  Xv6.Bio.Cache — the buffer cache of kernel/bio.c with `log_write` and `commit` of
  kernel/log.c on top of it, used by any number of processes.

  A buffer is an index below NBUF, and NBUF is `bcache.head`. A use of a buffer, from `bread` to
  the end of `brelse`, is an entry of `users`; a process may have several. Steps are the
  sections that hold `bcache.lock`, `acquiresleep` and `releasesleep` of `b->lock`, and the
  accesses to `b->data` and the disk in between: two for `brelse`, three for `bread`.
  `log_write` is one step: it holds `log.lock` throughout, and calls `bpin` inside.

  The process that commits is in `commit` at `pc` and uses entries 0 (`lbuf`, `to`, the header)
  and 1 (`dbuf`, `from`); the others are free to do anything that keeps the protocol: `b->data`
  is modified only by its holder, and then `log_write`n or `bwrite`n before `brelse`
  (`holding true` is the phase in between). Every caller of `bread` passes ROOTDEV; the disk
  driver is given the block number only.

  `store` and `unpinned` are not in the source: for each block the data most recently stored
  through a buffer, at first what is on the disk; and how many entries of `log.lh.block` the
  running `install_trans` has unpinned.
-/
import Xv6.Lib.Dlist
import Xv6.Log.Commit
import Mathlib

namespace Xv6.Bio

structure Buf where
  valid : Bool
  dev : Nat
  blockno : Nat
  refcnt : Nat
  data : Block

inductive Phase where
  /-- counted in `refcnt`, not yet back from `acquiresleep` -/
  | waiting
  /-- `b->valid` not looked at yet -/
  | locked
  /-- `bread` has returned; `dirty`: modified and not yet logged or written -/
  | holding (dirty : Bool)
  /-- in `brelse`, after `releasesleep` -/
  | leaving
  deriving DecidableEq, Repr

structure User where
  buf : Nat
  blk : Nat
  phase : Phase
  deriving DecidableEq, Repr

inductive Load where
  | get
  | lock
  | read
  deriving DecidableEq, Repr

inductive Rel where
  | unlock
  | drop
  deriving DecidableEq, Repr

inductive Pc where
  | idle
  | start
  /- write_log -/
  | wTest (tail : Nat)
  | wTo (tail : Nat) (k : Load)
  | wFrom (tail : Nat) (k : Load)
  | wCopy (tail : Nat)
  | wWrite (tail : Nat)
  | wRelFrom (tail : Nat) (k : Rel)
  | wRelTo (tail : Nat) (k : Rel)
  /- write_head, before and after `install_trans` -/
  | hLoad (last : Bool) (k : Load)
  | hEdit (last : Bool)
  | hWrite (last : Bool)
  | hRel (last : Bool) (k : Rel)
  /- install_trans(0) -/
  | iTest (tail : Nat)
  | iLog (tail : Nat) (k : Load)
  | iHome (tail : Nat) (k : Load)
  | iCopy (tail : Nat)
  | iWrite (tail : Nat)
  | iUnpin (tail : Nat)
  | iRelLog (tail : Nat) (k : Rel)
  | iRelHome (tail : Nat) (k : Rel)
  /-- `log.lh.n = 0` -/
  | clear
  | done
  deriving DecidableEq, Repr

inductive Panic where
  /-- panic("bget: no buffers") -/
  | noBuffers
  /-- panic("log.committing") -/
  | committing
  | log (p : Log.Panic)
  deriving DecidableEq, Repr

inductive Stop where
  /-- the process waits, or is not at that point -/
  | blocked
  | panic (p : Panic)
  deriving DecidableEq, Repr

/-- The log's place on the disk, and how many uses of buffers there may be at a time. -/
structure Conf where
  log : Log.Conf
  users : Nat

structure St where
  bufs : Nat → Buf
  list : Dlist
  /-- who holds `b->lock` -/
  lock : Nat → Option Nat
  users : Nat → Option User
  disk : Disk
  lh : List Nat
  outstanding : Nat
  pc : Pc
  unpinned : Nat
  store : Disk

def head : Nat := NBUF

def binit : Dlist := (List.range NBUF).foldl (fun l b => l.pushFront head b) (Dlist.empty head)

def init (d : Disk) : St :=
  { bufs := fun _ => ⟨false, 0, 0, 0, zeroBlock⟩
    list := binit
    lock := fun _ => none
    users := fun _ => none
    disk := d
    lh := []
    outstanding := 0
    pc := .idle
    unpinned := 0
    store := d }

/-! ## bio.c -/

def St.put (s : St) (b : Nat) (x : Buf) : St := { s with bufs := upd s.bufs b x }

def St.setUser (s : St) (u : Nat) (x : Option User) : St := { s with users := upd s.users u x }

def bget (C : Conf) (s : St) (u blk : Nat) : Except Stop St :=
  if u < C.users ∧ s.users u = none then
    match Dlist.search s.list.next head (fun b => decide ((s.bufs b).dev = ROOTDEV ∧ (s.bufs b).blockno = blk))
        (NBUF + 1) (s.list.next head) with
    | some b => .ok ((s.put b { s.bufs b with refcnt := (s.bufs b).refcnt + 1 }).setUser u (some ⟨b, blk, .waiting⟩))
    | none =>
      match Dlist.search s.list.prev head (fun b => decide ((s.bufs b).refcnt = 0)) (NBUF + 1) (s.list.prev head) with
      | some b =>
        .ok ((s.put b { s.bufs b with dev := ROOTDEV, blockno := blk, valid := false, refcnt := 1 }).setUser u
          (some ⟨b, blk, .waiting⟩))
      | none => .error (.panic .noBuffers)
  else .error .blocked

def acquire (s : St) (u : Nat) : Except Stop St :=
  match s.users u with
  | some ⟨b, blk, .waiting⟩ =>
    if s.lock b = none then .ok ({ s with lock := upd s.lock b (some u) }.setUser u (some ⟨b, blk, .locked⟩)) else
      .error .blocked
  | _ => .error .blocked

def read (s : St) (u : Nat) : Except Stop St :=
  match s.users u with
  | some ⟨b, blk, .locked⟩ =>
    let x := s.bufs b
    let x := if x.valid then x else { x with data := s.disk x.blockno, valid := true }
    .ok ((s.put b x).setUser u (some ⟨b, blk, .holding false⟩))
  | _ => .error .blocked

def modify (s : St) (u : Nat) (f : Block → Block) : Except Stop St :=
  match s.users u with
  | some ⟨b, blk, .holding _⟩ =>
    let x := { s.bufs b with data := f (s.bufs b).data }
    .ok (({ s with store := upd s.store x.blockno x.data }.put b x).setUser u (some ⟨b, blk, .holding true⟩))
  | _ => .error .blocked

def bwrite (s : St) (u : Nat) : Except Stop St :=
  match s.users u with
  | some ⟨b, blk, .holding _⟩ =>
    .ok ({ s with disk := upd s.disk (s.bufs b).blockno (s.bufs b).data }.setUser u (some ⟨b, blk, .holding false⟩))
  | _ => .error .blocked

def unlock (s : St) (u : Nat) : Except Stop St :=
  match s.users u with
  | some ⟨b, blk, .holding false⟩ => .ok ({ s with lock := upd s.lock b none }.setUser u (some ⟨b, blk, .leaving⟩))
  | _ => .error .blocked

def drop (s : St) (u : Nat) : Except Stop St :=
  match s.users u with
  | some ⟨b, _, .leaving⟩ =>
    let n := (s.bufs b).refcnt - 1
    .ok (({ s with list := if n = 0 then (s.list.unlink b).pushFront head b else s.list }.put b
      { s.bufs b with refcnt := n }).setUser u none)
  | _ => .error .blocked

def bunpin (s : St) (u : Nat) : Except Stop St :=
  match s.users u with
  | some ⟨b, _, .holding _⟩ =>
    .ok ({ s with unpinned := s.unpinned + 1 }.put b { s.bufs b with refcnt := (s.bufs b).refcnt - 1 })
  | _ => .error .blocked

/-! ## log.c -/

def logWrite (C : Conf) (s : St) (u : Nat) : Except Stop St :=
  match s.users u with
  | some ⟨b, blk, .holding _⟩ =>
    match Log.logWrite C.log s.outstanding s.lh (s.bufs b).blockno with
    | .error e => .error (.panic (.log e))
    | .ok lh =>
      -- `bpin(b)` for a new entry
      let n := if (s.bufs b).blockno ∈ s.lh then (s.bufs b).refcnt else (s.bufs b).refcnt + 1
      .ok (({ s with lh := lh }.put b { s.bufs b with refcnt := n }).setUser u (some ⟨b, blk, .holding false⟩))
  | _ => .error .blocked

def copy (s : St) (dst src : Nat) : Except Stop St :=
  match s.users src with
  | some ⟨b, _, .holding _⟩ => modify s dst fun _ => (s.bufs b).data
  | _ => .error .blocked

def St.goto (s : St) (pc : Pc) : St := { s with pc := pc }

def load (C : Conf) (s : St) (u blk : Nat) (again : Load → Pc) (next : Pc) : Load → Except Stop St
  | .get => (bget C s u blk).map (·.goto (again .lock))
  | .lock => (acquire s u).map (·.goto (again .read))
  | .read => (read s u).map (·.goto next)

def brelse (s : St) (u : Nat) (again : Rel → Pc) (next : Pc) : Rel → Except Stop St
  | .unlock => (unlock s u).map (·.goto (again .drop))
  | .drop => (drop s u).map (·.goto next)

def St.entry (s : St) (tail : Nat) : Nat := s.lh.getD tail 0

def commitStep (C : Conf) (s : St) : Except Stop St :=
  match s.pc with
  | .idle => .error .blocked
  | .start => .ok (s.goto (if 0 < s.lh.length then .wTest 0 else .done))
  | .wTest t => .ok (s.goto (if t < s.lh.length then .wTo t .get else .hLoad false .get))
  | .wTo t k => load C s 0 (C.log.start + t + 1) (.wTo t) (.wFrom t .get) k
  | .wFrom t k => load C s 1 (s.entry t) (.wFrom t) (.wCopy t) k
  | .wCopy t => (copy s 0 1).map (·.goto (.wWrite t))
  | .wWrite t => (bwrite s 0).map (·.goto (.wRelFrom t .unlock))
  | .wRelFrom t k => brelse s 1 (.wRelFrom t) (.wRelTo t .unlock) k
  | .wRelTo t k => brelse s 0 (.wRelTo t) (.wTest (t + 1)) k
  | .hLoad last k => load C s 0 C.log.start (.hLoad last) (.hEdit last) k
  | .hEdit last => (modify s 0 (Log.putHead · s.lh)).map (·.goto (.hWrite last))
  | .hWrite last => (bwrite s 0).map (·.goto (.hRel last .unlock))
  | .hRel last k => brelse s 0 (.hRel last) (if last then .done else .iTest 0) k
  | .iTest t => .ok (s.goto (if t < s.lh.length then .iLog t .get else .clear))
  | .iLog t k => load C s 0 (C.log.start + t + 1) (.iLog t) (.iHome t .get) k
  | .iHome t k => load C s 1 (s.entry t) (.iHome t) (.iCopy t) k
  | .iCopy t => (copy s 1 0).map (·.goto (.iWrite t))
  | .iWrite t => (bwrite s 1).map (·.goto (.iUnpin t))
  | .iUnpin t => (bunpin s 1).map (·.goto (.iRelLog t .unlock))
  | .iRelLog t k => brelse s 0 (.iRelLog t) (.iRelHome t .unlock) k
  | .iRelHome t k => brelse s 1 (.iRelHome t) (.iTest (t + 1)) k
  | .clear => .ok { s with lh := [], unpinned := 0, pc := .hLoad true .get }
  | .done => .ok (s.goto .idle)

inductive Op where
  | bget (blk : Nat)
  | acquire
  | read
  | modify (f : Block → Block)
  | bwrite
  | logWrite
  | unlock
  | drop

inductive Ev where
  | user (u : Nat) (o : Op)
  | beginOp
  | endOp
  | commit

def op (C : Conf) (s : St) (u : Nat) : Op → Except Stop St
  | .bget blk => bget C s u blk
  | .acquire => acquire s u
  | .read => read s u
  | .modify f => modify s u f
  | .bwrite => bwrite s u
  | .logWrite => logWrite C s u
  | .unlock => unlock s u
  | .drop => drop s u

def step (C : Conf) (s : St) : Ev → Except Stop St
  | .user u o => if u < 2 then .error .blocked else op C s u o
  | .beginOp =>
    if s.pc = .idle ∧ s.lh.length + (s.outstanding + 1) * MAXOPBLOCKS ≤ LOGSIZE then
      .ok { s with outstanding := s.outstanding + 1 }
    else .error .blocked
  | .endOp =>
    if s.outstanding = 0 then .error .blocked
    else if s.pc ≠ .idle then .error (.panic .committing)
    else .ok { s with outstanding := s.outstanding - 1, pc := if s.outstanding - 1 = 0 then .start else .idle }
  | .commit => commitStep C s

/-- The states reached from `binit` on a disk `d`; a panicked kernel has no next state. -/
inductive Reach (C : Conf) (d : Disk) : St → Prop
  | init : Reach C d (init d)
  | step {s s' : St} (e : Ev) : Reach C d s → step C s e = .ok s' → Reach C d s'

def runs (C : Conf) (s : St) : List Ev → Except Stop St
  | [] => .ok s
  | e :: es => (step C s e).bind (runs C · es)

theorem Reach.runs {C : Conf} {d : Disk} {s s' : St} (es : List Ev) (hr : Reach C d s) (hs : runs C s es = .ok s') :
    Reach C d s' := by
  induction es generalizing s with
  | nil => cases hs; exact hr
  | cons e es ih =>
    simp only [Bio.runs] at hs
    cases hst : Bio.step C s e with
    | error e' => rw [hst] at hs; cases hs
    | ok t =>
      rw [hst] at hs
      exact ih (.step e hr hst) hs

/-! ## What the cache is about -/

def St.uses (s : St) (u b : Nat) : Nat :=
  match s.users u with
  | some x => if x.buf = b then 1 else 0
  | none => 0

/-- The holders of buffer `b`, those who wait for it, and those on their way out. -/
def St.count (s : St) (C : Conf) (b : Nat) : Nat := ∑ u ∈ Finset.range C.users, s.uses u b

def St.pending (s : St) : List Nat := s.lh.drop s.unpinned

def St.pins (s : St) (b : Nat) : Nat := if (s.bufs b).dev = ROOTDEV ∧ (s.bufs b).blockno ∈ s.pending then 1 else 0

end Xv6.Bio
