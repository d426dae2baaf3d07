/-
  Xv6.Process.Calls — the process table under whole calls of `fork`, `exit`, `wait` and `kill`
  (kernel/proc.c), made in any order by any of the processes that run.

  A step is one call, from its start to its return or, for `wait`, to the `sleep` it ends in;
  a process that has slept in `wait` and runs again goes through the loop once more. `run` and
  `yield` are the scheduler. `own` stands for the calls that change what a process owns by
  itself: `open`, `dup` and `close` its files, `sbrk` and `exec` its size. Where memory runs
  out in a `fork`, and whether `wait`'s `copyout` succeeds, is part of the step. `exit` by
  `initproc` panics, so it is no step.

  `forked` lists the pids `fork` has returned to a parent. No code reads it.

  Proved: in runs whose `kill`s name neither pid 1 nor, while a slot is UNUSED, pid 0, every
  UNUSED slot is clean, a child starts with `killed = 0`, and `kill` touches only a process
  whose pid some `fork` returned (`slots_clean`). `a_killed_child` is the other case: `kill(0)`
  finds an UNUSED slot, whose pid is 0, and the child that gets the slot is killed from the
  start.
-/
import Xv6.Process.State
import Mathlib

namespace Xv6.Process.Calls

structure St where
  procs : Nat → Proc
  nextpid : Int
  /-- asleep in `wait`, or woken there -/
  inWait : Nat → Bool
  forked : List Int

def init : St := ⟨bootProcs, 2, fun _ => false, []⟩

def St.put (s : St) (i : Nat) (q : Proc) : St := { s with procs := upd s.procs i q }

inductive Mem where
  | enough
  | noTrapframe
  | noPagetable
  | noCopy
  deriving DecidableEq, Repr

def allocproc (s : St) (m : Mem) : Option Nat × St :=
  match (List.range NPROC).find? fun i => (s.procs i).state = .unused with
  | none => (none, s)
  | some i =>
    let q : Proc := { s.procs i with pid := s.nextpid, state := .used }
    let s := { s with nextpid := pidSucc s.nextpid }
    match m with
    | .noTrapframe => (none, s.put i { q with trapframe := false }.freeproc)
    | .noPagetable => (none, s.put i { q with trapframe := true, pagetable := false }.freeproc)
    | _ => (some i, s.put i { q with trapframe := true, pagetable := true })

/-- The child's pid, or `none` for -1. -/
def fork (s : St) (p : Nat) (m : Mem) : Option Int × St :=
  match allocproc s m with
  | (none, s) => (none, s)
  | (some i, s) =>
    if m = .noCopy then (none, s.put i (s.procs i).freeproc)
    else
      let q := (s.procs i).inherit (s.procs p)
      (some q.pid, s.put i { q with parent := some p, state := .runnable })

def wakeup (s : St) (me : Nat) (c : Option Chan) : St :=
  { s with procs := fun i => if i < NPROC ∧ i ≠ me then (s.procs i).wake c else s.procs i }

def reparentAt (p : Nat) (s : St) (i : Nat) : St :=
  if (s.procs i).parent = some p then
    wakeup (s.put i { s.procs i with parent := some initproc }) p (some (.proc initproc))
  else s

def reparent (s : St) (p : Nat) : St := (List.range NPROC).foldl (reparentAt p) s

def exit (s : St) (p : Nat) (status : Int) : Option St :=
  if p = initproc then none
  else
    let s := s.put p (s.procs p).close
    let s := reparent s p
    let s := wakeup s p ((s.procs p).parent.map .proc)
    some (s.put p { s.procs p with xstate := status, state := .zombie })

/-- `wait`'s loop, once; `copied` says whether `copyout` succeeds. -/
def wait (s : St) (p : Nat) (copied : Bool) : St :=
  match (List.range NPROC).find? fun i => (s.procs i).parent = some p ∧ (s.procs i).state = .zombie with
  | some i =>
    let s := { s with inWait := upd s.inWait p false }
    if copied then s.put i (s.procs i).freeproc else s
  | none =>
    if ¬ ((List.range NPROC).any fun i => (s.procs i).parent = some p) ∨ (s.procs p).killed then
      { s with inWait := upd s.inWait p false }
    else { s.put p { s.procs p with chan := some (.proc p), state := .sleeping } with inWait := upd s.inWait p true }

def kill (s : St) (pid : Int) : St :=
  match (List.range NPROC).find? fun i => (s.procs i).pid = pid with
  | some i => s.put i (s.procs i).kill
  | none => s

inductive Ev where
  | run (p : Nat)
  | yield (p : Nat)
  | own (p : Nat) (sz : Nat) (ofile : Nat → Option Nat) (cwd : Option Nat)
  | fork (p : Nat) (m : Mem)
  | exit (p : Nat) (status : Int)
  | wait (p : Nat) (copied : Bool)
  | kill (p : Nat) (pid : Int)

def step (s : St) : Ev → Option St
  | .run p =>
    if (s.procs p).state = .runnable then
      -- a process that slept in `wait` first leaves `sleep`, which clears `chan`
      some (s.put p { s.procs p with state := .running, chan := if s.inWait p then none else (s.procs p).chan })
    else none
  | .yield p =>
    if (s.procs p).state = .running ∧ s.inWait p = false then some
      (s.put p { s.procs p with state := .runnable }) else none
  | .own p sz ofile cwd =>
    if (s.procs p).state = .running ∧ s.inWait p = false then
      some (s.put p { s.procs p with sz := sz, ofile := ofile, cwd := cwd })
    else none
  | .fork p m =>
    if (s.procs p).state = .running ∧ s.inWait p = false then
      let (r, s') := fork s p m
      some { s' with forked := s'.forked ++ r.toList }
    else none
  | .exit p status => if (s.procs p).state = .running ∧ s.inWait p = false then exit s p status else none
  | .wait p copied => if (s.procs p).state = .running then some (wait s p copied) else none
  | .kill p pid => if (s.procs p).state = .running ∧ s.inWait p = false then some (kill s pid) else none

inductive Reach (P : St → Ev → Prop) : St → Prop
  | init : Reach P init
  | step {s s' : St} (e : Ev) : Reach P s → P s e → step s e = some s' → Reach P s'

/-- `kill` is not given pid 1, nor pid 0 while there is an UNUSED slot. -/
def NamesProcess (s : St) : Ev → Prop
  | .kill _ pid => pid ≠ 1 ∧ (pid = 0 → ∀ i < NPROC, (s.procs i).state ≠ .unused)
  | _ => True

/-! ## Clean slots -/

structure Clean (q : Proc) : Prop where
  killed : q.killed = false
  pid : q.pid = 0
  parent : q.parent = none
  chan : q.chan = none
  sz : q.sz = 0
  pagetable : q.pagetable = false
  trapframe : q.trapframe = false
  ofile : ∀ fd < NOFILE, q.ofile fd = none

structure Inv (s : St) : Prop where
  clean : ∀ i, (s.procs i).state = .unused → Clean (s.procs i)
  /-- A process has closed its files before it becomes a ZOMBIE. -/
  closed : ∀ i, (s.procs i).state = .zombie → ∀ fd < NOFILE, (s.procs i).ofile fd = none
  pids : ∀ i, (s.procs i).state ≠ .unused → i ≠ initproc → (s.procs i).pid ∈ s.forked
  boot : (s.procs initproc).pid = 1 ∧ (s.procs initproc).state ≠ .unused ∧ (s.procs initproc).state ≠ .zombie

theorem init_inv : Inv init := by
  refine ⟨fun i hi => ?_, fun i hi => ?_, fun i hi h => ?_, by simp [init, bootProcs]⟩ <;>
    by_cases hb : i = initproc <;> simp [init, bootProcs, hb, Proc.zero] at hi ⊢
  · exact ⟨rfl, rfl, rfl, rfl, rfl, rfl, rfl, fun _ _ => rfl⟩
  · exact h hb

variable {s s' : St} {i p : Nat} {q : Proc}

/-- One entry changes. -/
theorem Inv.put (h : Inv s) (hc : q.state = .unused → Clean q) (hz : q.state = .zombie → ∀ fd < NOFILE,
    q.ofile fd = none) (hp : q.state ≠ .unused → i ≠ initproc → q.pid ∈ s.forked)
    (hb : i = initproc → q.pid = 1 ∧ q.state ≠ .unused ∧ q.state ≠ .zombie) : Inv (s.put i q) := by
  refine ⟨?_, ?_, ?_, ?_⟩
  · exact forall_upd (P := fun _ (q : Proc) => q.state = .unused → Clean q) (fun j _ => h.clean j) hc
  · exact forall_upd (P := fun _ (q : Proc) => q.state = .zombie → ∀ fd < NOFILE, q.ofile fd = none)
      (fun j _ => h.closed j) hz
  · exact forall_upd (P := fun j (q : Proc) => q.state ≠ .unused → j ≠ initproc → q.pid ∈ s.forked)
      (fun j _ => h.pids j) hp
  · simp only [St.put]
    by_cases e : initproc = i
    · rw [e, upd_same]
      exact hb e.symm
    · rw [upd_ne e]
      exact h.boot

/-- A live process changes, keeps its pid and stays alive. -/
theorem Inv.live (h : Inv s) (hi : (s.procs i).state ≠ .unused) (hq : q.state ≠ .unused ∧ q.state ≠ .zombie)
    (hp : q.pid = (s.procs i).pid) : Inv (s.put i q) :=
  h.put (fun e => absurd e hq.1) (fun e => absurd e hq.2) (fun _ hb => by rw [hp]; exact h.pids i hi hb)
    fun e => ⟨by rw [hp, e]; exact h.boot.1, hq⟩

theorem Clean.freeproc (h : ∀ fd < NOFILE, q.ofile fd = none) : Clean q.freeproc :=
  ⟨rfl, rfl, rfl, rfl, rfl, rfl, rfl, h⟩

/-- A slot is given back. -/
theorem Inv.free (h : Inv s) (hi : i ≠ initproc) (hq : ∀ fd < NOFILE, q.ofile fd = none) : Inv (s.put i q.freeproc) :=
  h.put (fun _ => .freeproc hq) (fun e => by cases e) (fun e => absurd rfl e) fun e => absurd e hi

theorem wake_cases (q : Proc) (c : Option Chan) :
    q.wake c = q ∨ (q.state = .sleeping ∧ q.wake c = { q with state := .runnable }) := by
  unfold Proc.wake
  split
  · rename_i hs
    exact Or.inr ⟨hs.1, rfl⟩
  · exact Or.inl rfl

theorem wakeup_cases (s : St) (me : Nat) (c : Option Chan) (i : Nat) :
    (wakeup s me c).procs i = s.procs i ∨
      ((s.procs i).state = .sleeping ∧ (wakeup s me c).procs i = { s.procs i with state := .runnable }) := by
  unfold wakeup
  dsimp only
  split
  · exact wake_cases _ c
  · exact Or.inl rfl

theorem wakeup_inv (h : Inv s) (me : Nat) (c : Option Chan) : Inv (wakeup s me c) := by
  refine ⟨fun i hi => ?_, fun i hi => ?_, fun i hi hb => ?_, ?_⟩
  · rcases wakeup_cases s me c i with e | ⟨_, e⟩ <;> rw [e] at hi ⊢
    · exact h.clean i hi
    · cases hi
  · rcases wakeup_cases s me c i with e | ⟨_, e⟩ <;> rw [e] at hi ⊢
    · exact h.closed i hi
    · cases hi
  · rcases wakeup_cases s me c i with e | ⟨hs, e⟩ <;> rw [e] at hi ⊢
    · exact h.pids i hi hb
    · exact h.pids i (by rw [hs]; decide) hb
  · rcases wakeup_cases s me c initproc with e | ⟨_, e⟩ <;> rw [e]
    · exact h.boot
    · exact ⟨h.boot.1, by simp, by simp⟩

theorem reparentAt_inv (h : Inv s) : Inv (reparentAt p s i) := by
  unfold reparentAt
  split
  · rename_i hp
    refine wakeup_inv (h.put (i := i) (q := { s.procs i with parent := some initproc }) (fun hu => ?_) (h.closed i)
      (h.pids i) fun e => ?_) p _
    · -- an UNUSED slot is nobody's child
      have := (h.clean i hu).parent
      rw [hp] at this
      cases this
    · rw [e]; exact h.boot
  · exact h

theorem reparent_inv (h : Inv s) (p : Nat) : Inv (reparent s p) := by
  unfold reparent
  induction List.range NPROC generalizing s with
  | nil => exact h
  | cons i l ih => exact ih (reparentAt_inv h)

theorem wakeup_self (s : St) (p : Nat) (c : Option Chan) : (wakeup s p c).procs p = s.procs p := by simp [wakeup]

/-- `reparent` leaves the caller's state and files alone. -/
theorem reparent_self (s : St) (p : Nat) :
    ((reparent s p).procs p).state = (s.procs p).state ∧ ((reparent s p).procs p).ofile = (s.procs p).ofile := by
  unfold reparent
  induction List.range NPROC generalizing s with
  | nil => exact ⟨rfl, rfl⟩
  | cons i l ih =>
    have h1 : ((reparentAt p s i).procs p).state = (s.procs p).state ∧
        ((reparentAt p s i).procs p).ofile = (s.procs p).ofile := by
      unfold reparentAt
      split
      · rw [wakeup_self]
        by_cases e : p = i <;> simp [St.put, e]
      · exact ⟨rfl, rfl⟩
    rw [List.foldl_cons, (ih _).1, (ih _).2]
    exact h1

theorem exit_inv {status : Int} (h : Inv s) (hr : (s.procs p).state = .running) (he : exit s p status = some s') :
    Inv s' := by
  unfold exit at he
  split at he
  · cases he
  · rename_i hp
    cases he
    have h1 : Inv (s.put p (s.procs p).close) :=
      h.live (by rw [hr]; decide) (by rw [Proc.close, hr]; exact ⟨by decide, by decide⟩) rfl
    have h2 := reparent_inv h1 p
    have h3 := wakeup_inv h2 p (((reparent (s.put p (s.procs p).close) p).procs p).parent.map .proc)
    obtain ⟨hst, hof⟩ := reparent_self (s.put p (s.procs p).close) p
    refine h3.put (fun e => by cases e) (fun _ fd hfd => ?_) (fun _ hb => h3.pids p ?_ hb) fun e => absurd e hp
    · simp only [wakeup_self, hof]
      simp [St.put, Proc.close, hfd]
    · rw [wakeup_self, hst]
      simp [St.put, Proc.close, hr]

theorem wait_inv {copied : Bool} (h : Inv s) (hr : (s.procs p).state = .running) : Inv (wait s p copied) := by
  have flag : ∀ b, Inv { s with inWait := upd s.inWait p b } := fun _ => ⟨h.clean, h.closed, h.pids, h.boot⟩
  unfold wait
  split
  · rename_i i hi
    have hz := List.find?_some hi
    simp only [decide_eq_true_eq] at hz
    dsimp only
    split
    · exact (flag false).free (fun e => h.boot.2.2 (by rw [← e]; exact hz.2)) (h.closed i hz.2)
    · exact flag false
  · split
    · exact flag false
    · exact (flag true).live (by rw [hr]; decide) ⟨by simp, by simp⟩ rfl

/-! ## `fork` -/

/-- The slot `allocproc` takes. -/
theorem find_unused (h : Inv s) (hi : ((List.range NPROC).find? fun i => (s.procs i).state = .unused) = some i) :
    (s.procs i).state = .unused ∧ i ≠ initproc := by
  have hu := List.find?_some hi
  simp only [decide_eq_true_eq] at hu
  exact ⟨hu, fun e => h.boot.2.1 (by rw [← e]; exact hu)⟩

/-- `fork` fails and its slot, if it had one, is clean again; or the child is ready, made from an
    UNUSED slot. -/
theorem fork_cases (h : Inv s) (p : Nat) (m : Mem) :
    (∃ s', fork s p m = (none, s') ∧ Inv s' ∧ s'.forked = s.forked) ∨
    ∃ i n, fork s p m = (some s.nextpid, { s.put i n with nextpid := pidSucc s.nextpid }) ∧
      (s.procs i).state = .unused ∧ i ≠ initproc ∧ n.state = .runnable ∧ n.pid = s.nextpid ∧ n.killed = false ∧
      n.parent = some p := by
  unfold fork allocproc
  cases hi : (List.range NPROC).find? fun i => (s.procs i).state = .unused with
  | none => exact Or.inl ⟨s, rfl, h, rfl⟩
  | some i =>
    obtain ⟨hu, hb⟩ := find_unused h hi
    have hc := h.clean i hu
    have next : Inv { s with nextpid := pidSucc s.nextpid } := ⟨h.clean, h.closed, h.pids, h.boot⟩
    cases m with
    | noTrapframe | noPagetable => exact Or.inl ⟨_, rfl, next.free hb hc.ofile, rfl⟩
    | noCopy =>
      refine Or.inl ⟨_, rfl, ?_, rfl⟩
      simp only [St.put, upd_same, upd_upd]
      exact next.free hb hc.ofile
    | enough =>
      let u : Proc := { s.procs i with pid := s.nextpid, state := .used, trapframe := true, pagetable := true }
      refine Or.inr ⟨i, { u.inherit (upd s.procs i u p) with parent := some p, state := .runnable }, ?_, hu,
        hb, rfl, rfl, hc.killed, rfl⟩
      simp [St.put, Proc.inherit, u]

theorem fork_inv {m : Mem} (h : Inv s) :
    Inv { (fork s p m).2 with forked := (fork s p m).2.forked ++ (fork s p m).1.toList } := by
  rcases fork_cases h p m with ⟨s', hf, hi, _⟩ | ⟨i, n, hf, hu, hb, hn, hpid, _, _⟩ <;> rw [hf]
  · simpa using hi
  · have more : Inv { s with nextpid := pidSucc s.nextpid, forked := s.forked ++ [s.nextpid] } :=
      ⟨h.clean, h.closed, fun j hj hjb => List.mem_append_left _ (h.pids j hj hjb), h.boot⟩
    exact more.put (i := i) (q := n) (by rw [hn]; simp) (by rw [hn]; simp) (fun _ _ => by simp [hpid])
      fun e => absurd e hb

/-! ## `kill` -/

theorem kill_state (q : Proc) : (q.kill.state = .unused ↔ q.state = .unused) ∧
    (q.kill.state = .zombie ↔ q.state = .zombie) := by
  unfold Proc.kill
  split
  · rename_i hs
    simp [hs]
  · simp

/-- A process `kill` finds, if it is given the pid of one. -/
theorem kill_target {pid : Int} (h : Inv s) (hn : NamesProcess s (.kill p pid))
    (hi : ((List.range NPROC).find? fun i => (s.procs i).pid = pid) = some i) :
    (s.procs i).state ≠ .unused ∧ (s.procs i).pid = pid ∧ i ≠ initproc := by
  have hp := List.find?_some hi
  have hlt := List.mem_range.mp (List.mem_of_find?_eq_some hi)
  simp only [decide_eq_true_eq] at hp
  refine ⟨fun hu => ?_, hp, fun e => hn.1 ?_⟩
  · have h0 := (h.clean i hu).pid
    rw [hp] at h0
    exact hn.2 h0 i hlt hu
  · rw [← hp, e]
    exact h.boot.1

theorem kill_pid (q : Proc) : q.kill.pid = q.pid ∧ q.kill.ofile = q.ofile := by
  unfold Proc.kill
  split <;> exact ⟨rfl, rfl⟩

theorem kill_inv {pid : Int} (h : Inv s) (hn : NamesProcess s (.kill p pid)) : Inv (kill s pid) := by
  unfold kill
  split
  · rename_i i hi
    obtain ⟨hu, _, hb⟩ := kill_target h hn hi
    have hk := kill_state (s.procs i)
    refine h.put (fun e => absurd (hk.1.mp e) hu) (fun e => ?_) (fun _ _ => ?_) fun e => absurd e hb
    · rw [(kill_pid _).2]; exact h.closed i (hk.2.mp e)
    · rw [(kill_pid _).1]; exact h.pids i hu hb
  · exact h

/-! ## Runs -/

theorem step_inv {e : Ev} (h : Inv s) (hn : NamesProcess s e) (hs : step s e = some s') : Inv s' := by
  cases e with
  | run p =>
    simp only [step] at hs
    split at hs <;> cases hs
    rename_i hr
    exact h.live (by rw [hr]; decide) ⟨by simp, by simp⟩ rfl
  | yield p =>
    simp only [step] at hs
    split at hs <;> cases hs
    rename_i hr
    exact h.live (by rw [hr.1]; decide) ⟨by simp, by simp⟩ rfl
  | own p sz ofile cwd =>
    simp only [step] at hs
    split at hs <;> cases hs
    rename_i hr
    exact h.live (by rw [hr.1]; decide) (by simp [hr.1]) rfl
  | fork p m =>
    simp only [step] at hs
    split at hs <;> cases hs
    exact fork_inv h
  | exit p status =>
    simp only [step] at hs
    split at hs
    · rename_i hr
      exact exit_inv h hr.1 hs
    · cases hs
  | wait p copied =>
    simp only [step] at hs
    split at hs <;> cases hs
    rename_i hr
    exact wait_inv h hr
  | kill p pid =>
    simp only [step] at hs
    split at hs <;> cases hs
    exact kill_inv h hn

theorem inv (h : Reach NamesProcess s) : Inv s := by
  induction h with
  | init => exact init_inv
  | step e _ hn hs ih => exact step_inv ih hn hs

/-- In every state of such a run every UNUSED slot is clean; the child of a `fork` that returns a
    pid was made from such a slot and is not killed; and a `kill` that is such a step changes
    only a process that is not UNUSED and whose pid some `fork` returned. -/
theorem slots_clean (h : Reach NamesProcess s) :
    (∀ i, (s.procs i).state = .unused → Clean (s.procs i)) ∧
    (∀ p m pid s', fork s p m = (some pid, s') →
      ∃ i, (s.procs i).state = .unused ∧ (s'.procs i).state = .runnable ∧ (s'.procs i).pid = pid ∧
        (s'.procs i).killed = false) ∧
    ∀ p pid, NamesProcess s (.kill p pid) → ∀ i, ((kill s pid).procs i).killed ≠ (s.procs i).killed ∨
      ((kill s pid).procs i).state ≠ (s.procs i).state →
      (s.procs i).state ≠ .unused ∧ (s.procs i).pid = pid ∧ pid ∈ s.forked := by
  have hi := inv h
  refine ⟨hi.clean, fun p m pid s' hf => ?_, fun p pid hn i hc => ?_⟩
  · rcases fork_cases hi p m with ⟨s1, hf1, _⟩ | ⟨i, n, hf1, hu, _, hn, hpid, hk, _⟩ <;> rw [hf1] at hf <;> cases hf
    exact ⟨i, hu, by simp [St.put, hn], by simp [St.put, hpid], by simp [St.put, hk]⟩
  · unfold kill at hc
    split at hc
    · rename_i j hj
      obtain ⟨hu, hp, hb⟩ := kill_target hi hn hj
      have e : i = j := by
        by_contra hne
        simp [St.put, hne] at hc
      rw [e]
      exact ⟨hu, hp, by rw [← hp]; exact hi.pids j hu hb⟩
    · simp at hc

def runs : St → List Ev → Option St
  | s, [] => some s
  | s, e :: es => (step s e).bind (runs · es)

theorem runs_reach {P : St → Ev → Prop} {es : List Ev} (hP : ∀ s, ∀ e ∈ es, P s e) :
    ∀ {s s' : St}, Reach P s → runs s es = some s' → Reach P s' := by
  induction es with
  | nil => intro s s' h hr; cases hr; exact h
  | cons e es ih =>
    intro s s' h hr
    obtain ⟨s1, hs, hr⟩ := Option.bind_eq_some_iff.mp hr
    exact ih (fun s e he => hP s e (by simp [he])) (.step e h (hP s e (by simp)) hs) hr

/-- A `fork`, a `kill` of the child, and the child's exit. -/
theorem slots_clean_after_kill :
    ∃ s, runs init [.run 0, .fork 0 .enough, .kill 0 2, .run 1, .exit 1 7, .wait 0 true] = some s ∧
    (s.procs 1).state = .unused ∧ (s.procs 1).killed = false := by
  have hrun : (runs init [.run 0, .fork 0 .enough, .kill 0 2, .run 1, .exit 1 7, .wait 0 true]).map
      (fun s => (s.procs 1).state) = some .unused := by decide +kernel
  obtain ⟨s, hs, hu⟩ := Option.map_eq_some_iff.mp hrun
  have hr : Reach NamesProcess s := runs_reach (fun s e he => by
    simp only [List.mem_cons, List.not_mem_nil, or_false] at he
    rcases he with rfl | rfl | rfl | rfl | rfl | rfl <;> simp [NamesProcess]) .init hs
  exact ⟨s, hs, hu, ((slots_clean hr).1 1 hu).killed⟩

/-- `kill(0)` marks the UNUSED slot 1 as killed, and the next child is made from it. -/
theorem a_killed_child : ¬ ∀ s, Reach (fun _ _ => True) s →
    (∀ i, (s.procs i).state = .unused → Clean (s.procs i)) ∧
    (∀ p m pid s', fork s p m = (some pid, s') →
      ∃ i, (s.procs i).state = .unused ∧ (s'.procs i).state = .runnable ∧ (s'.procs i).pid = pid ∧
        (s'.procs i).killed = false) ∧
    ∀ pid i, ((kill s pid).procs i).killed ≠ (s.procs i).killed ∨ ((kill s pid).procs i).state ≠ (s.procs i).state →
      (s.procs i).state ≠ .unused ∧ (s.procs i).pid = pid ∧ pid ∈ s.forked := by
  intro h
  have hrun : (runs init [.run 0, .kill 0 0]).map (fun s => ((s.procs 1).state, (s.procs 1).killed)) =
      some (.unused, true) := by decide +kernel
  obtain ⟨s, hs, hu⟩ := Option.map_eq_some_iff.mp hrun
  simp only [Prod.mk.injEq] at hu
  have hc := ((h s (runs_reach (fun _ _ _ => trivial) .init hs)).1 1 hu.1).killed
  rw [hu.2] at hc
  cases hc

end Xv6.Process.Calls
