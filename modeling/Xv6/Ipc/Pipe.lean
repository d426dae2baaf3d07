/-
  Xv6.Ipc.Pipe — one pipe of kernel/pipe.c: `pipewrite`, `piperead` and `pipeclose` by any
  number of processes.

  `pi->lock` is held from `acquire` to `release` or `sleep`, so what runs between two other
  processes' turns is one turn of a loop (`run`, by the holder) or the acquisition of the
  free lock. A sleeping process may be woken at any time (`wake`): by the pipe's own
  `wakeup`, or by `kill`. Whether `killed` finds the process killed is part of the step.
  A call carries the user memory it names: `src` gives the bytes by offset, `none` where
  `copyin` fails; `dst` says where `copyout` succeeds.

  `stored` is what `pipewrite` has put in, `delivered` what the `piperead` calls that have
  returned report, the first `i` bytes of a call that returns `i`. `removed` is what
  `piperead` has taken out, with whether `copyout` succeeded. No code reads these three.

  Proved:
  - `inv`: what was removed and what is in the ring are together what was stored, in that
    order, and what is delivered is what was removed without the bytes whose `copyout`
    failed; the counters, wrapped as they are, differ by the ring's length, at most
    PIPESIZE.
  - `stream_prefix`: along runs in which no byte is removed for a `copyout` that fails,
    what is delivered is a prefix of what was stored. `a_fault_loses_a_byte` is a run in
    which one is: `piperead` advances `nread` before it copies.
-/
import Xv6.Lib.Ring
import Xv6.Lib.Table
import Mathlib

namespace Xv6.Ipc.Pipe

abbrev PIPESIZE : Nat := 512

/-- `nread` and `nwrite` are `uint`s. -/
abbrev W : Nat := 2 ^ 32

abbrev Src := Nat → Option UInt8
abbrev Dst := Nat → Bool

inductive PSt where
  | idle
  /-- `pipewrite`, waiting for the lock: at its start or after `sleep`, `i` bytes in -/
  | wWant (src : Src) (n : Int) (i : Nat)
  /-- at the head of `pipewrite`'s loop, holding the lock -/
  | wLoop (src : Src) (n : Int) (i : Nat)
  /-- asleep on `&pi->nwrite` -/
  | wSleep (src : Src) (n : Int) (i : Nat)
  /-- `piperead`, waiting for the lock -/
  | rWant (dst : Dst) (n : Int)
  /-- at the head of `piperead`'s first loop -/
  | rWait (dst : Dst) (n : Int)
  /-- asleep on `&pi->nread` -/
  | rSleep (dst : Dst) (n : Int)
  /-- at the head of `piperead`'s second loop; `got` is what it has copied out -/
  | rCopy (dst : Dst) (n : Int) (i : Nat) (got : List UInt8)

structure St where
  data : Nat → UInt8
  nread : Nat
  nwrite : Nat
  readopen : Bool
  writeopen : Bool
  /-- the holder of `pi->lock` -/
  lock : Option Nat
  procs : Nat → PSt
  stored : List UInt8
  removed : List (UInt8 × Bool)
  delivered : List UInt8

def init : St :=
  { data := fun _ => 0, nread := 0, nwrite := 0, readopen := true, writeopen := true, lock := none,
    procs := fun _ => .idle, stored := [], removed := [], delivered := [] }

namespace St

def goto (s : St) (p : Nat) (x : PSt) : St := { s with procs := upd s.procs p x }

def acquire (s : St) (p : Nat) (x : PSt) : St := { s.goto p x with lock := some p }

def release (s : St) (p : Nat) (x : PSt) : St := { s.goto p x with lock := none }

def put (s : St) (ch : UInt8) : St :=
  { s with
    data := upd s.data (s.nwrite % PIPESIZE) ch
    nwrite := (s.nwrite + 1) % W
    stored := s.stored ++ [ch] }

/-- `ch = pi->data[pi->nread++ % PIPESIZE]`, then `copyout`, which succeeds if `ok`. -/
def take (s : St) (ok : Bool) : St :=
  { s with
    nread := (s.nread + 1) % W
    removed := s.removed ++ [(s.data (s.nread % PIPESIZE), ok)] }

def finish (s : St) (p i : Nat) (got : List UInt8) : St :=
  { s.release p .idle with delivered := s.delivered ++ got.take i }

end St

def writeTurn (s : St) (p : Nat) (killed : Bool) (src : Src) (n : Int) (i : Nat) : St :=
  if (i : Int) < n then
    if s.readopen = false ∨ killed then s.release p .idle
    else if s.nwrite = (s.nread + PIPESIZE) % W then s.release p (.wSleep src n i)
    else
      match src i with
      | none => s.release p .idle
      | some ch => (s.put ch).goto p (.wLoop src n (i + 1))
  else s.release p .idle

def waitTurn (s : St) (p : Nat) (killed : Bool) (dst : Dst) (n : Int) : St :=
  if s.nread = s.nwrite ∧ s.writeopen then
    if killed then s.release p .idle else s.release p (.rSleep dst n)
  else s.goto p (.rCopy dst n 0 [])

def copyTurn (s : St) (p : Nat) (dst : Dst) (n : Int) (i : Nat) (got : List UInt8) : St :=
  if (i : Int) < n then
    if s.nread = s.nwrite then s.finish p i got
    else if dst i then (s.take true).goto p (.rCopy dst n (i + 1) (got ++ [s.data (s.nread % PIPESIZE)]))
    else (s.take false).finish p i got
  else s.finish p i got

inductive Ev where
  | write (p : Nat) (src : Src) (n : Int)
  | read (p : Nat) (dst : Dst) (n : Int)
  | run (p : Nat) (killed : Bool)
  | wake (p : Nat)
  | close (writable : Bool)

def step (s : St) : Ev → Option St
  | .write p src n =>
    match s.procs p with
    | .idle => some (s.goto p (.wWant src n 0))
    | _ => none
  | .read p dst n =>
    match s.procs p with
    | .idle => some (s.goto p (.rWant dst n))
    | _ => none
  | .run p killed =>
    match s.procs p with
    | .wWant src n i => if s.lock = none then some (s.acquire p (.wLoop src n i)) else none
    | .wLoop src n i => some (writeTurn s p killed src n i)
    | .rWant dst n => if s.lock = none then some (s.acquire p (.rWait dst n)) else none
    | .rWait dst n => some (waitTurn s p killed dst n)
    | .rCopy dst n i got => some (copyTurn s p dst n i got)
    | .idle | .wSleep _ _ _ | .rSleep _ _ => none
  | .wake p =>
    match s.procs p with
    | .wSleep src n i => some (s.goto p (.wWant src n i))
    | .rSleep dst n => some (s.goto p (.rWant dst n))
    | _ => none
  | .close writable =>
    if s.lock = none then
      some (if writable then { s with writeopen := false } else { s with readopen := false })
    else none

inductive Reach (P : St → Ev → Bool) : St → Prop
  | init : Reach P init
  | step {s s' : St} (e : Ev) : Reach P s → P s e = true → step s e = some s' → Reach P s'

/-! ## The stream -/

def PSt.Holds : PSt → Prop
  | .wLoop _ _ _ | .rWait _ _ | .rCopy _ _ _ _ => True
  | _ => False

/-- What a call in progress has copied out and not yet reported. -/
def PSt.got : PSt → List UInt8
  | .rCopy _ _ _ got => got
  | _ => []

def St.pending (s : St) : List UInt8 :=
  match s.lock with
  | some p => (s.procs p).got
  | none => []

structure Inv (s : St) : Prop where
  /-- the lock is held by who runs inside it -/
  locked : ∀ p, (s.procs p).Holds ↔ s.lock = some p
  counted : ∀ p dst n i got, s.procs p = .rCopy dst n i got → got.length = i
  ring : ∃ q, Ring PIPESIZE W s.data s.nread s.nwrite q ∧ s.removed.map Prod.fst ++ q = s.stored
  out : s.delivered ++ s.pending = (s.removed.filter Prod.snd).map Prod.fst

theorem pipesize_dvd : PIPESIZE ∣ W := ⟨2 ^ 23, by norm_num⟩

theorem pipesize_lt : PIPESIZE < W := by norm_num

theorem init_inv : Inv init :=
  ⟨by simp [init, PSt.Holds], by simp [init], ⟨[], Ring.init (Nat.two_pow_pos 32), rfl⟩, rfl⟩

variable {s s' : St} {p : Nat}

/-- A process outside the lock goes to another place outside it. -/
theorem Inv.outside {x : PSt} (h : Inv s) (hp : ¬ (s.procs p).Holds) (hx : ¬ x.Holds) : Inv (s.goto p x) := by
  have hlock : s.lock ≠ some p := fun e => hp ((h.locked p).mpr e)
  refine ⟨fun r => ?_, fun r dst n i got hr => ?_, h.ring, ?_⟩
  · by_cases e : r = p
    · subst e
      simp only [St.goto, upd_same]
      exact ⟨fun hc => absurd hc hx, fun hc => absurd hc hlock⟩
    · simp only [St.goto, upd_ne e]
      exact h.locked r
  · by_cases e : r = p
    · subst e
      simp only [St.goto, upd_same] at hr
      rw [hr] at hx
      exact absurd trivial hx
    · simp only [St.goto, upd_ne e] at hr
      exact h.counted r dst n i got hr
  · have : (s.goto p x).pending = s.pending := by
      simp only [St.pending, St.goto]
      cases hl : s.lock with
      | none => rfl
      | some r =>
        have hne : r ≠ p := fun e => hlock (by rw [hl, e])
        simp only [upd_ne hne]
    rw [this]
    exact h.out

/-- The free lock is taken. -/
theorem Inv.acquire {x : PSt} (h : Inv s) (hl : s.lock = none) (hx : x.Holds) (hg : x.got = [])
    (hc : ∀ dst n i got, x ≠ .rCopy dst n i got) : Inv (s.acquire p x) := by
  refine ⟨fun r => ?_, fun r dst n i got hr => ?_, h.ring, ?_⟩
  · by_cases e : r = p
    · subst e
      simp only [St.acquire, St.goto, upd_same, iff_true]
      exact hx
    · simp only [St.acquire, St.goto, upd_ne e, Option.some.injEq]
      refine ⟨fun hr => ?_, fun hr => absurd hr.symm e⟩
      rw [(h.locked r).mp hr] at hl
      cases hl
  · by_cases e : r = p
    · subst e
      simp only [St.acquire, St.goto, upd_same] at hr
      exact absurd hr (hc dst n i got)
    · simp only [St.acquire, St.goto, upd_ne e] at hr
      exact h.counted r dst n i got hr
  · have := h.out
    simp only [St.pending, hl, List.append_nil] at this
    simp only [St.pending, St.acquire, St.goto, upd_same, hg, List.append_nil]
    exact this

/-- The holder stays inside, or leaves. The pipe's fields are those of `s1`. -/
theorem Inv.inside {s1 : St} {x : PSt} (h : Inv s) (hl : s.lock = some p) (hx : x.Holds)
    (hp : s1.procs = upd s.procs p x) (hlock : s1.lock = s.lock)
    (hc : ∀ dst n i got, x = .rCopy dst n i got → got.length = i)
    (hr : ∃ q, Ring PIPESIZE W s1.data s1.nread s1.nwrite q ∧ s1.removed.map Prod.fst ++ q = s1.stored)
    (ho : s1.delivered ++ x.got = (s1.removed.filter Prod.snd).map Prod.fst) : Inv s1 := by
  refine ⟨fun r => ?_, fun r dst n i got hr' => ?_, hr, ?_⟩
  · rw [hlock, hp]
    by_cases e : r = p
    · subst e
      rw [upd_same]
      exact ⟨fun _ => hl, fun _ => hx⟩
    · rw [upd_ne e]
      exact h.locked r
  · rw [hp] at hr'
    by_cases e : r = p
    · subst e
      rw [upd_same] at hr'
      exact hc dst n i got hr'
    · rw [upd_ne e] at hr'
      exact h.counted r dst n i got hr'
  · simp only [St.pending, hlock, hl, hp, upd_same]
    exact ho

theorem Inv.leave {s1 : St} {x : PSt} (h : Inv s) (hl : s.lock = some p) (hx : ¬ x.Holds)
    (hp : s1.procs = upd s.procs p x) (hlock : s1.lock = none)
    (hr : ∃ q, Ring PIPESIZE W s1.data s1.nread s1.nwrite q ∧ s1.removed.map Prod.fst ++ q = s1.stored)
    (ho : s1.delivered = (s1.removed.filter Prod.snd).map Prod.fst) : Inv s1 := by
  refine ⟨fun r => ?_, fun r dst n i got hr' => ?_, hr, ?_⟩
  · rw [hlock, hp]
    by_cases e : r = p
    · subst e
      rw [upd_same]
      exact ⟨fun hc => absurd hc hx, fun hc => by cases hc⟩
    · rw [upd_ne e]
      refine ⟨fun hr' => ?_, fun hc => by cases hc⟩
      rw [(h.locked r).mp hr'] at hl
      exact absurd (Option.some.inj hl) e
  · rw [hp] at hr'
    by_cases e : r = p
    · subst e
      rw [upd_same] at hr'
      rw [hr'] at hx
      exact absurd trivial hx
    · rw [upd_ne e] at hr'
      exact h.counted r dst n i got hr'
  · simp only [St.pending, hlock, List.append_nil]
    exact ho

/-- `nread` differs from `nwrite`: a byte is taken out. -/
theorem Inv.take (h : Inv s) (hne : s.nread ≠ s.nwrite) (ok : Bool) :
    ∃ q, Ring PIPESIZE W (s.take ok).data (s.take ok).nread (s.take ok).nwrite q ∧
      (s.take ok).removed.map Prod.fst ++ q = (s.take ok).stored := by
  obtain ⟨q, hq, hs⟩ := h.ring
  cases q with
  | nil => exact absurd ((hq.empty_iff pipesize_lt).mpr rfl) hne
  | cons x q =>
    obtain ⟨hx, hq'⟩ := hq.pop pipesize_dvd
    refine ⟨q, hq', ?_⟩
    simp only [St.take, hx, List.map_append, List.map_cons, List.map_nil, List.append_assoc]
    exact hs

/-- What the holder has copied out is all that is not yet reported. -/
theorem Inv.held (h : Inv s) (hl : s.lock = some p) :
    s.delivered ++ (s.procs p).got = (s.removed.filter Prod.snd).map Prod.fst := by
  have := h.out
  simpa only [St.pending, hl] using this

theorem writeTurn_inv {killed : Bool} {src : Src} {n : Int} {i : Nat} (h : Inv s) (hp : s.procs p = .wLoop src n i) :
    Inv (writeTurn s p killed src n i) := by
  have hl : s.lock = some p := (h.locked p).mp (by rw [hp]; trivial)
  have ho := h.held hl
  rw [hp] at ho
  simp only [PSt.got, List.append_nil] at ho
  have leave : ∀ x : PSt, ¬ x.Holds → Inv (s.release p x) := fun x hx => h.leave hl hx rfl rfl h.ring ho
  unfold writeTurn
  split
  · split
    · exact leave _ id
    split
    · exact leave _ id
    rename_i hfull
    split
    · exact leave _ id
    · -- the byte goes into the ring
      rename_i ch _
      obtain ⟨q, hq, hs⟩ := h.ring
      have hlt : q.length < PIPESIZE := Nat.lt_of_le_of_ne hq.le fun e => hfull ((hq.full_iff pipesize_lt).mpr e)
      have hput : Ring PIPESIZE W (s.put ch).data (s.put ch).nread (s.put ch).nwrite (q ++ [ch]) :=
        hq.push pipesize_dvd hlt (upd_same _ _ _) fun j hj => upd_ne hj _
      refine h.inside (x := .wLoop src n (i + 1)) hl trivial rfl rfl (fun _ _ _ _ hc => by cases hc)
        ⟨q ++ [ch], hput, ?_⟩ ?_
      · simp only [St.goto, St.put, ← hs, List.append_assoc]
      · simpa only [St.goto, St.put, PSt.got, List.append_nil] using ho
  · exact leave _ id

theorem waitTurn_inv {killed : Bool} {dst : Dst} {n : Int} (h : Inv s) (hp : s.procs p = .rWait dst n) :
    Inv (waitTurn s p killed dst n) := by
  have hl : s.lock = some p := (h.locked p).mp (by rw [hp]; trivial)
  have ho := h.held hl
  rw [hp] at ho
  simp only [PSt.got, List.append_nil] at ho
  unfold waitTurn
  split
  · split
    · exact h.leave hl id rfl rfl h.ring ho
    · exact h.leave hl id rfl rfl h.ring ho
  · refine h.inside (x := .rCopy dst n 0 []) hl trivial rfl rfl (fun _ _ _ _ hc => by cases hc; rfl) h.ring ?_
    simpa only [St.goto, PSt.got, List.append_nil] using ho

theorem copyTurn_inv {dst : Dst} {n : Int} {i : Nat} {got : List UInt8} (h : Inv s)
    (hp : s.procs p = .rCopy dst n i got) : Inv (copyTurn s p dst n i got) := by
  have hl : s.lock = some p := (h.locked p).mp (by rw [hp]; trivial)
  have ho := h.held hl
  rw [hp] at ho
  simp only [PSt.got] at ho
  have hi : got.take i = got := List.take_of_length_le (Nat.le_of_eq (h.counted p dst n i got hp))
  unfold copyTurn
  split
  · split
    · exact h.leave hl id rfl rfl h.ring (by simpa only [St.finish, St.release, St.goto, hi] using ho)
    rename_i hne
    split
    · refine h.inside (x := .rCopy dst n (i + 1) (got ++ [s.data (s.nread % PIPESIZE)])) hl trivial rfl rfl
        (fun _ _ _ _ hc => ?_) (h.take hne true) ?_
      · cases hc
        rw [List.length_append, h.counted p dst n i got hp]
        rfl
      · simp only [St.goto, St.take, PSt.got, List.filter_append, List.map_append, ← ho]
        simp
    · -- the byte is out of the ring and not delivered
      refine h.leave hl id rfl rfl (h.take hne false) ?_
      simp only [St.finish, St.release, St.goto, St.take, hi, List.filter_append, List.map_append, ← ho]
      simp
  · exact h.leave hl id rfl rfl h.ring (by simpa only [St.finish, St.release, St.goto, hi] using ho)

theorem step_inv {e : Ev} (h : Inv s) (hs : step s e = some s') : Inv s' := by
  cases e with
  | write p src n | read p dst n =>
    simp only [step] at hs
    split at hs
    · rename_i hp
      cases hs
      exact h.outside (by rw [hp]; exact id) id
    · cases hs
  | run p killed =>
    simp only [step] at hs
    split at hs
    · split at hs
      · rename_i hp hl
        cases hs
        exact h.acquire hl trivial rfl fun _ _ _ _ hc => by cases hc
      · cases hs
    · rename_i hp
      cases hs
      exact writeTurn_inv h hp
    · split at hs
      · rename_i hp hl
        cases hs
        exact h.acquire hl trivial rfl fun _ _ _ _ hc => by cases hc
      · cases hs
    · rename_i hp
      cases hs
      exact waitTurn_inv h hp
    · rename_i hp
      cases hs
      exact copyTurn_inv h hp
    all_goals cases hs
  | wake p =>
    simp only [step] at hs
    split at hs
    · rename_i hp
      cases hs
      exact h.outside (by rw [hp]; exact id) id
    · rename_i hp
      cases hs
      exact h.outside (by rw [hp]; exact id) id
    · cases hs
  | close writable =>
    simp only [step] at hs
    split at hs
    · cases hs
      cases writable
      · exact ⟨h.locked, h.counted, h.ring, h.out⟩
      · exact ⟨h.locked, h.counted, h.ring, h.out⟩
    · cases hs

theorem inv {P : St → Ev → Bool} (h : Reach P s) : Inv s := by
  induction h with
  | init => exact init_inv
  | step e _ _ hs ih => exact step_inv ih hs

/-- `0 <= nwrite - nread <= PIPESIZE` modulo 2^32. -/
theorem Inv.count_le (h : Inv s) : (s.nwrite + (W - s.nread)) % W ≤ PIPESIZE := by
  obtain ⟨q, hq, -⟩ := h.ring
  rw [hq.count pipesize_lt]
  exact hq.le

/-! ## No byte is lost -/

/-- `piperead` does not take out a byte it cannot copy out. -/
def noFault (s : St) : Ev → Bool
  | .run p _ =>
    match s.procs p with
    | .rCopy dst n i _ => dst i || decide (n ≤ (i : Int) ∨ s.nread = s.nwrite)
    | _ => true
  | _ => true

/-- Only `piperead`'s second loop takes bytes out. -/
theorem step_removed {e : Ev} (h : step s e = some s') :
    s'.removed = s.removed ∨ ∃ p killed dst n i got, e = .run p killed ∧ s.procs p = .rCopy dst n i got ∧
      (i : Int) < n ∧ s.nread ≠ s.nwrite ∧ s'.removed = s.removed ++ [(s.data (s.nread % PIPESIZE), dst i)] := by
  cases e with
  | write p src n | read p dst n =>
    simp only [step] at h
    split at h <;> cases h
    exact Or.inl rfl
  | run p killed =>
    simp only [step] at h
    split at h
    · split at h <;> cases h
      exact Or.inl rfl
    · cases h
      refine Or.inl ?_
      unfold writeTurn
      repeat' split
      all_goals rfl
    · split at h <;> cases h
      exact Or.inl rfl
    · cases h
      refine Or.inl ?_
      unfold waitTurn
      repeat' split
      all_goals rfl
    · rename_i dst n i got hp
      cases h
      unfold copyTurn
      split
      · rename_i hi
        split
        · exact Or.inl rfl
        · rename_i hne
          refine Or.inr ⟨p, killed, dst, n, i, got, rfl, hp, hi, hne, ?_⟩
          split
          · rename_i hd
            rw [hd]
            rfl
          · rename_i hd
            rw [Bool.not_eq_true] at hd
            rw [hd]
            rfl
      · exact Or.inl rfl
    all_goals cases h
  | wake p =>
    simp only [step] at h
    split at h <;> cases h
    · exact Or.inl rfl
    · exact Or.inl rfl
  | close writable =>
    simp only [step] at h
    split at h <;> cases h
    cases writable
    · exact Or.inl rfl
    · exact Or.inl rfl

theorem removed_copied (h : Reach noFault s) : ∀ x ∈ s.removed, x.2 = true := by
  induction h with
  | init => simp [init]
  | step e _ hP hs ih =>
    rcases step_removed hs with hr | ⟨p, killed, dst, n, i, got, he, hp, hi, hne, hr⟩
    · rwa [hr]
    · rw [hr]
      intro x hx
      rcases List.mem_append.mp hx with hx | hx
      · exact ih x hx
      · rw [List.mem_singleton.mp hx]
        subst he
        have hlt : ¬ n ≤ (i : Int) := by omega
        simpa only [noFault, hp, hlt, hne, or_self, decide_false, Bool.or_false] using hP

/-- What the calls report as delivered is a prefix of what was stored, and the counters stay
    within PIPESIZE of each other. -/
theorem stream_prefix (h : Reach noFault s) :
    s.delivered <+: s.stored ∧ (s.nwrite + (W - s.nread)) % W ≤ PIPESIZE := by
  refine ⟨?_, (inv h).count_le⟩
  obtain ⟨q, -, hs⟩ := (inv h).ring
  have hall : s.removed.filter Prod.snd = s.removed := List.filter_eq_self.mpr (removed_copied h)
  have hout := (inv h).out
  rw [hall] at hout
  exact ⟨s.pending ++ q, by rw [← List.append_assoc, hout, hs]⟩

def runs (P : St → Ev → Bool) : List Ev → St → Option St
  | [], s => some s
  | e :: es, s => if P s e then (step s e).bind (runs P es) else none

theorem runs_reach {P : St → Ev → Bool} {es : List Ev} : ∀ {s s' : St}, Reach P s → runs P es s = some s' →
    Reach P s' := by
  induction es with
  | nil =>
    intro s s' h hr
    cases hr
    exact h
  | cons e es ih =>
    intro s s' h hr
    simp only [runs] at hr
    split at hr
    · rename_i hP
      obtain ⟨s1, h1, hr⟩ := Option.bind_eq_some_iff.mp hr
      exact ih (.step e h hP h1) hr
    · cases hr

def mappedRead : List Ev :=
  [.write 0 (fun i => some (97 + UInt8.ofNat i)) 2, .run 0 false, .run 0 false, .run 0 false, .run 0 false,
   .read 1 (fun _ => true) 1, .run 1 false, .run 1 false, .run 1 false, .run 1 false]

theorem stream_prefix_ab : ∃ s, Reach noFault s ∧ s.delivered = [97] ∧ s.stored = [97, 98] ∧ [97] <+: s.stored := by
  have hr : (runs noFault mappedRead init).map (fun s => (s.delivered, s.stored)) = some ([97], [97, 98]) := by decide
  obtain ⟨s, hs, hv⟩ := Option.map_eq_some_iff.mp hr
  injection hv with hd hst
  have h := runs_reach .init hs
  obtain ⟨hpre, -⟩ := stream_prefix h
  exact ⟨s, h, hd, hst, hd ▸ hpre⟩

/-- Process 0 writes "ab"; process 1 reads to a buffer that is not mapped and then to one
    that is. -/
def faultedRead : List Ev :=
  [.write 0 (fun i => some (97 + UInt8.ofNat i)) 2, .run 0 false, .run 0 false, .run 0 false, .run 0 false,
   .read 1 (fun _ => false) 2, .run 1 false, .run 1 false, .run 1 false,
   .read 1 (fun _ => true) 2, .run 1 false, .run 1 false, .run 1 false, .run 1 false]

/-- The first read returns 0 and the "a" is gone: the second delivers "b". -/
theorem a_fault_loses_a_byte :
    ¬ ∀ s, Reach (fun _ _ => true) s → s.delivered <+: s.stored ∧ (s.nwrite + (W - s.nread)) % W ≤ PIPESIZE := by
  intro h
  have hr : (runs (fun _ _ => true) faultedRead init).map (fun s => (s.delivered, s.stored)) = some
      ([98], [97, 98]) := by
    decide
  obtain ⟨s, hs, hv⟩ := Option.map_eq_some_iff.mp hr
  injection hv with hd hst
  have := (h s (runs_reach .init hs)).1
  rw [hd, hst] at this
  revert this
  decide

end Xv6.Ipc.Pipe
