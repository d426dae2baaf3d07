/-
  Xv6.Ipc.Waiters — who sleeps on a pipe, on one CPU.

  `Xv6.Ipc.Pipe` lets a sleeping process wake at any time. Here it wakes when kernel/pipe.c calls
  `wakeup` on its channel or kernel/proc.c's `kill` picks it, and not otherwise; the functions
  below are those of `pipewrite`, `piperead` and `pipeclose` that call `wakeup`, turn by turn. With
  one CPU nothing else runs between `acquire` and `release` or `sleep`: only the lock's holder
  takes turns, and nobody is killed meanwhile.

  Proved:
  - `step_refines`: a step here is one of `Xv6.Ipc.Pipe` after which some sleepers are awake, so
    what holds there of the stream of bytes holds here (`inv`).
  - `waiters_not_stranded`: while the lock is free, who sleeps on `&pi->nread` finds the pipe
    empty and open for writing, who sleeps on `&pi->nwrite` finds it full and open for reading.
    The exits of `pipewrite` and `piperead` that wake nobody have changed nothing since the lock
    was taken.
-/
import Xv6.Ipc.Pipe

namespace Xv6.Ipc.Waiters

open Pipe (Src Dst PSt St PIPESIZE W)

inductive Chan where
  | nread
  | nwrite

def woken : Chan → PSt → PSt
  | .nread, .rSleep dst n => .rWant dst n
  | .nwrite, .wSleep src n i => .wWant src n i
  | _, x => x

def wakeup (s : St) (c : Chan) : St := { s with procs := fun q => woken c (s.procs q) }

def writeTurn (s : St) (p : Nat) (killed : Bool) (src : Src) (n : Int) (i : Nat) : St :=
  if (i : Int) < n then
    if s.readopen = false ∨ killed then s.release p .idle
    else if s.nwrite = (s.nread + PIPESIZE) % W then (wakeup s .nread).release p (.wSleep src n i)
    else
      match src i with
      | none => (wakeup s .nread).release p .idle
      | some ch => (s.put ch).goto p (.wLoop src n (i + 1))
  else (wakeup s .nread).release p .idle

def copyTurn (s : St) (p : Nat) (dst : Dst) (n : Int) (i : Nat) (got : List UInt8) : St :=
  if (i : Int) < n then
    if s.nread = s.nwrite then (wakeup s .nwrite).finish p i got
    else if dst i then (s.take true).goto p (.rCopy dst n (i + 1) (got ++ [s.data (s.nread % PIPESIZE)]))
    else (wakeup (s.take false) .nwrite).finish p i got
  else (wakeup s .nwrite).finish p i got

def pipeclose (s : St) (writable : Bool) : St :=
  if writable then wakeup { s with writeopen := false } .nread else wakeup { s with readopen := false } .nwrite

structure Sys where
  pipe : St
  killed : Nat → Bool

inductive Ev where
  | write (p : Nat) (src : Src) (n : Int)
  | read (p : Nat) (dst : Dst) (n : Int)
  | run (p : Nat)
  | close (writable : Bool)
  | kill (p : Nat)
  /-- a process has exited and its slot is used again -/
  | renew (p : Nat)

def step (σ : Sys) : Ev → Option Sys
  | .write p src n =>
    match σ.pipe.procs p with
    | .idle => some { σ with pipe := σ.pipe.goto p (.wWant src n 0) }
    | _ => none
  | .read p dst n =>
    match σ.pipe.procs p with
    | .idle => some { σ with pipe := σ.pipe.goto p (.rWant dst n) }
    | _ => none
  | .run p =>
    match σ.pipe.procs p with
    | .wWant src n i => if σ.pipe.lock = none then some { σ with pipe := σ.pipe.acquire p (.wLoop src n i) } else none
    | .wLoop src n i => some { σ with pipe := writeTurn σ.pipe p (σ.killed p) src n i }
    | .rWant dst n => if σ.pipe.lock = none then some { σ with pipe := σ.pipe.acquire p (.rWait dst n) } else none
    | .rWait dst n => some { σ with pipe := Pipe.waitTurn σ.pipe p (σ.killed p) dst n }
    | .rCopy dst n i got => some { σ with pipe := copyTurn σ.pipe p dst n i got }
    | .idle | .wSleep _ _ _ | .rSleep _ _ => none
  | .close writable => if σ.pipe.lock = none then some { σ with pipe := pipeclose σ.pipe writable } else none
  | .kill p =>
    if σ.pipe.lock = none then
      some ⟨σ.pipe.goto p (woken .nread (woken .nwrite (σ.pipe.procs p))), upd σ.killed p true⟩
    else none
  | .renew p =>
    match σ.pipe.procs p with
    | .idle => some { σ with killed := upd σ.killed p false }
    | _ => none

inductive Reach : Sys → Prop
  | init : Reach ⟨Pipe.init, fun _ => false⟩
  | step {σ σ' : Sys} (e : Ev) : Reach σ → step σ e = some σ' → Reach σ'

variable {s s' t : St} {σ σ' : Sys} {p : Nat} {x : PSt} {c : Chan}
  {dst : Dst} {n : Int} {i : Nat} {got : List UInt8} {killed : Nat → Bool}

/-! ## Refinement -/

structure Woken (s s' : St) : Prop where
  same : s' = { s with procs := s'.procs }
  proc : ∀ q, s'.procs q = s.procs q ∨ ∃ c, s'.procs q = woken c (s.procs q)

theorem woken_holds : (woken c x).Holds ↔ x.Holds := by
  cases c <;> cases x <;> rfl

theorem woken_got : (woken c x).got = x.got := by
  cases c <;> cases x <;> rfl

theorem woken_rCopy : woken c x = .rCopy dst n i got ↔ x = .rCopy dst n i got := by
  cases c <;> cases x <;> simp [woken]

theorem Woken.refl (s : St) : Woken s s := ⟨rfl, fun _ => Or.inl rfl⟩

theorem Woken.wakeup (s : St) (c : Chan) : Woken s (wakeup s c) := ⟨rfl, fun _ => Or.inr ⟨c, rfl⟩⟩

/-- Waking the others before a process leaves, or after. -/
theorem Woken.release (h : Woken s s') (p : Nat) (x : PSt) : Woken (s.release p x) (s'.release p x) := by
  refine ⟨?_, fun q => ?_⟩
  · simp only [St.release, St.goto]
    rw [h.same]
  · simp only [St.release, St.goto]
    by_cases e : q = p
    · rw [e, upd_same, upd_same]
      exact Or.inl rfl
    · rw [upd_ne e, upd_ne e]
      exact h.proc q

theorem Woken.finish (h : Woken s s') (p i : Nat) (got : List UInt8) :
    Woken (s.finish p i got) (s'.finish p i got) := by
  obtain ⟨h1, h2⟩ := h.release p .idle
  refine ⟨?_, h2⟩
  simp only [St.finish]
  rw [h.same] at h1 ⊢
  simp only [St.release, St.goto]

theorem Woken.inv (h : Woken s s') (hi : Pipe.Inv s) : Pipe.Inv s' := by
  have hs := h.same
  have hholds : ∀ q, (s'.procs q).Holds ↔ (s.procs q).Holds := fun q => by
    rcases h.proc q with e | ⟨c, e⟩
    · rw [e]
    · rw [e, woken_holds]
  have hpend : s'.pending = s.pending := by
    have hl : s'.lock = s.lock := by rw [hs]
    simp only [St.pending, hl]
    split
    · rename_i q _
      rcases h.proc q with e | ⟨c, e⟩
      · rw [e]
      · rw [e, woken_got]
    · rfl
  refine ⟨fun q => ?_, fun q dst n i got hq => ?_, ?_, ?_⟩
  · rw [hholds q, hs]
    exact hi.locked q
  · rcases h.proc q with e | ⟨c, e⟩
    · exact hi.counted q dst n i got (e ▸ hq)
    · rw [e, woken_rCopy] at hq
      exact hi.counted q dst n i got hq
  · rw [hs]
    exact hi.ring
  · rw [hpend, hs]
    exact hi.out

theorem writeTurn_woken {killed : Bool} {src : Src} :
    Woken (Pipe.writeTurn s p killed src n i) (writeTurn s p killed src n i) := by
  simp only [Pipe.writeTurn, writeTurn]
  split
  · split
    · exact .refl _
    · split
      · exact (Woken.wakeup s .nread).release p _
      · cases src i with
        | none => exact (Woken.wakeup s .nread).release p _
        | some ch => exact .refl _
  · exact (Woken.wakeup s .nread).release p _

theorem copyTurn_woken : Woken (Pipe.copyTurn s p dst n i got) (copyTurn s p dst n i got) := by
  simp only [Pipe.copyTurn, copyTurn]
  split
  · split
    · exact (Woken.wakeup s .nwrite).finish p i got
    · split
      · exact .refl _
      · exact (Woken.wakeup _ .nwrite).finish p i got
  · exact (Woken.wakeup s .nwrite).finish p i got

theorem pipeclose_woken {writable : Bool} :
    Woken (if writable then { s with writeopen := false } else { s with readopen := false })
    (pipeclose s writable) := by
  simp only [pipeclose]
  split
  · exact .wakeup _ .nread
  · exact .wakeup _ .nwrite

theorem kill_woken : Woken s (s.goto p (woken .nread (woken .nwrite (s.procs p)))) := by
  refine ⟨rfl, fun q => ?_⟩
  simp only [St.goto]
  by_cases e : q = p
  · rw [e, upd_same]
    cases s.procs p with
    | wSleep src n i => exact Or.inr ⟨.nwrite, rfl⟩
    | rSleep dst n => exact Or.inr ⟨.nread, rfl⟩
    | _ => exact Or.inl rfl
  · rw [upd_ne e]
    exact Or.inl rfl

/-- A step is one of the pipe alone, or none, after which sleepers may be awake. -/
theorem step_refines {e : Ev} (h : step σ e = some σ') :
    Woken σ.pipe σ'.pipe ∨ ∃ e' t, Pipe.step σ.pipe e' = some t ∧ Woken t σ'.pipe := by
  cases e with
  | write p src n =>
    refine Or.inr ⟨.write p src n, σ'.pipe, ?_, .refl _⟩
    simp only [step] at h
    split at h <;> simp only [Option.some.injEq, reduceCtorEq] at h
    rename_i hp
    subst h
    simp only [Pipe.step, hp]
  | read p dst n =>
    refine Or.inr ⟨.read p dst n, σ'.pipe, ?_, .refl _⟩
    simp only [step] at h
    split at h <;> simp only [Option.some.injEq, reduceCtorEq] at h
    rename_i hp
    subst h
    simp only [Pipe.step, hp]
  | run p =>
    refine Or.inr ⟨.run p (σ.killed p), ?_⟩
    simp only [step] at h
    cases hp : σ.pipe.procs p <;> simp only [hp, reduceCtorEq] at h
    case wWant src n i =>
      split at h <;> simp only [Option.some.injEq, reduceCtorEq] at h
      rename_i hl
      subst h
      exact ⟨_, by simp only [Pipe.step, hp, hl, if_true], .refl _⟩
    case wLoop src n i =>
      cases h
      exact ⟨_, by simp only [Pipe.step, hp], writeTurn_woken⟩
    case rWant dst n =>
      split at h <;> simp only [Option.some.injEq, reduceCtorEq] at h
      rename_i hl
      subst h
      exact ⟨_, by simp only [Pipe.step, hp, hl, if_true], .refl _⟩
    case rWait dst n =>
      cases h
      exact ⟨_, by simp only [Pipe.step, hp], .refl _⟩
    case rCopy dst n i got =>
      cases h
      exact ⟨_, by simp only [Pipe.step, hp], copyTurn_woken⟩
  | close writable =>
    simp only [step] at h
    split at h <;> simp only [Option.some.injEq, reduceCtorEq] at h
    rename_i hl
    subst h
    exact Or.inr ⟨.close writable, _, by simp only [Pipe.step, hl, if_true], pipeclose_woken⟩
  | kill p =>
    simp only [step] at h
    split at h <;> simp only [Option.some.injEq, reduceCtorEq] at h
    subst h
    exact Or.inl kill_woken
  | renew p =>
    simp only [step] at h
    split at h <;> simp only [Option.some.injEq, reduceCtorEq] at h
    subst h
    exact Or.inl (.refl _)

theorem inv (h : Reach σ) : Pipe.Inv σ.pipe := by
  induction h with
  | init => exact Pipe.init_inv
  | step e _ hs ih =>
    rcases step_refines hs with hw | ⟨e', t, ht, hw⟩
    · exact hw.inv ih
    · exact hw.inv (Pipe.step_inv ih ht)

/-! ## Sleepers -/

def ReaderAsleep : PSt → Prop
  | .rSleep _ _ => True
  | _ => False

def WriterAsleep : PSt → Prop
  | .wSleep _ _ _ => True
  | _ => False

def ReadersOk (s : St) : Prop := (∃ q, ReaderAsleep (s.procs q)) → s.nread = s.nwrite ∧ s.writeopen = true

def WritersOk (s : St) : Prop := (∃ q, WriterAsleep (s.procs q)) → s.nwrite = (s.nread + PIPESIZE) % W ∧
  s.readopen = true

/-- What holds where the lock's holder is. Its next `wakeup` makes up for the rest. -/
def Holding (s : St) (killed : Bool) : PSt → Prop
  | .wLoop _ _ _ => WritersOk s ∧ (s.readopen = false ∨ killed = true → ReadersOk s)
  | .rCopy _ _ _ _ => ReadersOk s
  | _ => ReadersOk s ∧ WritersOk s

structure SleepOk (σ : Sys) : Prop where
  free : σ.pipe.lock = none → ReadersOk σ.pipe ∧ WritersOk σ.pipe
  held : ∀ p, σ.pipe.lock = some p → Holding σ.pipe (σ.killed p) (σ.pipe.procs p)

/-- Only `p` has moved, and it does not sleep on `&pi->nread` now. -/
theorem ReadersOk.goto (h : ReadersOk s) (hx : ¬ ReaderAsleep x) (hn : s'.nread = s.nread) (hw : s'.nwrite = s.nwrite)
    (ho : s'.writeopen = s.writeopen) (hp : s'.procs = upd s.procs p x) : ReadersOk s' := by
  rintro ⟨q, hq⟩
  rw [hp] at hq
  by_cases e : q = p
  · rw [e, upd_same] at hq
    exact absurd hq hx
  · rw [upd_ne e] at hq
    rw [hn, hw, ho]
    exact h ⟨q, hq⟩

theorem WritersOk.goto (h : WritersOk s) (hx : ¬ WriterAsleep x) (hn : s'.nread = s.nread) (hw : s'.nwrite = s.nwrite)
    (ho : s'.readopen = s.readopen) (hp : s'.procs = upd s.procs p x) : WritersOk s' := by
  rintro ⟨q, hq⟩
  rw [hp] at hq
  by_cases e : q = p
  · rw [e, upd_same] at hq
    exact absurd hq hx
  · rw [upd_ne e] at hq
    rw [hn, hw, ho]
    exact h ⟨q, hq⟩

theorem no_reader_woken : ¬ ReaderAsleep (woken .nread x) := by
  cases x <;> exact id

theorem no_writer_woken : ¬ WriterAsleep (woken .nwrite x) := by
  cases x <;> exact id

theorem writes_woken : WriterAsleep (woken .nread x) ↔ WriterAsleep x := by
  cases x <;> rfl

theorem reads_woken : ReaderAsleep (woken .nwrite x) ↔ ReaderAsleep x := by
  cases x <;> rfl

/-- After `wakeup(&pi->nread)` nobody sleeps there. -/
theorem readersOk_wakeup : ReadersOk (wakeup s .nread) := fun ⟨_, hq⟩ => absurd hq no_reader_woken

theorem writersOk_wakeup : WritersOk (wakeup s .nwrite) := fun ⟨_, hq⟩ => absurd hq no_writer_woken

theorem WritersOk.wakeup (h : WritersOk s) : WritersOk (wakeup s .nread) := fun ⟨q, hq⟩ => h ⟨q, writes_woken.mp hq⟩

theorem ReadersOk.wakeup (h : ReadersOk s) : ReadersOk (wakeup s .nwrite) := fun ⟨q, hq⟩ => h ⟨q, reads_woken.mp hq⟩

theorem SleepOk.of_free (hl : s.lock = none) (hr : ReadersOk s) (hw : WritersOk s) : SleepOk ⟨s, killed⟩ :=
  ⟨fun _ => ⟨hr, hw⟩, fun p hp => by
    have hp : s.lock = some p := hp
    rw [hl] at hp
    cases hp⟩

/-- The holder of the lock goes on. -/
theorem SleepOk.of_held (hl : s.lock = some p) (hh : Holding s (killed p) (s.procs p)) : SleepOk ⟨s, killed⟩ := by
  refine ⟨fun hn => ?_, fun q hq => ?_⟩
  · have hn : s.lock = none := hn
    rw [hl] at hn
    cases hn
  · have hq : s.lock = some q := hq
    rw [hl] at hq
    cases hq
    exact hh

theorem writeTurn_ok {src : Src} (hl : s.lock = some p)
    (h : Holding s (killed p) (.wLoop src n i)) : SleepOk ⟨writeTurn s p (killed p) src n i, killed⟩ := by
  obtain ⟨hw, hr⟩ := h
  -- the exits that call `wakeup(&pi->nread)` and return
  have hdone : SleepOk ⟨(wakeup s .nread).release p .idle, killed⟩ :=
    .of_free rfl ((readersOk_wakeup (s := s)).goto id rfl rfl rfl rfl) (hw.wakeup.goto id rfl rfl rfl rfl)
  simp only [writeTurn]
  split
  · split
    · rename_i hstop
      exact .of_free rfl ((hr hstop).goto id rfl rfl rfl rfl) (hw.goto id rfl rfl rfl rfl)
    · rename_i hgo
      rw [not_or, Bool.not_eq_false, Bool.not_eq_true] at hgo
      split
      · rename_i hfull
        exact .of_free rfl ((readersOk_wakeup (s := s)).goto id rfl rfl rfl rfl) fun _ => ⟨hfull, hgo.1⟩
      · rename_i hroom
        cases src i with
        | none => exact hdone
        | some ch =>
          refine .of_held hl ?_
          have hp : ((s.put ch).goto p (.wLoop src n (i + 1))).procs p = .wLoop src n (i + 1) := upd_same _ _ _
          rw [hp]
          refine ⟨fun ⟨q, hq⟩ => ?_, fun hstop => ?_⟩
          · by_cases e : q = p
            · rw [e, hp] at hq
              exact hq.elim
            · have hq : WriterAsleep (upd s.procs p (.wLoop src n (i + 1)) q) := hq
              rw [upd_ne e] at hq
              exact absurd (hw ⟨q, hq⟩).1 hroom
          · rcases hstop with h0 | h0
            · have h0 : s.readopen = false := h0
              rw [hgo.1] at h0
              cases h0
            · rw [hgo.2] at h0
              cases h0
  · exact hdone

theorem waitTurn_ok (hl : s.lock = some p) (h : ReadersOk s ∧ WritersOk s) :
    SleepOk ⟨Pipe.waitTurn s p (killed p) dst n, killed⟩ := by
  obtain ⟨hr, hw⟩ := h
  simp only [Pipe.waitTurn]
  split
  · rename_i hempty
    split
    · exact .of_free rfl (hr.goto id rfl rfl rfl rfl) (hw.goto id rfl rfl rfl rfl)
    · exact .of_free rfl (fun _ => hempty) (hw.goto id rfl rfl rfl rfl)
  · refine .of_held hl ?_
    rw [show (s.goto p (.rCopy dst n 0 [])).procs p = .rCopy dst n 0 [] from upd_same _ _ _]
    exact hr.goto id rfl rfl rfl rfl

theorem copyTurn_ok (hl : s.lock = some p) (hr : ReadersOk s) : SleepOk ⟨copyTurn s p dst n i got, killed⟩ := by
  have hdone : SleepOk ⟨(wakeup s .nwrite).finish p i got, killed⟩ :=
    .of_free rfl (hr.wakeup.goto id rfl rfl rfl rfl) ((writersOk_wakeup (s := s)).goto id rfl rfl rfl rfl)
  simp only [copyTurn]
  split
  · split
    · exact hdone
    · rename_i hsome
      -- there is a byte, so no reader sleeps
      have hnone : ∀ q, ¬ ReaderAsleep (s.procs q) := fun q hq => hsome (hr ⟨q, hq⟩).1
      have hr' : ∀ ok, ReadersOk (s.take ok) := fun ok ⟨q, hq⟩ => absurd hq (hnone q)
      split
      · refine .of_held hl ?_
        rw [show ((s.take true).goto p (.rCopy dst n (i + 1) (got ++ [s.data (s.nread % PIPESIZE)]))).procs p =
          .rCopy dst n (i + 1) (got ++ [s.data (s.nread % PIPESIZE)]) from upd_same _ _ _]
        exact (hr' true).goto id rfl rfl rfl rfl
      · exact .of_free rfl ((hr' false).wakeup.goto id rfl rfl rfl rfl)
          ((writersOk_wakeup (s := s.take false)).goto id rfl rfl rfl rfl)
  · exact hdone

/-- A process outside the lock that does not go to sleep. -/
theorem SleepOk.outside (h : SleepOk σ) (hi : Pipe.Inv σ.pipe) (hp : ¬ (σ.pipe.procs p).Holds)
    (hr : ¬ ReaderAsleep x) (hw : ¬ WriterAsleep x) (hk : ∀ q, q ≠ p → killed q = σ.killed q) :
    SleepOk ⟨σ.pipe.goto p x, killed⟩ := by
  have hread : ReadersOk σ.pipe → ReadersOk (σ.pipe.goto p x) := fun h => h.goto hr rfl rfl rfl rfl
  have hwrite : WritersOk σ.pipe → WritersOk (σ.pipe.goto p x) := fun h => h.goto hw rfl rfl rfl rfl
  refine ⟨fun hl => ⟨hread (h.free hl).1, hwrite (h.free hl).2⟩, fun q hq => ?_⟩
  have hne : q ≠ p := fun e => hp (e ▸ (hi.locked q).mpr hq)
  have hh := h.held q hq
  rw [show (σ.pipe.goto p x).procs q = σ.pipe.procs q from upd_ne hne _]
  show Holding _ (killed q) _
  rw [hk q hne]
  cases hq : σ.pipe.procs q <;> rw [hq] at hh
  case wLoop src n i => exact ⟨hwrite hh.1, fun h0 => hread (hh.2 h0)⟩
  case rCopy dst n i got => exact hread hh
  all_goals exact ⟨hread hh.1, hwrite hh.2⟩

theorem step_sleepOk {e : Ev} (h : SleepOk σ) (hi : Pipe.Inv σ.pipe) (hs : step σ e = some σ') : SleepOk σ' := by
  cases e with
  | write p src n | read p dst n =>
    simp only [step] at hs
    split at hs <;> simp only [Option.some.injEq, reduceCtorEq] at hs
    rename_i hp
    subst hs
    exact h.outside hi (by rw [hp]; exact id) id id fun _ _ => rfl
  | run p =>
    simp only [step] at hs
    cases hp : σ.pipe.procs p <;> simp only [hp, reduceCtorEq] at hs
    case wWant src n i =>
      split at hs <;> simp only [Option.some.injEq, reduceCtorEq] at hs
      rename_i hl
      subst hs
      obtain ⟨hr, hw⟩ := h.free hl
      refine .of_held (p := p) rfl ?_
      rw [show (σ.pipe.acquire p (.wLoop src n i)).procs p = .wLoop src n i from upd_same _ _ _]
      exact ⟨hw.goto id rfl rfl rfl rfl, fun _ => hr.goto id rfl rfl rfl rfl⟩
    case wLoop src n i =>
      have hl := (hi.locked p).mp (by rw [hp]; exact True.intro)
      have hh := h.held p hl
      rw [hp] at hh
      cases hs
      exact writeTurn_ok hl hh
    case rWant dst n =>
      split at hs <;> simp only [Option.some.injEq, reduceCtorEq] at hs
      rename_i hl
      subst hs
      obtain ⟨hr, hw⟩ := h.free hl
      refine .of_held (p := p) rfl ?_
      rw [show (σ.pipe.acquire p (.rWait dst n)).procs p = .rWait dst n from upd_same _ _ _]
      exact ⟨hr.goto id rfl rfl rfl rfl, hw.goto id rfl rfl rfl rfl⟩
    case rWait dst n =>
      have hl := (hi.locked p).mp (by rw [hp]; exact True.intro)
      have hh := h.held p hl
      rw [hp] at hh
      cases hs
      exact waitTurn_ok hl hh
    case rCopy dst n i got =>
      have hl := (hi.locked p).mp (by rw [hp]; exact True.intro)
      have hh := h.held p hl
      rw [hp] at hh
      cases hs
      exact copyTurn_ok hl hh
  | close writable =>
    simp only [step] at hs
    split at hs <;> simp only [Option.some.injEq, reduceCtorEq] at hs
    rename_i hl
    subst hs
    obtain ⟨hr, hw⟩ := h.free hl
    cases writable with
    | true => exact .of_free hl readersOk_wakeup (WritersOk.wakeup hw)
    | false => exact .of_free hl (ReadersOk.wakeup hr) writersOk_wakeup
  | kill p =>
    simp only [step] at hs
    split at hs <;> simp only [Option.some.injEq, reduceCtorEq] at hs
    rename_i hl
    subst hs
    refine h.outside hi (fun hh => ?_) (fun hx => ?_) (fun hx => ?_) fun q hq => upd_ne hq _
    · rw [(hi.locked p).mp hh] at hl
      cases hl
    · exact no_reader_woken hx
    · rw [writes_woken] at hx
      exact no_writer_woken hx
  | renew p =>
    simp only [step] at hs
    split at hs <;> simp only [Option.some.injEq, reduceCtorEq] at hs
    rename_i hp
    subst hs
    have : SleepOk ⟨σ.pipe.goto p .idle, upd σ.killed p false⟩ := h.outside hi (by rw [hp]; exact id) id id
      fun q hq => upd_ne hq _
    rwa [St.goto, ← hp, upd_self] at this

theorem sleepOk (h : Reach σ) : SleepOk σ := by
  induction h with
  | init => exact .of_free rfl (fun ⟨_, hq⟩ => hq.elim) fun ⟨_, hq⟩ => hq.elim
  | step e hr hs ih => exact step_sleepOk ih (inv hr) hs

/-- Whoever sleeps on a pipe whose lock is free has a reason to: it is empty, or full, and the other end is open. -/
theorem waiters_not_stranded (h : Reach σ) (hl : σ.pipe.lock = none) (p : Nat) :
    (∀ dst n, σ.pipe.procs p = .rSleep dst n → σ.pipe.nread = σ.pipe.nwrite ∧ σ.pipe.writeopen = true) ∧
      ∀ src n i, σ.pipe.procs p = .wSleep src n i → σ.pipe.nwrite = (σ.pipe.nread + PIPESIZE) % W ∧
      σ.pipe.readopen = true := by
  obtain ⟨hr, hw⟩ := (sleepOk h).free hl
  refine ⟨fun dst n hp => hr ⟨p, ?_⟩, fun src n i hp => hw ⟨p, ?_⟩⟩
  · rw [hp]; exact True.intro
  · rw [hp]; exact True.intro

/-- Process 0 reads from the empty pipe and sleeps. -/
theorem waiters_not_stranded_reader : ∃ σ, Reach σ ∧ (∃ dst n, σ.pipe.procs 0 = .rSleep dst n) ∧
    σ.pipe.nread = σ.pipe.nwrite := by
  have h1 : Reach _ := .step (.read 0 (fun _ => true) 1) .init rfl
  have h2 : Reach _ := .step (.run 0) h1 rfl
  have h3 : Reach _ := .step (.run 0) h2 rfl
  exact ⟨_, h3, ⟨_, _, rfl⟩, ((waiters_not_stranded h3 rfl 0).1 _ _ rfl).1⟩

end Xv6.Ipc.Waiters
