/-
  Xv6.Log.Group — group commit, kernel/log.c: `begin_op`, `log_write`, `end_op` and `commit` by
  any number of processes, with the locks and the sleeping of kernel/proc.c.

  `Xv6.Log.Reserve` takes a section under `log.lock` as one step and `commit` as another. Here
  the steps are finer: the lock is a variable; `sleep(&log, &log.lock)` takes `p->lock`, drops
  `log.lock`, marks itself SLEEPING and leaves the hart; `wakeup(&log)` goes over the process table,
  one `p->lock` at a time; `commit` runs block by block without the lock. What happens to a process
  under its own `p->lock` is one step; the lock is held from `drop` to `mark` and in `tidy`. `kill`
  can make a sleeper RUNNABLE at any time.

  `log`, what the source does not keep: the blocks `log_write`n since the last commit and since boot,
  what the running commit has written so far, the commits done, and how many `end_op`s have left
  nobody behind and so have to commit.

  Proved, for any constants and any number of processes (`group_commit`): `outstanding` counts the
  operations; nothing is logged during a commit; each commit writes what was logged since the one
  before, and none is left out; and nobody sleeps who could be admitted. `commit_in_one`: what a commit
  writes here, block by block, is what `Log.commit` writes in one go.
-/
import Xv6.Log.Crash
import Xv6.Lib.Table

namespace Xv6.Log.Group

inductive Phase where
  | check
  | writeLog (tail : Nat)
  | writeHead
  | install (tail : Nat)
  | clear
  | erase
  | done
  deriving DecidableEq, Repr

inductive Pc where
  | out
  /-- at the top of the loop of `begin_op`, with `log.lock` -/
  | test
  /-- in `sleep`: about to take `p->lock`; to drop `log.lock`; to go to sleep -/
  | nap
  | drop
  | mark
  | asleep
  /-- back in `sleep`, with `p->lock`; about to take `log.lock` again -/
  | tidy
  | again
  | inOp
  /-- in `log_write`, `end_op`, `wakeup`, with `log.lock` -/
  | write (b : Nat)
  | leave
  | wake (q : Nat)
  | commit (ph : Phase)
  /-- back from `commit`, with `log.lock` -/
  | reopen
  deriving DecidableEq, Repr

def Pc.holds : Pc → Bool
  | .test | .nap | .drop | .write _ | .leave | .wake _ | .reopen => true
  | _ => false

def Pc.ownLock : Pc → Bool
  | .drop | .mark | .tidy => true
  | _ => false

def Pc.inside : Pc → Bool
  | .inOp | .write _ | .leave => true
  | _ => false

def Pc.commits : Pc → Bool
  | .commit _ | .reopen => true
  | _ => false

inductive Fault where
  | log (p : Panic)
  /-- panic("log.committing") -/
  | committing
  deriving DecidableEq, Repr

structure Consts where
  nproc : Nat
  maxop : Nat
  logsize : Nat
  nlog : Nat

/-- The home block numbers of what a commit has copied to the log, put in the header, installed. -/
structure Writes where
  copied : List Nat
  header : List Nat
  installed : List Nat
  deriving DecidableEq, Repr

def Writes.none : Writes := ⟨[], [], []⟩

structure Record where
  since : List Nat
  current : Writes
  commits : List (Writes × List Nat)
  logged : List Nat
  /-- the `end_op`s that found `outstanding` 0 -/
  ended : Nat

structure St where
  pc : Nat → Pc
  /-- `p->state == SLEEPING && p->chan == &log` -/
  sleeping : Nat → Bool
  lock : Option Nat
  lh : List Nat
  outstanding : Nat
  committing : Bool
  panic : Option Fault
  log : Record

def init : St := ⟨fun _ => .out, fun _ => false, none, [], 0, false, none, ⟨[], .none, [], [], 0⟩⟩

def St.goto (s : St) (p : Nat) (x : Pc) : St := { s with pc := upd s.pc p x }

def St.acquire (s : St) (p : Nat) (x : Pc) : Option St :=
  if s.lock = none then some { s.goto p x with lock := some p } else none

def St.release (s : St) (p : Nat) (x : Pc) : St := { s.goto p x with lock := none }

def St.copy (s : St) (b : Nat) : St :=
  { s with log.current.copied := s.log.current.copied ++ [b] }

def St.installs (s : St) (b : Nat) : St :=
  { s with log.current.installed := s.log.current.installed ++ [b] }

def St.record (s : St) : St :=
  { s with log.since := [], log.current := .none, log.commits := s.log.commits ++ [(s.log.current, s.log.since)] }

def runCommit (s : St) (p : Nat) : Phase → Option St
  | .check => some (s.goto p (.commit (if s.lh.length > 0 then .writeLog 0 else .done)))
  | .writeLog tail =>
    match s.lh[tail]? with
    | some b => some ((s.copy b).goto p (.commit (.writeLog (tail + 1))))
    | none => some (s.goto p (.commit .writeHead))
  | .writeHead => some ({ s with log.current.header := s.lh }.goto p (.commit (.install 0)))
  | .install tail =>
    match s.lh[tail]? with
    | some b => some ((s.installs b).goto p (.commit (.install (tail + 1))))
    | none => some (s.goto p (.commit .clear))
  | .clear => some ({ s with lh := [] }.goto p (.commit .erase))
  | .erase => some (s.goto p (.commit .done))
  | .done => (s.acquire p .reopen).map St.record

inductive Ev where
  | beginOp (p : Nat)
  | logWrite (p b : Nat)
  | endOp (p : Nat)
  /-- the next step of `p` in the function it is in -/
  | run (p : Nat)
  | kill (p : Nat)
  deriving DecidableEq, Repr

variable (C : Consts)

def St.blocked (s : St) : Bool := s.committing || C.logsize < s.lh.length + (s.outstanding + 1) * C.maxop

def run (s : St) (p : Nat) : Option St :=
  match s.pc p with
  | .out | .inOp => none
  | .test =>
    if s.blocked C then some (s.goto p .nap)
    else some ({ s with outstanding := s.outstanding + 1 }.release p .inOp)
  | .nap => some (s.goto p .drop)
  | .drop => some (s.release p .mark)
  | .mark => some ({ s with sleeping := upd s.sleeping p true }.goto p .asleep)
  | .asleep => if s.sleeping p then none else some (s.goto p .tidy)
  | .tidy => some (s.goto p .again)
  | .again => s.acquire p .test
  | .write b =>
    if C.logsize ≤ s.lh.length ∨ C.nlog - 1 ≤ s.lh.length then some { s with panic := some (.log .tooBig) }
    else if s.outstanding < 1 then some { s with panic := some (.log .outsideTrans) }
    else some ({ s with
      lh := absorb s.lh b, log.since := s.log.since ++ [b], log.logged := s.log.logged ++ [b] }.release p .inOp)
  | .leave =>
    let s := { s with outstanding := s.outstanding - 1 }
    if s.committing then some { s with panic := some .committing }
    else if s.outstanding = 0 then
      some ({ s with committing := true, log.ended := s.log.ended + 1 }.release p (.commit .check))
    else some (s.goto p (.wake 0))
  | .wake q =>
    if q < C.nproc then
      if q = p then some (s.goto p (.wake (q + 1)))
      else if (s.pc q).ownLock then none
      else some ({ s with sleeping := upd s.sleeping q false }.goto p (.wake (q + 1)))
    else some (s.release p .out)
  | .commit ph => runCommit s p ph
  | .reopen => some ({ s with committing := false }.goto p (.wake 0))

def step (s : St) : Ev → Option St
  | .beginOp p => if p < C.nproc ∧ s.pc p = .out then s.acquire p .test else none
  | .logWrite p b => if s.pc p = .inOp then s.acquire p (.write b) else none
  | .endOp p => if s.pc p = .inOp then s.acquire p .leave else none
  | .run p => run C s p
  | .kill p => if (s.pc p).ownLock then none else some { s with sleeping := upd s.sleeping p false }

inductive Reach : St → Prop
  | init : Reach init
  | step {s s' : St} (e : Ev) : Reach s → s.panic = none → step C s e = some s' → Reach s'

/-- How many processes are between `begin_op` and `end_op`. -/
def St.count (s : St) : Nat := ∑ p ∈ Finset.range C.nproc, (s.pc p).inside.toNat

def exec (s : St) : List Ev → Option St
  | [] => some s
  | e :: es => if s.panic = none then (step C s e).bind (exec · es) else none

variable {C} {s s' : St} {p q : Nat} {x : Pc}

theorem exec_reach {es : List Ev} (h : Reach C s) (he : exec C s es = some s') : Reach C s' := by
  induction es generalizing s with
  | nil =>
    cases he
    exact h
  | cons e es ih =>
    unfold exec at he
    split at he
    case isTrue hp =>
      obtain ⟨s1, h1, h2⟩ := Option.bind_eq_some_iff.mp he
      exact ih (h.step e hp h1) h2
    case isFalse => cases he

/-! ## Who holds the lock, who is inside, who commits -/

structure Control (C : Consts) (s : St) : Prop where
  lt : ∀ p, s.pc p ≠ .out → p < C.nproc
  lock : ∀ p, (s.pc p).holds = true ↔ s.lock = some p
  count : s.outstanding = s.count C
  committer : s.committing = true ↔ ∃ p, (s.pc p).commits = true
  one : ∀ p q, (s.pc p).commits = true → (s.pc q).commits = true → p = q
  quiet : s.committing = true → s.outstanding = 0
  fault : s.panic ≠ some .committing ∧ s.panic ≠ some (.log .outsideTrans)

structure Shift (s s' : St) (p : Nat) (x : Pc) : Prop where
  pc : s'.pc = upd s.pc p x
  lock : (x.holds = (s.pc p).holds ∧ s'.lock = s.lock) ∨ (x.holds = true ∧ s.lock = none ∧ s'.lock = some p) ∨
    (x.holds = false ∧ s.lock = some p ∧ s'.lock = none)
  count : s'.outstanding + (s.pc p).inside.toNat = s.outstanding + x.inside.toNat
  commits : (x.commits = (s.pc p).commits ∧ s'.committing = s.committing) ∨
    (x.commits = true ∧ s.committing = false ∧ s'.committing = true) ∨
    (x.commits = false ∧ (s.pc p).commits = true ∧ s'.committing = false)
  quiet : s'.committing = true → s'.outstanding = 0
  panic : s'.panic = s.panic

namespace Control

theorem count_shift (hp : p < C.nproc) (h : s'.pc = upd s.pc p x) :
    s'.count C + (s.pc p).inside.toNat = s.count C + x.inside.toNat := by
  have := sum_range_change hp (f := fun q => (s.pc q).inside.toNat) (g := fun q => (s'.pc q).inside.toNat)
    fun q hq => by simp only [h, upd_ne hq]
  simpa [St.count, h] using this

/-- A process inside an operation is counted. -/
theorem counted (h : Control C s) (hx : (s.pc p).inside = true) : 0 < s.outstanding := by
  have hne : s.pc p ≠ .out := fun e => by
    rw [e] at hx
    cases hx
  have hout : (s.goto p .out).pc = upd s.pc p .out := rfl
  have := count_shift (h.lt p hne) hout
  rw [hx, ← h.count] at this
  simp [Pc.inside] at this
  omega

theorem open_of_inside (h : Control C s) (hx : (s.pc p).inside = true) : s.committing = false := by
  by_contra hc
  have := h.quiet (by simpa using hc)
  have := h.counted hx
  omega

theorem holder (h : Control C s) (hx : (s.pc p).holds = true) : s.lock = some p := (h.lock p).mp hx

theorem shift (h : Control C s) (hp : p < C.nproc) (hs : Shift s s' p x) : Control C s' := by
  have hpc : ∀ q, q ≠ p → s'.pc q = s.pc q := fun q hq => by rw [hs.pc, upd_ne hq]
  have hpp : s'.pc p = x := by rw [hs.pc, upd_same]
  refine ⟨fun q hq => ?_, fun q => ?_, ?_, ?_, fun q r hq hr => ?_, hs.quiet, hs.panic ▸ h.fault⟩
  · by_cases e : q = p
    · exact e ▸ hp
    · exact h.lt q (hpc q e ▸ hq)
  · have hlp := h.lock p
    have hlq := h.lock q
    by_cases e : q = p
    · subst e
      rw [hpp]
      rcases hs.lock with ⟨h1, h2⟩ | ⟨h1, h2, h3⟩ | ⟨h1, h2, h3⟩
      · rw [h1, h2, hlp]
      · simp [h1, h3]
      · simp [h1, h3]
    · rw [hpc q e, hlq]
      rcases hs.lock with ⟨h1, h2⟩ | ⟨h1, h2, h3⟩ | ⟨h1, h2, h3⟩
      · rw [h2]
      · simp [h2, h3, Ne.symm e]
      · simp [h2, h3, Ne.symm e]
  · have h1 := count_shift hp hs.pc
    have h2 := hs.count
    have h3 := h.count
    omega
  · constructor
    · intro hc
      rcases hs.commits with ⟨h1, h2⟩ | ⟨h1, -⟩ | ⟨-, -, h3⟩
      · obtain ⟨q, hq⟩ := h.committer.mp (h2 ▸ hc)
        by_cases e : q = p
        · exact ⟨p, by rw [hpp, h1, ← e]; exact hq⟩
        · exact ⟨q, by rw [hpc q e]; exact hq⟩
      · exact ⟨p, by rw [hpp]; exact h1⟩
      · rw [h3] at hc
        cases hc
    · rintro ⟨q, hq⟩
      by_cases e : q = p
      · subst e
        rw [hpp] at hq
        rcases hs.commits with ⟨h1, h2⟩ | ⟨-, -, h3⟩ | ⟨h1, -⟩
        · exact h2 ▸ h.committer.mpr ⟨q, h1 ▸ hq⟩
        · exact h3
        · rw [h1] at hq
          cases hq
      · rw [hpc q e] at hq
        rcases hs.commits with ⟨-, h2⟩ | ⟨-, -, h3⟩ | ⟨-, h2, -⟩
        · exact h2 ▸ h.committer.mpr ⟨q, hq⟩
        · exact h3
        · exact absurd (h.one q p hq h2) e
  · -- two committers: one of them is `p`, and was not one before
    by_cases eq : q = p <;> by_cases er : r = p
    · rw [eq, er]
    · subst eq
      rw [hpp] at hq
      rw [hpc r er] at hr
      rcases hs.commits with ⟨h1, -⟩ | ⟨-, h2, -⟩ | ⟨h1, -⟩
      · exact h.one q r (h1 ▸ hq) hr
      · rw [h.committer.mpr ⟨r, hr⟩] at h2
        cases h2
      · rw [h1] at hq
        cases hq
    · subst er
      rw [hpp] at hr
      rw [hpc q eq] at hq
      rcases hs.commits with ⟨h1, -⟩ | ⟨-, h2, -⟩ | ⟨h1, -⟩
      · exact h.one q r hq (h1 ▸ hr)
      · rw [h.committer.mpr ⟨q, hq⟩] at h2
        cases h2
      · rw [h1] at hr
        cases hr
    · rw [hpc q eq] at hq
      rw [hpc r er] at hr
      exact h.one q r hq hr

/-- A step that leaves lock, counter and flag alone. -/
theorem stay (h : Control C s) (hp : p < C.nproc) (hpc : s'.pc = upd s.pc p x) (hh : x.holds = (s.pc p).holds)
    (hi : x.inside = (s.pc p).inside) (hm : x.commits = (s.pc p).commits) (hl : s'.lock = s.lock)
    (ho : s'.outstanding = s.outstanding) (hcm : s'.committing = s.committing) (hf : s'.panic = s.panic) :
      Control C s' :=
  h.shift hp ⟨hpc, Or.inl ⟨hh, hl⟩, by rw [ho, hi], Or.inl ⟨hm, hcm⟩, fun e => ho.trans (h.quiet (hcm ▸ e)), hf⟩

/-- `release(&log.lock)`, and nothing else. -/
theorem unlock (h : Control C s) (hp : p < C.nproc) (hpc : s'.pc = upd s.pc p x) (hold : (s.pc p).holds = true)
    (hh : x.holds = false) (hi : x.inside = (s.pc p).inside) (hm : x.commits = (s.pc p).commits) (hl : s'.lock = none)
    (ho : s'.outstanding = s.outstanding) (hcm : s'.committing = s.committing) (hf : s'.panic = s.panic) :
      Control C s' :=
  h.shift hp ⟨hpc, Or.inr (Or.inr ⟨hh, h.holder hold, hl⟩), by rw [ho, hi], Or.inl ⟨hm, hcm⟩,
    fun e => ho.trans (h.quiet (hcm ▸ e)), hf⟩

end Control

/-! ## What a commit writes -/

def absorbs (bs : List Nat) : List Nat := bs.foldl absorb []

theorem absorbs_append (bs : List Nat) (b : Nat) : absorbs (bs ++ [b]) = absorb (absorbs bs) b := by
  simp [absorbs]

theorem mem_absorbs {bs : List Nat} {b : Nat} : b ∈ absorbs bs ↔ b ∈ bs := by
  induction bs using List.reverseRecOn with
  | nil => exact Iff.rfl
  | append_singleton bs c ih => rw [absorbs_append, mem_absorb, ih, List.mem_append, List.mem_singleton, or_comm]

/-- It copied, listed and installed exactly the blocks logged. -/
def Exact (w : Writes) (since : List Nat) : Prop :=
  ∀ b, (b ∈ w.copied ↔ b ∈ since) ∧ (b ∈ w.header ↔ b ∈ since) ∧ (b ∈ w.installed ↔ b ∈ since)

def Whole (w : Writes) (since : List Nat) : Prop := w = ⟨absorbs since, absorbs since, absorbs since⟩

theorem Whole.exact {w : Writes} {since : List Nat} (h : Whole w since) : Exact w since := by
  rw [show w = _ from h]
  exact fun b => ⟨mem_absorbs, mem_absorbs, mem_absorbs⟩

def PhaseOk (lh : List Nat) (r : Record) : Phase → Prop
  | .check => r.current = .none ∧ lh = absorbs r.since
  | .writeLog tail => r.current = ⟨lh.take tail, [], []⟩ ∧ lh = absorbs r.since
  | .writeHead => r.current = ⟨lh, [], []⟩ ∧ lh = absorbs r.since
  | .install tail => r.current = ⟨lh, lh, lh.take tail⟩ ∧ lh = absorbs r.since
  | .clear => r.current = ⟨lh, lh, lh⟩ ∧ lh = absorbs r.since
  | .erase | .done => lh = [] ∧ Whole r.current r.since

structure Book (s : St) : Prop where
  past : ∀ c ∈ s.log.commits, Whole c.1 c.2
  all : (s.log.commits.map Prod.snd).flatten ++ s.log.since = s.log.logged
  idle : s.committing = false →
    s.log.current = .none ∧ s.lh = absorbs s.log.since ∧ s.log.ended = s.log.commits.length
  phase : ∀ p ph, s.pc p = .commit ph → PhaseOk s.lh s.log ph ∧ s.log.ended = s.log.commits.length + 1
  reopen : ∀ p, s.pc p = .reopen →
    s.lh = [] ∧ s.log.current = .none ∧ s.log.since = [] ∧ s.log.ended = s.log.commits.length
  quiet : s.committing = false → s.outstanding = 0 → s.lh = []

namespace Book

/-- A step outside `commit` that logs nothing. -/
theorem same (h : Book s) (hpc : s'.pc = upd s.pc p x) (hx : x.commits = false) (hlh : s'.lh = s.lh)
    (hlog : s'.log = s.log) (hc : s'.committing = s.committing) (ho : s'.outstanding = 0 → s.outstanding = 0) :
    Book s' := by
  have hq : ∀ q, (s'.pc q).commits = true → s'.pc q = s.pc q := by
    intro q hq
    by_cases e : q = p
    · rw [e, hpc, upd_same, hx] at hq
      cases hq
    · rw [hpc, upd_ne e]
  refine ⟨hlog ▸ h.past, hlog ▸ h.all, fun hi => ?_, fun q ph he => ?_, fun q he => ?_, fun hi h0 => ?_⟩
  · rw [hlh, hlog]
    exact h.idle (hc ▸ hi)
  · rw [hlh, hlog]
    exact h.phase q ph ((hq q (by rw [he]; rfl)) ▸ he)
  · rw [hlh, hlog]
    exact h.reopen q ((hq q (by rw [he]; rfl)) ▸ he)
  · rw [hlh]
    exact h.quiet (hc ▸ hi) (ho h0)

/-- A step of the committer from one phase to another. -/
theorem advance {ph ph' : Phase} (h : Book s) (hc : Control C s) (hp : s.pc p = .commit ph)
    (hpc : s'.pc = upd s.pc p (.commit ph')) (hcm : s'.committing = s.committing)
    (hlog : s'.log = { s.log with current := s'.log.current })
    (hph : PhaseOk s.lh s.log ph → PhaseOk s'.lh s'.log ph') : Book s' := by
  have hcom : (s.pc p).commits = true := by rw [hp]; rfl
  have hon : s.committing = true := hc.committer.mpr ⟨p, hcom⟩
  have hoff : s'.committing = false → False := fun hi => by
    rw [hcm, hon] at hi
    cases hi
  have hq : ∀ q, (s'.pc q).commits = true → q = p := by
    intro q hq
    by_contra e
    rw [hpc, upd_ne e] at hq
    exact e (hc.one q p hq hcom)
  refine ⟨by rw [hlog]; exact h.past, by rw [hlog]; exact h.all, fun hi => (hoff hi).elim, fun q ph1 he => ?_,
    fun q he => ?_, fun hi => (hoff hi).elim⟩
  · obtain rfl := hq q (by rw [he]; rfl)
    rw [hpc, upd_same] at he
    cases he
    obtain ⟨h1, h2⟩ := h.phase q ph hp
    exact ⟨hph h1, by rw [hlog]; exact h2⟩
  · obtain rfl := hq q (by rw [he]; rfl)
    rw [hpc, upd_same] at he
    cases he

end Book

/-! ## Nobody sleeps who could be admitted -/

structure Waiting (C : Consts) (s : St) : Prop where
  about : ∀ p, s.pc p = .nap ∨ s.pc p = .drop → s.blocked C = true
  /-- there is reason to sleep, or a `wakeup` is on its way -/
  wait : ∀ p, s.pc p = .mark ∨ (s.pc p = .asleep ∧ s.sleeping p = true) →
    s.blocked C = true ∨ ∃ w q, s.pc w = .wake q ∧ q ≤ p
  slept : ∀ p, s.sleeping p = true → s.pc p = .asleep

/-- A step of `p` to `x`: for `p` itself, and for the others. -/
theorem Waiting.shift (h : Waiting C s) (hc : Control C s) (hpc : s'.pc = upd s.pc p x)
    (hself : x = .nap ∨ x = .drop → s'.blocked C = true)
    (hwait : x = .mark ∨ (x = .asleep ∧ s'.sleeping p = true) →
      s'.blocked C = true ∨ ∃ w q, w ≠ p ∧ s.pc w = .wake q ∧ q ≤ p)
    (hslept : s'.sleeping p = true → x = .asleep) (hsl : ∀ q, q ≠ p → s'.sleeping q = true → s.sleeping q = true)
    (hb : s.blocked C = true → s'.blocked C = true ∨ x = .wake 0 ∧ (s.pc p).holds = true)
    (hwaker : ∀ q, s.pc p = .wake q → ∀ r, r ≠ p → q ≤ r → s.pc r = .mark ∨ (s.pc r = .asleep ∧ s'.sleeping r = true) →
      s'.blocked C = true ∨ ∃ k, x = .wake k ∧ k ≤ r) : Waiting C s' := by
  have hpp : s'.pc p = x := by rw [hpc, upd_same]
  have hqq : ∀ q, q ≠ p → s'.pc q = s.pc q := fun q e => by rw [hpc, upd_ne e]
  refine ⟨fun q hq => ?_, fun q hq => ?_, fun q hq => ?_⟩
  · by_cases e : q = p
    · exact hself (hpp ▸ e ▸ hq)
    · rw [hqq q e] at hq
      rcases hb (h.about q hq) with hb | ⟨-, hl⟩
      · exact hb
      · -- both hold the lock
        have hlq : (s.pc q).holds = true := by rcases hq with hq | hq <;> rw [hq] <;> rfl
        have := (hc.holder hlq).symm.trans (hc.holder hl)
        exact absurd (Option.some.inj this) e
  · by_cases e : q = p
    · subst e
      rw [hpp] at hq
      rcases hwait hq with hb | ⟨w, k, hw, h1, h2⟩
      · exact Or.inl hb
      · exact Or.inr ⟨w, k, (hqq w hw).trans h1, h2⟩
    · rw [hqq q e] at hq
      have hq0 : s.pc q = .mark ∨ (s.pc q = .asleep ∧ s.sleeping q = true) :=
        hq.imp id fun hq => ⟨hq.1, hsl q e hq.2⟩
      rcases h.wait q hq0 with hbl | ⟨w, k, h1, h2⟩
      · rcases hb hbl with hb | ⟨hx, -⟩
        · exact Or.inl hb
        · exact Or.inr ⟨p, 0, hpp.trans hx, Nat.zero_le _⟩
      · by_cases ew : w = p
        · subst ew
          rcases hwaker k h1 q e h2 hq with hb | ⟨j, hx, hj⟩
          · exact Or.inl hb
          · exact Or.inr ⟨w, j, hpp.trans hx, hj⟩
        · exact Or.inr ⟨w, k, (hqq w ew).trans h1, h2⟩
  · by_cases e : q = p
    · subst e
      rw [hpp]
      exact hslept hq
    · rw [hqq q e]
      exact h.slept q (hsl q e hq)

/-- A step that changes nothing sleepers look at, between places outside `sleep` and `wakeup`. -/
theorem Waiting.plain (h : Waiting C s) (hc : Control C s) (hpc : s'.pc = upd s.pc p x)
    (hx : x ≠ .nap ∧ x ≠ .drop ∧ x ≠ .mark ∧ x ≠ .asleep) (hsl : s'.sleeping = s.sleeping) (hp : s.pc p ≠ .asleep)
    (hb : s.blocked C = true → s'.blocked C = true ∨ x = .wake 0 ∧ (s.pc p).holds = true)
    (hw : ∀ q, s.pc p ≠ .wake q) : Waiting C s' := by
  refine h.shift hc hpc (fun e => ?_) (fun e => ?_) (fun e => ?_) (fun q _ e => hsl ▸ e) hb fun q e => absurd e (hw q)
  · rcases e with e | e
    · exact absurd e hx.1
    · exact absurd e hx.2.1
  · rcases e with e | e
    · exact absurd e hx.2.2.1
    · exact absurd e.1 hx.2.2.2
  · exact absurd (h.slept p (hsl ▸ e)) hp

/-! ## Every step -/

structure Inv (C : Consts) (s : St) : Prop where
  control : Control C s
  book : Book s
  waiting : Waiting C s

theorem acquire_eq (h : s.acquire p x = some s') : s.lock = none ∧ s' = { s.goto p x with lock := some p } := by
  unfold St.acquire at h
  split at h
  · exact ⟨‹_›, (Option.some.inj h).symm⟩
  · cases h

/-- `acquire(&log.lock)` on the way into a function. -/
theorem acquire_inv (h : Inv C s) (hp : p < C.nproc) (ha : s.acquire p x = some s')
    (hh : x.holds = true) (hi : x.inside = (s.pc p).inside) (hc : x.commits = (s.pc p).commits) (hx : x.commits = false)
    (hn : x ≠ .nap ∧ x ≠ .drop ∧ x ≠ .mark ∧ x ≠ .asleep) (hs : s.pc p ≠ .asleep) (hw : ∀ q, s.pc p ≠ .wake q) :
    Inv C s' := by
  obtain ⟨hl, rfl⟩ := acquire_eq ha
  refine ⟨h.control.shift hp ⟨rfl, Or.inr (Or.inl ⟨hh, hl, rfl⟩), ?_, Or.inl ⟨hc, rfl⟩, h.control.quiet, rfl⟩,
    h.book.same rfl hx rfl rfl rfl id, h.waiting.plain h.control rfl hn rfl hs Or.inl hw⟩
  rw [hi]
  rfl

theorem runCommit_inv {ph : Phase} (h : Inv C s) (hp : s.pc p = .commit ph) (hr : runCommit s p ph = some s') :
    Inv C s' := by
  obtain ⟨hc, hk, hw⟩ := h
  have hlt : p < C.nproc := hc.lt p (by rw [hp]; nofun)
  have hon : s.committing = true := hc.committer.mpr ⟨p, by rw [hp]; rfl⟩
  -- within `commit` neither the lock nor the counts change
  have hshift : ∀ {s1 : St} {ph'}, s1.pc = upd s.pc p (.commit ph') → s1.lock = s.lock →
      s1.outstanding = s.outstanding → s1.committing = s.committing → s1.panic = s.panic → Control C s1 := fun h1 =>
    hc.stay hlt h1 (by rw [hp]; rfl) (by rw [hp]; rfl) (by rw [hp]; rfl)
  have hwait : ∀ {s1 : St} {ph'}, s1.pc = upd s.pc p (.commit ph') → s1.committing = s.committing →
      s1.sleeping = s.sleeping → Waiting C s1 := fun h1 h2 h3 =>
    hw.plain hc h1 ⟨nofun, nofun, nofun, nofun⟩ h3 (by rw [hp]; nofun)
      (fun _ => Or.inl (by simp [St.blocked, h2, hon])) (by rw [hp]; nofun)
  cases ph with
  | check =>
    cases hr
    refine ⟨hshift rfl rfl rfl rfl rfl, hk.advance hc hp rfl rfl rfl fun hok => ?_, hwait rfl rfl rfl⟩
    split
    · exact ⟨hok.1, hok.2⟩
    · rename_i hlen
      have hnil : s.lh = [] := by simpa using hlen
      refine ⟨hnil, ?_⟩
      show Whole s.log.current s.log.since
      rw [Whole, hok.1, ← hok.2, hnil]
      rfl
  | writeLog tail =>
    cases hb : s.lh[tail]? with
    | some b =>
      simp only [runCommit, hb] at hr
      cases hr
      refine ⟨hshift rfl rfl rfl rfl rfl, hk.advance hc hp rfl rfl rfl fun hok => ⟨?_, hok.2⟩, hwait rfl rfl rfl⟩
      show { s.log.current with copied := s.log.current.copied ++ [b] } = (⟨s.lh.take (tail + 1), [], []⟩ : Writes)
      rw [hok.1, List.take_add_one, hb]
      rfl
    | none =>
      simp only [runCommit, hb] at hr
      cases hr
      refine ⟨hshift rfl rfl rfl rfl rfl, hk.advance hc hp rfl rfl rfl fun hok => ⟨?_, hok.2⟩, hwait rfl rfl rfl⟩
      have hle : s.lh.length ≤ tail := List.getElem?_eq_none_iff.mp hb
      have := hok.1
      rw [List.take_of_length_le hle] at this
      exact this
  | writeHead =>
    cases hr
    refine ⟨hshift rfl rfl rfl rfl rfl, hk.advance hc hp rfl rfl rfl fun hok => ⟨?_, hok.2⟩, hwait rfl rfl rfl⟩
    show { s.log.current with header := s.lh } = _
    rw [hok.1]
    rfl
  | install tail =>
    cases hb : s.lh[tail]? with
    | some b =>
      simp only [runCommit, hb] at hr
      cases hr
      refine ⟨hshift rfl rfl rfl rfl rfl, hk.advance hc hp rfl rfl rfl fun hok => ⟨?_, hok.2⟩, hwait rfl rfl rfl⟩
      show { s.log.current with installed := s.log.current.installed ++ [b] } = ⟨s.lh, s.lh, s.lh.take (tail + 1)⟩
      rw [hok.1, List.take_add_one, hb]
      rfl
    | none =>
      simp only [runCommit, hb] at hr
      cases hr
      refine ⟨hshift rfl rfl rfl rfl rfl, hk.advance hc hp rfl rfl rfl fun hok => ⟨?_, hok.2⟩, hwait rfl rfl rfl⟩
      have hle : s.lh.length ≤ tail := List.getElem?_eq_none_iff.mp hb
      have := hok.1
      rw [List.take_of_length_le hle] at this
      exact this
  | clear =>
    cases hr
    refine ⟨hshift rfl rfl rfl rfl rfl, hk.advance hc hp rfl rfl rfl fun hok => ⟨rfl, ?_⟩, hwait rfl rfl rfl⟩
    show Whole s.log.current s.log.since
    rw [Whole, hok.1, ← hok.2]
  | erase =>
    cases hr
    exact ⟨hshift rfl rfl rfl rfl rfl, hk.advance hc hp rfl rfl rfl id, hwait rfl rfl rfl⟩
  | done =>
    obtain ⟨s1, ha, rfl⟩ := Option.map_eq_some_iff.mp hr
    obtain ⟨hl, rfl⟩ := acquire_eq ha
    obtain ⟨⟨hnil, hex⟩, hend⟩ : (s.lh = [] ∧ Whole s.log.current s.log.since) ∧ _ := hk.phase p _ hp
    have hoff : s.committing = false → False := fun hi => by
      rw [hon] at hi
      cases hi
    refine ⟨hc.shift hlt ⟨rfl, Or.inr (Or.inl ⟨rfl, hl, rfl⟩), by rw [hp]; rfl, Or.inl ⟨by rw [hp]; rfl, rfl⟩,
      hc.quiet, rfl⟩, ⟨fun c hm => ?_, ?_, fun hi => (hoff hi).elim, fun q ph he => ?_,
        fun q he => ⟨hnil, rfl, rfl, hend.trans (by simp [St.record, St.goto])⟩, fun hi => (hoff hi).elim⟩,
      hw.plain hc rfl ⟨nofun, nofun, nofun, nofun⟩ rfl (by rw [hp]; nofun) Or.inl (by rw [hp]; nofun)⟩
    · rcases List.mem_append.mp hm with hm | hm
      · exact hk.past c hm
      · rw [List.mem_singleton.mp hm]
        exact hex
    · simpa [St.record, St.goto] using hk.all
    · -- the only committer is at `reopen` now
      have he : upd s.pc p .reopen q = .commit ph := he
      by_cases e : q = p
      · rw [e, upd_same] at he
        cases he
      · rw [upd_ne e] at he
        exact absurd (hc.one q p (by rw [he]; rfl) (by rw [hp]; rfl)) e

/-- Where a process is not asleep, it is not SLEEPING. -/
theorem Waiting.awake (h : Waiting C s) (hp : s.pc p ≠ .asleep) : s.sleeping p = true → x = .asleep := fun e =>
  absurd (h.slept p e) hp

theorem test_inv (h : Inv C s) (hp : p < C.nproc) (hpc : s.pc p = .test) (hr : run C s p = some s') : Inv C s' := by
  obtain ⟨hc, hk, hw⟩ := h
  simp only [run, hpc] at hr
  split at hr
  case isTrue hb =>
    cases hr
    exact ⟨hc.stay hp rfl (by rw [hpc]; rfl) (by rw [hpc]; rfl) (by rw [hpc]; rfl) rfl rfl rfl rfl,
      hk.same rfl rfl rfl rfl rfl id,
      hw.shift hc rfl (fun _ => hb) nofun (hw.awake (by rw [hpc]; nofun)) (fun q _ e => e) Or.inl (by rw [hpc]; nofun)⟩
  case isFalse hb =>
    have hoff : s.committing = false := by
      simp only [St.blocked, Bool.or_eq_true, not_or, Bool.not_eq_true] at hb
      exact hb.1
    cases hr
    refine ⟨hc.shift hp ⟨rfl, Or.inr (Or.inr ⟨rfl, hc.holder (by rw [hpc]; rfl), rfl⟩), by rw [hpc]; rfl,
      Or.inl ⟨by rw [hpc]; rfl, rfl⟩, fun e => ?_, rfl⟩, hk.same rfl rfl rfl rfl rfl nofun,
      hw.plain hc rfl ⟨nofun, nofun, nofun, nofun⟩ rfl (by rw [hpc]; nofun) (fun e => Or.inl ?_) (by rw [hpc]; nofun)⟩
    · have : s.committing = true := e
      rw [hoff] at this
      cases this
    · simp only [St.blocked, Bool.or_eq_true, decide_eq_true_eq] at e ⊢
      refine e.imp id fun e => Nat.lt_of_lt_of_le e (Nat.add_le_add_left (Nat.mul_le_mul_right _ ?_) _)
      exact Nat.le_succ _

/-- `sleep(&log, &log.lock)`, up to the process being off the hart. -/
theorem sleep_inv (h : Inv C s) (hp : p < C.nproc) (hpc : s.pc p = .nap ∨ s.pc p = .drop ∨ s.pc p = .mark)
    (hr : run C s p = some s') : Inv C s' := by
  obtain ⟨hc, hk, hw⟩ := h
  rcases hpc with hpc | hpc | hpc
  · simp only [run, hpc] at hr
    cases hr
    exact ⟨hc.stay hp rfl (by rw [hpc]; rfl) (by rw [hpc]; rfl) (by rw [hpc]; rfl) rfl rfl rfl rfl,
      hk.same rfl rfl rfl rfl rfl id,
      hw.shift hc rfl (fun _ => hw.about p (Or.inl hpc)) nofun (hw.awake (by rw [hpc]; nofun)) (fun q _ e => e) Or.inl
        (by rw [hpc]; nofun)⟩
  · simp only [run, hpc] at hr
    cases hr
    exact ⟨hc.unlock hp rfl (by rw [hpc]; rfl) rfl (by rw [hpc]; rfl) (by rw [hpc]; rfl) rfl rfl rfl rfl,
      hk.same rfl rfl rfl rfl rfl id,
      hw.shift hc rfl nofun (fun _ => Or.inl (hw.about p (Or.inr hpc))) (hw.awake (by rw [hpc]; nofun)) (fun q _ e => e)
        Or.inl (by rw [hpc]; nofun)⟩
  · simp only [run, hpc] at hr
    cases hr
    refine ⟨hc.stay hp rfl (by rw [hpc]; rfl) (by rw [hpc]; rfl) (by rw [hpc]; rfl) rfl rfl rfl rfl,
      hk.same rfl rfl rfl rfl rfl id,
      hw.shift hc rfl nofun (fun _ => ?_) (fun _ => rfl) (fun q e hq => (upd_ne e _).symm.trans hq) Or.inl
        (by rw [hpc]; nofun)⟩
    rcases hw.wait p (Or.inl hpc) with hb | ⟨w, q, h1, h2⟩
    · exact Or.inl hb
    · refine Or.inr ⟨w, q, ?_, h1, h2⟩
      rintro rfl
      rw [hpc] at h1
      cases h1

/-- The process is on a hart again. -/
theorem resume_inv (h : Inv C s) (hp : p < C.nproc) (hpc : s.pc p = .asleep ∨ s.pc p = .tidy ∨ s.pc p = .again)
    (hr : run C s p = some s') : Inv C s' := by
  obtain ⟨hc, hk, hw⟩ := h
  rcases hpc with hpc | hpc | hpc
  · simp only [run, hpc] at hr
    split at hr
    case isTrue => cases hr
    case isFalse hs =>
      cases hr
      exact ⟨hc.stay hp rfl (by rw [hpc]; rfl) (by rw [hpc]; rfl) (by rw [hpc]; rfl) rfl rfl rfl rfl,
        hk.same rfl rfl rfl rfl rfl id,
        hw.shift hc rfl nofun nofun (fun e => absurd e hs) (fun q _ e => e) Or.inl (by rw [hpc]; nofun)⟩
  · simp only [run, hpc] at hr
    cases hr
    exact ⟨hc.stay hp rfl (by rw [hpc]; rfl) (by rw [hpc]; rfl) (by rw [hpc]; rfl) rfl rfl rfl rfl,
      hk.same rfl rfl rfl rfl rfl id,
      hw.plain hc rfl ⟨nofun, nofun, nofun, nofun⟩ rfl (by rw [hpc]; nofun) Or.inl (by rw [hpc]; nofun)⟩
  · simp only [run, hpc] at hr
    exact acquire_inv ⟨hc, hk, hw⟩ hp hr rfl (by rw [hpc]; rfl) (by rw [hpc]; rfl) rfl
      ⟨nofun, nofun, nofun, nofun⟩ (by rw [hpc]; nofun) (by rw [hpc]; nofun)

/-- While an operation is open nobody commits. -/
theorem Control.nobody (h : Control C s) (hoff : s.committing = false) (q : Nat) : (s.pc q).commits = false := by
  by_contra hq
  rw [h.committer.mpr ⟨q, by simpa using hq⟩] at hoff
  cases hoff

/-- `log_write` records the block. -/
theorem Book.logs {b : Nat} (h : Book s) (hc : Control C s) (hoff : s.committing = false) (hx : x.commits = false)
    (hpc : s'.pc = upd s.pc p x) (hlh : s'.lh = absorb s.lh b) (ho : s'.outstanding ≠ 0)
    (hlog : s'.log = { s.log with since := s.log.since ++ [b], logged := s.log.logged ++ [b] }) : Book s' := by
  obtain ⟨h1, h2, h3⟩ := h.idle hoff
  have hno : ∀ q, (s'.pc q).commits = false := by
    rw [hpc]
    exact forall_upd (P := fun _ (y : Pc) => y.commits = false) (fun q _ => hc.nobody hoff q) hx
  refine ⟨by rw [hlog]; exact h.past, ?_, fun _ => ⟨by rw [hlog]; exact h1, ?_, by rw [hlog]; exact h3⟩,
    fun q ph he => ?_, fun q he => ?_, fun _ h0 => absurd h0 ho⟩
  · rw [hlog, ← h.all, List.append_assoc]
  · rw [hlh, hlog, absorbs_append, h2]
  · have := hno q
    rw [he] at this
    cases this
  · have := hno q
    rw [he] at this
    cases this

theorem length_le_absorb (lh : List Nat) (b : Nat) : lh.length ≤ (absorb lh b).length := by
  unfold absorb
  split
  · exact Nat.le_refl _
  · simp

theorem write_inv {b : Nat} (h : Inv C s) (hp : p < C.nproc) (hpc : s.pc p = .write b) (hr : run C s p = some s') :
    Inv C s' := by
  obtain ⟨hc, hk, hw⟩ := h
  have hin : (s.pc p).inside = true := by rw [hpc]; rfl
  have hpos := hc.counted hin
  simp only [run, hpc] at hr
  split at hr
  case isTrue =>
    cases hr
    exact ⟨⟨hc.lt, hc.lock, hc.count, hc.committer, hc.one, hc.quiet, nofun, nofun⟩,
      ⟨hk.past, hk.all, hk.idle, hk.phase, hk.reopen, hk.quiet⟩, ⟨hw.about, hw.wait, hw.slept⟩⟩
  case isFalse =>
    rw [if_neg (by omega)] at hr
    cases hr
    refine ⟨hc.unlock hp rfl (by rw [hpc]; rfl) rfl (by rw [hpc]; rfl) (by rw [hpc]; rfl) rfl rfl rfl rfl,
      hk.logs hc (hc.open_of_inside hin) rfl rfl rfl hpos.ne' rfl,
      hw.plain hc rfl ⟨nofun, nofun, nofun, nofun⟩ rfl (by rw [hpc]; nofun) (fun e => Or.inl ?_) (by rw [hpc]; nofun)⟩
    simp only [St.blocked, Bool.or_eq_true, decide_eq_true_eq] at e ⊢
    exact e.imp id fun e => Nat.lt_of_lt_of_le e (Nat.add_le_add_right (length_le_absorb _ _) _)

theorem leave_inv (h : Inv C s) (hp : p < C.nproc) (hpc : s.pc p = .leave) (hr : run C s p = some s') : Inv C s' := by
  obtain ⟨hc, hk, hw⟩ := h
  have hin : (s.pc p).inside = true := by rw [hpc]; rfl
  have hpos := hc.counted hin
  have hoff := hc.open_of_inside hin
  have hcount : s.outstanding - 1 + (s.pc p).inside.toNat = s.outstanding + 0 := by
    rw [hin]
    show s.outstanding - 1 + 1 = s.outstanding + 0
    omega
  simp only [run, hpc] at hr
  rw [if_neg (by rw [hoff]; nofun)] at hr
  split at hr
  case isTrue h0 =>
    -- the last one out commits
    cases hr
    refine ⟨hc.shift hp ⟨rfl, Or.inr (Or.inr ⟨rfl, hc.holder (by rw [hpc]; rfl), rfl⟩), hcount,
        Or.inr (Or.inl ⟨rfl, hoff, rfl⟩), fun _ => h0, rfl⟩, ⟨hk.past, hk.all, nofun, fun q ph he => ?_,
        fun q he => ?_, nofun⟩,
      hw.plain hc rfl ⟨nofun, nofun, nofun, nofun⟩ rfl (by rw [hpc]; nofun) (fun _ => Or.inl rfl) (by rw [hpc]; nofun)⟩
    · have he : upd s.pc p (.commit .check) q = .commit ph := he
      by_cases e : q = p
      · rw [e, upd_same] at he
        cases he
        obtain ⟨h1, h2, h3⟩ := hk.idle hoff
        exact ⟨⟨h1, h2⟩, congrArg (· + 1) h3⟩
      · have := hc.nobody hoff q
        rw [upd_ne e] at he
        rw [he] at this
        cases this
    · have he : upd s.pc p (.commit .check) q = .reopen := he
      by_cases e : q = p
      · rw [e, upd_same] at he
        cases he
      · have := hc.nobody hoff q
        rw [upd_ne e] at he
        rw [he] at this
        cases this
  case isFalse h0 =>
    cases hr
    refine ⟨hc.shift hp ⟨rfl, Or.inl ⟨by rw [hpc]; rfl, rfl⟩, hcount, Or.inl ⟨by rw [hpc]; rfl, rfl⟩, fun e => ?_, rfl⟩,
      hk.same rfl rfl rfl rfl rfl fun e => absurd e h0,
      hw.plain hc rfl ⟨nofun, nofun, nofun, nofun⟩ rfl (by rw [hpc]; nofun) (fun _ => Or.inr ⟨rfl, by rw [hpc]; rfl⟩)
        (by rw [hpc]; nofun)⟩
    have : s.committing = true := e
    rw [hoff] at this
    cases this

/-- One turn of `wakeup`'s loop; after the last, `release(&log.lock)`. -/
theorem wake_inv (h : Inv C s) (hp : p < C.nproc) (hpc : s.pc p = .wake q) (hr : run C s p = some s') : Inv C s' := by
  obtain ⟨hc, hk, hw⟩ := h
  have hawake : s.pc p ≠ .asleep := by rw [hpc]; nofun
  have hturn : ∀ {s1 : St}, s1.pc = upd s.pc p (.wake (q + 1)) → s1.lock = s.lock → s1.outstanding = s.outstanding →
      s1.committing = s.committing → s1.panic = s.panic → Control C s1 := fun h1 =>
    hc.stay hp h1 (by rw [hpc]; rfl) (by rw [hpc]; rfl) (by rw [hpc]; rfl)
  simp only [run, hpc] at hr
  split at hr
  case isTrue hq =>
    split at hr
    case isTrue e =>
      cases hr
      refine ⟨hturn rfl rfl rfl rfl rfl, hk.same rfl rfl rfl rfl rfl id,
        hw.shift hc rfl nofun nofun (hw.awake hawake) (fun q _ e => e) Or.inl fun k hk' r hr hle _ =>
          Or.inr ⟨q + 1, rfl, ?_⟩⟩
      rw [hpc] at hk'
      cases hk'
      omega
    case isFalse e =>
      split at hr
      case isTrue => cases hr
      case isFalse hown =>
        cases hr
        refine ⟨hturn rfl rfl rfl rfl rfl, hk.same rfl rfl rfl rfl rfl id,
          hw.shift hc rfl nofun nofun (fun hs => ?_) (fun r _ hs => ?_) Or.inl fun k hk' r hr hle hm => ?_⟩
        · have hs : upd s.sleeping q false p = true := hs
          rw [upd_ne (Ne.symm e)] at hs
          exact absurd (hw.slept p hs) hawake
        · have hs : upd s.sleeping q false r = true := hs
          by_cases er : r = q
          · rw [er, upd_same] at hs
            cases hs
          · rwa [upd_ne er] at hs
        · -- the process at `q` is awake, and not on its way to sleep with its own lock
          rw [hpc] at hk'
          cases hk'
          by_cases er : r = q
          · subst er
            rcases hm with hm | ⟨-, hm⟩
            · rw [hm] at hown
              exact absurd rfl hown
            · have hm : upd s.sleeping r false r = true := hm
              rw [upd_same] at hm
              cases hm
          · exact Or.inr ⟨q + 1, rfl, by omega⟩
  case isFalse hq =>
    cases hr
    refine ⟨hc.unlock hp rfl (by rw [hpc]; rfl) rfl (by rw [hpc]; rfl) (by rw [hpc]; rfl) rfl rfl rfl rfl,
      hk.same rfl rfl rfl rfl rfl id,
      hw.shift hc rfl nofun nofun (hw.awake hawake) (fun q _ e => e) Or.inl fun k hk' r hr hle hm => ?_⟩
    rw [hpc] at hk'
    cases hk'
    have : r < C.nproc := hc.lt r (by rcases hm with hm | ⟨hm, -⟩ <;> rw [hm] <;> nofun)
    omega

theorem reopen_inv (h : Inv C s) (hp : p < C.nproc) (hpc : s.pc p = .reopen) (hr : run C s p = some s') : Inv C s' := by
  obtain ⟨hc, hk, hw⟩ := h
  simp only [run, hpc] at hr
  cases hr
  have hcom : (s.pc p).commits = true := by rw [hpc]; rfl
  obtain ⟨h1, h2, h3, h4⟩ := hk.reopen p hpc
  refine ⟨hc.shift hp ⟨rfl, Or.inl ⟨by rw [hpc]; rfl, rfl⟩, by rw [hpc]; rfl, Or.inr (Or.inr ⟨rfl, hcom, rfl⟩),
    nofun, rfl⟩, ⟨hk.past, hk.all, fun _ => ⟨h2, ?_, h4⟩, fun q ph he => ?_, fun q he => ⟨h1, h2, h3, h4⟩,
    fun _ _ => h1⟩, hw.plain hc rfl ⟨nofun, nofun, nofun, nofun⟩ rfl (by rw [hpc]; nofun)
      (fun _ => Or.inr ⟨rfl, by rw [hpc]; rfl⟩) (by rw [hpc]; nofun)⟩
  · show s.lh = absorbs s.log.since
    rw [h1, h3]
    rfl
  · have he : upd s.pc p (.wake 0) q = .commit ph := he
    by_cases e : q = p
    · rw [e, upd_same] at he
      cases he
    · rw [upd_ne e] at he
      exact absurd (hc.one q p (by rw [he]; rfl) hcom) e

theorem run_inv (h : Inv C s) (hr : run C s p = some s') : Inv C s' := by
  have hp : s.pc p ≠ .out → p < C.nproc := h.control.lt p
  cases hpc : s.pc p with
  | out | inOp =>
    simp only [run, hpc] at hr
    cases hr
  | test => exact test_inv h (hp (by rw [hpc]; nofun)) hpc hr
  | nap => exact sleep_inv h (hp (by rw [hpc]; nofun)) (Or.inl hpc) hr
  | drop => exact sleep_inv h (hp (by rw [hpc]; nofun)) (Or.inr (Or.inl hpc)) hr
  | mark => exact sleep_inv h (hp (by rw [hpc]; nofun)) (Or.inr (Or.inr hpc)) hr
  | asleep => exact resume_inv h (hp (by rw [hpc]; nofun)) (Or.inl hpc) hr
  | tidy => exact resume_inv h (hp (by rw [hpc]; nofun)) (Or.inr (Or.inl hpc)) hr
  | again => exact resume_inv h (hp (by rw [hpc]; nofun)) (Or.inr (Or.inr hpc)) hr
  | write b => exact write_inv h (hp (by rw [hpc]; nofun)) hpc hr
  | leave => exact leave_inv h (hp (by rw [hpc]; nofun)) hpc hr
  | wake q => exact wake_inv h (hp (by rw [hpc]; nofun)) hpc hr
  | commit ph =>
    simp only [run, hpc] at hr
    exact runCommit_inv h hpc hr
  | reopen => exact reopen_inv h (hp (by rw [hpc]; nofun)) hpc hr

theorem kill_inv (h : Inv C s) : Inv C { s with sleeping := upd s.sleeping p false } := by
  obtain ⟨hc, hk, hw⟩ := h
  have hsl : ∀ q, upd s.sleeping p false q = true → s.sleeping q = true := by
    intro q hq
    by_cases e : q = p
    · rw [e, upd_same] at hq
      cases hq
    · rwa [upd_ne e] at hq
  exact ⟨⟨hc.lt, hc.lock, hc.count, hc.committer, hc.one, hc.quiet, hc.fault⟩,
    ⟨hk.past, hk.all, hk.idle, hk.phase, hk.reopen, hk.quiet⟩,
    ⟨hw.about, fun q hq => hw.wait q (hq.imp id fun hq => ⟨hq.1, hsl q hq.2⟩), fun q hq => hw.slept q (hsl q hq)⟩⟩

theorem step_inv {e : Ev} (h : Inv C s) (hs : step C s e = some s') : Inv C s' := by
  cases e with
  | beginOp p =>
    simp only [step] at hs
    split at hs
    case isTrue hp =>
      exact acquire_inv h hp.1 hs rfl (by rw [hp.2]; rfl) (by rw [hp.2]; rfl) rfl ⟨nofun, nofun, nofun, nofun⟩
        (by rw [hp.2]; nofun) (by rw [hp.2]; nofun)
    case isFalse => cases hs
  | logWrite p b | endOp p =>
    simp only [step] at hs
    split at hs
    case isTrue hp =>
      exact acquire_inv h (h.control.lt p (by rw [hp]; nofun)) hs rfl (by rw [hp]; rfl) (by rw [hp]; rfl) rfl
        ⟨nofun, nofun, nofun, nofun⟩ (by rw [hp]; nofun) (by rw [hp]; nofun)
    case isFalse => cases hs
  | run p => exact run_inv h hs
  | kill p =>
    simp only [step] at hs
    split at hs
    case isTrue => cases hs
    case isFalse =>
      cases hs
      exact kill_inv h

theorem init_inv : Inv C init where
  control :=
    ⟨fun _ h => absurd rfl h,
    fun p => by simp [init, Pc.holds], by simp [init, St.count, Pc.inside], by simp [init, Pc.commits],
    nofun, nofun, nofun, nofun⟩
  book := ⟨nofun, rfl, fun _ => ⟨rfl, rfl, rfl⟩, nofun, nofun, fun _ _ => rfl⟩
  waiting := by
    refine ⟨fun p h => ?_, fun p h => ?_, nofun⟩
    · rcases h with h | h <;> cases h
    · rcases h with h | ⟨h, -⟩ <;> cases h

theorem inv (h : Reach C s) : Inv C s := by
  induction h with
  | init => exact init_inv
  | step e _ _ hs ih => exact step_inv ih hs

/-- With the lock free no `wakeup` is under way. -/
theorem Inv.sleeper (h : Inv C s) (hl : s.lock = none) (hs : s.sleeping p = true) : s.blocked C = true := by
  rcases h.waiting.wait p (Or.inr ⟨h.waiting.slept p hs, hs⟩) with hb | ⟨w, q, hw, -⟩
  · exact hb
  · have := h.control.holder (p := w) (by rw [hw]; rfl)
    rw [hl] at this
    cases this

/-! ## A commit comes to its end -/

def left (lh : List Nat) : Phase → Nat
  | .check => 2 * lh.length + 7
  | .writeLog tail => (lh.length - tail) + lh.length + 6
  | .writeHead => lh.length + 5
  | .install tail => (lh.length - tail) + 4
  | .clear => 3
  | .erase => 2
  | .done => 1

theorem commit_turn {ph : Phase} (hp : s.pc p = .commit ph) (hne : ph ≠ .done) :
    ∃ s' ph', run C s p = some s' ∧ s'.pc p = .commit ph' ∧ s'.lock = s.lock ∧ s'.panic = s.panic ∧
      s'.log = { s.log with current := s'.log.current } ∧ left s'.lh ph' < left s.lh ph := by
  have hrun : run C s p = runCommit s p ph := by simp only [run, hp]
  rw [hrun]
  cases ph with
  | check =>
    refine ⟨_, _, rfl, upd_same _ _ _, rfl, rfl, rfl, ?_⟩
    show left s.lh _ < _
    split <;> simp only [left] <;> omega
  | writeLog tail | install tail =>
    cases hb : s.lh[tail]? with
    | some b =>
      have hlt : tail < s.lh.length := (List.getElem?_eq_some_iff.mp hb).1
      simp only [runCommit, hb]
      refine ⟨_, _, rfl, upd_same _ _ _, rfl, rfl, rfl, ?_⟩
      show left s.lh _ < _
      simp only [left]
      omega
    | none =>
      simp only [runCommit, hb]
      refine ⟨_, _, rfl, upd_same _ _ _, rfl, rfl, rfl, ?_⟩
      show left s.lh _ < _
      simp only [left]
      omega
  | writeHead =>
    refine ⟨_, _, rfl, upd_same _ _ _, rfl, rfl, rfl, ?_⟩
    show left s.lh _ < _
    simp [left]
  | clear | erase => exact ⟨_, _, rfl, upd_same _ _ _, rfl, rfl, rfl, by simp [left]⟩
  | done => exact absurd rfl hne

/-- With the lock free the committer, left alone, comes back from `commit` with its record. -/
theorem commit_ends {ph : Phase} (hf : s.panic = none) (hl : s.lock = none) (hp : s.pc p = .commit ph) :
    ∃ n s' w, exec C s (List.replicate n (.run p)) = some s' ∧ s'.pc p = .reopen ∧
      s'.log.commits = s.log.commits ++ [(w, s.log.since)] := by
  generalize hm : left s.lh ph = m
  induction m using Nat.strongRecOn generalizing s ph with
  | ind m ih =>
  by_cases hd : ph = .done
  · subst hd
    refine ⟨1, ({ s.goto p .reopen with lock := some p } : St).record, s.log.current, ?_, upd_same _ _ _, rfl⟩
    simp [exec, step, run, hp, runCommit, St.acquire, hf, hl]
  · obtain ⟨s1, ph1, hr, hp1, hl1, hf1, hlog, hlt⟩ := commit_turn (C := C) hp hd
    obtain ⟨n, s2, w, he, hp2, hc⟩ := ih _ (hm ▸ hlt) (hf1.trans hf) (hl1.trans hl) hp1 rfl
    refine ⟨n + 1, s2, w, ?_, hp2, ?_⟩
    · rw [List.replicate_succ, exec, if_pos hf, step, hr]
      exact he
    · rw [hlog] at hc
      exact hc

/-- `outstanding` counts the operations; during a commit there is none, and so no `log_write`; "log.committing" is
    unreachable; every commit copied, listed and installed exactly the blocks logged since the one before; every
    `end_op` that found `outstanding` 0 has its commit recorded, with the header empty, before `committing` is
    cleared, and nothing logged is in no commit's share; a commit under way comes to that record; and with
    `log.lock` free nobody sleeps on `&log` who could be admitted. -/
theorem group_commit (h : Reach C s) :
    s.outstanding = s.count C ∧
    (s.committing = true → s.outstanding = 0 ∧ ∀ p, (s.pc p).inside = false) ∧
    s.panic ≠ some .committing ∧
    (∀ c ∈ s.log.commits, Exact c.1 c.2) ∧
    (s.log.commits.map Prod.snd).flatten ++ s.log.since = s.log.logged ∧
    (s.committing = false → s.log.commits.length = s.log.ended ∧ ∀ b, b ∈ s.lh ↔ b ∈ s.log.since) ∧
    (∀ p, s.pc p = .reopen → s.log.commits.length = s.log.ended ∧ s.lh = [] ∧ s.log.since = []) ∧
    (∀ p ph, s.pc p = .commit ph → s.log.commits.length + 1 = s.log.ended ∧ (s.panic = none → s.lock = none →
      ∃ n s' w, exec C s (List.replicate n (.run p)) = some s' ∧ s'.pc p = .reopen ∧ s'.lh = [] ∧
        s'.log.commits = s.log.commits ++ [(w, s.log.since)] ∧ Exact w s.log.since)) ∧
    (s.lock = none → ∀ p, s.sleeping p = true →
      s.committing = true ∨ C.logsize < s.lh.length + (s.outstanding + 1) * C.maxop) := by
  have hi := inv h
  refine ⟨hi.control.count, fun hc => ⟨hi.control.quiet hc, fun p => ?_⟩, hi.control.fault.1, fun c hc =>
    (hi.book.past c hc).exact, hi.book.all, fun hc => ?_, fun p hp => ?_, fun p ph hp => ?_, fun hl p hs => ?_⟩
  · by_contra hp
    have := hi.control.open_of_inside (p := p) (by simpa using hp)
    rw [hc] at this
    cases this
  · obtain ⟨-, h2, h3⟩ := hi.book.idle hc
    exact ⟨h3.symm, fun b => by rw [h2, mem_absorbs]⟩
  · obtain ⟨h1, -, h3, h4⟩ := hi.book.reopen p hp
    exact ⟨h4.symm, h1, h3⟩
  · refine ⟨(hi.book.phase p ph hp).2.symm, fun hf hl => ?_⟩
    obtain ⟨n, s', w, he, hp', hc⟩ := commit_ends (C := C) hf hl hp
    have hb := (inv (exec_reach h he)).book
    exact ⟨n, s', w, he, hp', (hb.reopen p hp').1, hc, (hb.past (w, _) (by rw [hc]; simp)).exact⟩
  · have hb := hi.sleeper hl hs
    simpa [St.blocked] using hb

/-- Two processes; the second waits for the first one's commit of block 7, and is woken by it. -/
def waiting : List Ev :=
  [.beginOp 0, .run 0, .beginOp 1, .run 1, .run 1, .run 1, .run 1, .logWrite 0 7, .run 0, .endOp 0, .run 0,
    .run 0, .run 0, .run 0, .run 0, .run 0, .run 0, .run 0, .run 0]

/-- In the middle of the first commit, and when the second process, admitted after it, has logged two blocks and
    committed them. -/
theorem group_commit_waiting :
    (∃ s, Reach ⟨2, 16, 16, 16⟩ s ∧ s.sleeping 1 = true ∧ s.lock = none ∧ s.committing = true ∧ s.outstanding = 0) ∧
    ∃ s, Reach ⟨2, 16, 16, 16⟩ s ∧ s.committing = false ∧ s.log.ended = 2 ∧
      s.log.commits = [(⟨[7], [7], [7]⟩, [7]), (⟨[7, 9], [7, 9], [7, 9]⟩, [7, 9, 7])] ∧
      s.log.logged = [7, 7, 9, 7] := by
  have hr : (exec ⟨2, 16, 16, 16⟩ init waiting).map (fun s => (s.sleeping 1, s.lock, s.committing)) =
      some (true, none, true) := by decide +kernel
  have hr2 : (exec ⟨2, 16, 16, 16⟩ init (waiting ++ List.replicate 5 (.run 0) ++ List.replicate 4 (.run 1) ++
      [.logWrite 1 7, .run 1, .logWrite 1 9, .run 1, .logWrite 1 7, .run 1, .endOp 1] ++ List.replicate 16
        (.run 1))).map (fun s => (s.committing, s.log.since, s.log.commits)) =
      some (false, [], [(⟨[7], [7], [7]⟩, [7]), (⟨[7, 9], [7, 9], [7, 9]⟩, [7, 9, 7])]) := by decide +kernel
  obtain ⟨s, hs, hv⟩ := Option.map_eq_some_iff.mp hr
  obtain ⟨s2, hs2, hv2⟩ := Option.map_eq_some_iff.mp hr2
  simp only [Prod.mk.injEq] at hv hv2
  have h := exec_reach .init hs
  have h2 := exec_reach .init hs2
  obtain ⟨-, -, -, -, hall, hidle, -⟩ := group_commit h2
  obtain ⟨hend, -⟩ := hidle hv2.1
  rw [hv2.2.2] at hend hall
  rw [hv2.2.1] at hall
  exact ⟨⟨s, h, hv.1, hv.2.1, hv.2.2, ((group_commit h).2.1 hv.2.2).1⟩, s2, h2, hv2.1, hend.symm, hv2.2.2, hall.symm⟩

/-! ## The commit as one function -/

/-- The device writes of a commit, in order, with the buffers' contents `m`. -/
def Writes.emitted (K : Conf) (m : Disk) (w : Writes) : List (Nat × Block) :=
  let h := putHead (m K.start) w.header
  slotWrites K m 0 w.copied ++ (K.start, h) :: (w.installed.map (fun b => (b, m b)) ++ [(K.start, putHead h [])])

theorem logWrites_lh {K : Conf} {tx : Tx} {a b : Log.St} (h : logWrites K tx a = .ok b) :
    b.lh = (tx.map Prod.fst).foldl absorb a.lh := by
  induction tx generalizing a with
  | nil =>
    cases h
    rfl
  | cons w tx ih =>
    simp only [logWrites, logWrite] at h
    split at h
    · cases h
    · exact ih h

/-- A recorded commit of some blocks writes, copy by copy, what `Log.commit` writes in one go after their
    `log_write`s. -/
theorem commit_in_one (h : Reach C s) {c : Writes × List Nat} (hc : c ∈ s.log.commits) (hne : c.2 ≠ [])
    {K : Conf} {tx : Tx}
    {a b : Log.St} (ha : a.lh = []) (htx : tx.map Prod.fst = c.2) (hw : logWrites K tx a = .ok b) (hf : Fits K b.lh) :
    Log.commit K b = { emit (c.1.emitted K b.mem) b with lh := [] } := by
  have hlh : b.lh = absorbs c.2 := by rw [logWrites_lh hw, ha, htx]; rfl
  have hnil : b.lh ≠ [] := fun e => by
    obtain ⟨x, hx⟩ := List.exists_mem_of_ne_nil _ hne
    rw [← mem_absorbs, ← hlh, e] at hx
    cases hx
  rw [commit_eq K hf hnil, show c.1 = _ from (inv h).book.past c hc, ← hlh]
  rfl

/-- If an operation fits into the log at all, whoever sleeps in `begin_op` waits for a process that is inside one or
    commits. -/
theorem sleeper_waits_for_someone (hC : C.maxop ≤ C.logsize) (h : Reach C s) (hl : s.lock = none)
    (hp : s.sleeping p = true) : ∃ q, (s.pc q).inside = true ∨ (s.pc q).commits = true := by
  have hi := inv h
  by_contra! hno
  have hoff : ¬ s.committing = true := fun hc => (hi.control.committer.mp hc).elim fun q => (hno q).2
  have h0 : s.outstanding = 0 := hi.control.count.trans (Finset.sum_eq_zero fun q _ => by simp [(hno q).1])
  have hnil := hi.book.quiet (by simpa using hoff) h0
  have hb := hi.sleeper hl hp
  simp [St.blocked, hoff, h0, hnil] at hb
  omega

theorem sleeper_waits_for_someone_two : ∃ s, exec ⟨2, 16, 16, 16⟩ init (waiting.take 7) = some s ∧
    ∃ q, (s.pc q).inside = true ∨ (s.pc q).commits = true := by
  have h : exec ⟨2, 16, 16, 16⟩ init (waiting.take 7) = some _ := rfl
  exact ⟨_, h, sleeper_waits_for_someone (by decide) (exec_reach .init h) rfl (p := 1) rfl⟩

end Xv6.Log.Group
