/-
  Xv6.Log.Reserve — `begin_op`, `log_write` and `end_op` of kernel/log.c by any number of
  processes, one step for each section that holds `log.lock`.

  `begin_op` sleeps on `&log` while a commit runs, or while the blocks logged so far plus
  MAXOPBLOCKS for each outstanding operation and for itself exceed LOGSIZE; a wakeup
  sends it back to its loop (`woken`). `end_op` makes the last process out the committer;
  it runs `commit` without the lock (`commit`) and then clears `committing` (`committed`).
  `inOp bs` carries the distinct blocks its operation has `log_write`n so far: it is the
  process's own record, no code reads it.

  `log_write` compares `log.lh.n` with `log.size - 1`, where `log.size` is the
  superblock's `nlog` and counts the header block. mkfs sets `nlog = LOGSIZE`, so the log
  holds LOGSIZE - 1 blocks while `begin_op` admits an operation of MAXOPBLOCKS = LOGSIZE.

  Proved, with the configured constants:
  - `inv`: at most one operation is outstanding, and `log.lh` holds exactly its blocks.
  - `log_reservation`: a run reaches panic("too big a transaction") if and only if one of
    its steps is a `log_write` of an operation that has already written LOGSIZE - 1
    distinct blocks; `a_full_operation_panics` is one that keeps within MAXOPBLOCKS and
    does.
-/
import Xv6.Log.Commit
import Mathlib

namespace Xv6.Log.Reserve

inductive PSt where
  | idle
  | sleeping
  | woken
  | inOp (bs : List Nat)
  | committing
  | committed
  deriving DecidableEq, Repr

inductive Fault where
  | log (p : Panic)
  /-- panic("log.committing") -/
  | committing
  deriving DecidableEq, Repr

structure Consts where
  maxop : Nat
  logsize : Nat
  nlog : Nat

structure St where
  procs : Nat → PSt
  lh : List Nat
  outstanding : Nat
  committing : Bool
  panic : Option Fault

def init : St := ⟨fun _ => .idle, [], 0, false, none⟩

inductive Ev where
  | beginOp (p : Nat)
  | logWrite (p b : Nat)
  | endOp (p : Nat)
  | commit (p : Nat)
  | committed (p : Nat)
  deriving DecidableEq, Repr

def setProc (s : St) (p : Nat) (x : PSt) : St := { s with procs := Function.update s.procs p x }

def wakeup (s : St) : St := { s with procs := fun p => if s.procs p = .sleeping then .woken else s.procs p }

variable (K : Consts) {s s' : St} {p : Nat} {es : List Ev}

/-- `log.lh.n + (log.outstanding+1)*MAXOPBLOCKS > LOGSIZE`. -/
def noRoom (s : St) : Bool := K.logsize < s.lh.length + (s.outstanding + 1) * K.maxop

/-- One section under `log.lock`; `none` where the process is not at that section. -/
def step (s : St) : Ev → Option St
  | .beginOp p =>
    if s.procs p = .idle ∨ s.procs p = .woken then
      if s.committing then some (setProc s p .sleeping)
      else if noRoom K s then some (setProc s p .sleeping)
      else some (setProc { s with outstanding := s.outstanding + 1 } p (.inOp []))
    else none
  | .logWrite p b =>
    match s.procs p with
    | .inOp bs =>
      if K.logsize ≤ s.lh.length ∨ K.nlog - 1 ≤ s.lh.length then some { s with panic := some (.log .tooBig) }
      else if s.outstanding < 1 then some { s with panic := some (.log .outsideTrans) }
      else some (setProc { s with lh := absorb s.lh b } p (.inOp (absorb bs b)))
    | _ => none
  | .endOp p =>
    match s.procs p with
    | .inOp _ =>
      let s := { s with outstanding := s.outstanding - 1 }
      if s.committing then some { s with panic := some .committing }
      else if s.outstanding = 0 then some (setProc { s with committing := true } p .committing)
      else some (wakeup (setProc s p .idle))
    | _ => none
  | .commit p => if s.procs p = .committing then some (setProc { s with lh := [] } p .committed) else none
  | .committed p =>
    if s.procs p = .committed then some (wakeup (setProc { s with committing := false } p .idle)) else none

/-- The states a run of `es` leads to; a panicked kernel takes no further step. -/
inductive Run : List Ev → St → Prop
  | nil : Run [] init
  | snoc {es : List Ev} {s s' : St} (e : Ev) : Run es s → s.panic = none → step K s e = some s' → Run (es ++ [e]) s'

/-- The constants of param.h and the log mkfs lays out: `nlog = LOGSIZE`. -/
def config : Consts := ⟨MAXOPBLOCKS, LOGSIZE, LOGSIZE⟩

/-! ## One operation at a time -/

/-- Between `begin_op`s: nobody is in an operation, and what is logged is the committer's. -/
def Quiet (s : St) : Prop :=
  s.outstanding = 0 ∧ (∀ p bs, s.procs p ≠ .inOp bs) ∧
    ((s.committing = false ∧ s.lh = [] ∧ ∀ p, s.procs p ≠ .committing ∧ s.procs p ≠ .committed) ∨
     (s.committing = true ∧ ∃ q, (s.procs q = .committing ∨ s.procs q = .committed ∧ s.lh = []) ∧
       ∀ p, p ≠ q → s.procs p ≠ .committing ∧ s.procs p ≠ .committed))

/-- One operation runs: `log.lh` is exactly what it has written. -/
def Busy (s : St) (q : Nat) (bs : List Nat) : Prop :=
  s.outstanding = 1 ∧ s.committing = false ∧ s.procs q = .inOp bs ∧ (s.lh = bs ∧ bs.length < LOGSIZE) ∧
    ∀ p, p ≠ q → (∀ cs, s.procs p ≠ .inOp cs) ∧ s.procs p ≠ .committing ∧ s.procs p ≠ .committed

def Inv (s : St) : Prop := s.panic = none → Quiet s ∨ ∃ q bs, Busy s q bs

theorem wakeup_ne {x : PSt} (h1 : x ≠ .woken) (h2 : x ≠ .sleeping) : (wakeup s).procs p = x ↔ s.procs p = x := by
  simp only [wakeup]
  split
  · rename_i e; rw [e]; exact ⟨fun h => absurd h.symm h1, fun h => absurd h.symm h2⟩
  · exact Iff.rfl

theorem setProc_self (s : St) (p : Nat) (x : PSt) : (setProc s p x).procs p = x := by simp [setProc]

theorem setProc_ne (s : St) {q : Nat} (x : PSt) (h : q ≠ p) : (setProc s p x).procs q = s.procs q := by
  simp [setProc, h]

theorem forall_setProc {P : Nat → PSt → Prop} {x : PSt} (hp : P p x) (h : ∀ r, r ≠ p → P r (s.procs r)) (r : Nat) :
    P r ((setProc s p x).procs r) := by
  by_cases e : r = p
  · rw [e, setProc_self]
    exact hp
  · rw [setProc_ne _ _ e]
    exact h r e

/-- The operation that is outstanding. -/
theorem busy_of_inOp (h : Quiet s ∨ ∃ q bs, Busy s q bs) {bs : List Nat} (hp : s.procs p = .inOp bs) : Busy s p bs := by
  rcases h with ⟨_, h2, _⟩ | ⟨q, cs, hb⟩
  · exact absurd hp (h2 p bs)
  · have ⟨_, _, h3, _, h5⟩ := hb
    by_cases e : p = q
    · subst e
      rw [h3] at hp
      cases hp
      exact hb
    · exact absurd hp ((h5 p e).1 bs)

/-- The one process that is committing. -/
theorem committer (h : Quiet s ∨ ∃ q bs, Busy s q bs) (hp : s.procs p = .committing ∨ s.procs p = .committed) :
    s.outstanding = 0 ∧ s.committing = true ∧ (∀ r bs, s.procs r ≠ .inOp bs) ∧ (s.procs p = .committed → s.lh = []) ∧
      ∀ r, r ≠ p → s.procs r ≠ .committing ∧ s.procs r ≠ .committed := by
  rcases h with ⟨h1, h2, ⟨_, _, h3⟩ | ⟨ha, q, hq, hc⟩⟩ | ⟨q, cs, _, _, h3, _, h5⟩
  · exact absurd hp (not_or.mpr (h3 p))
  · have hqp : p = q := by
      by_contra e
      exact not_or.mpr (hc p e) hp
    subst hqp
    exact ⟨h1, ha, h2, fun e => (hq.resolve_left (by rw [e]; nofun)).2, hc⟩
  · by_cases e : p = q
    · rw [e, h3] at hp
      rcases hp with hp | hp <;> cases hp
    · exact absurd hp (not_or.mpr (h5 p e).2)

/-- With `MAXOPBLOCKS = LOGSIZE` there is room for an operation only in an empty log. -/
theorem noRoom_config (s : St) : noRoom config s = false ↔ s.lh = [] ∧ s.outstanding = 0 := by
  unfold noRoom
  rw [decide_eq_false_iff_not, ← List.length_eq_zero_iff]
  simp only [config, LOGSIZE, MAXOPBLOCKS]
  omega

theorem begin_inv (h : Quiet s ∨ ∃ q bs, Busy s q bs)
    (hs : step config s (.beginOp p) = some s') : Quiet s' ∨ ∃ q bs, Busy s' q bs := by
  simp only [step] at hs
  split at hs
  case isFalse => cases hs
  rename_i hp
  have hne : (∀ bs, s.procs p ≠ .inOp bs) ∧ s.procs p ≠ .committing ∧ s.procs p ≠ .committed := by
    rcases hp with e | e <;> simp [e]
  -- a process that goes to sleep is no operation's and no committer
  have hsleep : Quiet (setProc s p .sleeping) ∨ ∃ q bs, Busy (setProc s p .sleeping) q bs := by
    rcases h with ⟨h1, h2, h3⟩ | ⟨q, bs, h1, h2, h3, h4, h5⟩
    · left
      refine ⟨h1, forall_setProc (P := fun _ y => ∀ bs, y ≠ .inOp bs) (by simp) fun r _ => h2 r, ?_⟩
      · rcases h3 with ⟨ha, hb, hc⟩ | ⟨ha, q, hq, hc⟩
        · exact Or.inl ⟨ha, hb, forall_setProc (P := fun _ y => y ≠ .committing ∧ y ≠ .committed) (by simp)
            fun r _ => hc r⟩
        · have hqp : q ≠ p := by
            intro e
            rcases hq with hq | hq
            · exact hne.2.1 (e ▸ hq)
            · exact hne.2.2 (e ▸ hq.1)
          refine Or.inr ⟨ha, q, by rw [setProc_ne _ _ hqp]; exact hq, fun r hr => ?_⟩
          by_cases e : r = p
          · rw [e, setProc_self]; simp
          · rw [setProc_ne _ _ e]; exact hc r hr
    · right
      have hqp : q ≠ p := fun e => hne.1 bs (e ▸ h3)
      refine ⟨q, bs, h1, h2, by rw [setProc_ne _ _ hqp]; exact h3, h4, fun r hr => ?_⟩
      by_cases e : r = p
      · rw [e, setProc_self]; simp
      · rw [setProc_ne _ _ e]; exact h5 r hr
  split at hs
  · cases hs; exact hsleep
  split at hs
  · cases hs; exact hsleep
  -- admitted: the log was empty and nobody was in an operation
  rename_i hc hr
  obtain ⟨hlh, hout⟩ := (noRoom_config s).mp (by simpa using hr)
  cases hs
  rcases h with ⟨h1, h2, h3⟩ | ⟨q, bs, h1, _⟩
  · right
    refine ⟨p, [], by simp [setProc, hout], by simpa [setProc] using hc, setProc_self _ _ _, ⟨hlh, by simp⟩,
      fun r hr => ?_⟩
    rw [setProc_ne _ _ hr]
    rcases h3 with ⟨_, _, h3⟩ | ⟨ha, _⟩
    · exact ⟨h2 r, h3 r⟩
    · exact absurd ha (by simpa using hc)
  · omega

theorem logWrite_inv {b : Nat} (h : Quiet s ∨ ∃ q bs, Busy s q bs)
    (hs : step config s (.logWrite p b) = some s') (hp' : s'.panic = none) : Quiet s' ∨ ∃ q bs, Busy s' q bs := by
  simp only [step] at hs
  split at hs
  case h_2 => cases hs
  rename_i bs hp
  split at hs
  · cases hs; cases hp'
  rename_i hcap
  split at hs
  · cases hs; cases hp'
  cases hs
  obtain ⟨h1, h2, h3, h4, h5⟩ := busy_of_inOp h hp
  have hlen : (absorb bs b).length < LOGSIZE := by
    have := absorb_length bs b
    rw [h4.1] at hcap
    simp only [config, LOGSIZE, MAXOPBLOCKS] at hcap ⊢
    omega
  refine Or.inr ⟨p, absorb bs b, h1, h2, setProc_self _ _ _, ⟨by rw [← h4.1]; rfl, hlen⟩, fun r hr => ?_⟩
  rw [setProc_ne _ _ hr]
  exact h5 r hr

theorem endOp_inv (h : Quiet s ∨ ∃ q bs, Busy s q bs)
    (hs : step config s (.endOp p) = some s') : Quiet s' ∨ ∃ q bs, Busy s' q bs := by
  simp only [step] at hs
  split at hs
  case h_2 => cases hs
  rename_i bs hp
  obtain ⟨h1, h2, h3, h4, h5⟩ := busy_of_inOp h hp
  simp only [h2, h1, Nat.sub_self, Bool.false_eq_true, if_false, if_true] at hs
  cases hs
  refine Or.inl ⟨rfl, forall_setProc (P := fun _ y => ∀ bs, y ≠ .inOp bs) (by simp) fun r e => (h5 r e).1,
    Or.inr ⟨rfl, p, Or.inl (setProc_self _ _ _), fun r hr => ?_⟩⟩
  rw [setProc_ne _ _ hr]
  exact (h5 r hr).2

theorem commit_inv (h : Quiet s ∨ ∃ q bs, Busy s q bs)
    (hs : step config s (.commit p) = some s') : Quiet s' ∨ ∃ q bs, Busy s' q bs := by
  simp only [step] at hs
  split at hs
  case isFalse => cases hs
  rename_i hp
  cases hs
  obtain ⟨h1, ha, h2, -, hc⟩ := committer h (Or.inl hp)
  refine Or.inl ⟨h1, forall_setProc (P := fun _ y => ∀ bs, y ≠ .inOp bs) (by simp) fun r _ => h2 r,
    Or.inr ⟨ha, p, Or.inr ⟨setProc_self _ _ _, rfl⟩, fun r hr => ?_⟩⟩
  rw [setProc_ne _ _ hr]
  exact hc r hr

theorem committed_inv (h : Quiet s ∨ ∃ q bs, Busy s q bs)
    (hs : step config s (.committed p) = some s') : Quiet s' ∨ ∃ q bs, Busy s' q bs := by
  simp only [step] at hs
  split at hs
  case isFalse => cases hs
  rename_i hp
  cases hs
  obtain ⟨h1, -, h2, hlh, hc⟩ := committer h (Or.inr hp)
  refine Or.inl ⟨h1, fun r ds => ?_, Or.inl ⟨rfl, hlh hp, fun r => ?_⟩⟩
  · rw [ne_eq, wakeup_ne (by simp) (by simp)]
    exact forall_setProc (P := fun _ y => y ≠ .inOp ds) (by simp) (fun r _ => h2 r ds) r
  · rw [ne_eq, ne_eq, wakeup_ne (by simp) (by simp), wakeup_ne (by simp) (by simp)]
    exact forall_setProc (P := fun _ y => y ≠ .committing ∧ y ≠ .committed) (by simp) hc r

/-- At every point of every run at most one operation is outstanding, and `log.lh` is
    exactly the blocks it has written. -/
theorem inv (h : Run config es s) : Inv s := by
  induction h with
  | nil => intro _; exact Or.inl ⟨rfl, by simp [init], Or.inl ⟨rfl, rfl, by simp [init]⟩⟩
  | snoc e _ hn hs ih =>
    intro hp
    cases e with
    | beginOp p => exact begin_inv (ih hn) hs
    | logWrite p b => exact logWrite_inv (ih hn) hs hp
    | endOp p => exact endOp_inv (ih hn) hs
    | commit p => exact commit_inv (ih hn) hs
    | committed p => exact committed_inv (ih hn) hs

/-! ## The reservation -/

/-- A `log_write` by an operation that has already written LOGSIZE - 1 distinct blocks. -/
def Full (s : St) (e : Ev) : Prop := ∃ p b bs, e = .logWrite p b ∧ s.procs p = .inOp bs ∧ LOGSIZE - 1 ≤ bs.length

/-- The one step that panics so: a `log_write` past the log's capacity. -/
theorem step_too_big {e : Ev} (hi : Inv s) (hn : s.panic = none) (hs : step config s e = some s') :
    s'.panic = some (.log .tooBig) ↔ Full s e := by
  cases e with
  | logWrite p b =>
    simp only [step] at hs
    split at hs
    case h_2 => cases hs
    rename_i bs hp
    obtain ⟨h1, -, -, ⟨h4, -⟩, -⟩ := busy_of_inOp (hi hn) hp
    have hfull : Full s (.logWrite p b) ↔ LOGSIZE - 1 ≤ bs.length := by
      constructor
      · rintro ⟨q, c, cs, he, hq, hl⟩
        cases he
        rw [hp] at hq
        cases hq
        exact hl
      · exact fun hl => ⟨p, b, bs, rfl, hp, hl⟩
    rw [hfull]
    split at hs
    · rename_i hcap
      cases hs
      simp only [config, LOGSIZE, MAXOPBLOCKS, h4] at hcap
      exact ⟨fun _ => by simp only [LOGSIZE, MAXOPBLOCKS]; omega, fun _ => rfl⟩
    · rename_i hcap
      simp only [h1, Nat.lt_irrefl, if_false] at hs
      cases hs
      simp only [config, LOGSIZE, MAXOPBLOCKS, h4] at hcap
      exact ⟨fun h => by simp [setProc, hn] at h, fun h => by simp only [LOGSIZE, MAXOPBLOCKS] at h; omega⟩
  | beginOp p =>
    refine ⟨fun h => ?_, fun ⟨_, _, _, he, _⟩ => by cases he⟩
    simp only [step] at hs
    repeat' split at hs
    all_goals cases hs
    all_goals simp [setProc, hn] at h
  | endOp p =>
    refine ⟨fun h => ?_, fun ⟨_, _, _, he, _⟩ => by cases he⟩
    simp only [step] at hs
    repeat' split at hs
    all_goals cases hs
    all_goals simp [setProc, wakeup, hn] at h
  | commit p =>
    refine ⟨fun h => ?_, fun ⟨_, _, _, he, _⟩ => by cases he⟩
    simp only [step] at hs
    split at hs
    · cases hs; simp [setProc, hn] at h
    · cases hs
  | committed p =>
    refine ⟨fun h => ?_, fun ⟨_, _, _, he, _⟩ => by cases he⟩
    simp only [step] at hs
    split at hs
    · cases hs; simp [setProc, wakeup, hn] at h
    · cases hs

/-- A run fixes its last state. -/
theorem Run.det {K : Consts} {t : St} (hs : Run K es s) (ht : Run K es t) : s = t := by
  induction hs generalizing t with
  | nil =>
    generalize hn : ([] : List Ev) = l at ht
    cases ht with
    | nil => rfl
    | snoc e => simp at hn
  | @snoc es s s' e _ _ hstep ih =>
    generalize hl : es ++ [e] = l at ht
    cases ht with
    | nil => simp at hl
    | @snoc es2 u u' e2 hu _ hstep2 =>
      obtain ⟨rfl, he⟩ := List.append_inj' hl rfl
      cases he
      rw [ih hu] at hstep
      rw [hstep] at hstep2
      exact Option.some.inj hstep2

/-- The log's reservation. A run never reaches panic("too big a transaction") if and
    only if no `log_write` in it belongs to an operation that has already written
    LOGSIZE - 1 distinct blocks. -/
theorem log_reservation {es : List Ev} {s : St} (h : Run config es s) :
    s.panic ≠ some (.log .tooBig) ↔ ∀ es' e s', es' ++ [e] <+: es → Run config es' s' → ¬ Full s' e := by
  induction h with
  | nil => simp [init]
  | @snoc es s s' e h hn hs ih =>
    have hold := ih.mp (by rw [hn]; simp)
    rw [ne_eq, step_too_big (inv h) hn hs]
    constructor
    · intro hf es' e' t hpre ht
      rcases List.prefix_concat_iff.mp hpre with heq | hpre
      · obtain ⟨rfl, he⟩ := List.append_inj' heq rfl
        cases he
        rw [ht.det h]
        exact hf
      · exact hold es' e' t hpre ht
    · exact fun hall => hall es e s (List.prefix_refl _) h

/-- Each operation `log_write`s at most MAXOPBLOCKS distinct blocks. -/
def Bounded (es : List Ev) : Prop :=
  ∀ es' s p b bs, es' ++ [.logWrite p b] <+: es → Run config es' s → s.procs p = .inOp bs →
    (absorb bs b).length ≤ MAXOPBLOCKS

/-- An operation cannot exceed MAXOPBLOCKS: the log is full before that. -/
theorem bounded_of_run (h : Run config es s) : Bounded es := by
  induction h with
  | nil => intro es' s p b bs hp; simp at hp
  | @snoc es s s' e h hn hs ih =>
    intro es' t p b bs hpre ht hp
    rcases List.prefix_concat_iff.mp hpre with heq | hpre
    · obtain ⟨rfl, -⟩ := List.append_inj' heq rfl
      rw [ht.det h] at hp
      obtain ⟨-, -, -, ⟨-, hlen⟩, -⟩ := busy_of_inOp (inv h hn) hp
      have := absorb_length bs b
      simp only [LOGSIZE, MAXOPBLOCKS] at hlen ⊢
      omega
    · exact ih es' t p b bs hpre ht hp

def runs (es : List Ev) : Option St :=
  es.foldl (fun o e => o.bind fun s => if s.panic = none then step K s e else none) (some init)

theorem runs_run {K : Consts} (es : List Ev) : ∀ s, runs K es = some s → Run K es s := by
  induction es using List.reverseRecOn with
  | nil => intro s h; cases h; exact .nil
  | append_singleton es e ih =>
    intro s h
    simp only [runs, List.foldl_append, List.foldl_cons, List.foldl_nil, Option.bind_eq_some_iff] at h
    obtain ⟨t, ht, hs⟩ := h
    split at hs
    · exact .snoc e (ih t ht) ‹_› hs
    · cases hs

/-- One process, one operation, MAXOPBLOCKS distinct blocks. -/
def fullOp : List Ev := .beginOp 0 :: (List.range MAXOPBLOCKS).map (.logWrite 0 ·)

/-- An operation of MAXOPBLOCKS distinct blocks, admitted by `begin_op` into an empty
    log, panics at its last `log_write`. -/
theorem a_full_operation_panics :
    ¬ ∀ es s, Run config es s → Bounded es → s.panic ≠ some (.log .tooBig) := by
  intro h
  have hp : (runs config fullOp).map (·.panic) = some (some (.log .tooBig)) := by decide
  obtain ⟨s, hs, hp⟩ := Option.map_eq_some_iff.mp hp
  have hr := runs_run fullOp s hs
  exact h fullOp s hr (bounded_of_run hr) hp

/-- Fourteen blocks, one of them twice, and `end_op`: no `log_write` finds the log full. -/
theorem log_reservation_fourteen :
    let es : List Ev := .beginOp 0 :: (List.range 14).map (.logWrite 0 ·) ++ [.logWrite 0 3, .endOp 0]
    ∃ s, Run config es s ∧ s.procs 0 = .committing ∧
      ∀ es' e s', es' ++ [e] <+: es → Run config es' s' → ¬ Full s' e := by
  intro es
  have hp : (runs config es).map (fun s => (s.procs 0, s.panic)) = some (.committing, none) := by decide
  obtain ⟨s, hs, hp⟩ := Option.map_eq_some_iff.mp hp
  have hr := runs_run es s hs
  injection hp with h1 h2
  exact ⟨s, hr, h1, (log_reservation hr).mp (by rw [h2]; simp)⟩

end Xv6.Log.Reserve
