/-
  Xv6.Process.Locks — the lock discipline of `Xv6.Process.Sched`.

  `Typed me H is`: a thread of process `me` (`none`: a scheduler) that holds the spinlocks `H`
  can go on with `is` without taking a lock twice, releasing one it does not hold, or reaching
  `sched` with anything but its own `p->lock`. `exec_typed` is the step lemma: what an
  instruction is replaced by is typed again.
-/
import Xv6.Process.Sched
import Mathlib

namespace Xv6.Process

/-- Locks that are held from the moment the instruction is written down until it is executed. -/
def base : Instr → List Lock
  | .wakeupFrom _ _ g => g
  | .wakeAt _ _ g => g
  | .takePid i _ => [.proc i]
  | .setUsed i _ _ => [.proc i]
  | .allocMem i _ => [.proc i]
  | .forkCopy i _ => [.proc i]
  | .exitReparent i _ _ => if i = 0 then [] else [.wait]
  | .exitZombie _ _ => [.wait]
  | .waitScan i _ _ => if i = 0 then [] else [.wait]
  | .waitAt _ _ => [.wait]
  | .waitKilled _ => [.wait]
  | _ => []

def makes : Instr → Option Nat
  | .takePid i _ => some i
  | .setUsed i _ _ => some i
  | .allocMem i _ => some i
  | .forkCopy i _ => some i
  | .forkParent i _ => some i
  | .forkRun i _ => some i
  | _ => none

/-- The state in which a thread that goes on with this after `sched` leaves its hart. -/
def after : List Instr → Option PState
  | .release _ :: _ => some .runnable
  | .tidy _ _ _ :: _ => some .sleeping
  | .zombieExit :: _ => some .zombie
  | _ => none

/-- `p->state` of a process whose thread is at `is`; `none` if it should not be there. -/
def leaves : List Instr → Option PState
  | .sched :: r => after r
  | .swtchBack :: .setIntena _ :: r => after r
  | .release .wait :: .sched :: r => after r
  | .setIntena _ :: .zombieExit :: _ => none
  | .zombieExit :: _ => none
  | _ => some .running

/-- Not in the middle of going to sleep, of leaving the hart, or of a scheduler's switch. -/
structure Quiet (is : List Instr) : Prop where
  sched : ∀ r, is ≠ .sched :: r
  swtchBack : ∀ r, is ≠ .swtchBack :: r
  exit : ∀ r, is ≠ .release .wait :: .sched :: r
  setChan : ∀ p c lk r, is ≠ .setChan p c lk :: r
  nap : ∀ p c lk r, is ≠ .nap p c lk :: r
  setProc : ∀ p r, is ≠ .setProc p :: r
  swtchTo : ∀ p r, is ≠ .swtchTo p :: r
  setIntena : ∀ b r, is ≠ .setIntena b :: r
  zombieExit : ∀ r, is ≠ .zombieExit :: r

def needs (is : List Instr) : List Lock := is.flatMap base

def made (is : List Instr) : List Nat := is.filterMap makes

def Resumes (p : Nat) (is : List Instr) : Prop :=
  (∃ r, is = .release (.proc p) :: r) ∨ (∃ c lk r, is = .tidy p c lk :: .release (.proc p) :: r) ∨ ∃ r,
    is = .zombieExit :: r

/-- What a scheduler has left to do when it switches to `i`. -/
def back (i : Nat) : List Instr := [.setProc none, .release (.proc i), .scan (i + 1)]

/-- The locks held when the instruction, with all it calls, is done. -/
def post (H : List Lock) : Instr → List Lock
  | .acquire l => l :: H
  | .release l => H.erase l
  | .wakeAt i _ _ => H.erase (.proc i)
  | .takeFree n _ => H.erase (.sleeplock n)
  | .freeSleep _ _ => []
  | .code _ held => H.drop held.length
  | .dispatch _ => []
  | .forkret => []
  | .killAt _ _ => []
  | .killedExit _ => []
  | .allocAt _ _ => []
  | .takePid _ _ => []
  | .setUsed _ _ _ => []
  | .allocMem _ _ => []
  | .forkCopy _ _ => []
  | .forkParent _ _ => []
  | .forkRun _ _ => []
  | .exitReparent _ _ _ => []
  | .exitZombie _ _ => []
  | .zombieExit => []
  | .waitScan _ _ _ => []
  | .waitAt _ _ => []
  | .waitKilled _ => []
  | .sleepLoop _ _ => []
  | _ => H

/-- When a thread that holds `H` and has `rest` to do afterwards may execute an instruction. -/
def pre (me : Option Nat) (H : List Lock) (rest : List Instr) : Instr → Prop
  | .acquire l => l ∉ H ∧ l ∉ needs rest ∧ Quiet rest
  | .release l =>
    l ∈ H ∧ (Quiet rest ∨ (l = .wait ∧ ∃ r, rest = .sched :: .zombieExit :: r) ∨ ∃ p c r, rest = .setChan p c l :: r)
  | .intrOn => H = [] ∧ Quiet rest
  | .intrOff => H = [] ∧ Quiet rest
  | .iret => H = [] ∧ Quiet rest
  | .scheduler => me = none ∧ H = [] ∧ rest = []
  | .scan _ => me = none ∧ H = [] ∧ rest = []
  | .dispatch i => me = none ∧ H = [.proc i] ∧ rest = []
  | .setProc (some i) => me = none ∧ H = [.proc i] ∧ rest = .swtchTo i :: back i
  | .setProc none => me = none ∧ ∃ i, H = [.proc i] ∧ rest = [.release (.proc i), .scan (i + 1)]
  | .swtchTo i => me = none ∧ H = [.proc i] ∧ rest = back i
  | .sched => ∃ p, me = some p ∧ H = [.proc p] ∧ Resumes p rest
  | .swtchBack => ∃ p, me = some p ∧ H = [.proc p] ∧ ∃ b r, rest = .setIntena b :: r
  | .setIntena _ => ∃ p, me = some p ∧ H = [.proc p] ∧ Resumes p rest
  | .yield => (∃ p, me = some p) ∧ H = [] ∧ Quiet rest
  | .setRunnable p => me = some p ∧ H = [.proc p] ∧ ∃ r, rest = .sched :: .release (.proc p) :: r
  | .yieldIf => H = [] ∧ Quiet rest
  | .forkret => ∃ p, me = some p ∧ H = [.proc p] ∧ rest = []
  | .sleep _ lk => ∃ p, me = some p ∧ H = [lk] ∧ (∀ q, lk ≠ .proc q) ∧ lk ∉ needs rest ∧ Quiet rest
  | .setChan p c lk => me = some p ∧ H = [.proc p] ∧ ∃ r, rest = .nap p c lk :: r
  | .nap p c lk => me = some p ∧ H = [.proc p] ∧ ∃ r, rest = .sched :: .tidy p c lk :: .release (.proc p) :: r
  | .tidy p _ _ => me = some p ∧ H = [.proc p] ∧ ∃ r, rest = .release (.proc p) :: r
  | .wakeupFrom _ _ g => H = g ∧ (∀ q, .proc q ∉ g) ∧ Quiet rest
  | .wakeAt i _ g => H = .proc i :: g ∧ (∀ q, .proc q ∉ g) ∧ Quiet rest
  | .killFrom _ _ => H = [] ∧ Quiet rest
  | .killAt i _ => H = [.proc i] ∧ Quiet rest
  | .setKilled p => me = some p ∧ H = [.proc p] ∧ Quiet rest
  | .checkKilled => (∃ p, me = some p) ∧ H = [] ∧ Quiet rest
  | .killedExit p => me = some p ∧ H = [.proc p] ∧ Quiet rest
  | .fork => (∃ p, me = some p) ∧ H = [] ∧ Quiet rest ∧ made rest = []
  | .allocFrom _ p => me = some p ∧ H = [] ∧ Quiet rest ∧ made rest = []
  | .allocAt i p => me = some p ∧ H = [.proc i] ∧ Quiet rest ∧ made rest = [] ∧ i < NPROC
  | .takePid i p => me = some p ∧ H = [.pid, .proc i] ∧ Quiet rest ∧ made rest = [] ∧ i < NPROC
  | .setUsed i p _ => me = some p ∧ H = [.proc i] ∧ Quiet rest ∧ made rest = [] ∧ i < NPROC
  | .allocMem i p => me = some p ∧ H = [.proc i] ∧ Quiet rest ∧ made rest = []
  | .forkCopy i p => me = some p ∧ H = [.proc i] ∧ Quiet rest ∧ made rest = []
  | .forkParent _ p => me = some p ∧ H = [.wait] ∧ Quiet rest ∧ made rest = []
  | .forkRun i p => me = some p ∧ H = [.proc i] ∧ Quiet rest ∧ made rest = []
  | .exit _ => (∃ p, me = some p) ∧ H = [] ∧ Quiet rest
  | .exitClosed p => me = some p ∧ H = [] ∧ Quiet rest
  | .exitReparent _ p _ => me = some p ∧ H = [.wait] ∧ Quiet rest
  | .exitZombie p _ => me = some p ∧ H = [.proc p, .wait] ∧ Quiet rest
  | .zombieExit => ∃ p, me = some p ∧ H = [.proc p]
  | .wait => (∃ p, me = some p) ∧ H = [] ∧ Quiet rest
  | .waitScan _ p _ => me = some p ∧ H = [.wait] ∧ Quiet rest
  | .waitAt i p => me = some p ∧ H = [.proc i, .wait] ∧ Quiet rest
  | .waitKilled p => me = some p ∧ H = [.proc p, .wait] ∧ Quiet rest
  | .acquiresleep _ => (∃ p, me = some p) ∧ H = [] ∧ Quiet rest
  | .sleepLoop n p => me = some p ∧ H = [.sleeplock n] ∧ Quiet rest
  | .takeFree n p => me = some p ∧ .sleeplock n ∈ H ∧ Quiet rest
  | .releasesleep _ => (∃ p, me = some p) ∧ H = [] ∧ Quiet rest
  | .freeSleep n p => me = some p ∧ H = [.sleeplock n] ∧ Quiet rest
  | .code k held =>
    (∃ R, H = held.map .other ++ R ∧ (∀ n, .other n ∉ R) ∧ (k ≠ .quiet → R = [])) ∧
      (k = .proc → ∃ p, me = some p) ∧ Quiet rest
  | .user => (∃ p, me = some p) ∧ H = [] ∧ rest = []

def Typed (me : Option Nat) : List Lock → List Instr → Prop
  | H, [] => H = []
  | H, i :: rest => pre me H rest i ∧ base i ⊆ H ∧ Typed me (post H i) rest

variable {me : Option Nat} {H : List Lock} {i : Instr} {rest is : List Instr} {p q : Nat} {l : Lock}

/-- No instruction but `acquire` ends with more locks. -/
theorem post_sub (h : pre me H rest i) : ∀ l ∈ post H i, l ∈ H ∨ i = .acquire l := by
  intro l hl
  cases i <;> simp only [post, List.mem_cons, List.not_mem_nil] at hl <;>
    first
    | exact Or.inl hl
    | exact Or.inl (List.mem_of_mem_erase hl)
    | exact Or.inl (List.mem_of_mem_drop hl)
    | (rcases hl with rfl | hl; exacts [Or.inr rfl, Or.inl hl])

@[simp] theorem needs_nil : needs [] = [] := rfl

@[simp] theorem needs_cons : needs (i :: rest) = base i ++ needs rest := rfl

@[simp] theorem made_nil : made [] = [] := rfl

@[simp] theorem made_cons : made (i :: rest) = (makes i).toList ++ made rest := by
  cases h : makes i <;> simp [made, h]

/-- What is held from now on is held now. -/
theorem Typed.needs_sub : ∀ {H : List Lock} {is : List Instr}, Typed me H is → needs is ⊆ H
  | _, [], _ => by simp
  | H, i :: rest, ⟨hp, hb, ht⟩ => by
    intro l hl
    rcases List.mem_append.mp hl with hl | hl
    · exact hb hl
    · rcases post_sub hp l (ht.needs_sub hl) with h | rfl
      · exact h
      · exact absurd hl hp.2.1

/-- A lock that is not held now is not relied on later. -/
theorem Typed.fresh (h : Typed me H rest) (hl : l ∉ H) : l ∉ needs rest := fun hm => hl (h.needs_sub hm)

theorem Typed.needs_nil (h : Typed me [] rest) : needs rest = [] := List.eq_nil_of_subset_nil h.needs_sub

def quietHead (rest : List Instr) : Instr → Prop
  | .sched => False
  | .swtchBack => False
  | .release l => l = .wait → ∀ r, rest ≠ .sched :: r
  | .setChan _ _ _ => False
  | .nap _ _ _ => False
  | .setProc _ => False
  | .swtchTo _ => False
  | .setIntena _ => False
  | .zombieExit => False
  | _ => True

theorem quiet_cons : Quiet (i :: rest) ↔ quietHead rest i := by
  constructor
  · intro h
    cases i with
    | sched => exact h.sched _ rfl
    | swtchBack => exact h.swtchBack _ rfl
    | setChan p c lk => exact h.setChan _ _ _ _ rfl
    | nap p c lk => exact h.nap _ _ _ _ rfl
    | setProc p => exact h.setProc _ _ rfl
    | swtchTo p => exact h.swtchTo _ _ rfl
    | setIntena b => exact h.setIntena _ _ rfl
    | zombieExit => exact h.zombieExit _ rfl
    | release l => exact fun hl r hr => h.exit r (by rw [hl, hr])
    | _ => exact trivial
  · intro h
    refine ⟨?_, ?_, ?_, ?_, ?_, ?_, ?_, ?_, ?_⟩ <;> intros <;> intro e <;> cases e <;>
      first | exact h | exact h rfl _ rfl

@[simp] theorem quiet_nil : Quiet [] := by constructor <;> simp

/-- Anything quiet may follow the release of a lock. -/
theorem Quiet.release (h : Quiet rest) : Quiet (.release l :: rest) := by
  exact quiet_cons.mpr fun _ => h.sched

theorem Quiet.leaves (h : Quiet is) : leaves is = some .running := by
  unfold Process.leaves
  split
  · exact absurd rfl (h.sched _)
  · exact absurd rfl (h.swtchBack _)
  · exact absurd rfl (h.exit _)
  · exact absurd rfl (h.setIntena _ _)
  · exact absurd rfl (h.zombieExit _)
  · rfl


/-! ## What instructions are replaced by -/

theorem codeOp_typed {d d' : Data} {k : Ctx} {held : List Nat} {o : Op} {sp : Option Nat}
    (ht : Typed me H (.code k held :: rest)) (he : codeOp me d k held o = some (.ok d' is sp)) :
    Typed me H (is ++ rest) := by
  obtain ⟨⟨⟨R, rfl, hR, hk⟩, hme, hq⟩, -, ht⟩ := ht
  have hpost : post (held.map Lock.other ++ R) (.code k held) = R := by simp [post]
  rw [hpost] at ht
  have hcode : ∀ held', Typed me (held'.map Lock.other ++ R) (.code k held' :: rest) := fun held' =>
    ⟨⟨⟨R, rfl, hR, hk⟩, hme, hq⟩, by simp [base], by simpa [post] using ht⟩
  have hne : ∀ n, Lock.other n ∉ needs rest := fun n => ht.fresh (hR n)
  cases o with
  | done =>
    simp only [codeOp, next] at he
    split at he <;> cases he
    rename_i h
    simpa [h] using ht
  | acquire n =>
    simp only [codeOp, next] at he
    split at he <;> cases he
    rename_i h
    refine ⟨⟨?_, ?_, ?_⟩, by simp [base], hcode (n :: held)⟩
    · simp [h, hR]
    · simp [base, hne]
    · simp [quiet_cons, quietHead]
  | release n =>
    simp only [codeOp, next] at he
    split at he <;> cases he
    rename_i h
    have hm : Lock.other n ∈ held.map Lock.other := List.mem_map_of_mem h
    refine ⟨⟨List.mem_append_left _ hm, Or.inl (by simp [quiet_cons, quietHead])⟩, by simp [base], ?_⟩
    have herase : post (held.map Lock.other ++ R) (.release (.other n)) = (held.erase n).map Lock.other ++ R := by
      simp only [post]
      rw [List.erase_append_left _ hm, List.map_erase (fun a b h => by cases h; rfl)]
    rw [herase]
    exact hcode (held.erase n)
  | wakeup c =>
    simp only [codeOp, next] at he
    split at he <;> cases he
    rename_i h
    have hR0 := hk h
    exact ⟨⟨by simp [hR0], by simp, by simp [quiet_cons, quietHead]⟩, by simp [base], hcode held⟩
  | sleep c n =>
    simp only [codeOp, next] at he
    split at he <;> cases he
    rename_i h
    obtain ⟨rfl, rfl⟩ := h
    have hR0 := hk (by simp)
    obtain ⟨p, rfl⟩ := hme rfl
    exact ⟨⟨p, rfl, by simp [hR0], by simp, by simp [base, hne], by simp [quiet_cons, quietHead]⟩, by simp [base],
      hcode [n]⟩
  | killed =>
    simp only [codeOp, next] at he
    split at he
    · rename_i h
      obtain ⟨p, rfl⟩ := hme h
      simp only [withProc] at he
      cases he
      have hR0 := hk (by simp [h])
      have hp := ht.fresh (l := .proc p) (by simp [hR0])
      refine ⟨⟨by simp [hR0], by simp [base, hp], by simp [quiet_cons, quietHead]⟩, by simp [base],
        ⟨by simp [post], Or.inl (by simp [quiet_cons, quietHead])⟩, by simp [base], ?_⟩
      simpa [post] using hcode held
    · cases he
  | acquiresleep n | releasesleep n =>
    simp only [codeOp, next] at he
    split at he <;> cases he
    rename_i h
    obtain ⟨rfl, rfl⟩ := h
    exact ⟨⟨hme rfl, by simp [hk], by simp [quiet_cons, quietHead]⟩, by simp [base], hcode []⟩
  | iputLock n =>
    simp only [codeOp, next] at he
    split at he
    · rename_i h
      obtain ⟨p, rfl⟩ := hme h
      simp only [withProc] at he
      cases he
      have hR0 := hk (by simp [h])
      have hp := ht.fresh (l := .sleeplock n) (by simp [hR0])
      refine ⟨⟨by simp [hR0], by simp [base, hp], by simp [quiet_cons, quietHead]⟩, by simp [base],
        ⟨rfl, by simp [post], by simp [quiet_cons, quietHead]⟩, by simp [base], ?_⟩
      simpa [post] using hcode held
    · cases he
  | own sz ofile cwd =>
    simp only [codeOp, next] at he
    split at he
    · rename_i h
      obtain ⟨p, rfl⟩ := hme h
      simp only [withProc] at he
      cases he
      exact hcode held
    · cases he

/-- The step lemma: an instruction is replaced by instructions that do the same to the locks. -/
theorem exec_typed {d d' : Data} {ch : Choice} {sp : Option Nat} (hn : H.Nodup) (ht : Typed me H (i :: rest))
    (he : exec me d ch i = some (.ok d' is sp)) : Typed me H (is ++ rest) := by
  obtain ⟨hp, hb, ht⟩ := ht
  cases i with
  | scan i | dispatch i =>
    obtain ⟨rfl, rfl, rfl⟩ := hp
    simp only [exec, next] at he
    repeat' split at he
    all_goals cases he
    all_goals simp_all [Typed, pre, post, base, quiet_cons, quietHead, back]
  | setRunnable p | setChan p c lk | nap p c lk | tidy p c lk | setKilled p | exitClosed p =>
    simp only [exec, next] at he
    cases he
    exact ht
  | yield | checkKilled | fork | exit status | wait | acquiresleep n | releasesleep n =>
    obtain ⟨⟨p, rfl⟩, rfl, hq⟩ := hp
    have hg := ht.needs_nil
    simp only [exec, next, withProc] at he
    repeat' split at he
    all_goals cases he
    all_goals simp_all [Typed, pre, post, base, quiet_cons, quietHead, Resumes]
  | allocFrom i p | allocAt i p | takePid i p | setUsed i p pid | allocMem i p | forkCopy i p | forkParent i p
  | forkRun i p =>
    obtain ⟨rfl, rfl, hq, hm⟩ := hp
    have hs := hq.sched
    have hg := ht.needs_nil
    simp only [exec, next] at he
    repeat' split at he
    all_goals cases he
    all_goals simp_all [Typed, pre, post, base, quiet_cons, quietHead]
  | exitReparent i p status | exitZombie p status | waitScan i p havekids | waitAt i p | waitKilled p
  | sleepLoop n p | killedExit p =>
    obtain ⟨rfl, rfl, hq⟩ := hp
    have hs := hq.sched
    have hg := ht.needs_nil
    simp only [exec, next] at he
    repeat' split at he
    all_goals cases he
    all_goals simp_all [Typed, pre, post, base, quiet_cons, quietHead, Resumes]
  | killFrom i pid | killAt i pid =>
    obtain ⟨rfl, hq⟩ := hp
    have hg := ht.needs_nil
    simp only [exec, next] at he
    repeat' split at he
    all_goals cases he
    all_goals simp_all [Typed, pre, post, base, quiet_cons, quietHead]
  | yieldIf =>
    obtain ⟨rfl, hq⟩ := hp
    simp only [exec, next] at he
    repeat' split at he
    all_goals cases he
    · exact ⟨⟨⟨_, rfl⟩, rfl, hq⟩, by simp [base], ht⟩
    · exact ht
    · exact ht
  | forkret =>
    obtain ⟨p, rfl, rfl, rfl⟩ := hp
    simp only [exec, next, withProc] at he
    cases he
    simp_all [Typed, pre, post, base, quiet_cons, quietHead]
  | sleep c lk =>
    obtain ⟨p, rfl, rfl, hl, hbr, hq⟩ := hp
    simp only [exec, next, withProc] at he
    cases he
    have hg := ht.fresh (l := .proc p) (by simp [post, (hl p).symm])
    have h1 : [Lock.proc p, lk].erase lk = [.proc p] := by simp [(hl p).symm]
    refine ⟨⟨by simp [(hl p).symm], by simp [base, hg], by simp [quiet_cons, quietHead]⟩, by simp [base],
      ⟨by simp [post], Or.inr (Or.inr ⟨p, c, _, rfl⟩)⟩, by simp [base], ?_⟩
    simp only [post, h1]
    simp_all [Typed, pre, post, base, quiet_cons, quietHead, Resumes]
  | wakeupFrom i c g =>
    obtain ⟨rfl, hl, hq⟩ := hp
    have hm := hl i
    have hg := ht.fresh hm
    simp only [exec, next] at he
    repeat' split at he
    all_goals cases he
    all_goals simp_all [Typed, pre, post, base, quiet_cons, quietHead]
  | wakeAt i c g =>
    obtain ⟨rfl, hl, hq⟩ := hp
    simp only [exec, next] at he
    cases he
    simp_all [Typed, pre, post, base, quiet_cons, quietHead]
  | takeFree n p =>
    obtain ⟨rfl, hm, hq⟩ := hp
    simp only [exec, next] at he
    split at he <;> cases he
    exact ⟨⟨hm, Or.inl hq⟩, by simp [base], ht⟩
  | freeSleep n p =>
    obtain ⟨rfl, rfl, hq⟩ := hp
    simp only [exec, next] at he
    split at he <;> cases he
    exact ⟨⟨rfl, by simp, hq.release⟩, by simp [base],
      ⟨by simp [post], Or.inl hq⟩, by simp [base], by simpa [post] using ht⟩
  | user =>
    obtain ⟨⟨p, rfl⟩, rfl, rfl⟩ := hp
    simp only [exec, next, withProc] at he
    split at he <;> cases he
    rename_i t
    cases t <;> simp_all [usertrap, Typed, pre, post, base, quiet_cons, quietHead, makes]
  | code k held =>
    simp only [exec] at he
    split at he
    · exact codeOp_typed ⟨hp, hb, ht⟩ he
    · cases he
  | acquire | release | intrOn | intrOff | iret | scheduler | setProc | swtchTo | sched | swtchBack | setIntena |
    zombieExit =>
    simp only [exec] at he
    cases he

end Xv6.Process
