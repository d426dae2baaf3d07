/-
  Xv6.Process.Exec — the instructions that change the data keep the invariant.

  `Effect.moves` says how the state of a process can change: under its `p->lock`, and from one
  state to another in seven ways. `exec_leaves` is about the process that executes the
  instruction, `Inv.made_exec` and `exec_made` about the slots `fork` is working on, `exec_inv`
  puts them together.
-/
import Xv6.Process.Inv
import Xv6.Process.Effect

namespace Xv6.Process

variable {s s' : St} {h k p q : Nat} {H K : List Lock} {l : Lock} {is rest : List Instr} {i : Instr}
  {me sp : Option Nat} {d d' : Data} {ch : Choice} {j : Instr} {m : Nat}

def madeState : Instr → PState
  | .takePid _ _ => .unused
  | .setUsed _ _ _ => .unused
  | _ => .used

inductive Moves (i : Instr) (q : Nat) : PState → PState → Prop
  | woken : Moves i q .sleeping .runnable
  | dispatched : i = .dispatch q → Moves i q .runnable .running
  | left {a b : PState} : (i = .setRunnable q ∨ (∃ c lk, i = .nap q c lk) ∨ ∃ st, i = .exitZombie q st) → b ≠ .running →
      Moves i q a b
  | taken : makes i = some q → Moves i q .unused .used
  | given : makes i = some q → Moves i q .used .unused
  | started : makes i = some q → (∃ p, i = .forkRun q p) → Moves i q .used .runnable
  | reaped : Moves i q .zombie .unused

/-- State changes are made under `p->lock`, in one of these ways. -/
theorem Effect.moves (he : Effect d i d') (ht : Typed me H (i :: rest))
    (hm : ∀ q, makes i = some q → d.state q = madeState i) (q : Nat) :
    d'.state q = d.state q ∨ (.proc q ∈ H ∧ Moves i q (d.state q) (d'.state q)) := by
  obtain ⟨hp, -, -⟩ := ht
  -- all but the changed entry are the same
  have one : ∀ {j : Nat} {x : Proc}, (j = q → x.state = d.state q ∨ (.proc q ∈ H ∧ Moves i q (d.state q) x.state)) →
      (d.put j x).state q = d.state q ∨ (.proc q ∈ H ∧ Moves i q (d.state q) ((d.put j x).state q)) := by
    intro j x hx
    by_cases e : j = q
    · subst e
      simpa [Data.state, Data.put] using hx rfl
    · exact Or.inl (by simp [Data.state, Data.put, Ne.symm e])
  cases he with
  | same | sleep | alloc | takePid | take | takeFree | free => exact Or.inl rfl
  | setChan | tidy | setKilled | mem | copy | parent | closed | reparent | own =>
    exact one fun e => Or.inl (by rw [← e]; rfl)
  | dispatch hr =>
    refine one fun e => Or.inr ⟨by rw [hp.2.1, e]; simp, ?_⟩
    subst e
    rw [hr]
    exact .dispatched rfl
  | setRunnable => exact one fun e => Or.inr ⟨by rw [hp.2.1, e]; simp, .left (Or.inl (by rw [e])) (by simp)⟩
  | nap => exact one fun e => Or.inr ⟨by rw [hp.2.1, e]; simp, .left (Or.inr (Or.inl ⟨_, _, by rw [e]⟩)) (by simp)⟩
  | @zombie p status =>
    exact one (j := p) (x := { d.procs p with xstate := status, state := .zombie }) fun e =>
      Or.inr ⟨by rw [hp.2.1, e]; simp, .left (Or.inr (Or.inr ⟨_, by rw [e]⟩)) (by simp)⟩
  | wake =>
    refine one fun e => ?_
    unfold Proc.wake
    split
    · rename_i hs
      refine Or.inr ⟨by rw [hp.1, e]; simp, ?_⟩
      rw [← e, show d.state _ = _ from hs.1]
      exact .woken
    · exact Or.inl (by rw [← e]; rfl)
  | kill =>
    refine one fun e => ?_
    unfold Proc.kill
    split
    · rename_i hs
      refine Or.inr ⟨by rw [hp.1, e]; simp, ?_⟩
      rw [← e, show d.state _ = _ from hs]
      exact .woken
    · exact Or.inl (by rw [← e]; rfl)
  | setUsed =>
    refine one fun e => Or.inr ⟨by rw [hp.2.1, e]; simp, ?_⟩
    rw [hm q (by rw [← e]; rfl)]
    exact .taken (by rw [← e]; rfl)
  | memFail | copyFail =>
    refine one fun e => Or.inr ⟨by rw [hp.2.1, e]; simp, ?_⟩
    rw [hm q (by rw [← e]; rfl)]
    exact .given (by rw [← e]; rfl)
  | run =>
    refine one fun e => Or.inr ⟨by rw [hp.2.1, e]; simp, ?_⟩
    rw [hm q (by rw [← e]; rfl)]
    exact .started (by rw [← e]; rfl) ⟨_, by rw [← e]⟩
  | @reap i p hz =>
    refine one (j := i) (x := (d.procs i).freeproc) fun e => Or.inr ⟨by rw [hp.2.1, e]; simp, ?_⟩
    rw [← e, hz]
    exact .reaped

/-- The instructions on the way to `sched`, and the scheduler's choice of a process. -/
def turns : Instr → Prop
  | .setRunnable _ => True
  | .setChan _ _ _ => True
  | .nap _ _ _ => True
  | .exitZombie _ _ => True
  | .dispatch _ => True
  | _ => False

theorem codeOp_quiet {k : Ctx} {held : List Nat} {o : Op}
    (hq : Quiet rest) (he : codeOp me d k held o = some (.ok d' is sp)) : Quiet (is ++ rest) := by
  cases o <;> simp only [codeOp, next, withProc] at he <;> repeat' split at he
  all_goals cases he
  all_goals first | exact hq | exact quiet_cons.mpr trivial | exact quiet_cons.mpr (by simp [quietHead])

theorem exec_quiet (ht : Typed me H (i :: rest))
    (he : exec me d ch i = some (.ok d' is sp)) (hi : ¬ turns i) : Quiet (is ++ rest) := by
  obtain ⟨hp, -, -⟩ := ht
  cases i with
  | setRunnable | setChan | nap | exitZombie | dispatch => exact absurd trivial hi
  | scan i =>
    simp only [exec, next] at he
    split at he <;> cases he <;> exact quiet_cons.mpr trivial
  | tidy p c lk =>
    obtain ⟨-, -, r, rfl⟩ := hp
    simp only [exec, next] at he
    cases he
    exact quiet_cons.mpr (by simp [quietHead])
  | code k held =>
    simp only [exec] at he
    split at he
    · exact codeOp_quiet hp.2.2 he
    · cases he
  | user =>
    obtain ⟨⟨p, rfl⟩, -⟩ := hp
    simp only [exec, next, withProc] at he
    split at he <;> cases he
    rename_i t
    cases t <;> simp [usertrap, quiet_cons, quietHead]
  | killFrom | killAt | yieldIf =>
    have hq := hp.2
    simp only [exec, next] at he
    repeat' split at he
    all_goals cases he
    all_goals first | exact hq | exact quiet_cons.mpr trivial | exact quiet_cons.mpr (by simp [quietHead])
  | wakeupFrom =>
    have hq := hp.2.2
    simp only [exec, next] at he
    repeat' split at he
    all_goals cases he
    all_goals first | exact hq | exact quiet_cons.mpr trivial
  | wakeAt =>
    simp only [exec, next] at he
    cases he
    exact quiet_cons.mpr (by simp [quietHead])
  | takeFree | freeSleep | releasesleep | sleep | forkret =>
    simp only [exec, next, withProc] at he
    repeat' split at he
    all_goals cases he
    all_goals first | exact quiet_cons.mpr trivial | exact quiet_cons.mpr (by simp [quietHead])
  | allocFrom | allocAt | takePid | setUsed | allocMem | forkCopy | forkParent | forkRun | fork =>
    have hq := hp.2.2.1
    simp only [exec, next, withProc] at he
    repeat' split at he
    all_goals cases he
    all_goals first | exact hq | exact quiet_cons.mpr trivial | exact quiet_cons.mpr (by simp [quietHead])
  | waitScan i p havekids =>
    have hq := hp.2.2
    simp only [exec, next] at he
    repeat' split at he
    all_goals cases he
    all_goals first | exact hq.release | exact quiet_cons.mpr trivial
  | _ =>
    simp only [exec, next, withProc] at he
    repeat' split at he
    all_goals cases he
    all_goals have hq := hp.2.2
    all_goals first | exact hq | exact quiet_cons.mpr trivial | exact quiet_cons.mpr (by simp [quietHead])

/-- The process itself. -/
theorem exec_leaves (ht : Typed (some p) H (i :: rest))
    (he : exec (some p) d ch i = some (.ok d' is sp)) (hl : leaves (i :: rest) = some (d.state p))
    (hm : ∀ q, makes i = some q → d.state q = madeState i) : leaves (is ++ rest) = some (d'.state p) := by
  by_cases hi : turns i
  · obtain ⟨hp, -, -⟩ := ht
    cases i with
    | setRunnable p' | nap p' c lk =>
      obtain ⟨hme, -, r, rfl⟩ := hp
      cases hme
      simp only [exec, next] at he
      cases he
      simp [leaves, after, Data.state, Data.put]
    | setChan p' c lk =>
      obtain ⟨hme, -, r, rfl⟩ := hp
      cases hme
      simp only [exec, next] at he
      cases he
      simpa [leaves, Data.state, Data.put] using hl
    | exitZombie p' status =>
      obtain ⟨hme, -, -⟩ := hp
      cases hme
      simp only [exec, next] at he
      cases he
      simp [leaves, after, Data.state, Data.setZombie, Data.put]
    | dispatch j => cases hp.1
    | _ => exact hi.elim
  · rw [(exec_quiet ht he hi).leaves]
    have hrun : d.state p = .running := by
      cases i with
      | setRunnable | setChan | nap | exitZombie | dispatch => exact absurd trivial hi
      | acquire | release | intrOn | intrOff | iret | scheduler | setProc | swtchTo | sched | swtchBack | setIntena |
        zombieExit =>
        simp only [exec] at he
        cases he
      | _ => exact (Option.some.inj hl).symm
    rcases (exec_effect he).moves ht hm p with e | ⟨-, hmv⟩
    · rw [e, hrun]
    · rw [hrun] at hmv
      cases hmv with
      | left hc =>
        rcases hc with rfl | ⟨c, lk, rfl⟩ | ⟨st, rfl⟩ <;> exact absurd trivial hi

/-- `myproc()` is the process whose thread this is. -/
theorem Inv.myproc (hi : Inv s) (hc : s.code h = i :: rest) (hx : cproc (i :: rest) = none) :
    (s.harts h).proc = s.cur h := by
  cases hcur : s.cur h with
  | none =>
    have hcode := code_none hcur
    rw [(hi.off hcur).proc, ← hcode, hc, hx]
  | some p => exact (hi.on hcur).1

/-- The kernel panics only where `initproc` calls `exit`. -/
theorem exec_panic {e : Panic} (ht : Typed me H (i :: rest))
    (hi : i ≠ .zombieExit) (he : exec me d ch i = some (.panic e)) : e = .initExiting := by
  obtain ⟨hp, -, -⟩ := ht
  cases i with
  | zombieExit => exact absurd rfl hi
  | code k held =>
    simp only [exec] at he
    split at he
    · rename_i o
      cases o <;> simp only [codeOp, next] at he <;> repeat' split at he
      all_goals try cases he
      all_goals
        rename_i hk
        obtain ⟨p, rfl⟩ := hp.2.1 hk
        simp only [withProc] at he
        all_goals cases he
    · cases he
  | exit status =>
    obtain ⟨⟨p, rfl⟩, -⟩ := hp
    simp only [exec, next, withProc] at he
    split at he <;> cases he
    rfl
  | yield | checkKilled | fork | wait | acquiresleep | releasesleep | user =>
    obtain ⟨⟨p, rfl⟩, -⟩ := hp
    simp only [exec, next, withProc] at he
    repeat' split at he
    all_goals cases he
  | sleep | forkret =>
    obtain ⟨p, rfl, -⟩ := hp
    simp only [exec, next, withProc] at he
    cases he
  | _ =>
    simp only [exec, next] at he
    repeat' split at he
    all_goals cases he

def forks : Instr → Prop
  | .fork => True
  | .allocFrom _ _ => True
  | .allocAt _ _ => True
  | .takePid _ _ => True
  | .setUsed _ _ _ => True
  | .allocMem _ _ => True
  | .forkCopy _ _ => True
  | .forkParent _ _ => True
  | .forkRun _ _ => True
  | _ => False

theorem Typed.alone (ht : Typed me H (i :: rest)) (hf : forks i) : made rest = [] := by
  obtain ⟨hp, -, -⟩ := ht
  cases i with
  | fork | allocFrom | allocMem | forkCopy | forkParent | forkRun => exact hp.2.2.2
  | allocAt | takePid | setUsed => exact hp.2.2.2.1
  | _ => exact hf.elim

theorem not_made (h : made is = []) (hj : j ∈ is) : makes j ≠ some m := fun e =>
  absurd (List.filterMap_eq_nil_iff.mp h j hj) (by simp [e])

theorem forks_of_makes (h : makes i = some m) : forks i := by
  cases i <;> first | exact trivial | cases h

theorem base_of_unused (hm : makes j = some m) (hu : madeState j = .unused) : base j = [.proc m] := by
  cases j with
  | takePid | setUsed => cases hm; rfl
  | _ => cases hu

theorem MadeOk.state (h : MadeOk s m j) : s.data.state m = madeState j := by
  cases j <;> first | exact h | exact h.1

theorem madeState_cases (j : Instr) : madeState j = .unused ∨ madeState j = .used := by
  cases j <;> first | exact Or.inl rfl | exact Or.inr rfl

/-- Only `allocproc` takes a slot. -/
theorem Effect.maker (he : Effect d i d') (m : Nat) :
    d'.maker m = d.maker m ∨ ∃ p, i = .allocAt m p ∧ d.state m = .unused := by
  cases he with
  | @alloc j p hu =>
    by_cases e : m = j
    · exact Or.inr ⟨p, by rw [e], by rw [e]; exact hu⟩
    · exact Or.inl (upd_ne e _)
  | _ => exact Or.inl rfl

theorem Inv.unused_off (hi : Inv s) (hp : s.data.state p = .unused) : ∀ k, s.cur k ≠ some p := fun k hk => by
  have := (hi.on hk).2.2
  rw [hp] at this
  unfold leaves after at this
  repeat' split at this
  all_goals cases this

/-- A slot some `fork` is working on is not touched by another thread, nor by this one between its
    own instructions. -/
theorem Inv.made_exec (hi : Inv s) (hh : Holds s h H) (hc : s.code h = i :: rest) (he : Effect s.data i d)
    (hj : j ∈ s.proc p) (hm : makes j = some m) (hp : s.cur h ≠ some p ∨ ¬ forks i) :
    d.maker m = some p ∧ d.state m = s.data.state m := by
  obtain ⟨hmk, hok⟩ := hi.made hj hm
  have hst := hok.state
  have hty := hh.typed
  rw [hc] at hty
  -- an instruction of `fork` on this hart belongs to the thread of the process that runs there
  have hmine : ∀ {m'}, makes i = some m' → ∃ p', s.cur h = some p' ∧ i ∈ s.proc p' := fun {m'} hi' => by
    cases hcur : s.cur h with
    | none =>
      rw [hcur] at hty
      cases i with
      | takePid | setUsed | allocMem | forkCopy | forkParent | forkRun => cases hty.1.1
      | _ => cases hi'
    | some p' =>
      have hcode : s.code h = s.proc p' := by simp [St.code, hcur]
      exact ⟨p', rfl, by rw [← hcode, hc]; exact List.mem_cons_self⟩
  have hother : makes i ≠ some m := fun hi' => by
    obtain ⟨p', hcur, hmem⟩ := hmine hi'
    have := (hi.made hmem hi').1
    rw [hmk] at this
    cases this
    exact hp.elim (fun h => h hcur) fun h => h (forks_of_makes hi')
  constructor
  · rcases he.maker m with e | ⟨p', rfl, hu⟩
    · rw [e]; exact hmk
    · exfalso
      obtain ⟨hcur, hH, -⟩ := hty.1
      have hb := base_of_unused hm (hst ▸ hu)
      have hlock : s.lock (.proc m) = some h := (hh.lock _).mpr (by rw [hH]; simp)
      have hneeds : Lock.proc m ∈ needs (s.proc p) := List.mem_flatMap.mpr ⟨j, hj, by rw [hb]; simp⟩
      by_cases hon : ∃ k, s.cur k = some p
      · obtain ⟨k, hk⟩ := hon
        obtain ⟨K, hK⟩ := hi.holds k
        have htk := hK.typed
        simp only [St.code, hk] at htk
        have := (hK.lock _).mpr (htk.needs_sub hneeds)
        rw [hlock] at this
        cases this
        exact hp.elim (fun h => h hk) fun h => h trivial
      · rw [(hi.parked fun k hk => hon ⟨k, hk⟩).needs] at hneeds
        exact absurd hneeds List.not_mem_nil
  · have hmi : ∀ q, makes i = some q → s.data.state q = madeState i := fun q hq => by
      obtain ⟨p', -, hmem⟩ := hmine hq
      exact (hi.made hmem hq).2.state
    rcases he.moves hty hmi m with e | ⟨hlk, hmv⟩
    · exact e
    · exfalso
      rw [hst] at hmv
      have hoff : ∀ k, s.cur k ≠ some m := by
        rcases madeState_cases j with e | e
        · exact hi.unused_off (hst.trans e)
        · exact hi.used_off (hst.trans e)
      have hleft : ∀ {a b}, Moves i m a b → a = madeState j → False := by
        intro a b hmv e
        cases hmv with
        | left hc' =>
          refine hoff h ?_
          rcases hc' with rfl | ⟨c, lk, rfl⟩ | ⟨st, rfl⟩ <;> exact hty.1.1
        | taken hi' | given hi' => exact hother hi'
        | started hi' => exact hother hi'
        | _ => rcases madeState_cases j with e' | e' <;> rw [e'] at e <;> cases e
      exact hleft hmv rfl

/-- Other instructions than `fork`'s put none of `fork`'s in front. -/
theorem exec_made_nil (hi : ¬ forks i) (he : exec me d ch i = some (.ok d' is sp)) : made is = [] := by
  cases i with
  | fork | allocFrom | allocAt | takePid | setUsed | allocMem | forkCopy | forkParent | forkRun =>
    exact absurd trivial hi
  | code k held =>
    simp only [exec] at he
    split at he
    · rename_i o
      cases o <;> simp only [codeOp, next, withProc] at he <;> repeat' split at he
      all_goals cases he
      all_goals simp [makes]
    · cases he
  | user =>
    simp only [exec, next, withProc] at he
    repeat' split at he
    all_goals cases he
    rename_i t p _
    cases t <;> simp [usertrap, makes]
  | _ =>
    simp only [exec, next, withProc] at he
    repeat' split at he
    all_goals cases he
    all_goals simp [makes]

/-- The slot a `fork` works on, after one of its instructions. -/
theorem exec_made (ht : Typed me H (i :: rest))
    (he : exec me d ch i = some (.ok d' is sp)) (hmk : ∀ q, makes i = some q → d.state q = madeState i ∧ d.maker q = me)
    (hj : j ∈ is) (hm : makes j = some m) :
    d'.maker m = me ∧ d'.state m = madeState j ∧ (madeState j = .used → (∃ p, j = .allocMem m p) ∨ sp = some m ∨
      makes i = some m ∧ madeState i = .used ∧ ∀ p, i ≠ .allocMem m p) := by
  by_cases hi : forks i
  · obtain ⟨hp, -, -⟩ := ht
    cases i with
    | fork | allocFrom | forkRun =>
      simp only [exec, next, withProc] at he
      repeat' split at he
      all_goals cases he
      all_goals exact absurd hm (not_made (by simp [makes]) hj)
    | allocAt n p =>
      obtain ⟨rfl, -, -⟩ := hp
      simp only [exec, next] at he
      split at he <;> cases he <;> simp at hj
      · rename_i hu
        rcases hj with rfl | rfl <;> cases hm
        exact ⟨by simp, hu, by simp [madeState]⟩
      · rcases hj with rfl | rfl <;> cases hm
    | takePid n p =>
      obtain ⟨h1, h2⟩ := hmk n rfl
      simp only [exec, next] at he
      cases he
      simp at hj
      rcases hj with rfl | rfl <;> cases hm
      exact ⟨h2, h1, by simp [madeState]⟩
    | setUsed n p pid =>
      obtain ⟨h1, h2⟩ := hmk n rfl
      simp only [exec, next] at he
      cases he
      simp at hj
      rcases hj with rfl | rfl <;> cases hm
      exact ⟨h2, by simp [Data.state, Data.put, madeState], fun _ => Or.inl ⟨p, rfl⟩⟩
    | allocMem n p =>
      obtain ⟨h1, h2⟩ := hmk n rfl
      simp only [exec, next] at he
      split at he <;> cases he <;> simp at hj
      · rw [hj] at hm; cases hm
      · rcases hj with rfl | rfl <;> cases hm
        refine ⟨h2, ?_, fun _ => Or.inr (Or.inl rfl)⟩
        simpa [Data.state, Data.put, madeState] using h1
    | forkCopy n p =>
      obtain ⟨h1, h2⟩ := hmk n rfl
      simp only [exec, next] at he
      split at he <;> cases he <;> simp at hj
      · rw [hj] at hm; cases hm
      · rcases hj with rfl | rfl | rfl | rfl <;> cases hm
        refine ⟨h2, ?_, fun _ => Or.inr (Or.inr ⟨rfl, rfl, by simp⟩)⟩
        simpa [Data.state, Data.put, Proc.inherit, madeState] using h1
    | forkParent n p =>
      obtain ⟨h1, h2⟩ := hmk n rfl
      simp only [exec, next] at he
      cases he
      simp at hj
      rcases hj with rfl | rfl | rfl <;> cases hm
      refine ⟨h2, ?_, fun _ => Or.inr (Or.inr ⟨rfl, rfl, by simp⟩)⟩
      simpa [Data.state, Data.put, madeState] using h1
    | _ => exact hi.elim
  · exact absurd hm (not_made (exec_made_nil hi he) hj)

theorem exec_inv (hi : Inv s) (hc : s.code h = i :: rest) (hx : cproc (i :: rest) = none)
    (he : exec (s.harts h).proc s.data ch i = some (.ok d is sp)) (hdata : s'.data = d) (hharts : s'.harts = s.harts)
    (hlock : s'.lock = s.lock) (hcur : s'.cur = s.cur) (hpanic : s'.panic = s.panic)
    (hsched : s'.sched = (s.goto h (is ++ rest)).sched)
    (hproc : ∀ p, s'.proc p = if sp = some p then [.forkret] else (s.goto h (is ++ rest)).proc p) : Inv s' := by
  obtain ⟨H, hh, hty⟩ := hi.typed hc
  rw [hi.myproc hc hx] at he
  have heff := exec_effect he
  -- an instruction of `fork` works on a slot of its own
  have hmine : ∀ q, makes i = some q → ∃ p, s.cur h = some p ∧ i ∈ s.proc p := fun q hq => by
    cases hcur : s.cur h with
    | none =>
      rw [hcur] at hty
      cases i with
      | takePid | setUsed | allocMem | forkCopy | forkParent | forkRun => cases hty.1.1
      | _ => cases hq
    | some p =>
      have hcode := code_some hcur
      exact ⟨p, rfl, by rw [← hcode, hc]; exact List.mem_cons_self⟩
  have hmk : ∀ q, makes i = some q → s.data.state q = madeState i ∧ s.data.maker q = s.cur h := fun q hq => by
    obtain ⟨p, hp, hmem⟩ := hmine q hq
    obtain ⟨h1, h2⟩ := hi.made hmem hq
    exact ⟨h2.state, by rw [h1, hp]⟩
  have hmst := fun q hq => (hmk q hq).1
  -- a slot whose context is reset is USED and not executed
  have hsp : ∀ q, sp = some q → s.data.state q = .used := fun q hq => by
    subst hq
    obtain ⟨p, rfl⟩ := exec_spawn he
    exact hmst q rfl
  have hspoff : ∀ q, sp = some q → ∀ k, s.cur k ≠ some q := fun q hq => hi.used_off (hsp q hq)
  have hown : ∀ p, s.cur h = some p → s'.proc p = is ++ rest := fun p hp => by
    rw [hproc, if_neg fun e => hspoff p e h hp, goto_proc, if_pos hp]
  have hoth : ∀ p, s.cur h ≠ some p → s'.proc p = s.proc p ∨ (s.data.state p = .used ∧ s'.proc p = [.forkret]) :=
      fun p hp => by
    rw [hproc]
    split
    · rename_i e
      exact Or.inr ⟨hsp p e, rfl⟩
    · rw [goto_proc, if_neg hp]
      exact Or.inl rfl
  have hfr : Frame s s' h := by
    refine ⟨hcur, fun k _ => by rw [hharts], fun k _ l => by rw [hlock], fun k hk => ?_, hoth⟩
    rw [hsched, goto_sched]
    split
    · rename_i e
      exact upd_ne (hk.resolve_right fun hne => hne e) _
    · rfl
  have hschedh : s.cur h = none → s'.sched h = is ++ rest := fun e => by
    rw [hsched, goto_sched, if_pos e, upd_same]
  have hcode' : s'.code h = is ++ rest := by
    unfold St.code
    rw [hcur]
    cases e : s.cur h with
    | none => exact hschedh e
    | some p => exact hown p e
  have hmoves := heff.moves hty hmst
  -- a forked child starts in `forkret`
  have hparked : ∀ q, s.cur h ≠ some q → d.state q ≠ s.data.state q → s.data.state q ≠ .running ∧
      s.lock (.proc q) = some h ∧ ((∀ k, s.cur k ≠ some q) → Parked s' q) := by
    intro q hq hne
    obtain ⟨hl, hmv⟩ := (hmoves q).resolve_left hne
    refine ⟨fun hr => ?_, (hh.lock _).mpr hl, fun hoff => ?_⟩
    · rw [hr] at hmv
      cases hmv with
      | left hc' =>
        refine hq ?_
        rcases hc' with rfl | ⟨c, lk, rfl⟩ | ⟨st, rfl⟩ <;> exact hty.1.1
    · have hP := hi.parked hoff
      have hpq : s'.proc q = s.proc q ∨ (s.data.state q = .used ∧ s'.proc q = [.forkret]) := hoth q hq
      have hneeds : needs (s'.proc q) = [] := by
        rcases hpq with e | ⟨-, e⟩ <;> rw [e]
        · exact hP.needs
        · rfl
      generalize ha : s.data.state q = a at hmv hne
      generalize hb : d.state q = b at hmv hne
      cases hmv with
      | woken =>
        have e := hpq.resolve_right fun hu => by rw [ha] at hu; cases hu.1
        refine ⟨hneeds, fun _ => ?_, ?_, ?_⟩
        · rw [e]; exact hP.typed (Or.inl ha)
        · rw [hdata, hb]; simp
        · rw [hdata, hb]; simp
      | dispatched hd =>
        subst hd
        have e := hpq.resolve_right fun hu => by rw [ha] at hu; cases hu.1
        refine ⟨hneeds, fun _ => ?_, ?_, fun _ => ⟨h, ?_⟩⟩
        · rw [e]; exact hP.typed (Or.inr (Or.inl ha))
        · rw [hdata, hb]; simp
        · have hn : s.cur h = none := hty.1.1
          refine ⟨by rw [hcur]; exact hn, ?_⟩
          rw [hschedh hn]
          simp only [exec, next, show s.data.state q = .runnable from ha, if_true] at he
          cases he
          rfl
      | left hc' =>
        exfalso
        refine hq ?_
        rcases hc' with rfl | ⟨c, lk, rfl⟩ | ⟨st, rfl⟩ <;> exact hty.1.1
      | taken | given | reaped =>
        exact ⟨hneeds, by rw [hdata, hb]; simp, by rw [hdata, hb]; simp, by rw [hdata, hb]; simp⟩
      | started hm hr =>
        obtain ⟨p', rfl⟩ := hr
        obtain ⟨p, -, hmem⟩ := hmine q hm
        have e : s'.proc q = [.forkret] := by
          rcases hpq with e | ⟨-, e⟩ <;> rw [e]
          exact (hi.made hmem hm).2.2
        refine ⟨hneeds, fun _ => ?_, ?_, ?_⟩
        · rw [e]
          exact ⟨⟨⟨q, rfl, rfl, rfl⟩, by simp [base], rfl⟩, Or.inl rfl⟩
        · rw [hdata, hb]; simp
        · rw [hdata, hb]; simp
  refine hi.frame hfr
    ⟨H, hh.nodup, by rw [hlock]; exact hh.lock, by rw [hharts]; exact hh.noff, by rw [hharts]; exact hh.intr,
      by rw [hcur, hcode']; exact exec_typed hh.nodup hty he⟩
    (fun {p} hp => ?_) (fun hp => ?_) (fun hp q hq => ?_) (fun q hq => ?_) (fun {p j m} hj hm => ?_)
      (by rw [hpanic]; exact hi.fine)
  · have hcode := code_some hp
    obtain ⟨h1, -, h3⟩ := hi.on hp
    rw [← hcode, hc] at h3
    rw [hp] at hty he
    rw [hharts, hown p hp, hdata]
    exact ⟨h1, exec_leaves hty he h3 hmst⟩
  · have hme := hi.myproc hc hx
    rw [hp] at hty he hme
    by_cases ht : turns i
    · cases i with
      | dispatch j =>
        obtain ⟨-, -, rfl⟩ := hty.1
        have hlk : s.lock (.proc j) = some h := (hh.lock _).mpr (by rw [hty.1.2.1]; simp)
        simp only [exec, next] at he
        split at he <;> cases he
        · rename_i hr
          refine ⟨by rw [hharts, hme, hschedh hp]; rfl, fun j' hj' => ?_, fun j' hj' => ?_⟩ <;>
            rw [hschedh hp] at hj' <;> cases hj'
          refine ⟨by rw [hdata]; simp [Data.state, Data.put], fun k hk => ?_⟩
          rw [hcur] at hk
          have hkh : k ≠ h := fun e => by rw [e, hp] at hk; cases hk
          have := hi.state_kept hk hkh hlk
          rw [hr] at this
          cases this
        · refine ⟨by rw [hharts, hme, hschedh hp]; rfl, fun j' hj' => ?_, fun j' hj' => ?_⟩ <;>
            rw [hschedh hp] at hj' <;> cases hj'
      | setRunnable | setChan | nap | exitZombie => cases hty.1.1
      | _ => exact ht.elim
    · have hq := exec_quiet hty he ht
      refine ⟨by rw [hharts, hme, hschedh hp, hq.cproc], fun j' hj' => ?_, fun j' hj' => ?_⟩ <;> rw [hschedh hp] at hj'
      · rw [hq.handing] at hj'; cases hj'
      · rw [hq.returned] at hj'; cases hj'
  · have hcode := code_none hp
    rw [← hcode, hc] at hq
    unfold handing at hq
    split at hq
    · rename_i e
      cases e
      cases he
    · rename_i e
      cases e
      cases he
    · cases hq
  · by_cases e : d.state q = s.data.state q
    · exact Or.inl (by rw [hdata]; exact e)
    · obtain ⟨h1, h2, h3⟩ := hparked q hq e
      exact Or.inr ⟨h2, h1, h3⟩
  · -- a pending instruction of `fork`: of another thread, further down in this one, or just written
    have keep : ∀ {p j m}, j ∈ s.proc p → makes j = some m → s.cur h ≠ some p ∨ ¬ forks i →
        s'.data.maker m = some p ∧ MadeOk s' m j := by
      intro p j m hj hm hp
      obtain ⟨h1, h2⟩ := hi.made_exec hh hc heff hj hm hp
      refine ⟨by rw [hdata]; exact h1, (hi.made hj hm).2.mono (by rw [hdata]; exact h2) fun hu hf => ?_⟩
      rcases hoth m (hi.used_off hu h) with e | ⟨-, e⟩ <;> rw [e]
      exact hf
    by_cases hp : s.cur h = some p
    · have hcode := code_some hp
      rw [hown p hp] at hj
      rcases List.mem_append.mp hj with hj | hj
      · obtain ⟨h1, h2, h3⟩ := exec_made hty he hmk hj hm
        rw [hdata]
        refine ⟨by rw [h1, hp], ?_⟩
        have hfk : ¬ (∃ p, j = .allocMem m p) → madeState j = .used → s'.proc m = [.forkret] := fun hna hu => by
          rcases h3 hu with ha | e | ⟨hmi, hus, hna'⟩
          · exact absurd ha hna
          · rw [hproc, if_pos e]
          · obtain ⟨p', -, hmem⟩ := hmine m hmi
            have hok := (hi.made hmem hmi).2
            have hf : s.proc m = [.forkret] := by
              cases i with
              | allocMem => cases hmi; exact absurd rfl (hna' _)
              | takePid | setUsed => cases hus
              | forkCopy | forkParent | forkRun => exact hok.2
              | _ => cases hmi
            rcases hoth m (hi.used_off (hok.state.trans hus) h) with e | ⟨-, e⟩ <;> rw [e]
            exact hf
        unfold MadeOk
        rw [hdata, h2]
        cases j with
        | takePid | setUsed | allocMem => rfl
        | forkCopy | forkParent | forkRun => exact ⟨rfl, hfk (by simp) rfl⟩
        | _ => cases hm
      · by_cases hf : forks i
        · exact absurd hm (not_made (hty.alone hf) hj)
        · exact keep (by rw [← hcode, hc]; exact List.mem_cons_of_mem _ hj) hm (Or.inr hf)
    · rcases hoth p hp with e | ⟨-, e⟩ <;> rw [e] at hj
      · exact keep hj hm (Or.inl hp)
      · simp only [List.mem_singleton] at hj
        rw [hj] at hm
        cases hm

end Xv6.Process
