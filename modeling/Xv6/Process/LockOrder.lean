/-
  Xv6.Process.LockOrder — the spinlocks of kernel/proc.c and kernel/sleeplock.c do not deadlock.

  The code takes them in one order: `wait_lock` or the spinlock of a sleep-lock, then one `p->lock`,
  then `pid_lock`, with other locks of the kernel around them. Which locks a thread holds at an
  `acquire` is what `Typed` asks of the instructions behind it, so the order is a property of the
  thread alone (`Ordered`).
-/
import Xv6.Process.Machine

namespace Xv6.Process

def Lock.rank : Lock → Nat
  | .other _ => 0
  | .wait | .sleeplock _ => 1
  | .proc _ => 2
  | .pid => 3

def Below (H : List Lock) (l : Lock) : Prop := 0 < l.rank → ∀ m ∈ H, m.rank < l.rank

def inOrder (rest : List Instr) : Instr → Prop
  | .acquire l => ∀ me H, Typed me (l :: H) rest → Below H l
  -- `sleep` takes its lock again
  | .sleep _ l => l.rank < 2 ∧ ∀ me H, Typed me (l :: H) rest → Below H l
  | .wakeupFrom _ _ g => .pid ∉ g
  | .wakeAt _ _ g => .pid ∉ g
  | _ => True

def Ordered : List Instr → Prop
  | [] => True
  | i :: rest => inOrder rest i ∧ Ordered rest

/-- Hart `h` spins for a lock of the order that hart `k` holds. -/
def Spins (s : St) (h k : Nat) : Prop := ∃ l rest, s.code h = .acquire l :: rest ∧ s.lock l = some k ∧ 0 < l.rank

variable {s s' : St} {h a b c : Nat} {i : Instr} {is rest : List Instr}

/-! ## Every thread keeps to the order -/

section
variable {me : Option Nat} {d d' : Data} {ch : Choice} {sp : Option Nat} {j : Instr} {l : Lock}

theorem below_nil : Below [] l := fun _ _ hm => absurd hm List.not_mem_nil

/-- The instruction behind an `acquire` says over which locks it is taken. -/
theorem Ordered.acquire (hb : ∀ me H, pre me (l :: H) rest j → Below H l) (ho : Ordered (j :: rest)) :
    Ordered (.acquire l :: j :: rest) := ⟨fun me H ht => hb me H ht.1, ho⟩

theorem Ordered.acquire_only (hb : ∀ me H, pre me H rest j → H = [l]) (ho : Ordered (j :: rest)) :
    Ordered (.acquire l :: j :: rest) := by
  refine .acquire (fun me H hp => ?_) ho
  cases hb me _ hp
  exact below_nil

/-- In the rest of the kernel a lock of the order is taken over others only. -/
theorem below_code {k : Ctx} {held : List Nat} {H : List Lock} (hk : k = .proc) (hp : pre me H rest (.code k held)) :
    Below H l := by
  obtain ⟨⟨R, rfl, -, hR⟩, -, -⟩ := hp
  intro hpos m hm
  rw [hR (by rw [hk]; decide), List.append_nil] at hm
  obtain ⟨n, -, rfl⟩ := List.mem_map.mp hm
  exact hpos

theorem codeOp_ordered {k : Ctx} {held : List Nat} {o : Op} (ho : Ordered rest)
    (he : codeOp me d k held o = some (.ok d' is sp)) : Ordered (is ++ rest) := by
  have hcode : ∀ held, Ordered (.code k held :: rest) := fun _ => ⟨trivial, ho⟩
  cases o with
  | done =>
    simp only [codeOp, next] at he
    split at he <;> cases he
    exact ho
  | acquire n =>
    simp only [codeOp, next] at he
    split at he <;> cases he
    exact .acquire (fun _ _ _ h0 => absurd h0 (Nat.lt_irrefl 0)) (hcode _)
  | release n | acquiresleep n | releasesleep n =>
    simp only [codeOp, next] at he
    split at he <;> cases he
    exact ⟨trivial, hcode _⟩
  | wakeup c =>
    simp only [codeOp, next] at he
    split at he <;> cases he
    exact ⟨by simp [inOrder], hcode _⟩
  | sleep c n =>
    simp only [codeOp, next] at he
    split at he <;> cases he
    exact ⟨⟨Nat.two_pos, fun _ _ _ h0 => absurd h0 (Nat.lt_irrefl 0)⟩, hcode _⟩
  | killed | iputLock n =>
    simp only [codeOp] at he
    split at he
    · obtain ⟨p, -, he⟩ := withProc_ok he
      cases he
      refine ⟨fun me H ht => ?_, trivial, hcode _⟩
      have hp := ht.2.2.1
      simp only [post, List.erase_cons_head] at hp
      exact below_code ‹_› hp
    · cases he
  | own sz ofile cwd =>
    simp only [codeOp] at he
    split at he
    · obtain ⟨p, -, he⟩ := withProc_ok he
      cases he
      exact hcode _
    · cases he

theorem usertrap_ordered (p : Nat) (t : Trap) (ho : Ordered rest) : Ordered (usertrap p t ++ rest) := by
  cases t with
  | fault => exact .acquire_only (fun _ _ hp => hp.2.1) ⟨trivial, trivial, trivial, trivial, trivial, ho⟩
  | timer | device | fork | exit status | wait | kill pid | call => simpa [usertrap, Ordered, inOrder] using ho

theorem exec_ordered (ho : Ordered (i :: rest)) (he : exec me d ch i = some (.ok d' is sp)) : Ordered (is ++ rest) := by
  obtain ⟨hi, ho⟩ := ho
  have hwait : ∀ {H : List Lock} {q : Nat}, Lock.proc q :: H = [.proc q, .wait] → Below H (.proc q) := fun h => by
    cases h
    exact fun _ m hm => by rw [List.mem_singleton.mp hm]; exact Nat.one_lt_two
  cases i with
  | scan i =>
    simp only [exec, next] at he
    split at he <;> cases he
    · exact .acquire_only (fun _ _ hp => hp.2.1) ⟨trivial, ho⟩
    · exact ⟨trivial, ho⟩
  | dispatch i =>
    simp only [exec, next] at he
    split at he <;> cases he
    · exact ⟨trivial, trivial, trivial, trivial, trivial, ho⟩
    · exact ⟨trivial, trivial, ho⟩
  | yield =>
    obtain ⟨p, -, he⟩ := withProc_ok he
    cases he
    exact .acquire_only (fun _ _ hp => hp.2.1) ⟨trivial, trivial, trivial, ho⟩
  | forkret =>
    obtain ⟨p, -, he⟩ := withProc_ok he
    cases he
    exact ⟨trivial, trivial, trivial, trivial, ho⟩
  | sleep c lk =>
    obtain ⟨p, -, he⟩ := withProc_ok he
    cases he
    refine ⟨fun me H ht _ m hm => ?_, trivial, trivial, trivial, trivial, trivial, trivial, hi.2, ho⟩
    -- once `lk` is released there is nothing but `p->lock`
    obtain ⟨-, -, ⟨-, hset, -⟩, -⟩ := ht
    have hne : Lock.proc p ≠ lk := fun e => absurd (e ▸ hi.1) (by simp [Lock.rank])
    simp [post, hne] at hset
    rcases hset with rfl | rfl
    · cases hm
    · exact List.mem_singleton.mp hm ▸ hi.1
  | wakeupFrom i c g =>
    simp only [exec, next] at he
    repeat' split at he
    all_goals cases he
    · exact ⟨hi, ho⟩
    · refine ⟨fun me H ht _ m hm => ?_, hi, ho⟩
      obtain ⟨⟨⟨⟩, hq, -⟩, -⟩ := ht
      cases m with
      | proc q => exact absurd hm (hq q)
      | pid => exact absurd hm hi
      | _ => simp [Lock.rank]
    · exact ho
  | wakeAt i c g =>
    cases he
    exact ⟨trivial, hi, ho⟩
  | killFrom i pid =>
    simp only [exec, next] at he
    split at he <;> cases he
    · exact .acquire_only (fun _ _ hp => hp.1) ⟨trivial, ho⟩
    · exact ho
  | checkKilled | wait | acquiresleep n | releasesleep n =>
    obtain ⟨p, -, he⟩ := withProc_ok he
    cases he
    exact .acquire_only (fun _ _ hp => hp.2.1) ⟨trivial, ho⟩
  | allocFrom i p =>
    simp only [exec, next] at he
    split at he <;> cases he
    · exact .acquire_only (fun _ _ hp => hp.2.1) ⟨trivial, ho⟩
    · exact ho
  | allocAt i p =>
    simp only [exec, next] at he
    split at he <;> cases he
    · refine .acquire (fun me H hp => ?_) ⟨trivial, ho⟩
      cases hp.2.1
      exact fun _ m hm => by rw [List.mem_singleton.mp hm]; exact Nat.lt_succ_self 2
    · exact ⟨trivial, trivial, ho⟩
  | forkCopy i p =>
    cases ch <;> cases he
    · exact ⟨trivial, trivial, .acquire_only (fun _ _ hp => hp.2.1) ⟨trivial, ho⟩⟩
    · exact ⟨trivial, ho⟩
  | forkParent i p =>
    cases he
    exact ⟨trivial, .acquire_only (fun _ _ hp => hp.2.1) ⟨trivial, ho⟩⟩
  | exit status =>
    obtain ⟨p, -, he⟩ := withProc_ok he
    split at he <;> cases he
    exact ⟨trivial, trivial, .acquire_only (fun _ _ hp => hp.2.1) ⟨trivial, ho⟩⟩
  | exitReparent i p status =>
    simp only [exec, next] at he
    repeat' split at he
    all_goals cases he
    · exact ⟨by simp [inOrder], trivial, ho⟩
    · exact ⟨trivial, ho⟩
    · exact ⟨by simp [inOrder], .acquire (fun _ _ hp => hwait hp.2.1) ⟨trivial, ho⟩⟩
  | waitScan i p havekids =>
    simp only [exec, next] at he
    repeat' split at he
    all_goals cases he
    · exact .acquire (fun _ _ hp => hwait hp.2.1) ⟨trivial, ho⟩
    · exact ⟨trivial, ho⟩
    · exact .acquire (fun _ _ hp => hwait hp.2.1) ⟨trivial, ho⟩
    · exact ⟨trivial, ho⟩
  | waitKilled p =>
    simp only [exec, next] at he
    split at he <;> cases he
    · exact ⟨trivial, trivial, ho⟩
    · refine ⟨trivial, ⟨Nat.one_lt_two, fun me H ht => ?_⟩, trivial, ho⟩
      cases ht.1.2.1
      exact below_nil
  | sleepLoop n p =>
    simp only [exec, next] at he
    split at he <;> cases he
    · refine ⟨⟨Nat.one_lt_two, fun me H ht => ?_⟩, trivial, ho⟩
      cases ht.1.2.1
      exact below_nil
    · exact ⟨trivial, ho⟩
  | freeSleep n p =>
    simp only [exec, next] at he
    split at he <;> cases he
    exact ⟨by simp [inOrder], trivial, ho⟩
  | code k held =>
    cases ch with
    | op o => exact codeOp_ordered ho he
    | _ => cases he
  | user =>
    cases ch with
    | trap t =>
      obtain ⟨p, -, he⟩ := withProc_ok he
      cases he
      exact usertrap_ordered p t ho
    | _ => cases he
  -- the rest takes no lock and calls neither `sleep` nor `wakeup`
  | _ =>
    simp only [exec, next, withProc, reduceCtorEq] at he
    repeat' split at he
    all_goals cases he
    all_goals simpa [Ordered, inOrder] using ho

end

structure ThreadsOrdered (s : St) : Prop where
  sched : ∀ h, Ordered (s.sched h)
  proc : ∀ p, Ordered (s.proc p)

namespace ThreadsOrdered

theorem code (ht : ThreadsOrdered s) (hc : s.code h = is) : Ordered is := by
  subst hc
  unfold St.code
  split
  · exact ht.sched h
  · exact ht.proc _

theorem goto (ht : ThreadsOrdered s) (ho : Ordered is) : ThreadsOrdered (s.goto h is) := by
  unfold St.goto
  split
  · exact ⟨forall_upd (fun k _ => ht.sched k) ho, ht.proc⟩
  · exact ⟨ht.sched, forall_upd (fun p _ => ht.proc p) ho⟩

theorem step (ht : ThreadsOrdered s) (hd : Does s h s') : ThreadsOrdered s' := by
  cases hd with
  | acquire hc _ | release hc _ => exact goto ⟨ht.sched, ht.proc⟩ (ht.code hc).2
  | flags hc hf =>
    have ho := ht.code hc
    refine goto ⟨ht.sched, ht.proc⟩ ?_
    cases hf <;> simp_all [Ordered, inOrder]
  | irq his _ =>
    refine goto ⟨ht.sched, ht.proc⟩ ?_
    rcases his with rfl | rfl <;> simp [Ordered, inOrder, ht.code rfl]
  | swtchTo hc | swtchBack hc =>
    have hg := ht.goto (h := h) (ht.code hc).2
    exact ⟨hg.sched, hg.proc⟩
  | @exec _ _ _ _ d _ hc _ he =>
    have hg := goto (s := { s with data := d }) (h := h) ⟨ht.sched, ht.proc⟩ (exec_ordered (ht.code hc) he)
    refine ⟨hg.sched, fun p => ?_⟩
    simp only [St.after]
    split
    exacts [⟨trivial, trivial⟩, hg.proc p]
  | stop => exact ⟨ht.sched, ht.proc⟩

end ThreadsOrdered

theorem threads_ordered (hr : Reach s) : ThreadsOrdered s := by
  induction hr with
  | init =>
    refine ⟨fun _ => ⟨trivial, trivial⟩, fun p => ?_⟩
    simp only [init]
    split <;> simp [Ordered, inOrder]
  | step e hr _ hs ih =>
    obtain ⟨h, hd⟩ := step_does (inv hr) hs
    exact ih.step hd

def St.wants (s : St) (h : Nat) : Nat :=
  match s.code h with
  | .acquire l :: _ => l.rank
  | _ => 0

theorem Spins.wants_lt (hr : Reach s) (hab : Spins s a b) (hbc : Spins s b c) : s.wants a < s.wants b := by
  obtain ⟨l, r, hl, hheld, -⟩ := hab
  obtain ⟨l', r', hl', -, hpos⟩ := hbc
  obtain ⟨H, hh, hty⟩ := (inv hr).typed hl'
  have hlt := ((threads_ordered hr).code hl').1 _ H hty.2.2 hpos l ((hh.lock l).mp hheld)
  simpa only [St.wants, hl, hl'] using hlt

/-- In every interleaving, harts that spin for `wait_lock`, `pid_lock`, a `p->lock` or the spinlock of a
    sleep-lock never wait for each other in a circle. -/
theorem no_spin_deadlock (hr : Reach s) (h : Nat) : ¬ Relation.TransGen (Spins s) h h := by
  intro hcycle
  have hchain : ∀ k, Relation.TransGen (Spins s) h k → ∀ j, Spins s k j → s.wants h < s.wants k := by
    intro k hk
    induction hk with
    | single hs => exact fun j hj => hs.wants_lt hr hj
    | tail _ hs ih => exact fun j hj => (ih _ hs).trans (hs.wants_lt hr hj)
  obtain ⟨j, hj, -⟩ := Relation.TransGen.head'_iff.mp hcycle
  exact (hchain h hcycle j hj).false

def twoSchedulers : List Ev := List.replicate 3 (.run 0 .go) ++ List.replicate 2 (.run 1 .go)

theorem no_spin_deadlock_two : ∃ s, runs init twoSchedulers = some s ∧ Spins s 1 0 ∧
    ¬ Relation.TransGen (Spins s) 1 1 :=
  ⟨_, rfl, ⟨_, _, rfl, rfl, by decide⟩, no_spin_deadlock (Reach.runs twoSchedulers .init rfl) 1⟩

end Xv6.Process
