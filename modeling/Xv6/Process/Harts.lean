/-
  Xv6.Process.Harts — the two models of a hart compute alike.

  `Xv6.Process.Sched` has the instructions of every thread, `Xv6.Process.Interrupts` any threads
  that keep the discipline of `push_off` and `pop_off`. Where both model a function (`acquire`,
  `release`, `sched`, the scheduler's switch) a step of the one is one or two steps of the
  other: `struct cpu`, the locks, the process states and the panic are the same behind it.
-/
import Xv6.Process.Sched
import Xv6.Process.Nesting

namespace Xv6.Interrupts

variable {s s' : Process.St} {t : St} {k p : Nat} {l l' : Process.Lock} {ch : Process.Choice}
  {rest : List Process.Instr}

def lockOf : Process.Lock → Lock
  | .proc p => .proc p
  | .wait => .other 0
  | .pid => .other 1
  | .sleeplock n => .other (2 * n + 2)
  | .other n => .other (2 * n + 3)

def panicOf : Process.Panic → Option Panic
  | .acquire => some .acquire
  | .release => some .release
  | .popOffInterruptible => some .interruptible
  | .popOff => some .popOff
  | .schedLock => some .schedLock
  | .schedLocks => some .schedLocks
  | .schedRunning => some .schedRunning
  | .schedInterruptible => some .schedInterruptible
  | _ => none

/-- Both have the same `struct cpu`s, locks, process states and panic. -/
structure Agrees (s : Process.St) (t : St) : Prop where
  hart : ∀ k, t.harts k = ⟨(s.harts k).noff, (s.harts k).intena, (s.harts k).intr, s.cur k⟩
  lock : ∀ l, t.lock (lockOf l) = s.lock l
  state : ∀ p, t.state p = s.data.state p
  stop : t.stop = s.panic.bind panicOf

theorem lockOf_inj (h : lockOf l = lockOf l') : l = l' := by
  cases l <;> cases l' <;> simp [lockOf] at h ⊢ <;> omega

theorem Agrees.goto (h : Agrees s t) (is : List Process.Instr) : Agrees (s.goto k is) t := by
  unfold Process.St.goto
  split
  · exact ⟨h.hart, h.lock, h.state, h.stop⟩
  · exact ⟨h.hart, h.lock, h.state, h.stop⟩

theorem Agrees.thr (h : Agrees s t) (x : Thread) (y : Thr) : Agrees s (t.setThr x y) :=
  ⟨h.hart, h.lock, h.state, h.stop⟩

theorem Agrees.panic (h : Agrees s t) {e : Process.Panic} {e' : Panic} (he : panicOf e = some e') :
    Agrees (s.stop e) (t.panic e') := ⟨h.hart, h.lock, h.state, he.symm⟩

theorem Agrees.setHart (h : Agrees s t) {c : Process.Hart} {c' : Hart}
    (hc : c' = ⟨c.noff, c.intena, c.intr, s.cur k⟩) : Agrees (s.setHart k c) (t.setHart k c') := by
  refine ⟨fun j => ?_, h.lock, h.state, h.stop⟩
  unfold St.setHart Process.St.setHart
  dsimp only
  by_cases e : j = k
  · rw [e, upd_same, upd_same, hc]
  · rw [upd_ne e, upd_ne e, h.hart]

theorem Agrees.setLock (h : Agrees s t) (x : Option Nat) : Agrees (s.setLock l x) (t.setLock (lockOf l) x) := by
  refine ⟨h.hart, fun j => ?_, h.state, h.stop⟩
  unfold St.setLock Process.St.setLock
  dsimp only
  by_cases e : j = l
  · rw [e, Function.update_self, if_pos rfl]
  · rw [Function.update_of_ne fun he => e (lockOf_inj he), if_neg e, h.lock]

theorem Agrees.pushOff (h : Agrees s t) : Agrees (s.setHart k (s.harts k).pushOff) (pushOff t k) := by
  refine (h.setHart ?_).thr _ _
  rw [h.hart]
  rfl

theorem Agrees.popOff (h : Agrees s t) :
    (∀ c, (s.harts k).popOff = .ok c → Agrees (s.setHart k c) (popOff t k)) ∧
      ∀ e, (s.harts k).popOff = .error e → Agrees (s.stop e) (popOff t k) := by
  unfold Process.Hart.popOff Interrupts.popOff
  rw [h.hart]
  dsimp only
  split
  · refine ⟨fun c hc => (by cases hc), fun e he => ?_⟩
    cases he
    exact h.panic rfl
  · split
    · refine ⟨fun c hc => (by cases hc), fun e he => ?_⟩
      cases he
      exact h.panic rfl
    · refine ⟨fun c hc => ?_, fun e he => (by cases he)⟩
      cases hc
      exact (h.setHart rfl).thr _ _

theorem release_agrees (h : Agrees s t) (hs : Process.run s k ch (.release l) rest = some s') :
    Agrees s' (release t k (lockOf l)) := by
  cases hs
  refine Agrees.goto ?_ _
  unfold Process.St.release release
  rw [h.lock]
  by_cases hl : s.lock l = some k
  · rw [if_neg (not_not.mpr hl), if_pos hl]
    obtain ⟨hok, herr⟩ := (h.setLock (l := l) none).popOff (k := k)
    dsimp only
    split
    · exact herr _ ‹_›
    · exact hok _ ‹_›
  · rw [if_pos hl, if_neg hl]
    exact h.panic rfl

/-- `acquire` of a free lock is two steps, the second of which takes it. -/
theorem acquire_agrees (h : Agrees s t) (hs : Process.run s k ch (.acquire l) rest = some s')
    (hm : (t.thr (t.cur k)).mode = .free) : ∃ t₁, exec t k (.acquire (lockOf l)) = some t₁ ∧
      (s.lock l = none → ∃ t₂, exec t₁ k .take = some t₂ ∧ Agrees s' t₂) ∧ (s.lock l = some k → Agrees s' t₁) := by
  have hstep : exec t k (.acquire (lockOf l)) = some (acquire t k (lockOf l) (.spin (lockOf l))) := by
    simp only [exec, hm]
  have hpush := h.pushOff (k := k)
  simp only [Process.run, Process.St.acquire] at hs
  refine ⟨_, hstep, fun hl => ?_, fun hl => ?_⟩
  · rw [show (s.setHart k (s.harts k).pushOff).lock l = none from hl] at hs
    cases hs
    have hcur : (pushOff t k).cur k = t.cur k := cur_setHart rfl
    have hfree : (pushOff t k).lock (lockOf l) = none := (h.lock l).trans hl
    unfold acquire
    rw [h.lock, hl, if_neg (by simp)]
    refine ⟨(((pushOff t k).setMode (t.cur k) (.spin (lockOf l))).setLock (lockOf l) (some k)).setMode (t.cur k) .free,
      by simp [exec, hcur, hfree], ?_⟩
    exact (((hpush.thr _ _).setLock _).thr _ _).goto _
  · rw [show (s.setHart k (s.harts k).pushOff).lock l = some k from hl] at hs
    dsimp only at hs
    rw [if_pos rfl] at hs
    cases hs
    unfold acquire
    rw [h.lock, hl, if_pos rfl]
    exact (hpush.panic rfl).goto _

/-- The checks of `sched`, and its `swtch`. -/
theorem sched_agrees (h : Agrees s t) (hp : (s.harts k).proc = some p) (hc : s.cur k = some p)
    (hm : (t.thr (.proc p)).mode = .free) : ∃ t', exec t k .sched = some t' ∧
      (∀ e, Process.schedCheck s k = some e → Agrees (s.stop e) t') ∧
      (Process.schedCheck s k = none → Agrees { s with cur := upd s.cur k none } t') := by
  have hon : (t.harts k).on = some p := by rw [h.hart, hc]
  have hcur : t.cur k = .proc p := by rw [St.cur, hon]
  refine ⟨sched t k p, by simp [exec, hcur, hm, hon], ?_⟩
  have hstop : ∀ {c : Prop} [Decidable c] {e : Process.Panic} {e' : Panic} {o : Option Process.Panic} {t' : St},
      panicOf e = some e' → (¬ c → (∀ e, o = some e → Agrees (s.stop e) t') ∧
        (o = none → Agrees { s with cur := upd s.cur k none } t')) →
      (∀ x, (if c then some e else o) = some x → Agrees (s.stop x) (if c then t.panic e' else t')) ∧
        ((if c then some e else o) = none → Agrees { s with cur := upd s.cur k none }
        (if c then t.panic e' else t')) := by
    intro c _ e e' o t' he hrest
    split
    · refine ⟨fun x hx => ?_, fun hx => (by cases hx)⟩
      cases hx
      exact h.panic he
    · exact hrest ‹_›
  unfold Process.schedCheck sched
  rw [hp, show t.lock (.proc p) = _ from h.lock (.proc p), h.state, h.hart]
  dsimp only
  refine hstop rfl fun _ => hstop rfl fun _ => hstop rfl fun _ => hstop rfl fun _ =>
    ⟨fun e he => (by cases he), fun _ => ?_⟩
  refine (Agrees.thr ?_ _ _).thr _ _
  refine ⟨fun j => ?_, h.lock, h.state, h.stop⟩
  unfold St.setHart
  dsimp only
  by_cases e : j = k
  · rw [e, upd_same, upd_same]
  · rw [upd_ne e, upd_ne e, h.hart]

/-- The scheduler's `p->state = RUNNING` and `swtch`, to a context that is there. -/
theorem switch_agrees (h : Agrees s t) (hc : s.cur k = none) (hr : s.data.state p = .runnable)
    (hm : (t.thr (.sched k)).mode = .picked p)
    (hctx : (t.thr (.proc p)).mode = .forkret ∨ ∃ b, (t.thr (.proc p)).mode = .inSched b) :
    ∃ t', exec t k .look = some t' ∧ Agrees
      { s with data := s.data.put p { s.data.procs p with state := .running }, cur := upd s.cur k (some p) } t' := by
  have hcur : t.cur k = .sched k := by rw [St.cur, h.hart, hc]
  have hs : Agrees
      { s with data := s.data.put p { s.data.procs p with state := .running }, cur := upd s.cur k (some p) }
      ({ t with state := upd t.state p .running }.setHart k { t.harts k with on := some p }) := by
    refine ⟨fun j => ?_, h.lock, fun q => ?_, h.stop⟩
    · unfold St.setHart
      dsimp only
      by_cases e : j = k
      · rw [e, upd_same, upd_same, h.hart]
      · rw [upd_ne e, upd_ne e, h.hart]
    · show upd t.state p .running q = (upd s.data.procs p _ q).state
      by_cases e : q = p
      · rw [e, upd_same, upd_same]
      · rw [upd_ne e, upd_ne e]
        exact h.state q
  refine ⟨switch t k p, by simp [exec, hcur, hm, h.state, hr], ?_⟩
  unfold switch
  rcases hctx with hf | ⟨b, hb⟩
  · rw [hf]
    exact (hs.thr _ _).thr _ _
  · rw [hb]
    exact hs.thr _ _

end Xv6.Interrupts
