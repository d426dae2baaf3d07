/-
  Xv6.Process.Nesting — interrupt state survives nesting and context switches, over every run
  of `Xv6.Process.Interrupts`.

  `Inv` ties each hart's `noff` and `intena` to the ghost fields of the thread it runs. Most
  steps change one hart's flags and its own thread only (`local_step`); `swtch` is the lemma
  for the two context switches.

  Proved: `noff` is the running thread's `depth`, interrupts are off while it is positive, and
  neither panic of `pop_off` is reached; the outermost `pop_off` of a process restores the
  state at its outermost `push_off`, wherever it ran in between (`interrupts_survive_switches`).
  Not so for a scheduler: `scheduler` does not save `intena`, so it gets the last process's
  (`scheduler_loses_interrupts`), and turns interrupts on itself before its next pass.
-/
import Xv6.Process.Interrupts

namespace Xv6.Interrupts

open Process (PState)

/-! ## The invariant -/

/-- What the outermost `pop_off` of a thread is to restore. -/
def Thr.due (x : Thr) : Bool := x.back.getD x.base

def SchedOk (x : Thr) : Prop :=
  match x.mode with
  | .free | .spin _ => True
  | .pickSpin _ | .picked _ => x.depth = 1 ∧ x.back = none
  | .away _ | .returned _ => x.depth = 1
  | .inSched _ | .forkret => False

def ProcOk (x : Thr) : Prop :=
  x.back = none ∧
    match x.mode with
    | .free | .spin _ | .forkret => True
    | .inSched b => x.depth = 1 ∧ x.base = b
    | .pickSpin _ | .picked _ | .away _ | .returned _ => False

structure Inv (s : St) : Prop where
  noff : ∀ h, (s.harts h).noff = (s.thr (s.cur h)).depth
  off : ∀ h, 0 < (s.harts h).noff → (s.harts h).intr = false
  intena : ∀ h, 0 < (s.harts h).noff → (∀ b, (s.thr (s.cur h)).mode ≠ .inSched b) →
    (s.harts h).intena = (s.thr (s.cur h)).due
  sched : ∀ h, SchedOk (s.thr (.sched h))
  proc : ∀ p, ProcOk (s.thr (.proc p))
  away : ∀ h p, (s.thr (.sched h)).mode = .away p ↔ (s.harts h).on = some p
  one : ∀ h k p, (s.harts h).on = some p → (s.harts k).on = some p → h = k
  /-- only a process on a hart is anywhere but in `sched` or new -/
  runs : ∀ p, (∀ h, (s.harts h).on ≠ some p) → (s.thr (.proc p)).mode = .forkret ∨ ∃ b,
    (s.thr (.proc p)).mode = .inSched b
  begun : ∀ h p, (s.harts h).on = some p → (s.thr (.proc p)).mode ≠ .forkret
  picked : ∀ h p, (s.thr (.sched h)).mode = .picked p → s.lock (.proc p) = some h
  own : ∀ h p, (s.harts h).on = some p → s.state p = .running ∨ s.lock (.proc p) = some h
  used : ∀ h p, (s.harts h).on = some p → s.state p ≠ .unused
  stop : s.stop ≠ some .interruptible ∧ s.stop ≠ some .popOff ∧ s.stop ≠ some .badContext

theorem boot_inv : Inv boot := by
  constructor <;> simp [boot, St.cur, SchedOk, ProcOk]

variable {s : St} {h k p : Nat}

@[simp] theorem cur_setThr (t : Thread) (x : Thr) : (s.setThr t x).cur h = s.cur h := rfl
@[simp] theorem cur_setMode (t : Thread) (m : Mode) : (s.setMode t m).cur h = s.cur h := rfl
@[simp] theorem harts_setMode (t : Thread) (m : Mode) : (s.setMode t m).harts = s.harts := rfl
@[simp] theorem lock_setMode (t : Thread) (m : Mode) : (s.setMode t m).lock = s.lock := rfl
@[simp] theorem thr_setMode (t : Thread) (m : Mode) : (s.setMode t m).thr t = { s.thr t with mode := m } :=
  Function.update_self _ _ _
@[simp] theorem thr_setLock (lk : Lock) (v : Option Nat) : (s.setLock lk v).thr = s.thr := rfl
@[simp] theorem cur_setLock (lk : Lock) (v : Option Nat) : (s.setLock lk v).cur h = s.cur h := rfl
@[simp] theorem cur_panic (e : Panic) : (s.panic e).cur h = s.cur h := rfl

theorem cur_setHart {c : Hart} (hc : c.on = (s.harts h).on) : (s.setHart h c).cur k = s.cur k := by
  by_cases e : k = h
  · subst e
    simp [St.cur, St.setHart, hc]
  · simp [St.cur, St.setHart, e]

theorem cur_eq_proc : s.cur h = .proc p ↔ (s.harts h).on = some p := by
  unfold St.cur
  split <;> simp_all

theorem cur_eq_sched : s.cur h = .sched k ↔ (s.harts h).on = none ∧ h = k := by
  unfold St.cur
  split <;> simp_all

namespace Inv

variable (hi : Inv s)
include hi

theorem panic {e : Panic} (h1 : e ≠ .interruptible) (h2 : e ≠ .popOff) (h3 : e ≠ .badContext) : Inv (s.panic e) :=
  ⟨hi.noff, hi.off, hi.intena, hi.sched, hi.proc, hi.away, hi.one, hi.runs, hi.begun, hi.picked, hi.own, hi.used,
    by simp [St.panic, h1, h2, h3]⟩

/-- Two harts do not run one thread. -/
theorem cur_inj (e : s.cur h = s.cur k) : h = k := by
  cases hc : s.cur k with
  | proc p =>
    rw [hc] at e
    exact hi.one h k p (cur_eq_proc.mp e) (cur_eq_proc.mp hc)
  | sched j =>
    rw [hc] at e
    rw [(cur_eq_sched.mp e).2, (cur_eq_sched.mp hc).2]

/-- A step of hart `h` that changes its own flags and its own thread only. -/
theorem local_step {c : Hart} {x : Thr} (hon : c.on = (s.harts h).on) (hnoff : c.noff = x.depth)
    (hoff : 0 < c.noff → c.intr = false) (hint : 0 < c.noff → (∀ b, x.mode ≠ .inSched b) → c.intena = x.due)
    (hsched : s.cur h = .sched h → SchedOk x ∧ (∀ p, x.mode ≠ .away p) ∧ ∀ p, x.mode = .picked p →
      s.lock (.proc p) = some h)
    (hproc : ∀ p, s.cur h = .proc p → ProcOk x ∧ x.mode ≠ .forkret) : Inv ((s.setHart h c).setThr (s.cur h) x) := by
  have hon' : ∀ k, (upd s.harts h c k).on = (s.harts k).on := by
    intro k
    by_cases e : k = h
    · rw [e, upd_same, hon]
    · rw [upd_ne e]
  have hcur : ∀ k, ((s.setHart h c).setThr (s.cur h) x).cur k = s.cur k := fun k => cur_setHart hon
  have hne : ∀ k, k ≠ h → s.cur k ≠ s.cur h := fun k e ek => e (hi.cur_inj ek)
  -- a scheduler other than `h`'s, or away while `h` runs a process
  have hother : ∀ k, Thread.sched k ≠ s.cur h ∨ (k = h ∧ s.cur h = .sched h) := by
    intro k
    by_cases e : Thread.sched k = s.cur h
    · obtain ⟨-, rfl⟩ := cur_eq_sched.mp e.symm
      exact Or.inr ⟨rfl, e.symm⟩
    · exact Or.inl e
  refine ⟨fun k => ?_, fun k => ?_, fun k => ?_, fun k => ?_, fun p => ?_, fun k p => ?_, fun k j p => ?_, fun p => ?_,
    fun k p => ?_, fun k p => ?_, fun k p => ?_, fun k p => ?_, hi.stop⟩
  · rw [hcur]
    by_cases e : k = h
    · subst e; simpa [St.setHart, St.setThr] using hnoff
    · simpa [St.setHart, St.setThr, e, hne k e] using hi.noff k
  · by_cases e : k = h
    · subst e; simpa [St.setHart, St.setThr] using hoff
    · simpa [St.setHart, St.setThr, e] using hi.off k
  · rw [hcur]
    by_cases e : k = h
    · subst e; simpa [St.setHart, St.setThr] using hint
    · simpa [St.setHart, St.setThr, e, hne k e] using hi.intena k
  · rcases hother k with e | ⟨rfl, e⟩
    · simpa [St.setHart, St.setThr, e] using hi.sched k
    · rw [e]; simpa [St.setHart, St.setThr] using (hsched e).1
  · by_cases e : Thread.proc p = s.cur h
    · rw [← e]; simpa [St.setHart, St.setThr] using (hproc p e.symm).1
    · simpa [St.setHart, St.setThr, e] using hi.proc p
  · change _ ↔ (upd s.harts h c k).on = some p
    rw [hon']
    rcases hother k with e | ⟨rfl, e⟩
    · simpa [St.setHart, St.setThr, e] using hi.away k p
    · rw [e]
      simp [St.setThr, (hsched e).2.1 p, (cur_eq_sched.mp e).1]
  · change (upd s.harts h c k).on = some p → (upd s.harts h c j).on = some p → _
    rw [hon', hon']
    exact hi.one k j p
  · change (∀ k, (upd s.harts h c k).on ≠ some p) → _
    intro hp
    have e : Thread.proc p ≠ s.cur h := fun e => hp h (by rw [hon']; exact cur_eq_proc.mp e.symm)
    simpa [St.setHart, St.setThr, e] using hi.runs p fun k => by rw [← hon' k]; exact hp k
  · change (upd s.harts h c k).on = some p → _
    rw [hon']
    intro hp
    by_cases e : Thread.proc p = s.cur h
    · rw [← e]; simpa [St.setThr] using (hproc p e.symm).2
    · simpa [St.setHart, St.setThr, e] using hi.begun k p hp
  · rcases hother k with e | ⟨rfl, e⟩
    · simpa [St.setHart, St.setThr, e] using hi.picked k p
    · rw [e]; simpa [St.setHart, St.setThr] using (hsched e).2.2 p
  · change (upd s.harts h c k).on = some p → _
    rw [hon']
    exact hi.own k p
  · change (upd s.harts h c k).on = some p → _
    rw [hon']
    exact hi.used k p

/-- The running thread goes from one place to another. -/
theorem setMode {m : Mode} (h0 : ∀ b, (s.thr (s.cur h)).mode ≠ .inSched b)
    (hsched : s.cur h = .sched h → SchedOk { s.thr (s.cur h) with mode := m } ∧ (∀ p, m ≠ .away p) ∧
      ∀ p, m = .picked p → s.lock (.proc p) = some h)
    (hproc : ∀ p, s.cur h = .proc p → ProcOk { s.thr (s.cur h) with mode := m } ∧ m ≠ .forkret) :
    Inv (s.setMode (s.cur h) m) := by
  have hself : s.setHart h (s.harts h) = s := by simp [St.setHart]
  have hstep := hi.local_step (x := { s.thr (s.cur h) with mode := m }) rfl (hi.noff h) (hi.off h)
    (fun hp _ => hi.intena h hp h0) hsched hproc
  rw [hself] at hstep
  exact hstep

/-- Places that any thread may be in. -/
theorem setMode_free {m : Mode} (h0 : ∀ b, (s.thr (s.cur h)).mode ≠ .inSched b) (hm : m = .free ∨ ∃ lk, m = .spin lk) :
    Inv (s.setMode (s.cur h) m) := by
  have hback : ∀ p, s.cur h = .proc p → (s.thr (s.cur h)).back = none := fun p e => by rw [e]; exact (hi.proc p).1
  rcases hm with rfl | ⟨lk, rfl⟩
  · exact hi.setMode h0 (fun _ => by simp [SchedOk]) fun p e => by simp [ProcOk, hback p e]
  · exact hi.setMode h0 (fun _ => by simp [SchedOk]) fun p e => by simp [ProcOk, hback p e]

theorem pushOff (hm : (s.thr (s.cur h)).mode = .free) : Inv (Interrupts.pushOff s h) := by
  have hn := hi.noff h
  refine hi.local_step rfl (by simp [hn]) (fun _ => rfl) (fun _ _ => ?_) (fun _ => by simp [SchedOk, hm]) fun p e => ?_
  · by_cases h0 : (s.harts h).noff = 0
    · have hd : (s.thr (s.cur h)).depth = 0 := by rw [← hn, h0]
      simp [h0, hd, Thr.due]
    · have hd : (s.thr (s.cur h)).depth ≠ 0 := by rw [← hn]; exact h0
      simpa [h0, hd, Thr.due] using hi.intena h (by omega) (by simp [hm])
  · have hback : (s.thr (s.cur h)).back = none := by rw [e]; exact (hi.proc p).1
    simp [ProcOk, hm, hback]

/-- `pop_off` with something pushed does not panic. -/
theorem popOff_eq (hd : 0 < (s.thr (s.cur h)).depth) :
    Interrupts.popOff s h = (s.setHart h { s.harts h with
      noff := (s.harts h).noff - 1, intr := decide ((s.harts h).noff - 1 = 0) && (s.harts h).intena }).setThr
        (s.cur h) { s.thr (s.cur h) with depth := (s.thr (s.cur h)).depth - 1 } := by
  have hn := hi.noff h
  have hoff := hi.off h (by omega)
  rw [Interrupts.popOff, if_neg (by simp [hoff]), if_neg (by omega)]

theorem popOff (hm : (s.thr (s.cur h)).mode = .free) (hd : 0 < (s.thr (s.cur h)).depth) :
    Inv (Interrupts.popOff s h) := by
  have hn := hi.noff h
  rw [hi.popOff_eq hd]
  refine hi.local_step rfl (by simp [hn]) (fun hp => ?_) (fun hp _ => ?_) (fun _ => by simp [SchedOk, hm]) fun p e => ?_
  · have h1 : (s.harts h).noff - 1 ≠ 0 := Nat.pos_iff_ne_zero.mp hp
    simp [h1]
  · exact hi.intena h (by omega) (by simp [hm])
  · have hback : (s.thr (s.cur h)).back = none := by rw [e]; exact (hi.proc p).1
    simp [ProcOk, hm, hback]

/-! ### Locks and states -/

theorem setLock {lk : Lock} {v : Option Nat}
    (hpicked : ∀ k p, (s.thr (.sched k)).mode = .picked p → lk = .proc p → v = some k)
    (hown : ∀ k p, (s.harts k).on = some p → lk = .proc p → s.state p = .running ∨ v = some k) :
      Inv (s.setLock lk v) := by
  refine ⟨hi.noff, hi.off, hi.intena, hi.sched, hi.proc, hi.away, hi.one, hi.runs, hi.begun, fun k p hk => ?_,
    fun k p hk => ?_, hi.used, hi.stop⟩
  · by_cases e : Lock.proc p = lk
    · simpa [St.setLock, e] using hpicked k p hk e.symm
    · simpa [St.setLock, e] using hi.picked k p hk
  · by_cases e : Lock.proc p = lk
    · simpa [St.setLock, e] using hown k p hk e.symm
    · simpa [St.setLock, e] using hi.own k p hk

theorem take {lk : Lock} (hfree : s.lock lk = none) : Inv (s.setLock lk (some h)) := by
  refine hi.setLock (fun k p hk e => ?_) fun k p hk e => ?_
  · have hl := hi.picked k p hk
    rw [← e, hfree] at hl
    cases hl
  · refine Or.inl ((hi.own k p hk).resolve_right fun hl => ?_)
    rw [← e, hfree] at hl
    cases hl

theorem release {lk : Lock} (hm : (s.thr (s.cur h)).mode = .free) (hd : 0 < (s.thr (s.cur h)).depth)
    (hmay : mayRelease s h lk = true) : Inv (Interrupts.release s h lk) := by
  rw [Interrupts.release]
  split
  · rename_i hl
    have hi' : Inv (s.setLock lk none) := by
      refine hi.setLock (fun k p hk e => ?_) fun k p hk e => ?_
      · -- the scheduler that has picked `p` would be the thread that releases its lock
        have hk' := hi.picked k p hk
        rw [← e, hl] at hk'
        obtain rfl := Option.some.inj hk'
        have hon : (s.harts h).on = none := by
          by_contra hne
          obtain ⟨q, hq⟩ := Option.ne_none_iff_exists'.mp hne
          rw [(hi.away h q).mpr hq] at hk
          cases hk
        rw [cur_eq_sched.mpr ⟨hon, rfl⟩, hk] at hm
        cases hm
      · subst e
        refine Or.inl ((hi.own k p hk).elim id fun hk' => ?_)
        rw [hl] at hk'
        obtain rfl := Option.some.inj hk'
        simpa [mayRelease, hk] using hmay
    exact hi'.popOff hm hd
  · exact hi.panic (by decide) (by decide) (by decide)

theorem setState {v : PState} (hmay : maySet s h p v = true) : Inv { s with state := upd s.state p v } := by
  simp only [maySet, ne_eq, decide_eq_true_eq] at hmay
  obtain ⟨hl, hv, hset⟩ := hmay
  -- `p` runs on `h`, or nowhere
  have hon : ∀ k, (s.harts k).on = some p → k = h := by
    intro k hk
    split at hset
    · exact hi.one k h p hk ‹_›
    · have hk' := (hi.own k p hk).resolve_left hset
      rw [hl] at hk'
      exact (Option.some.inj hk').symm
  refine ⟨hi.noff, hi.off, hi.intena, hi.sched, hi.proc, hi.away, hi.one, hi.runs, hi.begun, hi.picked,
    fun k q hk => ?_, fun k q hk => ?_, hi.stop⟩
  · by_cases e : q = p
    · subst e
      rw [hon k hk]
      exact Or.inr hl
    · simpa [e] using hi.own k q hk
  · by_cases e : q = p
    · subst e
      have hk' : (s.harts h).on = some q := by rw [← hon k hk]; exact hk
      rw [if_pos hk'] at hset
      simpa using hset
    · simpa [e] using hi.used k q hk

theorem allocproc (hun : s.state p = .unused) :
    Inv (({ s with state := upd s.state p .used } : St).setMode (.proc p) .forkret) := by
  have hoff : ∀ k, (s.harts k).on ≠ some p := fun k hk => hi.used k p hk hun
  have hcur : ∀ k, s.cur k ≠ .proc p := fun k hk => hoff k (cur_eq_proc.mp hk)
  refine ⟨fun k => ?_, hi.off, fun k => ?_, fun k => ?_, fun q => ?_, fun k q => ?_, hi.one, fun q hq => ?_,
    fun k q hk => ?_, fun k q => ?_, fun k q hk => ?_, fun k q hk => ?_, hi.stop⟩
  · change _ = (Function.update s.thr (.proc p) _ (s.cur k)).depth
    rw [Function.update_of_ne (hcur k)]
    exact hi.noff k
  · change _ → (∀ b, (Function.update s.thr (.proc p) _ (s.cur k)).mode ≠ _) → _ =
      (Function.update s.thr (.proc p) _ (s.cur k)).due
    rw [Function.update_of_ne (hcur k)]
    exact hi.intena k
  · simpa [St.setMode, St.setThr] using hi.sched k
  · by_cases e : q = p
    · subst e
      simpa [St.setMode, St.setThr, ProcOk] using (hi.proc q).1
    · simpa [St.setMode, St.setThr, e] using hi.proc q
  · simpa [St.setMode, St.setThr] using hi.away k q
  · by_cases e : q = p
    · subst e
      simp [St.setMode, St.setThr]
    · simpa [St.setMode, St.setThr, e] using hi.runs q hq
  · have e : q ≠ p := fun e => hoff k (e ▸ hk)
    simpa [St.setMode, St.setThr, e] using hi.begun k q hk
  · simpa [St.setMode, St.setThr] using hi.picked k q
  · have e : q ≠ p := fun e => hoff k (e ▸ hk)
    simpa [St.setMode, St.setThr, e] using hi.own k q hk
  · have e : q ≠ p := fun e => hoff k (e ▸ hk)
    simpa [St.setMode, St.setThr, e] using hi.used k q hk

/-! ### Context switches -/

/-- Hart `h` goes from its scheduler to process `p` or back; the other harts keep their threads. -/
theorem swtch {o : Option Nat} {x y : Thr} {v : PState} {c : Hart} (hc : c = { s.harts h with on := o })
    (hoff : ∀ k, k ≠ h → (s.harts k).on ≠ some p) (hold : ∀ q, (s.harts h).on = some q → q = p)
    (ho : o = none ∨ o = some p) (hproc : ProcOk x) (hsched : SchedOk y)
    (hback : o = none → (∃ b, x.mode = .inSched b) ∧ (∀ q, y.mode ≠ .away q) ∧ (s.harts h).noff = y.depth ∧
      (0 < (s.harts h).noff → (s.harts h).intena = y.due))
    (hto : o = some p → y.mode = .away p ∧ x.mode ≠ .forkret ∧ (s.harts h).noff = x.depth ∧ v = .running ∧
      (0 < (s.harts h).noff → (∀ b, x.mode ≠ .inSched b) → (s.harts h).intena = x.due))
    (hpick : ∀ q, y.mode ≠ .picked q) :
    Inv ((({ s with state := upd s.state p v } : St).setHart h c).setThr (.proc p) x |>.setThr (.sched h) y) := by
  subst hc
  generalize hs' : St.setThr _ (.sched h) y = s'
  have hharts : s'.harts = upd s.harts h { s.harts h with on := o } := by rw [← hs']; rfl
  have hstate : s'.state = upd s.state p v := by rw [← hs']; rfl
  have hlock : s'.lock = s.lock := by rw [← hs']; rfl
  have hstop : s'.stop = s.stop := by rw [← hs']; rfl
  have hthr : s'.thr = Function.update (Function.update s.thr (.proc p) x) (.sched h) y := by rw [← hs']; rfl
  have hsk : ∀ k, k ≠ h → s'.thr (.sched k) = s.thr (.sched k) := fun k e => by simp [hthr, e]
  have hsh : s'.thr (.sched h) = y := by simp [hthr]
  have hpp : s'.thr (.proc p) = x := by simp [hthr]
  have hpq : ∀ q, q ≠ p → s'.thr (.proc q) = s.thr (.proc q) := fun q e => by simp [hthr, e]
  have hhk : ∀ k, k ≠ h → s'.harts k = s.harts k := fun k e => by simp [hharts, e]
  have hhh : s'.harts h = { s.harts h with on := o } := by simp [hharts]
  -- what another hart runs is not touched
  have hcur : ∀ k, k ≠ h → s'.cur k = s.cur k ∧ s'.thr (s'.cur k) = s.thr (s.cur k) := by
    intro k e
    have hck : s'.cur k = s.cur k := by simp only [St.cur, hhk k e]
    refine ⟨hck, ?_⟩
    rw [hck]
    cases hk : s.cur k with
    | proc q => exact hpq q fun eq => hoff k e (cur_eq_proc.mp (eq ▸ hk))
    | sched j => exact hsk j fun ej => e ((cur_eq_sched.mp hk).2.trans ej)
  -- hart `h`'s thread
  have hself : (o = none ∧ s'.cur h = .sched h ∧ s'.thr (s'.cur h) = y) ∨
      (o = some p ∧ s'.cur h = .proc p ∧ s'.thr (s'.cur h) = x) := by
    rcases ho with rfl | rfl
    · have hch : s'.cur h = .sched h := cur_eq_sched.mpr ⟨by rw [hhh], rfl⟩
      exact Or.inl ⟨rfl, hch, by rw [hch, hsh]⟩
    · have hch : s'.cur h = .proc p := cur_eq_proc.mpr (by rw [hhh])
      exact Or.inr ⟨rfl, hch, by rw [hch, hpp]⟩
  have hon : ∀ k q, (s'.harts k).on = some q → (k = h ∧ q = p ∧ o = some p) ∨
      (k ≠ h ∧ q ≠ p ∧ (s.harts k).on = some q) := by
    intro k q hk
    by_cases e : k = h
    · subst e
      rw [hhh] at hk
      rcases ho with rfl | rfl
      · cases hk
      · exact Or.inl ⟨rfl, (Option.some.inj hk).symm, rfl⟩
    · rw [hhk k e] at hk
      exact Or.inr ⟨e, fun eq => hoff k e (eq ▸ hk), hk⟩
  refine ⟨fun k => ?_, fun k => ?_, fun k => ?_, fun k => ?_, fun q => ?_, fun k q => ?_, fun k j q hk hj => ?_,
    fun q hq => ?_, fun k q hk => ?_, fun k q => ?_, fun k q hk => ?_, fun k q hk => ?_, hstop ▸ hi.stop⟩
  · by_cases e : k = h
    · subst e
      rw [hhh]
      rcases hself with ⟨eo, -, ht⟩ | ⟨eo, -, ht⟩
      · rw [ht]; exact (hback eo).2.2.1
      · rw [ht]; exact (hto eo).2.2.1
    · rw [(hcur k e).2, hhk k e]
      exact hi.noff k
  · by_cases e : k = h
    · subst e
      rw [hhh]
      exact hi.off k
    · rw [hhk k e]
      exact hi.off k
  · by_cases e : k = h
    · subst e
      rw [hhh]
      rcases hself with ⟨eo, -, ht⟩ | ⟨eo, -, ht⟩
      · rw [ht]; exact fun hp _ => (hback eo).2.2.2 hp
      · rw [ht]; exact (hto eo).2.2.2.2
    · rw [(hcur k e).2, hhk k e]
      exact hi.intena k
  · by_cases e : k = h
    · rw [e, hsh]; exact hsched
    · rw [hsk k e]; exact hi.sched k
  · by_cases e : q = p
    · rw [e, hpp]; exact hproc
    · rw [hpq q e]; exact hi.proc q
  · by_cases e : k = h
    · subst e
      rw [hsh, hhh]
      rcases ho with eo | eo
      · simp [eo, (hback eo).2.1 q]
      · simp [eo, (hto eo).1]
    · rw [hsk k e, hhk k e]
      exact hi.away k q
  · rcases hon k q hk with ⟨rfl, rfl, -⟩ | ⟨hk', hq, hk⟩
    · rcases hon j q hj with ⟨rfl, -⟩ | ⟨-, hne, -⟩
      · rfl
      · exact absurd rfl hne
    · rcases hon j q hj with ⟨-, rfl, -⟩ | ⟨-, -, hj⟩
      · exact absurd rfl hq
      · exact hi.one k j q hk hj
  · by_cases e : q = p
    · subst e
      rw [hpp]
      rcases ho with eo | eo
      · exact Or.inr (hback eo).1
      · exact absurd (by rw [hhh, eo]) (hq h)
    · rw [hpq q e]
      refine hi.runs q fun k hk => ?_
      by_cases ek : k = h
      · exact e (hold q (ek ▸ hk))
      · exact hq k (by rw [hhk k ek]; exact hk)
  · rcases hon k q hk with ⟨rfl, rfl, eo⟩ | ⟨-, hq, hk⟩
    · rw [hpp]; exact (hto eo).2.1
    · rw [hpq q hq]; exact hi.begun k q hk
  · rw [hlock]
    by_cases e : k = h
    · rw [e, hsh]; exact fun hx => absurd hx (hpick q)
    · rw [hsk k e]; exact hi.picked k q
  · rw [hstate, hlock]
    rcases hon k q hk with ⟨rfl, rfl, eo⟩ | ⟨-, hq, hk⟩
    · exact Or.inl (by rw [upd_same]; exact (hto eo).2.2.2.1)
    · rw [upd_ne hq]; exact hi.own k q hk
  · rw [hstate]
    rcases hon k q hk with ⟨rfl, rfl, eo⟩ | ⟨-, hq, hk⟩
    · rw [upd_same, (hto eo).2.2.2.1]; decide
    · rw [upd_ne hq]; exact hi.used k q hk

theorem sched_step (hon : (s.harts h).on = some p) (hm : (s.thr (.proc p)).mode = .free) :
    Inv (Interrupts.sched s h p) := by
  have hcur := cur_eq_proc.mpr hon
  have hn := hi.noff h
  have haway := (hi.away h p).mpr hon
  have hx := hi.proc p
  have hs := hi.sched h
  rw [hcur] at hn
  rw [Interrupts.sched]
  split
  · exact hi.panic (by decide) (by decide) (by decide)
  split
  · exact hi.panic (by decide) (by decide) (by decide)
  split
  · exact hi.panic (by decide) (by decide) (by decide)
  split
  · exact hi.panic (by decide) (by decide) (by decide)
  rename_i _ hnoff _ _
  have h1 : (s.harts h).noff = 1 := by simpa using hnoff
  have hbase : (s.harts h).intena = (s.thr (.proc p)).base := by
    have hdue := hi.intena h (by omega) (by simp [hcur, hm])
    rw [hcur, Thr.due, hx.1] at hdue
    exact hdue
  have hsd : (s.thr (.sched h)).depth = 1 := by
    rw [SchedOk, haway] at hs
    exact hs
  have hstep := hi.swtch (h := h) (p := p) (o := none) (v := s.state p)
    (x := { s.thr (.proc p) with mode := .inSched (s.harts h).intena })
    (y := { s.thr (.sched h) with mode := .returned p, back := some (s.thr (.proc p)).base }) rfl
    (fun k e hk => e (hi.one k h p hk hon)) (fun q hq => by rw [hon] at hq; exact (Option.some.inj hq).symm)
      (Or.inl rfl)
    ⟨hx.1, by rw [← hn, h1], hbase.symm⟩ hsd (fun _ => ⟨⟨_, rfl⟩, by simp, by rw [h1, hsd], fun _ => hbase⟩)
      (by simp) (by simp)
  rw [upd_self] at hstep
  exact hstep

/-- A process that a scheduler has picked and that is RUNNABLE is not on a hart. -/
theorem not_on (hm : (s.thr (.sched h)).mode = .picked p) (hr : s.state p = .runnable) (k : Nat) :
    (s.harts k).on ≠ some p := by
  intro hk
  rcases hi.own k p hk with hs | hl
  · rw [hr] at hs
    cases hs
  · rw [hi.picked h p hm] at hl
    obtain rfl := Option.some.inj hl
    rw [(hi.away h p).mpr hk] at hm
    cases hm

theorem switch_step (hon : (s.harts h).on = none) (hm : (s.thr (.sched h)).mode = .picked p)
    (hr : s.state p = .runnable) : Inv (Interrupts.switch s h p) := by
  have hcur := cur_eq_sched.mpr ⟨hon, rfl⟩
  have hn := hi.noff h
  have hs := hi.sched h
  have hx := hi.proc p
  rw [hcur] at hn
  rw [SchedOk, hm] at hs
  have h1 : (s.harts h).noff = 1 := by rw [hn, hs.1]
  have hbase : (s.harts h).intena = (s.thr (.sched h)).base := by
    have hdue := hi.intena h (by omega) (by simp [hcur, hm])
    rw [hcur, Thr.due, hs.2] at hdue
    exact hdue
  have hold : ∀ q, (s.harts h).on = some q → q = p := fun q hq => by rw [hon] at hq; cases hq
  have hoff := hi.not_on hm hr
  rw [Interrupts.switch]
  rcases hi.runs p hoff with hmode | ⟨b, hmode⟩
  · -- its first run, in `forkret`
    have hstep := hi.swtch (h := h) (p := p) (o := some p) (v := .running)
      (x := ⟨.free, 1, (s.thr (.sched h)).base, none⟩) (y := { s.thr (.sched h) with mode := .away p }) rfl
      (fun k _ => hoff k) hold (Or.inr rfl) ⟨rfl, trivial⟩ hs.1 (by simp)
      (fun _ => ⟨rfl, by simp, h1, rfl, fun _ _ => hbase⟩) (by simp)
    rw [hmode]
    rwa [St.setThr, St.setThr, Function.update_comm (by simp)] at hstep
  · rw [ProcOk, hmode] at hx
    have hstep := hi.swtch (h := h) (p := p) (o := some p) (v := .running)
      (x := s.thr (.proc p)) (y := { s.thr (.sched h) with mode := .away p }) rfl
      (fun k _ => hoff k) hold (Or.inr rfl) (hi.proc p) hs.1 (by simp)
      (fun _ => ⟨rfl, by simp [hmode], by rw [h1]; exact hx.2.1.symm, rfl, fun _ hb => absurd hmode (hb b)⟩) (by simp)
    rw [hmode]
    have hsame : Function.update s.thr (.proc p) (s.thr (.proc p)) = s.thr := Function.update_eq_self _ _
    rw [St.setThr, St.setThr] at hstep
    simpa [St.setMode, St.setThr, St.setHart, hsame] using hstep

end Inv

/-! ## Steps -/

theorem popOff_setMode (m : Mode) : (popOff s h).setMode (s.cur h) m = popOff (s.setMode (s.cur h) m) h := by
  simp only [popOff, cur_setMode, harts_setMode]
  by_cases h1 : (s.harts h).intr = true
  · simp only [h1, if_true]
    rfl
  simp only [h1, Bool.false_eq_true, if_false]
  by_cases h2 : (s.harts h).noff < 1
  · simp only [h2, if_true]
    rfl
  simp only [h2, if_false, St.setMode, St.setThr, St.setHart, Function.update_self, Function.update_idem]
  rfl

/-- The scheduler's `release` is one of a thread that has nothing else to do. -/
theorem release_setMode (lk : Lock) (m : Mode) :
    (release s h lk).setMode (s.cur h) m = release (s.setMode (s.cur h) m) h lk := by
  simp only [release, lock_setMode]
  by_cases hl : s.lock lk = some h
  · simp only [hl, if_true]
    exact popOff_setMode m
  · simp only [hl, if_false]
    rfl

namespace Inv

variable (hi : Inv s)
include hi

/-- A process thread is never in the scheduler's loop. -/
theorem sched_of_picked (hm : (s.thr (s.cur h)).mode = .picked p ∨ (s.thr (s.cur h)).mode = .returned p) :
    s.cur h = .sched h := by
  cases hc : s.cur h with
  | sched k => rw [(cur_eq_sched.mp hc).2]
  | proc q =>
    have hq := (hi.proc q).2
    rw [hc] at hm
    rcases hm with hm | hm <;> rw [hm] at hq <;> exact hq.elim

/-- The scheduler's `release(&p->lock)`, with or without a `swtch` before it. -/
theorem release_picked (hm : (s.thr (s.cur h)).mode = .picked p ∨ (s.thr (s.cur h)).mode = .returned p) :
    Inv ((Interrupts.release s h (.proc p)).setMode (s.cur h) .free) := by
  have hcur := hi.sched_of_picked hm
  have hd : (s.thr (s.cur h)).depth = 1 := by
    have hs := hi.sched h
    rw [← hcur] at hs
    rcases hm with hm | hm <;> rw [SchedOk, hm] at hs
    · exact hs.1
    · exact hs
  have hfree := hi.setMode_free (h := h) (m := .free) (by rcases hm with hm | hm <;> simp [hm]) (Or.inl rfl)
  rw [release_setMode]
  refine hfree.release (by simp) (by simp [hd]) ?_
  simp [mayRelease, (cur_eq_sched.mp hcur).1]

theorem acquire_step {lk : Lock} {m : Mode} (hm : (s.thr (s.cur h)).mode = .free)
    (hto : m = .spin lk ∨ s.cur h = .sched h ∧ (s.thr (s.cur h)).depth = 0 ∧ ∃ p, m = .pickSpin p) :
    Inv (Interrupts.acquire s h lk m) := by
  have hp := hi.pushOff hm
  rw [Interrupts.acquire]
  split
  · exact hp.panic (by decide) (by decide) (by decide)
  have hcur : (Interrupts.pushOff s h).cur h = s.cur h := cur_setHart rfl
  have hthr : (Interrupts.pushOff s h).thr (s.cur h) = { s.thr (s.cur h) with
      depth := (s.thr (s.cur h)).depth + 1
      base := if (s.thr (s.cur h)).depth = 0 then (s.harts h).intr else (s.thr (s.cur h)).base
      back := if (s.thr (s.cur h)).depth = 0 then none else (s.thr (s.cur h)).back } := Function.update_self _ _ _
  rw [← hcur]
  rcases hto with rfl | ⟨hs, hd, p, rfl⟩
  · exact hp.setMode_free (by rw [hcur, hthr]; simp [hm]) (Or.inr ⟨lk, rfl⟩)
  · refine hp.setMode (by rw [hcur, hthr]; simp [hm]) (fun _ => ?_) fun q hq => ?_
    · rw [hcur, hthr]
      simp [SchedOk, hd]
    · rw [hcur, hs] at hq
      cases hq

/-- The lock its scheduler spins for. -/
theorem take_pick (hm : (s.thr (s.cur h)).mode = .pickSpin p) (hfree : s.lock (.proc p) = none) :
    Inv ((s.setLock (.proc p) (some h)).setMode (s.cur h) (.picked p)) := by
  have hi' := hi.take (h := h) hfree
  refine hi'.setMode (h := h) (by simp [hm]) (fun hc => ?_) fun q hq => ?_
  · have hc' : s.cur h = .sched h := hc
    have hs := hi.sched h
    rw [← hc', SchedOk, hm] at hs
    refine ⟨hs, by simp, fun q hq => ?_⟩
    obtain rfl := Mode.picked.inj hq
    exact Function.update_self _ _ _
  · have hq' : s.cur h = .proc q := hq
    have hx := (hi.proc q).2
    rw [← hq', hm] at hx
    exact hx.elim

/-- `intr_on` and `intr_off` while nothing is pushed. -/
theorem setIntr {b : Bool} (hm : (s.thr (s.cur h)).mode = .free) (hd : (s.thr (s.cur h)).depth = 0) :
    Inv (s.setHart h { s.harts h with intr := b }) := by
  have hn : (s.harts h).noff = 0 := by rw [hi.noff h, hd]
  have hself : s.setThr (s.cur h) (s.thr (s.cur h)) = s := by simp [St.setThr]
  have hstep := hi.local_step (h := h) (c := { s.harts h with intr := b }) (x := s.thr (s.cur h)) rfl (hi.noff h)
    (fun hp => absurd hn (Nat.pos_iff_ne_zero.mp hp)) (fun hp => absurd hn (Nat.pos_iff_ne_zero.mp hp))
    (fun _ => by simp [SchedOk, hm]) fun p e => ⟨by rw [e]; exact hi.proc p, by simp [hm]⟩
  have hthr : (s.setHart h { s.harts h with intr := b }).setThr (s.cur h) (s.thr (s.cur h)) =
      s.setHart h { s.harts h with intr := b } := by simp [St.setThr, St.setHart]
  rwa [hthr] at hstep

/-- The end of `sched`. -/
theorem restore {b : Bool} (hm : (s.thr (s.cur h)).mode = .inSched b) :
    Inv ((s.setHart h { s.harts h with intena := b }).setMode (s.cur h) .free) := by
  obtain ⟨p, hp⟩ : ∃ p, s.cur h = .proc p := by
    cases hc : s.cur h with
    | proc p => exact ⟨p, rfl⟩
    | sched k =>
      have hs := hi.sched k
      rw [SchedOk, ← hc, hm] at hs
      exact hs.elim
  have hx := hi.proc p
  rw [ProcOk, ← hp, hm] at hx
  refine hi.local_step (h := h) (c := { s.harts h with intena := b }) (x := { s.thr (s.cur h) with mode := .free }) rfl
    (hi.noff h) (hi.off h) (fun _ _ => ?_) (fun e => ?_) fun q _ => ⟨⟨hx.1, trivial⟩, by simp⟩
  · rw [Thr.due, hx.1]
    exact hx.2.2.symm
  · rw [hp] at e
    cases e

theorem exec_inv {s' : St} {a : Act} (hx : exec s h a = some s') : Inv s' := by
  simp only [exec] at hx
  split at hx
  · -- pushOff
    cases hx
    exact hi.pushOff ‹_›
  · -- popOff
    split at hx
    · cases hx
      exact hi.popOff ‹_› ‹_›
    · cases hx
  · -- intr
    split at hx
    · cases hx
      exact hi.setIntr ‹_› ‹_›
    · cases hx
  · -- acquire
    cases hx
    exact hi.acquire_step ‹_› (Or.inl rfl)
  · -- take
    rename_i lk hm
    split at hx
    · rename_i hl
      cases hx
      exact (hi.take (h := h) hl).setMode_free (h := h) (by simp [hm]) (Or.inl rfl)
    · cases hx
  · -- release
    split at hx
    · rename_i hc
      cases hx
      exact hi.release ‹_› hc.1 hc.2
    · cases hx
  · -- setState
    split at hx
    · cases hx
      exact hi.setState ‹_›
    · cases hx
  · -- allocproc
    split at hx
    · rename_i hc
      cases hx
      exact hi.allocproc hc.2
    · cases hx
  · -- sched
    rename_i hm
    obtain ⟨p, hp, rfl⟩ := Option.map_eq_some_iff.mp hx
    exact hi.sched_step hp (by rw [← cur_eq_proc.mpr hp]; exact hm)
  · -- restore
    cases hx
    exact hi.restore ‹_›
  · -- pick
    split at hx
    · rename_i hc
      cases hx
      exact hi.acquire_step ‹_› (Or.inr ⟨hc.1, hc.2, _, rfl⟩)
    · cases hx
  · -- take, by the scheduler's loop
    split at hx
    · cases hx
      exact hi.take_pick ‹_› ‹_›
    · cases hx
  · -- look
    rename_i p hm
    split at hx
    · rename_i hr
      cases hx
      have hcur := hi.sched_of_picked (Or.inl hm)
      exact hi.switch_step (cur_eq_sched.mp hcur).1 (by rw [← hcur]; exact hm) hr
    · cases hx
      exact hi.release_picked (Or.inl hm)
  · -- finish
    cases hx
    exact hi.release_picked (Or.inr ‹_›)
  · cases hx

end Inv

theorem Reachable.inv (hr : Reachable s) : Inv s := by
  induction hr with
  | boot => exact boot_inv
  | step _ hstep ih =>
    rw [Interrupts.step] at hstep
    split at hstep
    · exact ih.exec_inv hstep
    · cases hstep

/-! ## What the outermost `pop_off` restores -/

theorem noff_pushOff : ((pushOff s h).harts h).noff = (s.harts h).noff + 1 := by simp [pushOff, St.setHart, St.setThr]

theorem noff_acquire (lk : Lock) (m : Mode) : ((acquire s h lk m).harts h).noff = (s.harts h).noff + 1 := by
  rw [acquire]
  split
  · exact noff_pushOff
  · exact noff_pushOff

theorem noff_sched : ((sched s h p).harts h).noff = (s.harts h).noff := by
  rw [sched]
  split
  · rfl
  split
  · rfl
  split
  · rfl
  split
  · rfl
  simp [St.setHart, St.setThr]

theorem noff_switch : ((switch s h p).harts h).noff = (s.harts h).noff := by
  rw [switch]
  split <;> simp [St.setHart, St.setThr, St.setMode, St.panic]

theorem popOff_last (hoff : (s.harts h).intr = false) (h1 : (s.harts h).noff = 1) :
    ((popOff s h).harts h).intr = (s.harts h).intena := by
  rw [popOff, if_neg (by simp [hoff]), if_neg (by omega)]
  simp [St.setHart, St.setThr, h1]

theorem release_last {lk : Lock} (hoff : (s.harts h).intr = false) (h1 : (s.harts h).noff = 1)
    (h2 : ((release s h lk).harts h).noff = 0) : ((release s h lk).harts h).intr = (s.harts h).intena := by
  by_cases hl : s.lock lk = some h
  · rw [release, if_pos hl]
    exact popOff_last hoff h1
  · rw [release, if_neg hl] at h2
    exact absurd (h1.symm.trans h2) (by decide)

/-- A step that brings `noff` to 0 turns interrupts on exactly when that is due. -/
theorem Inv.exec_restores (hi : Inv s) {s' : St} {a : Act} (hx : exec s h a = some s') (h1 : (s.harts h).noff = 1)
    (h2 : (s'.harts h).noff = 0) : (s'.harts h).intr = (s.thr (s.cur h)).due := by
  have hoff := hi.off h (by omega)
  have hdue := hi.intena h (by omega)
  simp only [exec] at hx
  split at hx
  · -- pushOff
    cases hx
    rw [noff_pushOff] at h2
    cases h2
  · -- popOff
    rename_i hm
    split at hx
    · cases hx
      rw [popOff_last hoff h1]
      exact hdue (by simp [hm])
    · cases hx
  · -- intr: nothing is pushed
    rename_i hd
    split at hx
    · rename_i hd
      rw [← hi.noff h, h1] at hd
      cases hd
    · cases hx
  · -- acquire
    cases hx
    rw [noff_acquire] at h2
    cases h2
  · -- take
    split at hx
    · cases hx
      exact absurd (h1.symm.trans h2) (by decide)
    · cases hx
  · -- release
    rename_i hm
    split at hx
    · cases hx
      rw [release_last hoff h1 h2]
      exact hdue (by simp [hm])
    · cases hx
  · -- setState
    split at hx
    · cases hx
      exact absurd (h1.symm.trans h2) (by decide)
    · cases hx
  · -- allocproc
    split at hx
    · cases hx
      exact absurd (h1.symm.trans h2) (by decide)
    · cases hx
  · -- sched
    obtain ⟨p, hp, rfl⟩ := Option.map_eq_some_iff.mp hx
    rw [noff_sched] at h2
    exact absurd (h1.symm.trans h2) (by decide)
  · -- restore
    rename_i b hm
    cases hx
    have hsame : ((s.setHart h { s.harts h with intena := b }).harts h).noff = (s.harts h).noff := by simp [St.setHart]
    exact absurd (h1.symm.trans (hsame.symm.trans h2)) (by decide)
  · -- pick
    split at hx
    · cases hx
      rw [noff_acquire] at h2
      cases h2
    · cases hx
  · -- take, by the scheduler's loop
    split at hx
    · cases hx
      exact absurd (h1.symm.trans h2) (by decide)
    · cases hx
  · -- look
    rename_i p hm
    split at hx
    · cases hx
      rw [noff_switch] at h2
      exact absurd (h1.symm.trans h2) (by decide)
    · cases hx
      rw [harts_setMode] at h2 ⊢
      rw [release_last hoff h1 h2]
      exact hdue (by simp [hm])
  · -- finish
    rename_i p hm
    cases hx
    rw [harts_setMode] at h2 ⊢
    rw [release_last hoff h1 h2]
    exact hdue (by simp [hm])
  · cases hx

/-! ## The results -/

/-- In every reachable state and on every hart: `noff` is the number of unmatched `push_off`s of the running
    thread, interrupts are off while it is positive, no panic of `pop_off` has been reached, and the step
    that brings it to 0 turns interrupts on exactly when they were on at the outermost `push_off`: of that
    process, or for a scheduler its own, unless a process came back since, which then counts. -/
theorem interrupts_survive_switches (hr : Reachable s) (h : Nat) :
    (s.harts h).noff = (s.thr (s.cur h)).depth ∧
    (0 < (s.harts h).noff → (s.harts h).intr = false) ∧
    s.stop ≠ some .interruptible ∧ s.stop ≠ some .popOff ∧
    ∀ a s', step s h a = some s' → (s.harts h).noff = 1 → (s'.harts h).noff = 0 →
      (∀ p, (s.harts h).on = some p → (s'.harts h).intr = (s.thr (.proc p)).base) ∧
      ((s.harts h).on = none → (s.thr (.sched h)).back = none → (s'.harts h).intr = (s.thr (.sched h)).base) ∧
      ((s.harts h).on = none → ∀ b, (s.thr (.sched h)).back = some b → (s'.harts h).intr = b) := by
  have hi := hr.inv
  refine ⟨hi.noff h, hi.off h, hi.stop.1, hi.stop.2.1, fun a s' hstep h1 h2 => ?_⟩
  have hx : exec s h a = some s' := by
    rw [step] at hstep
    split at hstep
    · exact hstep
    · cases hstep
  have hdue := hi.exec_restores hx h1 h2
  refine ⟨fun p hp => ?_, fun hn hb => ?_, fun hn b hb => ?_⟩
  · rw [hdue, cur_eq_proc.mpr hp, Thr.due, (hi.proc p).1]
    rfl
  · rw [hdue, cur_eq_sched.mpr ⟨hn, rfl⟩, Thr.due, hb]
    rfl
  · rw [hdue, cur_eq_sched.mpr ⟨hn, rfl⟩, Thr.due, hb]
    rfl

def run : St → List (Nat × Act) → Option St
  | s, [] => some s
  | s, (h, a) :: as => (step s h a).bind fun s' => run s' as

theorem Reachable.run {as : List (Nat × Act)} : ∀ {s s' : St}, Reachable s → Interrupts.run s as = some s' →
    Reachable s' := by
  induction as with
  | nil =>
    intro s s' hr h
    cases h
    exact hr
  | cons x as ih =>
    intro s s' hr h
    obtain ⟨t, ht, hrun⟩ := Option.bind_eq_some_iff.mp h
    exact ih (hr.step ht) hrun

/-- `userinit`, then hart 0 turns interrupts on and switches to the first process. -/
def firstRun : List (Nat × Act) :=
  [.acquire (.proc 0), .take, .allocproc 0, .setState 0 .runnable, .release (.proc 0), .intr true, .pick 0, .take,
    .look].map (0, ·)

/-- It gets out of `forkret`; a timer interrupt makes it `yield`. -/
def preempted : List (Nat × Act) :=
  firstRun ++ [.release (.proc 0), .intr false, .acquire (.proc 0), .take, .setState 0 .runnable, .sched].map (0, ·)

theorem interrupts_survive_switches_forkret :
    ∃ s s', Reachable s ∧ step s 0 (.release (.proc 0)) = some s' ∧ (s.harts 0).on = some 0 ∧ (s.harts 0).noff = 1 ∧
      (s'.harts 0).noff = 0 ∧ (s.thr (.proc 0)).base = true ∧ (s'.harts 0).intr = true := by
  have hex : ∃ s, run boot firstRun = some s := Option.isSome_iff_exists.mp (by decide)
  obtain ⟨s, hs⟩ := hex
  have hr : Reachable s := Reachable.boot.run hs
  have hat : (run boot firstRun).map (fun s => ((s.harts 0).on, (s.harts 0).noff, (s.thr (.proc 0)).base,
      (step s 0 (.release (.proc 0))).map fun s' => (s'.harts 0).noff)) = some (some 0, 1, true, some 0) := by decide
  simp only [hs, Option.map_some, Option.some.injEq, Prod.mk.injEq, Option.map_eq_some_iff] at hat
  obtain ⟨hon, h1, hbase, s', hstep, h2⟩ := hat
  obtain ⟨-, -, -, -, hlast⟩ := interrupts_survive_switches hr 0
  exact ⟨s, s', hr, hstep, hon, h1, h2, hbase, by rw [(hlast _ _ hstep h1 h2).1 0 hon, hbase]⟩

/-- After a process that was preempted has come back, the scheduler's `release(&p->lock)` leaves interrupts off,
    though they were on at its `acquire(&p->lock)`. -/
theorem scheduler_loses_interrupts :
    ∃ s s', Reachable s ∧ step s 0 .finish = some s' ∧ s.cur 0 = .sched 0 ∧ (s.harts 0).noff = 1 ∧
      (s'.harts 0).noff = 0 ∧ (s.thr (.sched 0)).base = true ∧ (s'.harts 0).intr = false := by
  have hex : ∃ s, run boot preempted = some s := Option.isSome_iff_exists.mp (by decide)
  obtain ⟨s, hs⟩ := hex
  have hr : Reachable s := Reachable.boot.run hs
  have hat : (run boot preempted).map (fun s => (s.cur 0, (s.harts 0).noff, (s.thr (.sched 0)).base,
      (step s 0 .finish).map fun s' => ((s'.harts 0).noff, (s'.harts 0).intr))) =
        some (.sched 0, 1, true, some (0, false)) := by decide
  simp only [hs, Option.map_some, Option.some.injEq, Prod.mk.injEq, Option.map_eq_some_iff] at hat
  obtain ⟨hcur, h1, hbase, s', hstep, h2, hoff⟩ := hat
  exact ⟨s, s', hr, hstep, hcur, h1, h2, hbase, hoff⟩

end Xv6.Interrupts
