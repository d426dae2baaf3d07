/-
  Xv6.Process.Sleep — `sleep` of kernel/proc.c along the runs of `Xv6.Process.Sched`.

  A process is committed to `sleep(c, lk)` (`Committed`) from its `release(lk)` until it is
  woken; it commits in that one step (`committed_step`). `Calling p W`: where the thread of `p`
  is in a call of `sleep`, with what the caller had established (`W`) for as long as it holds
  `lk` (`Inv.calling_step`).
-/
import Xv6.Process.Machine

namespace Xv6.Process

variable {s s' : St} {h k p q : Nat} {H : List Lock} {is rest : List Instr} {i j : Instr} {c : Chan} {lk : Lock}

/-! ## Committed to sleep -/

/-- In `sleep(c, lk)`, between `release(lk)` and `p->state = SLEEPING`. -/
def dozing : List Instr → Option (Chan × Lock)
  | .setChan _ c lk :: _ => some (c, lk)
  | .nap _ c lk :: _ => some (c, lk)
  | _ => none

/-- In `sleep(c, lk)`, from `p->state = SLEEPING` until `sched` returns. -/
def dropped : List Instr → Option (Chan × Lock)
  | .sched :: .tidy _ c lk :: _ => some (c, lk)
  | .swtchBack :: .setIntena _ :: .tidy _ c lk :: _ => some (c, lk)
  | .setIntena _ :: .tidy _ c lk :: _ => some (c, lk)
  | _ => none

/-- Process `p` is in `sleep(c, lk)`, has released `lk` and has not been woken. -/
def Committed (s : St) (p : Nat) (c : Chan) (lk : Lock) : Prop :=
  dozing (s.proc p) = some (c, lk) ∨ (s.data.state p = .sleeping ∧ dropped (s.proc p) = some (c, lk))

theorem Quiet.dozing (hq : Quiet is) : dozing is = none := by
  unfold Process.dozing
  split
  · exact absurd rfl (hq.setChan _ _ _ _)
  · exact absurd rfl (hq.nap _ _ _ _)
  · rfl

theorem Quiet.dropped (hq : Quiet is) : dropped is = none := by
  unfold Process.dropped
  split
  · exact absurd rfl (hq.sched _)
  · exact absurd rfl (hq.swtchBack _)
  · exact absurd rfl (hq.setIntena _ _)
  · rfl

theorem not_committed (h1 : dozing (s.proc p) = none) (h2 : dropped (s.proc p) = none) : ¬ Committed s p c lk := by
  simp [Committed, h1, h2]

/-- A process that another hart does not touch commits to nothing. -/
theorem Inv.committed_other (hi : Inv s) (hd : Does s h s') (hp : s.cur h ≠ some p) (hc : Committed s' p c lk) :
    Committed s p c lk := by
  rcases hi.proc_other hd hp with e | ⟨-, e⟩
  · rcases hc with hc | ⟨hs, hc⟩
    · exact Or.inl (e ▸ hc)
    · refine Or.inr ⟨?_, e ▸ hc⟩
      rcases hi.moves hd p with e' | ⟨i, rest, hcode, -, hmv⟩
      · exact e' ▸ hs
      · obtain ⟨H, hh, hty⟩ := hi.typed hcode
        rw [hs] at hmv
        generalize s.data.state p = a at hmv
        cases hmv with
        | left hl =>
          refine absurd ?_ hp
          rcases hl with rfl | ⟨c, lk, rfl⟩ | ⟨st, rfl⟩ <;> exact hty.1.1
  · exact absurd hc (not_committed (by rw [e]; rfl) (by rw [e]; rfl))

/-- A process commits when it releases `lk`. -/
theorem committed_step (hi : Inv s) (hd : Does s h s') (hc : Committed s' p c lk) :
    Committed s p c lk ∨
      (s.cur h = some p ∧ ∃ r, s.code h = .release lk :: .setChan p c lk :: r ∧ s'.proc p = .setChan p c lk :: r) := by
  by_cases hp : s.cur h = some p
  swap
  · exact Or.inl (hi.committed_other hd hp hc)
  have hcode := code_some hp
  obtain ⟨H, hh, hty⟩ := hi.typed (h := h) rfl
  rw [hp] at hty
  have hquiet : ∀ {P : Prop}, Quiet (s'.proc p) → P := fun hq => absurd hc (not_committed hq.dozing hq.dropped)
  cases hd with
  | acquire hc' hl =>
    rw [hc'] at hty
    exact hquiet (by simpa [goto_proc, hp] using hty.1.2.2)
  | @release l rest c' hc' hl =>
    rw [hc'] at hty
    obtain ⟨⟨-, hr⟩, -, hty⟩ := hty
    simp only [Committed, goto_proc, goto_data, hp, if_true] at hc
    rcases hr with hr | ⟨-, r, rfl⟩ | ⟨p', c', r, rfl⟩
    · exact hquiet (by simpa [goto_proc, hp] using hr)
    · simp [dozing, dropped] at hc
    · simp only [dozing, dropped, Option.some.injEq, Prod.mk.injEq, reduceCtorEq, and_false, or_false] at hc
      obtain ⟨rfl, rfl⟩ := hc
      cases hty.1.1
      exact Or.inr ⟨hp, r, hc', by simp [goto_proc, hp]⟩
  | flags hc' hf =>
    rw [hc'] at hty
    simp only [Committed, goto_proc, goto_data, hp, if_true] at hc
    cases hf with
    | intrOn | intrOff | iret => exact hquiet (by simpa [goto_proc, hp] using hty.1.2)
    | scheduler => cases hty.1.1
    | @setProc x => cases x <;> cases hty.1.1
    | setIntena =>
      obtain ⟨⟨p', -, -, hres⟩, -, -⟩ := hty
      rcases hres with ⟨r, rfl⟩ | ⟨c', lk', r, rfl⟩ | ⟨r, rfl⟩ <;> simp [dozing, dropped] at hc
    | sched =>
      obtain ⟨⟨p', -, -, hres⟩, -, -⟩ := hty
      rcases hres with ⟨r, rfl⟩ | ⟨c', lk', r, rfl⟩ | ⟨r, rfl⟩ <;> simp [dozing, dropped] at hc
      exact Or.inl (Or.inr ⟨hc.1, by rw [← hcode, hc']; simp [dropped, hc.2]⟩)
  | irq his hr =>
    refine hquiet ?_
    rcases his with rfl | rfl <;> simp [goto_proc, hp, quiet_cons, quietHead]
  | swtchTo hc' =>
    rw [hc'] at hty
    cases hty.1.1
  | swtchBack hc' =>
    rw [hc'] at hty
    obtain ⟨⟨p', -, -, b, r, rfl⟩, -, -⟩ := hty
    simp only [Committed, goto_proc, goto_data, hp, if_true] at hc
    simp only [dozing, reduceCtorEq, false_or] at hc
    refine Or.inl (Or.inr ⟨hc.1, ?_⟩)
    rw [← hcode, hc', ← hc.2]
    cases r with
    | nil => rfl
    | cons j r => cases j <;> rfl
  | @exec i rest is ch d sp hc' hx he =>
    have hme := he
    rw [hi.myproc hc' hx, hp] at hme
    rw [hc'] at hty
    have hsp : sp ≠ some p := fun e => by
      subst e
      obtain ⟨q, rfl⟩ := exec_spawn he
      exact hi.used_off (hi.made_state hc' rfl) h hp
    have hproc : (s.after h d (is ++ rest) sp).proc p = is ++ rest := by simp [after_proc, hsp, hp]
    by_cases ht : turns i
    · simp only [Committed, hproc, after_data] at hc
      cases i with
      | setRunnable p' =>
        obtain ⟨h1, -, r, rfl⟩ := hty.1
        cases h1
        cases he
        simp [dozing, dropped] at hc
      | setChan p' c' lk' =>
        obtain ⟨h1, -, r, rfl⟩ := hty.1
        cases h1
        cases he
        simp [dozing, dropped] at hc
        exact Or.inl (Or.inl (by rw [← hcode, hc']; simp [dozing, hc]))
      | nap p' c' lk' =>
        obtain ⟨h1, -, r, rfl⟩ := hty.1
        cases h1
        cases he
        simp [dozing, dropped] at hc
        exact Or.inl (Or.inl (by rw [← hcode, hc']; simp [dozing, hc.2]))
      | exitZombie p' st =>
        cases he
        simp [dozing, dropped] at hc
      | dispatch => cases hty.1.1
      | _ => exact ht.elim
    · exact hquiet (by rw [hproc]; exact exec_quiet hty hme ht)
  | stop => exact Or.inl hc

/-! ## Calls of `sleep` -/

/-- The instructions of a `sleep` that has not gone to sleep yet. -/
def sleeps : Instr → Bool
  | .sleep _ _ => true
  | .setChan _ _ _ => true
  | .nap _ _ _ => true
  | _ => false

def Awake (is : List Instr) : Prop := ∀ j ∈ is, sleeps j = false

/-- Where the thread of `p` is in a call of `sleep(c, lk)`; `W c lk` is known while it holds `lk`. -/
inductive Calling (p : Nat) (W : Chan → Lock → Prop) : List Instr → Prop
  | awake {r : List Instr} : Awake r → Calling p W r
  /-- at the end of a turn of `wait` -/
  | turn {c : Chan} {lk : Lock} {r : List Instr} : W c lk → (∀ q, lk ≠ .proc q) → Awake r →
      Calling p W (.release (.proc p) :: .sleep c lk :: r)
  | sleep {c : Chan} {lk : Lock} {r : List Instr} : W c lk → (∀ q, lk ≠ .proc q) → Awake r →
    Calling p W (.sleep c lk :: r)
  | enter {c : Chan} {lk : Lock} {r : List Instr} : W c lk → (∀ q, lk ≠ .proc q) → Awake r →
      Calling p W (.acquire (.proc p) :: .release lk :: .setChan p c lk :: .nap p c lk :: r)
  | drop {c : Chan} {lk : Lock} {r : List Instr} : W c lk → (∀ q, lk ≠ .proc q) → Awake r →
      Calling p W (.release lk :: .setChan p c lk :: .nap p c lk :: r)
  | setChan {c : Chan} {lk : Lock} {r : List Instr} : Awake r → Calling p W (.setChan p c lk :: .nap p c lk :: r)
  | nap {c : Chan} {lk : Lock} {r : List Instr} : Awake r → Calling p W (.nap p c lk :: r)

@[simp] theorem awake_nil : Awake [] := fun _ hj => absurd hj List.not_mem_nil

@[simp] theorem awake_cons : Awake (i :: rest) ↔ sleeps i = false ∧ Awake rest := by simp [Awake]

@[simp] theorem awake_append : Awake (is ++ rest) ↔ Awake is ∧ Awake rest := by
  simp only [Awake, List.mem_append]
  exact ⟨fun h => ⟨fun j hj => h j (Or.inl hj), fun j hj => h j (Or.inr hj)⟩, fun h j hj => hj.elim (h.1 j) (h.2 j)⟩

/-- Who calls `sleep`: the rest of the kernel, `acquiresleep` and `wait`. -/
theorem exec_awake {me : Option Nat} {d d' : Data} {ch : Choice} {sp : Option Nat}
    (he : exec me d ch i = some (.ok d' is sp)) : Awake is ∨ (∃ c lk, i = .sleep c lk) ∨
    (∃ k n c, i = .code k [n] ∧ is = [.sleep (.other c) (.other n), .code k [n]]) ∨
    (∃ n p, i = .sleepLoop n p ∧ d'.locked n = true ∧ is = [.sleep (.sleeplock n) (.sleeplock n), .sleepLoop n p]) ∨
    (∃ p, i = .waitKilled p ∧ is = [.release (.proc p), .sleep (.proc p) .wait, .waitScan 0 p false]) := by
  cases i with
  | sleep c lk => exact Or.inr (Or.inl ⟨c, lk, rfl⟩)
  | code k held =>
    simp only [exec] at he
    split at he
    · rename_i o
      cases o with
      | sleep c n =>
        simp only [codeOp, next] at he
        split at he <;> cases he
        rename_i hk
        obtain ⟨-, rfl⟩ := hk
        exact Or.inr (Or.inr (Or.inl ⟨k, n, c, rfl, rfl⟩))
      | _ =>
        simp only [codeOp, next, withProc] at he
        repeat' split at he
        all_goals cases he
        all_goals exact Or.inl (by simp [sleeps])
    · cases he
  | sleepLoop n p =>
    simp only [exec, next] at he
    split at he <;> cases he
    · rename_i hl
      exact Or.inr (Or.inr (Or.inr (Or.inl ⟨n, p, rfl, hl, rfl⟩)))
    · exact Or.inl (by simp [sleeps])
  | waitKilled p =>
    simp only [exec, next] at he
    cases he
    split
    · exact Or.inl (by simp [sleeps])
    · exact Or.inr (Or.inr (Or.inr (Or.inr ⟨p, rfl, rfl⟩)))
  | user =>
    simp only [exec, next, withProc] at he
    repeat' split at he
    all_goals cases he
    rename_i t p _
    exact Or.inl (by cases t <;> simp [usertrap, sleeps])
  | _ =>
    simp only [exec, next, withProc] at he
    repeat' split at he
    all_goals cases he
    all_goals exact Or.inl (by simp [sleeps])

variable {W W' : Chan → Lock → Prop}

theorem Calling.mono (hw : ∀ c lk, W c lk → W' c lk) (hc : Calling p W is) : Calling p W' is := by
  cases hc with
  | awake ha => exact .awake ha
  | turn w hl ha => exact .turn (hw _ _ w) hl ha
  | sleep w hl ha => exact .sleep (hw _ _ w) hl ha
  | enter w hl ha => exact .enter (hw _ _ w) hl ha
  | drop w hl ha => exact .drop (hw _ _ w) hl ha
  | setChan ha => exact .setChan ha
  | nap ha => exact .nap ha

/-- `lk` is held until it is released. -/
theorem Calling.held (ht : Typed (some p) H is) (hc : Calling p W is) : Calling p (fun c lk => W c lk ∧ lk ∈ H) is := by
  cases hc with
  | awake ha => exact .awake ha
  | turn w hl ha =>
    obtain ⟨-, -, ⟨p', -, hH, -⟩, -⟩ := ht
    refine .turn ⟨w, List.mem_of_mem_erase (b := Lock.proc p) ?_⟩ hl ha
    rw [show H.erase (.proc p) = _ from hH]
    simp
  | sleep w hl ha =>
    obtain ⟨⟨p', -, hH, -⟩, -, -⟩ := ht
    exact .sleep ⟨w, by simp [hH]⟩ hl ha
  | enter w hl ha =>
    obtain ⟨-, -, ⟨hm, -⟩, -⟩ := ht
    exact .enter ⟨w, (List.mem_cons.mp hm).resolve_left (hl p)⟩ hl ha
  | drop w hl ha => exact .drop ⟨w, ht.1.1⟩ hl ha
  | setChan ha => exact .setChan ha
  | nap ha => exact .nap ha

/-- An interrupt comes only outside `sleep`. -/
theorem Calling.awake_of_nil (ht : Typed (some p) [] is) (hc : Calling p W is) : Awake is := by
  cases hc.held ht with
  | awake ha => exact ha
  | turn w | sleep w | enter w | drop w => exact absurd w.2 List.not_mem_nil
  | setChan => cases ht.1.2.1
  | nap => cases ht.1.2.1

/-- How a call of `sleep` goes on in a step of any hart: `keep` for what other harts do meanwhile,
    `new` for the call itself. -/
theorem Inv.calling_step (hi : Inv s) (hd : Does s h s') (hp : s.cur k = some p) (hca : Calling p W (s.proc p))
    (keep : ∀ c lk, W c lk → s.lock lk = some k →
      (k ≠ h ∨ (s'.data.procs = s.data.procs ∧ s'.data.locked = s.data.locked)) → W' c lk)
    (new : ∀ {i rest is ch sp c lk}, k = h → s.code h = i :: rest → exec (some p) s.data ch i = some
      (.ok s'.data is sp) → .sleep c lk ∈ is → W' c lk) : Calling p W' (s'.proc p) := by
  obtain ⟨H, hh⟩ := hi.holds k
  have hty := hh.typed
  have hcode := code_some hp
  rw [hp, hcode] at hty
  have hca : Calling p (fun c lk => W c lk ∧ s.lock lk = some k) (s.proc p) :=
    (hca.held hty).mono fun c lk w => ⟨w.1, (hh.lock lk).mpr w.2⟩
  by_cases hk : k = h
  swap
  · rw [hi.proc_on hd hp hk]
    exact hca.mono fun c lk w => keep c lk w.1 w.2 (Or.inl hk)
  subst hk
  have kept : s'.data.procs = s.data.procs → s'.data.locked = s.data.locked → ∀ {c lk}, W c lk ∧
      s.lock lk = some k → W' c lk :=
    fun e1 e2 {c lk} w => keep c lk w.1 w.2 (Or.inr ⟨e1, e2⟩)
  cases hd with
  | acquire hc' hl =>
    rw [hcode] at hc'
    rw [hc'] at hca
    simp only [goto_proc, hp, if_true]
    cases hca with
    | awake ha => exact .awake (awake_cons.mp ha).2
    | enter w hlk ha => exact .drop (kept (by simp) (by simp) w) hlk ha
  | release hc' hl =>
    rw [hcode] at hc'
    rw [hc'] at hca
    simp only [goto_proc, hp, if_true]
    cases hca with
    | awake ha => exact .awake (awake_cons.mp ha).2
    | turn w hlk ha => exact .sleep (kept (by simp) (by simp) w) hlk ha
    | drop w hlk ha => exact .setChan ha
  | flags hc' hf =>
    rw [hcode] at hc'
    rw [hc'] at hca
    simp only [goto_proc, hp, if_true]
    cases hf <;> cases hca with
    | awake ha => exact .awake (by simpa [sleeps] using ha)
  | irq his hr =>
    have := hh.intr hr
    subst this
    have ha := hca.awake_of_nil hty
    simp only [goto_proc, hp, if_true]
    rw [hcode]
    rcases his with rfl | rfl <;> exact .awake (by simp [sleeps, ha])
  | swtchTo hc' =>
    rw [hcode] at hc'
    rw [hc'] at hty
    cases hty.1.1
  | swtchBack hc' =>
    rw [hcode] at hc'
    rw [hc'] at hca
    simp only [goto_proc, hp, if_true]
    cases hca with
    | awake ha => exact .awake (awake_cons.mp ha).2
  | @exec i rest is ch d sp hc' hx he =>
    have hme := he
    rw [hi.myproc hc' hx, hp] at hme
    have hsp : sp ≠ some p := fun e => by
      subst e
      obtain ⟨q, rfl⟩ := exec_spawn he
      exact hi.used_off (hi.made_state hc' rfl) k hp
    have hproc : (s.after k d (is ++ rest) sp).proc p = is ++ rest := by simp [after_proc, hsp, hp]
    have new' : ∀ {c lk}, .sleep c lk ∈ is → W' c lk := fun hm => new rfl hc' (by simpa using hme) hm
    rw [hproc]
    rw [hcode] at hc'
    rw [hc'] at hca hty
    cases hca with
    | awake ha =>
      have har := (awake_cons.mp ha).2
      rcases exec_awake he with hi' | ⟨c, lk, rfl⟩ | ⟨k, n, c, rfl, rfl⟩ | ⟨n, p', rfl, -, rfl⟩ | ⟨p', rfl, rfl⟩
      · exact .awake (awake_append.mpr ⟨hi', har⟩)
      · exact absurd (awake_cons.mp ha).1 (by simp [sleeps])
      · exact .sleep (new' (by simp)) (by simp) (by simp [sleeps, har])
      · exact .sleep (new' (by simp)) (by simp) (by simp [sleeps, har])
      · cases hty.1.1
        exact .turn (new' (by simp)) (by simp) (by simp [sleeps, har])
    | sleep w hl ha =>
      cases hme
      exact .enter (kept (by simp) (by simp) w) hl (by simp [sleeps, ha])
    | setChan ha =>
      cases hme
      exact .nap ha
    | nap ha =>
      cases hme
      exact .awake ha
    | turn | enter | drop =>
      simp only [exec] at hme
      cases hme
  | stop => exact hca.mono fun c lk w => kept rfl rfl w

end Xv6.Process
