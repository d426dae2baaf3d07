/-
  Xv6.Process.Machine — the scheduler's state machine: the invariant along every run of
  `Xv6.Process.Sched`, and what it says about `swtch`, `c->proc`, `p->state` and the panics.

  Proved: `inv`, and from it `scheduler_machine`.
-/
import Xv6.Process.Exec

namespace Xv6.Process

variable {s s' : St} {h k p q : Nat} {H : List Lock} {is rest : List Instr} {i : Instr}

theorem stop_inv (hi : Inv s) : Inv (s.stop .initExiting) := by
  refine ⟨fun h => ?_, hi.cur, hi.on, fun hc => ?_, fun hp => ?_, fun hj hm => ?_, Or.inr rfl⟩
  · obtain ⟨H, hh⟩ := hi.holds h
    exact ⟨H, hh.nodup, hh.lock, hh.noff, hh.intr, hh.typed⟩
  · obtain ⟨h1, h2, h3⟩ := hi.off hc
    exact ⟨h1, h2, h3⟩
  · obtain ⟨h1, h2, h3, h4⟩ := hi.parked hp
    exact ⟨h1, h2, h3, h4⟩
  · obtain ⟨h1, h2⟩ := hi.made hj hm
    exact ⟨h1, h2.mono rfl fun _ hf => hf⟩

theorem finish_inv (ch : Choice) (hi : Inv s) (hc : s.code h = i :: rest) (hx : cproc (i :: rest) = none)
    (hz : i ≠ .zombieExit) (hr : s.finish h rest (exec (s.harts h).proc s.data ch i) = some s') : Inv s' := by
  generalize hres : exec (s.harts h).proc s.data ch i = res at hr
  cases res with
  | none => cases hr
  | some res =>
    cases res with
    | panic e =>
      obtain ⟨H, hh, hty⟩ := hi.typed hc
      rw [hi.myproc hc hx] at hres
      cases hr
      rw [exec_panic hty hz hres]
      exact stop_inv hi
    | ok d is sp =>
      cases sp with
      | none =>
        cases hr
        exact exec_inv hi hc hx hres (by simp) (by simp) (by simp) (by simp) (by simp) (by simp [goto_sched])
          fun p => by simp [goto_proc]
      | some q =>
        cases hr
        refine exec_inv hi hc hx hres (by simp) (by simp) (by simp) (by simp) (by simp) (by simp [goto_sched]) fun p =>
          ?_
        by_cases e : p = q
        · simp [e]
        · simp [goto_proc, e, Ne.symm e]

theorem run_inv {ch : Choice} (hi : Inv s) (hc : s.code h = i :: rest) (hr : run s h ch i rest = some s') : Inv s' := by
  obtain ⟨H, hh, hty⟩ := hi.typed hc
  cases i with
  | acquire l =>
    obtain ⟨t, ht, rfl⟩ := Option.map_eq_some_iff.mp hr
    exact acquire_inv hi hc ht
  | release l =>
    cases hr
    exact release_inv hi hc
  | intrOn | intrOff | iret =>
    cases hr
    obtain ⟨⟨rfl, hq⟩, -, hr⟩ := hty
    have hq0 : Quiet (s.code h) := hh.typed.quiet
    exact hi.flags hh rfl rfl (fun _ => rfl) hr (hq0.same hq) fun j hj _ => by rw [hc]; exact List.mem_cons_of_mem _ hj
  | scheduler =>
    cases hr
    obtain ⟨⟨hcur, rfl, rfl⟩, -, -⟩ := hty
    have hq0 : Quiet (s.code h) := hh.typed.quiet
    refine hi.flags hh rfl rfl (fun _ => rfl) ?_ (hq0.same (quiet_cons.mpr trivial)) fun j hj hm => ?_
    · rw [hcur]
      exact ⟨⟨rfl, rfl, rfl⟩, by simp [base], rfl⟩
    · rw [List.mem_singleton.mp hj] at hm
      exact absurd rfl hm
  | setProc x =>
    cases hr
    exact setProc_inv hi hc
  | swtchTo j =>
    cases hr
    exact swtchTo_inv hi hc
  | sched =>
    obtain ⟨h1, h2⟩ := sched_inv hi hc
    simp only [run, h1] at hr
    cases hr
    exact h2
  | swtchBack =>
    cases hr
    exact swtchBack_inv hi hc
  | setIntena b =>
    cases hr
    obtain ⟨⟨p, hcur, rfl, hres⟩, -, hr⟩ := hty
    refine hi.flags hh rfl rfl hh.intr hr ?_ fun j hj _ => by rw [hc]; exact List.mem_cons_of_mem _ hj
    rw [hc]
    rcases hres with ⟨r, rfl⟩ | ⟨c, lk, r, rfl⟩ | ⟨r, rfl⟩ <;> exact ⟨rfl, rfl, rfl, rfl⟩
  | zombieExit =>
    obtain ⟨⟨p, hcur, -⟩, -, -⟩ := hty
    have hcode := code_some hcur
    have := (hi.on hcur).2.2
    rw [← hcode, hc] at this
    cases this
  | _ => exact finish_inv ch hi hc rfl (by simp) hr

theorem step_inv {e : Ev} (hi : Inv s) (hs : step s e = some s') : Inv s' := by
  cases e with
  | run h ch =>
    simp only [step] at hs
    split at hs
    · cases hs
    · rename_i i rest hc
      exact run_inv hi hc hs
  | irq h timer =>
    simp only [step] at hs
    split at hs
    · rename_i hr
      cases hs
      exact irq_inv hi timer hr
    · cases hs

theorem inv (h : Reach s) : Inv s := by
  induction h with
  | init => exact init_inv
  | step e _ _ hs ih => exact step_inv ih hs

/-! ## The state machine -/

/-- Process `p` is executed by hart `h`, or `h` is about to switch to it, or has just come back
    from it. -/
def OnHart (s : St) (h p : Nat) : Prop :=
  s.cur h = some p ∨ (s.harts h).proc = some p ∨ (s.cur h = none ∧ handing (s.sched h) = some p)

/-- What a thread does with `p->lock` before it does anything to another lock: release it.
    `forkret` starts with `release(&myproc()->lock)`. -/
inductive ReleasesNext (p : Nat) : List Instr → Prop
  | release {r : List Instr} : ReleasesNext p (.release (.proc p) :: r)
  | forkret {r : List Instr} : ReleasesNext p (.forkret :: r)
  | setIntena {b : Bool} {r : List Instr} : ReleasesNext p r → ReleasesNext p (.setIntena b :: r)
  | tidy {q : Nat} {c : Chan} {lk : Lock} {r : List Instr} : ReleasesNext p r → ReleasesNext p (.tidy q c lk :: r)
  | setProc {x : Option Nat} {r : List Instr} : ReleasesNext p r → ReleasesNext p (.setProc x :: r)

theorem Starts.releasesNext (hs : Starts p is) : ReleasesNext p is := by
  rcases hs with rfl | ⟨b, r, rfl, ⟨r', rfl⟩ | ⟨c, lk, r', rfl⟩⟩
  · exact .forkret
  · exact .setIntena .release
  · exact .setIntena (.tidy .release)

/-- `c->proc` names a process only while the hart executes it or its scheduler is at it. -/
theorem Inv.onHart (hi : Inv s) (ho : OnHart s h p) :
    s.cur h = some p ∨ (s.cur h = none ∧ s.lock (.proc p) = some h ∧ ∀ k, s.cur k ≠ some p) := by
  cases hcur : s.cur h with
  | some q =>
    rcases ho with e | e | ⟨e, -⟩
    · exact Or.inl (hcur ▸ e)
    · exact Or.inl ((hi.on hcur).1 ▸ e)
    · rw [hcur] at e
      cases e
  | none =>
    have hsch := hi.off hcur
    -- the scheduler is on its way to `p` or back from it
    have hb : handing (s.sched h) = some p ∨ returned (s.sched h) = some p := by
      rcases ho with e | e | ⟨-, e⟩
      · rw [hcur] at e
        cases e
      · rw [hsch.proc] at e
        unfold cproc at e
        split at e
        · rename_i hs
          cases e
          exact Or.inl (by rw [hs]; rfl)
        · rename_i hs
          cases e
          exact Or.inr (by rw [hs]; rfl)
        · cases e
      · exact Or.inl e
    refine Or.inr ⟨rfl, hi.busy_lock hcur hb, ?_⟩
    rcases hb with hb | hb
    · exact (hsch.hand p hb).2
    · exact hsch.ret p hb

theorem Inv.onHart_unique (hi : Inv s) (hh : OnHart s h p) (hk : OnHart s k p) : h = k := by
  rcases hi.onHart hh with e | ⟨-, e, hn⟩ <;> rcases hi.onHart hk with e' | ⟨-, e', hn'⟩
  · exact hi.cur e e'
  · exact absurd e (hn' h)
  · exact absurd e' (hn k)
  · exact Option.some.inj (e.symm.trans e')

theorem Inv.running (hi : Inv s) (hr : s.data.state p = .running) : ∃ h, OnHart s h p := by
  by_cases hon : ∃ k, s.cur k = some p
  · obtain ⟨k, hk⟩ := hon
    exact ⟨k, Or.inl hk⟩
  · obtain ⟨k, h1, h2⟩ := (hi.parked fun k hk => hon ⟨k, hk⟩).handed hr
    exact ⟨k, Or.inr (Or.inr ⟨h1, h2⟩)⟩

/-- Both sides of a `swtch`: the lock is this hart's, and the thread that runs next releases it. -/
theorem Inv.swtch (hi : Inv s) :
    (s.code h = .swtchTo p :: rest → s.lock (.proc p) = some h ∧ s.data.state p = .running ∧ ReleasesNext p
    (s.proc p)) ∧
    (s.cur h = some p → s.code h = .swtchBack :: rest → s.lock (.proc p) = some h ∧ ReleasesNext p (s.sched h)) := by
  obtain ⟨H, hh⟩ := hi.holds h
  have hty := hh.typed
  constructor
  · intro hc
    rw [hc] at hty
    obtain ⟨⟨hcur, rfl, -⟩, -, -⟩ := hty
    have hcode := code_none hcur
    rw [hcode] at hc
    obtain ⟨hrun, hnone⟩ := (hi.off hcur).hand p (by rw [hc]; rfl)
    exact ⟨(hh.lock _).mpr (by simp), hrun, ((hi.parked hnone).typed (Or.inr (Or.inr hrun))).2.releasesNext⟩
  · intro hp hc
    rw [hc] at hty
    obtain ⟨⟨q, hq, rfl, -⟩, -, -⟩ := hty
    rw [hp] at hq
    cases hq
    refine ⟨(hh.lock _).mpr (by simp), ?_⟩
    rw [(hi.on hp).2.1]
    exact .setProc .release

/-! ## The steps of a reachable state

`Does s h s'` lists what a step of hart `h` can be once the panics are ruled out. -/

/-- Instructions that set the hart's own flags, and what is left to do after them. -/
inductive Flags (rest : List Instr) : Instr → List Instr → Prop
  | intrOn : Flags rest .intrOn rest
  | intrOff : Flags rest .intrOff rest
  | iret : Flags rest .iret rest
  | scheduler : Flags rest .scheduler (.scan 0 :: rest)
  | setProc {x : Option Nat} : Flags rest (.setProc x) rest
  | setIntena {b : Bool} : Flags rest (.setIntena b) rest
  | sched {b : Bool} : Flags rest .sched (.swtchBack :: .setIntena b :: rest)

def St.after (s : St) (h : Nat) (d : Data) (is : List Instr) (sp : Option Nat) : St :=
  let t := { s with data := d }.goto h is
  { t with proc := fun p => if sp = some p then [.forkret] else t.proc p }

inductive Does (s : St) (h : Nat) : St → Prop
  | acquire {l : Lock} {rest : List Instr} {c : Hart} : s.code h = .acquire l :: rest → s.lock l = none →
      Does s h ({ s with harts := upd s.harts h c, lock := fun k => if k = l then some h else s.lock k }.goto h rest)
  | release {l : Lock} {rest : List Instr} {c : Hart} : s.code h = .release l :: rest → s.lock l = some h →
      Does s h ({ s with harts := upd s.harts h c, lock := fun k => if k = l then none else s.lock k }.goto h rest)
  | flags {i : Instr} {rest is : List Instr} {c : Hart} : s.code h = i :: rest → Flags rest i is →
      Does s h ({ s with harts := upd s.harts h c }.goto h is)
  | irq {is : List Instr} {c : Hart} : is = [.code .irq [], .yieldIf, .iret] ∨ is = [.code .irq [], .iret] →
      (s.harts h).intr = true → Does s h ({ s with harts := upd s.harts h c }.goto h (is ++ s.code h))
  | swtchTo {p : Nat} {rest : List Instr} : s.code h = .swtchTo p :: rest →
      Does s h { s.goto h rest with cur := upd s.cur h (some p) }
  | swtchBack {rest : List Instr} : s.code h = .swtchBack :: rest →
    Does s h { s.goto h rest with cur := upd s.cur h none }
  | exec {i : Instr} {rest is : List Instr} {ch : Choice} {d : Data} {sp : Option Nat} : s.code h = i :: rest →
      cproc (i :: rest) = none → exec (s.harts h).proc s.data ch i = some (.ok d is sp) →
      Does s h (s.after h d (is ++ rest) sp)
  | stop : Does s h (s.stop .initExiting)

theorem finish_does (ch : Choice) (hi : Inv s) (hc : s.code h = i :: rest) (hx : cproc (i :: rest) = none)
    (hz : i ≠ .zombieExit) (hr : s.finish h rest (exec (s.harts h).proc s.data ch i) = some s') : Does s h s' := by
  generalize hres : exec (s.harts h).proc s.data ch i = res at hr
  cases res with
  | none => cases hr
  | some res =>
    cases res with
    | panic e =>
      obtain ⟨H, hh, hty⟩ := hi.typed hc
      rw [hi.myproc hc hx] at hres
      cases hr
      rw [exec_panic hty hz hres]
      exact .stop
    | ok d is sp =>
      have : s' = s.after h d (is ++ rest) sp := by
        cases sp with
        | none => cases hr; rfl
        | some q =>
          cases hr
          have hp : upd ({ s with data := d }.goto h (is ++ rest)).proc q [.forkret] =
              fun p => if some q = some p then [.forkret] else ({ s with data := d }.goto h (is ++ rest)).proc p := by
            funext p
            by_cases e : p = q
            · simp [e]
            · simp [e, Ne.symm e]
          simp only [St.after, hp]
      rw [this]
      exact .exec hc hx hres

theorem run_does {ch : Choice} (hi : Inv s) (hc : s.code h = i :: rest) (hr : run s h ch i rest = some s') :
    Does s h s' := by
  obtain ⟨H, hh, hty⟩ := hi.typed hc
  cases i with
  | acquire l =>
    obtain ⟨t, ht, rfl⟩ := Option.map_eq_some_iff.mp hr
    unfold St.acquire at ht
    simp only [St.setHart] at ht
    split at ht
    · rename_i hl
      cases ht
      exact .acquire hc hl
    · rename_i k hk
      split at ht
      · rename_i e
        exact absurd ((hh.lock l).mp (e ▸ hk)) hty.1.1
      · cases ht
  | release l =>
    cases hr
    have hl := (hh.lock l).mpr hty.1.1
    have hfin := (release_inv hi hc).fine
    rw [goto_panic] at hfin
    unfold St.release at hfin ⊢
    simp only [hl, ne_eq, not_true_eq_false, if_false] at hfin ⊢
    split
    · rename_i e he
      exfalso
      rw [he] at hfin
      unfold Hart.popOff at he
      repeat' split at he
      all_goals cases he
      all_goals simp [St.stop] at hfin
    · exact .release hc hl
  | intrOn => cases hr; exact .flags hc .intrOn
  | intrOff => cases hr; exact .flags hc .intrOff
  | iret => cases hr; exact .flags hc .iret
  | scheduler => cases hr; exact .flags hc .scheduler
  | setProc x => cases hr; exact .flags hc .setProc
  | setIntena b => cases hr; exact .flags hc .setIntena
  | swtchTo p => cases hr; exact .swtchTo hc
  | swtchBack => cases hr; exact .swtchBack hc
  | sched =>
    have h1 := (sched_inv hi hc).1
    simp only [run, h1] at hr
    cases hr
    have := Does.flags (c := s.harts h) hc (.sched (b := (s.harts h).intena))
    rwa [upd_self] at this
  | zombieExit =>
    obtain ⟨⟨p, hcur, -⟩, -, -⟩ := hty
    have hcode := code_some hcur
    have := (hi.on hcur).2.2
    rw [← hcode, hc] at this
    cases this
  | _ => exact finish_does ch hi hc rfl (by simp) hr

/-- Every step of a reachable state is one of these. -/
theorem step_does {e : Ev} (hi : Inv s) (hs : step s e = some s') : ∃ h, Does s h s' := by
  cases e with
  | run h ch =>
    simp only [step] at hs
    split at hs
    · cases hs
    · rename_i i rest hc
      exact ⟨h, run_does hi hc hs⟩
  | irq h timer =>
    simp only [step] at hs
    split at hs
    · rename_i hr
      cases hs
      refine ⟨h, .irq ?_ hr⟩
      cases timer <;> simp
    · cases hs

/-- An instruction of `fork` on the hart is one of the process it executes, and finds its slot as
    it left it. -/
theorem Inv.made_state (hi : Inv s) (hc : s.code h = i :: rest) (hm : makes i = some q) :
    s.data.state q = madeState i := by
  obtain ⟨H, hh, hty⟩ := hi.typed hc
  cases hcur : s.cur h with
  | none =>
    rw [hcur] at hty
    cases i with
    | takePid | setUsed | allocMem | forkCopy | forkParent | forkRun => cases hty.1.1
    | _ => cases hm
  | some p =>
    have hcode := code_some hcur
    exact (hi.made (p := p) (by rw [← hcode, hc]; exact List.mem_cons_self) hm).2.state

section After

variable (s : St) (h : Nat) (d : Data) (is : List Instr) (sp : Option Nat)

@[simp] theorem after_data : (s.after h d is sp).data = d := by simp [St.after]
@[simp] theorem after_cur : (s.after h d is sp).cur = s.cur := by simp [St.after]
@[simp] theorem after_sched : (s.after h d is sp).sched = (s.goto h is).sched := by simp [St.after, goto_sched]

theorem after_proc (p : Nat) :
    (s.after h d is sp).proc p = if sp = some p then [.forkret] else if s.cur h = some p then is else s.proc p := by
  simp [St.after, goto_proc]

end After

/-- The thread goes on with what the instruction is replaced by. -/
theorem Inv.after_code (hi : Inv s) {ch : Choice} {d : Data} {sp : Option Nat} (hc : s.code h = i :: rest)
    (he : exec (s.harts h).proc s.data ch i = some (.ok d is sp)) :
    (s.after h d (is ++ rest) sp).code h = is ++ rest := by
  unfold St.code
  rw [after_cur]
  cases hcur : s.cur h with
  | none => simp [goto_sched, hcur]
  | some p =>
    have hsp : sp ≠ some p := fun e => by
      subst e
      obtain ⟨q, rfl⟩ := exec_spawn he
      exact hi.used_off (hi.made_state hc rfl) h hcur
    simp [after_proc, hsp, hcur]

/-- The other harts go on as they were. -/
theorem Does.cur_other (hd : Does s h s') (hk : k ≠ h) : s'.cur k = s.cur k := by
  cases hd with
  | stop => rfl
  | _ => simp [hk]

theorem Inv.proc_other (hi : Inv s) (hd : Does s h s') (hp : s.cur h ≠ some p) :
    s'.proc p = s.proc p ∨ (s.data.state p = .used ∧ s'.proc p = [.forkret]) := by
  cases hd with
  | @exec i rest is ch d sp hc hx he =>
    rw [after_proc, if_neg hp]
    split
    · rename_i e
      subst e
      obtain ⟨q, rfl⟩ := exec_spawn he
      exact Or.inr ⟨hi.made_state hc rfl, rfl⟩
    · exact Or.inl rfl
  | stop => exact Or.inl rfl
  | _ => exact Or.inl (by simp [goto_proc, hp])

theorem Inv.proc_on (hi : Inv s) (hd : Does s h s') (hk : s.cur k = some p) (hne : k ≠ h) : s'.proc p = s.proc p :=
  (hi.proc_other hd fun e => hne (hi.cur hk e)).resolve_right fun hu => hi.used_off hu.1 k hk

theorem Inv.code_other (hi : Inv s) (hd : Does s h s') (hk : k ≠ h) : s'.code k = s.code k := by
  unfold St.code
  rw [hd.cur_other hk]
  cases hc : s.cur k with
  | none => cases hd <;> simp [goto_sched, St.stop] <;> split <;> simp [hk]
  | some p => exact hi.proc_on hd hc hk

/-- How the state of a process changes in a step of hart `h`. -/
theorem Inv.moves (hi : Inv s) (hs : Does s h s') (p : Nat) : s'.data.state p = s.data.state p ∨
    ∃ i rest, s.code h = i :: rest ∧ s.lock (.proc p) = some h ∧ Moves i p (s.data.state p) (s'.data.state p) := by
  cases hs with
  | exec hc hx he =>
    obtain ⟨H, hh, hty⟩ := hi.typed hc
    rcases (exec_effect he).moves hty (fun q hq => hi.made_state hc hq) p with e | ⟨hl, hmv⟩
    · exact Or.inl (by simpa [St.after] using e)
    · exact Or.inr ⟨_, _, hc, (hh.lock _).mpr hl, by simpa [St.after] using hmv⟩
  | stop => exact Or.inl rfl
  | _ => exact Or.inl (by simp)

/-- A process becomes RUNNING only from RUNNABLE. -/
theorem Inv.to_running (hi : Inv s) (hs : Does s h s') (hr : s'.data.state p = .running) :
    s.data.state p = .running ∨ s.data.state p = .runnable := by
  rcases hi.moves hs p with e | ⟨i, rest, -, -, hmv⟩
  · exact Or.inl (by rw [← e]; exact hr)
  · rw [hr] at hmv
    generalize s.data.state p = a at hmv
    cases hmv with
    | dispatched => exact Or.inr rfl
    | left _ hne => exact absurd rfl hne

/-- A hart comes to execute a process only by `swtch`, and then the process is RUNNING. -/
theorem Inv.to_cur (hi : Inv s) (hs : Does s h s') (hk : s'.cur k = some p) :
    s.cur k = some p ∨ ∃ rest, s.code k = .swtchTo p :: rest ∧ s.data.state p = .running := by
  cases hs with
  | swtchTo hc =>
    by_cases e : k = h
    · rw [e] at hk ⊢
      simp only [upd_same, Option.some.injEq] at hk
      rw [← hk]
      exact Or.inr ⟨_, hc, (hi.swtch.1 hc).2.1⟩
    · exact Or.inl (by simpa [e] using hk)
  | swtchBack hc =>
    by_cases e : k = h
    · rw [e] at hk
      simp at hk
    · exact Or.inl (by simpa [e] using hk)
  | stop => exact Or.inl hk
  | exec hc hx he => exact Or.inl (by simpa [St.after] using hk)
  | _ => exact Or.inl (by simpa using hk)

/-- In every reachable state: a process is on at most one hart, executed by it or named by its
    `c->proc`, and a RUNNING one is on one; at a `swtch` in either direction `p->lock` is this
    hart's and the thread that runs next releases it before it touches another lock; a step
    makes RUNNING only a RUNNABLE process and switches only to a RUNNING one; and the kernel has
    not panicked, unless `initproc` called `exit`. -/
theorem scheduler_machine (hr : Reach s) :
    (∀ h k p, OnHart s h p → OnHart s k p → h = k) ∧
    (∀ p, s.data.state p = .running → ∃ h, OnHart s h p) ∧
    (∀ h p rest, s.code h = .swtchTo p :: rest → s.lock (.proc p) = some h ∧ ReleasesNext p (s.proc p)) ∧
    (∀ h p rest, s.cur h = some p → s.code h = .swtchBack :: rest →
      s.lock (.proc p) = some h ∧ ReleasesNext p (s.sched h)) ∧
    (∀ e s', step s e = some s' →
      (∀ p, s.data.state p ≠ .running → s'.data.state p = .running → s.data.state p = .runnable) ∧
      ∀ h p, s.cur h ≠ some p → s'.cur h = some p → s.data.state p = .running) ∧
    (s.panic = none ∨ s.panic = some .initExiting) := by
  have hi := inv hr
  refine ⟨fun h k p => hi.onHart_unique, fun p => hi.running, fun h p rest hc => ?_, fun h p rest => hi.swtch.2,
    fun e s' hs => ?_, hi.fine⟩
  · obtain ⟨h1, -, h3⟩ := hi.swtch.1 hc
    exact ⟨h1, h3⟩
  · obtain ⟨h, hd⟩ := step_does hi hs
    refine ⟨fun p hn hp => (hi.to_running hd hp).resolve_left hn, fun k p hn hp => ?_⟩
    obtain ⟨rest, -, h2⟩ := (hi.to_cur hd hp).resolve_left hn
    exact h2

/-- Hart 0 in `scheduler` dispatches `initproc` and switches to it. -/
def dispatchInit : List Ev := List.replicate 6 (.run 0 .go)

theorem scheduler_machine_dispatch : ∃ s, runs init dispatchInit = some s ∧ s.cur 0 = some initproc ∧
    s.data.state initproc = .running ∧ s.lock (.proc initproc) = some 0 ∧ ∀ k, OnHart s k initproc → 0 = k := by
  refine ⟨_, rfl, rfl, rfl, rfl, fun k hk => ?_⟩
  exact (scheduler_machine (Reach.runs dispatchInit .init rfl)).1 0 k initproc (Or.inl rfl) hk

end Xv6.Process
