/-
  Xv6.Process.Wakeup — `sleep` and `wakeup` of kernel/proc.c lose no wakeups, and the sleep-locks
  of kernel/sleeplock.c.

  Nobody commits to `sleep(c, lk)` while another hart holds `lk`. A `wakeup(c)` made with `lk`
  held has therefore, when it has looked at slot `j`, left nobody committed there
  (`Sleepers.scan`). `Settled s c lk`: nobody is committed, or a `wakeup(c)` is on its way; no
  step ends that but a process that releases `lk` in `sleep(c, lk)` (`settled_step`).

  Proved: `sleepers` along every run, and from it `no_lost_wakeup`.
-/
import Xv6.Process.Sleep

namespace Xv6.Process

variable {s s' : St} {h k p q : Nat} {H : List Lock} {is rest : List Instr} {i j : Instr} {c : Chan} {lk : Lock}
  {n : Nat} {g : List Lock} {me : Option Nat} {d d' : Data}

/-! ## The scan of `wakeup` -/

/-- A `wakeup(c)` in progress: the slot it is at and the locks its caller holds. -/
def wakes : Instr → Option (Nat × Chan × List Lock)
  | .wakeupFrom i (some c) g => some (i, c, g)
  | .wakeAt i (some c) g => some (i, c, g)
  | _ => none

structure Sleepers (s : St) : Prop where
  lt : ∀ {p}, s.data.state p ≠ .unused → p < NPROC
  parked : ∀ {p}, (∀ h, s.cur h ≠ some p) → Awake (s.proc p)
  calls : ∀ {h p}, s.cur h = some p → Calling p (fun _ _ => True) (s.proc p)
  chan : ∀ {p c lk}, Committed s p c lk → (∀ q c' lk' r, s.proc p ≠ .setChan q c' lk' :: r) →
    (s.data.procs p).chan = some c
  /-- nobody is committed where the scan has been -/
  scan : ∀ {k j n c g m lk}, j ∈ s.code k → wakes j = some (n, c, g) → m < n → lk ∈ g → ¬ Committed s m c lk

theorem wakes_base (hw : wakes j = some (n, c, g)) : base j = g := by
  cases j with
  | wakeupFrom n c g | wakeAt n c g =>
    cases c <;> cases hw
    rfl
  | _ => cases hw

theorem mem_needs (hj : j ∈ is) (hw : wakes j = some (n, c, g)) (hlk : lk ∈ g) : lk ∈ needs is :=
  List.mem_flatMap.mpr ⟨j, hj, by rw [wakes_base hw]; exact hlk⟩

/-- A `wakeup` in progress holds its caller's locks. -/
theorem Inv.wakes_lock (hi : Inv s) (hj : j ∈ s.code k) (hw : wakes j = some (n, c, g))
    (hlk : lk ∈ g) : s.lock lk = some k := by
  obtain ⟨H, hh⟩ := hi.holds k
  exact (hh.lock lk).mpr (hh.typed.needs_sub (mem_needs hj hw hlk))

/-- Not a `wakeup` in progress, unless it has not looked at any slot yet. -/
def fresh : Instr → Bool
  | .wakeupFrom n _ _ => n == 0
  | .wakeAt _ _ _ => false
  | _ => true

theorem wakes_fresh (hf : ∀ j ∈ is, fresh j = true) (hj : j ∈ is) (hw : wakes j = some (n, c, g)) : n = 0 := by
  have hf := hf j hj
  cases j with
  | wakeupFrom m x g' =>
    cases x <;> cases hw
    simpa [fresh] using hf
  | wakeAt => cases hf
  | _ => cases hw

/-- How `wakeup` goes on. -/
theorem exec_wakes {ch : Choice} {sp : Option Nat}
    (he : exec me d ch i = some (.ok d' is sp)) (hj : j ∈ is) (hw : wakes j = some (n, c, g)) :
    n = 0 ∨ wakes i = some (n, c, g) ∨
      ∃ m, n = m + 1 ∧ wakes i = some (m, c, g) ∧ (me = some m ∨ i = .wakeAt m (some c) g) := by
  cases i with
  | wakeupFrom m c' g' =>
    simp only [exec, next] at he
    repeat' split at he
    all_goals cases he
    all_goals simp only [List.mem_cons, List.not_mem_nil, or_false] at hj
    · subst hj
      cases c' <;> cases hw
      exact Or.inr (Or.inr ⟨m, rfl, rfl, Or.inl ‹_›⟩)
    · rcases hj with rfl | rfl
      · cases hw
      · exact Or.inr (Or.inl (by cases c' <;> cases hw; rfl))
  | wakeAt m c' g' =>
    simp only [exec, next] at he
    cases he
    simp only [List.mem_cons, List.not_mem_nil, or_false] at hj
    rcases hj with rfl | rfl
    · cases hw
    · cases c' <;> cases hw
      exact Or.inr (Or.inr ⟨m, rfl, rfl, Or.inr rfl⟩)
  | code k held =>
    simp only [exec] at he
    split at he
    · rename_i o
      cases o <;> simp only [codeOp, next, withProc] at he <;> repeat' split at he
      all_goals cases he
      all_goals exact Or.inl (wakes_fresh (by simp [fresh]) hj hw)
    · cases he
  | user =>
    simp only [exec, next, withProc] at he
    repeat' split at he
    all_goals cases he
    rename_i t p _
    exact Or.inl (wakes_fresh (by cases t <;> simp [usertrap, fresh]) hj hw)
  | _ =>
    simp only [exec, next, withProc] at he
    repeat' split at he
    all_goals cases he
    all_goals exact Or.inl (wakes_fresh (by simp [fresh]) hj hw)

/-- Who may be committed. -/
theorem Sleepers.dozing_on (hs : Sleepers s) (hd : dozing (s.proc p) = some (c, lk)) : ∃ k, s.cur k = some p := by
  by_contra hn
  have ha := hs.parked fun k hk => hn ⟨k, hk⟩
  unfold dozing at hd
  split at hd
  · rename_i e
    rw [e] at ha
    cases (awake_cons.mp ha).1
  · rename_i e
    rw [e] at ha
    cases (awake_cons.mp ha).1
  · cases hd

theorem leaves_dozing (hd : dozing is = some (c, lk)) : leaves is = some .running := by
  unfold dozing at hd
  split at hd
  · rfl
  · rfl
  · cases hd

theorem Sleepers.committed_state (hi : Inv s) (hs : Sleepers s) (hc : Committed s p c lk) :
    s.data.state p = .running ∨ s.data.state p = .sleeping := by
  rcases hc with hd | ⟨hd, -⟩
  · obtain ⟨k, hk⟩ := hs.dozing_on hd
    have := (hi.on hk).2.2
    rw [leaves_dozing hd] at this
    exact Or.inl (Option.some.inj this).symm
  · exact Or.inr hd

/-- Who sets `p->chan`. -/
theorem Effect.chan (he : Effect d i d') (q : Nat) :
    (d'.procs q).chan = (d.procs q).chan ∨ (∃ c lk, i = .setChan q c lk ∧ (d'.procs q).chan = some c) ∨
      (∃ c lk, i = .tidy q c lk) ∨ makes i = some q ∨ d.state q = .zombie := by
  have one : ∀ {j : Nat} {x : Proc} {P : Prop}, (j = q → x.chan = (d.procs q).chan ∨ P) →
      ((d.put j x).procs q).chan = (d.procs q).chan ∨ P := by
    intro j x P hx
    by_cases e : j = q
    · subst e
      simpa [Data.put] using hx rfl
    · exact Or.inl (by simp [Data.put, Ne.symm e])
  cases he with
  | same | sleep | alloc | takePid | take | takeFree | free => exact Or.inl rfl
  | dispatch | setRunnable | nap | setKilled | setUsed | mem | copy | parent | run | closed | reparent | own =>
    exact one fun e => Or.inl (by subst e; rfl)
  | @zombie p status =>
    exact one (j := p) (x := { d.procs p with xstate := status, state := .zombie }) fun e => Or.inl (by subst e; rfl)
  | wake => exact one fun e => Or.inl (by subst e; unfold Proc.wake; split <;> rfl)
  | kill => exact one fun e => Or.inl (by subst e; unfold Proc.kill; split <;> rfl)
  | @setChan p c lk =>
    by_cases e : p = q
    · subst e
      exact Or.inr (Or.inl ⟨c, lk, rfl, by simp [Data.put]⟩)
    · exact Or.inl (by simp [Data.put, Ne.symm e])
  | tidy => exact one fun e => Or.inr (Or.inr (Or.inl ⟨_, _, by rw [e]⟩))
  | memFail | copyFail => exact one fun e => Or.inr (Or.inr (Or.inr (Or.inl (by subst e; rfl))))
  | @reap j p hz =>
    exact one (j := j) (x := (d.procs j).freeproc) fun e => Or.inr (Or.inr (Or.inr (Or.inr (e ▸ hz))))

theorem init_sleepers : Sleepers init := by
  have hp : ∀ p, Awake (init.proc p) ∧ dozing (init.proc p) = none ∧ dropped (init.proc p) = none := fun p => by
    by_cases e : p = initproc <;> simp [init, e, sleeps, dozing, dropped]
  refine ⟨fun {p} h => ?_, fun {p} _ => (hp p).1, (fun h => by cases h), fun {p c lk} h => ?_, fun hj hw => ?_⟩
  · by_cases e : p = initproc
    · rw [e]
      decide
    · exact absurd (by simp [init, e, Data.state, bootProcs, Proc.zero]) h
  · exact absurd h (not_committed (hp p).2.1 (hp p).2.2)
  · rw [List.mem_singleton.mp hj] at hw
    cases hw

theorem Sleepers.lt_step (hi : Inv s) (hs : Sleepers s) (hd : Does s h s') (hp : s'.data.state p ≠ .unused) :
    p < NPROC := by
  by_cases hu : s.data.state p = .unused
  swap
  · exact hs.lt hu
  rcases hi.moves hd p with e | ⟨i, rest, hc, -, hmv⟩
  · exact absurd (e.trans hu) hp
  · obtain ⟨H, hh, hty⟩ := hi.typed hc
    have hoff := hi.unused_off hu
    have key : ∀ {a b}, Moves i p a b → a = .unused → p < NPROC := by
      intro a b hmv e
      cases hmv with
      | left hl =>
        refine absurd ?_ (hoff h)
        rcases hl with rfl | ⟨c, lk, rfl⟩ | ⟨st, rfl⟩ <;> exact hty.1.1
      | taken hm =>
        have := hi.made_state hc hm
        rw [hu] at this
        cases i with
        | takePid | setUsed =>
          cases hm
          exact hty.1.2.2.2.2
        | _ => cases this
      | _ => cases e
    exact key hmv hu

theorem Sleepers.parked_step (hi : Inv s) (hs : Sleepers s) (hd : Does s h s') (hp : ∀ k, s'.cur k ≠ some p) :
    Awake (s'.proc p) := by
  by_cases hon : ∃ k, s.cur k = some p
  · obtain ⟨k, hk⟩ := hon
    have hkh : k = h := by
      by_contra hne
      exact hp k ((hd.cur_other hne).trans hk)
    subst hkh
    have hca := hs.calls hk
    have hcode := code_some hk
    cases hd with
    | swtchBack hc =>
      rw [← hcode, hc] at hca
      cases hca with
      | awake ha => simpa [goto_proc, hk] using (awake_cons.mp ha).2
    | swtchTo hc =>
      obtain ⟨H, hh, hty⟩ := hi.typed hc
      rw [hk] at hty
      cases hty.1.1
    | stop => exact absurd hk (hp k)
    | _ => exact absurd (by simpa using hk) (hp k)
  · rcases hi.proc_other hd (p := p) fun e => hon ⟨h, e⟩ with e | ⟨-, e⟩ <;> rw [e]
    · exact hs.parked fun k hk => hon ⟨k, hk⟩
    · simp [sleeps]

/-- A hart that is about to switch to `p` finds it parked. -/
theorem Inv.swtchTo_parked (hi : Inv s) (hc : s.code k = .swtchTo p :: rest) (h : Nat) : s.cur h ≠ some p := by
  obtain ⟨H, hh, hty⟩ := hi.typed hc
  obtain ⟨hcur, -⟩ := hty.1
  have hcode := code_none hcur
  exact ((hi.off hcur).hand p (by rw [← hcode, hc]; rfl)).2 h

theorem Sleepers.calls_step (hi : Inv s) (hs : Sleepers s) (hd : Does s h s') (hp : s'.cur k = some p) :
    Calling p (fun _ _ => True) (s'.proc p) := by
  rcases hi.to_cur hd hp with hk | ⟨rest, hc, -⟩
  · exact hi.calling_step hd hk (hs.calls hk) (fun _ _ _ _ _ => trivial) fun _ _ _ _ => trivial
  · have hpark := hi.swtchTo_parked hc
    rcases hi.proc_other hd (hpark h) with e | ⟨-, e⟩ <;> rw [e]
    · exact .awake (hs.parked hpark)
    · exact .awake (by simp [sleeps])

/-- The step of a hart that is at `p->chan = chan`. -/
theorem Inv.setChan_step (hi : Inv s) (hd : Does s h s') (hp : s.cur h = some p)
    (hc : s.code h = .setChan q c lk :: rest) :
    (s'.proc p = .setChan q c lk :: rest ∧ s'.cur h = some p) ∨ (q = p ∧ (s'.data.procs p).chan = some c ∧
      s'.proc p = rest) := by
  obtain ⟨H, hh, hty⟩ := hi.typed hc
  rw [hp] at hty
  obtain ⟨⟨h1, hH, r, rfl⟩, -, -⟩ := hty
  cases h1
  have hcode := code_some hp
  cases hd with
  | exec hc' hx he =>
    rw [hc] at hc'
    cases hc'
    cases he
    exact Or.inr ⟨rfl, by simp [Data.put], by simp [after_proc, hp]⟩
  | irq his hr => rw [hh.intr hr] at hH; cases hH
  | stop => exact Or.inl ⟨by rw [← hc, hcode]; rfl, hp⟩
  | flags hc' hf =>
    rw [hc] at hc'
    cases hc'
    cases hf
  | acquire hc' | release hc' | swtchTo hc' | swtchBack hc' =>
    rw [hc] at hc'
    cases hc'

theorem Sleepers.chan_step (hi : Inv s) (hs : Sleepers s) (hd : Does s h s') (hc : Committed s' p c lk)
    (hn : ∀ q c' lk' r, s'.proc p ≠ .setChan q c' lk' :: r) : (s'.data.procs p).chan = some c := by
  rcases committed_step hi hd hc with hc0 | ⟨-, r, -, e⟩
  swap
  · exact absurd e (hn _ _ _ _)
  by_cases hset : ∃ q c' lk' r, s.proc p = .setChan q c' lk' :: r
  · -- it sets `p->chan` in this step
    obtain ⟨q, c', lk', r, e⟩ := hset
    have hdz : dozing (s.proc p) = some (c', lk') := by rw [e]; rfl
    obtain ⟨k, hk⟩ := hs.dozing_on hdz
    have hcc : c' = c := by
      rcases hc0 with hc0 | ⟨-, hc0⟩ <;> rw [e] at hc0 <;> simp [dozing, dropped] at hc0
      exact hc0.1
    by_cases hkh : k = h
    · subst hkh
      have hcode := code_some hk
      rcases hi.setChan_step hd hk (hcode.trans e) with ⟨e', -⟩ | ⟨-, e', -⟩
      · exact absurd e' (hn _ _ _ _)
      · rw [e', hcc]
    · exact absurd ((hi.proc_on hd hk hkh).trans e) (hn _ _ _ _)
  · have hch := hs.chan hc0 fun q c' lk' r e => hset ⟨q, c', lk', r, e⟩
    have hst := hs.committed_state hi hc0
    cases hd with
    | @exec i rest is ch d sp hc' hx he =>
      obtain ⟨H, hh, hty⟩ := hi.typed hc'
      rw [after_data]
      rcases (exec_effect he).chan p with e | ⟨c', lk', rfl, -⟩ | ⟨c', lk', rfl⟩ | hm | hz
      · rw [e, hch]
      · have hcode := code_some hty.1.1
        exact absurd ⟨p, c', lk', rest, hcode ▸ hc'⟩ hset
      · have hcode := code_some hty.1.1
        rw [hcode] at hc'
        exact absurd hc0 (not_committed (by rw [hc']; rfl) (by rw [hc']; rfl))
      · have := hi.made_state hc' hm
        rcases madeState_cases i with e | e <;> rw [e] at this <;> rcases hst with e' | e' <;>
          rw [e'] at this <;> cases this
      · rcases hst with e' | e' <;> rw [e'] at hz <;> cases hz
    | stop => exact hch
    | _ => simpa using hch

/-- While a hart holds `lk`, nobody else commits to `sleep(c, lk)`, and it does so itself only by releasing `lk`. -/
theorem Inv.not_committed_step (hi : Inv s) (hd : Does s h s') (hn : ¬ Committed s p c lk) (hl : s.lock lk = some k)
    (hl' : s'.lock lk = some k) : ¬ Committed s' p c lk := fun hc => by
  rcases committed_step hi hd hc with hc | ⟨hp, r, hcode, e⟩
  · exact hn hc
  · obtain ⟨H, hh, hty⟩ := hi.typed hcode
    have hk : h = k := by
      have := (hh.lock lk).mpr hty.1.1
      rw [hl] at this
      exact (Option.some.inj this).symm
    subst hk
    cases hd with
    | release hc' _ =>
      rw [hcode] at hc'
      cases hc'
      simp at hl'
    | irq _ hr => rw [hh.intr hr] at hty; exact absurd hty.1.1 List.not_mem_nil
    | stop => exact hn hc
    | exec hc' _ he => rw [hcode] at hc'; cases hc'; cases he
    | flags hc' hf => rw [hcode] at hc'; cases hc'; cases hf
    | acquire hc' | swtchTo hc' | swtchBack hc' => rw [hcode] at hc'; cases hc'

/-- A `wakeup` in progress on hart `h` after a step of `h`: it was there before, or the step put it there. -/
theorem Inv.wakes_own (hi : Inv s) (hd : Does s h s') (hj : j ∈ s'.code h) (hw : wakes j = some (n, c, g))
    (hlk : lk ∈ g) : j ∈ s.code h ∨ ∃ i rest is ch d sp, s.code h = i :: rest ∧ exec (s.cur h) s.data ch i = some
      (.ok d is sp) ∧ s' = s.after h d (is ++ rest) sp ∧ j ∈ is := by
  cases hd with
  | acquire hc | release hc =>
    rw [goto_code] at hj
    rw [hc]
    exact Or.inl (List.mem_cons_of_mem _ hj)
  | flags hc hf =>
    rw [goto_code] at hj
    rw [hc]
    cases hf with
    | scheduler =>
      rcases List.mem_cons.mp hj with rfl | hj
      · cases hw
      · exact Or.inl (List.mem_cons_of_mem _ hj)
    | sched =>
      rcases List.mem_cons.mp hj with rfl | hj
      · cases hw
      · rcases List.mem_cons.mp hj with rfl | hj
        · cases hw
        · exact Or.inl (List.mem_cons_of_mem _ hj)
    | _ => exact Or.inl (List.mem_cons_of_mem _ hj)
  | irq his hr =>
    rw [goto_code] at hj
    rcases List.mem_append.mp hj with hj | hj
    · rcases his with rfl | rfl <;> simp only [List.mem_cons, List.not_mem_nil, or_false] at hj <;>
        rcases hj with rfl | rfl | rfl <;> cases hw
    · exact Or.inl hj
  | @swtchTo p rest hc =>
    have hpark := hi.swtchTo_parked hc
    have hcode : ({ s.goto h rest with cur := upd s.cur h (some p) } : St).code h = s.proc p := by
      simp [St.code, goto_proc, hpark h]
    rw [hcode] at hj
    have := mem_needs hj hw hlk
    rw [(hi.parked hpark).needs] at this
    exact absurd this List.not_mem_nil
  | @swtchBack rest hc =>
    obtain ⟨H, hh, hty⟩ := hi.typed hc
    obtain ⟨⟨p, hp, -⟩, -⟩ := hty
    have hcode : ({ s.goto h rest with cur := upd s.cur h none } : St).code h = back p := by
      simp [St.code, goto_sched, hp, (hi.on hp).2.1]
    rw [hcode] at hj
    simp only [back, List.mem_cons, List.not_mem_nil, or_false] at hj
    rcases hj with rfl | rfl | rfl <;> cases hw
  | @exec i rest is ch d sp hc hx he =>
    have hcode : (s.after h d (is ++ rest) sp).code h = is ++ rest := hi.after_code hc he
    rw [hcode] at hj
    rcases List.mem_append.mp hj with hj | hj
    · exact Or.inr ⟨i, rest, is, ch, d, sp, hc, hi.myproc hc hx ▸ he, rfl, hj⟩
    · rw [hc]
      exact Or.inl (List.mem_cons_of_mem _ hj)
  | stop => exact Or.inl hj

/-- The slot `wakeup` has just looked at. -/
theorem Sleepers.woken (hi : Inv s) (hs : Sleepers s) (hd : Does s h s') {m : Nat}
    (hc : s.code h = .wakeAt m (some c) g :: rest) (hdata : s'.data = s.data.put m ((s.data.procs m).wake (some c))) :
    ¬ Committed s' m c lk := fun hcm => by
  obtain ⟨H, hh, hty⟩ := hi.typed hc
  obtain ⟨hH, -, -⟩ := hty.1
  have hlock : s.lock (.proc m) = some h := (hh.lock _).mpr (by rw [hH]; simp)
  rcases committed_step hi hd hcm with hcm0 | ⟨-, r, e, -⟩
  swap
  · rw [hc] at e
    cases e
  have hoff : s.cur h ≠ some m := fun e => by
    have hcode := code_some e
    exact absurd hcm0 (not_committed (by rw [← hcode, hc]; rfl) (by rw [← hcode, hc]; rfl))
  rcases hcm0 with hdz | ⟨hsl, hdr⟩
  · -- on another hart, which would hold `p->lock`
    obtain ⟨k, hk⟩ := hs.dozing_on hdz
    obtain ⟨K, hK⟩ := hi.holds k
    have htk := hK.typed
    simp only [St.code, hk] at htk
    have hm : s.lock (.proc m) = some k := by
      refine (hK.lock _).mpr ?_
      unfold dozing at hdz
      split at hdz
      · rename_i e
        rw [e] at htk
        rw [htk.1.2.1, ← Option.some.inj htk.1.1]
        simp
      · rename_i e
        rw [e] at htk
        rw [htk.1.2.1, ← Option.some.inj htk.1.1]
        simp
      · cases hdz
    rw [hlock] at hm
    cases hm
    exact hoff hk
  · have hset : ∀ q c' lk' r, s.proc m ≠ .setChan q c' lk' :: r := fun q c' lk' r e => by
      rw [e] at hdr
      cases hdr
    have hch := hs.chan (Or.inr ⟨hsl, hdr⟩) hset
    have hst : s'.data.state m = .runnable := by
      rw [hdata]
      have : (s.data.procs m).state = .sleeping := hsl
      simp [Data.state, Data.put, Proc.wake, this, hch]
    have hproc : s'.proc m = s.proc m := (hi.proc_other hd hoff).resolve_right fun hu => by
      rw [hsl] at hu
      cases hu.1
    rcases hcm with hcm | ⟨hcm, -⟩
    · rw [hproc] at hcm
      unfold dozing at hcm
      unfold dropped at hdr
      repeat' split at hcm
      all_goals simp_all
    · rw [hst] at hcm
      cases hcm

theorem Sleepers.scan_step (hi : Inv s) (hs : Sleepers s) (hi' : Inv s') (hd : Does s h s') {m : Nat}
    (hj : j ∈ s'.code k) (hw : wakes j = some (n, c, g)) (hm : m < n) (hlk : lk ∈ g) : ¬ Committed s' m c lk := by
  have hl' := hi'.wakes_lock hj hw hlk
  have old : ∀ {j n}, j ∈ s.code k → wakes j = some (n, c, g) → m < n → ¬ Committed s' m c lk := fun hj hw hm =>
    hi.not_committed_step hd (hs.scan hj hw hm hlk) (hi.wakes_lock hj hw hlk) hl'
  by_cases hk : k = h
  swap
  · rw [hi.code_other hd hk] at hj
    exact old hj hw hm
  subst hk
  rcases hi.wakes_own hd hj hw hlk with hj0 | ⟨i, rest, is, ch, d, sp, hc, he, rfl, hj1⟩
  · exact old hj0 hw hm
  · have hmem : i ∈ s.code k := by rw [hc]; exact List.mem_cons_self
    rcases exec_wakes he hj1 hw with rfl | hwi | ⟨m', rfl, hwi, hme⟩
    · exact absurd hm (Nat.not_lt_zero m)
    · exact old hmem hwi hm
    · rcases Nat.lt_succ_iff_lt_or_eq.mp hm with hm | rfl
      · exact old hmem hwi hm
      · rcases hme with hme | rfl
        · -- the slot of the process that calls `wakeup`
          obtain ⟨H, hh, hty⟩ := hi.typed hc
          have hx : cproc (i :: rest) = none := by cases i <;> first | rfl | cases hwi
          have hcode : (s.after k d (is ++ rest) sp).code k = is ++ rest := hi.after_code hc (hi.myproc hc hx ▸ he)
          have hq := exec_quiet hty he (by cases i <;> first | exact id | cases hwi)
          simp only [St.code, after_cur, hme] at hcode
          exact not_committed (by rw [hcode]; exact hq.dozing) (by rw [hcode]; exact hq.dropped)
        · cases he
          exact hs.woken hi hd hc (by simp)

theorem sleepers_step (hi : Inv s) (hi' : Inv s') (hs : Sleepers s) (hd : Does s h s') : Sleepers s' :=
  ⟨hs.lt_step hi hd, hs.parked_step hi hd, hs.calls_step hi hd, hs.chan_step hi hd, hs.scan_step hi hi' hd⟩

theorem sleepers (hr : Reach s) : Sleepers s := by
  induction hr with
  | init => exact init_sleepers
  | step e hr _ hs ih =>
    obtain ⟨h, hd⟩ := step_does (inv hr) hs
    exact sleepers_step (inv hr) (step_inv (inv hr) hs) ih hd

/-! ## A wakeup on its way -/

/-- A `wakeup(c)` with `lk` held is in progress on hart `k`. -/
def Waking (s : St) (k : Nat) (c : Chan) (lk : Lock) : Prop :=
  ∃ j ∈ s.code k, ∃ n g, wakes j = some (n, c, g) ∧ lk ∈ g

def Settled (s : St) (c : Chan) (lk : Lock) : Prop := (∀ p, ¬ Committed s p c lk) ∨ ∃ k, Waking s k c lk

/-- With `lk` free nobody is committed. -/
theorem Settled.free (hi : Inv s) (hs : Settled s c lk) (hl : s.lock lk = none) : ¬ Committed s p c lk := by
  rcases hs with hs | ⟨k, j, hj, n, g, hw, hlk⟩
  · exact hs p
  · rw [hi.wakes_lock hj hw hlk] at hl
    cases hl

/-- `wakeup` is not called with a `p->lock` held. -/
theorem Typed.wakes_no_proc (hw : wakes j = some (n, c, g)) :
    ∀ {H : List Lock} {is : List Instr}, Typed me H is → j ∈ is → ∀ q, Lock.proc q ∉ g
  | H, i :: rest, ⟨hp, _, ht⟩, hj => by
    rcases List.mem_cons.mp hj with rfl | hj
    · cases j with
      | wakeupFrom n x g' | wakeAt n x g' =>
        cases x <;> cases hw
        exact hp.2.1
      | _ => cases hw
    · exact ht.wakes_no_proc hw hj

theorem Sleepers.returned (hi : Inv s) (hs : Sleepers s) (hc : s.code h = .wakeupFrom n (some c) g :: rest)
    (hn : NPROC ≤ n) (hlk : lk ∈ g) (p : Nat) : ¬ Committed s p c lk := by
  by_cases hp : p < n
  · exact hs.scan (k := h) (by rw [hc]; exact List.mem_cons_self) rfl hp hlk
  · intro hcm
    refine hp (lt_of_lt_of_le (hs.lt fun hu => ?_) hn)
    rcases hs.committed_state hi hcm with e | e <;> rw [hu] at e <;> cases e

/-- A `wakeup` in progress goes on, or returns and leaves nobody behind. -/
theorem Sleepers.waking_step (hi : Inv s) (hs : Sleepers s) (hd : Does s h s') (hw : Waking s k c lk) :
    Waking s' k c lk ∨ ∀ p, ¬ Committed s' p c lk := by
  obtain ⟨j, hj, n, g, hw, hlk⟩ := hw
  by_cases hk : k = h
  swap
  · exact Or.inl ⟨j, by rwa [hi.code_other hd hk], n, g, hw, hlk⟩
  subst hk
  obtain ⟨H, hh⟩ := hi.holds k
  have hty := hh.typed
  have hd0 := hd
  -- it is not the next instruction, or the step is its own
  have later : ∀ {i rest}, s.code k = i :: rest → wakes i = none → j ∈ rest := fun {i rest} hc hn => by
    rw [hc] at hj
    rcases List.mem_cons.mp hj with rfl | hj
    · rw [hn] at hw
      cases hw
    · exact hj
  cases hd with
  | acquire hc | release hc => exact Or.inl ⟨j, by rw [goto_code]; exact later hc rfl, n, g, hw, hlk⟩
  | flags hc hf =>
    refine Or.inl ⟨j, ?_, n, g, hw, hlk⟩
    rw [goto_code]
    have hj' := later hc (by cases hf <;> rfl)
    cases hf with
    | scheduler => exact List.mem_cons_of_mem _ hj'
    | sched => exact List.mem_cons_of_mem _ (List.mem_cons_of_mem _ hj')
    | _ => exact hj'
  | irq his hr => exact Or.inl ⟨j, by rw [goto_code]; exact List.mem_append_right _ hj, n, g, hw, hlk⟩
  | swtchTo hc =>
    have hj' := later hc rfl
    rw [hc] at hty
    rw [hty.1.2.2] at hj'
    simp only [back, List.mem_cons, List.not_mem_nil, or_false] at hj'
    rcases hj' with rfl | rfl | rfl <;> cases hw
  | swtchBack hc =>
    have hj' := later hc rfl
    rw [hc] at hty
    obtain ⟨⟨p, -, hH, -⟩, -, hty⟩ := hty
    have hm := hty.needs_sub (mem_needs hj' hw hlk)
    rw [show post H .swtchBack = H from rfl, hH, List.mem_singleton] at hm
    exact absurd (hm ▸ hlk) (hty.wakes_no_proc hw hj' p)
  | @exec i rest is ch d sp hc hx he =>
    have hcode : (s.after k d (is ++ rest) sp).code k = is ++ rest := hi.after_code hc he
    have left : ∀ {j' n'}, j' ∈ is → wakes j' = some (n', c, g) → Waking (s.after k d (is ++ rest) sp) k c lk :=
        fun hj' hw' =>
      ⟨_, by rw [hcode]; exact List.mem_append_left _ hj', _, g, hw', hlk⟩
    by_cases hji : j ∈ rest
    · exact Or.inl ⟨j, by rw [hcode]; exact List.mem_append_right _ hji, n, g, hw, hlk⟩
    · have : j = i := by
        rw [hc] at hj
        exact (List.mem_cons.mp hj).resolve_right hji
      subst this
      cases j with
      | wakeupFrom m x g' =>
        cases x <;> cases hw
        simp only [exec, next] at he
        split at he
        · split at he <;> cases he
          · exact Or.inl (left List.mem_cons_self rfl)
          · exact Or.inl (left (List.mem_cons_of_mem _ List.mem_cons_self) rfl)
        · cases he
          rename_i hn
          refine Or.inr fun p hcm => ?_
          have hret := hs.returned hi hc (Nat.le_of_not_lt hn) hlk p
          rcases committed_step hi hd0 hcm with hcm | ⟨-, r, e, -⟩
          · exact hret hcm
          · rw [hc] at e
            cases e
      | wakeAt m x g' =>
        cases x <;> cases hw
        cases he
        exact Or.inl (left (List.mem_cons_of_mem _ List.mem_cons_self) rfl)
      | _ => cases hw
  | stop => exact Or.inl ⟨j, hj, n, g, hw, hlk⟩

/-- No step ends it but a release of `lk` in `sleep(c, lk)`. -/
theorem settled_step (hi : Inv s) (hs : Sleepers s) (hd : Does s h s') (hset : Settled s c lk)
    (hn : ∀ p r, s.cur h = some p → s.code h ≠ .release lk :: .setChan p c lk :: r) : Settled s' c lk := by
  rcases hset with hset | ⟨k, hw⟩
  · refine Or.inl fun p hcm => ?_
    rcases committed_step hi hd hcm with hcm | ⟨hp, r, e, -⟩
    · exact hset p hcm
    · exact hn p r hp e
  · rcases hs.waking_step hi hd hw with hw | hw
    · exact Or.inr ⟨k, hw⟩
    · exact Or.inl hw

/-! ## Sleep-locks -/

def Busy (s : St) (c : Chan) (lk : Lock) : Prop := ∀ n, c = .sleeplock n → lk = .sleeplock n ∧ s.data.locked n = true

structure SleepLocks (s : St) : Prop where
  held : ∀ n, (s.data.locked n = false ∧ s.data.holders n = []) ∨ (s.data.locked n = true ∧ ∃ p, s.data.holders n = [p])
  calls : ∀ {h p}, s.cur h = some p → Calling p (Busy s) (s.proc p)
  lock : ∀ {p n lk}, Committed s p (.sleeplock n) lk → lk = .sleeplock n
  settled : ∀ {n}, s.data.locked n = false → Settled s (.sleeplock n) (.sleeplock n)

theorem init_sleepLocks : SleepLocks init := by
  refine ⟨fun n => Or.inl ⟨rfl, rfl⟩, (fun h => nomatch h), fun {p n lk} hc => ?_, fun _ => Or.inl fun p hc => ?_⟩ <;>
  · refine absurd hc (not_committed ?_ ?_) <;> by_cases e : p = initproc <;> simp [init, e, dozing, dropped]

theorem Effect.held (he : Effect d i d')
    (hd : ∀ n, (d.locked n = false ∧ d.holders n = []) ∨ (d.locked n = true ∧ ∃ p, d.holders n = [p])) (n : Nat) :
    (d'.locked n = false ∧ d'.holders n = []) ∨ (d'.locked n = true ∧ ∃ p, d'.holders n = [p]) := by
  cases he with
  | @take m p hl | @takeFree m p hl =>
    by_cases e : n = m
    · have := ((hd m).resolve_right fun h => by rw [hl] at h; cases h.1).2
      simp [Data.takeLock, e, this]
    · simpa [Data.takeLock, e] using hd n
  | @free m p hp =>
    by_cases e : n = m
    · obtain ⟨-, q, hq⟩ := (hd m).resolve_left fun h => by rw [h.2] at hp; cases hp
      rw [hq, List.mem_singleton] at hp
      simp [Data.freeLock, e, hq, hp]
    · simpa [Data.freeLock, e] using hd n
  | _ => exact hd n

/-- Only `releasesleep` frees a sleep-lock. -/
theorem Effect.locked (he : Effect d i d') (hl : d.locked n = true) :
    d'.locked n = true ∨ ∃ p, i = .freeSleep n p := by
  cases he with
  | @take m p | @takeFree m p =>
    refine Or.inl ?_
    by_cases e : n = m
    · simp [Data.takeLock, e]
    · simpa [Data.takeLock, e] using hl
  | @free m p =>
    by_cases e : n = m
    · exact Or.inr ⟨p, by rw [e]⟩
    · exact Or.inl (by simpa [Data.freeLock, e] using hl)
  | _ => exact Or.inl hl

theorem Inv.locked_step (hi : Inv s) (hd : Does s h s') (hl : s.data.locked n = true) :
    s'.data.locked n = true ∨ (s.lock (.sleeplock n) = some h ∧ Waking s' h (.sleeplock n) (.sleeplock n)) := by
  cases hd with
  | @exec i rest is ch d sp hc hx he =>
    rw [after_data]
    rcases (exec_effect he).locked hl with e | ⟨p, rfl⟩
    · exact Or.inl e
    · obtain ⟨H, hh, hty⟩ := hi.typed hc
      refine Or.inr ⟨(hh.lock _).mpr (by rw [hty.1.2.1]; simp), ?_⟩
      have hcode := hi.after_code hc he
      simp only [exec, next] at he
      split at he <;> cases he
      exact ⟨_, by rw [hcode]; exact List.mem_cons_self, 0, [.sleeplock n], rfl, by simp⟩
  | stop => exact Or.inl hl
  | _ => exact Or.inl (by simpa using hl)

/-- What a call of `sleep` was told, at its release of `lk`. -/
theorem Calling.told {W : Chan → Lock → Prop} {r : List Instr}
    (hc : Calling p W (.release lk :: .setChan q c lk :: r)) : W c lk := by
  cases hc with
  | awake ha => cases (awake_cons.mp (awake_cons.mp ha).2).1
  | drop w => exact w

theorem sleepLocks_step (hi : Inv s) (hs : Sleepers s) (hl : SleepLocks s) (hd : Does s h s') : SleepLocks s' := by
  -- a process that commits has been told that the lock is taken
  have told : ∀ {p n lk r}, s.cur h = some p → s.code h = .release lk :: .setChan p (.sleeplock n) lk :: r →
      lk = .sleeplock n ∧ s.data.locked n = true := fun {p n lk r} hp hc => by
    have hca := hl.calls hp
    have hcode := code_some hp
    rw [← hcode, hc] at hca
    exact hca.told n rfl
  refine ⟨?_, fun {k p} hp => ?_, fun {p n lk} hc => ?_, fun {n} hn => ?_⟩
  · cases hd with
    | exec hc hx he =>
      rw [after_data]
      exact (exec_effect he).held hl.held
    | stop => exact hl.held
    | _ => simpa using hl.held
  · rcases hi.to_cur hd hp with hk | ⟨rest, hc, -⟩
    · refine hi.calling_step hd hk (hl.calls hk) (fun c lk w hlk hkeep n hn => ?_) fun {i rest is ch sp c lk} _ _ he
        hm n hn => ?_
      · obtain ⟨h1, h2⟩ := w n hn
        refine ⟨h1, ?_⟩
        rcases hkeep with hne | ⟨-, e⟩
        · refine (hi.locked_step hd h2).resolve_right fun hw => hne ?_
          rw [← h1, hlk] at hw
          exact Option.some.inj hw.1
        · rw [e, h2]
      · rcases exec_awake he with ha | ⟨c', lk', rfl⟩ | ⟨k, m, c', rfl, rfl⟩ | ⟨m, p', rfl, hlk, rfl⟩ | ⟨p', rfl, rfl⟩
        · cases ha _ hm
        · simp only [exec, next, withProc, Option.some.injEq, Res.ok.injEq] at he
          rw [← he.2.1] at hm
          simp at hm
        · simp only [List.mem_cons, Instr.sleep.injEq, List.not_mem_nil, or_false, reduceCtorEq] at hm
          rw [hn] at hm
          cases hm.1
        · simp only [List.mem_cons, Instr.sleep.injEq, List.not_mem_nil, or_false, reduceCtorEq] at hm
          obtain ⟨rfl, rfl⟩ := hm
          cases hn
          exact ⟨rfl, hlk⟩
        · simp only [List.mem_cons, Instr.sleep.injEq, List.not_mem_nil, or_false, reduceCtorEq, false_or] at hm
          rw [hn] at hm
          cases hm.1
    · have hpark := hi.swtchTo_parked hc
      rcases hi.proc_other hd (hpark h) with e | ⟨-, e⟩ <;> rw [e]
      · exact .awake (hs.parked hpark)
      · exact .awake (by simp [sleeps])
  · rcases committed_step hi hd hc with hc | ⟨hp, r, e, -⟩
    · exact hl.lock hc
    · exact (told hp e).1
  · cases hln : s.data.locked n with
    | false =>
      refine settled_step hi hs hd (hl.settled hln) fun p r hp e => ?_
      have := (told hp e).2
      rw [hln] at this
      cases this
    | true =>
      obtain ⟨-, hw⟩ := (hi.locked_step hd hln).resolve_left (by rw [hn]; simp)
      exact Or.inr ⟨h, hw⟩

theorem sleepLocks (hr : Reach s) : SleepLocks s := by
  induction hr with
  | init => exact init_sleepLocks
  | step e hr _ hs ih =>
    obtain ⟨h, hd⟩ := step_does (inv hr) hs
    exact sleepLocks_step (inv hr) (sleepers hr) ih hd

/-! ## No wakeup is lost -/

theorem Inv.sleeping_committed (hi : Inv s) (hp : s.data.state p = .sleeping) : ∃ c lk, Committed s p c lk := by
  by_cases hon : ∃ k, s.cur k = some p
  · obtain ⟨k, hk⟩ := hon
    have hl := (hi.on hk).2.2
    obtain ⟨H, hh⟩ := hi.holds k
    have hty := hh.typed
    simp only [St.code, hk] at hty
    rw [hp] at hl
    generalize he : s.proc p = is at hl hty
    unfold leaves at hl
    split at hl
    · obtain ⟨⟨p', -, -, hres⟩, -, -⟩ := hty
      rcases hres with ⟨r, rfl⟩ | ⟨c, lk, r, rfl⟩ | ⟨r, rfl⟩ <;> cases hl
      exact ⟨c, lk, Or.inr ⟨hp, by rw [he]; rfl⟩⟩
    · obtain ⟨-, -, ⟨p', -, -, hres⟩, -, -⟩ := hty
      rcases hres with ⟨r, rfl⟩ | ⟨c, lk, r, rfl⟩ | ⟨r, rfl⟩ <;> cases hl
      exact ⟨c, lk, Or.inr ⟨hp, by rw [he]; rfl⟩⟩
    · -- `exit` goes on to `sched` as a ZOMBIE
      obtain ⟨⟨-, hr⟩, -, -⟩ := hty
      rcases hr with hr | ⟨-, r, e⟩ | ⟨p', c, r, e⟩
      · exact absurd rfl (hr.sched _)
      · cases e
        cases hl
      · cases e
    · cases hl
    · cases hl
    · cases hl
  · obtain ⟨b, c, lk, r, e⟩ := (hi.parked fun k hk => hon ⟨k, hk⟩).asleep hp
    exact ⟨c, lk, Or.inr ⟨hp, by rw [e]; rfl⟩⟩

/-- A SLEEPING process sleeps on its `p->chan`. -/
theorem Sleepers.sleeping_chan (hi : Inv s) (hs : Sleepers s) (hsl : s.data.state p = .sleeping)
    (hc : Committed s p c lk) : (s.data.procs p).chan = some c := by
  refine hs.chan hc fun q c' lk' r e => ?_
  have hdz : dozing (s.proc p) = some (c', lk') := by rw [e]; rfl
  obtain ⟨k, hk⟩ := hs.dozing_on hdz
  have := (hi.on hk).2.2
  rw [leaves_dozing hdz, hsl] at this
  cases this

def setsChan : Instr → Bool
  | .setChan _ _ _ => true
  | _ => false

/-- A new call of `sleep` is counted. -/
theorem exec_setsChan {ch : Choice} {sp : Option Nat} (he : exec me d ch i = some (.ok d' is sp)) :
    (∀ j ∈ is, setsChan j = false) ∨ ∃ q, me = some q ∧ d'.naps q = d.naps q + 1 := by
  cases i with
  | sleep c lk =>
    simp only [exec, next, withProc] at he
    split at he <;> cases he
    exact Or.inr ⟨_, rfl, by simp⟩
  | code k held =>
    simp only [exec] at he
    split at he
    · rename_i o
      cases o <;> simp only [codeOp, next, withProc] at he <;> repeat' split at he
      all_goals cases he
      all_goals exact Or.inl (by simp [setsChan])
    · cases he
  | user =>
    simp only [exec, next, withProc] at he
    repeat' split at he
    all_goals cases he
    rename_i t p _
    exact Or.inl (by cases t <;> simp [usertrap, setsChan])
  | _ =>
    simp only [exec, next, withProc] at he
    repeat' split at he
    all_goals cases he
    all_goals exact Or.inl (by simp [setsChan])

theorem Does.naps_le (hd : Does s h s') (p : Nat) : s.data.naps p ≤ s'.data.naps p := by
  cases hd with
  | @exec i rest is ch d sp hc hx he =>
    rw [after_data]
    cases exec_effect he with
    | @sleep c lk q =>
      by_cases e : p = q
      · simp [e]
      · simp [e]
    | _ => exact le_rfl
  | stop => exact le_rfl
  | _ => simp

/-- `p` is past the commit of its last call of `sleep`, which `P` holds of while it lasts. -/
structure Past (s : St) (p : Nat) (P : Chan → Lock → Prop) : Prop where
  past : ∀ j ∈ s.proc p, setsChan j = false
  call : ∀ {c lk}, Committed s p c lk → P c lk

variable {P : Chan → Lock → Prop} {es : List Ev} {t : St}

theorem past_step (hi : Inv s) (hd : Does s h s') (hp : Past s p P) (hn : s'.data.naps p = s.data.naps p) :
    Past s' p P := by
  obtain ⟨h1, h2⟩ := hp
  constructor
  · by_cases hon : s.cur h = some p
    swap
    · rcases hi.proc_other hd hon with e | ⟨-, e⟩ <;> rw [e]
      · exact h1
      · simp [setsChan]
    have hcode := code_some hon
    have tail : ∀ {i rest}, s.code h = i :: rest → ∀ j ∈ rest, setsChan j = false := fun hc j hj =>
      h1 j (by rw [← hcode, hc]; exact List.mem_cons_of_mem _ hj)
    cases hd with
    | acquire hc | release hc | swtchTo hc | swtchBack hc => simpa [goto_proc, hon] using tail hc
    | flags hc hf =>
      have := tail hc
      cases hf <;> simpa [goto_proc, hon, setsChan] using this
    | irq his hr => rcases his with rfl | rfl <;> simpa [goto_proc, hon, setsChan, hcode] using h1
    | @exec i rest is ch d sp hc hx he =>
      have hproc := hi.after_code hc he
      simp only [St.code, after_cur, hon] at hproc
      rw [hproc]
      rw [hi.myproc hc hx, hon] at he
      rw [after_data] at hn
      have hnew := (exec_setsChan he).resolve_right (by
        rintro ⟨q, hq, e⟩
        cases hq
        omega)
      intro j hj
      rcases List.mem_append.mp hj with hj | hj
      · exact hnew j hj
      · exact tail hc j hj
    | stop => exact h1
  · intro c lk hc
    rcases committed_step hi hd hc with hc | ⟨hon, r, e, -⟩
    · exact h2 hc
    · have hcode := code_some hon
      rw [hcode] at e
      have := h1 (.setChan p c lk) (by rw [e]; simp)
      cases this

/-- A run as steps of harts. -/
theorem runs_cons {e : Ev} (hr : Reach s) (hs : runs s (e :: es) = some t) :
    ∃ s' h, Reach s' ∧ Does s h s' ∧ runs s' es = some t := by
  simp only [runs] at hs
  split at hs
  · rename_i hp
    obtain ⟨s', hst, hs⟩ := Option.bind_eq_some_iff.mp hs
    obtain ⟨h, hd⟩ := step_does (inv hr) hst
    exact ⟨s', h, .step e hr hp hst, hd, hs⟩
  · cases hs

theorem naps_runs (hr : Reach s) (hs : runs s es = some t) (p : Nat) : s.data.naps p ≤ t.data.naps p := by
  induction es generalizing s with
  | nil => cases hs; exact le_rfl
  | cons e es ih =>
    obtain ⟨s', h, hr', hd, hs⟩ := runs_cons hr hs
    exact (hd.naps_le p).trans (ih hr' hs)

theorem past_runs (hr : Reach s) (hs : runs s es = some t) (hp : Past s p P)
    (hn : t.data.naps p = s.data.naps p) : Past t p P := by
  induction es generalizing s with
  | nil => cases hs; exact hp
  | cons e es ih =>
    obtain ⟨s', h, hr', hd, hs⟩ := runs_cons hr hs
    have h1 := hd.naps_le p
    have h2 := naps_runs hr' hs p
    exact ih hr' hs (past_step (inv hr) hd hp (by omega)) (by omega)

/-- From the release of `lk` on, `p` is at `p->chan = chan` or past it. -/
theorem released_runs {r : List Instr} (hr : Reach s) (hs : runs s es = some t)
    (hp : s.cur h = some p) (hc : s.proc p = .setChan p c lk :: r) (hn : t.data.naps p = s.data.naps p) :
    t.proc p = .setChan p c lk :: r ∨ Past t p fun c' lk' => c' = c ∧ lk' = lk := by
  induction es generalizing s with
  | nil => cases hs; exact Or.inl hc
  | cons e es ih =>
    obtain ⟨s', k, hr', hd, hs⟩ := runs_cons hr hs
    have h1 := hd.naps_le p
    have h2 := naps_runs hr' hs p
    by_cases hk : h = k
    · subst hk
      have hcode := code_some hp
      rcases (inv hr).setChan_step hd hp (hcode.trans hc) with ⟨e1, e2⟩ | ⟨-, -, e⟩
      · exact ih hr' hs e2 e1 (by omega)
      · refine Or.inr (past_runs hr' hs ?_ (by omega))
        have hca := (sleepers hr).calls hp
        rw [hc] at hca
        cases hca with
        | awake ha => cases (awake_cons.mp ha).1
        | setChan ha =>
          refine ⟨fun j hj => ?_, fun {c' lk'} hcm => ?_⟩
          · rw [e] at hj
            rcases List.mem_cons.mp hj with rfl | hj
            · rfl
            · have := ha j hj
              cases j <;> first | rfl | cases this
          · rw [Committed, e] at hcm
            simp [dozing, dropped] at hcm
            exact ⟨hcm.1.symm, hcm.2.symm⟩
    · exact ih hr' hs ((hd.cur_other hk).trans hp) (((inv hr).proc_on hd hp hk).trans hc) (by omega)

/-- In every reachable state a sleep-lock has at most one holder, and nobody is SLEEPING on one
    that is free with its spinlock free. And when a process `p` has released `lk` in `sleep(c, lk)`
    (it is at `p->chan = chan`), a hart that later holds `lk` is at the return of `wakeup(c)`, then
    `p` is not SLEEPING in that call of `sleep` any more, then or later. -/
theorem no_lost_wakeup (hr : Reach s) :
    (∀ n, (s.data.holders n).length ≤ 1 ∧ (s.data.locked n = true ↔ s.data.holders n ≠ [])) ∧
    (∀ n p, s.data.locked n = false → s.lock (.sleeplock n) = none →
      ¬ (s.data.state p = .sleeping ∧ (s.data.procs p).chan = some (.sleeplock n))) ∧
    ∀ h p c lk r, s.cur h = some p → s.code h = .setChan p c lk :: r → ∀ es t, runs s es = some t →
      ∀ k g rest, t.code k = .wakeupFrom NPROC (some c) g :: rest → t.lock lk = some k →
      ∀ es' u, runs t es' = some u → u.data.naps p = s.data.naps p → u.data.state p ≠ .sleeping := by
  have hi := inv hr
  have hs := sleepers hr
  have hl := sleepLocks hr
  refine ⟨fun n => ?_, fun n p hn hfree ⟨hsl, hch⟩ => ?_, ?_⟩
  · rcases hl.held n with ⟨h1, h2⟩ | ⟨h1, q, h2⟩ <;> simp [h1, h2]
  · obtain ⟨c, lk, hc⟩ := hi.sleeping_committed hsl
    rw [hs.sleeping_chan hi hsl hc] at hch
    cases hch
    cases hl.lock hc
    exact (hl.settled hn).free hi hfree hc
  · intro h p c lk r hp hc es t hst k g rest hw hlk es' u htu hn
    have hrt := hr.runs es hst
    have h1 := naps_runs hr hst p
    have h2 := naps_runs hrt htu p
    have hcode := code_some hp
    have hg : lk ∈ g := by
      obtain ⟨H, hh⟩ := (inv hrt).holds k
      have hty := hh.typed
      rw [hw] at hty
      rw [← hty.1.1]
      exact (hh.lock lk).mp hlk
    have hret := (sleepers hrt).returned (inv hrt) hw le_rfl hg p
    have hpast : Past t p fun _ _ => False := by
      rcases released_runs hr hst hp (hcode ▸ hc) (by omega) with e | hpast
      · exact absurd (Or.inl (by rw [e]; rfl)) hret
      · refine ⟨hpast.past, fun {c' lk'} hcm => ?_⟩
        obtain ⟨rfl, rfl⟩ := hpast.call hcm
        exact hret hcm
    intro hsl
    obtain ⟨c', lk', hcm⟩ := (inv (hrt.runs es' htu)).sleeping_committed hsl
    exact (past_runs hrt htu hpast (by omega)).call hcm

/-- Hart 0 runs `initproc` into a `sleep` on channel 5 with lock 0, up to the release of the lock. -/
def toRelease : List Ev :=
  dispatchInit ++ [.run 0 .go, .run 0 .go, .run 0 (.op (.acquire 0)), .run 0 .go, .run 0 (.op (.sleep 5 0)), .run 0 .go,
    .run 0 .go, .run 0 .go]

/-- It goes to sleep, and an interrupt handler on hart 1 takes the lock and calls `wakeup`. -/
def wakeIt : List Ev :=
  List.replicate 6 (.run 0 .go) ++ [.run 1 .go, .irq 1 false, .run 1 (.op (.acquire 0)), .run 1 .go,
    .run 1 (.op (.wakeup 5))] ++ List.replicate (4 * NPROC) (.run 1 .go)

def returning (c : Chan) : List Instr → Bool
  | .wakeupFrom n (some c') _ :: _ => n == NPROC && c' == c
  | _ => false

theorem eq_of_returning (h : returning c is = true) : ∃ g rest, is = .wakeupFrom NPROC (some c) g :: rest := by
  unfold returning at h
  split at h
  · simp only [Bool.and_eq_true, beq_iff_eq] at h
    obtain ⟨rfl, rfl⟩ := h
    exact ⟨_, _, rfl⟩
  · cases h

set_option maxRecDepth 10000 in
theorem wakeIt_returns : ((runs init toRelease).bind fun s => (runs s wakeIt).map fun t =>
    returning (.other 5) (t.code 1) && decide (t.lock (.other 0) = some 1)) = some true := by decide +kernel

theorem no_lost_wakeup_by_interrupt : ∃ s t, runs init toRelease = some s ∧ runs s wakeIt = some t ∧
    t.lock (.other 0) = some 1 ∧
    ∀ es u, runs t es = some u → u.data.naps initproc = s.data.naps initproc → u.data.state initproc ≠ .sleeping := by
  obtain ⟨s, hs, h⟩ := Option.bind_eq_some_iff.mp wakeIt_returns
  obtain ⟨t, ht, h⟩ := Option.map_eq_some_iff.mp h
  simp only [Bool.and_eq_true, decide_eq_true_eq] at h
  obtain ⟨g, rest, hw⟩ := eq_of_returning h.1
  have hc : ∃ r, s.cur 0 = some initproc ∧ s.code 0 = .setChan initproc (.other 5) (.other 0) :: r := by
    cases hs
    exact ⟨_, rfl, rfl⟩
  obtain ⟨r, hp, hc⟩ := hc
  have hr : Reach s := Reach.runs toRelease .init hs
  exact ⟨s, t, hs, ht, h.2, (no_lost_wakeup hr).2.2 0 initproc _ _ r hp hc wakeIt t ht 1 g rest hw h.2⟩

end Xv6.Process
