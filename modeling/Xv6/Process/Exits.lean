/-
  Xv6.Process.Exits — every `exit` of kernel/proc.c is returned by at most one `wait`, made by the
  parent, and nothing else frees a ZOMBIE.

  Proved: `ledger` along every run, and `exit_wait`.
-/
import Xv6.Process.Family

namespace Xv6.Process

variable {s s' : St} {h k p q : Nat} {H : List Lock} {is rest : List Instr} {i j : Instr} {c : Chan} {lk : Lock}
  {d d' : Data} {m : Nat}

/-! ## Exits and waits -/

/-- `exits`, `mark` and `reaped`: a ZOMBIE is an exit that no `wait` has returned, and no exit is
    returned twice. -/
structure Ledger (d : Data) : Prop where
  entry : ∀ {i}, d.state i = .zombie → d.exits[d.mark i]? = some ((d.procs i).pid, (d.procs i).xstate)
  waits : ∀ {i}, d.state i = .zombie → d.mark i ∉ d.reaped.map Prod.fst
  mark : ∀ {i j}, d.state i = .zombie → d.state j = .zombie → d.mark i = d.mark j → i = j
  reaped : ∀ r ∈ d.reaped, d.exits[r.1]? = some r.2
  nodup : (d.reaped.map Prod.fst).Nodup

/-- Other instructions leave the books alone. -/
theorem Effect.books (he : Effect d i d') (hz : ∀ q st, i ≠ .exitZombie q st)
    (hw : ∀ q p, i ≠ .waitAt q p) : d'.exits = d.exits ∧ d'.mark = d.mark ∧ d'.reaped = d.reaped ∧
      ∀ q, d'.state q = .zombie → (d'.procs q).pid = (d.procs q).pid ∧ (d'.procs q).xstate = (d.procs q).xstate := by
  have one : ∀ {j : Nat} {x : Proc}, (x.state = .zombie → x.pid = (d.procs j).pid ∧ x.xstate = (d.procs j).xstate) →
      ∀ q, (d.put j x).state q = .zombie → ((d.put j x).procs q).pid = (d.procs q).pid ∧
        ((d.put j x).procs q).xstate = (d.procs q).xstate := by
    intro j x hx q hq
    by_cases e : q = j
    · subst e
      simpa [Data.put] using hx (by simpa [Data.put, Data.state] using hq)
    · simp [Data.put, e]
  cases he with
  | same | sleep | alloc | takePid | take | takeFree | free => exact ⟨rfl, rfl, rfl, fun _ _ => ⟨rfl, rfl⟩⟩
  | dispatch | setRunnable | nap | setUsed | run | memFail | copyFail => exact ⟨rfl, rfl, rfl, one fun h => by cases h⟩
  | setChan | tidy | setKilled | mem | copy | closed | own | parent | reparent =>
    exact ⟨rfl, rfl, rfl, one fun _ => ⟨rfl, rfl⟩⟩
  | wake => exact ⟨rfl, rfl, rfl, one fun _ => by unfold Proc.wake; split <;> exact ⟨rfl, rfl⟩⟩
  | kill => exact ⟨rfl, rfl, rfl, one fun _ => by unfold Proc.kill; split <;> exact ⟨rfl, rfl⟩⟩
  | zombie => exact absurd rfl (hz _ _)
  | reap => exact absurd rfl (hw _ _)

theorem Ledger.lt (hl : Ledger d) (hz : d.state m = .zombie) : d.mark m < d.exits.length :=
  (List.getElem?_eq_some_iff.mp (hl.entry hz)).1

theorem setZombie_ledger (hl : Ledger d) {st : Int} : Ledger (d.setZombie p st) := by
  have other : ∀ {m}, m ≠ p → (d.setZombie p st).state m = .zombie → d.state m = .zombie ∧
      (d.setZombie p st).mark m = d.mark m := by
    intro m hm hz
    exact ⟨by simpa [Data.setZombie, Data.put, Data.state, hm] using hz, by simp [Data.setZombie, hm]⟩
  have mine : (d.setZombie p st).mark p = d.exits.length := by simp [Data.setZombie]
  have hrlt : ∀ r ∈ d.reaped, r.1 < d.exits.length := fun r hr => (List.getElem?_eq_some_iff.mp (hl.reaped r hr)).1
  have exits : (d.setZombie p st).exits = d.exits ++ [((d.procs p).pid, st)] := rfl
  refine ⟨fun {m} hz => ?_, fun {m} hz => ?_, fun {m m'} hz hz' he => ?_, fun r hr => ?_, hl.nodup⟩
  · rw [exits]
    by_cases e : m = p
    · subst e
      rw [mine, List.getElem?_append_right (le_refl _)]
      simp [Data.setZombie, Data.put]
    · obtain ⟨h1, h2⟩ := other e hz
      rw [h2, List.getElem?_append_left (hl.lt h1), hl.entry h1]
      simp [Data.setZombie, Data.put, e]
  · show (d.setZombie p st).mark m ∉ d.reaped.map Prod.fst
    by_cases e : m = p
    · subst e
      rw [mine]
      intro hm
      obtain ⟨r, hr, e⟩ := List.mem_map.mp hm
      exact absurd (hrlt r hr) (by omega)
    · obtain ⟨h1, h2⟩ := other e hz
      rw [h2]
      exact hl.waits h1
  · by_cases e : m = p <;> by_cases e' : m' = p
    · rw [e, e']
    · obtain ⟨h1, h2⟩ := other e' hz'
      rw [e, mine, h2] at he
      exact absurd (hl.lt h1) (by omega)
    · obtain ⟨h1, h2⟩ := other e hz
      rw [e', mine, h2] at he
      exact absurd (hl.lt h1) (by omega)
    · obtain ⟨h1, h2⟩ := other e hz
      obtain ⟨h3, h4⟩ := other e' hz'
      rw [h2, h4] at he
      exact hl.mark h1 h3 he
  · rw [exits, List.getElem?_append_left (hrlt r hr)]
    exact hl.reaped r hr

theorem reap_ledger (hl : Ledger d) (hz : d.state m = .zombie) : Ledger (d.reap m) := by
  have other : ∀ {n}, (d.reap m).state n = .zombie → n ≠ m ∧ d.state n = .zombie ∧ (d.reap m).procs n = d.procs n := by
    intro n hn
    have hne : n ≠ m := fun e => by
      rw [e] at hn
      simp [Data.reap, Data.put, Data.state, Proc.freeproc] at hn
    exact ⟨hne, by simpa [Data.reap, Data.put, Data.state, hne] using hn, by simp [Data.reap, Data.put, hne]⟩
  refine ⟨fun {n} hn => ?_, fun {n} hn => ?_, fun {n n'} hn hn' he => ?_, fun r hr => ?_, ?_⟩
  · obtain ⟨-, h1, h2⟩ := other hn
    rw [h2]
    exact hl.entry h1
  · obtain ⟨hne, h1, -⟩ := other hn
    have hmark : d.mark n ≠ d.mark m := fun e => hne (hl.mark h1 hz e)
    show d.mark n ∉ (d.reaped ++ [_]).map Prod.fst
    rw [List.map_append, List.mem_append, List.map_singleton, List.mem_singleton]
    exact fun e => e.elim (hl.waits h1) hmark
  · exact hl.mark (other hn).2.1 (other hn').2.1 he
  · rcases List.mem_append.mp hr with hr | hr
    · exact hl.reaped r hr
    · rw [List.mem_singleton.mp hr]
      exact hl.entry hz
  · show ((d.reaped ++ [_]).map Prod.fst).Nodup
    rw [List.map_append, List.nodup_append]
    refine ⟨hl.nodup, by simp, fun a ha b hb => ?_⟩
    rw [List.map_singleton, List.mem_singleton] at hb
    rw [hb]
    intro e
    rw [e] at ha
    exact hl.waits hz ha

theorem Effect.ledger (he : Effect d i d') (hl : Ledger d) : Ledger d' := by
  by_cases hz : ∃ q st, i = .exitZombie q st
  · obtain ⟨q, st, rfl⟩ := hz
    cases he with
    | same => exact hl
    | zombie => exact setZombie_ledger hl
  by_cases hw : ∃ q p, i = .waitAt q p
  · obtain ⟨q, p, rfl⟩ := hw
    cases he with
    | same => exact hl
    | reap hz => exact reap_ledger hl hz
  obtain ⟨h1, h2, h3, h4⟩ := he.books (fun q st e => hz ⟨q, st, e⟩) fun q p e => hw ⟨q, p, e⟩
  have old : ∀ {m}, d'.state m = .zombie → d.state m = .zombie := fun {m} hm =>
    (he.zombies hm).resolve_right fun ⟨st, e⟩ => hz ⟨m, st, e⟩
  refine ⟨fun {m} hm => ?_, fun {m} hm => ?_, fun hm hm' e => ?_, ?_, ?_⟩
  · rw [h1, h2, (h4 m hm).1, (h4 m hm).2]
    exact hl.entry (old hm)
  · rw [h2, h3]
    exact hl.waits (old hm)
  · rw [h2] at e
    exact hl.mark (old hm) (old hm') e
  · rw [h1, h3]
    exact hl.reaped
  · rw [h3]
    exact hl.nodup

theorem ledger (hr : Reach s) : Ledger s.data := by
  induction hr with
  | init =>
    have hn : ∀ {m}, init.data.state m ≠ .zombie := fun {m} hz => by
      by_cases e : m = initproc <;> simp [init, Data.state, bootProcs, Proc.zero, e] at hz
    exact ⟨fun h => absurd h hn, fun h => absurd h hn, fun h => absurd h hn, fun r hr =>
      absurd hr List.not_mem_nil, .nil⟩
  | step e hr _ hs ih =>
    obtain ⟨h, hd⟩ := step_does (inv hr) hs
    cases hd with
    | exec hc hx he =>
      rw [after_data]
      exact (exec_effect he).ledger ih
    | stop => exact ih
    | _ => simpa using ih

/-! ## Who frees a ZOMBIE -/

theorem Effect.reaps (he : Effect d i d') (hz : d.state q = .zombie) (hn : d'.state q ≠ .zombie) :
    (∃ p, i = .waitAt q p ∧ d' = d.reap q) ∨ makes i = some q ∨ i = .setRunnable q ∨ ∃ c lk, i = .nap q c lk := by
  have one : ∀ {j : Nat} {x : Proc} {P : Prop}, (d.put j x).state q ≠ .zombie →
      (j = q → x.state ≠ .zombie → P) → P := by
    intro j x P h1 h2
    by_cases e : j = q
    · subst e
      exact h2 rfl (by simpa [Data.put, Data.state] using h1)
    · exact absurd (by simpa [Data.put, Data.state, Ne.symm e] using hz) h1
  cases he with
  | same | sleep | alloc | takePid | take | takeFree | free => exact absurd hz hn
  | setChan | tidy | setKilled | mem | copy | closed | own | parent | reparent =>
    exact one hn fun e h => absurd hz (by subst e; exact h)
  | dispatch hr =>
    refine one hn fun e _ => ?_
    subst e
    rw [hz] at hr
    cases hr
  | setRunnable => exact one hn fun e _ => Or.inr (Or.inr (Or.inl (by rw [e])))
  | nap => exact one hn fun e _ => Or.inr (Or.inr (Or.inr ⟨_, _, by rw [e]⟩))
  | wake =>
    refine one hn fun e h => ?_
    subst e
    have : (d.procs _).state = .zombie := hz
    unfold Proc.wake at h
    simp [this] at h
  | kill =>
    refine one hn fun e h => ?_
    subst e
    have : (d.procs _).state = .zombie := hz
    unfold Proc.kill at h
    simp [this] at h
  | setUsed | memFail | copyFail | run => exact one hn fun e _ => Or.inr (Or.inl (by subst e; rfl))
  | @zombie p st =>
    exact one (j := p) (x := { d.procs p with xstate := st, state := .zombie }) hn fun _ h => absurd rfl h
  | @reap j p _ =>
    exact one (j := j) (x := (d.procs j).freeproc) hn fun e _ => Or.inl ⟨p, by rw [e], by rw [e]⟩

/-- A ZOMBIE whose lock another process holds has left its hart. -/
theorem Inv.zombie_off (hi : Inv s) (hz : s.data.state m = .zombie) (hp : s.cur h = some p) (hne : p ≠ m)
    (hl : s.lock (.proc m) = some h) (k : Nat) : ¬ OnHart s k m := by
  intro ho
  rcases hi.onHart ho with hk | ⟨hk, hl', -⟩
  · obtain ⟨K, hK⟩ := hi.holds k
    have hty := hK.typed
    have hst := (hi.on hk).2.2
    simp only [St.code, hk] at hty
    have hm := leaving_holds hty (by rw [hst, hz]; simp)
    rw [(hK.lock _).mpr hm] at hl
    cases hl
    rw [hk] at hp
    exact hne (Option.some.inj hp).symm
  · rw [hl] at hl'
    cases hl'
    rw [hk] at hp
    cases hp

theorem Inv.zombie_freed (hi : Inv s) (hf : Family s) (hd : Does s h s') (hz : s.data.state m = .zombie)
    (hn : s'.data.state m ≠ .zombie) : ∃ p rest, s.cur h = some p ∧ s.code h = .waitAt m p :: rest ∧
      s.data.parent m = some p ∧ (∀ k, ¬ OnHart s k m) ∧ s'.data = s.data.reap m := by
  cases hd with
  | @exec i rest is ch d sp hc hx he =>
    obtain ⟨H, hh, hty⟩ := hi.typed hc
    rw [after_data] at hn ⊢
    -- the process itself would be RUNNING
    have self : ∀ {m}, s.cur h = some m → leaves (i :: rest) = some .running → s.data.state m = .running :=
        fun {m} hm hl => by
      have hcode := code_some hm
      have := (hi.on hm).2.2
      rw [← hcode, hc, hl] at this
      exact (Option.some.inj this).symm
    rcases (exec_effect he).reaps hz hn with ⟨p, rfl, e⟩ | hm | rfl | ⟨c, lk, rfl⟩
    · obtain ⟨hcur, hH, -⟩ := hty.1
      have hcode := code_some hcur
      have ht := hf.told (p := p) (j := .waitAt m p) (by rw [← hcode, hc]; exact List.mem_cons_self)
      refine ⟨p, rest, hcur, hc, ht.2.1, hi.zombie_off hz hcur (fun e => ?_) ((hh.lock _).mpr (by rw [hH]; simp)), e⟩
      have := self hcur rfl
      rw [e, hz] at this
      cases this
    · have := hi.made_state hc hm
      rw [hz] at this
      rcases madeState_cases i with e | e <;> rw [e] at this <;> cases this
    · have := self hty.1.1 rfl
      rw [hz] at this
      cases this
    · have := self hty.1.1 rfl
      rw [hz] at this
      cases this
  | stop => exact absurd hz hn
  | _ => exact absurd (by simpa using hz) hn

/-- In every reachable state: (a) a parent is neither UNUSED nor a ZOMBIE; (b) a ZOMBIE stops
    being one only by a `wait` of its parent that frees it, when no hart executes it or names it
    as `c->proc`; what `wait` has returned are pids and statuses of exits, no exit twice, and the
    exit of a ZOMBIE has not been returned; (c) with `wait_lock` free no process is SLEEPING in
    `wait` that has a ZOMBIE child. -/
theorem exit_wait (hr : Reach s) :
    (∀ m q, (s.data.procs m).parent = some q → s.data.state q ≠ .unused ∧ s.data.state q ≠ .zombie) ∧
    (∀ e s' m, step s e = some s' → s.data.state m = .zombie → s'.data.state m ≠ .zombie →
      ∃ h p rest, s.cur h = some p ∧ s.code h = .waitAt m p :: rest ∧ (s.data.procs m).parent = some p ∧
        (∀ k, ¬ OnHart s k m) ∧ s'.data = s.data.reap m) ∧
    ((s.data.reaped.map Prod.fst).Nodup ∧ (∀ r ∈ s.data.reaped, s.data.exits[r.1]? = some r.2) ∧
      ∀ m, s.data.state m = .zombie → s.data.exits[s.data.mark m]? = some ((s.data.procs m).pid,
        (s.data.procs m).xstate) ∧ s.data.mark m ∉ s.data.reaped.map Prod.fst) ∧
    (s.lock .wait = none → ∀ p m, s.data.state p = .sleeping → (s.data.procs p).chan = some (.proc p) →
      (s.data.procs m).parent = some p → s.data.state m ≠ .zombie) := by
  have hi := inv hr
  have hs := sleepers hr
  have hf := family hr
  have hl := ledger hr
  refine ⟨fun m q hp => ?_, fun e s' m hst hz hn => ?_, ⟨hl.nodup, hl.reaped, fun m hz => ⟨hl.entry hz, hl.waits hz⟩⟩,
    fun hfree p m hsl hch hp hz => ?_⟩
  · rcases (hf.parent hp).2 with e | e | e <;> rw [e] <;> simp
  · obtain ⟨h, hd⟩ := step_does hi hst
    exact ⟨h, hi.zombie_freed hf hd hz hn⟩
  · obtain ⟨c, lk, hc⟩ := hi.sleeping_committed hsl
    rw [hs.sleeping_chan hi hsl hc] at hch
    cases hch
    obtain ⟨-, rfl⟩ := hf.lock hc
    exact (hf.settled hz hp).free hi hfree hc

def go (h n : Nat) : List Ev := List.replicate n (.run h .go)

/-- `initproc` forks on hart 0, the child exits with status 7 on hart 1, and `initproc` is in `wait`, at the child. -/
def childExits : List Ev :=
  go 0 8 ++ .run 0 (.op .done) :: go 0 1 ++ .run 0 (.trap .fork) :: go 0 17 ++ .run 0 (.op .done) :: go 0 1 ++
    .run 0 (.op .done) :: go 0 1 ++ .run 0 (.op .done) :: go 0 12 ++ go 1 12 ++ .run 1 (.op .done) :: go 1 1 ++
    .run 1 (.trap (.exit 7)) :: go 1 6 ++ .run 1 (.op .done) :: go 1 48 ++ .run 0 (.trap .wait) :: go 0 10

set_option maxRecDepth 10000 in
theorem childExits_reaped : ((runs init childExits).bind fun s => (step s (.run 0 .go)).map fun s' =>
    (s.data.state 1, s'.data.state 1, s'.data.reaped)) = some (.zombie, .unused, [(0, 2, 7)]) := by decide +kernel

theorem exit_wait_reaped : ∃ s s', runs init childExits = some s ∧ step s (.run 0 .go) = some s' ∧
    s.data.state 1 = .zombie ∧
    s'.data.reaped = [(0, 2, 7)] ∧ (∃ h p, s.cur h = some p ∧ (s.data.procs 1).parent = some p) ∧ ∀ k,
      ¬ OnHart s k 1 := by
  obtain ⟨s, hs, h⟩ := Option.bind_eq_some_iff.mp childExits_reaped
  obtain ⟨s', hs', h⟩ := Option.map_eq_some_iff.mp h
  simp only [Prod.mk.injEq] at h
  obtain ⟨hz, hu, hrp⟩ := h
  obtain ⟨hh, p, rest, hcur, -, hpar, hoff, -⟩ :=
    (exit_wait (Reach.runs childExits .init hs)).2.1 (.run 0 .go) s' 1 hs' hz (by rw [hu]; simp)
  exact ⟨s, s', hs, hs', hz, hrp, ⟨hh, p, hcur, hpar⟩, hoff⟩

end Xv6.Process
