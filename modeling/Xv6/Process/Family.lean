/-
  Xv6.Process.Family — `fork`, `exit` with `reparent`, and `wait` of kernel/proc.c along the runs
  of `Xv6.Process.Sched`.

  `Told s p j` is what the thread of `p` has found out before it executes `j`: `exit` that the
  slots it has been at are no children of `p` any more, `wait` that the children it has been at
  are no ZOMBIEs. `wait_lock` is held from there to `j` (`base`), and parents and ZOMBIEs change
  only under `wait_lock`.

  A ZOMBIE child means that a `wakeup` of the parent is on its way or that the parent is not
  asleep (`Settled`): `exit` wakes the parent before it becomes a ZOMBIE, but keeps `wait_lock`.

  Proved: `family` along every run.
-/
import Xv6.Process.Wakeup

namespace Xv6.Process

variable {s s' : St} {h k p q : Nat} {H : List Lock} {is rest : List Instr} {i j : Instr} {c : Chan} {lk : Lock}
  {d d' : Data} {m : Nat}

def Data.parent (d : Data) (i : Nat) : Option Nat := (d.procs i).parent

/-- Neither UNUSED nor ZOMBIE, and made by a `fork` that is done. -/
def Live (d : Data) (p : Nat) : Prop := d.state p = .sleeping ∨ d.state p = .runnable ∨ d.state p = .running

/-- No ZOMBIE among the first `n` slots that are children of `p`. -/
def NoZombie (d : Data) (n p : Nat) : Prop := ∀ i < n, d.parent i = some p → d.state i ≠ .zombie

def Told (s : St) (p : Nat) : Instr → Prop
  | .exitReparent n q _ => q = p ∧ p ≠ initproc ∧ ∀ i < n, s.data.parent i ≠ some p
  | .exitZombie q _ => q = p ∧ p ≠ initproc ∧ (∀ i, s.data.parent i ≠ some p) ∧
      ∀ q, s.data.parent p = some q → Settled s (.proc q) .wait
  | .waitScan n q _ => q = p ∧ NoZombie s.data n p
  | .waitAt n q => q = p ∧ s.data.parent n = some p ∧ NoZombie s.data n p
  | .waitKilled q => q = p ∧ NoZombie s.data NPROC p
  | .takePid i _ => s.data.parent i = none
  | .setUsed i _ _ => s.data.parent i = none
  | .allocMem i _ => s.data.parent i = none
  | .forkCopy i _ => s.data.parent i = none
  | .forkParent i _ => s.data.parent i = none
  | _ => True

def Childless (s : St) (p : Nat) (c : Chan) (lk : Lock) : Prop :=
  ∀ q, c = .proc q → q = p ∧ lk = .wait ∧ NoZombie s.data NPROC p

structure Family (s : St) : Prop where
  init : Live s.data initproc
  parent : ∀ {i q}, s.data.parent i = some q → s.data.state i ≠ .unused ∧ Live s.data q
  told : ∀ {p j}, j ∈ s.proc p → Told s p j
  calls : ∀ {h p}, s.cur h = some p → Calling p (Childless s p) (s.proc p)
  lock : ∀ {p q lk}, Committed s p (.proc q) lk → q = p ∧ lk = .wait
  settled : ∀ {i q}, s.data.state i = .zombie → s.data.parent i = some q → Settled s (.proc q) .wait

/-! ## What the instructions do to parents -/

theorem Effect.parents (he : Effect d i d') (q : Nat) :
    d'.parent q = d.parent q ∨ (∃ p, i = .forkParent q p ∧ d'.parent q = some p) ∨
    (∃ p st, i = .exitReparent q p st ∧ d.parent q = some p ∧ d'.parent q = some initproc) ∨
    (d'.parent q = none ∧ ∃ p, i = .allocMem q p ∨ i = .forkCopy q p ∨ i = .waitAt q p) := by
  have one : ∀ {j : Nat} {x : Proc}, (j = q → x.parent = (d.procs q).parent) → (d.put j x).parent q = d.parent q := by
    intro j x hx
    by_cases e : j = q
    · subst e
      simpa [Data.parent, Data.put] using hx rfl
    · simp [Data.parent, Data.put, Ne.symm e]
  cases he with
  | same | sleep | alloc | takePid | take | takeFree | free => exact Or.inl rfl
  | dispatch | setRunnable | setChan | nap | tidy | setKilled | setUsed | mem | copy | run | closed | own =>
    exact Or.inl (one fun e => by subst e; rfl)
  | @zombie p status =>
    exact Or.inl (one (j := p) (x := { d.procs p with xstate := status, state := .zombie }) fun e => by subst e; rfl)
  | wake => exact Or.inl (one fun e => by subst e; unfold Proc.wake; split <;> rfl)
  | kill => exact Or.inl (one fun e => by subst e; unfold Proc.kill; split <;> rfl)
  | @parent j p =>
    by_cases e : j = q
    · subst e
      exact Or.inr (Or.inl ⟨p, rfl, by simp [Data.parent, Data.put]⟩)
    · exact Or.inl (by simp [Data.parent, Data.put, Ne.symm e])
  | @reparent j p st hp =>
    by_cases e : j = q
    · subst e
      exact Or.inr (Or.inr (Or.inl ⟨p, st, rfl, hp, by simp [Data.parent, Data.put]⟩))
    · exact Or.inl (by simp [Data.parent, Data.put, Ne.symm e])
  | @memFail j p | @copyFail j p | @reap j p =>
    by_cases e : j = q
    · subst e
      exact Or.inr (Or.inr (Or.inr ⟨by simp [Data.parent, Data.reap, Data.put, Proc.freeproc], p, by simp⟩))
    · exact Or.inl (by simp [Data.parent, Data.reap, Data.put, Ne.symm e])

/-- A slot that is freed has no parent. -/
theorem Effect.freed (he : Effect d i d') (hu : d'.state q = .unused) : d.state q = .unused ∨ d'.parent q = none := by
  have one : ∀ {j : Nat} {x : Proc}, (d.put j x).state q = .unused →
      (j = q → x.state = .unused → (d.procs q).state = .unused ∨ x.parent = none) →
      d.state q = .unused ∨ (d.put j x).parent q = none := by
    intro j x h1 h2
    by_cases e : j = q
    · subst e
      simpa [Data.parent, Data.put, Data.state] using h2 rfl (by simpa [Data.put, Data.state] using h1)
    · exact Or.inl (by simpa [Data.put, Data.state, Ne.symm e] using h1)
  cases he with
  | same | sleep | alloc | takePid | take | takeFree | free => exact Or.inl hu
  | dispatch | setRunnable | nap | setUsed | run => exact one hu fun _ h => by cases h
  | setChan | tidy | setKilled | mem | copy | closed | own | parent | reparent =>
    exact one hu fun e h => Or.inl (by subst e; exact h)
  | @zombie p status =>
    exact one (j := p) (x := { d.procs p with xstate := status, state := .zombie }) hu fun _ h => by cases h
  | wake =>
    refine one hu fun e h => Or.inl ?_
    subst e
    unfold Proc.wake at h
    split at h
    · cases h
    · exact h
  | kill =>
    refine one hu fun e h => Or.inl ?_
    subst e
    unfold Proc.kill at h
    split at h
    · cases h
    · exact h
  | memFail | copyFail => exact one hu fun _ _ => Or.inr rfl
  | @reap j p => exact one (j := j) (x := (d.procs j).freeproc) hu fun _ _ => Or.inr rfl

/-- The instructions that change who is whose child, or who is a ZOMBIE. -/
def kin : Instr → Bool
  | .forkParent _ _ => true
  | .exitReparent _ _ _ => true
  | .exitZombie _ _ => true
  | .waitAt _ _ => true
  | _ => false

/-- They are executed with `wait_lock` held, and nothing after them relies on it. -/
theorem Typed.kin {me : Option Nat} (ht : Typed me H (i :: rest)) (hk : kin i = true) :
    .wait ∈ H ∧ needs rest = [] := by
  obtain ⟨hp, -, ht⟩ := ht
  cases i with
  | forkParent | exitReparent | exitZombie | waitAt => exact ⟨by rw [hp.2.1]; simp, ht.needs_nil⟩
  | _ => cases hk

/-- The thread of the process a hart executes. -/
theorem Inv.mem_proc (hi : Inv s) (hc : s.code h = i :: rest) (hm : makes i = some m) :
    ∃ p, s.cur h = some p ∧ i ∈ s.proc p := by
  obtain ⟨H, hh, hty⟩ := hi.typed hc
  cases hcur : s.cur h with
  | none =>
    rw [hcur] at hty
    cases i with
    | takePid | setUsed | allocMem | forkCopy | forkParent | forkRun => cases hty.1.1
    | _ => cases hm
  | some p =>
    have hcode := code_some hcur
    exact ⟨p, rfl, by rw [← hcode, hc]; exact List.mem_cons_self⟩

/-- Who becomes a ZOMBIE. -/
theorem Effect.zombies (he : Effect d i d') (hz : d'.state q = .zombie) :
    d.state q = .zombie ∨ ∃ st, i = .exitZombie q st := by
  have one : ∀ {j : Nat} {x : Proc}, (d.put j x).state q = .zombie → (j = q → x.state = .zombie → d.state q = .zombie) →
      d.state q = .zombie := by
    intro j x h1 h2
    by_cases e : j = q
    · subst e
      exact h2 rfl (by simpa [Data.put, Data.state] using h1)
    · simpa [Data.put, Data.state, Ne.symm e] using h1
  cases he with
  | same | sleep | alloc | takePid | take | takeFree | free => exact Or.inl hz
  | dispatch | setRunnable | nap | setUsed | run | memFail | copyFail => exact Or.inl (one hz fun _ h => by cases h)
  | setChan | tidy | setKilled | mem | copy | closed | own | parent | reparent =>
    exact Or.inl (one hz fun e h => by subst e; exact h)
  | @zombie p status =>
    by_cases e : p = q
    · exact Or.inr ⟨status, by rw [e]⟩
    · exact Or.inl (by simpa [Data.setZombie, Data.put, Data.state, Ne.symm e] using hz)
  | wake =>
    refine Or.inl (one hz fun e h => ?_)
    subst e
    unfold Proc.wake at h
    split at h
    · cases h
    · exact h
  | kill =>
    refine Or.inl (one hz fun e h => ?_)
    subst e
    unfold Proc.kill at h
    split at h
    · cases h
    · exact h
  | @reap j p => exact Or.inl (one (j := j) (x := (d.procs j).freeproc) hz fun _ h => by cases h)

theorem Inv.zombie_step (hi : Inv s) (hd : Does s h s') (hz : s'.data.state m = .zombie) :
    s.data.state m = .zombie ∨ ∃ st rest, s.cur h = some m ∧ s.code h = .exitZombie m st :: rest := by
  cases hd with
  | @exec i rest is ch d sp hc hx he =>
    rw [after_data] at hz
    rcases (exec_effect he).zombies hz with e | ⟨st, rfl⟩
    · exact Or.inl e
    · obtain ⟨H, hh, hty⟩ := hi.typed hc
      exact Or.inr ⟨st, rest, hty.1.1, hc⟩
  | stop => exact Or.inl hz
  | _ => exact Or.inl (by simpa using hz)

/-- Nothing else changes them. -/
theorem Family.kept (hi : Inv s) (hf : Family s) (hd : Does s h s')
    (hk : ∀ i rest, s.code h = i :: rest → kin i = false) :
    (∀ m, s'.data.parent m = s.data.parent m) ∧ ∀ m, s'.data.state m = .zombie → s.data.state m = .zombie := by
  constructor <;> intro m
  · cases hd with
    | @exec i rest is ch d sp hc hx he =>
      rw [after_data]
      have hkin := hk i rest hc
      rcases (exec_effect he).parents m with e | ⟨p, rfl, -⟩ | ⟨p, st, rfl, -⟩ | ⟨e, p, rfl | rfl | rfl⟩
      · exact e
      · cases hkin
      · cases hkin
      -- `fork` gives a slot back that has no parent yet
      · obtain ⟨p', -, hmem⟩ := hi.mem_proc hc rfl
        have ht : s.data.parent m = none := hf.told hmem
        rw [e, ht]
      · obtain ⟨p', -, hmem⟩ := hi.mem_proc hc rfl
        have ht : s.data.parent m = none := hf.told hmem
        rw [e, ht]
      · cases hkin
    | stop => rfl
    | _ => simp
  · intro hz
    refine (hi.zombie_step hd hz).resolve_right fun ⟨st, rest, _, hc⟩ => ?_
    cases hk _ _ hc

/-! ## What the threads have found out -/

def plain : Instr → Bool
  | .exitReparent _ _ _ => false
  | .exitZombie _ _ => false
  | .waitScan _ _ _ => false
  | .waitAt _ _ => false
  | .waitKilled _ => false
  | .takePid _ _ => false
  | .setUsed _ _ _ => false
  | .allocMem _ _ => false
  | .forkCopy _ _ => false
  | .forkParent _ _ => false
  | _ => true

theorem told_plain (hj : plain j = true) : Told s p j := by
  cases j <;> first | exact trivial | cases hj

/-- Of the instructions just written, the last needs to be told something. -/
theorem told_last {l : List Instr} (hl : ∀ x ∈ l, plain x = true) (hj : j ∈ l ++ [i]) (ht : Told s p i) :
    Told s p j := by
  rcases List.mem_append.mp hj with hj | hj
  · exact told_plain (hl j hj)
  · rw [List.mem_singleton.mp hj]
    exact ht

/-- Where an instruction of a thread comes from. -/
theorem Inv.pending (hi : Inv s) (hd : Does s h s') (hj : j ∈ s'.proc p) :
    (j ∈ s.proc p ∧ (s'.data = s.data ∨ ∀ i rest, s.cur h = some p → s.code h = i :: rest → j ∈ rest)) ∨
    (∃ i rest is ch d sp, s.cur h = some p ∧ s.code h = i :: rest ∧ exec (some p) s.data ch i = some (.ok d is sp) ∧
      s' = s.after h d (is ++ rest) sp ∧ j ∈ is) ∨ plain j = true := by
  by_cases hp : s.cur h = some p
  swap
  · rcases hi.proc_other hd hp with e | ⟨-, e⟩
    · exact Or.inl ⟨e ▸ hj, Or.inr fun i rest h' => absurd h' hp⟩
    · rw [e, List.mem_singleton] at hj
      exact Or.inr (Or.inr (by rw [hj]; rfl))
  have hcode := code_some hp
  have tail : ∀ {i rest}, s.code h = i :: rest → j ∈ rest → j ∈ s.proc p := fun hc hj => by
    rw [← hcode, hc]
    exact List.mem_cons_of_mem _ hj
  cases hd with
  | acquire hc | release hc | swtchTo hc | swtchBack hc =>
    simp only [goto_proc, hp, if_true] at hj
    exact Or.inl ⟨tail hc hj, Or.inl (by simp)⟩
  | flags hc hf =>
    simp only [goto_proc, hp, if_true] at hj
    cases hf with
    | scheduler =>
      rcases List.mem_cons.mp hj with rfl | hj
      · exact Or.inr (Or.inr rfl)
      · exact Or.inl ⟨tail hc hj, Or.inl (by simp)⟩
    | sched =>
      rcases List.mem_cons.mp hj with rfl | hj
      · exact Or.inr (Or.inr rfl)
      · rcases List.mem_cons.mp hj with rfl | hj
        · exact Or.inr (Or.inr rfl)
        · exact Or.inl ⟨tail hc hj, Or.inl (by simp)⟩
    | _ => exact Or.inl ⟨tail hc hj, Or.inl (by simp)⟩
  | irq his hr =>
    simp only [goto_proc, hp, if_true] at hj
    rcases List.mem_append.mp hj with hj | hj
    · refine Or.inr (Or.inr ?_)
      rcases his with rfl | rfl <;> simp only [List.mem_cons, List.not_mem_nil, or_false] at hj <;>
        rcases hj with rfl | rfl | rfl <;> rfl
    · exact Or.inl ⟨hcode ▸ hj, Or.inl (by simp)⟩
  | @exec i rest is ch d sp hc hx he =>
    have hproc := hi.after_code hc he
    simp only [St.code, after_cur, hp] at hproc
    rw [hproc] at hj
    rcases List.mem_append.mp hj with hj | hj
    · exact Or.inr (Or.inl ⟨i, rest, is, ch, d, sp, hp, hc, by rw [← hp, ← hi.myproc hc hx]; exact he, rfl, hj⟩)
    · refine Or.inl ⟨tail hc hj, Or.inr fun i' rest' _ hc' => ?_⟩
      rw [hc] at hc'
      cases hc'
      exact hj
  | stop => exact Or.inl ⟨hj, Or.inl rfl⟩

/-- A thread that relies on `wait_lock` is on the hart that holds it. -/
theorem Inv.base_lock (hi : Inv s) (hj : j ∈ s.proc p) (hb : lk ∈ base j) :
    ∃ k, s.cur k = some p ∧ s.lock lk = some k := by
  have hm : lk ∈ needs (s.proc p) := List.mem_flatMap.mpr ⟨j, hj, hb⟩
  by_cases hon : ∃ k, s.cur k = some p
  · obtain ⟨k, hk⟩ := hon
    obtain ⟨H, hh⟩ := hi.holds k
    have hty := hh.typed
    simp only [St.code, hk] at hty
    exact ⟨k, hk, (hh.lock lk).mpr (hty.needs_sub hm)⟩
  · rw [(hi.parked fun k hk => hon ⟨k, hk⟩).needs] at hm
    exact absurd hm List.not_mem_nil

/-- While a thread relies on `wait_lock`, other threads leave the family alone. -/
theorem Family.kept_pending (hi : Inv s) (hf : Family s) (hd : Does s h s') (hj : j ∈ s.proc p) (hb : .wait ∈ base j)
    (hstay : s'.data = s.data ∨ ∀ i rest, s.cur h = some p → s.code h = i :: rest → j ∈ rest) :
    (∀ m, s'.data.parent m = s.data.parent m) ∧ ∀ m, s'.data.state m = .zombie → s.data.state m = .zombie := by
  rcases hstay with e | hstay
  · rw [e]
    exact ⟨fun _ => rfl, fun _ hz => hz⟩
  refine hf.kept hi hd fun i rest hc => ?_
  cases hkin : kin i with
  | false => rfl
  | true =>
    exfalso
    obtain ⟨H, hh, hty⟩ := hi.typed hc
    obtain ⟨hw, hn⟩ := hty.kin hkin
    obtain ⟨k, hk, hl⟩ := hi.base_lock hj hb
    rw [(hh.lock _).mpr hw] at hl
    cases hl
    have : Lock.wait ∈ needs rest := List.mem_flatMap.mpr ⟨j, hstay i rest hk hc, hb⟩
    rw [hn] at this
    exact absurd this List.not_mem_nil

/-- While a thread relies on `lk`, no process commits with `lk`. -/
theorem Inv.base_not_release (hi : Inv s) (hj : j ∈ s.proc p) (hb : lk ∈ base j) {r : List Instr} :
    s.code h ≠ .release lk :: r := by
  intro hc
  obtain ⟨H, hh, hty⟩ := hi.typed hc
  obtain ⟨k, hk, hl⟩ := hi.base_lock hj hb
  rw [(hh.lock _).mpr hty.1.1] at hl
  cases hl
  have hcode := code_some hk
  rw [← hcode, hc] at hj
  rcases List.mem_cons.mp hj with rfl | hj
  · exact absurd hb List.not_mem_nil
  · have := hty.2.2.needs_sub (List.mem_flatMap.mpr ⟨j, hj, hb⟩)
    exact hh.nodup.not_mem_erase this

theorem Family.told_keep (hi : Inv s) (hs : Sleepers s) (hf : Family s) (hd : Does s h s') (hj : j ∈ s.proc p)
    (hstay : s'.data = s.data ∨ ∀ i rest, s.cur h = some p → s.code h = i :: rest → j ∈ rest) : Told s' p j := by
  have ht := hf.told hj
  have kept := fun hb => hf.kept_pending hi hd hj hb hstay
  -- a slot `fork` is working on gets its parent from that `fork`
  have made : ∀ {m}, makes j = some m → s.data.parent m = none → s'.data.parent m = none := fun {m} hm hn => by
    rcases hstay with e | hstay
    · rw [e, hn]
    cases hd with
    | @exec i rest is ch d sp hc hx he =>
      rw [after_data]
      rcases (exec_effect he).parents m with e | ⟨p', rfl, -⟩ | ⟨p', st, rfl, e, -⟩ | ⟨e, -⟩
      · rw [e, hn]
      · exfalso
        obtain ⟨H, hh, hty⟩ := hi.typed hc
        obtain ⟨q, hq, hmem⟩ := hi.mem_proc hc rfl
        have h1 := (hi.made hmem rfl).1
        rw [(hi.made hj hm).1] at h1
        cases h1
        exact not_made (hty.alone trivial) (hstay _ _ hq hc) hm
      · rw [hn] at e
        cases e
      · exact e
    | stop => exact hn
    | _ => simpa using hn
  have scan : ∀ {n}, Lock.wait ∈ base j → NoZombie s.data n p → NoZombie s'.data n p := fun hb h m hm hp hz =>
    h m hm ((kept hb).1 m ▸ hp) ((kept hb).2 m hz)
  cases j with
  | exitReparent n q st =>
    obtain ⟨h1, h2, h3⟩ := ht
    refine ⟨h1, h2, fun m hm => ?_⟩
    rw [(kept (by rw [base, if_neg (by omega)]; simp)).1 m]
    exact h3 m hm
  | exitZombie q st =>
    obtain ⟨h1, h2, h3, h4⟩ := ht
    have hb : Lock.wait ∈ base (.exitZombie q st) := by simp [base]
    refine ⟨h1, h2, fun m => ?_, fun q' hq' => ?_⟩
    · rw [(kept hb).1 m]
      exact h3 m
    · rw [(kept hb).1 p] at hq'
      exact settled_step hi hs hd (h4 q' hq') fun p' r _ => hi.base_not_release hj hb
  | waitScan n q b =>
    obtain ⟨h1, h2⟩ := ht
    refine ⟨h1, fun m hm => ?_⟩
    exact scan (by rw [base, if_neg (by omega)]; simp) h2 m hm
  | waitAt n q =>
    obtain ⟨h1, h2, h3⟩ := ht
    have hb : Lock.wait ∈ base (.waitAt n q) := by simp [base]
    exact ⟨h1, ((kept hb).1 n).trans h2, scan hb h3⟩
  | waitKilled q => exact ⟨ht.1, scan (by simp [base]) ht.2⟩
  | takePid | setUsed | allocMem | forkCopy | forkParent => exact made rfl ht
  | _ => exact trivial

/-- Beyond the table there are no children. -/
theorem Family.parent_lt (hs : Sleepers s) (hf : Family s) (hp : s.data.parent m = some p) : m < NPROC :=
  hs.lt (hf.parent hp).1

/-- What a thread finds out by executing an instruction. -/
theorem Family.told_new (hi : Inv s) (hs : Sleepers s) (hf : Family s) {ch : Choice} {sp : Option Nat}
    (hp : s.cur h = some p) (hc : s.code h = i :: rest) (he : exec (some p) s.data ch i = some (.ok d is sp))
    (hj : j ∈ is)
    (hcode : (s.after h d (is ++ rest) sp).code h = is ++ rest) : Told (s.after h d (is ++ rest) sp) p j := by
  have hmem : i ∈ s.proc p := by
    have hcode := code_some hp
    rw [← hcode, hc]
    exact List.mem_cons_self
  have ht := hf.told hmem
  obtain ⟨H, hh, hty⟩ := hi.typed hc
  rw [hp] at hty
  have all : (∀ j ∈ is, plain j = true) → Told (s.after h d (is ++ rest) sp) p j := fun hall => told_plain (hall j hj)
  cases i with
  | exit st =>
    simp only [exec, next, withProc] at he
    split at he <;> cases he
    rename_i hne
    exact told_last (l := [_, _, _]) (by simp [plain]) hj ⟨rfl, hne, fun m hm => absurd hm (Nat.not_lt_zero m)⟩
  | exitReparent n q st =>
    obtain ⟨rfl, h2, h3⟩ := ht
    simp only [exec, next] at he
    split at he
    · split at he <;> cases he
      · refine told_last (l := [_]) (by simp [plain]) hj ?_
        refine ⟨rfl, h2, fun m hm => ?_⟩
        by_cases e : m = n
        · simpa [Data.parent, Data.put, e] using Ne.symm h2
        · simpa [Data.parent, Data.put, e] using h3 m (by omega)
      · rename_i hn
        rw [List.mem_singleton] at hj
        subst hj
        refine ⟨rfl, h2, fun m hm => ?_⟩
        rw [after_data]
        by_cases e : m = n
        · rw [e]
          exact hn
        · exact h3 m (by omega)
    · rename_i hn
      cases he
      refine told_last (l := [_, _]) (by simp [plain]) hj ?_
      refine ⟨rfl, h2, fun m hm => ?_, fun q' hq' => ?_⟩
      · rw [after_data] at hm
        exact h3 m (lt_of_lt_of_le (hf.parent_lt hs hm) (Nat.le_of_not_lt hn)) hm
      · -- the parent is about to be woken
        rw [after_data] at hq'
        refine Or.inr ⟨h, _, by rw [hcode]; exact List.mem_cons_self, 0, [.wait], ?_, by simp⟩
        have : (s.data.procs q).parent = some q' := hq'
        simp [this, wakes]
  | wait =>
    cases he
    exact told_last (l := [_]) (by simp [plain]) hj ⟨rfl, fun m hm => absurd hm (Nat.not_lt_zero m)⟩
  | waitScan n q b =>
    obtain ⟨rfl, h2⟩ := ht
    simp only [exec, next] at he
    split at he
    · split at he <;> cases he
      · rename_i hpar
        refine told_last (l := [_]) (by simp [plain]) hj ?_
        exact ⟨rfl, by rw [after_data]; exact hpar, by rw [after_data]; exact h2⟩
      · rename_i hpar
        rw [List.mem_singleton] at hj
        subst hj
        refine ⟨rfl, fun m hm hm' => ?_⟩
        rw [after_data] at hm' ⊢
        by_cases e : m = n
        · rw [e] at hm'
          exact absurd hm' hpar
        · exact h2 m (by omega) hm'
    · rename_i hn
      split at he <;> cases he
      · refine told_last (l := [_]) (by simp [plain]) hj ?_
        refine ⟨rfl, fun m hm => ?_⟩
        rw [after_data]
        exact h2 m (lt_of_lt_of_le hm (Nat.le_of_not_lt hn))
      · exact all (by simp [plain])
  | waitAt n q =>
    obtain ⟨rfl, h2, h3⟩ := ht
    simp only [exec, next] at he
    split at he
    · split at he <;> cases he <;> exact all (by simp [plain])
    · rename_i hz
      cases he
      refine told_last (l := [_]) (by simp [plain]) hj ?_
      refine ⟨rfl, fun m hm hm' => ?_⟩
      rw [after_data] at hm' ⊢
      by_cases e : m = n
      · rw [e]
        exact hz
      · exact h3 m (by omega) hm'
  | waitKilled q =>
    obtain ⟨rfl, h2⟩ := ht
    simp only [exec, next] at he
    cases he
    split at hj
    · exact told_plain (by
        simp only [List.mem_cons, List.not_mem_nil, or_false] at hj
        rcases hj with rfl | rfl <;> rfl)
    · exact told_last (l := [_, _]) (by simp [plain]) hj ⟨rfl, fun m hm => absurd hm (Nat.not_lt_zero m)⟩
  | allocAt m q =>
    simp only [exec, next] at he
    split at he <;> cases he
    · rename_i hu
      refine told_last (l := [_]) (by simp [plain]) hj ?_
      have hnone : (s.data.procs m).parent = none := by
        cases hpar : s.data.parent m with
        | none => exact hpar
        | some q' => exact absurd hu (hf.parent hpar).1
      simpa [Told, Data.parent] using hnone
    · exact all (by simp [plain])
  | takePid m q | setUsed m q pid =>
    have ht : (s.data.procs m).parent = none := ht
    cases he
    refine told_last (l := [_]) (by simp [plain]) hj ?_
    simpa [Told, Data.parent, Data.put] using ht
  | allocMem m q | forkCopy m q =>
    have ht : (s.data.procs m).parent = none := ht
    simp only [exec, next] at he
    split at he <;> cases he
    · exact all (by simp [plain])
    · simp only [List.mem_cons, List.not_mem_nil, or_false] at hj
      rcases hj with rfl | rfl | rfl | rfl <;> first
        | exact trivial
        | simpa [Told, Data.parent, Data.put, Proc.inherit] using ht
  | code k held =>
    simp only [exec] at he
    split at he
    · rename_i o
      cases o <;> simp only [codeOp, next, withProc] at he <;> repeat' split at he
      all_goals cases he
      all_goals exact all (by simp [plain])
    · cases he
  | user =>
    simp only [exec, next, withProc] at he
    split at he <;> cases he
    rename_i t
    exact all (by cases t <;> simp [usertrap, plain])
  | _ =>
    simp only [exec, next, withProc] at he
    repeat' split at he
    all_goals cases he
    all_goals exact all (by simp [plain])

theorem Family.told_step (hi : Inv s) (hs : Sleepers s) (hf : Family s) (hd : Does s h s') (hj : j ∈ s'.proc p) :
    Told s' p j := by
  rcases hi.pending hd hj with ⟨hj, hstay⟩ | ⟨i, rest, is, ch, d, sp, hp, hc, he, rfl, hj'⟩ | hj
  · exact hf.told_keep hi hs hd hj hstay
  · have hx : cproc (i :: rest) = none := by
      cases i with
      | swtchTo | setProc => cases he
      | _ => rfl
    exact hf.told_new hi hs hp hc he hj' (hi.after_code hc (by rw [hi.myproc hc hx, hp]; exact he))
  · exact told_plain hj

/-! ## Parents -/

theorem Effect.live (he : Effect d i d') (hl : Live d q) :
    Live d' q ∨ (∃ st, i = .exitZombie q st) ∨ makes i = some q := by
  have one : ∀ {j : Nat} {x : Proc}, (j = q → x.state = .sleeping ∨ x.state = .runnable ∨ x.state = .running) →
      Live (d.put j x) q := by
    intro j x hx
    by_cases e : j = q
    · subst e
      simpa [Live, Data.put, Data.state] using hx rfl
    · simpa [Live, Data.put, Data.state, Ne.symm e] using hl
  have mine : ∀ {j : Nat} {x : Proc} {P : Prop}, (j = q → P) → Live (d.put j x) q ∨ P := by
    intro j x P hx
    by_cases e : j = q
    · exact Or.inr (hx e)
    · exact Or.inl (one fun e' => absurd e' e)
  cases he with
  | same | sleep | alloc | takePid | take | takeFree | free => exact Or.inl hl
  | dispatch | setRunnable | nap => exact Or.inl (one fun _ => by simp)
  | setChan | tidy | setKilled | mem | copy | closed | own | parent | reparent =>
    exact Or.inl (one fun e => by subst e; exact hl)
  | wake =>
    refine Or.inl (one fun e => ?_)
    subst e
    unfold Proc.wake
    split
    · exact Or.inr (Or.inl rfl)
    · exact hl
  | kill =>
    refine Or.inl (one fun e => ?_)
    subst e
    unfold Proc.kill
    split
    · exact Or.inr (Or.inl rfl)
    · exact hl
  | setUsed | memFail | copyFail | run => exact mine fun e => Or.inr (by subst e; rfl)
  | @zombie p status =>
    exact mine (j := p) (x := { d.procs p with xstate := status, state := .zombie }) fun e => Or.inl ⟨status, by rw [e]⟩
  | @reap j p hz =>
    exact Or.inl (one (j := j) (x := (d.procs j).freeproc) fun e => by
      subst e
      rcases hl with e | e | e <;> rw [hz] at e <;> cases e)

theorem Inv.live_step (hi : Inv s) (hd : Does s h s') (hl : Live s.data q) :
    Live s'.data q ∨ ∃ st rest, s.cur h = some q ∧ s.code h = .exitZombie q st :: rest := by
  cases hd with
  | @exec i rest is ch d sp hc hx he =>
    rw [after_data]
    obtain ⟨H, hh, hty⟩ := hi.typed hc
    rcases (exec_effect he).live hl with e | ⟨st, rfl⟩ | hm
    · exact Or.inl e
    · exact Or.inr ⟨st, rest, hty.1.1, hc⟩
    · have := hi.made_state hc hm
      rcases madeState_cases i with e | e <;> rw [e] at this <;> rcases hl with e' | e' | e' <;>
        rw [e'] at this <;> cases this
  | stop => exact Or.inl hl
  | _ => exact Or.inl (by simpa using hl)

/-- A process has no children when it becomes a ZOMBIE, and is not `initproc`. -/
theorem Family.told_zombie (hf : Family s) {st : Int} (hp : s.cur h = some q)
    (hc : s.code h = .exitZombie q st :: rest) :
    q ≠ initproc ∧ (∀ m, s.data.parent m ≠ some q) ∧ ∀ q', s.data.parent q = some q' → Settled s (.proc q') .wait := by
  have hcode := code_some hp
  obtain ⟨-, h2⟩ := hf.told (p := q) (j := .exitZombie q st) (by rw [← hcode, hc]; exact List.mem_cons_self)
  exact h2

theorem Family.init_step (hi : Inv s) (hf : Family s) (hd : Does s h s') : Live s'.data initproc :=
  (hi.live_step hd hf.init).resolve_right fun ⟨_, _, hp, hc⟩ => (hf.told_zombie hp hc).1 rfl

theorem Family.parent_step (hi : Inv s) (hf : Family s) (hd : Does s h s') (hp : s'.data.parent m = some q) :
    s'.data.state m ≠ .unused ∧ Live s'.data q := by
  have old : s.data.parent m = some q → Live s'.data q := fun hp =>
    (hi.live_step hd (hf.parent hp).2).resolve_right fun ⟨_, _, hq, hc⟩ => (hf.told_zombie hq hc).2.1 m hp
  have hinit := hf.init_step hi hd
  have hd0 := hd
  cases hd with
  | @exec i rest is ch d sp hc hx he =>
    rw [after_data] at hp old hinit ⊢
    have heff := exec_effect he
    have used : s.data.state m ≠ .unused → d.state m ≠ .unused := fun hn hu => by
      rcases heff.freed hu with e | e
      · exact hn e
      · rw [hp] at e
        cases e
    rcases heff.parents m with e | ⟨p, rfl, e⟩ | ⟨p, st, rfl, e, e'⟩ | ⟨e, -⟩
    · rw [e] at hp
      exact ⟨used (hf.parent hp).1, old hp⟩
    · -- `fork` makes the child of a process that is executed
      rw [hp] at e
      cases e
      refine ⟨used (by rw [hi.made_state hc rfl]; simp [madeState]), ?_⟩
      obtain ⟨H, hh, hty⟩ := hi.typed hc
      have hcur := hty.1.1
      have hcode := code_some hcur
      have hrun := (hi.on hcur).2.2
      rw [← hcode, hc] at hrun
      have hl := hi.live_step hd0 (Or.inr (Or.inr (Option.some.inj hrun).symm))
      rw [after_data] at hl
      refine hl.resolve_right fun ⟨_, _, _, hc'⟩ => ?_
      rw [hc] at hc'
      cases hc'
    · rw [hp] at e'
      cases e'
      exact ⟨used (hf.parent e).1, hinit⟩
    · rw [hp] at e
      cases e
  | stop => exact hf.parent hp
  | _ =>
    rw [goto_data] at *
    exact hf.parent hp

/-! ## `wait` asleep -/

theorem Family.calls_step (hi : Inv s) (hs : Sleepers s) (hf : Family s) (hd : Does s h s') (hp : s'.cur k = some p) :
    Calling p (Childless s' p) (s'.proc p) := by
  rcases hi.to_cur hd hp with hk | ⟨rest, hc, -⟩
  swap
  · have hpark := hi.swtchTo_parked hc
    rcases hi.proc_other hd (hpark h) with e | ⟨-, e⟩ <;> rw [e]
    · exact .awake (hs.parked hpark)
    · exact .awake (by simp [sleeps])
  refine hi.calling_step hd hk (hf.calls hk) (fun c lk w hlk hkeep q hq => ?_) fun {i rest is ch sp c lk} hkh hc he
    hm q hq => ?_
  · obtain ⟨h1, rfl, h3⟩ := w q hq
    refine ⟨h1, rfl, ?_⟩
    rcases hkeep with hne | ⟨e, -⟩
    · have hkept := hf.kept hi hd fun i rest hc => by
        cases hkin : kin i with
        | false => rfl
        | true =>
          obtain ⟨H, hh, hty⟩ := hi.typed hc
          have := (hh.lock _).mpr (hty.kin hkin).1
          rw [hlk] at this
          exact absurd (Option.some.inj this) hne
      exact fun m hm hpar hz => h3 m hm (hkept.1 m ▸ hpar) (hkept.2 m hz)
    · unfold NoZombie Data.parent Data.state at *
      rwa [e]
  · rcases exec_awake he with ha | ⟨c', lk', rfl⟩ | ⟨k, m, c', rfl, rfl⟩ | ⟨m, p', rfl, -, rfl⟩ | ⟨p', rfl, rfl⟩
    · cases ha _ hm
    · simp only [exec, next, withProc, Option.some.injEq, Res.ok.injEq] at he
      rw [← he.2.1] at hm
      simp at hm
    · simp only [List.mem_cons, Instr.sleep.injEq, List.not_mem_nil, or_false, reduceCtorEq] at hm
      rw [hq] at hm
      cases hm.1
    · simp only [List.mem_cons, Instr.sleep.injEq, List.not_mem_nil, or_false, reduceCtorEq] at hm
      rw [hq] at hm
      cases hm.1
    · simp only [List.mem_cons, Instr.sleep.injEq, List.not_mem_nil, or_false, reduceCtorEq, false_or] at hm
      subst hkh
      have hcode := code_some hk
      obtain ⟨rfl, hz⟩ := hf.told (p := p) (j := .waitKilled p') (by rw [← hcode, hc]; exact List.mem_cons_self)
      rw [hm.1] at hq
      cases hq
      simp only [exec, next, Option.some.injEq, Res.ok.injEq] at he
      exact ⟨rfl, hm.2, by rw [← he.1]; exact hz⟩

/-- What `wait` knew when it released `wait_lock`. -/
theorem Family.told_release (hf : Family s) {r : List Instr} (hp : s.cur h = some p)
    (hc : s.code h = .release lk :: .setChan p (.proc q) lk :: r) : q = p ∧ lk = .wait ∧ NoZombie s.data NPROC p := by
  have hca := hf.calls hp
  have hcode := code_some hp
  rw [← hcode, hc] at hca
  exact hca.told q rfl

theorem Family.settled_step (hi : Inv s) (hs : Sleepers s) (hf : Family s) (hd : Does s h s')
    (hz : s'.data.state m = .zombie) (hp : s'.data.parent m = some q) : Settled s' (.proc q) .wait := by
  rcases hi.zombie_step hd hz with hz0 | ⟨st, rest, hcur, hc⟩
  · by_cases hp0 : s.data.parent m = some q
    · refine Process.settled_step hi hs hd (hf.settled hz0 hp0) fun p r hcur hc => ?_
      obtain ⟨rfl, -, hn⟩ := hf.told_release hcur hc
      exact hn m (hf.parent_lt hs hp0) hp0 hz0
    · cases hd with
      | @exec i rest is ch d sp hc hx he =>
        rw [after_data] at hp
        rcases (exec_effect he).parents m with e | ⟨p, rfl, -⟩ | ⟨p, st, rfl, e, e'⟩ | ⟨e, -⟩
        · exact absurd (e ▸ hp) hp0
        · have := hi.made_state hc (q := m) rfl
          rw [hz0] at this
          cases this
        · -- `reparent` wakes `initproc`
          rw [hp] at e'
          cases e'
          have hcode := hi.after_code hc he
          have hm : m < NPROC := hf.parent_lt hs e
          simp only [exec, next, if_pos hm] at he
          rw [if_pos (show (s.data.procs m).parent = some p from e)] at he
          cases he
          exact Or.inr ⟨h, _, by rw [hcode]; exact List.mem_cons_self, 0, [.wait], rfl, by simp⟩
        · rw [hp] at e
          cases e
      | stop => exact absurd hp hp0
      | _ => exact absurd (by simpa using hp) hp0
  · have hp0 : s.data.parent m = some q := by
      cases hd with
      | @exec i rest' is ch d sp hc' hx he =>
        rw [hc] at hc'
        cases hc'
        rw [after_data] at hp
        rcases (exec_effect he).parents m with e | ⟨p, e, -⟩ | ⟨p, st, e, -⟩ | ⟨e, -⟩
        · exact e ▸ hp
        · cases e
        · cases e
        · rw [hp] at e
          cases e
      | stop => exact hp
      | _ => simpa using hp
    refine Process.settled_step hi hs hd ((hf.told_zombie hcur hc).2.2 q hp0) fun p r _ e => ?_
    rw [hc] at e
    cases e

theorem init_family : Family init := by
  have hp : ∀ p, init.proc p = [.forkret] ∨ init.proc p = [] := fun p => by
    by_cases e : p = initproc <;> simp [init, e]
  have hnone : ∀ m, init.data.parent m = none := fun m => by
    by_cases e : m = initproc <;> simp [init, Data.parent, bootProcs, Proc.zero, e]
  refine ⟨Or.inr (Or.inl rfl), fun {i q} h => ?_, fun {p j} hj => ?_, (fun h => by cases h), fun {p q lk} hc => ?_,
    fun {i q} _ h => ?_⟩
  · rw [hnone] at h
    cases h
  · rcases hp p with e | e <;> rw [e] at hj
    · rw [List.mem_singleton.mp hj]
      exact trivial
    · exact absurd hj List.not_mem_nil
  · exact absurd hc (by rcases hp p with e | e <;> exact not_committed (by rw [e]; rfl) (by rw [e]; rfl))
  · rw [hnone] at h
    cases h

theorem family_step (hi : Inv s) (hs : Sleepers s) (hf : Family s) (hd : Does s h s') : Family s' where
  init := hf.init_step hi hd
  parent := hf.parent_step hi hd
  told := hf.told_step hi hs hd
  calls := hf.calls_step hi hs hd
  lock hc := by
    rcases committed_step hi hd hc with hc | ⟨hp, r, e, -⟩
    · exact hf.lock hc
    · obtain ⟨h1, h2, -⟩ := hf.told_release hp e
      exact ⟨h1, h2⟩
  settled := hf.settled_step hi hs hd

theorem family (hr : Reach s) : Family s := by
  induction hr with
  | init => exact init_family
  | step e hr _ hs ih =>
    obtain ⟨h, hd⟩ := step_does (inv hr) hs
    exact family_step (inv hr) (sleepers hr) ih hd

end Xv6.Process
