/-
  Xv6.Process.Inv — the invariant of `Xv6.Process.Sched`, and that the steps which leave the data
  alone keep it: lock operations, the interrupt flag, `sched` and `swtch`.

  `Inv` says, for every hart, which locks it holds and that its thread is typed for them
  (`Holds`); for a hart that executes a process, that `p->state` is what the thread's next
  instruction says it is (`leaves`); for a hart in its scheduler, what `c->proc` is; and for a
  process no hart executes, that its saved thread is typed for holding `p->lock`, which is how
  `swtch` will find it (`Parked`).
-/
import Xv6.Process.Locks

namespace Xv6.Process

def handing : List Instr → Option Nat
  | .setProc (some i) :: _ => some i
  | .swtchTo i :: _ => some i
  | _ => none

def returned : List Instr → Option Nat
  | .setProc none :: .release (.proc i) :: _ => some i
  | _ => none

def cproc : List Instr → Option Nat
  | .swtchTo i :: _ => some i
  | .setProc none :: .release (.proc i) :: _ => some i
  | _ => none

/-- The thread of a process that is not executed and is not a ZOMBIE. -/
def Starts (p : Nat) (is : List Instr) : Prop :=
  is = [.forkret] ∨ ∃ b r, is = .setIntena b :: r ∧
    ((∃ r', r = .release (.proc p) :: r') ∨ ∃ c lk r', r = .tidy p c lk :: .release (.proc p) :: r')

def Asleep (p : Nat) (is : List Instr) : Prop := ∃ b c lk r, is = .setIntena b :: .tidy p c lk :: r

structure Holds (s : St) (h : Nat) (H : List Lock) : Prop where
  nodup : H.Nodup
  lock : ∀ l, s.lock l = some h ↔ l ∈ H
  noff : (s.harts h).noff = H.length
  intr : (s.harts h).intr = true → H = []
  typed : Typed (s.cur h) H (s.code h)

structure Parked (s : St) (p : Nat) : Prop where
  needs : needs (s.proc p) = []
  typed : s.data.state p = .sleeping ∨ s.data.state p = .runnable ∨ s.data.state p = .running →
    Typed (some p) [.proc p] (s.proc p) ∧ Starts p (s.proc p)
  asleep : s.data.state p = .sleeping → Asleep p (s.proc p)
  handed : s.data.state p = .running → ∃ h, s.cur h = none ∧ handing (s.sched h) = some p

structure SchedAt (s : St) (h : Nat) : Prop where
  proc : (s.harts h).proc = cproc (s.sched h)
  hand : ∀ i, handing (s.sched h) = some i → s.data.state i = .running ∧ ∀ k, s.cur k ≠ some i
  ret : ∀ i, returned (s.sched h) = some i → ∀ k, s.cur k ≠ some i

/-- What a slot `fork` is working on looks like before instruction `j`. -/
def MadeOk (s : St) (i : Nat) : Instr → Prop
  | .takePid _ _ => s.data.state i = .unused
  | .setUsed _ _ _ => s.data.state i = .unused
  | .allocMem _ _ => s.data.state i = .used
  | _ => s.data.state i = .used ∧ s.proc i = [.forkret]

structure Inv (s : St) : Prop where
  holds : ∀ h, ∃ H, Holds s h H
  cur : ∀ {h k p}, s.cur h = some p → s.cur k = some p → h = k
  on : ∀ {h p}, s.cur h = some p →
    (s.harts h).proc = some p ∧ s.sched h = back p ∧ leaves (s.proc p) = some (s.data.state p)
  off : ∀ {h}, s.cur h = none → SchedAt s h
  parked : ∀ {p}, (∀ h, s.cur h ≠ some p) → Parked s p
  made : ∀ {p j i}, j ∈ s.proc p → makes j = some i → s.data.maker i = some p ∧ MadeOk s i j
  fine : s.panic = none ∨ s.panic = some .initExiting

theorem init_inv : Inv init := by
  refine ⟨fun h => ⟨[], ?_⟩, ?_, ?_, ?_, ?_, ?_, Or.inl rfl⟩
  · exact ⟨.nil, by simp [init], rfl, fun _ => rfl, by simp [init, St.code, Typed, pre, base, post]⟩
  · intro h k p hp
    cases hp
  · intro h p hp
    cases hp
  · intro h _
    exact ⟨rfl, by simp [init, handing], by simp [init, returned]⟩
  · intro p _
    by_cases hp : p = initproc
    · refine ⟨by simp [init, hp, base], fun _ => ⟨?_, Or.inl (by simp [init, hp])⟩, ?_, ?_⟩ <;>
        simp [init, hp, Data.state, bootProcs, Typed, pre, base, post]
    · refine ⟨by simp [init, hp], ?_, ?_, ?_⟩ <;> simp [init, hp, Data.state, bootProcs, Proc.zero]
  · intro p j i hj hm
    by_cases hp : p = initproc <;> simp [init, hp] at hj
    rw [hj] at hm
    cases hm

theorem code_some {s : St} {h p : Nat} (hp : s.cur h = some p) : s.code h = s.proc p := by simp [St.code, hp]

theorem code_none {s : St} {h : Nat} (hp : s.cur h = none) : s.code h = s.sched h := by simp [St.code, hp]

/-- The locks of a hart, and its thread typed for them. -/
theorem Inv.typed {s : St} {h : Nat} {is : List Instr} (hi : Inv s) (hc : s.code h = is) :
    ∃ H, Holds s h H ∧ Typed (s.cur h) H is := by
  obtain ⟨H, hh⟩ := hi.holds h
  exact ⟨H, hh, hc ▸ hh.typed⟩

/-! ## Moving one thread -/

section Goto

variable (s : St) (h : Nat) (is : List Instr)

@[simp] theorem goto_data : (s.goto h is).data = s.data := by unfold St.goto; split <;> rfl
@[simp] theorem goto_harts : (s.goto h is).harts = s.harts := by unfold St.goto; split <;> rfl
@[simp] theorem goto_lock : (s.goto h is).lock = s.lock := by unfold St.goto; split <;> rfl
@[simp] theorem goto_cur : (s.goto h is).cur = s.cur := by unfold St.goto; split <;> rfl
@[simp] theorem goto_panic : (s.goto h is).panic = s.panic := by unfold St.goto; split <;> rfl

theorem goto_sched : (s.goto h is).sched = if s.cur h = none then upd s.sched h is else s.sched := by
  unfold St.goto
  split
  · rename_i e; simp [e]
  · rename_i e; simp [e]

theorem goto_proc (p : Nat) : (s.goto h is).proc p = if s.cur h = some p then is else s.proc p := by
  unfold St.goto
  split
  · rename_i e; simp [e]
  · rename_i q e
    by_cases hp : p = q
    · simp [e, hp]
    · simp [e, hp, Ne.symm hp]

@[simp] theorem goto_code : (s.goto h is).code h = is := by
  unfold St.code
  rw [goto_cur]
  split
  · rename_i e; simp [goto_sched, e]
  · rename_i p e; simp [goto_proc, e]

end Goto

variable {s s' : St} {h k p q : Nat} {H K : List Lock} {l : Lock} {is rest : List Instr} {i : Instr}

/-- What a step of hart `h` that does not switch threads leaves alone. `fork` may reset the
    context of the slot it is working on. -/
structure Frame (s s' : St) (h : Nat) : Prop where
  cur : s'.cur = s.cur
  harts : ∀ k, k ≠ h → s'.harts k = s.harts k
  lock : ∀ k, k ≠ h → ∀ l, s'.lock l = some k ↔ s.lock l = some k
  sched : ∀ k, k ≠ h ∨ s.cur h ≠ none → s'.sched k = s.sched k
  proc : ∀ p, s.cur h ≠ some p → s'.proc p = s.proc p ∨ (s.data.state p = .used ∧ s'.proc p = [.forkret])

theorem Inv.used_off (hi : Inv s) (hp : s.data.state p = .used) : ∀ k, s.cur k ≠ some p := fun k hk => by
  have := (hi.on hk).2.2
  rw [hp] at this
  unfold leaves after at this
  repeat' split at this
  all_goals cases this

/-- The other harts. -/
theorem Frame.holds (f : Frame s s' h) (hi : Inv s) (hk : k ≠ h) (hh : Holds s k K) : Holds s' k K := by
  have hcode : s'.code k = s.code k := by
    unfold St.code
    rw [f.cur]
    cases hc : s.cur k with
    | none => exact f.sched k (Or.inl hk)
    | some p =>
      rcases f.proc p fun e => hk (hi.cur hc e) with e | ⟨hu, -⟩
      · exact e
      · exact absurd hc (hi.used_off hu k)
  refine ⟨hh.nodup, fun l => (f.lock k hk l).trans (hh.lock l), ?_, ?_, ?_⟩
  · rw [f.harts k hk]; exact hh.noff
  · rw [f.harts k hk]; exact hh.intr
  · rw [f.cur, hcode]; exact hh.typed

/-- A process on its way out of the hart holds its own lock. -/
theorem leaving_holds (ht : Typed (some p) H is) (hl : leaves is ≠ some .running) : .proc p ∈ H := by
  unfold leaves at hl
  split at hl
  · obtain ⟨⟨q, hq, hH, _⟩, _⟩ := ht
    cases hq
    simp [hH]
  · obtain ⟨⟨q, hq, hH, _⟩, _⟩ := ht
    cases hq
    simp [hH]
  · obtain ⟨-, -, ⟨q, hq, hH, -⟩, -⟩ := ht
    cases hq
    have hm : Lock.proc p ∈ H.erase .wait := by
      rw [show H.erase .wait = [Lock.proc p] from hH]
      simp
    exact List.mem_of_mem_erase hm
  · obtain ⟨⟨q, hq, hH, _⟩, _⟩ := ht
    cases hq
    simp [hH]
  · obtain ⟨⟨q, hq, hH⟩, _⟩ := ht
    cases hq
    simp [hH]
  · exact absurd rfl hl

/-- A thread that holds nothing is in the middle of nothing. -/
theorem Typed.quiet {me : Option Nat} (ht : Typed me [] is) : Quiet is := by
  cases is with
  | nil => exact quiet_nil
  | cons i r =>
    refine quiet_cons.mpr ?_
    obtain ⟨hp, -, -⟩ := ht
    cases i with
    | release l => exact absurd hp.1 List.not_mem_nil
    | sched | swtchBack | setIntena b =>
      obtain ⟨p, -, hH, -⟩ := hp
      cases hH
    | setChan p c lk => cases hp.2.1
    | nap p c lk => cases hp.2.1
    | setProc p =>
      cases p with
      | none =>
        obtain ⟨-, i, hH, -⟩ := hp
        cases hH
      | some i => cases hp.2.1
    | swtchTo p => cases hp.2.1
    | zombieExit =>
      obtain ⟨p, -, hH⟩ := hp
      cases hH
    | _ => exact trivial

/-- Another hart cannot change the state of a process this hart executes. -/
theorem Inv.state_kept (hi : Inv s) (hk : s.cur k = some p) (hne : k ≠ h) (hl : s.lock (.proc p) = some h) :
    s.data.state p = .running := by
  by_contra hr
  obtain ⟨K, hK⟩ := hi.holds k
  have ht := hK.typed
  simp only [hk, St.code] at ht
  have hm := leaving_holds ht (by rw [(hi.on hk).2.2]; simpa using hr)
  have := (hK.lock _).mpr hm
  rw [hl] at this
  exact hne (Option.some.inj this).symm

/-- A step of hart `h` that does not switch threads keeps the invariant, if it does for the hart
    itself, and changes the state of another process only under that process's lock. -/
theorem Inv.frame (hi : Inv s) (f : Frame s s' h) (hH : ∃ H', Holds s' h H')
    (hon : ∀ {p}, s.cur h = some p → (s'.harts h).proc = some p ∧ leaves (s'.proc p) = some (s'.data.state p))
    (hoff : s.cur h = none → SchedAt s' h)
    (hhand : s.cur h = none → ∀ q, handing (s.sched h) = some q → handing (s'.sched h) = some q)
    (hstate : ∀ q, s.cur h ≠ some q → s'.data.state q = s.data.state q ∨
      (s.lock (.proc q) = some h ∧ s.data.state q ≠ .running ∧ ((∀ k, s.cur k ≠ some q) → Parked s' q)))
    (hmade : ∀ {p j i}, j ∈ s'.proc p → makes j = some i → s'.data.maker i = some p ∧ MadeOk s' i j)
    (hfine : s'.panic = none ∨ s'.panic = some .initExiting) : Inv s' := by
  refine ⟨fun k => ?_, fun {k j p} hk hj => ?_, fun {k p} hk => ?_, fun {k} hk => ?_, fun {p} hp => ?_, hmade, hfine⟩
  · by_cases hkh : k = h
    · rw [hkh]; exact hH
    · obtain ⟨K, hK⟩ := hi.holds k
      exact ⟨K, f.holds hi hkh hK⟩
  · rw [f.cur] at hk hj
    exact hi.cur hk hj
  · rw [f.cur] at hk
    by_cases hkh : k = h
    · rw [hkh] at hk ⊢
      obtain ⟨h1, h2⟩ := hon hk
      exact ⟨h1, (f.sched h (Or.inr (by simp [hk]))).trans (hi.on hk).2.1, h2⟩
    · have hc : s.cur h ≠ some p := fun e => hkh (hi.cur hk e)
      obtain ⟨h1, h2, h3⟩ := hi.on hk
      have hp : s'.proc p = s.proc p := (f.proc p hc).resolve_right fun hu => hi.used_off hu.1 k hk
      rw [f.harts k hkh, f.sched k (Or.inl hkh), hp]
      refine ⟨h1, h2, ?_⟩
      rcases hstate p hc with e | ⟨hl, hr, _⟩
      · rw [e]; exact h3
      · exact absurd (hi.state_kept hk hkh hl) hr
  · rw [f.cur] at hk
    by_cases hkh : k = h
    · rw [hkh] at hk ⊢
      exact hoff hk
    · have ho := hi.off hk
      have hs := f.sched k (Or.inl hkh)
      refine ⟨by rw [f.harts k hkh, hs]; exact ho.proc, fun i hi' => ?_, fun i hi' => ?_⟩
      · rw [hs] at hi'
        obtain ⟨h1, h2⟩ := ho.hand i hi'
        refine ⟨?_, by rw [f.cur]; exact h2⟩
        rcases hstate i (h2 h) with e | ⟨_, hr, _⟩
        · rw [e]; exact h1
        · exact absurd h1 hr
      · rw [hs] at hi'
        rw [f.cur]; exact ho.ret i hi'
  · rw [f.cur] at hp
    rcases hstate p (hp h) with e | ⟨_, _, hP⟩
    · have hP := hi.parked hp
      rcases f.proc p (hp h) with hs | ⟨hu, hs⟩
      · refine ⟨by rw [hs]; exact hP.needs, by rw [e, hs]; exact hP.typed, by rw [e, hs]; exact hP.asleep, fun hr => ?_⟩
        rw [e] at hr
        obtain ⟨k, hk, hh⟩ := hP.handed hr
        refine ⟨k, by rw [f.cur]; exact hk, ?_⟩
        by_cases hkh : k = h
        · rw [hkh] at hk hh ⊢
          exact hhand hk p hh
        · rw [f.sched k (Or.inl hkh)]; exact hh
      · refine ⟨by rw [hs]; rfl, ?_, ?_, ?_⟩ <;> simp [e, hu]
    · exact hP hp

/-! ## Steps that leave the data alone -/

structure Same (is is' : List Instr) : Prop where
  leaves : leaves is' = leaves is
  cproc : cproc is' = cproc is
  handing : handing is' = handing is
  returned : returned is' = returned is

theorem Quiet.cproc (hq : Quiet is) : cproc is = none := by
  unfold Process.cproc
  split
  · exact absurd rfl (hq.swtchTo _ _)
  · exact absurd rfl (hq.setProc _ _)
  · rfl

theorem Quiet.handing (hq : Quiet is) : handing is = none := by
  unfold Process.handing
  split
  · exact absurd rfl (hq.setProc _ _)
  · exact absurd rfl (hq.swtchTo _ _)
  · rfl

theorem Quiet.returned (hq : Quiet is) : returned is = none := by
  unfold Process.returned
  split
  · exact absurd rfl (hq.setProc _ _)
  · rfl

theorem Quiet.same {is' : List Instr} (hq : Quiet is) (hq' : Quiet is') : Same is is' :=
  ⟨by rw [hq.leaves, hq'.leaves], by rw [hq.cproc, hq'.cproc], by rw [hq.handing, hq'.handing],
    by rw [hq.returned, hq'.returned]⟩

theorem MadeOk.mono {j : Instr} {m : Nat} (hk : MadeOk s m j) (hs : s'.data.state m = s.data.state m)
    (hf : s.data.state m = .used → s.proc m = [.forkret] → s'.proc m = [.forkret]) : MadeOk s' m j := by
  cases j with
  | takePid | setUsed | allocMem => exact hs.trans hk
  | _ => exact ⟨hs.trans hk.1, hf hk.1 hk.2⟩

theorem Inv.made_kept (hi : Inv s) {j : Instr} {i : Nat} (hp : ∀ q, s.cur h ≠ some q → s'.proc q = s.proc q)
    (hd : s'.data = s.data) (hj : j ∈ s.proc p) (hm : makes j = some i) : s'.data.maker i = some p ∧ MadeOk s' i j := by
  obtain ⟨h1, h2⟩ := hi.made hj hm
  refine ⟨by rw [hd]; exact h1, h2.mono (by rw [hd]) fun hu hf => ?_⟩
  rw [hp i (hi.used_off hu h)]
  exact hf

theorem frame_goto (is : List Instr) {c : Hart} {L : Lock → Option Nat}
    (hL : ∀ k, k ≠ h → ∀ l, L l = some k ↔ s.lock l = some k) :
    Frame s ({ s with harts := upd s.harts h c, lock := L }.goto h is) h := by
  refine ⟨goto_cur _ _ _, fun k hk => ?_, fun k hk l => ?_, fun k hk => ?_, fun p hp => Or.inl ?_⟩
  · rw [goto_harts]; exact upd_ne hk _
  · rw [goto_lock]; exact hL k hk l
  · rw [goto_sched]
    dsimp only
    split
    · rename_i e
      exact upd_ne (hk.resolve_right fun hne => hne e) _
    · rfl
  · rw [goto_proc]
    exact if_neg hp

/-- Locks, the hart's own flags and its thread. -/
theorem Inv.local (hi : Inv s) {c : Hart} {L : Lock → Option Nat}
    (hL : ∀ k, k ≠ h → ∀ l, L l = some k ↔ s.lock l = some k)
    (hc : c.proc = (s.harts h).proc) (hn : H.Nodup) (hl : ∀ l, L l = some h ↔ l ∈ H) (ho : c.noff = H.length)
    (hr : c.intr = true → H = []) (ht : Typed (s.cur h) H is) (hsame : Same (s.code h) is)
    (hsub : ∀ j ∈ is, makes j ≠ none → j ∈ s.code h) :
      Inv ({ s with harts := upd s.harts h c, lock := L }.goto h is) := by
  have hf := frame_goto is (c := c) hL
  refine hi.frame hf
    ⟨H, hn, by simpa using hl, by simpa using ho, by simpa using hr, by rw [goto_code, goto_cur]; exact ht⟩
    (fun {p} hp => ?_) (fun hp => ?_) (fun hp q hq => ?_) (fun q _ => Or.inl (by simp)) (fun {p j i} hj hm => ?_)
      (by simpa using hi.fine)
  · obtain ⟨h1, -, h3⟩ := hi.on hp
    refine ⟨by simpa [hc] using h1, ?_⟩
    have hcode := code_some hp
    rw [goto_proc, goto_data, if_pos hp, hsame.leaves, hcode]
    exact h3
  · obtain ⟨h1, h2, h3⟩ := hi.off hp
    have hcode := code_none hp
    refine ⟨?_, ?_, ?_⟩ <;> simp only [goto_sched, goto_harts, goto_data, goto_cur, if_pos hp, upd_same]
    · rw [hc, hsame.cproc, hcode]; exact h1
    · rw [hsame.handing, hcode]; exact h2
    · rw [hsame.returned, hcode]; exact h3
  · have hcode := code_none hp
    simp only [goto_sched, if_pos hp, upd_same]
    rw [hsame.handing, hcode]; exact hq
  · have keep : ∀ q, s.cur h ≠ some q → ({ s with harts := upd s.harts h c, lock := L }.goto h is).proc q = s.proc q :=
      fun q hq => by rw [goto_proc]; exact if_neg hq
    rw [goto_proc] at hj
    dsimp only at hj
    split at hj
    · rename_i hp
      have hcode := code_some hp
      exact hi.made_kept keep (goto_data _ _ _) (hcode ▸ hsub j hj (by simp [hm])) hm
    · exact hi.made_kept keep (goto_data _ _ _) hj hm

/-- Only the hart's own flags change. -/
theorem Inv.flags (hi : Inv s) (hh : Holds s h H) {c : Hart} (hc : c.proc = (s.harts h).proc)
    (ho : c.noff = (s.harts h).noff)
    (hr : c.intr = true → H = []) (ht : Typed (s.cur h) H is) (hsame : Same (s.code h) is)
    (hsub : ∀ j ∈ is, makes j ≠ none → j ∈ s.code h) : Inv ((s.setHart h c).goto h is) :=
  hi.local (L := s.lock) (fun _ _ _ => Iff.rfl) hc hh.nodup hh.lock (ho.trans hh.noff) hr ht hsame hsub

theorem acquire_inv {t : St} (hi : Inv s) (hc : s.code h = .acquire l :: rest) (ht : s.acquire h l = some t) :
    Inv (t.goto h rest) := by
  obtain ⟨H, hh, hty⟩ := hi.typed hc
  obtain ⟨⟨hl, -, hq⟩, -, hr⟩ := hty
  have hne : s.lock l ≠ some h := fun e => hl ((hh.lock l).mp e)
  have hq0 : Quiet (s.code h) := by rw [hc]; exact quiet_cons.mpr trivial
  unfold St.acquire at ht
  simp only [St.setHart] at ht
  split at ht
  · rename_i hfree
    cases ht
    refine hi.local (H := l :: H) (fun k hk l' => ?_) rfl (List.nodup_cons.mpr ⟨hl, hh.nodup⟩) (fun l' => ?_) ?_
      (by simp [Hart.pushOff]) hr (hq0.same hq) fun j hj _ => by rw [hc]; exact List.mem_cons_of_mem _ hj
    · by_cases e : l' = l
      · simp [e, hfree, Ne.symm hk]
      · simp [e]
    · by_cases e : l' = l
      · simp [e]
      · simp only [e, if_false, List.mem_cons, false_or]
        exact hh.lock l'
    · simp [Hart.pushOff, hh.noff]
  · rename_i k hk
    split at ht
    · rename_i e
      exact absurd (e ▸ hk) hne
    · cases ht

theorem release_inv (hi : Inv s) (hc : s.code h = .release l :: rest) : Inv ((s.release h l).goto h rest) := by
  obtain ⟨H, hh, hty⟩ := hi.typed hc
  obtain ⟨⟨hl, hrest⟩, -, hr⟩ := hty
  have hown : s.lock l = some h := (hh.lock l).mpr hl
  have hintr : (s.harts h).intr = false := by
    cases e : (s.harts h).intr with
    | false => rfl
    | true =>
      rw [hh.intr e] at hl
      exact absurd hl List.not_mem_nil
  have hpos : 0 < H.length := List.length_pos_of_mem hl
  have hlen := List.length_erase_of_mem hl
  have hsame : Same (s.code h) rest := by
    rw [hc]
    rcases hrest with hq | ⟨rfl, r, rfl⟩ | ⟨p, c, r, rfl⟩
    · exact hq.release.same hq
    · exact ⟨rfl, rfl, rfl, rfl⟩
    · refine ⟨?_, rfl, rfl, rfl⟩
      cases l <;> rfl
  simp only [St.release, hown, ne_eq, not_true_eq_false, if_false, St.setLock, Hart.popOff, hintr,
    Bool.false_eq_true, hh.noff, show ¬ H.length < 1 by omega]
  refine hi.local (H := H.erase l) (fun k hk l' => ?_) rfl (hh.nodup.erase l) (fun l' => ?_) ?_ (fun e => ?_) hr hsame
    fun j hj _ => by rw [hc]; exact List.mem_cons_of_mem _ hj
  · by_cases e : l' = l
    · simp [e, hown, Ne.symm hk]
    · simp [e]
  · by_cases e : l' = l
    · simp [e, hh.nodup.not_mem_erase]
    · simp only [e, if_false, hh.nodup.mem_erase_iff, ne_eq, not_false_eq_true, true_and]
      exact hh.lock l'
  · simp [hlen]
  · simp only [Bool.and_eq_true, decide_eq_true_eq] at e
    exact List.eq_nil_of_length_eq_zero (by rw [hlen]; exact e.1)

theorem sched_inv (hi : Inv s) (hc : s.code h = .sched :: rest) :
    schedCheck s h = none ∧ Inv (s.goto h (.swtchBack :: .setIntena (s.harts h).intena :: rest)) := by
  obtain ⟨H, hh, hty⟩ := hi.typed hc
  obtain ⟨⟨p, hp, rfl, hres⟩, -, hr⟩ := hty
  obtain ⟨hproc, -, hst⟩ := hi.on hp
  have hcode := code_some hp
  have hlock : s.lock (.proc p) = some h := (hh.lock _).mpr (by simp)
  have hintr : (s.harts h).intr = false := by
    cases e : (s.harts h).intr with
    | false => rfl
    | true => cases hh.intr e
  have hrun : s.data.state p ≠ .running := by
    intro e
    rw [← hcode, hc, e] at hst
    rcases hres with ⟨r, rfl⟩ | ⟨c, lk, r, rfl⟩ | ⟨r, rfl⟩ <;> cases hst
  refine ⟨by simp [schedCheck, hproc, hlock, hh.noff, hrun, hintr], ?_⟩
  have : Inv ((s.setHart h (s.harts h)).goto h (.swtchBack :: .setIntena (s.harts h).intena :: rest)) :=
    hi.flags hh rfl rfl hh.intr ?_ ?_ ?_
  · rwa [St.setHart, upd_self] at this
  · rw [hp]
    exact ⟨⟨p, rfl, rfl, _, _, rfl⟩, by simp [base], ⟨p, rfl, rfl, hres⟩, by simp [base], hp ▸ hr⟩
  · rw [hc]
    exact ⟨rfl, rfl, rfl, rfl⟩
  · intro j hj hm
    rw [hc]
    simp only [List.mem_cons] at hj
    rcases hj with rfl | rfl | hj
    · exact absurd rfl hm
    · exact absurd rfl hm
    · exact List.mem_cons_of_mem _ hj

theorem setProc_inv {x : Option Nat} (hi : Inv s) (hc : s.code h = .setProc x :: rest) :
    Inv ((s.setHart h { s.harts h with proc := x }).goto h rest) := by
  obtain ⟨H, hh, hty⟩ := hi.typed hc
  obtain ⟨hpre, -, hr⟩ := hty
  have hcur : s.cur h = none := by cases x <;> exact hpre.1
  have hcode := code_none hcur
  have ho := hi.off hcur
  rw [hcode] at hc
  have hf := frame_goto (s := s) (h := h) rest (c := { s.harts h with proc := x }) (L := s.lock) fun _ _ _ => Iff.rfl
  have hmade : ∀ {p j i}, j ∈ (({ s with harts := upd s.harts h { s.harts h with proc := x } } : St).goto h rest).proc p
      → makes j = some i → s.data.maker i = some p ∧
        MadeOk (({ s with harts := upd s.harts h { s.harts h with proc := x } } : St).goto h rest) i j :=
        fun {p j i} hj hm => by
    have keep : ∀ q, (({ s with harts := upd s.harts h { s.harts h with proc := x } } : St).goto h rest).proc q
        = s.proc q :=
      fun q => by rw [goto_proc]; simp [hcur]
    rw [keep] at hj
    have := hi.made_kept (h := h) (fun q _ => keep q) (goto_data _ _ _) hj hm
    rwa [goto_data] at this
  unfold St.setHart
  refine hi.frame hf ⟨H, hh.nodup, by simpa using hh.lock, by simpa using hh.noff, by simpa using hh.intr,
      by rw [goto_code, goto_cur]; exact hr⟩
    (fun {p} hp => by rw [hcur] at hp; cases hp) (fun _ => ?_) (fun _ q hq => ?_) (fun q _ => Or.inl (by simp))
      (fun hj hm => by rw [goto_data]; exact hmade hj hm) (by simpa using hi.fine)
  · refine ⟨?_, ?_, ?_⟩ <;> simp only [goto_sched, goto_harts, goto_data, goto_cur, hcur, if_true, upd_same]
    · cases x with
      | none =>
        obtain ⟨-, i, -, rfl⟩ := hpre
        rfl
      | some i =>
        obtain ⟨-, -, rfl⟩ := hpre
        rfl
    · intro j hj
      cases x with
      | none =>
        obtain ⟨-, i, -, rfl⟩ := hpre
        cases hj
      | some i =>
        obtain ⟨-, -, rfl⟩ := hpre
        cases hj
        exact ho.hand _ (by rw [hc]; rfl)
    · intro j hj
      cases x with
      | none =>
        obtain ⟨-, i, -, rfl⟩ := hpre
        cases hj
      | some i =>
        obtain ⟨-, -, rfl⟩ := hpre
        cases hj
  · simp only [goto_sched, hcur, if_true, upd_same]
    rw [hc] at hq
    cases x with
    | none => cases hq
    | some i =>
      obtain ⟨-, -, rfl⟩ := hpre
      exact hq

/-! ## `swtch` -/

/-- A scheduler between two processes holds the lock of the one it is at. -/
theorem Inv.busy_lock (hi : Inv s) (hk : s.cur k = none) {i : Nat}
    (hb : handing (s.sched k) = some i ∨ returned (s.sched k) = some i) : s.lock (.proc i) = some k := by
  obtain ⟨K, hh⟩ := hi.holds k
  have hty := hh.typed
  simp only [St.code, hk] at hty
  refine (hh.lock _).mpr ?_
  unfold handing returned at hb
  rcases hb with hb | hb <;> split at hb
  · cases hb
    rename_i e
    rw [e] at hty
    simp [hty.1.2.1]
  · cases hb
    rename_i e
    rw [e] at hty
    simp [hty.1.2.1]
  · cases hb
  · cases hb
    rename_i e
    rw [e] at hty
    obtain ⟨-, j, hK, hr⟩ := hty.1
    cases hr
    simp [hK]
  · cases hb

theorem swtchTo_inv {i : Nat} (hi : Inv s) (hc : s.code h = .swtchTo i :: rest) :
    Inv { s.goto h rest with cur := upd s.cur h (some i) } := by
  obtain ⟨H, hh, hty⟩ := hi.typed hc
  obtain ⟨⟨hcur, rfl, rfl⟩, -, -⟩ := hty
  have hcode := code_none hcur
  rw [hcode] at hc
  have ho := hi.off hcur
  obtain ⟨hrun, hnone⟩ := ho.hand i (by rw [hc]; rfl)
  obtain ⟨hpt, hps⟩ := (hi.parked hnone).typed (Or.inr (Or.inr hrun))
  have hlock : s.lock (.proc i) = some h := (hh.lock _).mpr (by simp)
  have hsched : ∀ k, k ≠ h → (s.goto h (back i)).sched k = s.sched k := fun k hk => by simp [goto_sched, hcur, hk]
  have hproc : (s.goto h (back i)).proc = s.proc := by
    funext q
    simp [goto_proc, hcur]
  refine ⟨fun k => ?_, fun {k j p} hk hj => ?_, fun {k p} hk => ?_, fun {k} hk => ?_, fun {p} hp => ?_,
    fun {p j m} hj hm => ?_, by simpa using hi.fine⟩
  · by_cases hkh : k = h
    · subst hkh
      refine ⟨[.proc i], hh.nodup, by simpa using hh.lock, by simpa using hh.noff, by simpa using hh.intr, ?_⟩
      simp only [St.code, upd_same, hproc]
      exact hpt
    · obtain ⟨K, hK⟩ := hi.holds k
      refine ⟨K, hK.nodup, by simpa using hK.lock, by simpa using hK.noff, by simpa using hK.intr, ?_⟩
      have ht := hK.typed
      simp only [St.code, upd_ne hkh, hproc, hsched k hkh] at ht ⊢
      exact ht
  · dsimp only at hk hj
    by_cases hkh : k = h <;> by_cases hjh : j = h
    · rw [hkh, hjh]
    · rw [hkh, upd_same] at hk
      rw [upd_ne hjh, ← hk] at hj
      exact absurd hj (hnone j)
    · rw [hjh, upd_same] at hj
      rw [upd_ne hkh, ← hj] at hk
      exact absurd hk (hnone k)
    · rw [upd_ne hkh] at hk
      rw [upd_ne hjh] at hj
      exact hi.cur hk hj
  · dsimp only at hk
    by_cases hkh : k = h
    · rw [hkh, upd_same] at hk
      cases hk
      refine ⟨?_, ?_, ?_⟩
      · rw [goto_harts, hkh, ho.proc, hc]
        rfl
      · simp [goto_sched, hcur, hkh]
      · simp only [hproc, goto_data, hrun]
        rcases hps with e | ⟨b, r, e, ⟨r', rfl⟩ | ⟨c, lk, r', rfl⟩⟩ <;> rw [e] <;> rfl
    · rw [upd_ne hkh] at hk
      simp only [goto_harts, goto_data, hproc, hsched k hkh]
      exact hi.on hk
  · dsimp only at hk
    by_cases hkh : k = h
    · rw [hkh, upd_same] at hk
      cases hk
    · rw [upd_ne hkh] at hk
      have hok := hi.off hk
      -- another scheduler is not at `i`: this hart holds its lock
      have hne : ∀ j, handing (s.sched k) = some j ∨ returned (s.sched k) = some j → j ≠ i := fun j hj e => by
        have := hi.busy_lock hk hj
        rw [e, hlock] at this
        exact hkh (Option.some.inj this).symm
      refine ⟨?_, ?_, ?_⟩ <;> simp only [goto_harts, goto_data, hsched k hkh]
      · exact hok.proc
      · intro j hj
        refine ⟨(hok.hand j hj).1, fun m => ?_⟩
        by_cases hm : m = h
        · rw [hm, upd_same]
          exact fun e => hne j (Or.inl hj) (Option.some.inj e).symm
        · rw [upd_ne hm]
          exact (hok.hand j hj).2 m
      · intro j hj m
        by_cases hm : m = h
        · rw [hm, upd_same]
          exact fun e => hne j (Or.inr hj) (Option.some.inj e).symm
        · rw [upd_ne hm]
          exact hok.ret j hj m
  · dsimp only at hp
    have hpi : p ≠ i := fun e => hp h (by rw [upd_same, e])
    have hnp : ∀ k, s.cur k ≠ some p := fun k => by
      by_cases hkh : k = h
      · rw [hkh, hcur]; simp
      · have := hp k
        rwa [upd_ne hkh] at this
    have hP := hi.parked hnp
    refine ⟨by rw [hproc]; exact hP.needs, by simpa [hproc] using hP.typed, by simpa [hproc] using hP.asleep,
      fun hr => ?_⟩
    obtain ⟨k, hk, hh'⟩ := hP.handed (by simpa using hr)
    have hkh : k ≠ h := fun e => by
      rw [e, hc] at hh'
      exact hpi (Option.some.inj hh').symm
    exact ⟨k, by simp [hkh, hk], by simpa [hsched k hkh] using hh'⟩
  · rw [hproc] at hj
    exact hi.made_kept (h := h) (fun q _ => by rw [hproc]) (goto_data _ _ _) hj hm

/-- What a process that leaves its hart will do later relies on no lock. -/
theorem Typed.parked_needs {b : Bool} (ht : Typed (some p) [.proc p] (.setIntena b :: is)) :
    needs (.setIntena b :: is) = [] := by
  obtain ⟨⟨q, hq, -, hres⟩, -, ht⟩ := ht
  cases hq
  rcases hres with ⟨r, rfl⟩ | ⟨c, lk, r, rfl⟩ | ⟨r, rfl⟩
  · obtain ⟨-, -, ht⟩ := ht
    simp only [post, List.erase_cons_head] at ht
    simp [base, ht.needs_nil]
  · obtain ⟨-, -, -, -, ht⟩ := ht
    simp only [post, List.erase_cons_head] at ht
    simp [base, ht.needs_nil]
  · obtain ⟨-, -, ht⟩ := ht
    simp [base, Typed.needs_nil ht]

theorem swtchBack_inv (hi : Inv s) (hc : s.code h = .swtchBack :: rest) :
    Inv { s.goto h rest with cur := upd s.cur h none } := by
  obtain ⟨H, hh, hty⟩ := hi.typed hc
  obtain ⟨⟨p, hcur, rfl, b, r, rfl⟩, -, hty⟩ := hty
  have hcode := code_some hcur
  obtain ⟨hpr, hsb, hst⟩ := hi.on hcur
  rw [← hcode, hc] at hst
  rw [hcur] at hty
  have hsched : (s.goto h (.setIntena b :: r)).sched = s.sched := by simp [goto_sched, hcur]
  have hself : (s.goto h (.setIntena b :: r)).proc p = .setIntena b :: r := by simp [goto_proc, hcur]
  have hother : ∀ q, q ≠ p → (s.goto h (.setIntena b :: r)).proc q = s.proc q := fun q hq => by
    simp [goto_proc, hcur, Ne.symm hq]
  have hne : ∀ {k q}, k ≠ h → s.cur k = some q → q ≠ p := fun hk hq e => hk (hi.cur hq (e ▸ hcur))
  refine ⟨fun k => ?_, fun {k j q} hk hj => ?_, fun {k q} hk => ?_, fun {k} hk => ?_, fun {q} hq => ?_,
    fun {q j m} hj hm => ?_, by simpa using hi.fine⟩
  · by_cases hkh : k = h
    · subst hkh
      refine ⟨[.proc p], hh.nodup, by simpa using hh.lock, by simpa using hh.noff, by simpa using hh.intr, ?_⟩
      simp only [St.code, upd_same, hsched, hsb]
      simp [back, Typed, pre, base, post, quiet_cons, quietHead]
    · obtain ⟨K, hK⟩ := hi.holds k
      refine ⟨K, hK.nodup, by simpa using hK.lock, by simpa using hK.noff, by simpa using hK.intr, ?_⟩
      have ht := hK.typed
      simp only [St.code, upd_ne hkh, hsched] at ht ⊢
      split at ht
      · exact ht
      · rename_i q e
        rw [hother q (hne hkh e)]
        exact ht
  · dsimp only at hk hj
    have hkh : k ≠ h := fun e => by rw [e, upd_same] at hk; cases hk
    have hjh : j ≠ h := fun e => by rw [e, upd_same] at hj; cases hj
    rw [upd_ne hkh] at hk
    rw [upd_ne hjh] at hj
    exact hi.cur hk hj
  · dsimp only at hk
    have hkh : k ≠ h := fun e => by rw [e, upd_same] at hk; cases hk
    rw [upd_ne hkh] at hk
    simp only [goto_harts, goto_data, hsched, hother q (hne hkh hk)]
    exact hi.on hk
  · dsimp only at hk
    have hcur' : ∀ {q}, (∀ m, s.cur m ≠ some q) → ∀ m, upd s.cur h none m ≠ some q := fun hq m => by
      by_cases hm : m = h
      · rw [hm, upd_same]; simp
      · rw [upd_ne hm]; exact hq m
    by_cases hkh : k = h
    · subst hkh
      refine ⟨?_, ?_, ?_⟩ <;> simp only [goto_harts, hsched, hsb, goto_data]
      · rw [hpr]; rfl
      · intro j hj
        cases hj
      · intro j hj m
        cases hj
        by_cases hm : m = k
        · rw [hm, upd_same]; simp
        · rw [upd_ne hm]
          exact fun e => hm (hi.cur e hcur)
    · rw [upd_ne hkh] at hk
      have hok := hi.off hk
      refine ⟨?_, ?_, ?_⟩ <;> simp only [goto_harts, hsched, goto_data]
      · exact hok.proc
      · exact fun j hj => ⟨(hok.hand j hj).1, hcur' (hok.hand j hj).2⟩
      · exact fun j hj => hcur' (hok.ret j hj)
  · dsimp only at hq
    by_cases hqp : q = p
    · subst hqp
      refine ⟨by rw [hself]; exact hty.parked_needs, fun hs => ?_, fun hs => ?_, fun hs => ?_⟩ <;>
        simp only [goto_data, hself] at hs ⊢
      · refine ⟨hty, Or.inr ⟨b, r, rfl, ?_⟩⟩
        obtain ⟨⟨q', hq', -, hres⟩, -, -⟩ := hty
        cases hq'
        rcases hres with h1 | h2 | ⟨r', rfl⟩
        · exact Or.inl h1
        · exact Or.inr h2
        · simp only [leaves, after, Option.some.injEq] at hst
          rw [← hst] at hs
          simp at hs
      · obtain ⟨⟨q', hq', -, hres⟩, -, -⟩ := hty
        cases hq'
        rw [hs] at hst
        rcases hres with ⟨r', rfl⟩ | ⟨c, lk, r', rfl⟩ | ⟨r', rfl⟩
        · cases hst
        · exact ⟨b, c, lk, _, rfl⟩
        · cases hst
      · obtain ⟨⟨q', hq', -, hres⟩, -, -⟩ := hty
        cases hq'
        rw [hs] at hst
        rcases hres with ⟨r', rfl⟩ | ⟨c, lk, r', rfl⟩ | ⟨r', rfl⟩ <;> cases hst
    · have hnq : ∀ k, s.cur k ≠ some q := fun k => by
        by_cases hkh : k = h
        · rw [hkh, hcur]
          exact fun e => hqp (Option.some.inj e).symm
        · have := hq k
          rwa [upd_ne hkh] at this
      have hP := hi.parked hnq
      refine ⟨by rw [hother q hqp]; exact hP.needs, by simpa [hother q hqp] using hP.typed,
        by simpa [hother q hqp] using hP.asleep, fun hr => ?_⟩
      obtain ⟨k, hk, hh'⟩ := hP.handed (by simpa using hr)
      have hkh : k ≠ h := fun e => by rw [e, hcur] at hk; cases hk
      exact ⟨k, by simp [hkh, hk], by simpa [hsched] using hh'⟩
  · have hkeep : ∀ q, s.cur h ≠ some q → (s.goto h (.setIntena b :: r)).proc q = s.proc q := fun q hq => by
      rw [goto_proc, if_neg hq]
    by_cases hqp : q = p
    · rw [hqp] at hj ⊢
      rw [hself] at hj
      refine hi.made_kept hkeep (goto_data _ _ _) ?_ hm
      rw [← hcode, hc]
      exact List.mem_cons_of_mem _ hj
    · rw [hother q hqp] at hj
      exact hi.made_kept hkeep (goto_data _ _ _) hj hm

theorem irq_inv (hi : Inv s) (timer : Bool) (hr : (s.harts h).intr = true) :
    Inv ((s.setHart h { s.harts h with intr := false }).goto h
      ((if timer then [.code .irq [], .yieldIf, .iret] else [.code .irq [], .iret]) ++ s.code h)) := by
  obtain ⟨H, hh⟩ := hi.holds h
  have hH := hh.intr hr
  subst hH
  have hq : Quiet (s.code h) := hh.typed.quiet
  refine hi.flags hh rfl rfl (by simp) ?_ (hq.same ?_) fun j hj hm => ?_
  · cases timer <;> simp [Typed, pre, post, base, quiet_cons, quietHead, hq, hh.typed]
  · cases timer <;> simp [quiet_cons, quietHead]
  · cases timer <;> simp at hj
    · rcases hj with rfl | rfl | hj
      · exact absurd rfl hm
      · exact absurd rfl hm
      · exact hj
    · rcases hj with rfl | rfl | rfl | hj
      · exact absurd rfl hm
      · exact absurd rfl hm
      · exact absurd rfl hm
      · exact hj

end Xv6.Process
