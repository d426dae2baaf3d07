/-
  Xv6.Disk.Nemu — the NEMU disk driver (platform/nemu/platform.c): `platform_disk_read`
  and `platform_disk_write` as five register stores each, by any number of processes.

  The registers are shared and no lock is held around the stores: `bread` and `bwrite`
  call the driver with only their buffer's sleep-lock held, and `kerneltrap` yields on
  a timer interrupt, so a process can be preempted between any two stores. Calls in
  progress use different buffers (the sleep-lock). The controller executes the last
  stored CMD, BUF, BLKNO and BLKCNT at the store to VALID.

  Requests do mix (`a_read_becomes_a_write`): a read preempted after its store to CMD
  resumes with the command another process's write left there. They mix exactly when a
  store changes a register under a call that has already stored it:
  - `own_of_quiet`: along stores that do not (`Quiet`), every command executed is its
    caller's own;
  - `mixes`: after one that does, the disturbed call goes on to execute a command that
    is not its own;
  both together are `requests_own_iff_quiet`.
-/
import Mathlib

namespace Xv6.Disk.Nemu

inductive Reg where
  | cmd
  | buf
  | blkno
  | blkcnt
  | valid
  deriving DecidableEq, Repr

def cmdWrite : Nat := 1
def cmdRead : Nat := 2

def platformDiskRead (blockno buf : Nat) : List (Reg × Nat) :=
  [(.cmd, cmdRead), (.buf, buf), (.blkno, blockno), (.blkcnt, 1), (.valid, 1)]

def platformDiskWrite (blockno buf : Nat) : List (Reg × Nat) :=
  [(.cmd, cmdWrite), (.buf, buf), (.blkno, blockno), (.blkcnt, 1), (.valid, 1)]

inductive Call where
  | read (blockno buf : Nat)
  | write (blockno buf : Nat)
  deriving DecidableEq, Repr

def Call.stores : Call → List (Reg × Nat)
  | .read blockno buf => platformDiskRead blockno buf
  | .write blockno buf => platformDiskWrite blockno buf

def Call.buffer : Call → Nat
  | .read _ buf | .write _ buf => buf

structure St where
  regs : Reg → Nat
  /-- A process's call in progress and how many of its stores are done. -/
  procs : Nat → Option (Call × Nat)
  /-- Each command executed: the call that stored VALID and the registers it executed. -/
  executed : List (Call × (Reg → Nat))

def init : St := ⟨fun _ => 0, fun _ => none, []⟩

def store (s : St) (p : Nat) (c : Call) (k : Nat) (x : Reg × Nat) : St :=
  let regs := Function.update s.regs x.1 x.2
  { regs := regs
    procs := Function.update s.procs p (if x.1 = .valid then none else some (c, k + 1))
    executed := if x.1 = .valid then s.executed ++ [(c, regs)] else s.executed }

inductive Step : St → St → Prop
  | call {s : St} (p : Nat) (c : Call) : s.procs p = none →
      (∀ q d k, s.procs q = some (d, k) → d.buffer ≠ c.buffer) →
      Step s { s with procs := Function.update s.procs p (some (c, 0)) }
  | store {s : St} (p : Nat) (c : Call) (k : Nat) (x : Reg × Nat) : s.procs p = some (c, k) → c.stores[k]? = some x →
      Step s (store s p c k x)

/-- The command executed for `c` is `c`'s own: its direction, buffer and block. -/
def Own (c : Call) (regs : Reg → Nat) : Prop := ∀ x ∈ c.stores, regs x.1 = x.2

/-- Storing `x` changes no register under a call of another process that has stored it. -/
def Quiet (s : St) (p : Nat) (x : Reg × Nat) : Prop :=
  ∀ q c k, q ≠ p → s.procs q = some (c, k) → ∀ y ∈ c.stores.take k, y.1 = x.1 → y.2 = x.2

inductive QuietReach : St → Prop
  | init : QuietReach init
  | call {s : St} (p : Nat) (c : Call) : QuietReach s → s.procs p = none →
      (∀ q d k, s.procs q = some (d, k) → d.buffer ≠ c.buffer) →
      QuietReach { s with procs := Function.update s.procs p (some (c, 0)) }
  | store {s : St} (p : Nat) (c : Call) (k : Nat) (x : Reg × Nat) : QuietReach s → s.procs p = some (c, k) →
      c.stores[k]? = some x → Quiet s p x → QuietReach (store s p c k x)

/-! ## A call's five stores -/

theorem stores_shape (c : Call) :
    ∃ v b n, c.stores = [(.cmd, v), (.buf, b), (.blkno, n), (.blkcnt, 1), (.valid, 1)] := by
  cases c with
  | read blockno buf => exact ⟨_, _, _, rfl⟩
  | write blockno buf => exact ⟨_, _, _, rfl⟩

variable {c : Call} {x y : Reg × Nat}

/-- A call stores each register once. -/
theorem stores_once {i j : Nat} (hi : c.stores[i]? = some x) (hj : c.stores[j]? = some y)
    (h : x.1 = y.1) : i = j := by
  obtain ⟨v, b, n, hs⟩ := stores_shape c
  have hn : (c.stores.map (·.1)).Nodup := by simp [hs]
  have hxi : (c.stores.map (·.1))[i]? = some x.1 := by simp [hi]
  have hyj : (c.stores.map (·.1))[j]? = some x.1 := by simp [hj, h]
  have hlt : i < (c.stores.map (·.1)).length := (List.getElem?_eq_some_iff.mp hxi).1
  exact (List.getElem?_inj hlt hn).mp (by rw [hxi, hyj])

variable {k : Nat}

theorem stores_valid (hk : c.stores[k]? = some x) : x.1 = .valid ↔ k = 4 := by
  obtain ⟨v, b, n, hs⟩ := stores_shape c
  have h4 : c.stores[4]? = some (.valid, 1) := by rw [hs]; rfl
  constructor
  · exact fun h => stores_once hk h4 h
  · intro h
    subst h
    rw [h4] at hk
    cases hk
    rfl

theorem mem_take_iff : y ∈ c.stores.take k ↔ ∃ j < k, c.stores[j]? = some y := by
  rw [List.mem_take_iff_getElem]
  constructor
  · rintro ⟨j, hj, rfl⟩
    exact ⟨j, by omega, List.getElem?_eq_getElem _⟩
  · rintro ⟨j, hj, h⟩
    obtain ⟨hl, rfl⟩ := List.getElem?_eq_some_iff.mp h
    exact ⟨j, by omega, rfl⟩

/-! ## Quiet stores keep requests apart -/

/-- Every call in progress finds the registers it has stored as it stored them. -/
structure Inv (s : St) : Prop where
  holds : ∀ p c k, s.procs p = some (c, k) → k ≤ 4 ∧ ∀ y ∈ c.stores.take k, s.regs y.1 = y.2
  own : ∀ c g, (c, g) ∈ s.executed → Own c g

variable {s : St}

theorem call_inv (h : Inv s) (p : Nat) (c : Call) :
    Inv { s with procs := Function.update s.procs p (some (c, 0)) } := by
  refine ⟨fun q d k hq => ?_, h.own⟩
  by_cases e : q = p
  · subst e
    simp only [Function.update_self, Option.some.injEq, Prod.mk.injEq] at hq
    obtain ⟨-, rfl⟩ := hq
    simp
  · simp only [Function.update_of_ne e] at hq
    exact h.holds q d k hq

theorem store_inv (h : Inv s) {p : Nat} (hp : s.procs p = some (c, k))
    (hk : c.stores[k]? = some x) (hq : Quiet s p x) : Inv (store s p c k x) := by
  obtain ⟨hk4, hold⟩ := h.holds p c k hp
  -- the caller's own stores so far, this one included
  have hmine : ∀ y ∈ c.stores.take (k + 1), Function.update s.regs x.1 x.2 y.1 = y.2 := by
    intro y hy
    obtain ⟨j, hj, hjy⟩ := mem_take_iff.mp hy
    by_cases e : y.1 = x.1
    · have : j = k := stores_once hjy hk e
      subst this
      rw [hk] at hjy
      cases hjy
      simp
    · have hjk : j ≠ k := by
        intro hjk
        subst hjk
        rw [hk] at hjy
        cases hjy
        exact e rfl
      rw [Function.update_of_ne e]
      exact hold y (mem_take_iff.mpr ⟨j, by omega, hjy⟩)
  constructor
  · intro q d m hqd
    simp only [store] at hqd ⊢
    by_cases e : q = p
    · subst e
      rw [Function.update_self] at hqd
      split at hqd
      · cases hqd
      rename_i hv
      simp only [Option.some.injEq, Prod.mk.injEq] at hqd
      obtain ⟨rfl, rfl⟩ := hqd
      have hne : k ≠ 4 := fun e4 => hv ((stores_valid hk).mpr e4)
      exact ⟨by omega, hmine⟩
    · rw [Function.update_of_ne e] at hqd
      obtain ⟨hm4, hd⟩ := h.holds q d m hqd
      refine ⟨hm4, fun y hy => ?_⟩
      by_cases ey : y.1 = x.1
      · rw [ey, Function.update_self]
        exact (hq q d m e hqd y hy ey).symm
      · rw [Function.update_of_ne ey]
        exact hd y hy
  · intro d g hd
    simp only [store] at hd
    split at hd
    · rename_i hv
      rcases List.mem_append.mp hd with hd | hd
      · exact h.own d g hd
      · -- the store to VALID: all five registers are the caller's
        simp only [List.mem_singleton, Prod.mk.injEq] at hd
        obtain ⟨rfl, rfl⟩ := hd
        have h4 : k = 4 := (stores_valid hk).mp hv
        obtain ⟨v, b, n, hs⟩ := stores_shape d
        intro y hy
        refine hmine y ?_
        rw [List.take_of_length_le (by rw [hs, h4]; simp)]
        exact hy
    · exact h.own d g hd

theorem inv (h : QuietReach s) : Inv s := by
  induction h with
  | init => exact ⟨by simp [init], by simp [init]⟩
  | call p c _ _ _ ih => exact call_inv ih p c
  | store p c k x _ hp hk hq ih => exact store_inv ih hp hk hq

theorem own_of_quiet (h : QuietReach s) {g : Reg → Nat} (hc : (c, g) ∈ s.executed) : Own c g :=
  (inv h).own c g hc

/-! ## A store that is not quiet mixes requests -/

/-- A call whose stored register was changed runs on alone and executes the change. -/
theorem runs_disturbed {q : Nat} {j : Nat} (hj : c.stores[j]? = some y) :
    ∀ (n k : Nat) (s : St), n + k = 4 → j < k → s.procs q = some (c, k) → s.regs y.1 ≠ y.2 →
      ∃ s', Relation.ReflTransGen Step s s' ∧ ∃ g, (c, g) ∈ s'.executed ∧ g y.1 ≠ y.2 := by
  obtain ⟨v, b, m, hs⟩ := stores_shape c
  intro n
  induction n with
  | zero =>
    intro k s hk hjk hq hy
    have hk4 : k = 4 := by omega
    subst hk4
    have hx : c.stores[4]? = some (.valid, 1) := by rw [hs]; rfl
    have hne : y.1 ≠ .valid := fun e => by have := stores_once hj hx e; omega
    refine ⟨_, .single (.store q c 4 (.valid, 1) hq hx), Function.update s.regs .valid 1, ?_, ?_⟩
    · simp [store]
    · rwa [Function.update_of_ne hne]
  | succ n ih =>
    intro k s hk hjk hq hy
    obtain ⟨x, hx⟩ : ∃ x, c.stores[k]? = some x := by
      have hlt : k < c.stores.length := by rw [hs]; simp; omega
      exact ⟨_, List.getElem?_eq_getElem hlt⟩
    have hv : x.1 ≠ .valid := fun e => by have := (stores_valid hx).mp e; omega
    have hne : y.1 ≠ x.1 := fun e => by have := stores_once hj hx e; omega
    obtain ⟨s', hs', hg⟩ := ih (k + 1) (store s q c k x) (by omega) (by omega) (by simp [store, hv])
      (by simp only [store]; rwa [Function.update_of_ne hne])
    exact ⟨s', .head (.store q c k x hq hx) hs', hg⟩

theorem mixes (h : QuietReach s) {p : Nat} (hx : ¬ Quiet s p x) :
    ∃ s', Relation.ReflTransGen Step (store s p c k x) s' ∧ ∃ d g, (d, g) ∈ s'.executed ∧ ¬ Own d g := by
  simp only [Quiet, not_forall] at hx
  obtain ⟨q, d, m, hqp, hq, y, hy, hyx, hne⟩ := hx
  obtain ⟨hm, -⟩ := (inv h).holds q d m hq
  obtain ⟨j, hjm, hj⟩ := mem_take_iff.mp hy
  have hq' : (store s p c k x).procs q = some (d, m) := by simp [store, hqp, hq]
  have hr : (store s p c k x).regs y.1 ≠ y.2 := by
    simp only [store, hyx, Function.update_self]
    exact fun e => hne e.symm
  obtain ⟨s', hs', g, hg, hgy⟩ := runs_disturbed hj (4 - m) m _ (by omega) hjm hq' hr
  refine ⟨s', hs', d, g, hg, fun ho => hgy (ho y ?_)⟩
  exact List.mem_of_getElem? hj

/-- A schedule: which process takes its next store, and which call and store that is. -/
abbrev Schedule := List (Nat × Call × Nat × (Reg × Nat))

def play : Schedule → St → St
  | [], s => s
  | (p, c, k, x) :: l, s => play l (store s p c k x)

def playable : Schedule → St → Bool
  | [], _ => true
  | (p, c, k, x) :: l, s => s.procs p == some (c, k) && c.stores[k]? == some x && playable l (store s p c k x)

theorem play_steps {l : Schedule} (h : playable l s = true) : Relation.ReflTransGen Step s (play l s) := by
  induction l generalizing s with
  | nil => exact .refl
  | cons a l ih =>
    obtain ⟨p, c, k, x⟩ := a
    simp only [playable, Bool.and_eq_true, beq_iff_eq] at h
    exact .head (.store p c k x h.1.1 h.1.2) (ih h.2)

/-- Requests stay apart along quiet stores, and every store that is not quiet leads to
    a command that is not its caller's own. -/
theorem requests_own_iff_quiet {s : St} (h : QuietReach s) :
    (∀ c g, (c, g) ∈ s.executed → Own c g) ∧
    ∀ p c k x, s.procs p = some (c, k) → c.stores[k]? = some x → ¬ Quiet s p x →
      ∃ s', Relation.ReflTransGen Step (store s p c k x) s' ∧ ∃ d g, (d, g) ∈ s'.executed ∧ ¬ Own d g :=
  ⟨fun _ _ hc => own_of_quiet h hc, fun _ _ _ _ _ _ hx => mixes h hx⟩

/-- Of two processes, the one that does not store has not stored another value there. -/
def undisturbed : Schedule → St → Bool
  | [], _ => true
  | (p, c, k, x) :: l, s =>
    (s.procs (1 - p)).all (fun d => (d.1.stores.take d.2).all fun y => y.1 != x.1 || y.2 == x.2) &&
      undisturbed l (store s p c k x)

theorem play_two {l : Schedule} (h : playable l s = true) (hl : ∀ a ∈ l, a.1 < 2)
    (hs : ∀ q, 2 ≤ q → s.procs q = none) (hu : undisturbed l s = true) (hr : QuietReach s) : QuietReach (play l s) := by
  induction l generalizing s with
  | nil => exact hr
  | cons a l ih =>
    obtain ⟨p, c, k, x⟩ := a
    have hp : p < 2 := hl _ (List.mem_cons_self ..)
    simp only [playable, Bool.and_eq_true, beq_iff_eq] at h
    simp only [undisturbed, Bool.and_eq_true] at hu
    have hq : Quiet s p x := fun q d m hne hq y hy hyx => by
      have hlt : q < 2 := by
        by_contra hge
        rw [hs q (by omega)] at hq
        cases hq
      obtain rfl : q = 1 - p := by omega
      rw [hq] at hu
      have := List.all_eq_true.mp hu.1 y hy
      simpa [hyx] using this
    refine ih h.2 (fun a ha => hl a (List.mem_cons_of_mem _ ha)) (fun q hge => ?_) hu.2
      (.store p c k x hr h.1.1 h.1.2 hq)
    show Function.update s.procs p _ q = none
    rw [Function.update_of_ne (by omega)]
    exact hs q hge

def uninterrupted (p : Nat) (c : Call) : Schedule := c.stores.zipIdx.map fun x => (p, c, x.2, x.1)

def begun : St :=
  ⟨fun _ => 0, Function.update (Function.update (fun _ => none) 0 (some (.read 33 0x1000, 0))) 1
    (some (.write 40 0x2000, 0)), []⟩

theorem begun_buffers :
    ∀ q d k, ({ init with procs := Function.update init.procs 0 (some (.read 33 0x1000, 0)) } : St).procs q =
    some (d, k) → d.buffer ≠ (Call.write 40 0x2000).buffer := by
  intro q d k hq
  by_cases e : q = 0
  · subst e
    simp only [Function.update_self, Option.some.injEq, Prod.mk.injEq] at hq
    obtain ⟨rfl, -⟩ := hq
    decide
  · simp [init, Function.update_of_ne e] at hq

/-- Process 0 is about to read block 33 when process 1 writes block 40; then process 0 goes on. -/
theorem requests_own_iff_quiet_two :
    ∃ s g g', QuietReach s ∧ s.executed = [(.write 40 0x2000, g), (.read 33 0x1000, g')] ∧
    Own (.write 40 0x2000) g ∧ Own (.read 33 0x1000) g' := by
  have h0 : QuietReach begun :=
    .call 1 (.write 40 0x2000) (.call 0 (.read 33 0x1000) .init rfl (by simp [init])) rfl begun_buffers
  have hidle : ∀ q, 2 ≤ q → begun.procs q = none := fun q hq => by
    simp [begun, Function.update_of_ne (show q ≠ 0 by omega), Function.update_of_ne (show q ≠ 1 by omega)]
  have h1 := play_two (l := uninterrupted 1 (.write 40 0x2000) ++ uninterrupted 0 (.read 33 0x1000))
    (by decide) (by decide) hidle (by decide) h0
  have hown := (requests_own_iff_quiet h1).1
  exact ⟨_, _, _, h1, rfl, hown _ _ (List.mem_cons_self ..),
    hown _ _ (List.mem_cons_of_mem _ (List.mem_singleton.mpr rfl))⟩

/-- Process 0 starts reading block 33 and is preempted after its store to CMD; process 1
    writes block 40 meanwhile; process 0 goes on. -/
def preempted : Schedule :=
  let r : Call := .read 33 0x1000
  let w : Call := .write 40 0x2000
  [(0, r, 0, (.cmd, cmdRead)),
   (1, w, 0, (.cmd, cmdWrite)), (1, w, 1, (.buf, 0x2000)), (1, w, 2, (.blkno, 40)), (1, w, 3, (.blkcnt, 1)),
   (1, w, 4, (.valid, 1)),
   (0, r, 1, (.buf, 0x1000)), (0, r, 2, (.blkno, 33)), (0, r, 3, (.blkcnt, 1)), (0, r, 4, (.valid, 1))]

theorem begun_reach : Relation.ReflTransGen Step init begun := by
  have h1 : Step init { init with procs := Function.update init.procs 0 (some (.read 33 0x1000, 0)) } :=
    .call 0 (.read 33 0x1000) rfl (by simp [init])
  exact .tail (.single h1) (.call 1 (.write 40 0x2000) rfl begun_buffers)

/-- Requests mix: the read's VALID executes a write of its buffer over block 33. -/
theorem a_read_becomes_a_write :
    ¬ ∀ s, Relation.ReflTransGen Step init s → ∀ c g, (c, g) ∈ s.executed → Own c g := by
  intro h
  have hreach := begun_reach.trans (play_steps (l := preempted) (s := begun) (by decide))
  obtain ⟨g, hg, hw⟩ : ∃ g, (.read 33 0x1000, g) ∈ (play preempted begun).executed ∧ g .cmd = cmdWrite :=
    ⟨_, List.mem_append_right _ (List.mem_singleton.mpr rfl), by decide⟩
  have := h _ hreach _ g hg (.cmd, cmdRead) (by decide)
  rw [hw] at this
  cases this

end Xv6.Disk.Nemu
