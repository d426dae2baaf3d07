/-
  Xv6.Dev.Console — the console input of kernel/console.c: `consoleintr` for each character and
  `consoleread` by any number of processes.

  `cons.lock` is held from `acquire` to `release` or `sleep`, so what runs between two other
  turns is one character (`consoleintr`, while the lock is free) or one turn of
  `consoleread`'s loop by the holder. A sleeping process may be woken at any time (`wake`): by
  `consoleintr`, or by `kill`. The three indices are `uint`s and only grow, modulo 2^32; a
  character is a byte, as the uart delivers it. The echo is left out.

  `Editor` says what the console is for: a queue of committed bytes and the line being typed.
  The same processes (`Shell`) run over either.

  Proved:
  - `intr_sim`, `turn_sim`: each operation on the ring is the editor's.
  - `console_refines`: a run of the code is a run of the editor with the same results, the
    indices keep their order modulo 2^32, and what was committed is what was taken out and then
    what is in the ring.
-/
import Xv6.Lib.Ring
import Xv6.Lib.Table

namespace Xv6.Dev.Console

abbrev INPUT_BUF_SIZE : Nat := 128

abbrev W : Nat := 2 ^ 32

def ctrl (x : Char) : UInt8 := UInt8.ofNat (x.toNat - 64)

def newline : UInt8 := 10
def carriageReturn : UInt8 := 13
def delete : UInt8 := 0x7f

structure Cons where
  buf : Nat → UInt8
  /-- Read index -/
  r : Nat
  /-- Write index -/
  w : Nat
  /-- Edit index -/
  e : Nat

def dec (x : Nat) : Nat := if x = 0 then W - 1 else x - 1

def Cons.erase (s : Cons) : Cons := { s with e := dec s.e }

/-- The loop of ^U; `cons.e != cons.w` stops it after `cons.e - cons.w` turns at the latest. -/
def killLine : Nat → Cons → Cons
  | 0, s => s
  | n + 1, s => if s.e ≠ s.w ∧ s.buf (dec s.e % INPUT_BUF_SIZE) ≠ newline then killLine n s.erase else s

def Cons.store (s : Cons) (c : UInt8) : Cons := { s with buf := upd s.buf (s.e % INPUT_BUF_SIZE) c, e := (s.e + 1) % W }

def Cons.used (s : Cons) : Nat := (s.e + (W - s.r)) % W

def consoleintr (s : Cons) (c : UInt8) : Cons :=
  if c = ctrl 'P' then s
  else if c = ctrl 'U' then killLine ((s.e + (W - s.w)) % W) s
  else if c = ctrl 'H' ∨ c = delete then
    if s.e ≠ s.w then s.erase else s
  else if c ≠ 0 ∧ s.used < INPUT_BUF_SIZE then
    let c := if c = carriageReturn then newline else c
    let s := s.store c
    if c = newline ∨ c = ctrl 'D' ∨ s.used = INPUT_BUF_SIZE then { s with w := s.e } else s
  else s

/-- What a turn of `consoleread`'s loop does, besides what it does to the buffer. -/
inductive Turn where
  /-- the call returns `v` -/
  | ret (v : Int)
  /-- `c` is copied out and the call returns `v` -/
  | last (v : Int) (c : UInt8)
  /-- `c` is copied out and the loop goes on -/
  | more (c : UInt8)
  | sleep
  deriving DecidableEq, Repr

/-- A turn with `n` bytes to go; `ok`: `either_copyout` succeeds. -/
def turn (s : Cons) (ok killed : Bool) (target n : Int) : Cons × Turn :=
  if n ≤ 0 then (s, .ret (target - n))
  else if s.r = s.w then (s, if killed then .ret (-1) else .sleep)
  else
    let c := s.buf (s.r % INPUT_BUF_SIZE)
    let s := { s with r := (s.r + 1) % W }
    if c = ctrl 'D' then
      (if n < target then { s with r := dec s.r } else s, .ret (target - n))
    else if ok = false then (s, .ret (target - n))
    else if c = newline then (s, .last (target - (n - 1)) c)
    else (s, .more c)

/-! ## The editor -/

/-- `committed` and `taken` are all the bytes that were ever committed and taken out. -/
structure Editor where
  queue : List UInt8
  line : List UInt8
  committed : List UInt8
  taken : List UInt8

namespace Editor

def commit (a : Editor) : Editor :=
  { a with queue := a.queue ++ a.line, line := [], committed := a.committed ++ a.line }

def room (a : Editor) : Nat := INPUT_BUF_SIZE - (a.queue.length + a.line.length)

def type (a : Editor) (c : UInt8) : Editor :=
  if c = ctrl 'P' then a
  else if c = ctrl 'U' then { a with line := [] }
  else if c = ctrl 'H' ∨ c = delete then { a with line := a.line.dropLast }
  else if c = 0 ∨ a.room = 0 then a
  else
    let c := if c = carriageReturn then newline else c
    let a := { a with line := a.line ++ [c] }
    if c = newline ∨ c = ctrl 'D' ∨ a.room = 0 then a.commit else a

def turn (a : Editor) (ok killed : Bool) (target n : Int) : Editor × Turn :=
  if n ≤ 0 then (a, .ret (target - n))
  else match a.queue with
    | [] => (a, if killed then .ret (-1) else .sleep)
    | c :: q =>
      let rest := { a with queue := q, taken := a.taken ++ [c] }
      if c = ctrl 'D' then
        -- end-of-file: a read of its own
        (if n < target then a else rest, .ret (target - n))
      else if ok = false then (rest, .ret (target - n))
      else if c = newline then (rest, .last (target - (n - 1)) c)
      else (rest, .more c)

end Editor

/-! ## The processes -/

abbrev Dst := Nat → Bool

inductive PSt where
  | idle
  /-- in `acquire`, at the start or after `sleep` -/
  | want (dst : Dst) (target n : Int) (got : List UInt8)
  /-- at the head of the loop, holding the lock -/
  | loop (dst : Dst) (target n : Int) (got : List UInt8)
  /-- asleep on `&cons.r` -/
  | asleep (dst : Dst) (target n : Int) (got : List UInt8)

/-- `outs`: the calls that have returned, with their value and the bytes they copied out. -/
structure Shell (σ : Type) where
  cons : σ
  lock : Option Nat
  procs : Nat → PSt
  outs : List (Nat × Int × List UInt8)

inductive Ev where
  | intr (c : UInt8)
  | read (p : Nat) (dst : Dst) (n : Int)
  | acquire (p : Nat)
  | turn (p : Nat) (killed : Bool)
  | wake (p : Nat)

section

variable {σ : Type} (intr : σ → UInt8 → σ) (turn : σ → Bool → Bool → Int → Int → σ × Turn)

def Shell.goto (s : Shell σ) (p : Nat) (x : PSt) : Shell σ := { s with procs := upd s.procs p x }

def Shell.leave (s : Shell σ) (p : Nat) (v : Int) (got : List UInt8) : Shell σ :=
  { s with lock := none, procs := upd s.procs p .idle, outs := s.outs ++ [(p, v, got)] }

def step (s : Shell σ) : Ev → Option (Shell σ)
  | .intr c => if s.lock = none then some { s with cons := intr s.cons c } else none
  | .read p dst n =>
    match s.procs p with
    | .idle => some (s.goto p (.want dst n n []))
    | _ => none
  | .acquire p =>
    match s.procs p with
    | .want dst target n got =>
      if s.lock = none then some ({ s with lock := some p }.goto p (.loop dst target n got)) else none
    | _ => none
  | .turn p killed =>
    match s.procs p with
    | .loop dst target n got =>
      let (c, t) := turn s.cons (dst (target - n).toNat) killed target n
      let s := { s with cons := c }
      match t with
      | .ret v => some (s.leave p v got)
      | .last v x => some (s.leave p v (got ++ [x]))
      | .more x => some (s.goto p (.loop dst target (n - 1) (got ++ [x])))
      | .sleep => some ({ s with lock := none }.goto p (.asleep dst target n got))
    | _ => none
  | .wake p =>
    match s.procs p with
    | .asleep dst target n got => some (s.goto p (.want dst target n got))
    | _ => none

def runs (s : Shell σ) : List Ev → Option (Shell σ)
  | [] => some s
  | e :: es => (step intr turn s e).bind (runs · es)

end

/-- The console after `consoleinit`, with the indices at `k`. -/
def init (buf : Nat → UInt8) (k : Nat) : Shell Cons := ⟨⟨buf, k, k, k⟩, none, fun _ => .idle, []⟩

def Editor.init : Shell Editor := ⟨⟨[], [], [], []⟩, none, fun _ => .idle, []⟩

/-! ## The ring holds the queue and the line -/

structure Sim (s : Cons) (a : Editor) : Prop where
  ring : Ring INPUT_BUF_SIZE W s.buf s.r s.e (a.queue ++ a.line)
  w : s.w = (s.r + a.queue.length) % W
  /-- a newline is committed at once -/
  line : newline ∉ a.line
  /-- a full buffer is committed -/
  full : a.line ≠ [] → a.queue.length + a.line.length < INPUT_BUF_SIZE
  committed : a.committed = a.taken ++ a.queue

variable {s : Cons} {a : Editor} {c : UInt8}

theorem dec_eq {x : Nat} (h : x < W) : dec x = (x + (W - 1)) % W := by
  unfold dec
  split
  · rename_i h0
    rw [h0]
    decide
  · simp only [W] at *
    omega

theorem dvd : INPUT_BUF_SIZE ∣ W := by decide

theorem Sim.used (h : Sim s a) : s.used = a.queue.length + a.line.length := by
  rw [Cons.used, h.ring.count (by decide), List.length_append]

theorem Sim.le (h : Sim s a) : a.queue.length + a.line.length ≤ INPUT_BUF_SIZE := by
  have := h.ring.le
  rwa [List.length_append] at this

/-- The committed part alone. -/
theorem Sim.committedRing (h : Sim s a) : Ring INPUT_BUF_SIZE W s.buf s.r s.w a.queue := by
  refine ⟨h.ring.lt, h.w, Nat.le_trans (Nat.le_add_right _ _) h.le, fun k x hk => h.ring.slot k x ?_⟩
  have hlt : k < a.queue.length := (List.getElem?_eq_some_iff.mp hk).1
  rw [List.getElem?_append_left hlt, hk]

/-- `cons.e - cons.w` -/
theorem Sim.uncommitted (h : Sim s a) : (s.e + (W - s.w)) % W = a.line.length := by
  have hq := h.le
  have hr := h.ring.lt
  have he := h.ring.wrap
  rw [List.length_append] at he
  have hw := h.w
  simp only [W, INPUT_BUF_SIZE] at *
  omega

theorem Sim.e_eq_w (h : Sim s a) : s.e = s.w ↔ a.line = [] := by
  rw [← List.length_eq_zero_iff, ← h.uncommitted]
  have he := h.ring.wrap
  have hw := h.w
  simp only [W] at *
  omega

/-- The last byte of a line is at `cons.e - 1`, and goes when `cons.e` does. -/
theorem Sim.pop_line {x : UInt8} {l : List UInt8} (h : Sim s a) (hl : a.line = l ++ [x]) :
    s.buf (dec s.e % INPUT_BUF_SIZE) = x ∧ Sim s.erase { a with line := l } := by
  have hring := h.ring
  rw [hl, ← List.append_assoc] at hring
  obtain ⟨h1, h2⟩ := hring.unpush dvd
  rw [← dec_eq (hring.wrap ▸ Nat.mod_lt _ (by decide))] at h1 h2
  refine ⟨h1, h2, h.w, fun hm => h.line ?_, fun _ => ?_, h.committed⟩
  · rw [hl]
    exact List.mem_append_left _ hm
  · have := h.full (by rw [hl]; simp)
    rw [hl, List.length_append] at this
    dsimp only
    omega

theorem killLine_sim {n : Nat} (h : Sim s a) (hn : a.line.length = n) : Sim (killLine n s) { a with line := [] } := by
  induction n generalizing s a with
  | zero =>
    rw [← List.length_eq_zero_iff.mp hn]
    exact h
  | succ n ih =>
    rcases List.eq_nil_or_concat' a.line with hl | ⟨l, x, hl⟩
    · rw [hl] at hn
      cases hn
    · obtain ⟨h1, h2⟩ := h.pop_line hl
      have hne : s.e ≠ s.w := fun e => by
        rw [h.e_eq_w.mp e] at hn
        cases hn
      have hx : x ≠ newline := fun e => h.line (by rw [hl, e]; simp)
      rw [killLine, if_pos ⟨hne, by rw [h1]; exact hx⟩]
      exact ih (a := { a with line := l }) h2 (by simpa [hl] using hn)

/-- The byte typed goes behind the line. -/
theorem Sim.store (h : Sim s a) (hroom : a.queue.length + a.line.length < INPUT_BUF_SIZE) :
    Ring INPUT_BUF_SIZE W (s.store c).buf (s.store c).r (s.store c).e (a.queue ++ (a.line ++ [c])) := by
  have hslot : (s.store c).buf (s.e % INPUT_BUF_SIZE) = c := upd_same _ _ _
  have := h.ring.push dvd (by rw [List.length_append]; exact hroom) hslot fun j hj => upd_ne hj _
  rwa [List.append_assoc] at this

theorem Sim.room (h : Sim s a) : a.room = 0 ↔ ¬ a.queue.length + a.line.length < INPUT_BUF_SIZE := by
  have := h.le
  rw [Editor.room]
  omega

theorem store_sim (h : Sim s a) (hroom : a.queue.length + a.line.length < INPUT_BUF_SIZE) :
    Sim (if c = newline ∨ c = ctrl 'D' ∨ (s.store c).used = INPUT_BUF_SIZE then
      { s.store c with w := (s.store c).e } else s.store c)
      (if c = newline ∨ c = ctrl 'D' ∨ Editor.room { a with line := a.line ++ [c] } = 0 then
        Editor.commit { a with line := a.line ++ [c] } else { a with line := a.line ++ [c] }) := by
  have hring := h.store (c := c) hroom
  have hlen : (a.queue ++ (a.line ++ [c])).length = a.queue.length + (a.line.length + 1) := by
    simp only [List.length_append, List.length_singleton]
  have hused : (s.store c).used = a.queue.length + (a.line.length + 1) := by
    rw [← hlen]
    exact hring.count (by decide)
  have hcond : (s.store c).used = INPUT_BUF_SIZE ↔ Editor.room { a with line := a.line ++ [c] } = 0 := by
    simp only [hused, Editor.room, List.length_append, List.length_singleton]
    omega
  by_cases hc : c = newline ∨ c = ctrl 'D' ∨ (s.store c).used = INPUT_BUF_SIZE
  · rw [if_pos hc, if_pos (hc.imp_right (Or.imp_right hcond.mp))]
    refine ⟨?_, hring.wrap, by simp [Editor.commit], fun hne => absurd rfl hne, ?_⟩
    · simpa only [Editor.commit, List.append_nil] using hring
    · simp only [Editor.commit, h.committed, List.append_assoc]
  · rw [if_neg hc, if_neg fun hc' => hc (hc'.imp_right (Or.imp_right hcond.mpr))]
    rw [not_or, not_or] at hc
    refine ⟨hring, h.w, fun hm => ?_, fun _ => ?_, h.committed⟩
    · rcases List.mem_append.mp hm with hm | hm
      · exact h.line hm
      · exact hc.1 (List.mem_singleton.mp hm).symm
    · have := hc.2.2
      rw [hused] at this
      simp only [List.length_append, List.length_singleton]
      omega

/-- A character at the console is a character in the editor. -/
theorem intr_sim (h : Sim s a) (c : UInt8) : Sim (consoleintr s c) (a.type c) := by
  unfold consoleintr Editor.type
  split
  · exact h
  split
  · rw [h.uncommitted]
    exact killLine_sim h rfl
  split
  · rcases List.eq_nil_or_concat' a.line with hl | ⟨l, x, hl⟩
    · rw [if_neg fun hne => hne (h.e_eq_w.mpr hl), hl]
      rw [List.dropLast_nil, ← hl]
      exact h
    · have hne : s.e ≠ s.w := fun e => by
        have := h.e_eq_w.mp e
        rw [hl] at this
        simp at this
      rw [if_pos hne, hl, List.dropLast_concat]
      exact (h.pop_line hl).2
  · by_cases hc : c ≠ 0 ∧ s.used < INPUT_BUF_SIZE
    · have hroom := hc.2
      rw [h.used] at hroom
      have hd : ¬ (c = 0 ∨ a.room = 0) := fun hd => hd.elim hc.1 fun hr => h.room.mp hr hroom
      rw [if_pos hc, if_neg hd]
      exact store_sim h hroom
    · have hd : c = 0 ∨ a.room = 0 := by
        rw [not_and_or, Decidable.not_not, h.used] at hc
        exact hc.imp_right h.room.mpr
      rw [if_neg hc, if_pos hd]
      exact h

/-- The first committed byte is at `cons.r`. -/
theorem Sim.pop {x : UInt8} {q : List UInt8} (h : Sim s a) (hq : a.queue = x :: q) :
    s.buf (s.r % INPUT_BUF_SIZE) = x ∧ Sim { s with r := (s.r + 1) % W }
    { a with queue := q, taken := a.taken ++ [x] } := by
  have hring := h.ring
  rw [hq, List.cons_append] at hring
  obtain ⟨h1, h2⟩ := hring.pop dvd
  have hc := h.committedRing
  rw [hq] at hc
  refine ⟨h1, h2, (hc.pop dvd).2.wrap, h.line, fun hne => ?_, ?_⟩
  · have := h.full hne
    rw [hq, List.length_cons] at this
    dsimp only
    omega
  · rw [h.committed, hq, List.append_assoc]
    rfl

theorem turn_sim (h : Sim s a) (ok killed : Bool) (target n : Int) :
    Sim (turn s ok killed target n).1 (a.turn ok killed target n).1 ∧
    (turn s ok killed target n).2 = (a.turn ok killed target n).2 := by
  unfold turn Editor.turn
  split
  · exact ⟨h, rfl⟩
  have hempty := h.committedRing.empty_iff (by decide)
  split
  · rename_i he
    rw [hempty.mp he]
    exact ⟨h, rfl⟩
  · rename_i hne
    cases hq : a.queue with
    | nil => exact absurd (hempty.mpr hq) hne
    | cons x q =>
      obtain ⟨hx, hp⟩ := h.pop hq
      simp only [hx]
      split
      · refine ⟨?_, rfl⟩
        split
        · -- ^D is put back
          have hr : dec ((s.r + 1) % W) = s.r := by
            have := h.ring.lt
            simp only [dec, W] at *
            split <;> omega
          rw [hr]
          exact h
        · exact hp
      split
      · exact ⟨hp, rfl⟩
      split <;> exact ⟨hp, rfl⟩

/-! ## Runs -/

structure SimShell (s : Shell Cons) (a : Shell Editor) : Prop where
  cons : Sim s.cons a.cons
  lock : s.lock = a.lock
  procs : s.procs = a.procs
  outs : s.outs = a.outs

theorem step_sim {s s' : Shell Cons} {a : Shell Editor} (e : Ev) (h : SimShell s a)
    (hs : step consoleintr turn s e = some s') : ∃ a', step Editor.type Editor.turn a e = some a' ∧ SimShell s' a' := by
  obtain ⟨hc, hl, hp, ho⟩ := h
  cases e with
  | intr c =>
    simp only [step, hl] at hs ⊢
    split at hs <;> cases hs
    rename_i hfree
    exact ⟨_, if_pos hfree, intr_sim hc c, rfl, hp, ho⟩
  | read p dst n | wake p =>
    simp only [step, hp] at hs ⊢
    split at hs <;> cases hs
    exact ⟨_, rfl, hc, hl, by simp only [Shell.goto, hp], ho⟩
  | acquire p =>
    simp only [step, hp, hl] at hs ⊢
    split at hs
    · split at hs <;> cases hs
      rename_i hfree
      exact ⟨_, if_pos hfree, hc, rfl, rfl, ho⟩
    · cases hs
  | turn p killed =>
    simp only [step, hp] at hs ⊢
    split at hs
    · rename_i dst target n got hpp
      obtain ⟨h1, h2⟩ := turn_sim hc (dst (target - n).toNat) killed target n
      simp only [h2] at hs
      split at hs <;> rename_i ht <;> cases hs
      · exact ⟨_, rfl, h1, rfl, rfl, by simp only [Shell.leave, ho]⟩
      · exact ⟨_, rfl, h1, rfl, rfl, by simp only [Shell.leave, ho]⟩
      · exact ⟨_, rfl, h1, hl, rfl, ho⟩
      · exact ⟨_, rfl, h1, rfl, rfl, ho⟩
    · cases hs

theorem runs_sim {s s' : Shell Cons} {a : Shell Editor} (es : List Ev) (h : SimShell s a)
    (hs : runs consoleintr turn s es = some s') :
    ∃ a', runs Editor.type Editor.turn a es = some a' ∧ SimShell s' a' := by
  induction es generalizing s a with
  | nil =>
    cases hs
    exact ⟨a, rfl, h⟩
  | cons e es ih =>
    obtain ⟨t, ht, hs⟩ := Option.bind_eq_some_iff.mp hs
    obtain ⟨b, hb, hsim⟩ := step_sim e h ht
    obtain ⟨a', ha', hsim'⟩ := ih hsim hs
    exact ⟨a', Option.bind_eq_some_iff.mpr ⟨b, hb, ha'⟩, hsim'⟩

theorem init_sim (buf : Nat → UInt8) {k : Nat} (hk : k < W) : SimShell (init buf k) Editor.init := by
  refine ⟨⟨⟨hk, ?_, Nat.zero_le _, fun i x hx => nomatch hx⟩, ?_, List.not_mem_nil, fun h => absurd rfl h, rfl⟩,
    rfl, rfl, rfl⟩
  · simp only [init, Editor.init, List.append_nil, List.length_nil, Nat.add_zero, Nat.mod_eq_of_lt hk]
  · simp only [init, Editor.init, List.length_nil, Nat.add_zero, Nat.mod_eq_of_lt hk]

/-- `cons.w - cons.r` -/
theorem Sim.count (h : Sim s a) : (s.w + (W - s.r)) % W = a.queue.length := h.committedRing.count (by decide)

/-- The console is a line editor: it does on its ring, whose indices wrap, what `Editor` does on two lists. -/
theorem console_refines (buf : Nat → UInt8) {k : Nat} (hk : k < W) (es : List Ev) {s : Shell Cons}
    (hs : runs consoleintr turn (init buf k) es = some s) :
    ((s.cons.w + (W - s.cons.r)) % W ≤ s.cons.used ∧ s.cons.used ≤ INPUT_BUF_SIZE) ∧
    ∃ a, runs Editor.type Editor.turn Editor.init es = some a ∧ s.lock = a.lock ∧ s.procs = a.procs ∧ s.outs = a.outs ∧
      a.cons.committed = a.cons.taken ++ a.cons.queue ∧
      (∀ i x, a.cons.queue[i]? = some x → s.cons.buf ((s.cons.r + i) % INPUT_BUF_SIZE) = x) ∧
      (∀ i x, a.cons.line[i]? = some x → s.cons.buf ((s.cons.w + i) % INPUT_BUF_SIZE) = x) ∧
      (s.cons.w + (W - s.cons.r)) % W = a.cons.queue.length ∧ (s.cons.e + (W - s.cons.w)) % W = a.cons.line.length := by
  obtain ⟨a, ha, hc, hl, hp, ho⟩ := runs_sim es (init_sim buf hk) hs
  refine ⟨⟨?_, ?_⟩, a, ha, hl, hp, ho, hc.committed, hc.committedRing.slot, fun i x hx => ?_, hc.count, hc.uncommitted⟩
  · rw [hc.count, hc.used]
    exact Nat.le_add_right _ _
  · rw [hc.used]
    exact hc.le
  · have hslot := hc.ring.slot (a.cons.queue.length + i) x ?_
    · rw [hc.w, Nat.add_mod, Nat.mod_mod_of_dvd _ dvd, ← Nat.add_mod, Nat.add_assoc]
      exact hslot
    · rw [List.getElem?_append_right (Nat.le_add_right _ _), Nat.add_sub_cancel_left]
      exact hx

/-- "ab", ^H, "c", newline, typed with the indices about to wrap, and a read of up to ten bytes. -/
def typed : List Ev :=
  [.intr 97, .intr 98, .read 0 (fun _ => true) 10, .acquire 0, .turn 0 false, .intr 8, .intr 99, .intr 10, .wake 0,
    .acquire 0] ++ List.replicate 3 (.turn 0 false)

theorem console_refines_wrapped : ∃ s a, runs consoleintr turn (init (fun _ => 0) (W - 1)) typed = some s ∧
    runs Editor.type Editor.turn Editor.init typed = some a ∧ s.outs = a.outs ∧ s.outs = [(0, 3, [97, 99, 10])] := by
  have h : ((runs consoleintr turn (init (fun _ => 0) (W - 1)) typed).map (·.outs)) = some [(0, 3, [97, 99, 10])] := by
    decide +kernel
  obtain ⟨s, hs, ho⟩ := Option.map_eq_some_iff.mp h
  obtain ⟨-, a, ha, -, -, hout, -⟩ := console_refines (fun _ => 0) (by decide) typed hs
  exact ⟨s, a, hs, ha, hout, ho⟩

end Xv6.Dev.Console
