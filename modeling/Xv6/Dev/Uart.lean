/-
  Xv6.Dev.Uart — console output on QEMU: `consolewrite` by any number of processes, and the transmit
  side of platform/qemu/platform.c.

  NCPU is 1 and `qemu_uart.lock` turns interrupts off, so what runs under the lock is one step, and so
  is `platform_uart_putc_sync`. The transmitter is the 16550's: THR is full (`busy`) until the byte is
  out, which raises an interrupt; reading ISR or writing THR withdraws it. It goes on while the code
  runs: `fin` says, for each turn of `platform_qemu_uart_start`, whether the byte in THR went out
  before it. An interrupt may come at any time, and `kill` may wake a sleeper.

  `accepted`, `sent` and `written` are not in the source: what was put into the buffer and by whom,
  what was moved from it to THR, and what each process has passed to `consolewrite`.
-/
import Xv6.Lib.Ring
import Xv6.Lib.Table

namespace Xv6.Dev.Uart

abbrev N : Nat := 32

abbrev W : Nat := 2 ^ 32

structure St where
  txBuf : Nat → UInt8
  txW : Nat
  txR : Nat
  /-- `LSR_TX_IDLE` is clear -/
  busy : Bool
  irq : Bool
  /-- on `&qemu_uart.tx_r` -/
  sleeping : Nat → Bool
  /-- the bytes the process has still to put, the next one first -/
  todo : Nat → List UInt8
  accepted : List (Nat × UInt8)
  sent : List UInt8
  written : Nat → List UInt8

def init : St := ⟨fun _ => 0, 0, 0, false, false, fun _ => false, fun _ => [], [], [], fun _ => []⟩

def St.emit (s : St) : St := if s.busy then { s with busy := false, irq := true } else s

/-- A byte moves, in the loop of `platform_qemu_uart_start`. -/
def St.send (s : St) : St :=
  { s with
    txR := (s.txR + 1) % W, sleeping := fun _ => false, busy := true, irq := false
    sent := s.sent ++ [s.txBuf (s.txR % N)] }

/-- The body of that loop, and how it goes on after a byte. -/
def St.turn (s : St) (go : St → St) : St :=
  if s.txW = s.txR then { s with irq := false } else if s.busy then s else go s.send

/-- `platform_qemu_uart_start`; a last turn finds the buffer empty or THR full. -/
def start : List Bool → St → St
  | [], s => s.turn id
  | f :: fin, s => (if f then s.emit else s).turn (start fin)

inductive Ev where
  /-- `consolewrite` of the bytes `either_copyin` will give it -/
  | write (p : Nat) (cs : List UInt8)
  /-- a turn of the loop of `platform_uart_putc` -/
  | turn (p : Nat) (fin : List Bool)
  | wake (p : Nat)
  /-- `platform_qemu_uart_intr` -/
  | intr (fin : List Bool)
  /-- `platform_uart_putc_sync` -/
  | sync
  | emit

def step (s : St) : Ev → Option St
  | .write p cs =>
    if s.todo p = [] then some { s with todo := upd s.todo p cs, written := upd s.written p (s.written p ++ cs) } else
      none
  | .turn p fin =>
    match s.todo p with
    | [] => none
    | c :: cs =>
      if s.sleeping p then none
      else if s.txW = (s.txR + N) % W then some { s with sleeping := upd s.sleeping p true }
      else some (start fin { s with
        txBuf := upd s.txBuf (s.txW % N) c, txW := (s.txW + 1) % W
        todo := upd s.todo p cs, accepted := s.accepted ++ [(p, c)] })
  | .wake p => some { s with sleeping := upd s.sleeping p false }
  | .intr fin => some (start fin s)
  | .sync => if s.busy then none else some { s with busy := true, irq := false }
  | .emit => some s.emit

inductive Reach : St → Prop
  | init : Reach init
  | step {s s' : St} (e : Ev) : Reach s → step s e = some s' → Reach s'

def St.from (s : St) (p : Nat) : List UInt8 := (s.accepted.filter (p = ·.1)).map Prod.snd

variable {s s' : St} {q : List UInt8} {c : UInt8}

structure Holds (s : St) (q : List UInt8) : Prop where
  ring : Ring N W s.txBuf s.txR s.txW q
  stream : s.accepted.map Prod.snd = s.sent ++ q
  own : ∀ p, s.from p ++ s.todo p = s.written p
  full : ∀ p, s.sleeping p = true → q.length = N

structure Inv (s : St) (q : List UInt8) : Prop extends Holds s q where
  /-- somebody will move the next byte -/
  live : q ≠ [] → s.busy = true ∨ s.irq = true

theorem Holds.emit (h : Holds s q) : Holds s.emit q := by
  unfold St.emit
  split <;> exact ⟨h.ring, h.stream, h.own, h.full⟩

theorem Holds.send (h : Holds s (c :: q)) : Holds s.send q := by
  obtain ⟨hc, hring⟩ := h.ring.pop (by decide)
  exact ⟨hring, by simp [St.send, hc, h.stream], h.own, nofun⟩

theorem Holds.empty_iff (h : Holds s q) : s.txW = s.txR ↔ q = [] := by
  rw [← h.ring.empty_iff (by decide)]
  exact eq_comm

theorem Holds.turn {go : St → St} (h : Holds s q) (hgo : ∀ q, Holds s.send q → ∃ q', Inv (go s.send) q') :
    ∃ q', Inv (s.turn go) q' := by
  unfold St.turn
  split
  case isTrue he =>
    obtain rfl := h.empty_iff.mp he
    exact ⟨[], ⟨h.ring, h.stream, h.own, h.full⟩, nofun⟩
  case isFalse he =>
    split
    case isTrue hb => exact ⟨q, h, fun _ => .inl hb⟩
    case isFalse =>
      cases q with
      | nil => exact absurd (h.empty_iff.mpr rfl) he
      | cons c q => exact hgo q h.send

theorem Holds.start (fin : List Bool) (h : Holds s q) : ∃ q', Inv (start fin s) q' := by
  induction fin generalizing s q with
  | nil => exact h.turn fun q hq => ⟨q, hq, fun _ => .inl rfl⟩
  | cons f fin ih =>
    refine Holds.turn (q := q) ?_ fun q => ih
    split
    exacts [h.emit, h]

theorem step_inv {e : Ev} (h : Inv s q) (hs : step s e = some s') : ∃ q', Inv s' q' := by
  cases e with
  | write p cs =>
    simp only [step] at hs
    split at hs <;> cases hs
    rename_i hp
    refine ⟨q, ⟨h.ring, h.stream, fun k => ?_, h.full⟩, h.live⟩
    have := h.own k
    by_cases e : k = p <;> simp_all [St.from]
  | turn p fin =>
    have hfull := h.ring.full_iff (by decide)
    simp only [step] at hs
    split at hs
    case h_1 => cases hs
    case h_2 c cs hp =>
      split at hs
      case isTrue => cases hs
      case isFalse =>
        split at hs <;> cases hs
        case isTrue hw => exact ⟨q, ⟨h.ring, h.stream, h.own, fun _ _ => hfull.mp hw⟩, h.live⟩
        case isFalse hw =>
          have hlen : q.length < N := lt_of_le_of_ne h.ring.le (mt hfull.mpr hw)
          refine Holds.start fin ⟨h.ring.push (by decide) hlen (upd_same ..) (fun j hj => upd_ne hj _), ?_, fun k => ?_,
            fun k hk => ?_⟩
          · simp [h.stream]
          · have := h.own k
            by_cases e : k = p <;> simp_all [St.from]
          · exact absurd (h.full k hk) hlen.ne
  | wake p =>
    cases hs
    refine ⟨q, ⟨h.ring, h.stream, h.own, fun k hk => ?_⟩, h.live⟩
    by_cases e : k = p <;> simp_all [h.full k]
  | intr fin =>
    cases hs
    exact h.toHolds.start fin
  | sync =>
    simp only [step] at hs
    split at hs <;> cases hs
    exact ⟨q, ⟨h.ring, h.stream, h.own, h.full⟩, fun _ => .inl rfl⟩
  | emit =>
    cases hs
    refine ⟨q, h.toHolds.emit, fun hq => ?_⟩
    unfold St.emit
    split
    · exact .inr rfl
    · exact h.live hq

theorem reach_inv (h : Reach s) : ∃ q, Inv s q := by
  induction h with
  | init => exact ⟨[], ⟨Ring.init (by decide), rfl, fun _ => rfl, nofun⟩, nofun⟩
  | step e _ hs ih =>
    obtain ⟨q, h⟩ := ih
    exact step_inv h hs

/-- What is sent and then what is buffered are the bytes put, in order; those of a process and then those it has still
    to put
    are what it passed to `consolewrite`; while a byte is buffered, THR is full or an interrupt is pending; and who
    sleeps finds
    the buffer full. -/
theorem console_output (h : Reach s) : ∃ q, s.accepted.map Prod.snd = s.sent ++ q ∧ (s.txW = s.txR ↔ q = []) ∧
    q.length ≤ N ∧ (∀ p, s.from p ++ s.todo p = s.written p) ∧ (q ≠ [] → s.busy = true ∨ s.irq = true) ∧
    ∀ p, s.sleeping p = true → q.length = N := by
  obtain ⟨q, hq⟩ := reach_inv h
  exact ⟨q, hq.stream, hq.empty_iff, hq.ring.le, hq.own, hq.live, hq.full⟩

/-- A byte is sent and one waits for THR. -/
theorem console_output_two : ∃ s, Reach s ∧ s.sent = [104] ∧ ∃ q, s.accepted.map Prod.snd = s.sent ++ q := by
  have h := ((Reach.init.step (.write 0 [104, 105]) rfl).step (.turn 0 []) rfl).step (.turn 0 []) rfl
  obtain ⟨q, hq, -⟩ := console_output h
  exact ⟨_, h, rfl, q, hq⟩

end Xv6.Dev.Uart
