/-
  Xv6.Lib.Ring — a ring of `N` slots with two counters that run freely modulo `M`, a
  multiple of `N`: `w` counts what was put in, `r` what was taken out, and slot
  `w % N` is the next to be filled.

  `Ring N M data r w q`: the slots from `r` up to `w` hold the queue `q`. `push` and `pop`
  are the two ways to change it; `empty_iff` and `full_iff` say that comparing the
  counters, wrapped as they are, tells an empty and a full ring.
-/
import Mathlib

namespace Xv6

variable {α : Type} {N M : Nat} {data data' : Nat → α} {r w : Nat} {q : List α} {x : α}

structure Ring (N M : Nat) (data : Nat → α) (r w : Nat) (q : List α) : Prop where
  lt : r < M
  wrap : w = (r + q.length) % M
  le : q.length ≤ N
  slot : ∀ k x, q[k]? = some x → data ((r + k) % N) = x

namespace Ring

/-- Slots fewer than `N` apart are different. -/
theorem slot_ne {a j k : Nat} (hj : j < N) (hk : k < N) (h : (a + j) % N = (a + k) % N) : j = k := by
  have h1 : j ≡ k [MOD N] := Nat.ModEq.add_left_cancel' a h
  rw [Nat.ModEq, Nat.mod_eq_of_lt hj, Nat.mod_eq_of_lt hk] at h1
  exact h1

theorem init (h : 0 < M) : Ring N M data 0 0 [] :=
  ⟨h, by simp, Nat.zero_le _, by simp⟩

/-- The next slot to be filled, whatever the wrap. -/
theorem next_slot (h : Ring N M data r w q) (hd : N ∣ M) : w % N = (r + q.length) % N := by
  rw [h.wrap, Nat.mod_mod_of_dvd _ hd]

/-- A ring that is not full has its next slot free. -/
theorem next_slot_ne (h : Ring N M data r w q) (hd : N ∣ M) (hq : q.length < N) {k : Nat} (hk : k < q.length) :
    (r + k) % N ≠ w % N := by
  rw [h.next_slot hd]
  exact fun e => Nat.ne_of_lt hk (slot_ne (Nat.lt_trans hk hq) hq e)

theorem push (h : Ring N M data r w q) (hd : N ∣ M) (hq : q.length < N) (hx : data' (w % N) = x)
    (hs : ∀ j, j ≠ w % N → data' j = data j) : Ring N M data' r ((w + 1) % M) (q ++ [x]) := by
  refine ⟨h.lt, ?_, by rw [List.length_append]; exact hq, fun k y hk => ?_⟩
  · rw [h.wrap, Nat.mod_add_mod, List.length_append]
    rfl
  · by_cases hkq : k < q.length
    · rw [List.getElem?_append_left hkq] at hk
      rw [hs _ (h.next_slot_ne hd hq hkq), h.slot k y hk]
    · rw [List.getElem?_append_right (Nat.le_of_not_lt hkq)] at hk
      have hk0 : k - q.length = 0 := by
        by_contra hne
        rw [List.getElem?_eq_none (by simp only [List.length_cons, List.length_nil]; omega)] at hk
        cases hk
      rw [hk0] at hk
      have hkl : k = q.length := by omega
      rw [hkl, ← h.next_slot hd, hx]
      exact Option.some.inj hk

theorem pop (h : Ring N M data r w (x :: q)) (hd : N ∣ M) :
    data (r % N) = x ∧ Ring N M data ((r + 1) % M) w q := by
  have hM : 0 < M := Nat.lt_of_le_of_lt (Nat.zero_le _) h.lt
  refine ⟨h.slot 0 x rfl, Nat.mod_lt _ hM, ?_, ?_, fun k y hk => ?_⟩
  · rw [Nat.mod_add_mod, h.wrap, List.length_cons]
    congr 1
    omega
  · have := h.le
    rw [List.length_cons] at this
    omega
  · have := h.slot (k + 1) y hk
    rw [← this, Nat.add_mod, Nat.mod_mod_of_dvd _ hd, ← Nat.add_mod]
    congr 2
    omega

/-- The last one put in is taken back. -/
theorem unpush (h : Ring N M data r w (q ++ [x])) (hd : N ∣ M) :
    data ((w + (M - 1)) % M % N) = x ∧ Ring N M data r ((w + (M - 1)) % M) q := by
  have hM : 0 < M := Nat.lt_of_le_of_lt (Nat.zero_le _) h.lt
  have hlen : (q ++ [x]).length = q.length + 1 := by rw [List.length_append]; rfl
  have hw : (w + (M - 1)) % M = (r + q.length) % M := by
    rw [h.wrap, hlen, Nat.mod_add_mod, show r + (q.length + 1) + (M - 1) = r + q.length + M by omega, Nat.add_mod_right]
  refine ⟨?_, h.lt, hw, Nat.le_trans (by omega) h.le, fun k y hk => h.slot k y ?_⟩
  · rw [hw, Nat.mod_mod_of_dvd _ hd]
    exact h.slot q.length x (by rw [List.getElem?_append_right (Nat.le_refl _), Nat.sub_self]; rfl)
  · rw [List.getElem?_append_left (List.getElem?_eq_some_iff.mp hk).1, hk]

/-- What the counters say, for a ring smaller than their range. -/
theorem count (h : Ring N M data r w q) (hNM : N < M) : (w + (M - r)) % M = q.length := by
  have := h.lt
  have hq : q.length < M := Nat.lt_of_le_of_lt h.le hNM
  rw [h.wrap, Nat.mod_add_mod, show r + q.length + (M - r) = q.length + M by omega, Nat.add_mod_right,
    Nat.mod_eq_of_lt hq]

theorem empty_iff (h : Ring N M data r w q) (hNM : N < M) : r = w ↔ q = [] := by
  have hlt := h.lt
  constructor
  · intro e
    have hc := h.count hNM
    rw [← e, show r + (M - r) = M by omega, Nat.mod_self] at hc
    exact List.length_eq_zero_iff.mp hc.symm
  · intro e
    rw [h.wrap, e, List.length_nil, Nat.add_zero, Nat.mod_eq_of_lt hlt]

theorem full_iff (h : Ring N M data r w q) (hNM : N < M) : w = (r + N) % M ↔ q.length = N := by
  have hq : q.length < M := Nat.lt_of_le_of_lt h.le hNM
  rw [h.wrap]
  constructor
  · intro e
    have h1 : q.length ≡ N [MOD M] := Nat.ModEq.add_left_cancel' r e
    rw [Nat.ModEq, Nat.mod_eq_of_lt hq, Nat.mod_eq_of_lt hNM] at h1
    exact h1
  · intro e
    rw [e]

end Ring

end Xv6
