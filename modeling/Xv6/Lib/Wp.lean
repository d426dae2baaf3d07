/-
  Xv6.Lib.Wp — weakest preconditions for code in `EStateM ε σ`: code that reads and writes
  a state and may stop with an error, the state at the error included.

  `wp m Q E s`: run from `s`, `m` either returns some `a` in a state with `Q a`, or stops
  with some `e` in a state with `E e`. The rules below follow the shape of a `do` block;
  `wp.mono` is the rule of consequence through which a function's specification is used,
  and `wp.and` joins two specifications of one function.
-/
import Mathlib

namespace Xv6

variable {ε σ α β : Type}

def wp (m : EStateM ε σ α) (Q : α → σ → Prop) (E : ε → σ → Prop) (s : σ) : Prop :=
  match m s with
  | .ok a s' => Q a s'
  | .error e s' => E e s'

@[simp] theorem wp_pure (a : α) (Q : α → σ → Prop) (E : ε → σ → Prop) (s : σ) :
    wp (pure a : EStateM ε σ α) Q E s = Q a s := (rfl)

@[simp] theorem wp_bind (m : EStateM ε σ α) (f : α → EStateM ε σ β) (Q : β → σ → Prop) (E : ε → σ → Prop) (s : σ) :
    wp (m >>= f) Q E s = wp m (fun a s' => wp (f a) Q E s') E s := by
  simp only [wp, bind, EStateM.bind]
  cases m s <;> rfl

@[simp] theorem wp_map (m : EStateM ε σ α) (f : α → β) (Q : β → σ → Prop) (E : ε → σ → Prop) (s : σ) :
    wp (f <$> m) Q E s = wp m (fun a s' => Q (f a) s') E s := by
  simp only [wp, Functor.map, EStateM.map]
  cases m s <;> rfl

@[simp] theorem wp_get (Q : σ → σ → Prop) (E : ε → σ → Prop) (s : σ) :
    wp (get : EStateM ε σ σ) Q E s = Q s s := (rfl)

@[simp] theorem wp_set (x : σ) (Q : PUnit → σ → Prop) (E : ε → σ → Prop) (s : σ) :
    wp (set x : EStateM ε σ PUnit) Q E s = Q ⟨⟩ x := (rfl)

@[simp] theorem wp_modify (f : σ → σ) (Q : PUnit → σ → Prop) (E : ε → σ → Prop) (s : σ) :
    wp (modify f : EStateM ε σ PUnit) Q E s = Q ⟨⟩ (f s) := (rfl)

@[simp] theorem wp_throw (e : ε) (Q : α → σ → Prop) (E : ε → σ → Prop) (s : σ) :
    wp (throw e : EStateM ε σ α) Q E s = E e s := (rfl)

theorem wp_ite {c : Prop} [Decidable c] {m n : EStateM ε σ α} {Q : α → σ → Prop} {E : ε → σ → Prop} {s : σ}
    (ht : c → wp m Q E s) (hf : ¬ c → wp n Q E s) : wp (if c then m else n) Q E s := by
  split
  · exact ht ‹_›
  · exact hf ‹_›

variable {m n : EStateM ε σ α} {Q Q' : α → σ → Prop} {E E' : ε → σ → Prop} {s : σ}

theorem wp_pos {c : Prop} [Decidable c] (h : c) (hm : wp m Q E s) : wp (if c then m else n) Q E s := by
  rwa [if_pos h]

theorem wp_neg {c : Prop} [Decidable c] (h : ¬ c) (hn : wp n Q E s) : wp (if c then m else n) Q E s := by
  rwa [if_neg h]

theorem wp.mono (h : wp m Q E s) (hQ : ∀ a s', Q a s' → Q' a s') (hE : ∀ e s', E e s' → E' e s') : wp m Q' E' s := by
  simp only [wp] at h ⊢
  split at h
  · exact hQ _ _ h
  · exact hE _ _ h

theorem wp.imp (h : wp m Q E s) (hQ : ∀ a s', Q a s' → Q' a s') : wp m Q' E s := h.mono hQ fun _ _ => id

theorem wp.and (h : wp m Q E s) (h' : wp m Q' E' s) :
    wp m (fun a s' => Q a s' ∧ Q' a s') (fun e s' => E e s' ∧ E' e s') s := by
  simp only [wp] at h h' ⊢
  split at h <;> rename_i heq <;> rw [heq] at h'
  · exact ⟨h, h'⟩
  · exact ⟨h, h'⟩

theorem wp_true (m : EStateM ε σ α) (s : σ) : wp m (fun _ _ => True) (fun _ _ => True) s := by
  simp only [wp]
  split <;> trivial

/-- What follows does not depend on what was done. -/
theorem wp_then {f : α → EStateM ε σ β} {Q : β → σ → Prop} (h : ∀ a s, wp (f a) Q (fun _ _ => True) s) :
    wp (m >>= f) Q (fun _ _ => True) s := by
  rw [wp_bind]
  exact (wp_true m s).imp fun a s' _ => h a s'

theorem wp_ok {a : α} {s' : σ} (h : wp m Q E s) (hr : m s = .ok a s') : Q a s' := by
  simpa only [wp, hr] using h

theorem wp_of_ok {a : α} {s' : σ} (hr : m s = .ok a s') (h : Q a s') : wp m Q E s := by
  simpa only [wp, hr] using h

/-- Code that cannot stop returns. -/
theorem wp_returns (h : wp m Q E s) (hE : ∀ e s', ¬ E e s') : ∃ a s', m s = .ok a s' ∧ Q a s' := by
  cases hm : m s with
  | ok a s' => exact ⟨a, s', rfl, wp_ok h hm⟩
  | error e s' =>
    simp only [wp, hm] at h
    exact absurd h (hE e s')

/-- A specification is checked at a state by running the code. -/
instance wp.decidable [∀ a s, Decidable (Q a s)] [∀ e s, Decidable (E e s)] : Decidable (wp m Q E s) :=
  match h : m s with
  | .ok a s' => decidable_of_iff (Q a s') (by simp only [wp, h])
  | .error e s' => decidable_of_iff (E e s') (by simp only [wp, h])

-- stated over `decide`, so that only the kernel runs the code
theorem returns_of_run [∀ a s, Decidable (Q a s)] (h : decide (wp m Q (fun _ _ => False) s) = true) :
    ∃ a s', m s = .ok a s' ∧ Q a s' :=
  wp_returns (of_decide_eq_true h) fun _ _ => id

theorem stops_of_run [∀ e s, Decidable (E e s)] (h : decide (wp m (fun _ _ => False) E s) = true) :
    ∃ e s', m s = .error e s' ∧ E e s' := by
  have h := of_decide_eq_true h
  cases hm : m s with
  | ok a s' => exact (wp_ok h hm).elim
  | error e s' => exact ⟨e, s', rfl, by simpa only [wp, hm] using h⟩

theorem wp_error {e : ε} {s' : σ} (h : wp m Q E s) (hr : m s = .error e s') : E e s' := by
  simpa only [wp, hr] using h

end Xv6
