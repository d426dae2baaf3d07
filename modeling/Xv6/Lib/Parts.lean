/-
  Xv6.Lib.Parts — a set divided into parts, each element in one of them.

  What a step does to a partition is to divide some parts anew: `Parts.move` for two of
  them. A part that is given up goes to another one whole.
-/
import Mathlib

namespace Xv6

variable {α ι : Type} {U : Set α} {S S' : ι → Set α} {i j : ι} {x : α}

structure Parts (U : Set α) (S : ι → Set α) : Prop where
  cover : ∀ x ∈ U, ∃ i, x ∈ S i
  sub : ∀ i, S i ⊆ U
  disj : ∀ {i j x}, x ∈ S i → x ∈ S j → i = j

/-- The parts a function tells apart. -/
theorem Parts.of_fun {g : α → ι} (h : ∀ i x, x ∈ S i ↔ x ∈ U ∧ g x = i) : Parts U S :=
  ⟨fun x hx => ⟨g x, (h _ x).mpr ⟨hx, rfl⟩⟩, fun i x hx => ((h i x).mp hx).1,
    fun hi hj => ((h _ _).mp hi).2.symm.trans ((h _ _).mp hj).2⟩

/-- Parts `i` and `j` are divided anew. -/
theorem Parts.move (h : Parts U S) (hother : ∀ k, k ≠ i → k ≠ j → S' k = S k) (hsum : S' i ∪ S' j = S i ∪ S j)
    (hd : i ≠ j → ∀ x ∈ S' i, x ∉ S' j) : Parts U S' := by
  -- where an element of `S' k` was
  have hwas : ∀ {k x}, x ∈ S' k → x ∈ S k ∧ k ≠ i ∧ k ≠ j ∨ x ∈ S i ∪ S j ∧ (k = i ∨ k = j) := by
    intro k x hx
    by_cases hi : k = i
    · exact Or.inr ⟨hsum ▸ Or.inl (hi ▸ hx), Or.inl hi⟩
    by_cases hj : k = j
    · exact Or.inr ⟨hsum ▸ Or.inr (hj ▸ hx), Or.inr hj⟩
    exact Or.inl ⟨hother k hi hj ▸ hx, hi, hj⟩
  have hnot : ∀ {k x}, x ∈ S k → k ≠ i → k ≠ j → x ∉ S i ∪ S j := fun hx hi hj hm =>
    hm.elim (fun hm => hi (h.disj hx hm)) fun hm => hj (h.disj hx hm)
  refine ⟨fun x hx => ?_, fun k x hx => ?_, fun {k l x} hk hl => ?_⟩
  · obtain ⟨k, hk⟩ := h.cover x hx
    by_cases hm : x ∈ S i ∪ S j
    · rw [← hsum] at hm
      exact hm.elim (fun hm => ⟨i, hm⟩) fun hm => ⟨j, hm⟩
    · refine ⟨k, ?_⟩
      rw [hother k (fun he => hm (Or.inl (he ▸ hk))) fun he => hm (Or.inr (he ▸ hk))]
      exact hk
  · rcases hwas hx with ⟨hx, -⟩ | ⟨hx | hx, -⟩
    · exact h.sub k hx
    · exact h.sub i hx
    · exact h.sub j hx
  · rcases hwas hk with ⟨hk', h1, h2⟩ | ⟨hk', h1⟩
    · rcases hwas hl with ⟨hl', -⟩ | ⟨hl', -⟩
      · exact h.disj hk' hl'
      · exact absurd hl' (hnot hk' h1 h2)
    · rcases hwas hl with ⟨hl', h3, h4⟩ | ⟨-, h3⟩
      · exact absurd hk' (hnot hl' h3 h4)
      · by_contra hne
        rcases h1 with rfl | rfl <;> rcases h3 with rfl | rfl
        · exact hne rfl
        · exact hd hne x hk hl
        · exact hd (Ne.symm hne) x hl hk
        · exact hne rfl

end Xv6
