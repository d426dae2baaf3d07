/-
  Xv6.Lib.Slots — a finite map kept in an array of slots.

  `f i` is what slot `i` of the first `n` holds: a key and its value, or nothing. `slotMap n f` is
  the map they make, by the first slot with the key; `slotOf` is that slot. With no key in two
  slots (`Distinct`) every slot counts, a binding put into an empty slot is added (`Distinct.put`),
  and one whose slot is emptied is gone (`Distinct.clear`).
-/
import Mathlib

namespace Xv6.Slots

variable {K V : Type} [DecidableEq K] {n n' i j : Nat} {f f' : Nat → Option (K × V)} {k : K} {x y : V}

def binds (e : Option (K × V)) (k : K) : Bool := e.any fun p => decide (p.1 = k)

def slotOf (n : Nat) (f : Nat → Option (K × V)) (k : K) : Option Nat := (List.range n).find? fun i => binds (f i) k

def slotMap (n : Nat) (f : Nat → Option (K × V)) (k : K) : Option V := (slotOf n f k).bind fun i => (f i).map Prod.snd

def Distinct (n : Nat) (f : Nat → Option (K × V)) : Prop :=
  ∀ i j, i < n → j < n → ∀ k x y, f i = some (k, x) → f j = some (k, y) → i = j

theorem binds_iff {e : Option (K × V)} : binds e k = true ↔ ∃ x, e = some (k, x) := by
  cases e with
  | none => simp [binds]
  | some p =>
    obtain ⟨a, b⟩ := p
    simp [binds]

theorem slotOf_none : slotOf n f k = none ↔ ∀ i, i < n → ∀ x, f i ≠ some (k, x) := by
  rw [slotOf, List.find?_eq_none]
  constructor
  · intro h i hi x hx
    exact h i (List.mem_range.mpr hi) (binds_iff.mpr ⟨x, hx⟩)
  · intro h i hi hb
    obtain ⟨x, hx⟩ := binds_iff.mp hb
    exact h i (List.mem_range.mp hi) x hx

theorem slotOf_some (h : slotOf n f k = some i) : i < n ∧ ∃ x, f i = some (k, x) := by
  rw [slotOf] at h
  have hb := List.find?_some h
  exact ⟨List.mem_range.mp (List.mem_of_find?_eq_some h), binds_iff.mp hb⟩

theorem slotMap_none : slotMap n f k = none ↔ slotOf n f k = none := by
  rw [slotMap]
  cases h : slotOf n f k with
  | none => simp
  | some i =>
    obtain ⟨-, x, hx⟩ := slotOf_some h
    simp [hx]

/-- The map depends on the slots alone. -/
theorem slotMap_congr (h : ∀ i, i < n → f' i = f i) (k : K) :
    slotMap n f' k = slotMap n f k ∧ slotOf n f' k = slotOf n f k := by
  have hs : slotOf n f' k = slotOf n f k := by
    simp only [slotOf]
    exact List.find?_congr fun i hi => by rw [h i (List.mem_range.mp hi)]
  refine ⟨?_, hs⟩
  rw [slotMap, hs, slotMap]
  cases he : slotOf n f k with
  | none => rfl
  | some i => simp only [Option.bind_some, h i (slotOf_some he).1]

namespace Distinct

omit [DecidableEq K] in
theorem congr (h : Distinct n f) (he : ∀ i, i < n → f' i = f i) : Distinct n f' := fun i j hi hj k x y h1 h2 =>
  h i j hi hj k x y (by rw [← he i hi, h1]) (by rw [← he j hj, h2])

theorem slotOf_eq (h : Distinct n f) (hi : i < n) (he : f i = some (k, x)) : slotOf n f k = some i := by
  cases hs : slotOf n f k with
  | none => exact absurd he (slotOf_none.mp hs i hi x)
  | some j =>
    obtain ⟨hj, y, hy⟩ := slotOf_some hs
    rw [h i j hi hj k x y he hy]

theorem slotMap_eq (h : Distinct n f) (hi : i < n) (he : f i = some (k, x)) : slotMap n f k = some x := by
  rw [slotMap, h.slotOf_eq hi he, Option.bind_some, he, Option.map_some]

/-- Two sets of slots with the same bindings make the same map. -/
theorem ext_map (h : Distinct n f) (h' : Distinct n' f') (hb : ∀ x, (∃ i, i < n' ∧ f' i = some (k, x)) ↔ ∃ i, i < n ∧
    f i = some (k, x)) : slotMap n' f' k = slotMap n f k := by
  cases hs : slotOf n f k with
  | none =>
    rw [slotMap_none.mpr hs, slotMap_none, slotOf_none]
    intro i hi x hx
    obtain ⟨j, hj, he⟩ := (hb x).mp ⟨i, hi, hx⟩
    exact slotOf_none.mp hs j hj x he
  | some i =>
    obtain ⟨hi, x, hx⟩ := slotOf_some hs
    obtain ⟨j, hj, he⟩ := (hb x).mpr ⟨i, hi, hx⟩
    rw [h.slotMap_eq hi hx, h'.slotMap_eq hj he]

/-- A new binding in an empty slot, which may be the one behind the last. -/
theorem put (h : Distinct n f) (hk : slotMap n f k = none) (hn : ∀ j, j < n' ↔ j < n ∨ j = i) (hi : i < n → f i = none)
    (he : f' i = some (k, x)) (hf : ∀ j, j < n → j ≠ i → f' j = f j) :
    Distinct n' f' ∧ slotMap n' f' = Function.update (slotMap n f) k (some x) := by
  have hfree := slotOf_none.mp (slotMap_none.mp hk)
  have hlt : i < n' := (hn i).mpr (Or.inr rfl)
  have hold : ∀ j, j < n' → j ≠ i → j < n ∧ f' j = f j := fun j hj hne =>
    have hj := ((hn j).mp hj).resolve_right hne
    ⟨hj, hf j hj hne⟩
  have hd : Distinct n' f' := by
    intro a b ha hb c u w h1 h2
    by_cases ea : a = i <;> by_cases eb : b = i
    · rw [ea, eb]
    · obtain ⟨hb, e⟩ := hold b hb eb
      rw [ea, he] at h1
      cases h1
      exact absurd (e ▸ h2) (hfree b hb w)
    · obtain ⟨ha, e⟩ := hold a ha ea
      rw [eb, he] at h2
      cases h2
      exact absurd (e ▸ h1) (hfree a ha u)
    · obtain ⟨ha, e1⟩ := hold a ha ea
      obtain ⟨hb, e2⟩ := hold b hb eb
      exact h a b ha hb c u w (e1 ▸ h1) (e2 ▸ h2)
  refine ⟨hd, funext fun c => ?_⟩
  by_cases ec : c = k
  · subst ec
    rw [Function.update_self, hd.slotMap_eq hlt he]
  · rw [Function.update_of_ne ec]
    refine h.ext_map hd fun w => ⟨?_, ?_⟩
    · rintro ⟨j, hj, hw⟩
      have hne : j ≠ i := by
        rintro rfl
        rw [he] at hw
        cases hw
        exact ec rfl
      obtain ⟨hj, e⟩ := hold j hj hne
      exact ⟨j, hj, e ▸ hw⟩
    · rintro ⟨j, hj, hw⟩
      have hne : j ≠ i := by
        rintro rfl
        rw [hi hj] at hw
        cases hw
      exact ⟨j, (hn j).mpr (Or.inl hj), by rw [hf j hj hne]; exact hw⟩

/-- The slot of a binding is emptied. -/
theorem clear (h : Distinct n f) (hi : i < n) (he : f i = some (k, x)) (hn : f' i = none)
    (hf : ∀ j, j < n → j ≠ i → f' j = f j) : Distinct n f' ∧ slotMap n f' = Function.update (slotMap n f) k none := by
  have hold : ∀ j c u, j < n → f' j = some (c, u) → j ≠ i ∧ f j = some (c, u) := fun j c u hj hu => by
    have hne : j ≠ i := by
      rintro rfl
      rw [hn] at hu
      cases hu
    exact ⟨hne, by rw [← hf j hj hne]; exact hu⟩
  have hd : Distinct n f' := fun a b ha hb c u w h1 h2 =>
    h a b ha hb c u w (hold a c u ha h1).2 (hold b c w hb h2).2
  refine ⟨hd, funext fun c => ?_⟩
  by_cases ec : c = k
  · subst ec
    rw [Function.update_self, slotMap_none, slotOf_none]
    intro j hj u hu
    obtain ⟨hne, hu⟩ := hold j c u hj hu
    exact hne (h j i hj hi c u x hu he)
  · rw [Function.update_of_ne ec]
    refine h.ext_map hd fun w => ⟨?_, ?_⟩
    · rintro ⟨j, hj, hw⟩
      exact ⟨j, hj, (hold j c w hj hw).2⟩
    · rintro ⟨j, hj, hw⟩
      have hne : j ≠ i := by
        rintro rfl
        rw [he] at hw
        cases hw
        exact ec rfl
      exact ⟨j, hj, by rw [hf j hj hne]; exact hw⟩

end Distinct

end Xv6.Slots
