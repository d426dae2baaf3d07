/-
  Xv6.Lib.Table — tables indexed by numbers, and the pointers into them.

  `upd f i v` is `f` with entry `i` replaced; it is `Function.update` without the cast, so
  that a table built by many updates is evaluated one comparison at a time.
  `Owns ptr used`: the nonzero values of `ptr` are pairwise distinct and are exactly the
  used ones: each used resource has one owner and each owner's resource is used. `claim`
  and `release` are the two ways to change owners.
-/
import Mathlib

namespace Xv6

variable {α β : Type}

def upd (f : Nat → α) (i : Nat) (v : α) : Nat → α := fun j => if j = i then v else f j

@[simp] theorem upd_same (f : Nat → α) (i : Nat) (v : α) : upd f i v i = v := if_pos rfl

@[simp] theorem upd_ne {f : Nat → α} {i j : Nat} (h : j ≠ i) (v : α) : upd f i v j = f j := if_neg h

theorem upd_apply (f : Nat → α) (i : Nat) (v : α) (j : Nat) : upd f i v j = if j = i then v else f j := rfl

@[simp] theorem upd_upd (f : Nat → α) (i : Nat) (v w : α) : upd (upd f i v) i w = upd f i w := by
  funext j
  by_cases h : j = i <;> simp [upd, h]

@[simp] theorem upd_self (f : Nat → α) (i : Nat) : upd f i (f i) = f := by
  funext j
  by_cases h : j = i <;> simp [upd, h]

/-- A property of every entry, for an updated table. -/
theorem forall_upd {f : Nat → α} {i : Nat} {v : α} {P : Nat → α → Prop} (h : ∀ j, j ≠ i → P j (f j)) (hv : P i v) :
    ∀ j, P j (upd f i v j) := fun j => by
  by_cases e : j = i
  · rw [e, upd_same]; exact hv
  · rw [upd_ne e]; exact h j e

/-! ## Owners -/

structure Owns (ptr : α → Nat) (used : Nat → Prop) : Prop where
  inj : ∀ {a b}, ptr a ≠ 0 → ptr a = ptr b → a = b
  exact_ : ∀ x, x ≠ 0 → (used x ↔ ∃ a, ptr a = x)

namespace Owns

variable {ptr ptr' : α → Nat} {used used' : Nat → Prop}

theorem used_of (h : Owns ptr used) {a : α} (ha : ptr a ≠ 0) : used (ptr a) := (h.exact_ _ ha).mpr ⟨a, rfl⟩

/-- An owner that has nothing takes an unused resource. -/
theorem claim (h : Owns ptr used) {a : α} {x : Nat} (ha : ptr a = 0) (hx : ¬ used x) (h0 : x ≠ 0)
    (hp : ptr' a = x) (hq : ∀ b, b ≠ a → ptr' b = ptr b) (hu : ∀ y, y ≠ 0 → (used' y ↔ used y ∨ y = x)) :
    Owns ptr' used' := by
  have fresh : ∀ b, ptr b ≠ x := fun b hb => hx ((h.exact_ x h0).mpr ⟨b, hb⟩)
  refine ⟨fun {b c} hb hbc => ?_, fun y hy => ?_⟩
  · by_cases eb : b = a <;> by_cases ec : c = a
    · rw [eb, ec]
    · rw [eb, hp, hq c ec] at hbc
      exact absurd hbc.symm (fresh c)
    · rw [ec, hp, hq b eb] at hbc
      exact absurd hbc (fresh b)
    · rw [hq b eb] at hb hbc
      rw [hq c ec] at hbc
      exact h.inj hb hbc
  · rw [hu y hy, h.exact_ y hy]
    constructor
    · rintro (⟨b, hb⟩ | rfl)
      · have : b ≠ a := fun e => hy (by rw [← hb, e, ha])
        exact ⟨b, by rw [hq b this, hb]⟩
      · exact ⟨a, hp⟩
    · rintro ⟨b, hb⟩
      by_cases e : b = a
      · rw [e, hp] at hb
        exact Or.inr hb.symm
      · exact Or.inl ⟨b, by rw [← hq b e, hb]⟩

/-- An owner gives its resource back. -/
theorem release (h : Owns ptr used) {a : α} (hp : ptr' a = 0) (hq : ∀ b, b ≠ a → ptr' b = ptr b)
    (hu : ∀ y, y ≠ 0 → (used' y ↔ used y ∧ y ≠ ptr a)) : Owns ptr' used' := by
  refine ⟨fun {b c} hb hbc => ?_, fun y hy => ?_⟩
  · have eb : b ≠ a := fun e => hb (by rw [e, hp])
    have ec : c ≠ a := fun e => hb (by rw [hbc, e, hp])
    rw [hq b eb] at hb hbc
    rw [hq c ec] at hbc
    exact h.inj hb hbc
  · rw [hu y hy, h.exact_ y hy]
    constructor
    · rintro ⟨⟨b, hb⟩, hne⟩
      have : b ≠ a := fun e => hne (by rw [← hb, e])
      exact ⟨b, by rw [hq b this, hb]⟩
    · rintro ⟨b, hb⟩
      have eb : b ≠ a := fun e => hy (by rw [← hb, e, hp])
      rw [hq b eb] at hb
      exact ⟨⟨b, hb⟩, fun e => eb (h.inj (by rw [hb]; exact hy) (by rw [hb, e]))⟩

theorem congr (h : Owns ptr used) (hp : ∀ a, ptr' a = ptr a) (hu : ∀ y, y ≠ 0 → (used' y ↔ used y)) :
    Owns ptr' used' := by
  have : ptr' = ptr := funext hp
  subst this
  exact ⟨h.inj, fun x hx => (hu x hx).trans (h.exact_ x hx)⟩

end Owns

/-! ## Counting -/

/-- A sum over a table of which one entry changes. -/
theorem sum_range_change {n i : Nat} (hi : i < n) {f g : Nat → Nat} (h : ∀ j, j ≠ i → g j = f j) :
    (∑ j ∈ Finset.range n, g j) + f i = (∑ j ∈ Finset.range n, f j) + g i := by
  have hm : i ∈ Finset.range n := Finset.mem_range.mpr hi
  have hg := Finset.add_sum_erase _ g hm
  have hf := Finset.add_sum_erase _ f hm
  have hc : ∑ j ∈ (Finset.range n).erase i, g j = ∑ j ∈ (Finset.range n).erase i, f j :=
    Finset.sum_congr rfl fun j hj => h j (Finset.ne_of_mem_erase hj)
  omega

end Xv6
