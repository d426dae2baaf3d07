/-
  Xv6.Lib.Mem — byte-addressed memory, cut into pages of 4096 bytes.

  `blit m a n f` is `m` with the `n` bytes at `a` replaced by `f 0 .. f (n - 1)`: filling,
  copying and storing a word are all of this form. Words are 32 bits, little endian.
  `SameOff S m m'`: the two memories differ in pages of `S` only; it composes
  (`SameOff.trans`), and what lies in other pages is read alike (`SameOff.load32`).
-/
import Mathlib

namespace Xv6

variable {m m' m'' : Nat → UInt8} {S T : Set Nat} {a b n x w : Nat} {f : Nat → UInt8}

def page (x : Nat) : Nat := x / 4096 * 4096

def blit (m : Nat → UInt8) (a n : Nat) (f : Nat → UInt8) : Nat → UInt8 :=
  fun x => if a ≤ x ∧ x < a + n then f (x - a) else m x

def load32 (m : Nat → UInt8) (a : Nat) : Nat :=
  (m a).toNat + 2 ^ 8 * (m (a + 1)).toNat + 2 ^ 16 * (m (a + 2)).toNat + 2 ^ 24 * (m (a + 3)).toNat

def store32 (m : Nat → UInt8) (a w : Nat) : Nat → UInt8 := blit m a 4 fun k => UInt8.ofNat (w / 2 ^ (8 * k))

def SameOff (S : Set Nat) (m m' : Nat → UInt8) : Prop := ∀ x, page x ∉ S → m' x = m x

/-! ## Pages -/

theorem page_add (h : a % 4096 = 0) (hn : n < 4096) : page (a + n) = a := by
  unfold page
  omega

theorem page_self (h : a % 4096 = 0) : page a = a := page_add (n := 0) h (by decide)

/-- A word does not leave its page. -/
theorem page_word (h : a % 4 = 0) (hn : n < 4) : page (a + n) = page a := by
  unfold page
  omega

/-! ## Writing -/

theorem blit_in (h : n < b) : blit m a b f (a + n) = f n := by
  unfold blit
  rw [if_pos ⟨Nat.le_add_right a n, by omega⟩, Nat.add_sub_cancel_left]

theorem blit_out (h : x < a ∨ a + n ≤ x) : blit m a n f x = m x := if_neg (by omega)

theorem blit_zero : blit m a 0 f = m := funext fun _ => blit_out (by omega)

/-- Two writes, one behind the other, are one. -/
theorem blit_append {k : Nat} {g h : Nat → UInt8} (hf : ∀ i < n, h i = f i) (hg : ∀ i < k, h (n + i) = g i) :
    blit (blit m a n f) (a + n) k g = blit m a (n + k) h := by
  funext x
  by_cases h1 : a ≤ x ∧ x < a + n
  · rw [blit_out (by omega), ← Nat.add_sub_cancel' h1.1, blit_in (by omega), blit_in (by omega), hf _ (by omega)]
  · by_cases h2 : a + n ≤ x ∧ x < a + n + k
    · have he : x = a + n + (x - (a + n)) := by omega
      rw [he, blit_in (by omega), Nat.add_assoc a n, blit_in (by omega), hg _ (by omega)]
    · rw [blit_out (by omega), blit_out (by omega), blit_out (by omega)]

theorem blit_congr {g : Nat → UInt8} (h : ∀ i < n, f i = g i) : blit m a n f = blit m a n g := by
  funext x
  by_cases h1 : a ≤ x ∧ x < a + n
  · rw [← Nat.add_sub_cancel' h1.1, blit_in (by omega), blit_in (by omega), h _ (by omega)]
  · rw [blit_out (by omega), blit_out (by omega)]

theorem SameOff.refl (S : Set Nat) (m : Nat → UInt8) : SameOff S m m := fun _ _ => rfl

theorem SameOff.mono (h : SameOff S m m') (hs : S ⊆ T) : SameOff T m m' := fun x hx => h x fun hm => hx (hs hm)

theorem SameOff.trans (h : SameOff S m m') (h' : SameOff S m' m'') : SameOff S m m'' :=
  fun x hx => (h' x hx).trans (h x hx)

theorem SameOff.blit (h : ∀ k < n, page (a + k) ∈ S) : SameOff S m (blit m a n f) := by
  intro x hx
  refine blit_out ?_
  by_contra hin
  have hk := h (x - a) (by omega)
  rw [Nat.add_sub_cancel' (by omega)] at hk
  exact hx hk

theorem SameOff.store32 (h : a % 4 = 0) (hs : page a ∈ S) : SameOff S m (store32 m a w) :=
  SameOff.blit fun k hk => by rw [page_word h hk]; exact hs

/-- Filling or copying a whole page. -/
theorem SameOff.blitPage (h : a % 4096 = 0) (hs : a ∈ S) : SameOff S m (Xv6.blit m a 4096 f) :=
  SameOff.blit fun k hk => by rw [page_add h hk]; exact hs

theorem SameOff.load32 (h : SameOff S m m') (ha : a % 4 = 0) (hs : page a ∉ S) : load32 m' a = load32 m a := by
  have hk : ∀ k < 4, m' (a + k) = m (a + k) := fun k hk => h _ (by rw [page_word ha hk]; exact hs)
  unfold Xv6.load32
  rw [hk 1 (by decide), hk 2 (by decide), hk 3 (by decide), show m' a = m a from hk 0 (by decide)]

/-! ## Words -/

theorem load32_lt (m : Nat → UInt8) (a : Nat) : load32 m a < 2 ^ 32 := by
  have h0 := (m a).toNat_lt
  have h1 := (m (a + 1)).toNat_lt
  have h2 := (m (a + 2)).toNat_lt
  have h3 := (m (a + 3)).toNat_lt
  unfold load32
  omega

theorem load32_store32_same (h : w < 2 ^ 32) : load32 (store32 m a w) a = w := by
  have hk : ∀ k < 4, store32 m a w (a + k) = UInt8.ofNat (w / 2 ^ (8 * k)) := fun k hk => blit_in hk
  unfold load32
  rw [hk 1 (by decide), hk 2 (by decide), hk 3 (by decide),
    show store32 m a w a = UInt8.ofNat (w / 2 ^ (8 * 0)) from hk 0 (by decide)]
  simp only [UInt8.toNat_ofNat']
  omega

theorem load32_store32_ne (h : a + 4 ≤ b ∨ b + 4 ≤ a) : load32 (store32 m a w) b = load32 m b := by
  have hk : ∀ k < 4, store32 m a w (b + k) = m (b + k) := fun k hk => blit_out (by omega)
  unfold load32
  rw [hk 1 (by decide), hk 2 (by decide), hk 3 (by decide), show store32 m a w b = m b from hk 0 (by decide)]

/-- A page of zeros holds zero words. -/
theorem load32_zero (h : ∀ k < 4, m (a + k) = 0) : load32 m a = 0 := by
  unfold load32
  rw [h 1 (by decide), h 2 (by decide), h 3 (by decide), show m a = 0 from h 0 (by decide)]
  rfl

/-! ## Counting pages -/

/-- Aligned addresses from `b` up to `n`. -/
theorem card_pages (hb : b % 4096 = 0) {s : Finset Nat} (h : ∀ x ∈ s, x % 4096 = 0 ∧ b ≤ x ∧ x < n) :
    s.card ≤ (n - b + 4095) / 4096 := by
  have hmap : ∀ x ∈ s, (x - b) / 4096 ∈ Finset.range ((n - b + 4095) / 4096) := by
    intro x hx
    have := h x hx
    rw [Finset.mem_range]
    omega
  have hinj : ∀ x ∈ s, ∀ y ∈ s, (x - b) / 4096 = (y - b) / 4096 → x = y := by
    intro x hx y hy he
    have := h x hx
    have := h y hy
    omega
  have := Finset.card_le_card_of_injOn _ hmap hinj
  rwa [Finset.card_range] at this

end Xv6
