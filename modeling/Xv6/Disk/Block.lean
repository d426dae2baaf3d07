/-
  Xv6.Disk.Block — a disk block as its bytes, and the little-endian words the kernel
  lays over them (`struct logheader`, an indirect block's `uint a[NINDIRECT]`, a bitmap).

  Nothing here names the kernel's own structures: `le32 b o` is the 32-bit word whose
  four bytes start at offset `o`, `putLe32` stores one. A store is read back modulo
  2^32 (`le32_put_same`) and leaves every word that shares no byte with it alone
  (`le32_put_apart`). `getBit b i` is bit `i % 8` of byte `i / 8`; setting or clearing a
  bit changes that bit alone. `patch` is a `memmove` into a block.
-/
import Mathlib

namespace Xv6

abbrev Block := Nat → UInt8

abbrev Disk := Nat → Block

def zeroBlock : Block := fun _ => 0

def le32 (b : Block) (o : Nat) : Nat :=
  (b o).toNat + (b (o + 1)).toNat * 2 ^ 8 + (b (o + 2)).toNat * 2 ^ 16 + (b (o + 3)).toNat * 2 ^ 24

def putLe32 (b : Block) (o v : Nat) : Block := fun i =>
  if i = o then UInt8.ofNat v
  else if i = o + 1 then UInt8.ofNat (v / 2 ^ 8)
  else if i = o + 2 then UInt8.ofNat (v / 2 ^ 16)
  else if i = o + 3 then UInt8.ofNat (v / 2 ^ 24)
  else b i

@[simp] theorem le32_zero (o : Nat) : le32 zeroBlock o = 0 := by simp [le32, zeroBlock]

theorem putLe32_apart {b : Block} {o v i : Nat} (h : i < o ∨ o + 4 ≤ i) : putLe32 b o v i = b i := by
  have h0 : i ≠ o := by omega
  have h1 : i ≠ o + 1 := by omega
  have h2 : i ≠ o + 2 := by omega
  have h3 : i ≠ o + 3 := by omega
  simp only [putLe32, h0, h1, h2, h3, if_false]

@[simp] theorem le32_put_same (b : Block) (o v : Nat) : le32 (putLe32 b o v) o = v % 2 ^ 32 := by
  simp only [le32, putLe32, if_true, Nat.add_eq_left, Nat.add_left_cancel_iff, Nat.reduceEqDiff, if_false,
    UInt8.toNat_ofNat']
  omega

theorem le32_put_apart {b : Block} {o v p : Nat} (h : p + 4 ≤ o ∨ o + 4 ≤ p) : le32 (putLe32 b o v) p = le32 b p := by
  simp only [le32]
  rw [putLe32_apart (by omega), putLe32_apart (by omega), putLe32_apart (by omega), putLe32_apart (by omega)]

/-! ## Bytes moved into a block -/

def patch (b : Block) (o n : Nat) (src : Nat → UInt8) : Block := fun i =>
  if o ≤ i ∧ i < o + n then src (i - o) else b i

theorem patch_in {b : Block} {o n i : Nat} {src : Nat → UInt8} (h1 : o ≤ i) (h2 : i < o + n) :
    patch b o n src i = src (i - o) := by simp only [patch, h1, h2, and_self, if_true]

theorem patch_out {b : Block} {o n i : Nat} {src : Nat → UInt8} (h : i < o ∨ o + n ≤ i) :
    patch b o n src i = b i := by
  have : ¬ (o ≤ i ∧ i < o + n) := by omega
  simp only [patch, this, if_false]

/-! ## 16-bit words -/

def le16 (b : Nat → UInt8) (o : Nat) : Nat := (b o).toNat + (b (o + 1)).toNat * 2 ^ 8

def putLe16 (b : Nat → UInt8) (o v : Nat) : Nat → UInt8 := fun i =>
  if i = o then UInt8.ofNat v else if i = o + 1 then UInt8.ofNat (v / 2 ^ 8) else b i

theorem putLe16_apart {b : Nat → UInt8} {o v i : Nat} (h : i < o ∨ o + 2 ≤ i) : putLe16 b o v i = b i := by
  have h0 : i ≠ o := by omega
  have h1 : i ≠ o + 1 := by omega
  simp only [putLe16, h0, h1, if_false]

@[simp] theorem le16_put_same (b : Nat → UInt8) (o v : Nat) : le16 (putLe16 b o v) o = v % 2 ^ 16 := by
  simp only [le16, putLe16, if_true, Nat.add_eq_left, Nat.reduceEqDiff, if_false, UInt8.toNat_ofNat']
  omega

theorem le16_congr {b b' : Nat → UInt8} {o : Nat} (h : ∀ i, o ≤ i → i < o + 2 → b i = b' i) : le16 b o = le16 b' o := by
  simp only [le16, h o (by omega) (by omega), h (o + 1) (by omega) (by omega)]

theorem le32_congr {b b' : Block} {o : Nat} (h : ∀ i, o ≤ i → i < o + 4 → b i = b' i) : le32 b o = le32 b' o := by
  simp only [le32, h o (by omega) (by omega), h (o + 1) (by omega) (by omega), h (o + 2) (by omega) (by omega),
    h (o + 3) (by omega) (by omega)]

/-! ## Bits -/

def bitMask (i : Nat) : UInt8 := 1 <<< UInt8.ofNat (i % 8)

def getBit (b : Block) (i : Nat) : Bool := b (i / 8) &&& bitMask i != 0

def setBit (b : Block) (i : Nat) : Block := Function.update b (i / 8) (b (i / 8) ||| bitMask i)

def clearBit (b : Block) (i : Nat) : Block := Function.update b (i / 8) (b (i / 8) &&& ~~~ bitMask i)

theorem bitMask_toNat (i : Nat) : (bitMask i).toNat = 2 ^ (i % 8) := by
  have h : i % 8 < 8 := Nat.mod_lt _ (by decide)
  simp only [bitMask]
  exact (by decide : ∀ k < 8, (1 <<< UInt8.ofNat k).toNat = 2 ^ k) _ h

theorem getBit_eq_testBit (b : Block) (i : Nat) : getBit b i = (b (i / 8)).toNat.testBit (i % 8) := by
  rw [getBit, bne, Bool.eq_iff_iff, Bool.not_eq_true', beq_eq_false_iff_ne, ne_eq, ← UInt8.toNat_inj,
    UInt8.toNat_and, bitMask_toNat, Nat.and_two_pow]
  cases (b (i / 8)).toNat.testBit (i % 8) <;> simp

theorem getBit_setBit (b : Block) (i j : Nat) : getBit (setBit b i) j = (getBit b j || decide (j = i)) := by
  simp only [getBit_eq_testBit, setBit]
  by_cases h : j / 8 = i / 8
  · have hij : i % 8 = j % 8 ↔ j = i := by omega
    rw [h, Function.update_self, UInt8.toNat_or, bitMask_toNat, Nat.testBit_or, Nat.testBit_two_pow,
      decide_eq_decide.mpr hij]
  · have hij : j ≠ i := fun e => h (by rw [e])
    rw [Function.update_of_ne h, decide_eq_false hij, Bool.or_false]

theorem getBit_clearBit (b : Block) (i j : Nat) : getBit (clearBit b i) j = (getBit b j && !decide (j = i)) := by
  simp only [getBit_eq_testBit, clearBit]
  by_cases h : j / 8 = i / 8
  · have hij : i % 8 = j % 8 ↔ j = i := by omega
    have hj : j % 8 < 8 := Nat.mod_lt _ (by decide)
    have hnot : (~~~ bitMask i).toNat.testBit (j % 8) = !(bitMask i).toNat.testBit (j % 8) := by
      have : (~~~ bitMask i).toNat = (~~~ (bitMask i).toBitVec).toNat := rfl
      rw [this, BitVec.testBit_toNat, BitVec.getLsbD_not, decide_eq_true hj, Bool.true_and]
      rfl
    rw [h, Function.update_self, UInt8.toNat_and, Nat.testBit_and, hnot, bitMask_toNat, Nat.testBit_two_pow,
      decide_eq_decide.mpr hij]
  · have hij : j ≠ i := fun e => h (by rw [e])
    rw [Function.update_of_ne h, decide_eq_false hij, Bool.not_false, Bool.and_true]

end Xv6
