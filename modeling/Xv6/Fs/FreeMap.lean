/-
  Xv6.Fs.FreeMap — `balloc` and `bfree` of kernel/fs.c against a set of free block numbers,
  for every superblock.

  Only what the two functions read is modelled: the superblock's `size` and `bmapstart`, both
  `uint`, and the blocks as `bread` returns them and `log_write` keeps them. Nothing is
  assumed of the layout: the free map may lie anywhere, and may say that its own blocks are
  free. `balloc` counts with `int b`, so the model stops where `b += BPB` is not an `int`.

  `free sb d` is the set of the numbers below `size` whose bit is clear. `BallocOk` is what a
  set of free numbers asks of one `balloc`: nothing and no change from the empty set, else the
  least number, with its bit set, its block zeroed and nothing else changed.

  Proved: `balloc` does that exactly when `BallocFits` holds: its loop does not have to go past
  the largest `int`, and the block it takes is not one whose bits it would wipe. `bfree` clears
  one bit, undoes `balloc`, and between two `balloc`s that return one number lies a `bfree` of
  it. mkfs's own `balloc` writes a map that is read as the numbers below `used`.
-/
import Xv6.Fs.Alloc
import Mathlib

namespace Xv6.Mkfs

abbrev NINODES : Nat := 200

def ninodeblocks : Nat := NINODES / IPB + 1
def nlog : Nat := LOGSIZE

/-- mkfs's layout: boot block, superblock, log, inodes, free map, data. -/
def sb : Fs.Superblock where
  size := FSSIZE
  ninodes := NINODES
  nlog := nlog
  logstart := 2
  inodestart := 2 + nlog
  bmapstart := 2 + nlog + ninodeblocks
  boot := by decide
  log_le := by decide
  inodes_le := by decide
  bmap_le := by decide
  size_lt := by decide
  ninodes_le := by decide
  root_lt := by decide

def bitmap (used : Nat) : Block := (List.range used).foldl setBit zeroBlock

theorem getBit_bitmap (used i : Nat) : getBit (bitmap used) i = decide (i < used) := by
  induction used with
  | zero => simp [bitmap, getBit, zeroBlock]
  | succ n ih =>
    have hstep : bitmap (n + 1) = setBit (bitmap n) n := by
      simp only [bitmap, List.range_succ, List.foldl_append, List.foldl_cons, List.foldl_nil]
    rw [hstep, getBit_setBit, ih, ← Bool.decide_or]
    exact decide_eq_decide.mpr (by omega)

end Xv6.Mkfs

namespace Xv6.Fs.FreeMap

/-- The fields of `struct superblock` that `balloc` and `bfree` read. -/
structure Super where
  size : Nat
  bmapstart : Nat
  size_lt : size < 2 ^ 32
  bmapstart_lt : bmapstart < 2 ^ 32

inductive Stop where
  /-- panic("freeing free block") -/
  | freeingFree
  /-- `b += BPB` is larger than any `int` -/
  | overflow
  deriving DecidableEq, Repr

variable (sb : Super)

def bblock (b : Nat) : Nat := (b / BPB + sb.bmapstart) % 2 ^ 32

def bzero (d : Disk) (bno : Nat) : Disk := upd d bno zeroBlock

/-- `balloc`'s inner loop: the first clear bit of the bitmap block that starts with block `b`'s bit. -/
def freeBit (data : Block) (b : Nat) : Option Nat :=
  (List.range (min BPB (sb.size - b))).find? fun bi => !getBit data bi

/-- `balloc`'s outer loop from `b` on: the number it returns and the blocks it leaves. -/
def ballocLoop (d : Disk) (b : Nat) : Except Stop (Nat × Disk) :=
  if b < sb.size then
    match freeBit sb (d (bblock sb b)) b with
    | some bi => .ok (b + bi, bzero (upd d (bblock sb b) (setBit (d (bblock sb b)) bi)) (b + bi))
    | none => if b + BPB < 2 ^ 31 then ballocLoop d (b + BPB) else .error .overflow
  else .ok (0, d)
termination_by sb.size - b
decreasing_by simp only [BPB, BSIZE]; omega

def balloc (d : Disk) : Except Stop (Nat × Disk) := ballocLoop sb d 0

def bfree (d : Disk) (b : Nat) : Except Stop Disk :=
  if getBit (d (bblock sb b)) (b % BPB) = false then .error .freeingFree
  else .ok (upd d (bblock sb b) (clearBit (d (bblock sb b)) (b % BPB)))

/-! ## The set of free numbers -/

def bit (d : Disk) (x : Nat) : Bool := getBit (d (bblock sb x)) (x % BPB)

def free (d : Disk) : Set Nat := {x | x < sb.size ∧ bit sb d x = false}

/-- What taking one number out of a set of free numbers asks of `balloc`. -/
structure BallocOk (d : Disk) : Prop where
  full : balloc sb d = .ok (0, d) ↔ free sb d = ∅
  least : ∀ b, IsLeast (free sb d) b → ∃ d', balloc sb d = .ok (b, d') ∧
    (∀ x, x < sb.size → bit sb d' x = (bit sb d x || decide (x = b))) ∧
    d' (bblock sb b) = setBit (d (bblock sb b)) (b % BPB) ∧ d' b = zeroBlock ∧
    ∀ y, y ≠ bblock sb b → y ≠ b → d' y = d y

/-- The loop ends before `b` leaves the range of an `int`, and zeroing the block it takes wipes no
    bit of the free map. -/
structure BallocFits (d : Disk) : Prop where
  full : free sb d = ∅ → sb.size ≤ 2 ^ 31 - BPB
  least : ∀ b, IsLeast (free sb d) b → b < 2 ^ 31 ∧ ∀ x, x < sb.size → bblock sb x = b → x ≠ b ∧ bit sb d x = false

variable {sb} {d d' : Disk} {b x : Nat}

theorem div_lt (hx : x < 2 ^ 32) : x / BPB < 2 ^ 20 := by
  simp only [BPB, BSIZE]
  omega

theorem bblock_eq_iff (hx : x < 2 ^ 32) (hb : b < 2 ^ 32) : bblock sb x = bblock sb b ↔ x / BPB = b / BPB := by
  have h1 := div_lt hx
  have h2 := div_lt hb
  simp only [bblock]
  generalize x / BPB = p at *
  generalize b / BPB = q at *
  omega

/-- One bit of the free map changes. -/
theorem bit_upd (hb : b < 2 ^ 32) (hx : x < 2 ^ 32) (v : Block) :
    bit sb (upd d (bblock sb b) v) x = if x / BPB = b / BPB then getBit v (x % BPB) else bit sb d x := by
  simp only [bit, upd_apply, bblock_eq_iff hx hb]
  split <;> rfl

theorem same_bit (h : x / BPB = b / BPB) : x % BPB = b % BPB ↔ x = b := by
  simp only [BPB, BSIZE] at *
  omega

theorem bit_mark (hb : b < 2 ^ 32) (hx : x < 2 ^ 32) :
    bit sb (upd d (bblock sb b) (setBit (d (bblock sb b)) (b % BPB))) x = (bit sb d x || decide (x = b)) := by
  rw [bit_upd hb hx]
  split
  · rename_i h
    rw [getBit_setBit, decide_eq_decide.mpr (same_bit h), bit, (bblock_eq_iff hx hb).mpr h]
  · rename_i h
    have hne : x ≠ b := fun e => h (by rw [e])
    rw [decide_eq_false hne, Bool.or_false]

theorem bit_unmark (hb : b < 2 ^ 32) (hx : x < 2 ^ 32) :
    bit sb (upd d (bblock sb b) (clearBit (d (bblock sb b)) (b % BPB))) x = (bit sb d x && !decide (x = b)) := by
  rw [bit_upd hb hx]
  split
  · rename_i h
    rw [getBit_clearBit, decide_eq_decide.mpr (same_bit h), bit, (bblock_eq_iff hx hb).mpr h]
  · rename_i h
    have hne : x ≠ b := fun e => h (by rw [e])
    rw [decide_eq_false hne, Bool.not_false, Bool.and_true]

/-! ## The loops of `balloc` -/

/-- The bit of `b + bi` where `b` is the first number of a block of the map. -/
theorem bit_of_first {bi : Nat} (hb : b % BPB = 0) (h : bi < BPB) :
    bit sb d (b + bi) = getBit (d (bblock sb b)) bi := by
  have h1 : (b + bi) / BPB = b / BPB := by simp only [BPB, BSIZE] at *; omega
  have h2 : (b + bi) % BPB = bi := by simp only [BPB, BSIZE] at *; omega
  rw [bit, h2, bblock, h1, bblock]

theorem freeBit_eq_some {data : Block} {bi : Nat} :
    freeBit sb data b = some bi ↔
      bi < BPB ∧ b + bi < sb.size ∧ getBit data bi = false ∧ ∀ j < bi, getBit data j = true := by
  simp only [freeBit, List.find?_range_eq_some, Bool.not_eq_true', List.mem_range]
  constructor
  · intro ⟨h1, h2, h3⟩
    exact ⟨by omega, by omega, h1, fun j hj => by simpa using h3 j hj⟩
  · intro ⟨h1, h2, h3, h4⟩
    exact ⟨h3, by omega, fun j hj => by simpa using h4 j hj⟩

theorem freeBit_eq_none {data : Block} :
    freeBit sb data b = none ↔ ∀ bi, bi < BPB → b + bi < sb.size → getBit data bi = true := by
  simp only [freeBit, List.find?_eq_none, List.mem_range, Bool.not_eq_true', Bool.not_eq_false]
  constructor
  · intro h bi h1 h2
    exact h bi (by omega)
  · intro h bi h1
    exact h bi (by omega) (by omega)

/-- A free number is behind a full block of the map. -/
theorem behind_full {f : Nat} (hf : f ∈ free sb d) (hb : b % BPB = 0) (hle : b ≤ f)
    (hnone : freeBit sb (d (bblock sb b)) b = none) : b + BPB ≤ f := by
  obtain ⟨hlt, hclear⟩ := hf
  by_contra hin
  have hset := freeBit_eq_none.mp hnone (f - b) (by omega) (by omega)
  rw [← bit_of_first hb (by omega), Nat.add_sub_cancel' hle, hclear] at hset
  cases hset

def taken (sb : Super) (d : Disk) (b : Nat) : Disk :=
  bzero (upd d (bblock sb b) (setBit (d (bblock sb b)) (b % BPB))) b

/-- From below the least free number the loop gets to it, or stops at the largest `int`. -/
theorem ballocLoop_least {f : Nat} (hf : IsLeast (free sb d) f) (b : Nat) :
    b % BPB = 0 → b ≤ f → b < 2 ^ 31 →
      ballocLoop sb d b = if f < 2 ^ 31 then .ok (f, taken sb d f) else .error .overflow := by
  obtain ⟨⟨hlt, hclear⟩, hmin⟩ := hf
  fun_induction ballocLoop sb d b with
  | case1 b hb bi hbi =>
    intro hmod hle hint
    obtain ⟨h1, h2, h3, -⟩ := freeBit_eq_some.mp hbi
    -- nothing below `f` is free, and `f` is in the block or behind it
    have hge : f ≤ b + bi := hmin ⟨h2, by rw [bit_of_first hmod h1]; exact h3⟩
    have hfbi : f = b + bi := by
      obtain ⟨-, -, -, h4⟩ := freeBit_eq_some.mp hbi
      by_contra hne
      have h5 := h4 (f - b) (by omega)
      rw [← bit_of_first hmod (by omega), Nat.add_sub_cancel' hle, hclear] at h5
      cases h5
    have hdiv : f / BPB = b / BPB := by simp only [BPB, BSIZE] at *; omega
    have hmodf : f % BPB = bi := by simp only [BPB, BSIZE] at *; omega
    have hint' : f < 2 ^ 31 := by simp only [BPB, BSIZE] at *; omega
    have hblk : bblock sb f = bblock sb b := by simp only [bblock, hdiv]
    rw [if_pos hint', taken, hblk, hmodf, hfbi]
  | case2 b hb hnone hnext ih =>
    intro hmod hle _
    exact ih (by simp only [BPB, BSIZE] at *; omega) (behind_full ⟨hlt, hclear⟩ hmod hle hnone) hnext
  | case3 b hb hnone hend =>
    intro hmod hle _
    have hge := behind_full ⟨hlt, hclear⟩ hmod hle hnone
    rw [if_neg (by omega)]
  | case4 b hb =>
    intro _ hle _
    omega

/-- Over a full map it returns 0, if it can count to `size`. -/
theorem ballocLoop_full (hf : free sb d = ∅) (b : Nat) :
    b % BPB = 0 → b < 2 ^ 31 →
      ballocLoop sb d b = if sb.size ≤ 2 ^ 31 - BPB then .ok (0, d) else .error .overflow := by
  fun_induction ballocLoop sb d b with
  | case1 b hb bi hbi =>
    intro hmod _
    obtain ⟨h1, h2, h3, -⟩ := freeBit_eq_some.mp hbi
    have hmem : b + bi ∈ free sb d := ⟨h2, by rw [bit_of_first hmod h1]; exact h3⟩
    rw [hf] at hmem
    cases hmem
  | case2 b hb hnone hnext ih =>
    intro hmod _
    exact ih (by simp only [BPB, BSIZE] at *; omega) hnext
  | case3 b hb hnone hend =>
    intro hmod _
    rw [if_neg (by simp only [BPB, BSIZE] at *; omega)]
  | case4 b hb =>
    intro hmod hint
    rw [if_pos (by simp only [BPB, BSIZE] at *; omega)]

theorem balloc_least {f : Nat} (hf : IsLeast (free sb d) f) :
    balloc sb d = if f < 2 ^ 31 then .ok (f, taken sb d f) else .error .overflow :=
  ballocLoop_least hf 0 rfl (Nat.zero_le f) (by decide)

theorem balloc_full (hf : free sb d = ∅) :
    balloc sb d = if sb.size ≤ 2 ^ 31 - BPB then .ok (0, d) else .error .overflow :=
  ballocLoop_full hf 0 rfl (by decide)

theorem exists_least (h : free sb d ≠ ∅) : ∃ b, IsLeast (free sb d) b := by
  classical
  have hex : ∃ x, x ∈ free sb d := Set.nonempty_iff_ne_empty.mpr h
  exact ⟨Nat.find hex, Nat.find_spec hex, fun x hx => Nat.find_min' hex hx⟩

/-! ## `balloc` as a set operation -/

/-- Zeroing a block with no set bits of the map in it leaves the bit just set alone. -/
theorem bit_taken (hb : b < sb.size) (hx : x < sb.size)
    (hwipe : ∀ x, x < sb.size → bblock sb x = b → x ≠ b ∧ bit sb d x = false) :
    bit sb (taken sb d b) x = (bit sb d x || decide (x = b)) := by
  have hb' := hb.trans sb.size_lt
  have hx' := hx.trans sb.size_lt
  rw [← bit_mark hb' hx']
  by_cases h : bblock sb x = b
  · obtain ⟨hne, hclear⟩ := hwipe x hx h
    rw [bit_mark hb' hx', hclear, decide_eq_false hne, bit, taken, bzero, h, upd_same]
    simp [getBit, zeroBlock]
  · rw [bit, taken, bzero, upd_ne h, bit]

theorem BallocFits.ok (h : BallocFits sb d) : BallocOk sb d := by
  constructor
  · constructor
    · intro hrun
      by_contra hne
      obtain ⟨b, hb⟩ := exists_least hne
      obtain ⟨hint, hwipe⟩ := h.least b hb
      rw [balloc_least hb, if_pos hint] at hrun
      obtain ⟨rfl, hd⟩ := Prod.mk.inj (Except.ok.inj hrun)
      -- the bit it set was clear
      have hset := bit_taken hb.1.1 hb.1.1 hwipe
      rw [hd, hb.1.2] at hset
      simp at hset
    · intro hempty
      rw [balloc_full hempty, if_pos (h.full hempty)]
  · intro b hb
    obtain ⟨hint, hwipe⟩ := h.least b hb
    have hne : bblock sb b ≠ b := fun e => (hwipe b hb.1.1 e).1 rfl
    refine ⟨taken sb d b, ?_, fun x hx => bit_taken hb.1.1 hx hwipe, ?_, ?_, ?_⟩
    · rw [balloc_least hb, if_pos hint]
    · rw [taken, bzero, upd_ne hne, upd_same]
    · rw [taken, bzero, upd_same]
    · intro y h1 h2
      rw [taken, bzero, upd_ne h2, upd_ne h1]

theorem BallocOk.fits (h : BallocOk sb d) : BallocFits sb d := by
  constructor
  · intro hempty
    have hrun := h.full.mpr hempty
    rw [balloc_full hempty] at hrun
    by_contra hlarge
    rw [if_neg hlarge] at hrun
    cases hrun
  · intro b hb
    obtain ⟨d', hrun, hbits, -, hzero, -⟩ := h.least b hb
    constructor
    · by_contra hlarge
      rw [balloc_least hb, if_neg hlarge] at hrun
      cases hrun
    · intro x hx hxb
      have hclear : bit sb d' x = false := by
        rw [bit, hxb, hzero]
        simp [getBit, zeroBlock]
      have hor := hbits x hx
      rw [hclear] at hor
      constructor
      · intro e
        rw [decide_eq_true e, Bool.or_true] at hor
        cases hor
      · cases hd : bit sb d x with
        | false => rfl
        | true => rw [hd, Bool.true_or] at hor; cases hor

theorem ballocOk_iff : BallocOk sb d ↔ BallocFits sb d := ⟨BallocOk.fits, BallocFits.ok⟩

/-- What `balloc` returned, in terms of the bits. -/
theorem BallocFits.returns (h : BallocFits sb d) {r : Nat} (hrun : balloc sb d = .ok (r, d')) :
    (free sb d = ∅ ∧ r = 0 ∧ d' = d) ∨
      IsLeast (free sb d) r ∧ ∀ x, x < sb.size → bit sb d' x = (bit sb d x || decide (x = r)) := by
  by_cases hempty : free sb d = ∅
  · rw [h.ok.full.mpr hempty] at hrun
    obtain ⟨rfl, rfl⟩ := Prod.mk.inj (Except.ok.inj hrun)
    exact Or.inl ⟨hempty, rfl, rfl⟩
  · obtain ⟨b, hb⟩ := exists_least hempty
    obtain ⟨d1, hrun1, hbits, -⟩ := h.ok.least b hb
    rw [hrun1] at hrun
    obtain ⟨rfl, rfl⟩ := Prod.mk.inj (Except.ok.inj hrun)
    exact Or.inr ⟨hb, hbits⟩

/-! ## `bfree` -/

/-- What `bfree` of a block in use leaves. -/
theorem bfree_used (hb : b < 2 ^ 32) (hused : bit sb d b = true) :
    ∃ d', bfree sb d b = .ok d' ∧ (∀ x, x < 2 ^ 32 → bit sb d' x = (bit sb d x && !decide (x = b))) ∧
      d' (bblock sb b) = clearBit (d (bblock sb b)) (b % BPB) ∧ ∀ y, y ≠ bblock sb b → d' y = d y := by
  have hget : getBit (d (bblock sb b)) (b % BPB) = true := hused
  refine ⟨_, ?_, fun x hx => bit_unmark hb hx, upd_same _ _ _, fun y hy => upd_ne hy _⟩
  rw [bfree, hget, if_neg (by simp)]

/-- It returns for a block in use only. -/
theorem bfree_eq_ok (hb : b < 2 ^ 32) (hrun : bfree sb d b = .ok d') :
    bit sb d b = true ∧ ∀ x, x < 2 ^ 32 → bit sb d' x = (bit sb d x && !decide (x = b)) := by
  have hused : bit sb d b = true := by
    by_contra hfree
    rw [bfree, if_pos (by simpa [bit] using hfree)] at hrun
    cases hrun
  obtain ⟨d1, hrun1, hbits, -⟩ := bfree_used hb hused
  rw [hrun1] at hrun
  obtain rfl := Except.ok.inj hrun
  exact ⟨hused, hbits⟩

theorem bfree_balloc (h : BallocFits sb d) (hrun : balloc sb d = .ok (b, d')) (hne : free sb d ≠ ∅) :
    ∃ d'', bfree sb d' b = .ok d'' ∧ ∀ x, x < sb.size → bit sb d'' x = bit sb d x := by
  rcases h.returns hrun with ⟨hempty, -⟩ | ⟨hb, hbits⟩
  · exact absurd hempty hne
  · have hlt := hb.1.1.trans sb.size_lt
    have hset : bit sb d' b = true := by rw [hbits b hb.1.1]; simp
    obtain ⟨d'', hfree, hbits', -⟩ := bfree_used hlt hset
    refine ⟨d'', hfree, fun x hx => ?_⟩
    rw [hbits' x (hx.trans sb.size_lt), hbits x hx]
    by_cases e : x = b
    · rw [e, hb.1.2]; simp
    · simp [e]

/-! ## Sequences of calls -/

inductive Call where
  /-- `balloc` returned `r` -/
  | balloc (r : Nat)
  /-- `bfree(b)` returned -/
  | bfree (b : Nat)
  deriving DecidableEq, Repr

/-- Calls one after the other, the last first. Between them blocks may change, but for the bits. -/
inductive Calls (sb : Super) (d₀ : Disk) : List Call → Disk → Prop where
  | start : Calls sb d₀ [] d₀
  | balloc {t : List Call} {d d' : Disk} {r : Nat} :
      Calls sb d₀ t d → BallocFits sb d → balloc sb d = .ok (r, d') → Calls sb d₀ (.balloc r :: t) d'
  | bfree {t : List Call} {d d' : Disk} {b : Nat} :
      Calls sb d₀ t d → b < sb.size → bfree sb d b = .ok d' → Calls sb d₀ (.bfree b :: t) d'
  | other {t : List Call} {d d' : Disk} :
      Calls sb d₀ t d → (∀ x, x < sb.size → bit sb d' x = bit sb d x) → Calls sb d₀ t d'

/-- A block handed out and not freed since is in use. -/
theorem Calls.in_use {d₀ : Disk} {t : List Call} (h : Calls sb d₀ t d) :
    ∀ s u, t = s ++ .balloc b :: u → b ≠ 0 → .bfree b ∉ s → b < sb.size ∧ bit sb d b = true := by
  induction h with
  | start =>
    intro s u ht
    simp at ht
  | @balloc t d d' r h hfits hrun ih =>
    intro s u ht h0 hs
    have hret := hfits.returns hrun
    cases s with
    | nil =>
      -- this call handed it out
      simp only [List.nil_append, List.cons.injEq, Call.balloc.injEq] at ht
      obtain ⟨rfl, rfl⟩ := ht
      rcases hret with ⟨-, hr, -⟩ | ⟨hb, hbits⟩
      · exact absurd hr h0
      · exact ⟨hb.1.1, by rw [hbits _ hb.1.1]; simp⟩
    | cons c s =>
      simp only [List.cons_append, List.cons.injEq] at ht
      obtain ⟨hlt, hbit⟩ := ih s u ht.2 h0 fun hm => hs (List.mem_cons_of_mem _ hm)
      refine ⟨hlt, ?_⟩
      rcases hret with ⟨-, -, rfl⟩ | ⟨-, hbits⟩
      · exact hbit
      · rw [hbits b hlt, hbit, Bool.true_or]
  | @bfree t d d' b' h hb' hrun ih =>
    intro s u ht h0 hs
    cases s with
    | nil => simp at ht
    | cons c s =>
      simp only [List.cons_append, List.cons.injEq] at ht
      obtain ⟨rfl, ht⟩ := ht
      obtain ⟨hlt, hbit⟩ := ih s u ht h0 fun hm => hs (List.mem_cons_of_mem _ hm)
      have hne : b ≠ b' := fun e => hs (by rw [e]; exact List.mem_cons_self)
      refine ⟨hlt, ?_⟩
      rw [(bfree_eq_ok (hb'.trans sb.size_lt) hrun).2 b (hlt.trans sb.size_lt), hbit, decide_eq_false hne]
      rfl
  | other h hsame ih =>
    intro s u ht h0 hs
    obtain ⟨hlt, hbit⟩ := ih s u ht h0 hs
    exact ⟨hlt, by rw [hsame b hlt]; exact hbit⟩

/-- A block is handed out a second time only after a `bfree` of it. -/
theorem Calls.bfree_between {d₀ : Disk} {t : List Call} (h : Calls sb d₀ t d) :
    ∀ r s u, t = r ++ .balloc b :: (s ++ .balloc b :: u) → b ≠ 0 → .bfree b ∈ s := by
  induction h with
  | start =>
    intro r s u ht
    simp at ht
  | @balloc t d d' b' h hfits hrun ih =>
    intro r s u ht h0
    cases r with
    | nil =>
      simp only [List.nil_append, List.cons.injEq, Call.balloc.injEq] at ht
      obtain ⟨rfl, ht⟩ := ht
      by_contra hs
      obtain ⟨-, hbit⟩ := h.in_use s u ht h0 hs
      rcases hfits.returns hrun with ⟨-, hr, -⟩ | ⟨hb, -⟩
      · exact h0 hr
      · rw [hb.1.2] at hbit
        cases hbit
    | cons c r =>
      simp only [List.cons_append, List.cons.injEq] at ht
      exact ih r s u ht.2 h0
  | bfree h hb hrun ih =>
    intro r s u ht h0
    cases r with
    | nil => simp at ht
    | cons c r =>
      simp only [List.cons_append, List.cons.injEq] at ht
      exact ih r s u ht.2 h0
  | other h hsame ih => exact ih

/-! ## mkfs -/

/-- The block mkfs writes at `bmapstart`, with the blocks of the map behind it still zero. -/
theorem free_bitmap {used : Nat} (hu : used < BPB)
    (hzero : ∀ x, x < sb.size → bblock sb x ≠ bblock sb 0 → d (bblock sb x) = zeroBlock) :
    free sb (upd d sb.bmapstart (Mkfs.bitmap used)) = {x | used ≤ x ∧ x < sb.size} := by
  have hfirst : bblock sb 0 = sb.bmapstart := by
    have := sb.bmapstart_lt
    simp only [bblock, Nat.zero_div]
    omega
  have hbit : ∀ x, x < sb.size → bit sb (upd d sb.bmapstart (Mkfs.bitmap used)) x = decide (x < used) := by
    intro x hx
    rw [← hfirst, bit_upd (by decide) (hx.trans sb.size_lt), Mkfs.getBit_bitmap]
    split
    · rename_i h
      exact decide_eq_decide.mpr (by simp only [BPB, BSIZE] at *; omega)
    · rename_i h
      have hne : bblock sb x ≠ bblock sb 0 := fun e => h ((bblock_eq_iff (hx.trans sb.size_lt) (by decide)).mp e)
      have hge : ¬ x < used := by simp only [BPB, BSIZE] at *; omega
      rw [bit, hzero x hx hne, decide_eq_false hge]
      simp [getBit, zeroBlock]
  ext x
  constructor
  · rintro ⟨hx, hclear⟩
    rw [hbit x hx] at hclear
    exact ⟨Nat.le_of_not_lt (of_decide_eq_false hclear), hx⟩
  · rintro ⟨hle, hx⟩
    exact ⟨hx, by rw [hbit x hx]; exact decide_eq_false (by omega)⟩

/-! ## The file system's `balloc`

  `Xv6.Fs.Inode` has `balloc` inside an operation, with its buffers and its log, for disks that an
  `int` can count. What it leaves in the buffers is what `balloc` here leaves. -/

def ofSuperblock (sb : Superblock) : Super where
  size := sb.size
  bmapstart := sb.bmapstart
  size_lt := by have := sb.size_lt; omega
  bmapstart_lt := by
    have h1 := sb.size_lt
    have h2 := sb.bmap_le
    generalize sb.size / BPB = q at *
    omega

theorem bblock_ofSuperblock {sb : Superblock} (hx : x < sb.size) : bblock (ofSuperblock sb) x = sb.bblock x := by
  have h1 := sb.size_lt
  have h2 := sb.bmap_le
  have h3 : x / BPB ≤ sb.size / BPB := Nat.div_le_div_right hx.le
  simp only [bblock, ofSuperblock, Superblock.bblock]
  generalize x / BPB = p at *
  generalize sb.size / BPB = q at *
  omega

theorem fs_ballocLoop {sb : Superblock} (hsize : sb.size ≤ 2 ^ 31 - BPB) (n : Nat) :
    ∀ (k : Nat) (s : St), s.outstanding = 1 → k + n = (sb.size + BPB - 1) / BPB →
      wp (Fs.ballocLoop sb ((List.range' k n).map (· * BPB)))
        (fun r s' => ballocLoop (ofSuperblock sb) s.cache (k * BPB) = .ok (r, s'.cache)) (fun _ _ => True) s := by
  have hint : sb.size + BPB ≤ 2 ^ 31 := by
    simp only [BPB, BSIZE] at *
    omega
  induction n with
  | zero =>
    intro k s _ hk
    have hend : ¬ k * BPB < (ofSuperblock sb).size := by
      simp only [ofSuperblock, BPB, BSIZE] at *
      omega
    simp only [List.range'_zero, List.map_nil, Fs.ballocLoop, wp_pure]
    rw [ballocLoop, if_neg hend]
  | succ n ih =>
    intro k s ho hk
    have hlt : k * BPB < sb.size := by
      simp only [BPB, BSIZE] at *
      omega
    have hlt' : k * BPB < (ofSuperblock sb).size := hlt
    have hblk := bblock_ofSuperblock hlt
    have hsame : freeBit (ofSuperblock sb) (s.cache (sb.bblock (k * BPB))) (k * BPB) =
        Fs.freeBit sb (s.cache (sb.bblock (k * BPB))) (k * BPB) := rfl
    simp only [List.range'_succ, List.map_cons, Fs.ballocLoop, wp_bind, wp_bread]
    rw [ballocLoop, if_pos hlt', hblk, hsame]
    cases Fs.freeBit sb (s.cache (sb.bblock (k * BPB))) (k * BPB) with
    | some bi =>
      simp only [wp_bind, wp_setData, wp_brelse, wp_pure]
      refine wp_logged ho ?_ fun _ _ _ => trivial
      change wp (Fs.bzero sb (k * BPB + bi)) _ _
        (s.write (sb.bblock (k * BPB)) (setBit (s.cache (sb.bblock (k * BPB))) bi))
      refine (bzero_spec (s := s.write _ _) ho).mono (fun _ s' hs => ?_) fun _ _ _ => trivial
      rw [hs]
      rfl
    | none =>
      have hnext : k * BPB + BPB < 2 ^ 31 := (Nat.add_lt_add_right hlt BPB).trans_le hint
      simp only [wp_bind, wp_brelse]
      rw [if_pos hnext, ← Nat.succ_mul]
      exact ih (k + 1) ((s.ev _).ev _) ho (by omega)

/-- Inside an operation, `balloc` leaves what it leaves here, unless the log is full. -/
theorem fs_balloc {sb : Superblock} (hsize : sb.size ≤ 2 ^ 31 - BPB) {s : St} (ho : s.outstanding = 1) :
    wp (Fs.balloc sb) (fun r s' => balloc (ofSuperblock sb) s.cache = .ok (r, s'.cache)) (fun _ _ => True) s := by
  have hrun := fs_ballocLoop hsize ((sb.size + BPB - 1) / BPB) 0 s ho (Nat.zero_add _)
  rw [← List.range_eq_range', Nat.zero_mul] at hrun
  exact hrun

/-! ## The results -/

/-- `balloc` takes the least number out of the set of free ones exactly when `BallocFits` holds; `bfree`
    puts one back; a number is not handed out twice; mkfs's map is the numbers below `used`. -/
theorem balloc_refines_free_set (sb : Super) :
    (∀ d, BallocOk sb d ↔ BallocFits sb d) ∧
    (∀ d b, b < sb.size → bit sb d b = true → ∃ d', bfree sb d b = .ok d' ∧
      (∀ x, x < sb.size → bit sb d' x = (bit sb d x && !decide (x = b))) ∧
      d' (bblock sb b) = clearBit (d (bblock sb b)) (b % BPB) ∧ ∀ y, y ≠ bblock sb b → d' y = d y) ∧
    (∀ d b d', BallocFits sb d → free sb d ≠ ∅ → balloc sb d = .ok (b, d') →
      ∃ d'', bfree sb d' b = .ok d'' ∧ ∀ x, x < sb.size → bit sb d'' x = bit sb d x) ∧
    (∀ d₀ t d b, Calls sb d₀ t d → b ≠ 0 → ∀ r s u, t = r ++ .balloc b :: (s ++ .balloc b :: u) → .bfree b ∈ s) ∧
    (∀ d used, used < BPB → (∀ x, x < sb.size → bblock sb x ≠ bblock sb 0 → d (bblock sb x) = zeroBlock) →
      free sb (upd d sb.bmapstart (Mkfs.bitmap used)) = {x | used ≤ x ∧ x < sb.size}) := by
  refine ⟨fun d => ballocOk_iff, ?_, ?_, ?_, fun d used hu hzero => free_bitmap hu hzero⟩
  · intro d b hb hused
    obtain ⟨d', hrun, hbits, hblk, hother⟩ := bfree_used (hb.trans sb.size_lt) hused
    exact ⟨d', hrun, fun x hx => hbits x (hx.trans sb.size_lt), hblk, hother⟩
  · intro d b d' hfits hne hrun
    exact bfree_balloc hfits hrun hne
  · intro d₀ t d b h h0 r s u ht
    exact h.bfree_between r s u ht h0

def mkfsSuper : Super := ⟨FSSIZE, Mkfs.sb.bmapstart, by decide, by decide⟩

theorem balloc_refines_free_set_mkfs :
    ∃ d', balloc mkfsSuper (upd (fun _ => zeroBlock) mkfsSuper.bmapstart (Mkfs.bitmap 50)) = .ok (50, d') := by
  obtain ⟨hballoc, -, -, -, hmkfs⟩ := balloc_refines_free_set mkfsSuper
  have hfree := hmkfs (fun _ => zeroBlock) 50 (by decide) fun _ _ _ => rfl
  have hleast : IsLeast (free mkfsSuper (upd (fun _ => zeroBlock) mkfsSuper.bmapstart (Mkfs.bitmap 50))) 50 := by
    rw [hfree]
    exact ⟨⟨Nat.le_refl _, by decide⟩, fun x hx => hx.1⟩
  have hblk : ∀ x, x < FSSIZE → bblock mkfsSuper x = 44 := by
    intro x hx
    have h0 : x / BPB = 0 := Nat.div_eq_of_lt (by simp only [BPB, BSIZE, FSSIZE] at *; omega)
    rw [bblock, h0]
    rfl
  have hfits : BallocFits mkfsSuper (upd (fun _ => zeroBlock) mkfsSuper.bmapstart (Mkfs.bitmap 50)) := by
    constructor
    · intro _
      decide
    · intro b hb
      obtain rfl := hb.unique hleast
      exact ⟨by decide, fun x hx hxb => by rw [hblk x hx] at hxb; cases hxb⟩
  obtain ⟨d', hrun, -⟩ := ((hballoc _).mpr hfits).least 50 hleast
  exact ⟨d', hrun⟩

def largeSuper : Super := ⟨2 ^ 31 + 1, 45, by decide, by decide⟩

def largeDisk : Disk := upd (fun _ _ => 255) (2 ^ 19 + 45) zeroBlock

theorem free_largeDisk : free largeSuper largeDisk = {2 ^ 31} := by
  have hones : ∀ i, getBit (fun _ => 255) i = true := by
    intro i
    rw [getBit_eq_testBit]
    exact (by decide : ∀ k < 8, Nat.testBit (255 : UInt8).toNat k = true) _ (Nat.mod_lt i (by decide))
  ext x
  simp only [free, Set.mem_ofPred_eq, Set.mem_singleton_iff, bit, largeDisk, largeSuper, bblock, upd_apply, BPB, BSIZE]
  constructor
  · intro ⟨hx, hclear⟩
    by_contra hne
    rw [if_neg (by omega), hones] at hclear
    cases hclear
  · intro hx
    subst hx
    exact ⟨by decide, by simp [getBit, zeroBlock]⟩

/-- The last block of such a disk is free and `balloc` does not get to it. -/
theorem balloc_misses_free_block :
    free largeSuper largeDisk = {2 ^ 31} ∧ balloc largeSuper largeDisk = .error .overflow ∧
      ¬ BallocOk largeSuper largeDisk := by
  have hleast : IsLeast (free largeSuper largeDisk) (2 ^ 31) := by
    rw [free_largeDisk]
    exact isLeast_singleton
  have hrun : balloc largeSuper largeDisk = .error .overflow := by
    rw [balloc_least hleast, if_neg (Nat.lt_irrefl _)]
  refine ⟨free_largeDisk, hrun, fun h => ?_⟩
  obtain ⟨d', hok, -⟩ := h.least _ hleast
  rw [hrun] at hok
  cases hok

end Xv6.Fs.FreeMap
