/-
  Xv6.Fs.Alloc — what `bzero`, `balloc`, `bfree` and `iupdate` do.

  `balloc` returns 0, when every bit is set, and leaves every block alone, or returns a block
  whose bit was clear, sets that bit, zeroes that block and changes no other block outside the
  free map (`balloc_spec`). `bfree` of a block whose bit is set clears that bit (`bfree_spec`), so
  it does not panic. Each logs what it changes, and the only panic left is a full log.
-/
import Xv6.Fs.Logs
import Xv6.Fs.Owner

namespace Xv6.Fs

variable {sb : Superblock} {s : St} {b : Nat}

theorem bzero_spec (ho : s.outstanding = 1) :
    wp (bzero sb b) (fun _ s' => s' = s.write b zeroBlock) (TooBig sb 0 s) s := by
  simp only [bzero, wp_bind, wp_bread, wp_setData, wp_brelse]
  exact wp_logged ho rfl fun _ h _ => h

/-! ## The free map -/

theorem bblock_eq {b x : Nat} : sb.bblock x = sb.bblock b ↔ x / BPB = b / BPB := by
  simp only [Superblock.bblock]
  omega

/-- A block outside the free map changes. -/
theorem bit_upd {c : Disk} {y : Nat} (hy : ¬ sb.Bitmap y) (d : Block) {b : Nat} (hb : b < sb.size) :
    sb.bit (upd c y d) b = sb.bit c b := by
  have : sb.bblock b ≠ y := fun e => hy (e ▸ sb.bblock_bitmap hb)
  simp only [Superblock.bit, upd_ne this]

theorem bit_set {c : Disk} {b : Nat} (x : Nat) :
    sb.bit (upd c (sb.bblock b) (setBit (c (sb.bblock b)) (b % BPB))) x = (sb.bit c x || decide (x = b)) := by
  simp only [Superblock.bit]
  by_cases h : sb.bblock x = sb.bblock b
  · have hx : x % BPB = b % BPB ↔ x = b := by
      have := bblock_eq.mp h
      simp only [BPB, BSIZE] at *
      omega
    rw [h, upd_same, getBit_setBit, decide_eq_decide.mpr hx]
  · have hx : x ≠ b := fun e => h (by rw [e])
    rw [upd_ne h, decide_eq_false hx, Bool.or_false]

theorem bit_clear {c : Disk} {b : Nat} (x : Nat) :
    sb.bit (upd c (sb.bblock b) (clearBit (c (sb.bblock b)) (b % BPB))) x = (sb.bit c x && !decide (x = b)) := by
  simp only [Superblock.bit]
  by_cases h : sb.bblock x = sb.bblock b
  · have hx : x % BPB = b % BPB ↔ x = b := by
      have := bblock_eq.mp h
      simp only [BPB, BSIZE] at *
      omega
    rw [h, upd_same, getBit_clearBit, decide_eq_decide.mpr hx]
  · have hx : x ≠ b := fun e => h (by rw [e])
    rw [upd_ne h, decide_eq_false hx, Bool.not_false, Bool.and_true]

/-! ## `balloc` -/

structure Balloc (sb : Superblock) (s : St) (r : Nat) (s' : St) : Prop where
  itable : s'.itable = s.itable
  none : r = 0 → s'.cache = s.cache
  isFree : r ≠ 0 → FsOk.IsFree sb s.cache r
  bits : r ≠ 0 → ∀ b, b < sb.size → sb.bit s'.cache b = (sb.bit s.cache b || decide (b = r))
  zero : r ≠ 0 → s'.cache r = zeroBlock
  frame : ∀ y, ¬ sb.Bitmap y → y ≠ r → s'.cache y = s.cache y
  logged : r ≠ 0 → r ∈ s'.lh
  dirty : ∀ y, s'.cache y = s.cache y ∨ y ∈ s'.lh
  ext : Ext sb [r] s s'

theorem freeBit_some {d : Block} {b bi : Nat} (h : freeBit sb d b = some bi) :
    bi < BPB ∧ b + bi < sb.size ∧ getBit d bi = false := by
  have hm := List.mem_range.mp (List.mem_of_find?_eq_some h)
  have hp := List.find?_some h
  simp only [Bool.not_eq_eq_eq_not, Bool.not_true] at hp
  exact ⟨by omega, by omega, hp⟩

theorem freeBit_none {d : Block} {b : Nat} (h : freeBit sb d b = none) {bi : Nat} (h1 : bi < BPB)
    (h2 : b + bi < sb.size) : getBit d bi = true := by
  have := List.find?_eq_none.mp h bi (List.mem_range.mpr (by omega))
  simpa using this

theorem ballocLoop_spec : ∀ (bs : List Nat) {s : St}, s.outstanding = 1 →
    (∀ b, b < sb.nmeta → sb.bit s.cache b = true) → (∀ b ∈ bs, b % BPB = 0 ∧ b < sb.size) →
    wp (ballocLoop sb bs) (Balloc sb s) (TooBig sb 0 s) s
  | [], s, _, _, _ => by
    simp only [ballocLoop, wp_pure]
    exact ⟨rfl, fun _ => rfl, by simp, by simp, by simp, fun _ _ _ => rfl, by simp, fun _ => Or.inl rfl, .refl s⟩
  | b :: bs, s, ho, hmeta, hbs => by
    obtain ⟨hmod, hlt⟩ := hbs b (by simp)
    have hbm := sb.bblock_bitmap hlt
    simp only [ballocLoop, wp_bind, wp_bread]
    split
    · rename_i bi hbi
      obtain ⟨h1, h2, h3⟩ := freeBit_some hbi
      -- block `b + bi` is bit `bi` of the bitmap block of `b`
      have hmod' : (b + bi) % BPB = bi := by simp only [BPB, BSIZE] at *; omega
      have hblk : sb.bblock (b + bi) = sb.bblock b := bblock_eq.mpr (by simp only [BPB, BSIZE] at *; omega)
      have hclear : sb.bit s.cache (b + bi) = false := by rw [Superblock.bit, hblk, hmod']; exact h3
      have hlow : sb.nmeta ≤ b + bi := by
        by_contra hc
        rw [hmeta _ (by omega)] at hclear
        cases hclear
      have hfree : FsOk.IsFree sb s.cache (b + bi) := ⟨hlow, h2, hclear⟩
      have hne : b + bi ≠ sb.bblock b := fun e => sb.not_bitmap hlow (e ▸ hbm)
      simp only [wp_bind, wp_setData, wp_brelse]
      refine wp_logged ho ?_ fun s' h _ => h
      obtain ⟨s1, hs1⟩ : ∃ s1, s1 = s.write (sb.bblock b) (setBit (s.cache (sb.bblock b)) bi) := ⟨_, rfl⟩
      have ho1 : s1.outstanding = 1 := by rw [hs1]; exact ho
      have e0 : Ext sb [] s s1 := hs1 ▸ ext_write (Or.inl hbm)
      change wp (bzero sb (b + bi)) _ _ (s.write (sb.bblock b) (setBit (s.cache (sb.bblock b)) bi))
      rw [← hs1]
      refine (bzero_spec ho1).mono (fun _ s' hs => ?_) fun e s' h =>
        TooBig.after e0 h (Nat.le_refl _)
      obtain rfl := hs
      subst hs1
      refine ⟨rfl, fun h0 => absurd h0 hfree.ne_zero, fun _ => hfree, fun _ x hx => ?_, fun _ => by simp,
        fun y hy hyr => ?_, fun _ => by simp [mem_absorb], fun y => ?_,
        (e0.mono_list (by simp)).trans (ext_write (Or.inr ⟨by simp, hfree.ne_zero⟩))⟩
      · have hset := @bit_set sb s.cache (b + bi) x
        rw [hblk, hmod'] at hset
        simp only [St.write_cache]
        rw [bit_upd (sb.not_bitmap hlow) _ hx, hset]
      · have : y ≠ sb.bblock b := fun e => hy (e ▸ hbm)
        simp [hyr, this]
      · by_cases hy : y = b + bi
        · exact Or.inr (by simp [mem_absorb, hy])
        · by_cases hy' : y = sb.bblock b
          · exact Or.inr (by simp [mem_absorb, hy'])
          · exact Or.inl (by simp [hy, hy'])
    · -- this block of the free map is full
      simp only [wp_bind, wp_brelse]
      exact (ballocLoop_spec bs (s := (s.ev _).ev _) ho hmeta fun x hx => hbs x (by simp [hx])).mono
        (fun r s' h => ⟨h.itable, h.none, h.isFree, h.bits, h.zero, h.frame, h.logged, h.dirty,
          h.ext.outstanding, h.ext.disk, h.ext.ftable, h.ext.proc, h.ext.nodup, h.ext.mono, h.ext.logs⟩)
        fun e s' h => ⟨h.eq, h.full, h.nodup, h.logs⟩

def AllUsed (sb : Superblock) (c : Disk) : Prop := ∀ b, b < sb.size → sb.bit c b = true

/-- The loop returns 0 only past full blocks of the free map. -/
theorem ballocLoop_full : ∀ (bs : List Nat) {s : St}, (∀ b, b < sb.nmeta → sb.bit s.cache b = true) →
    (∀ b ∈ bs, b % BPB = 0) →
    wp (ballocLoop sb bs) (fun r _ => r = 0 → ∀ b ∈ bs, ∀ bi, bi < BPB → b + bi < sb.size → sb.bit s.cache
      (b + bi) = true) (fun _ _ => True) s
  | [], s, _, _ => by
    simp only [ballocLoop, wp_pure]
    nofun
  | b :: bs, s, hmeta, hbs => by
    have hmod := hbs b (by simp)
    have hbit : ∀ bi, bi < BPB → sb.bit s.cache (b + bi) = getBit (s.cache (sb.bblock b)) bi := fun bi h1 => by
      have hmod' : (b + bi) % BPB = bi := by simp only [BPB, BSIZE] at *; omega
      have hblk : sb.bblock (b + bi) = sb.bblock b := bblock_eq.mpr (by simp only [BPB, BSIZE] at *; omega)
      rw [Superblock.bit, hblk, hmod']
    simp only [ballocLoop, wp_bind, wp_bread]
    split
    · rename_i bi hbi
      obtain ⟨h1, h2, h3⟩ := freeBit_some hbi
      -- the first block is in use, so this is not block 0
      have hne : b + bi ≠ 0 := fun e => by
        have := hmeta (b + bi) (by rw [e]; exact sb.nmeta_pos)
        rw [hbit bi h1, h3] at this
        cases this
      simp only [wp_bind, wp_setData, wp_brelse, wp_pure]
      exact (wp_true _ _).imp fun _ _ _ => (wp_true _ _).mono (fun _ _ _ e => absurd e hne) fun _ _ => id
    · rename_i hbi
      simp only [wp_bind, wp_brelse]
      refine (ballocLoop_full bs (s := (s.ev _).ev _) hmeta fun x hx => hbs x (by simp [hx])).imp fun r s' h h0 => ?_
      intro x hx bi h1 h2
      rcases List.mem_cons.mp hx with rfl | hx
      · rw [hbit bi h1]
        exact freeBit_none hbi h1 h2
      · exact h h0 x hx bi h1 h2

theorem balloc_spec (ho : s.outstanding = 1) (hmeta : ∀ b, b < sb.nmeta → sb.bit s.cache b = true) :
    wp (balloc sb) (fun r s' => Balloc sb s r s' ∧ (r = 0 → AllUsed sb s.cache)) (TooBig sb 0 s) s := by
  have hfirst : ∀ b ∈ (List.range ((sb.size + BPB - 1) / BPB)).map (· * BPB), b % BPB = 0 ∧ b < sb.size :=
      fun b hb => by
    obtain ⟨k, hk, rfl⟩ := List.mem_map.mp hb
    have := List.mem_range.mp hk
    simp only [BPB, BSIZE] at *
    omega
  refine ((ballocLoop_spec _ ho hmeta hfirst).and (ballocLoop_full _ hmeta fun b hb => (hfirst b hb).1)).mono
    (fun r s' h => ⟨h.1, fun h0 b hb => ?_⟩) fun _ _ h => h.1
  have := h.2 h0 (b / BPB * BPB)
    (List.mem_map.mpr ⟨b / BPB, List.mem_range.mpr (by simp only [BPB, BSIZE]; omega), rfl⟩)
    (b % BPB) (Nat.mod_lt _ (by decide)) (by rw [Nat.div_add_mod']; exact hb)
  rwa [Nat.div_add_mod'] at this

/-! ## `bfree` and `iupdate` -/

theorem bfree_spec (ho : s.outstanding = 1) (hb : sb.bit s.cache b = true) :
    wp (bfree sb b) (fun _ s' => s' = s.write (sb.bblock b) (clearBit (s.cache (sb.bblock b)) (b % BPB)))
    (TooBig sb 0 s) s := by
  have hbit : getBit (s.cache (sb.bblock b)) (b % BPB) = true := hb
  simp only [bfree, wp_bind, wp_bread, hbit, Bool.true_eq_false, if_false, wp_setData, wp_brelse]
  exact wp_logged ho rfl fun _ h _ => h

namespace St

@[simps! -fullyApplied] def updated (sb : Superblock) (s : St) (i : Nat) : St :=
  (s.ev (.iupdate (s.itable i).inum)).write (sb.iblock (s.itable i).inum)
    (putDinode (s.cache (sb.iblock (s.itable i).inum)) ((s.itable i).inum % IPB) (s.itable i).copy)

end St

theorem iupdate_spec (i : Nat) (ho : s.outstanding = 1) :
    wp (iupdate sb i) (fun _ s' => s' = s.updated sb i ∧ Ext sb [sb.iblock (s.itable i).inum] s s')
      (fun e s' => TooBig sb 0 s e s' ∧ s'.lh = s.lh) s := by
  have e0 : ∀ L, Ext sb L s (s.ev (.iupdate (s.itable i).inum)) := fun _ => .of_eq rfl rfl rfl rfl rfl
  simp only [iupdate, wp_bind, wp_get, wp_emit, wp_bread, wp_setData, wp_brelse]
  exact wp_logged (s := s.ev _) ho ⟨rfl, (e0 _).trans (ext_write (s := s.ev _) (Or.inr ⟨by simp, sb.iblock_ne_zero _⟩))⟩
    fun s' h hl => ⟨TooBig.after (e0 []) h (Nat.le_refl _), hl⟩

end Xv6.Fs
