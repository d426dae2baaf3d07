/-
  Xv6.Fs.Owner — which inode owns which block.

  `v m` is inode `m` as the kernel sees it: its in-memory copy where that is ahead of the
  disk, its on-disk copy otherwise. A place that can hold a block number is an inode with
  a position in it (`Pos`): an entry of `addrs`, the pointer to the indirect block
  included, or an entry of the indirect block. `own v c` is the number each place of an
  allocated inode holds.

  `FsOk sb v c`: the places with a block hold pairwise distinct blocks, the blocks they
  hold are exactly the data blocks whose bit is set, every metadata block's bit is set,
  and every inode has a block for each index below its size. Each change the code makes to
  an inode or a block keeps it: an empty place takes a free block (`claim_addr`,
  `claim_entry`), an inode's fields change (`set`), an inode is allocated or freed while
  it holds no block (`retype`), and blocks outside the bitmap and the indirect blocks
  change their contents (`frame`).
-/
import Xv6.Fs.Format
import Xv6.Fs.Dir

namespace Xv6.Fs

namespace Superblock

variable (sb : Superblock)

def bit (c : Disk) (b : Nat) : Bool := getBit (c (sb.bblock b)) (b % BPB)

def ino (c : Disk) (m : Nat) : Dinode := getDinode (c (sb.iblock m)) (m % IPB)

def IsInum (m : Nat) : Prop := 1 ≤ m ∧ m < sb.ninodes

def Used (c : Disk) (b : Nat) : Prop := sb.nmeta ≤ b ∧ b < sb.size ∧ sb.bit c b = true

theorem bmap_lt_nmeta : sb.bmapstart < sb.nmeta := by
  simp only [nmeta, BPB, BSIZE]
  omega

theorem nmeta_pos : 0 < sb.nmeta := Nat.lt_of_le_of_lt (Nat.zero_le _) sb.bmap_lt_nmeta

theorem iblock_ne_zero (m : Nat) : sb.iblock m ≠ 0 := by
  have := sb.boot
  have := sb.log_le
  have := Nat.zero_le (m / IPB)
  simp only [iblock]
  omega

theorem iblock_lt {m : Nat} (h : m < sb.ninodes) : sb.iblock m < sb.bmapstart := by
  have := sb.inodes_le
  have : m / IPB ≤ sb.ninodes / IPB := Nat.div_le_div_right (by omega)
  simp only [iblock]
  omega

theorem bblock_bitmap {b : Nat} (h : b < sb.size) : sb.Bitmap (sb.bblock b) := by
  have : b / BPB ≤ sb.size / BPB := Nat.div_le_div_right (by omega)
  simp only [Bitmap, bblock, nmeta, BPB, BSIZE] at *
  omega

theorem not_bitmap {b : Nat} (h : sb.nmeta ≤ b) : ¬ sb.Bitmap b := fun hb => Nat.not_lt.mpr h hb.2

theorem not_bitmap_low {b : Nat} (h : b < sb.bmapstart) : ¬ sb.Bitmap b := fun hb => Nat.not_lt.mpr hb.1 h

end Superblock

/-! ## Places -/

inductive Pos where
  | addr (k : Nat)
  | entry (j : Nat)
  deriving DecidableEq

def ptr (d : Dinode) (c : Disk) : Pos → Nat
  | .addr k => d.addrs k
  | .entry j => if d.addrs NDIRECT ≠ 0 ∧ j < NINDIRECT then le32 (c (d.addrs NDIRECT)) (4 * j) else 0

def posOf (bn : Nat) : Pos := if bn < NDIRECT then .addr bn else .entry (bn - NDIRECT)

def blockAt (d : Dinode) (c : Disk) (bn : Nat) : Nat := ptr d c (posOf bn)

def byteAt (d : Dinode) (c : Disk) (off : Nat) : UInt8 := c (blockAt d c (off / BSIZE)) (off % BSIZE)

theorem posOf_ne_ind (bn : Nat) : posOf bn ≠ .addr NDIRECT := by
  simp only [posOf]
  split
  · rename_i h
    simp only [ne_eq, Pos.addr.injEq]
    omega
  · simp

theorem posOf_inj {a b : Nat} (h : posOf a = posOf b) : a = b := by
  simp only [posOf] at h
  split at h <;> split at h <;> simp only [Pos.addr.injEq, Pos.entry.injEq, reduceCtorEq] at h <;> omega

/-- `d'` in `c'` has every block of `d` in `c`, with its contents. -/
def SameData (d : Dinode) (c : Disk) (d' : Dinode) (c' : Disk) : Prop :=
  ∀ k, blockAt d c k ≠ 0 → blockAt d' c' k = blockAt d c k ∧ c' (blockAt d c k) = c (blockAt d c k)

theorem SameData.refl (d : Dinode) (c : Disk) : SameData d c d c := fun _ _ => ⟨rfl, rfl⟩

theorem SameData.trans {d d1 d' : Dinode} {c c1 c' : Disk} (h : SameData d c d1 c1) (h' : SameData d1 c1 d' c') :
    SameData d c d' c' := fun k hk => by
  obtain ⟨h1, h2⟩ := h k hk
  obtain ⟨h3, h4⟩ := h' k (by rw [h1]; exact hk)
  rw [h1] at h3 h4
  exact ⟨h3, h4.trans h2⟩

theorem SameData.byteAt {d d' : Dinode} {c c' : Disk} (h : SameData d c d' c') {off : Nat}
    (hb : blockAt d c (off / BSIZE) ≠ 0) : byteAt d' c' off = byteAt d c off := by
  obtain ⟨h1, h2⟩ := h _ hb
  rw [Fs.byteAt, Fs.byteAt, h1, h2]

variable (sb : Superblock)

def Live (v : Nat → Dinode) (m : Nat) : Prop := sb.IsInum m ∧ (v m).type ≠ 0

open Classical in
noncomputable def own (v : Nat → Dinode) (c : Disk) (a : Nat × Pos) : Nat :=
  if Live sb v a.1 then ptr (v a.1) c a.2 else 0

structure FsOk (v : Nat → Dinode) (c : Disk) : Prop where
  wf : ∀ m, sb.IsInum m → (v m).Wf
  owns : Owns (own sb v c) (sb.Used c)
  meta_ : ∀ b, b < sb.nmeta → sb.bit c b = true
  size_le : ∀ m, Live sb v m → (v m).size ≤ MAXFILE * BSIZE
  full : ∀ m, Live sb v m → ∀ k, k * BSIZE < (v m).size → blockAt (v m) c k ≠ 0

variable {sb} {v : Nat → Dinode} {c c' : Disk} {m : Nat}

theorem own_live (h : Live sb v m) (p : Pos) : own sb v c (m, p) = ptr (v m) c p := if_pos h

theorem own_dead (h : ¬ Live sb v m) (p : Pos) : own sb v c (m, p) = 0 := if_neg h

namespace FsOk

theorem own_range (h : FsOk sb v c) {a : Nat × Pos} (ha : own sb v c a ≠ 0) :
    sb.nmeta ≤ own sb v c a ∧ own sb v c a < sb.size :=
  ⟨(h.owns.used_of ha).1, (h.owns.used_of ha).2.1⟩

theorem ptr_range (h : FsOk sb v c) (hm : Live sb v m) {p : Pos} (hp : ptr (v m) c p ≠ 0) :
    sb.nmeta ≤ ptr (v m) c p ∧ ptr (v m) c p < sb.size := by
  rw [← own_live hm] at hp ⊢
  exact h.own_range hp

theorem ptr_inj (h : FsOk sb v c) {m' : Nat} (hm : Live sb v m) (hm' : Live sb v m') {p q : Pos}
    (hp : ptr (v m) c p ≠ 0) (he : ptr (v m) c p = ptr (v m') c q) : m = m' ∧ p = q := by
  rw [← own_live hm] at hp he
  rw [← own_live hm'] at he
  exact Prod.mk.inj (h.owns.inj hp he)

/-- A block nobody owns is none of the owned ones. -/
theorem ptr_ne_free (h : FsOk sb v c) (hm : Live sb v m) {p : Pos} {r : Nat} (hp : ptr (v m) c p ≠ 0)
    (hr : sb.bit c r = false) : ptr (v m) c p ≠ r := fun e => by
  rw [← own_live hm] at hp e
  have := (h.owns.used_of hp).2.2
  rw [e, hr] at this
  cases this

end FsOk

theorem ptr_addr (d : Dinode) (c : Disk) (k : Nat) : ptr d c (.addr k) = d.addrs k := rfl

/-- The positions of an inode hold what they held where its addresses and its indirect block
    are what they were. -/
theorem ptr_congr {d d' : Dinode} (ha : d'.addrs = d.addrs)
    (hi : d.addrs NDIRECT ≠ 0 → c' (d.addrs NDIRECT) = c (d.addrs NDIRECT)) (p : Pos) : ptr d' c' p = ptr d c p := by
  cases p with
  | addr k => rw [ptr_addr, ptr_addr, ha]
  | entry j =>
    simp only [ptr, ha]
    split
    · rename_i h
      rw [hi h.1]
    · rfl

theorem sameData_of_ptr {d d' : Dinode} (hp : ∀ p, ptr d c p ≠ 0 → ptr d' c' p = ptr d c p)
    (hc : ∀ p, p ≠ .addr NDIRECT → ptr d c p ≠ 0 → c' (ptr d c p) = c (ptr d c p)) : SameData d c d' c' :=
  fun k hk => ⟨hp _ hk, hc _ (posOf_ne_ind k) hk⟩

/-- Every inode but `m` is what it was, with its blocks and their contents. -/
def Others (sb : Superblock) (m : Nat) (v : Nat → Dinode) (c : Disk) (v' : Nat → Dinode) (c' : Disk) : Prop :=
  ∀ m', m' ≠ m → v' m' = v m' ∧ (Live sb v m' → SameData (v m') c (v' m') c')

namespace Others

variable {v1 v' : Nat → Dinode} {c1 : Disk}

theorem refl (m : Nat) (v : Nat → Dinode) (c : Disk) : Others sb m v c v c :=
  fun _ _ => ⟨rfl, fun _ => SameData.refl _ _⟩

theorem trans (h : Others sb m v c v1 c1) (h' : Others sb m v1 c1 v' c') : Others sb m v c v' c' := fun m' hm' => by
  obtain ⟨h1, h2⟩ := h m' hm'
  obtain ⟨h3, h4⟩ := h' m' hm'
  refine ⟨h3.trans h1, fun hl => (h2 hl).trans (h4 ?_)⟩
  simpa only [Live, h1] using hl

/-- Only data blocks that the other inodes do not own, and blocks below the data area, change. -/
theorem of_frame (hv : ∀ m', m' ≠ m → v' m' = v m')
    (hc : ∀ m', m' ≠ m → Live sb v m' → ∀ p, ptr (v m') c p ≠ 0 → c' (ptr (v m') c p) = c (ptr (v m') c p)) :
    Others sb m v c v' c' := fun m' hm' => by
  refine ⟨hv m' hm', fun hl => ?_⟩
  rw [hv m' hm']
  exact sameData_of_ptr (fun p _ => ptr_congr rfl (fun h0 => hc m' hm' hl (.addr NDIRECT) h0) p)
    fun p _ hp => hc m' hm' hl p hp

end Others

theorem live_upd {d : Dinode} (hm : Live sb v m) (hd : d.type ≠ 0) (m' : Nat) :
    Live sb (upd v m d) m' ↔ Live sb v m' := by
  by_cases e : m' = m
  · subst e
    exact ⟨fun h => hm, fun h => ⟨h.1, by rw [upd_same]; exact hd⟩⟩
  · simp only [Live, upd_ne e]

namespace FsOk

variable {r : Nat}

/-- Blocks change that are neither in the free map nor indirect blocks. -/
theorem frame (h : FsOk sb v c) (hb : ∀ b, b < sb.size → sb.bit c' b = sb.bit c b)
    (hi : ∀ m, Live sb v m → (v m).addrs NDIRECT ≠ 0 → c' ((v m).addrs NDIRECT) = c ((v m).addrs NDIRECT)) :
    FsOk sb v c' := by
  have hsz := sb.bmap_le
  have hp : ∀ m, Live sb v m → ∀ p, ptr (v m) c' p = ptr (v m) c p := fun m hm p => ptr_congr rfl (hi m hm) p
  refine ⟨h.wf, h.owns.congr (fun a => ?_) fun y _ => ?_, fun b hb' => ?_, h.size_le, fun m hm k hk => ?_⟩
  · by_cases hl : Live sb v a.1
    · rw [own, if_pos hl, own, if_pos hl, hp _ hl]
    · rw [own, if_neg hl, own, if_neg hl]
  · exact and_congr_right fun _ => and_congr_right fun h2 => by rw [hb y h2]
  · rw [hb b (Nat.lt_of_lt_of_le hb' hsz)]
    exact h.meta_ b hb'
  · rw [blockAt, hp m hm]
    exact h.full m hm k hk

/-- An allocated inode's fields change, its blocks do not. -/
theorem set (h : FsOk sb v c) (hm : Live sb v m) {d : Dinode} (hd : d.type ≠ 0) (ha : d.addrs = (v m).addrs)
    (hw : d.Wf) (hs : d.size ≤ MAXFILE * BSIZE) (hf : ∀ k, k * BSIZE < d.size → blockAt (v m) c k ≠ 0) :
    FsOk sb (upd v m d) c := by
  have hl := live_upd hm hd
  have hp : ∀ p, ptr d c p = ptr (v m) c p := ptr_congr ha fun _ => rfl
  refine ⟨forall_upd (P := fun m (d : Dinode) => sb.IsInum m → d.Wf) (fun m' _ => h.wf m') fun _ => hw,
    h.owns.congr (fun a => ?_) fun _ _ => Iff.rfl, h.meta_, fun m' hm' => ?_, fun m' hm' k hk => ?_⟩
  · obtain ⟨m', p⟩ := a
    by_cases hm' : Live sb v m'
    · rw [own_live hm', own_live ((hl m').mpr hm')]
      by_cases e : m' = m
      · rw [e, upd_same, hp]
      · rw [upd_ne e]
    · rw [own_dead hm', own_dead (mt (hl m').mp hm')]
  · by_cases e : m' = m
    · rw [e, upd_same]; exact hs
    · rw [upd_ne e]; exact h.size_le m' ((hl m').mp hm')
  · by_cases e : m' = m
    · rw [e, upd_same] at hk ⊢
      rw [blockAt, hp]
      exact hf k hk
    · rw [upd_ne e] at hk ⊢
      exact h.full m' ((hl m').mp hm') k hk

/-- An inode that holds no block is allocated or freed. -/
theorem retype (h : FsOk sb v c) {d : Dinode} (hv : Live sb v m → ∀ p, ptr (v m) c p = 0) (hd : ∀ j, d.addrs j = 0)
    (hw : d.Wf) (hs : d.size = 0) : FsOk sb (upd v m d) c := by
  have hp : ∀ p, ptr d c p = 0 := fun p => by
    cases p with
    | addr k => exact hd k
    | entry j => simp only [ptr, hd, ne_eq, not_true_eq_false, false_and, if_false]
  refine ⟨forall_upd (P := fun m (d : Dinode) => sb.IsInum m → d.Wf) (fun m' _ => h.wf m') fun _ => hw,
    h.owns.congr (fun a => ?_) fun _ _ => Iff.rfl, h.meta_, fun m' hm' => ?_, fun m' hm' k hk => ?_⟩
  · obtain ⟨m', p⟩ := a
    by_cases e : m' = m
    · subst e
      have h0 : own sb v c (m', p) = 0 := by
        by_cases hm' : Live sb v m'
        · rw [own_live hm', hv hm']
        · exact own_dead hm' p
      rw [h0]
      by_cases hm' : Live sb (upd v m' d) m'
      · rw [own_live hm', upd_same, hp]
      · exact own_dead hm' p
    · have hl : Live sb (upd v m d) m' ↔ Live sb v m' := by simp only [Live, upd_ne e]
      by_cases hm' : Live sb v m'
      · rw [own_live hm', own_live (hl.mpr hm'), upd_ne e]
      · rw [own_dead hm', own_dead (mt hl.mp hm')]
  · by_cases e : m' = m
    · rw [e, upd_same, hs]; exact Nat.zero_le _
    · simp only [Live, upd_ne e] at hm' ⊢
      exact h.size_le m' hm'
  · by_cases e : m' = m
    · rw [e, upd_same, hs] at hk
      exact absurd hk (Nat.not_lt_zero _)
    · simp only [Live, upd_ne e] at hm' hk ⊢
      exact h.full m' hm' k hk

structure IsFree (sb : Superblock) (c : Disk) (r : Nat) : Prop where
  low : sb.nmeta ≤ r
  high : r < sb.size
  clear : sb.bit c r = false

theorem IsFree.ne_zero (hr : IsFree sb c r) : r ≠ 0 := by
  have := sb.nmeta_pos
  have := hr.low
  omega

theorem used_claimed (hr : IsFree sb c r) (hb : ∀ b, b < sb.size → sb.bit c' b = (sb.bit c b || decide (b = r)))
    (y : Nat) : sb.Used c' y ↔ sb.Used c y ∨ y = r := by
  constructor
  · rintro ⟨h1, h2, h3⟩
    rw [hb y h2, Bool.or_eq_true, decide_eq_true_eq] at h3
    exact h3.imp_left fun h3 => ⟨h1, h2, h3⟩
  · rintro (⟨h1, h2, h3⟩ | rfl)
    · exact ⟨h1, h2, by rw [hb y h2, h3, Bool.true_or]⟩
    · exact ⟨hr.low, hr.high, by rw [hb y hr.high, decide_eq_true rfl, Bool.or_true]⟩

theorem not_used (hr : IsFree sb c r) : ¬ sb.Used c r := fun h => by
  have := h.2.2
  rw [hr.clear] at this
  cases this

theorem meta_claimed (h : FsOk sb v c) (hb : ∀ b, b < sb.size → sb.bit c' b = (sb.bit c b || decide (b = r)))
    {b : Nat} (hlt : b < sb.nmeta) : sb.bit c' b = true := by
  rw [hb b (Nat.lt_of_lt_of_le hlt sb.bmap_le), h.meta_ b hlt, Bool.true_or]

variable (h : FsOk sb v c) (hm : Live sb v m) (hr : IsFree sb c r)
  (hb : ∀ b, b < sb.size → sb.bit c' b = (sb.bit c b || decide (b = r)))
include h hm hr hb

/-- Place `q` of inode `m` takes a free block, and every other place is as it was. -/
theorem claim_place {q : Pos} {d : Dinode} (hw : sb.IsInum m → d.Wf) (hty : d.type ≠ 0) (hsz : d.size = (v m).size)
    (h0 : ptr (v m) c q = 0) (hq : ptr d c' q = r) (mine : ∀ p, p ≠ q → ptr d c' p = ptr (v m) c p)
    (other : ∀ m', m' ≠ m → Live sb v m' → ∀ p, ptr (v m') c' p = ptr (v m') c p) :
    FsOk sb (upd v m d) c' ∧ ∀ a, own sb (upd v m d) c' a = own sb v c a ∨ own sb (upd v m d) c' a = r := by
  have hl := live_upd (d := d) hm hty
  have place : own sb (upd v m d) c' (m, q) = r := by rw [own_live ((hl m).mpr hm), upd_same, hq]
  have places : ∀ a, a ≠ (m, q) → own sb (upd v m d) c' a = own sb v c a := by
    rintro ⟨m', p⟩ ha
    by_cases hm' : Live sb v m'
    · rw [own_live hm', own_live ((hl m').mpr hm')]
      by_cases e : m' = m
      · subst e
        rw [upd_same, mine p fun e => ha (by rw [e])]
      · rw [upd_ne e, other m' e hm']
    · rw [own_dead hm', own_dead (mt (hl m').mp hm')]
  refine ⟨⟨forall_upd (P := fun m (d : Dinode) => sb.IsInum m → d.Wf) (fun m' _ => h.wf m') hw, ?_,
    fun b => meta_claimed h hb, fun m' hm' => ?_, fun m' hm' k' hk' => ?_⟩, fun a => ?_⟩
  · refine h.owns.claim (a := (m, q)) (x := r) ?_ (not_used hr) hr.ne_zero place places fun y _ => used_claimed hr hb y
    rw [own_live hm, h0]
  · by_cases e : m' = m
    · rw [e, upd_same, hsz]; exact h.size_le m hm
    · rw [upd_ne e]; exact h.size_le m' ((hl m').mp hm')
  · by_cases e : m' = m
    · rw [e, upd_same] at hk' ⊢
      have hb0 : blockAt (v m) c k' ≠ 0 := h.full m hm k' (hsz ▸ hk')
      rw [blockAt, mine _ fun e => hb0 (by rw [blockAt, e, h0])]
      exact hb0
    · rw [upd_ne e] at hk' ⊢
      rw [blockAt, other m' e ((hl m').mp hm')]
      exact h.full m' ((hl m').mp hm') k' hk'
  · by_cases ha : a = (m, q)
    · rw [ha]; exact Or.inr place
    · exact Or.inl (places a ha)

/-- The address `k` of inode `m`, its indirect block's included, takes a free block. -/
theorem claim_addr {k : Nat} (hk : k ≤ NDIRECT) (h0 : (v m).addrs k = 0) (hz : c' r = zeroBlock)
    (hc : ∀ y, sb.nmeta ≤ y → y ≠ r → c' y = c y) {d : Dinode}
    (hd : d = { v m with addrs := upd (v m).addrs k r }) :
    FsOk sb (upd v m d) c' ∧ SameData (v m) c d c' ∧ Others sb m v c (upd v m d) c' ∧
      (∀ k', k' ≠ k → k' < NDIRECT → blockAt d c' k' = blockAt (v m) c k') ∧
      (∀ j, ptr d c' (.entry j) = ptr (v m) c (.entry j)) ∧
      ∀ a, own sb (upd v m d) c' a = own sb v c a ∨ own sb (upd v m d) c' a = r := by
  -- the blocks that are owned keep their contents
  have keep : ∀ m', Live sb v m' → ∀ p, ptr (v m') c p ≠ 0 → c' (ptr (v m') c p) = c (ptr (v m') c p) :=
    fun m' hm' p hp => hc _ (h.ptr_range hm' hp).1 (h.ptr_ne_free hm' hp hr.clear)
  have other : ∀ m', Live sb v m' → ∀ p, ptr (v m') c' p = ptr (v m') c p := fun m' hm' p =>
    ptr_congr rfl (fun h0 => keep m' hm' (.addr NDIRECT) h0) p
  have entries : ∀ j, ptr d c' (.entry j) = ptr (v m) c (.entry j) := fun j => by
    by_cases hkN : k = NDIRECT
    · -- a new indirect block is zero
      have h1 : d.addrs NDIRECT = r := by rw [hd, hkN]; simp
      have h2 : (v m).addrs NDIRECT = 0 := by rw [← hkN]; exact h0
      simp only [ptr, h1, h2, hz, le32_zero, ite_self, ne_eq, not_true_eq_false, false_and, if_false]
    · have h1 : d.addrs NDIRECT = (v m).addrs NDIRECT := by rw [hd]; simp [Ne.symm hkN]
      rw [← other m hm]
      simp only [ptr, h1]
  have atk : ptr d c' (.addr k) = r := by rw [ptr_addr, hd]; simp
  have mine : ∀ p, p ≠ .addr k → ptr d c' p = ptr (v m) c p := fun p hp => by
    cases p with
    | addr k' =>
      have : k' ≠ k := fun e => hp (by rw [e])
      rw [ptr_addr, ptr_addr, hd]
      simp [this]
    | entry j => exact entries j
  have hw : sb.IsInum m → d.Wf := fun hi => by
    have w := h.wf m hi
    have hlt : r < 2 ^ 32 := by have := sb.size_lt; have := hr.high; omega
    rw [hd]
    refine ⟨w.type, w.major, w.minor, w.nlink, w.size, fun j => ?_, fun j hj => ?_⟩
    · by_cases e : j = k
      · simpa [e] using hlt
      · simpa [e] using w.addrs j
    · have : j ≠ k := by omega
      simpa [this] using w.beyond j hj
  obtain ⟨hfs, hown⟩ := claim_place h hm hr hb (q := .addr k) hw (by rw [hd]; exact hm.2) (by rw [hd]) h0 atk mine
    fun m' _ => other m'
  refine ⟨hfs, sameData_of_ptr (fun p hp => mine p fun e => hp (by rw [e, ptr_addr, h0])) fun p _ hp => keep m hm p hp,
    Others.of_frame (fun m' hm' => upd_ne hm' d) fun m' _ hm' p hp => keep m' hm' p hp, fun k' hk' hlt => ?_, entries,
    hown⟩
  rw [blockAt, blockAt, posOf, if_pos hlt]
  exact mine _ fun e => hk' (Pos.addr.inj e)

/-- Entry `j` of the indirect block of inode `m` takes a free block. -/
theorem claim_entry {j : Nat} (hj : j < NINDIRECT) (hi : (v m).addrs NDIRECT ≠ 0)
    (h0 : ptr (v m) c (.entry j) = 0) (hind : c' ((v m).addrs NDIRECT) = putLe32 (c ((v m).addrs NDIRECT)) (4 * j) r)
    (hc : ∀ y, sb.nmeta ≤ y → y ≠ r → y ≠ (v m).addrs NDIRECT → c' y = c y) :
    FsOk sb v c' ∧ ptr (v m) c' (.entry j) = r ∧ SameData (v m) c (v m) c' ∧ Others sb m v c v c' ∧
      (∀ p, p ≠ .entry j → ptr (v m) c' p = ptr (v m) c p) ∧ ∀ a, own sb v c' a = own sb v c a ∨ own sb v c' a = r := by
  have hlt : r < 2 ^ 32 := by have := sb.size_lt; have := hr.high; omega
  -- every owned block but the indirect one keeps its contents
  have keep : ∀ m', Live sb v m' → ∀ p, ptr (v m') c p ≠ 0 → (m', p) ≠ (m, Pos.addr NDIRECT) →
      c' (ptr (v m') c p) = c (ptr (v m') c p) := fun m' hm' p hp hne => by
    refine hc _ (h.ptr_range hm' hp).1 (h.ptr_ne_free hm' hp hr.clear) fun e => hne ?_
    obtain ⟨e1, e2⟩ := h.ptr_inj hm' hm hp (q := .addr NDIRECT) e
    rw [e1, e2]
  have other : ∀ m', m' ≠ m → Live sb v m' → ∀ p, ptr (v m') c' p = ptr (v m') c p := fun m' hne hm' p =>
    ptr_congr rfl (fun h0 => keep m' hm' (.addr NDIRECT) h0 fun e => hne (congrArg Prod.fst e)) p
  have atj : ptr (v m) c' (.entry j) = r := by
    simp only [ptr, hi, hj, ne_eq, not_false_eq_true, and_self, if_true, hind, le32_put_same, Nat.mod_eq_of_lt hlt]
  have mine : ∀ p, p ≠ .entry j → ptr (v m) c' p = ptr (v m) c p := fun p hp => by
    cases p with
    | addr k' => rfl
    | entry j' =>
      have : j' ≠ j := fun e => hp (by rw [e])
      simp only [ptr, hind]
      rw [le32_put_apart (by omega)]
  obtain ⟨hfs, hown⟩ := claim_place h hm hr hb (h.wf m) hm.2 rfl h0 atj mine other
  rw [upd_self] at hfs hown
  exact ⟨hfs, atj, sameData_of_ptr (fun p hp => mine p fun e => hp (by rw [e, h0])) fun p hp hp0 =>
      keep m hm p hp0 fun e => hp (congrArg Prod.snd e),
    Others.of_frame (fun _ _ => rfl) fun m' hne hm' p hp => keep m' hm' p hp fun e => hne (congrArg Prod.fst e),
    mine, hown⟩

end FsOk

end Xv6.Fs
