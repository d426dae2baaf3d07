/-
  Xv6.Fs.Slot — the entries of a directory.

  The entries are slots of 16 bytes; one with a nonzero inode number binds its name, the bytes
  before the first NUL or all DIRSIZ of them. The slots make the directory a map from names to
  inode numbers (`dirMap`).

  Proved: what the loops of `dirlookup` and `dirlink` read of the slots (`dirlookup_rule`,
  `emptyEntry_spec`), and what a `writei` of one entry does (`writeSlot_spec`): it writes the entry
  or nothing, but where it needs an indirect block and a data block and one block is left, the
  inode keeps that one as its indirect block.
-/
import Xv6.Lib.Slots
import Xv6.Fs.Content

namespace Xv6.Fs

variable {sb : Superblock} {v : Nat → Dinode} {i j m k n off : Nat} {name : Name} {s s1 s' : St} {d d' : Dinode}
  {c c' : Disk} {de : Nat → UInt8}

/-! ## Names -/

def cstr : Nat → (Nat → UInt8) → Name
  | 0, _ => []
  | n + 1, p => if p 0 = 0 then [] else p 0 :: cstr n fun k => p (k + 1)

theorem cstr_congr : ∀ {n : Nat} {p q : Nat → UInt8}, (∀ k, k < n → p k = q k) → cstr n p = cstr n q
  | 0, _, _, _ => rfl
  | n + 1, p, q, h => by
    simp only [cstr, h 0 (by omega)]
    rw [cstr_congr fun k hk => h (k + 1) (by omega)]

/-- `strncmp` compares what stands before the NULs. -/
theorem strncmp_eq_zero : ∀ {n : Nat} {p q : Nat → UInt8}, strncmp n p q = 0 ↔ cstr n p = cstr n q
  | 0, _, _ => by simp [strncmp, cstr]
  | n + 1, p, q => by
    have hsub : ((p 0).toNat : Int) - (q 0).toNat = 0 ↔ p 0 = q 0 := by
      rw [← UInt8.toNat_inj]
      omega
    simp only [strncmp, cstr]
    by_cases hp : p 0 = 0
    · rw [if_neg fun h => h.1 hp, if_pos hp, hsub, hp]
      by_cases hq : q 0 = 0
      · simp [hq]
      · rw [if_neg hq]
        exact ⟨fun h => absurd h.symm hq, nofun⟩
    · by_cases hq : q 0 = 0
      · rw [if_neg fun h => hp (h.2.trans hq), if_neg hp, if_pos hq, hsub, hq]
        simp [hp]
      · by_cases he : p 0 = q 0
        · rw [if_pos ⟨hp, he⟩, if_neg hp, if_neg hq, strncmp_eq_zero, he, List.cons.injEq]
          simp
        · rw [if_neg fun h => he h.2, if_neg hp, if_neg hq, hsub, List.cons.injEq]
          simp [he]

def Name.key (name : Name) : Name := cstr DIRSIZ name.buf

/-! ## The entries -/

def direntAt (d : Dinode) (c : Disk) (off : Nat) : Nat := deInum fun k => byteAt d c (off + k)

def nameAt (d : Dinode) (c : Disk) (off : Nat) : Name := cstr DIRSIZ fun k => byteAt d c (off + (2 + k))

/-- The `k`-th entry: its name and inode number, or nothing for a free one. -/
def slot (d : Dinode) (c : Disk) (k : Nat) : Option (Name × Nat) :=
  if direntAt d c (16 * k) = 0 then none else some (nameAt d c (16 * k), direntAt d c (16 * k))

def dirMap (d : Dinode) (c : Disk) : Name → Option Nat := Slots.slotMap (d.size / 16) (slot d c)

theorem direntAt_congr (h : ∀ k, k < 16 → byteAt d' c' (off + k) = byteAt d c (off + k)) :
    direntAt d' c' off = direntAt d c off := by
  simp only [direntAt, deInum, le16, Nat.zero_add]
  rw [h 0 (by omega), h 1 (by omega)]

theorem slot_congr (h : ∀ o, o < 16 → byteAt d' c' (16 * k + o) = byteAt d c (16 * k + o)) :
    slot d' c' k = slot d c k := by
  have hn : nameAt d' c' (16 * k) = nameAt d c (16 * k) :=
    cstr_congr fun o ho => h (2 + o) (by simp only [DIRSIZ] at ho; omega)
  rw [slot, slot, direntAt_congr h, hn]

/-- An entry with the 16 bytes of `de`. -/
theorem slot_bytes (h : ∀ o, o < 16 → byteAt d c (16 * k + o) = de o) :
    slot d c k = if deInum de = 0 then none else some (cstr DIRSIZ (deName de), deInum de) := by
  have hi : direntAt d c (16 * k) = deInum de := by
    simp only [direntAt, deInum, le16, Nat.zero_add]
    rw [h 0 (by omega), h 1 (by omega)]
  have hn : nameAt d c (16 * k) = cstr DIRSIZ (deName de) :=
    cstr_congr fun o ho => h (2 + o) (by simp only [DIRSIZ] at ho; omega)
  rw [slot, hi, hn]

theorem deName_dirent (inum : Nat) (name : Name) : cstr DIRSIZ (deName (dirent inum name)) = name.key :=
  cstr_congr fun k _ => by
    rw [deName, dirent, putLe16_apart (by omega)]
    show name.buf (2 + k - 2) = _
    rw [Nat.add_sub_cancel_left]

theorem direntAt_slot : direntAt d c (16 * k) = (slot d c k).elim 0 Prod.snd := by
  rw [slot]
  split <;> simp [*]

/-- A name's slot. -/
theorem slotOf_facts (hs : Slots.slotOf (d.size / 16) (slot d c) name.key = some k) :
    dirMap d c name.key = some (direntAt d c (16 * k)) ∧ 16 * k + 16 ≤ d.size ∧ slot d c k = some
    (name.key, direntAt d c (16 * k)) := by
  obtain ⟨hlt, x, hx⟩ := Slots.slotOf_some hs
  obtain rfl : direntAt d c (16 * k) = x := by rw [direntAt_slot, hx]; rfl
  refine ⟨?_, by omega, hx⟩
  rw [dirMap, Slots.slotMap, hs, Option.bind_some, hx]
  rfl

/-! ## Reading -/

/-- An entry is read whole, or the file ends before it does. -/
theorem readi_slot {E : Panic → St → Prop} (h : Core sb v 0 s) (hi : Opened s i m) (k : Nat) :
    wp (readi sb i kernelDst (16 * k) 16)
      (fun r s' => Reads s s' ∧ (r.1 = 16 ↔ 16 * k + 16 ≤ (v m).size) ∧
        (r.1 = 16 → deInum r.2 = direntAt (v m) s.cache (16 * k) ∧
        slot (v m) s.cache k = if deInum r.2 = 0 then none else some (cstr DIRSIZ (deName r.2), deInum r.2))) E s := by
  have hcopy := h.copy_eq hi
  have hlive := h.live hi
  have hfull : Mapped (s.itable i).copy s.cache (s.itable i).copy.size := by rw [hcopy]; exact h.fs.full m hlive
  have hsz : (s.itable i).copy.size < 2 ^ 32 := by rw [hcopy]; exact (h.fs.wf m hlive.1).size
  rw [← hcopy]
  by_cases hle : 16 * k + 16 ≤ (s.itable i).copy.size
  · refine (readi_kernel hfull hsz hle).imp fun r s' hr => ?_
    obtain ⟨h1, h2, h3⟩ := hr
    refine ⟨h1, ⟨fun _ => hle, fun _ => h2⟩, fun _ => ⟨?_, slot_bytes fun o ho => (h3 o ho).symm⟩⟩
    simp only [direntAt, deInum, le16, Nat.zero_add]
    rw [h3 0 (by omega), h3 1 (by omega)]
  · simp only [readi, wp_bind, wp_get]
    refine wp_ite (fun _ => ⟨.refl s, by simp [hle], by simp⟩) fun hin => ?_
    rw [if_pos (by omega)]
    refine (readLoop_spec _ (Nat.le_refl _) (Nat.zero_le _) fun k hk => hfull k (by omega)).imp fun r s' hr => ?_
    have hne : r.1 ≠ 16 := by
      rw [hr.2.1, if_pos (kernelDst_takes _ _)]
      omega
    exact ⟨hr.1.reads, ⟨fun h16 => absurd h16 hne, fun h1 => absurd h1 hle⟩, fun h16 => absurd h16 hne⟩

section
variable {Q : Option (Nat × Nat) → St → Prop} {E : Panic → St → Prop}

/-- The loop of `dirlookup` from `s`, over the slots `ks`: the first that binds the name. -/
theorem dirlookupLoop_rule (h : Core sb v 0 s) (hi : Opened s i m) (ks : List Nat) :
    ∀ {s1}, Reads s s1 → ((∃ k ∈ ks, (v m).size < 16 * k + 16) → ∀ s', E .dirlookupRead s') →
    (∀ s', Reads s s' → (∀ k ∈ ks, 16 * k + 16 ≤ (v m).size) →
      (ks.find? fun k => Slots.binds (slot (v m) s.cache k) name.key) = none → Q none s') →
    (∀ k s', Reads s s' → 16 * k + 16 ≤ (v m).size →
      (ks.find? fun k => Slots.binds (slot (v m) s.cache k) name.key) = some k →
      wp (iget (s.itable i).dev (direntAt (v m) s.cache (16 * k))) (fun j => Q (some (j, 16 * k))) E s') →
    wp (dirlookupLoop sb i name (ks.map (16 * ·))) Q E s1 := by
  induction ks with
  | nil =>
    intro s1 hr1 _ hnone _
    simp only [List.map_nil, dirlookupLoop, wp_pure]
    exact hnone s1 hr1 (by simp) rfl
  | cons k ks ih =>
    intro s1 hr1 hodd hnone hsome
    simp only [List.map_cons, dirlookupLoop, wp_bind]
    refine (readi_slot (hr1.core h) (hr1.opened hi) k).imp fun r s2 hr => ?_
    obtain ⟨hread, h16, hde⟩ := hr
    rw [hr1.cache] at hde
    have hr2 := hr1.trans hread
    refine wp_ite (fun hne => hodd ⟨k, by simp, Nat.lt_of_not_le (mt h16.mpr hne)⟩ s2) fun he => ?_
    rw [not_not] at he
    have hle := h16.mp he
    obtain ⟨hinum, hslot⟩ := hde he
    have hrest : Slots.binds (slot (v m) s.cache k) name.key = false → wp (dirlookupLoop sb i name (ks.map (16 * ·))) Q
        E s2 := fun hno => by
      rw [List.find?_cons, hno] at hnone
      refine ih hr2 (fun ⟨x, hx, hlt⟩ => hodd ⟨x, List.mem_cons_of_mem _ hx, hlt⟩)
        (fun s' hs hall => hnone s' hs (List.forall_mem_cons.mpr ⟨hle, hall⟩)) fun x s' hs hx hf => hsome x s' hs hx ?_
      rw [List.find?_cons, hno]
      exact hf
    refine wp_ite (fun h0 => hrest ?_) fun h0 => ?_
    · rw [hslot, if_pos h0]
      rfl
    rw [if_neg h0] at hslot
    refine wp_ite (fun hcmp => ?_) fun hcmp => hrest ?_
    · have hkey : name.key = cstr DIRSIZ (deName r.2) := strncmp_eq_zero.mp hcmp
      have hb : Slots.binds (slot (v m) s.cache k) name.key = true := Slots.binds_iff.mpr
        ⟨deInum r.2, by rw [hslot, hkey]⟩
      simp only [wp_bind, wp_get, wp_pure, hr2.itable, hinum]
      exact hsome k s2 hr2 hle (by rw [List.find?_cons, hb])
    · rw [Bool.eq_false_iff]
      intro hb
      obtain ⟨x, hx⟩ := Slots.binds_iff.mp hb
      rw [hslot] at hx
      exact hcmp (strncmp_eq_zero.mpr (Prod.mk.inj (Option.some.inj hx)).1.symm)

/-- `dirlookup` takes the first slot with the name; a directory that does not end with an entry stops it. -/
theorem dirlookup_rule (h : Core sb v 0 s) (hi : Opened s i m) (hdir : (v m).type ≠ T_DIR → E .notDir s)
    (hodd : (v m).size % 16 ≠ 0 → ∀ s', E .dirlookupRead s')
    (hnone : ∀ s', Reads s s' → (v m).type = T_DIR → (v m).size % 16 = 0 →
      dirMap (v m) s.cache name.key = none → Q none s')
    (hsome : ∀ k s', Reads s s' → (v m).type = T_DIR → Slots.slotOf ((v m).size / 16)
      (slot (v m) s.cache) name.key = some k →
      wp (iget (s.itable i).dev (direntAt (v m) s.cache (16 * k))) (fun j => Q (some (j, 16 * k))) E s') :
    wp (dirlookup sb i name) Q E s := by
  simp only [dirlookup, wp_bind, wp_get, h.copy_eq hi]
  refine wp_ite hdir fun hty => ?_
  rw [not_not] at hty
  refine dirlookupLoop_rule h hi _ (.refl s) (fun ⟨k, hk, hlt⟩ => hodd ?_) (fun s' hr hall hf => ?_)
    fun k s' hr hle hf => hsome k s' hr hty ?_
  · have := List.mem_range.mp hk
    omega
  · have hw : (v m).size % 16 = 0 := by
      by_contra hne
      have := hall ((v m).size / 16) (List.mem_range.mpr (by omega))
      omega
    refine hnone s' hr hty hw (Slots.slotMap_none.mpr ?_)
    rwa [show ((v m).size + 15) / 16 = (v m).size / 16 by omega] at hf
  · -- the slots before the last, which may be cut off
    by_cases hw : (v m).size % 16 = 0
    · rwa [show ((v m).size + 15) / 16 = (v m).size / 16 by omega] at hf
    · rw [show ((v m).size + 15) / 16 = (v m).size / 16 + 1 by omega, List.range_succ, List.find?_append,
        Option.or_eq_some_iff] at hf
      refine hf.resolve_right fun h1 => ?_
      have := List.mem_of_find?_eq_some h1.2
      rw [List.mem_singleton] at this
      omega

end

/-! ## Room for another entry -/

def freeSlot (d : Dinode) (c : Disk) : Option Nat := (List.range (d.size / 16)).find? fun k => (slot d c k).isNone

def HasFree (sb : Superblock) (c : Disk) (k : Nat) : Prop :=
  ∃ l : List Nat, l.Nodup ∧ l.length = k ∧ ∀ b ∈ l, b < sb.size ∧ sb.bit c b = false

/-- The blocks `bmap` allocates for index `bn`: the data block, and the indirect block before it. -/
def needed (d : Dinode) (c : Disk) (bn : Nat) : Nat :=
  if blockAt d c bn ≠ 0 then 0 else if bn < NDIRECT ∨ d.addrs NDIRECT ≠ 0 then 1 else 2

theorem hasFree_zero : HasFree sb c 0 := ⟨[], List.nodup_nil, rfl, by simp⟩

theorem hasFree_one : HasFree sb c 1 ↔ ∃ b, b < sb.size ∧ sb.bit c b = false := by
  constructor
  · rintro ⟨l, -, hl, hb⟩
    obtain ⟨b, rfl⟩ := List.length_eq_one_iff.mp hl
    exact ⟨b, hb b (by simp)⟩
  · rintro ⟨b, hb⟩
    exact ⟨[b], by simp, rfl, by simpa using hb⟩

/-- One block is taken. -/
theorem hasFree_two {r : Nat} (hr : r < sb.size ∧ sb.bit c r = false)
    (hb : ∀ b, b < sb.size → sb.bit c' b = (sb.bit c b || decide (b = r))) : HasFree sb c' 1 ↔ HasFree sb c 2 := by
  rw [hasFree_one]
  constructor
  · rintro ⟨b, h1, h2⟩
    rw [hb b h1, Bool.or_eq_false_iff, decide_eq_false_iff_not] at h2
    exact ⟨[b, r], by simpa using h2.2, rfl, by simpa using ⟨⟨h1, h2.1⟩, hr⟩⟩
  · rintro ⟨l, hn, hl, hall⟩
    obtain ⟨a, b, rfl⟩ := List.length_eq_two.mp hl
    have hne : a ≠ b := by simpa using hn
    have ha := hall a (by simp)
    have hb' := hall b (by simp)
    by_cases e : a = r
    · exact ⟨b, hb'.1, by rw [hb b hb'.1, hb'.2]; simp [← e, Ne.symm hne]⟩
    · exact ⟨a, ha.1, by rw [hb a ha.1, ha.2]; simp [e]⟩

theorem balloc_free (ho : s.outstanding = 1) (hmeta : ∀ b, b < sb.nmeta → sb.bit s.cache b = true) :
    wp (balloc sb) (fun r s' => Balloc sb s r s' ∧ (r ≠ 0 ↔ HasFree sb s.cache 1)) (fun _ _ => True) s := by
  refine (balloc_spec ho hmeta).mono (fun r s' h => ⟨h.1, ?_⟩) fun _ _ _ => trivial
  rw [hasFree_one]
  constructor
  · intro h0
    have := h.1.isFree h0
    exact ⟨r, this.high, this.clear⟩
  · rintro ⟨b, h1, h2⟩ h0
    rw [h.2 h0 b h1] at h2
    cases h2

theorem HasFree.le (h : HasFree sb c k) (hj : j ≤ k) : HasFree sb c j := by
  obtain ⟨l, hn, hl, hb⟩ := h
  exact ⟨l.take j, hn.sublist (List.take_sublist j l), by rw [List.length_take, hl]; omega, fun b hm =>
    hb b (List.mem_of_mem_take hm)⟩

/-- The entry of an indirect block. -/
theorem bmapEntry_free {ind : Nat} (ho : s.outstanding = 1) (hmeta : ∀ b, b < sb.nmeta → sb.bit s.cache b = true) :
    wp (bmapEntry sb ind k)
      (fun r s' => (r ≠ 0 ↔ HasFree sb s.cache (if le32 (s.cache ind) (4 * k) ≠ 0 then 0 else 1)) ∧
      (r = 0 → s'.itable = s.itable)) (fun _ _ => True) s := by
  simp only [bmapEntry, wp_bind, wp_bread]
  refine wp_ite (fun h0 => ?_) fun h0 => ?_
  · simp only [wp_bind, wp_brelse, wp_pure, if_pos h0]
    exact ⟨⟨fun _ => hasFree_zero, fun _ => h0⟩, fun _ => rfl⟩
  · rw [wp_bind, if_neg h0]
    refine (balloc_free (s := s.ev _) ho hmeta).imp fun r s1 h => ?_
    have h2 : r ≠ 0 ↔ HasFree sb s.cache 1 := h.2
    refine wp_ite (fun hr => ?_) fun hr => ?_
    · simp only [wp_bind, wp_brelse, wp_pure]
      exact ⟨by rw [← h2, hr], fun _ => h.1.itable⟩
    · simp only [wp_bind, wp_brelse, wp_pure, wp_setData]
      exact (wp_true _ _).imp fun _ _ _ => ⟨h2, fun h0 => absurd h0 hr⟩

/-- `bmap` fails for want of blocks; the inode has taken an indirect block where there was one left. -/
theorem bmap_free {bn : Nat} (h : Core sb v 0 s) (hi : Opened s i m) (ho : s.outstanding = 1) (hbn : bn < MAXFILE) :
    wp (bmap sb i bn) (fun r s' => (r ≠ 0 ↔ HasFree sb s.cache (needed (v m) s.cache bn)) ∧
      (r = 0 → ((s'.itable i).copy.addrs = (v m).addrs ↔ ¬ HasFree sb s.cache 1))) (fun _ _ => True) s := by
  have hmeta := h.fs.meta_
  have hcopy := h.copy_eq hi
  simp only [bmap, wp_bind, wp_get, hcopy, needed]
  by_cases hd : bn < NDIRECT
  · rw [if_pos hd, blockAt_direct hd, if_pos (Or.inl hd)]
    refine wp_ite (fun h0 => ?_) fun h0 => ?_
    · rw [wp_pure, if_pos h0]
      exact ⟨⟨fun _ => hasFree_zero, fun _ => h0⟩, fun h1 => absurd h1 h0⟩
    · rw [wp_bind, if_neg h0]
      refine (balloc_free ho hmeta).imp fun r s1 hb => ?_
      refine wp_ite (fun hr => ?_) fun hr => ?_
      · rw [wp_pure, ← hb.2, hr, hb.1.itable, hcopy]
        simp
      · rw [wp_bind, wp_setCopy, wp_pure]
        exact ⟨hb.2, fun h1 => absurd h1 hr⟩
  · have hj : bn - NDIRECT < NINDIRECT := by simp only [MAXFILE] at hbn; omega
    rw [if_neg hd, if_pos hj, blockAt_indirect hd]
    refine wp_ite (fun h0 => ?_) fun h0 => ?_
    · rw [ptr_entry h0 hj, if_pos (show bn < NDIRECT ∨ _ from Or.inr h0)]
      refine (bmapEntry_free ho hmeta).imp fun r s1 hr => ⟨hr.1, fun h1 => ?_⟩
      rw [hr.2 h1, hcopy, eq_self, true_iff]
      intro hf
      refine absurd h1 (hr.1.mpr ?_)
      split
      · exact hasFree_zero
      · exact hf
    · have hzero : ptr (v m) s.cache (.entry (bn - NDIRECT)) = 0 := by rw [ptr, if_neg fun h1 => h0 h1.1]
      rw [hzero, if_neg (not_not.mpr rfl), if_neg fun h1 => h1.elim hd h0, wp_bind]
      refine (balloc_free ho hmeta).imp fun r s1 hb => ?_
      refine wp_ite (fun hr => ?_) fun hr => ?_
      · have hno : ¬ HasFree sb s.cache 1 := mt hb.2.mpr (not_not.mpr hr)
        rw [wp_pure, hb.1.itable, hcopy]
        exact ⟨⟨fun h1 => absurd rfl h1, fun h1 => absurd (h1.le (by decide)) hno⟩, fun _ =>
          ⟨fun _ => hno, fun _ => rfl⟩⟩
      · -- the indirect block is new: all its entries are free
        have hfree := hb.1.isFree hr
        have hbits := hb.1.bits hr
        rw [wp_bind, wp_setCopy]
        refine (bmapEntry_free (s := s1.node i _) (hb.1.ext.outstanding.trans ho) fun b hlt => ?_).imp fun x s' hx => ?_
        · have hsz : b < sb.size := Nat.lt_trans (Nat.lt_of_lt_of_le hlt hfree.low) hfree.high
          rw [St.node_cache, hbits b hsz, hmeta b hlt]
          rfl
        · rw [St.node_cache, hb.1.zero hr, le32_zero, if_neg (not_not.mpr rfl)] at hx
          refine ⟨hx.1.trans (hasFree_two ⟨hfree.high, hfree.clear⟩ hbits), fun h1 =>
            ⟨fun ha => ?_, fun hno => absurd (hb.2.mp hr) hno⟩⟩
          have := congrFun ha NDIRECT
          rw [hx.2 h1, St.node_itable, upd_same] at this
          simp only [hb.1.itable, hcopy, upd_same] at this
          exact absurd (this.trans (not_not.mp h0)) hr

theorem iupdate_itable : wp (iupdate sb i) (fun _ s' => s'.itable = s.itable) (fun _ _ => True) s := by
  simp only [iupdate, logWrite, wp_bind, wp_get, wp_emit, wp_bread, wp_setData, wp_brelse]
  exact wp_ite (fun _ => trivial) fun _ => wp_ite (fun _ => trivial) fun _ => rfl

theorem writeLoop_free {fuel : Nat} (h : Core sb v 0 s) (hi : Opened s i m) (ho : s.outstanding = 1)
    (hmod : off % 16 = 0) (hbn : off / BSIZE < MAXFILE) :
    wp (writeLoop sb i (kernelSrc de) 16 (fuel + 2) 0 off)
      (fun r s' => (r.1 = 16 ↔ HasFree sb s.cache (needed (v m) s.cache (off / BSIZE))) ∧
        (r.1 ≠ 16 → ((s'.itable i).copy.addrs = (v m).addrs ↔ ¬ HasFree sb s.cache 1))) (fun _ _ => True) s := by
  have hfault : (kernelSrc de).fault 0 16 = none := by
    cases hf : (kernelSrc de).fault 0 16 with
    | none => rfl
    | some k => exact absurd (fault_some hf).2.1 (by simp [kernelSrc])
  have hmin : min (16 - 0) (BSIZE - off % BSIZE) = 16 := by simp only [BSIZE]; omega
  rw [writeLoop, if_pos (by decide), wp_bind]
  refine (bmap_free h hi ho hbn).imp fun addr s1 hb => ?_
  refine wp_ite (fun h0 => ?_) fun h0 => ?_
  · rw [wp_pure]
    exact ⟨⟨by simp, fun h1 => absurd h0 (hb.1.mpr h1)⟩, fun _ => hb.2 h0⟩
  · simp only [wp_bind, wp_bread, hmin, hfault, wp_setData, wp_brelse]
    refine (wp_true _ _).imp fun _ _ _ => ?_
    rw [writeLoop, if_neg (by decide), wp_pure]
    exact ⟨⟨fun _ => hb.1.mp h0, fun _ => rfl⟩, fun h1 => absurd rfl h1⟩

/-- `writei` of an entry: all of it, or nothing where there is no block. -/
theorem writei_free (h : Core sb v 0 s) (hi : Opened s i m) (ho : s.outstanding = 1)
    (hmod : off % 16 = 0) (hle : off ≤ (v m).size) :
    wp (writei sb i (kernelSrc de) off 16)
      (fun r s' => (r = 16 ↔ off + 16 ≤ MAXFILE * BSIZE ∧ HasFree sb s.cache (needed (v m) s.cache (off / BSIZE))) ∧
        (r ≠ 16 → ((s'.itable i).copy.addrs = (v m).addrs ↔ ¬ (off + 16 ≤ MAXFILE * BSIZE ∧ HasFree sb s.cache 1))))
      (fun _ _ => True) s := by
  have hsz := h.fs.size_le m (h.live hi)
  have hcopy := h.copy_eq hi
  simp only [writei, wp_bind, wp_get, hcopy]
  rw [if_neg (by simp only [MAXFILE, NDIRECT, NINDIRECT, BSIZE] at *; omega)]
  refine wp_ite (fun hbig => ?_) fun hfit => ?_
  · rw [wp_pure, hcopy, eq_self, true_iff]
    exact ⟨⟨by simp, fun h1 => absurd h1.1 (by omega)⟩, fun _ h1 => absurd h1.1 (by omega)⟩
  · have hbn : off / BSIZE < MAXFILE := by simp only [MAXFILE, NDIRECT, NINDIRECT, BSIZE] at *; omega
    rw [wp_bind]
    refine (writeLoop_free h hi ho hmod hbn).imp fun r s1 hr => ?_
    simp only [wp_bind, wp_setCopy, wp_pure]
    refine iupdate_itable.imp fun _ s2 ht => ?_
    have h16 : (r.1 : Int) = 16 ↔ r.1 = 16 := by omega
    have hfit : off + 16 ≤ MAXFILE * BSIZE := by omega
    rw [ht, St.node_itable, upd_same, and_iff_right hfit, and_iff_right hfit, h16]
    exact ⟨hr.1, fun hne => hr.2 (mt h16.mpr hne)⟩

/-! ## Writing an entry -/

theorem kernelSrc_ok (de : Nat → UInt8) {f : Nat} : ¬ (kernelSrc de).Faults k f := fun h => by
  have := h.none
  simp [kernelSrc] at this

theorem Written.whole {cnt w e : Nat} (h : Written sb v i m (kernelSrc de) n off cnt s w e s' d) : w = e := by
  by_contra hne
  exact kernelSrc_ok de (h.partly (by have := h.le; omega))

/-- Only the copy of entry `i` differs. -/
theorem copied_entry (ht : s'.itable = upd s.itable i { s.itable i with copy := d }) (j : Nat) :
    s'.itable j = { s.itable j with copy := (s'.itable j).copy } := by
  by_cases e : j = i
  · rw [ht, e, upd_same]
  · rw [ht, upd_ne e]

theorem Opened.copied (hi : Opened s i m) (ht : s'.itable = upd s.itable i { s.itable i with copy := d }) :
    Opened s' i m := by
  have he := copied_entry ht i
  exact ⟨hi.lt, by rw [he]; exact hi.ref, by rw [he]; exact hi.valid, by rw [he]; exact hi.inum⟩

theorem Ext.tables {L : List Nat} (h : Ext sb L s s') : s'.outstanding = s.outstanding ∧ s'.ftable = s.ftable ∧
    s'.proc = s.proc :=
  ⟨h.outstanding, h.ftable, h.proc⟩

/-- The `k`-th entry has the bytes of `de`, or, where `r` is not 16, no byte has changed. -/
structure SlotPut (sb : Superblock) (v : Nat → Dinode) (i m k : Nat) (de : Nat → UInt8) (s : St) (r : Int)
    (d : Dinode) (s' : St) : Prop where
  core : Core sb (upd v m d) 0 s'
  itable : s'.itable = upd s.itable i { s.itable i with copy := d }
  others : Others sb m v s.cache (upd v m d) s'.cache
  tables : s'.outstanding = s.outstanding ∧ s'.ftable = s.ftable ∧ s'.proc = s.proc
  fields : d = { v m with addrs := d.addrs, size := d.size }
  iff : r = 16 ↔ 16 * k + 16 ≤ MAXFILE * BSIZE ∧ HasFree sb s.cache (needed (v m) s.cache (16 * k / BSIZE))
  addrs : r ≠ 16 → (d.addrs = (v m).addrs ↔ ¬ (16 * k + 16 ≤ MAXFILE * BSIZE ∧ HasFree sb s.cache 1))
  size : d.size = if r = 16 then max (v m).size (16 * k + 16) else (v m).size
  here : r = 16 → slot d s'.cache k = if deInum de = 0 then none else some (cstr DIRSIZ (deName de), deInum de)
  rest : ∀ j, j < (v m).size / 16 → r = 16 ∧ j = k ∨ slot d s'.cache j = slot (v m) s.cache j
  bytes : r ≠ 16 → ∀ o, o < (v m).size → byteAt d s'.cache o = byteAt (v m) s.cache o

theorem writeSlot_spec (h : Core sb v 0 s) (hi : Opened s i m) (ho : s.outstanding = 1) (hk : 16 * k ≤ (v m).size) :
    wp (writei sb i (kernelSrc de) (16 * k) 16) (fun r s' => ∃ d, SlotPut sb v i m k de s r d s')
      (TooBig sb 4 s) s := by
  have hblk : 16 * k + 16 ≤ (16 * k / BSIZE + 1) * BSIZE := by simp only [BSIZE]; omega
  refine ((writei_spec (h.ahead m) hi ho hblk).and (writei_free h hi ho (by omega) hk)).mono (fun r s' hr => ?_)
    fun _ _ he => he.1.1
  obtain ⟨hw, hiff, haddrs⟩ := hr
  rcases hw with ⟨-, rfl, rfl⟩ | ⟨-, w, e, d, rfl, hw⟩
  · have hcopy := h.copy_eq hi
    refine ⟨v m, by rw [upd_self]; exact h, ?_, by rw [upd_self]; exact .refl _ _ _, ⟨rfl, rfl, rfl⟩, rfl, hiff,
      fun hne => ?_, rfl, nofun, fun _ _ => Or.inr rfl, fun _ _ _ => rfl⟩
    · rw [← hcopy]; exact (upd_self _ _).symm
    · have := haddrs hne
      rwa [hcopy] at this
  · have hf := hw.fields
    obtain rfl := hw.whole
    have hone : w = 0 ∨ w = 16 := hw.block (by simp only [BSIZE]; omega)
    have hr16 : (w : Int) = 16 ↔ w = 16 := by omega
    have hsize : d.size = max (v m).size (16 * k + w) := by rw [hf]
    refine ⟨d, hw.core (Or.inl rfl), hw.itable, hw.others, hw.ext.tables, by rw [hf], hiff, fun hne => ?_, ?_,
      fun h16 => ?_, fun j hj => ?_, fun hne o ho => hw.bytes o ho (by omega)⟩
    · have := haddrs hne
      rwa [hw.itable, upd_same] at this
    · rw [hsize]
      split <;> omega
    · rw [hr16] at h16
      refine slot_bytes fun o ho' => ?_
      rw [hw.wrote o (by omega)]
      rfl
    · by_cases hjk : (w : Int) = 16 ∧ j = k
      · exact Or.inl hjk
      · refine Or.inr (slot_congr fun o ho' => hw.bytes (16 * j + o) (by omega) ?_)
        rcases hone with h0 | h0
        · omega
        · have : j ≠ k := fun e => hjk ⟨by omega, e⟩
          omega

/-! ## The entry to write -/

/-- The `k`-th entry is the first free one, or the one behind the last. -/
structure NewSlot (d : Dinode) (c : Disk) (k : Nat) : Prop where
  le : 16 * k ≤ d.size
  free : k < d.size / 16 → slot d c k = none
  iff : (freeSlot d c).isSome ↔ k < d.size / 16

theorem emptyEntryLoop_spec {last : Nat} : ∀ (ks : List Nat) {s : St}, (∀ k ∈ ks, 16 * k + 16 ≤ (v m).size) →
    Core sb v 0 s → Opened s i m → wp (emptyEntry sb i last (ks.map (16 * ·)))
      (fun off s' => Reads s s' ∧ off = ((ks.find? fun k => (slot (v m) s.cache k).isNone).map (16 * ·)).getD last)
      (fun _ _ => False) s
  | [], s, _, _, _ => by
    simp only [List.map_nil, emptyEntry, wp_pure]
    exact ⟨.refl s, rfl⟩
  | k :: ks, s, hks, h, hi => by
    simp only [List.map_cons, emptyEntry, wp_bind]
    refine (readi_slot h hi k).imp fun r s1 hr => ?_
    obtain ⟨hread, h16, hde⟩ := hr
    have h16 := h16.mpr (hks k List.mem_cons_self)
    obtain ⟨-, hslot⟩ := hde h16
    rw [if_neg (not_not.mpr h16)]
    refine wp_ite (fun h0 => ?_) fun h0 => ?_
    · rw [if_pos h0] at hslot
      rw [wp_pure, List.find?_cons, hslot]
      exact ⟨hread, rfl⟩
    · rw [if_neg h0] at hslot
      rw [List.find?_cons, hslot]
      refine (emptyEntryLoop_spec ks (fun x hx => hks x (List.mem_cons_of_mem _ hx)) (hread.core h)
        (hread.opened hi)).imp fun off s' ho => ⟨hread.trans ho.1, ?_⟩
      rw [ho.2, hread.cache]
      rfl

theorem emptyEntry_spec (h : Core sb v 0 s) (hi : Opened s i m) (hw : (v m).size % 16 = 0) :
    wp (emptyEntry sb i (16 * (((v m).size + 15) / 16)) (entryOffs (v m).size))
      (fun off s' => Reads s s' ∧ ∃ k, off = 16 * k ∧ NewSlot (v m) s.cache k) (fun _ _ => False) s := by
  rw [entryOffs, show ((v m).size + 15) / 16 = (v m).size / 16 by omega]
  refine (emptyEntryLoop_spec _ (fun k hk => by have := List.mem_range.mp hk; omega) h hi).imp
    fun off s' ho => ⟨ho.1, ?_⟩
  have hoff := ho.2
  cases hfs : freeSlot (v m) s.cache with
  | none =>
    have hfs' := hfs
    rw [freeSlot] at hfs'
    rw [hfs'] at hoff
    exact ⟨(v m).size / 16, hoff, by omega, fun hlt => absurd hlt (Nat.lt_irrefl _), by simp [hfs]⟩
  | some k =>
    have hfs' := hfs
    rw [freeSlot] at hfs'
    have hlt := List.mem_range.mp (List.mem_of_find?_eq_some hfs')
    have hs := List.find?_some hfs'
    rw [hfs'] at hoff
    exact ⟨k, hoff, by omega, fun _ => by simpa using hs, by simpa [hfs] using hlt⟩

/-- The blocks for the entry, as the directory shows them. `f` is how many of the needed blocks are asked for. -/
theorem NewSlot.room (sb : Superblock) {f : Nat → Nat} (h : NewSlot d c k) (hf : f 0 = 0) (hw : d.size % 16 = 0)
    (hm : Mapped d c d.size)
    (hmax : d.size ≤ MAXFILE * BSIZE) :
      (16 * k + 16 ≤ MAXFILE * BSIZE ∧ HasFree sb c (f (needed d c (16 * k / BSIZE)))) ↔
      (freeSlot d c).isSome ∨ d.size + 16 ≤ MAXFILE * BSIZE ∧ HasFree sb c (f (needed d c (d.size / BSIZE))) := by
  have hle := h.le
  rw [h.iff]
  by_cases hlt : k < d.size / 16
  · have hne : blockAt d c (16 * k / BSIZE) ≠ 0 := hm _ (by simp only [BSIZE]; omega)
    rw [needed, if_pos hne, hf]
    exact ⟨fun _ => Or.inl hlt, fun _ => ⟨by omega, hasFree_zero⟩⟩
  · have e : 16 * k = d.size := by omega
    rw [e]
    simp [hlt]

end Xv6.Fs
