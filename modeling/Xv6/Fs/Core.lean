/-
  Xv6.Fs.Core — what holds between any two steps of the code of kernel/fs.c.

  `Core sb v x s`, for the inodes `v` the kernel sees: blocks have one owner each
  (`FsOk`); the inode blocks hold `v`, inode `x` excepted, whose in-memory copy is ahead
  of the disk (`x = 0` for none); every referenced table entry names an inode, no two the
  same, and an entry that is valid holds that inode, which is allocated; and a buffer that
  differs from the disk is logged or is a block of no directory and no indirect block
  (`Clean`), so that losing it loses file data only.
-/
import Xv6.Fs.Alloc

namespace Xv6.Fs

variable {sb : Superblock} {v v' : Nat → Dinode} {x m i : Nat} {s s1 s' : St} {c c' : Disk} {d : Dinode}

/-- A block that is no directory's data and no indirect block. -/
def Plain (sb : Superblock) (v : Nat → Dinode) (c : Disk) (b : Nat) : Prop :=
  sb.nmeta ≤ b ∧ ∀ a, own sb v c a = b → (v a.1).type ≠ T_DIR ∧ a.2 ≠ .addr NDIRECT

def Clean (sb : Superblock) (v : Nat → Dinode) (s : St) : Prop :=
  ∀ b, s.cache b = s.disk b ∨ b ∈ s.lh ∨ Plain sb v s.cache b

theorem Clean.step (h : Clean sb v s) (hd : s'.disk = s.disk) (hl : s.lh ⊆ s'.lh)
    (hc : ∀ y, s'.cache y = s.cache y ∨ y ∈ s'.lh ∨ Plain sb v' s'.cache y)
    (ho : ∀ a, own sb v' s'.cache a ≠ 0 → own sb v' s'.cache a = own sb v s.cache a ∨ own sb v' s'.cache a ∈ s'.lh)
    (ht : ∀ m, Live sb v m → (v' m).type = T_DIR → (v m).type = T_DIR) : Clean sb v' s' := fun b => by
  rcases hc b with hb | hb | hb
  · rcases h b with h1 | h1 | ⟨hlow, h1⟩
    · exact Or.inl (by rw [hb, hd, h1])
    · exact Or.inr (Or.inl (hl h1))
    · by_cases hmem : b ∈ s'.lh
      · exact Or.inr (Or.inl hmem)
      · refine Or.inr (Or.inr ⟨hlow, fun a ha => ?_⟩)
        have hb0 : b ≠ 0 := by have := sb.nmeta_pos; omega
        have hown : own sb v s.cache a = b := by
          rcases ho a (by rw [ha]; exact hb0) with e | e
          · rw [← e, ha]
          · exact absurd (ha ▸ e) hmem
        have hlive : Live sb v a.1 := by
          by_contra hn
          exact hb0 (by rw [← hown, own, if_neg hn])
        obtain ⟨h2, h3⟩ := h1 a hown
        exact ⟨fun e => h2 (ht a.1 hlive e), h3⟩
  · exact Or.inr (Or.inl hb)
  · exact Or.inr (Or.inr hb)

/-- A table entry: it names an inode and, once valid, holds it. -/
def EntryOk (sb : Superblock) (v : Nat → Dinode) (ip : Inode) : Prop :=
  0 < ip.ref → ip.dev = ROOTDEV ∧ sb.IsInum ip.inum ∧ (ip.valid = true → ip.copy = v ip.inum ∧ (v ip.inum).type ≠ 0)

structure Core (sb : Superblock) (v : Nat → Dinode) (x : Nat) (s : St) : Prop where
  fs : FsOk sb v s.cache
  agree : ∀ m, sb.IsInum m → m ≠ x → sb.ino s.cache m = v m
  table : ∀ i, i < NINODE → EntryOk sb v (s.itable i)
  unique : ∀ i j, i < NINODE → j < NINODE → 0 < (s.itable i).ref → 0 < (s.itable j).ref →
    (s.itable i).inum = (s.itable j).inum → i = j
  clean : Clean sb v s

/-- The state as if every buffer had been written: `Core` of it is `Core` without `Clean`. -/
def St.synced (s : St) : St := { s with disk := s.cache }

structure Opened (s : St) (i m : Nat) : Prop where
  lt : i < NINODE
  ref : 0 < (s.itable i).ref
  valid : (s.itable i).valid = true
  inum : (s.itable i).inum = m

theorem Opened.of_eq (h : Opened s i m) (he : s'.itable i = s.itable i) : Opened s' i m :=
  ⟨h.lt, he ▸ h.ref, he ▸ h.valid, he ▸ h.inum⟩

namespace Core

theorem copy_eq (h : Core sb v x s) (ho : Opened s i m) : (s.itable i).copy = v m := by
  rw [← ho.inum]
  exact ((h.table i ho.lt ho.ref).2.2 ho.valid).1

theorem live (h : Core sb v x s) (ho : Opened s i m) : Live sb v m := by
  obtain ⟨_, h1, h2⟩ := h.table i ho.lt ho.ref
  rw [ho.inum] at h1 h2
  exact ⟨h1, (h2 ho.valid).2⟩

/-- The copy of `m` is ahead of the disk. -/
theorem ahead (h : Core sb v 0 s) (m : Nat) : Core sb v m s :=
  ⟨h.fs, fun m' hm' _ => h.agree m' hm' (by have := hm'.1; omega), h.table, h.unique, h.clean⟩

/-- Every buffer is on the disk. -/
theorem synced (h : Core sb v x s) : Core sb v x s.synced :=
  ⟨h.fs, h.agree, h.table, h.unique, fun _ => Or.inl rfl⟩

end Core

theorem ino_congr (hm : sb.IsInum m) (hc : ∀ y, y < sb.bmapstart → c' y = c y) : sb.ino c' m = sb.ino c m := by
  rw [Superblock.ino, Superblock.ino, hc _ (sb.iblock_lt hm.2)]

/-- Entry `i`'s copy is replaced, and with it the inode it holds. -/
theorem table_setCopy (h : Core sb v x s) (ho : Opened s i m) (hd : d.type ≠ 0) :
    ∀ j, j < NINODE → EntryOk sb (upd v m d) (upd s.itable i { s.itable i with copy := d } j) := fun j hj => by
  by_cases e : j = i
  · rw [e, upd_same]
    intro hr
    obtain ⟨h1, h2, -⟩ := h.table i ho.lt hr
    refine ⟨h1, h2, fun _ => ?_⟩
    simp only [ho.inum, upd_same]
    exact ⟨trivial, hd⟩
  · rw [upd_ne e]
    intro hr
    obtain ⟨h1, h2, h3⟩ := h.table j hj hr
    have hne : (s.itable j).inum ≠ m := fun en => e (h.unique j i hj ho.lt hr ho.ref (by rw [en, ho.inum]))
    rw [upd_ne hne]
    exact ⟨h1, h2, h3⟩

theorem unique_setCopy (h : Core sb v x s) :
    ∀ a b, a < NINODE → b < NINODE → 0 < (upd s.itable i { s.itable i with copy := d } a).ref →
      0 < (upd s.itable i { s.itable i with copy := d } b).ref →
      (upd s.itable i { s.itable i with copy := d } a).inum = (upd s.itable i { s.itable i with copy := d } b).inum
        → a = b := by
  have hr : ∀ a, (upd s.itable i { s.itable i with copy := d } a).ref = (s.itable a).ref := fun a => by
    by_cases e : a = i <;> simp [e]
  have hn : ∀ a, (upd s.itable i { s.itable i with copy := d } a).inum = (s.itable a).inum := fun a => by
    by_cases e : a = i <;> simp [e]
  intro a b ha hb h1 h2 h3
  rw [hr] at h1 h2
  rw [hn, hn] at h3
  exact h.unique a b ha hb h1 h2 h3

/-! ## Inode blocks -/

theorem ino_put (hd : d.Wf) (m m' : Nat) :
    sb.ino (upd c (sb.iblock m) (putDinode (c (sb.iblock m)) (m % IPB) d)) m' = if m' = m then d else sb.ino c m' := by
  by_cases e : m' = m
  · rw [if_pos e, e, Superblock.ino, upd_same, getDinode_put_same _ _ hd]
  · rw [if_neg e, Superblock.ino, Superblock.ino]
    by_cases eb : sb.iblock m' = sb.iblock m
    · have : m' % IPB ≠ m % IPB := fun er => e (by
        simp only [Superblock.iblock] at eb
        rw [← Nat.div_add_mod m' IPB, ← Nat.div_add_mod m IPB, er, show m' / IPB = m / IPB by omega])
      rw [eb, upd_same, getDinode_put_apart this]
    · rw [upd_ne eb]

theorem upd_iblock {d : Block} (hm : sb.IsInum m) {y : Nat} (hy : sb.nmeta ≤ y) : upd c (sb.iblock m) d y = c y := by
  have := sb.iblock_lt hm.2
  have := sb.bmap_lt_nmeta
  exact upd_ne (by omega) d

/-- Only blocks below the data area change, and not the free map. -/
theorem FsOk.low (h : FsOk sb v c) (hb : ∀ b, b < sb.size → sb.bit c' b = sb.bit c b)
    (hc : ∀ y, sb.nmeta ≤ y → c' y = c y) : FsOk sb v c' :=
  h.frame hb fun _ hm h0 => hc _ (h.ptr_range hm (p := .addr NDIRECT) h0).1

theorem ptr_low (h : FsOk sb v c) (hm : Live sb v m) (hc : ∀ y, sb.nmeta ≤ y → c' y = c y) (p : Pos) :
    ptr (v m) c' p = ptr (v m) c p :=
  ptr_congr rfl (fun h0 => hc _ (h.ptr_range hm (p := .addr NDIRECT) h0).1) p

theorem own_low (h : FsOk sb v c) (hc : ∀ y, sb.nmeta ≤ y → c' y = c y) (a : Nat × Pos) :
    own sb v c' a = own sb v c a := by
  obtain ⟨m, p⟩ := a
  by_cases hm : Live sb v m
  · rw [own_live hm, own_live hm, ptr_low h hm hc]
  · rw [own_dead hm, own_dead hm]

theorem SameData.low (h : FsOk sb v c) (hm : Live sb v m) (hc : ∀ y, sb.nmeta ≤ y → c' y = c y) :
    SameData (v m) c (v m) c' :=
  fun _ hk => ⟨ptr_low h hm hc _, hc _ (h.ptr_range hm hk).1⟩

theorem Others.low (h : FsOk sb v c) (hc : ∀ y, sb.nmeta ≤ y → c' y = c y) : Others sb m v c v c' :=
  fun _ _ => ⟨rfl, fun hm => .low h hm hc⟩

theorem updated_bit (hm : sb.IsInum (s.itable i).inum) {b : Nat} (hb : b < sb.size) :
    sb.bit (s.updated sb i).cache b = sb.bit s.cache b := by
  rw [St.updated_cache]
  exact bit_upd (sb.not_bitmap_low (sb.iblock_lt hm.2)) _ hb

/-- `iupdate` brings the disk up to date. -/
theorem Core.updated (h : Core sb v m s) (hi : Opened s i m) : Core sb v 0 (s.updated sb i) := by
  have hm := h.live hi
  have hdata : ∀ y, sb.nmeta ≤ y → (s.updated sb i).cache y = s.cache y := fun y hy => by
    rw [St.updated_cache, hi.inum]; exact upd_iblock hm.1 hy
  refine ⟨h.fs.low (fun b hb => updated_bit (by rw [hi.inum]; exact hm.1) hb) hdata, fun m' h1 _ => ?_, h.table,
    h.unique, ?_⟩
  · have hc := h.copy_eq hi
    rw [St.updated_cache, hi.inum, ino_put (by rw [hc]; exact h.fs.wf m hm.1), hc]
    split
    · rename_i e; rw [e]
    · rename_i e; exact h.agree m' h1 e
  · refine h.clean.step rfl (fun y hy => ?_) (fun y => ?_) (fun a _ => Or.inl (own_low h.fs hdata a)) fun _ _ => id
    · simp only [St.updated, St.write_lh]; exact mem_absorb.mpr (Or.inl hy)
    · by_cases e : y = sb.iblock (s.itable i).inum
      · refine Or.inr (Or.inl ?_)
        simp only [St.updated, St.write_lh]; exact mem_absorb.mpr (Or.inr e)
      · rw [St.updated_cache]
        exact Or.inl (upd_ne e _)

/-- The code changes fields of an entry's copy. -/
theorem Core.setCopy (h : Core sb v m s) (hi : Opened s i m) (hd : d.type = (v m).type)
    (ha : d.addrs = (v m).addrs) (hw : d.Wf) (hs : d.size ≤ MAXFILE * BSIZE)
    (hf : ∀ k, k * BSIZE < d.size → blockAt (v m) s.cache k ≠ 0) :
    Core sb (upd v m d) m (s.node i { s.itable i with copy := d }) := by
  have hm := h.live hi
  have ht : d.type ≠ 0 := by rw [hd]; exact hm.2
  refine ⟨h.fs.set hm ht ha hw hs hf, fun m' h1 h2 => ?_, table_setCopy h hi ht, unique_setCopy h, ?_⟩
  · rw [upd_ne h2]; exact h.agree m' h1 h2
  · refine h.clean.step rfl (fun _ => id) (fun _ => Or.inl rfl) (fun a _ => Or.inl ?_) fun m' hm' => ?_
    · obtain ⟨m', p⟩ := a
      have hl := live_upd (d := d) hm ht m'
      by_cases hm' : Live sb v m'
      · rw [own_live hm', own_live (hl.mpr hm')]
        by_cases e : m' = m
        · rw [e, upd_same]; exact ptr_congr ha (fun _ => rfl) p
        · rw [upd_ne e]; rfl
      · rw [own_dead hm', own_dead (mt hl.mp hm')]
    · by_cases e : m' = m
      · rw [e, upd_same, hd]; exact id
      · rw [upd_ne e]; exact id

theorem Opened.setCopy (hi : Opened s i m) (d : Dinode) : Opened (s.node i { s.itable i with copy := d }) i m :=
  ⟨hi.lt, by rw [St.node_itable, upd_same]; exact hi.ref, by rw [St.node_itable, upd_same]; exact hi.valid,
    by rw [St.node_itable, upd_same]; exact hi.inum⟩

/-! ## Reading -/

structure Reads (s s' : St) : Prop where
  eq : s' = { s with trace := s'.trace }

namespace Reads

theorem refl (s : St) : Reads s s := ⟨rfl⟩

theorem trans (h : Reads s s1) (h' : Reads s1 s') : Reads s s' := ⟨by rw [h'.eq, h.eq]⟩

theorem block (s : St) (b : Nat) : Reads s ((s.ev (.bread b)).ev (.brelse b)) := ⟨rfl⟩

theorem cache (h : Reads s s') : s'.cache = s.cache := by rw [h.eq]

theorem itable (h : Reads s s') : s'.itable = s.itable := by rw [h.eq]

theorem outstanding (h : Reads s s') : s'.outstanding = s.outstanding := by rw [h.eq]

theorem ext {L : List Nat} (h : Reads s s') : Ext sb L s s' :=
  .of_eq (by rw [h.eq]) (by rw [h.eq]) (by rw [h.eq]) (by rw [h.eq]) (by rw [h.eq])

theorem core (h : Reads s s') (hc : Core sb v x s) : Core sb v x s' := by
  rw [h.eq]
  exact ⟨hc.fs, hc.agree, hc.table, hc.unique, hc.clean⟩

theorem opened (h : Reads s s') (ho : Opened s i m) : Opened s' i m := by
  rw [h.eq]
  exact ⟨ho.lt, ho.ref, ho.valid, ho.inum⟩

end Reads

end Xv6.Fs
