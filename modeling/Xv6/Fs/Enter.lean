/-
  Xv6.Fs.Enter — changes to inodes and directories over the inode table.

  A locked entry's copy is changed and written to its inode block (`iupdate_held`), a directory
  entry is written (`writeEntry_spec`), `dirlink` (`dirlink_spec`: where it fails the directory
  holds what it held, and `Touches` says whether its blocks are what they were) and `ialloc`
  (`ialloc_spec`).
-/
import Xv6.Fs.Walk

namespace Xv6.Fs

variable {sb : Superblock} {v v1 v' : Nat → Dinode} {K : Nat → Prop} {d d' : Dinode} {c c' : Disk}
variable {H : Nat → Nat} {own locks : List Nat} {i j k m n x : Nat} {s s1 s' : St} {name : Name}

/-- The file has the fields it had, its link count excepted, and its bytes. -/
structure SameBody (d : Dinode) (c : Disk) (d' : Dinode) (c' : Disk) : Prop where
  type : d'.type = d.type
  major : d'.major = d.major
  minor : d'.minor = d.minor
  size : d'.size = d.size
  bytes : ∀ o, o < d.size → byteAt d' c' o = byteAt d c o

structure SameFile (d : Dinode) (c : Disk) (d' : Dinode) (c' : Disk) : Prop extends SameBody d c d' c' where
  nlink : d'.nlink = d.nlink

theorem SameBody.trans {d1 : Dinode} {c1 : Disk} (h : SameBody d c d1 c1) (h' : SameBody d1 c1 d' c') :
    SameBody d c d' c' :=
  ⟨h'.type.trans h.type, h'.major.trans h.major, h'.minor.trans h.minor, h'.size.trans h.size,
    fun o ho => (h'.bytes o (by rw [h.size]; exact ho)).trans (h.bytes o ho)⟩

theorem SameData.bytes (h : SameData d c d' c') (hm : Mapped d c d.size) (o : Nat) (ho : o < d.size) :
    Fs.byteAt d' c' o = Fs.byteAt d c o :=
  h.byteAt (hm _ (by simp only [BSIZE]; omega))

namespace SameFile

theorem refl (d : Dinode) (c : Disk) : SameFile d c d c := ⟨⟨rfl, rfl, rfl, rfl, fun _ _ => rfl⟩, rfl⟩

theorem trans {d1 : Dinode} {c1 : Disk} (h : SameFile d c d1 c1) (h' : SameFile d1 c1 d' c') : SameFile d c d' c' :=
  ⟨h.toSameBody.trans h'.toSameBody, h'.nlink.trans h.nlink⟩

theorem of_data (hm : Mapped d c d.size) (h : SameData d c d c') : SameFile d c d c' :=
  ⟨⟨rfl, rfl, rfl, rfl, h.bytes hm⟩, rfl⟩

end SameFile

/-! ## One inode changes -/

theorem Held.copied (h : Held sb v H own locks s) (hi : Opened s i m) (hc : Core sb (upd v m d) 0 s')
    (hd : DirsOk sb (upd v m d) s'.cache) (ht : s'.itable = upd s.itable i { s.itable i with copy := d })
    (hty : d.type = (v m).type) : Held sb (upd v m d) H own locks s' := by
  have he := copied_entry ht
  have hm := h.core.live hi
  refine ⟨hc, hd, fun j hj => ?_, fun j hj hH => ?_, fun j hj => ?_⟩
  · rw [he j]; exact h.refs j hj
  · rw [he j]
    exact (live_upd hm (by rw [hty]; exact hm.2) _).mpr (h.live j hj hH)
  · rw [he j]; exact h.lock j hj

theorem Moved.copied (ht : s'.itable = upd s.itable i { s.itable i with copy := d })
    (ho : Others sb m v s.cache (upd v m d) s'.cache)
    (he : s'.outstanding = s.outstanding ∧ s'.ftable = s.ftable ∧ s'.proc = s.proc) :
      Moved sb K [m] v s (upd v m d) s' := by
  refine .of_others ho he fun j _ _ => ?_
  rw [copied_entry ht j]
  exact ⟨rfl, id⟩

/-- The names of the new state: those of the old one, and `n`. -/
theorem Named.others (h : Named sb v' c' x) (hf : FsOk sb v c) (ho : Others sb m v c v' c')
    (hm : Live sb v' m → ∀ off, HasEntry (v' m) off →
      direntAt (v' m) c' off = n ∨ Live sb v m ∧ HasEntry (v m) off ∧ direntAt (v' m) c' off = direntAt (v m) c off) :
    Named sb v c x ∨ x = n := by
  rcases h with h | ⟨m', off, hl, he, hd⟩
  · exact Or.inl (Or.inl h)
  · by_cases e : m' = m
    · subst e
      rcases hm hl off he with h1 | ⟨h1, h2, h3⟩
      · exact Or.inr (hd.symm.trans h1)
      · exact Or.inl (Or.inr ⟨m', off, h1, h2, h3.symm.trans hd⟩)
    · obtain ⟨hv, hs⟩ := ho m' e
      have hl' : Live sb v m' := by simpa only [Live, hv] using hl
      rw [hv] at he
      refine Or.inl (Or.inr ⟨m', off, hl', he, ?_⟩)
      rw [← hd, direntAt_same (hf.full m' hl') (hs hl') he.le]

theorem Linked.others {K' : Nat → Prop} (h : Linked sb v K s) (hf : FsOk sb v s.cache)
    (ho : Others sb m v s.cache v' s'.cache)
    (hKK : ∀ i, K i → K' i) (hinum : ∀ i, i < NINODE → K i → (s'.itable i).inum = (s.itable i).inum)
    (hm : Live sb v' m → ∀ off, HasEntry (v' m) off → direntAt (v' m) s'.cache off = n ∨
      Live sb v m ∧ HasEntry (v m) off ∧ direntAt (v' m) s'.cache off = direntAt (v m) s.cache off)
    (hK : ∀ x, x = m ∨ x = n → Live sb v' x → ∃ i, i < NINODE ∧ K' i ∧ (s'.itable i).inum = x) : Linked sb v' K' s' :=
  fun x hl hn h0 => by
    by_cases hx : x = m ∨ x = n
    · exact hK x hx hl
    · rw [not_or] at hx
      have hv := (ho x hx.1).1
      rw [hv] at h0
      have hl' : Live sb v x := by simpa only [Live, hv] using hl
      obtain ⟨i, hi, hk, e⟩ := h x hl' ((hn.others hf ho hm).resolve_right hx.2) h0
      exact ⟨i, hi, hKK i hk, (hinum i hi hk).trans e⟩

/-! ## `iupdate` of a changed copy -/

/-- The copy of entry `i` is `d`, in memory and in its block; its data is what it was. -/
structure Updated (sb : Superblock) (v : Nat → Dinode) (H : Nat → Nat) (own locks : List Nat) (i m : Nat) (d : Dinode)
    (s s' : St) : Prop where
  held : Held sb (upd v m d) H own locks s'
  opened : Opened s' i m
  moved : Moved sb (Kept H own) [m] v s (upd v m d) s'
  /-- only inode blocks have changed -/
  upper : ∀ y, sb.bmapstart ≤ y → s'.cache y = s.cache y
  same : SameData (v m) s.cache d s'.cache
  linked : Linked sb v (Kept H own) s → Linked sb (upd v m d) (Kept H own) s'

theorem iupdate_held (h : Held sb v H own locks s) (hi : Opened s i m) (ho : s.outstanding = 1)
    (hty : d.type = (v m).type) (ha : d.addrs = (v m).addrs) (hs : d.size = (v m).size) (hw : d.Wf) :
    wp (iupdate sb i) (fun _ s' => Updated sb v H own locks i m d s s') Stops
      (s.node i { s.itable i with copy := d }) := by
  have hm := h.core.live hi
  have hc1 := (h.core.ahead m).setCopy hi hty ha hw (by rw [hs]; exact h.core.fs.size_le m hm) fun k hk =>
    h.core.fs.full m hm k (by rw [← hs]; exact hk)
  have hi1 := hi.setCopy d
  have e1 : Ext sb [sb.iblock m] s (s.node i { s.itable i with copy := d }) := .of_eq rfl rfl rfl rfl rfl
  generalize hs1 : s.node i { s.itable i with copy := d } = s1 at *
  have ht1 : s1.itable = upd s.itable i { s.itable i with copy := d } := by rw [← hs1]; rfl
  have hcache : s1.cache = s.cache := by rw [← hs1]; rfl
  refine (iupdate_spec i (e1.outstanding.trans ho)).mono (fun _ s' h' => ?_) fun _ _ _ => trivial
  obtain ⟨rfl, he⟩ := h'
  rw [hi1.inum] at he
  have hupper : ∀ y, sb.bmapstart ≤ y → (s1.updated sb i).cache y = s.cache y := fun y hy => by
    have := sb.iblock_lt hm.1.2
    rw [St.updated_cache, hi1.inum, upd_ne (by omega), hcache]
  have hdata : ∀ y, sb.nmeta ≤ y → (s1.updated sb i).cache y = s.cache y := fun y hy =>
    hupper y (by have := sb.bmap_lt_nmeta; omega)
  have hptr : ∀ p, ptr d (s1.updated sb i).cache p = ptr (v m) s.cache p := fun p =>
    (ptr_congr ha (fun _ => rfl) p).trans (ptr_low h.core.fs hm hdata p)
  have hsame : SameData (v m) s.cache d (s1.updated sb i).cache := sameData_of_ptr (fun p _ => hptr p) fun p _ hp =>
    hdata _ (h.core.fs.ptr_range hm hp).1
  have hothers : Others sb m v s.cache (upd v m d) (s1.updated sb i).cache := fun m' hne => by
    rw [upd_ne hne]
    exact ⟨rfl, fun hl => .low h.core.fs hl hdata⟩
  -- the entries of a directory are where they were
  have hentry : ∀ off, HasEntry d off → HasEntry (v m) off ∧
      direntAt d (s1.updated sb i).cache off = direntAt (v m) s.cache off := fun off he => by
    have he' : HasEntry (v m) off := ⟨hty ▸ he.dir, he.mod, hs ▸ he.le⟩
    exact ⟨he', direntAt_same (h.core.fs.full m hm) hsame he'.le⟩
  have hcore := hc1.updated hi1
  have hdirs : DirsOk sb (upd v m d) (s1.updated sb i).cache := by
    refine h.dirs.others h.core.fs hothers fun _ off hoff => ?_
    rw [upd_same] at hoff ⊢
    obtain ⟨h1, h2⟩ := hentry off hoff
    rw [h2]
    exact h.dirs m hm off h1
  have hi' : Opened (s1.updated sb i) i m := hi.copied ht1
  have hheld := h.copied hi hcore hdirs ht1 hty
  have hmoved : Moved sb (Kept H own) [m] v s (upd v m d) (s1.updated sb i) := .copied ht1 hothers (e1.trans he).tables
  refine ⟨hheld, hi', hmoved, hupper, hsame, fun hl => hl.others (n := m) h.core.fs hothers (fun _ => id) hmoved.inum
    (fun _ off hoff => ?_) fun x hx _ => ?_⟩
  · rw [upd_same] at hoff ⊢
    exact Or.inr ⟨hm, hentry off hoff⟩
  · rw [or_self] at hx
    exact ⟨i, hi.lt, hheld.kept_of_ref hi.lt hi'.ref, hi'.inum.trans hx.symm⟩

/-! ## Writing an entry -/

/-- The entries of a directory after a write that was done or not done. -/
theorem SlotPut.entries {de : Nat → UInt8} {r : Int} (h : SlotPut sb v i m k de s r d s')
    (hk : 16 * k ≤ (v m).size) {o : Nat}
    (ho : HasEntry d o) : direntAt d s'.cache o = deInum de ∨ HasEntry (v m) o ∧ direntAt d s'.cache o = direntAt
      (v m) s.cache o := by
  obtain ⟨j, rfl⟩ : ∃ j, o = 16 * j := ⟨o / 16, by have := ho.mod; omega⟩
  have hle := ho.le
  have hsize := h.size
  have hhere : r = 16 → direntAt d s'.cache (16 * k) = deInum de := fun hr => by
    rw [direntAt_slot, h.here hr]
    split <;> simp [*]
  by_cases hj : j < (v m).size / 16
  · rcases h.rest j hj with ⟨hr, rfl⟩ | hs
    · exact Or.inl (hhere hr)
    · have hty : d.type = (v m).type := by rw [h.fields]
      refine Or.inr ⟨⟨hty ▸ ho.dir, by omega, by omega⟩, ?_⟩
      rw [direntAt_slot, hs, ← direntAt_slot]
  · split at hsize
    · have : j = k := by omega
      exact Or.inl (this ▸ hhere ‹_›)
    · omega

/-- An entry of a directory with inode number `x` is written. -/
theorem writeEntry_spec (h : Held sb v H own locks s) (hi : Opened s i m) (ho : s.outstanding = 1)
    (hk : 16 * k ≤ (v m).size) {de : Nat → UInt8} (hde : deInum de = x) (hx : sb.IsInum x) :
    wp (writei sb i (kernelSrc de) (16 * k) 16)
      (fun r s' => ∃ d, SlotPut sb v i m k de s r d s' ∧ Held sb (upd v m d) H own locks s' ∧
        Moved sb (Kept H own) [m] v s (upd v m d) s' ∧
        (Linked sb v (Kept H own) s → (∃ j, j < NINODE ∧ Kept H own j ∧ (s.itable j).inum = x) →
          Linked sb (upd v m d) (Kept H own) s')) Stops s := by
  have hm := h.core.live hi
  refine (writeSlot_spec h.core hi ho hk).mono (fun r s' hr => ?_) fun _ _ _ => trivial
  obtain ⟨d, hp⟩ := hr
  have hty : d.type = (v m).type := by rw [hp.fields]
  have hdirs : DirsOk sb (upd v m d) s'.cache := by
    refine h.dirs.others h.core.fs hp.others fun _ o hoff => ?_
    rw [upd_same] at hoff ⊢
    rcases hp.entries hk hoff with h1 | ⟨h1, h2⟩
    · rw [h1, hde]; exact Or.inr hx
    · rw [h2]; exact h.dirs m hm o h1
  have hheld := h.copied hi hp.core hdirs hp.itable hty
  have hmoved : Moved sb (Kept H own) [m] v s (upd v m d) s' := .copied hp.itable hp.others hp.tables
  have hi' := hi.copied hp.itable
  refine ⟨d, hp, hheld, hmoved, fun hl hkx => hl.others (n := x) h.core.fs hp.others (fun _ => id) hmoved.inum
    (fun _ o hoff => ?_) fun y hy _ => ?_⟩
  · rw [upd_same] at hoff ⊢
    rw [← hde]
    exact (hp.entries hk hoff).imp_right fun h1 => ⟨hm, h1⟩
  · rcases hy with rfl | rfl
    · exact ⟨i, hi.lt, hheld.kept_of_ref hi.lt hi'.ref, hi'.inum⟩
    · obtain ⟨j, hj, hkj, hin⟩ := hkx
      exact ⟨j, hj, hkj, (hmoved.inum j hj hkj).trans hin⟩

/-! ## `dirlink` -/

/-- A new entry changes the directory: there is a free one, or room behind the last and a block
    to be had of those it needs. -/
def Touches (sb : Superblock) (d : Dinode) (c : Disk) : Prop :=
  (freeSlot d c).isSome ∨ d.size + 16 ≤ MAXFILE * BSIZE ∧ HasFree sb c (min 1 (needed d c (d.size / BSIZE)))

theorem SlotPut.touches {de : Nat → UInt8} {r : Int} (h : SlotPut sb v i m k de s r d s') (hn : NewSlot (v m) s.cache k)
    (hw : (v m).size % 16 = 0) (hm : Mapped (v m) s.cache (v m).size) (hmax : (v m).size ≤ MAXFILE * BSIZE) :
    (r = 16 → Touches sb (v m) s.cache) ∧ (r ≠ 16 → (d.addrs = (v m).addrs ↔ ¬ Touches sb (v m) s.cache)) := by
  have hroom := hn.room sb (f := min 1) rfl hw hm hmax
  rw [Touches, ← hroom]
  refine ⟨fun hr => (h.iff.mp hr).imp_right fun hf => hf.le (Nat.min_le_right _ _), fun hr => (h.addrs hr).trans
    (not_congr (and_congr_right fun hfit => ?_))⟩
  have hne : needed (v m) s.cache (16 * k / BSIZE) ≠ 0 := fun h0 =>
    hr (h.iff.mpr ⟨hfit, by rw [h0]; exact hasFree_zero⟩)
  rw [Nat.min_eq_left (Nat.one_le_iff_ne_zero.mpr hne)]

/-- What `dirlink` into the directory `m` of entry `i` does. -/
structure Entered (sb : Superblock) (v : Nat → Dinode) (H : Nat → Nat) (own locks : List Nat) (i m : Nat)
    (name : Name) (s : St) (r : Int) (v' : Nat → Dinode) (s' : St) : Prop where
  held : Held sb v' H own locks s'
  opened : Opened s' i m
  dir : (v m).type = T_DIR
  moved : Moved sb (Kept H own) [m] v s v' s'
  fields : v' m = { v m with addrs := (v' m).addrs, size := (v' m).size }
  linked : Linked sb v' (Kept H own) s'
  failed : r < 0 → SameFile (v m) s.cache (v' m) s'.cache
  touched : dirMap (v m) s.cache name.key = none → (¬ r < 0 → Touches sb (v m) s.cache) ∧
    (r < 0 → ((v' m).addrs = (v m).addrs ↔ ¬ Touches sb (v m) s.cache))

theorem deInum_dirent (h : sb.IsInum n) : deInum (dirent n name) = n := by
  have := sb.ninodes_le
  have := h.2
  rw [deInum, dirent, le16_put_same, Nat.mod_eq_of_lt (by omega)]

theorem dirlink_spec (h : Held sb v H own locks s) (hi : Opened s i m) (ho : s.outstanding = 1)
    (hlk : Linked sb v (Kept H own) s) (hj : j < NINODE) (hkj : Kept H own j) (hn : (s.itable j).inum = n) :
    wp (dirlink sb i name n) (fun r s' => ∃ v', Entered sb v H own locks i m name s r v' s') Stops s := by
  have hin : sb.IsInum n := hn ▸ (h.core.table j hj (h.ref_pos hj hkj)).2.1
  have hki : Kept H own i := h.kept_of_ref hi.lt hi.ref
  have hm := h.core.live hi
  have hfull := h.core.fs.full m hm
  simp only [dirlink, wp_bind]
  refine (dirlookup_spec h hi).imp fun r s1 h₁ => ?_
  obtain ⟨hdir, h₁⟩ := h₁
  rcases r with - | ⟨ip, off⟩
  swap
  · -- the name is there
    simp only [wp_bind, wp_pure]
    have hst := h₁.got.still
    have hsafe := (hlk.still hst).not_last h₁.got.held (by simp) h₁.got.lt (by simp) (h₁.named hm)
    refine (iput_still h₁.got.held h₁.got.lt hsafe).imp fun _ s' h' => ⟨v, ?_⟩
    have hst' := hst.trans h'.2
    refine ⟨h'.1, hi.kept hst'.toKeeps hki (h'.1.ref_pos hi.lt hki), hdir, hst'.moved, rfl, hlk.still hst', fun _ => ?_,
      fun hno => ?_⟩
    · rw [hst'.cache]
      exact .refl _ _
    · rw [h₁.map] at hno
      cases hno
  · obtain ⟨hread, hw, -⟩ := h₁
    have hi1 := hread.opened hi
    have hc1 := hread.core h.core
    simp only [wp_bind, wp_get, hc1.copy_eq hi1]
    refine (emptyEntry_spec hc1 hi1 hw).mono (fun off s2 h₂ => ?_) fun _ _ => False.elim
    obtain ⟨hr2, k, rfl, hnew⟩ := h₂
    rw [hread.cache] at hnew
    have hread2 := hread.trans hr2
    have hst : Still (Kept H own) s s2 := .of_reads hread2
    refine (writeEntry_spec (h.reads hread2) (hread2.opened hi) (hst.outstanding.trans ho) hnew.le
      (deInum_dirent hin) hin).imp fun r s' => ?_
    rintro ⟨d, hp, hheld, hmv, hlinked⟩
    have htouch := hp.touches (by rw [hread2.cache]; exact hnew) hw (by rw [hread2.cache]; exact hfull)
      (h.core.fs.size_le m hm)
    rw [hread2.cache] at htouch
    have hput : ∀ x : Int, (x < 0 ↔ r ≠ 16) → ∃ v', Entered sb v H own locks i m name s x v' s' := fun x hx => by
      refine ⟨upd v m d, hheld, (hread2.opened hi).copied hp.itable, hdir, hst.moved.trans hmv, ?_, ?_, fun hlt => ?_,
        fun _ => ?_⟩
      · rw [upd_same]; exact hp.fields
      · exact hlinked (hlk.still hst) ⟨j, hj, hkj, by rw [hread2.itable]; exact hn⟩
      · have hbytes := hp.bytes (hx.mp hlt)
        rw [hread2.cache] at hbytes
        have hsize := hp.size
        rw [if_neg (hx.mp hlt)] at hsize
        rw [upd_same]
        exact ⟨⟨by rw [hp.fields], by rw [hp.fields], by rw [hp.fields], hsize, hbytes⟩, by rw [hp.fields]⟩
      · rw [upd_same, hx, not_not]
        exact htouch
    refine wp_ite (fun hr => hput _ (iff_of_true (by decide) hr)) fun hr => hput _ (iff_of_false (by decide) hr)

/-! ## `ialloc` -/

structure Alloced (sb : Superblock) (v : Nat → Dinode) (H : Nat → Nat) (own locks : List Nat) (type : Int)
    (n : Nat) (s : St) (j : Nat) (s' : St) : Prop where
  lt : j < NINODE
  inum : (s'.itable j).inum = n
  was : sb.IsInum n ∧ (v n).type = 0
  held : Held sb (upd v n { Dinode.zero with type := type }) H (j :: own) locks s'
  moved : Moved sb (Kept H own) [n] v s (upd v n { Dinode.zero with type := type }) s'
  upper : ∀ y, sb.bmapstart ≤ y → s'.cache y = s.cache y
  linked : Linked sb v (Kept H own) s → Linked sb (upd v n { Dinode.zero with type := type }) (Kept H (j :: own)) s'

/-- The new inode in its block, before an entry refers to it. -/
theorem Held.alloc {d : Dinode} (h : Held sb v H own locks s) (hn : sb.IsInum n) (h0 : (v n).type = 0) (hw : d.Wf)
    (ha : ∀ j, d.addrs j = 0) (hs : d.size = 0) (hown : ∀ j ∈ own, j < NINODE → Live sb v (s.itable j).inum)
    (hr : Retyped sb n d s s') (ht : s'.itable = s.itable)
    (he : s'.outstanding = s.outstanding ∧ s'.ftable = s.ftable ∧ s'.proc = s.proc) :
    Held sb (upd v n d) H own locks s' ∧ Moved sb (Kept H own) [n] v s (upd v n d) s' := by
  have hdead : ¬ Live sb v n := fun hl => hl.2 h0
  have hothers := hr.others h.core hn
  -- nobody refers to a free inode
  have hkept : ∀ j, j < NINODE → Kept H own j → (s.itable j).inum ≠ n := fun j hj hk e => by
    rcases hk with hk | hk
    · exact hdead (e ▸ h.live j hj hk)
    · exact hdead (e ▸ hown j hk hj)
  have hnone : ∀ off, ¬ HasEntry (upd v n d n) off := fun off he => by
    have := he.le
    rw [upd_same, hs] at this
    omega
  have hcore : Core sb (upd v n d) 0 s' := by
    refine hr.core h.core hn hw ha hs (fun hl => absurd hl hdead) fun j hj hrj => ?_
    rw [ht] at hrj ⊢
    exact ⟨rfl, fun e => absurd e (hkept j hj (h.kept_of_ref hj hrj))⟩
  have hmoved : Moved sb (Kept H own) [n] v s (upd v n d) s' := .of_others hothers he fun j _ _ => by
    rw [ht]; exact ⟨rfl, id⟩
  refine ⟨⟨hcore, h.dirs.others h.core.fs hothers fun _ off he => absurd he (hnone off), by rw [ht]; exact h.refs,
    fun j hj hH => ?_, by rw [ht]; exact h.lock⟩, hmoved⟩
  have := h.live j hj hH
  rw [ht]
  simpa only [Live, upd_ne (hkept j hj (Or.inl hH))] using this

theorem iallocLoop_spec {type : Int} (hshort : IsShort type) (inums : List Nat) :
    ∀ {s : St}, (∀ n ∈ inums, sb.IsInum n) → Held sb v H own locks s → s.outstanding = 1 →
    (∀ j ∈ own, j < NINODE → Live sb v (s.itable j).inum) →
    wp (iallocLoop sb ROOTDEV type inums)
      (fun r s' => match r with
        | none => Reads s s' ∧ ∀ n ∈ inums, (v n).type ≠ 0
        | some j => ∃ n, Alloced sb v H own locks type n s j s') Stops s := by
  induction inums with
  | nil =>
    intro s _ _ _ _
    simp only [iallocLoop, wp_pure]
    exact ⟨.refl s, by simp⟩
  | cons n inums ih =>
    intro s hin h ho hown
    have hn := hin n List.mem_cons_self
    have hag : getDinode (s.cache (sb.iblock n)) (n % IPB) = v n := h.agree hn
    rw [iallocLoop, wp_bind, wp_bread, hag]
    refine wp_ite (fun h0 => ?_) fun h0 => ?_
    · rw [wp_bind, wp_setData, wp_bind]
      refine wp_logged ho ?_ fun _ _ _ => trivial
      rw [wp_bind, wp_brelse]
      show wp _ _ _
        (s.write (sb.iblock n) (putDinode (s.cache (sb.iblock n)) (n % IPB) { Dinode.zero with type := type }))
      generalize hs1 : s.write (sb.iblock n) (putDinode (s.cache (sb.iblock n)) (n % IPB)
        { Dinode.zero with type := type }) = s1
      have hret : Retyped sb n { Dinode.zero with type := type } s s1 :=
        hs1 ▸ ⟨rfl, rfl, fun _ hb => mem_absorb.mpr (Or.inl hb), mem_absorb.mpr (Or.inr rfl)⟩
      have hwf : ({ Dinode.zero with type := type } : Dinode).Wf :=
        ⟨hshort, by simp [Dinode.zero, IsShort], by simp [Dinode.zero, IsShort], by simp [Dinode.zero, IsShort],
          by simp [Dinode.zero],
          by simp [Dinode.zero], by simp [Dinode.zero]⟩
      obtain ⟨held1, hm1⟩ := h.alloc hn h0 hwf (fun _ => rfl) rfl hown hret (by rw [← hs1]; rfl)
        (by rw [← hs1]; exact ⟨rfl, rfl, rfl⟩)
      simp only [wp_bind, wp_pure]
      refine (iget_spec held1 hn).imp fun j s' hg => ?_
      have hm2 : Moved sb (Kept H own) [n] v s _ s' := hm1.trans hg.still.moved
      refine ⟨n, hg.lt, hg.inum, ⟨hn, h0⟩, hg.held, hm2, fun y hy => ?_, fun hl =>
        hl.others (n := n) h.core.fs hm2.others (fun _ hk => hk.cons j) hm2.inum (fun _ off he => ?_) fun x hx _ => ?_⟩
      · have := sb.iblock_lt hn.2
        rw [hg.still.cache, hret.cache, upd_ne (by omega)]
      · have hle := he.le
        rw [upd_same] at hle
        exact absurd hle (by simp [Dinode.zero])
      · rw [or_self] at hx
        exact ⟨j, hg.lt, Or.inr List.mem_cons_self, hg.inum.trans hx.symm⟩
    · rw [wp_bind, wp_brelse]
      have hread : Reads s ((s.ev (.bread (sb.iblock n))).ev (.brelse (sb.iblock n))) := .block s _
      refine (ih (fun x hx => hin x (List.mem_cons_of_mem _ hx)) (h.reads hread) ho hown).imp fun r s' hr => ?_
      cases r with
      | none => exact ⟨hread.trans hr.1, List.forall_mem_cons.mpr ⟨h0, hr.2⟩⟩
      | some j =>
        obtain ⟨x, hx⟩ := hr
        exact ⟨x, hx.lt, hx.inum, hx.was, hx.held, (Still.of_reads hread).moved.trans hx.moved, hx.upper, hx.linked⟩

theorem ialloc_spec {type : Int} (hshort : IsShort type) (h : Held sb v H own locks s) (ho : s.outstanding = 1)
    (hown : ∀ j ∈ own, j < NINODE → Live sb v (s.itable j).inum) :
    wp (ialloc sb ROOTDEV type)
      (fun r s' => match r with
        | none => Reads s s' ∧ ∀ n, sb.IsInum n → (v n).type ≠ 0
        | some j => ∃ n, Alloced sb v H own locks type n s j s') Stops s := by
  refine (iallocLoop_spec hshort _ (fun n hn => ?_) h ho hown).imp fun r s' hr => ?_
  · have := List.mem_range'_1.mp hn
    exact ⟨this.1, by omega⟩
  · cases r with
    | none => exact ⟨hr.1, fun n hn => hr.2 n (List.mem_range'_1.mpr ⟨hn.1, by have := hn.2; omega⟩)⟩
    | some j => exact hr

end Xv6.Fs
