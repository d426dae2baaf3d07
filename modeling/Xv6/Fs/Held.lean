/-
  Xv6.Fs.Held — the inode table while a system call runs.

  `Held sb v H own locks s`: every entry is referenced `H` times by open files and current
  directories and once for each time it stands in `own`, the references the running call has
  taken; the entries of `locks` are locked. `iget` and `idup` put an entry on `own`, `iput` takes
  one off, `ilock` and `iunlock` change `locks`.

  `Keeps` says what every step of a call leaves alone: the entries that somebody keeps hold the
  inode they held. A step of a walk changes nothing else (`Still`), another may change the inodes
  of a list (`Moved`). `iput` is a step of a walk unless the reference is the last one to an inode
  without links (`Last`); then it frees the inode.

  Proved: `iget_spec`, `idup_spec`, `ilock_spec`, `iunlock_spec`, `iput_still`, `iput_last`.
-/
import Xv6.Fs.Slot
import Xv6.Fs.Table
import Xv6.Fs.Trunc

namespace Xv6.Fs

variable {sb : Superblock} {v v1 v' : Nat → Dinode} {K K' : Nat → Prop} {M M' : List Nat} {E : Panic → St → Prop}
variable {H : Nat → Nat} {own own' locks locks' : List Nat} {i j m n : Nat} {s s1 s' : St}

/-! ## Directories -/

structure HasEntry (d : Dinode) (off : Nat) : Prop where
  dir : d.type = T_DIR
  mod : off % 16 = 0
  le : off + 16 ≤ d.size

def DirsOk (sb : Superblock) (v : Nat → Dinode) (c : Disk) : Prop :=
  ∀ m, Live sb v m → ∀ off, HasEntry (v m) off → direntAt (v m) c off = 0 ∨ sb.IsInum (direntAt (v m) c off)

def Named (sb : Superblock) (v : Nat → Dinode) (c : Disk) (n : Nat) : Prop :=
  n = ROOTINO ∨ ∃ m off, Live sb v m ∧ HasEntry (v m) off ∧ direntAt (v m) c off = n

/-- An inode without links that a walk can come to is the inode of an entry that is kept. -/
def Linked (sb : Superblock) (v : Nat → Dinode) (K : Nat → Prop) (s : St) : Prop :=
  ∀ m, Live sb v m → Named sb v s.cache m → (v m).nlink = 0 → ∃ i, i < NINODE ∧ K i ∧ (s.itable i).inum = m

theorem direntAt_same {d d' : Dinode} {c c' : Disk} {off : Nat} (hm : Mapped d c d.size) (hs : SameData d c d' c')
    (hle : off + 16 ≤ d.size) : direntAt d' c' off = direntAt d c off :=
  direntAt_congr fun _ hk => hs.byteAt (hm _ (by simp only [BSIZE] at *; omega))

/-! ## What changes -/

/-- The entries of `K` hold what they held, and no operation, file or process has changed. -/
structure Keeps (K : Nat → Prop) (s s' : St) : Prop where
  inum : ∀ i, i < NINODE → K i → (s'.itable i).inum = (s.itable i).inum
  valid : ∀ i, i < NINODE → K i → (s.itable i).valid = true → (s'.itable i).valid = true
  outstanding : s'.outstanding = s.outstanding
  ftable : s'.ftable = s.ftable
  proc : s'.proc = s.proc

structure Still (K : Nat → Prop) (s s' : St) : Prop extends Keeps K s s' where
  cache : s'.cache = s.cache

structure Moved (sb : Superblock) (K : Nat → Prop) (M : List Nat) (v : Nat → Dinode) (s : St) (v' : Nat → Dinode)
    (s' : St) : Prop extends Keeps K s s' where
  files : ∀ m, m ∉ M → v' m = v m ∧ (Live sb v m → SameData (v m) s.cache (v' m) s'.cache)

namespace Keeps

theorem mono (h : Keeps K s s') (hK : ∀ i, K' i → K i) : Keeps K' s s' :=
  ⟨fun i hi hk => h.inum i hi (hK i hk), fun i hi hk => h.valid i hi (hK i hk), h.outstanding, h.ftable, h.proc⟩

theorem trans (h : Keeps K s s1) (h' : Keeps K s1 s') : Keeps K s s' :=
  ⟨fun i hi hk => (h'.inum i hi hk).trans (h.inum i hi hk), fun i hi hk hv => h'.valid i hi hk (h.valid i hi hk hv),
    h'.outstanding.trans h.outstanding, h'.ftable.trans h.ftable, h'.proc.trans h.proc⟩

end Keeps

theorem Opened.kept (h : Opened s i m) (hk : Keeps K s s') (hi : K i) (hr : 0 < (s'.itable i).ref) : Opened s' i m :=
  ⟨h.lt, hr, hk.valid i h.lt hi h.valid, (hk.inum i h.lt hi).trans h.inum⟩

namespace Still

theorem mono (h : Still K s s') (hK : ∀ i, K' i → K i) : Still K' s s' := ⟨h.toKeeps.mono hK, h.cache⟩

theorem trans (h : Still K s s1) (h' : Still K s1 s') : Still K s s' :=
    ⟨h.toKeeps.trans h'.toKeeps, h'.cache.trans h.cache⟩

theorem of_reads (h : Reads s s') : Still K s s' := by
  have ht := h.itable
  exact ⟨⟨fun i _ _ => by rw [ht], fun i _ _ hv => by rw [ht]; exact hv, h.outstanding, by rw [h.eq], by rw [h.eq]⟩,
    h.cache⟩

theorem refl (s : St) : Still K s s := .of_reads (.refl s)

/-- An entry is replaced. -/
theorem node {ip : Inode} (hk : K i → ip.inum = (s.itable i).inum ∧ ((s.itable i).valid = true → ip.valid = true)) :
    Still K s (s.node i ip) := by
  refine ⟨⟨fun j _ hj => ?_, fun j _ hj hv => ?_, rfl, rfl, rfl⟩, rfl⟩
  · by_cases h : j = i
    · subst h
      rw [St.node_itable, upd_same, (hk hj).1]
    · rw [St.node_itable, upd_ne h]
  · by_cases h : j = i
    · subst h
      rw [St.node_itable, upd_same, (hk hj).2 hv]
    · rw [St.node_itable, upd_ne h, hv]

theorem ev (x : Ev) : Still K s (s.ev x) := ⟨⟨fun _ _ _ => rfl, fun _ _ _ => id, rfl, rfl, rfl⟩, rfl⟩

theorem moved (h : Still K s s') : Moved sb K M v s v s' :=
  ⟨h.toKeeps, fun _ _ => ⟨rfl, fun _ => h.cache ▸ SameData.refl _ _⟩⟩

end Still

namespace Moved

theorem mono (h : Moved sb K M v s v' s') (hK : ∀ i, K' i → K i) (hM : M ⊆ M') : Moved sb K' M' v s v' s' :=
  ⟨h.toKeeps.mono hK, fun m hm => h.files m fun hin => hm (hM hin)⟩

theorem trans (h : Moved sb K M v s v1 s1) (h' : Moved sb K M v1 s1 v' s') : Moved sb K M v s v' s' := by
  refine ⟨h.toKeeps.trans h'.toKeeps, fun m hm => ?_⟩
  obtain ⟨h1, h2⟩ := h.files m hm
  obtain ⟨h3, h4⟩ := h'.files m hm
  refine ⟨h3.trans h1, fun hl => (h2 hl).trans (h4 ?_)⟩
  simpa only [Live, h1] using hl

/-- One inode changes. -/
theorem of_others (hf : Others sb m v s.cache v' s'.cache) (he : s'.outstanding = s.outstanding ∧ s'.ftable = s.ftable ∧
    s'.proc = s.proc)
    (hi : ∀ j, j < NINODE → K j → (s'.itable j).inum = (s.itable j).inum ∧
      ((s.itable j).valid = true → (s'.itable j).valid = true)) :
    Moved sb K [m] v s v' s' :=
  ⟨⟨fun j hj hk => (hi j hj hk).1, fun j hj hk => (hi j hj hk).2, he.1, he.2.1, he.2.2⟩, fun m' hm' =>
    hf m' (by simpa using hm')⟩

theorem others (h : Moved sb K [m] v s v' s') : Others sb m v s.cache v' s'.cache :=
    fun m' hne => h.files m' (by simpa using hne)

end Moved

abbrev Stops : Panic → St → Prop := fun _ _ => True

/-! ## The table -/

/-- An open file or a current directory refers to entry `i`, or the running call does. -/
def Kept (H : Nat → Nat) (own : List Nat) (i : Nat) : Prop := 0 < H i ∨ i ∈ own

structure Held (sb : Superblock) (v : Nat → Dinode) (H : Nat → Nat) (own locks : List Nat) (s : St) : Prop where
  core : Core sb v 0 s
  dirs : DirsOk sb v s.cache
  refs : ∀ i, i < NINODE → (s.itable i).ref = H i + own.count i
  live : ∀ i, i < NINODE → 0 < H i → Live sb v (s.itable i).inum
  lock : ∀ i, i < NINODE → ((s.itable i).lock = true ↔ i ∈ locks)

theorem Kept.cons (j : Nat) (h : Kept H own i) : Kept H (j :: own) i := h.imp_right fun h => List.mem_cons_of_mem j h

namespace Held

theorem ref_pos (h : Held sb v H own locks s) (hi : i < NINODE) (hk : Kept H own i) : 0 < (s.itable i).ref := by
  rw [h.refs i hi]
  rcases hk with hk | hk
  · omega
  · have := List.count_pos_iff.mpr hk
    omega

theorem kept_of_ref (h : Held sb v H own locks s) (hi : i < NINODE) (hr : 0 < (s.itable i).ref) : Kept H own i := by
  rw [h.refs i hi] at hr
  by_cases h0 : 0 < H i
  · exact Or.inl h0
  · exact Or.inr (List.count_pos_iff.mp (by omega))

/-- One entry changes. -/
theorem put {ip : Inode} (h : Held sb v H own locks s) (hok : EntryOk sb v ip)
    (huniq : 0 < ip.ref → ∀ j, j ≠ i → j < NINODE → 0 < (s.itable j).ref → (s.itable j).inum ≠ ip.inum)
    (hlive : 0 < H i → Live sb v ip.inum) (href : ip.ref = H i + own'.count i) (hlock : ip.lock = true ↔ i ∈ locks')
    (hrefs : ∀ j, j ≠ i → own'.count j = own.count j) (hlocks : ∀ j, j ≠ i → (j ∈ locks' ↔ j ∈ locks)) :
    Held sb v H own' locks' (s.node i ip) := by
  refine ⟨⟨h.core.fs, h.core.agree, fun j hj => ?_, fun a b ha hb h1 h2 h3 => ?_, h.core.clean⟩, h.dirs, fun j hj => ?_,
    fun j hj => ?_, fun j hj => ?_⟩
  · by_cases e : j = i
    · rw [e, St.node_itable, upd_same]; exact hok
    · rw [St.node_itable, upd_ne e]; exact h.core.table j hj
  · rw [St.node_itable] at h1 h2 h3
    by_cases ea : a = i <;> by_cases eb : b = i
    · rw [ea, eb]
    · rw [ea, upd_same] at h1 h3
      rw [upd_ne eb] at h2 h3
      exact absurd h3.symm (huniq h1 b eb hb h2)
    · rw [eb, upd_same] at h2 h3
      rw [upd_ne ea] at h1 h3
      exact absurd h3 (huniq h2 a ea ha h1)
    · rw [upd_ne ea] at h1 h3
      rw [upd_ne eb] at h2 h3
      exact h.core.unique a b ha hb h1 h2 h3
  · by_cases e : j = i
    · rw [e, St.node_itable, upd_same]; exact href
    · rw [St.node_itable, upd_ne e, hrefs j e]; exact h.refs j hj
  · by_cases e : j = i
    · rw [e, St.node_itable, upd_same]; exact hlive
    · rw [St.node_itable, upd_ne e]; exact h.live j hj
  · by_cases e : j = i
    · rw [e, St.node_itable, upd_same]; exact hlock
    · rw [St.node_itable, upd_ne e, hlocks j e]; exact h.lock j hj

/-- An entry keeps its inode: its count or its lock changes. -/
theorem put_same {r : Nat} {b : Bool} (h : Held sb v H own locks s) (hi : i < NINODE) (hr : 0 < (s.itable i).ref)
    (href : r = H i + own'.count i) (hlock : b = true ↔ i ∈ locks') (hrefs : ∀ j, j ≠ i → own'.count j = own.count j)
    (hlocks : ∀ j, j ≠ i → (j ∈ locks' ↔ j ∈ locks)) :
    Held sb v H own' locks' (s.node i { s.itable i with ref := r, lock := b }) := by
  refine h.put (fun _ => h.core.table i hi hr) (fun _ j hj hj' hrj e => hj (h.core.unique j i hj' hi hrj hr e))
    (h.live i hi) href hlock hrefs hlocks

theorem ev (h : Held sb v H own locks s) (x : Ev) : Held sb v H own locks (s.ev x) :=
  ⟨h.core.congr rfl (fun _ => rfl) fun _ => id, h.dirs, h.refs, h.live, h.lock⟩

theorem reads (h : Held sb v H own locks s) (hr : Reads s s') : Held sb v H own locks s' := by
  have ht := hr.itable
  exact ⟨hr.core
    h.core, by
    rw [hr.cache]; exact h.dirs, by rw [ht]; exact h.refs, by rw [ht]; exact h.live, by rw [ht]; exact h.lock⟩

theorem perm (h : Held sb v H own locks s) (ho : own.Perm own') (hl : ∀ i, i ∈ locks' ↔ i ∈ locks) :
    Held sb v H own' locks' s :=
  ⟨h.core, h.dirs, fun i hi => by rw [h.refs i hi, ho.count_eq], h.live, fun i hi => by rw [h.lock i hi, hl]⟩

end Held

theorem count_other (j : Nat) (hj : j ≠ i) (own : List Nat) : (i :: own).count j = own.count j :=
  List.count_cons_of_ne (Ne.symm hj)

/-! ## `iget` and `idup` -/

/-- One more reference. -/
theorem Held.take (h : Held sb v H own locks s) (hi : i < NINODE) (hr : 0 < (s.itable i).ref) :
    Held sb v H (i :: own) locks (s.node i { s.itable i with ref := (s.itable i).ref + 1 }) := by
  refine h.put_same (r := (s.itable i).ref + 1) (b := (s.itable i).lock) hi hr ?_ (h.lock i hi)
    (fun j hj => count_other j hj own) fun _ _ => Iff.rfl
  rw [List.count_cons_self, h.refs i hi]
  omega

theorem idup_spec (h : Held sb v H own locks s) (hi : i < NINODE) (hk : Kept H own i) :
    wp (idup i) (fun r s' => r = i ∧ Held sb v H (i :: own) locks s' ∧ Still (Kept H own) s s') E s := by
  simp only [idup, wp_bind, wp_setInode, wp_pure]
  exact ⟨trivial, h.take hi (h.ref_pos hi hk), .node fun _ => ⟨rfl, id⟩⟩

structure Got (sb : Superblock) (v : Nat → Dinode) (H : Nat → Nat) (own locks : List Nat) (n : Nat) (s : St)
    (i : Nat) (s' : St) : Prop where
  lt : i < NINODE
  inum : (s'.itable i).inum = n
  held : Held sb v H (i :: own) locks s'
  still : Still (Kept H own) s s'

theorem iget_spec (h : Held sb v H own locks s) (hn : sb.IsInum n) :
    wp (iget ROOTDEV n) (Got sb v H own locks n s) Stops s := by
  simp only [iget, wp_bind, wp_get]
  cases hf : (List.range NINODE).find? fun i =>
      decide (0 < (s.itable i).ref ∧ (s.itable i).dev = ROOTDEV ∧ (s.itable i).inum = n) with
  | some i =>
    have hi := List.mem_range.mp (List.mem_of_find?_eq_some hf)
    have hp := List.find?_some hf
    rw [decide_eq_true_eq] at hp
    simp only [wp_bind, wp_setInode, wp_pure]
    exact ⟨hi, by rw [St.node_itable, upd_same]; exact hp.2.2, h.take hi hp.1, .node fun _ => ⟨rfl, id⟩⟩
  | none =>
    have hnone : ∀ j, j < NINODE → 0 < (s.itable j).ref → (s.itable j).inum ≠ n := fun j hj hr e => by
      have := List.find?_eq_none.mp hf j (List.mem_range.mpr hj)
      rw [decide_eq_true_eq] at this
      exact this ⟨hr, (h.core.table j hj hr).1, e⟩
    cases hg : (List.range NINODE).find? fun i => decide ((s.itable i).ref = 0) with
    | none => exact trivial
    | some i =>
      have hi := List.mem_range.mp (List.mem_of_find?_eq_some hg)
      have h0 : (s.itable i).ref = 0 := by simpa using List.find?_some hg
      have hrefs := h.refs i hi
      have hfree : ¬ Kept H own i := fun hk => by
        have := h.ref_pos hi hk
        omega
      have hcount : own.count i = 0 := by omega
      simp only [wp_bind, wp_setInode, wp_pure]
      refine ⟨hi, by rw [St.node_itable, upd_same], ?_, .node fun hk => absurd hk hfree⟩
      refine h.put (fun _ => ⟨rfl, hn, by simp⟩) (fun _ j hj hj' hr => hnone j hj' hr)
        (fun hH => absurd (Or.inl hH) hfree) ?_ (h.lock i hi) (fun j hj => count_other j hj own) fun _ _ => Iff.rfl
      rw [List.count_cons_self, hcount]
      show 1 = H i + (0 + 1)
      omega

/-! ## Locks -/

theorem ilock_spec (h : Held sb v H own locks s) (hi : i < NINODE) (hk : Kept H own i) :
    wp (ilock sb i) (fun _ s' => Held sb v H own (i :: locks) s' ∧ Opened s' i (s.itable i).inum ∧ i ∉ locks ∧
      Still (Kept H own) s s') Stops s := by
  have hr := h.ref_pos hi hk
  obtain ⟨hdev, hin, hval⟩ := h.core.table i hi hr
  simp only [ilock, wp_bind, wp_get]
  rw [if_neg (by omega)]
  refine wp_ite (fun _ => trivial) fun hl => ?_
  have hnot : i ∉ locks := fun hm => hl ((h.lock i hi).mpr hm)
  have hlocks : ∀ j, j ≠ i → (j ∈ i :: locks ↔ j ∈ locks) := fun j hj => by simp [hj]
  simp only [wp_bind, wp_setInode]
  refine wp_ite (fun hv => ?_) fun hv => ?_
  · rw [wp_pure]
    refine ⟨h.put_same hi hr (h.refs i hi) (by simp) (fun _ _ => rfl) hlocks, ?_, hnot, .node fun _ => ⟨rfl, id⟩⟩
    exact ⟨hi, by rw [St.node_itable, upd_same]; exact hr, by rw [St.node_itable, upd_same]; exact hv,
      by rw [St.node_itable, upd_same]⟩
  · -- the inode is read from its block
    have hag : sb.ino s.cache (s.itable i).inum = v (s.itable i).inum := h.core.agree _ hin (by have := hin.1; omega)
    rw [wp_bind, wp_bread, wp_bind, wp_setInode, wp_bind, wp_brelse, wp_bind, wp_setInode]
    have hread : Reads s ((s.ev (.bread (sb.iblock (s.itable i).inum))).ev (.brelse (sb.iblock (s.itable i).inum))) :=
      .block s _
    generalize ht : (s.ev (.bread (sb.iblock (s.itable i).inum))).ev (.brelse (sb.iblock (s.itable i).inum))
      = t at hread
    have hti : t.itable = s.itable := hread.itable
    have hstill : Still (Kept H own) s
        (t.node i { s.itable i with lock := true, valid := true, copy := v (s.itable i).inum }) :=
      (Still.of_reads hread).trans (.node fun _ => ⟨by rw [hti], fun _ => rfl⟩)
    -- the state the code has built, entry by entry
    have hdone : ∀ s', s' = t.node i { s.itable i with lock := true, valid := true, copy := v (s.itable i).inum } →
        wp (if (v (s.itable i).inum).type = 0 then throw .noType else pure () : M Unit)
          (fun _ s' => Held sb v H own (i :: locks) s' ∧ Opened s' i (s.itable i).inum ∧ i ∉ locks ∧
            Still (Kept H own) s s') Stops s' := by
      rintro _ rfl
      refine wp_ite (fun _ => trivial) fun hty => ?_
      rw [wp_pure]
      refine ⟨(h.reads hread).put (fun _ => ⟨hdev, hin, fun _ => ⟨rfl, hty⟩⟩) (fun _ j hj hj' hrj e => ?_)
        (h.live i hi) (h.refs i hi) (by simp) (fun _ _ => rfl) hlocks, ?_, hnot, hstill⟩
      · rw [hti] at hrj e
        exact hj (h.core.unique j i hj' hi hrj hr e)
      · exact ⟨hi, by rw [St.node_itable, upd_same]; exact hr, by rw [St.node_itable, upd_same],
          by rw [St.node_itable, upd_same]⟩
    rw [Superblock.ino] at hag
    simp only [St.node_itable, upd_same, St.node_cache, St.ev_itable, hag]
    refine hdone _ ?_
    rw [← ht]
    simp only [St.node, St.ev, upd_upd]

theorem iunlock_spec (h : Held sb v H own (i :: locks) s) (hi : i < NINODE) (hk : Kept H own i) (hl : i ∉ locks) :
    wp (iunlock i) (fun _ s' => Held sb v H own locks s' ∧ Still (Kept H own) s s') E s := by
  have hr := h.ref_pos hi hk
  rw [wp_iunlock hr ((h.lock i hi).mpr List.mem_cons_self)]
  exact ⟨h.put_same hi hr (h.refs i hi) (by simp [hl]) (fun _ _ => rfl) fun j hj => by simp [hj],
    .node fun _ => ⟨rfl, id⟩⟩

/-! ## An inode is allocated or freed -/

theorem DirsOk.others {c c' : Disk} (h : DirsOk sb v c) (hf : FsOk sb v c) (ho : Others sb m v c v' c')
    (hm : Live sb v' m → ∀ off, HasEntry (v' m) off → direntAt (v' m) c' off = 0 ∨ sb.IsInum (direntAt (v' m) c' off)) :
    DirsOk sb v' c' := fun m' hl off he => by
  by_cases e : m' = m
  · subst e
    exact hm hl off he
  · obtain ⟨hv, hs⟩ := ho m' e
    have hl' : Live sb v m' := by simpa only [Live, hv] using hl
    rw [hv] at he
    have := h m' hl' off he
    rwa [direntAt_same (hf.full m' hl') (hs hl') he.le]

/-- The block of inode `m`, which holds no block, gets the inode `d`, which holds none. -/
structure Retyped (sb : Superblock) (m : Nat) (d : Dinode) (s s' : St) : Prop where
  cache : s'.cache = upd s.cache (sb.iblock m) (putDinode (s.cache (sb.iblock m)) (m % IPB) d)
  disk : s'.disk = s.disk
  mono : s.lh ⊆ s'.lh
  logged : sb.iblock m ∈ s'.lh

theorem Retyped.others {d : Dinode} (h : Retyped sb m d s s') (hc : Core sb v 0 s) (hm : sb.IsInum m) :
    Others sb m v s.cache (upd v m d) s'.cache := fun m' hne => by
  rw [upd_ne hne]
  refine ⟨rfl, fun hl => .low hc.fs hl fun y hy => ?_⟩
  rw [h.cache]
  exact upd_iblock hm hy

theorem Retyped.core {d : Dinode} (h : Retyped sb m d s s') (hc : Core sb v 0 s) (hm : sb.IsInum m) (hw : d.Wf)
    (hd : ∀ j, d.addrs j = 0) (hs : d.size = 0) (hv : Live sb v m → (∀ p, ptr (v m) s.cache p = 0) ∧ d.type ≠ T_DIR)
    (hent : ∀ j, j < NINODE → 0 < (s'.itable j).ref → s'.itable j = s.itable j ∧
      ((s.itable j).inum = m → (s.itable j).valid = false)) : Core sb (upd v m d) 0 s' := by
  have hdata : ∀ y, sb.nmeta ≤ y → s'.cache y = s.cache y := fun y hy => by
    rw [h.cache]
    exact upd_iblock hm hy
  have hbit : ∀ b, b < sb.size → sb.bit s'.cache b = sb.bit s.cache b := fun b hb => by
    rw [h.cache]
    exact bit_upd (sb.not_bitmap_low (sb.iblock_lt hm.2)) _ hb
  have hfs : FsOk sb (upd v m d) s.cache := hc.fs.retype (fun hl => (hv hl).1) hd hw hs
  refine ⟨hfs.low hbit hdata, fun m' h1 h2 => ?_, fun j hj hr => ?_, fun a b ha hb h1 h2 h3 => ?_, ?_⟩
  · rw [h.cache, ino_put hw]
    by_cases e : m' = m
    · rw [if_pos e, e, upd_same]
    · rw [if_neg e, upd_ne e]
      exact hc.agree m' h1 h2
  · obtain ⟨e, hval⟩ := hent j hj hr
    rw [e] at hr ⊢
    obtain ⟨h1, h2, h3⟩ := hc.table j hj hr
    refine ⟨h1, h2, fun ht => ?_⟩
    by_cases em : (s.itable j).inum = m
    · rw [hval em] at ht
      cases ht
    · rw [upd_ne em]
      exact h3 ht
  · have ea := (hent a ha h1).1
    have eb := (hent b hb h2).1
    rw [ea] at h1 h3
    rw [eb] at h2 h3
    exact hc.unique a b ha hb h1 h2 h3
  · refine hc.clean.step h.disk h.mono (fun y => ?_) (fun a h0 => Or.inl ?_) fun m' hl ht => ?_
    · by_cases e : y = sb.iblock m
      · exact Or.inr (Or.inl (e ▸ h.logged))
      · rw [h.cache, upd_ne e]
        exact Or.inl rfl
    · rw [own_low hfs hdata] at h0 ⊢
      obtain ⟨m', p⟩ := a
      by_cases e : m' = m
      · subst e
        refine absurd ?_ h0
        by_cases hl : Live sb (upd v m' d) m'
        · rw [own_live hl, upd_same]
          cases p <;> simp [ptr, hd]
        · exact own_dead hl p
      · have hl : Live sb (upd v m d) m' ↔ Live sb v m' := by simp only [Live, upd_ne e]
        by_cases hm' : Live sb v m'
        · rw [own_live hm', own_live (hl.mpr hm'), upd_ne e]
        · rw [own_dead hm', own_dead (mt hl.mp hm')]
    · by_cases e : m' = m
      · subst e
        rw [upd_same] at ht
        exact absurd ht (hv hl).2
      · rwa [upd_ne e] at ht

/-! ## `iput` -/

/-- The reference that goes is the last one to an inode without links. -/
structure Last (sb : Superblock) (v : Nat → Dinode) (H : Nat → Nat) (own : List Nat) (s : St) (i : Nat) : Prop where
  gone : ¬ Kept H own i
  live : Live sb v (s.itable i).inum
  nlink : (v (s.itable i).inum).nlink = 0

def Dinode.freed (d : Dinode) : Dinode := { d.cut with type := 0 }

theorem Dinode.Wf.freed {d : Dinode} (h : d.Wf) : d.freed.Wf :=
  ⟨by simp [Dinode.freed, IsShort], h.major, h.minor, h.nlink, h.cut.size, h.cut.addrs, h.cut.beyond⟩

/-- From the truncated inode to the free entry. -/
theorem Held.freed {s2 : St} (h : Held sb v H (i :: own) locks s) (ip : Inode) (hi : Opened s i m)
    (hgone : ¬ Kept H own i)
    (hl : i ∉ locks) (ho : Others sb m v s.cache (upd v m (v m).cut) s2.cache) (hc : Core sb (upd v m (v m).cut) 0 s2)
    (ht2 : s2.itable = upd s.itable i { s.itable i with lock := true, copy := (v m).cut })
    (hr : Retyped sb m (v m).freed s2 s') (ht : s'.itable = upd s.itable i ip) (hip : ip.ref = 0 ∧ ip.lock = false)
    (he : s'.outstanding = s.outstanding ∧ s'.ftable = s.ftable ∧ s'.proc = s.proc) :
    Held sb (upd v m (v m).freed) H own locks s' ∧ Moved sb (Kept H own) [m] v s (upd v m (v m).freed) s' := by
  have hm := h.core.live hi
  have hother : ∀ j, j < NINODE → j ≠ i → 0 < (s.itable j).ref → (s.itable j).inum ≠ m := fun j hj hne hrj e =>
    hne (h.core.unique j i hj hi.lt hrj hi.ref (e.trans hi.inum.symm))
  have hcore : Core sb (upd v m (v m).freed) 0 s' := by
    have := hr.core hc hm.1 (h.core.fs.wf m hm.1).freed (fun _ => rfl) rfl
      (fun _ => ⟨fun p => ?_, by simp [Dinode.freed]⟩) fun j hj hrj => ?_
    · rwa [upd_upd] at this
    · rw [upd_same]; exact ptr_cut _ _ p
    · have hne : j ≠ i := fun e => by
        rw [ht, e, upd_same] at hrj
        omega
      rw [ht, upd_ne hne] at hrj
      rw [ht, ht2, upd_ne hne, upd_ne hne]
      exact ⟨rfl, fun e => absurd e (hother j hj hne hrj)⟩
  have hothers : Others sb m v s.cache (upd v m (v m).freed) s'.cache := by
    have := hr.others hc hm.1
    rw [upd_upd] at this
    exact ho.trans this
  refine ⟨⟨hcore, h.dirs.others h.core.fs hothers fun hl => ?_, fun j hj => ?_, fun j hj hH => ?_, fun j hj => ?_⟩,
    .of_others hothers he fun j hj hk => ?_⟩
  · exact absurd (by rw [upd_same]; rfl) hl.2
  · by_cases e : j = i
    · rw [e, ht, upd_same, hip.1]
      have h0 : ¬ 0 < H i := fun h => hgone (Or.inl h)
      have h1 : own.count i = 0 := List.count_eq_zero.mpr fun h => hgone (Or.inr h)
      omega
    · rw [ht, upd_ne e, h.refs j hj, count_other j e]
  · have hne : j ≠ i := fun e => hgone (Or.inl (e ▸ hH))
    have hk : 0 < (s.itable j).ref := h.ref_pos hj (Or.inl hH)
    rw [ht, upd_ne hne]
    have := h.live j hj hH
    simpa only [Live, upd_ne (hother j hj hne hk)] using this
  · by_cases e : j = i
    · rw [e, ht, upd_same, hip.2]
      simpa using hl
    · rw [ht, upd_ne e]
      exact h.lock j hj
  · have hne : j ≠ i := fun e => hgone (e ▸ hk)
    rw [ht, upd_ne hne]
    exact ⟨rfl, id⟩

/-- The inode has links, or somebody else keeps its entry. -/
theorem iput_still (h : Held sb v H (i :: own) locks s) (hi : i < NINODE) (hl : ¬ Last sb v H own s i) :
    wp (iput sb i) (fun _ s' => Held sb v H own locks s' ∧ Still (Kept H own) s s') E s := by
  have hr := h.ref_pos hi (Or.inr List.mem_cons_self)
  have hrefs := h.refs i hi
  rw [List.count_cons_self] at hrefs
  simp only [iput, wp_bind, wp_get, wp_emit]
  rw [if_neg]
  · rw [wp_setInode]
    refine ⟨(h.ev _).put_same hi hr ?_ (h.lock i hi) (fun j hj => (count_other j hj own).symm) fun _ _ => Iff.rfl,
      (Still.ev _).trans (.node fun _ => ⟨rfl, id⟩)⟩
    show (s.itable i).ref - 1 = H i + own.count i
    omega
  · rintro ⟨h1, hv, hn⟩
    obtain ⟨-, -, hval⟩ := h.core.table i hi hr
    rw [(hval hv).1] at hn
    refine hl ⟨?_, h.core.live ⟨hi, hr, hv, rfl⟩, hn⟩
    rintro (h2 | h2)
    · omega
    · have := List.count_pos_iff.mpr h2
      omega

/-- The last reference to an inode without links frees it. -/
theorem iput_last (h : Held sb v H (i :: own) locks s) (hop : Opened s i m) (ho : s.outstanding = 1) (hnot : i ∉ locks)
    (hl : Last sb v H own s i) :
    wp (iput sb i) (fun _ s' => Held sb (upd v m (v m).freed) H own locks s' ∧
      Moved sb (Kept H own) [m] v s (upd v m (v m).freed) s') Stops s := by
  have hrefs := h.refs i hop.lt
  rw [List.count_cons_self] at hrefs
  have h0 : ¬ 0 < H i := fun h => hl.gone (Or.inl h)
  have h1 : own.count i = 0 := List.count_eq_zero.mpr fun h => hl.gone (Or.inr h)
  have hfree : (s.itable i).ref = 1 ∧ (s.itable i).valid = true ∧ (s.itable i).copy.nlink = 0 := by
    refine ⟨by omega, hop.valid, ?_⟩
    rw [h.core.copy_eq hop, ← hop.inum]
    exact hl.nlink
  have hlock : (s.itable i).lock = false := Bool.eq_false_iff.mpr fun hm => hnot ((h.lock i hop.lt).mp hm)
  simp only [iput, wp_bind, wp_get, wp_emit, if_pos hfree, hlock, Bool.false_eq_true, if_false, wp_setInode, hop.inum]
  generalize hs1 : (s.ev (.iput m)).node i { s.itable i with lock := true } = s1
  have hs1' : (s.ev (.iput m)).node i { (s.ev (.iput m)).itable i with lock := true } = s1 := hs1
  have ht1 : s1.itable = upd s.itable i { s.itable i with lock := true } := by rw [← hs1]; rfl
  have hc1 : Core sb v m s1 := hs1 ▸ ((h.ev (.iput m)).core.locked i true).ahead m
  have hop1 : Opened s1 i m :=
    ⟨hop.lt, by rw [ht1, upd_same]; exact hop.ref, by rw [ht1, upd_same]; exact hop.valid,
      by rw [ht1, upd_same]; exact hop.inum⟩
  have e1 : s1.outstanding = s.outstanding ∧ s1.ftable = s.ftable ∧ s1.proc = s.proc := by
    rw [← hs1]; exact ⟨rfl, rfl, rfl⟩
  rw [hs1']
  refine (itrunc_spec hc1 hop1 (e1.1.trans ho)).mono (fun _ s2 h₂ => ?_) fun _ _ _ => trivial
  have ht2 : s2.itable = upd s.itable i { s.itable i with lock := true, copy := (v m).cut } := by
    rw [h₂.itable, ht1, upd_same, upd_upd]
  have hcopy : ({ (s2.itable i).copy with type := 0 } : Dinode) = (v m).freed := by rw [ht2, upd_same]; rfl
  rw [wp_setCopy, hcopy]
  generalize hs3 : s2.node i { s2.itable i with copy := (v m).freed } = s3
  have ht3 : s3.itable = upd s.itable i { s.itable i with lock := true, copy := (v m).freed } := by
    rw [← hs3, St.node_itable, ht2, upd_same, upd_upd]
  have e3 : s3.outstanding = s2.outstanding ∧ s3.ftable = s2.ftable ∧ s3.proc = s2.proc := by
    rw [← hs3]; exact ⟨rfl, rfl, rfl⟩
  have hin3 : (s3.itable i).inum = m := by rw [ht3, upd_same]; exact hop.inum
  refine (iupdate_spec i ((e3.1.trans h₂.ext.outstanding).trans (e1.1.trans ho))).mono (fun _ s4 h₄ => ?_)
    fun _ _ _ => trivial
  obtain ⟨rfl, e4⟩ := h₄
  refine h.freed { s.itable i with lock := false, copy := (v m).freed, valid := false, ref := (s.itable i).ref - 1 }
    hop hl.gone hnot ?_ h₂.core ht2 ⟨?_, ?_, ?_, ?_⟩ ?_ ⟨?_, rfl⟩ ?_
  · have hcache : s1.cache = s.cache := by rw [← hs1]; rfl
    rw [← hcache]; exact h₂.others
  · show (s3.updated sb i).cache = _
    rw [St.updated_cache, hin3, ht3, upd_same, ← hs3]
    rfl
  · show s3.disk = s2.disk
    rw [← hs3]; rfl
  · show s2.lh ⊆ (s3.updated sb i).lh
    intro b hb
    simp only [St.updated, St.write_lh]
    exact mem_absorb.mpr (Or.inl (by rw [← hs3]; exact hb))
  · show sb.iblock m ∈ (s3.updated sb i).lh
    simp only [St.updated, St.write_lh]
    exact mem_absorb.mpr (Or.inr (by rw [hin3]))
  · have ht4 : (s3.updated sb i).itable = s3.itable := rfl
    simp only [St.node_itable, ht4, ht3, upd_same, upd_upd]
  · show (s.itable i).ref - 1 = 0
    omega
  · obtain ⟨a1, a2, a3⟩ := e4.tables
    exact ⟨a1.trans (e3.1.trans (h₂.ext.outstanding.trans e1.1)), a2.trans (e3.2.1.trans (h₂.ext.ftable.trans e1.2.1)),
      a3.trans (e3.2.2.trans (h₂.ext.proc.trans e1.2.2))⟩

theorem Last.kept (h : Last sb v H own s' i) (hk : Keeps K s s') (hi : i < NINODE) (hK : K i) :
    Last sb v H own s i := by
  obtain ⟨h1, h2, h3⟩ := h
  rw [hk.inum i hi hK] at h2 h3
  exact ⟨h1, h2, h3⟩

theorem iunlockput_still (h : Held sb v H (i :: own) (i :: locks) s) (hi : i < NINODE) (hl : i ∉ locks)
    (hn : ¬ Last sb v H own s i) :
    wp (iunlockput sb i) (fun _ s' => Held sb v H own locks s' ∧ Still (Kept H own) s s') E s := by
  have hk : Kept H (i :: own) i := Or.inr List.mem_cons_self
  simp only [iunlockput, wp_bind]
  refine (iunlock_spec h hi hk hl).imp fun _ s1 h₁ => ?_
  refine (iput_still h₁.1 hi fun h1 => hn (h1.kept h₁.2.toKeeps hi hk)).imp fun _ s' h' => ⟨h'.1, ?_⟩
  exact (h₁.2.mono fun _ hk => hk.cons i).trans h'.2

theorem iunlockput_last (h : Held sb v H (i :: own) (i :: locks) s) (hop : Opened s i m) (ho : s.outstanding = 1)
    (hl : i ∉ locks) (hlast : Last sb v H own s i) :
    wp (iunlockput sb i) (fun _ s' => Held sb (upd v m (v m).freed) H own locks s' ∧
      Moved sb (Kept H own) [m] v s (upd v m (v m).freed) s') Stops s := by
  have hk : Kept H (i :: own) i := Or.inr List.mem_cons_self
  simp only [iunlockput, wp_bind]
  refine (iunlock_spec h hop.lt hk hl).imp fun _ s1 h₁ => ?_
  obtain ⟨held1, hst⟩ := h₁
  have hin := hst.inum i hop.lt hk
  have hlast1 : Last sb v H own s1 i := ⟨hlast.gone, by rw [hin]; exact hlast.live, by rw [hin]; exact hlast.nlink⟩
  refine (iput_last held1 (hop.kept hst.toKeeps hk (held1.ref_pos hop.lt hk)) (hst.outstanding.trans ho) hl hlast1).imp
    fun _ s' h' => ⟨h'.1, ?_⟩
  exact (hst.mono fun _ hk => hk.cons i).moved.trans h'.2

end Xv6.Fs
