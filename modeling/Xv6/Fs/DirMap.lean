/-
  Xv6.Fs.DirMap — a directory as a finite map from names to inode numbers.

  The entries of a directory are slots of 16 bytes; one with a nonzero inode number binds its
  name, the bytes before the first NUL or all DIRSIZ of them (`dirMap`). `dirOp` is one operation
  on the directory of a table entry: a `dirlookup` whose reference is dropped, a `dirlink`, or a
  `dirlookup` and the zeroing of the entry it finds, which is how `sys_unlink` removes a name.

  Proved: `directory_refines_map`, that every run of such operations does to the map what its
  steps say, for names of any length and any inode numbers, and keeps the names distinct.
-/
import Xv6.Fs.Tree

namespace Xv6.Fs

variable {sb : Superblock} {v : Nat → Dinode} {i j m off : Nat} {name : Name} {s s1 s' : St} {d d' : Dinode}
  {c c' : Disk}

def dirOff (d : Dinode) (c : Disk) (name : Name) : Option Nat :=
  (Slots.slotOf (d.size / 16) (slot d c) name).map (16 * ·)

structure IsDir (d : Dinode) (c : Disk) : Prop where
  dir : d.type = T_DIR
  whole : d.size % 16 = 0
  distinct : Slots.Distinct (d.size / 16) (slot d c)

/-! ## Operations that leave the directory alone -/

/-- Nothing but table entries that nobody refers to has changed. -/
structure Quiet (s s' : St) : Prop where
  cache : s'.cache = s.cache
  disk : s'.disk = s.disk
  lh : s'.lh = s.lh
  outstanding : s'.outstanding = s.outstanding
  entry : ∀ j, s'.itable j = s.itable j ∨ (s.itable j).ref = 0 ∧ (s'.itable j).ref = 0

namespace Quiet

theorem of_reads (h : Reads s s') : Quiet s s' :=
  ⟨h.cache, by rw [h.eq], by rw [h.eq], h.outstanding, fun j => Or.inl (by rw [h.itable])⟩

theorem trans (h : Quiet s s1) (h' : Quiet s1 s') : Quiet s s' := by
  refine ⟨h'.cache.trans h.cache, h'.disk.trans h.disk, h'.lh.trans h.lh, h'.outstanding.trans h.outstanding,
    fun j => ?_⟩
  rcases h.entry j with h1 | ⟨h1, h2⟩ <;> rcases h'.entry j with h3 | ⟨h3, h4⟩
  · exact Or.inl (h3.trans h1)
  · exact Or.inr ⟨h1 ▸ h3, h4⟩
  · exact Or.inr ⟨h1, h3 ▸ h2⟩
  · exact Or.inr ⟨h1, h4⟩

theorem ref (h : Quiet s s') (j : Nat) : (s'.itable j).ref = (s.itable j).ref := by
  rcases h.entry j with h1 | ⟨h1, h2⟩
  · rw [h1]
  · rw [h1, h2]

theorem same (h : Quiet s s') (hr : 0 < (s.itable j).ref) : s'.itable j = s.itable j :=
  (h.entry j).resolve_right fun h1 => by omega

theorem core (h : Quiet s s') (hc : Core sb v 0 s) : Core sb v 0 s' := by
  have hent : ∀ j, 0 < (s'.itable j).ref → 0 < (s.itable j).ref ∧ s'.itable j = s.itable j := fun j hr => by
    rw [h.ref j] at hr
    exact ⟨hr, h.same hr⟩
  refine ⟨h.cache ▸ hc.fs, h.cache ▸ hc.agree, fun j hj hr => ?_, fun a b ha hb h1 h2 h3 => ?_, fun b => ?_⟩
  · obtain ⟨hr', e⟩ := hent j hr
    rw [e]
    exact hc.table j hj hr'
  · obtain ⟨ha', ea⟩ := hent a h1
    obtain ⟨hb', eb⟩ := hent b h2
    rw [ea, eb] at h3
    exact hc.unique a b ha hb ha' hb' h3
  · rw [h.cache, h.disk, h.lh]
    exact hc.clean b

theorem opened (h : Quiet s s') (hi : Opened s i m) : Opened s' i m := by
  have e := h.same hi.ref
  exact ⟨hi.lt, by rw [e]; exact hi.ref, by rw [e]; exact hi.valid, by rw [e]; exact hi.inum⟩

end Quiet

def TableFull (s : St) : Prop := ∀ j, j < NINODE → (s.itable j).ref ≠ 0

/-- A reference to inode `n`, taken just before: dropping it frees nothing. -/
structure Fresh (sb : Superblock) (s : St) (n j : Nat) (s1 : St) : Prop where
  inum : (s1.itable j).inum = n
  put : ∀ {Q : Unit → St → Prop} {E : Panic → St → Prop}, (∀ s', Quiet s s' → Q () s') → wp (iput sb j) Q E s1

theorem iget_fresh (dev n : Nat) : wp (iget dev n) (Fresh sb s n) (fun e _ => e = .noInodes ∧ TableFull s) s := by
  have hput : ∀ {j : Nat} {ip : Inode}, ip.inum = n →
      (0 < (s.itable j).ref ∧ ip = { s.itable j with ref := (s.itable j).ref + 1 } ∨ (s.itable j).ref = 0 ∧ ip.ref = 1 ∧
      ip.valid = false) → Fresh sb s n j (s.node j ip) := fun {j ip} hin hip => by
    refine ⟨by rw [St.node_itable, upd_same]; exact hin, fun {Q E} hQ => ?_⟩
    simp only [iput, wp_bind, wp_get, wp_emit, St.node_itable, upd_same]
    rw [if_neg]
    · rw [wp_setInode]
      refine hQ _ ⟨rfl, rfl, rfl, rfl, fun k => ?_⟩
      simp only [St.node_itable, St.ev_itable, upd_same, upd_upd]
      by_cases e : k = j
      · subst e
        rw [upd_same]
        rcases hip with ⟨-, rfl⟩ | ⟨h1, h2, -⟩
        · exact Or.inl rfl
        · exact Or.inr ⟨h1, by rw [h2]⟩
      · rw [upd_ne e]
        exact Or.inl rfl
    · rintro ⟨h1, h2, -⟩
      rcases hip with ⟨h3, rfl⟩ | ⟨-, -, h3⟩
      · simp only at h1
        omega
      · rw [h3] at h2
        cases h2
  simp only [iget, wp_bind, wp_get]
  cases hf : (List.range NINODE).find? fun i =>
      decide (0 < (s.itable i).ref ∧ (s.itable i).dev = dev ∧ (s.itable i).inum = n) with
  | some j =>
    have hp := List.find?_some hf
    rw [decide_eq_true_eq] at hp
    simp only [wp_bind, wp_setInode, wp_pure]
    exact hput hp.2.2 (Or.inl ⟨hp.1, rfl⟩)
  | none =>
    cases hg : (List.range NINODE).find? fun i => decide ((s.itable i).ref = 0) with
    | none =>
      refine ⟨rfl, fun k hk => ?_⟩
      simpa using List.find?_eq_none.mp hg k (List.mem_range.mpr hk)
    | some j =>
      simp only [wp_bind, wp_setInode, wp_pure]
      exact hput rfl (Or.inr ⟨by simpa using List.find?_some hg, rfl, rfl⟩)

theorem Fresh.after {n : Nat} (h : Fresh sb s1 n j s') (hq : Quiet s s1) : Fresh sb s n j s' :=
  ⟨h.inum, fun hQ => h.put fun t ht => hQ t (hq.trans ht)⟩

/-! ## `dirlookup` -/

theorem dirlookup_slots (h : Core sb v 0 s) (hi : Opened s i m) (hd : IsDir (v m) s.cache) (name : Name) :
    wp (dirlookup sb i name)
      (fun r s' => match r with
        | none => Slots.slotOf ((v m).size / 16) (slot (v m) s.cache) name.key = none ∧ Quiet s s'
        | some (j, off) => ∃ k, Slots.slotOf ((v m).size / 16) (slot (v m) s.cache) name.key = some k ∧ off = 16 * k ∧
          Fresh sb s (direntAt (v m) s.cache (16 * k)) j s')
      (fun e _ => e = .noInodes ∧ TableFull s) s := by
  refine dirlookup_rule h hi (absurd hd.dir) (absurd hd.whole) (fun s' hr _ _ h0 => ?_) fun k s' hr _ hk => ?_
  · exact ⟨Slots.slotMap_none.mp h0, .of_reads hr⟩
  · refine (iget_fresh _ _).mono (fun j s1 hj => ⟨k, hk, rfl, hj.after (.of_reads hr)⟩) fun e s1 he =>
      ⟨he.1, fun j hj => ?_⟩
    rw [← hr.itable]
    exact he.2 j hj

/-! ## `dirlink` -/

/-- A name can be added: there is a free entry, or room behind the last. -/
def Extendable (sb : Superblock) (d : Dinode) (c : Disk) : Prop :=
  (freeSlot d c).isSome ∨ d.size + 16 ≤ MAXFILE * BSIZE ∧ HasFree sb c (needed d c (d.size / BSIZE))

structure DirAfter (sb : Superblock) (i m : Nat) (s : St) (v' : Nat → Dinode) (s' : St) : Prop where
  core : Core sb v' 0 s'
  opened : Opened s' i m
  dir : IsDir (v' m) s'.cache
  refs : ∀ j, (s'.itable j).ref = (s.itable j).ref
  outstanding : s'.outstanding = s.outstanding

theorem DirAfter.of_quiet (h : Core sb v 0 s) (hi : Opened s i m) (hd : IsDir (v m) s.cache) (hq : Quiet s s') :
    DirAfter sb i m s v s' :=
  ⟨hq.core h, hq.opened hi, hq.cache ▸ hd, hq.ref, hq.outstanding⟩

theorem DirAfter.of_put {k : Nat} {de : Nat → UInt8} {r : Int} (hp : SlotPut sb v i m k de s1 r d s')
    (hi : Opened s1 i m) (hq : Quiet s s1) (hty : (v m).type = T_DIR) (hd : d.type = T_DIR → IsDir d s'.cache) :
    DirAfter sb i m s (upd v m d) s' := by
  refine ⟨hp.core, hi.copied hp.itable, ?_, fun j => ?_, hp.tables.1.trans hq.outstanding⟩
  · rw [upd_same]
    refine hd ?_
    rw [hp.fields]
    exact hty
  · rw [← hq.ref j, copied_entry hp.itable j]

theorem dirlink_slots {inum : Nat} (h : Core sb v 0 s) (hi : Opened s i m) (hd : IsDir (v m) s.cache)
    (ho : s.outstanding = 1) (hin : 1 ≤ inum ∧ inum ≤ 65535) :
    wp (dirlink sb i name inum)
      (fun r s' => ∃ v', DirAfter sb i m s v' s' ∧
        (r = -1 ∨ r = 0) ∧ (r = -1 ↔ dirMap (v m) s.cache name.key ≠ none ∨ ¬ Extendable sb (v m) s.cache) ∧
        (r = -1 → dirMap (v' m) s'.cache = dirMap (v m) s.cache) ∧
        (r = 0 → dirMap (v' m) s'.cache = Function.update (dirMap (v m) s.cache) name.key (some inum) ∧
          ((freeSlot (v m) s.cache).isSome → (v' m).size = (v m).size)))
      (fun e s' => e = .noInodes ∧ TableFull s ∨ ∃ s1, s1.lh = s.lh ∧ TooBig sb 4 s1 e s') s := by
  have hw := hd.whole
  simp only [dirlink, wp_bind]
  refine (dirlookup_slots h hi hd name).mono (fun r s1 h₁ => ?_) fun e s' he => Or.inl he
  rcases r with - | ⟨ip, off⟩
  swap
  · obtain ⟨k, hk, -, hf⟩ := h₁
    -- the name is there
    have hne : dirMap (v m) s.cache name.key ≠ none := fun h0 => by
      rw [dirMap, Slots.slotMap_none, hk] at h0
      cases h0
    rw [wp_bind]
    refine hf.put fun s' hq => ?_
    rw [wp_pure]
    exact ⟨v, .of_quiet h hi hd hq, Or.inl rfl, ⟨fun _ => Or.inl hne, fun _ => rfl⟩, fun _ => by rw [hq.cache], by simp⟩
  · obtain ⟨hno, hq⟩ := h₁
    have hnone : dirMap (v m) s.cache name.key = none := Slots.slotMap_none.mpr hno
    have hc1 := hq.core h
    have hi1 := hq.opened hi
    simp only [wp_bind, wp_get, hc1.copy_eq hi1]
    refine (emptyEntry_spec hc1 hi1 hw).mono (fun off s2 h₂ => ?_) fun _ _ he => he.elim
    obtain ⟨hread, k, hoff, hnew⟩ := h₂
    have hq2 : Quiet s s2 := hq.trans (.of_reads hread)
    rw [hq.cache] at hnew
    have hk := hnew.le
    have hlive := h.live hi
    have hext := hnew.room sb (f := id) rfl hw (h.fs.full m hlive) (h.fs.size_le m hlive)
    rw [id, id, ← Extendable] at hext
    subst hoff
    refine (writeSlot_spec (hq2.core h) (hq2.opened hi) (hq2.outstanding.trans ho) hk).mono (fun r s' => ?_)
      fun e s' he => Or.inr ⟨s2, hq2.lh, he⟩
    rintro ⟨d, hp⟩
    have hiff := hp.iff
    have hrest := hp.rest
    rw [hq2.cache, hext] at hiff
    rw [hq2.cache] at hrest
    have hafter : (d.type = T_DIR → IsDir d s'.cache) → DirAfter sb i m s (upd v m d) s' := fun hd' =>
      .of_put hp (hq2.opened hi) hq2 hd.dir hd'
    have hsize := hp.size
    refine wp_ite (fun hr => ?_) fun hr => ?_
    · -- no room
      have hr : r ≠ 16 := hr
      rw [if_neg hr] at hsize
      have hsame : ∀ j, j < (v m).size / 16 → slot d s'.cache j = slot (v m) s.cache j := fun j hj =>
        (hrest j hj).resolve_left fun h1 => hr h1.1
      refine ⟨upd v m d, hafter fun hty => ⟨hty, by rw [hsize]; exact hw, by rw [hsize]; exact hd.distinct.congr hsame⟩,
        Or.inl rfl, ⟨fun _ => Or.inr (mt hiff.mpr hr), fun _ => rfl⟩, fun _ => funext fun nm => ?_, by simp⟩
      rw [upd_same, dirMap, hsize]
      exact (Slots.slotMap_congr hsame nm).1
    · have hr : r = 16 := not_not.mp hr
      rw [if_pos hr] at hsize
      have hde : deInum (dirent inum name) = inum := by
        rw [deInum, dirent, le16_put_same, Nat.mod_eq_of_lt (by omega)]
      have hhere := hp.here hr
      rw [hde, if_neg (by omega), deName_dirent] at hhere
      have hslots : ∀ j, j < d.size / 16 ↔ j < (v m).size / 16 ∨ j = k := fun j => by
        rw [hsize]
        omega
      obtain ⟨hdist, hmap⟩ := hd.distinct.put hnone hslots hnew.free hhere fun j hj hne => (hrest j hj).resolve_left
        fun h1 => hne h1.2
      refine ⟨upd v m d, hafter fun hty => ⟨hty, by rw [hsize]; omega, hdist⟩, Or.inr rfl,
        ⟨by simp, fun h1 => absurd (hiff.mp hr) (h1.resolve_left (not_not.mpr hnone))⟩, by
        simp, fun _ => ⟨?_, fun hfs => ?_⟩⟩
      · rw [upd_same]; exact hmap
      · rw [upd_same, hsize]
        have := hnew.iff.mp hfs
        omega

/-! ## Runs -/

inductive DirOp where
  | lookup (name : Name)
  | link (name : Name) (inum : Nat)
  | unlink (name : Name)

inductive Ans where
  | found (inum off : Nat)
  | missing
  | done
  | refused
  deriving DecidableEq

def dirOp (sb : Superblock) (i : Nat) : DirOp → M Ans
  | .lookup name => do
    beginOp
    match ← dirlookup sb i name with
    | none => do
      endOp
      return .missing
    | some (ip, off) => do
      let inum := ((← get).itable ip).inum
      iput sb ip
      endOp
      return .found inum off
  | .link name inum => do
    beginOp
    let r ← dirlink sb i name inum
    endOp
    return if r < 0 then .refused else .done
  | .unlink name => do
    beginOp
    match ← dirlookup sb i name with
    | none => do
      endOp
      return .missing
    | some (ip, off) => do
      iput sb ip
      let r ← writei sb i (kernelSrc fun _ => 0) off 16
      if r ≠ 16 then throw .unlinkWritei
      else do
        endOp
        return .done

structure Ready (sb : Superblock) (v : Nat → Dinode) (i m : Nat) (s : St) : Prop where
  core : Core sb v 0 s
  opened : Opened s i m
  dir : IsDir (v m) s.cache
  idle : s.outstanding = 0
  empty : s.lh = []

/-- The log takes the blocks of one entry: its data block, an indirect block, the inode's block and those of the free
    map. -/
def LogFits (sb : Superblock) : Prop := sb.size / BPB + 1 + 4 < min LOGSIZE (sb.nlog - 1)

/-- What an operation does to the directory `d` on disk `c`, as a map. -/
def OpDoes (sb : Superblock) (d : Dinode) (c : Disk) (d' : Dinode) (c' : Disk) : DirOp → Ans → Prop
  | .lookup name, a =>
    (∀ x off, a = .found x off ↔ dirMap d c name.key = some x ∧ dirOff d c name.key = some off) ∧
      (a = .missing ↔ dirMap d c name.key = none) ∧ dirMap d' c' = dirMap d c
  | .link name inum, a =>
    (a = .refused ∨ a = .done) ∧ (a = .refused ↔ dirMap d c name.key ≠ none ∨ ¬ Extendable sb d c) ∧
      (a = .refused → dirMap d' c' = dirMap d c) ∧
      (a = .done → dirMap d' c' = Function.update (dirMap d c) name.key (some inum) ∧
        ((freeSlot d c).isSome → d'.size = d.size))
  | .unlink name, _ => dirMap d' c' = Function.update (dirMap d c) name.key none

def DirOp.Ok : DirOp → Prop
  | .link _ inum => 1 ≤ inum ∧ inum ≤ 65535
  | _ => True

theorem Ready.begun (h : Ready sb v i m s) : Core sb v 0 s.begun ∧ Opened s.begun i m ∧ IsDir (v m) s.begun.cache :=
  ⟨h.core.begun, ⟨h.opened.lt, h.opened.ref, h.opened.valid, h.opened.inum⟩, h.dir⟩

/-- `end_op` after an operation. -/
theorem DirAfter.ended {v' : Nat → Dinode} (h : DirAfter sb i m s v' s') : Ready sb v' i m s'.ended :=
  ⟨h.core.ended, ⟨h.opened.lt, h.opened.ref, h.opened.valid, h.opened.inum⟩, h.dir, rfl, rfl⟩

/-- Where an operation stops: the inode table is full, or the log is too small for any. -/
def DirStops (sb : Superblock) (s : St) (e : Panic) : Prop := e = .noInodes ∧ TableFull s ∨ e = .tooBig ∧ ¬ LogFits sb

theorem dirStops_tooBig {e : Panic} (hl : s1.lh = []) (h : TooBig sb 4 s1 e s') : DirStops sb s e := by
  refine Or.inr ⟨h.eq, fun hfits => Room.not_tooBig ⟨?_, ?_⟩ h⟩
  · rw [hl]; exact List.nodup_nil
  · rw [hl]
    show 0 + (sb.size / BPB + 1) + 4 < _
    rw [Nat.zero_add]
    exact hfits

structure OpDone (sb : Superblock) (v : Nat → Dinode) (i m : Nat) (s : St) (op : DirOp) (a : Ans)
    (v' : Nat → Dinode) (s' : St) : Prop where
  ready : Ready sb v' i m s'
  refs : ∀ j, (s'.itable j).ref = (s.itable j).ref
  does : OpDoes sb (v m) s.cache (v' m) s'.cache op a

theorem lookup_spec (h : Ready sb v i m s) (name : Name) :
    wp (dirOp sb i (.lookup name)) (fun a s' => ∃ v', OpDone sb v i m s (.lookup name) a v' s')
    (fun e _ => DirStops sb s e) s := by
  obtain ⟨hc, hi, hd⟩ := h.begun
  simp only [dirOp, wp_bind]
  rw [wp_beginOp h.idle h.empty]
  refine (dirlookup_slots hc hi hd name).mono (fun r s1 h₁ => ?_) fun e s' he => Or.inl he
  match r, h₁ with
  | none, ⟨hno, hq⟩ =>
    have hnone : dirMap (v m) s.cache name.key = none := Slots.slotMap_none.mpr hno
    rw [wp_bind, wp_endOp hq.outstanding, wp_pure]
    refine ⟨v, (DirAfter.of_quiet hc hi hd hq).ended, hq.ref, fun x off => ⟨nofun, fun h1 => ?_⟩,
      ⟨fun _ => hnone, fun _ => rfl⟩, ?_⟩
    · rw [hnone] at h1
      cases h1.1
    · show dirMap (v m) s1.cache = _
      rw [hq.cache]
      rfl
  | some (ip, off), ⟨k, hk, hoff, hf⟩ =>
    obtain ⟨hmap, -, -⟩ := slotOf_facts hk
    simp only [wp_bind, wp_get]
    refine hf.put fun s' hq => ?_
    rw [wp_endOp hq.outstanding, wp_pure, hf.inum, hoff]
    refine ⟨v, (DirAfter.of_quiet hc hi hd hq).ended, hq.ref, fun x o => ?_, ⟨nofun, fun h1 => ?_⟩, ?_⟩
    · have hmap : dirMap (v m) s.cache name.key = some (direntAt (v m) s.begun.cache (16 * k)) := hmap
      have hdoff : dirOff (v m) s.cache name.key = some (16 * k) := congrArg (Option.map (16 * ·)) hk
      rw [hmap, hdoff]
      simp [eq_comm]
    · have hmap : dirMap (v m) s.cache name.key = _ := hmap
      rw [hmap] at h1
      cases h1
    · show dirMap (v m) s'.cache = _
      rw [hq.cache]
      rfl

theorem link_spec {inum : Nat} (h : Ready sb v i m s) (name : Name) (hin : 1 ≤ inum ∧ inum ≤ 65535) :
    wp (dirOp sb i (.link name inum)) (fun a s' => ∃ v', OpDone sb v i m s (.link name inum) a v' s')
    (fun e _ => DirStops sb s e) s := by
  obtain ⟨hc, hi, hd⟩ := h.begun
  simp only [dirOp, wp_bind]
  rw [wp_beginOp h.idle h.empty]
  refine (dirlink_slots hc hi hd rfl hin).mono (fun r s' ⟨v', hafter, hr, hiff, hbad, hok⟩ => ?_) fun e s' he => ?_
  · rw [wp_endOp hafter.outstanding, wp_pure]
    refine ⟨v', hafter.ended, hafter.refs, ?_⟩
    rcases hr with rfl | rfl
    · rw [if_pos (by decide)]
      exact ⟨Or.inl rfl, ⟨fun _ => hiff.mp rfl, fun _ => rfl⟩, fun _ => hbad rfl, nofun⟩
    · rw [if_neg (by decide)]
      refine ⟨Or.inr rfl, ⟨nofun, fun h1 => ?_⟩, nofun, fun _ => hok rfl⟩
      exact absurd (hiff.mpr h1) (by decide)
  · rcases he with he | ⟨s1, hl, he⟩
    · exact Or.inl he
    · exact dirStops_tooBig (hl.trans h.empty) he

theorem unlink_spec (h : Ready sb v i m s) (name : Name) :
    wp (dirOp sb i (.unlink name)) (fun a s' => ∃ v', OpDone sb v i m s (.unlink name) a v' s')
    (fun e _ => DirStops sb s e) s := by
  obtain ⟨hc, hi, hd⟩ := h.begun
  simp only [dirOp, wp_bind]
  rw [wp_beginOp h.idle h.empty]
  refine (dirlookup_slots hc hi hd name).mono (fun r s1 h₁ => ?_) fun e s' he => Or.inl he
  match r, h₁ with
  | none, ⟨hno, hq⟩ =>
    have hnone : dirMap (v m) s.cache name.key = none := Slots.slotMap_none.mpr hno
    rw [wp_bind, wp_endOp hq.outstanding, wp_pure]
    refine ⟨v, (DirAfter.of_quiet hc hi hd hq).ended, hq.ref, ?_⟩
    show dirMap (v m) s1.cache = Function.update (dirMap (v m) s.cache) name.key none
    rw [← hnone, Function.update_eq_self, hq.cache]
    rfl
  | some (ip, off), ⟨k, hk, hoff, hf⟩ =>
    obtain ⟨-, hle, hslot⟩ := slotOf_facts hk
    subst hoff
    rw [wp_bind]
    refine hf.put fun s2 hq => ?_
    rw [wp_bind]
    refine (writeSlot_spec (hq.core hc) (hq.opened hi) hq.outstanding (by omega)).mono (fun r s' ⟨d, hp⟩ => ?_)
      fun e s' he => dirStops_tooBig (hq.lh.trans h.empty) he
    -- the entry has its block, so the write is done
    have hr : r = 16 := by
      have hlive := hc.live hi
      have hmax := hc.fs.size_le m hlive
      have hne : blockAt (v m) s2.cache (16 * k / BSIZE) ≠ 0 := by
        rw [hq.cache]
        exact hc.fs.full m hlive _ (by simp only [BSIZE]; omega)
      rw [hp.iff, needed, if_pos hne]
      exact ⟨by omega, hasFree_zero⟩
    rw [if_neg (not_not.mpr hr), wp_bind, wp_endOp (hp.tables.1.trans hq.outstanding), wp_pure]
    have hrest := hp.rest
    rw [hq.cache] at hrest
    have hsize := hp.size
    rw [if_pos hr, Nat.max_eq_left (by omega)] at hsize
    have hgone : slot d s'.cache k = none := (hp.here hr).trans (if_pos rfl)
    obtain ⟨hdist, hmap⟩ := hd.distinct.clear (by omega) hslot hgone
      fun j hj hne => (hrest j hj).resolve_left fun h1 => hne h1.2
    have hafter : DirAfter sb i m s.begun (upd v m d) s' :=
      .of_put hp (hq.opened hi) hq hd.dir fun hty => ⟨hty, by rw [hsize]; exact hd.whole, by rw [hsize]; exact hdist⟩
    refine ⟨upd v m d, hafter.ended, hafter.refs, ?_⟩
    show dirMap (upd v m d m) s'.cache = Function.update (dirMap (v m) s.cache) name.key none
    rw [upd_same, dirMap, hsize]
    exact hmap

theorem dirOp_spec (h : Ready sb v i m s) {op : DirOp} (hop : op.Ok) :
    wp (dirOp sb i op) (fun a s' => ∃ v', OpDone sb v i m s op a v' s') (fun e _ => DirStops sb s e) s := by
  cases op with
  | lookup name => exact lookup_spec h name
  | link name inum => exact link_spec h name hop
  | unlink name => exact unlink_spec h name

def dirOps (sb : Superblock) (i : Nat) : List DirOp → M (List Ans)
  | [] => return []
  | op :: ops => do
    let a ← dirOp sb i op
    let as ← dirOps sb i ops
    return a :: as

/-- Every operation of a run has done to the map what it should, from a directory to a directory. -/
inductive RunDoes (sb : Superblock) (i m : Nat) : (Nat → Dinode) → St → List DirOp → List Ans →
    (Nat → Dinode) → St → Prop
  | nil {v : Nat → Dinode} {s : St} (h : Ready sb v i m s) : RunDoes sb i m v s [] [] v s
  | cons {v v1 v' : Nat → Dinode} {s s1 s' : St} {op : DirOp} {a : Ans} {ops : List DirOp} {as : List Ans}
      (h : Ready sb v i m s)
      (hop : OpDoes sb (v m) s.cache (v1 m) s1.cache op a) (hrest : RunDoes sb i m v1 s1 ops as v' s') :
      RunDoes sb i m v s (op :: ops) (a :: as) v' s'

/-- Any run of operations does to the map what it should and keeps the names distinct; it stops only for an inode table
    that was full when it began or a log too small for an entry. -/
theorem directory_refines_map (ops : List DirOp) : ∀ {v : Nat → Dinode} {s : St}, Ready sb v i m s →
    (∀ op ∈ ops, op.Ok) →
    wp (dirOps sb i ops) (fun as s' => ∃ v', RunDoes sb i m v s ops as v' s' ∧ Ready sb v' i m s')
      (fun e _ => DirStops sb s e) s := by
  induction ops with
  | nil =>
    intro v s h _
    rw [dirOps, wp_pure]
    exact ⟨v, .nil h, h⟩
  | cons op ops ih =>
    intro v s h hops
    simp only [dirOps, wp_bind, wp_pure]
    refine (dirOp_spec h (hops op List.mem_cons_self)).imp fun a s1 ⟨v1, h₁⟩ => ?_
    refine (ih h₁.ready fun o ho => hops o (List.mem_cons_of_mem _ ho)).mono (fun as s' ⟨v', h', hr⟩ =>
      ⟨v', .cons h h₁.does h', hr⟩) fun e s' he => he.imp_left fun h1 => ⟨h1.1, fun j hj => ?_⟩
    rw [← h₁.refs j]
    exact h1.2 j hj

theorem Bare.ready {ms tbl : List Nat} {ftable : Nat → File} {ofile : Nat → Option Nat} (h : Bare sb ms (m :: tbl)) :
    Ready sb (bareView ms) 0 m (bare sb ms (m :: tbl) ftable ofile) where
  core := h.core
  opened := ⟨by decide, Nat.one_pos, rfl, rfl⟩
  dir := by
    rw [bareView, if_pos (h.sub m List.mem_cons_self)]
    exact ⟨rfl, rfl, fun _ _ hi => absurd hi (Nat.not_lt_zero _)⟩
  idle := rfl
  empty := rfl

/-- "a" is linked to inode 2 and found again in the first entry. -/
theorem directory_refines_map_a : ∃ s' v',
    dirOps freshSb 0 [.link [97] 2, .lookup [97]] (fresh (fun _ => noFile) fun _ => none) = .ok [.done, .found 2 0] s' ∧
      RunDoes freshSb 0 1 (bareView [1]) (fresh (fun _ => noFile) fun _ => none) [.link [97] 2, .lookup [97]]
        [.done, .found 2 0] v' s' := by
  have hops : ∀ op ∈ [DirOp.link [97] 2, .lookup [97]], op.Ok := by
    simp [DirOp.Ok]
  obtain ⟨as, s', hr, rfl⟩ := returns_of_run (m := dirOps freshSb 0 [.link [97] 2, .lookup [97]])
    (s := fresh (fun _ => noFile) fun _ => none) (Q := fun as _ => as = [.done, .found 2 0]) (by decide +kernel)
  obtain ⟨v', h1, -⟩ := wp_ok (directory_refines_map _ fresh_bare.ready hops) hr
  exact ⟨s', v', hr, h1⟩

def shortSb : Superblock := { freshSb with nlog := 2, log_le := by decide }

/-- The operations panic where the map has an answer: a `lookup` of a name just linked, when the inode table is full,
    and
    a `link` into an empty directory, when the log is too small for it. -/
theorem directory_operations_panic :
    (∃ v s s', Ready crowdedSb v 0 2 s ∧ LogFits crowdedSb ∧
      dirOps crowdedSb 0 [.link [97] 1, .lookup [97]] s = .error .noInodes s') ∧
    ∃ v s s', Ready shortSb v 0 1 s ∧ ¬ TableFull s ∧ dirOps shortSb 0 [.link [97] 2] s = .error .tooBig s' := by
  constructor
  · obtain ⟨e, s', hr, rfl⟩ := stops_of_run (m := dirOps crowdedSb 0 [.link [97] 1, .lookup [97]]) (s := crowded)
      (E := fun e _ => e = .noInodes) (by decide +kernel)
    exact ⟨_, crowded, s', crowded_bare.ready, by unfold LogFits; decide, hr⟩
  · have hb : Bare shortSb [1] [1] := ⟨fresh_bare.inum, fresh_bare.nodup, fresh_bare.sub, fresh_bare.bits⟩
    obtain ⟨e, s', hr, rfl⟩ := stops_of_run (m := dirOps shortSb 0 [.link [97] 2])
      (s := bare shortSb [1] [1] (fun _ => noFile) fun _ => none) (E := fun e _ => e = .tooBig) (by decide +kernel)
    exact ⟨_, _, s', hb.ready, fun hf => hf 1 (by decide) rfl, hr⟩

end Xv6.Fs
