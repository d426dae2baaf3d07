/-
  Xv6.Fs.Tree — the tree of files that the blocks of a disk show.

  `tree sb c m` is inode `m` of the disk `c` as a program sees it: its type, device numbers, link
  count and bytes, or nothing for a free inode. A directory's entries are its bytes. Where the
  blocks of a file are does not show.

  Proved: `failed_call_keeps_tree`, that `link`, `unlink`, `mkdir` and `mknod` leave the tree as it
  was when they return -1.
-/
import Xv6.Fs.Namespace
import Xv6.Fs.Writei

namespace Xv6.Fs

variable {sb : Superblock} {v v' : Nat → Dinode} {c c' : Disk} {m p : Nat} {s s' : St}

structure Node where
  type : Int
  major : Int
  minor : Int
  nlink : Int
  bytes : List UInt8
  deriving DecidableEq

def Superblock.tree (sb : Superblock) (c : Disk) (m : Nat) : Option Node :=
  let d := sb.ino c m
  if d.type = 0 then none
  else some ⟨d.type, d.major, d.minor, d.nlink, (List.range d.size).map (byteAt d c)⟩

theorem SameTree.tree (h : SameTree sb v c v' c') (hc : sb.ino c m = v m) (hc' : sb.ino c' m = v' m)
    (hm : sb.IsInum m) : sb.tree c' m = sb.tree c m := by
  obtain ⟨hfree, hlive⟩ := h m hm
  simp only [Superblock.tree, hc, hc']
  by_cases h0 : (v m).type = 0
  · rw [if_pos h0, if_pos (hfree.mpr h0)]
  · have hs := hlive ⟨hm, h0⟩
    have hbytes : (List.range (v m).size).map (byteAt (v' m) c') = (List.range (v m).size).map (byteAt (v m) c) :=
      List.map_congr_left fun o ho => hs.bytes o (List.mem_range.mp ho)
    rw [if_neg h0, if_neg (mt hfree.mp h0), hs.type, hs.major, hs.minor, hs.nlink, hs.size, hbytes]

/-- No call runs, and the file system is consistent: every block has one owner, the inode table
    agrees with the disk and counts the open files and current directories, and an inode without
    links that a walk can come to is in use. -/
def Consistent (sb : Superblock) (s : St) : Prop := ∃ v, Between sb v s ∧ Linked sb v (Kept (holders s) []) s

def Call.Names : Call → Prop
  | .link _ _ | .unlink _ | .mkdir _ | .mknod _ _ _ => True
  | _ => False

/-- Wherever `link`, `unlink`, `mkdir` or `mknod` fails, every inode is what it was, with its links and its bytes. -/
theorem failed_call_keeps_tree {c : Call} (h : Consistent sb s) (hc : c.Names) (hr : sys sb p c s = .ok (-1) s')
    (hm : sb.IsInum m) : sb.tree s'.cache m = sb.tree s.cache m := by
  obtain ⟨v, hb, hl⟩ := h
  have hdir : IsShort T_DIR := ⟨by decide, by decide⟩
  have hdev : IsShort T_DEVICE := ⟨by decide, by decide⟩
  have hzero : IsShort 0 := ⟨by decide, by decide⟩
  have hcall : wp (sys sb p c) (fun r s' => r < 0 → Failed sb v s s') Stops s := by
    cases c with
    | link old new => exact sysLink_spec hb hl old new
    | unlink path => exact sysUnlink_spec hb hl path
    | mkdir path => exact makeNode_spec hb hl hdir hzero hzero path
    | mknod path major minor => exact makeNode_spec hb hl hdev (short_isShort _) (short_isShort _) path
    | _ => exact hc.elim
  obtain ⟨v', hh, ht⟩ := wp_ok hcall hr (by decide)
  exact ht.tree (hb.held.agree hm) (hh.agree hm) hm

/-! ## File systems of empty directories -/

def emptyDir : Dinode := ⟨T_DIR, 0, 0, 1, 0, fun _ => 0⟩

/-- The inodes `ms` are empty directories, the others are free. -/
def bareView (ms : List Nat) : Nat → Dinode := fun m => if m ∈ ms then emptyDir else .zero

/-- The disk with these inodes: only its own blocks are in use. -/
def bareDisk (sb : Superblock) (ms : List Nat) : Disk :=
  ms.foldr (fun m c => upd c (sb.iblock m) (putDinode (c (sb.iblock m)) (m % IPB) emptyDir))
    fun b => if b = sb.bmapstart then fun k => UInt8.ofNat (2 ^ (sb.nmeta - 8 * k) - 1) else zeroBlock

/-- Entry `i` of the inode table holds the `i`-th inode of `tbl`; process 0 runs in the first. -/
def bare (sb : Superblock) (ms tbl : List Nat) (ftable : Nat → File) (ofile : Nat → Option Nat) : St where
  cache := bareDisk sb ms
  disk := bareDisk sb ms
  itable i := match tbl[i]? with
    | some m => ⟨ROOTDEV, m, 1, false, true, emptyDir⟩
    | none => ⟨0, 0, 0, false, false, .zero⟩
  ftable := ftable
  proc q := if q = 0 then ⟨.used, some 0, ofile⟩ else ⟨.unused, none, fun _ => none⟩
  outstanding := 0
  lh := []
  trace := []

/-- The table holds some of the directories, each once, and the free map marks the disk's own blocks. -/
structure Bare (sb : Superblock) (ms tbl : List Nat) : Prop where
  inum : ∀ m ∈ ms, sb.IsInum m
  nodup : tbl.Nodup
  sub : ∀ m ∈ tbl, m ∈ ms
  bits : ∀ b < sb.size, sb.bit (bareDisk sb []) b = decide (b < sb.nmeta)

theorem emptyDir_wf : emptyDir.Wf :=
  ⟨⟨by decide, by decide⟩, ⟨by decide, by decide⟩, ⟨by decide, by decide⟩, ⟨by decide, by decide⟩, by decide,
    fun _ => Nat.two_pow_pos 32, fun _ _ => rfl⟩

theorem zero_wf : Dinode.zero.Wf :=
  ⟨⟨by decide, by decide⟩, ⟨by decide, by decide⟩, ⟨by decide, by decide⟩, ⟨by decide, by decide⟩, by decide,
    fun _ => Nat.two_pow_pos 32, fun _ _ => rfl⟩

theorem getDinode_zero (k : Nat) : getDinode zeroBlock k = .zero := by
  have h16 : ∀ o, short (le16 zeroBlock o) = 0 := fun o => by
    rw [show le16 zeroBlock o = 0 by simp [le16, zeroBlock]]
    decide
  simp only [getDinode, Dinode.zero, le32_zero, ite_self, h16]

theorem bare_ino (ms : List Nat) (hm : sb.IsInum m) : sb.ino (bareDisk sb ms) m = bareView ms m := by
  induction ms with
  | nil =>
    have hlt := sb.iblock_lt hm.2
    rw [Superblock.ino, bareDisk, List.foldr_nil, if_neg (by omega), getDinode_zero]
    rfl
  | cons n ms ih =>
    rw [bareDisk, List.foldr_cons, ← bareDisk, ino_put emptyDir_wf, ih]
    by_cases e : m = n <;> simp [bareView, e]

theorem bare_live {ms : List Nat} (h : Live sb (bareView ms) m) : bareView ms m = emptyDir := by
  by_cases hin : m ∈ ms
  · exact if_pos hin
  · exact absurd (congrArg Dinode.type (if_neg hin)) h.2

theorem bare_own (ms : List Nat) (a : Nat × Pos) : own sb (bareView ms) c a = 0 := by
  obtain ⟨m, q⟩ := a
  by_cases hl : Live sb (bareView ms) m
  · rw [own_live hl, bare_live hl]
    cases q <;> rfl
  · exact own_dead hl q

theorem bare_bit {ms : List Nat} (h : ∀ m ∈ ms, sb.IsInum m) {b : Nat} (hb : b < sb.size) :
    sb.bit (bareDisk sb ms) b = sb.bit (bareDisk sb []) b := by
  induction ms with
  | nil => rfl
  | cons n ms ih =>
    have hlt := sb.iblock_lt (h n List.mem_cons_self).2
    rw [← ih fun m hm => h m (List.mem_cons_of_mem _ hm)]
    exact bit_upd (sb.not_bitmap_low hlt) _ hb

theorem bare_entry (sb : Superblock) (ms tbl : List Nat) (ftable : Nat → File) (ofile : Nat → Option Nat) (i : Nat) :
    (∃ m, tbl[i]? = some m ∧ (bare sb ms tbl ftable ofile).itable i = ⟨ROOTDEV, m, 1, false, true, emptyDir⟩) ∨
      tbl[i]? = none ∧ (bare sb ms tbl ftable ofile).itable i = ⟨0, 0, 0, false, false, .zero⟩ := by
  cases h : tbl[i]? with
  | some m => exact Or.inl ⟨m, rfl, by simp only [bare, h]⟩
  | none => exact Or.inr ⟨rfl, by simp only [bare, h]⟩

namespace Bare

variable {ms tbl : List Nat} {ftable : Nat → File} {ofile : Nat → Option Nat} {i : Nat}

theorem live (h : Bare sb ms tbl) (hm : m ∈ ms) : Live sb (bareView ms) m := by
  refine ⟨h.inum m hm, ?_⟩
  rw [bareView, if_pos hm]
  decide

theorem fs (h : Bare sb ms tbl) : FsOk sb (bareView ms) (bareDisk sb ms) where
  wf m _ := by
    unfold bareView
    split
    · exact emptyDir_wf
    · exact zero_wf
  owns := by
    refine ⟨fun {a _} ha _ => absurd (bare_own ms a) ha, fun x hx => ⟨?_, ?_⟩⟩
    · rintro ⟨h1, h2, h3⟩
      rw [bare_bit h.inum h2, h.bits x h2, decide_eq_true_eq] at h3
      omega
    · rintro ⟨a, ha⟩
      exact absurd (ha.symm.trans (bare_own ms a)) hx
  meta_ b hb := by
    have hlt : b < sb.size := Nat.lt_of_lt_of_le hb sb.bmap_le
    rw [bare_bit h.inum hlt, h.bits b hlt, decide_eq_true_eq]
    exact hb
  size_le m hm := by
    rw [bare_live hm]
    exact Nat.zero_le _
  full m hm k hk := by
    rw [bare_live hm] at hk
    exact absurd hk (Nat.not_lt_zero _)

/-- An entry that is referenced holds a directory of the table. -/
theorem held (hr : 0 < ((bare sb ms tbl ftable ofile).itable i).ref) :
    ∃ m, tbl[i]? = some m ∧ (bare sb ms tbl ftable ofile).itable i = ⟨ROOTDEV, m, 1, false, true, emptyDir⟩ := by
  refine (bare_entry sb ms tbl ftable ofile i).resolve_right fun hn => ?_
  rw [hn.2] at hr
  exact Nat.lt_irrefl 0 hr

theorem core (h : Bare sb ms tbl) : Core sb (bareView ms) 0 (bare sb ms tbl ftable ofile) where
  fs := h.fs
  agree m hm _ := bare_ino ms hm
  table i _ hr := by
    obtain ⟨m, hm, hi⟩ := held hr
    have hin := h.sub m (List.mem_of_getElem? hm)
    rw [hi]
    exact ⟨rfl, h.inum m hin, fun _ => ⟨(if_pos hin).symm, (h.live hin).2⟩⟩
  unique i j _ _ h1 h2 he := by
    obtain ⟨m, hm, hi⟩ := held h1
    obtain ⟨n, hn, hj⟩ := held h2
    rw [hi, hj] at he
    have he : m = n := he
    subst he
    exact (List.getElem?_inj (List.getElem?_eq_some_iff.mp hm).1 h.nodup).mp (hm.trans hn.symm)
  clean b := Or.inl rfl

theorem cwd {q : Nat} (hq : ((bare sb ms tbl ftable ofile).proc q).cwd = some i) : q = 0 ∧ i = 0 := by
  by_cases e : q = 0
  · subst e
    exact ⟨rfl, (Option.some.inj hq).symm⟩
  · simp [bare, e] at hq

theorem holders_eq (i : Nat) :
    holders (bare sb ms tbl ftable ofile) i = fileRefs ftable i + if i = 0 then 1 else 0 := by
  have hw : cwdRefs (bare sb ms tbl ftable ofile).proc i = if i = 0 then 1 else 0 := by
    rw [cwdRefs, Finset.sum_eq_single 0 (fun q _ hq => if_neg fun h => hq (cwd h).1)
      fun h => absurd (Finset.mem_range.mpr (by decide)) h]
    simp [bare, eq_comm]
  exact congrArg (fileRefs ftable i + ·) hw

/-- The files and the current directory refer to every entry of the table once. -/
theorem consistent (h : Bare sb ms tbl) (hc : ∀ f, (ftable f).ref = 0 → (ftable f).type = .none)
    (hb : ∀ f, NFILE ≤ f → (ftable f).ref = 0) (hip : ∀ f i, (ftable f).refers i = true → i < NINODE)
    (hw : ∀ f, (ftable f).type = .inode → (ftable f).writable = false)
    (hh : ∀ i < NINODE, fileRefs ftable i + (if i = 0 then 1 else 0) = if i < tbl.length then 1 else 0) :
    Consistent sb (bare sb ms tbl ftable ofile) := by
  have href : ∀ i < NINODE, ((bare sb ms tbl ftable ofile).itable i).ref = holders (bare sb ms tbl ftable ofile) i :=
    fun i hi => by
      rw [holders_eq, hh i hi]
      rcases bare_entry sb ms tbl ftable ofile i with ⟨m, hm, he⟩ | ⟨hn, he⟩
      · rw [he, if_pos (List.getElem?_eq_some_iff.mp hm).1]
      · rw [he, if_neg (Nat.not_lt.mpr (List.getElem?_eq_none_iff.mp hn))]
  refine ⟨bareView ms, ⟨⟨h.core, fun m hl off he => ?_, fun i hi => href i hi, fun i hi h0 => ?_, fun i _ => ?_⟩,
    ⟨hc, hb, hip, fun f hf hwr => ?_, fun q i hq => ?_, fun q hq => ?_⟩, rfl, rfl⟩, fun m hl _ h0 => ?_⟩
  · rw [bare_live hl] at he
    exact absurd he.le (by simp [emptyDir])
  · rw [← href i hi] at h0
    obtain ⟨m, hm, he⟩ := held h0
    rw [he]
    exact h.live (h.sub m (List.mem_of_getElem? hm))
  · rcases bare_entry sb ms tbl ftable ofile i with ⟨m, -, he⟩ | ⟨-, he⟩ <;> rw [he] <;> simp
  · exact absurd (hw f hf) (by rw [show (ftable f).writable = true from hwr]; decide)
  · obtain ⟨rfl, rfl⟩ := cwd hq
    exact ⟨by decide, by decide⟩
  · by_cases e : q = 0
    · exact absurd (by rw [e]; rfl) hq
    · simp [bare, e]
  · rw [bare_live hl] at h0
    exact absurd h0 (by decide)

/-- Nothing is open but pipes, and the table holds the current directory. -/
theorem consistent_idle {n : Nat} (h : Bare sb ms [n]) (hc : ∀ f, (ftable f).ref = 0 → (ftable f).type = .none)
    (hb : ∀ f, NFILE ≤ f → (ftable f).ref = 0) (hp : ∀ f, (ftable f).type = .none ∨ (ftable f).type = .pipe) :
    Consistent sb (bare sb ms [n] ftable ofile) := by
  have hno : ∀ f i, (ftable f).refers i = false := fun f i => by
    rcases hp f with h | h <;> simp [File.refers, h]
  refine h.consistent hc hb (fun f i hf => ?_) (fun f hf => ?_) fun i _ => ?_
  · rw [hno] at hf
    cases hf
  · rcases hp f with h | h <;> rw [h] at hf <;> cases hf
  · have h0 : fileRefs ftable i = 0 := Finset.sum_eq_zero fun f _ => by rw [hno, if_neg (by decide)]
    rw [h0, Nat.zero_add, List.length_singleton]
    exact if_congr Nat.lt_one_iff.symm rfl rfl

end Bare

/-- 22 blocks: the log from block 2 on, the inodes in block 18, the free map in block 19, two data
    blocks; two inodes. -/
def freshSb : Superblock where
  size := 22
  ninodes := 3
  nlog := 16
  logstart := 2
  inodestart := 18
  bmapstart := 19
  boot := Nat.one_lt_two
  log_le := tinySb.log_le
  inodes_le := by decide
  bmap_le := by decide
  size_lt := by decide
  ninodes_le := by decide
  root_lt := by decide

def fresh (ftable : Nat → File) (ofile : Nat → Option Nat) : St := bare freshSb [1] [1] ftable ofile

theorem fresh_bare : Bare freshSb [1] [1] where
  inum m hm := by
    obtain rfl := List.mem_singleton.mp hm
    exact ⟨by decide, by decide⟩
  nodup := List.nodup_singleton 1
  sub _ := id
  bits := by decide +kernel

theorem fresh_two : freshSb.IsInum 2 := ⟨by decide, by decide⟩

theorem fresh_free : freshSb.tree (bareDisk freshSb [1]) 2 = none := by
  rw [Superblock.tree, bare_ino [1] fresh_two]
  rfl

def noFile : File := ⟨.none, 0, false, false, 0, 0, 0⟩

def fullSb : Superblock := { freshSb with size := 20, bmap_le := by decide, size_lt := by decide }

/-- A `mkdir` of "a": its inode is taken, its entries find no block, and the inode is freed again. -/
theorem failed_call_keeps_tree_mkdir :
    ∃ s', sys fullSb 0 (.mkdir (some [97])) (bare fullSb [1] [1] (fun _ => noFile) fun _ => none) = .ok (-1) s' ∧
      .iupdate 2 ∈ s'.trace ∧ fullSb.tree s'.cache 2 = none := by
  have hb : Bare fullSb [1] [1] := ⟨fresh_bare.inum, fresh_bare.nodup, fresh_bare.sub, by decide +kernel⟩
  obtain ⟨r, s', hr, rfl, hev⟩ := returns_of_run (m := sys fullSb 0 (.mkdir (some [97])))
    (s := bare fullSb [1] [1] (fun _ => noFile) fun _ => none) (Q := fun r s' => r = -1 ∧ .iupdate 2 ∈ s'.trace)
    (by decide +kernel)
  have hcons : Consistent fullSb (bare fullSb [1] [1] (fun _ => noFile) fun _ => none) :=
    hb.consistent_idle (fun _ _ => rfl) (fun _ _ => rfl) fun _ => Or.inl rfl
  exact ⟨s', hr, hev, (failed_call_keeps_tree (c := .mkdir (some [97])) hcons True.intro hr fresh_two).trans fresh_free⟩

def crowdedSb : Superblock :=
  { freshSb with
    ninodes := 10
    bmapstart := 20
    inodes_le := by decide
    bmap_le := by decide
    ninodes_le := by decide
    root_lt := by decide }

/-- Process 0 runs in inode 2 and has the inodes 3 to 9 open: the table is full, without the root. -/
def crowded : St :=
  bare crowdedSb [1, 2, 3, 4, 5, 6, 7, 8, 9] [2, 3, 4, 5, 6, 7, 8, 9]
    (fun f => if f < 7 then ⟨.inode, 1, true, false, f + 1, 0, 0⟩ else noFile) fun fd =>
    if fd < 7 then some fd else none

theorem crowded_bare : Bare crowdedSb [1, 2, 3, 4, 5, 6, 7, 8, 9] [2, 3, 4, 5, 6, 7, 8, 9] where
  inum := by simp [Superblock.IsInum, crowdedSb]
  nodup := by decide
  sub := by decide
  bits := by decide +kernel

end Xv6.Fs
