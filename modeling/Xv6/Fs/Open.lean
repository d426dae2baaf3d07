/-
  Xv6.Fs.Open — `open` of kernel/sysfile.c.

  `open` finds or makes the inode (`openInode_spec`), then looks for a free `struct file` and a
  free descriptor (`openFile_spec`), and only then truncates. When it fails it gives the file
  back, so the tables are what they were; what `create` has done to the tree stays.

  Proved: `failed_open_modifies_nothing`, that a failed `open` has changed something exactly where
  `create` went so far that something stays (`Enters`); `a_failed_open_leaves_its_file` is a run.
-/
import Xv6.Fs.Tree

namespace Xv6.Fs

variable {sb : Superblock} {v v1 v' : Nat → Dinode} {ip p omode : Nat} {s s1 s' : St} {T : Prop}

/-! ## Whole inodes -/

/-- Inode `m` with all its fields, the block addresses among them, and its bytes; a free inode has neither. -/
def Superblock.whole (sb : Superblock) (c : Disk) (m : Nat) : Option (Dinode × List UInt8) :=
  let d := sb.ino c m
  if d.type = 0 then none else some (d, (List.range d.size).map (byteAt d c))

/-- No inode, file content, reference count, open file or descriptor differs. -/
structure Unchanged (sb : Superblock) (s s' : St) : Prop where
  inodes : ∀ m, sb.IsInum m → sb.whole s'.cache m = sb.whole s.cache m
  refs : ∀ i < NINODE, (s'.itable i).ref = (s.itable i).ref
  ftable : s'.ftable = s.ftable
  proc : s'.proc = s.proc

theorem SameFile.eq_of_addrs {d d' : Dinode} {c c' : Disk} (h : SameFile d c d' c') (ha : d'.addrs = d.addrs) :
    d' = d := by
  obtain ⟨⟨h1, h2, h3, h4, -⟩, h5⟩ := h
  cases d
  cases d'
  simp only at h1 h2 h3 h4 h5 ha
  rw [h1, h2, h3, h4, h5, ha]

/-- Whole inodes are the tree and where its blocks are. -/
theorem whole_iff {c c' : Disk} (hc : ∀ m, sb.IsInum m → sb.ino c m = v m)
    (hc' : ∀ m, sb.IsInum m → sb.ino c' m = v' m) :
    (∀ m, sb.IsInum m → sb.whole c' m = sb.whole c m) ↔ SameTree sb v c v' c' ∧ SameAddrs sb v v' := by
  constructor
  · intro h
    have hone : ∀ m, sb.IsInum m → ((v' m).type = 0 ↔ (v m).type = 0) ∧
        (Live sb v m → v' m = v m ∧ ∀ o < (v m).size, byteAt (v' m) c' o = byteAt (v m) c o) := fun m hm => by
      have h := h m hm
      simp only [Superblock.whole, hc m hm, hc' m hm] at h
      by_cases h0 : (v m).type = 0
      · rw [if_pos h0] at h
        exact ⟨iff_of_true (by_contra fun h1 => by rw [if_neg h1] at h; cases h) h0, fun hl => absurd h0 hl.2⟩
      · rw [if_neg h0] at h
        have h1 : (v' m).type ≠ 0 := fun h1 => by rw [if_pos h1] at h; cases h
        rw [if_neg h1, Option.some.injEq, Prod.mk.injEq] at h
        obtain ⟨hd, hbytes⟩ := h
        rw [hd] at hbytes ⊢
        exact ⟨Iff.rfl, fun _ => ⟨rfl, fun o ho => List.map_inj_left.mp hbytes o (List.mem_range.mpr ho)⟩⟩
    refine ⟨fun m hm => ⟨(hone m hm).1, fun hl => ?_⟩, fun m hl => by rw [((hone m hl.1).2 hl).1]⟩
    obtain ⟨hd, hbytes⟩ := (hone m hm).2 hl
    exact ⟨⟨by rw [hd], by rw [hd], by rw [hd], by rw [hd], hbytes⟩, by rw [hd]⟩
  · rintro ⟨ht, ha⟩ m hm
    obtain ⟨hfree, hlive⟩ := ht m hm
    simp only [Superblock.whole, hc m hm, hc' m hm]
    by_cases h0 : (v m).type = 0
    · rw [if_pos h0, if_pos (hfree.mpr h0)]
    · have hs := hlive ⟨hm, h0⟩
      have hbytes : (List.range (v m).size).map (byteAt (v' m) c') = (List.range (v m).size).map (byteAt (v m) c) :=
        List.map_congr_left fun o ho => hs.bytes o (List.mem_range.mp ho)
      rw [if_neg h0, if_neg (mt hfree.mp h0), hs.size, hbytes, hs.eq_of_addrs (ha m ⟨hm, h0⟩)]

/-! ## The inode -/

section
variable (hb : Between sb v s) (hlk : Linked sb v (Kept (holders s) []) s)
include hb

include hlk in
theorem openInode_spec (path : List UInt8) (omode : Nat) :
    wp (openInode sb p path omode) (fun r s' => ∃ v',
      Created sb v (holders s) T_FILE (has omode O_CREATE = true ∧ Enters sb s p path) s.begun r v' s') Stops
      s.begun := by
  simp only [openInode]
  refine wp_ite (fun hcr => ?_) fun hcr => ?_
  · have hfile : IsShort T_FILE := ⟨by decide, by decide⟩
    have hzero : IsShort 0 := ⟨by decide, by decide⟩
    refine (create_spec hb.held.begun rfl hlk (fun i hc => hb.cwd i hc) hfile hzero hzero path).imp fun r s1 h₁ => ?_
    have hT : Enters sb s.begun p path ↔ has omode O_CREATE = true ∧ Enters sb s p path := (and_iff_right hcr).symm
    obtain ⟨v1, h₁⟩ := h₁ (Or.inr rfl)
    rw [propext hT] at h₁
    exact ⟨v1, h₁⟩
  · have hT : ¬ (has omode O_CREATE = true ∧ Enters sb s p path) := fun h => hcr h.1
    rw [wp_bind]
    refine (namei_spec hb.held.begun hlk (fun i hc => hb.cwd i hc) path).imp fun r s1 h₁ => ?_
    obtain ⟨hst1, held1, hsafe1⟩ := h₁
    cases r with
    | none => exact ⟨v, .still hst1 held1 hT⟩
    | some ip =>
      obtain ⟨hlt, hsafe1⟩ := hsafe1 ip rfl
      have hk : Kept (holders s) [ip] ip := Or.inr (by simp)
      simp only [wp_bind, wp_get]
      refine (ilock_spec held1 hlt hk).imp fun _ s2 h₂ => ?_
      obtain ⟨held2, hop2, -, hst⟩ := h₂
      have hst2 : Still (Kept (holders s) []) s.begun s2 := hst1.trans (hst.mono fun _ => kept_nil)
      have hsafe2 : ¬ Last sb v (holders s) [] s2 ip := fun hl => hsafe1 (hl.kept hst.toKeeps hlt hk)
      refine wp_ite (fun _ => ?_) fun _ => ?_
      · simp only [wp_bind, wp_pure]
        exact (iunlockput_still held2 hlt (by simp) hsafe2).imp fun _ s3 h₃ => ⟨v, .still (hst2.trans h₃.2) h₃.1 hT⟩
      · refine ⟨v, hst2.toKeeps, held2, fun h0 => (by cases h0), fun h0 => (by cases h0), fun i hi => ?_⟩
        obtain rfl := Option.some.inj hi
        exact ⟨_, hop2, Or.inl ⟨hT, rfl, hst2.cache, hsafe2⟩⟩

end

/-! ## The file and the descriptor -/

/-- Without a descriptor `fileclose` gives the file back. -/
theorem openFile_spec (hf : ∀ f, (s.ftable f).ref = 0 → (s.ftable f).type = .none) {E : Panic → St → Prop} :
    wp (openFile sb p) (fun r s' => r = none → s' = s) E s := by
  simp only [openFile, filealloc, wp_bind, wp_get]
  cases hfa : (List.range NFILE).find? fun f => decide ((s.ftable f).ref = 0) with
  | none => exact fun _ => rfl
  | some f =>
    have h0 : (s.ftable f).ref = 0 := by simpa using List.find?_some hfa
    simp only [fdalloc, wp_bind, wp_setFile, wp_pure, wp_get, St.file_proc]
    cases hfd : (List.range NOFILE).find? fun fd => decide ((s.proc p).ofile fd = none) with
    | some fd =>
      simp only [setFd, wp_bind, wp_setProc, wp_pure]
      rw [if_neg (by omega)]
      exact fun h => by cases h
    | none =>
      have hx : ({ s.ftable f with ref := 0, type := .none } : File) = s.ftable f := by
        obtain ⟨hty, href⟩ := And.intro (hf f h0) h0
        cases hs : s.ftable f
        rw [hs] at hty href
        simp only at hty href
        rw [hty, href]
      have hback : ∀ x, (s.file f x).file f { s.ftable f with ref := 0, type := .none } = s := fun x => by
        rw [hx]
        simp only [St.file, upd_upd, upd_self]
      simp only [wp_pure, if_pos (show (-1 : Int) < 0 by decide), fileclose, wp_bind, wp_get, St.file_ftable, upd_same,
        if_neg (show ¬ 1 < 1 by decide), if_neg (show ¬ 0 < 1 - 1 by decide), wp_setFile, hf f h0]
      exact fun _ => hback _

/-! ## The call -/

/-- `open` has come back without a file, and something has changed exactly where `T` holds. -/
def NotOpened (sb : Superblock) (v : Nat → Dinode) (T : Prop) (s s' : St) : Prop :=
  ∃ v', Held sb v' (holders s) [] [] s' ∧ s'.ftable = s.ftable ∧ s'.proc = s.proc ∧
    (SameTree sb v s.cache v' s'.cache ∧ SameAddrs sb v v' ↔ ¬ T)

theorem openBad_spec (h : Created sb v (holders s) T_FILE T s.begun (some ip) v1 s1) :
    wp (openBad sb ip) (fun r s' => r < 0 → NotOpened sb v T s s') Stops s1 := by
  obtain ⟨n, hop, hfound⟩ := h.found ip rfl
  have held : Held sb v1 (holders s) [ip] [ip] s1 := h.held
  -- a new inode has a link
  have hsafe : ¬ Last sb v1 (holders s) [] s1 ip := by
    rcases hfound with ⟨-, rfl, -, hl⟩ | ⟨-, -, -, h1⟩
    · exact hl
    · intro hl
      rw [← hop.inum, hl.nlink] at h1
      cases h1
  simp only [openBad, wp_bind, wp_pure]
  refine (iunlockput_still held hop.lt (by simp) hsafe).imp fun _ s2 h₂ => ?_
  obtain ⟨held2, hst2⟩ := h₂
  have hkeep : Keeps (Kept (holders s) []) s.begun s2 := h.keeps.trans hst2.toKeeps
  rw [wp_endOp hkeep.outstanding]
  refine fun _ => ⟨v1, held2.ended, hkeep.ftable, hkeep.proc, ?_⟩
  show SameTree sb v s.cache v1 s2.cache ∧ _ ↔ _
  rw [hst2.cache]
  rcases hfound with ⟨hT, rfl, hc, -⟩ | ⟨hT, hn, h0, -⟩
  · rw [hc]
    exact iff_of_true ⟨.refl v1 _, fun _ _ => rfl⟩ hT
  · -- the new inode was free
    exact iff_of_false (fun hsame => (held.core.live hop).2 ((hsame.1 n hn).1.mpr h0)) (not_not.mpr hT)

theorem sysOpen_spec (hb : Between sb v s) (hlk : Linked sb v (Kept (holders s) []) s) (path : Option (List UInt8))
    (omode : Nat) : wp (sysOpen sb p path omode) (fun r s' => r < 0 →
      NotOpened sb v (has omode O_CREATE = true ∧ ∃ q, path = some q ∧ Enters sb s p q) s s') Stops s := by
  cases path with
  | none =>
    simp only [sysOpen, wp_pure]
    refine fun _ => ⟨v, hb.held, rfl, rfl, iff_of_true ⟨.refl v _, fun _ _ => rfl⟩ ?_⟩
    rintro ⟨-, q, hq, -⟩
    cases hq
  | some path =>
    simp only [Option.some.injEq, exists_eq_left']
    simp only [sysOpen, wp_bind, hb.wp_begin]
    refine (openInode_spec hb hlk path omode).imp fun r s1 => ?_
    rintro ⟨v1, h₁⟩
    cases r with
    | none =>
      simp only [wp_bind, wp_pure]
      rw [wp_endOp h₁.keeps.outstanding]
      exact fun _ => ⟨v1, h₁.held.ended, h₁.keeps.ftable, h₁.keeps.proc,
        (and_iff_right (h₁.failed rfl)).trans (h₁.addrs rfl rfl)⟩
    | some ip =>
      simp only [wp_bind, wp_get]
      refine wp_ite (fun _ => openBad_spec h₁) fun _ => ?_
      have hclosed : ∀ f, (s1.ftable f).ref = 0 → (s1.ftable f).type = .none := by
        rw [h₁.keeps.ftable]
        exact hb.files.closed
      rw [wp_bind]
      refine (openFile_spec hclosed).imp fun r s2 h₂ => ?_
      rcases r with - | ⟨f, fd⟩
      · rw [h₂ rfl]
        exact openBad_spec h₁
      · -- from here on `open` returns a descriptor
        have hfd : ∀ {A : Prop}, (fd : Int) < 0 → A := fun h0 => absurd h0 (by omega)
        exact wp_then fun _ _ => wp_ite (fun _ => wp_then fun _ _ => wp_then fun _ _ => wp_then fun _ _ => hfd)
          fun _ => wp_then fun _ _ => wp_then fun _ _ => hfd

/-! ## A failed `open` -/

/-- A failed `open` has changed nothing, unless it was to create a file and `create` found the parent without the name,
    a free inode, and a place or a block for the entry. -/
theorem failed_open_modifies_nothing {path : Option (List UInt8)} (h : Consistent sb s)
    (hr : sys sb p (.open path omode) s = .ok (-1) s') :
    Unchanged sb s s' ↔ ¬ (has omode O_CREATE = true ∧ ∃ q, path = some q ∧ Enters sb s p q) := by
  obtain ⟨v, hb, hl⟩ := h
  obtain ⟨v', hh, hft, hpr, hiff⟩ := wp_ok (sysOpen_spec hb hl path omode) hr (by decide)
  rw [← hiff, ← whole_iff (fun m hm => hb.held.agree hm) (fun m hm => hh.agree hm)]
  refine ⟨fun hu => hu.inodes, fun hw => ⟨hw, fun i hi => ?_, hft, hpr⟩⟩
  rw [hh.refs i hi, hb.held.refs i hi]

def fullFds : St := fresh (fun f => if f = 0 then ⟨.pipe, NOFILE, true, true, 0, 0, 0⟩ else noFile) fun fd =>
  if fd < NOFILE then some 0 else none

theorem fullFds_consistent : Consistent freshSb fullFds := by
  refine fresh_bare.consistent_idle (fun f hf => ?_) (fun f hf => ?_) fun f => ?_
  · by_cases e : f = 0
    · rw [if_pos e] at hf; cases hf
    · rw [if_neg e]; rfl
  · rw [if_neg (by intro e; rw [e] at hf; exact absurd hf (by decide))]; rfl
  · by_cases e : f = 0
    · rw [if_pos e]; exact Or.inr rfl
    · rw [if_neg e]; exact Or.inl rfl

/-- An `open` of "/" that finds no descriptor. -/
theorem failed_open_modifies_nothing_root :
    ∃ s', sys freshSb 0 (.open (some [0x2F]) O_RDONLY) fullFds = .ok (-1) s' ∧ Unchanged freshSb fullFds s' := by
  obtain ⟨r, s', hr, rfl⟩ := returns_of_run (m := sys freshSb 0 (.open (some [0x2F]) O_RDONLY))
    (s := fullFds) (Q := fun r _ => r = -1) (by decide +kernel)
  exact ⟨s', hr, (failed_open_modifies_nothing fullFds_consistent hr).mpr fun h => absurd h.1 (by decide)⟩

theorem a_failed_open_leaves_its_file :
    ¬ ∀ (sb : Superblock) (s s' : St) (p : Nat) (path : Option (List UInt8)) (omode : Nat), Consistent sb s →
      sys sb p (.open path omode) s = .ok (-1) s' → ∀ m, sb.IsInum m → sb.tree s'.cache m = sb.tree s.cache m := by
  intro h
  obtain ⟨r, s', hr, rfl, h2⟩ := returns_of_run (m := sys freshSb 0 (.open (some [97]) (O_CREATE ||| O_RDWR)))
    (s := fullFds) (Q := fun r s' => r = -1 ∧ freshSb.tree s'.cache 2 ≠ none) (by decide +kernel)
  exact h2 ((h freshSb fullFds s' 0 _ _ fullFds_consistent hr 2 fresh_two).trans fresh_free)

end Xv6.Fs
