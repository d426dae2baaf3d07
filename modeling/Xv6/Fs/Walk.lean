/-
  Xv6.Fs.Walk — `dirlookup` and `namex` over the inode table.

  `walk` is what `namex` computes, read off the directories as maps: the inode that a path leads
  to, or the one before it and the last name.

  Proved: `dirlookup_spec` and `namex_spec`. Where every inode a walk can come to has a link or is
  kept, `namex` changes nothing and ends with one reference more, to the inode of `walk`, or with
  none.
-/
import Xv6.Fs.Held

namespace Xv6.Fs

variable {sb : Superblock} {v : Nat → Dinode} {K K' : Nat → Prop} {H : Nat → Nat} {own locks : List Nat}
  {i j m n off p : Nat}
variable {s s1 s' : St} {name : Name}

/-! ## What a walk can come to -/

theorem Linked.still (h : Linked sb v K s) (hs : Still K s s') : Linked sb v K s' := fun m hl hn h0 => by
  rw [hs.cache] at hn
  obtain ⟨i, hi, hk, e⟩ := h m hl hn h0
  exact ⟨i, hi, hk, (hs.inum i hi hk).trans e⟩

theorem Linked.mono (h : Linked sb v K s) (hK : ∀ i, K i → K' i) : Linked sb v K' s := fun m hl hn h0 => by
  obtain ⟨i, hi, hk, e⟩ := h m hl hn h0
  exact ⟨i, hi, hK i hk, e⟩

/-- The last reference to what a walk has found does not free it. -/
theorem Linked.not_last {own' : List Nat} (h : Linked sb v (Kept H own) s) (hh : Held sb v H own' locks s)
    (hsub : own ⊆ own')
    (hj : j < NINODE) (hj' : j ∈ own') (hn : Named sb v s.cache (s.itable j).inum) : ¬ Last sb v H own s j :=
      fun hl => by
  obtain ⟨i, hi, hk, e⟩ := h _ hl.live hn hl.nlink
  have : i = j := hh.core.unique i j hi hj (hh.ref_pos hi (hk.imp_right fun h => hsub h)) (hh.ref_pos hj (Or.inr hj')) e
  exact hl.gone (this ▸ hk)

theorem Last.cons (h : Last sb v H (j :: own) s i) : Last sb v H own s i :=
    ⟨fun hk => h.gone (hk.cons j), h.live, h.nlink⟩

theorem Held.agree (h : Held sb v H own locks s) (hm : sb.IsInum m) : sb.ino s.cache m = v m :=
  h.core.agree m hm (Nat.one_le_iff_ne_zero.mp hm.1)

/-! ## `dirlookup` -/

structure Found (sb : Superblock) (v : Nat → Dinode) (H : Nat → Nat) (own locks : List Nat) (m : Nat)
    (name : Name) (s : St) (j off : Nat) (s' : St) : Prop where
  got : Got sb v H own locks (direntAt (v m) s.cache off) s j s'
  entry : HasEntry (v m) off
  map : dirMap (v m) s.cache name.key = some (direntAt (v m) s.cache off)

theorem Found.named (h : Found sb v H own locks m name s j off s') (hl : Live sb v m) :
    Named sb v s'.cache (s'.itable j).inum := by
  rw [h.got.still.cache, h.got.inum]
  exact Or.inr ⟨m, off, hl, h.entry, rfl⟩

theorem dirlookup_spec (h : Held sb v H own locks s) (hi : Opened s i m) :
    wp (dirlookup sb i name)
      (fun r s' => (v m).type = T_DIR ∧ match r with
        | none => Reads s s' ∧ (v m).size % 16 = 0 ∧ dirMap (v m) s.cache name.key = none
        | some (j, off) => Found sb v H own locks m name s j off s') Stops s := by
  refine dirlookup_rule h.core hi (fun _ => trivial) (fun _ _ => trivial) (fun s' hr hty hw hno => ⟨hty, hr, hw, hno⟩)
    fun k s' hr hty hk => ?_
  obtain ⟨hmap, hle, hslot⟩ := slotOf_facts hk
  have hent : HasEntry (v m) (16 * k) := ⟨hty, by omega, hle⟩
  have hin : sb.IsInum (direntAt (v m) s.cache (16 * k)) := by
    refine (h.dirs m (h.core.live hi) _ hent).resolve_left fun h0 => ?_
    rw [slot, if_pos h0] at hslot
    cases hslot
  rw [(h.core.table i hi.lt hi.ref).1]
  exact (iget_spec (h.reads hr) hin).imp fun j s'' hg =>
    ⟨hty, ⟨hg.lt, hg.inum, hg.held, (Still.of_reads hr).trans hg.still⟩, hent, hmap⟩

/-! ## `namex` -/

def walk (sb : Superblock) (c : Disk) (parent : Bool) : Nat → Nat → List UInt8 → Option (Nat × Name)
  | 0, m, _ => some (m, [])
  | fuel + 1, m, path =>
    match skipelem path with
    | none => if parent then none else some (m, [])
    | some (name, path) =>
      if (sb.ino c m).type ≠ T_DIR then none
      else if parent && path.isEmpty then some (m, name)
      else (dirMap (sb.ino c m) c name.key).bind fun n => walk sb c parent fuel n path

def resolve (sb : Superblock) (s : St) (p : Nat) (path : List UInt8) (parent : Bool) : Option (Nat × Name) :=
  let start := if path.head? = some slash then some ROOTINO else (s.proc p).cwd.map fun i => (s.itable i).inum
  start.bind fun m => walk sb s.cache parent (path.length + 1) m path

/-- A walk has ended: with a reference to the inode `w` says, or with none. -/
structure Walked (sb : Superblock) (v : Nat → Dinode) (H : Nat → Nat) (own : List Nat) (s : St)
    (w r : Option (Nat × Name)) (s' : St) : Prop where
  still : Still (Kept H own) s s'
  held : Held sb v H ((r.map Prod.fst).toList ++ own) [] s'
  safe : ∀ i name, r = some (i, name) → i < NINODE ∧ ¬ Last sb v H own s' i
  found : r.map (fun x => ((s'.itable x.1).inum, x.2)) = w

theorem Walked.after {w r : Option (Nat × Name)} (h : Still (Kept H own) s s1) (h' : Walked sb v H own s1 w r s') :
    Walked sb v H own s w r s' :=
  ⟨h.trans h'.still, h'.held, h'.safe, h'.found⟩

theorem namexLoop_spec (parent : Bool) : ∀ (fuel : Nat) (path : List UInt8) {i : Nat} {s : St},
    Held sb v H (i :: own) [] s → i < NINODE → Linked sb v (Kept H own) s → ¬ Last sb v H own s i →
    wp (namexLoop sb parent fuel i path)
      (fun r s' => Walked sb v H own s (walk sb s.cache parent fuel (s.itable i).inum path) r s') Stops s := by
  intro fuel
  induction fuel with
  | zero =>
    intro path i s h hi hlk hs
    simp only [namexLoop, wp_pure, walk]
    exact ⟨.refl s, h, by rintro _ _ ⟨⟩; exact ⟨hi, hs⟩, rfl⟩
  | succ fuel ih =>
    intro path i s h hi hlk hs
    have hki : Kept H (i :: own) i := Or.inr List.mem_cons_self
    simp only [namexLoop, walk]
    cases skipelem path with
    | none =>
      cases parent with
      | true =>
        simp only [if_true, wp_bind, wp_pure]
        exact (iput_still h hi hs).imp fun _ s' h' => ⟨h'.2, h'.1, nofun, rfl⟩
      | false =>
        simp only [Bool.false_eq_true, if_false, wp_pure]
        exact ⟨.refl s, h, by rintro _ _ ⟨⟩; exact ⟨hi, hs⟩, rfl⟩
    | some np =>
      obtain ⟨name, rest⟩ := np
      simp only [wp_bind, wp_get]
      refine (ilock_spec h hi hki).imp fun _ s1 h₁ => ?_
      obtain ⟨held1, hop1, -, hst⟩ := h₁
      have hst1 : Still (Kept H own) s s1 := hst.mono fun _ hk => hk.cons i
      have hs1 : ¬ Last sb v H own s1 i := fun hl => hs (hl.kept hst.toKeeps hi hki)
      have hlive := held1.core.live hop1
      have hag : sb.ino s.cache (s.itable i).inum = v (s.itable i).inum := h.agree hlive.1
      rw [held1.core.copy_eq hop1, hag]
      -- the exits that drop the directory
      have hdrop : ∀ {s2}, Reads s1 s2 → wp (iunlockput sb i) (fun _ s' => Walked sb v H own s none none s') Stops s2 :=
          fun {s2} hr => by
        have hs2 : ¬ Last sb v H own s2 i := fun hl => hs1 (hl.kept (Still.of_reads hr).toKeeps hi hki)
        exact (iunlockput_still (held1.reads hr) hi (by simp) hs2).imp fun _ s' h' =>
          ⟨(hst1.trans (.of_reads hr)).trans h'.2, h'.1, nofun, rfl⟩
      refine wp_ite (fun hty => ?_) fun hty => ?_
      · rw [wp_bind, if_pos hty]
        exact hdrop (.refl s1)
      rw [if_neg hty]
      refine wp_ite (fun hlast => ?_) fun hlast => ?_
      · -- one level early
        simp only [wp_bind, wp_pure, if_pos hlast]
        refine (iunlock_spec held1 hi hki (by simp)).imp fun _ s2 h₂ => ?_
        refine ⟨hst1.trans (h₂.2.mono fun _ hk => hk.cons i), h₂.1, ?_, ?_⟩
        · rintro _ _ ⟨⟩
          exact ⟨hi, fun hl => hs1 (hl.kept h₂.2.toKeeps hi hki)⟩
        · simp only [Option.map_some, h₂.2.inum i hi hki, hop1.inum]
      rw [wp_bind, if_neg hlast]
      refine (dirlookup_spec held1 hop1).imp fun r s2 h₂ => ?_
      obtain ⟨-, h₂⟩ := h₂
      rcases r with - | ⟨next, off⟩
      · obtain ⟨hread, -, hno⟩ := h₂
        rw [hst1.cache] at hno
        rw [hno]
        simp only [wp_bind]
        exact hdrop hread
      · have hnamed := h₂.named hlive
        obtain ⟨⟨hlt, hinum, held2, hst2⟩, -, hmap⟩ := h₂
        rw [hst1.cache] at hinum hmap
        have hst2' : Still (Kept H own) s1 s2 := hst2.mono fun _ hk => hk.cons i
        have held2' : Held sb v H (i :: next :: own) [i] s2 := held2.perm (.swap i next own) fun _ => Iff.rfl
        have hs2 : ¬ Last sb v H (next :: own) s2 i := fun hl => hs1 (hl.cons.kept hst2.toKeeps hi hki)
        have hlk2 : Linked sb v (Kept H own) s2 := (hlk.still hst1).still hst2'
        rw [hmap, Option.bind_some, wp_bind]
        refine (iunlockput_still held2' hi (by simp) hs2).imp fun _ s3 h₃ => ?_
        have hst3 : Still (Kept H own) s2 s3 := h₃.2.mono fun _ hk => hk.cons next
        have hkn : Kept H (next :: own) next := Or.inr List.mem_cons_self
        have hst : Still (Kept H own) s s3 := (hst1.trans hst2').trans hst3
        have hin3 : (s3.itable next).inum = direntAt (v (s.itable i).inum) s.cache off :=
          (h₃.2.inum next hlt hkn).trans hinum
        have hrun := ih rest h₃.1 hlt (hlk2.still hst3) fun hl =>
          hlk2.not_last held2 (by simp) hlt (by simp) hnamed (hl.kept h₃.2.toKeeps hlt hkn)
        rw [hin3, hst.cache] at hrun
        exact hrun.imp fun r s' hw => hw.after hst

/-- The walk starts from the root, or from a current directory that is kept. -/
theorem namex_spec (h : Held sb v H own [] s) (hlk : Linked sb v (Kept H own) s)
    (hcwd : ∀ i, (s.proc p).cwd = some i → i < NINODE ∧ 0 < H i) (path : List UInt8) (parent : Bool) :
    wp (namex sb p path parent) (Walked sb v H own s (resolve sb s p path parent)) Stops s := by
  simp only [namex, resolve]
  split
  · rw [wp_bind]
    refine (iget_spec h ⟨by decide, sb.root_lt⟩).imp fun i s1 h₁ => ?_
    have hlk1 := hlk.still h₁.still
    have hrun := namexLoop_spec parent (path.length + 1) path h₁.held h₁.lt hlk1
      (hlk1.not_last h₁.held (by simp) h₁.lt (by simp) (Or.inl h₁.inum))
    rw [h₁.inum, h₁.still.cache] at hrun
    exact hrun.imp fun r s' hw => hw.after h₁.still
  · simp only [wp_bind, wp_get]
    cases hc : (s.proc p).cwd with
    | none => exact trivial
    | some cwd =>
      obtain ⟨hlt, hpos⟩ := hcwd cwd hc
      simp only [wp_bind]
      refine (idup_spec h hlt (Or.inl hpos)).imp fun i s1 h₁ => ?_
      obtain ⟨rfl, held1, hst⟩ := h₁
      have hrun := namexLoop_spec parent (path.length + 1) path held1 hlt (hlk.still hst) fun hl =>
        hl.gone (Or.inl hpos)
      rw [hst.inum i hlt (Or.inl hpos), hst.cache] at hrun
      exact hrun.imp fun r s' hw => hw.after hst

theorem namei_spec (h : Held sb v H own [] s) (hlk : Linked sb v (Kept H own) s)
    (hcwd : ∀ i, (s.proc p).cwd = some i → i < NINODE ∧ 0 < H i) (path : List UInt8) :
    wp (namei sb p path) (fun r s' => Still (Kept H own) s s' ∧ Held sb v H (r.toList ++ own) [] s' ∧
      ∀ i, r = some i → i < NINODE ∧ ¬ Last sb v H own s' i) Stops s := by
  simp only [namei, wp_bind]
  refine (namex_spec h hlk hcwd path false).imp fun r s' hw => ?_
  rcases r with - | ⟨i, name⟩
  · exact ⟨hw.still, hw.held, nofun⟩
  · exact ⟨hw.still, hw.held, by rintro _ ⟨⟩; exact hw.safe i name rfl⟩

end Xv6.Fs
