/-
  Xv6.Fs.Logs — what the functions of kernel/fs.c do to the log.

  `Ext` is what a function that returns has done: which blocks it has logged, and that the disk, the
  files and the processes are as they were. `TooBig` is what it has done where it panics because
  the log is full. Both compose.
-/
import Xv6.Fs.Inode
import Xv6.Lib.Wp

namespace Xv6.Fs

variable {sb : Superblock} {L L' : List Nat} {k k' b : Nat} {s s1 s' : St} {e : Panic}

/-- From `s` to `s'`, logging blocks of the free map and of `L` (where 0 stands for no block). -/
structure Ext (sb : Superblock) (L : List Nat) (s s' : St) : Prop where
  outstanding : s'.outstanding = s.outstanding
  disk : s'.disk = s.disk
  ftable : s'.ftable = s.ftable
  proc : s'.proc = s.proc
  nodup : s.lh.Nodup → s'.lh.Nodup
  mono : s.lh ⊆ s'.lh
  logs : ∀ b ∈ s'.lh, b ∈ s.lh ∨ sb.Bitmap b ∨ b ∈ L ∧ b ≠ 0

namespace Ext

/-- The log is not touched. -/
theorem of_eq (ho : s'.outstanding = s.outstanding) (hd : s'.disk = s.disk) (hf : s'.ftable = s.ftable)
    (hp : s'.proc = s.proc) (hl : s'.lh = s.lh) : Ext sb L s s' :=
  ⟨ho, hd, hf, hp, by rw [hl]; exact id, by rw [hl]; exact List.Subset.refl _, by rw [hl]; exact fun _ => Or.inl⟩

theorem refl (s : St) : Ext sb L s s := .of_eq rfl rfl rfl rfl rfl

theorem mono_pos (h : Ext sb L s s') (hL : ∀ b ∈ L, b ≠ 0 → b ∈ L') : Ext sb L' s s' :=
  ⟨h.outstanding, h.disk, h.ftable, h.proc, h.nodup, h.mono, fun b hb =>
    (h.logs b hb).imp_right (Or.imp_right fun hb => ⟨hL b hb.1 hb.2, hb.2⟩)⟩

theorem mono_list (h : Ext sb L s s') (hL : L ⊆ L') : Ext sb L' s s' := h.mono_pos fun _ hb _ => hL hb

theorem trans (h : Ext sb L s s1) (h' : Ext sb L s1 s') : Ext sb L s s' := by
  refine ⟨h'.outstanding.trans h.outstanding, h'.disk.trans h.disk, h'.ftable.trans h.ftable, h'.proc.trans h.proc,
    fun hn => h'.nodup (h.nodup hn), List.Subset.trans h.mono h'.mono, fun b hb => ?_⟩
  rcases h'.logs b hb with hb | hb
  · exact h.logs b hb
  · exact Or.inr hb

end Ext

def Full (sb : Superblock) (s : St) : Prop := LOGSIZE ≤ s.lh.length ∨ sb.nlog - 1 ≤ s.lh.length

/-- The panic of a full log, after at most `k` distinct blocks outside the free map. -/
structure TooBig (sb : Superblock) (k : Nat) (s : St) (e : Panic) (s' : St) : Prop where
  eq : e = .tooBig
  full : Full sb s'
  nodup : s.lh.Nodup → s'.lh.Nodup
  logs : ∃ L : List Nat, L.length ≤ k ∧ ∀ b ∈ s'.lh, b ∈ s.lh ∨ sb.Bitmap b ∨ b ∈ L

namespace TooBig

theorem mono (h : TooBig sb k s e s') (hk : k ≤ k') : TooBig sb k' s e s' := by
  obtain ⟨L, hL, hb⟩ := h.logs
  exact ⟨h.eq, h.full, h.nodup, L, Nat.le_trans hL hk, hb⟩

theorem after (h : Ext sb L s s1) (h' : TooBig sb k s1 e s') (hk : L.length + k ≤ k') : TooBig sb k' s e s' := by
  obtain ⟨L', hL, hb⟩ := h'.logs
  refine ⟨h'.eq, h'.full, fun hn => h'.nodup (h.nodup hn), L ++ L', by rw [List.length_append]; omega, fun b hbs => ?_⟩
  rcases hb b hbs with h₁ | h₁ | h₁
  · exact (h.logs b h₁).imp_right (Or.imp_right fun hb => List.mem_append_left L' hb.1)
  · exact Or.inr (Or.inl h₁)
  · exact Or.inr (Or.inr (List.mem_append_right L h₁))

end TooBig

/-! ## The buffer and log calls -/

variable {Q : Unit → St → Prop} {E : Panic → St → Prop}

@[simp] theorem wp_emit (e : Ev) : wp (emit e) Q E s = Q () (s.ev e) := (rfl)

@[simp] theorem wp_bread (b : Nat) (Q : Block → St → Prop) :
    wp (bread b) Q E s = Q (s.cache b) (s.ev (.bread b)) := (rfl)

@[simp] theorem wp_brelse (b : Nat) : wp (brelse b) Q E s = Q () (s.ev (.brelse b)) := (rfl)

@[simp] theorem wp_setData (b : Nat) (d : Block) : wp (setData b d) Q E s = Q () (s.store b d) := (rfl)

@[simp] theorem wp_setInode (i : Nat) (f : Inode → Inode) :
    wp (setInode i f) Q E s = Q () (s.node i (f (s.itable i))) := (rfl)

@[simp] theorem wp_setCopy (i : Nat) (f : Dinode → Dinode) :
    wp (setCopy i f) Q E s = Q () (s.node i { s.itable i with copy := f (s.itable i).copy }) := (rfl)

@[simp] theorem wp_setFile (f : Nat) (g : File → File) :
    wp (setFile f g) Q E s = Q () (s.file f (g (s.ftable f))) := (rfl)

@[simp] theorem wp_setProc (p : Nat) (g : Proc → Proc) :
    wp (setProc p g) Q E s = Q () (s.process p (g (s.proc p))) := (rfl)

theorem wp_logWrite (ho : s.outstanding = 1) (hE : Full sb s → E .tooBig s) (hQ : Q () ((s.log b).ev (.logWrite b))) :
    wp (logWrite sb b) Q E s := by
  simp only [logWrite, wp_bind, wp_get]
  split
  · exact hE ‹_›
  · rw [if_neg (by omega)]
    exact hQ

theorem mem_absorb {lh : List Nat} {b x : Nat} : x ∈ Log.absorb lh b ↔ x ∈ lh ∨ x = b := Log.mem_absorb.trans or_comm

/-! ## A block read, changed, logged and released -/

namespace St

@[simps! -fullyApplied] def write (s : St) (b : Nat) (d : Block) : St :=
  ((((s.ev (.bread b)).store b d).log b).ev (.logWrite b)).ev (.brelse b)

end St

/-- A block is changed and logged. -/
theorem ext_write {d : Block} (hb : sb.Bitmap b ∨ b ∈ L ∧ b ≠ 0) : Ext sb L s (s.write b d) := by
  refine ⟨rfl, rfl, rfl, rfl, Log.absorb_nodup, fun x hx => mem_absorb.mpr (Or.inl hx), fun x hx => ?_⟩
  rcases mem_absorb.mp hx with hx | rfl
  · exact Or.inl hx
  · exact Or.inr hb

/-- `log_write` of a buffer just read and changed; `brelse` of it makes `s.write b d`. -/
theorem wp_logged {d : Block} (ho : s.outstanding = 1)
    (hQ : Q () ((((s.ev (.bread b)).store b d).log b).ev (.logWrite b)))
    (hE : ∀ s', TooBig sb 0 s .tooBig s' → s'.lh = s.lh → E .tooBig s') :
    wp (logWrite sb b) Q E ((s.ev (.bread b)).store b d) :=
  wp_logWrite ho (fun hf => hE _ ⟨rfl, hf, id, [], Nat.le_refl _, fun _ hx => Or.inl hx⟩ rfl) hQ

end Xv6.Fs
