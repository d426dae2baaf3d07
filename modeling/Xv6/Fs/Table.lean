/-
  Xv6.Fs.Table — operations and inode locks.

  What `begin_op`, `end_op`, `ilock` and `iunlock` do from the states the system calls run them
  in, and that they keep `Core`: `Core` reads neither the locks nor the count of operations, and a
  commit only copies logged buffers to the disk.
-/
import Xv6.Fs.Content

namespace Xv6.Fs

variable {sb : Superblock} {v : Nat → Dinode} {x m i : Nat} {s s' : St}
variable {Q : Unit → St → Prop} {E : Panic → St → Prop}

/-! ## Begin and end -/

theorem wp_beginOp (h0 : s.outstanding = 0) (hl : s.lh = []) :
    wp beginOp Q E s = Q () ((s.opened 1).ev .beginOp) := by
  have hroom : ¬ (LOGSIZE : Int) < (([] : List Nat).length : Int) + (0 + 1) * MAXOPBLOCKS := by decide
  simp only [beginOp, wp_bind, wp_get, h0, hl, if_neg hroom, wp_modify, wp_emit]
  rfl

namespace St

def ended (s : St) : St := ((s.opened 0).committed).ev .endOp

end St

theorem wp_endOp (h1 : s.outstanding = 1) : wp endOp Q E s = Q () s.ended := by
  simp only [endOp, wp_bind, wp_modify, wp_get, St.opened_outstanding, h1]
  rfl

/-! ## Locks -/

def SameEntries (s s' : St) : Prop := ∀ j, s'.itable j = { s.itable j with lock := (s'.itable j).lock }

theorem SameEntries.node (s : St) (i : Nat) (b : Bool) : SameEntries s (s.node i { s.itable i with lock := b }) :=
    fun j => by
  by_cases e : j = i
  · rw [e, St.node_itable, upd_same]
  · rw [St.node_itable, upd_ne e]

theorem Core.congr (h : Core sb v x s) (hc : s'.cache = s.cache) (he : SameEntries s s')
    (hcl : ∀ b, s.cache b = s.disk b ∨ b ∈ s.lh → s'.cache b = s'.disk b ∨ b ∈ s'.lh) : Core sb v x s' := by
  refine ⟨hc ▸ h.fs, hc ▸ h.agree, fun j hj => ?_, fun a b ha hb h1 h2 h3 => ?_, fun b => ?_⟩
  · rw [he j]
    exact h.table j hj
  · rw [he a] at h1 h3
    rw [he b] at h2 h3
    exact h.unique a b ha hb h1 h2 h3
  · rw [← or_assoc]
    rcases h.clean b with h1 | h1 | h1
    · exact Or.inl (hcl b (Or.inl h1))
    · exact Or.inl (hcl b (Or.inr h1))
    · exact Or.inr (hc ▸ h1)

theorem Opened.congr (h : Opened s i m) (he : SameEntries s s') : Opened s' i m := by
  have hi := he i
  exact ⟨h.lt, by rw [hi]; exact h.ref, by rw [hi]; exact h.valid, by rw [hi]; exact h.inum⟩

theorem Core.begun (h : Core sb v x s) : Core sb v x ((s.opened 1).ev .beginOp) :=
  h.congr rfl (fun _ => rfl) fun _ => id

theorem Core.locked (h : Core sb v x s) (i : Nat) (b : Bool) : Core sb v x (s.node i { s.itable i with lock := b }) :=
  h.congr rfl (.node s i b) fun _ => id

/-- A commit writes what differs and is logged. -/
theorem Core.ended (h : Core sb v x s) : Core sb v x s.ended := by
  refine h.congr rfl (fun _ => rfl) fun b hb => Or.inl ?_
  show s.cache b = if b ∈ s.lh then s.cache b else s.disk b
  split
  · rfl
  · rename_i hn
    exact hb.resolve_right hn

/-- `ilock` of an entry whose inode is in memory. -/
theorem wp_ilock (hi : Opened s i m) (hl : (s.itable i).lock = false) :
    wp (ilock sb i) Q E s = Q () (s.node i { s.itable i with lock := true }) := by
  have hr : ¬ (s.itable i).ref < 1 := by
    have := hi.ref
    omega
  simp only [ilock, wp_bind, wp_get, if_neg hr, hl, Bool.false_eq_true, if_false, wp_setInode, hi.valid,
    if_true, wp_pure]

theorem wp_iunlock (hr : 0 < (s.itable i).ref) (hl : (s.itable i).lock = true) :
    wp (iunlock i) Q E s = Q () (s.node i { s.itable i with lock := false }) := by
  have hn : ¬ ((s.itable i).lock = false ∨ (s.itable i).ref < 1) := by
    rw [hl]
    rintro (h | h)
    · cases h
    · omega
  simp only [iunlock, wp_bind, wp_get, if_neg hn, wp_setInode]

end Xv6.Fs
