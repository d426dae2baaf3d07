/-
  Xv6.Fs.Between — the file system while no process is inside a system call.

  `Between sb v s`: the inode table is referenced by open files and current directories only, no
  entry is locked, no operation is open and the log is empty.
-/
import Xv6.Fs.Enter

namespace Xv6.Fs

variable {sb : Superblock} {v : Nat → Dinode} {H : Nat → Nat} {own locks : List Nat} {i p : Nat} {s s' : St}

/-! ## Who refers to an entry -/

def File.refers (x : File) (i : Nat) : Bool := (x.type == .inode || x.type == .device) && x.ip == i

def fileRefs (ftable : Nat → File) (i : Nat) : Nat := ∑ f ∈ Finset.range NFILE, if (ftable f).refers i then 1 else 0

def cwdRefs (proc : Nat → Proc) (i : Nat) : Nat := ∑ p ∈ Finset.range NPROC, if (proc p).cwd = some i then 1 else 0

/-- The open files and current directories that refer to entry `i`. -/
def holders (s : St) (i : Nat) : Nat := fileRefs s.ftable i + cwdRefs s.proc i

theorem cwdRefs_pos {t : Nat → Proc} (hp : p < NPROC) (h : (t p).cwd = some i) : 0 < cwdRefs t i := by
  refine Nat.lt_of_lt_of_le ?_ (Finset.single_le_sum (fun _ _ => Nat.zero_le _) (Finset.mem_range.mpr hp))
  rw [if_pos h]
  exact Nat.one_pos

structure FilesOk (v : Nat → Dinode) (s : St) : Prop where
  closed : ∀ f, (s.ftable f).ref = 0 → (s.ftable f).type = .none
  beyond : ∀ f, NFILE ≤ f → (s.ftable f).ref = 0
  ip : ∀ f i, (s.ftable f).refers i = true → i < NINODE
  /-- no directory is written through a file -/
  dir : ∀ f, (s.ftable f).type = .inode → (s.ftable f).writable = true →
    (v (s.itable (s.ftable f).ip).inum).type ≠ T_DIR
  cwd : ∀ p i, (s.proc p).cwd = some i → p < NPROC ∧ i < NINODE
  idle : ∀ p, (s.proc p).state ≠ .used → (s.proc p).cwd = none

structure Between (sb : Superblock) (v : Nat → Dinode) (s : St) : Prop where
  held : Held sb v (holders s) [] [] s
  files : FilesOk v s
  idle : s.outstanding = 0
  empty : s.lh = []

def St.begun (s : St) : St := (s.opened 1).ev .beginOp

theorem Held.begun (h : Held sb v H own locks s) : Held sb v H own locks s.begun :=
  ⟨h.core.begun, h.dirs, h.refs, h.live, h.lock⟩

theorem Held.ended (h : Held sb v H own locks s) : Held sb v H own locks s.ended :=
  ⟨h.core.ended, h.dirs, h.refs, h.live, h.lock⟩

theorem Between.wp_begin (h : Between sb v s) {Q : Unit → St → Prop} {E : Panic → St → Prop} :
    wp beginOp Q E s = Q () s.begun := wp_beginOp h.idle h.empty

theorem Between.cwd (h : Between sb v s) (i : Nat) (hc : (s.proc p).cwd = some i) : i < NINODE ∧ 0 < holders s i := by
  obtain ⟨h1, h2⟩ := h.files.cwd p i hc
  exact ⟨h2, Nat.add_pos_right _ (cwdRefs_pos h1 hc)⟩

end Xv6.Fs
