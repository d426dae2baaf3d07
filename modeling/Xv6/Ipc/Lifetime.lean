/-
  Xv6.Ipc.Lifetime — files and pipes live as long as something refers to them.

  A file's `ref` is the number of descriptors that point to it. A pipe's page is live from the
  `kalloc` in `pipealloc` to the `kfree` in `pipeclose`, and while it is, `readopen` and
  `writeopen` say whether its read and its write file are open. Between two calls a page is live
  exactly if one of them is.

  Proved (`file_lifetime`): this holds in every state between calls, for every run, whichever
  allocations and copies fail on the way; and along the run every page is allocated while it is
  free, and used and freed while it is live. No call panics but `exit` of the first process.
-/
import Xv6.Ipc.Ends

namespace Xv6.Ipc.Files

open Xv6.Fs (FdType ProcState Panic Dinode T_DEVICE openedFile)

variable {s s' : St} {live : Nat → Bool} {p q f fd pa : Nat}

/-! ## The calls -/

structure Inv (s : St) : Prop where
  ends : ∃ live, Ends live s
  refs : ∀ f, (s.ftable f).ref = slots s.proc f
  idle : ∀ p, (s.proc p).state ≠ .used → (∀ fd, fd < NOFILE → (s.proc p).ofile fd = none) ∧ (s.proc p).io = none
  /-- a process reads and writes pipes it has descriptors of -/
  io : ∀ p pa, (s.proc p).io = some pa → p < NPROC ∧ ∃ fd f, fd < NOFILE ∧ (s.proc p).ofile fd = some f ∧
    (s.ftable f).type = .pipe ∧ (s.ftable f).pipe = pa

def Kept (s s' : St) : Prop := ∀ f, 0 < (s.ftable f).ref → 0 < (s'.ftable f).ref →
  (s'.ftable f).type = (s.ftable f).type ∧ (s'.ftable f).pipe = (s.ftable f).pipe

theorem Kept.same (h : ∀ f, 0 < (s.ftable f).ref → s'.ftable f = { s.ftable f with ref := (s'.ftable f).ref }) :
    Kept s s' :=
  fun f h1 _ => by
    rw [h f h1]
    exact ⟨rfl, rfl⟩

theorem Gained.kept (h : Gained f s s') : Kept s s' := Kept.same fun g _ => by
  by_cases e : g = f
  · rw [e]
    exact h.same
  · rw [h.other g e]

theorem Dropped.kept (h : Dropped f s s') : Kept s s' := fun g _ h2 => by
  by_cases e : g = f
  · subst e
    rw [h.same h2]
    exact ⟨rfl, rfl⟩
  · rw [h.other g e]
    exact ⟨rfl, rfl⟩

theorem Inv.next (h : Inv s) (he : ∃ live, Ends live s') (hr : ∀ f, (s'.ftable f).ref = slots s'.proc f)
    (hk : Kept s s')
    (hp : ∀ r, (s'.proc r).io = (s.proc r).io ∧ ((s.proc r).io ≠ none → (s'.proc r).ofile = (s.proc r).ofile))
    (hi : ∀ r, (s'.proc r).state ≠ .used → (∀ fd, fd < NOFILE → (s'.proc r).ofile fd = none) ∧ (s.proc r).io = none) :
      Inv s' := by
  refine ⟨he, hr, fun r hu => ⟨(hi r hu).1, (hp r).1.trans (hi r hu).2⟩, fun r pa hio => ?_⟩
  rw [(hp r).1] at hio
  obtain ⟨hlt, fd, f, hfd, hf, ht, hpa⟩ := h.io r pa hio
  have hf' : (s'.proc r).ofile fd = some f := by
    rw [(hp r).2 (by rw [hio]; simp)]
    exact hf
  have h1 : 0 < (s.ftable f).ref := h.refs f ▸ slots_pos hlt hfd hf
  have h2 : 0 < (s'.ftable f).ref := hr f ▸ slots_pos hlt hfd hf'
  obtain ⟨e1, e2⟩ := hk f h1 h2
  exact ⟨hlt, fd, f, hfd, hf', e1.trans ht, e2.trans hpa⟩

/-- A call that changes no process but its own, and of that only the descriptors. -/
theorem Inv.own (h : Inv s) (hu : (s.proc p).state = .used) (hio : (s.proc p).io = none) (he : ∃ live, Ends live s')
    (hr : ∀ f, (s'.ftable f).ref = slots s'.proc f) (hk : Kept s s') (o : Nat → Option Nat)
    (hp : s'.proc = upd s.proc p { s.proc p with ofile := o }) : Inv s' := by
  refine h.next he hr hk (fun r => ?_) fun r hr => ?_
  · rw [hp]
    by_cases e : r = p
    · subst e
      rw [upd_same]
      exact ⟨rfl, fun hn => absurd hio hn⟩
    · rw [upd_ne e]
      exact ⟨rfl, fun _ => rfl⟩
  · rw [hp] at hr ⊢
    by_cases e : r = p
    · subst e
      rw [upd_same] at hr
      exact absurd hu hr
    · rw [upd_ne e] at hr ⊢
      exact h.idle r hr

theorem Inv.same (h : Inv s) (hu : (s.proc p).state = .used) (hio : (s.proc p).io = none) (he : ∃ live, Ends live s')
    (hr : ∀ f, (s'.ftable f).ref = slots s'.proc f) (hk : Kept s s') (hp : s'.proc = s.proc) : Inv s' :=
  h.own hu hio he hr hk (s.proc p).ofile (by rw [hp]; exact (upd_self s.proc p).symm)

section Calls

variable (h : Inv s) (hp : p < NPROC) (hu : (s.proc p).state = .used) (hio : (s.proc p).io = none)
include h hp hu hio

omit hu hio in
theorem argfd_spec (fd : Int) :
    wp (argfd p fd) (fun r s' => s' = s ∧ ∀ f, r = some f → fd.toNat < NOFILE ∧ (s.proc p).ofile fd.toNat = some f ∧
      0 < (s.ftable f).ref) (fun _ _ => False) s := by
  unfold argfd
  refine wp_ite (fun _ => ?_) fun hn => ?_
  · rw [wp_pure]
    exact ⟨rfl, nofun⟩
  · simp only [wp_bind, wp_get, wp_pure]
    refine ⟨trivial, fun f hf => ?_⟩
    have hlt : fd.toNat < NOFILE := by
      simp only [NOFILE] at hn ⊢
      omega
    exact ⟨hlt, hf, h.refs f ▸ slots_pos hp hlt hf⟩

theorem sysDup_inv (fd : Int) (ok : Bool) : wp (sysDup p fd ok) (fun _ s' => Inv s') (fun _ _ => False) s := by
  obtain ⟨live, he⟩ := h.ends
  unfold sysDup
  rw [wp_bind]
  refine (argfd_spec h hp fd).imp fun r s1 hr => ?_
  obtain ⟨rfl, hr⟩ := hr
  cases r with
  | none => exact h
  | some f =>
    obtain ⟨-, -, href⟩ := hr f rfl
    rw [wp_bind]
    refine (fdalloc_spec p f ok).imp fun r s2 hr => ?_
    rcases hr with ⟨rfl, rfl⟩ | ⟨fd', rfl, hlt, hnone, rfl⟩
    · exact h
    · simp only [wp_bind, wp_pure]
      refine (filedup_spec (he.setFd p fd' (some f)) href).imp fun _ s3 h₃ => ?_
      obtain ⟨he3, hg3⟩ := h₃
      refine h.own hu hio ⟨live, he3⟩ (fun g => ?_) (hg3.kept) _ hg3.proc
      have h1 := hg3.refs g
      have h2 := slots_set s1 hp hlt hnone f g
      have h3 : ((s1.fd p fd' (some f)).ftable g).ref = slots s1.proc g := h.refs g
      rw [hg3.proc]
      omega

theorem sysClose_inv (fd : Int) : wp (sysClose p fd) (fun _ s' => Inv s') (fun _ _ => False) s := by
  obtain ⟨live, he⟩ := h.ends
  unfold sysClose
  rw [wp_bind]
  refine (argfd_spec h hp fd).imp fun r s1 hr => ?_
  obtain ⟨rfl, hr⟩ := hr
  cases r with
  | none => exact h
  | some f =>
    obtain ⟨hlt, hfd, href⟩ := hr f rfl
    simp only [wp_bind, wp_setFd, wp_pure]
    refine (fileclose_spec (he.setFd p fd.toNat none) href).imp fun _ s3 h₃ => ?_
    obtain ⟨he3, hd3⟩ := h₃
    refine h.own hu hio he3 (fun g => ?_) hd3.kept _ hd3.proc
    have h1 := hd3.refs g
    have h2 := slots_clear s1 hp hlt hfd g
    have h3 : ((s1.fd p fd.toNat none).ftable g).ref = slots s1.proc g := h.refs g
    rw [hd3.proc]
    omega

/-- A file allocated and closed again. -/
theorem sysOpen_inv (ino : Option (Nat × Dinode)) (omode : Nat) (okFile okFd : Bool) :
    wp (sysOpen p ino omode okFile okFd) (fun _ s' => Inv s') (fun _ _ => False) s := by
  obtain ⟨live, he⟩ := h.ends
  unfold sysOpen
  cases ino with
  | none => exact h
  | some x =>
    obtain ⟨ip, d⟩ := x
    refine wp_ite (fun _ => h) fun _ => ?_
    rw [wp_bind]
    refine (filealloc_spec he okFile).imp fun r s1 hr => ?_
    rcases hr with ⟨rfl, rfl⟩ | ⟨f, rfl, hlt, h0, he1, hg1⟩
    · exact h
    have hs0 : slots s.proc f = 0 := (h.refs f).symm.trans h0
    have href : 0 < (s1.ftable f).ref := by rw [hg1.ref]; omega
    have htype : (s1.ftable f).type = .none := by
      rw [hg1.same]
      exact he.closed f h0
    rw [wp_bind]
    refine (fdalloc_spec p f okFd).imp fun r s2 hr => ?_
    rcases hr with ⟨rfl, rfl⟩ | ⟨fd, rfl, hfd, hnone, rfl⟩
    · simp only [wp_bind, wp_pure]
      refine (fileclose_spec he1 href).imp fun _ s3 h₃ => ?_
      obtain ⟨he3, hd3⟩ := h₃
      refine h.same hu hio he3 (fun g => ?_) ?_ (hd3.proc.trans hg1.proc)
      · have h1 := hd3.refs g
        have h2 := hg1.refs g
        have h3 := h.refs g
        rw [hd3.proc, hg1.proc]
        omega
      · intro g h1 h2
        have hne : g ≠ f := fun e => by
          rw [e, h0] at h1
          cases h1
        rw [hd3.other g hne, hg1.other g hne]
        exact ⟨rfl, rfl⟩
    · simp only [wp_bind, wp_setFile, wp_pure]
      have hopen : (openedFile (s1.ftable f).toFile ip d omode).ref = (s1.ftable f).ref ∧
          ((openedFile (s1.ftable f).toFile ip d omode).type = .inode ∨
            (openedFile (s1.ftable f).toFile ip d omode).type = .device) := by
        unfold openedFile
        dsimp only
        split <;> exact ⟨rfl, by simp⟩
      have hne : (openedFile (s1.ftable f).toFile ip d omode).type ≠ .pipe := by
        rcases hopen.2 with e | e <;> rw [e] <;> decide
      have hft : ((s1.fd p fd (some f)).ftable f).type ≠ .pipe := by
        show (s1.ftable f).type ≠ .pipe
        rw [htype]
        decide
      have he2 := (he1.setFd p fd (some f)).noEnd
        (x := { s1.ftable f with toFile := openedFile (s1.ftable f).toFile ip d omode }) hft hne
        (fun e => absurd (hopen.1.symm.trans e) (by omega)) hlt
      have hproc : s1.proc = s.proc := hg1.proc
      refine h.own hu hio ⟨live, he2⟩ (fun g => ?_) (fun g h1 h2 => ?_) (upd (s.proc p).ofile fd (some f)) ?_
      · have h2 := slots_set s1 hp hfd hnone f g
        have h3 := hg1.refs g
        have h4 := h.refs g
        show (upd s1.ftable f _ g).ref = slots (s1.fd p fd (some f)).proc g
        rw [hproc] at h2
        by_cases e : g = f
        · subst e
          rw [upd_same]
          show (openedFile (s1.ftable g).toFile ip d omode).ref = _
          rw [hopen.1]
          omega
        · rw [upd_ne e]
          omega
      · have hne : g ≠ f := fun e => by
          rw [e, h0] at h1
          cases h1
        show (upd s1.ftable f _ g).type = _ ∧ (upd s1.ftable f _ g).pipe = _
        rw [upd_ne hne, hg1.other g hne]
        exact ⟨rfl, rfl⟩
      · show upd s1.proc p _ = _
        rw [hproc]

omit hp in
/-- A failed call has given back all it took. -/
theorem undone_inv (he : ∃ live, Ends live s') (ht : Took [] s s') : Inv s' := by
  refine h.same hu hio he (fun g => ?_) (fun g h1 _ => ?_) ht.proc
  · rw [ht.refs g, ht.proc, List.count_nil]
    exact h.refs g
  · rw [ht.old g h1]
    exact ⟨rfl, rfl⟩

omit hp in
theorem pipeUndo_inv {rf wf : Nat} {s1 : St} (he : ∃ live, Ends live s1) (ht : Took [rf, wf] s s1) :
    wp (pipeUndo rf wf) (fun _ s' => Inv s') (fun _ _ => False) s1 := by
  simp only [pipeUndo, wp_bind, wp_pure]
  refine (close_took he ht).imp fun _ s2 h₂ => ?_
  refine (close_took h₂.1 h₂.2).imp fun _ s3 h₃ => ?_
  exact undone_inv h hu hio h₃.1 h₃.2

theorem sysPipe_inv (o : PipeOk) : wp (sysPipe p o) (fun _ s' => Inv s') (fun _ _ => False) s := by
  obtain ⟨live, he⟩ := h.ends
  unfold sysPipe
  rw [wp_bind]
  refine (pipealloc_spec he o).imp fun r s1 hr => ?_
  obtain ⟨he1, ⟨rfl, ht⟩ | ⟨rf, wf, rfl, ht⟩⟩ := hr
  · exact undone_inv h hu hio he1 ht
  rw [wp_bind]
  refine (fdalloc_spec p rf o.fd0).imp fun r s2 hr => ?_
  rcases hr with ⟨rfl, rfl⟩ | ⟨fd0, rfl, hlt0, hnone0, rfl⟩
  · exact pipeUndo_inv h hu hio he1 ht
  rw [wp_bind]
  refine (fdalloc_spec p wf o.fd1).imp fun r s2 hr => ?_
  rcases hr with ⟨rfl, rfl⟩ | ⟨fd1, rfl, hlt1, hnone1, rfl⟩
  · simp only [wp_bind, wp_setFd, St.fd_fd, St.fd_self s1 hnone0]
    exact pipeUndo_inv h hu hio he1 ht
  have hne : fd0 ≠ fd1 := fun e => by
    rw [← e] at hnone1
    simp only [St.fd, St.process_proc, upd_same] at hnone1
    cases hnone1
  have hnone1' : (s1.proc p).ofile fd1 = none := by
    simpa only [St.fd, St.process_proc, upd_same, upd_ne hne.symm] using hnone1
  refine wp_ite (fun _ => ?_) fun _ => ?_
  · simp only [wp_bind, wp_setFd]
    rw [St.fd_comm s1 p hne, St.fd_fd, St.fd_comm s1 p hne.symm, St.fd_self s1 hnone0, St.fd_fd, St.fd_self s1 hnone1']
    exact pipeUndo_inv h hu hio he1 ht
  · obtain ⟨live1, he1⟩ := he1
    rw [wp_pure]
    refine h.own hu hio ⟨live1, (he1.setFd p fd0 (some rf)).setFd p fd1 (some wf)⟩ (fun g => ?_) (fun g h1 _ => ?_)
      (upd (upd (s.proc p).ofile fd0 (some rf)) fd1 (some wf)) ?_
    · have h1 := slots_set s1 hp hlt0 hnone0 rf g
      have h2 := slots_set _ hp hlt1 hnone1 wf g
      have h3 := ht.refs g
      have h4 := h.refs g
      simp only [List.count_cons, List.count_nil, beq_iff_eq, eq_comm (b := g)] at h3
      rw [ht.proc] at h1
      show (s1.ftable g).ref = _
      omega
    · show (s1.ftable g).type = _ ∧ (s1.ftable g).pipe = _
      rw [ht.old g h1]
      exact ⟨rfl, rfl⟩
    · simp only [St.fd, St.process_proc, upd_same, upd_upd, ht.proc]

end Calls

/-! ## fork and exit -/

/-- All but `q`'s descriptors and the files' counts is as before. -/
structure Shared (q : Nat) (s s' : St) : Prop where
  proc : ∀ r, r ≠ q → s'.proc r = s.proc r
  self : (s'.proc q).state = (s.proc q).state ∧ (s'.proc q).io = (s.proc q).io
  file : ∀ g, s'.ftable g = { s.ftable g with ref := (s'.ftable g).ref }

theorem Shared.trans {s1 s2 : St} (h : Shared q s s1) (h' : Shared q s1 s2) : Shared q s s2 := by
  refine ⟨fun r hr => (h'.proc r hr).trans (h.proc r hr), ⟨h'.self.1.trans h.self.1, h'.self.2.trans h.self.2⟩,
    fun g => ?_⟩
  rw [h'.file g, h.file g]

theorem fd_self_proc (s : St) (p fd : Nat) (y : Option Nat) :
    ((s.fd p fd y).proc p).state = (s.proc p).state ∧ ((s.fd p fd y).proc p).io = (s.proc p).io := by
  simp only [St.fd, St.process_proc, upd_same, and_self]

theorem fd_ofile (s : St) (p fd : Nat) (y : Option Nat) : ((s.fd p fd y).proc p).ofile = upd (s.proc p).ofile fd y := by
  simp only [St.fd, St.process_proc, upd_same]

theorem fd_other (s : St) {r : Nat} (hr : r ≠ p) (fd : Nat) (y : Option Nat) : (s.fd p fd y).proc r = s.proc r :=
    upd_ne hr _

theorem forkFds_spec {fds : List Nat} (hp : p < NPROC) (hq : q < NPROC) (hnd : fds.Nodup)
    (hlt : ∀ fd ∈ fds, fd < NOFILE) (he : Ends live s) (hr : ∀ f, (s.ftable f).ref = slots s.proc f)
    (hnone : ∀ fd ∈ fds, (s.proc q).ofile fd = none) :
    wp (forkFds p q fds) (fun _ s' => Ends live s' ∧ (∀ f, (s'.ftable f).ref = slots s'.proc f) ∧ Shared q s s')
      (fun _ _ => False) s := by
  induction fds generalizing s with
  | nil => exact ⟨he, hr, fun _ _ => rfl, ⟨rfl, rfl⟩, fun _ => rfl⟩
  | cons fd fds ih =>
    obtain ⟨hnd1, hnd2⟩ := List.nodup_cons.mp hnd
    obtain ⟨hlt1, hlt2⟩ := List.forall_mem_cons.mp hlt
    obtain ⟨hnone1, hnone2⟩ := List.forall_mem_cons.mp hnone
    unfold forkFds
    simp only [wp_bind, wp_get]
    cases hf : (s.proc p).ofile fd with
    | none => exact ih hnd2 hlt2 he hr hnone2
    | some f =>
      rw [wp_bind]
      have href : 0 < (s.ftable f).ref := hr f ▸ slots_pos hp hlt1 hf
      refine (filedup_spec he href).imp fun _ s1 h₁ => ?_
      obtain ⟨he1, hg1⟩ := h₁
      simp only [wp_bind, wp_setFd]
      have hq1 : (s1.proc q).ofile fd = none := hg1.proc ▸ hnone1
      have hsh : Shared q s (s1.fd q fd (some f)) := by
        refine ⟨fun r hr => (fd_other s1 hr _ _).trans (by rw [hg1.proc]), ?_, fun g => ?_⟩
        · have := fd_self_proc s1 q fd (some f)
          rwa [hg1.proc] at this
        · show s1.ftable g = _
          by_cases e : g = f
          · rw [e]
            exact hg1.same
          · show s1.ftable g = { s.ftable g with ref := (s1.ftable g).ref }
            rw [hg1.other g e]
      refine (ih hnd2 hlt2 (he1.setFd q fd (some f)) (fun g => ?_) fun fd' hm => ?_).mono
        (fun _ s' hs => ⟨hs.1, hs.2.1, hsh.trans hs.2.2⟩) fun _ _ => id
      · have h1 := hg1.refs g
        have h2 := slots_set s1 hq hlt1 hq1 f g
        have h3 := hr g
        rw [hg1.proc] at h2
        show (s1.ftable g).ref = _
        omega
      · have hne : fd' ≠ fd := fun e => hnd1 (e ▸ hm)
        rw [fd_ofile, upd_ne hne, hg1.proc]
        exact hnone2 fd' hm

theorem fork_inv (h : Inv s) (hp : p < NPROC) (mem : Bool) :
    wp (fork p mem) (fun _ s' => Inv s') (fun _ _ => False) s := by
  obtain ⟨live, he⟩ := h.ends
  unfold fork
  simp only [wp_bind, wp_get]
  split
  · exact h
  · rename_i q hfind
    have hq : q < NPROC := List.mem_range.mp (List.mem_of_find?_eq_some hfind)
    have hfree : (s.proc q).state = .unused := by simpa using List.find?_some hfind
    have hidle := h.idle q (by rw [hfree]; decide)
    refine wp_ite (fun _ => h) fun _ => ?_
    rw [wp_bind]
    refine (forkFds_spec hp hq List.nodup_range (fun fd hfd => List.mem_range.mp hfd) he h.refs fun fd hfd =>
      hidle.1 fd (List.mem_range.mp hfd)).imp fun _ s1 h₁ => ?_
    obtain ⟨he1, hr1, hsh⟩ := h₁
    simp only [wp_bind, wp_setProc, wp_pure]
    refine h.next ⟨live, he1.process _ _⟩ (fun g => ?_) (Kept.same fun g _ => hsh.file g) (fun r => ?_) fun r hr => ?_
    · refine (hr1 g).trans (Eq.symm ?_)
      apply slots_process
      rfl
    · rw [St.process_proc]
      by_cases e : r = q
      · rw [e, upd_same]
        exact ⟨hsh.self.2, fun hn => absurd hidle.2 hn⟩
      · rw [upd_ne e, hsh.proc r e]
        exact ⟨rfl, fun _ => rfl⟩
    · rw [St.process_proc] at hr ⊢
      by_cases e : r = q
      · rw [e, upd_same] at hr
        exact absurd rfl hr
      · rw [upd_ne e, hsh.proc r e] at hr ⊢
        exact h.idle r hr

structure Closing (p : Nat) (s s' : St) : Prop where
  proc : ∀ r, r ≠ p → s'.proc r = s.proc r
  self : (s'.proc p).state = (s.proc p).state ∧ (s'.proc p).io = (s.proc p).io
  ofile : ∀ fd, (s.proc p).ofile fd = none → (s'.proc p).ofile fd = none
  le : ∀ g, (s'.ftable g).ref ≤ (s.ftable g).ref
  file : ∀ g, 0 < (s'.ftable g).ref → s'.ftable g = { s.ftable g with ref := (s'.ftable g).ref }

theorem Closing.trans {s1 s2 : St} (h : Closing p s s1) (h' : Closing p s1 s2) : Closing p s s2 := by
  refine ⟨fun r hr => (h'.proc r hr).trans (h.proc r hr), ⟨h'.self.1.trans h.self.1, h'.self.2.trans h.self.2⟩,
    fun fd hn => h'.ofile fd (h.ofile fd hn), fun g => (h'.le g).trans (h.le g), fun g hg => ?_⟩
  rw [h'.file g hg, h.file g (Nat.lt_of_lt_of_le hg (h'.le g))]

theorem exitFds_spec {fds : List Nat} (hp : p < NPROC) (hlt : ∀ fd ∈ fds, fd < NOFILE) (he : ∃ live, Ends live s)
    (hr : ∀ f, (s.ftable f).ref = slots s.proc f) :
    wp (exitFds p fds) (fun _ s' => (∃ live, Ends live s') ∧ (∀ f, (s'.ftable f).ref = slots s'.proc f) ∧
      Closing p s s' ∧ ∀ fd ∈ fds, (s'.proc p).ofile fd = none) (fun _ _ => False) s := by
  induction fds generalizing s with
  | nil => exact ⟨he, hr, ⟨fun _ _ => rfl, ⟨rfl, rfl⟩, fun _ => id, fun _ => le_rfl, fun _ _ => rfl⟩, nofun⟩
  | cons fd fds ih =>
    obtain ⟨hlt1, hlt2⟩ := List.forall_mem_cons.mp hlt
    unfold exitFds
    simp only [wp_bind, wp_get]
    cases hf : (s.proc p).ofile fd with
    | none =>
      refine (ih hlt2 he hr).imp fun _ s' hs => ⟨hs.1, hs.2.1, hs.2.2.1, ?_⟩
      exact List.forall_mem_cons.mpr ⟨hs.2.2.1.ofile fd hf, hs.2.2.2⟩
    | some f =>
      rw [wp_bind]
      obtain ⟨live, he⟩ := he
      have href : 0 < (s.ftable f).ref := hr f ▸ slots_pos hp hlt1 hf
      refine (fileclose_spec he href).imp fun _ s1 h₁ => ?_
      obtain ⟨⟨live1, he1⟩, hd1⟩ := h₁
      simp only [wp_bind, wp_setFd]
      have hf1 : (s1.proc p).ofile fd = some f := hd1.proc ▸ hf
      have hcl : Closing p s (s1.fd p fd none) := by
        refine ⟨fun r hr => (fd_other s1 hr _ _).trans (by rw [hd1.proc]), ?_, fun fd' hn => ?_, fun g => ?_,
          fun g hg => ?_⟩
        · have := fd_self_proc s1 p fd none
          rwa [hd1.proc] at this
        · rw [fd_ofile, hd1.proc]
          by_cases e : fd' = fd
          · rw [e, upd_same]
          · rw [upd_ne e]
            exact hn
        · have := hd1.refs g
          show (s1.ftable g).ref ≤ _
          omega
        · have hg : 0 < (s1.ftable g).ref := hg
          show s1.ftable g = { s.ftable g with ref := (s1.ftable g).ref }
          by_cases e : g = f
          · subst e
            exact hd1.same hg
          · rw [hd1.other g e]
      refine (ih hlt2 ⟨live1, he1.setFd p fd none⟩ fun g => ?_).imp fun _ s' hs => ?_
      · have h1 := hd1.refs g
        have h2 := slots_clear s1 hp hlt1 hf1 g
        have h3 := hr g
        rw [hd1.proc] at h2
        show (s1.ftable g).ref = _
        omega
      · refine ⟨hs.1, hs.2.1, hcl.trans hs.2.2.1, List.forall_mem_cons.mpr ⟨hs.2.2.1.ofile fd ?_, hs.2.2.2⟩⟩
        rw [fd_ofile, upd_same]

theorem exit_inv (h : Inv s) (hp : p < NPROC) (hio : (s.proc p).io = none) :
    wp (exit p) (fun _ s' => Inv s') (fun e _ => p = 0 ∧ e = .initExiting) s := by
  unfold exit
  refine wp_ite (fun h0 => ⟨h0, rfl⟩) fun _ => ?_
  rw [wp_bind]
  refine (exitFds_spec hp (fun fd hfd => List.mem_range.mp hfd) h.ends h.refs).mono (fun _ s1 h₁ => ?_)
    fun _ _ => False.elim
  obtain ⟨⟨live, he1⟩, hr1, hcl, hnone⟩ := h₁
  simp only [wp_bind, wp_setProc, wp_pure]
  refine h.next ⟨live, he1.process _ _⟩ (fun g => ?_) (fun g _ hg => ?_) (fun r => ?_) fun r hr => ?_
  · refine (hr1 g).trans (Eq.symm ?_)
    apply slots_process
    rfl
  · show (s1.ftable g).type = _ ∧ (s1.ftable g).pipe = _
    rw [hcl.file g hg]
    exact ⟨rfl, rfl⟩
  · rw [St.process_proc]
    by_cases e : r = p
    · rw [e, upd_same]
      exact ⟨hcl.self.2, fun hn => absurd hio hn⟩
    · rw [upd_ne e, hcl.proc r e]
      exact ⟨rfl, fun _ => rfl⟩
  · rw [St.process_proc] at hr ⊢
    by_cases e : r = p
    · rw [e, upd_same]
      exact ⟨fun fd hfd => hnone fd (List.mem_range.mpr hfd), hio⟩
    · rw [upd_ne e, hcl.proc r e] at hr ⊢
      exact h.idle r hr

theorem reap_inv (h : Inv s) (q : Nat) : wp (reap q) (fun _ s' => Inv s') (fun _ _ => False) s := by
  obtain ⟨live, he⟩ := h.ends
  unfold reap
  simp only [wp_bind, wp_get]
  refine wp_ite (fun hz => ?_) fun _ => h
  simp only [wp_bind, wp_setProc, wp_pure]
  have hidle := h.idle q (by rw [hz]; decide)
  refine h.next ⟨live, he.process _ _⟩ (fun g => ?_) (Kept.same fun g _ => rfl) (fun r => ?_) fun r hr => ?_
  · refine (h.refs g).trans (Eq.symm ?_)
    apply slots_process
    rfl
  · rw [St.process_proc]
    by_cases e : r = q
    · rw [e, upd_same]
      exact ⟨rfl, fun _ => rfl⟩
    · rw [upd_ne e]
      exact ⟨rfl, fun _ => rfl⟩
  · rw [St.process_proc] at hr ⊢
    by_cases e : r = q
    · rw [e, upd_same]
      exact hidle
    · rw [upd_ne e] at hr ⊢
      exact h.idle r hr

/-! ## Runs -/

theorem sys_inv (h : Inv s) (hp : p < NPROC) (hu : (s.proc p).state = .used) (hio : (s.proc p).io = none) (c : Call) :
    wp (sys p c) (fun _ s' => Inv s') (fun e _ => p = 0 ∧ c = .exit ∧ e = .initExiting) s := by
  have total : ∀ {m : M Int}, wp m (fun _ s' => Inv s') (fun _ _ => False) s →
      wp m (fun _ s' => Inv s') (fun e _ => p = 0 ∧ c = .exit ∧ e = .initExiting) s :=
    fun hm => hm.mono (fun _ _ => id) fun _ _ => False.elim
  cases c with
  | «open» ino omode okFile okFd => exact total (sysOpen_inv h hp hu hio ino omode okFile okFd)
  | pipe o => exact total (sysPipe_inv h hp hu hio o)
  | dup fd ok => exact total (sysDup_inv h hp hu hio fd ok)
  | close fd => exact total (sysClose_inv h hp hu hio fd)
  | fork mem => exact total (fork_inv h hp mem)
  | exit => exact (exit_inv h hp hio).mono (fun _ _ => id) fun _ _ he => ⟨he.1, rfl, he.2⟩
  | exec r => exact h
  | wait q => exact total (reap_inv h q)

theorem pipeOf_eq {w : Bool} (h : pipeOf s p fd w = some pa) :
    ∃ f, (s.proc p).ofile fd = some f ∧ (s.ftable f).type = .pipe ∧ (s.ftable f).pipe = pa := by
  unfold pipeOf at h
  split at h
  · cases h
  · rename_i f hf
    simp only [Option.ite_none_right_eq_some, Option.some.injEq] at h
    exact ⟨f, hf, h.1.2, h.2⟩

/-- A process enters or leaves a pipe. -/
theorem io_inv (h : Inv s) (hu : (s.proc p).state = .used) {y : Option Nat}
    (hy : ∀ pa, y = some pa → p < NPROC ∧ ∃ fd f, fd < NOFILE ∧ (s.proc p).ofile fd = some f ∧
      (s.ftable f).type = .pipe ∧ (s.ftable f).pipe = pa) : Inv (s.process p { s.proc p with io := y }) := by
  obtain ⟨live, he⟩ := h.ends
  refine ⟨⟨live, he.process _ _⟩, fun f => ?_, fun r hr => ?_, fun r pa hr => ?_⟩
  · refine (h.refs f).trans (Eq.symm ?_)
    apply slots_process
    rfl
  · rw [St.process_proc] at hr ⊢
    by_cases e : r = p
    · rw [e, upd_same] at hr
      exact absurd hu hr
    · rw [upd_ne e] at hr ⊢
      exact h.idle r hr
  · rw [St.process_proc] at hr ⊢
    by_cases e : r = p
    · rw [e, upd_same] at hr ⊢
      exact hy pa hr
    · rw [upd_ne e] at hr ⊢
      exact h.io r pa hr

theorem io_live (h : Inv s) (he : Ends live s) (hio : (s.proc p).io = some pa) : live pa = true := by
  obtain ⟨-, fd, f, -, -, ht, hpa⟩ := h.io p pa hio
  exact hpa ▸ he.isLive f ht

theorem touch_inv (h : Inv s) (hio : (s.proc p).io = some pa) (nread nwrite : Nat) :
    Inv { s with
      page := upd s.page pa { s.page pa with nread := nread, nwrite := nwrite }
      trace := s.trace ++ [.use pa] } := by
  obtain ⟨live, he⟩ := h.ends
  have hl := io_live h he hio
  refine ⟨⟨live, ?_, he.closed, he.bound, he.isLive, he.unique, fun pb w hb => ?_, he.someone, he.pages, he.free⟩,
    h.refs, h.idle, h.io⟩
  · rw [lives_snoc, he.traced]
    exact if_pos hl
  · have hpage : (upd s.page pa { s.page pa with nread := nread, nwrite := nwrite } pb).isOpen w
        = (s.page pb).isOpen w := by
      by_cases e : pb = pa
      · rw [e, upd_same]
        rfl
      · rw [upd_ne e]
    show Flag ((upd s.page pa _ pb).isOpen w) _
    rw [hpage]
    exact he.flag pb w hb

/-- A page that is no pipe's moves between the free list and the rest of the kernel. -/
theorem move_inv (h : Inv s) {free held : List Nat} (hperm : (free ++ held).Perm (s.freelist ++ s.held)) :
    Inv { s with freelist := free, held := held } := by
  obtain ⟨live, he⟩ := h.ends
  exact ⟨⟨live, he.traced, he.closed, he.bound, he.isLive, he.unique, he.flag, he.someone, hperm.nodup_iff.mpr he.pages,
    fun pa hpa => he.free pa (hperm.mem_iff.mp hpa)⟩, h.refs, h.idle, h.io⟩

theorem step_inv (h : Inv s) (hs : Step s s') : Inv s' := by
  cases hs with
  | call hp hu hio hr => exact wp_ok (sys_inv h hp hu hio _) hr
  | enter hp hfd hu _ hpipe =>
    refine io_inv h hu fun pa e => ⟨hp, ?_⟩
    obtain ⟨f, h1, h2, h3⟩ := pipeOf_eq hpipe
    exact ⟨_, f, hfd, h1, h2, h3.trans (Option.some.inj e)⟩
  | touch hio => exact touch_inv h hio _ _
  | leave hio =>
    refine io_inv h ?_ nofun
    by_contra hu
    rw [(h.idle _ hu).2] at hio
    cases hio
  | take hfree =>
    refine move_inv h ?_
    rw [hfree]
    exact List.perm_middle
  | give hm =>
    refine move_inv h ?_
    exact (List.perm_middle.symm.trans ((List.perm_cons_erase hm).symm.append_left _))

theorem init_inv (h : Init s) : Inv s := by
  have hslots : ∀ f, slots s.proc f = 0 := fun f => by
    unfold slots
    simp only [h.ofile, reduceCtorEq, if_false, Finset.sum_const_zero]
  have hpipe : ∀ f pa w, ¬ IsEnd s.ftable f pa w := fun f pa w he => by
    have := he.type
    rw [h.type f] at this
    cases this
  refine ⟨⟨fun _ => false, ?_, fun f _ => h.type f, fun f _ => h.ref f, fun f hf => ?_, fun f _ pa w he =>
    absurd he (hpipe f pa w), nofun, nofun, h.pages, fun _ _ => rfl⟩, fun f => ?_, fun p _ =>
      ⟨fun fd _ => h.ofile p fd, h.io p⟩, fun p pa hio => ?_⟩
  · rw [h.trace]
    rfl
  · rw [h.type f] at hf
    cases hf
  · rw [h.ref f, hslots f]
  · rw [h.io p] at hio
    cases hio

theorem reach_inv (h : Reach s) : Inv s := by
  induction h with
  | init h0 => exact init_inv h0
  | step _ hs ih => exact step_inv ih hs

/-- No call panics but `exit` of the first process. -/
theorem calls_return (h : Reach s) (hp : p < NPROC) (hu : (s.proc p).state = .used)
    (hio : (s.proc p).io = none) {c : Call}
    {e : Panic} (hc : sys p c s = .error e s') : p = 0 ∧ c = .exit ∧ e = .initExiting := by
  have hw := sys_inv (reach_inv h) hp hu hio c
  simpa only [wp, hc] using hw

/-- A page is freed as often as it was allocated, or once less while it is live. -/
theorem lives_count {t : List PageEv} (h : lives t = some live) (pa : Nat) :
    t.count (.alloc pa) = t.count (.free pa) + if live pa = true then 1 else 0 := by
  induction t using List.reverseRecOn generalizing live with
  | nil =>
    cases h
    rfl
  | append_singleton t e ih =>
    rw [lives_snoc] at h
    obtain ⟨live1, h1, h2⟩ := Option.bind_eq_some_iff.mp h
    have hi := ih h1
    rw [List.count_append, List.count_append]
    cases e with
    | alloc pb =>
      simp only [after] at h2
      split at h2
      · cases h2
      · rename_i hdead
        cases h2
        by_cases e : pa = pb
        · subst e
          simp only [hdead, Bool.false_eq_true, if_false] at hi
          simp [hi]
        · simp [upd_ne e, hi, Ne.symm e]
    | use pb =>
      simp only [after] at h2
      split at h2
      · cases h2
        simp [hi]
      · cases h2
    | free pb =>
      simp only [after] at h2
      split at h2
      · rename_i hlive
        cases h2
        by_cases e : pa = pb
        · subst e
          simp only [hlive, if_true] at hi
          simp [hi]
        · simp [upd_ne e, hi, Ne.symm e]
      · cases h2

/-- Between any two calls: a file's `ref` counts its descriptors, and a file nothing refers to is of no type. Every
    page was
allocated, used and freed in this order as the pipes came and went, so it was freed as often as it was allocated, or
once less
if it is a pipe's now; it is if and only if an end of the pipe is open, and its flags say which. -/
theorem file_lifetime (h : Reach s) :
    (∀ f, (s.ftable f).ref = slots s.proc f) ∧ (∀ f, (s.ftable f).ref = 0 → (s.ftable f).type = .none) ∧
      ∃ live, lives s.trace = some live ∧
        (∀ pa, s.trace.count (.alloc pa) = s.trace.count (.free pa) + if live pa = true then 1 else 0) ∧
        (∀ pa w, live pa = true → Flag ((s.page pa).isOpen w) (∃ f, 0 < (s.ftable f).ref ∧ IsEnd s.ftable f pa w)) ∧
        (∀ pa, live pa = true ↔ ∃ f w, 0 < (s.ftable f).ref ∧ IsEnd s.ftable f pa w) ∧
        ∀ f g pa w, IsEnd s.ftable f pa w → IsEnd s.ftable g pa w → f = g := by
  have hi := reach_inv h
  obtain ⟨live, he⟩ := hi.ends
  have hpos : ∀ {f pa w}, IsEnd s.ftable f pa w → 0 < (s.ftable f).ref := fun {f _ _} hf => Nat.pos_of_ne_zero
      fun h0 => by
    have := hf.type
    rw [he.closed f h0] at this
    cases this
  refine ⟨hi.refs, he.closed, live, he.traced, lives_count he.traced, fun pa w hl => ?_, fun pa =>
    ⟨fun hl => ?_, ?_⟩, he.unique⟩
  · have hiff : (∃ f, 0 < (s.ftable f).ref ∧ IsEnd s.ftable f pa w) ↔ ∃ f, IsEnd s.ftable f pa w :=
      exists_congr fun f => ⟨And.right, fun hf => ⟨hpos hf, hf⟩⟩
    rw [hiff]
    exact he.flag pa w hl
  · obtain ⟨f, w, hf⟩ := he.someone pa hl
    exact ⟨f, w, hpos hf, hf⟩
  · rintro ⟨f, w, -, hf⟩
    exact hf.pipe ▸ he.isLive f hf.type

def run : List (Nat × Call) → St → Option St
  | [], s => some s
  | (p, c) :: cs, s =>
    if p < NPROC ∧ (s.proc p).state = .used ∧ (s.proc p).io = none then
      match sys p c s with
      | .ok _ s' => run cs s'
      | .error _ _ => none
    else none

theorem reach_run {cs : List (Nat × Call)} (h : Reach s) (hr : run cs s = some s') : Reach s' := by
  induction cs generalizing s with
  | nil =>
    cases hr
    exact h
  | cons x cs ih =>
    obtain ⟨p, c⟩ := x
    unfold run at hr
    split at hr
    case isFalse => cases hr
    case isTrue hok =>
      cases hs : sys p c s with
      | error e s1 =>
        rw [hs] at hr
        cases hr
      | ok r s1 =>
        rw [hs] at hr
        exact ih (h.step (.call hok.1 hok.2.1 hok.2.2 hs)) hr

def booted : St where
  ftable _ := ⟨⟨.none, 0, false, false, 0, 0, 0⟩, 0⟩
  proc p := ⟨if p = 0 then .used else .unused, fun _ => none, none⟩
  freelist := [7, 8, 9]
  held := []
  page _ := junk 1
  trace := []

theorem booted_init : Init booted :=
  ⟨fun _ => rfl, fun _ => rfl, fun _ _ => rfl, fun _ => rfl, fun _ => rfl, by decide, rfl⟩

/-- Process 0 makes a pipe, duplicates one end and forks; then the child's `exit`, which closes the ends, returns. -/
theorem calls_return_shared : ∃ s, run [(0, .pipe ⟨true, true, true, true, true, true, true⟩), (0, .dup 0 true),
    (0, .fork true)] booted = some s ∧ (s.ftable 0).ref = 4 ∧ ∃ r s', sys 1 .exit s = .ok r s' := by
  have hrun :
      (run [(0, .pipe ⟨true, true, true, true, true, true, true⟩), (0, .dup 0 true), (0, .fork true)] booted).map
      (fun s => ((s.ftable 0).ref, (s.proc 1).state, (s.proc 1).io)) = some (4, .used, none) := by decide +kernel
  obtain ⟨s, hs, h⟩ := Option.map_eq_some_iff.mp hrun
  simp only [Prod.mk.injEq] at h
  obtain ⟨href, hu, hio⟩ := h
  refine ⟨s, hs, href, ?_⟩
  cases hc : sys 1 .exit s with
  | ok r s' => exact ⟨r, s', rfl⟩
  | error e s' => exact absurd (calls_return (reach_run (.init booted_init) hs) (by decide) hu hio hc).1 (by decide)

/-- A pipe is shared with a child; the parent closes both ends, the child exits; and a second pipe is made of the same
    page and
given up because the descriptors cannot be copied out. -/
theorem file_lifetime_twice : ∃ s, Reach s ∧
    s.trace = [.alloc 7, .use 7, .use 7, .use 7, .free 7, .alloc 7, .use 7, .use 7, .use 7, .free 7] ∧
    ∃ live, lives s.trace = some live ∧ ∀ pa, live pa = true ↔ ∃ f w, 0 < (s.ftable f).ref ∧ IsEnd s.ftable f pa w := by
  have hrun : (run [(0, .pipe ⟨true, true, true, true, true, true, true⟩), (0, .fork true), (0, .close 0),
      (0, .close 1), (1, .exit), (0, .pipe ⟨true, true, true, true, true, true, false⟩)] booted).map (·.trace) =
      some [.alloc 7, .use 7, .use 7, .use 7, .free 7, .alloc 7, .use 7, .use 7, .use 7, .free 7] := by decide +kernel
  obtain ⟨s, hs, ht⟩ := Option.map_eq_some_iff.mp hrun
  have hr := reach_run (.init booted_init) hs
  obtain ⟨-, -, live, h1, -, -, h2, -⟩ := file_lifetime hr
  exact ⟨s, hr, ht, live, h1, h2⟩

end Xv6.Ipc.Files
