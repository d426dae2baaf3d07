/-
  Xv6.Ipc.Replay — the trace of `Files` tells what became of the free list.

  Whatever a call does, the free list behind it is the one before with the call's allocations
  and frees replayed in their order (`Pages`). No call but `fork`, `exit` and `wait` changes
  the state of a process.
-/
import Xv6.Ipc.Lifetime

namespace Xv6.Ipc.Files

open Xv6.Fs (FdType ProcState Panic Dinode T_DEVICE openedFile)

variable {s s' s'' : St} {α β : Type} {m : M α} {p q : Nat} {l l' l'' : List Nat} {evs evs' : List PageEv}

inductive Replay : List Nat → List PageEv → List Nat → Prop
  | nil (l : List Nat) : Replay l [] l
  | alloc {pa : Nat} {l l' : List Nat} {evs : List PageEv} : Replay l evs l' → Replay (pa :: l) (.alloc pa :: evs) l'
  | use {pa : Nat} {l l' : List Nat} {evs : List PageEv} : Replay l evs l' → Replay l (.use pa :: evs) l'
  | free {pa : Nat} {l l' : List Nat} {evs : List PageEv} : Replay (pa :: l) evs l' → Replay l (.free pa :: evs) l'

theorem Replay.append (h : Replay l evs l') (h' : Replay l' evs' l'') : Replay l (evs ++ evs') l'' := by
  induction h with
  | nil => exact h'
  | alloc _ ih => exact .alloc (ih h')
  | use _ ih => exact .use (ih h')
  | free _ ih => exact .free (ih h')

structure Paged (s s' : St) : Prop where
  replay : ∃ evs, s'.trace = s.trace ++ evs ∧ Replay s.freelist evs s'.freelist
  held : s'.held = s.held
  state : ∀ q, (s'.proc q).state = (s.proc q).state

/-- No page was touched. -/
theorem Paged.quiet (ht : s'.trace = s.trace) (hf : s'.freelist = s.freelist) (hh : s'.held = s.held)
    (hs : ∀ q, (s'.proc q).state = (s.proc q).state) : Paged s s' :=
  ⟨⟨[], by rw [ht, List.append_nil], hf ▸ .nil _⟩, hh, hs⟩

theorem Paged.refl (s : St) : Paged s s := .quiet rfl rfl rfl fun _ => rfl

theorem Paged.trans (h : Paged s s') (h' : Paged s' s'') : Paged s s'' := by
  obtain ⟨⟨e, he, hr⟩, hh, hs⟩ := h
  obtain ⟨⟨e', he', hr'⟩, hh', hs'⟩ := h'
  exact ⟨⟨e ++ e', by rw [he', he, List.append_assoc], hr.append hr'⟩, hh'.trans hh, fun q => (hs' q).trans (hs q)⟩

/-- From every state, `m` leaves the free list its trace tells of. -/
def Pages (m : M α) : Prop := ∀ s, wp m (fun _ s' => Paged s s') (fun _ _ => True) s

theorem Pages.pure (a : α) : Pages (pure a : M α) := fun s => Paged.refl s

theorem Pages.get : Pages (get : M St) := fun s => Paged.refl s

theorem Pages.throw (e : Panic) : Pages (throw e : M α) := fun _ => trivial

theorem Pages.bind {f : α → M β} (hm : Pages m) (hf : ∀ a, Pages (f a)) : Pages (m >>= f) := by
  intro s
  rw [wp_bind]
  refine (hm s).imp fun a s1 h1 => ?_
  exact (hf a s1).imp fun _ s2 h2 => h1.trans h2

theorem Pages.ite {c : Prop} [Decidable c] {n : M α} (hm : Pages m) (hn : Pages n) : Pages (if c then m else n) := by
  split
  · exact hm
  · exact hn

theorem setFile_pages (f : Nat) (g : File → File) : Pages (setFile f g) := fun _ => .quiet rfl rfl rfl fun _ => rfl

theorem setPage_pages (pa : Nat) (g : Pipe → Pipe) : Pages (setPage pa g) := fun _ => .quiet rfl rfl rfl fun _ => rfl

theorem setFd_pages (p fd : Nat) (y : Option Nat) : Pages (setFd p fd y) := fun s => .quiet rfl rfl rfl fun q => by
  show ((s.fd p fd y).proc q).state = _
  by_cases e : q = p
  · subst e
    unfold St.fd
    rw [St.process_proc, upd_same]
  · unfold St.fd
    rw [St.process_proc, upd_ne e]

theorem use_pages (pa : Nat) : Pages (emit (.use pa)) := fun _ => ⟨⟨[.use pa], rfl, .use (.nil _)⟩, rfl, fun _ => rfl⟩

theorem kalloc_pages (ok : Bool) : Pages (kalloc ok) := by
  intro s
  have h := kalloc_spec (s := s) ok (Q := fun _ s' => Paged s s') (Paged.refl s) fun pa rest hfree =>
    ⟨⟨[.alloc pa], rfl, hfree ▸ .alloc (.nil _)⟩, rfl, fun _ => rfl⟩
  exact h.mono (fun _ _ hs => hs) fun _ _ _ => trivial

theorem kfree_pages (pa : Nat) : Pages (kfree pa) := fun _ => ⟨⟨[.free pa], rfl, .free (.nil _)⟩, rfl, fun _ => rfl⟩

/-! ## The functions -/

theorem pipeclose_pages (pi : Nat) (writable : Bool) : Pages (pipeclose pi writable) := by
  unfold pipeclose
  refine (use_pages pi).bind fun _ => ?_
  have hlast : ∀ _ : Unit, Pages (do
      let x := (← get).page pi
      if x.readopen = 0 ∧ x.writeopen = 0 then kfree pi else pure ()) := fun _ =>
    Pages.get.bind fun s => .ite (kfree_pages pi) (.pure _)
  exact .ite ((setPage_pages _ _).bind hlast) ((setPage_pages _ _).bind hlast)

theorem fileclose_pages (f : Nat) : Pages (fileclose f) := by
  unfold fileclose
  refine Pages.get.bind fun s => ?_
  refine .ite (.throw _) (.ite (setFile_pages _ _) ?_)
  refine (setFile_pages _ _).bind fun _ => ?_
  exact .ite (pipeclose_pages _ _) (.pure _)

theorem filedup_pages (f : Nat) : Pages (filedup f) := by
  unfold filedup
  exact Pages.get.bind fun s => .ite (.throw _) (setFile_pages _ _)

theorem filealloc_pages (ok : Bool) : Pages (filealloc ok) := by
  unfold filealloc
  refine Pages.get.bind fun s => ?_
  split
  · exact (setFile_pages _ _).bind fun _ => .pure _
  · exact .pure _

theorem fdalloc_pages (p f : Nat) (ok : Bool) : Pages (fdalloc p f ok) := by
  unfold fdalloc
  refine Pages.get.bind fun s => ?_
  split
  · exact (setFd_pages _ _ _).bind fun _ => .pure _
  · exact .pure _

theorem argfd_pages (p : Nat) (fd : Int) : Pages (argfd p fd) := by
  unfold argfd
  exact .ite (.pure _) (Pages.get.bind fun _ => .pure _)

theorem pipeallocBad_pages (pi f0 f1 : Option Nat) : Pages (pipeallocBad pi f0 f1) := by
  -- the page is given back first, then the files
  have hend : ∀ f1 : Option Nat, Pages (pipeallocBad none none f1) := fun f1 => by
    cases f1 with
    | none => exact .pure _
    | some f => exact (fileclose_pages f).bind fun _ => .pure _
  have hfiles : ∀ f0 f1 : Option Nat, Pages (pipeallocBad none f0 f1) := fun f0 f1 => by
    cases f0 with
    | none => exact hend f1
    | some f => exact (fileclose_pages f).bind fun _ => hend f1
  cases pi with
  | none => exact hfiles f0 f1
  | some pi => exact (kfree_pages pi).bind fun _ => hfiles f0 f1

theorem pipealloc_pages (o : PipeOk) : Pages (pipealloc o) := by
  unfold pipealloc
  refine (filealloc_pages _).bind fun r => ?_
  cases r with
  | none => exact pipeallocBad_pages _ _ _
  | some f0 =>
    refine (filealloc_pages _).bind fun r => ?_
    cases r with
    | none => exact pipeallocBad_pages _ _ _
    | some f1 =>
      refine (kalloc_pages _).bind fun r => ?_
      cases r with
      | none => exact pipeallocBad_pages _ _ _
      | some pi =>
        refine (use_pages pi).bind fun _ => (setPage_pages _ _).bind fun _ => ?_
        exact (setFile_pages _ _).bind fun _ => (setFile_pages _ _).bind fun _ => .pure _

theorem pipeUndo_pages (rf wf : Nat) : Pages (pipeUndo rf wf) := by
  unfold pipeUndo
  exact (fileclose_pages rf).bind fun _ => (fileclose_pages wf).bind fun _ => .pure _

theorem sysPipe_pages (p : Nat) (o : PipeOk) : Pages (sysPipe p o) := by
  unfold sysPipe
  refine (pipealloc_pages o).bind fun r => ?_
  cases r with
  | none => exact .pure _
  | some ends =>
    refine (fdalloc_pages _ _ _).bind fun r => ?_
    cases r with
    | none => exact pipeUndo_pages _ _
    | some fd0 =>
      refine (fdalloc_pages _ _ _).bind fun r => ?_
      cases r with
      | none => exact (setFd_pages _ _ _).bind fun _ => pipeUndo_pages _ _
      | some fd1 =>
        refine .ite ?_ (.pure _)
        exact (setFd_pages _ _ _).bind fun _ => (setFd_pages _ _ _).bind fun _ => pipeUndo_pages _ _

theorem sysDup_pages (p : Nat) (fd : Int) (ok : Bool) : Pages (sysDup p fd ok) := by
  unfold sysDup
  refine (argfd_pages _ _).bind fun r => ?_
  cases r with
  | none => exact .pure _
  | some f =>
    refine (fdalloc_pages _ _ _).bind fun r => ?_
    cases r with
    | none => exact .pure _
    | some fd => exact (filedup_pages f).bind fun _ => .pure _

theorem sysClose_pages (p : Nat) (fd : Int) : Pages (sysClose p fd) := by
  unfold sysClose
  refine (argfd_pages _ _).bind fun r => ?_
  cases r with
  | none => exact .pure _
  | some f => exact (setFd_pages _ _ _).bind fun _ => (fileclose_pages f).bind fun _ => .pure _

theorem sysOpen_pages (p : Nat) (ino : Option (Nat × Dinode)) (omode : Nat) (okFile okFd : Bool) :
    Pages (sysOpen p ino omode okFile okFd) := by
  unfold sysOpen
  cases ino with
  | none => exact .pure _
  | some i =>
    refine .ite (.pure _) ?_
    refine (filealloc_pages _).bind fun r => ?_
    cases r with
    | none => exact .pure _
    | some f =>
      refine (fdalloc_pages _ _ _).bind fun r => ?_
      cases r with
      | none => exact (fileclose_pages f).bind fun _ => .pure _
      | some fd => exact (setFile_pages _ _).bind fun _ => .pure _

theorem exitFds_pages (p : Nat) (fds : List Nat) : Pages (exitFds p fds) := by
  induction fds with
  | nil => exact .pure _
  | cons fd fds ih =>
    unfold exitFds
    refine Pages.get.bind fun s => ?_
    split
    · exact (fileclose_pages _).bind fun _ => (setFd_pages _ _ _).bind fun _ => ih
    · exact ih

/-! ## fork, exit and wait -/

/-- `fork`'s loop touches no page. -/
theorem forkFds_quiet (p q : Nat) (fds : List Nat) (s : St) : wp (forkFds p q fds) (fun _ s' =>
    s'.trace = s.trace ∧ s'.freelist = s.freelist ∧ s'.held = s.held ∧ ∀ x, (s'.proc x).state = (s.proc x).state)
      (fun _ _ => True) s := by
  induction fds generalizing s with
  | nil => exact ⟨rfl, rfl, rfl, fun _ => rfl⟩
  | cons fd fds ih =>
    unfold forkFds
    rw [wp_bind, wp_get]
    split
    · rename_i f hf
      rw [wp_bind]
      unfold filedup
      rw [wp_bind, wp_get]
      refine wp_ite (fun _ => trivial) fun _ => ?_
      unfold setFile
      rw [wp_modify, wp_bind]
      unfold setFd
      rw [wp_modify]
      refine (ih _).imp fun _ s' hs => ?_
      refine ⟨hs.1, hs.2.1, hs.2.2.1, fun x => (hs.2.2.2 x).trans ?_⟩
      unfold St.fd
      rw [St.process_proc]
      by_cases e : x = q
      · rw [e, upd_same]
        rfl
      · rw [upd_ne e]
        rfl
    · exact ih s

theorem fork_quiet {s : St} (hq : ((List.range NPROC).find? fun q => decide ((s.proc q).state = .unused)) = some q) :
    wp (fork p true) (fun _ s' => s'.trace = s.trace ∧ s'.freelist = s.freelist ∧ s'.held = s.held ∧
      ∀ x, (s'.proc x).state = if x = q then .used else (s.proc x).state) (fun _ _ => True) s := by
  unfold fork
  rw [wp_bind, wp_get, hq]
  refine wp_neg (by decide) ?_
  rw [wp_bind]
  refine (forkFds_quiet p q _ s).imp fun _ s1 h1 => ?_
  rw [wp_bind]
  unfold setProc
  rw [wp_modify, wp_pure]
  refine ⟨h1.1, h1.2.1, h1.2.2.1, fun x => ?_⟩
  rw [St.process_proc]
  by_cases e : x = q
  · rw [e, upd_same, if_pos rfl]
  · rw [upd_ne e, if_neg e]
    exact h1.2.2.2 x

theorem exit_pages (p : Nat) (s : St) :
    wp (exit p) (fun _ s' => (∃ evs, s'.trace = s.trace ++ evs ∧ Replay s.freelist evs s'.freelist) ∧
    s'.held = s.held ∧ ∀ x, (s'.proc x).state = if x = p then .zombie else (s.proc x).state) (fun _ _ => True) s := by
  unfold exit
  refine wp_ite (fun _ => trivial) fun _ => ?_
  rw [wp_bind]
  refine (exitFds_pages p _ s).imp fun _ s1 h1 => ?_
  rw [wp_bind]
  unfold setProc
  rw [wp_modify, wp_pure]
  refine ⟨h1.replay, h1.held, fun x => ?_⟩
  rw [St.process_proc]
  by_cases e : x = p
  · rw [e, upd_same, if_pos rfl]
  · rw [upd_ne e, if_neg e]
    exact h1.state x

theorem reap_quiet {s : St} (hz : (s.proc q).state = .zombie) :
    wp (reap q) (fun _ s' => s'.trace = s.trace ∧ s'.freelist = s.freelist ∧
    s'.held = s.held ∧ ∀ x, (s'.proc x).state = if x = q then .unused else (s.proc x).state) (fun _ _ => True) s := by
  unfold reap
  rw [wp_bind, wp_get]
  refine wp_pos hz ?_
  rw [wp_bind]
  unfold setProc
  rw [wp_modify, wp_pure]
  refine ⟨rfl, rfl, rfl, fun x => ?_⟩
  rw [St.process_proc]
  by_cases e : x = q
  · rw [e, upd_same, if_pos rfl]
  · rw [upd_ne e, if_neg e]

theorem lives_append (t evs : List PageEv) : lives (t ++ evs) = (lives t).bind fun live => evs.foldlM after live :=
  List.foldlM_append

end Xv6.Ipc.Files
