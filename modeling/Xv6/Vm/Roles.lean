/-
  Xv6.Vm.Roles — every page frame has one role, between any two calls.

  One lemma per call says that it keeps `Owned`; `exec` and `sbrk` move pages of one process,
  `fork` and `wait` make and end one, the others work on files. Roles are then read off the
  owners and the address spaces.
-/
import Xv6.Vm.Owners

namespace Xv6.Vm

open Ipc.Files (PageEv PipeOk lives)
open Fs (Dinode)

variable {K : Image} {B : Boot} {s s' : Sys} {r r' : St} {F F' : Set Nat} {l l' : List Nat} {p q f : Nat} {α : Type}
  {Q : α → Sys → Prop} {E : Err → Sys → Prop}

/-! ## Rules -/

theorem wp_onRam {m : M α} : wp (onRam m) Q E s =
    wp m (fun a r => Q a { s with ram := r }) (fun e r => E (.inl e) { s with ram := r }) s.ram := by
  unfold wp onRam
  cases m s.ram with
  | ok a r => rfl
  | error e r => rfl

theorem wp_onFiles {m : Ipc.Files.M α} : wp (onFiles K m) Q E s =
    wp m (fun a i => wp (replay K (i.trace.drop s.files.trace.length)) (fun _ r => Q a { s with files := i, ram := r })
        (fun e r => E (.inl e) { s with files := i, ram := r }) s.ram)
      (fun e i => E (.inr e) { s with files := i }) { s.files with freelist := s.ram.free, held := [] } := by
  unfold wp onFiles
  cases m { s.files with freelist := s.ram.free, held := [] } with
  | ok a i =>
    dsimp only
    cases replay K (i.trace.drop s.files.trace.length) s.ram with
    | ok a r => rfl
    | error e r => rfl
  | error e i => rfl

/-- A file call that moves no page. -/
theorem wp_onFiles_quiet {m : Ipc.Files.M α} (h : wp m (fun a i => i.trace = s.files.trace ∧ Q a { s with files := i })
      (fun e i => E (.inr e) { s with files := i }) { s.files with freelist := s.ram.free, held := [] }) :
    wp (onFiles K m) Q E s := by
  rw [wp_onFiles]
  refine h.imp fun a i hi => ?_
  rw [hi.1, List.drop_length]
  exact hi.2

theorem wp_setProc {x : Proc} {Q : Unit → Sys → Prop} :
    wp (setProc p x) Q E s = Q () { s with proc := upd s.proc p x } := rfl

/-! ## The calls -/

/-- A call's files and the free list behind it. -/
theorem Owned.onFiles {m : Ipc.Files.M α} {E : Fs.Panic → Prop} (h : Owned K B s)
    (hinv : wp m (fun _ i => Ipc.Files.Inv i) (fun e _ => E e) { s.files with freelist := s.ram.free, held := [] })
    (hp : wp m (fun _ i => (∃ evs, i.trace = s.files.trace ++ evs ∧ Ipc.Files.Replay s.ram.free evs i.freelist) ∧
      i.held = [] ∧ ∀ q, (i.proc q).state = .unused ↔ (s.files.proc q).state = .unused) (fun _ _ => True)
      { s.files with freelist := s.ram.free, held := [] }) :
    wp (onFiles K m) (fun _ s' => Owned K B s') (fun e _ => ∃ e', e = .inr e' ∧ E e') s := by
  rw [wp_onFiles]
  refine (hinv.and hp).mono (fun a i => ?_) fun e _ he => ⟨e, rfl, he.1⟩
  rintro ⟨hi, ⟨evs, ht, hr⟩, hheld, hstate⟩
  exact h.filed hi ht hr hheld hstate

theorem Owned.pages {m : Ipc.Files.M α} (h : Owned K B s)
    (hinv : wp m (fun _ i => Ipc.Files.Inv i) (fun _ _ => False) { s.files with freelist := s.ram.free, held := [] })
    (hp : Ipc.Files.Pages m) : wp (Vm.onFiles K m) (fun _ s' => Owned K B s') (fun _ _ => False) s := by
  refine (h.onFiles (E := fun _ => False) hinv ((hp _).mono (fun _ i hi => ?_) fun _ _ he => he)).mono
    (fun _ _ hs => hs) ?_
  · exact ⟨hi.replay, hi.held, fun q => by rw [hi.state q]⟩
  · rintro _ _ ⟨-, -, he⟩
    exact he

/-- Process `q` is made of free pages, or its pages become free. -/
theorem Owned.turned {i : Ipc.Files.St} {x : Proc} (h : Owned K B s) (hh : Heap K r F')
    (hoff : SameOff (owned B s .free ∪ owned B s (.proc q)) s.ram.mem r.mem)
    (hsum : F' ∪ owned B { s with ram := r, proc := upd s.proc q x, files := i } (.proc q) = owned B s .free ∪
      owned B s (.proc q))
    (hd : ∀ f ∈ F', f ∉ owned B { s with ram := r, proc := upd s.proc q x, files := i } (.proc q))
    (hself : ((i.proc q).state ≠ .unused → Aspace K r x.pagetable x.sz x.trapframe F' ∧
      x.trapframe ∉ held r x.pagetable x.sz) ∧ ((i.proc q).state = .unused → x = .zero)) (hq : q < NPROC)
    (hinv : Ipc.Files.Inv i) (ht : i.trace = s.files.trace) (hl : i.freelist = r.free) (hheld : i.held = [])
    (hstate : ∀ y, y ≠ q → (i.proc y).state = (s.files.proc y).state) :
    Owned K B { s with ram := r, proc := upd s.proc q x, files := i } := by
  refine h.change (.proc q) hh hoff (fun y hy => ?_) (fun _ => ht) (fun y hy => ?_) hsum hd ?_
  · have hne : y ≠ q := fun he => hy (congrArg Owner.proc he)
    exact ⟨upd_ne hne _, by rw [hstate y hne]⟩
  · cases hy
    dsimp only
    rw [upd_same]
    refine ⟨fun hlive => hself.1 hlive.2, fun _ hlive => hself.2 ?_⟩
    by_contra hne
    exact hlive ⟨hq, hne⟩
  · dsimp only
    rw [← hl, ← hheld]
    exact hinv

theorem Aspace.leaf_apart {pt sz tf : Nat} (h : Aspace K r pt sz tf F) (hf : f ∈ userFrames r.mem pt sz) :
    f ∉ nodes r.mem pt := by
  have hb := h.space.pages_le
  obtain ⟨-, k, hk, fl, hf⟩ := hf
  exact (h.space.data (0 + k) (by omega) f fl hf).2.2.1

theorem Aspace.isSome_iff {pt sz tf : Nat} (h : Aspace K r pt sz tf F) (q : Nat) :
    (view r.mem pt q).isSome ↔ q < pages sz ∨ q = TRAPFRAME / PGSIZE ∨ q = TRAMPOLINE / PGSIZE := by
  have hb := h.space.pages_le
  show _ ↔ q < pages sz ∨ q = 0xFFFFE ∨ q = 0xFFFFF
  by_cases hq : q < 0xFFFFE
  · rw [h.space.leaves q hq]
    omega
  by_cases h1 : q = 0xFFFFE
  · rw [h1, h.trapframe]
    simp
  by_cases h2 : q = 0xFFFFF
  · rw [h2, h.trampoline]
    simp
  · rw [view_high (by omega)]
    simp only [Option.isSome_none, Bool.false_eq_true, false_iff]
    omega

theorem Owned.trapframe_frame (h : Owned K B s) (hp : s.Live p) : Frame K (s.proc p).trapframe :=
  h.parts.sub (.proc p) ⟨hp, Or.inl rfl⟩

theorem Owned.trapframe_free (h : Owned K B s) (hp : s.Live p) : (s.proc p).trapframe ∉ s.ram.free := fun hin =>
  nomatch h.parts.disj (i := .proc p) (j := .free) ⟨hp, Or.inl rfl⟩ hin

theorem Owned.fork_owned (h : Owned K B s) (hp : s.Live p) :
    wp (call K p .fork) (fun _ s' => Owned K B s') (fun _ _ => False) s := by
  unfold call
  rw [wp_bind, wp_get]
  split
  · exact h
  rename_i q hfind
  have hq : q < NPROC := List.mem_range.mp (List.mem_of_find?_eq_some hfind)
  have hfree : (s.files.proc q).state = .unused := by simpa using List.find?_some hfind
  have hdead : ¬ s.Live q := fun hl => hl.2 hfree
  have hempty : owned B s (.proc q) = ∅ := Set.eq_empty_iff_forall_notMem.mpr fun f hf => hdead hf.1
  rw [h.zero q hq hdead, wp_bind, wp_onRam]
  refine (fork_spec (h.space p hp)).mono (fun r r' => ?_) fun _ _ => False.elim
  rintro (⟨rfl, hh, hm⟩ | ⟨np, F', rfl, hb⟩)
  · have hs := h.moved (x := s.proc p) hp rfl (Moved.untouched (h.space p hp) hm hh)
    rw [upd_self] at hs
    exact hs
  dsimp only
  rw [wp_bind, wp_setProc]
  have hheap := hb.space.space.table.heap
  have hinv := h.refree hheap fun f hf hin => nomatch h.parts.disj (i := .free) (j := .pipe) (hb.free hf) hin
  refine wp_onFiles_quiet ?_
  refine ((Ipc.Files.fork_inv hinv hp.1 true).and (Ipc.Files.fork_quiet hfind)).mono (fun _ i => ?_) fun _ _ he => he.1
  rintro ⟨hi, ht, hl, hheld, hstate⟩
  have hown : owned B { ram := r', files := i, proc := upd s.proc q np } (.proc q) = np.own r' := by
    rw [Owned.own_eq ⟨hq, by dsimp only; rw [hstate q, if_pos rfl]; decide⟩]
    dsimp only
    rw [upd_same]
  refine ⟨ht, h.turned hheap (hb.off.mono Set.subset_union_left) ?_ (fun f hf => ?_) ⟨fun _ => ⟨hb.space, hb.apart.2⟩,
    fun h0 => ?_⟩ hq hi ht hl hheld fun y hy => ?_⟩
  · rw [hown, hempty, Set.union_empty]
    exact hb.sum
  · rw [hown]
    rintro (rfl | hin)
    · exact hb.apart.1 hf
    · exact hb.space.held_apart f hin hf
  · rw [hstate q, if_pos rfl] at h0
    cases h0
  · rw [hstate y, if_neg hy]

theorem Owned.wait_owned (h : Owned K B s) (hp : s.Live p) {addr xstate : Nat} (hq : q < NPROC)
    (haddr : addr < 2 ^ 32) : wp (call K p (.wait q addr xstate)) (fun _ s' => Owned K B s') (fun _ _ => False) s := by
  unfold call
  rw [wp_bind, wp_get]
  refine wp_ite (fun _ => h) fun hz => ?_
  have hz : (s.files.proc q).state = .zombie := not_not.mp hz
  have hlive : s.Live q := ⟨hq, by rw [hz]; decide⟩
  -- from where the exit status is copied out
  have hrest : ∀ s1 : Sys, Owned K B s1 → s1.files = s.files → s1.proc = s.proc → wp (do
      Vm.onRam (freeproc K (s.proc q))
      Vm.setProc q .zero
      Vm.onFiles K (Ipc.Files.reap q)) (fun _ s' => Owned K B s') (fun _ _ => False) s1 := by
    intro s1 h₁ hf hpr
    have hlive1 : s1.Live q := by
      unfold Sys.Live
      rw [hf]
      exact hlive
    have hown := Owned.own_eq (B := B) hlive1
    rw [wp_bind, wp_onRam, ← hpr]
    refine freeproc_spec (h₁.space q hlive1) (h₁.trapframe_frame hlive1) (h₁.trapframe_free hlive1) (h₁.apart q hlive1)
      fun r hh hm => ?_
    rw [wp_bind, wp_setProc]
    have hinv := h₁.refree hh fun f hf hin => hf.elim (fun hf => nomatch h₁.parts.disj (i := .free) (j := .pipe) hf hin)
        fun hf => by
      rw [← hown] at hf
      exact nomatch h₁.parts.disj hf hin
    refine wp_onFiles_quiet ?_
    have hz1 : (s1.files.proc q).state = .zombie := by rw [hf]; exact hz
    refine ((Ipc.Files.reap_inv hinv q).and (Ipc.Files.reap_quiet hz1)).mono (fun _ i => ?_) fun _ _ he => he.1
    rintro ⟨hi, ht, hl, hheld, hstate⟩
    have hun : (i.proc q).state = .unused := by rw [hstate q, if_pos rfl]
    have hempty : owned B { ram := r, files := i, proc := upd s1.proc q .zero } (.proc q) = ∅ :=
      Set.eq_empty_iff_forall_notMem.mpr fun f hf => hf.1.2 hun
    refine ⟨ht, h₁.turned hh (hm.mono ?_) ?_ (fun f _ => ?_) ⟨fun hne => absurd hun hne, fun _ => rfl⟩ hq hi ht hl hheld
      fun y hy => ?_⟩
    · rw [hown]
      exact Set.subset_union_right
    · rw [hempty, hown, Set.union_empty]
      rfl
    · rw [hempty]
      exact Set.notMem_empty f
    · rw [hstate y, if_neg hy]
  refine wp_ite (fun _ => ?_) fun _ => hrest s h rfl rfl
  rw [wp_bind, wp_onRam]
  refine (copyout_moves (h.space p hp) haddr).mono (fun r1 r => ?_) fun _ _ => False.elim
  rintro ⟨hm, hl⟩
  have h₁ : Owned K B { s with ram := r } := by
    have hin : ∀ f ∈ userFrames s.ram.mem (s.proc p).pagetable (s.proc p).sz, f ∈ owned B s (.proc p) := fun f hf =>
      held_owned hp (Or.inr hf)
    refine h.written hm (fun f hf hu => nomatch h.parts.disj (i := .free) hf (hin f hu)) (fun y hy t ht hu => ?_) hl
    cases h.parts.disj (held_owned hy (Or.inl ht)) (hin t hu)
    exact (h.space p hp).leaf_apart hu ht
  exact wp_ite (fun _ => h₁) fun _ => hrest _ h₁ rfl rfl

/-- No call stops, but `exit` of the first process, and every frame has its owner behind it. -/
theorem Owned.call_owned {c : Call} (h : Owned K B s) (hp : p < NPROC) (hu : (s.files.proc p).state = .used)
    (hio : (s.files.proc p).io = none) (hc : c.Ok) :
    wp (call K p c) (fun _ s' => Owned K B s') (fun e _ => p = 0 ∧ c = .exit ∧ e = .inr .initExiting) s := by
  have hlive : s.Live p := ⟨hp, by rw [hu]; decide⟩
  have total : ∀ {m : SM Int}, wp m (fun _ s' => Owned K B s') (fun _ _ => False) s →
      wp m (fun _ s' => Owned K B s') (fun e _ => p = 0 ∧ c = .exit ∧ e = .inr .initExiting) s :=
    fun hm => hm.mono (fun _ _ => id) fun _ _ => False.elim
  cases c with
  | fork => exact total (h.fork_owned hlive)
  | exec args file path =>
    unfold call
    rw [wp_bind, wp_get, wp_bind, wp_onRam]
    refine (sysExec_moves (h.space p hlive) (h.trapframe_frame hlive)).mono (fun x r => ?_) fun _ _ => False.elim
    rintro ⟨htf, F', hm⟩
    rw [wp_bind, wp_setProc, wp_pure]
    exact h.moved hlive htf hm
  | sbrk n =>
    unfold call
    rw [wp_bind, wp_get, wp_bind, wp_onRam]
    refine (growproc_moves (h.space p hlive) hc).mono (fun x r => ?_) fun _ _ => False.elim
    rintro ⟨F', hm⟩
    rw [wp_bind, wp_setProc]
    have hs := h.moved (x := { s.proc p with sz := x.2 }) hlive rfl hm
    exact wp_ite (fun _ => hs) fun _ => hs
  | wait q addr xstate => exact total (h.wait_owned hlive hc.1 hc.2)
  | «open» ino omode okFile okFd =>
    exact total (h.pages (Ipc.Files.sysOpen_inv h.files hp hu hio ino omode okFile okFd)
      (Ipc.Files.sysOpen_pages p ino omode okFile okFd))
  | pipe o => exact total (h.pages (Ipc.Files.sysPipe_inv h.files hp hu hio o) (Ipc.Files.sysPipe_pages p o))
  | dup fd ok => exact total (h.pages (Ipc.Files.sysDup_inv h.files hp hu hio fd ok) (Ipc.Files.sysDup_pages p fd ok))
  | close fd => exact total (h.pages (Ipc.Files.sysClose_inv h.files hp hu hio fd) (Ipc.Files.sysClose_pages p fd))
  | exit =>
    refine (h.onFiles (E := fun e => p = 0 ∧ e = .initExiting) (Ipc.Files.exit_inv h.files hp hio)
      ((Ipc.Files.exit_pages p _).mono (fun _ i hi => ⟨hi.1, hi.2.1, fun q => ?_⟩) fun _ _ he => he)).mono
      (fun _ _ => id) ?_
    · rw [hi.2.2 q]
      by_cases e : q = p
      · rw [if_pos e, e, hu]
        decide
      · rw [if_neg e]
    · rintro _ _ ⟨e, rfl, h0, rfl⟩
      exact ⟨h0, rfl, rfl⟩

/-! ## Roles -/

def Role.owner : Role → Owner
  | .free => .free
  | .leaf p _ => .proc p
  | .table p => .proc p
  | .trapframe p => .proc p
  | .kstack => .kstack
  | .pipe => .pipe
  | .boot => .boot

theorem HasRole.owned {x : Role} (h : Ipc.Files.Inv { s.files with freelist := s.ram.free, held := [] })
    (hr : HasRole B s x f) : f ∈ owned B s x.owner := by
  cases x with
  | free => exact hr
  | leaf p q =>
    obtain ⟨hp, hq, fl, hv⟩ := hr
    exact ⟨hp, Or.inr (Or.inr ⟨rfl, q, hq, fl, by rw [Nat.zero_add]; exact hv⟩)⟩
  | table p => exact ⟨hr.1, Or.inr (Or.inl hr.2)⟩
  | trapframe p => exact ⟨hr.1, Or.inl hr.2⟩
  | kstack => exact hr
  | pipe =>
    obtain ⟨g, w, -, hend⟩ := hr
    obtain ⟨live, he⟩ := h.ends
    refine ⟨live, he.traced, ?_⟩
    have hl := he.isLive g hend.type
    rwa [hend.pipe] at hl
  | boot => exact hr

theorem owned_role {o : Owner} (h : Ipc.Files.Inv { s.files with freelist := s.ram.free, held := [] })
    (hf : f ∈ owned B s o) : ∃ x : Role, x.owner = o ∧ HasRole B s x f := by
  cases o with
  | free => exact ⟨.free, rfl, hf⟩
  | proc p =>
    obtain ⟨hp, rfl | hf | ⟨-, k, hk, fl, hv⟩⟩ := hf
    · exact ⟨.trapframe p, rfl, hp, rfl⟩
    · exact ⟨.table p, rfl, hp, hf⟩
    · rw [Nat.zero_add] at hv
      exact ⟨.leaf p k, rfl, hp, hk, fl, hv⟩
  | pipe =>
    obtain ⟨live, hl, hf⟩ := hf
    obtain ⟨live', he⟩ := h.ends
    cases hl.symm.trans he.traced
    obtain ⟨g, w, hend⟩ := he.someone f hf
    refine ⟨.pipe, rfl, g, w, Nat.pos_of_ne_zero fun h0 => ?_, hend⟩
    have := he.closed g h0
    rw [hend.type] at this
    cases this
  | kstack => exact ⟨.kstack, rfl, hf⟩
  | boot => exact ⟨.boot, rfl, hf⟩

/-- Within a process the trapframe, the table's pages and the leaves are told apart. -/
theorem Owned.role_unique {x y : Role} (h : Owned K B s) (hx : HasRole B s x f) (hy : HasRole B s y f) : x = y := by
  have howner : x.owner = y.owner := h.parts.disj (hx.owned h.files) (hy.owned h.files)
  have hleaf : ∀ {p q}, HasRole B s (.leaf p q) f → f ∈ userFrames s.ram.mem (s.proc p).pagetable (s.proc p).sz :=
    fun hr => by
      obtain ⟨-, hq, fl, hv⟩ := hr
      exact ⟨rfl, _, hq, fl, by rw [Nat.zero_add]; exact hv⟩
  have hlt : ∀ {p q}, ¬ (HasRole B s (.leaf p q) f ∧ HasRole B s (.table p) f) := fun hr =>
    (h.space _ hr.2.1).leaf_apart (hleaf hr.1) hr.2.2
  have hlf : ∀ {p q}, ¬ (HasRole B s (.leaf p q) f ∧ HasRole B s (.trapframe p) f) := fun hr =>
    h.apart _ hr.2.1 (hr.2.2 ▸ Or.inr (hleaf hr.1))
  have htf : ∀ {p}, ¬ (HasRole B s (.table p) f ∧ HasRole B s (.trapframe p) f) := fun hr =>
    h.apart _ hr.2.1 (hr.2.2 ▸ Or.inl hr.1.2)
  cases x <;> cases y <;> cases howner <;> try rfl
  case leaf.leaf.refl p q q' =>
    obtain ⟨hp, hq, fl, hv⟩ := hx
    obtain ⟨-, hq', fl', hv'⟩ := hy
    have hb := (h.space p hp).space.pages_le
    rw [(h.space p hp).space.inj q (by omega) q' (by omega) f fl fl' hv hv']
  case leaf.table.refl => exact absurd ⟨hx, hy⟩ hlt
  case leaf.trapframe.refl => exact absurd ⟨hx, hy⟩ hlf
  case table.leaf.refl => exact absurd ⟨hy, hx⟩ hlt
  case table.trapframe.refl => exact absurd ⟨hx, hy⟩ htf
  case trapframe.leaf.refl => exact absurd ⟨hy, hx⟩ hlf
  case trapframe.table.refl => exact absurd ⟨hy, hx⟩ htf

theorem Owned.one_role (h : Owned K B s) (hf : Frame K f) : ∃! x, HasRole B s x f := by
  obtain ⟨o, hin⟩ := h.parts.cover f hf
  obtain ⟨x, -, hx⟩ := owned_role h.files hin
  exact ⟨x, hx, fun y hy => h.role_unique hy hx⟩

/-! ## Runs -/

theorem Owned.touched {m : Nat → UInt8} (h : Owned K B s) (hm : SameOff (Scribble B s) s.ram.mem m) :
    Owned K B { s with ram := { s.ram with mem := m } } := by
  refine h.written (r := { s.ram with mem := m }) hm (fun f hf hs => ?_) (fun p hp t ht hs => ?_) rfl
  · have hf : HasRole B s .free f := hf
    rcases hs with ⟨p, q, hs⟩ | ⟨p, hs⟩ | hs | hs
    · exact nomatch h.role_unique hf hs
    · exact nomatch h.role_unique hf hs
    · exact nomatch h.role_unique hf hs
    · exact nomatch h.role_unique hf hs
  · have ht : HasRole B s (.table p) t := ⟨hp, ht⟩
    rcases hs with ⟨p, q, hs⟩ | ⟨p, hs⟩ | hs | hs
    · exact nomatch h.role_unique ht hs
    · exact nomatch h.role_unique ht hs
    · exact nomatch h.role_unique ht hs
    · exact nomatch h.role_unique ht hs

/-- A process enters or leaves a pipe. -/
theorem Owned.io {y : Option Nat} (h : Owned K B s)
    (hinv : Ipc.Files.Inv (Ipc.Files.St.process { s.files with freelist := s.ram.free, held := [] } p
    { s.files.proc p with io := y })) :
    Owned K B { s with files := s.files.process p { s.files.proc p with io := y } } := by
  have hlive : ∀ q, Sys.Live { s with files := s.files.process p { s.files.proc p with io := y } } q ↔
      s.Live q := fun q => by
    unfold Sys.Live
    dsimp only
    rw [Ipc.Files.St.process_proc]
    by_cases e : q = p
    · rw [e, upd_same]
    · rw [upd_ne e]
  have howned : owned B { s with files := s.files.process p { s.files.proc p with io := y } } = owned B s := by
    funext o
    cases o with
    | proc q =>
      ext f
      exact and_congr_left fun _ => hlive q
    | free => rfl
    | pipe => rfl
    | kstack => rfl
    | boot => rfl
  exact ⟨h.heap, hinv, by rw [howned]; exact h.parts, fun q hq => h.space q ((hlive q).mp hq), fun q hq =>
    h.apart q ((hlive q).mp hq), fun q hq hd => h.zero q hq fun hl => hd ((hlive q).mpr hl)⟩

theorem Owned.step (h : Owned K B s) (hs : Step K B s s') : Owned K B s' := by
  cases hs with
  | call hp hu hio hc hr =>
    have hw := wp_ok (h.call_owned hp hu hio hc) hr
    exact hw
  | touch hm => exact h.touched hm
  | enter hp hfd hu hio hpipe => exact h.io (Ipc.Files.step_inv h.files (.enter hp hfd hu hio hpipe))
  | leave hio => exact h.io (Ipc.Files.step_inv h.files (.leave hio))

theorem Init.owned (h : Init K B s) : Owned K B s := by
  have hinv := Ipc.Files.init_inv h.files
  have hlive : ∀ p, s.Live p → p = 0 := fun p hp => by
    by_contra hne
    have := h.files.state p
    rw [if_neg hne] at this
    exact hp.2 this
  have hone : ∀ {f x y}, HasRole B s x f → HasRole B s y f → x = y := fun {f x y} hx hy => by
    obtain ⟨z, -, hz⟩ := h.role f (h.frame x f hx)
    exact (hz x hx).trans (hz y hy).symm
  refine ⟨h.heap, hinv, ⟨fun f hf => ?_, fun o f hf => ?_, ?_⟩, fun p hp => ?_, fun p hp hin => ?_, fun p _ hp =>
    h.rest p fun h0 => hp ?_⟩
  · obtain ⟨x, hx, -⟩ := h.role f hf
    exact ⟨x.owner, hx.owned hinv⟩
  · obtain ⟨x, -, hx⟩ := owned_role hinv hf
    exact h.frame x f hx
  · intro i j f hi hj
    obtain ⟨x, rfl, hx⟩ := owned_role hinv hi
    obtain ⟨y, rfl, hy⟩ := owned_role hinv hj
    rw [hone hx hy]
  · rw [hlive p hp]
    exact h.first
  · rcases hin with hin | ⟨-, k, hk, fl, hv⟩
    · exact nomatch hone (f := (s.proc p).trapframe) (x := .trapframe p) (y := .table p) ⟨hp, rfl⟩ ⟨hp, hin⟩
    · rw [Nat.zero_add] at hv
      exact nomatch hone (f := (s.proc p).trapframe) (x := .trapframe p) (y := .leaf p k) ⟨hp, rfl⟩ ⟨hp, hk, fl, hv⟩
  · refine ⟨by rw [h0]; decide, ?_⟩
    have := h.files.state p
    rw [if_pos h0] at this
    intro hun
    exact nomatch hun.symm.trans this

theorem Reach.owned (h : Reach K B s) : Owned K B s := by
  induction h with
  | init h0 => exact h0.owned
  | step _ hs ih => exact ih.step hs

/-- In every reachable state each frame has one role, the free list has no page twice, no two files are the same end
    of a
    pipe, and a process's table binds its memory and the topmost two pages; only `exit` of the first process panics. -/
theorem frames_have_one_role (h : Reach K B s) :
    (∀ f, Frame K f → ∃! x, HasRole B s x f) ∧
    (FreeChain s.ram.mem s.ram.freelist s.ram.free ∧ s.ram.free.Nodup) ∧
    (∀ g g' f w, Ipc.Files.IsEnd s.files.ftable g f w → Ipc.Files.IsEnd s.files.ftable g' f w → g = g') ∧
    (∀ p, s.Live p →
      Skel s.ram.mem (s.proc p).pagetable ∧
      (∀ q, (view s.ram.mem (s.proc p).pagetable q).isSome ↔ q < pages (s.proc p).sz ∨ q = TRAPFRAME / PGSIZE ∨
        q = TRAMPOLINE / PGSIZE) ∧
      view s.ram.mem (s.proc p).pagetable (TRAPFRAME / PGSIZE) = some ((s.proc p).trapframe,
        flagsOf (PTE_R ||| PTE_W)) ∧
      view s.ram.mem (s.proc p).pagetable (TRAMPOLINE / PGSIZE) = some (K.trampoline, flagsOf (PTE_R ||| PTE_X))) ∧
    ∀ p c e s', p < NPROC → (s.files.proc p).state = .used → (s.files.proc p).io = none → c.Ok →
      call K p c s = .error e s' → p = 0 ∧ c = .exit ∧ e = .inr .initExiting := by
  have ho := h.owned
  obtain ⟨hc, hnd, -⟩ := ho.heap.free_spec
  refine ⟨fun f hf => ?_, ⟨hc, hnd⟩, fun g g' f w hg hg' => ?_, fun p hp => ?_, fun p c e s' hp hu hio hok hr => ?_⟩
  · exact ho.one_role hf
  · obtain ⟨live, he⟩ := ho.files.ends
    exact he.unique g g' f w hg hg'
  · have ha := ho.space p hp
    exact ⟨ha.space.table.skel, ha.isSome_iff, ha.trapframe, ha.trampoline⟩
  · have hw := wp_error (ho.call_owned hp hu hio hok) hr
    exact hw

/-! ## A first state -/

/-- `started` with one process, eight kernel stacks, and the kernel's other pages; the third `kalloc` fails. -/
def booted : Sys where
  ram := { started with refuse := fun n => n == 2 }
  files := Ipc.Files.booted
  proc := fun p => if p = 0 then startedProc else .zero

/-- Twelve pages from 0x80200000 on are free or process 0's, its trapframe and the stacks are elsewhere. -/
def bootedOwner (f : Nat) : Owner :=
  if 0x80200000 ≤ f ∧ f < 0x8020C000 then if f ∈ started.free then .free else .proc 0
  else if f = 0x80300000 then .proc 0
  else if 0x80301000 ≤ f ∧ f < 0x80309000 then .kstack
  else .boot

def bootedPages : Boot where
  kstacks := {f | Frame image f ∧ bootedOwner f = .kstack}
  pages := {f | Frame image f ∧ bootedOwner f = .boot}

theorem booted_live : booted.Live p ↔ p = 0 := by
  unfold Sys.Live
  show p < NPROC ∧ (if p = 0 then Fs.ProcState.used else .unused) ≠ .unused ↔ _
  by_cases h0 : p = 0
  · simp [h0, NPROC]
  · simp [h0]

theorem booted_parts : Parts {f | Frame image f} (owned bootedPages booted) := by
  obtain ⟨F, ha, hsum⟩ := started_pages
  obtain ⟨-, -, rfl⟩ := ha.space.table.heap.free_spec
  have htwelve : ∀ f, f ∈ started.free ∨ f ∈ held started 0x8020B000 4096 ↔ f % 4096 = 0 ∧ 0x80200000 ≤ f ∧
      f < 0x8020C000 := fun f => by
    refine (Set.ext_iff.mp hsum f).trans ⟨?_, fun hf => ⟨(f - 0x80200000) / 4096, by omega, by omega⟩⟩
    rintro ⟨k, hk, rfl⟩
    omega
  have hframe : ∀ f, f % 4096 = 0 → 0x80200000 ≤ f → f < 0x8030A000 → Frame image f := fun f h1 h2 h3 =>
    ⟨h1, by show 0x80010000 ≤ f; omega, by show f < 0x81000000; omega⟩
  refine Parts.of_fun (g := bootedOwner) fun o f => ?_
  cases o with
  | free =>
    constructor
    · intro hf
      have hf : f ∈ started.free := hf
      obtain ⟨h1, h2, h3⟩ := (htwelve f).mp (Or.inl hf)
      refine ⟨hframe f h1 h2 (by omega), ?_⟩
      unfold bootedOwner
      rw [if_pos ⟨h2, h3⟩, if_pos hf]
    · rintro ⟨-, hf⟩
      unfold bootedOwner at hf
      split_ifs at hf
      assumption
  | proc p =>
    constructor
    · rintro ⟨hp, hf⟩
      cases booted_live.mp hp
      have hf : f = 0x80300000 ∨ f ∈ held started 0x8020B000 4096 := hf
      unfold bootedOwner
      rcases hf with rfl | hf
      · exact ⟨frame_started, by decide⟩
      · obtain ⟨h1, h2, h3⟩ := (htwelve f).mp (Or.inr hf)
        refine ⟨hframe f h1 h2 (by omega), ?_⟩
        have hnot : f ∉ started.free := ha.held_apart f hf
        rw [if_pos ⟨h2, h3⟩, if_neg hnot]
    · rintro ⟨hfr, hf⟩
      unfold bootedOwner at hf
      split_ifs at hf with h1 h2 h3
      · cases hf
        exact ⟨booted_live.mpr rfl, Or.inr (((htwelve f).mpr ⟨hfr.1, h1⟩).resolve_left h2)⟩
      · cases hf
        exact ⟨booted_live.mpr rfl, Or.inl h3⟩
  | pipe =>
    constructor
    · rintro ⟨live, hl, hf⟩
      cases hl
      cases hf
    · rintro ⟨-, hf⟩
      unfold bootedOwner at hf
      split_ifs at hf
  | kstack => exact Iff.rfl
  | boot => exact Iff.rfl

theorem booted_init : Init image bootedPages booted := by
  obtain ⟨F, ha, hsum⟩ := started_pages
  obtain ⟨-, hnd, rfl⟩ := ha.space.table.heap.free_spec
  have hheap : Heap image booted.ram {f | f ∈ started.free} := ⟨ha.space.table.heap.1, ha.space.table.heap.2⟩
  have ha := (ha.untouched (show SameOff _ started.mem booted.ram.mem from SameOff.refl _ _) hheap).1
  have hfiles : Ipc.Files.Init { booted.files with freelist := booted.ram.free, held := [] } :=
    ⟨fun _ => rfl, fun _ => rfl, fun _ _ => rfl, fun _ => rfl, fun _ => rfl, by rw [List.append_nil]; exact hnd, rfl⟩
  have ho : Owned image bootedPages booted := by
    refine ⟨hheap, Ipc.Files.init_inv hfiles, booted_parts, fun p hp => ?_, fun p hp hin => ?_, fun p _ hp => ?_⟩
    · cases booted_live.mp hp
      exact ha
    · cases booted_live.mp hp
      obtain ⟨k, hk, he⟩ : ∃ k < 12, 0x80300000 = 0x80200000 + 4096 * k := (Set.ext_iff.mp hsum _).mp (Or.inr hin)
      omega
    · exact if_neg fun h0 => hp (booted_live.mpr h0)
  exact ⟨hfiles, ho.heap, ha, fun p hp => if_neg hp, fun f hf => ho.one_role hf, fun x f hx => ho.parts.sub _
    (hx.owned ho.files)⟩

/-- `exec` keeps the files. -/
theorem exec_files {args : List Fetch} {file : Option File} {path : List UInt8} {x : Int}
    (h : call K p (.exec args file path) s = .ok x s') : s'.files = s.files := by
  have hw : wp (call K p (.exec args file path)) (fun _ s' => s'.files = s.files) (fun _ _ => True) s := by
    unfold call
    rw [wp_bind, wp_get, wp_bind, wp_onRam]
    exact (wp_true _ _).imp fun _ _ _ => rfl
  have hs := wp_ok hw h
  exact hs

/-- The first `fork` finds no page for the child's table, the second makes process 1, which exits. -/
theorem booted_forks : ∃ s₁ s₂ s₃, call image 0 .fork booted = .ok (-1) s₁ ∧ (s₁.files.proc 0).state = .used ∧
    (s₁.files.proc 0).io = none ∧ call image 0 .fork s₁ = .ok 1 s₂ ∧ (s₂.files.proc 1).state = .used ∧
    (s₂.files.proc 1).io = none ∧ call image 1 .exit s₂ = .ok 0 s₃ ∧ (s₃.files.proc 0).state = .used ∧
    (s₃.files.proc 0).io = none ∧ (s₃.files.proc 1).state = .zombie := by
  have hrun : (match call image 0 .fork booted with
      | .ok r₁ s₁ => match call image 0 .fork s₁ with
        | .ok r₂ s₂ => match call image 1 .exit s₂ with
          | .ok r₃ s₃ =>
              decide (r₁ = -1 ∧ r₂ = 1 ∧ r₃ = 0 ∧ (s₁.files.proc 0).state = .used ∧ (s₁.files.proc 0).io = none ∧
              (s₂.files.proc 1).state = .used ∧ (s₂.files.proc 1).io = none ∧ (s₃.files.proc 0).state = .used ∧
              (s₃.files.proc 0).io = none ∧ (s₃.files.proc 1).state = .zombie)
          | .error _ _ => false
        | .error _ _ => false
      | .error _ _ => false) = true := by decide +kernel
  split at hrun
  · rename_i r₁ s₁ h1
    split at hrun
    · rename_i r₂ s₂ h2
      split at hrun
      · rename_i r₃ s₃ h3
        obtain ⟨rfl, rfl, rfl, a1, a2, a3, a4, a5, a6, a7⟩ := of_decide_eq_true hrun
        exact ⟨s₁, s₂, s₃, h1, a1, a2, h2, a3, a4, h3, a5, a6, a7⟩
      · cases hrun
    · cases hrun
  · cases hrun

/-- Those calls, then process 0 runs another program and reaps its child. -/
theorem frames_have_one_role_reaped : ∃ s₁ s₂ s₃ s₄ s₅ r₄ r₅, call image 0 .fork booted = .ok (-1) s₁ ∧
    call image 0 .fork s₁ = .ok 1 s₂ ∧ call image 1 .exit s₂ = .ok 0 s₃ ∧
    call image 0 (.exec [.str [0x61], .null] (some elf) [0x61]) s₃ = .ok r₄ s₄ ∧ (s₄.files.proc 1).state = .zombie ∧
    call image 0 (.wait 1 0 0) s₄ = .ok r₅ s₅ ∧ ∀ f, Frame image f → ∃! x, HasRole bootedPages s₅ x f := by
  obtain ⟨s₁, s₂, s₃, h1, u1, i1, h2, u2, i2, h3, u3, i3, hz⟩ := booted_forks
  have a1 : Reach image bootedPages s₁ := (Reach.init booted_init).step
    (.call (c := .fork) (by decide) rfl rfl trivial h1)
  have a2 : Reach image bootedPages s₂ := a1.step (.call (c := .fork) (by decide) u1 i1 trivial h2)
  have a3 : Reach image bootedPages s₃ := a2.step (.call (c := .exit) (by decide) u2 i2 trivial h3)
  have hret : ∀ {s} {c : Call}, Reach image bootedPages s → (s.files.proc 0).state = .used →
      (s.files.proc 0).io = none →
      c.Ok → c ≠ .exit → ∃ r s', call image 0 c s = .ok r s' := fun {s c} ha hu hi hok hne => by
    cases hr : call image 0 c s with
    | ok r s' => exact ⟨r, s', rfl⟩
    | error e s' => exact absurd ((frames_have_one_role ha).2.2.2.2 0 c e s' (by decide) hu hi hok hr).2.1 hne
  have hexec : (Call.exec [.str [0x61], .null] (some elf) [0x61]).Ok := trivial
  obtain ⟨r₄, s₄, h4⟩ := hret a3 u3 i3 hexec (by simp)
  have hf := exec_files h4
  have a4 : Reach image bootedPages s₄ := a3.step (.call (by decide) u3 i3 hexec h4)
  rw [← hf] at u3 i3 hz
  have hwait : (Call.wait 1 0 0).Ok := ⟨by decide, by decide⟩
  obtain ⟨r₅, s₅, h5⟩ := hret a4 u3 i3 hwait (by simp)
  have a5 : Reach image bootedPages s₅ := a4.step (.call (by decide) u3 i3 hwait h5)
  exact ⟨s₁, s₂, s₃, s₄, s₅, r₄, r₅, h1, h2, h3, h4, hz, h5, (frames_have_one_role a5).1⟩

end Xv6.Vm
