/-
  Xv6.Vm.Owners — every page frame has one role.

  The frames are divided among the free list, the processes, the pipes and the kernel (`owned`).
  A call works on one of these and on the free list: it divides these two anew and leaves the rest
  alone (`Owned.change`). Within a process the trapframe, the pages of the table and the leaves are
  told apart by its address space.
-/
import Xv6.Vm.System
import Xv6.Lib.Parts

namespace Xv6.Vm

open Ipc.Files (PageEv PipeOk lives)

variable {K : Image} {B : Boot} {s s' : Sys} {r r' : St} {F F' : Set Nat} {l l' : List Nat} {p q f : Nat}

/-! ## The free list -/

theorem freeList_eq {m : Nat → UInt8} {head fuel : Nat} (h : FreeChain m head l) (h0 : ∀ f ∈ l, f ≠ 0)
    (hl : l.length < fuel) : freeList m fuel head = l := by
  induction l generalizing head fuel with
  | nil =>
    cases fuel with
    | zero => exact absurd hl (Nat.not_lt_zero _)
    | succ fuel => exact if_pos h
  | cons f l ih =>
    obtain ⟨rfl, h⟩ := h
    cases fuel with
    | zero => exact absurd hl (Nat.not_lt_zero _)
    | succ fuel =>
      unfold freeList
      rw [if_neg (h0 head List.mem_cons_self), ih h (fun g hg => h0 g (List.mem_cons_of_mem _ hg))
        (Nat.lt_of_succ_lt_succ hl)]

theorem length_frames (hnd : l.Nodup) (hf : ∀ f ∈ l, Frame K f) : l.length ≤ 4096 := by
  rw [← List.toFinset_card_of_nodup hnd]
  exact card_frames (K := K) fun f hm => hf f (List.mem_toFinset.mp hm)

/-- The list that is read off memory is the free list. -/
theorem Heap.free_eq (h : Heap K r F) (hc : FreeChain r.mem r.freelist l) (hnd : l.Nodup) (hl : ∀ f ∈ l, f ∈ F) :
    r.free = l :=
  freeList_eq hc (fun f hf => (h.frames f (hl f hf)).ne_zero)
    (Nat.lt_of_le_of_lt (length_frames hnd fun f hf => h.frames f (hl f hf)) (by decide))

theorem Heap.free_spec (h : Heap K r F) : FreeChain r.mem r.freelist r.free ∧ r.free.Nodup ∧ {f | f ∈ r.free} = F := by
  obtain ⟨l, hc, hnd, hl⟩ := h.chain
  rw [h.free_eq hc hnd fun f hf => (hl f).mp hf]
  exact ⟨hc, hnd, Set.ext hl⟩

/-! ## Owners -/

inductive Owner where
  | free
  | proc (p : Nat)
  | pipe
  | kstack
  | boot
  deriving DecidableEq, Repr

def owned (B : Boot) (s : Sys) : Owner → Set Nat
  | .free => {f | f ∈ s.ram.free}
  | .proc p => {f | s.Live p ∧ f ∈ (s.proc p).own s.ram}
  | .pipe => {f | ∃ live, lives s.files.trace = some live ∧ live f = true}
  | .kstack => B.kstacks
  | .boot => B.pages

structure Owned (K : Image) (B : Boot) (s : Sys) : Prop where
  heap : Heap K s.ram {f | f ∈ s.ram.free}
  files : Ipc.Files.Inv { s.files with freelist := s.ram.free, held := [] }
  parts : Parts {f | Frame K f} (owned B s)
  space : ∀ p, s.Live p → Aspace K s.ram (s.proc p).pagetable (s.proc p).sz (s.proc p).trapframe {f | f ∈ s.ram.free}
  apart : ∀ p, s.Live p → (s.proc p).trapframe ∉ held s.ram (s.proc p).pagetable (s.proc p).sz
  zero : ∀ p < NPROC, ¬ s.Live p → s.proc p = .zero

/-- The pages of process `p`, without its trapframe. -/
theorem held_owned (hp : s.Live p) (hf : f ∈ held s.ram (s.proc p).pagetable (s.proc p).sz) : f ∈ owned B s (.proc p) :=
  ⟨hp, Or.inr hf⟩

/-- The free list and one other part are divided anew. -/
theorem Owned.change (h : Owned K B s) (j : Owner) (hh : Heap K s'.ram F')
    (hoff : SameOff (owned B s .free ∪ owned B s j) s.ram.mem s'.ram.mem)
    (hproc : ∀ q, .proc q ≠ j → s'.proc q = s.proc q ∧
      ((s'.files.proc q).state = .unused ↔ (s.files.proc q).state = .unused))
    (hpipe : j ≠ .pipe → s'.files.trace = s.files.trace)
    (hself : ∀ p, .proc p = j → (s'.Live p →
        Aspace K s'.ram (s'.proc p).pagetable (s'.proc p).sz (s'.proc p).trapframe F' ∧
          (s'.proc p).trapframe ∉ held s'.ram (s'.proc p).pagetable (s'.proc p).sz) ∧
          (p < NPROC → ¬ s'.Live p → s'.proc p = .zero))
    (hsum : F' ∪ owned B s' j = owned B s .free ∪ owned B s j) (hd : ∀ f ∈ F', f ∉ owned B s' j)
    (hfiles : Ipc.Files.Inv { s'.files with freelist := s'.ram.free, held := [] }) : Owned K B s' := by
  obtain ⟨-, -, rfl⟩ := hh.free_spec
  have hlive : ∀ q, .proc q ≠ j → (s'.Live q ↔ s.Live q) := fun q hq => and_congr_right fun _ =>
    not_congr (hproc q hq).2
  -- another process's pages are neither free nor the other part's
  have hout : ∀ q, .proc q ≠ j → s.Live q → ∀ f ∈ held s.ram (s.proc q).pagetable (s.proc q).sz,
      f ∉ owned B s .free ∪ owned B s j := fun q hq hl f hf hin =>
    hin.elim (fun hin => nomatch h.parts.disj (held_owned hl hf) hin) fun hin =>
      hq (h.parts.disj (held_owned hl hf) hin)
  have hspace : ∀ q, .proc q ≠ j → s.Live q →
      Aspace K s'.ram (s.proc q).pagetable (s.proc q).sz (s.proc q).trapframe {f | f ∈ s'.ram.free} ∧
        held s'.ram (s.proc q).pagetable (s.proc q).sz = held s.ram (s.proc q).pagetable (s.proc q).sz := fun q hq hl =>
    (h.space q hl).elsewhere hoff (hout q hq hl) hh fun f hf hin => hout q hq hl f hf (hsum ▸ Or.inl hin)
  refine ⟨hh, hfiles, ?_, fun q hq => ?_, fun q hq => ?_, fun q hlt hq => ?_⟩
  · refine h.parts.move (i := .free) (j := j) (fun k hk hkj => ?_) hsum fun _ => hd
    cases k with
    | free => exact absurd rfl hk
    | proc q =>
      ext f
      show s'.Live q ∧ f ∈ (s'.proc q).own s'.ram ↔ s.Live q ∧ f ∈ (s.proc q).own s.ram
      rw [hlive q hkj, (hproc q hkj).1]
      refine and_congr_right fun hl => ?_
      unfold Proc.own
      rw [(hspace q hkj hl).2]
    | pipe =>
      show {f | ∃ live, lives s'.files.trace = some live ∧ live f = true} = _
      rw [hpipe (Ne.symm hkj)]
      rfl
    | kstack => rfl
    | boot => rfl
  · by_cases hqj : Owner.proc q = j
    · exact ((hself q hqj).1 hq).1
    · rw [(hproc q hqj).1]
      exact (hspace q hqj ((hlive q hqj).mp hq)).1
  · by_cases hqj : Owner.proc q = j
    · exact ((hself q hqj).1 hq).2
    · have hl := (hlive q hqj).mp hq
      rw [(hproc q hqj).1, (hspace q hqj hl).2]
      exact h.apart q hl
  · by_cases hqj : Owner.proc q = j
    · exact (hself q hqj).2 hlt hq
    · rw [(hproc q hqj).1]
      exact h.zero q hlt fun hl => hq ((hlive q hqj).mpr hl)

/-- The pipes are what they were, and the free list has no page of theirs. -/
theorem Owned.refree (h : Owned K B s) (hh : Heap K r F') (hF : ∀ f ∈ F', f ∉ owned B s .pipe) :
    Ipc.Files.Inv { s.files with freelist := r.free, held := [] } := by
  obtain ⟨-, hnd, rfl⟩ := hh.free_spec
  obtain ⟨live, he⟩ := h.files.ends
  refine ⟨⟨live, he.traced, he.closed, he.bound, he.isLive, he.unique, he.flag, he.someone, ?_, fun f hf => ?_⟩,
    h.files.refs, h.files.idle, h.files.io⟩
  · show (r.free ++ []).Nodup
    rwa [List.append_nil]
  · have hf : f ∈ r.free ++ [] := hf
    rw [List.append_nil] at hf
    by_contra hl
    exact hF f hf ⟨live, he.traced, Bool.eq_true_of_not_eq_false hl⟩

theorem Owned.own_eq (hp : s.Live p) : owned B s (.proc p) = (s.proc p).own s.ram := by
  ext f
  exact ⟨And.right, fun hf => ⟨hp, hf⟩⟩

/-- The pages of one process and the free ones are divided anew. -/
theorem Owned.moved (h : Owned K B s) (hp : s.Live p) {x : Proc} (htf : x.trapframe = (s.proc p).trapframe)
    (hm : Moved K (s.proc p).trapframe s.ram {f | f ∈ s.ram.free} (s.proc p).pagetable
    (s.proc p).sz r F' x.pagetable x.sz) : Owned K B { s with ram := r, proc := upd s.proc p x } := by
  have hown : owned B s (.proc p) = _ := Owned.own_eq hp
  have hsub : ∀ f, f ∈ F' ∪ held r x.pagetable x.sz → f ∈ owned B s .free ∪ held s.ram (s.proc p).pagetable
      (s.proc p).sz := fun f hf => by
    rwa [hm.sum] at hf
  -- the trapframe is neither free nor part of the table
  have htfo : (s.proc p).trapframe ∈ owned B s (.proc p) := ⟨hp, Or.inl rfl⟩
  have hnot : (s.proc p).trapframe ∉ F' ∪ held r x.pagetable x.sz := fun hin =>
    (hsub _ hin).elim (fun hin => nomatch h.parts.disj htfo hin) (h.apart p hp)
  have hnew : owned B { s with ram := r, proc := upd s.proc p x } (.proc p) = insert (s.proc p).trapframe
      (held r x.pagetable x.sz) := by
    rw [Owned.own_eq (s := { s with ram := r, proc := upd s.proc p x }) hp]
    unfold Proc.own
    dsimp only
    rw [upd_same, htf]
  refine h.change (.proc p) hm.space.space.table.heap (hm.off.mono ?_) (fun q hq => ?_) (fun _ => rfl) (fun q hq => ?_)
    ?_ (fun f hf => ?_) (h.refree hm.space.space.table.heap fun f hf hin => ?_)
  · rw [hown]
    exact Set.union_subset_union_right _ (Set.subset_insert _ _)
  · exact ⟨upd_ne (fun he => hq (congrArg Owner.proc he)) _, Iff.rfl⟩
  · cases hq
    refine ⟨fun _ => ?_, fun _ hl => absurd hp hl⟩
    dsimp only
    rw [upd_same, htf]
    exact ⟨hm.space, fun hin => hnot (Or.inr hin)⟩
  · rw [hnew, hown]
    unfold Proc.own
    rw [Set.union_insert, Set.union_insert, hm.sum]
    rfl
  · rw [hnew]
    rintro (rfl | hin)
    · exact hnot (Or.inl hf)
    · exact hm.space.held_apart f hin hf
  · rcases hsub f (Or.inl hf) with hf | hf
    · exact nomatch h.parts.disj hf hin
    · exact nomatch h.parts.disj (held_owned hp hf) hin

/-! ## Calls on files -/

theorem kalloc_head {pa : Nat} {Q : Nat → St → Prop} {E : Panic → St → Prop} (hc : FreeChain r.mem r.freelist (pa :: l))
    (hr : r.refuse 0 = false) (hnd : (pa :: l).Nodup) (hf : ∀ f ∈ pa :: l, Frame K f)
    (hQ : ∀ r', FreeChain r'.mem r'.freelist l → SameOff {pa} r.mem r'.mem → Q pa r') : wp kalloc Q E r := by
  obtain ⟨hhead, hc⟩ := hc
  have hpa := hf pa List.mem_cons_self
  unfold kalloc
  rw [wp_bind, wp_get, wp_bind, wp_set]
  dsimp only
  rw [hr, hhead]
  refine wp_neg hpa.ne_zero ?_
  rw [wp_bind, wp_load, wp_bind, wp_modify, wp_bind, wp_memset, wp_pure]
  have hfill : SameOff {pa} r.mem (blit r.mem pa PGSIZE fun _ => 5) := SameOff.blitPage hpa.1 (Set.mem_singleton pa)
  refine hQ _ (hc.congr fun f hfl => ?_) hfill
  have hfr := hf f (List.mem_cons_of_mem _ hfl)
  refine hfill.load32 (by have := hfr.1; omega) ?_
  rw [page_self hfr.1]
  exact fun he => (List.nodup_cons.mp hnd).1 (Set.mem_singleton_iff.mp he ▸ hfl)

/-- What the events move between the free list and the pipes. -/
structure Replayed (K : Image) (r : St) (l : List Nat) (live : Nat → Bool) (r' : St) (l' : List Nat)
    (live' : Nat → Bool) : Prop where
  chain : FreeChain r'.mem r'.freelist l'
  nodup : l'.Nodup
  sum : ∀ f, f ∈ l' ∨ live' f = true ↔ f ∈ l ∨ live f = true
  apart : ∀ f ∈ l', live' f = false
  off : SameOff {f | f ∈ l ∨ live f = true} r.mem r'.mem

theorem replay_spec {evs : List PageEv} {live live' : Nat → Bool} {E : Panic → St → Prop}
    (hr : Ipc.Files.Replay l evs l')
    (hl : evs.foldlM Ipc.Files.after live = some live') (hc : FreeChain r.mem r.freelist l) (hnd : l.Nodup)
    (hf : ∀ f, f ∈ l ∨ live f = true → Frame K f) (hd : ∀ f ∈ l, live f = false) :
    wp (replay K evs) (fun _ r' => Replayed K r l live r' l' live') E r := by
  induction hr generalizing r live with
  | nil l =>
    cases hl
    exact ⟨hc, hnd, fun _ => Iff.rfl, hd, SameOff.refl _ _⟩
  | @alloc pa l l' evs _ ih =>
    rw [List.foldlM_cons] at hl
    obtain ⟨live1, h1, h2⟩ := Option.bind_eq_some_iff.mp hl
    have hlpa : live pa = false := hd pa List.mem_cons_self
    simp only [Ipc.Files.after, hlpa, Bool.false_eq_true, if_false, Option.some.injEq] at h1
    subst h1
    obtain ⟨hnot, hnd'⟩ := List.nodup_cons.mp hnd
    have hset : ∀ f, f ∈ l ∨ upd live pa true f = true ↔ f ∈ pa :: l ∨ live f = true := fun f => by
      by_cases e : f = pa
      · simp [e]
      · simp [e]
    unfold replay
    rw [wp_bind, wp_modify, wp_bind]
    refine kalloc_head (K := K) (by exact hc) rfl hnd (fun f hm => hf f (Or.inl hm)) fun r1 hc1 hm1 => ?_
    refine (ih h2 hc1 hnd' (fun f hm => hf f ((hset f).mp hm)) fun f hm => ?_).imp fun _ r' hs => ?_
    · have hne : f ≠ pa := fun e => hnot (e ▸ hm)
      rw [upd_ne hne]
      exact hd f (List.mem_cons_of_mem _ hm)
    · refine ⟨hs.chain, hs.nodup, fun f => (hs.sum f).trans (hset f), hs.apart, ?_⟩
      refine (hm1.mono (Set.singleton_subset_iff.mpr (Or.inl List.mem_cons_self))).trans
        (hs.off.mono fun f hm => (hset f).mp hm)
  | @use pa l l' evs _ ih =>
    rw [List.foldlM_cons] at hl
    obtain ⟨live1, h1, h2⟩ := Option.bind_eq_some_iff.mp hl
    simp only [Ipc.Files.after] at h1
    split at h1
    · cases h1
      unfold replay
      exact ih h2 hc hnd hf hd
    · cases h1
  | @free pa l l' evs _ ih =>
    rw [List.foldlM_cons] at hl
    obtain ⟨live1, h1, h2⟩ := Option.bind_eq_some_iff.mp hl
    simp only [Ipc.Files.after] at h1
    split at h1
    · rename_i hlive
      cases h1
      have hnot : pa ∉ l := fun hm => by
        rw [hd pa hm] at hlive
        cases hlive
      have hset : ∀ f, f ∈ pa :: l ∨ upd live pa false f = true ↔ f ∈ l ∨ live f = true := fun f => by
        by_cases e : f = pa
        · simp [e, hlive]
        · simp [e]
      unfold replay
      rw [wp_bind]
      have hheap : Heap K r {f | f ∈ l} := ⟨⟨l, hc, hnd, fun _ => Iff.rfl⟩, fun f hm => hf f (Or.inl hm)⟩
      refine kfree_wp (hf pa (Or.inr hlive)) fun r1 hm1 _ hl1 hw1 => ?_
      have hc1 : FreeChain r1.mem r1.freelist (pa :: l) := by
        refine ⟨hl1, ?_⟩
        rw [hw1 hheap.freelist_lt]
        refine hc.congr fun f hfl => ?_
        have hfr := hf f (Or.inl hfl)
        refine hm1.load32 (by have := hfr.1; omega) ?_
        rw [page_self hfr.1]
        exact fun he => hnot (Set.mem_singleton_iff.mp he ▸ hfl)
      refine (ih h2 hc1 (List.nodup_cons.mpr ⟨hnot, hnd⟩) (fun f hm => hf f ((hset f).mp hm)) fun f hm => ?_).imp
        fun _ r' hs => ?_
      · by_cases e : f = pa
        · rw [e, upd_same]
        · rw [upd_ne e]
          exact hd f ((List.mem_cons.mp hm).resolve_left e)
      · refine ⟨hs.chain, hs.nodup, fun f => (hs.sum f).trans (hset f), hs.apart, ?_⟩
        refine (hm1.mono (Set.singleton_subset_iff.mpr (Or.inr hlive))).trans (hs.off.mono fun f hm => (hset f).mp hm)
    · cases h1

theorem pipe_owned {live : Nat → Bool} (h : lives s.files.trace = some live) :
    owned B s .pipe = {f | live f = true} := by
  ext f
  constructor
  · rintro ⟨live', h', hf⟩
    cases h.symm.trans h'
    exact hf
  · exact fun hf => ⟨live, h, hf⟩

/-- The free list and the pipes after a call on files. -/
theorem Owned.filed {i : Ipc.Files.St} {evs : List PageEv} {E : Panic → St → Prop} (h : Owned K B s)
    (hinv : Ipc.Files.Inv i)
    (ht : i.trace = s.files.trace ++ evs) (hr : Ipc.Files.Replay s.ram.free evs i.freelist) (hheld : i.held = [])
    (hstate : ∀ q, (i.proc q).state = .unused ↔ (s.files.proc q).state = .unused) :
    wp (replay K (i.trace.drop s.files.trace.length)) (fun _ r => Owned K B { s with files := i, ram := r })
      E s.ram := by
  obtain ⟨live, he⟩ := h.files.ends
  obtain ⟨live', he'⟩ := hinv.ends
  have htr : lives s.files.trace = some live := he.traced
  have hfold : evs.foldlM Ipc.Files.after live = some live' := by
    have := he'.traced
    rwa [ht, Ipc.Files.lives_append, htr] at this
  have hpipe : owned B s .pipe = {f | live f = true} := pipe_owned htr
  obtain ⟨hc, hnd, -⟩ := h.heap.free_spec
  have hframe : ∀ f, f ∈ s.ram.free ∨ live f = true → Frame K f := fun f hf =>
    hf.elim (h.heap.frames f) fun hf => h.parts.sub .pipe (by rw [hpipe]; exact hf)
  rw [ht, List.drop_left]
  refine (replay_spec hr hfold hc hnd hframe fun f hf => he.free f (List.mem_append_left _ hf)).imp fun _ r hs => ?_
  have hheap : Heap K r {f | f ∈ i.freelist} :=
    ⟨⟨i.freelist, hs.chain, hs.nodup, fun _ => Iff.rfl⟩, fun f hf => hframe f ((hs.sum f).mp (Or.inl hf))⟩
  have hpipe' : owned B { s with files := i, ram := r } .pipe = {f | live' f = true} := pipe_owned he'.traced
  refine h.change .pipe hheap (hs.off.mono ?_) (fun q _ => ⟨rfl, hstate q⟩) (fun hne => absurd rfl hne) nofun ?_
    (fun f hf => ?_) ?_
  · rw [hpipe]
    exact fun f hf => hf
  · rw [hpipe, hpipe']
    exact Set.ext hs.sum
  · rw [hpipe']
    intro hl
    have h0 := hs.apart f hf
    rw [show live' f = true from hl] at h0
    cases h0
  · dsimp only
    rw [hheap.free_eq hs.chain hs.nodup fun _ hf => hf, ← hheld]
    exact hinv

/-! ## Pages that are written -/

theorem Owned.free_chain (h : Owned K B s) {S : Set Nat} (hm : SameOff S s.ram.mem r.mem) (hS : ∀ f ∈ s.ram.free, f ∉ S)
    (hl : r.freelist = s.ram.freelist) : Heap K r {f | f ∈ s.ram.free} ∧ r.free = s.ram.free := by
  have hheap : Heap K r {f | f ∈ s.ram.free} := h.heap.frame hm hS hl
  obtain ⟨hc, hnd, -⟩ := h.heap.free_spec
  refine ⟨hheap, hheap.free_eq ?_ hnd fun _ hf => hf⟩
  rw [hl]
  refine hc.congr fun f hf => ?_
  have hfr := h.heap.frames f hf
  refine hm.load32 (by have := hfr.1; omega) ?_
  rw [page_self hfr.1]
  exact hS f hf

/-- Neither the free list nor a page table is written. -/
theorem Owned.written (h : Owned K B s) {S : Set Nat} (hm : SameOff S s.ram.mem r.mem) (hS : ∀ f ∈ s.ram.free, f ∉ S)
    (hN : ∀ p, s.Live p → ∀ t ∈ nodes s.ram.mem (s.proc p).pagetable, t ∉ S) (hl : r.freelist = s.ram.freelist) :
    Owned K B { s with ram := r } := by
  obtain ⟨hheap, hfree⟩ := h.free_chain hm hS hl
  have hspace : ∀ p, s.Live p → Aspace K r (s.proc p).pagetable (s.proc p).sz (s.proc p).trapframe
      {f | f ∈ s.ram.free} ∧
      held r (s.proc p).pagetable (s.proc p).sz = held s.ram (s.proc p).pagetable (s.proc p).sz := fun p hp => by
    have ha := h.space p hp
    obtain ⟨ha', hv, hn⟩ := ha.frame hm (hN p hp) hheap ha.space.table.apart fun f hf => ha.held_apart f (Or.inr hf)
    refine ⟨ha', ?_⟩
    unfold held userFrames
    rw [hv, hn]
  have howned : owned B { s with ram := r } = owned B s := by
    funext o
    cases o with
    | free =>
      show {f | f ∈ r.free} = _
      rw [hfree]
      rfl
    | proc p =>
      ext f
      refine and_congr_right fun hp => ?_
      show f ∈ insert _ (held r (s.proc p).pagetable (s.proc p).sz) ↔ _
      rw [(hspace p hp).2]
      rfl
    | pipe => rfl
    | kstack => rfl
    | boot => rfl
  refine ⟨?_, ?_, by rw [howned]; exact h.parts, fun p hp => ?_, fun p hp => ?_, h.zero⟩
  · dsimp only
    rw [hfree]
    exact hheap
  · dsimp only
    rw [hfree]
    exact h.files
  · dsimp only
    rw [hfree]
    exact (hspace p hp).1
  · dsimp only
    rw [(hspace p hp).2]
    exact h.apart p hp

end Xv6.Vm
