/-
  Xv6.Vm.Calls — what system calls do to the memory of processes: `allocproc`, `freeproc`, `fork` and
  `wait` of kernel/proc.c, `sys_exec` of kernel/sysfile.c.

  Each call moves pages between the free list and the address space it works on (`Moved`), and
  writes no other page, also where `kalloc` fails.
-/
import Xv6.Vm.Program
import Xv6.Vm.Fork
import Mathlib

namespace Xv6.Vm

variable {K : Image} {s s' s1 : St} {F F' F1 G : Set Nat} {pt sz tf pt' sz' n newsz f : Nat} {E : Panic → St → Prop}
  {p x : Proc} {Q : Unit → St → Prop} {argv : List (Nat × List UInt8)}

/-! ## kernel/proc.c -/

def Proc.zero : Proc := ⟨0, 0, 0, 0, 0, 0, fun _ => 0, []⟩

def freeproc (K : Image) (p : Proc) : M Unit := do
  if p.trapframe ≠ 0 then kfree K p.trapframe
  if p.pagetable ≠ 0 then procFreepagetable K p.pagetable p.sz

def allocproc (K : Image) (p : Proc) : M (Option Proc) := do
  let trapframe ← kalloc
  if trapframe = 0 then
    freeproc K { p with trapframe }
    return none
  let pagetable ← procPagetable K trapframe
  if pagetable = 0 then
    freeproc K { p with trapframe, pagetable }
    return none
  return some { p with trapframe, pagetable }

/-- `fork` of `p` into the slot `np`. -/
def fork (K : Image) (p np : Proc) : M (Option Proc) := do
  match ← allocproc K np with
  | none => return none
  | some np =>
    if (← uvmcopy K p.pagetable np.pagetable p.sz) < 0 then
      freeproc K np
      return none
    -- the child returns 0: `a0` is register 10
    return some { p with pagetable := np.pagetable, trapframe := np.trapframe, regs := upd p.regs 10 0 }

/-! ## sys_exec -/

/-- What the next argument of a program is: `fetchaddr` fails, it is null, or a string. -/
inductive Fetch where
  | fault
  | null
  | str (bytes : List UInt8)
  deriving DecidableEq, Repr

/-- The loop of `sys_exec`: whether it came to the null pointer, and `argv`, each string with its page. -/
def fetchArgs : List Fetch → List (Nat × List UInt8) → M (Bool × List (Nat × List UInt8))
  | [], argv => return (false, argv)
  | a :: args, argv => do
    if argv.length ≥ MAXARG then return (false, argv)
    match a with
    | .fault => return (false, argv)
    | .null => return (true, argv)
    | .str bytes =>
      let page ← kalloc
      if page = 0 then return (false, argv)
      let str := bytes.takeWhile (· ≠ 0)
      modify fun s => { s with mem := blit s.mem page (min (str.length + 1) PGSIZE) (cbytes str) }
      if PGSIZE < str.length + 1 then return (false, argv ++ [(page, str)])
      fetchArgs args (argv ++ [(page, str)])

/-- `for(i = 0; i < NELEM(argv) && argv[i] != 0; i++) kfree(argv[i]);` -/
def freeArgs (K : Image) : List (Nat × List UInt8) → M Unit
  | [] => return ()
  | a :: argv => do
    kfree K a.1
    freeArgs K argv

def sysExec (K : Image) (p : Proc) (args : List Fetch) (file : Option File) (path : List UInt8) : M (Int × Proc) := do
  let (ok, argv) ← fetchArgs args []
  if ok then
    let r ← exec K p file path (argv.map Prod.snd)
    freeArgs K argv
    return r
  else
    freeArgs K argv
    return (-1, p)

/-! ## Pages that move -/

/-- The address space at `s'` and the free pages `F'` are made of the pages of the one at `s` and of `F`. -/
structure Moved (K : Image) (tf : Nat) (s : St) (F : Set Nat) (pt sz : Nat) (s' : St) (F' : Set Nat) (pt' sz' : Nat) :
    Prop where
  space : Aspace K s' pt' sz' tf F'
  sum : F' ∪ held s' pt' sz' = F ∪ held s pt sz
  off : SameOff (F ∪ held s pt sz) s.mem s'.mem

theorem Moved.refl (h : Aspace K s pt sz tf F) : Moved K tf s F pt sz s F pt sz := ⟨h, rfl, SameOff.refl _ _⟩

/-- Only free pages were written. -/
theorem Moved.untouched (h : Aspace K s pt sz tf F) (hm : SameOff F s.mem s'.mem) (hh : Heap K s' F) :
    Moved K tf s F pt sz s' F pt sz := by
  obtain ⟨ha, hv, hn⟩ := h.untouched hm hh
  refine ⟨ha, ?_, hm.mono Set.subset_union_left⟩
  unfold held userFrames
  rw [hv, hn]

theorem Aspace.shrink (h : Aspace K s pt sz tf F) (hle : newsz ≤ sz)
    (hu : Unmapped K pt s s' (unbound (view s.mem pt) (pages newsz) (pages sz - pages newsz))
      (released true (view s.mem pt) (pages newsz) (pages sz - pages newsz)))
    (hsp : Space K s' pt newsz (F ∪ released true (view s.mem pt) (pages newsz) (pages sz - pages newsz))) :
    Moved K tf s F pt sz s' (F ∪ released true (view s.mem pt) (pages newsz) (pages sz - pages newsz)) pt newsz := by
  have hb := h.space.pages_le
  have hmono := pages_le hle
  have hn := hu.root.nodes
  have hsplit : released true (view s.mem pt) (pages newsz) (pages sz - pages newsz) ∪ userFrames s'.mem pt newsz =
      userFrames s.mem pt sz := by
    ext g
    unfold userFrames
    rw [hu.view]
    constructor
    · rintro (⟨-, k, hk, fl, hf⟩ | ⟨-, k, hk, fl, hf⟩)
      · exact ⟨rfl, pages newsz + k, by omega, fl, by rw [Nat.zero_add]; exact hf⟩
      · rw [unbound, if_neg (by omega)] at hf
        exact ⟨rfl, k, by omega, fl, hf⟩
    · rintro ⟨-, k, hk, fl, hf⟩
      rw [Nat.zero_add] at hf
      by_cases hlt : k < pages newsz
      · refine Or.inr ⟨rfl, k, hlt, fl, ?_⟩
        rw [unbound, Nat.zero_add, if_neg (by omega)]
        exact hf
      · exact Or.inl ⟨rfl, k - pages newsz, by omega, fl, by rw [Nat.add_sub_cancel' (by omega)]; exact hf⟩
  have htop : ∀ q, 0xFFFFE ≤ q → view s'.mem pt q = view s.mem pt q := fun q hq => by
    rw [hu.view, unbound, if_neg (by omega)]
  refine ⟨⟨hsp, ?_, ?_, ?_⟩, ?_, hu.off.mono ?_⟩
  · rw [hn]
    exact h.frames
  · rw [htop _ (by omega)]
    exact h.trampoline
  · rw [htop _ (by omega)]
    exact h.trapframe
  · unfold held
    rw [← hsplit, hn, Set.union_assoc F, Set.union_left_comm (released true _ _ _)]
  · refine Set.union_subset (fun t ht => Or.inr (Or.inl ht)) fun g hg => Or.inr (Or.inr ?_)
    rw [← hsplit]
    exact Or.inl hg

theorem growproc_moves (h : Aspace K s pt sz tf F) {n : Int} (hn : -2 ^ 31 ≤ n ∧ n < 2 ^ 31) :
    wp (growproc K pt sz n) (fun r s' => ∃ F', Moved K tf s F pt sz s' F' pt r.2) E s := by
  have hsz := h.space.sz_le
  have hsub : F ∪ nodes s.mem pt ⊆ F ∪ held s pt sz := Set.union_subset_union_right F Set.subset_union_left
  unfold growproc
  refine wp_ite (fun hpos => ?_) fun _ => ?_
  · have hsum : (addSz sz n : Int) = sz + n := by
      unfold addSz
      omega
    have hadd : sz ≤ addSz sz n := by omega
    rw [wp_bind]
    refine (h.space.uvmalloc_spec (by decide) hadd).imp fun r s' => ?_
    rintro (⟨hr, F', hg, hv⟩ | ⟨hr, k, F', hx, hk⟩)
    · refine wp_pos hr ?_
      rw [wp_pure]
      obtain ⟨ha, hsum⟩ := h.grown hg hv
      refine ⟨F', ha, ?_, hg.off.mono hsub⟩
      unfold held
      rw [← Set.union_assoc, ← Set.union_assoc, hsum]
    · refine wp_neg (by omega) ?_
      rw [wp_pure]
      obtain ⟨ha, hsum⟩ := h.extend hx hk hadd
      refine ⟨F', hr ▸ ha, ?_, hx.off.mono hsub⟩
      unfold held
      rw [← Set.union_assoc, ← Set.union_assoc, hr, hsum]
  · refine wp_ite (fun hneg => ?_) fun _ => ?_
    · rw [wp_bind]
      by_cases hlt : addSz sz n < sz
      · refine (h.space.uvmdealloc_spec hlt).imp fun r s' => ?_
        rintro ⟨hr, hu, hsp⟩
        rw [wp_pure]
        exact ⟨_, hr ▸ h.shrink (Nat.le_of_lt hlt) hu hsp⟩
      · unfold uvmdealloc
        refine wp_pos (Nat.not_lt.mp hlt) ?_
        rw [wp_pure, wp_pure]
        exact ⟨F, Moved.refl h⟩
    · rw [wp_pure]
      exact ⟨F, Moved.refl h⟩

/-! ## freeproc -/

/-- Other pages are written, and others are free. -/
theorem Aspace.elsewhere (h : Aspace K s pt sz tf F) (hm : SameOff G s.mem s'.mem) (hG : ∀ f ∈ held s pt sz, f ∉ G)
    (hh : Heap K s' F') (hF : ∀ f ∈ held s pt sz, f ∉ F') : Aspace K s' pt sz tf F' ∧ held s' pt sz = held s pt sz := by
  obtain ⟨ha, hv, hn⟩ := h.frame hm (fun t ht => hG t (Or.inl ht)) hh (fun t ht => hF t (Or.inl ht)) fun f hf =>
    hF f (Or.inr hf)
  refine ⟨ha, ?_⟩
  unfold held userFrames
  rw [hv, hn]

/-- Pages that are not the address space's become free. -/
theorem Aspace.given (h : Aspace K s pt sz tf F) (hm : SameOff G s.mem s'.mem) (hG : ∀ f ∈ held s pt sz, f ∉ G)
    (hh : Heap K s' (F ∪ G)) : Aspace K s' pt sz tf (F ∪ G) ∧ held s' pt sz = held s pt sz :=
  h.elsewhere hm hG hh fun f hf hin => hin.elim (h.held_apart f hf) (hG f hf)

def Proc.own (s : St) (p : Proc) : Set Nat := insert p.trapframe (held s p.pagetable p.sz)

theorem freeproc_spec (h : Aspace K s p.pagetable p.sz p.trapframe F) (htf : Frame K p.trapframe)
    (hF : p.trapframe ∉ F) (hH : p.trapframe ∉ held s p.pagetable p.sz)
    (hQ : ∀ s', Heap K s' (F ∪ p.own s) → SameOff (p.own s) s.mem s'.mem → Q () s') : wp (freeproc K p) Q E s := by
  have hpt : p.pagetable ≠ 0 := (h.frames _ (root_mem _ _)).ne_zero
  unfold freeproc
  refine wp_pos htf.ne_zero ?_
  rw [wp_bind]
  refine kfree_spec h.space.table.heap htf hF fun s1 hh1 hm1 _ => ?_
  rw [← Set.union_singleton] at hh1
  obtain ⟨ha1, hheld⟩ := h.given hm1 (fun f hf he => hH (Set.mem_singleton_iff.mp he ▸ hf)) hh1
  refine wp_pos hpt ?_
  refine procFreepagetable_spec ha1 fun s2 hh2 hm2 _ => hQ s2 ?_ ?_
  · rw [Set.union_assoc, show nodes s1.mem p.pagetable ∪ userFrames s1.mem p.pagetable p.sz = held s p.pagetable
      p.sz from hheld] at hh2
    rwa [Set.union_assoc, Set.singleton_union] at hh2
  · rw [show nodes s1.mem p.pagetable ∪ userFrames s1.mem p.pagetable p.sz = held s p.pagetable p.sz from hheld] at hm2
    exact (hm1.mono (Set.singleton_subset_iff.mpr (Set.mem_insert _ _))).trans (hm2.mono (Set.subset_insert _ _))

/-! ## fork -/

structure Born (K : Image) (s : St) (F : Set Nat) (p : Proc) (s' : St) (F' : Set Nat) : Prop where
  space : Aspace K s' p.pagetable p.sz p.trapframe F'
  frame : Frame K p.trapframe
  apart : p.trapframe ∉ F' ∧ p.trapframe ∉ held s' p.pagetable p.sz
  sum : F' ∪ p.own s' = F
  off : SameOff F s.mem s'.mem

theorem Born.free (h : Born K s F p s' F') : F' ⊆ F := fun _ hf => h.sum ▸ Or.inl hf

theorem Born.own_sub (h : Born K s F p s' F') : p.own s' ⊆ F := fun _ hf => h.sum ▸ Or.inr hf

/-- An unborn process is given back. -/
theorem Born.freeproc (h : Born K s F p s' F')
    (hQ : ∀ s'', Heap K s'' F → SameOff F s.mem s''.mem → Q () s'') : wp (freeproc K p) Q E s' := by
  refine freeproc_spec h.space h.frame h.apart.1 h.apart.2 fun s'' hh hm => hQ s'' ?_ (h.off.trans (hm.mono h.own_sub))
  rwa [h.sum] at hh

theorem allocproc_spec (hh : Heap K s F) : wp (allocproc K .zero) (fun r s' =>
    (r = none ∧ Heap K s' F ∧ SameOff F s.mem s'.mem) ∨ ∃ p F', r = some p ∧ p.sz = 0 ∧ Born K s F p s' F') E s := by
  unfold allocproc
  rw [wp_bind]
  refine kalloc_spec hh (fun s1 hm hk hh1 => ?_) fun tf s1 htf hh1 hoff hk => ?_
  · refine wp_pos rfl ?_
    rw [wp_bind]
    unfold freeproc
    refine wp_neg (fun h0 => h0 rfl) ?_
    refine wp_neg (fun h0 => h0 rfl) ?_
    rw [wp_pure, wp_pure]
    exact Or.inl ⟨rfl, hh1, by rw [hm]; exact SameOff.refl _ _⟩
  have hfr := hh.frames tf htf
  have hoff' : SameOff F s.mem s1.mem := hoff.mono (Set.singleton_subset_iff.mpr htf)
  refine wp_neg hfr.ne_zero ?_
  rw [wp_bind]
  refine (procPagetable_spec hh1 hfr).imp fun pt s2 => ?_
  rintro ⟨hm2, -, ⟨rfl, hh2⟩ | ⟨h0, F2, ha2, hs2⟩⟩
  · refine wp_pos rfl ?_
    rw [wp_bind]
    unfold freeproc
    refine wp_pos hfr.ne_zero ?_
    rw [wp_bind]
    refine kfree_spec hh2 hfr (fun hF => hF.2 rfl) fun s3 hh3 hm3 _ => ?_
    refine wp_neg (fun h0 => h0 rfl) ?_
    rw [wp_pure, wp_pure]
    refine Or.inl
      ⟨rfl, ?_, hoff'.trans ((hm2.mono Set.sdiff_subset).trans (hm3.mono (Set.singleton_subset_iff.mpr htf)))⟩
    rwa [Set.insert_sdiff_singleton, Set.insert_eq_of_mem htf] at hh3
  · refine wp_neg h0 ?_
    rw [wp_pure]
    have hheld : held s2 pt 0 = nodes s2.mem pt := by
      unfold held userFrames
      rw [pages_zero, released_zero, Set.union_empty]
    have hout : ∀ f, f ∈ F2 ∪ nodes s2.mem pt → f ≠ tf := fun f hf he => by
      rw [hs2] at hf
      exact hf.2 he
    refine Or.inr ⟨⟨pt, 0, tf, 0, 0, 0, fun _ => 0, []⟩, F2, rfl, rfl, ha2, hfr,
      ⟨fun hin => hout tf (Or.inl hin) rfl, fun hin => ?_⟩, ?_, hoff'.trans (hm2.mono Set.sdiff_subset)⟩
    · rw [show held s2 pt 0 = _ from hheld] at hin
      exact hout tf (Or.inr hin) rfl
    · show F2 ∪ insert tf (held s2 pt 0) = F
      rw [hheld, Set.union_insert, hs2, Set.insert_sdiff_singleton, Set.insert_eq_of_mem htf]

theorem fork_spec (h : Aspace K s p.pagetable p.sz p.trapframe F) : wp (fork K p .zero) (fun r s' =>
    (r = none ∧ Heap K s' F ∧ SameOff F s.mem s'.mem) ∨ ∃ np F', r = some np ∧ Born K s F np s' F') E s := by
  have hdis := h.held_apart
  unfold fork
  rw [wp_bind]
  refine (allocproc_spec h.space.table.heap).imp fun r s1 => ?_
  rintro (⟨rfl, hh, hm⟩ | ⟨np, F1, rfl, hsz, hb⟩)
  · rw [wp_pure]
    exact Or.inl ⟨rfl, hh, hm⟩
  obtain ⟨ha, hv, hn⟩ := h.frame hb.off h.space.table.apart hb.space.space.table.heap
    (fun t ht hin => hdis t (Or.inl ht) (hb.free hin)) fun f hf hin => hdis f (Or.inr hf) (hb.free hin)
  have hnew : ∀ t ∈ nodes s1.mem np.pagetable, t ∈ F := fun t ht => hb.own_sub (Or.inr (Or.inl ht))
  have hempty : ∀ q < 0xFFFFE, view s1.mem np.pagetable q = none := fun q hq => by
    by_contra hs
    have := (hb.space.space.leaves q hq).mp (Option.isSome_iff_ne_none.mpr hs)
    rw [hsz, pages_zero] at this
    omega
  have hfork : Forking K s1 p.pagetable np.pagetable p.sz F1 := by
    refine ⟨ha.space, hb.space.space.table, hempty, fun t ht ho => ?_, fun q hq g gl hg hin => ?_⟩
    · rw [hn] at ho
      exact hdis t (Or.inl ho) (hnew t ht)
    · rw [hv] at hg
      exact (h.space.data q hq g gl hg).2.1 (hnew g hin)
  rw [wp_bind]
  refine (uvmcopy_spec hfork).imp fun r s2 => ?_
  have h0 : userFrames s1.mem np.pagetable np.sz = ∅ := by
    unfold userFrames
    rw [hsz, pages_zero, released_zero]
  have hsub : F1 ∪ nodes s1.mem np.pagetable ⊆ F := Set.union_subset hb.free hnew
  -- what is in the new table was free, and is not the trapframe
  have hborn : ∀ {s2 : St} {F2 : Set Nat} {sz : Nat}, Aspace K s2 np.pagetable sz np.trapframe F2 →
      F2 ∪ nodes s2.mem np.pagetable ∪ userFrames s2.mem np.pagetable sz =
        F1 ∪ nodes s1.mem np.pagetable ∪ userFrames s1.mem np.pagetable np.sz →
      SameOff (F1 ∪ nodes s1.mem np.pagetable) s1.mem s2.mem → ∀ {q : Proc}, q.pagetable = np.pagetable →
        q.trapframe = np.trapframe →
      q.sz = sz → Born K s F q s2 F2 := by
    intro s2 F2 sz ha2 hsum hm q h1 h2 h3
    have hsum' : F2 ∪ held s2 np.pagetable sz = F1 ∪ held s1 np.pagetable np.sz := by
      unfold held
      rw [← Set.union_assoc, ← Set.union_assoc, hsum]
    have hout : np.trapframe ∉ F2 ∪ held s2 np.pagetable sz := by
      rw [hsum']
      exact fun hin => hin.elim hb.apart.1 hb.apart.2
    refine ⟨by rw [h1, h2, h3]; exact ha2, by rw [h2]; exact hb.frame, ?_, ?_, hb.off.trans (hm.mono hsub)⟩
    · rw [h1, h2, h3]
      exact ⟨fun hin => hout (Or.inl hin), fun hin => hout (Or.inr hin)⟩
    · unfold Proc.own
      rw [h1, h2, h3, Set.union_insert, hsum', ← Set.union_insert]
      exact hb.sum
  rintro (⟨rfl, F2, hx⟩ | ⟨rfl, F2, hg, hv2⟩)
  · refine wp_neg (by decide) ?_
    rw [wp_pure]
    have hx' := hx
    rw [show (0 : Nat) = pages np.sz by rw [hsz, pages_zero]] at hx'
    obtain ⟨ha2, hsum⟩ := hb.space.extend hx' (by rw [hsz, pages_zero]; omega) (by omega : np.sz ≤ p.sz)
    exact Or.inr ⟨_, F2, rfl, hborn ha2 hsum hx.off rfl rfl rfl⟩
  · refine wp_pos (by decide) ?_
    rw [wp_bind]
    obtain ⟨ha2, hsum⟩ := hb.space.grown hg hv2
    refine (hborn ha2 hsum hg.off rfl rfl rfl : Born K s F np s2 F2).freeproc fun s3 hh hm => ?_
    rw [wp_pure]
    exact Or.inl ⟨rfl, hh, hm⟩

/-! ## sys_exec -/

def argPages (argv : List (Nat × List UInt8)) : Set Nat := {f | f ∈ argv.map Prod.fst}

structure Fetched (K : Image) (s : St) (F : Set Nat) (argv : List (Nat × List UInt8)) (s' : St) (F' : Set Nat) :
    Prop where
  heap : Heap K s' F'
  sum : F' ∪ argPages argv = F
  apart : ∀ f ∈ argPages argv, f ∉ F'
  nodup : (argv.map Prod.fst).Nodup
  off : SameOff F s.mem s'.mem
  frames : ∀ f ∈ F, Frame K f

theorem argPages_nil : argPages [] = ∅ := Set.eq_empty_iff_forall_notMem.mpr fun _ hf => List.not_mem_nil hf

theorem Fetched.nil (h : Heap K s F) : Fetched K s F [] s F :=
  ⟨h, by rw [argPages_nil, Set.union_empty], fun f hf => absurd hf List.not_mem_nil, List.nodup_nil,
    SameOff.refl _ _, h.frames⟩

theorem argPages_snoc (argv : List (Nat × List UInt8)) (f : Nat) (str : List UInt8) :
    argPages (argv ++ [(f, str)]) = insert f (argPages argv) := by
  ext g
  unfold argPages
  simp only [List.map_append, List.map_cons, List.map_nil, Set.mem_ofPred_eq, List.mem_append, List.mem_singleton,
    Set.mem_insert_iff]
  exact or_comm

theorem Fetched.push {str : List UInt8} (h : Fetched K s F argv s1 F1) (hf : f ∈ F1)
    (hh : Heap K s' (F1 \ {f})) (hm : SameOff {f} s1.mem s'.mem) : Fetched K s F (argv ++ [(f, str)]) s'
    (F1 \ {f}) := by
  have hin : f ∈ F := h.sum ▸ Or.inl hf
  refine ⟨hh, ?_, ?_, ?_, h.off.trans (hm.mono (Set.singleton_subset_iff.mpr hin)), h.frames⟩
  · rw [argPages_snoc, Set.union_insert, ← Set.insert_union, Set.insert_sdiff_singleton, Set.insert_eq_of_mem hf, h.sum]
  · rw [argPages_snoc]
    rintro g (rfl | hg)
    · exact fun hF => hF.2 rfl
    · exact fun hF => h.apart g hg hF.1
  · rw [List.map_append]
    refine List.Nodup.append h.nodup (List.nodup_singleton f) fun g hg hg' => ?_
    rw [List.map_cons, List.map_nil, List.mem_singleton] at hg'
    exact h.apart g hg (hg' ▸ hf)

theorem fetchArgs_spec {args : List Fetch} (h : Fetched K s F argv s1 F1)
    (hstr : ∀ a ∈ argv, a.2.length < 4096 ∧ (0 : UInt8) ∉ a.2) :
    wp (fetchArgs args argv) (fun r s' => (∃ F', Fetched K s F r.2 s' F') ∧
      (r.1 = true → r.2.length < MAXARG ∧ ∀ a ∈ r.2, a.2.length < 4096 ∧ (0 : UInt8) ∉ a.2)) E s1 := by
  induction args generalizing argv s1 F1 with
  | nil =>
    unfold fetchArgs
    rw [wp_pure]
    exact ⟨⟨F1, h⟩, nofun⟩
  | cons a args ih =>
    unfold fetchArgs
    refine wp_ite (fun _ => ?_) fun hlen => ?_
    · rw [wp_pure]
      exact ⟨⟨F1, h⟩, nofun⟩
    cases a with
    | fault =>
      dsimp only
      rw [wp_pure]
      exact ⟨⟨F1, h⟩, nofun⟩
    | null =>
      dsimp only
      rw [wp_pure]
      exact ⟨⟨F1, h⟩, fun _ => ⟨Nat.not_le.mp hlen, hstr⟩⟩
    | str bytes =>
      dsimp only
      rw [wp_bind]
      refine kalloc_spec h.heap (fun s2 hm _ hh => ?_) fun f s2 hf hh hm _ => ?_
      · refine wp_pos rfl ?_
        rw [wp_pure]
        exact ⟨⟨F1, hh, h.sum, h.apart, h.nodup, by rw [hm]; exact h.off, h.frames⟩, nofun⟩
      have hfr := h.heap.frames f hf
      refine wp_neg hfr.ne_zero ?_
      rw [wp_bind, wp_modify]
      generalize hs : bytes.takeWhile (· ≠ 0) = str
      have hwrite : SameOff {f} s2.mem (blit s2.mem f (min (str.length + 1) PGSIZE) (cbytes str)) := SameOff.blit
          fun k hk => by
        rw [page_add hfr.1 (Nat.lt_of_lt_of_le hk (Nat.min_le_right _ _))]
        exact Set.mem_singleton f
      have hpush : Fetched K s F (argv ++ [(f, str)])
          { s2 with mem := blit s2.mem f (min (str.length + 1) PGSIZE) (cbytes str) } _ :=
        h.push hf (hh.frame hwrite (fun g hg => hg.2) rfl) (hm.trans hwrite)
      refine wp_ite (fun _ => ?_) fun hshort => ?_
      · rw [wp_pure]
        exact ⟨⟨_, hpush⟩, nofun⟩
      refine ih hpush fun a ha => ?_
      rcases List.mem_append.mp ha with ha | ha
      · exact hstr a ha
      · rw [List.mem_singleton] at ha
        subst ha
        have hshort : ¬ 4096 < str.length + 1 := hshort
        refine ⟨Nat.lt_of_succ_le (Nat.not_lt.mp hshort), fun h0 => ?_⟩
        rw [← hs] at h0
        exact absurd (List.mem_takeWhile_imp h0) (by decide)

theorem freeArgs_spec (h : Heap K s F)
    (hnd : (argv.map Prod.fst).Nodup) (hfr : ∀ f ∈ argPages argv, Frame K f ∧ f ∉ F)
    (hQ : ∀ s', Heap K s' (F ∪ argPages argv) → SameOff (argPages argv) s.mem s'.mem → Q () s') :
      wp (freeArgs K argv) Q E s := by
  induction argv generalizing s F with
  | nil =>
    unfold freeArgs
    rw [wp_pure]
    refine hQ s ?_ (SameOff.refl _ _)
    rwa [argPages_nil, Set.union_empty]
  | cons a argv ih =>
    have hcons : argPages (a :: argv) = insert a.1 (argPages argv) := by
      ext g
      exact List.mem_cons
    obtain ⟨hnot, hnd'⟩ := List.nodup_cons.mp hnd
    rw [hcons] at hfr hQ
    obtain ⟨hf, hfF⟩ := hfr a.1 (Set.mem_insert _ _)
    unfold freeArgs
    rw [wp_bind]
    refine kfree_spec h hf hfF fun s1 hh hm _ => ?_
    refine ih hh hnd' (fun g hg => ⟨(hfr g (Or.inr hg)).1, ?_⟩) fun s' hh' hm' => hQ s' ?_ ?_
    · rintro (rfl | hF)
      · exact hnot hg
      · exact (hfr g (Or.inr hg)).2 hF
    · rwa [Set.insert_union, ← Set.union_insert] at hh'
    · exact (hm.mono (Set.singleton_subset_iff.mpr (Set.mem_insert _ _))).trans (hm'.mono (Set.subset_insert _ _))

theorem exec_moves {file : Option File} {path : List UInt8} {argv : List (List UInt8)}
    (h : Aspace K s p.pagetable p.sz p.trapframe F)
    (htf : Frame K p.trapframe) (hargc : argv.length < MAXARG) (hstr : ∀ str ∈ argv, str.length < 4096 ∧
      (0 : UInt8) ∉ str) :
    wp (exec K p file path argv) (fun r s' => r.2.trapframe = p.trapframe ∧
      ∃ F', Moved K p.trapframe s F p.pagetable p.sz s' F' r.2.pagetable r.2.sz) E s := by
  refine (exec_spec h htf hargc hstr).imp fun r s' => ?_
  rintro (⟨rfl, hm, -, hh⟩ | ⟨f, pt, sp, sz, sz0, F', img, ptr, -, rfl, hb⟩)
  · exact ⟨rfl, F, Moved.untouched h hm hh⟩
  · refine ⟨rfl, F', hb.image.space, ?_, hb.image.off⟩
    show F' ∪ (nodes s'.mem pt ∪ userFrames s'.mem pt sz) = _
    rw [← Set.union_assoc]
    exact hb.image.sum

/-- The arguments' pages are given back behind a call that moved other pages. -/
theorem Moved.give {s2 : St} {F2 : Set Nat} (h : Aspace K s pt sz tf F)
    (hf : Fetched K s F argv s1 F1) (hh : held s1 pt sz = held s pt sz) (hm : Moved K tf s1 F1 pt sz s2 F2 pt' sz')
    (hQ : ∀ s' F', Moved K tf s F pt sz s' F' pt' sz' → Q () s') : wp (freeArgs K argv) Q E s2 := by
  have hsub : argPages argv ⊆ F := fun f hf' => hf.sum ▸ Or.inr hf'
  have hsum := hm.sum
  rw [hh] at hsum
  have hout : ∀ f ∈ argPages argv, f ∉ F2 ∪ held s2 pt' sz' := fun f hp hin => by
    rw [hsum] at hin
    exact hin.elim (hf.apart f hp) fun hin => h.held_apart f hin (hsub hp)
  refine freeArgs_spec hm.space.space.table.heap hf.nodup
    (fun f hp => ⟨hf.frames f (hsub hp), fun hin => hout f hp (Or.inl hin)⟩)
    fun s' hh' hm' => hQ s' (F2 ∪ argPages argv) ?_
  obtain ⟨ha, hheld⟩ := hm.space.given hm' (fun f hin hp => hout f hp (Or.inr hin)) hh'
  refine ⟨ha, ?_, ?_⟩
  · rw [hheld, Set.union_right_comm, hsum, Set.union_right_comm, hf.sum]
  · have h1 : F1 ∪ held s1 pt sz ⊆ F ∪ held s pt sz := by
      rw [hh, ← hf.sum]
      exact Set.union_subset_union_left _ Set.subset_union_left
    exact ((hf.off.mono Set.subset_union_left).trans (hm.off.mono h1)).trans
      (hm'.mono (hsub.trans Set.subset_union_left))

theorem sysExec_moves {args : List Fetch} {file : Option File} {path : List UInt8}
    (h : Aspace K s p.pagetable p.sz p.trapframe F)
    (htf : Frame K p.trapframe) : wp (sysExec K p args file path) (fun r s' => r.2.trapframe = p.trapframe ∧
      ∃ F', Moved K p.trapframe s F p.pagetable p.sz s' F' r.2.pagetable r.2.sz) E s := by
  unfold sysExec
  rw [wp_bind]
  refine (fetchArgs_spec (Fetched.nil h.space.table.heap) fun a ha => absurd ha List.not_mem_nil).imp fun r s1 => ?_
  obtain ⟨ok, argv⟩ := r
  rintro ⟨⟨F1, hf⟩, hok⟩
  dsimp only at hf hok ⊢
  have hsub : F1 ⊆ F := fun f hin => hf.sum ▸ Or.inl hin
  obtain ⟨ha, hheld⟩ := h.elsewhere hf.off h.held_apart hf.heap fun f hin hF => h.held_apart f hin (hsub hF)
  refine wp_ite (fun hr => ?_) fun _ => ?_
  · obtain ⟨hlen, hstr⟩ := hok hr
    rw [wp_bind]
    refine (exec_moves ha htf (by rw [List.length_map]; exact hlen) fun str hs => ?_).imp fun r s2 => ?_
    · obtain ⟨a, ha', rfl⟩ := List.mem_map.mp hs
      exact hstr a ha'
    · rintro ⟨htf', F2, hm⟩
      rw [wp_bind]
      refine hm.give h hf hheld fun s3 F3 hm3 => ?_
      rw [wp_pure]
      exact ⟨htf', F3, hm3⟩
  · rw [wp_bind]
    refine (Moved.refl ha).give h hf hheld fun s2 F2 hm2 => ?_
    rw [wp_pure]
    exact ⟨rfl, F2, hm2⟩

/-! ## Copies to user memory -/

/-- An accessible address lies in the process's memory. -/
theorem Aspace.acc_frame (h : Aspace K s pt sz tf F) {va : Nat} (ha : Acc (view s.mem pt) va) :
    page (tr (view s.mem pt) va) ∈ userFrames s.mem pt sz := by
  obtain ⟨-, f, fl, hv, -, hU⟩ := ha
  have hlt := h.user_lt hv hU
  have hp := (h.space.leaves _ hlt).mp (by rw [hv]; rfl)
  unfold tr
  rw [hv, userFrame_some hU, page_add (view_aligned hv) (Nat.mod_lt _ (by decide))]
  exact ⟨rfl, va / 4096, hp, fl, by rw [Nat.zero_add]; exact hv⟩

theorem copyout_moves {src : Nat → UInt8} {dstva len : Nat} (h : Aspace K s pt sz tf F) (hva : dstva < 2 ^ 32) :
    wp (copyout pt dstva src len) (fun _ s' => SameOff (userFrames s.mem pt sz) s.mem s'.mem ∧
    s'.freelist = s.freelist) E s := by
  refine (copyoutLoop_spec h.userTable hva (Nat.le_refl len)).imp fun r s' => ?_
  rintro ⟨j, -, hw, -⟩
  refine ⟨fun x hx => hw.keep x fun k hk he => hx ?_, hw.free⟩
  rw [he]
  exact h.acc_frame (hw.acc k hk)

end Xv6.Vm
