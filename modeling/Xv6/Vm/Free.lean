/-
  Xv6.Vm.Free — page tables come and go: `freewalk`, `uvmfree`, `proc_pagetable` and
  `proc_freepagetable`.

  `Aspace`: a process's address space, with the trampoline and the trapframe above its
  memory. `proc_pagetable` makes one without memory, from free pages, or leaves the free
  pages as they were (`procPagetable_spec`); `proc_freepagetable` gives every page of one back
  (`procFreepagetable_spec`).
-/
import Xv6.Vm.Space

namespace Xv6.Vm

variable {K : Image} {s s' : St} {F F' : Set Nat} {pt c i j k n p f fl sz tf depth : Nat} {E : Panic → St → Prop}
  {Q : Unit → St → Prop}

/-! ## freewalk -/

theorem freewalkLoop_none {rec : Nat → M Unit} (hi : i + n = 1024)
    (hV : ∀ j < 1024, load32 s.mem (c + 4 * j) &&& PTE_V = 0) (hQ : Q () s) :
    wp (freewalkLoop rec c n i) Q E s := by
  induction n generalizing i with
  | zero =>
    unfold freewalkLoop
    exact hQ
  | succ n ih =>
    have h0 := hV i (by omega)
    unfold freewalkLoop
    rw [wp_bind, wp_load]
    refine wp_ite (fun h => absurd h0 h.1) fun _ => ?_
    refine wp_neg (fun h => h h0) ?_
    exact ih (by omega)

/-- A second-level page in which nothing is bound. -/
theorem freewalk_child (h : Heap K s F) (hf : Frame K c) (hn : c ∉ F)
    (hV : ∀ j < 1024, load32 s.mem (c + 4 * j) &&& PTE_V = 0)
    (hQ : ∀ s', Heap K s' (insert c F) → SameOff {c} s.mem s'.mem → s'.kern = s.kern → Q () s') :
    wp (freewalk K (depth + 1) c) Q E s := by
  unfold freewalk
  rw [wp_bind]
  exact freewalkLoop_none rfl hV (kfree_spec h hf hn hQ)

def kids (m : Nat → UInt8) (pt i : Nat) : Set Nat := {c | ∃ k, i ≤ k ∧ child m pt k = some c}

theorem kids_succ (h : child s.mem pt i = none) : kids s.mem pt i = kids s.mem pt (i + 1) := by
  ext c
  constructor
  · rintro ⟨k, hk, hc⟩
    refine ⟨k, ?_, hc⟩
    by_contra hlt
    rw [show k = i by omega, h] at hc
    cases hc
  · rintro ⟨k, hk, hc⟩
    exact ⟨k, by omega, hc⟩

theorem kids_cons (h : child s.mem pt i = some c) : kids s.mem pt i = insert c (kids s.mem pt (i + 1)) := by
  ext d
  constructor
  · rintro ⟨k, hk, hd⟩
    by_cases he : k = i
    · rw [he, h] at hd
      exact Or.inl (Option.some.inj hd).symm
    · exact Or.inr ⟨k, by omega, hd⟩
  · rintro (rfl | ⟨k, hk, hd⟩)
    · exact ⟨i, Nat.le_refl i, h⟩
    · exact ⟨k, by omega, hd⟩

structure Bare (K : Image) (s : St) (pt i : Nat) (F : Set Nat) : Prop where
  heap : Heap K s F
  root : pt % 4096 = 0
  dir : ∀ k, i ≤ k → k < 1024 → load32 s.mem (pt + 4 * k) &&& PTE_V ≠ 0 →
    load32 s.mem (pt + 4 * k) &&& (PTE_R ||| PTE_W ||| PTE_X) = 0
  frame : ∀ c ∈ kids s.mem pt i, Frame K c ∧ c ∉ F ∧ c ≠ pt
  none : ∀ c ∈ kids s.mem pt i, ∀ j < 1024, load32 s.mem (c + 4 * j) &&& PTE_V = 0
  inj : ∀ k l c, i ≤ k → i ≤ l → child s.mem pt k = some c → child s.mem pt l = some c → k = l

theorem child_of_load (hi : i < 1024) (h : load32 s.mem (pt + 4 * i) &&& PTE_V ≠ 0) :
    child s.mem pt i = some (PTE2PA (load32 s.mem (pt + 4 * i))) := if_pos ⟨hi, h⟩

/-- The entry is cleared after its page was freed. -/
theorem Bare.next {s1 : St} (h : Bare K s pt i F) (hi : i < 1024) (hc : child s.mem pt i = some c) (hpt : pt ∉ F)
    (hh : Heap K s1 (insert c F)) (hm : SameOff {c} s.mem s1.mem) :
    Bare K { s1 with mem := store32 s1.mem (pt + 4 * i) 0 } pt (i + 1) (insert c F) ∧
      kids (store32 s1.mem (pt + 4 * i) 0) pt (i + 1) = kids s.mem pt (i + 1) ∧
      SameOff {pt, c} s.mem (store32 s1.mem (pt + 4 * i) 0) := by
  have hr := h.root
  obtain ⟨hcf, hcF, hcp⟩ := h.frame c ⟨i, Nat.le_refl i, hc⟩
  have hst : SameOff {pt} s1.mem (store32 s1.mem (pt + 4 * i) 0) :=
    SameOff.store32 (by omega) (by rw [page_add hr (by omega)]; exact Set.mem_singleton pt)
  have hboth : SameOff {pt, c} s.mem (store32 s1.mem (pt + 4 * i) 0) :=
    (hm.mono (Set.subset_insert _ _)).trans (hst.mono (Set.singleton_subset_iff.mpr (Set.mem_insert _ _)))
  have hload : ∀ k, i + 1 ≤ k → k < 1024 → load32 (store32 s1.mem (pt + 4 * i) 0) (pt + 4 * k) = load32 s.mem
      (pt + 4 * k) :=
    fun k hk hk' => by
      rw [load32_store32_ne (by omega), hm.load32 (by omega) (by rw [page_add hr (by omega)]; exact hcp.symm)]
  have hchild : ∀ k, i + 1 ≤ k → child (store32 s1.mem (pt + 4 * i) 0) pt k = child s.mem pt k := fun k hk => by
    unfold child
    by_cases hk' : k < 1024
    · rw [hload k hk hk']
    · rw [if_neg fun h => hk' h.1, if_neg fun h => hk' h.1]
  have hkids : kids (store32 s1.mem (pt + 4 * i) 0) pt (i + 1) = kids s.mem pt (i + 1) := by
    ext d
    constructor
    · rintro ⟨k, hk, hd⟩
      exact ⟨k, hk, hchild k hk ▸ hd⟩
    · rintro ⟨k, hk, hd⟩
      exact ⟨k, hk, by rw [hchild k hk]; exact hd⟩
  have hsub : ∀ d ∈ kids s.mem pt (i + 1), d ∈ kids s.mem pt i ∧ d ≠ c := by
    rintro d ⟨k, hk, hd⟩
    refine ⟨⟨k, by omega, hd⟩, fun he => ?_⟩
    have := h.inj k i c (by omega) (Nat.le_refl i) (he ▸ hd) hc
    omega
  refine ⟨⟨?_, hr, fun k hk hk' hV => ?_, fun d hd => ?_, fun d hd j hj => ?_, fun k l d hk hl hd hd' => ?_⟩,
    hkids, hboth⟩
  · refine hh.frame hst (fun f hf he => ?_) rfl
    rcases Set.mem_insert_iff.mp hf with hf | hf
    · exact hcp (hf ▸ Set.mem_singleton_iff.mp he)
    · exact hpt (Set.mem_singleton_iff.mp he ▸ hf)
  · dsimp only at hV ⊢
    rw [hload k hk hk'] at hV ⊢
    exact h.dir k (by omega) hk' hV
  · obtain ⟨hd', hne⟩ := hsub d (hkids ▸ hd)
    obtain ⟨h1, h2, h3⟩ := h.frame d hd'
    exact ⟨h1, fun hF => (Set.mem_insert_iff.mp hF).elim hne h2, h3⟩
  · obtain ⟨hd', hne⟩ := hsub d (hkids ▸ hd)
    obtain ⟨h1, -, h3⟩ := h.frame d hd'
    have hal := h1.1
    dsimp only
    rw [hboth.load32 (by omega) (by rw [page_add hal (by omega)]; exact fun he => he.elim h3 hne)]
    exact h.none d hd' j hj
  · dsimp only at hd hd'
    rw [hchild k hk] at hd
    rw [hchild l hl] at hd'
    exact h.inj k l d (by omega) (by omega) hd hd'

theorem freewalkLoop_root (h : Bare K s pt i F) (hi : i + n = 1024) (hpt : pt ∉ F) :
    wp (freewalkLoop (freewalk K 1) pt n i) (fun _ s' => Heap K s' (F ∪ kids s.mem pt i) ∧
      SameOff (insert pt (kids s.mem pt i)) s.mem s'.mem ∧ s'.kern = s.kern) E s := by
  induction n generalizing s F i with
  | zero =>
    unfold freewalkLoop
    rw [wp_pure]
    have hk : kids s.mem pt i = ∅ := Set.eq_empty_iff_forall_notMem.mpr fun c hc => by
      obtain ⟨k, hk, hc⟩ := hc
      have := child_lt hc
      omega
    rw [hk, Set.union_empty]
    exact ⟨h.heap, SameOff.refl _ _, rfl⟩
  | succ n ih =>
    unfold freewalkLoop
    rw [wp_bind, wp_load]
    have hlt : i < 1024 := by omega
    refine wp_ite (fun hV => ?_) fun hV => ?_
    · have hc := child_of_load hlt hV.1
      generalize PTE2PA (load32 s.mem (pt + 4 * i)) = c at hc ⊢
      have hin : c ∈ kids s.mem pt i := ⟨i, Nat.le_refl i, hc⟩
      obtain ⟨hcf, hcF, hcp⟩ := h.frame c hin
      rw [wp_bind]
      refine freewalk_child h.heap hcf hcF (h.none c hin) fun s1 hh hm hk => ?_
      rw [wp_bind, wp_store]
      obtain ⟨h₂, hkids, hboth⟩ := h.next hlt hc hpt hh hm
      have hpt' : pt ∉ insert c F := fun hF => (Set.mem_insert_iff.mp hF).elim hcp.symm hpt
      refine (ih h₂ (by omega) hpt').imp fun _ s' => ?_
      rintro ⟨h3, h4, h5⟩
      dsimp only at h3 h4 h5
      rw [hkids] at h3 h4
      rw [kids_cons hc]
      refine ⟨?_, (hboth.mono ?_).trans (h4.mono ?_), h5.trans hk⟩
      · rwa [Set.insert_union, ← Set.union_insert] at h3
      · rintro x (hx | hx)
        · exact Or.inl hx
        · exact Or.inr (Or.inl hx)
      · exact Set.insert_subset_insert (Set.subset_insert _ _)
    · have hV' : ¬ load32 s.mem (pt + 4 * i) &&& PTE_V ≠ 0 := fun hv => hV ⟨hv, h.dir i (Nat.le_refl i) hlt hv⟩
      refine wp_neg hV' ?_
      have hc : child s.mem pt i = .none := if_neg fun hc => hV' hc.2
      have hk := kids_succ hc
      have h₂ : Bare K s pt (i + 1) F := by
        refine ⟨h.heap, h.root, fun k hk => h.dir k (by omega), ?_, ?_, fun k l c hk hl =>
          h.inj k l c (by omega) (by omega)⟩
        · rw [← hk]
          exact h.frame
        · rw [← hk]
          exact h.none
      rw [hk]
      exact ih h₂ (by omega) hpt

/-- A table in which nothing is bound. -/
theorem freewalk_spec (h : Table K s pt F) (hf : ∀ t ∈ nodes s.mem pt, Frame K t) (hv : ∀ p, view s.mem pt p = none)
    (hQ : ∀ s', Heap K s' (F ∪ nodes s.mem pt) → SameOff (nodes s.mem pt) s.mem s'.mem → s'.kern = s.kern → Q () s') :
    wp (freewalk K 2 pt) Q E s := by
  have hkids : nodes s.mem pt = insert pt (kids s.mem pt 0) := by
    ext t
    constructor
    · rintro (he | ⟨i, hi⟩)
      · exact Or.inl he
      · exact Or.inr ⟨i, Nat.zero_le i, hi⟩
    · rintro (he | ⟨i, -, hi⟩)
      · exact Or.inl he
      · exact Or.inr ⟨i, hi⟩
  have hkid : ∀ c ∈ kids s.mem pt 0, c ∈ nodes s.mem pt := fun c hc => hkids ▸ Or.inr hc
  have hb : Bare K s pt 0 F := by
    refine ⟨h.heap, h.skel.root, fun k _ => h.skel.dir k, fun c hc => ?_, fun c hc j hj => ?_,
      fun k l c _ _ => h.skel.inj⟩
    · refine ⟨hf c (hkid c hc), h.apart c (hkid c hc), ?_⟩
      obtain ⟨k, -, hk⟩ := hc
      exact (h.skel.kid hk).2
    · obtain ⟨k, -, hk⟩ := hc
      have hnone := hv (1024 * k + j)
      rw [view_child (by rw [show (1024 * k + j) / 1024 = k by omega]; exact hk),
        show (1024 * k + j) % 1024 = j by omega] at hnone
      by_contra hV
      rw [leaf, if_pos hV] at hnone
      cases hnone
  have hpt := h.apart pt (root_mem _ _)
  unfold freewalk
  rw [wp_bind]
  refine (freewalkLoop_root hb rfl hpt).imp fun _ s1 => ?_
  rintro ⟨h1, h2, h3⟩
  have hpt' : pt ∉ F ∪ kids s.mem pt 0 := by
    rintro (hF | ⟨k, -, hk⟩)
    · exact hpt hF
    · exact (h.skel.kid hk).2 rfl
  refine kfree_spec h1 (hf pt (root_mem _ _)) hpt' fun s2 h4 h5 h6 => hQ s2 ?_ ?_ (h6.trans h3)
  · rw [hkids, Set.union_insert]
    exact h4
  · rw [hkids]
    exact h2.trans (h5.mono (Set.singleton_subset_iff.mpr (Set.mem_insert _ _)))

/-! ## uvmfree -/

/-- Below TRAPFRAME nothing has changed. -/
theorem Space.below (h : Space K s pt sz F) (ht : Table K s' pt F)
    (hv : ∀ q < 0xFFFFE, view s'.mem pt q = view s.mem pt q)
    (hn : nodes s'.mem pt = nodes s.mem pt) : Space K s' pt sz F := by
  refine ⟨ht, fun q hq => ?_, fun q hq f fl hf => ?_, fun q hq r hr f fl fl' hf hf' => ?_⟩
  · rw [hv q hq]
    exact h.leaves q hq
  · rw [hn]
    exact h.data q hq f fl (hv q hq ▸ hf)
  · exact h.inj q hq r hr f fl fl' (hv q hq ▸ hf) (hv r hr ▸ hf')

def userFrames (m : Nat → UInt8) (pt sz : Nat) : Set Nat := released true (view m pt) 0 (pages sz)

theorem uvmfree_spec (h : Space K s pt sz F) (hf : ∀ t ∈ nodes s.mem pt, Frame K t)
    (htop : ∀ p, 0xFFFFE ≤ p → view s.mem pt p = none)
    (hQ : ∀ s', Heap K s' (F ∪ nodes s.mem pt ∪ userFrames s.mem pt sz) →
      SameOff (nodes s.mem pt ∪ userFrames s.mem pt sz) s.mem s'.mem → s'.kern = s.kern → Q () s') :
    wp (uvmfree K pt sz) Q E s := by
  have hb := h.pages_le
  unfold uvmfree
  refine wp_ite (fun hpos => ?_) fun hzero => ?_
  · obtain ⟨h1, h2, h3⟩ := h.mapped (p := 0) (n := pages sz) (by omega)
    have hdiv : PGROUNDUP sz / PGSIZE = pages sz := by
      rw [PGROUNDUP_pages_eq h.sz_le]
      show 4096 * pages sz / 4096 = _
      omega
    rw [wp_bind, hdiv]
    refine (uvmunmap_spec h.table.skel (p := 0) rfl (by omega) h1).imp fun _ s1 => ?_
    rintro ⟨hu, hheap⟩
    have hn := hu.root.nodes
    have hh := hheap F h.table.heap h.table.apart (fun _ => h2) h3
    have ht : Table K s1 pt (F ∪ userFrames s.mem pt sz) := by
      refine ⟨hh, h.table.skel.of_root hu.root, ?_⟩
      rw [hn]
      rintro t ht (hF | ⟨-, k, hk, fl, hf⟩)
      · exact h.table.apart t ht hF
      · exact (h.data (0 + k) (by omega) t fl hf).2.2.1 ht
    have hv : ∀ p, view s1.mem pt p = none := fun p => by
      rw [hu.view, unbound]
      split
      · rfl
      · by_cases hp : p < 0xFFFFE
        · by_contra hs
          have := (h.leaves p hp).mp (Option.isSome_iff_ne_none.mpr hs)
          omega
        · exact htop p (by omega)
    refine freewalk_spec ht (by rw [hn]; exact hf) hv fun s2 h4 h5 h6 => hQ s2 ?_ ?_ (h6.trans hu.kern)
    · rw [hn] at h4
      rwa [Set.union_right_comm]
    · rw [hn] at h5
      exact hu.off.trans (h5.mono Set.subset_union_left)
  · have h0 : pages sz = 0 := by
      unfold pages
      omega
    have hemp : userFrames s.mem pt sz = ∅ := by
      unfold userFrames
      rw [h0, released_zero]
    have hv : ∀ p, view s.mem pt p = none := fun p => by
      by_cases hp : p < 0xFFFFE
      · by_contra hs
        have := (h.leaves p hp).mp (Option.isSome_iff_ne_none.mpr hs)
        omega
      · exact htop p (by omega)
    rw [hemp, Set.union_empty, Set.union_empty] at hQ
    exact freewalk_spec h.table hf hv hQ

/-! ## A process's address space -/

/-- The trampoline and the trapframe, above the process's memory; the table is made of the allocator's pages. -/
structure Aspace (K : Image) (s : St) (pt sz tf : Nat) (F : Set Nat) : Prop where
  space : Space K s pt sz F
  frames : ∀ t ∈ nodes s.mem pt, Frame K t
  trampoline : view s.mem pt 0xFFFFF = some (K.trampoline, flagsOf (PTE_R ||| PTE_X))
  trapframe : view s.mem pt 0xFFFFE = some (tf, flagsOf (PTE_R ||| PTE_W))

theorem view_high {m : Nat → UInt8} (hp : 2 ^ 20 ≤ p) : view m pt p = none := by
  cases hv : view m pt p with
  | none => rfl
  | some b =>
    have := view_lt (p := p) (show view m pt p = some (b.1, b.2) from hv)
    omega

/-- A page is unmapped and its frame is kept. -/
theorem Table.unmap_one (h : Table K s pt F) (hv : view s.mem pt p = some (f, fl)) (hfl : fl ≠ PTE_V)
    (hQ : ∀ s', Table K s' pt F → view s'.mem pt = upd (view s.mem pt) p none → nodes s'.mem pt = nodes s.mem pt →
      SameOff (nodes s.mem pt) s.mem s'.mem → s'.kern = s.kern → Q () s') :
    wp (uvmunmap K pt (4096 * p) 1 false) Q E s := by
  have hlt := view_lt hv
  have hm : Mapped K s pt p 1 false := by
    refine ⟨fun k hk => ⟨f, fl, ?_, hfl⟩, fun hd => absurd hd (by decide)⟩
    rw [show p + k = p by omega]
    exact hv
  have hrel : released false (view s.mem pt) p 1 = ∅ :=
    Set.eq_empty_iff_forall_notMem.mpr fun f hf => absurd hf.1 (by decide)
  refine (uvmunmap_spec h.skel rfl (by omega) hm).imp fun _ s' => ?_
  rw [hrel]
  rintro ⟨hu, hheap⟩
  have hh := hheap F h.heap h.apart (fun hd => absurd hd (by decide)) fun f hf => absurd hf (Set.notMem_empty f)
  rw [Set.union_empty] at hh
  have hoff := hu.off
  rw [Set.union_empty] at hoff
  refine hQ s' ⟨hh, h.skel.of_root hu.root, by rw [hu.root.nodes]; exact h.apart⟩ ?_ hu.root.nodes hoff hu.kern
  rw [hu.view]
  funext q
  unfold unbound
  by_cases hq : q = p
  · rw [if_pos (by omega), hq, upd_same]
  · rw [if_neg (by omega), upd_ne hq]

theorem procFreepagetable_spec (h : Aspace K s pt sz tf F)
    (hQ : ∀ s', Heap K s' (F ∪ nodes s.mem pt ∪ userFrames s.mem pt sz) →
      SameOff (nodes s.mem pt ∪ userFrames s.mem pt sz) s.mem s'.mem → s'.kern = s.kern → Q () s') :
    wp (procFreepagetable K pt sz) Q E s := by
  have hne : ∀ perm, flagsOf perm ≠ PTE_V := fun perm => by
    rw [← permAD_or_V]
    exact permAD_ne_V perm
  unfold procFreepagetable
  rw [wp_bind]
  refine h.space.table.unmap_one h.trampoline (hne _) fun s1 ht1 hv1 hn1 hm1 hk1 => ?_
  have htf : view s1.mem pt 0xFFFFE = some (tf, flagsOf (PTE_R ||| PTE_W)) := by
    rw [hv1, upd_ne (by decide)]
    exact h.trapframe
  rw [wp_bind]
  refine ht1.unmap_one htf (hne _) fun s2 ht2 hv2 hn2 hm2 hk2 => ?_
  have hbelow : ∀ q < 0xFFFFE, view s2.mem pt q = view s.mem pt q := fun q hq => by
    rw [hv2, upd_ne (by omega), hv1, upd_ne (by omega)]
  have hnodes := hn2.trans hn1
  have huser : userFrames s2.mem pt sz = userFrames s.mem pt sz := by
    have hb := h.space.pages_le
    ext f
    constructor
    · rintro ⟨hd, k, hk, fl, hf⟩
      exact ⟨hd, k, hk, fl, hbelow (0 + k) (by omega) ▸ hf⟩
    · rintro ⟨hd, k, hk, fl, hf⟩
      exact ⟨hd, k, hk, fl, by rw [hbelow (0 + k) (by omega)]; exact hf⟩
  have htop : ∀ p, 0xFFFFE ≤ p → view s2.mem pt p = none := fun p hp => by
    rw [hv2]
    by_cases h1 : p = 0xFFFFE
    · rw [h1, upd_same]
    · rw [upd_ne h1, hv1]
      by_cases h2 : p = 0xFFFFF
      · rw [h2, upd_same]
      · rw [upd_ne h2]
        exact view_high (by omega)
  refine uvmfree_spec (h.space.below ht2 hbelow hnodes) (by rw [hnodes]; exact h.frames) htop fun s3 h1 h2 h3 => ?_
  rw [hnodes, huser] at h1 h2
  refine hQ s3 h1 ((hm1.mono Set.subset_union_left).trans ((?_ : SameOff _ s1.mem s2.mem).trans h2))
    (h3.trans (hk2.trans hk1))
  rw [hn1] at hm2
  exact hm2.mono Set.subset_union_left

/-! ## proc_pagetable -/

theorem uvmcreate_spec {Q : Nat → St → Prop} (h : Heap K s F)
    (hnone : ∀ s', s'.mem = s.mem → s'.kern = s.kern → Heap K s' F → Q 0 s')
    (hsome : ∀ pt s', pt ∈ F → Table K s' pt (F \ {pt}) → view s'.mem pt = (fun _ => none) → nodes s'.mem pt = {pt} →
      SameOff {pt} s.mem s'.mem → s'.kern = s.kern → Q pt s') : wp uvmcreate Q E s := by
  unfold uvmcreate
  rw [wp_bind]
  refine kalloc_spec h (fun s1 hm hk hh => ?_) fun r s1 hr hh hoff hk => ?_
  · refine wp_pos rfl ?_
    exact hnone s1 hm hk hh
  · have hfr := h.frames r hr
    refine wp_neg hfr.ne_zero ?_
    rw [wp_bind, wp_memset, wp_pure]
    have hz : ∀ k < 4096, blit s1.mem r PGSIZE (fun _ => 0) (r + k) = 0 := fun k hk => blit_in hk
    have hfill : SameOff {r} s1.mem (blit s1.mem r PGSIZE fun _ => 0) := SameOff.blitPage hfr.1 (Set.mem_singleton r)
    refine hsome r _ hr ⟨hh.frame hfill (fun f hf => hf.2) rfl, Skel.empty hfr.1 hz, fun t ht => ?_⟩ (view_empty hz)
      (nodes_empty hz) (hoff.trans hfill) hk
    rw [nodes_empty hz] at ht
    exact fun hF => hF.2 ht

/-- A table without memory is given back. -/
theorem uvmfree_empty {F0 : Set Nat} (h : Table K s pt F) (hf : ∀ t ∈ nodes s.mem pt, Frame K t)
    (hv : ∀ p, view s.mem pt p = none) (hF : F ∪ nodes s.mem pt = F0)
    (hQ : ∀ s', Heap K s' F0 → SameOff (nodes s.mem pt) s.mem s'.mem → s'.kern = s.kern → Q () s') :
    wp (uvmfree K pt 0) Q E s := by
  have hemp : userFrames s.mem pt 0 = ∅ := released_zero
  refine uvmfree_spec (Space.empty h fun p _ => hv p) hf (fun p _ => hv p) fun s' h1 h2 h3 => ?_
  rw [hemp, Set.union_empty] at h1 h2
  exact hQ s' (hF ▸ h1) h2 h3

/-- Outcome of `proc_pagetable`: nothing, or an address space made of free pages. -/
def Created (K : Image) (tf : Nat) (s : St) (F : Set Nat) (pt : Nat) (s' : St) : Prop :=
  SameOff F s.mem s'.mem ∧ s'.kern = s.kern ∧
    (pt = 0 ∧ Heap K s' F ∨ pt ≠ 0 ∧ ∃ F', Aspace K s' pt 0 tf F' ∧ F' ∪ nodes s'.mem pt = F)

theorem Image.trampoline_lt (K : Image) : K.trampoline < 2 ^ 32 := by
  have h1 := K.trampoline_text
  have h2 := K.kend_le
  have h3 : PHYSTOP = 0x81000000 := rfl
  omega

theorem procPagetable_spec (h : Heap K s F) (htf : Frame K tf) : wp (procPagetable K tf) (Created K tf s F) E s := by
  unfold procPagetable
  rw [wp_bind]
  refine uvmcreate_spec h (fun s1 hm hk hh => ?_) fun pt s1 hpt ht1 hv1 hn1 hm1 hk1 => ?_
  · refine wp_pos rfl ?_
    rw [wp_pure]
    exact ⟨by rw [hm]; exact SameOff.refl _ _, hk, Or.inl ⟨rfl, hh⟩⟩
  have hptf := h.frames pt hpt
  have hsum1 : (F \ {pt}) ∪ nodes s1.mem pt = F := by
    rw [hn1, Set.sdiff_union_self, Set.union_singleton, Set.insert_eq_of_mem hpt]
  have hm1 : SameOff F s.mem s1.mem := hm1.mono (Set.singleton_subset_iff.mpr hpt)
  -- every page of the table was free
  have hfr : ∀ {s' : St} {F' : Set Nat}, F' ∪ nodes s'.mem pt = F → ∀ t ∈ nodes s'.mem pt, Frame K t :=
      fun {s' F'} hs t ht =>
    h.frames t (hs ▸ Or.inr ht)
  have hback : ∀ {s' : St} {F' : Set Nat}, F' ∪ nodes s'.mem pt = F → nodes s'.mem pt ⊆ F := fun {s' F'} hs t ht =>
    hs ▸ Or.inr ht
  refine wp_neg hptf.ne_zero ?_
  rw [wp_bind]
  refine mappages_one (p := 0xFFFFF) ht1 rfl (by decide) K.trampoline_lt K.trampoline_aligned (by decide) (by rw [hv1])
    (fun s2 hm2 hg2 => ?_) fun s2 F2 hg2 hv2 => ?_
  · refine wp_pos (by decide) ?_
    have hv : ∀ p, view s2.mem pt p = none := fun p => by rw [hm2, hv1]
    rw [wp_bind]
    have hs := hg2.sum.trans hsum1
    refine uvmfree_empty hg2.table (hfr hs) hv hs fun s3 h3 h4 h5 => ?_
    rw [wp_pure]
    refine ⟨hm1.trans ?_, h5.trans (hg2.kern.trans hk1), Or.inl ⟨rfl, h3⟩⟩
    rw [← hm2]
    exact h4.mono (hback hs)
  · refine wp_neg (by decide) ?_
    have hs2 := hg2.sum.trans hsum1
    have hm2 : SameOff F s1.mem s2.mem := hsum1 ▸ hg2.off
    rw [hv1] at hv2
    rw [wp_bind]
    refine mappages_one (p := 0xFFFFE) hg2.table rfl (by decide) htf.lt htf.1 (by decide)
      (by rw [hv2, upd_ne (by decide)]) (fun s3 hm3 hg3 => ?_) fun s3 F3 hg3 hv3 => ?_
    · refine wp_pos (by decide) ?_
      have hs3 := hg3.sum.trans hs2
      have htop : view s3.mem pt 0xFFFFF = some (K.trampoline, permAD (PTE_R ||| PTE_X) ||| PTE_V) := by
        rw [hm3, hv2, upd_same]
      rw [wp_bind]
      refine hg3.table.unmap_one htop (permAD_ne_V _) fun s4 ht4 hv4 hn4 hm4 hk4 => ?_
      have hv : ∀ p, view s4.mem pt p = none := fun p => by
        rw [hv4, hm3, hv2, upd_upd]
        by_cases hp : p = 0xFFFFF
        · rw [hp, upd_same]
        · rw [upd_ne hp]
      have hs4 : F2 ∪ nodes s4.mem pt = F := by rw [hn4]; exact hs3
      rw [wp_bind]
      refine uvmfree_empty ht4 (hfr hs4) hv hs4 fun s5 h3 h4 h5 => ?_
      rw [wp_pure]
      refine ⟨hm1.trans (hm2.trans ?_), h5.trans (hk4.trans (hg3.kern.trans (hg2.kern.trans hk1))), Or.inl ⟨rfl, h3⟩⟩
      rw [← hm3]
      exact (hm4.mono (hback hs3)).trans (h4.mono (hback hs4))
    · refine wp_neg (by decide) ?_
      rw [wp_pure]
      have hs3 := hg3.sum.trans hs2
      have hm3 : SameOff F s2.mem s3.mem := hs2 ▸ hg3.off
      refine ⟨hm1.trans (hm2.trans hm3), hg3.kern.trans (hg2.kern.trans hk1),
        Or.inr ⟨hptf.ne_zero, F3, ⟨?_, hfr hs3, ?_, ?_⟩, hs3⟩⟩
      · refine Space.empty hg3.table fun p hp => ?_
        rw [hv3, upd_ne (by omega), hv2, upd_ne (by omega)]
      · rw [hv3, upd_ne (by decide), hv2, upd_same, permAD_or_V]
      · rw [hv3, upd_same, permAD_or_V]

end Xv6.Vm
