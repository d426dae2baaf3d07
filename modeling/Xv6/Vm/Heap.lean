/-
  Xv6.Vm.Heap — the page allocator of kernel/kalloc.c.

  `Heap K s F`: the free list, which runs through the free pages themselves, holds exactly
  the pages of `F`, each once. Writing anywhere else keeps it (`Heap.frame`); `kalloc` takes
  a page of `F` or fails without a trace (`kalloc_spec`), `kfree` puts one back
  (`kfree_spec`).
-/
import Xv6.Vm.Machine

namespace Xv6.Vm

variable {K : Image} {s s' : St} {F S : Set Nat} {m m' : Nat → UInt8} {head f pa a c n w : Nat} {l : List Nat}
  {E : Panic → St → Prop}

@[simp] theorem wp_memset (c : UInt8) (Q : Unit → St → Prop) :
    wp (memset a c n) Q E s = Q () { s with mem := blit s.mem a n fun _ => c } := (rfl)

@[simp] theorem wp_load (Q : Nat → St → Prop) : wp (load a) Q E s = Q (load32 s.mem a) s := (rfl)

@[simp] theorem wp_store (Q : Unit → St → Prop) :
    wp (store a w) Q E s = Q () { s with mem := store32 s.mem a w } := (rfl)

def Frame (K : Image) (f : Nat) : Prop := f % 4096 = 0 ∧ K.kend ≤ f ∧ f < PHYSTOP

theorem Frame.ne_zero (h : Frame K f) : f ≠ 0 := by
  have := K.base_lt
  have := h.2.1
  omega

theorem Frame.lt (h : Frame K f) : f < 2 ^ 32 := by
  have := h.2.2
  have : PHYSTOP = 0x81000000 := rfl
  omega

def FreeChain (m : Nat → UInt8) : Nat → List Nat → Prop
  | head, [] => head = 0
  | head, f :: l => head = f ∧ FreeChain m (load32 m f) l

structure Heap (K : Image) (s : St) (F : Set Nat) : Prop where
  chain : ∃ l : List Nat, FreeChain s.mem s.freelist l ∧ l.Nodup ∧ ∀ f, f ∈ l ↔ f ∈ F
  frames : ∀ f ∈ F, Frame K f

theorem FreeChain.congr (h : FreeChain m head l) (hm : ∀ f ∈ l, load32 m' f = load32 m f) : FreeChain m' head l := by
  induction l generalizing head with
  | nil => exact h
  | cons f l ih =>
    obtain ⟨h1, h2⟩ := h
    refine ⟨h1, ?_⟩
    rw [hm f List.mem_cons_self]
    exact ih h2 fun g hg => hm g (List.mem_cons_of_mem _ hg)

/-- Nothing but other pages is written. -/
theorem Heap.frame (h : Heap K s F) (hm : SameOff S s.mem s'.mem) (hS : ∀ f ∈ F, f ∉ S)
    (hl : s'.freelist = s.freelist) : Heap K s' F := by
  obtain ⟨⟨l, hc, hn, hF⟩, hf⟩ := h
  refine ⟨⟨l, ?_, hn, hF⟩, hf⟩
  rw [hl]
  refine hc.congr fun f hfl => ?_
  have hfr := (hf f ((hF f).mp hfl)).1
  exact hm.load32 (by omega) (by rw [page_self hfr]; exact hS f ((hF f).mp hfl))

theorem Heap.same (h : Heap K s F) (hm : s'.mem = s.mem) (hl : s'.freelist = s.freelist) : Heap K s' F :=
  h.frame (by rw [hm]; exact SameOff.refl ∅ _) (fun _ _ => Set.notMem_empty _) hl

theorem Heap.freelist_mem (h : Heap K s F) (h0 : s.freelist ≠ 0) : s.freelist ∈ F := by
  obtain ⟨⟨l, hc, -, hF⟩, -⟩ := h
  cases l with
  | nil => exact absurd hc h0
  | cons f l => exact (hF _).mp (by rw [hc.1]; exact List.mem_cons_self)

/-- The first page leaves the list and is overwritten. -/
theorem Heap.pop (h : Heap K s F) (h0 : s.freelist ≠ 0) (hm : SameOff {s.freelist} s.mem s'.mem)
    (hl : s'.freelist = load32 s.mem s.freelist) : Heap K s' (F \ {s.freelist}) := by
  obtain ⟨⟨l, hc, hn, hF⟩, hf⟩ := h
  cases l with
  | nil => exact absurd hc h0
  | cons f l =>
    obtain ⟨h1, h2⟩ := hc
    obtain ⟨h3, h4⟩ := List.nodup_cons.mp hn
    refine ⟨⟨l, ?_, h4, fun g => ?_⟩, fun g hg => hf g hg.1⟩
    · rw [hl, h1]
      refine h2.congr fun g hg => ?_
      have hfr := (hf g ((hF g).mp (List.mem_cons_of_mem _ hg))).1
      refine hm.load32 (by omega) ?_
      rw [page_self hfr, h1]
      intro he
      rw [Set.mem_singleton_iff] at he
      exact h3 (he ▸ hg)
    · constructor
      · intro hg
        refine ⟨(hF g).mp (List.mem_cons_of_mem _ hg), fun he => ?_⟩
        rw [Set.mem_singleton_iff, h1] at he
        exact h3 (he ▸ hg)
      · rintro ⟨hg, hne⟩
        rcases List.mem_cons.mp ((hF g).mpr hg) with he | hl'
        · exact absurd (he.trans h1.symm) hne
        · exact hl'

/-- A page is overwritten and becomes the first of the list. -/
theorem Heap.push (h : Heap K s F) (hf : Frame K pa) (hn : pa ∉ F) (hm : SameOff {pa} s.mem s'.mem)
    (hw : load32 s'.mem pa = s.freelist) (hl : s'.freelist = pa) : Heap K s' (insert pa F) := by
  obtain ⟨⟨l, hc, hnd, hF⟩, hfr⟩ := h
  refine ⟨⟨pa :: l, ⟨hl, ?_⟩, ?_, fun g => ?_⟩, ?_⟩
  · rw [hw]
    refine hc.congr fun g hg => ?_
    have hg' := (hF g).mp hg
    refine hm.load32 (by have := (hfr g hg').1; omega) ?_
    rw [page_self (hfr g hg').1]
    intro he
    rw [Set.mem_singleton_iff] at he
    exact hn (he ▸ hg')
  · exact List.nodup_cons.mpr ⟨fun he => hn ((hF pa).mp he), hnd⟩
  · rw [List.mem_cons, hF g, Set.mem_insert_iff]
  · intro g hg
    rcases Set.mem_insert_iff.mp hg with he | hg
    · exact he ▸ hf
    · exact hfr g hg

theorem kalloc_spec {Q : Nat → St → Prop} (h : Heap K s F)
    (hnone : ∀ s', s'.mem = s.mem → s'.kern = s.kern → Heap K s' F → Q 0 s')
    (hsome : ∀ r s', r ∈ F → Heap K s' (F \ {r}) → SameOff {r} s.mem s'.mem → s'.kern = s.kern → Q r s') :
    wp kalloc Q E s := by
  unfold kalloc
  simp only [wp_bind, wp_get, wp_set]
  refine wp_ite (fun _ => ?_) fun h0 => ?_
  · rw [wp_pure]
    exact hnone _ rfl rfl (h.same rfl rfl)
  · have hr : (if s.refuse 0 = true then 0 else s.freelist) = s.freelist := by
      split at h0
      · exact absurd rfl h0
      · exact if_neg ‹_›
    rw [hr] at h0 ⊢
    simp only [wp_bind, wp_load, wp_modify, wp_memset, wp_pure]
    have hmem : s.freelist % 4096 = 0 := (h.frames _ (h.freelist_mem h0)).1
    have hoff : SameOff {s.freelist} s.mem (blit s.mem s.freelist PGSIZE fun _ => 5) :=
      SameOff.blitPage hmem (Set.mem_singleton _)
    exact hsome _ _ (h.freelist_mem h0) (h.pop h0 hoff rfl) hoff rfl

theorem FreeChain.head_lt (h : FreeChain m head l) (hf : ∀ f ∈ l, f < 2 ^ 32) : head < 2 ^ 32 := by
  cases l with
  | nil => exact h ▸ (by decide)
  | cons f l => exact h.1 ▸ hf f List.mem_cons_self

theorem Heap.freelist_lt (h : Heap K s F) : s.freelist < 2 ^ 32 := by
  obtain ⟨⟨l, hc, -, hF⟩, hf⟩ := h
  exact hc.head_lt fun f hfl => (hf f ((hF f).mp hfl)).lt

/-- What `kfree` does to any page of the allocator's range, free or not. -/
theorem kfree_wp {Q : Unit → St → Prop} (hf : Frame K pa)
    (hQ : ∀ s', SameOff {pa} s.mem s'.mem → s'.kern = s.kern → s'.freelist = pa →
      (s.freelist < 2 ^ 32 → load32 s'.mem pa = s.freelist) → Q () s') : wp (kfree K pa) Q E s := by
  unfold kfree
  obtain ⟨h1, h2, h3⟩ := hf
  refine wp_ite (fun h => ?_) fun _ => ?_
  · rcases h with h | h | h
    · exact absurd h1 h
    · omega
    · omega
  simp only [wp_bind, wp_memset, wp_get, wp_store, wp_modify]
  refine hQ _ ?_ rfl rfl fun hlt => load32_store32_same hlt
  exact (SameOff.blitPage h1 (Set.mem_singleton pa)).trans
    (SameOff.store32 (by omega) (by rw [page_self h1]; exact Set.mem_singleton pa))

theorem kfree_spec {Q : Unit → St → Prop} (h : Heap K s F) (hf : Frame K pa) (hn : pa ∉ F)
    (hQ : ∀ s', Heap K s' (insert pa F) → SameOff {pa} s.mem s'.mem → s'.kern = s.kern → Q () s') :
    wp (kfree K pa) Q E s :=
  kfree_wp hf fun s' hm hk hl hw => hQ s' (h.push hf hn hm (hw h.freelist_lt) hl) hm hk

end Xv6.Vm
