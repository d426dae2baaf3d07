/-
  Xv6.Vm.Grow — `uvmalloc` and `uvmdealloc`.

  `Extended`: `uvmalloc` after some turns of its loop: a run of pages is bound to zeroed
  frames, each of its own, that were on the free list. What it takes back when it fails is
  just that (`Extended.undo`). Each page is a frame of RAM, so the loop does not get far:
  there are at most 4096 of them (`Extended.card`).
-/
import Xv6.Vm.Map

namespace Xv6.Vm

variable {K : Image} {s s' s0 : St} {F F' F0 S : Set Nat} {E : Panic → St → Prop}
  {pt va pa xperm r c i j p q n t f fl fuel oldsz newsz sz a : Nat} {perm : Nat → Nat} {bytes : Nat → Nat → UInt8}

theorem PGROUNDUP_pages (sz : Nat) : ∃ p < 2 ^ 20, PGROUNDUP sz = 4096 * p := by
  refine ⟨(sz + 4095) % 2 ^ 32 / 4096, by omega, ?_⟩
  show (sz + 4096 - 1) % 2 ^ 32 / 4096 * 4096 = _
  omega

theorem PGROUNDUP_eq (h : sz ≤ 0xFFFFF000) : PGROUNDUP sz = 4096 * ((sz + 4095) / 4096) := by
  show (sz + 4096 - 1) % 2 ^ 32 / 4096 * 4096 = _
  omega

/-! ## A page taken from the free list -/

/-- Only free pages are written. -/
theorem Table.move (h : Table K s pt F) (hF : F' ⊆ F) (hh : Heap K s' F') (hm : SameOff F s.mem s'.mem) :
    Table K s' pt F' ∧ view s'.mem pt = view s.mem pt ∧ nodes s'.mem pt = nodes s.mem pt := by
  have hc := root_congr h.skel.root hm (h.apart pt (root_mem _ _))
  have hn := hc.nodes
  exact ⟨⟨hh, h.skel.of_root hc, fun t ht hf => h.apart t (hn ▸ ht) (hF hf)⟩, view_congr h.skel hm h.apart, hn⟩

/-! ## uvmdealloc -/

/-- Its pages are unmapped and their frames are on the free list. -/
theorem uvmdealloc_spec (h : Skel s.mem pt) (ho : PGROUNDUP oldsz = 4096 * (p + n)) (hn : PGROUNDUP newsz = 4096 * p)
    (hlt : newsz < oldsz) (hpn : p + n ≤ 2 ^ 20) (hm : Mapped K s pt p n true) :
    wp (uvmdealloc K pt oldsz newsz) (fun sz s' => sz = newsz ∧
      Unmapped K pt s s' (unbound (view s.mem pt) p n) (released true (view s.mem pt) p n) ∧
      ∀ F, Heap K s F → (∀ t ∈ nodes s.mem pt, t ∉ F) → (true = true → Apart (view s.mem pt) p n) →
        (∀ f ∈ released true (view s.mem pt) p n, f ∉ F) →
        Heap K s' (F ∪ released true (view s.mem pt) p n)) E s := by
  unfold uvmdealloc
  refine wp_neg (by omega) ?_
  rw [ho, hn]
  refine wp_ite (fun _ => ?_) fun hge => ?_
  · rw [wp_bind, show (4096 * (p + n) - 4096 * p) / PGSIZE = n from by show _ / 4096 = n; omega]
    refine (uvmunmap_spec h rfl hpn hm).imp fun _ s' hs => ?_
    rw [wp_pure]
    exact ⟨rfl, hs⟩
  · have h0 : n = 0 := by omega
    rw [wp_pure, h0]
    refine ⟨rfl, ?_⟩
    have hu := uvmunmapLoop_spec (E := E) (n := 0) h (by omega) (h0 ▸ hm)
    rw [uvmunmapLoop, wp_pure] at hu
    exact hu

/-! ## uvmalloc -/

/-- From `s0` on, the `n` pages from `p` on were bound: page `q` with `perm q`, to a frame with the bytes `bytes q`. -/
structure Extended (K : Image) (pt : Nat) (perm : Nat → Nat) (bytes : Nat → Nat → UInt8) (s0 : St)
    (F0 : Set Nat) (p n : Nat) (s : St) (F : Set Nat) : Prop where
  table : Table K s pt F
  grow : nodes s0.mem pt ⊆ nodes s.mem pt
  same : ∀ q, ¬ (p ≤ q ∧ q < p + n) → view s.mem pt q = view s0.mem pt q
  was : ∀ k < n, view s0.mem pt (p + k) = none
  new : ∀ k < n, ∃ f, view s.mem pt (p + k) = some (f, permAD (perm (p + k)) ||| PTE_V)
  holds : ∀ k < n, ∀ f fl, view s.mem pt (p + k) = some (f, fl) → ∀ o < 4096, s.mem (f + o) = bytes (p + k) o
  inj : Apart (view s.mem pt) p n
  fresh : ∀ f ∈ released true (view s.mem pt) p n, f ∈ F0 ∧ f ∉ F ∧ f ∉ nodes s.mem pt
  sum : F ∪ nodes s.mem pt ∪ released true (view s.mem pt) p n = F0 ∪ nodes s0.mem pt
  off : SameOff (F0 ∪ nodes s0.mem pt) s0.mem s.mem
  kern : s.kern = s0.kern
  frames : ∀ f ∈ F0, Frame K f

theorem released_zero {doFree : Bool} {v : Nat → Option (Nat × Nat)} : released doFree v p 0 = ∅ :=
  Set.eq_empty_iff_forall_notMem.mpr fun f hf => by obtain ⟨-, k, hk, -⟩ := hf; omega

theorem Extended.nil (h : Table K s pt F) : Extended K pt perm bytes s F p 0 s F := by
  refine ⟨h, subset_rfl, fun _ _ => rfl, fun k hk => absurd hk (by omega), fun k hk => absurd hk (by omega),
    fun k hk => absurd hk (by omega), fun k hk => absurd hk (by omega), fun f hf => ?_, ?_, SameOff.refl _ _, rfl,
    h.heap.frames⟩
  · rw [released_zero] at hf
    exact absurd hf (Set.notMem_empty f)
  · rw [released_zero, Set.union_empty]

theorem Extended.free (h : Extended K pt perm bytes s0 F0 p n s F) : F ⊆ F0 := by
  intro x hx
  have hm : x ∈ F0 ∪ nodes s0.mem pt := h.sum ▸ Or.inl (Or.inl hx)
  rcases hm with hF | hn
  · exact hF
  · exact absurd hx (h.table.apart x (h.grow hn))

/-- Only free pages are written, and the free pages stay the same. -/
theorem Extended.move (h : Extended K pt perm bytes s0 F0 p n s F) (hh : Heap K s' F) (hm : SameOff F s.mem s'.mem)
    (hk : s'.kern = s.kern) : Extended K pt perm bytes s0 F0 p n s' F := by
  obtain ⟨ht, hv, hn⟩ := h.table.move subset_rfl hh hm
  refine ⟨ht, hn ▸ h.grow, hv ▸ h.same, h.was, hv ▸ h.new, fun k hk f fl hf o ho => ?_, hv ▸ h.inj, ?_, ?_, ?_,
    hk.trans h.kern, h.frames⟩
  · rw [hv] at hf
    have hfr := (h.fresh f ⟨rfl, k, hk, fl, hf⟩).2.1
    rw [hm _ (by rw [page_add (view_aligned hf) ho]; exact hfr)]
    exact h.holds k hk f fl hf o ho
  · rw [hv, hn]
    exact h.fresh
  · rw [hv, hn]
    exact h.sum
  · exact h.off.trans (hm.mono (h.free.trans Set.subset_union_left))

theorem released_snoc {v : Nat → Option (Nat × Nat)} :
    released true (upd v (p + n) (some (r, fl))) p (n + 1) = insert r (released true v p n) := by
  ext f
  constructor
  · rintro ⟨-, k, hk, fl', hf⟩
    by_cases he : k = n
    · rw [he, upd_same] at hf
      cases hf
      exact Or.inl rfl
    · rw [upd_ne (by omega)] at hf
      exact Or.inr ⟨rfl, k, by omega, fl', hf⟩
  · rintro (rfl | ⟨-, k, hk, fl', hf⟩)
    · exact ⟨rfl, n, by omega, fl, upd_same _ _ _⟩
    · exact ⟨rfl, k, by omega, fl', by rw [upd_ne (by omega)]; exact hf⟩

/-- One more page: `r` was taken, zeroed and bound. -/
theorem Extended.push (h : Extended K pt perm bytes s0 F0 p n s F) (hw : view s0.mem pt (p + n) = none) (hr : r ∈ F)
    {s1 s2 : St} (h₁ : Table K s1 pt (F \ {r})) (hm : SameOff {r} s.mem s1.mem)
    (hz : ∀ o < 4096, s1.mem (r + o) = bytes (p + n) o) (hk : s1.kern = s.kern) (hg : Grown K pt s1 (F \ {r}) s2 F')
    (hv : view s2.mem pt = upd (view s1.mem pt) (p + n) (some (r, permAD (perm (p + n)) ||| PTE_V))) :
    Extended K pt perm bytes s0 F0 p (n + 1) s2 F' := by
  have hrf := h.table.heap.frames r hr
  have hrn : r ∉ nodes s.mem pt := fun hn => h.table.apart r hn hr
  obtain ⟨-, hv1, hn1⟩ := h.table.move Set.sdiff_subset h₁.heap (hm.mono (Set.singleton_subset_iff.mpr hr))
  rw [hv1] at hv
  have hrel : released true (view s2.mem pt) p (n + 1) = insert r (released true (view s.mem pt) p n) := by
    rw [hv, released_snoc]
  have hsub : F' ⊆ F \ {r} := hg.free
  have hnode : ∀ t ∈ nodes s2.mem pt, t ∈ F \ {r} ∨ t ∈ nodes s.mem pt := fun t ht => hn1 ▸ hg.node ht
  -- what the earlier turns bound is neither free nor in the table, so it is not written
  have hold : ∀ f ∈ released true (view s.mem pt) p n, f ∉ (F \ {r}) ∪ nodes s1.mem pt := by
    rintro f hf (hF | hN)
    · exact (h.fresh f hf).2.1 hF.1
    · exact (h.fresh f hf).2.2 (hn1 ▸ hN)
  have hr1 : r ∉ (F \ {r}) ∪ nodes s1.mem pt := by
    rintro (hF | hN)
    · exact hF.2 rfl
    · exact hrn (hn1 ▸ hN)
  refine ⟨hg.table, ?_, fun q hq => ?_, fun k hk => ?_, fun k hk => ?_, fun k hk f fl hf o ho => ?_,
    fun k hk l hl f fl fl' hf hf' => ?_, fun f hf => ?_, ?_, ?_, ?_, h.frames⟩
  · exact h.grow.trans (hn1 ▸ hg.grow)
  · rw [hv, upd_ne (by omega)]
    exact h.same q (by omega)
  · by_cases he : k = n
    · exact he ▸ hw
    · exact h.was k (by omega)
  · by_cases he : k = n
    · exact ⟨r, by rw [hv, he, upd_same]⟩
    · rw [hv, upd_ne (by omega)]
      exact h.new k (by omega)
  · rw [hv] at hf
    by_cases he : k = n
    · rw [he, upd_same] at hf
      cases hf
      rw [hg.off _ (by rw [page_add hrf.1 ho]; exact hr1), he]
      exact hz o ho
    · rw [upd_ne (by omega)] at hf
      have hin : f ∈ released true (view s.mem pt) p n := ⟨rfl, k, by omega, fl, hf⟩
      have hal := view_aligned hf
      have hne : f ∉ ({r} : Set Nat) := fun he => (h.fresh f hin).2.1 (Set.mem_singleton_iff.mp he ▸ hr)
      rw [hg.off _ (by rw [page_add hal ho]; exact hold f hin), hm _ (by rw [page_add hal ho]; exact hne)]
      exact h.holds k (by omega) f fl hf o ho
  · rw [hv] at hf hf'
    have hnot : ∀ k < n, ∀ fl, view s.mem pt (p + k) ≠ some (r, fl) := fun k hk fl hf =>
      (h.fresh r ⟨rfl, k, hk, fl, hf⟩).2.1 hr
    by_cases he : k = n <;> by_cases he' : l = n
    · omega
    · rw [he, upd_same] at hf
      rw [upd_ne (by omega)] at hf'
      cases hf
      exact absurd hf' (hnot l (by omega) fl')
    · rw [he', upd_same] at hf'
      rw [upd_ne (by omega)] at hf
      cases hf'
      exact absurd hf (hnot k (by omega) fl)
    · rw [upd_ne (by omega)] at hf hf'
      exact h.inj k (by omega) l (by omega) f fl fl' hf hf'
  · rw [hrel] at hf
    rcases hf with rfl | hf
    · refine ⟨h.free hr, fun hF => (hsub hF).2 rfl, fun hN => ?_⟩
      rcases hnode f hN with hF | hN
      · exact hF.2 rfl
      · exact hrn hN
    · obtain ⟨h1, h2, h3⟩ := h.fresh f hf
      refine ⟨h1, fun hF => h2 (hsub hF).1, fun hN => ?_⟩
      rcases hnode f hN with hF | hN
      · exact h2 hF.1
      · exact h3 hN
  · rw [hrel, hg.sum, hn1, ← h.sum]
    ext x
    simp only [Set.mem_union, Set.mem_sdiff, Set.mem_singleton_iff, Set.mem_insert_iff]
    by_cases hx : x = r
    · simp only [hx, hr, true_or, or_true]
    · simp only [hx, not_false_eq_true, and_true, false_or]
  · refine h.off.trans ((hm.mono ?_).trans (hg.off.mono ?_))
    · exact Set.singleton_subset_iff.mpr (Or.inl (h.free hr))
    · rw [hn1, ← h.sum]
      exact (Set.union_subset_union_left _ Set.sdiff_subset).trans Set.subset_union_left
  · exact hg.kern.trans (hk.trans h.kern)

/-- The pages bound so far are frames of RAM, each counted once. -/
theorem Extended.card (h : Extended K pt perm bytes s0 F0 p n s F) : ∃ G :
    Finset Nat, G.card = n ∧ ∀ f ∈ G, f ∈ F0 := by
  choose! g hg using h.new
  refine ⟨(Finset.range n).image g, ?_, fun f hf => ?_⟩
  · rw [Finset.card_image_of_injOn, Finset.card_range]
    intro k hk l hl he
    have hk := Finset.mem_range.mp (Finset.mem_coe.mp hk)
    have hl := Finset.mem_range.mp (Finset.mem_coe.mp hl)
    exact h.inj k hk l hl _ _ _ (hg k hk) (by rw [hg l hl]; exact congrArg _ (Prod.ext he.symm rfl))
  · obtain ⟨k, hk, rfl⟩ := Finset.mem_image.mp hf
    have hk := Finset.mem_range.mp hk
    exact (h.fresh _ ⟨rfl, k, hk, _, hg k hk⟩).1

theorem unbound_new (h : Extended K pt perm bytes s0 F0 p n s F) : unbound (view s.mem pt) p n = view s0.mem pt := by
  funext q
  unfold unbound
  by_cases hq : p ≤ q ∧ q < p + n
  · rw [if_pos hq, show q = p + (q - p) by omega, h.was (q - p) (by omega)]
  · rw [if_neg hq]
    exact h.same q hq

/-- What was bound can be unmapped and freed. -/
theorem Extended.mapped (h : Extended K pt perm bytes s0 F0 p n s F) : Mapped K s pt p n true := by
  refine ⟨fun k hk => ?_, fun _ k hk f fl hf => ?_⟩
  · obtain ⟨f, hf⟩ := h.new k hk
    exact ⟨f, _, hf, permAD_ne_V _⟩
  · obtain ⟨h1, -, h3⟩ := h.fresh f ⟨rfl, k, hk, fl, hf⟩
    exact ⟨h.frames f h1, h3⟩

/-- What was bound is taken back, to the last page: only the table may have grown. -/
theorem Extended.undone (h : Extended K pt perm bytes s0 F0 p n s F)
    (hu : Unmapped K pt s s' (unbound (view s.mem pt) p n) (released true (view s.mem pt) p n))
    (hheap : ∀ F, Heap K s F → (∀ t ∈ nodes s.mem pt, t ∉ F) → (true = true → Apart (view s.mem pt) p n) →
      (∀ f ∈ released true (view s.mem pt) p n, f ∉ F) → Heap K s' (F ∪ released true (view s.mem pt) p n)) :
    ∃ F', Grown K pt s0 F0 s' F' ∧ view s'.mem pt = view s0.mem pt := by
  have hn := hu.root.nodes
  refine ⟨F ∪ released true (view s.mem pt) p n, ⟨⟨?_, h.table.skel.of_root hu.root, ?_⟩, ?_, ?_, ?_, ?_⟩, ?_⟩
  · exact hheap F h.table.heap h.table.apart (fun _ => h.inj) fun f hf => (h.fresh f hf).2.1
  · rintro t ht (hF | hR)
    · exact h.table.apart t (hn ▸ ht) hF
    · exact (h.fresh t hR).2.2 (hn ▸ ht)
  · rw [hn]
    exact h.grow
  · rw [hn, ← h.sum, Set.union_right_comm]
  · refine h.off.trans (hu.off.mono ?_)
    rw [← h.sum]
    exact Set.union_subset_union_left _ Set.subset_union_right
  · exact hu.kern.trans h.kern
  · rw [hu.view, unbound_new h]

theorem Extended.undo (h : Extended K pt perm bytes s0 F0 p n s F) (hpn : p + n < 2 ^ 20) :
    wp (uvmdealloc K pt (4096 * (p + n)) (4096 * p)) (fun _ s' => ∃ F', Grown K pt s0 F0 s' F' ∧
      view s'.mem pt = view s0.mem pt) E s := by
  have hrd : ∀ q < 2 ^ 20, PGROUNDUP (4096 * q) = 4096 * q := fun q hq => by
    rw [PGROUNDUP_eq (by omega)]
    omega
  by_cases h0 : n = 0
  · subst h0
    unfold uvmdealloc
    refine wp_pos (Nat.le_refl _) ?_
    rw [wp_pure]
    refine ⟨F, ⟨h.table, h.grow, ?_, h.off, h.kern⟩, funext fun q => h.same q (by omega)⟩
    rw [← h.sum, released_zero, Set.union_empty]
  · refine (uvmdealloc_spec h.table.skel (hrd _ hpn) (hrd _ (by omega)) (by omega) (by omega) h.mapped).imp
      fun _ s' => ?_
    rintro ⟨-, hu, hheap⟩
    exact h.undone hu hheap

/-- There are only so many frames. -/
theorem card_frames {G : Finset Nat} (h : ∀ f ∈ G, Frame K f) : G.card ≤ 4096 := by
  have hb := K.base_lt
  refine (card_pages (b := KERNBASE) (n := PHYSTOP) (by decide) fun f hf => ?_).trans (by decide)
  obtain ⟨h1, h2, h3⟩ := h f hf
  exact ⟨h1, by omega, h3⟩

theorem Extended.le (h : Extended K pt perm bytes s0 F0 p n s F) : n ≤ 4096 := by
  obtain ⟨G, hG, hF⟩ := h.card
  exact hG ▸ card_frames fun f hf => h.frames f (hF f hf)

/-- The end of `uvmalloc`: nothing has changed, or all pages up to `newsz` are there. -/
def Allocated (K : Image) (pt perm : Nat) (s0 : St) (F0 : Set Nat) (p newsz r : Nat) (s' : St) : Prop :=
  (r = 0 ∧ ∃ F', Grown K pt s0 F0 s' F' ∧ view s'.mem pt = view s0.mem pt) ∨
    (r = newsz ∧ ∃ n F', Extended K pt (fun _ => perm) (fun _ _ => 0) s0 F0 p n s' F' ∧
    p + n = max p ((newsz + 4095) / 4096))

theorem uvmallocLoop_spec (hx : xperm < 1024)
    (h : Extended K pt (fun _ => PTE_R ||| PTE_U ||| xperm) (fun _ _ => 0) s0 F0 p n s F)
    (hpn : p + n < 2 ^ 20) (hfuel : 4096 < n + fuel)
    (htop : ∀ k, view s0.mem pt (p + k) = none → 4096 * (p + k) < newsz →
      (∃ G : Finset Nat, G.card = k ∧ ∀ f ∈ G, f ∈ F0) → p + k + 1 < 2 ^ 20)
      (hn : p + n ≤ max p ((newsz + 4095) / 4096))
    (hE : ∀ k s', view s0.mem pt (p + k) ≠ none → 4096 * (p + k) < newsz →
      (∃ G : Finset Nat, G.card = k ∧ ∀ f ∈ G, f ∈ F0) → E .remap s') :
    wp (uvmallocLoop K pt (4096 * p) newsz xperm fuel (4096 * (p + n)))
      (Allocated K pt (PTE_R ||| PTE_U ||| xperm) s0 F0 p newsz) E s := by
  have hperm : PTE_R ||| PTE_U ||| xperm < 1024 := Nat.or_lt_two_pow (n := 10) (by decide) hx
  induction fuel generalizing n s F with
  | zero =>
    have := h.le
    omega
  | succ fuel ih =>
    unfold uvmallocLoop
    refine wp_ite (fun hlt => ?_) fun hge => ?_
    · rw [wp_bind]
      refine kalloc_spec h.table.heap (fun s1 hm hk hh => ?_) fun r s1 hr hh hoff hk => ?_
      · refine wp_pos rfl ?_
        have h₁ : Extended K pt (fun _ => PTE_R ||| PTE_U ||| xperm) (fun _ _ => 0) s0 F0 p n s1 F :=
          h.move hh (by rw [hm]; exact SameOff.refl _ _) hk
        rw [wp_bind]
        refine (h₁.undo hpn).imp fun _ s2 hs => ?_
        rw [wp_pure]
        exact Or.inl ⟨rfl, hs⟩
      · have hfr := h.table.heap.frames r hr
        refine wp_neg hfr.ne_zero ?_
        rw [wp_bind, wp_memset]
        have hfill1 : SameOff {r} s1.mem (blit s1.mem r PGSIZE fun _ => 0) :=
          SameOff.blitPage hfr.1 (Set.mem_singleton r)
        have hfill : SameOff {r} s.mem (blit s1.mem r PGSIZE fun _ => 0) := hoff.trans hfill1
        have hz : ∀ o < 4096, blit s1.mem r PGSIZE (fun _ => 0) (r + o) = 0 := fun o ho => blit_in ho
        have hh2 : Heap K { s1 with mem := blit s1.mem r PGSIZE fun _ => 0 } (F \ {r}) :=
          hh.frame hfill1 (fun f hf => hf.2) rfl
        obtain ⟨ht, hv, -⟩ := h.table.move Set.sdiff_subset hh2 (hfill.mono (Set.singleton_subset_iff.mpr hr))
        have hsame := h.same (p + n) (by omega)
        rw [wp_bind]
        cases hw : view s0.mem pt (p + n) with
        | some b =>
          refine mappages_remap ht.skel rfl hpn ?_ (hE n _ (by rw [hw]; nofun) hlt h.card)
          rw [hv, hsame, hw]
          nofun
        | none =>
          refine mappages_one ht rfl hpn hfr.lt hfr.1 hperm (by rw [hv, hsame]; exact hw) (fun s3 hm3 hg => ?_)
            fun s3 F3 hg hv3 => ?_
          · -- no page for the table: the page taken goes back first
            refine wp_pos (by decide) ?_
            rw [wp_bind]
            refine kfree_spec hg.table.heap hfr (fun hF => hF.2 rfl) fun s4 hh4 hm4 hk4 => ?_
            have hF : insert r (F \ {r}) = F := by rw [Set.insert_sdiff_singleton, Set.insert_eq_of_mem hr]
            have h4 : Extended K pt (fun _ => PTE_R ||| PTE_U ||| xperm) (fun _ _ => 0) s0 F0 p n s4 F := by
              refine h.move (hF ▸ hh4) ?_ (hk4.trans (hg.kern.trans hk))
              refine SameOff.mono (S := {r}) ?_ (Set.singleton_subset_iff.mpr hr)
              rw [hm3] at hm4
              exact hfill.trans hm4
            rw [wp_bind]
            refine (h4.undo hpn).imp fun _ s5 hs => ?_
            rw [wp_pure]
            exact Or.inl ⟨rfl, hs⟩
          · refine wp_neg (fun h0 => h0 rfl) ?_
            have hpn' : p + n + 1 < 2 ^ 20 := htop n hw hlt h.card
            have hnext : (4096 * (p + n) + PGSIZE) % 2 ^ 32 = 4096 * (p + (n + 1)) := by
              show (4096 * (p + n) + 4096) % 2 ^ 32 = _
              omega
            rw [hnext]
            exact ih (h.push hw hr ht hfill hz hk hg hv3) hpn' (by omega) (by omega)
    · rw [wp_pure]
      exact Or.inr ⟨rfl, n, F, h, by omega⟩

theorem uvmalloc_spec (hx : xperm < 1024) (h : Table K s pt F) (hold : PGROUNDUP oldsz = 4096 * p) (hp : p < 2 ^ 20)
    (hle : oldsz ≤ newsz)
    (htop : ∀ k, view s.mem pt (p + k) = none → 4096 * (p + k) < newsz →
      (∃ G : Finset Nat, G.card = k ∧ ∀ f ∈ G, f ∈ F) → p + k + 1 < 2 ^ 20)
    (hE : ∀ k s', view s.mem pt (p + k) ≠ none → 4096 * (p + k) < newsz →
      (∃ G : Finset Nat, G.card = k ∧ ∀ f ∈ G, f ∈ F) → E .remap s') :
    wp (uvmalloc K pt oldsz newsz xperm) (Allocated K pt (PTE_R ||| PTE_U ||| xperm) s F p newsz) E s := by
  unfold uvmalloc
  refine wp_neg (by omega) ?_
  rw [hold]
  exact uvmallocLoop_spec (n := 0) hx (Extended.nil h) hp (by decide) htop (by omega) hE

end Xv6.Vm
