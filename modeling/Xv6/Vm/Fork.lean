/-
  Xv6.Vm.Fork — `uvmcopy`, which gives a child its parent's memory.

  Proved (`uvmcopy_exact`), whatever `kalloc` answers: on success each page of the child has
  the parent's permissions and bytes in a frame of its own; on failure the child has no
  user page, and every page that is no longer free is one of its table. The
  parent's memory and table are the same either way: only pages that were free or the
  child table's are written.
-/
import Xv6.Vm.Space

namespace Xv6.Vm

variable {K : Image} {s s' s0 : St} {F F' F0 : Set Nat} {old new sz p q n f fl g gl fuel perm : Nat}
  {E : Panic → St → Prop}

/-- The permissions and the bytes of the parent's page `p`. -/
def permOf (m : Nat → UInt8) (pt p : Nat) : Nat := ((view m pt p).getD (0, 0)).2

def bytesOf (m : Nat → UInt8) (pt p o : Nat) : UInt8 := m (((view m pt p).getD (0, 0)).1 + o)

/-- A parent with its memory, and a child table with none, of other pages. -/
structure Forking (K : Image) (s : St) (old new sz : Nat) (F : Set Nat) : Prop where
  parent : Space K s old sz F
  child : Table K s new F
  empty : ∀ p < 0xFFFFE, view s.mem new p = none
  apart : ∀ t ∈ nodes s.mem new, t ∉ nodes s.mem old
  data : ∀ p < 0xFFFFE, ∀ f fl, view s.mem old p = some (f, fl) → f ∉ nodes s.mem new

/-- What the copy writes is not the parent's. -/
theorem Forking.parent_same (h : Forking K s0 old new sz F0) (hm : SameOff (F0 ∪ nodes s0.mem new) s0.mem s.mem) :
    view s.mem old = view s0.mem old ∧ nodes s.mem old = nodes s0.mem old ∧
      ∀ p < 0xFFFFE, ∀ f fl, view s0.mem old p = some (f, fl) → ∀ o < 4096, s.mem (f + o) = s0.mem (f + o) := by
  have hS : ∀ t ∈ nodes s0.mem old, t ∉ F0 ∪ nodes s0.mem new := fun t ht hm =>
    hm.elim (h.parent.table.apart t ht) fun hN => h.apart t hN ht
  refine ⟨view_congr h.parent.table.skel hm hS, (root_congr h.parent.table.skel.root hm (hS old (root_mem _ _))).nodes,
    fun p hp f fl hf o ho => hm _ ?_⟩
  rw [page_add (view_aligned hf) ho]
  exact fun hm => hm.elim (h.parent.data p hp f fl hf).2.1 (h.data p hp f fl hf)

theorem perm_lt {m : Nat → UInt8} {pt : Nat} (h : view m pt p = some (f, fl)) : fl < 1024 := by
  obtain ⟨c, -, hl⟩ := view_some h
  rw [← (leaf_some hl).2.2, PTE_FLAGS_eq]
  omega

def Forked (K : Image) (s : St) (old new sz : Nat) (F : Set Nat) (r : Int) (s' : St) : Prop :=
  (r = 0 ∧ ∃ F', Extended K new (permOf s.mem old) (bytesOf s.mem old) s F 0 (pages sz) s' F') ∨
    (r = -1 ∧ ∃ F', Grown K new s F s' F' ∧ view s'.mem new = view s.mem new)

theorem uvmcopyLoop_err (h : Extended K new (permOf s0.mem old) (bytesOf s0.mem old) s0 F0 0 n s F) (hn : n ≤ 4096) :
    wp (uvmunmap K new 0 (4096 * n / PGSIZE) true) (fun _ s' => Forked K s0 old new sz F0 (-1) s') E s := by
  have hdiv : 4096 * n / PGSIZE = n := by
    show 4096 * n / 4096 = n
    omega
  rw [hdiv]
  refine (uvmunmap_spec h.table.skel (p := 0) rfl (by omega) h.mapped).imp fun _ s' => ?_
  rintro ⟨hu, hheap⟩
  exact Or.inr ⟨rfl, h.undone hu hheap⟩

theorem uvmcopyLoop_spec (hf : Forking K s0 old new sz F0)
    (h : Extended K new (permOf s0.mem old) (bytesOf s0.mem old) s0 F0 0 n s F) (hn : n ≤ pages sz)
    (hfuel : 4096 < n + fuel) : wp (uvmcopyLoop K old new sz fuel (4096 * n)) (Forked K s0 old new sz F0) E s := by
  have hsz := hf.parent.sz_le
  have hb := hf.parent.pages_le
  induction fuel generalizing n s F with
  | zero => omega
  | succ fuel ih =>
    unfold uvmcopyLoop
    refine wp_ite (fun hlt => ?_) fun hge => ?_
    · have hnlt : n < pages sz := by
        unfold pages
        omega
      obtain ⟨hv, hnodes, hbytes⟩ := hf.parent_same h.off
      obtain ⟨⟨f, fl⟩, hfl⟩ := Option.isSome_iff_exists.mp ((hf.parent.leaves n (by omega)).mpr hnlt)
      obtain ⟨c, hc, hl⟩ := view_some (hv ▸ hfl : view s.mem old n = some (f, fl))
      obtain ⟨hV, hpa, hflags⟩ := leaf_some hl
      have hsk : Skel s.mem old := hf.parent.table.skel.of_root (root_congr hf.parent.table.skel.root h.off fun hm =>
        hm.elim (hf.parent.table.apart old (root_mem _ _)) fun hN => hf.apart old hN (root_mem _ _))
      rw [wp_bind]
      refine walk_some (by omega) (by rw [show 4096 * n / 2 ^ 22 = n / 1024 by omega]; exact hc) ?_
      rw [show 4096 * n / 2 ^ 12 = n by omega]
      refine wp_neg (by have := (hsk.kid hc).1; omega) ?_
      rw [wp_bind, wp_load]
      refine wp_neg hV ?_
      rw [hpa, hflags, wp_bind]
      obtain ⟨hfr, hfF, hfN, -⟩ := hf.parent.data n (by omega) f fl hfl
      refine kalloc_spec h.table.heap (fun s1 hm hk hh => ?_) fun r s1 hr hh hoff hk => ?_
      · refine wp_pos rfl ?_
        rw [wp_bind]
        exact uvmcopyLoop_err (h.move hh (by rw [hm]; exact SameOff.refl _ _) hk) (by omega)
      · have hrf := h.table.heap.frames r hr
        have hne : f ≠ r := fun he => hfF (he ▸ h.free hr)
        refine wp_neg hrf.ne_zero ?_
        rw [wp_bind, wp_modify]
        have hcopy1 : SameOff {r} s1.mem (blit s1.mem r PGSIZE fun k => s1.mem (f + k)) :=
          SameOff.blitPage hrf.1 (Set.mem_singleton r)
        have hcopy : SameOff {r} s.mem (blit s1.mem r PGSIZE fun k => s1.mem (f + k)) := hoff.trans hcopy1
        have hperm : permOf s0.mem old (0 + n) = fl := by
          unfold permOf
          rw [Nat.zero_add, hfl]
          rfl
        have hz : ∀ o < 4096, blit s1.mem r PGSIZE (fun k => s1.mem (f + k)) (r + o) = bytesOf s0.mem old
            (0 + n) o := by
          intro o ho
          unfold bytesOf
          rw [blit_in ho, hoff _ (by rw [page_add hfr.1 ho]; exact hne), hbytes n (by omega) f fl hfl o ho,
            Nat.zero_add, hfl]
          rfl
        have hh2 : Heap K { s1 with mem := blit s1.mem r PGSIZE fun k => s1.mem (f + k) } (F \ {r}) :=
          hh.frame hcopy1 (fun f hf => hf.2) rfl
        obtain ⟨ht, hv2, -⟩ := h.table.move Set.sdiff_subset hh2 (hcopy.mono (Set.singleton_subset_iff.mpr hr))
        have hempty : view s0.mem new (0 + n) = none := by
          rw [Nat.zero_add]
          exact hf.empty n (by omega)
        have hsame := h.same n (by omega)
        rw [Nat.zero_add] at hempty
        rw [wp_bind]
        refine mappages_one ht rfl (by omega) hrf.lt hrf.1 (perm_lt hfl) (by rw [hv2, hsame]; exact hempty)
          (fun s3 hm3 hg => ?_) fun s3 F3 hg hv3 => ?_
        · -- no page for the table: the copy goes back first
          refine wp_pos (by decide) ?_
          rw [wp_bind]
          refine kfree_spec hg.table.heap hrf (fun hF => hF.2 rfl) fun s4 hh4 hm4 hk4 => ?_
          have hF : insert r (F \ {r}) = F := by rw [Set.insert_sdiff_singleton, Set.insert_eq_of_mem hr]
          rw [hm3] at hm4
          rw [wp_bind]
          exact uvmcopyLoop_err (h.move (hF ▸ hh4) ((hcopy.trans hm4).mono (Set.singleton_subset_iff.mpr hr))
            (hk4.trans (hg.kern.trans hk))) (by omega)
        · refine wp_neg (fun h0 => h0 rfl) ?_
          have hnext : (4096 * n + PGSIZE) % 2 ^ 32 = 4096 * (n + 1) := by
            show (4096 * n + 4096) % 2 ^ 32 = _
            omega
          rw [hnext]
          refine ih (h.push (by rw [Nat.zero_add]; exact hempty) hr ht hcopy hz hk hg ?_) (by omega) (by omega)
          rw [hperm, Nat.zero_add]
          exact hv3
    · have he : n = pages sz := by
        unfold pages at hn ⊢
        omega
      rw [wp_pure]
      exact Or.inl ⟨rfl, F, he ▸ h⟩

theorem uvmcopy_spec (h : Forking K s old new sz F) : wp (uvmcopy K old new sz) (Forked K s old new sz F) E s := by
  unfold uvmcopy
  exact uvmcopyLoop_spec h (Extended.nil h.child) (Nat.zero_le _) (by decide)

/-- `mappages` adds A, D and V to the flags; what the user may do stays the same. -/
theorem permAD_user (perm : Nat) : (permAD perm ||| PTE_V) &&& (PTE_R ||| PTE_W ||| PTE_X ||| PTE_U) =
    perm &&& (PTE_R ||| PTE_W ||| PTE_X ||| PTE_U) := by
  have hA : PTE_A &&& (PTE_R ||| PTE_W ||| PTE_X ||| PTE_U) = 0 := by decide
  have hD : PTE_D &&& (PTE_R ||| PTE_W ||| PTE_X ||| PTE_U) = 0 := by decide
  have hV : PTE_V &&& (PTE_R ||| PTE_W ||| PTE_X ||| PTE_U) = 0 := by decide
  unfold permAD
  dsimp only
  split
  · rw [Nat.and_or_distrib_right, Nat.and_or_distrib_right, Nat.and_or_distrib_right, hA, hD, hV, Nat.or_zero,
      Nat.or_zero, Nat.or_zero]
  · rw [Nat.and_or_distrib_right, Nat.and_or_distrib_right, hA, hV, Nat.or_zero, Nat.or_zero]

/-- `uvmcopy` leaves the parent as it was. On 0 the child has the parent's bytes and permissions in frames of its own;
    on -1 it has none, and of the free pages only those of its table are gone. -/
theorem uvmcopy_exact (h : Forking K s old new sz F) : wp (uvmcopy K old new sz) (fun r s' =>
    (view s'.mem old = view s.mem old ∧ ∀ x, page x ∉ F → page x ∉ nodes s.mem new → s'.mem x = s.mem x) ∧
    ((r = 0 ∧
        (∀ va < 4096 * pages sz, ∃ f fl g gl, view s.mem old (va / 4096) = some (f, fl) ∧
          view s'.mem new (va / 4096) = some (g, gl) ∧
          gl &&& (PTE_R ||| PTE_W ||| PTE_X ||| PTE_U) = fl &&& (PTE_R ||| PTE_W ||| PTE_X ||| PTE_U) ∧
          s'.mem (g + va % 4096) = s.mem (f + va % 4096)) ∧
        (∀ p < 0xFFFFE, ∀ q < 0xFFFFE, ∀ f fl g gl, view s'.mem old p = some (f, fl) →
          view s'.mem new q = some (g, gl) → f ≠ g) ∧
        (∃ F', Space K s' new sz F')) ∨
      (r = -1 ∧ (∀ p < 0xFFFFE, view s'.mem new p = none) ∧
        ∃ F', Heap K s' F' ∧ nodes s.mem new ⊆ nodes s'.mem new ∧ F' ∪ nodes s'.mem new = F ∪ nodes s.mem new)))
    (fun _ _ => False) s := by
  have hb := h.parent.pages_le
  have hkeep : ∀ {s' : St}, SameOff (F ∪ nodes s.mem new) s.mem s'.mem → view s'.mem old = view s.mem old ∧
      ∀ x, page x ∉ F → page x ∉ nodes s.mem new → s'.mem x = s.mem x := fun {s'} hm =>
    ⟨(h.parent_same hm).1, fun x h1 h2 => hm x fun hx => hx.elim h1 h2⟩
  refine (uvmcopy_spec h).imp fun r s' => ?_
  rintro (⟨hr, F', hx⟩ | ⟨hr, F', hg, hv⟩)
  · have hfresh : ∀ q < 0xFFFFE, ∀ g gl, view s'.mem new q = some (g, gl) → q < pages sz ∧ g ∈ F :=
        fun q hq g gl hg => by
      have hlt : q < pages sz := by
        by_contra hc
        rw [hx.same q (by omega), h.empty q hq] at hg
        cases hg
      exact ⟨hlt, (hx.fresh g ⟨rfl, q, hlt, gl, by rw [Nat.zero_add]; exact hg⟩).1⟩
    refine ⟨hkeep hx.off, Or.inl ⟨hr, fun va hva => ?_, fun p hp q hq f fl g gl hf hg he => ?_, F',
      (Space.empty h.child h.empty).extend hx ?_ (Nat.zero_le _)⟩⟩
    · have hp : va / 4096 < pages sz := by omega
      obtain ⟨⟨f, fl⟩, hfl⟩ := Option.isSome_iff_exists.mp ((h.parent.leaves _ (by omega)).mpr hp)
      obtain ⟨g, hg⟩ := hx.new _ hp
      have hby := hx.holds _ hp g _ hg (va % 4096) (by omega)
      rw [Nat.zero_add] at hg hby
      have hpe : permOf s.mem old (va / 4096) = fl := by
        unfold permOf
        rw [hfl]
        rfl
      have hbe : bytesOf s.mem old (va / 4096) (va % 4096) = s.mem (f + va % 4096) := by
        unfold bytesOf
        rw [hfl]
        rfl
      exact ⟨f, fl, g, _, hfl, hg, by rw [permAD_user, hpe], hby.trans hbe⟩
    · rw [(h.parent_same hx.off).1] at hf
      exact (h.parent.data p hp f fl hf).2.1 (he ▸ (hfresh q hq g gl hg).2)
    · rw [pages_zero]
      omega
  · refine ⟨hkeep hg.off, Or.inr ⟨hr, fun p hp => ?_, F', hg.table.heap, hg.grow, hg.sum⟩⟩
    rw [hv]
    exact h.empty p hp

/-- A table for the child, in a page of zeros. -/
theorem twoPages_forking : ∃ F, Forking image twoPages 0x80100000 0x80101000 8192 F := by
  obtain ⟨F, hF, h, hn, hd, hm⟩ := twoPages_space
  have hfree : (0x80101000 : Nat) ∉ freed 8 := not_freed (by decide)
  have hz : ∀ k < 4096, twoPages.mem (0x80101000 + k) = 0 := fun k hk => by
    rw [hm _ fun hin => ?_]
    · exact freePages_zero 8 (by decide) k hk
    · rw [page_add (by decide) hk] at hin
      exact hin.elim hfree fun he => absurd he (by decide)
  have hnew := nodes_empty hz
  refine ⟨F, h, ⟨h.table.heap, Skel.empty (by decide) hz, fun t ht hin => ?_⟩, fun p _ => ?_, fun t ht ho => ?_,
    fun p _ f fl hf hin => ?_⟩
  · rw [hnew, Set.mem_singleton_iff] at ht
    exact hfree (hF (ht ▸ hin))
  · rw [view_empty hz]
  · rw [hnew, Set.mem_singleton_iff] at ht
    subst ht
    exact (hn ho).elim hfree fun he => absurd he (by decide)
  · rw [hnew, Set.mem_singleton_iff] at hin
    exact hfree (hin ▸ hd p f fl hf)

/-- Both pages are copied, to frames of the child's own. -/
theorem uvmcopy_exact_twoPages : ∃ s', uvmcopy image 0x80100000 0x80101000 8192 twoPages = .ok 0 s' ∧
    ∀ va < 8192, ∃ f fl g gl, view twoPages.mem 0x80100000 (va / 4096) = some (f, fl) ∧
      view s'.mem 0x80101000 (va / 4096) = some (g, gl) ∧ f ≠ g ∧ s'.mem (g + va % 4096) = twoPages.mem
      (f + va % 4096) := by
  have hrun : (match uvmcopy image 0x80100000 0x80101000 8192 twoPages with
      | .ok r _ => r == 0
      | .error _ _ => false) = true := by decide +kernel
  obtain ⟨F, h⟩ := twoPages_forking
  split at hrun
  · rename_i r s' heq
    have hr := eq_of_beq hrun
    subst hr
    obtain ⟨⟨hold, -⟩, ⟨-, hall, hne, -⟩ | ⟨h1, -⟩⟩ := wp_ok (uvmcopy_exact h) heq
    · refine ⟨s', heq, fun va hva => ?_⟩
      obtain ⟨f, fl, g, gl, hf, hg, -, hby⟩ := hall va hva
      exact ⟨f, fl, g, gl, hf, hg, hne _ (by omega) _ (by omega) f fl g gl (hold ▸ hf) hg, hby⟩
    · cases h1
  · cases hrun

end Xv6.Vm
