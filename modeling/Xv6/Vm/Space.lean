/-
  Xv6.Vm.Space — a process's user memory, and `growproc`.

  `Space K s pt sz F`: below TRAPFRAME the table binds exactly the pages of [0, sz), each to a
  page of the allocator's of its own; the free pages are `F`. RAM bounds the size: the
  pages and the free ones are at most 4096 (`Space.bound`), so no size gets near the top of
  the address space.

  Proved (`growproc_exact_iff`): `growproc(n)` is exact or has no effect just when `sz + n` is
  not negative. For a smaller `n`, `sz + n` wraps and `uvmdealloc` takes it for a size that
  needs no work: 0 is returned and nothing has changed.
-/
import Xv6.Vm.Refine

namespace Xv6.Vm

variable {K : Image} {s s' s0 : St} {F F' F0 : Set Nat} {pt p q n f fl fl' sz newsz : Nat} {perm : Nat → Nat}
  {bytes : Nat → Nat → UInt8} {E : Panic → St → Prop}

def pages (sz : Nat) : Nat := (sz + 4095) / 4096

/-- 0xFFFFE is TRAPFRAME's page. -/
structure Space (K : Image) (s : St) (pt sz : Nat) (F : Set Nat) : Prop where
  table : Table K s pt F
  leaves : ∀ p < 0xFFFFE, (view s.mem pt p).isSome ↔ p < pages sz
  data : ∀ p < 0xFFFFE, ∀ f fl, view s.mem pt p = some (f, fl) → Frame K f ∧ f ∉ F ∧ f ∉ nodes s.mem pt ∧ fl ≠ PTE_V
  inj : ∀ p < 0xFFFFE, ∀ q < 0xFFFFE, ∀ f fl fl', view s.mem pt p = some (f, fl) → view s.mem pt q = some
    (f, fl') → p = q

theorem pages_le (h : n ≤ sz) : pages n ≤ pages sz := Nat.div_le_div_right (by omega)

theorem pages_zero : pages 0 = 0 := rfl

theorem Space.empty (h : Table K s pt F) (hv : ∀ p < 0xFFFFE, view s.mem pt p = none) : Space K s pt 0 F := by
  refine ⟨h, fun q hq => ?_, fun q hq f fl hf => ?_, fun q hq r _ f fl fl' hf => ?_⟩
  · rw [hv q hq, pages_zero]
    exact ⟨fun hs => absurd hs (by decide), fun hlt => absurd hlt (by omega)⟩
  · rw [hv q hq] at hf
    cases hf
  · rw [hv q hq] at hf
    cases hf

/-! ## How much there is -/

theorem Space.bound (h : Space K s pt sz F) {G : Finset Nat} (hG : ∀ f ∈ G, f ∈ F) : pages sz + G.card ≤ 4096 := by
  have hsome : ∀ p < min (pages sz) 0xFFFFE, ∃ f fl, view s.mem pt p = some (f, fl) := fun p hp => by
    obtain ⟨b, hb⟩ := Option.isSome_iff_exists.mp ((h.leaves p (by omega)).mpr (by omega))
    exact ⟨b.1, b.2, hb⟩
  choose! g gl hg using hsome
  have hinj : Set.InjOn g (Finset.range (min (pages sz) 0xFFFFE)) := by
    intro p hp q hq he
    have hp := Finset.mem_range.mp (Finset.mem_coe.mp hp)
    have hq := Finset.mem_range.mp (Finset.mem_coe.mp hq)
    exact h.inj p (by omega) q (by omega) _ _ _ (hg p hp) (by rw [hg q hq, he])
  have hdis : Disjoint ((Finset.range (min (pages sz) 0xFFFFE)).image g) G := by
    rw [Finset.disjoint_left]
    intro f hf hf'
    obtain ⟨p, hp, rfl⟩ := Finset.mem_image.mp hf
    have hp := Finset.mem_range.mp hp
    exact (h.data p (by omega) _ _ (hg p hp)).2.1 (hG _ hf')
  have hcard : ((Finset.range (min (pages sz) 0xFFFFE)).image g ∪ G).card ≤ 4096 := by
    refine card_frames (K := K) fun f hf => ?_
    rcases Finset.mem_union.mp hf with hf | hf
    · obtain ⟨p, hp, rfl⟩ := Finset.mem_image.mp hf
      have hp := Finset.mem_range.mp hp
      exact (h.data p (by omega) _ _ (hg p hp)).1
    · exact h.table.heap.frames f (hG f hf)
  rw [Finset.card_union_of_disjoint hdis, Finset.card_image_of_injOn hinj, Finset.card_range] at hcard
  omega

theorem Space.pages_le (h : Space K s pt sz F) : pages sz ≤ 4096 :=
  h.bound (G := ∅) fun f hf => absurd hf (Finset.notMem_empty f)

theorem Space.sz_le (h : Space K s pt sz F) : sz ≤ 2 ^ 24 := by
  have := h.pages_le
  unfold pages at this
  omega

theorem PGROUNDUP_pages_eq (h : sz ≤ 2 ^ 24) : PGROUNDUP sz = 4096 * pages sz := PGROUNDUP_eq (by omega)

/-! ## Growing and shrinking -/

theorem Space.extend (h : Space K s0 pt sz F0) (hx : Extended K pt perm bytes s0 F0 (pages sz) n s F)
    (hn : pages sz + n = max (pages sz) (pages newsz)) (hle : sz ≤ newsz) : Space K s pt newsz F := by
  have hmono := Vm.pages_le hle
  have hcard : pages sz + n ≤ 4096 := by
    obtain ⟨G, hG, hF⟩ := hx.card
    exact hG ▸ h.bound hF
  have hold : ∀ q, ¬ (pages sz ≤ q ∧ q < pages sz + n) → view s.mem pt q = view s0.mem pt q := hx.same
  have hnew : ∀ q f fl, pages sz ≤ q ∧ q < pages sz + n → view s.mem pt q = some (f, fl) →
      f ∈ released true (view s.mem pt) (pages sz) n := fun q f fl hq hf =>
    ⟨rfl, q - pages sz, by omega, fl, by rw [Nat.add_sub_cancel' hq.1]; exact hf⟩
  -- a frame bound before is neither free nor taken
  have hout : ∀ q < 0xFFFFE, ∀ f fl, view s0.mem pt q = some (f, fl) →
      f ∉ F ∪ nodes s.mem pt ∪ released true (view s.mem pt) (pages sz) n := fun q hq f fl hf => by
    rw [hx.sum]
    exact fun hm => hm.elim (h.data q hq f fl hf).2.1 (h.data q hq f fl hf).2.2.1
  refine ⟨hx.table, fun q hq => ?_, fun q hq f fl hf => ?_, fun q hq r hr f fl fl' hf hf' => ?_⟩
  · by_cases hin : pages sz ≤ q ∧ q < pages sz + n
    · obtain ⟨g, hg⟩ := hx.new (q - pages sz) (by omega)
      rw [Nat.add_sub_cancel' hin.1] at hg
      rw [hg]
      exact ⟨fun _ => by omega, fun _ => rfl⟩
    · rw [hold q hin, h.leaves q hq]
      omega
  · by_cases hin : pages sz ≤ q ∧ q < pages sz + n
    · obtain ⟨h1, h2, h3⟩ := hx.fresh f (hnew q f fl hin hf)
      refine ⟨hx.frames f h1, h2, h3, ?_⟩
      obtain ⟨g, hg⟩ := hx.new (q - pages sz) (by omega)
      rw [Nat.add_sub_cancel' hin.1, hf] at hg
      cases hg
      exact permAD_ne_V _
    · rw [hold q hin] at hf
      have := hout q hq f fl hf
      exact ⟨(h.data q hq f fl hf).1, fun hF => this (Or.inl (Or.inl hF)), fun hN => this (Or.inl (Or.inr hN)),
        (h.data q hq f fl hf).2.2.2⟩
  · by_cases hin : pages sz ≤ q ∧ q < pages sz + n <;> by_cases hin' : pages sz ≤ r ∧ r < pages sz + n
    · have := hx.inj (q - pages sz) (by omega) (r - pages sz) (by omega) f fl fl'
        (by rw [Nat.add_sub_cancel' hin.1]; exact hf) (by rw [Nat.add_sub_cancel' hin'.1]; exact hf')
      omega
    · rw [hold r hin'] at hf'
      exact absurd (Or.inr (hnew q f fl hin hf)) (hout r hr f fl' hf')
    · rw [hold q hin] at hf
      exact absurd (Or.inr (hnew r f fl' hin' hf')) (hout q hq f fl hf)
    · rw [hold q hin] at hf
      rw [hold r hin'] at hf'
      exact h.inj q hq r hr f fl fl' hf hf'

/-- What `uvmunmap` needs to free the pages from `p` on. -/
theorem Space.mapped (h : Space K s pt sz F) (hpn : p + n ≤ pages sz) :
    Mapped K s pt p n true ∧ Apart (view s.mem pt) p n ∧ ∀ f ∈ released true (view s.mem pt) p n, f ∉ F := by
  have hle := h.pages_le
  refine ⟨⟨fun k hk => ?_, fun _ k hk f fl hf => ?_⟩, fun k hk l hl f fl fl' hf hf' => ?_, ?_⟩
  · obtain ⟨b, hb⟩ := Option.isSome_iff_exists.mp ((h.leaves (p + k) (by omega)).mpr (by omega))
    exact ⟨b.1, b.2, hb, (h.data (p + k) (by omega) b.1 b.2 hb).2.2.2⟩
  · have := h.data (p + k) (by omega) f fl hf
    exact ⟨this.1, this.2.2.1⟩
  · have := h.inj (p + k) (by omega) (p + l) (by omega) f fl fl' hf hf'
    omega
  · rintro f ⟨-, k, hk, fl, hf⟩
    exact (h.data (p + k) (by omega) f fl hf).2.1

theorem Space.shrink (h : Space K s pt sz F) (hle : newsz ≤ sz) (hn : pages newsz + n = pages sz)
    (hu : Unmapped K pt s s' (unbound (view s.mem pt) (pages newsz) n) (released true (view s.mem pt) (pages newsz) n))
    (hh : Heap K s' (F ∪ released true (view s.mem pt) (pages newsz) n)) :
    Space K s' pt newsz (F ∪ released true (view s.mem pt) (pages newsz) n) := by
  have hmono := Vm.pages_le hle
  have hb := h.pages_le
  have hnodes := hu.root.nodes
  have hview : ∀ q f fl, view s'.mem pt q = some (f, fl) → view s.mem pt q = some (f, fl) ∧
      ¬ (pages newsz ≤ q ∧ q < pages newsz + n) := fun q f fl hf => by
    rw [hu.view, unbound] at hf
    split at hf
    · cases hf
    · exact ⟨hf, ‹_›⟩
  refine ⟨⟨hh, h.table.skel.of_root hu.root, ?_⟩, fun q hq => ?_, fun q hq f fl hf => ?_,
    fun q hq r hr f fl fl' hf hf' => ?_⟩
  · rw [hnodes]
    rintro t ht (hF | ⟨-, k, hk, fl, hf⟩)
    · exact h.table.apart t ht hF
    · exact (h.data _ (by omega) t fl hf).2.2.1 ht
  · rw [hu.view, unbound]
    split
    · refine ⟨fun hs => ?_, fun hlt => by omega⟩
      cases hs
    · rw [h.leaves q hq]
      omega
  · obtain ⟨hf, hq'⟩ := hview q f fl hf
    obtain ⟨h1, h2, h3, h4⟩ := h.data q hq f fl hf
    refine ⟨h1, ?_, hnodes ▸ h3, h4⟩
    rintro (hF | ⟨-, k, hk, gl, hg⟩)
    · exact h2 hF
    · have := h.inj q hq (pages newsz + k) (by omega) f fl gl hf hg
      omega
  · exact h.inj q hq r hr f fl fl' (hview q f fl hf).1 (hview r f fl' hf').1

/-! ## growproc -/

/-- `uvmalloc` on a process's memory meets no page that is bound, and does not get to the top. -/
theorem Space.uvmalloc_spec {xperm : Nat} (h : Space K s pt sz F) (hx : xperm < 1024) (hle : sz ≤ newsz) :
    wp (uvmalloc K pt sz newsz xperm)
      (Allocated K pt (PTE_R ||| PTE_U ||| xperm) s F (pages sz) newsz) E s := by
  have hb := h.pages_le
  refine Vm.uvmalloc_spec hx h.table (PGROUNDUP_pages_eq h.sz_le) (by omega) hle (fun k _ _ hG => ?_)
    fun k s' hv _ hG => ?_
  · obtain ⟨G, hG, hF⟩ := hG
    have := h.bound hF
    omega
  · obtain ⟨G, hG, hF⟩ := hG
    have := h.bound hF
    have hs := (h.leaves (pages sz + k) (by omega)).mp (Option.isSome_iff_ne_none.mpr hv)
    omega

theorem Space.uvmdealloc_spec (h : Space K s pt sz F) (hlt : newsz < sz) : wp (uvmdealloc K pt sz newsz) (fun r s' =>
      r = newsz ∧ Unmapped K pt s s' (unbound (view s.mem pt) (pages newsz) (pages sz - pages newsz))
        (released true (view s.mem pt) (pages newsz) (pages sz - pages newsz)) ∧
      Space K s' pt newsz (F ∪ released true (view s.mem pt) (pages newsz) (pages sz - pages newsz))) E s := by
  have hmono := Vm.pages_le (Nat.le_of_lt hlt)
  have hb := h.pages_le
  have hsz := h.sz_le
  have hn : pages newsz + (pages sz - pages newsz) = pages sz := by omega
  obtain ⟨h1, h2, h3⟩ := h.mapped (Nat.le_of_eq hn)
  have ho : PGROUNDUP sz = 4096 * (pages newsz + (pages sz - pages newsz)) := by rw [hn, PGROUNDUP_pages_eq hsz]
  refine (Vm.uvmdealloc_spec h.table.skel ho (PGROUNDUP_pages_eq (by omega)) hlt (by omega) h1).imp fun r s' => ?_
  rintro ⟨hr, hu, hheap⟩
  exact ⟨hr, hu, h.shrink (Nat.le_of_lt hlt) hn hu (hheap F h.table.heap h.table.apart (fun _ => h2) h3)⟩

def Keeps (pt : Nat) (s s' : St) (p : Nat) : Prop :=
  view s'.mem pt p = view s.mem pt p ∧ ∀ f fl, view s.mem pt p = some (f, fl) → ∀ o < 4096,
    s'.mem (f + o) = s.mem (f + o)

def Grew (K : Image) (pt : Nat) (s : St) (sz : Nat) (n : Int) (r : Int × Nat) (s' : St) : Prop :=
  (r.1 = 0 ∧ (r.2 : Int) = sz + n ∧ (∃ F', Space K s' pt r.2 F') ∧
      (∀ p < pages (min sz r.2), Keeps pt s s' p) ∧
      ∀ p < 0xFFFFE, view s.mem pt p = none → ∀ f fl, view s'.mem pt p = some (f, fl) → ∀ o < 4096,
        s'.mem (f + o) = 0) ∨
    (r.1 = -1 ∧ r.2 = sz ∧ (∃ F', Space K s' pt sz F') ∧ ∀ p < 0xFFFFE, Keeps pt s s' p)

theorem keeps_of (hv : view s'.mem pt p = view s.mem pt p)
    {S : Set Nat} (hm : SameOff S s.mem s'.mem) (hS : ∀ f fl, view s.mem pt p = some (f, fl) → f ∉ S) :
    Keeps pt s s' p := by
  refine ⟨hv, fun f fl hf o ho => hm _ ?_⟩
  rw [page_add (view_aligned hf) ho]
  exact hS f fl hf

theorem Space.grown (h : Space K s pt sz F) (hg : Grown K pt s F s' F') (hv : view s'.mem pt = view s.mem pt) :
    Space K s' pt sz F' := by
  refine ⟨hg.table, ?_, fun q hq f fl hf => ?_, ?_⟩
  · rw [hv]
    exact h.leaves
  · rw [hv] at hf
    obtain ⟨h1, h2, h3, h4⟩ := h.data q hq f fl hf
    exact ⟨h1, fun hF => h2 (hg.free hF), fun hN => (hg.node hN).elim h2 h3, h4⟩
  · rw [hv]
    exact h.inj

theorem growproc_grows (h : Space K s pt sz F) {n : Int} (hn : 0 < n) (hn' : n < 2 ^ 31) :
    wp (growproc K pt sz n) (Grew K pt s sz n) E s := by
  have hsz := h.sz_le
  have hadd : (addSz sz n : Int) = sz + n := by
    unfold addSz
    omega
  have hnotin : ∀ p < 0xFFFFE, ∀ f fl, view s.mem pt p = some (f, fl) → f ∉ F ∪ nodes s.mem pt := fun p hp f fl hf hm =>
    hm.elim (h.data p hp f fl hf).2.1 (h.data p hp f fl hf).2.2.1
  unfold growproc
  refine wp_pos hn ?_
  rw [wp_bind]
  refine (h.uvmalloc_spec (by decide) (by omega : sz ≤ addSz sz n)).imp fun r s' => ?_
  rintro (⟨hr, F', hg, hv⟩ | ⟨hr, k, F', hx, hk⟩)
  · refine wp_pos hr ?_
    rw [wp_pure]
    exact Or.inr ⟨rfl, rfl, ⟨F', h.grown hg hv⟩, fun p hp => keeps_of (by rw [hv]) hg.off (hnotin p hp)⟩
  · refine wp_neg (by omega) ?_
    rw [wp_pure]
    have hsp := h.extend hx hk (by omega)
    refine Or.inl ⟨rfl, by rw [hr]; exact hadd, ⟨F', hr ▸ hsp⟩, fun p hp => ?_, fun p _ hnone f fl hf o ho => ?_⟩
    · have hmin : min sz r = sz := by omega
      rw [hmin] at hp
      have hb := h.pages_le
      exact keeps_of (hx.same p (by omega)) hx.off (hnotin p (by omega))
    · have hin : pages sz ≤ p ∧ p < pages sz + k := by
        by_contra hc
        rw [hx.same p hc, hnone] at hf
        cases hf
      exact hx.holds (p - pages sz) (by omega) f fl (by rw [Nat.add_sub_cancel' hin.1]; exact hf) o ho

theorem growproc_shrinks (h : Space K s pt sz F) {n : Int} (hn : n < 0) (hn' : 0 ≤ sz + n) :
    wp (growproc K pt sz n) (Grew K pt s sz n) E s := by
  have hsz := h.sz_le
  have hadd : (addSz sz n : Int) = sz + n := by
    unfold addSz
    omega
  have hb := h.pages_le
  have hmono := Vm.pages_le (by omega : addSz sz n ≤ sz)
  unfold growproc
  refine wp_neg (by omega) ?_
  refine wp_pos hn ?_
  rw [wp_bind]
  refine (h.uvmdealloc_spec (by omega : addSz sz n < sz)).imp fun r s' => ?_
  rintro ⟨hr, hu, hsp⟩
  rw [wp_pure, hr]
  refine Or.inl ⟨rfl, hadd, ⟨_, hsp⟩, fun p hp => ?_, fun p hp hnone f fl hf => ?_⟩
  · have hmin : min sz (addSz sz n) = addSz sz n := by omega
    dsimp only at hp
    rw [hmin] at hp
    refine keeps_of (by rw [hu.view, unbound, if_neg (by omega)]) hu.off fun f fl hf => ?_
    rintro (hN | ⟨-, k, hk, gl, hg⟩)
    · exact (h.data p (by omega) f fl hf).2.2.1 hN
    · have := h.inj p (by omega) _ (by omega) f fl gl hf hg
      omega
  · rw [hu.view, unbound] at hf
    split at hf
    · cases hf
    · rw [hnone] at hf
      cases hf

/-- `growproc` reaches `sz + n` or changes nothing, unless `sz + n` is negative. -/
theorem growproc_exact_iff (h : Space K s pt sz F) (n : Int) (hn : -2 ^ 31 ≤ n ∧ n < 2 ^ 31) :
    wp (growproc K pt sz n) (Grew K pt s sz n) (fun _ _ => False) s ↔ 0 ≤ sz + n := by
  have hsz := h.sz_le
  constructor
  · intro hg
    by_contra hneg
    have hadd : (addSz sz n : Int) = sz + n + 2 ^ 32 := by
      unfold addSz
      omega
    -- `sz + n` wraps to more than `sz`: `uvmdealloc` returns at once
    unfold growproc at hg
    rw [if_neg (by omega), if_pos (by omega), wp_bind] at hg
    unfold uvmdealloc at hg
    rw [if_pos (by omega), wp_pure, wp_pure] at hg
    rcases hg with ⟨-, h1, -⟩ | ⟨h1, -⟩
    · dsimp only at h1
      omega
    · cases h1
  · intro hpos
    rcases lt_trichotomy n 0 with h0 | h0 | h0
    · exact growproc_shrinks h h0 hpos
    · subst h0
      unfold growproc
      rw [if_neg (by omega), if_neg (by omega), wp_pure]
      refine Or.inl ⟨rfl, by omega, ⟨F, h⟩, fun p _ => ⟨rfl, fun _ _ _ _ _ => rfl⟩, fun p _ hnone f fl hf => ?_⟩
      rw [hnone] at hf
      cases hf
    · exact growproc_grows h h0 hn.2

/-- Two pages of memory, with a page for the table and five free ones. -/
def twoPages : St :=
  match uvmalloc image 0x80100000 0 8192 PTE_W (freePages 8) with
  | .ok _ s => s
  | .error _ s => s

theorem twoPages_space : ∃ F ⊆ freed 8, Space image twoPages 0x80100000 8192 F ∧
    nodes twoPages.mem 0x80100000 ⊆ freed 8 ∪ {0x80100000} ∧
    (∀ p f fl, view twoPages.mem 0x80100000 p = some (f, fl) → f ∈ freed 8) ∧
    SameOff (freed 8 ∪ {0x80100000}) (freePages 8).mem twoPages.mem := by
  have hrun : (match uvmalloc image 0x80100000 0 8192 PTE_W (freePages 8) with
      | .ok r _ => r == 8192
      | .error _ _ => false) = true := by decide +kernel
  have hz := freePages_zero 8 (f := 0x80100000) (by decide)
  have h0 : Space image (freePages 8) 0x80100000 0 (freed 8) :=
    Space.empty (freePages_wf (by decide)).table fun p _ => by rw [view_empty hz]
  have h : wp (uvmalloc image 0x80100000 0 8192 PTE_W) _ (fun _ _ => False) (freePages 8) :=
    h0.uvmalloc_spec (by decide) (by decide)
  unfold twoPages
  split at hrun
  · rename_i r s heq
    rcases wp_ok h heq with ⟨rfl, -⟩ | ⟨-, k, F, hx, hk⟩
    · cases hrun
    · have hsum := hx.sum
      have hoff := hx.off
      rw [nodes_empty hz] at hsum hoff
      have hsub : F ⊆ freed 8 := hx.free
      refine ⟨F, hsub, h0.extend hx hk (by decide), fun t ht => hsum ▸ Or.inl (Or.inr ht), fun p f fl hf => ?_, hoff⟩
      by_cases hp : p < k
      · exact (hx.fresh f ⟨rfl, p, hp, fl, by rw [pages_zero, Nat.zero_add]; exact hf⟩).1
      · rw [hx.same p (by rw [pages_zero]; omega), view_empty hz] at hf
        cases hf
  · cases hrun

theorem growproc_exact_iff_unmaps :
    wp (growproc image 0x80100000 8192 (-4096)) (Grew image 0x80100000 twoPages 8192 (-4096))
    (fun _ _ => False) twoPages := by
  obtain ⟨F, -, h, -⟩ := twoPages_space
  exact (growproc_exact_iff h (-4096) (by decide)).mpr (by decide)

/-- `sbrk(-12288)` of a process with 8192 bytes returns as if it had done it. -/
theorem a_shrink_past_zero_reports_success : ¬ ∀ (K : Image) (s : St) (pt sz : Nat) (F : Set Nat),
    Space K s pt sz F → ∀ n : Int, -2 ^ 31 ≤ n ∧ n < 2 ^ 31 → wp (growproc K pt sz n) (Grew K pt s sz n)
    (fun _ _ => False) s := by
  intro hall
  obtain ⟨F, -, h, -⟩ := twoPages_space
  have hg := hall image twoPages 0x80100000 8192 F h (-12288) (by decide)
  unfold growproc at hg
  rw [if_neg (by decide), if_pos (by decide), wp_bind] at hg
  unfold uvmdealloc at hg
  rw [if_pos (by decide), wp_pure, wp_pure] at hg
  rcases hg with ⟨-, h1, -⟩ | ⟨h1, -⟩
  · exact absurd h1 (by decide)
  · exact absurd h1 (by decide)

end Xv6.Vm
