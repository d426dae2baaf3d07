/-
  Xv6.Vm.Refine — a well-formed table is a finite map, and the functions of kernel/vm.c are
  operations on it.

  Proved (`table_refines_map`), for every well-formed table and whatever `kalloc` answers:
  - `mappages` binds exactly the pages of its range, to consecutive frames and with `perm`,
    V, A and, with W, D; a failed call for one page changes nothing;
  - `uvmunmap` takes exactly its pages away, up to the topmost one;
  - `walkaddr` answers the frame of a binding with V and U;
  - `uvmalloc` that returns 0 has changed nothing, if the topmost page is bound or out of
    its range. The trampoline is bound there in every user table. Where it is not,
    `a += PGSIZE` gets to 0, and what is to be undone is no longer found
    (`a_wrapped_uvmalloc_is_not_undone`).
-/
import Xv6.Vm.Grow

namespace Xv6.Vm

variable {K : Image} {s s' s0 : St} {F F' F0 : Set Nat} {pt va size pa perm p q n f fl : Nat} {E : Panic → St → Prop}

/-- The table's pages are different ones, apart from the mapped data and the free pages; and there is no third level. -/
structure WellFormed (K : Image) (s : St) (pt : Nat) (F : Set Nat) : Prop where
  table : Table K s pt F
  data : ∀ p f fl, view s.mem pt p = some (f, fl) → f ∉ nodes s.mem pt ∧ f ∉ F
  leaf : ∀ p f fl, view s.mem pt p = some (f, fl) → fl ≠ PTE_V

def flagsOf (perm : Nat) : Nat := perm ||| PTE_V ||| PTE_A ||| if perm &&& PTE_W ≠ 0 then PTE_D else 0

theorem permAD_or_V (perm : Nat) : permAD perm ||| PTE_V = flagsOf perm := by
  have hW : (perm ||| PTE_A) &&& PTE_W = perm &&& PTE_W := by
    rw [Nat.and_or_distrib_right, show PTE_A &&& PTE_W = 0 by decide, Nat.or_zero]
  have hV : perm ||| PTE_A ||| PTE_V = perm ||| PTE_V ||| PTE_A := by
    rw [Nat.or_assoc, Nat.or_comm PTE_A, Nat.or_assoc]
  unfold permAD flagsOf
  dsimp only
  rw [hW]
  by_cases h : perm &&& PTE_W ≠ 0
  · rw [if_pos h, if_pos h, Nat.or_assoc, Nat.or_comm PTE_D, ← Nat.or_assoc, hV]
  · rw [if_neg h, if_neg h, hV, Nat.or_zero]

theorem WellFormed.grown (h : WellFormed K s pt F) (hg : Grown K pt s F s' F') (hv : view s'.mem pt = view s.mem pt) :
    WellFormed K s' pt F' := by
  refine ⟨hg.table, fun p f fl hf => ?_, fun p f fl hf => h.leaf p f fl (hv ▸ hf)⟩
  obtain ⟨h1, h2⟩ := h.data p f fl (hv ▸ hf)
  exact ⟨fun hN => (hg.node hN).elim h2 h1, fun hF => h2 (hg.free hF)⟩

/-- Frames that are neither free nor in the table are bound. -/
theorem WellFormed.bound (h : WellFormed K s pt F) (hg : Grown K pt s F s' F')
    (hv : view s'.mem pt = bound (view s.mem pt) p n pa perm)
    (hpa : ∀ k < n, (pa + 4096 * k) % 2 ^ 32 ∉ nodes s.mem pt ∧ (pa + 4096 * k) % 2 ^ 32 ∉ F) :
      WellFormed K s' pt F' := by
  refine ⟨hg.table, fun q f fl hf => ?_, fun q f fl hf => ?_⟩
  · have hout : f ∉ nodes s.mem pt ∧ f ∉ F := by
      rw [hv, Vm.bound] at hf
      split at hf
      · cases hf
        exact hpa (q - p) (by omega)
      · exact h.data q f fl hf
    exact ⟨fun hN => (hg.node hN).elim hout.2 hout.1, fun hF => hout.2 (hg.free hF)⟩
  · rw [hv, Vm.bound] at hf
    split at hf
    · cases hf
      exact permAD_ne_V perm
    · exact h.leaf q f fl hf

theorem WellFormed.extended {perm : Nat → Nat} {bytes : Nat → Nat → UInt8} (h : WellFormed K s0 pt F0)
    (hx : Extended K pt perm bytes s0 F0 p n s F) : WellFormed K s pt F := by
  have hold : ∀ {q}, ¬ (p ≤ q ∧ q < p + n) → view s.mem pt q = view s0.mem pt q := fun {q} hq => hx.same q hq
  refine ⟨hx.table, fun q f fl hf => ?_, fun q f fl hf => ?_⟩
  · by_cases hq : p ≤ q ∧ q < p + n
    · rw [show q = p + (q - p) by omega] at hf
      obtain ⟨-, h2, h3⟩ := hx.fresh f ⟨rfl, q - p, by omega, fl, hf⟩
      exact ⟨h3, h2⟩
    · rw [hold hq] at hf
      obtain ⟨h1, h2⟩ := h.data q f fl hf
      have hin : f ∉ F ∪ nodes s.mem pt ∪ released true (view s.mem pt) p n := by
        rw [hx.sum]
        exact fun hm => hm.elim h2 h1
      exact ⟨fun hN => hin (Or.inl (Or.inr hN)), fun hF => hin (Or.inl (Or.inl hF))⟩
  · by_cases hq : p ≤ q ∧ q < p + n
    · obtain ⟨g, hg⟩ := hx.new (q - p) (by omega)
      rw [show q = p + (q - p) by omega, hg] at hf
      cases hf
      exact permAD_ne_V _
    · rw [hold hq] at hf
      exact h.leaf q f fl hf

theorem userFrame_eq_iff (h0 : f ≠ 0) : userFrame (view s.mem pt p) = f ↔
    ∃ fl, view s.mem pt p = some (f, fl) ∧ fl &&& PTE_V ≠ 0 ∧ fl &&& PTE_U ≠ 0 := by
  cases hv : view s.mem pt p with
  | none =>
    refine ⟨fun he => absurd he.symm h0, ?_⟩
    rintro ⟨fl, hf, -⟩
    cases hf
  | some b =>
    obtain ⟨g, fl⟩ := b
    obtain ⟨c, -, hl⟩ := view_some hv
    have hV : fl &&& PTE_V ≠ 0 := by
      rw [← (leaf_some hl).2.2, flags_and (by decide)]
      exact (leaf_some hl).1
    unfold userFrame
    constructor
    · intro he
      dsimp only at he
      split at he
      · exact absurd he.symm h0
      · exact ⟨fl, by rw [he], hV, ‹_›⟩
    · rintro ⟨fl', hf, -, hU⟩
      cases hf
      exact if_neg hU

/-- A size that `uvmalloc` need not look at: the loop is not entered. -/
theorem uvmalloc_small (hlt : n < q) {Q : Nat → St → Prop} (hQ : Q q s) : wp (uvmalloc K pt q n perm) Q E s := by
  unfold uvmalloc
  exact wp_ite (fun _ => hQ) fun h => absurd hlt h

theorem uvmalloc_returns_zero (h : WellFormed K s pt F) (oldsz newsz xperm : Nat) (hnew : newsz < 2 ^ 32)
    (hx : xperm < 1024) (htop : newsz ≤ 0xFFFFF000 ∨ view s.mem pt (2 ^ 20 - 1) ≠ none) :
    wp (uvmalloc K pt oldsz newsz xperm)
      (fun r s' => (∃ F', WellFormed K s' pt F') ∧ (r = 0 → view s'.mem pt = view s.mem pt))
      (fun e _ => e = .remap) s := by
  by_cases hlt : newsz < oldsz
  · exact uvmalloc_small hlt ⟨⟨F, h⟩, fun _ => rfl⟩
  · obtain ⟨p, hp, hold⟩ := PGROUNDUP_pages oldsz
    have hwrap : ∀ k, view s.mem pt (p + k) = none → 4096 * (p + k) < newsz →
        (∃ G : Finset Nat, G.card = k ∧ ∀ f ∈ G, f ∈ F) → p + k + 1 < 2 ^ 20 := fun k hk hlt' _ => by
      -- the topmost page is bound, or lies behind `newsz`
      rcases htop with htop | htop
      · omega
      · by_contra hge
        rw [show 2 ^ 20 - 1 = p + k by omega, hk] at htop
        exact htop rfl
    refine (uvmalloc_spec hx h.table hold hp (by omega) hwrap fun _ _ _ _ _ => rfl).imp fun r s' => ?_
    rintro (⟨hr, F', hg, hv⟩ | ⟨hr, n, F', hx', hn⟩)
    · exact ⟨⟨F', h.grown hg hv⟩, fun _ => hv⟩
    · refine ⟨⟨F', h.extended hx'⟩, fun h0 => ?_⟩
      -- both sizes are 0: the loop has not run
      have hz : newsz = 0 := hr.symm.trans h0
      have ho' : oldsz = 0 := by omega
      rw [ho', PGROUNDUP_eq (by decide)] at hold
      have hn0 : n = 0 := by omega
      subst hn0
      exact funext fun q => hx'.same q (by omega)

/-- A page table is a map from pages to frames and flags: `mappages` binds a range, `uvmunmap` unbinds one, `walkaddr`
    looks one page up, and an `uvmalloc` that fails leaves the map as it was. -/
theorem table_refines_map (h : WellFormed K s pt F) :
    (∀ va size pa perm, 0 < size → va + size ≤ 2 ^ 32 → pa < 2 ^ 32 → pa % 4096 = 0 → perm < 1024 →
      (∀ q, va / 4096 ≤ q → q ≤ (va + size - 1) / 4096 → view s.mem pt q = none) →
      wp (mappages pt va size pa perm) (fun r s' => (r = 0 ∨ r = -1) ∧
        (r = 0 → ∀ q, view s'.mem pt q =
          if va / 4096 ≤ q ∧ q ≤ (va + size - 1) / 4096 then
            some ((pa + 4096 * (q - va / 4096)) % 2 ^ 32, flagsOf perm)
          else view s.mem pt q) ∧
        (r = -1 → va / 4096 = (va + size - 1) / 4096 → view s'.mem pt = view s.mem pt) ∧
        ((∀ k ≤ (va + size - 1) / 4096 - va / 4096,
            (pa + 4096 * k) % 2 ^ 32 ∉ nodes s.mem pt ∧ (pa + 4096 * k) % 2 ^ 32 ∉ F) →
          ∃ F', WellFormed K s' pt F')) (fun _ _ => False) s) ∧
    (∀ va npages doFree, va % 4096 = 0 → va / 4096 + npages ≤ 2 ^ 20 →
      (∀ k < npages, ∃ f fl, view s.mem pt (va / 4096 + k) = some (f, fl) ∧ (doFree = true → Frame K f)) →
      wp (uvmunmap K pt va npages doFree) (fun _ s' => Skel s'.mem pt ∧ nodes s'.mem pt = nodes s.mem pt ∧
        ∀ q, view s'.mem pt q = if va / 4096 ≤ q ∧ q < va / 4096 + npages then none else view s.mem pt q)
        (fun _ _ => False) s) ∧
    (∀ va < 2 ^ 32, wp (walkaddr pt va) (fun r s' => s' = s ∧ ∀ f, f ≠ 0 →
        (r = f ↔ ∃ fl, view s.mem pt (va / 4096) = some (f, fl) ∧ fl &&& PTE_V ≠ 0 ∧ fl &&& PTE_U ≠ 0))
        (fun _ _ => False) s) ∧
    ∀ oldsz newsz xperm, oldsz < 2 ^ 32 → newsz < 2 ^ 32 → xperm < 1024 →
      newsz ≤ 0xFFFFF000 ∨ view s.mem pt (2 ^ 20 - 1) ≠ none →
      wp (uvmalloc K pt oldsz newsz xperm)
        (fun r s' => (∃ F', WellFormed K s' pt F') ∧ (r = 0 → view s'.mem pt = view s.mem pt))
        (fun e _ => e = .remap) s := by
  refine ⟨fun va size pa perm hsz hva hpa hal hp hfree => ?_, fun va npages doFree hal hn hm => ?_, fun va hva => ?_,
    fun oldsz newsz xperm _ hnew hx htop => uvmalloc_returns_zero h oldsz newsz xperm hnew hx htop⟩
  · have hle : va / 4096 ≤ (va + size - 1) / 4096 := Nat.div_le_div_right (by omega)
    refine (mappages_spec h.table hsz hva hpa hal hp hfree).imp fun r s' => ?_
    rintro ⟨F', j, hg, hv, hr⟩
    refine ⟨hr.imp And.left And.left, fun h0 q => ?_, fun h1 he => ?_, fun hout => ⟨F', h.bound hg hv fun k hk => ?_⟩⟩
    · have hj : j = (va + size - 1) / 4096 - va / 4096 + 1 := by
        rcases hr with ⟨-, hj⟩ | ⟨hr, -⟩
        · exact hj
        · omega
      rw [hv, bound, permAD_or_V]
      by_cases hq : va / 4096 ≤ q ∧ q ≤ (va + size - 1) / 4096
      · rw [if_pos hq, if_pos (by omega)]
      · rw [if_neg hq, if_neg (by omega)]
    · have hj : j = 0 := by
        rcases hr with ⟨hr, -⟩ | ⟨-, hj⟩
        · omega
        · omega
      rw [hv, hj, bound_zero]
    · refine hout k ?_
      rcases hr with ⟨-, hj⟩ | ⟨-, hj⟩ <;> omega
  · have hmap : Mapped K s pt (va / 4096) npages doFree := by
      refine ⟨fun k hk => ?_, fun hd k hk f fl hf => ?_⟩
      · obtain ⟨f, fl, hf, -⟩ := hm k hk
        exact ⟨f, fl, hf, h.leaf _ f fl hf⟩
      · obtain ⟨g, gl, hg, hgf⟩ := hm k hk
        rw [hf] at hg
        cases hg
        exact ⟨hgf hd, (h.data _ f fl hf).1⟩
    refine (uvmunmap_spec h.table.skel (by omega) hn hmap).imp fun _ s' => ?_
    rintro ⟨hu, -⟩
    exact ⟨h.table.skel.of_root hu.root, hu.root.nodes, fun q => by rw [hu.view, unbound]⟩
  · refine walkaddr_spec h.table.skel hva ⟨rfl, fun f h0 => ?_⟩
    exact userFrame_eq_iff h0

/-! ## A table and a free list -/

def image : Image := ⟨0x80010000, 0x80001000, by decide, by decide, by decide, by decide⟩

def freePages : Nat → St
  | 0 => ⟨fun _ => 0, fun _ => 0, 0, fun _ => false⟩
  | n + 1 =>
    { freePages n with
      mem := store32 (freePages n).mem (0x80200000 + 4096 * n) (freePages n).freelist
      freelist := 0x80200000 + 4096 * n }

def freed (n : Nat) : Set Nat := {f | ∃ k < n, f = 0x80200000 + 4096 * k}

theorem not_freed {n f : Nat} (h : f < 0x80200000) : f ∉ freed n := by
  rintro ⟨k, -, rfl⟩
  omega

/-- Below them memory is zero. -/
theorem freePages_zero (n : Nat) {f : Nat} (hf : f + 4096 ≤ 0x80200000) :
    ∀ k < 4096, (freePages n).mem (f + k) = 0 := by
  induction n with
  | zero => exact fun _ _ => rfl
  | succ n ih =>
    intro k hk
    show store32 (freePages n).mem (0x80200000 + 4096 * n) (freePages n).freelist (f + k) = 0
    rw [store32, blit_out (by omega), ih k hk]

theorem freePages_lt (n : Nat) (hn : n ≤ 256) : (freePages n).freelist < 2 ^ 32 := by
  cases n with
  | zero => decide
  | succ n =>
    show 0x80200000 + 4096 * n < 2 ^ 32
    omega

theorem freePages_heap {n : Nat} (hn : n ≤ 256) : Heap image (freePages n) (freed n) := by
  induction n with
  | zero =>
    refine ⟨⟨[], rfl, List.nodup_nil, fun f => ⟨fun hf => absurd hf List.not_mem_nil, ?_⟩⟩, ?_⟩
    · rintro ⟨k, hk, -⟩
      omega
    · rintro f ⟨k, hk, -⟩
      omega
  | succ n ih =>
    have hf : Frame image (0x80200000 + 4096 * n) := by
      have h1 : PHYSTOP = 0x81000000 := rfl
      have h2 : image.kend = 0x80010000 := rfl
      unfold Frame
      omega
    have hnew : 0x80200000 + 4096 * n ∉ freed n := by
      rintro ⟨k, hk, he⟩
      omega
    have hm : SameOff {0x80200000 + 4096 * n} (freePages n).mem (freePages (n + 1)).mem :=
      SameOff.store32 (by omega) (by rw [page_self hf.1]; exact Set.mem_singleton _)
    have h := (ih (by omega)).push hf hnew hm (load32_store32_same (freePages_lt n (by omega))) rfl
    convert h using 1
    ext f
    constructor
    · rintro ⟨k, hk, rfl⟩
      rcases Nat.lt_succ_iff_lt_or_eq.mp hk with hk | rfl
      · exact Or.inr ⟨k, hk, rfl⟩
      · exact Or.inl rfl
    · rintro (rfl | ⟨k, hk, rfl⟩)
      · exact ⟨n, by omega, rfl⟩
      · exact ⟨k, by omega, rfl⟩

/-- An empty table below the free pages. -/
theorem freePages_wf {n : Nat} (hn : n ≤ 256) : WellFormed image (freePages n) 0x80100000 (freed n) := by
  have hz := freePages_zero n (f := 0x80100000) (by decide)
  have hv : ∀ p, view (freePages n).mem 0x80100000 p = none := fun p => by rw [view_empty hz]
  refine ⟨⟨freePages_heap hn, Skel.empty (by decide) hz, fun t ht => ?_⟩, fun p f fl hf => ?_, fun p f fl hf => ?_⟩
  · rw [nodes_empty hz, Set.mem_singleton_iff] at ht
    rw [ht]
    exact not_freed (by decide)
  · rw [hv] at hf
    cases hf
  · rw [hv] at hf
    cases hf

theorem table_refines_map_top : wp (mappages 0x80100000 0xFFFFF000 4096 0x80300000 PTE_R)
    (fun r s' => r = 0 → view s'.mem 0x80100000 0xFFFFF = some (0x80300000, PTE_R ||| PTE_V ||| PTE_A))
    (fun _ _ => False) (freePages 3) := by
  have h := (table_refines_map (freePages_wf (n := 3) (by decide))).1 0xFFFFF000 4096 0x80300000 PTE_R (by decide)
    (by decide) (by decide) (by decide) (by decide) fun q _ _ => by rw [view_empty (freePages_zero 3 (by decide))]
  refine h.imp fun r s' hs h0 => ?_
  rw [hs.2.1 h0, if_pos (by decide)]
  rfl

/-- Two free pages are used for the topmost page, then `a` is 0 and there is no page for the table:
    `uvmdealloc(pagetable, 0,
    0xFFFFF000)` finds nothing to do. -/
theorem a_wrapped_uvmalloc_is_not_undone : ¬ ∀ (K : Image) (s : St) (pt : Nat) (F : Set Nat), WellFormed K s pt F →
    ∀ oldsz newsz xperm, oldsz < 2 ^ 32 → newsz < 2 ^ 32 → xperm < 1024 →
      wp (uvmalloc K pt oldsz newsz xperm) (fun r s' => r = 0 → view s'.mem pt = view s.mem pt)
      (fun _ _ => True) s := by
  intro hall
  have hrun : (match uvmalloc image 0x80100000 0xFFFFF000 0xFFFFFFFF PTE_W (freePages 3) with
      | .ok r s' => r == 0 && (view s'.mem 0x80100000 0xFFFFF).isSome
      | .error _ _ => false) = true := by decide +kernel
  have h := hall image (freePages 3) 0x80100000 (freed 3) (freePages_wf (by decide)) 0xFFFFF000 0xFFFFFFFF PTE_W
    (by decide) (by decide) (by decide)
  unfold wp at h
  split at hrun
  · rename_i r s' heq
    rw [heq] at h
    obtain ⟨hr, hs⟩ := Bool.and_eq_true_iff.mp hrun
    rw [h (eq_of_beq hr), view_empty (freePages_zero 3 (by decide))] at hs
    cases hs
  · cases hrun

end Xv6.Vm
