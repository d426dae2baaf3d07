/-
  Xv6.Vm.Map — `walk`, `walkaddr`, `mappages` and `uvmunmap` on the map a table is.

  `Grown`: pages went from the free list to the table, and nothing but these and the table's
  pages was written. `mappages` grows the table and binds pages one after another
  (`mappages_spec`), `uvmunmap` takes bindings away and, if asked to, gives the frames to
  the free list (`uvmunmap_spec`).
-/
import Xv6.Vm.Sv32

namespace Xv6.Vm

variable {K : Image} {s s' s'' : St} {F F' F'' S : Set Nat} {m m' : Nat → UInt8} {E : Panic → St → Prop}
  {pt va pa perm size w c i j p q n t f fl fuel last a npages : Nat} {Q : Nat → St → Prop} {doFree : Bool}

/-! ## What a table owns -/

structure Table (K : Image) (s : St) (pt : Nat) (F : Set Nat) : Prop where
  heap : Heap K s F
  skel : Skel s.mem pt
  apart : ∀ t ∈ nodes s.mem pt, t ∉ F

structure Grown (K : Image) (pt : Nat) (s : St) (F : Set Nat) (s' : St) (F' : Set Nat) : Prop where
  table : Table K s' pt F'
  grow : nodes s.mem pt ⊆ nodes s'.mem pt
  sum : F' ∪ nodes s'.mem pt = F ∪ nodes s.mem pt
  off : SameOff (F ∪ nodes s.mem pt) s.mem s'.mem
  kern : s'.kern = s.kern

theorem Table.refl (h : Table K s pt F) : Grown K pt s F s F :=
  ⟨h, subset_rfl, rfl, SameOff.refl _ _, rfl⟩

theorem Grown.trans (h : Grown K pt s F s' F') (h' : Grown K pt s' F' s'' F'') : Grown K pt s F s'' F'' :=
  ⟨h'.table, h.grow.trans h'.grow, h'.sum.trans h.sum, h.off.trans (h.sum ▸ h'.off), h'.kern.trans h.kern⟩

theorem Grown.free (h : Grown K pt s F s' F') : F' ⊆ F := by
  intro x hx
  have hm : x ∈ F ∪ nodes s.mem pt := h.sum ▸ Or.inl hx
  rcases hm with hF | hn
  · exact hF
  · exact absurd hx (h.table.apart x (h.grow hn))

theorem Grown.node (h : Grown K pt s F s' F') (ht : t ∈ nodes s'.mem pt) : t ∈ F ∨ t ∈ nodes s.mem pt := by
  have hm : t ∈ F ∪ nodes s.mem pt := h.sum ▸ Or.inr ht
  exact hm

/-- The state changes, but neither memory nor the free list. -/
theorem Table.still (h : Table K s pt F) (hm : s'.mem = s.mem) (hh : Heap K s' F) (hk : s'.kern = s.kern) :
    Grown K pt s F s' F := by
  refine ⟨⟨hh, ?_, ?_⟩, ?_, ?_, ?_, hk⟩
  · rw [hm]
    exact h.skel
  · rw [hm]
    exact h.apart
  · rw [hm]
  · rw [hm]
  · rw [hm]
    exact SameOff.refl _ _

/-- A word written in a second-level page. -/
theorem Table.store (h : Table K s pt F) (hc : child s.mem pt i = some c) (hj : j < 1024) (hw : w < 2 ^ 32) :
    Grown K pt s F { s with mem := store32 s.mem (c + 4 * j) w } F ∧
      view (store32 s.mem (c + 4 * j) w) pt = upd (view s.mem pt) (1024 * i + j) (leaf w) := by
  obtain ⟨h1, h2⟩ := view_store h.skel hc hj hw
  have hn := h1.nodes
  have ha := child_aligned hc
  have hoff : SameOff (nodes s.mem pt) s.mem (store32 s.mem (c + 4 * j) w) :=
    SameOff.store32 (by omega) (by rw [page_add ha (by omega)]; exact child_mem hc)
  refine ⟨⟨⟨h.heap.frame hoff (fun f hf hn => h.apart f hn hf) rfl, h.skel.of_root h1, ?_⟩, ?_, ?_, ?_, rfl⟩, h2⟩
  · intro t ht
    exact h.apart t (hn ▸ ht)
  · exact hn.ge
  · show F ∪ nodes (store32 s.mem (c + 4 * j) w) pt = _
    rw [hn]
  · exact hoff.mono Set.subset_union_right

/-! ## walk -/

theorem child_some_of_load (hva : va < 2 ^ 32) (h : load32 m (pt + 4 * PX 1 va) &&& PTE_V ≠ 0) :
    child m pt (va / 2 ^ 22) = some (PTE2PA (load32 m (pt + 4 * PX 1 va))) := by
  rw [PX_one hva] at h ⊢
  exact if_pos ⟨by omega, h⟩

theorem child_none_of_load (hva : va < 2 ^ 32) (h : ¬ load32 m (pt + 4 * PX 1 va) &&& PTE_V ≠ 0) :
    child m pt (va / 2 ^ 22) = none := by
  rw [PX_one hva] at h
  exact if_neg fun hc => h hc.2

/-- Where the second-level page is there. -/
theorem walk_some {alloc : Bool} (hva : va < 2 ^ 32) (hc : child s.mem pt (va / 2 ^ 22) = some c)
    (hQ : Q (c + 4 * (va / 2 ^ 12 % 1024)) s) : wp (walk pt va alloc) Q E s := by
  unfold walk
  have hmax : ¬ va > MAXVA := by
    show ¬ va > 4294967295
    omega
  refine wp_neg hmax ?_
  rw [wp_bind, wp_load]
  refine wp_ite (fun h => ?_) fun h => ?_
  · rw [child_some_of_load hva h] at hc
    rw [wp_pure, PX_zero, Option.some.inj hc]
    exact hQ
  · rw [child_none_of_load hva h] at hc
    cases hc

theorem walk_none (hva : va < 2 ^ 32) (hc : child s.mem pt (va / 2 ^ 22) = none)
    (hQ : Q 0 s) : wp (walk pt va false) Q E s := by
  unfold walk
  have hmax : ¬ va > MAXVA := by
    show ¬ va > 4294967295
    omega
  refine wp_neg hmax ?_
  rw [wp_bind, wp_load]
  refine wp_ite (fun h => ?_) fun h => ?_
  · rw [child_some_of_load hva h] at hc
    cases hc
  · exact hQ

/-- With `alloc`: no page can be had, or the second-level page is there now. -/
theorem walk_alloc (h : Table K s pt F) (hva : va < 2 ^ 32)
    (hnone : ∀ s', s'.mem = s.mem → Grown K pt s F s' F → Q 0 s')
    (hsome : ∀ s' F' c, Grown K pt s F s' F' → view s'.mem pt = view s.mem pt → c ≠ 0 →
      child s'.mem pt (va / 2 ^ 22) = some c → Q (c + 4 * (va / 2 ^ 12 % 1024)) s') : wp (walk pt va true) Q E s := by
  cases hc : child s.mem pt (va / 2 ^ 22) with
  | some c => exact walk_some hva hc (hsome s F c h.refl rfl (h.skel.kid hc).1 hc)
  | none =>
    unfold walk
    have hmax : ¬ va > MAXVA := by
      show ¬ va > 4294967295
      omega
    refine wp_neg hmax ?_
    rw [wp_bind, wp_load]
    refine wp_ite (fun hl => ?_) fun _ => ?_
    · rw [child_some_of_load hva hl] at hc
      cases hc
    refine wp_neg (by decide) ?_
    rw [wp_bind]
    refine kalloc_spec h.heap (fun s' hm hk hh => ?_) fun r s1 hr hh hoff hk => ?_
    · exact hnone s' hm (h.still hm hh hk)
    have hfr := h.heap.frames r hr
    refine wp_neg hfr.ne_zero ?_
    simp only [wp_bind, wp_memset, wp_store, wp_pure]
    have hn : r ∉ nodes s.mem pt := fun hn => h.apart r hn hr
    have hz : ∀ k < 4096, blit s1.mem r PGSIZE (fun _ => 0) (r + k) = 0 := fun k hk => blit_in hk
    have hm1 : SameOff {r} s.mem (blit s1.mem r PGSIZE fun _ => 0) :=
      hoff.trans (SameOff.blitPage hfr.1 (Set.mem_singleton r))
    have hl := link h.skel hc (by omega) hfr.1 hfr.ne_zero hfr.lt hn hm1 hz
    rw [PX_one hva, PX_zero]
    refine hsome _ (F \ {r}) r ⟨⟨?_, hl.skel, ?_⟩, ?_, ?_, ?_, hk⟩ hl.view hfr.ne_zero ?_
    · refine Heap.frame (S := {pt, r}) hh ?_ (fun f hf => ?_) rfl
      · have hfill : SameOff {pt, r} s1.mem (blit s1.mem r PGSIZE fun _ => 0) := SameOff.blitPage hfr.1 (Or.inr rfl)
        have hpt := h.skel.root
        exact hfill.trans (SameOff.store32 (by omega) (by rw [page_add hpt (by omega)]; exact Or.inl rfl))
      · rintro (he | he)
        · exact h.apart pt (root_mem _ _) (he ▸ hf.1)
        · exact hf.2 he
    · intro t ht hF
      rcases (hl.nodes ▸ ht : t ∈ insert r (nodes s.mem pt)) with he | ht
      · exact hF.2 he
      · exact h.apart t ht hF.1
    · rw [hl.nodes]
      exact Set.subset_insert _ _
    · rw [hl.nodes]
      ext x
      simp only [Set.mem_union, Set.mem_sdiff, Set.mem_singleton_iff, Set.mem_insert_iff]
      by_cases hx : x = r
      · simp only [hx, not_true_eq_false, and_false, true_or, or_true, hr]
      · simp only [hx, not_false_eq_true, and_true, false_or]
    · refine hl.off.mono ?_
      rintro x (he | he)
      · exact Or.inr (he ▸ root_mem _ _)
      · exact Or.inl (he ▸ hr)
    · rw [hl.child, upd_same]

/-! ## walkaddr -/

def userFrame : Option (Nat × Nat) → Nat
  | some (f, fl) => if fl &&& PTE_U = 0 then 0 else f
  | none => 0

theorem userFrame_leaf (h : w &&& PTE_V ≠ 0) : userFrame (leaf w) = if w &&& PTE_U = 0 then 0 else PTE2PA w := by
  unfold leaf
  rw [if_pos h]
  show (if PTE_FLAGS w &&& PTE_U = 0 then 0 else PTE2PA w) = _
  rw [flags_and (by decide)]

theorem div_div_pages (va : Nat) : va / 2 ^ 22 = va / 2 ^ 12 / 1024 := by omega

theorem walkaddr_spec (h : Skel s.mem pt) (hva : va < 2 ^ 32)
    (hQ : Q (userFrame (view s.mem pt (va / 2 ^ 12))) s) : wp (walkaddr pt va) Q E s := by
  unfold walkaddr
  have hmax : ¬ va > MAXVA := by
    show ¬ va > 4294967295
    omega
  refine wp_neg hmax ?_
  rw [wp_bind]
  cases hc : child s.mem pt (va / 2 ^ 22) with
  | none =>
    refine walk_none hva hc ?_
    refine wp_pos rfl ?_
    rw [view_none (by rw [← div_div_pages]; exact hc)] at hQ
    exact hQ
  | some c =>
    have h0 := (h.kid hc).1
    refine walk_some hva hc ?_
    refine wp_neg (by omega) ?_
    rw [view_child (by rw [← div_div_pages]; exact hc)] at hQ
    rw [wp_bind, wp_load]
    refine wp_ite (fun hv => ?_) fun hv => ?_
    · rw [leaf, if_neg (not_not.mpr hv)] at hQ
      exact hQ
    · rw [userFrame_leaf hv] at hQ
      refine wp_ite (fun hu => ?_) fun hu => ?_
      · rw [if_pos hu] at hQ
        exact hQ
      · rw [if_neg hu] at hQ
        exact hQ

/-! ## mappages -/

/-- `v` with the `n` pages from `p` on bound to consecutive frames. -/
def bound (v : Nat → Option (Nat × Nat)) (p n pa perm : Nat) : Nat → Option (Nat × Nat) := fun q =>
  if p ≤ q ∧ q < p + n then some ((pa + 4096 * (q - p)) % 2 ^ 32, permAD perm ||| PTE_V) else v q

theorem bound_zero (v : Nat → Option (Nat × Nat)) : bound v p 0 pa perm = v := funext fun _ => if_neg (by omega)

/-- One page, then the rest from the next one on. -/
theorem bound_succ (v : Nat → Option (Nat × Nat)) (hpa : pa < 2 ^ 32) :
    bound (upd v p (some (pa, permAD perm ||| PTE_V))) (p + 1) n ((pa + 4096) % 2 ^ 32) (permAD perm) =
      bound v p (n + 1) pa perm := by
  funext q
  unfold bound
  rw [permAD_idem]
  by_cases h1 : q = p
  · rw [if_neg (by omega), if_pos (by omega), h1, upd_same, Nat.sub_self, Nat.mul_zero, Nat.add_zero,
      Nat.mod_eq_of_lt hpa]
  · rw [upd_ne h1]
    by_cases h2 : p + 1 ≤ q ∧ q < p + 1 + n
    · have hf : ((pa + 4096) % 2 ^ 32 + 4096 * (q - (p + 1))) % 2 ^ 32 = (pa + 4096 * (q - p)) % 2 ^ 32 := by omega
      rw [if_pos h2, if_pos (by omega), hf]
    · rw [if_neg h2, if_neg (by omega)]

theorem leaf_pte (hpa : pa < 2 ^ 32) (ha : pa % 4096 = 0) (hp : perm < 1024) :
    leaf (PA2PTE pa ||| permAD perm ||| PTE_V) = some (pa, permAD perm ||| PTE_V) := by
  have hlt : permAD perm ||| PTE_V < 1024 := Nat.or_lt_two_pow (n := 10) (permAD_lt hp) (by decide)
  unfold leaf
  rw [if_pos or_V_and_V, Nat.or_assoc, PTE2PA_pte hpa ha hlt, PTE_FLAGS_pte hlt]

/-- One turn of the loop: no page for the table, or one more page is bound. -/
theorem mappagesLoop_turn {Q : Int → St → Prop} (h : Table K s pt F) (ha : a = 4096 * p) (hpn : p < 2 ^ 20)
    (hpa : pa < 2 ^ 32) (hal : pa % 4096 = 0) (hp : perm < 1024) (hfree : view s.mem pt p = none)
    (hnone : ∀ s', s'.mem = s.mem → Grown K pt s F s' F → Q (-1) s')
    (hsome : ∀ s' F', Grown K pt s F s' F' → view s'.mem pt = upd (view s.mem pt) p (some (pa, permAD perm ||| PTE_V)) →
      if a = last then Q 0 s'
      else wp (mappagesLoop pt last fuel ((a + PGSIZE) % 2 ^ 32) ((pa + PGSIZE) % 2 ^ 32) (permAD perm)) Q E s') :
    wp (mappagesLoop pt last (fuel + 1) a pa perm) Q E s := by
  unfold mappagesLoop
  have hva : a < 2 ^ 32 := by omega
  rw [wp_bind]
  refine walk_alloc h hva (fun s' hm hg => ?_) fun s1 F1 c hg hv h0 hc => ?_
  · exact hnone s' hm hg
  refine wp_neg (by omega) ?_
  have hdiv : a / 2 ^ 12 = p := by omega
  rw [wp_bind, wp_load]
  have hw : ¬ load32 s1.mem (c + 4 * (a / 2 ^ 12 % 1024)) &&& PTE_V ≠ 0 := by
    intro hw
    rw [← hv, view_child (by rw [show p / 1024 = a / 2 ^ 22 by omega]; exact hc), ← hdiv, leaf, if_pos hw] at hfree
    cases hfree
  refine wp_neg hw ?_
  have hlt : permAD perm ||| PTE_V < 1024 := Nat.or_lt_two_pow (n := 10) (permAD_lt hp) (by decide)
  have hpte : PA2PTE pa ||| permAD perm ||| PTE_V < 2 ^ 32 := by
    rw [Nat.or_assoc]
    exact pte_lt hpa hlt
  obtain ⟨h1, h2⟩ := hg.table.store hc (j := a / 2 ^ 12 % 1024) (by omega) hpte
  rw [leaf_pte hpa hal hp, hv, show 1024 * (a / 2 ^ 22) + a / 2 ^ 12 % 1024 = p by omega] at h2
  have h3 := hsome _ F1 (hg.trans h1) h2
  rw [wp_bind, wp_store]
  refine wp_ite (fun he => ?_) fun he => ?_
  · rw [if_pos he] at h3
    exact h3
  · rw [if_neg he] at h3
    exact h3

theorem mappagesLoop_spec (h : Table K s pt F) (ha : a = 4096 * p) (hl : last = 4096 * (p + n)) (hpn : p + n < 2 ^ 20)
    (hpa : pa < 2 ^ 32) (hal : pa % 4096 = 0) (hp : perm < 1024) (hfuel : n < fuel)
    (hfree : ∀ k ≤ n, view s.mem pt (p + k) = none) :
    wp (mappagesLoop pt last fuel a pa perm) (fun r s' => ∃ F' j, Grown K pt s F s' F' ∧
      view s'.mem pt = bound (view s.mem pt) p j pa perm ∧ (r = 0 ∧ j = n + 1 ∨ r = -1 ∧ j ≤ n)) E s := by
  induction n generalizing s F a pa perm p fuel with
  | zero =>
    obtain ⟨fuel, rfl⟩ := Nat.exists_eq_succ_of_ne_zero (Nat.pos_iff_ne_zero.mp hfuel)
    refine mappagesLoop_turn h ha (by omega) hpa hal hp (hfree 0 (Nat.le_refl 0)) (fun s' hm hg => ?_)
      fun s' F' hg hv => ?_
    · exact ⟨F, 0, hg, by rw [hm, bound_zero], Or.inr ⟨rfl, Nat.le_refl 0⟩⟩
    · rw [if_pos (by omega)]
      refine ⟨F', 1, hg, ?_, Or.inl ⟨rfl, rfl⟩⟩
      rw [hv, ← bound_succ _ hpa, bound_zero]
  | succ n ih =>
    obtain ⟨fuel, rfl⟩ := Nat.exists_eq_succ_of_ne_zero (Nat.pos_iff_ne_zero.mp (by omega : 0 < fuel))
    refine mappagesLoop_turn h ha (by omega) hpa hal hp (hfree 0 (Nat.zero_le _)) (fun s' hm hg => ?_)
      fun s1 F1 hg hv => ?_
    · exact ⟨F, 0, hg, by rw [hm, bound_zero], Or.inr ⟨rfl, Nat.zero_le _⟩⟩
    · rw [if_neg (by omega)]
      have hfree' : ∀ k ≤ n, view s1.mem pt (p + 1 + k) = none := fun k hk => by
        rw [hv, upd_ne (by omega), Nat.add_assoc, Nat.add_comm 1 k]
        exact hfree (k + 1) (by omega)
      have hal' : (pa + PGSIZE) % 2 ^ 32 % 4096 = 0 := by
        show (pa + 4096) % 2 ^ 32 % 4096 = 0
        omega
      have ha' : (a + PGSIZE) % 2 ^ 32 = 4096 * (p + 1) := by
        show (a + 4096) % 2 ^ 32 = _
        omega
      refine (ih hg.table ha' (by omega) (by omega) (Nat.mod_lt _ (by decide)) hal' (permAD_lt hp)
        (by omega) hfree').mono (fun r s2 => ?_) fun _ _ he => he
      rintro ⟨F2, j, hg2, hv2, hr⟩
      refine ⟨F2, j + 1, hg.trans hg2, ?_, ?_⟩
      · rw [hv2, hv]
        exact bound_succ _ hpa
      · rcases hr with ⟨hr, hj⟩ | ⟨hr, hj⟩
        · exact Or.inl ⟨hr, by omega⟩
        · exact Or.inr ⟨hr, by omega⟩

/-- The pages of a range that does not wrap. -/
theorem mappages_spec (h : Table K s pt F) (hsz : 0 < size) (hva : va + size ≤ 2 ^ 32) (hpa : pa < 2 ^ 32)
    (hal : pa % 4096 = 0) (hp : perm < 1024)
    (hfree : ∀ q, va / 4096 ≤ q → q ≤ (va + size - 1) / 4096 → view s.mem pt q = none) :
    wp (mappages pt va size pa perm) (fun r s' => ∃ F' j, Grown K pt s F s' F' ∧
      view s'.mem pt = bound (view s.mem pt) (va / 4096) j pa perm ∧
      (r = 0 ∧ j = (va + size - 1) / 4096 - va / 4096 + 1 ∨ r = -1 ∧ j ≤ (va + size - 1) / 4096 - va / 4096)) E s := by
  unfold mappages
  refine wp_neg (by omega) ?_
  rw [Nat.mod_eq_of_lt (by omega : va + size - 1 < 2 ^ 32)]
  have hle : va / 4096 ≤ (va + size - 1) / 4096 := Nat.div_le_div_right (by omega)
  refine mappagesLoop_spec h ?_ ?_ (by omega) hpa hal hp (by omega) fun k hk => hfree _ (by omega) (by omega)
  · show va / 4096 * 4096 = _
    omega
  · show (va + size - 1) / 4096 * 4096 = _
    omega

/-- One page. -/
theorem mappages_one {Q : Int → St → Prop} (h : Table K s pt F) (ha : va = 4096 * p) (hpn : p < 2 ^ 20)
    (hpa : pa < 2 ^ 32) (hal : pa % 4096 = 0) (hp : perm < 1024) (hfree : view s.mem pt p = none)
    (hnone : ∀ s', s'.mem = s.mem → Grown K pt s F s' F → Q (-1) s')
    (hsome : ∀ s' F', Grown K pt s F s' F' → view s'.mem pt = upd (view s.mem pt) p (some (pa, permAD perm ||| PTE_V)) →
      Q 0 s') : wp (mappages pt va PGSIZE pa perm) Q E s := by
  unfold mappages
  refine wp_neg (by decide) ?_
  have hlast : PGROUNDDOWN ((va + PGSIZE - 1) % 2 ^ 32) = va := by
    show (va + 4096 - 1) % 2 ^ 32 / 4096 * 4096 = va
    omega
  have hfirst : PGROUNDDOWN va = va := by
    show va / 4096 * 4096 = va
    omega
  rw [hlast, hfirst]
  refine mappagesLoop_turn h ha hpn hpa hal hp hfree hnone fun s' F' hg hv => ?_
  rw [if_pos rfl]
  exact hsome s' F' hg hv

/-- On a page that is bound already. -/
theorem mappages_remap {Q : Int → St → Prop} (h : Skel s.mem pt) (ha : va = 4096 * p) (hpn : p < 2 ^ 20)
    (hv : view s.mem pt p ≠ none) (hE : E .remap s) : wp (mappages pt va PGSIZE pa perm) Q E s := by
  unfold mappages
  refine wp_neg (by decide) ?_
  have hfirst : PGROUNDDOWN va = va := by
    show va / 4096 * 4096 = va
    omega
  rw [hfirst]
  show wp (mappagesLoop pt _ (1048575 + 1) va pa perm) _ _ _
  rw [mappagesLoop, wp_bind]
  cases hc : child s.mem pt (p / 1024) with
  | none => exact absurd (view_none hc) hv
  | some c =>
    refine walk_some (by omega) (by rw [show va / 2 ^ 22 = p / 1024 by omega]; exact hc) ?_
    refine wp_neg (by have := (h.kid hc).1; omega) ?_
    rw [wp_bind, wp_load, show va / 2 ^ 12 = p by omega]
    refine wp_ite (fun _ => hE) fun hw => ?_
    rw [view_child hc, leaf, if_neg hw] at hv
    exact absurd rfl hv

/-! ## uvmunmap -/

def unbound (v : Nat → Option (Nat × Nat)) (p n : Nat) : Nat → Option (Nat × Nat) := fun q =>
  if p ≤ q ∧ q < p + n then none else v q

def released (doFree : Bool) (v : Nat → Option (Nat × Nat)) (p n : Nat) : Set Nat :=
  {f | doFree = true ∧ ∃ k < n, ∃ fl, v (p + k) = some (f, fl)}

/-- Different pages of `v` from `p` on have different frames. -/
def Apart (v : Nat → Option (Nat × Nat)) (p n : Nat) : Prop :=
  ∀ k < n, ∀ l < n, ∀ f fl fl', v (p + k) = some (f, fl) → v (p + l) = some (f, fl') → k = l

/-- `uvmunmap` from `s` to `s'`, with the frames `G` freed. -/
structure Unmapped (K : Image) (pt : Nat) (s s' : St) (v : Nat → Option (Nat × Nat)) (G : Set Nat) : Prop where
  root : SameRoot s.mem s'.mem pt
  view : view s'.mem pt = v
  off : SameOff (nodes s.mem pt ∪ G) s.mem s'.mem
  kern : s'.kern = s.kern

/-- What a call of `uvmunmap` needs of the pages it is called for. -/
structure Mapped (K : Image) (s : St) (pt p n : Nat) (doFree : Bool) : Prop where
  bound : ∀ k < n, ∃ f fl, view s.mem pt (p + k) = some (f, fl) ∧ fl ≠ PTE_V
  frame : doFree = true → ∀ k < n, ∀ f fl, view s.mem pt (p + k) = some (f, fl) → Frame K f ∧ f ∉ nodes s.mem pt

theorem leaf_some (h : leaf w = some (f, fl)) : w &&& PTE_V ≠ 0 ∧ PTE2PA w = f ∧ PTE_FLAGS w = fl := by
  unfold leaf at h
  split at h
  · cases h
    exact ⟨‹_›, rfl, rfl⟩
  · cases h

theorem view_some (h : view m pt p = some (f, fl)) :
    ∃ c, child m pt (p / 1024) = some c ∧ leaf (load32 m (c + 4 * (p % 1024))) = some (f, fl) := by
  cases hc : child m pt (p / 1024) with
  | none =>
    rw [view_none hc] at h
    cases h
  | some c => exact ⟨c, rfl, by rw [← view_child hc, h]⟩

theorem view_lt (h : view m pt p = some (f, fl)) : p < 2 ^ 20 := by
  obtain ⟨c, hc, -⟩ := view_some h
  have := child_lt hc
  omega

theorem view_aligned (h : view m pt p = some (f, fl)) : f % 4096 = 0 := by
  obtain ⟨c, -, hl⟩ := view_some h
  rw [← (leaf_some hl).2.1]
  exact PTE2PA_aligned _

/-- The binding is cleared after the frame was overwritten, or not. -/
theorem unmap_store (h : Skel s.mem pt) (hc : child s.mem pt (p / 1024) = some c) (hm : SameOff S s.mem s'.mem)
    (hS : ∀ t ∈ nodes s.mem pt, t ∉ S) (hk : s'.kern = s.kern) :
    Unmapped K pt s { s' with mem := store32 s'.mem (c + 4 * (p % 1024)) 0 } (upd (view s.mem pt) p none) S := by
  have hch := root_congr h.root hm (hS pt (root_mem _ _))
  have hsk := h.of_root hch
  obtain ⟨h1, h2⟩ := view_store hsk (by rw [hch.child]; exact hc) (j := p % 1024) (w := 0) (by omega) (by decide)
  have ha := child_aligned hc
  refine ⟨hch.trans h1, ?_, ?_, hk⟩
  · rw [h2, view_congr h hm hS, show 1024 * (p / 1024) + p % 1024 = p by omega]
    rfl
  · refine (hm.mono Set.subset_union_right).trans ?_
    exact SameOff.store32 (by omega) (by rw [page_add ha (by omega)]; exact Or.inl (child_mem hc))

theorem uvmunmapLoop_turn {Q : Unit → St → Prop} (h : Skel s.mem pt) (hpn : p < 2 ^ 20)
    (hv : view s.mem pt p = some (f, fl)) (hfl : fl ≠ PTE_V) (hfr : doFree = true → Frame K f ∧ f ∉ nodes s.mem pt)
    (hQ : ∀ s', Unmapped K pt s s' (upd (view s.mem pt) p none) (released doFree (view s.mem pt) p 1) →
      (∀ F, Heap K s F → (∀ t ∈ nodes s.mem pt, t ∉ F) → (doFree = true → f ∉ F) →
        Heap K s' (F ∪ released doFree (view s.mem pt) p 1)) →
      wp (uvmunmapLoop K pt doFree n (p + 1)) Q E s') : wp (uvmunmapLoop K pt doFree (n + 1) p) Q E s := by
  unfold uvmunmapLoop
  obtain ⟨c, hc, hl⟩ := view_some hv
  obtain ⟨hV, hpa, hflags⟩ := leaf_some hl
  have hva : p <<< 12 % 2 ^ 32 = 4096 * p := by
    rw [Nat.shiftLeft_eq]
    omega
  have hrel : ∀ g, g ∈ released doFree (view s.mem pt) p 1 ↔ doFree = true ∧ g = f := by
    intro g
    constructor
    · rintro ⟨h1, k, hk, fl', h2⟩
      rw [show p + k = p by omega, hv] at h2
      cases h2
      exact ⟨h1, rfl⟩
    · rintro ⟨h1, rfl⟩
      exact ⟨h1, 0, by decide, fl, hv⟩
  rw [wp_bind, hva]
  refine walk_some (by omega) (by rw [show 4096 * p / 2 ^ 22 = p / 1024 by omega]; exact hc) ?_
  rw [show 4096 * p / 2 ^ 12 = p by omega]
  refine wp_neg (by have := (h.kid hc).1; omega) ?_
  rw [wp_bind, wp_load]
  refine wp_neg hV ?_
  refine wp_ite (fun he => absurd (hflags ▸ he) hfl) fun _ => ?_
  have hca := child_aligned hc
  have hoff : ∀ {m' : Nat → UInt8}, SameOff {c} m' (store32 m' (c + 4 * (p % 1024)) 0) := fun {m'} =>
    SameOff.store32 (by omega) (by rw [page_add hca (by omega)]; exact Set.mem_singleton c)
  refine wp_ite (fun hd => ?_) fun hd => ?_
  · obtain ⟨hfr, hfn⟩ := hfr hd
    rw [wp_bind, hpa]
    refine kfree_wp hfr fun s1 hm hk hfl1 hw => ?_
    rw [wp_bind, wp_store]
    have hS : ∀ t ∈ nodes s.mem pt, t ∉ ({f} : Set Nat) := fun t ht he => hfn (Set.mem_singleton_iff.mp he ▸ ht)
    have hset : released doFree (view s.mem pt) p 1 = {f} := Set.ext fun g => (hrel g).trans (and_iff_right hd)
    refine hQ _ (hset ▸ unmap_store h hc hm hS hk) fun F hF hap hn => ?_
    rw [hset, Set.union_singleton]
    refine (hF.push hfr (hn hd) hm (hw hF.freelist_lt) hfl1).frame hoff (fun g hg he => ?_) rfl
    rcases Set.mem_insert_iff.mp hg with hg | hg
    · exact hfn (hg ▸ he ▸ child_mem hc)
    · exact hap g (he ▸ child_mem hc) hg
  · rw [wp_bind, wp_store]
    have hset : released doFree (view s.mem pt) p 1 = ∅ := Set.ext fun g => (hrel g).trans
      ⟨fun hg => absurd hg.1 hd, fun hg => absurd hg (Set.notMem_empty g)⟩
    refine hQ _ (hset ▸ unmap_store h hc (SameOff.refl ∅ _) (fun t _ => Set.notMem_empty t) rfl) fun F hF hap _ => ?_
    rw [hset, Set.union_empty]
    exact hF.frame hoff (fun g hg he => hap g (he ▸ child_mem hc) hg) rfl

theorem unbound_succ (v : Nat → Option (Nat × Nat)) : unbound (upd v p none) (p + 1) n = unbound v p (n + 1) := by
  funext q
  unfold unbound
  by_cases h1 : q = p
  · rw [if_neg (by omega), if_pos (by omega), h1, upd_same]
  · rw [upd_ne h1]
    by_cases h2 : p + 1 ≤ q ∧ q < p + 1 + n
    · rw [if_pos h2, if_pos (by omega)]
    · rw [if_neg h2, if_neg (by omega)]

theorem released_succ (doFree : Bool) (v : Nat → Option (Nat × Nat)) :
    released doFree v p 1 ∪ released doFree (upd v p none) (p + 1) n = released doFree v p (n + 1) := by
  ext f
  constructor
  · rintro (⟨hd, k, hk, fl, hf⟩ | ⟨hd, k, hk, fl, hf⟩)
    · exact ⟨hd, k, by omega, fl, hf⟩
    · rw [upd_ne (by omega), show p + 1 + k = p + (k + 1) by omega] at hf
      exact ⟨hd, k + 1, by omega, fl, hf⟩
  · rintro ⟨hd, k, hk, fl, hf⟩
    by_cases h0 : k = 0
    · exact Or.inl ⟨hd, k, by omega, fl, hf⟩
    · refine Or.inr ⟨hd, k - 1, by omega, fl, ?_⟩
      rw [upd_ne (by omega), show p + 1 + (k - 1) = p + k by omega]
      exact hf

theorem uvmunmapLoop_spec (h : Skel s.mem pt) (hpn : p + n ≤ 2 ^ 20) (hm : Mapped K s pt p n doFree) :
    wp (uvmunmapLoop K pt doFree n p) (fun _ s' =>
      Unmapped K pt s s' (unbound (view s.mem pt) p n) (released doFree (view s.mem pt) p n) ∧
      ∀ F, Heap K s F → (∀ t ∈ nodes s.mem pt, t ∉ F) → (doFree = true → Apart (view s.mem pt) p n) →
        (∀ f ∈ released doFree (view s.mem pt) p n, f ∉ F) →
        Heap K s' (F ∪ released doFree (view s.mem pt) p n)) E s := by
  induction n generalizing s p with
  | zero =>
    have hv : unbound (view s.mem pt) p 0 = view s.mem pt := funext fun _ => if_neg (by omega)
    have hr : released doFree (view s.mem pt) p 0 = ∅ :=
      Set.eq_empty_iff_forall_notMem.mpr fun f hf => by obtain ⟨-, k, hk, -⟩ := hf; omega
    rw [hv, hr]
    refine ⟨⟨fun _ _ => rfl, rfl, SameOff.refl _ _, rfl⟩, fun F hF _ _ _ => ?_⟩
    rw [Set.union_empty]
    exact hF
  | succ n ih =>
    obtain ⟨f, fl, hv, hfl⟩ := hm.bound 0 (Nat.succ_pos n)
    refine uvmunmapLoop_turn h (by omega) hv hfl (fun hd => hm.frame hd 0 (Nat.succ_pos n) f fl hv)
      fun s1 hu hheap => ?_
    have hsk := h.of_root hu.root
    have hn := hu.root.nodes
    have hv1 : ∀ k < n, view s1.mem pt (p + 1 + k) = view s.mem pt (p + (k + 1)) := fun k _ => by
      rw [hu.view, upd_ne (by omega), Nat.add_assoc, Nat.add_comm 1 k]
    have hm1 : Mapped K s1 pt (p + 1) n doFree := by
      refine ⟨fun k hk => ?_, fun hd k hk f fl hf => ?_⟩
      · rw [hv1 k hk]
        exact hm.bound (k + 1) (by omega)
      · rw [hv1 k hk] at hf
        rw [hn]
        exact hm.frame hd (k + 1) (by omega) f fl hf
    refine (ih hsk (by omega) hm1).imp fun _ s2 => ?_
    rintro ⟨hu2, hheap2⟩
    rw [hu.view] at hu2 hheap2
    rw [hn] at hheap2
    rw [unbound_succ] at hu2
    refine ⟨⟨hu.root.trans hu2.root, hu2.view, ?_, hu2.kern.trans hu.kern⟩, fun F hF hap hinj hout => ?_⟩
    · rw [← released_succ]
      refine (hu.off.mono ?_).trans (hu2.off.mono ?_)
      · exact Set.union_subset_union_right _ Set.subset_union_left
      · rw [hn]
        exact Set.union_subset_union_right _ Set.subset_union_right
    · rw [← released_succ, ← Set.union_assoc]
      have hin : ∀ g, g ∈ released doFree (view s.mem pt) p 1 → g ∈ released doFree (view s.mem pt) p (n + 1) :=
        fun g hg => by rw [← released_succ]; exact Or.inl hg
      have hin' : ∀ g, g ∈ released doFree (upd (view s.mem pt) p none) (p + 1) n →
          g ∈ released doFree (view s.mem pt) p (n + 1) := fun g hg => by rw [← released_succ]; exact Or.inr hg
      have hf : doFree = true → f ∈ released doFree (view s.mem pt) p 1 := fun hd => ⟨hd, 0, by decide, fl, hv⟩
      have hF1 := hheap F hF hap fun hd => hout f (hin f (hf hd))
      refine hheap2 _ hF1 (fun t ht => ?_) (fun hd => ?_) fun g hg => ?_
      · rintro (ht' | ⟨hd, k, hk, fl', hk'⟩)
        · exact hap t ht ht'
        · exact (hm.frame hd k (by omega) t fl' hk').2 ht
      · intro k hk l hl g fl1 fl2 h1 h2
        rw [upd_ne (by omega), show p + 1 + k = p + (k + 1) by omega] at h1
        rw [upd_ne (by omega), show p + 1 + l = p + (l + 1) by omega] at h2
        have := hinj hd (k + 1) (by omega) (l + 1) (by omega) g fl1 fl2 h1 h2
        omega
      · rintro (hg' | ⟨-, k, hk, fl', hk'⟩)
        · exact hout g (hin' g hg) hg'
        · -- the same frame at `p` and behind it
          obtain ⟨hd, l, hl, fl2, h2⟩ := hg
          rw [upd_ne (by omega), show p + 1 + l = p + (l + 1) by omega] at h2
          have := hinj hd k (by omega) (l + 1) (by omega) g fl' fl2 hk' h2
          omega

theorem uvmunmap_spec (h : Skel s.mem pt) (ha : va = 4096 * p) (hpn : p + n ≤ 2 ^ 20)
    (hm : Mapped K s pt p n doFree) :
    wp (uvmunmap K pt va n doFree) (fun _ s' =>
      Unmapped K pt s s' (unbound (view s.mem pt) p n) (released doFree (view s.mem pt) p n) ∧
      ∀ F, Heap K s F → (∀ t ∈ nodes s.mem pt, t ∉ F) → (doFree = true → Apart (view s.mem pt) p n) →
        (∀ f ∈ released doFree (view s.mem pt) p n, f ∉ F) →
        Heap K s' (F ∪ released doFree (view s.mem pt) p n)) E s := by
  unfold uvmunmap
  have hal : va % PGSIZE = 0 := by
    show va % 4096 = 0
    omega
  refine wp_neg (fun he => he hal) ?_
  have hp : va >>> 12 = p := by
    rw [Nat.shiftRight_eq_div_pow]
    omega
  rw [hp]
  show wp (uvmunmapLoop K pt doFree ((p + n) % 2 ^ 32 - p) p) _ _ _
  rw [Nat.mod_eq_of_lt (by omega : p + n < 2 ^ 32), Nat.add_sub_cancel_left]
  exact uvmunmapLoop_spec h hpn hm

end Xv6.Vm
