/-
  Xv6.Vm.Sv32 — two-level page tables as finite maps.

  `view m pt` is the table at `pt`, as the memory `m` holds it: a partial map from the 2^20
  virtual pages to frames and flags. `nodes m pt` are the pages the table is made of, and
  `Skel m pt` says that they are different ones. Three facts about memory carry the rest:
  what is written outside the table's pages does not change it (`root_congr`, `view_congr`),
  a word written in a second-level page changes one binding (`view_store`), and a zeroed
  page linked in changes none (`link`).

  `Grown`: pages went from the free list to the table, nothing else was written.
-/
import Xv6.Vm.Heap
import Mathlib

namespace Xv6.Vm

variable {K : Image} {s s' : St} {F F' S : Set Nat} {m m' m1 : Nat → UInt8} {pt va pa perm w c i j p q n t f fl : Nat}
  {E : Panic → St → Prop}

/-! ## Entries -/

theorem PX_one (h : va < 2 ^ 32) : PX 1 va = va / 2 ^ 22 := by
  unfold PX
  rw [Nat.shiftRight_eq_div_pow, show (0x3FF : Nat) = 2 ^ 10 - 1 from rfl, Nat.and_two_pow_sub_one_eq_mod]
  omega

theorem PX_zero : PX 0 va = va / 2 ^ 12 % 1024 := by
  unfold PX
  rw [Nat.shiftRight_eq_div_pow, show (0x3FF : Nat) = 2 ^ 10 - 1 from rfl, Nat.and_two_pow_sub_one_eq_mod]

theorem PTE2PA_eq (w : Nat) : PTE2PA w = w / 2 ^ 10 * 2 ^ 12 % 2 ^ 32 := by
  unfold PTE2PA
  rw [Nat.shiftLeft_eq, Nat.shiftRight_eq_div_pow]

theorem PTE2PA_aligned (w : Nat) : PTE2PA w % 4096 = 0 := by
  rw [PTE2PA_eq]
  omega

theorem PTE_FLAGS_eq (w : Nat) : PTE_FLAGS w = w % 1024 := by
  unfold PTE_FLAGS
  rw [show (0x3FF : Nat) = 2 ^ 10 - 1 from rfl, Nat.and_two_pow_sub_one_eq_mod]

/-- Address and flags do not overlap in an entry. -/
theorem pte_eq (h : perm < 1024) : PA2PTE pa ||| perm = pa / 2 ^ 12 * 2 ^ 10 + perm := by
  unfold PA2PTE
  rw [Nat.shiftLeft_eq, Nat.shiftRight_eq_div_pow, Nat.mul_comm]
  exact (Nat.two_pow_add_eq_or_of_lt (i := 10) h _).symm

theorem pte_lt (hp : pa < 2 ^ 32) (h : perm < 1024) : PA2PTE pa ||| perm < 2 ^ 32 := by
  rw [pte_eq h]
  omega

theorem PTE2PA_pte (hp : pa < 2 ^ 32) (ha : pa % 4096 = 0) (h : perm < 1024) : PTE2PA (PA2PTE pa ||| perm) = pa := by
  rw [pte_eq h, PTE2PA_eq]
  omega

theorem PTE_FLAGS_pte (h : perm < 1024) : PTE_FLAGS (PA2PTE pa ||| perm) = perm := by
  rw [pte_eq h, PTE_FLAGS_eq]
  omega

/-- A flag is tested alike in the entry and in its flags. -/
theorem flags_and (h : 0x3FF &&& c = c) : PTE_FLAGS w &&& c = w &&& c := by
  unfold PTE_FLAGS
  rw [Nat.and_assoc, h]

theorem or_V_and_V : (perm ||| PTE_V) &&& PTE_V ≠ 0 := by
  rw [Nat.and_or_distrib_right]
  intro h
  exact absurd (Nat.or_eq_zero_iff.mp h).2 (by decide)

theorem permAD_lt (h : perm < 1024) : permAD perm < 1024 := by
  unfold permAD
  have h1 : perm ||| PTE_A < 2 ^ 10 := Nat.or_lt_two_pow h (by decide)
  dsimp only
  split
  · exact Nat.or_lt_two_pow h1 (by decide)
  · exact h1

/-- `perm` as the loop of `mappages` leaves it is not changed by another turn. -/
theorem permAD_idem (perm : Nat) : permAD (permAD perm) = permAD perm := by
  have hA : ∀ x, x ||| PTE_A ||| PTE_A = x ||| PTE_A := fun x => by rw [Nat.or_assoc, Nat.or_self]
  unfold permAD
  by_cases h : (perm ||| PTE_A) &&& PTE_W = 0
  · simp only [h, ne_eq, not_true_eq_false, if_false, hA]
  · have hD : perm ||| PTE_A ||| PTE_D ||| PTE_A = perm ||| PTE_A ||| PTE_D := by
      rw [Nat.or_assoc, Nat.or_comm PTE_D, ← Nat.or_assoc, hA]
    have hW : (perm ||| PTE_A ||| PTE_D) &&& PTE_W ≠ 0 := by
      rw [Nat.and_or_distrib_right]
      exact fun he => h (Nat.or_eq_zero_iff.mp he).1
    simp only [h, ne_eq, not_false_eq_true, if_true, hD, hW]
    rw [Nat.or_assoc, Nat.or_self]

/-- What `mappages` writes is never an entry for a third level. -/
theorem permAD_ne_V (perm : Nat) : permAD perm ||| PTE_V ≠ PTE_V := by
  intro h
  have h0 : PTE_A &&& PTE_A ≠ 0 := by decide
  have hA : (permAD perm ||| PTE_V) &&& PTE_A ≠ 0 := by
    unfold permAD
    dsimp only
    split
    · simp only [Nat.and_or_distrib_right, ne_eq, Nat.or_eq_zero_iff]
      exact fun h => h0 h.1.1.2
    · simp only [Nat.and_or_distrib_right, ne_eq, Nat.or_eq_zero_iff]
      exact fun h => h0 h.1.2
  rw [h] at hA
  exact hA (by decide)

/-! ## The map a table is -/

def child (m : Nat → UInt8) (pt i : Nat) : Option Nat :=
  if i < 1024 ∧ load32 m (pt + 4 * i) &&& PTE_V ≠ 0 then some (PTE2PA (load32 m (pt + 4 * i))) else none

def leaf (w : Nat) : Option (Nat × Nat) := if w &&& PTE_V ≠ 0 then some (PTE2PA w, PTE_FLAGS w) else none

def view (m : Nat → UInt8) (pt p : Nat) : Option (Nat × Nat) :=
  match child m pt (p / 1024) with
  | none => none
  | some c => leaf (load32 m (c + 4 * (p % 1024)))

def nodes (m : Nat → UInt8) (pt : Nat) : Set Nat := {t | t = pt ∨ ∃ i, child m pt i = some t}

structure Skel (m : Nat → UInt8) (pt : Nat) : Prop where
  root : pt % 4096 = 0
  kid : ∀ {i c}, child m pt i = some c → c ≠ 0 ∧ c ≠ pt
  inj : ∀ {i j c}, child m pt i = some c → child m pt j = some c → i = j
  /-- an entry of the first level is no leaf -/
  dir : ∀ i < 1024, load32 m (pt + 4 * i) &&& PTE_V ≠ 0 → load32 m (pt + 4 * i) &&& (PTE_R ||| PTE_W ||| PTE_X) = 0

def SameRoot (m m' : Nat → UInt8) (pt : Nat) : Prop := ∀ i < 1024, load32 m' (pt + 4 * i) = load32 m (pt + 4 * i)

theorem root_mem (m : Nat → UInt8) (pt : Nat) : pt ∈ nodes m pt := Or.inl rfl

theorem child_mem (h : child m pt i = some c) : c ∈ nodes m pt := Or.inr ⟨i, h⟩

theorem child_lt (h : child m pt i = some c) : i < 1024 := by
  unfold child at h
  split at h
  · exact (‹_ ∧ _›).1
  · cases h

theorem child_aligned (h : child m pt i = some c) : c % 4096 = 0 := by
  unfold child at h
  split at h
  · cases h
    exact PTE2PA_aligned _
  · cases h

theorem view_child (h : child m pt (p / 1024) = some c) : view m pt p = leaf (load32 m (c + 4 * (p % 1024))) := by
  unfold view
  rw [h]

theorem view_none (h : child m pt (p / 1024) = none) : view m pt p = none := by
  unfold view
  rw [h]

theorem SameRoot.child (h : SameRoot m m' pt) : child m' pt = child m pt := by
  funext i
  unfold Vm.child
  by_cases hi : i < 1024
  · rw [h i hi]
  · rw [if_neg fun hc => hi hc.1, if_neg fun hc => hi hc.1]

theorem SameRoot.nodes (h : SameRoot m m' pt) : nodes m' pt = nodes m pt := by
  unfold Vm.nodes
  rw [h.child]

theorem SameRoot.trans {m'' : Nat → UInt8} (h : SameRoot m m' pt) (h' : SameRoot m' m'' pt) : SameRoot m m'' pt :=
  fun i hi => (h' i hi).trans (h i hi)

theorem Skel.of_root (h : Skel m pt) (hr : SameRoot m m' pt) : Skel m' pt := by
  obtain ⟨h1, h2, h3, h4⟩ := h
  have hc := hr.child
  refine ⟨h1, fun {i c} hi => h2 (by rwa [hc] at hi), fun {i j c} hi hj => h3 (by rwa [hc] at hi) (by rwa [hc] at hj),
    fun i hi => ?_⟩
  rw [hr i hi]
  exact h4 i hi

/-! ### A page of zeros -/

theorem child_empty (hpt : ∀ k < 4096, m (pt + k) = 0) : child m pt = fun _ => none := by
  funext i
  unfold child
  refine if_neg ?_
  rintro ⟨hi, hV⟩
  rw [load32_zero fun k hk => by rw [Nat.add_assoc]; exact hpt _ (by omega)] at hV
  exact hV rfl

theorem view_empty (hpt : ∀ k < 4096, m (pt + k) = 0) : view m pt = fun _ => none :=
  funext fun p => view_none (by rw [child_empty hpt])

theorem nodes_empty (hpt : ∀ k < 4096, m (pt + k) = 0) : nodes m pt = {pt} := by
  ext t
  unfold nodes
  rw [child_empty hpt]
  constructor
  · rintro (he | ⟨i, hi⟩)
    · exact he
    · cases hi
  · exact fun he => Or.inl he

theorem Skel.empty (ha : pt % 4096 = 0) (hpt : ∀ k < 4096, m (pt + k) = 0) : Skel m pt := by
  refine ⟨ha, fun {i c} hi => ?_, fun {i j c} hi _ => ?_, fun i hi _ => ?_⟩
  · rw [child_empty hpt] at hi
    cases hi
  · rw [child_empty hpt] at hi
    cases hi
  · rw [load32_zero fun k hk => by rw [Nat.add_assoc]; exact hpt _ (by omega)]
    rfl

/-! ### Frame -/

theorem root_congr (hpt : pt % 4096 = 0) (h : SameOff S m m') (hS : pt ∉ S) : SameRoot m m' pt :=
  fun _ hi => h.load32 (by omega) (by rw [page_add hpt (by omega)]; exact hS)

theorem view_congr (hs : Skel m pt) (h : SameOff S m m') (hS : ∀ t ∈ nodes m pt, t ∉ S) : view m' pt = view m pt := by
  have hc := (root_congr hs.root h (hS pt (root_mem m pt))).child
  funext p
  cases hk : child m pt (p / 1024) with
  | none => rw [view_none hk, view_none (by rw [hc]; exact hk)]
  | some c =>
    have ha := child_aligned hk
    rw [view_child hk, view_child (by rw [hc]; exact hk),
      h.load32 (by omega) (by rw [page_add ha (by omega)]; exact hS c (child_mem hk))]

/-! ### One word in a second-level page -/

theorem view_store (hs : Skel m pt) (hc : child m pt i = some c) (hj : j < 1024) (hw : w < 2 ^ 32) :
    SameRoot m (store32 m (c + 4 * j) w) pt ∧
      view (store32 m (c + 4 * j) w) pt = upd (view m pt) (1024 * i + j) (leaf w) := by
  have ha := child_aligned hc
  have hoff : SameOff {c} m (store32 m (c + 4 * j) w) :=
    SameOff.store32 (by omega) (by rw [page_add ha (by omega)]; exact Set.mem_singleton c)
  have hroot : SameRoot m (store32 m (c + 4 * j) w) pt :=
    root_congr hs.root hoff fun he => (hs.kid hc).2 (Set.mem_singleton_iff.mp he).symm
  have hch := hroot.child
  refine ⟨hroot, funext fun q => ?_⟩
  have hi := child_lt hc
  cases hk : child m pt (q / 1024) with
  | none =>
    have hne : q ≠ 1024 * i + j := by
      intro he
      rw [he, show (1024 * i + j) / 1024 = i by omega, hc] at hk
      cases hk
    rw [upd_ne hne, view_none hk, view_none (by rw [hch]; exact hk)]
  | some d =>
    rw [view_child (m := store32 m (c + 4 * j) w) (by rw [hch]; exact hk)]
    by_cases hd : q / 1024 = i
    · rw [hd, hc] at hk
      cases hk
      by_cases hq : q % 1024 = j
      · rw [hq, load32_store32_same hw, show q = 1024 * i + j by omega, upd_same]
      · rw [load32_store32_ne (by omega), upd_ne (by omega), view_child (by rw [hd]; exact hc)]
    · have hdc : d ≠ c := fun he => hd (hs.inj hk (he ▸ hc))
      have hda := child_aligned hk
      rw [hoff.load32 (by omega) (by rw [page_add hda (by omega)]; exact hdc), upd_ne (by omega), view_child hk]

/-! ### A zeroed page linked in -/

structure Linked (m m' : Nat → UInt8) (pt i c : Nat) : Prop where
  child : child m' pt = upd (child m pt) i (some c)
  view : view m' pt = view m pt
  nodes : nodes m' pt = insert c (nodes m pt)
  skel : Skel m' pt
  off : SameOff {pt, c} m m'

theorem child_link (hpt : pt % 4096 = 0) (hi : i < 1024) (hca : c % 4096 = 0) (hlt : c < 2 ^ 32)
    (hm : SameOff {c} m m1) (hne : pt ≠ c) :
    child (store32 m1 (pt + 4 * i) (PA2PTE c ||| PTE_V)) pt = upd (child m pt) i (some c) := by
  funext k
  by_cases hk : k = i
  · rw [hk, upd_same]
    unfold child
    rw [load32_store32_same (pte_lt hlt (by decide)), if_pos, PTE2PA_pte hlt hca (by decide)]
    exact ⟨hi, or_V_and_V⟩
  · rw [upd_ne hk]
    unfold child
    by_cases hk' : k < 1024
    · rw [load32_store32_ne (by omega), hm.load32 (by omega) (by rw [page_add hpt (by omega)]; exact hne)]
    · rw [if_neg fun h => hk' h.1, if_neg fun h => hk' h.1]

theorem link (hs : Skel m pt) (hc : child m pt i = none) (hi : i < 1024) (hca : c % 4096 = 0) (h0 : c ≠ 0)
    (hlt : c < 2 ^ 32) (hn : c ∉ nodes m pt) (hm : SameOff {c} m m1) (hz : ∀ k < 4096, m1 (c + k) = 0) :
    Linked m (store32 m1 (pt + 4 * i) (PA2PTE c ||| PTE_V)) pt i c := by
  have hpt := hs.root
  have hne : pt ≠ c := fun he => hn (he ▸ root_mem m pt)
  have hch := child_link hpt hi hca hlt hm hne
  have hoff : SameOff {pt} m1 (store32 m1 (pt + 4 * i) (PA2PTE c ||| PTE_V)) :=
    SameOff.store32 (by omega) (by rw [page_add hpt (by omega)]; exact Set.mem_singleton pt)
  have hboth : SameOff {pt, c} m (store32 m1 (pt + 4 * i) (PA2PTE c ||| PTE_V)) :=
    (hm.mono (Set.subset_insert _ _)).trans (hoff.mono (Set.singleton_subset_iff.mpr (Set.mem_insert _ _)))
  have hold : ∀ k d, child m pt k = some d → k ≠ i := fun k d hk he => by rw [he, hc] at hk; cases hk
  refine ⟨hch, funext fun p => ?_, ?_, ⟨hpt, fun {k d} hk => ?_, fun {k l d} hk hl => ?_, fun k hk => ?_⟩, hboth⟩
  · by_cases hp : p / 1024 = i
    · -- the new page is all zeros: nothing is bound in it
      rw [view_child (by rw [hch, hp, upd_same]), view_none (by rw [hp]; exact hc),
        hoff.load32 (by omega) (by rw [page_add hca (by omega)]; exact hne.symm),
        load32_zero fun k hk => by rw [Nat.add_assoc]; exact hz _ (by omega)]
      rfl
    · cases hk : child m pt (p / 1024) with
      | none => rw [view_none hk, view_none (by rw [hch, upd_ne hp]; exact hk)]
      | some d =>
        have hda := child_aligned hk
        have hdn : d ∉ ({pt, c} : Set Nat) := by
          rintro (he | he)
          · exact (hs.kid hk).2 he
          · exact hn (he ▸ child_mem hk)
        rw [view_child hk, view_child (by rw [hch, upd_ne hp]; exact hk),
          hboth.load32 (by omega) (by rw [page_add hda (by omega)]; exact hdn)]
  · ext t
    simp only [nodes, hch, Set.mem_ofPred_eq, Set.mem_insert_iff]
    constructor
    · rintro (he | ⟨k, hk⟩)
      · exact Or.inr (Or.inl he)
      · by_cases hki : k = i
        · rw [hki, upd_same] at hk
          exact Or.inl (Option.some.inj hk).symm
        · rw [upd_ne hki] at hk
          exact Or.inr (Or.inr ⟨k, hk⟩)
    · rintro (he | he | ⟨k, hk⟩)
      · exact Or.inr ⟨i, by rw [upd_same, he]⟩
      · exact Or.inl he
      · exact Or.inr ⟨k, by rw [upd_ne (hold k t hk), hk]⟩
  · rw [hch, upd_apply] at hk
    split at hk
    · cases hk
      exact ⟨h0, hne.symm⟩
    · exact hs.kid hk
  · rw [hch, upd_apply] at hk hl
    have hfresh : ∀ k, child m pt k ≠ some c := fun k hk => hn (child_mem hk)
    split at hk <;> split at hl
    · rw [‹k = i›, ‹l = i›]
    · cases hk
      exact absurd hl (hfresh l)
    · cases hl
      exact absurd hk (hfresh k)
    · exact hs.inj hk hl
  · by_cases hki : k = i
    · intro _
      rw [hki, load32_store32_same (pte_lt hlt (by decide)), ← flags_and (by decide), PTE_FLAGS_pte (by decide)]
      decide
    · rw [load32_store32_ne (by omega), hm.load32 (by omega) (by rw [page_add hpt (by omega)]; exact hne)]
      exact hs.dir k hk

end Xv6.Vm
