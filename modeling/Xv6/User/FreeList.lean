/-
  Xv6.User.FreeList — the free list of the user allocator stays one address-ordered cycle.

  The invariant `Heap` and the half of it that is `free`: from every position of `freep` the
  search loop finds the block's place (`find_spec`), and linking the block in, with all four ways
  to coalesce, leaves an ordered cycle with a gap between any two blocks (`freeBlock_spec`).
-/
import Xv6.User.Umalloc

namespace Xv6.User.Umalloc

variable {base bp n p prevp lo nu : Nat} {s s' : St} {L A B N : List Nat} {size size' : Nat → Nat}

/-! ## Blocks in ascending order -/

/-- The blocks at `L` are not empty, ascend, and leave a gap in front of each, the first above `lo`. -/
def Gaps (size : Nat → Nat) : Nat → List Nat → Prop
  | _, [] => True
  | lo, x :: xs => lo < x ∧ 0 < size x ∧ Gaps size (x + 8 * size x) xs

def endOf (size : Nat → Nat) : Nat → List Nat → Nat
  | lo, [] => lo
  | _, x :: xs => endOf size (x + 8 * size x) xs

theorem gaps_append : Gaps size lo (A ++ B) ↔ Gaps size lo A ∧ Gaps size (endOf size lo A) B := by
  induction A generalizing lo with
  | nil => exact ⟨fun h => ⟨trivial, h⟩, fun h => h.2⟩
  | cons x A ih =>
    simp only [List.cons_append, Gaps, endOf, ih]
    tauto

theorem Gaps.mem (h : Gaps size lo L) (hx : p ∈ L) : lo < p ∧ 0 < size p := by
  induction L generalizing lo with
  | nil => cases hx
  | cons x L ih =>
    obtain ⟨h1, h2, h3⟩ := h
    rcases List.mem_cons.mp hx with rfl | hx
    · exact ⟨h1, h2⟩
    · have := ih h3 hx
      exact ⟨by omega, this.2⟩

theorem Gaps.congr (h : Gaps size lo L) (he : ∀ x ∈ L, size' x = size x) : Gaps size' lo L := by
  induction L generalizing lo with
  | nil => trivial
  | cons x L ih =>
    obtain ⟨h1, h2, h3⟩ := h
    have hx : size' x = size x := he x List.mem_cons_self
    refine ⟨h1, by rw [hx]; exact h2, ?_⟩
    rw [hx]
    exact ih h3 fun y hy => he y (List.mem_cons_of_mem _ hy)

theorem Gaps.sorted (h : Gaps size lo L) : L.Pairwise (fun x y => x + 8 * size x < y) := by
  induction L generalizing lo with
  | nil => exact List.Pairwise.nil
  | cons x L ih =>
    obtain ⟨-, -, h3⟩ := h
    exact List.pairwise_cons.mpr ⟨fun y hy => (h3.mem hy).1, ih h3⟩

/-- The bound in front may move up to the first block. -/
theorem Gaps.bound {lo' : Nat} (h : Gaps size lo L) (hl : ∀ x ∈ L, lo' < x) : Gaps size lo' L := by
  cases L with
  | nil => trivial
  | cons x L => exact ⟨hl x List.mem_cons_self, h.2⟩

theorem endOf_concat : endOf size lo (A ++ [p]) = p + 8 * size p := by
  induction A generalizing lo with
  | nil => rfl
  | cons x A ih => exact ih

theorem endOf_congr (he : ∀ x ∈ A, size' x = size x) : endOf size' lo A = endOf size lo A := by
  induction A generalizing lo with
  | nil => rfl
  | cons x A ih =>
    simp only [endOf]
    rw [he x List.mem_cons_self]
    exact ih fun y hy => he y (List.mem_cons_of_mem _ hy)

/-- A list of blocks has no more members than units. -/
theorem Gaps.length_le (h : Gaps size lo L) : L.length ≤ (L.map size).sum := by
  induction L generalizing lo with
  | nil => exact Nat.le_refl _
  | cons x L ih =>
    obtain ⟨-, h2, h3⟩ := h
    have := ih h3
    simp only [List.length_cons, List.map_cons, List.sum_cons]
    omega

/-- A block apart from those of the list has its place in it. -/
theorem Gaps.split (h : Gaps size lo L) (hb : ∀ x ∈ L, Apart (bp, n) (x, size x)) :
    ∃ A B, L = A ++ B ∧ (∀ x ∈ A, x + 8 * size x ≤ bp) ∧ ∀ x ∈ B, bp + 8 * n ≤ x := by
  induction L generalizing lo with
  | nil => exact ⟨[], [], rfl, by simp, by simp⟩
  | cons x L ih =>
    obtain ⟨h1, h2, h3⟩ := h
    rcases hb x List.mem_cons_self with hx | hx
    · refine ⟨[], x :: L, rfl, by simp, fun y hy => ?_⟩
      dsimp only at hx
      rcases List.mem_cons.mp hy with rfl | hy
      · exact hx
      · have := (h3.mem hy).1
        omega
    · obtain ⟨A, B, rfl, hA, hB⟩ := ih h3 fun y hy => hb y (List.mem_cons_of_mem _ hy)
      refine ⟨x :: A, B, rfl, fun y hy => ?_, hB⟩
      rcases List.mem_cons.mp hy with rfl | hy
      · exact hx
      · exact hA y hy

/-! ## The invariant -/

/-- The `k` units from `a` on are heap memory that `sbrk` gave. -/
structure Given (base : Nat) (s : St) (a k : Nat) : Prop where
  above : base + 8 ≤ a
  below : a + 8 * k ≤ s.brk
  inside : ∀ x, a ≤ x → x < a + 8 * k → ∃ r ∈ s.regions, r.1 ≤ x ∧ x < r.2

structure Heap (base : Nat) (s : St) (L : List Nat) : Prop where
  cyc : Cyc s.ptr (base :: L)
  gaps : Gaps s.size (base + 7) L
  zero : s.size base = 0
  entry : s.freep ∈ base :: L
  free : ∀ b ∈ L, Given base s b (s.size b)
  live : ∀ x ∈ s.live, s.size x.1 = x.2 ∧ 0 < x.2 ∧ Given base s x.1 x.2 ∧ ∀ b ∈ L, Apart x (b, s.size b)
  pair : s.live.Pairwise Apart
  units : (L.map s.size).sum + (s.live.map Prod.snd).sum = s.obtained
  room : base + 8 ≤ s.brk

theorem Apart.symm {x y : Nat × Nat} (h : Apart x y) : Apart y x := Or.symm h

/-- Two blocks end to end. -/
theorem Given.join {a k j b : Nat} (h : Given base s a k) (hb : a + 8 * k = b) (h' : Given base s b j) :
    Given base s a (k + j) := by
  subst hb
  have := h'.below
  refine ⟨h.above, by omega, fun x h1 h2 => ?_⟩
  by_cases hx : x < a + 8 * k
  · exact h.inside x h1 hx
  · exact h'.inside x (by omega) (by omega)

/-- The rear part of a block, or the front. -/
theorem Given.part {a k : Nat} (h : Given base s a k) (a' k' : Nat) (h1 : a ≤ a') (h2 : a' + 8 * k' ≤ a + 8 * k) :
    Given base s a' k' := by
  have := h.above
  have := h.below
  exact ⟨by omega, by omega, fun x hx hx' => h.inside x (by omega) (by omega)⟩

theorem Apart.join {x : Nat × Nat} {a k j b : Nat} (h : Apart x (a, k)) (hb : a + 8 * k = b) (h' : Apart x (b, j))
    (hx : 0 < x.2) : Apart x (a, k + j) := by
  unfold Apart at *
  dsimp only at *
  omega

theorem Heap.sorted (h : Heap base s L) : (base :: L).Pairwise (· < ·) := by
  refine List.pairwise_cons.mpr ⟨fun x hx => ?_, h.gaps.sorted.imp fun hxy => by omega⟩
  have := (h.gaps.mem hx).1
  omega

theorem Heap.nodup (h : Heap base s L) : (base :: L).Nodup := h.sorted.imp Nat.ne_of_lt

/-! ## The search loop of `free` -/

def Stops (s : St) (bp p : Nat) : Prop := (bp > p ∧ bp < s.ptr p) ∨ (p ≥ s.ptr p ∧ (bp > p ∨ bp < s.ptr p))

theorem findLoop_stop (h : Stops s bp p) (n : Nat) : findLoop s bp (n + 1) p = .ok p := by
  unfold findLoop
  rcases h with h | h
  · rw [if_pos h]
  · rw [if_pos h, ite_self]

theorem findLoop_next (h : ¬ Stops s bp p) (n : Nat) : findLoop s bp (n + 1) p = findLoop s bp n (s.ptr p) := by
  unfold Stops at h
  rw [not_or] at h
  rw [findLoop, if_neg h.1, if_neg h.2]

theorem findLoop_walk {a z : Nat} {l : List Nat} (hc : Chain s.ptr (a :: (l ++ [z])))
    (hn : ∀ q ∈ a :: l, ¬ Stops s bp q) (n : Nat) : findLoop s bp (n + (l.length + 1)) a = findLoop s bp n z := by
  induction l generalizing a with
  | nil => rw [List.length_nil, findLoop_next (hn a List.mem_cons_self), hc.1]
  | cons b l ih =>
    have hb := ih hc.2 fun q hq => hn q (List.mem_cons_of_mem _ hq)
    rw [← Nat.add_assoc, findLoop_next (hn a List.mem_cons_self), hc.1]
    exact hb

/-- From any node of a cycle the loop comes to the one at which it stops. -/
theorem find_stop {freep : Nat} (hc : Cyc s.ptr N) (hf : freep ∈ N) (hp : p ∈ N) (hs : Stops s bp p)
    (hn : ∀ q ∈ N, q ≠ p → ¬ Stops s bp q) {fuel : Nat} (hl : N.length ≤ fuel) : findLoop s bp fuel freep = .ok p := by
  obtain ⟨l1, l2, rfl⟩ := List.append_of_mem hf
  have hr := cyc_rotate.mp hc
  have hp' : p ∈ freep :: l2 ++ l1 := List.perm_append_comm.mem_iff.mp hp
  obtain ⟨M, M', he, hM⟩ := List.eq_append_cons_of_mem hp'
  cases M with
  | nil =>
    have : freep = p := by simpa using congrArg List.head? he
    subst this
    obtain ⟨k, rfl⟩ : ∃ k, fuel = k + 1 := ⟨fuel - 1, by simp at hl; omega⟩
    exact findLoop_stop hs k
  | cons q M =>
    have hq : freep = q := by simpa using congrArg List.head? he
    subst hq
    have hlen : (l1 ++ freep :: l2).length = M.length + 1 + (M'.length + 1) := by
      rw [List.perm_append_comm.length_eq, he]
      simp only [List.length_append, List.length_cons]
    rw [he] at hr
    have hch : Chain s.ptr (freep :: M ++ p :: (M' ++ [freep])) := by
      simpa [Cyc] using hr
    obtain ⟨k, rfl⟩ : ∃ k, fuel = k + 1 + (M.length + 1) := ⟨fuel - (M.length + 2), by omega⟩
    rw [findLoop_walk (z := p) (chain_append.mp hch).1]
    · exact findLoop_stop hs k
    · intro q hq
      refine hn q (List.perm_append_comm.mem_iff.mp ?_) fun e => hM (e ▸ hq)
      rw [he]
      exact List.mem_append_left _ hq

/-- The loop stops only at the last node below `bp`. -/
theorem Heap.stops (h : Heap base s L) (hb : base < bp) (hp : p ∈ base :: L) (hlt : p < bp)
    (hmax : ∀ x ∈ base :: L, x ≤ p ∨ bp < x) : Stops s bp p ∧ ∀ q ∈ base :: L, q ≠ p → ¬ Stops s bp q := by
  constructor
  · rcases h.cyc.sorted_next h.sorted hp with ⟨h1, h2, -⟩ | ⟨h1, h2⟩
    · rcases hmax _ h2 with h3 | h3
      · omega
      · exact Or.inl ⟨hlt, h3⟩
    · have := h2 base List.mem_cons_self
      exact Or.inr ⟨by omega, Or.inl hlt⟩
  · intro q hq hne hst
    have hqp := hmax q hq
    rcases h.cyc.sorted_next h.sorted hq with ⟨h1, -, h3⟩ | ⟨h1, h2⟩
    · have := h3 p hp
      unfold Stops at hst
      omega
    · have := h2 p hp
      unfold Stops at hst
      omega

/-- A live block's place: the nodes `X ++ [p]` below it and the blocks `B` above. -/
theorem Heap.place (h : Heap base s L) (hb : (bp, n) ∈ s.live) : ∃ A B, L = A ++ B ∧
    (∀ x ∈ A, x + 8 * s.size x ≤ bp) ∧ ∀ x ∈ B, bp + 8 * n ≤ x :=
  h.gaps.split (h.live _ hb).2.2.2

theorem find_spec (h : Heap base s (A ++ B)) (hlt : base < bp) (hn : 0 < n) (hA : ∀ x ∈ A, x + 8 * s.size x ≤ bp)
    (hB : ∀ x ∈ B, bp + 8 * n ≤ x) {X : List Nat} (hX : base :: A = X ++ [p]) {f : Nat} (hf : f ∈ base :: (A ++ B)) :
    findLoop s bp (s.obtained + 2) f = .ok p := by
  have hpm : p ∈ base :: A := by rw [hX]; simp
  have hs := h.sorted
  have hsA : (base :: A).Pairwise (· < ·) := hs.sublist (by simp)
  have hle : ∀ x ∈ base :: A, x ≤ p := by
    rw [hX] at hsA ⊢
    intro x hx
    rcases List.mem_append.mp hx with hx | hx
    · exact Nat.le_of_lt ((List.pairwise_append.mp hsA).2.2 x hx p (by simp))
    · exact Nat.le_of_eq (List.mem_singleton.mp hx)
  have hpb : p < bp := by
    rcases List.mem_cons.mp hpm with rfl | hp
    · exact hlt
    · have := hA p hp
      have := (h.gaps.mem (List.mem_append_left B hp)).2
      omega
  have hmem : p ∈ base :: (A ++ B) := by
    rcases List.mem_cons.mp hpm with rfl | hp
    · exact List.mem_cons_self
    · exact List.mem_cons_of_mem _ (List.mem_append_left _ hp)
  obtain ⟨h1, h2⟩ := h.stops hlt hmem hpb fun x hx => by
    rw [← List.cons_append] at hx
    rcases List.mem_append.mp hx with hx | hx
    · exact Or.inl (hle x hx)
    · have := hB x hx
      exact Or.inr (by omega)
  refine find_stop h.cyc hf hmem h1 h2 ?_
  have := h.gaps.length_le
  have := h.units
  rw [List.length_cons]
  omega

/-! ## `free` links the block in -/

/-- The first half of `link`: `bp` takes over the block behind it, or points to it. -/
def upper (s : St) (bp p : Nat) : St :=
  if bp + 8 * s.size bp = s.ptr p then
    (s.setSize bp (s.size bp + s.size (s.ptr p))).setPtr bp (s.ptr (s.ptr p))
  else s.setPtr bp (s.ptr p)

/-- The second half: the block in front takes over `bp`, or points to it. -/
def lower (s : St) (bp p : Nat) : St :=
  if p + 8 * s.size p = bp then (s.setSize p (s.size p + s.size bp)).setPtr p (s.ptr bp) else s.setPtr p bp

theorem link_eq (s : St) (bp p : Nat) : link s bp p = { lower (upper s bp p) bp p with freep := p } := rfl

/-- A block `(bp, n)` outside the list `base :: (A ++ B)`, between `X ++ [p] = base :: A` and `B`. -/
structure Between (base : Nat) (s : St) (A B X : List Nat) (p bp n : Nat) : Prop where
  heap : Heap base s (A ++ B)
  mem : (bp, n) ∈ s.live
  low : ∀ x ∈ A, x + 8 * s.size x ≤ bp
  high : ∀ x ∈ B, bp + 8 * n ≤ x
  last : base :: A = X ++ [p]

namespace Between

variable {X : List Nat}

theorem size_bp (h : Between base s A B X p bp n) : s.size bp = n := (h.heap.live _ h.mem).1
theorem pos (h : Between base s A B X p bp n) : 0 < n := (h.heap.live _ h.mem).2.1
theorem given (h : Between base s A B X p bp n) : Given base s bp n := (h.heap.live _ h.mem).2.2.1
theorem base_lt (h : Between base s A B X p bp n) : base < bp := by
  have := h.given.above
  omega

/-- The list, entered at `p`. -/
theorem nodes (h : Between base s A B X p bp n) : base :: (A ++ B) = X ++ p :: B := by
  rw [← List.cons_append, h.last, List.append_assoc]
  rfl

theorem below (h : Between base s A B X p bp n) {x : Nat} (hx : x ∈ base :: A) : x < bp := by
  rcases List.mem_cons.mp hx with rfl | hx
  · exact h.base_lt
  · have := h.low x hx
    have := (h.heap.gaps.mem (List.mem_append_left B hx)).2
    omega

theorem p_lt (h : Between base s A B X p bp n) : p < bp := h.below (by rw [h.last]; simp)

theorem ne_bp (h : Between base s A B X p bp n) {y : Nat} (hy : y ∈ B ++ X) : y ≠ bp := by
  have := h.pos
  rcases List.mem_append.mp hy with hy | hy
  · have := h.high y hy
    omega
  · have := h.below (x := y) (by rw [h.last]; exact List.mem_append_left _ hy)
    omega

theorem ne_p (h : Between base s A B X p bp n) {y : Nat} (hy : y ∈ B ++ X) : y ≠ p := by
  have hd : (X ++ p :: B).Nodup := h.nodes ▸ h.heap.nodup
  have hd' := List.nodup_cons.mp ((List.perm_middle.nodup_iff).mp hd)
  rintro rfl
  exact hd'.1 (List.perm_append_comm.mem_iff.mp hy)

theorem chain (h : Between base s A B X p bp n) : Chain s.ptr (p :: (B ++ X ++ [p])) := by
  have hc := h.heap.cyc
  rw [h.nodes, cyc_rotate] at hc
  exact hc

end Between

/-- What the first half of `link` makes: the block has `m` units and leads to the blocks `C`. -/
structure Raised (base : Nat) (s : St) (B X : List Nat) (p bp n m v : Nat) (C : List Nat) : Prop where
  chain : Chain (upd s.ptr bp v) (bp :: (C ++ X ++ [p]))
  gaps : Gaps s.size (bp + 8 * m) C
  sub : ∀ x ∈ C, x ∈ B
  le : n ≤ m
  given : Given base s bp m
  units : m + (C.map s.size).sum = n + (B.map s.size).sum
  apart : ∀ x ∈ s.live, Apart x (bp, n) → Apart x (bp, m)

theorem upper_spec {X : List Nat} (h : Between base s A B X p bp n) : ∃ m v C,
    upper s bp p = (s.setSize bp m).setPtr bp v ∧ Raised base s B X p bp n m v C := by
  have hchain := h.chain
  have hgB := (gaps_append.mp h.heap.gaps).2
  unfold upper
  rw [h.size_bp]
  split
  case isTrue hj =>
    -- the block behind `p` starts where `bp` ends, so it is not `base`
    cases B with
    | nil =>
      exfalso
      have hin : s.ptr p ∈ base :: A := by
        rw [h.last]
        cases X with
        | nil => rw [hchain.1]; simp
        | cons x X => rw [hchain.1]; simp
      have := h.below hin
      omega
    | cons q B =>
      have hq : s.ptr p = q := hchain.1
      rw [hq] at hj ⊢
      have hgq := h.heap.free q (by simp)
      refine ⟨n + s.size q, s.ptr q, B, rfl, ?_, ?_, fun x hx => List.mem_cons_of_mem _ hx, Nat.le_add_right _ _,
        h.given.join hj hgq, by simp [Nat.add_assoc], fun x hx ha => ?_⟩
      · exact Chain.rehead hchain.2 (upd_same _ _ _) fun y hy =>
          upd_ne (h.ne_bp (by rw [List.cons_append]; exact List.mem_cons_of_mem _ hy)) _
      · have he : bp + 8 * (n + s.size q) = q + 8 * s.size q := by omega
        rw [he]
        exact hgB.2.2
      · exact ha.join hj ((h.heap.live x hx).2.2.2 q (by simp)) (h.heap.live x hx).2.1
  case isFalse hj =>
    refine ⟨n, s.ptr p, B, ?_, ?_, ?_, fun x hx => hx, Nat.le_refl _, h.given, rfl, fun x _ ha => ha⟩
    · rw [← h.size_bp]
      simp [St.setSize, St.setPtr]
    · exact Chain.rehead hchain (upd_same _ _ _) fun y hy => upd_ne (h.ne_bp hy) _
    · refine hgB.bound fun x hx => ?_
      have hle := h.high x hx
      cases B with
      | nil => cases hx
      | cons q B =>
        have hq : s.ptr p = q := hchain.1
        rw [hq] at hj
        rcases List.mem_cons.mp hx with rfl | hx
        · omega
        · have := (hgB.2.2.mem hx).1
          have := h.high q (by simp)
          omega

/-- The blocks that stay live when `(bp, n)` is freed. -/
theorem Heap.rest (h : Heap base s L) (hb : (bp, n) ∈ s.live) :
    (∀ x ∈ s.live.erase (bp, n), x ∈ s.live ∧ Apart x (bp, n)) ∧ (s.live.erase (bp, n)).Pairwise Apart ∧
      (s.live.map Prod.snd).sum = n + ((s.live.erase (bp, n)).map Prod.snd).sum := by
  have hperm := List.perm_cons_erase hb
  have hpair := (hperm.pairwise_iff fun hab => Apart.symm hab).mp h.pair
  rw [List.pairwise_cons] at hpair
  refine ⟨fun x hx => ⟨List.mem_of_mem_erase hx, (hpair.1 x hx).symm⟩, hpair.2, ?_⟩
  rw [(hperm.map Prod.snd).sum_eq, List.map_cons, List.sum_cons]

/-- Blocks behind one another, `A`, then `(q, m)`, then `C`: the new list of free blocks. -/
theorem Between.rebuild {X C A' : List Nat} {m v q k : Nat} (h : Between base s A B X p bp n)
    (hr : Raised base s B X p bp n m v C) (hA' : ∀ x ∈ A', x ∈ A ∧ x ≠ q)
    (hA : (A'.map s.size).sum + k = (A.map s.size).sum + m)
    (hq : q = bp ∨ q ∈ A) (hptr : Cyc s'.ptr (base :: (A' ++ q :: C)))
    (hgap : Gaps s.size (base + 7) A') (hlast : endOf s.size (base + 7) A' < q) (hend : q + 8 * k = bp + 8 * m)
    (hgiven : Given base s q k) (hap : ∀ x ∈ s.live, Apart x (bp, n) → Apart x (q, k))
    (hsize : s'.size q = k ∧ ∀ y, y ≠ bp → y ≠ q → s'.size y = s.size y)
    (hs' : s' = { s with ptr := s'.ptr, size := s'.size, freep := p, live := s.live.erase (bp, n) })
    (hp : p = q ∨ p ∈ base :: A') : Heap base s' (A' ++ q :: C) := by
  obtain ⟨hrest, hpair, hsum⟩ := h.heap.rest h.mem
  have hm : 0 < k := by
    have := h.pos
    have := hr.le
    rcases hq with rfl | hq
    · omega
    · have := h.below (List.mem_cons_of_mem _ hq)
      omega
  have hbr : s'.brk = s.brk := by rw [hs']
  have hre : s'.regions = s.regions := by rw [hs']
  have hob : s'.obtained = s.obtained := by rw [hs']
  have hfp : s'.freep = p := by rw [hs']
  have hlv : s'.live = s.live.erase (bp, n) := by rw [hs']
  have hgive : ∀ {a j}, Given base s a j → Given base s' a j := fun hg =>
    ⟨hg.above, hbr ▸ hg.below, hre ▸ hg.inside⟩
  -- the sizes of the other free blocks are as before
  have hszA : ∀ y ∈ A', s'.size y = s.size y := fun y hy =>
    hsize.2 y (Nat.ne_of_lt (h.below (List.mem_cons_of_mem _ (hA' y hy).1))) (hA' y hy).2
  have hCgt : ∀ y ∈ C, q < y := fun y hy => by
    have := (hr.gaps.mem hy).1
    omega
  have hszC : ∀ y ∈ C, s'.size y = s.size y := fun y hy =>
    hsize.2 y (h.ne_bp (List.mem_append_left _ (hr.sub y hy))) (Nat.ne_of_gt (hCgt y hy))
  have hmem : ∀ y ∈ A' ++ q :: C, y = q ∨ (y ∈ A ++ B ∧ s'.size y = s.size y) := by
    intro y hy
    rcases List.mem_append.mp hy with hy | hy
    · exact Or.inr ⟨List.mem_append_left _ (hA' y hy).1, hszA y hy⟩
    · rcases List.mem_cons.mp hy with hy | hy
      · exact Or.inl hy
      · exact Or.inr ⟨List.mem_append_right _ (hr.sub y hy), hszC y hy⟩
  have hqne : ∀ y ∈ s.live, Apart y (bp, n) → y.1 ≠ q := by
    intro y hy hya
    have := hap y hy hya
    have := (h.heap.live y hy).2.1
    unfold Apart at *
    dsimp only at *
    omega
  constructor
  case cyc => exact hptr
  case gaps =>
    refine gaps_append.mpr ⟨hgap.congr hszA, endOf_congr hszA ▸ hlast, by rw [hsize.1]; exact hm, ?_⟩
    rw [hsize.1, hend]
    exact hr.gaps.congr hszC
  case zero =>
    have hb := h.base_lt
    rw [hsize.2 base (by omega), h.heap.zero]
    rcases hq with rfl | hq
    · omega
    · have := (h.heap.gaps.mem (List.mem_append_left B hq)).1
      omega
  case entry =>
    rw [hfp]
    rcases hp with rfl | hp
    · simp
    · rcases List.mem_cons.mp hp with rfl | hp
      · exact List.mem_cons_self
      · exact List.mem_cons_of_mem _ (List.mem_append_left _ hp)
  case free =>
    intro y hy
    rcases hmem y hy with rfl | ⟨hy, he⟩
    · rw [hsize.1]
      exact hgive hgiven
    · rw [he]
      exact hgive (h.heap.free y hy)
  case live =>
    intro x hx
    rw [hlv] at hx
    obtain ⟨hx, hxa⟩ := hrest x hx
    obtain ⟨h1, h2, h3, h4⟩ := h.heap.live x hx
    have hxb : x.1 ≠ bp := by
      have := h.pos
      unfold Apart at hxa
      dsimp only at hxa
      omega
    refine ⟨(hsize.2 _ hxb (hqne x hx hxa)).trans h1, h2, hgive h3, fun y hy => ?_⟩
    rcases hmem y hy with rfl | ⟨hy, he⟩
    · rw [hsize.1]
      exact hap x hx hxa
    · rw [he]
      exact h4 y hy
  case pair => rw [hlv]; exact hpair
  case units =>
    rw [hob, hlv, ← h.heap.units, hsum, List.map_append, List.map_cons, List.map_append,
      List.map_congr_left hszA, List.map_congr_left hszC, hsize.1]
    have := hr.units
    simp only [List.sum_append, List.sum_cons]
    omega
  case room => rw [hbr]; exact h.heap.room

theorem link_spec {X : List Nat} (h : Between base s A B X p bp n) : ∃ L',
    Heap base { link s bp p with live := s.live.erase (bp, n) } L' ∧ ∃ b ∈ L', n ≤ (link s bp p).size b := by
  obtain ⟨m, v, C, hu, hr⟩ := upper_spec h
  have hpb := h.p_lt
  have hsubC : ∀ y ∈ C ++ X, y ∈ B ++ X := by
    intro y hy
    rcases List.mem_append.mp hy with hy | hy
    · exact List.mem_append_left _ (hr.sub y hy)
    · exact List.mem_append_right _ hy
  have hgA := (gaps_append.mp h.heap.gaps).1
  rw [link_eq, hu]
  unfold lower
  simp only [St.setPtr, St.setSize, upd_same, upd_ne (Nat.ne_of_lt hpb)]
  split
  case isTrue hj =>
    -- `p` is not `base`, whose size is 0, so it is the last block of `A`
    have hX : ∃ A0, X = base :: A0 ∧ A = A0 ++ [p] := by
      have hl := h.last
      cases X with
      | nil =>
        have : p = base := by simpa using (congrArg List.head? hl).symm
        subst this
        rw [h.heap.zero] at hj
        omega
      | cons x A0 =>
        rw [List.cons_append, List.cons.injEq] at hl
        exact ⟨A0, by rw [hl.1], hl.2⟩
    obtain ⟨A0, hX, hA⟩ := hX
    have hpm : p ∈ A := by rw [hA]; simp
    obtain ⟨hg0, hg1, hg2, -⟩ := gaps_append.mp (hA ▸ hgA)
    refine ⟨A0 ++ p :: C, h.rebuild (k := s.size p + m) hr ?_ ?_ (Or.inr hpm) ?_ hg0 hg1 (by omega) ?_ ?_ ?_ rfl
      (Or.inl rfl), p, by simp, ?_⟩
    · intro x hx
      refine ⟨by rw [hA]; exact List.mem_append_left _ hx, h.ne_p (List.mem_append_right _ ?_)⟩
      rw [hX]
      exact List.mem_cons_of_mem _ hx
    · rw [hA]
      simp [Nat.add_assoc]
    · rw [← List.cons_append, cyc_rotate, ← hX]
      refine Chain.rehead hr.chain (by simp) fun y hy => ?_
      exact upd_ne (h.ne_p (hsubC y hy)) _
    · exact (h.heap.free p (List.mem_append_left _ hpm)).join hj hr.given
    · intro x hx hxa
      exact ((h.heap.live x hx).2.2.2 p (List.mem_append_left _ hpm)).join hj (hr.apart x hx hxa) (h.heap.live x hx).2.1
    · exact ⟨by simp, fun y h1 h2 => by simp [h1, h2]⟩
    · have := hr.le
      simp
      omega
  case isFalse hj =>
    refine ⟨A ++ bp :: C, h.rebuild (k := m) hr ?_ rfl (Or.inl rfl) ?_ hgA ?_ rfl hr.given hr.apart ?_ rfl ?_,
      bp, by simp, ?_⟩
    · exact fun x hx => ⟨hx, Nat.ne_of_lt (h.below (List.mem_cons_of_mem _ hx))⟩
    · have hn : base :: (A ++ bp :: C) = X ++ p :: bp :: C := by
        rw [← List.cons_append, h.last, List.append_assoc]
        rfl
      rw [hn, cyc_rotate]
      refine ⟨upd_same _ _ _, ?_⟩
      refine Chain.frame (l := bp :: (C ++ X)) hr.chain fun y hy => upd_ne ?_ _
      rcases List.mem_cons.mp hy with rfl | hy
      · omega
      · exact h.ne_p (hsubC y hy)
    · -- the block in front ends below `bp`
      have hl := h.last
      have hlow := h.given.above
      rcases List.eq_nil_or_concat A with rfl | ⟨A0, q, hA0⟩
      · exact hlow
      · rw [List.concat_eq_append] at hA0
        subst hA0
        rw [← List.cons_append] at hl
        have hq : q = p := (List.append_inj' hl rfl).2 |> List.singleton_inj.mp
        subst hq
        have := h.low q (by simp)
        rw [endOf_concat]
        omega
    · exact ⟨by simp, fun y h1 _ => by simp [h1]⟩
    · exact Or.inr (by rw [h.last]; simp)
    · simpa using hr.le

theorem freeBlock_spec (h : Heap base s L) (hb : (bp, n) ∈ s.live) :
    ∃ s' L', freeBlock s bp = .ok s' ∧ Heap base s' L' ∧
    (∃ b ∈ L', n ≤ s'.size b) ∧ s'.live = s.live.erase (bp, n) ∧ s'.brk = s.brk ∧ s'.regions = s.regions ∧
      s'.obtained = s.obtained := by
  obtain ⟨A, B, rfl, hA, hB⟩ := h.place hb
  obtain ⟨X, p, hX⟩ : ∃ X p, base :: A = X ++ [p] := by
    rcases List.eq_nil_or_concat (base :: A) with h0 | ⟨X, p, h0⟩
    · cases h0
    · exact ⟨X, p, h0.trans (List.concat_eq_append ..)⟩
  have hbt : Between base s A B X p bp n := ⟨h, hb, hA, hB, hX⟩
  obtain ⟨L', hL', b, hbL, hnb⟩ := link_spec hbt
  have hf := find_spec h hbt.base_lt hbt.pos hA hB hX h.entry
  refine ⟨{ link s bp p with live := s.live.erase (bp, n) }, L', ?_, hL', ⟨b, hbL, hnb⟩, rfl, ?_, ?_, ?_⟩
  · unfold freeBlock
    rw [hf, hbt.size_bp]
    rfl
  all_goals
    obtain ⟨m, v, C, hu, -⟩ := upper_spec hbt
    dsimp only
    rw [link_eq, hu]
    unfold lower
    split <;> rfl

end Xv6.User.Umalloc
