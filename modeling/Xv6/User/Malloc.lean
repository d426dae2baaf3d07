/-
  Xv6.User.Malloc — `malloc` keeps the free list, and fails only for lack of memory.

  A block is taken whole or its tail is split off (`take_spec`); memory from `sbrk` is a live block
  that `morecore` frees (`morecore_spec`), after which a block fits, so the second round over the
  list succeeds (`mallocLoop_spec`). Over every run: `free_list`.
-/
import Xv6.User.FreeList

namespace Xv6.User.Umalloc

variable {base bp n p prevp lo nu : Nat} {s s' : St} {L A B : List Nat}

/-! ## A block is taken -/

theorem Heap.free_apart (h : Heap base s L) {b c : Nat} (hb : b ∈ L) (hc : c ∈ L) (hne : b ≠ c) :
    Apart (b, s.size b) (c, s.size c) := by
  have hp : L.Pairwise fun x y => Apart (x, s.size x) (y, s.size y) :=
    h.gaps.sorted.imp fun hxy => Or.inl (Nat.le_of_lt hxy)
  have : Std.Symm fun x y => Apart (x, s.size x) (y, s.size y) := ⟨fun _ _ hxy => hxy.symm⟩
  exact hp.forall hb hc hne

/-- The whole block is taken out of the list. -/
theorem Heap.unlink (h : Heap base s L) (hprev : prevp ∈ base :: L) (hp : s.ptr prevp = p) (hpL : p ∈ L) :
    ∃ L', Heap base
      { s with ptr := upd s.ptr prevp (s.ptr p), freep := prevp, live := (p, s.size p) :: s.live } L' := by
  obtain ⟨A, B, rfl⟩ := List.append_of_mem hpL
  obtain ⟨X, q, hX⟩ : ∃ X q, base :: A = X ++ [q] := by
    rcases List.eq_nil_or_concat (base :: A) with h0 | ⟨X, q, h0⟩
    · cases h0
    · exact ⟨X, q, h0.trans (List.concat_eq_append ..)⟩
  have hnodes : base :: (A ++ p :: B) = X ++ q :: p :: B := by
    rw [← List.cons_append, hX, List.append_assoc]
    rfl
  have hcyc := h.cyc
  have hd := h.nodup
  rw [hnodes] at hcyc hd hprev
  have hq : q = prevp := by
    refine hcyc.inj hd (by simp) hprev ?_
    rw [cyc_rotate] at hcyc
    exact hcyc.1.trans hp.symm
  subst hq
  have hd' : (q :: p :: B ++ X).Nodup := List.perm_append_comm.nodup_iff.mp hd
  obtain ⟨hg1, hg2, hg3, hg4⟩ := gaps_append.mp h.gaps
  have hsub : ∀ b ∈ A ++ B, b ∈ A ++ p :: B ∧ p ≠ b := by
    intro b hb
    have hdp := List.nodup_cons.mp (List.perm_middle.nodup_iff.mp (List.nodup_cons.mp h.nodup).2)
    refine ⟨?_, fun e => hdp.1 (e ▸ hb)⟩
    rcases List.mem_append.mp hb with hb | hb
    · exact List.mem_append_left _ hb
    · exact List.mem_append_right _ (List.mem_cons_of_mem _ hb)
  refine ⟨A ++ B, ?_, ?_, h.zero, ?_, fun b hb => ?_, fun x hx => ?_, ?_, ?_, h.room⟩
  · have hnodes' : base :: (A ++ B) = X ++ q :: B := by
      rw [← List.cons_append, hX, List.append_assoc]
      rfl
    rw [hnodes', cyc_rotate]
    rw [cyc_rotate] at hcyc
    rw [List.cons_append, List.cons_append, List.nodup_cons, List.nodup_cons] at hd'
    exact Cyc.remove hcyc (fun hm => hd'.1 (List.mem_cons_of_mem _ hm)) hd'.2.1 (upd_same ..) fun y hy _ => upd_ne hy _
  · refine gaps_append.mpr ⟨hg1, hg4.bound fun x hx => ?_⟩
    have := (hg4.mem hx).1
    dsimp only
    omega
  · have : q ∈ base :: A := by rw [hX]; simp
    rcases List.mem_cons.mp this with hq | hq
    · exact hq ▸ List.mem_cons_self
    · exact List.mem_cons_of_mem _ (List.mem_append_left _ hq)
  · exact ⟨(h.free b (hsub b hb).1).above, (h.free b (hsub b hb).1).below, (h.free b (hsub b hb).1).inside⟩
  · rcases List.mem_cons.mp hx with rfl | hx
    · have hg := h.free p hpL
      exact ⟨rfl, hg3, ⟨hg.above, hg.below, hg.inside⟩,
        fun b hb => h.free_apart hpL (hsub b hb).1 (hsub b hb).2⟩
    · obtain ⟨h1, h2, h3, h4⟩ := h.live x hx
      exact ⟨h1, h2, ⟨h3.above, h3.below, h3.inside⟩, fun b hb => h4 b (hsub b hb).1⟩
  · exact List.pairwise_cons.mpr ⟨fun x hx => ((h.live x hx).2.2.2 p hpL).symm, h.pair⟩
  · rw [← h.units]
    simp only [List.map_append, List.map_cons, List.sum_append, List.sum_cons]
    omega

/-- The last `nu` units of a block are split off. -/
theorem Heap.cut (h : Heap base s L) (hpL : p ∈ L) (hprev : prevp ∈ base :: L) (hnu : 0 < nu) (hlt : nu < s.size p) :
    Heap base { s with
      size := upd (upd s.size p (s.size p - nu)) (p + 8 * (s.size p - nu)) nu
      freep := prevp, live := (p + 8 * (s.size p - nu), nu) :: s.live } L := by
  have hb : base < p := by
    have := (h.gaps.mem hpL).1
    omega
  have hsz : ∀ b ∈ L, b ≠ p →
      upd (upd s.size p (s.size p - nu)) (p + 8 * (s.size p - nu)) nu b = s.size b := by
    intro b hbL hne
    have hap := h.free_apart hbL hpL hne
    have := (h.gaps.mem hbL).2
    unfold Apart at hap
    dsimp only at hap
    rw [upd_ne (by omega), upd_ne hne]
  have hszp : upd (upd s.size p (s.size p - nu)) (p + 8 * (s.size p - nu)) nu p = s.size p - nu := by
    rw [upd_ne (by omega), upd_same]
  obtain ⟨A, B, rfl⟩ := List.append_of_mem hpL
  have hdp := List.nodup_cons.mp (List.perm_middle.nodup_iff.mp (List.nodup_cons.mp h.nodup).2)
  have hszA : ∀ b ∈ A, _ := fun b hb => hsz b (List.mem_append_left _ hb) fun e => hdp.1 (e ▸ List.mem_append_left _ hb)
  have hszB : ∀ b ∈ B, _ := fun b hb =>
    hsz b (List.mem_append_right _ (List.mem_cons_of_mem _ hb)) fun e => hdp.1 (e ▸ List.mem_append_right _ hb)
  obtain ⟨hg1, hg2, hg3, hg4⟩ := gaps_append.mp h.gaps
  have hgp := h.free p hpL
  refine ⟨h.cyc, ?_, ?_, hprev, fun b hbL => ?_, fun x hx => ?_, ?_, ?_, h.room⟩
  · refine gaps_append.mpr ⟨hg1.congr hszA, ?_, ?_, ?_⟩
    · rw [endOf_congr hszA]
      exact hg2
    · dsimp only
      rw [hszp]
      omega
    · dsimp only
      rw [hszp]
      refine (hg4.congr hszB).bound fun x hx => ?_
      have := (hg4.mem hx).1
      omega
  · dsimp only
    rw [upd_ne (by omega), upd_ne (by omega)]
    exact h.zero
  · dsimp only
    by_cases hbp : b = p
    · subst hbp
      rw [hszp]
      have hpart := hgp.part b (s.size b - nu) (Nat.le_refl _) (by omega)
      exact ⟨hpart.above, hpart.below, hpart.inside⟩
    · rw [hsz b hbL hbp]
      exact ⟨(h.free b hbL).above, (h.free b hbL).below, (h.free b hbL).inside⟩
  · rcases List.mem_cons.mp hx with rfl | hx
    · have hpart := hgp.part (p + 8 * (s.size p - nu)) nu (by omega) (by omega)
      refine ⟨upd_same .., hnu, ⟨hpart.above, hpart.below, hpart.inside⟩, fun b hbL => ?_⟩
      dsimp only
      by_cases hbp : b = p
      · subst hbp
        rw [hszp]
        exact Or.inr (Nat.le_refl _)
      · rw [hsz b hbL hbp]
        have hap := h.free_apart hbL hpL hbp
        unfold Apart at hap ⊢
        dsimp only at hap ⊢
        omega
    · obtain ⟨h1, h2, h3, h4⟩ := h.live x hx
      have hap := h4 p hpL
      unfold Apart at hap
      dsimp only at hap
      refine ⟨?_, h2, ⟨h3.above, h3.below, h3.inside⟩, fun b hbL => ?_⟩
      · dsimp only
        rw [upd_ne (by omega), upd_ne (by omega)]
        exact h1
      · dsimp only
        by_cases hbp : b = p
        · subst hbp
          rw [hszp]
          unfold Apart
          dsimp only
          omega
        · rw [hsz b hbL hbp]
          exact h4 b hbL
  · refine List.pairwise_cons.mpr ⟨fun x hx => ?_, h.pair⟩
    have hap := (h.live x hx).2.2.2 p hpL
    unfold Apart at hap ⊢
    dsimp only at hap ⊢
    omega
  · rw [← h.units]
    simp only [List.map_append, List.map_cons, List.sum_append, List.sum_cons]
    rw [List.map_congr_left hszA, List.map_congr_left hszB, hszp]
    omega

theorem take_spec (h : Heap base s L) (hprev : prevp ∈ base :: L) (hnu : 0 < nu) (hfit : nu ≤ s.size (s.ptr prevp)) :
    ∃ b L', (take s nu prevp (s.ptr prevp)).2 = b + 8 ∧ Heap base (take s nu prevp (s.ptr prevp)).1 L' ∧
      (take s nu prevp (s.ptr prevp)).1.live = (b, nu) :: s.live ∧ (take s nu prevp (s.ptr prevp)).1.brk = s.brk := by
  have hpm : s.ptr prevp ∈ base :: L := h.cyc.next_mem hprev
  have hpL : s.ptr prevp ∈ L := by
    rcases List.mem_cons.mp hpm with hb | hb
    · rw [hb, h.zero] at hfit
      omega
    · exact hb
  unfold take
  by_cases he : s.size (s.ptr prevp) = nu
  · obtain ⟨L', hL'⟩ := h.unlink hprev rfl hpL
    rw [he] at hL'
    rw [if_pos he]
    exact ⟨s.ptr prevp, L', rfl, hL', rfl, rfl⟩
  · rw [if_neg he]
    exact ⟨_, L, rfl, h.cut hpL hprev hnu (by omega), rfl, rfl⟩

/-- The memory from `sbrk` is a live block, until it is freed. -/
theorem Heap.grant {a : Nat} (h : Heap base s L) (ha : s.brk ≤ a) (hnu : 0 < nu) :
    Heap base (grant s a (a + nu * 8) nu) L := by
  have hold : ∀ {b k}, Given base s b k → Given base (Umalloc.grant s a (a + nu * 8) nu) b k := fun hg =>
    ⟨hg.above, by have := hg.below; show _ ≤ a + nu * 8; omega, fun x h1 h2 => by
      obtain ⟨r, hr, h3⟩ := hg.inside x h1 h2
      exact ⟨r, List.mem_cons_of_mem _ hr, h3⟩⟩
  have hlow : ∀ {b k}, Given base s b k → 0 < k → (Umalloc.grant s a (a + nu * 8) nu).size b = s.size b := fun hg hk =>
    upd_ne (by have := hg.below; omega) _
  have hsz : ∀ b ∈ L, (Umalloc.grant s a (a + nu * 8) nu).size b = s.size b := fun b hb =>
    hlow (h.free b hb) (h.gaps.mem hb).2
  have hroom := h.room
  refine ⟨h.cyc, h.gaps.congr hsz, ?_, h.entry, fun b hb => ?_, fun x hx => ?_, ?_, ?_, ?_⟩
  · exact (upd_ne (by omega) _).trans h.zero
  · rw [hsz b hb]
    exact hold (h.free b hb)
  · rcases List.mem_cons.mp hx with rfl | hx
    · refine ⟨upd_same .., hnu, ⟨by omega, ?_, fun x h1 h2 => ?_⟩, fun b hb => ?_⟩
      · show a + 8 * nu ≤ a + nu * 8
        omega
      · exact ⟨(a, a + nu * 8), List.mem_cons_self, h1, by dsimp only at h2 ⊢; omega⟩
      · rw [hsz b hb]
        have := (h.free b hb).below
        exact Or.inr (by dsimp only; omega)
    · obtain ⟨h1, h2, h3, h4⟩ := h.live x hx
      exact ⟨(hlow h3 h2).trans h1, h2, hold h3, fun b hb => by rw [hsz b hb]; exact h4 b hb⟩
  · refine List.pairwise_cons.mpr ⟨fun x hx => ?_, h.pair⟩
    have := (h.live x hx).2.2.1.below
    exact Or.inr (by dsimp only; omega)
  · show _ + (((a, nu) :: s.live).map Prod.snd).sum = s.obtained + (a + nu * 8 - a) / 8
    rw [List.map_congr_left hsz, ← h.units, Nat.add_sub_cancel_left, Nat.mul_div_cancel _ (by omega : 0 < 8)]
    simp only [List.map_cons, List.sum_cons]
    omega
  · show base + 8 ≤ a + nu * 8
    omega

def request (nu : Nat) : Nat := (if nu < 4096 then 4096 else nu) * 8

theorem morecore_spec {sbrk : Sbrk} (h : Heap base s L) (hnu : nu * 8 < 2 ^ 32) (hg : Grows sbrk s.brk (request nu)) :
    (sbrk s.brk (request nu) = none ∧ morecore sbrk s nu = .ok none) ∨
      ∃ s' L', morecore sbrk s nu = .ok (some s') ∧ Heap base s' L' ∧ s'.live = s.live ∧ (∃ b ∈ L', nu ≤ s'.size b) ∧
        s'.obtained ≤ s.obtained + nu + 4096 ∧ ∃ a, sbrk s.brk (request nu) = some (a, s'.brk) := by
  have hmod : (if nu < 4096 then 4096 else nu) * 8 % 2 ^ 32 = request nu :=
    Nat.mod_eq_of_lt (by split <;> omega)
  rcases hg with hg | ⟨a, ha, hg⟩
  · left
    refine ⟨hg, ?_⟩
    unfold morecore
    simp only [hmod, hg]
  · right
    generalize hk : (if nu < 4096 then 4096 else nu) = k at hmod
    have hreq : request nu = k * 8 := by rw [request, hk]
    have hkle : nu ≤ k ∧ 0 < k ∧ k ≤ nu + 4096 := by
      rw [← hk]
      split <;> omega
    have hgr := h.grant ha hkle.2.1
    obtain ⟨s', L', hf, hL', ⟨b, hb, hnb⟩, hlive, hbrk, -, hob⟩ := freeBlock_spec hgr List.mem_cons_self
    refine ⟨s', L', ?_, hL', ?_, ⟨b, hb, hkle.1.trans hnb⟩, ?_, a, ?_⟩
    · unfold morecore
      simp only [hk, hmod, hg]
      rw [hreq, hf]
      rfl
    · rw [hlive]
      exact List.erase_cons_head ..
    · rw [hob]
      show s.obtained + (a + k * 8 - a) / 8 ≤ _
      omega
    · rw [hg, hbrk, hreq]
      rfl

/-- The loop of `malloc` from a node on, up to `freep`: it takes the first block that fits, or asks for memory. -/
theorem mallocLoop_scan (sbrk : Sbrk) (nu : Nat) {a : Nat} {l : List Nat} (hc : Chain s.ptr (a :: (l ++ [s.freep])))
    (hl : s.freep ∉ l) (n : Nat) :
    (∃ b ∈ a :: l, nu ≤ s.size (s.ptr b) ∧ mallocLoop sbrk nu (n + (l.length + 1)) s a (s.ptr a) =
      .ok ((take s nu b (s.ptr b)).1, some (take s nu b (s.ptr b)).2)) ∨
    ((∀ b ∈ l ++ [s.freep], s.size b < nu) ∧
      (morecore sbrk s nu = .ok none → mallocLoop sbrk nu (n + (l.length + 1)) s a (s.ptr a) = .ok (s, none)) ∧
      ∀ s', morecore sbrk s nu = .ok (some s') →
        mallocLoop sbrk nu (n + (l.length + 1)) s a (s.ptr a) = mallocLoop sbrk nu n s' s'.freep
        (s'.ptr s'.freep)) := by
  induction l generalizing a with
  | nil =>
    have ha : s.ptr a = s.freep := hc.1
    by_cases hfit : s.size (s.ptr a) ≥ nu
    · exact Or.inl ⟨a, List.mem_cons_self, hfit, by rw [List.length_nil, mallocLoop, if_pos hfit]⟩
    · right
      refine ⟨fun b hb => ?_, fun hm => ?_, fun s' hm => ?_⟩
      · rw [List.mem_singleton.mp hb, ← ha]
        omega
      · rw [List.length_nil, mallocLoop, if_neg hfit, if_pos ha, hm]
        rfl
      · rw [List.length_nil, mallocLoop, if_neg hfit, if_pos ha, hm]
        rfl
  | cons c l ih =>
    have ha : s.ptr a = c := hc.1
    by_cases hfit : s.size (s.ptr a) ≥ nu
    · exact Or.inl ⟨a, List.mem_cons_self, hfit, by rw [List.length_cons, ← Nat.add_assoc, mallocLoop, if_pos hfit]⟩
    · have hne : s.ptr a ≠ s.freep := by
        rw [ha]
        exact fun e => hl (e ▸ List.mem_cons_self)
      have hstep : mallocLoop sbrk nu (n + ((c :: l).length + 1)) s a (s.ptr a) =
          mallocLoop sbrk nu (n + (l.length + 1)) s c (s.ptr c) := by
        rw [List.length_cons, ← Nat.add_assoc, mallocLoop, if_neg hfit, if_neg hne, ha]
      rw [hstep]
      rcases ih hc.2 (fun hm => hl (List.mem_cons_of_mem _ hm)) with ⟨b, hb, hbf, he⟩ | ⟨hno, he⟩
      · exact Or.inl ⟨b, List.mem_cons_of_mem _ hb, hbf, he⟩
      · refine Or.inr ⟨fun b hb => ?_, he⟩
        rcases List.mem_cons.mp hb with rfl | hb
        · rw [← ha]
          omega
        · exact hno b hb

/-- The list from `freep` on. -/
theorem Heap.fromEntry (h : Heap base s L) : ∃ l, Chain s.ptr (s.freep :: (l ++ [s.freep])) ∧ s.freep ∉ l ∧
    l.length = L.length ∧ (∀ b ∈ s.freep :: l, b ∈ base :: L) ∧ ∀ b ∈ L, b ∈ l ++ [s.freep] := by
  obtain ⟨l1, l2, he⟩ := List.append_of_mem h.entry
  have hcyc := h.cyc
  have hperm : (base :: L).Perm (s.freep :: (l2 ++ l1)) := by
    rw [he]
    exact List.perm_append_comm
  rw [he, cyc_rotate] at hcyc
  refine ⟨l2 ++ l1, hcyc, (List.nodup_cons.mp (hperm.nodup_iff.mp h.nodup)).1, ?_, fun b hb => hperm.mem_iff.mpr hb, ?_⟩
  · have := hperm.length_eq
    simpa using this.symm
  · intro b hb
    rcases List.mem_cons.mp (hperm.mem_iff.mp (List.mem_cons_of_mem _ hb)) with hb | hb
    · exact List.mem_append_right _ (List.mem_singleton.mpr hb)
    · exact List.mem_append_left _ hb


/-- What `malloc` gives back: a new live block, or nothing because no block fits and `sbrk` fails. -/
def Served (sbrk : Sbrk) (nu : Nat) (s s' : St) (L : List Nat) : Option Nat → Prop
  | some q => ∃ b, q = b + 8 ∧ s'.live = (b, nu) :: s.live
  | none => s' = s ∧ (∀ b ∈ L, s.size b < nu) ∧ sbrk s.brk (request nu) = none

/-- One round over the list, when some block fits. -/
theorem mallocLoop_fits (sbrk : Sbrk) {fuel : Nat} (h : Heap base s L) (hnu : 0 < nu) (hb : ∃ b ∈ L, nu ≤ s.size b)
    (hf : L.length + 1 ≤ fuel) : ∃ s' q L', mallocLoop sbrk nu fuel s s.freep (s.ptr s.freep) = .ok (s', some q) ∧
      Heap base s' L' ∧ (∃ b, q = b + 8 ∧ s'.live = (b, nu) :: s.live) ∧ s'.brk = s.brk := by
  obtain ⟨l, hc, hl, hlen, hsub, hall⟩ := h.fromEntry
  obtain ⟨k, rfl⟩ : ∃ k, fuel = k + (l.length + 1) := ⟨fuel - (l.length + 1), by omega⟩
  rcases mallocLoop_scan sbrk nu hc hl k with ⟨c, hcm, hfit, he⟩ | ⟨hno, -⟩
  · obtain ⟨b, L', h1, h2, h3, h4⟩ := take_spec h (hsub c hcm) hnu hfit
    exact ⟨_, _, L', he, h2, ⟨b, h1, h3⟩, h4⟩
  · obtain ⟨b, hb, hle⟩ := hb
    have := hno b (hall b hb)
    omega

theorem mallocLoop_spec {sbrk : Sbrk} (h : Heap base s L) (hnu : 0 < nu) (hlt : nu * 8 < 2 ^ 32)
    (hg : Grows sbrk s.brk (request nu)) {fuel : Nat} (hf : 2 * (s.obtained + nu + 4096) + 4 ≤ fuel) :
    ∃ s' r L', mallocLoop sbrk nu fuel s s.freep (s.ptr s.freep) = .ok (s', r) ∧ Heap base s' L' ∧
      Served sbrk nu s s' L r ∧ (s'.brk = s.brk ∨ ∃ a, sbrk s.brk (request nu) = some (a, s'.brk)) := by
  obtain ⟨l, hc, hl, hlen, hsub, hall⟩ := h.fromEntry
  have hlenL := h.gaps.length_le
  have hunits := h.units
  obtain ⟨k, rfl⟩ : ∃ k, fuel = k + (l.length + 1) := ⟨fuel - (l.length + 1), by omega⟩
  rcases mallocLoop_scan sbrk nu hc hl k with ⟨c, hcm, hfit, he⟩ | ⟨hno, hnone, hsome⟩
  · obtain ⟨b, L', h1, h2, h3, h4⟩ := take_spec h (hsub c hcm) hnu hfit
    exact ⟨_, _, L', he, h2, ⟨b, h1, h3⟩, Or.inl h4⟩
  rcases morecore_spec h hlt hg with ⟨h1, h2⟩ | ⟨s1, L1, h1, h2, h3, h4, h5, h6⟩
  · exact ⟨s, none, L, hnone h2, h, ⟨rfl, fun b hb => hno b (hall b hb), h1⟩, Or.inl rfl⟩
  · -- the new block fits, so the second round ends before `freep`
    have hlen1 := h2.gaps.length_le
    have hunits1 := h2.units
    obtain ⟨s', q, L', h7, h8, ⟨b, h9, h10⟩, h11⟩ := mallocLoop_fits sbrk h2 hnu h4 (by omega : _ ≤ k)
    refine ⟨s', some q, L', (hsome s1 h1).trans h7, h8, ⟨b, h9, h10.trans (by rw [h3])⟩, Or.inr ?_⟩
    rw [h11]
    exact h6

/-! ## Over every run -/

structure Fresh (base : Nat) (s : St) : Prop where
  freep : s.freep = 0
  live : s.live = []
  obtained : s.obtained = 0
  room : base + 8 ≤ s.brk

def Inv (base : Nat) (s : St) : Prop := 0 < base ∧ (Fresh base s ∨ ∃ L, Heap base s L)

theorem Heap.freep_ne (h : Heap base s L) (hb : 0 < base) : s.freep ≠ 0 := by
  rcases List.mem_cons.mp h.entry with he | he
  · omega
  · have := (h.gaps.mem he).1
    omega

theorem Fresh.heap (h : Fresh base s) : Heap base (first base s) [] := by
  unfold first
  rw [if_pos h.freep]
  refine ⟨⟨upd_same .., trivial⟩, trivial, upd_same .., List.mem_cons_self, nofun, fun x hx => ?_, ?_, ?_, h.room⟩
  · have hx : x ∈ s.live := hx
    rw [h.live] at hx
    cases hx
  · show s.live.Pairwise Apart
    rw [h.live]
    exact List.Pairwise.nil
  · show _ + (s.live.map Prod.snd).sum = s.obtained
    rw [h.live, h.obtained]
    rfl

/-- After the first lines of `malloc` there is a list. -/
theorem Inv.first (h : Inv base s) : ∃ L, Heap base (first base s) L := by
  obtain ⟨hb, h | ⟨L, h⟩⟩ := h
  · exact ⟨[], h.heap⟩
  · rw [Umalloc.first, if_neg (h.freep_ne hb)]
    exact ⟨L, h⟩

theorem first_fields (base : Nat) (s : St) : (first base s).live = s.live ∧ (first base s).brk = s.brk := by
  unfold first
  split <;> exact ⟨rfl, rfl⟩

theorem malloc_spec {sbrk : Sbrk} {nbytes : Nat} (h : Heap base (first base s) L) (hlt : nunits nbytes * 8 < 2 ^ 32)
    (hg : Grows sbrk s.brk (request (nunits nbytes))) :
    ∃ s' r L', malloc base sbrk s nbytes = .ok (s', r) ∧ Heap base s' L' ∧
      Served sbrk (nunits nbytes) (first base s) s' L r ∧
      (s'.brk = s.brk ∨ ∃ a, sbrk s.brk (request (nunits nbytes)) = some (a, s'.brk)) := by
  have hb := (first_fields base s).2
  rw [← hb] at hg ⊢
  exact mallocLoop_spec h (Nat.succ_pos _) hlt hg (Nat.le_refl _)

theorem Heap.writes (h : Heap base s L) (hw : Writes s s') : Heap base s' L := by
  have hlive : s'.live = s.live := by rw [hw.same]
  have hbrk : s'.brk = s.brk := by rw [hw.same]
  have hreg : s'.regions = s.regions := by rw [hw.same]
  have hgive : ∀ {a k}, Given base s a k → Given base s' a k := fun hg =>
    ⟨hg.above, hbrk ▸ hg.below, hreg ▸ hg.inside⟩
  -- no header lies in the payload of a live block
  have hnode : ∀ b ∈ base :: L, s'.ptr b = s.ptr b ∧ s'.size b = s.size b := by
    intro b hb
    refine hw.out b fun x hx => ?_
    obtain ⟨-, h2, h3, h4⟩ := h.live x hx
    rcases List.mem_cons.mp hb with rfl | hb
    · have := h3.above
      omega
    · have hap := h4 b hb
      have := (h.gaps.mem hb).2
      unfold Apart at hap
      dsimp only at hap
      omega
  have hsz : ∀ b ∈ L, s'.size b = s.size b := fun b hb => (hnode b (List.mem_cons_of_mem _ hb)).2
  have hhead : ∀ x ∈ s.live, s'.size x.1 = s.size x.1 := by
    intro x hx
    refine (hw.out x.1 fun y hy => ?_).2
    by_cases he : x = y
    · subst he
      exact Or.inl (Nat.le_refl _)
    · have : Std.Symm Apart := ⟨fun _ _ hxy => hxy.symm⟩
      have hap := h.pair.forall hx hy he
      have := (h.live x hx).2.1
      unfold Apart at hap
      omega
  refine ⟨h.cyc.frame fun b hb => (hnode b hb).1, h.gaps.congr hsz, ?_, ?_, fun b hb => ?_, fun x hx => ?_, ?_, ?_, ?_⟩
  · exact (hnode base List.mem_cons_self).2.trans h.zero
  · have : s'.freep = s.freep := by rw [hw.same]
    rw [this]
    exact h.entry
  · rw [hsz b hb]
    exact hgive (h.free b hb)
  · rw [hlive] at hx
    obtain ⟨h1, h2, h3, h4⟩ := h.live x hx
    exact ⟨(hhead x hx).trans h1, h2, hgive h3, fun b hb => by rw [hsz b hb]; exact h4 b hb⟩
  · rw [hlive]
    exact h.pair
  · have : s'.obtained = s.obtained := by rw [hw.same]
    rw [this, hlive, List.map_congr_left hsz]
    exact h.units
  · rw [hbrk]
    exact h.room

theorem Inv.writes (h : Inv base s) (hw : Writes s s') : Inv base s' := by
  refine ⟨h.1, ?_⟩
  rcases h.2 with h | ⟨L, h⟩
  · left
    rw [hw.same]
    exact ⟨h.freep, h.live, h.obtained, h.room⟩
  · exact Or.inr ⟨L, h.writes hw⟩

theorem Inv.freeBlock (h : Inv base s) (hb : (bp, n) ∈ s.live) :
    ∃ s', Umalloc.freeBlock s bp = .ok s' ∧ Inv base s' := by
  rcases h.2 with hf | ⟨L, hL⟩
  · rw [hf.live] at hb
    cases hb
  · obtain ⟨s', L', h1, h2, -⟩ := freeBlock_spec hL hb
    exact ⟨s', h1, h.1, Or.inr ⟨L', h2⟩⟩

theorem reach_inv (h : Reach base s) : Inv base s := by
  induction h with
  | init ptr size brk h0 hb => exact ⟨h0, Or.inl ⟨rfl, rfl, rfl, hb⟩⟩
  | malloc sbrk nbytes _ hlt hg he ih =>
    obtain ⟨L, hL⟩ := ih.first
    have hlt' : nunits nbytes * 8 < 2 ^ 32 := by omega
    obtain ⟨s1, r, L', h1, h2, -⟩ := malloc_spec hL hlt' (hg _ _)
    rw [h1, Except.ok.injEq, Prod.mk.injEq] at he
    exact ⟨ih.1, Or.inr ⟨L', he.1 ▸ h2⟩⟩
  | free bp n _ hb he ih =>
    obtain ⟨s1, h1, h2⟩ := ih.freeBlock hb
    rw [h1, Except.ok.injEq] at he
    exact he ▸ h2
  | writes _ hw ih => exact ih.writes hw

structure FreeList (base : Nat) (s : St) (L : List Nat) : Prop where
  /-- one cycle, with `base` and `freep` on it -/
  cyc : Cyc s.ptr (base :: L)
  entry : s.freep ∈ base :: L
  /-- from `base` on the addresses increase, up to the link back to `base` -/
  sorted : (base :: L).Pairwise (· < ·)
  zero : s.size base = 0
  nonempty : ∀ b ∈ L, 0 < s.size b
  /-- disjoint, with a gap between any two -/
  coalesced : L.Pairwise fun x y => x + 8 * s.size x < y
  apart : ∀ b ∈ L, ∀ x ∈ s.live, Apart x (b, s.size b)
  units : (L.map s.size).sum + (s.live.map Prod.snd).sum = s.obtained
  /-- the search loop of `free` ends, wherever on the list it starts -/
  search : ∀ x ∈ s.live, ∀ f ∈ base :: L, ∃ p ∈ base :: L, findLoop s x.1 (s.obtained + 2) f = .ok p

theorem Heap.freeList (h : Heap base s L) : FreeList base s L where
  cyc := h.cyc
  entry := h.entry
  sorted := h.sorted
  zero := h.zero
  nonempty b hb := (h.gaps.mem hb).2
  coalesced := h.gaps.sorted
  apart b hb x hx := (h.live x hx).2.2.2 b hb
  units := h.units
  search x hx f hf := by
    obtain ⟨A, B, rfl, hA, hB⟩ := h.place hx
    obtain ⟨X, p, hX⟩ : ∃ X p, base :: A = X ++ [p] := by
      rcases List.eq_nil_or_concat (base :: A) with h0 | ⟨X, p, h0⟩
      · cases h0
      · exact ⟨X, p, h0.trans (List.concat_eq_append ..)⟩
    have hbt : Between base s A B X p x.1 x.2 := ⟨h, hx, hA, hB, hX⟩
    exact ⟨p, by rw [hbt.nodes]; simp, find_spec h hbt.base_lt hbt.pos hA hB hX hf⟩

/-- After any run of `malloc` and `free` the free list is circular, ordered and coalesced; a live block can be freed,
    and
    `malloc` gives a new live block, or nothing where no block fits and `morecore` fails. -/
theorem free_list (h : Reach base s) :
    ((s.freep = 0 ∧ s.live = [] ∧ s.obtained = 0) ∨ ∃ L, FreeList base s L) ∧
    (∀ bp n, (bp, n) ∈ s.live → ∃ s', freeBlock s bp = .ok s') ∧
    ∀ sbrk nbytes, nunits nbytes * 8 < 2 ^ 31 → (∀ brk n, Grows sbrk brk n) →
      ∃ s' r L, malloc base sbrk s nbytes = .ok (s', r) ∧ FreeList base (first base s) L ∧
        (∀ q, r = some q → ∃ b, q = b + 8 ∧ s'.live = (b, nunits nbytes) :: s.live) ∧
        (r = none → s' = first base s ∧ (∀ b ∈ base :: L, s'.size b < nunits nbytes) ∧
          morecore sbrk s' (nunits nbytes) = .ok none) := by
  have hi := reach_inv h
  refine ⟨?_, fun bp n hb => ?_, fun sbrk nbytes hlt hg => ?_⟩
  · rcases hi.2 with hf | ⟨L, hL⟩
    · exact Or.inl ⟨hf.freep, hf.live, hf.obtained⟩
    · exact Or.inr ⟨L, hL.freeList⟩
  · obtain ⟨s', h1, -⟩ := hi.freeBlock hb
    exact ⟨s', h1⟩
  · obtain ⟨L, hL⟩ := hi.first
    have hlt' : nunits nbytes * 8 < 2 ^ 32 := by omega
    obtain ⟨s', r, L', h1, -, h3, -⟩ := malloc_spec hL hlt' (hg _ _)
    rw [← (first_fields base s).1]
    refine ⟨s', r, L, h1, hL.freeList, fun q hq => ?_, ?_⟩
    · rw [hq] at h3
      exact h3
    rintro rfl
    obtain ⟨h4, h5, h6⟩ := h3
    subst h4
    refine ⟨rfl, fun b hb => ?_, ?_⟩
    · rcases List.mem_cons.mp hb with rfl | hb
      · rw [hL.zero]
        exact Nat.succ_pos _
      · exact h5 b hb
    · rcases morecore_spec hL hlt' (hg _ _) with ⟨-, h7⟩ | ⟨s1, -, -, -, -, -, -, a, h7⟩
      · exact h7
      · rw [h6] at h7
        cases h7

theorem free_list_split : ∃ s, Reach 8 s ∧ s.live = [(32760, 3)] ∧ ∃ L, FreeList 8 s L := by
  have hg : ∀ brk n, Grows (fun brk n => some (brk, brk + n)) brk n := fun brk n => Or.inr ⟨brk, Nat.le_refl _, rfl⟩
  have h0 : Reach 8 (init (fun _ => 0) (fun _ => 0) 16) := Reach.init _ _ _ (by decide) (by decide)
  have hr := h0.malloc _ 10 (by decide) hg rfl
  refine ⟨_, hr, rfl, ?_⟩
  rcases (free_list hr).1 with ⟨h1, -⟩ | hL
  · cases h1
  · exact hL

end Xv6.User.Umalloc
