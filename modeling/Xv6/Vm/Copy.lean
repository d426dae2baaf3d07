/-
  Xv6.Vm.Copy — `copyin`, `copyout` and `copyinstr` byte by byte.

  `Acc v va`: user address `va` lies in a page `v` binds with V and U; it is then found at
  `tr v va`. The loops go page by page and stop at the first page that is not
  accessible, so what they have moved is the longest accessible run of bytes, cut at the
  length asked for. The topmost page is not accessible, so no run goes past it.
-/
import Xv6.Vm.Refine

namespace Xv6.Vm

variable {s s' : St} {E : Panic → St → Prop} {v : Nat → Option (Nat × Nat)} {src : Nat → UInt8}
  {pt va dst srcva dstva off len max fuel p q n f fl x k : Nat} {m : Nat → UInt8} {j : Nat}

def UserPage (v : Nat → Option (Nat × Nat)) (p : Nat) : Prop :=
  ∃ f fl, v p = some (f, fl) ∧ fl &&& PTE_V ≠ 0 ∧ fl &&& PTE_U ≠ 0

def Acc (v : Nat → Option (Nat × Nat)) (va : Nat) : Prop := va < 2 ^ 32 ∧ UserPage v (va / 4096)

def tr (v : Nat → Option (Nat × Nat)) (va : Nat) : Nat := userFrame (v (va / 4096)) + va % 4096

/-- A user page table: the topmost two pages are there, but not for the user; every user page has a frame of its own,
    which is
    not a page of the table. -/
structure UserTable (m : Nat → UInt8) (pt : Nat) : Prop where
  skel : Skel m pt
  trampoline : ∃ f fl, view m pt (TRAMPOLINE / 4096) = some (f, fl) ∧ fl &&& PTE_U = 0
  trapframe : ∃ f fl, view m pt (TRAPFRAME / 4096) = some (f, fl) ∧ fl &&& PTE_U = 0
  frame : ∀ p f fl, view m pt p = some (f, fl) → fl &&& PTE_U ≠ 0 → f ≠ 0 ∧ f ∉ nodes m pt
  inj : ∀ p q f fl fl', view m pt p = some (f, fl) → view m pt q = some (f, fl') → fl &&& PTE_U ≠ 0 →
    fl' &&& PTE_U ≠ 0 → p = q

theorem view_V (h : view m pt p = some (f, fl)) : fl &&& PTE_V ≠ 0 := by
  obtain ⟨c, -, hl⟩ := view_some h
  rw [← (leaf_some hl).2.2, flags_and (by decide)]
  exact (leaf_some hl).1

theorem userFrame_some (h : fl &&& PTE_U ≠ 0) : userFrame (some (f, fl)) = f := if_neg h

/-- `walkaddr` answers 0 just where the page is not accessible. -/
theorem acc_iff (h : UserTable m pt) (hva : va < 2 ^ 32) :
    Acc (view m pt) va ↔ userFrame (view m pt (va / 4096)) ≠ 0 := by
  constructor
  · rintro ⟨-, f, fl, hv, -, hU⟩
    rw [hv, userFrame_some hU]
    exact (h.frame _ f fl hv hU).1
  · intro h0
    cases hv : view m pt (va / 4096) with
    | none =>
      rw [hv] at h0
      exact absurd rfl h0
    | some b =>
      obtain ⟨f, fl⟩ := b
      rw [hv] at h0
      refine ⟨hva, f, fl, hv, view_V hv, fun hU => h0 ?_⟩
      exact if_pos hU

/-- The topmost page is not accessible. -/
theorem acc_lt (h : UserTable m pt) (ha : Acc (view m pt) va) : va < TRAMPOLINE := by
  obtain ⟨hlt, f, fl, hv, -, hU⟩ := ha
  by_contra hge
  have hge : 0xFFFFF000 ≤ va := Nat.not_lt.mp hge
  obtain ⟨g, gl, hg, hgU⟩ := h.trampoline
  rw [show va / 4096 = TRAMPOLINE / 4096 by show va / 4096 = 0xFFFFF000 / 4096; omega, hg] at hv
  cases hv
  exact hU hgU

/-- The bytes behind an accessible one, up to the end of its page. -/
theorem acc_page (h : Acc v va) (hk : va % 4096 + k < 4096) :
    Acc v (va + k) ∧ tr v (va + k) = userFrame (v (va / 4096)) + va % 4096 + k := by
  have hd : (va + k) / 4096 = va / 4096 := by omega
  obtain ⟨hlt, hb⟩ := h
  refine ⟨⟨by omega, by rw [hd]; exact hb⟩, ?_⟩
  unfold tr
  rw [hd]
  omega

/-! ## One page of a range -/

theorem round_div : PGROUNDDOWN va / 2 ^ 12 = va / 4096 := by
  show va / 4096 * 4096 / 2 ^ 12 = _
  omega

theorem round_lt (h : va < 2 ^ 32) : PGROUNDDOWN va < 2 ^ 32 := by
  show va / 4096 * 4096 < _
  omega

theorem sub_round : va - PGROUNDDOWN va = va % 4096 := by
  show va - va / 4096 * 4096 = _
  omega

/-- The rest of the page, or the rest of the range. -/
theorem chunk (h : min (PGSIZE - va % 4096) len = n) :
    n ≤ len ∧ (n = 4096 - va % 4096 ∨ n = len ∧ n ≤ 4096 - va % 4096) := by
  have : PGSIZE = 4096 := rfl
  omega

theorem next_page (h : va < 0xFFFFF000) (hn : n = 4096 - va % 4096) : (PGROUNDDOWN va + PGSIZE) % 2 ^ 32 = va + n := by
  show (va / 4096 * 4096 + 4096) % 2 ^ 32 = _
  omega

/-- All `len` bytes from `va` on are accessible, or `va + j` is the first that is not. -/
def Ends (v : Nat → Option (Nat × Nat)) (va len j : Nat) (r : Int) : Prop :=
  r = 0 ∧ j = len ∨ r = -1 ∧ j < len ∧ ¬ Acc v (va + j)

theorem Ends.shift {r : Int} (h : Ends v (va + n) (len - n) j r) (hn : n ≤ len) : Ends v va len (n + j) r := by
  rcases h with ⟨hr, hj⟩ | ⟨hr, hj, hna⟩
  · exact Or.inl ⟨hr, by omega⟩
  · exact Or.inr ⟨hr, by omega, by rw [← Nat.add_assoc]; exact hna⟩

/-! ## copyin -/

def SameRam (s s' : St) : Prop := s'.mem = s.mem ∧ s'.freelist = s.freelist ∧ s'.refuse = s.refuse

theorem copyinLoop_spec (h : UserTable s.mem pt) (hva : srcva < 2 ^ 32) (hfuel : len ≤ fuel) :
    wp (copyinLoop pt fuel dst srcva len) (fun r s' => SameRam s s' ∧ ∃ j ≤ len,
      (∀ k < j, Acc (view s.mem pt) (srcva + k)) ∧
      s'.kern = blit s.kern dst j (fun k => s.mem (tr (view s.mem pt) (srcva + k))) ∧
      Ends (view s.mem pt) srcva len j r) E s := by
  induction fuel generalizing s dst srcva len with
  | zero =>
    unfold copyinLoop
    refine wp_neg (by omega) ?_
    rw [wp_pure]
    exact ⟨⟨rfl, rfl, rfl⟩, 0, Nat.zero_le _, fun k hk => absurd hk (by omega), blit_zero.symm, Or.inl ⟨rfl, by omega⟩⟩
  | succ fuel ih =>
    unfold copyinLoop
    refine wp_ite (fun hlen => ?_) fun hlen => ?_
    · rw [wp_bind]
      refine walkaddr_spec h.skel (round_lt hva) ?_
      rw [round_div]
      refine wp_ite (fun h0 => ?_) fun h0 => ?_
      · rw [wp_pure]
        refine ⟨⟨rfl, rfl, rfl⟩, 0, Nat.zero_le _, fun k hk => absurd hk (by omega), blit_zero.symm,
          Or.inr ⟨rfl, hlen, ?_⟩⟩
        exact fun ha => (acc_iff h hva).mp ha h0
      · have hacc := (acc_iff h hva).mpr h0
        have htop : srcva < 0xFFFFF000 := acc_lt h hacc
        rw [wp_bind, wp_modify, sub_round]
        generalize hn : min (PGSIZE - srcva % 4096) len = n
        obtain ⟨hn1, hn2⟩ := chunk hn
        have hpg : ∀ k < n, Acc (view s.mem pt) (srcva + k) ∧
            tr (view s.mem pt) (srcva + k) = userFrame (view s.mem pt (srcva / 4096)) + srcva % 4096 + k :=
          fun k hk => acc_page hacc (by omega)
        refine (ih (by exact h) (Nat.mod_lt _ (by decide)) (by omega)).imp fun r s' => ?_
        rintro ⟨hsame, j, hj, hac, hker, hr⟩
        dsimp only at hac hker hr
        by_cases he : n = len
        · -- the last page: the rest of the loop does nothing
          have hj0 : j = 0 := by omega
          subst hj0
          rw [blit_zero] at hker
          refine ⟨hsame, len, Nat.le_refl _, fun k hk => (hpg k (by omega)).1, ?_, ?_⟩
          · rw [hker, he]
            exact blit_congr fun k hk => by rw [(hpg k (by omega)).2]
          · rcases hr with ⟨hr, -⟩ | ⟨-, hlt, -⟩
            · exact Or.inl ⟨hr, rfl⟩
            · omega
        · have hva' : (PGROUNDDOWN srcva + PGSIZE) % 2 ^ 32 = srcva + n :=
            next_page htop (hn2.resolve_right fun h => he h.1)
          rw [hva'] at hac hker hr
          refine ⟨hsame, n + j, by omega, fun k hk => ?_, ?_, ?_⟩
          · by_cases hk' : k < n
            · exact (hpg k hk').1
            · have := hac (k - n) (by omega)
              rwa [show srcva + n + (k - n) = srcva + k by omega] at this
          · rw [hker]
            exact blit_append (fun i hi => by rw [(hpg i hi).2]) fun i _ => by rw [Nat.add_assoc]
          · exact hr.shift hn1
    · rw [wp_pure]
      exact ⟨⟨rfl, rfl, rfl⟩, 0, Nat.zero_le _, fun k hk => absurd hk (by omega), blit_zero.symm,
        Or.inl ⟨rfl, by omega⟩⟩

/-! ## copyout -/

/-- Different accessible bytes are at different places. -/
theorem tr_inj {a b : Nat} (h : UserTable m pt) (ha : Acc (view m pt) a) (hb : Acc (view m pt) b)
    (he : tr (view m pt) a = tr (view m pt) b) : a = b := by
  obtain ⟨-, f, fl, hf, -, hU⟩ := ha
  obtain ⟨-, g, gl, hg, -, hgU⟩ := hb
  unfold tr at he
  rw [hf, hg, userFrame_some hU, userFrame_some hgU] at he
  have h1 := view_aligned hf
  have h2 := view_aligned hg
  have hfg : f = g := by omega
  subst hfg
  have hp := h.inj _ _ f fl gl hf hg hU hgU
  omega

/-- A user page is written; the table stays as it is. -/
theorem UserTable.write {m' : Nat → UInt8} (h : UserTable m pt) (hv : view m pt p = some (f, fl))
    (hU : fl &&& PTE_U ≠ 0) (hm : SameOff {f} m m') : UserTable m' pt ∧ view m' pt = view m pt := by
  have hS : ∀ t ∈ nodes m pt, t ∉ ({f} : Set Nat) := fun t ht he =>
    (h.frame p f fl hv hU).2 (Set.mem_singleton_iff.mp he ▸ ht)
  have hc := root_congr h.skel.root hm (hS pt (root_mem m pt))
  have hview := view_congr h.skel hm hS
  refine ⟨⟨h.skel.of_root hc, ?_, ?_, ?_, ?_⟩, hview⟩
  · rw [hview]
    exact h.trampoline
  · rw [hview]
    exact h.trapframe
  · rw [hview, hc.nodes]
    exact h.frame
  · rw [hview]
    exact h.inj

/-- The `j` bytes of `src` from `off` on are at `dstva` now, and nothing else has changed. -/
structure Wrote (pt : Nat) (src : Nat → UInt8) (s : St) (dstva off j : Nat) (s' : St) : Prop where
  table : UserTable s'.mem pt
  same : view s'.mem pt = view s.mem pt
  kern : s'.kern = s.kern
  free : s'.freelist = s.freelist
  acc : ∀ k < j, Acc (view s.mem pt) (dstva + k)
  set : ∀ k < j, s'.mem (tr (view s.mem pt) (dstva + k)) = src (off + k)
  keep : ∀ x, (∀ k < j, x ≠ tr (view s.mem pt) (dstva + k)) → s'.mem x = s.mem x

theorem Wrote.nil (h : UserTable s.mem pt) : Wrote pt src s dstva off 0 s :=
  ⟨h, rfl, rfl, rfl, fun k hk => absurd hk (by omega), fun k hk => absurd hk (by omega), fun _ _ => rfl⟩

/-- Nothing is written, wherever that is. -/
theorem Wrote.zero {a o : Nat} (h : Wrote pt src s dstva off 0 s') : Wrote pt src s a o 0 s' :=
  ⟨h.table, h.same, h.kern, h.free, fun k hk => absurd hk (by omega), fun k hk => absurd hk (by omega),
    fun x _ => h.keep x fun k hk => absurd hk (by omega)⟩

theorem Wrote.page (h : UserTable s.mem pt) (ha : Acc (view s.mem pt) dstva) (hn : dstva % 4096 + n ≤ 4096) :
    Wrote pt src s dstva off n
      { s with
        mem := blit s.mem (userFrame (view s.mem pt (dstva / 4096)) + dstva % 4096) n fun k => src (off + k) } := by
  have hpg : ∀ k < n, Acc (view s.mem pt) (dstva + k) ∧
      tr (view s.mem pt) (dstva + k) = userFrame (view s.mem pt (dstva / 4096)) + dstva % 4096 + k :=
    fun k hk => acc_page ha (by omega)
  obtain ⟨-, f, fl, hv, -, hU⟩ := id ha
  rw [hv, userFrame_some hU] at hpg ⊢
  have hal := view_aligned hv
  have hoff : SameOff {f} s.mem (blit s.mem (f + dstva % 4096) n fun k => src (off + k)) := SameOff.blit fun k hk => by
    rw [Nat.add_assoc, page_add hal (by omega)]
    exact Set.mem_singleton f
  obtain ⟨h₁, hv1⟩ := h.write hv hU hoff
  refine ⟨h₁, hv1, rfl, rfl, fun k hk => (hpg k hk).1, fun k hk => ?_, fun x hx => ?_⟩
  · rw [(hpg k hk).2]
    dsimp only
    exact blit_in hk
  · dsimp only
    refine blit_out ?_
    by_contra hc
    refine hx (x - (f + dstva % 4096)) (by omega) ?_
    rw [(hpg _ (by omega)).2]
    omega

theorem Wrote.trans {s1 s2 : St} (h : UserTable s.mem pt) (h₁ : Wrote pt src s dstva off n s1)
    (h₂ : Wrote pt src s1 (dstva + n) (off + n) j s2) : Wrote pt src s dstva off (n + j) s2 := by
  have hac2 := h₂.acc
  have hset2 := h₂.set
  have hkeep2 := h₂.keep
  rw [h₁.same] at hac2 hset2 hkeep2
  have hac : ∀ k < n + j, Acc (view s.mem pt) (dstva + k) := fun k hk => by
    by_cases hk' : k < n
    · exact h₁.acc k hk'
    · have := hac2 (k - n) (by omega)
      rwa [show dstva + n + (k - n) = dstva + k by omega] at this
  refine ⟨h₂.table, h₂.same.trans h₁.same, h₂.kern.trans h₁.kern, h₂.free.trans h₁.free, hac, fun k hk => ?_,
    fun x hx => ?_⟩
  · by_cases hk' : k < n
    · -- what the first part wrote is not where the second part writes
      rw [hkeep2 _ fun i hi he => ?_]
      · exact h₁.set k hk'
      · have := tr_inj h (hac k hk) (hac2 i hi) he
        omega
    · have := hset2 (k - n) (by omega)
      rwa [show dstva + n + (k - n) = dstva + k by omega, show off + n + (k - n) = off + k by omega] at this
  · rw [hkeep2 x fun i hi => ?_]
    · exact h₁.keep x fun k hk => hx k (by omega)
    · have := hx (n + i) (by omega)
      rwa [← Nat.add_assoc] at this

theorem copyoutLoop_spec (h : UserTable s.mem pt) (hva : dstva < 2 ^ 32) (hfuel : len ≤ fuel) :
    wp (copyoutLoop pt src fuel dstva off len) (fun r s' => ∃ j ≤ len, Wrote pt src s dstva off j s' ∧
      Ends (view s.mem pt) dstva len j r) E s := by
  induction fuel generalizing s dstva off len with
  | zero =>
    unfold copyoutLoop
    refine wp_neg (by omega) ?_
    rw [wp_pure]
    exact ⟨0, Nat.zero_le _, Wrote.nil h, Or.inl ⟨rfl, by omega⟩⟩
  | succ fuel ih =>
    unfold copyoutLoop
    refine wp_ite (fun hlen => ?_) fun hlen => ?_
    · rw [wp_bind]
      refine walkaddr_spec h.skel (round_lt hva) ?_
      rw [round_div]
      refine wp_ite (fun h0 => ?_) fun h0 => ?_
      · rw [wp_pure]
        exact ⟨0, Nat.zero_le _, Wrote.nil h, Or.inr ⟨rfl, hlen, fun ha => (acc_iff h hva).mp ha h0⟩⟩
      · have hacc := (acc_iff h hva).mpr h0
        rw [wp_bind, wp_modify, sub_round]
        generalize hn : min (PGSIZE - dstva % 4096) len = n
        obtain ⟨hn1, hn2⟩ := chunk hn
        have h₁ : Wrote pt src s dstva off n _ := Wrote.page h hacc (by omega)
        refine (ih h₁.table (Nat.mod_lt _ (by decide)) (by omega)).imp fun r s' => ?_
        rintro ⟨j, hj, h₂, hr⟩
        rw [h₁.same] at hr
        by_cases he : n = len
        · -- the last page: the rest of the loop does nothing
          have hj0 : j = 0 := by omega
          subst hj0
          refine ⟨n + 0, by omega, Wrote.trans h h₁ h₂.zero, ?_⟩
          rcases hr with ⟨hr, -⟩ | ⟨-, hlt, -⟩
          · exact Or.inl ⟨hr, by omega⟩
          · omega
        · rw [next_page (acc_lt h hacc) (hn2.resolve_right fun h => he h.1)] at h₂ hr
          exact ⟨n + j, by omega, h₁.trans h h₂, hr.shift hn1⟩
    · rw [wp_pure]
      exact ⟨0, Nat.zero_le _, Wrote.nil h, Or.inl ⟨rfl, by omega⟩⟩

/-! ## copyinstr -/

theorem upd_eq_blit {c : UInt8} {g : Nat → UInt8} (hg : g 0 = c) : upd m dst c = blit m dst 1 g := by
  funext x
  by_cases hx : x = dst
  · have hin := blit_in (m := m) (a := dst) (f := g) (Nat.one_pos)
    rw [hx, upd_same, ← hg]
    exact hin.symm
  · rw [upd_ne hx, blit_out (by omega)]

/-- The rest of a page, up to its first NUL. -/
theorem copyinstrPage_spec (hn : n ≤ max) :
    wp (copyinstrPage n max p dst) (fun r s' => SameRam s s' ∧ ∃ j ≤ n, (∀ k < j, s.mem (p + k) ≠ 0) ∧
      (r = (false, max - n, dst + n) ∧ j = n ∧ s'.kern = blit s.kern dst n (fun k => s.mem (p + k)) ∨
        r.1 = true ∧ j < n ∧ s.mem (p + j) = 0 ∧ s'.kern = blit s.kern dst (j + 1) fun k => s.mem (p + k))) E s := by
  induction n generalizing s max p dst with
  | zero =>
    unfold copyinstrPage
    rw [wp_pure]
    exact ⟨⟨rfl, rfl, rfl⟩, 0, Nat.le_refl 0, fun k hk => absurd hk (by omega), Or.inl ⟨rfl, rfl, blit_zero.symm⟩⟩
  | succ n ih =>
    unfold copyinstrPage
    rw [wp_bind, wp_get, wp_bind, wp_modify]
    have hone : upd s.kern dst (s.mem p) = blit s.kern dst 1 fun k => s.mem (p + k) := upd_eq_blit rfl
    refine wp_ite (fun h0 => ?_) fun h0 => ?_
    · rw [wp_pure]
      exact ⟨⟨rfl, rfl, rfl⟩, 0, Nat.zero_le _, fun k hk => absurd hk (by omega), Or.inr ⟨rfl, by omega, h0, hone⟩⟩
    · rw [hone]
      refine (ih (by omega)).imp fun r s' => ?_
      rintro ⟨hsame, j, hj, hnz, hr⟩
      dsimp only at hnz hr
      have hnz' : ∀ k < j + 1, s.mem (p + k) ≠ 0 := fun k hk => by
        cases k with
        | zero => exact h0
        | succ k =>
          have := hnz k (by omega)
          rwa [show p + 1 + k = p + (k + 1) by omega] at this
      have hcat : ∀ i, blit (blit s.kern dst 1 fun k => s.mem (p + k)) (dst + 1) i (fun k => s.mem (p + 1 + k)) =
          blit s.kern dst (1 + i) fun k => s.mem (p + k) := fun i =>
        blit_append (fun _ _ => rfl) fun k _ => by rw [Nat.add_assoc]
      refine ⟨hsame, j + 1, by omega, hnz', ?_⟩
      rcases hr with ⟨hr, hj', hk⟩ | ⟨hr, hj', hz, hk⟩
      · refine Or.inl ⟨?_, by omega, ?_⟩
        · rw [hr, Nat.sub_sub, Nat.add_comm 1 n, Nat.add_assoc, Nat.add_comm 1 n]
        · rw [hk, hcat, Nat.add_comm 1 n]
      · refine Or.inr ⟨hr, by omega, ?_, ?_⟩
        · rwa [show p + 1 + j = p + (j + 1) by omega] at hz
        · rw [hk, hcat, Nat.add_comm 1 (j + 1)]

/-- What `copyinstr` has moved: `j` bytes that are accessible and not NUL, and, if it succeeds, the NUL behind them. -/
def Str (pt dst srcva max : Nat) (s : St) (r : Int) (s' : St) : Prop :=
  SameRam s s' ∧ ∃ j ≤ max, (∀ k < j, Acc (view s.mem pt) (srcva + k) ∧ s.mem (tr (view s.mem pt) (srcva + k)) ≠ 0) ∧
    (r = 0 ∧ j < max ∧ Acc (view s.mem pt) (srcva + j) ∧ s.mem (tr (view s.mem pt) (srcva + j)) = 0 ∧
        s'.kern = blit s.kern dst (j + 1) (fun k => s.mem (tr (view s.mem pt) (srcva + k))) ∨
      r = -1 ∧ (j = max ∨ ¬ Acc (view s.mem pt) (srcva + j)) ∧
        s'.kern = blit s.kern dst j fun k => s.mem (tr (view s.mem pt) (srcva + k)))

theorem copyinstrLoop_spec (h : UserTable s.mem pt) (hva : srcva < 2 ^ 32) (hfuel : max ≤ fuel) :
    wp (copyinstrLoop pt fuel false dst srcva max) (Str pt dst srcva max s) E s := by
  have hdone : ∀ {s : St} {dst srcva}, Str pt dst srcva 0 s (-1) s := fun {s dst srcva} =>
    ⟨⟨rfl, rfl, rfl⟩, 0, Nat.le_refl 0, fun k hk => absurd hk (by omega), Or.inr ⟨rfl, Or.inl rfl, blit_zero.symm⟩⟩
  induction fuel generalizing s dst srcva max with
  | zero =>
    unfold copyinstrLoop
    refine wp_neg (by omega) ?_
    rw [wp_pure, show max = 0 by omega]
    exact hdone
  | succ fuel ih =>
    unfold copyinstrLoop
    refine wp_ite (fun hlen => ?_) fun hlen => ?_
    · rw [wp_bind]
      refine walkaddr_spec h.skel (round_lt hva) ?_
      rw [round_div]
      refine wp_ite (fun h0 => ?_) fun h0 => ?_
      · rw [wp_pure]
        exact ⟨⟨rfl, rfl, rfl⟩, 0, Nat.zero_le _, fun k hk => absurd hk (by omega),
          Or.inr ⟨rfl, Or.inr fun ha => (acc_iff h hva).mp ha h0, blit_zero.symm⟩⟩
      · have hacc := (acc_iff h hva).mpr h0
        rw [wp_bind, sub_round]
        generalize hn : min (PGSIZE - srcva % 4096) max = n
        obtain ⟨hn1, hn2⟩ := chunk hn
        have hpg : ∀ k < n, Acc (view s.mem pt) (srcva + k) ∧
            tr (view s.mem pt) (srcva + k) = userFrame (view s.mem pt (srcva / 4096)) + srcva % 4096 + k :=
          fun k hk => acc_page hacc (by omega)
        refine (copyinstrPage_spec hn1).imp fun r s1 => ?_
        rintro ⟨hsame, j, hj, hnz, hr⟩
        have hnz' : ∀ k < j, Acc (view s.mem pt) (srcva + k) ∧ s.mem (tr (view s.mem pt) (srcva + k)) ≠ 0 :=
            fun k hk => by
          refine ⟨(hpg k (by omega)).1, ?_⟩
          rw [(hpg k (by omega)).2]
          exact hnz k hk
        have hbytes : ∀ i ≤ n, blit s.kern dst i
            (fun k => s.mem (userFrame (view s.mem pt (srcva / 4096)) + srcva % 4096 + k)) =
            blit s.kern dst i fun k => s.mem (tr (view s.mem pt) (srcva + k)) := fun i hi =>
          blit_congr fun k hk => by rw [(hpg k (by omega)).2]
        rcases hr with ⟨rfl, hj', hk⟩ | ⟨hr, hj', hz, hk⟩
        · subst hj'
          rw [hbytes j (Nat.le_refl j)] at hk
          by_cases he : j = max
          · -- nothing is left: the loop ends without a NUL
            have hlast : wp (copyinstrLoop pt fuel false (dst + j) ((PGROUNDDOWN srcva + PGSIZE) % 2 ^ 32) (max - j))
                (Str pt dst srcva max s) E s1 := by
              unfold copyinstrLoop
              refine wp_ite (fun hlen => absurd hlen.2 (by omega)) fun _ => ?_
              rw [wp_pure]
              exact ⟨hsame, j, by omega, hnz', Or.inr ⟨rfl, Or.inl he, hk⟩⟩
            exact hlast
          · have hv1 : view s1.mem pt = view s.mem pt := by rw [hsame.1]
            have hnext : wp (copyinstrLoop pt fuel false (dst + j) ((PGROUNDDOWN srcva + PGSIZE) % 2 ^ 32) (max - j))
                (Str pt (dst + j) (srcva + j) (max - j) s1) E s1 := by
              rw [next_page (acc_lt h hacc) (hn2.resolve_right fun h => he h.1)]
              have htop : srcva < 0xFFFFF000 := acc_lt h hacc
              exact ih (by rw [hsame.1]; exact h) (by omega) (by omega)
            refine wp.mono hnext (fun r s2 => ?_) fun _ _ he => he
            rintro ⟨hsame2, i, hi, hnz2, hr⟩
            rw [hsame.1] at hnz2 hr
            have hcat : ∀ l, blit s1.kern (dst + j) l (fun k => s.mem (tr (view s.mem pt) (srcva + j + k))) =
                blit s.kern dst (j + l) fun k => s.mem (tr (view s.mem pt) (srcva + k)) := fun l => by
              rw [hk]
              exact blit_append (fun _ _ => rfl) fun k _ => by rw [Nat.add_assoc]
            refine ⟨⟨hsame2.1.trans hsame.1, hsame2.2.1.trans hsame.2.1, hsame2.2.2.trans hsame.2.2⟩, j + i, by omega,
              fun k hk => ?_, ?_⟩
            · by_cases hk' : k < j
              · exact hnz' k hk'
              · have := hnz2 (k - j) (by omega)
                rwa [show srcva + j + (k - j) = srcva + k by omega] at this
            · rw [Nat.add_assoc srcva j i] at hr
              rcases hr with ⟨hr, hi', ha, hz, hk2⟩ | ⟨hr, hi', hk2⟩
              · exact Or.inl ⟨hr, by omega, ha, hz, by rw [hk2, hcat, Nat.add_assoc]⟩
              · exact Or.inr ⟨hr, hi'.imp (by omega) id, by rw [hk2, hcat]⟩
        · -- the NUL is in this page: the loop ends
          obtain ⟨g, max', dst'⟩ := r
          cases hr
          have hlast : wp (copyinstrLoop pt fuel true dst' ((PGROUNDDOWN srcva + PGSIZE) % 2 ^ 32) max')
              (Str pt dst srcva max s) E s1 := by
            unfold copyinstrLoop
            refine wp_ite (fun hlen => absurd hlen.1 (by decide)) fun _ => ?_
            rw [wp_pure]
            refine ⟨hsame, j, by omega, hnz', Or.inl ⟨rfl, by omega, (hpg j hj').1, ?_, ?_⟩⟩
            · rw [(hpg j hj').2]
              exact hz
            · rw [hk, hbytes (j + 1) (by omega)]
          exact hlast
    · have h0 : max = 0 := by
        by_contra h
        exact hlen ⟨rfl, Nat.pos_of_ne_zero h⟩
      rw [wp_pure, h0]
      exact hdone

/-! ## The three of them -/

/-- Nothing is left accessible behind a byte that is not. -/
theorem Ends.zero_iff {r : Int} (h : Ends v va len j r) (hva : va < 2 ^ 32) (hj : ∀ k < j, Acc v (va + k)) :
    (r = 0 ∨ r = -1) ∧ (r = 0 ↔ va + len ≤ 2 ^ 32 ∧ ∀ k < len, UserPage v ((va + k) / 4096)) := by
  rcases h with ⟨hr, hl⟩ | ⟨hr, hl, hna⟩
  · refine ⟨Or.inl hr, fun _ => ⟨?_, fun k hk => (hj k (by omega)).2⟩, fun _ => hr⟩
    cases len with
    | zero => omega
    | succ len =>
      have := (hj len (by omega)).1
      omega
  · refine ⟨Or.inr hr, fun h0 => absurd (h0.symm.trans hr) (by decide), ?_⟩
    rintro ⟨h1, h2⟩
    exact absurd ⟨by omega, h2 j hl⟩ hna

/-- `copyin`, `copyout` and `copyinstr` return, and 0 just when the whole range, or string, is accessible; then the
    bytes
    are copied. On -1 those before the first that is not accessible may have been. -/
theorem copies_bytewise (h : UserTable s.mem pt) :
    (∀ dst srcva len, srcva < 2 ^ 32 → len < 2 ^ 32 → wp (copyin pt dst srcva len) (fun r s' =>
      (r = 0 ∨ r = -1) ∧ s'.mem = s.mem ∧ s'.freelist = s.freelist ∧
      (r = 0 ↔ srcva + len ≤ 2 ^ 32 ∧ ∀ k < len, UserPage (view s.mem pt) ((srcva + k) / 4096)) ∧
      (r = 0 → ∀ x, s'.kern x =
        if dst ≤ x ∧ x < dst + len then s.mem (tr (view s.mem pt) (srcva + (x - dst))) else s.kern x) ∧
      (r = -1 → ∃ j < len, ∀ x, s'.kern x =
        if dst ≤ x ∧ x < dst + j then s.mem (tr (view s.mem pt) (srcva + (x - dst))) else s.kern x))
      (fun _ _ => False) s) ∧
    (∀ dstva src len, dstva < 2 ^ 32 → len < 2 ^ 32 → wp (copyout pt dstva src len) (fun r s' =>
      (r = 0 ∨ r = -1) ∧ s'.kern = s.kern ∧ s'.freelist = s.freelist ∧ view s'.mem pt = view s.mem pt ∧
      (r = 0 ↔ dstva + len ≤ 2 ^ 32 ∧ ∀ k < len, UserPage (view s.mem pt) ((dstva + k) / 4096)) ∧
      (r = 0 → (∀ k < len, s'.mem (tr (view s.mem pt) (dstva + k)) = src k) ∧
        ∀ x, (∀ k < len, x ≠ tr (view s.mem pt) (dstva + k)) → s'.mem x = s.mem x) ∧
      (r = -1 → ∃ j < len, (∀ k < j, s'.mem (tr (view s.mem pt) (dstva + k)) = src k) ∧
        ∀ x, (∀ k < j, x ≠ tr (view s.mem pt) (dstva + k)) → s'.mem x = s.mem x))
      (fun _ _ => False) s) ∧
    ∀ dst srcva max, srcva < 2 ^ 32 → max < 2 ^ 32 → wp (copyinstr pt dst srcva max) (fun r s' =>
      (r = 0 ∨ r = -1) ∧ s'.mem = s.mem ∧ s'.freelist = s.freelist ∧
      (r = 0 ↔ ∃ k < max, (∀ i ≤ k, srcva + i < 2 ^ 32 ∧ UserPage (view s.mem pt) ((srcva + i) / 4096)) ∧
        s.mem (tr (view s.mem pt) (srcva + k)) = 0) ∧
      (r = 0 → ∃ k < max, s.mem (tr (view s.mem pt) (srcva + k)) = 0 ∧
        (∀ i < k, s.mem (tr (view s.mem pt) (srcva + i)) ≠ 0) ∧
        ∀ x, s'.kern x = if dst ≤ x ∧ x < dst + (k + 1) then s.mem
          (tr (view s.mem pt) (srcva + (x - dst))) else s.kern x) ∧
      ∀ x, ¬ (dst ≤ x ∧ x < dst + max) → s'.kern x = s.kern x) (fun _ _ => False) s := by
  refine ⟨fun dst srcva len hva _ => ?_, fun dstva src len hva _ => ?_, fun dst srcva max hva _ => ?_⟩
  · refine (copyinLoop_spec h hva (Nat.le_refl len)).imp fun r s' => ?_
    rintro ⟨hsame, j, hj, hac, hk, hr⟩
    obtain ⟨h1, h2⟩ := hr.zero_iff hva hac
    refine ⟨h1, hsame.1, hsame.2.1, h2, fun h0 x => ?_, fun h0 => ⟨j, ?_, fun x => by rw [hk, blit]⟩⟩
    · rcases hr with ⟨-, rfl⟩ | ⟨hr, -⟩
      · rw [hk, blit]
      · exact absurd (h0.symm.trans hr) (by decide)
    · rcases hr with ⟨hr, -⟩ | ⟨-, hj, -⟩
      · exact absurd (h0.symm.trans hr) (by decide)
      · exact hj
  · refine (copyoutLoop_spec h hva (Nat.le_refl len)).imp fun r s' => ?_
    rintro ⟨j, hj, hw, hr⟩
    obtain ⟨h1, h2⟩ := hr.zero_iff hva hw.acc
    have hset : ∀ k < j, s'.mem (tr (view s.mem pt) (dstva + k)) = src k := fun k hk => by
      rw [hw.set k hk, Nat.zero_add]
    refine ⟨h1, hw.kern, hw.free, hw.same, h2, fun h0 => ?_, fun h0 => ⟨j, ?_, hset, hw.keep⟩⟩
    · rcases hr with ⟨-, rfl⟩ | ⟨hr, -⟩
      · exact ⟨hset, hw.keep⟩
      · exact absurd (h0.symm.trans hr) (by decide)
    · rcases hr with ⟨hr, -⟩ | ⟨-, hj, -⟩
      · exact absurd (h0.symm.trans hr) (by decide)
      · exact hj
  · refine (copyinstrLoop_spec h hva (Nat.le_refl max)).imp fun r s' => ?_
    rintro ⟨hsame, j, hj, hnz, hr⟩
    refine ⟨hr.imp And.left And.left, hsame.1, hsame.2.1, ?_, fun h0 => ?_, fun x hx => ?_⟩
    · rcases hr with ⟨hr, hlt, ha, hz, -⟩ | ⟨hr, hstop, -⟩
      · refine ⟨fun _ => ⟨j, hlt, fun i hi => ?_, hz⟩, fun _ => hr⟩
        rcases Nat.lt_or_eq_of_le hi with hi | rfl
        · exact (hnz i hi).1
        · exact ha
      · refine ⟨fun h0 => absurd (h0.symm.trans hr) (by decide), ?_⟩
        -- a NUL at `k` would have been met
        rintro ⟨k, hk, hall, hz⟩
        by_cases hkj : k < j
        · exact absurd hz (hnz k hkj).2
        · rcases hstop with hstop | hstop
          · omega
          · exact absurd (hall j (by omega)) hstop
    · rcases hr with ⟨-, hlt, -, hz, hk⟩ | ⟨hr, -⟩
      · exact ⟨j, hlt, hz, fun i hi => (hnz i hi).2, fun x => by rw [hk, blit]⟩
      · exact absurd (h0.symm.trans hr) (by decide)
    · rcases hr with ⟨-, hlt, -, -, hk⟩ | ⟨-, -, hk⟩
      · rw [hk, blit_out (by omega)]
      · rw [hk, blit_out (by omega)]

/-- Page by page: the virtual page, its frame and its permissions. -/
def mapEach (pt : Nat) : List (Nat × Nat × Nat) → M Bool
  | [] => return true
  | (p, pa, perm) :: l => do
    if (← mappages pt (4096 * p) PGSIZE pa perm) ≠ 0 then return false
    mapEach pt l

theorem mapEach_spec {F : Set Nat} {l : List (Nat × Nat × Nat)} (h : Table image s pt F)
    (hl : ∀ b ∈ l, b.1 < 2 ^ 20 ∧ b.2.1 < 2 ^ 32 ∧ b.2.1 % 4096 = 0 ∧ b.2.2 < 1024)
    (hv : ∀ b ∈ l, view s.mem pt b.1 = none) (hd : (l.map Prod.fst).Nodup) :
    wp (mapEach pt l) (fun r s' => r = true → ∃ F', Grown image pt s F s' F' ∧
      view s'.mem pt = l.foldl (fun v b => upd v b.1 (some (b.2.1, permAD b.2.2 ||| PTE_V))) (view s.mem pt))
    (fun _ _ => False) s := by
  induction l generalizing s F with
  | nil => exact fun _ => ⟨F, h.refl, rfl⟩
  | cons b l ih =>
    obtain ⟨p, pa, perm⟩ := b
    obtain ⟨hp, hpa, hal, hperm⟩ := hl _ List.mem_cons_self
    obtain ⟨hnew, hd⟩ := List.nodup_cons.mp hd
    unfold mapEach
    rw [wp_bind]
    refine mappages_one h rfl hp hpa hal hperm (hv _ List.mem_cons_self) (fun s1 _ _ => ?_) fun s1 F1 hg1 hv1 => ?_
    · exact fun h0 => absurd h0 (by decide)
    · refine (ih hg1.table (fun b hb => hl b (List.mem_cons_of_mem _ hb)) (fun b hb => ?_) hd).imp fun r s2 h2 hr => ?_
      · have hne : b.1 ≠ p := fun he => hnew (List.mem_map.mpr ⟨b, hb, he⟩)
        rw [hv1, upd_ne hne]
        exact hv b (List.mem_cons_of_mem _ hb)
      · obtain ⟨F2, hg2, hv2⟩ := h2 hr
        exact ⟨F2, hg1.trans hg2, by rw [hv2, hv1]; rfl⟩

/-- The topmost two pages of a process, and two pages of memory whose frames are not next to each other. -/
def userPages : List (Nat × Nat × Nat) :=
  [(0xFFFFF, 0x80001000, PTE_R ||| PTE_X), (0xFFFFE, 0x80300000, PTE_R ||| PTE_W),
    (0, 0x80400000, PTE_R ||| PTE_W ||| PTE_U), (1, 0x80310000, PTE_R ||| PTE_W ||| PTE_U)]

def mapped : St :=
  match mapEach 0x80100000 userPages (freePages 3) with
  | .ok _ s => s
  | .error _ s => s

theorem mapped_view : view mapped.mem 0x80100000 = userPages.foldl (fun v b =>
    upd v b.1 (some (b.2.1, permAD b.2.2 ||| PTE_V))) (fun _ => none) ∧ Skel mapped.mem 0x80100000 ∧
    nodes mapped.mem 0x80100000 ⊆ freed 3 ∪ {0x80100000} := by
  have hrun : (match mapEach 0x80100000 userPages (freePages 3) with
      | .ok r _ => r
      | .error _ _ => false) = true := by decide +kernel
  have hz := freePages_zero 3 (f := 0x80100000) (by decide)
  have h := mapEach_spec (l := userPages) (freePages_wf (n := 3) (by decide)).table (by decide)
    (fun b _ => by rw [view_empty hz]) (by decide)
  unfold mapped
  split at hrun
  · rename_i r s heq
    obtain ⟨F, hg, hv⟩ := wp_ok h heq hrun
    rw [view_empty hz] at hv
    have hsum := hg.sum
    rw [nodes_empty hz] at hsum
    exact ⟨hv, hg.table.skel, fun t ht => hsum ▸ Or.inr ht⟩
  · cases hrun

/-- The user's pages are the two at the bottom. -/
theorem mapped_user (h : view mapped.mem 0x80100000 p = some (f, fl)) (hU : fl &&& PTE_U ≠ 0) :
    (p = 0 ∧ f = 0x80400000) ∨ (p = 1 ∧ f = 0x80310000) := by
  rw [mapped_view.1] at h
  simp only [userPages, List.foldl_cons, List.foldl_nil, upd_apply] at h
  split at h
  · cases h
    exact Or.inr ⟨by assumption, rfl⟩
  · split at h
    · cases h
      exact Or.inl ⟨by assumption, rfl⟩
    · split at h
      · cases h
        exact absurd (by decide) hU
      · split at h
        · cases h
          exact absurd (by decide) hU
        · cases h

theorem mapped_userTable : UserTable mapped.mem 0x80100000 := by
  obtain ⟨hv, hs, hn⟩ := mapped_view
  refine ⟨hs, ⟨0x80001000, _, by rw [hv]; rfl, by decide⟩, ⟨0x80300000, _, by rw [hv]; rfl, by decide⟩,
    fun p f fl hf hU => ?_, fun p q f fl fl' hf hg hU hU' => ?_⟩
  · have hnot : ∀ g, (g = 0x80400000 ∨ g = 0x80310000) → g ∉ nodes mapped.mem 0x80100000 := fun g hg hin => by
      rcases hn hin with ⟨k, hk, he⟩ | he
      · omega
      · rw [Set.mem_singleton_iff] at he
        omega
    rcases mapped_user hf hU with ⟨-, rfl⟩ | ⟨-, rfl⟩
    · exact ⟨by decide, hnot _ (Or.inl rfl)⟩
    · exact ⟨by decide, hnot _ (Or.inr rfl)⟩
  · have h1 := mapped_user hf hU
    have h2 := mapped_user hg hU'
    omega

/-- Twelve bytes, six at the end of the first page and six at the start of the second, out and in; and a range that
    wraps. -/
theorem copies_bytewise_across :
    wp (copyout 0x80100000 4090 UInt8.ofNat 12) (fun r s' =>
      r = 0 ∧ s'.mem 0x80400FFF = 5 ∧ s'.mem 0x80310000 = 6) (fun _ _ => False) mapped ∧
    wp (copyin 0x80100000 0 4090 12) (fun r s' =>
      r = 0 ∧ s'.kern 5 = mapped.mem 0x80400FFF ∧ s'.kern 6 = mapped.mem 0x80310000) (fun _ _ => False) mapped ∧
    wp (copyin 0x80100000 0 0xFFFFFFF0 32) (fun r s' => r = -1 ∧ s'.mem = mapped.mem) (fun _ _ => False) mapped := by
  obtain ⟨hin, hout, -⟩ := copies_bytewise mapped_userTable
  have h0 : view mapped.mem 0x80100000 0 = some (0x80400000, permAD (PTE_R ||| PTE_W ||| PTE_U) ||| PTE_V) := by
    rw [mapped_view.1]
    rfl
  have h1 : view mapped.mem 0x80100000 1 = some (0x80310000, permAD (PTE_R ||| PTE_W ||| PTE_U) ||| PTE_V) := by
    rw [mapped_view.1]
    rfl
  have hU : ∀ k < 12, UserPage (view mapped.mem 0x80100000) ((4090 + k) / 4096) := fun k hk => by
    rcases Nat.lt_or_ge (4090 + k) 4096 with hlt | hge
    · rw [Nat.div_eq_of_lt hlt]
      exact ⟨_, _, h0, by decide, by decide⟩
    · rw [show (4090 + k) / 4096 = 1 by omega]
      exact ⟨_, _, h1, by decide, by decide⟩
  have t5 : tr (view mapped.mem 0x80100000) (4090 + 5) = 0x80400FFF := by
    rw [tr, show (4090 + 5) / 4096 = 0 by decide, h0]
    decide
  have t6 : tr (view mapped.mem 0x80100000) (4090 + 6) = 0x80310000 := by
    rw [tr, show (4090 + 6) / 4096 = 1 by decide, h1]
    decide
  refine ⟨?_, ?_, ?_⟩
  · refine (hout 4090 UInt8.ofNat 12 (by decide) (by decide)).imp fun r s' => ?_
    rintro ⟨-, -, -, -, hr, hok, -⟩
    have hr := hr.mpr ⟨by decide, hU⟩
    refine ⟨hr, ?_, ?_⟩
    · rw [← t5]
      exact (hok hr).1 5 (by decide)
    · rw [← t6]
      exact (hok hr).1 6 (by decide)
  · refine (hin 0 4090 12 (by decide) (by decide)).imp fun r s' => ?_
    rintro ⟨-, -, -, hr, hok, -⟩
    have hr := hr.mpr ⟨by decide, hU⟩
    refine ⟨hr, ?_, ?_⟩
    · rw [hok hr 5, if_pos (by decide), ← t5]
    · rw [hok hr 6, if_pos (by decide), ← t6]
  · refine (hin 0 0xFFFFFFF0 32 (by decide) (by decide)).imp fun r s' => ?_
    rintro ⟨hr, hm, -, h0, -⟩
    exact ⟨hr.resolve_left fun h => absurd (h0.mp h).1 (by decide), hm⟩

end Xv6.Vm
