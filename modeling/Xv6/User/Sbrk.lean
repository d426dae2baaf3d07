/-
  Xv6.User.Sbrk — `malloc` on the kernel's `sbrk`.

  `sys_sbrk`, `growproc`, `uvmalloc` and `uvmdealloc` as far as sizes go; all of them compute
  modulo 2^32. `free` is how many more pages the allocator can still map for the process.
  A page is a frame of its own, so the pages a process has and those it can still get
  are no more than RAM holds. `Xv6.Vm.growproc`, on page tables, answers the same (`growproc_agrees`).

  Proved: up to 2^31 - 16 bytes `malloc` gives at least what it was asked for (`malloc_gives`).
  From there on the argument of `sbrk` is negative and shrinking counts as success, and in the
  last seven sizes already `nunits` wraps (`a_huge_request_gets_nothing`).
-/
import Xv6.User.Malloc
import Xv6.Vm.Space

namespace Xv6.User.Umalloc

def PGSIZE : Nat := 4096
def RAM : Nat := 16 * 1024 * 1024

def pgroundup (sz : Nat) : Nat := (sz + PGSIZE - 1) % 2 ^ 32 / PGSIZE * PGSIZE

/-- `for(a = oldsz; a < newsz; a += PGSIZE)`; `none`: out of memory, 0 is returned. -/
def uvmallocLoop (newsz : Nat) : Nat → Nat → Option Nat
  | free, a =>
    if a < newsz then
      match free with
      | 0 => none
      | free + 1 => uvmallocLoop newsz free ((a + PGSIZE) % 2 ^ 32)
    else some newsz

def uvmalloc (free oldsz newsz : Nat) : Option Nat :=
  if newsz < oldsz then some oldsz else uvmallocLoop newsz free (pgroundup oldsz)

def uvmdealloc (oldsz newsz : Nat) : Nat := if newsz ≥ oldsz then oldsz else newsz

/-- `n` is an `int`: from 2^31 on it is negative. The new size, `none` for -1. -/
def growproc (free sz n : Nat) : Option Nat :=
  if 0 < n ∧ n < 2 ^ 31 then
    match uvmalloc free sz ((sz + n) % 2 ^ 32) with
    | some 0 => none
    | r => r
  else if 2 ^ 31 ≤ n then some (uvmdealloc sz ((sz + n) % 2 ^ 32))
  else some sz

def sysSbrk (free : Nat) : Sbrk := fun sz n => (growproc free sz n).map fun sz' => (sz, sz')

inductive Runs (P : Nat → Prop) (base : Nat) : St → Prop
  | init (ptr size : Nat → Nat) (brk : Nat) : 0 < base → base + 8 ≤ brk → brk ≤ RAM → Runs P base (init ptr size brk)
  | malloc {s s' : St} {r : Option Nat} (free nbytes : Nat) : Runs P base s → P nbytes →
      pgroundup s.brk + free * PGSIZE ≤ RAM → malloc base (sysSbrk free) s nbytes = .ok (s', r) → Runs P base s'
  | free {s s' : St} (bp n : Nat) : Runs P base s → (bp, n) ∈ s.live → freeBlock s bp = .ok s' → Runs P base s'
  | writes {s s' : St} : Runs P base s → Writes s s' → Runs P base s'

/-! ## `sbrk` with a positive argument grows -/

variable {base free newsz a sz n nbytes : Nat} {s s' : St}

theorem uvmallocLoop_le (h : uvmallocLoop newsz free a = some sz) (ha : a + free * PGSIZE < 2 ^ 32) :
    sz = newsz ∧ (newsz ≤ a ∨ newsz ≤ a + free * PGSIZE) := by
  induction free generalizing a with
  | zero =>
    unfold uvmallocLoop at h
    split at h
    · cases h
    · cases h
      exact ⟨rfl, Or.inl (by omega)⟩
  | succ free ih =>
    unfold uvmallocLoop at h
    rw [Nat.succ_mul] at ha ⊢
    split at h
    · dsimp only at h
      rw [Nat.mod_eq_of_lt (by omega)] at h
      have := ih h (by omega)
      omega
    · cases h
      exact ⟨rfl, Or.inl (by omega)⟩

theorem le_pgroundup (h : sz ≤ RAM) : sz ≤ pgroundup sz := by
  have hp : pgroundup sz = (sz + 4096 - 1) % 2 ^ 32 / 4096 * 4096 := rfl
  unfold RAM at h
  omega

/-- The new break is in RAM's size, and is where the caller expects it. -/
theorem sysSbrk_grows (hs : sz ≤ RAM) (hf : pgroundup sz + free * PGSIZE ≤ RAM) (h0 : 0 < n) (hn : n < 2 ^ 31) :
    Grows (sysSbrk free) sz n ∧ ∀ a brk, sysSbrk free sz n = some (a, brk) → brk ≤ RAM := by
  have hle := le_pgroundup hs
  have hram : RAM = 2 ^ 24 := rfl
  have hmod : (sz + n) % 2 ^ 32 = sz + n := Nat.mod_eq_of_lt (by omega)
  have hu : uvmalloc free sz (sz + n) = uvmallocLoop (sz + n) free (pgroundup sz) := if_neg (by omega)
  unfold Grows sysSbrk growproc
  rw [if_pos ⟨h0, hn⟩, hmod, hu]
  cases hl : uvmallocLoop (sz + n) free (pgroundup sz) with
  | none => exact ⟨Or.inl rfl, nofun⟩
  | some v =>
    obtain ⟨rfl, hv⟩ := uvmallocLoop_le hl (by omega)
    have hpos : sz + n ≠ 0 := by omega
    obtain ⟨k, hk⟩ := Nat.exists_eq_succ_of_ne_zero hpos
    rw [hk]
    refine ⟨Or.inr ⟨sz, Nat.le_refl _, by rw [hk]; rfl⟩, fun a brk he => ?_⟩
    have : brk = sz + n := by
      rw [hk]
      exact (Prod.mk.inj (Option.some.inj he)).2.symm
    omega

theorem uvmallocLoop_enough (h : newsz ≤ a + free * PGSIZE) (ha : a + free * PGSIZE < 2 ^ 32) :
    uvmallocLoop newsz free a = some newsz := by
  induction free generalizing a with
  | zero =>
    unfold uvmallocLoop
    exact if_neg (by omega)
  | succ free ih =>
    rw [Nat.succ_mul] at h ha
    unfold uvmallocLoop
    split
    · dsimp only
      rw [Nat.mod_eq_of_lt (by omega)]
      exact ih (by omega) (by omega)
    · rfl

/-- The kernel's `growproc` on a page table returns what the one here does, for some number of pages that RAM holds. -/
theorem growproc_agrees {K : Vm.Image} {σ : Vm.St} {pt : Nat} {F : Set Nat} {n : Int} (h : Vm.Space K σ pt sz F)
    (hn : -2 ^ 31 ≤ n ∧ n < 2 ^ 31) : wp (Vm.growproc K pt sz n)
      (fun r _ => ∃ free, pgroundup sz + free * PGSIZE ≤ RAM ∧
      r = (growproc free sz (n % 2 ^ 32).toNat).elim (-1, sz) fun sz' => (0, sz')) (fun _ _ => False) σ := by
  have hsz := h.sz_le
  have hb := h.pages_le
  have hround : pgroundup sz = 4096 * Vm.pages sz := Vm.PGROUNDUP_pages_eq hsz
  have hpg : PGSIZE = 4096 := rfl
  have hram : RAM = 2 ^ 24 := rfl
  have h0 : pgroundup sz + 0 * PGSIZE ≤ RAM := by omega
  have hadd : Vm.addSz sz n = (sz + (n % 2 ^ 32).toNat) % 2 ^ 32 := by
    unfold Vm.addSz
    omega
  rcases lt_trichotomy n 0 with hneg | rfl | hpos
  · have hg : growproc 0 sz (n % 2 ^ 32).toNat = some (uvmdealloc sz (Vm.addSz sz n)) := by
      unfold growproc
      rw [if_neg (by omega), if_pos (by omega), hadd]
    unfold Vm.growproc
    rw [if_neg (by omega), if_pos hneg, wp_bind]
    by_cases hlt : Vm.addSz sz n < sz
    · refine (h.uvmdealloc_spec hlt).imp fun r s' => ?_
      rintro ⟨rfl, -⟩
      rw [wp_pure]
      refine ⟨0, h0, ?_⟩
      rw [hg, uvmdealloc, if_neg (by omega)]
      rfl
    · unfold Vm.uvmdealloc
      rw [if_pos (by omega), wp_pure, wp_pure]
      refine ⟨0, h0, ?_⟩
      rw [hg, uvmdealloc, if_pos (by omega)]
      rfl
  · exact ⟨0, h0, rfl⟩
  · obtain ⟨k, rfl⟩ := Int.eq_ofNat_of_zero_le (Int.le_of_lt hpos)
    have hk : ((k : Int) % 2 ^ 32).toNat = k := by omega
    have hnew : Vm.addSz sz k = sz + k := by omega
    have hg : ∀ {free r}, uvmallocLoop (sz + k) free (pgroundup sz) = r → r ≠ some 0 →
        growproc free sz ((k : Int) % 2 ^ 32).toNat = r := fun {free r} hr hne => by
      unfold growproc uvmalloc
      rw [hk, if_pos (by omega), Nat.mod_eq_of_lt (by omega), if_neg (by omega), hr]
      rcases r with _ | _ | v
      · rfl
      · exact absurd rfl hne
      · rfl
    have hgrown : ∀ {free}, sz + k ≤ pgroundup sz + free * PGSIZE → pgroundup sz + free * PGSIZE ≤ RAM →
        growproc free sz ((k : Int) % 2 ^ 32).toNat = some (sz + k) := fun h1 h2 =>
      hg (uvmallocLoop_enough h1 (by omega)) fun he => by have := Option.some.inj he; omega
    by_cases hin : sz + k ≤ pgroundup sz
    · -- the last page has room
      unfold Vm.growproc Vm.uvmalloc Vm.uvmallocLoop
      rw [if_pos hpos, wp_bind, hnew, if_neg (by omega), if_neg (by exact Nat.not_lt.mpr hin), wp_pure,
        if_neg (by omega), wp_pure]
      exact ⟨0, h0, by rw [hgrown (by omega) h0]; rfl⟩
    · refine (Vm.growproc_grows h hpos hn.2).imp fun r s' => ?_
      obtain ⟨r, sz'⟩ := r
      rintro (⟨rfl, hr, ⟨F', hs⟩, -⟩ | ⟨rfl, hr, -⟩)
      · have hb' := hs.pages_le
        have hr : sz' = sz + k := by omega
        subst hr
        unfold Vm.pages at hb' hround
        have hle : pgroundup sz + ((sz + k + 4095) / 4096 - (sz + 4095) / 4096) * PGSIZE ≤ RAM := by
          rw [hpg]
          omega
        exact ⟨_, hle, by rw [hgrown (by rw [hpg]; omega) hle]; rfl⟩
      · have hl : uvmallocLoop (sz + k) 0 (pgroundup sz) = none := by
          unfold uvmallocLoop
          exact if_pos (by omega)
        exact ⟨0, h0, by rw [show sz' = sz from hr, hg hl (by simp)]; rfl⟩

/-! ## What `malloc` gives -/

/-- No overflow in `nunits` and in the argument of `sbrk`. -/
theorem nunits_exact (h : nbytes + 16 ≤ 2 ^ 31) : nunits nbytes = (nbytes + 7) / 8 + 1 ∧ nunits nbytes * 8 < 2 ^ 31 ∧
    nbytes ≤ 8 * (nunits nbytes - 1) ∧ 0 < request (nunits nbytes) ∧ request (nunits nbytes) < 2 ^ 31 := by
  have he : nunits nbytes = (nbytes + 7) / 8 + 1 := by
    unfold nunits
    rw [Nat.mod_eq_of_lt (by omega)]
    omega
  unfold request
  split <;> omega

theorem runs_inv (h : Runs (fun nbytes => nbytes + 16 ≤ 2 ^ 31) base s) : Inv base s ∧ s.brk ≤ RAM := by
  induction h with
  | init ptr size brk h0 hb hr => exact ⟨⟨h0, Or.inl ⟨rfl, rfl, rfl, hb⟩⟩, hr⟩
  | malloc free nbytes _ hp hf he ih =>
    obtain ⟨L, hL⟩ := ih.1.first
    obtain ⟨-, h1, -, h2, h3⟩ := nunits_exact hp
    obtain ⟨hg, hb⟩ := sysSbrk_grows ih.2 hf h2 h3
    have hlt : nunits nbytes * 8 < 2 ^ 32 := by omega
    obtain ⟨s1, r, L', h4, h5, -, h6⟩ := malloc_spec hL hlt hg
    rw [h4, Except.ok.injEq, Prod.mk.injEq] at he
    refine ⟨⟨ih.1.1, Or.inr ⟨L', he.1 ▸ h5⟩⟩, ?_⟩
    rw [← he.1]
    rcases h6 with h6 | ⟨a, h6⟩
    · rw [h6]
      exact ih.2
    · exact hb a _ h6
  | free bp n _ hb he ih =>
    obtain ⟨hi, hr⟩ := ih
    rcases hi.2 with hf | ⟨L, hL⟩
    · rw [hf.live] at hb
      cases hb
    · obtain ⟨s1, L', h1, h2, -, -, h3, -⟩ := freeBlock_spec hL hb
      rw [h1, Except.ok.injEq] at he
      subst he
      exact ⟨⟨hi.1, Or.inr ⟨L', h2⟩⟩, h3 ▸ hr⟩
  | writes _ hw ih =>
    refine ⟨ih.1.writes hw, ?_⟩
    rw [hw.same]
    exact ih.2

/-- Every request of the run is of at most 2^31 - 16 bytes: `malloc` returns, and 0 or enough. -/
theorem malloc_gives (h : Runs (fun nbytes => nbytes + 16 ≤ 2 ^ 31) base s) (hn : nbytes + 16 ≤ 2 ^ 31)
    (hf : pgroundup s.brk + free * PGSIZE ≤ RAM) :
    nunits nbytes = (nbytes + 7) / 8 + 1 ∧ request (nunits nbytes) < 2 ^ 31 ∧
    ∃ s' r, malloc base (sysSbrk free) s nbytes = .ok (s', r) ∧ ∀ q, r = some q → ∃ b k,
      q = b + 8 ∧ s'.live = (b, k) :: s.live ∧ s'.size b = k ∧ nbytes ≤ 8 * (k - 1) ∧ (∀ x ∈ s.live, Apart (b, k) x) ∧
      (∀ x, b ≤ x → x < b + 8 * k → ∃ r ∈ s'.regions, r.1 ≤ x ∧ x < r.2) ∧ b + 8 * k ≤ s'.brk := by
  obtain ⟨hi, hr⟩ := runs_inv h
  obtain ⟨L, hL⟩ := hi.first
  obtain ⟨h0, h1, hge, h2, h3⟩ := nunits_exact hn
  have hlt : nunits nbytes * 8 < 2 ^ 32 := by omega
  obtain ⟨s', r, L', h4, h5, h6, -⟩ := malloc_spec hL hlt (sysSbrk_grows hr hf h2 h3).1
  refine ⟨h0, h3, s', r, h4, ?_⟩
  rintro q rfl
  obtain ⟨b, hb, hlive⟩ := h6
  rw [(first_fields base s).1] at hlive
  obtain ⟨hsz, -, hgiven, -⟩ := h5.live (b, nunits nbytes) (hlive ▸ List.mem_cons_self)
  have hpair := h5.pair
  rw [hlive, List.pairwise_cons] at hpair
  exact ⟨b, nunits nbytes, hb, hlive, hsz, hge, hpair.1, hgiven.inside, hgiven.below⟩

theorem malloc_gives_ten : ∃ s' r, malloc 8 (sysSbrk 9) (init (fun _ => 0) (fun _ => 0) 16) 10 = .ok (s', r) ∧
    r = some 32768 ∧ s'.regions = [(16, 32784)] := by
  have h0 : Runs (fun nbytes => nbytes + 16 ≤ 2 ^ 31) 8 (init (fun _ => 0) (fun _ => 0) 16) :=
    .init _ _ _ (by decide) (by decide) (by decide)
  have hn : 10 + 16 ≤ 2 ^ 31 := by decide
  have hf : pgroundup 16 + 9 * PGSIZE ≤ RAM := by decide +kernel
  obtain ⟨-, -, s', r, h1, -⟩ := malloc_gives h0 hn hf
  have h2 : (malloc 8 (sysSbrk 9) (init (fun _ => 0) (fun _ => 0) 16) 10).toOption.map
      (fun x => (x.2, x.1.regions)) = some (some 32768, [(16, 32784)]) := by decide +kernel
  rw [h1] at h2
  obtain ⟨h3, h4⟩ := Prod.mk.inj (Option.some.inj h2)
  exact ⟨s', r, h1, h3, h4⟩

/-- `malloc(0xffffffff)` gives a block of no bytes. -/
theorem a_huge_request_gets_nothing : ¬ ∀ base s, Runs (· < 2 ^ 32) base s → ∀ nbytes < 2 ^ 32, ∀ free,
    pgroundup s.brk + free * PGSIZE ≤ RAM → ∀ s' q, malloc base (sysSbrk free) s nbytes = .ok (s', some q) →
      nbytes ≤ 8 * (s'.size (q - 8) - 1) := by
  intro h
  have h0 : Runs (· < 2 ^ 32) 8 (init (fun _ => 0) (fun _ => 0) 16) := .init _ _ _ (by decide) (by decide) (by decide)
  have hf : pgroundup 16 + 9 * PGSIZE ≤ RAM := by decide +kernel
  have h1 : (malloc 8 (sysSbrk 9) (init (fun _ => 0) (fun _ => 0) 16) (2 ^ 32 - 1)).toOption.map
      (fun x => (x.2, x.1.size 32776)) = some (some 32784, 1) := by decide +kernel
  cases h2 : malloc 8 (sysSbrk 9) (init (fun _ => 0) (fun _ => 0) 16) (2 ^ 32 - 1) with
  | error e =>
    rw [h2] at h1
    cases h1
  | ok x =>
    rw [h2] at h1
    obtain ⟨h3, h4⟩ := Prod.mk.inj (Option.some.inj h1)
    have h5 := h 8 _ h0 (2 ^ 32 - 1) (by decide) 9 hf x.1 32784 (h2.trans (by rw [← h3]))
    rw [h4] at h5
    exact absurd h5 (by decide)

end Xv6.User.Umalloc
