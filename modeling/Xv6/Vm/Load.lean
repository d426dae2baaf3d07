/-
  Xv6.Vm.Load — the image `exec` builds.

  `Loading`: a new address space, made of pages that were free at the start (`F0`), with what
  the program sees in it (`img`, a memory indexed by user addresses; zero where nothing was
  written). Each step of `exec` is a step on `img`: `uvmalloc` does not change it, `loadseg`
  and `copyout` write a range of it. The caller's own memory is not among the pages
  written (`Loading.off`).
-/
import Xv6.Vm.Exec

namespace Xv6.Vm

variable {K : Image} {s s' s0 : St} {F F' F0 : Set Nat} {pt sz tf guard p q n f fl va newsz xperm : Nat}
  {img img' : Nat → UInt8} {E : Panic → St → Prop}
  {bytes : Nat → Nat → UInt8} {Q : Nat → St → Prop} {off : Nat} {file : File}

def loc (v : Nat → Option (Nat × Nat)) (va : Nat) : Nat := ((v (va / 4096)).getD (0, 0)).1 + va % 4096

def umem (m : Nat → UInt8) (pt va : Nat) : UInt8 := m (loc (view m pt) va)

structure Loading (K : Image) (s0 : St) (F0 : Set Nat) (pt tf guard : Nat) (s : St) (F : Set Nat) (sz : Nat)
    (img : Nat → UInt8) : Prop where
  space : Aspace K s pt sz tf F
  sum : F ∪ nodes s.mem pt ∪ userFrames s.mem pt sz = F0
  off : SameOff F0 s0.mem s.mem
  kern : s.kern = s0.kern
  /-- every page is for the user, but the guard page -/
  user : ∀ p < pages sz, p ≠ guard → ∀ f fl, view s.mem pt p = some (f, fl) → fl &&& PTE_U ≠ 0 ∧ fl &&& PTE_R ≠ 0
  holds : ∀ va < 4096 * pages sz, umem s.mem pt va = img va
  zero : ∀ va, 4096 * pages sz ≤ va → img va = 0

theorem loc_eq {v : Nat → Option (Nat × Nat)} (h : v (va / 4096) = some (f, fl)) : loc v va = f + va % 4096 := by
  unfold loc
  rw [h]
  rfl

theorem Loading.bound (h : Loading K s0 F0 pt tf guard s F sz img) (hp : p < pages sz) :
    ∃ f fl, view s.mem pt p = some (f, fl) ∧ f ∈ userFrames s.mem pt sz := by
  have hb := h.space.space.pages_le
  obtain ⟨⟨f, fl⟩, hf⟩ := Option.isSome_iff_exists.mp ((h.space.space.leaves p (by omega)).mpr hp)
  exact ⟨f, fl, hf, rfl, p, hp, fl, by rw [Nat.zero_add]; exact hf⟩

theorem Loading.free (h : Loading K s0 F0 pt tf guard s F sz img) : F ⊆ F0 :=
  fun _ hx => h.sum ▸ Or.inl (Or.inl hx)

theorem flagsOf_top_U : flagsOf (PTE_R ||| PTE_X) &&& PTE_U = 0 ∧ flagsOf (PTE_R ||| PTE_W) &&& PTE_U = 0 := by decide

theorem Aspace.user_lt (h : Aspace K s pt sz tf F) (hv : view s.mem pt p = some (f, fl)) (hU : fl &&& PTE_U ≠ 0) :
    p < 0xFFFFE := by
  have hlt := view_lt hv
  by_contra hge
  rcases (by omega : p = 0xFFFFE ∨ p = 0xFFFFF) with rfl | rfl
  · rw [h.trapframe] at hv
    cases hv
    exact hU flagsOf_top_U.2
  · rw [h.trampoline] at hv
    cases hv
    exact hU flagsOf_top_U.1

/-- The table of an address space is a user table. -/
theorem Aspace.userTable (h : Aspace K s pt sz tf F) : UserTable s.mem pt := by
  refine ⟨h.space.table.skel, ⟨_, _, h.trampoline, flagsOf_top_U.1⟩, ⟨_, _, h.trapframe, flagsOf_top_U.2⟩, ?_, ?_⟩
  · intro p f fl hv hU
    obtain ⟨h1, -, h3, -⟩ := h.space.data p (h.user_lt hv hU) f fl hv
    exact ⟨h1.ne_zero, h3⟩
  · intro p q f fl fl' hv hv' hU hU'
    exact h.space.inj p (h.user_lt hv hU) q (h.user_lt hv' hU') f fl fl' hv hv'

/-- What the kernel writes elsewhere does not touch an address space. -/
theorem Aspace.frame {S : Set Nat} (h : Aspace K s pt sz tf F) (hm : SameOff S s.mem s'.mem)
    (hN : ∀ t ∈ nodes s.mem pt, t ∉ S)
    (hh : Heap K s' F') (hap : ∀ t ∈ nodes s.mem pt, t ∉ F') (hd : ∀ f ∈ userFrames s.mem pt sz, f ∉ F') :
    Aspace K s' pt sz tf F' ∧ view s'.mem pt = view s.mem pt ∧ nodes s'.mem pt = nodes s.mem pt := by
  have hb := h.space.pages_le
  have hroot := root_congr h.space.table.skel.root hm (hN pt (root_mem _ _))
  have hv := view_congr h.space.table.skel hm hN
  have hn := hroot.nodes
  refine ⟨⟨⟨⟨hh, h.space.table.skel.of_root hroot, by rw [hn]; exact hap⟩, ?_, fun p hp f fl hf => ?_, ?_⟩, ?_, ?_, ?_⟩,
    hv, hn⟩
  · rw [hv]
    exact h.space.leaves
  · rw [hv] at hf
    rw [hn]
    obtain ⟨h1, -, h3, h4⟩ := h.space.data p hp f fl hf
    have hlt := (h.space.leaves p hp).mp (by rw [hf]; rfl)
    exact ⟨h1, hd f ⟨rfl, p, hlt, fl, by rw [Nat.zero_add]; exact hf⟩, h3, h4⟩
  · rw [hv]
    exact h.space.inj
  · rw [hn]
    exact h.frames
  · rw [hv]
    exact h.trampoline
  · rw [hv]
    exact h.trapframe

/-- A new page of the table, or none. -/
theorem Aspace.grown (h : Aspace K s pt sz tf F) (hg : Grown K pt s F s' F') (hv : view s'.mem pt = view s.mem pt) :
    Aspace K s' pt sz tf F' ∧
      F' ∪ nodes s'.mem pt ∪ userFrames s'.mem pt sz = F ∪ nodes s.mem pt ∪ userFrames s.mem pt sz := by
  refine ⟨⟨h.space.grown hg hv, fun t ht => ?_, ?_, ?_⟩, ?_⟩
  · exact (hg.node ht).elim (h.space.table.heap.frames t) (h.frames t)
  · rw [hv]
    exact h.trampoline
  · rw [hv]
    exact h.trapframe
  · unfold userFrames
    rw [hv, hg.sum]

theorem userFrames_extend {perm : Nat → Nat}
    (hx : Extended K pt perm bytes s F (pages sz) n s' F') (hn : pages sz + n = pages newsz) :
    userFrames s'.mem pt newsz = userFrames s.mem pt sz ∪ released true (view s'.mem pt) (pages sz) n := by
  ext f
  constructor
  · rintro ⟨-, k, hk, fl, hf⟩
    rw [Nat.zero_add] at hf
    by_cases hlt : k < pages sz
    · rw [hx.same k (by omega)] at hf
      exact Or.inl ⟨rfl, k, hlt, fl, by rw [Nat.zero_add]; exact hf⟩
    · exact Or.inr ⟨rfl, k - pages sz, by omega, fl, by rw [Nat.add_sub_cancel' (by omega)]; exact hf⟩
  · rintro (⟨-, k, hk, fl, hf⟩ | ⟨-, k, hk, fl, hf⟩)
    · rw [Nat.zero_add] at hf
      exact ⟨rfl, k, by omega, fl, by rw [Nat.zero_add, hx.same k (by omega)]; exact hf⟩
    · exact ⟨rfl, pages sz + k, by omega, fl, by rw [Nat.zero_add]; exact hf⟩

/-- The memory is extended. -/
theorem Aspace.extend {perm : Nat → Nat} (h : Aspace K s pt sz tf F)
    (hx : Extended K pt perm bytes s F (pages sz) n s' F') (hn : pages sz + n = max (pages sz) (pages newsz))
    (hle : sz ≤ newsz) : Aspace K s' pt newsz tf F' ∧
      F' ∪ nodes s'.mem pt ∪ userFrames s'.mem pt newsz = F ∪ nodes s.mem pt ∪ userFrames s.mem pt sz := by
  have hmono := pages_le hle
  have hsp := h.space.extend hx hn hle
  have hb := hsp.pages_le
  refine ⟨⟨hsp, fun t ht => ?_, ?_, ?_⟩, ?_⟩
  · have hin : t ∈ F ∪ nodes s.mem pt := hx.sum ▸ Or.inl (Or.inr ht)
    exact hin.elim (h.space.table.heap.frames t) (h.frames t)
  · rw [hx.same _ (by omega)]
    exact h.trampoline
  · rw [hx.same _ (by omega)]
    exact h.trapframe
  · rw [userFrames_extend hx (by omega), Set.union_comm (userFrames s.mem pt sz), ← Set.union_assoc, hx.sum]

/-! ## The steps -/

theorem Loading.nil (hc : Aspace K s pt 0 tf F) (hs : F ∪ nodes s.mem pt = F0) (hm : SameOff F0 s0.mem s.mem)
    (hk : s.kern = s0.kern) : Loading K s0 F0 pt tf guard s F 0 fun _ => 0 := by
  refine ⟨hc, ?_, hm, hk, fun p hp => absurd hp (by rw [pages_zero]; omega), fun va hva => ?_, fun _ _ => rfl⟩
  · rw [← hs]
    show F ∪ nodes s.mem pt ∪ released true (view s.mem pt) 0 0 = _
    rw [released_zero, Set.union_empty]
  · rw [pages_zero] at hva
    omega

/-- User pages are written. -/
theorem Loading.write (h : Loading K s0 F0 pt tf guard s F sz img) (hm : SameOff (userFrames s.mem pt sz) s.mem s'.mem)
    (hl : s'.freelist = s.freelist) (hk : s'.kern = s.kern)
    (hi : ∀ va < 4096 * pages sz, s'.mem (loc (view s.mem pt) va) = img' va) (hz : ∀ va, 4096 * pages sz ≤ va →
      img' va = 0) :
    Loading K s0 F0 pt tf guard s' F sz img' := by
  have hb := h.space.space.pages_le
  have huser : ∀ f ∈ userFrames s.mem pt sz, f ∉ F ∧ f ∉ nodes s.mem pt := by
    rintro f ⟨-, k, hk, fl, hf⟩
    obtain ⟨-, h2, h3, -⟩ := h.space.space.data (0 + k) (by omega) f fl hf
    exact ⟨h2, h3⟩
  obtain ⟨ha, hv, hn⟩ := h.space.frame hm (fun t ht hf => (huser t hf).2 ht)
    (h.space.space.table.heap.frame hm (fun f hf hu => (huser f hu).1 hf) hl) h.space.space.table.apart fun f hf =>
    (huser f hf).1
  have huf : userFrames s'.mem pt sz = userFrames s.mem pt sz := by
    unfold userFrames
    rw [hv]
  refine ⟨ha, ?_, h.off.trans (hm.mono ?_), hk.trans h.kern, ?_, fun va hva => ?_, hz⟩
  · rw [hn, huf]
    exact h.sum
  · rw [← h.sum]
    exact Set.subset_union_right
  · rw [hv]
    exact h.user
  · unfold umem
    rw [hv]
    exact hi va hva

/-- `n` bytes within one page. -/
theorem Loading.poke {g : Nat → UInt8} (h : Loading K s0 F0 pt tf guard s F sz img)
    (hv : view s.mem pt (va / 4096) = some (f, fl))
    (hva : va + n ≤ 4096 * pages sz) (hlt : va < 4096 * pages sz) (hn : va % 4096 + n ≤ 4096) :
    Loading K s0 F0 pt tf guard { s with mem := blit s.mem (f + va % 4096) n g } F sz (blit img va n g) := by
  have hb := h.space.space.pages_le
  have hal := view_aligned hv
  obtain ⟨f', fl', hv', hin⟩ := h.bound (p := va / 4096) (by omega)
  rw [hv] at hv'
  cases hv'
  refine h.write (SameOff.blit fun k hk => ?_) rfl rfl (fun x hx => ?_) fun x hx => ?_
  · rw [Nat.add_assoc, page_add hal (by omega)]
    exact hin
  · obtain ⟨e, el, hve, -⟩ := h.bound (p := x / 4096) (by omega)
    have hval := h.holds x hx
    unfold umem at hval
    rw [loc_eq hve] at hval ⊢
    have hale := view_aligned hve
    by_cases hp : x / 4096 = va / 4096
    · rw [hp, hv] at hve
      cases hve
      dsimp only
      by_cases hr : va ≤ x ∧ x < va + n
      · rw [show f + x % 4096 = f + va % 4096 + (x - va) by omega, blit_in (by omega)]
        rw [show x = va + (x - va) by omega, blit_in (by omega)]
        congr 1
        omega
      · rw [blit_out (by omega), blit_out (by omega), hval]
    · -- another page has another frame
      have hne : e ≠ f := fun he => hp (h.space.space.inj _ (by omega) _ (by omega) f el fl (he ▸ hve) hv)
      dsimp only
      rw [blit_out (by omega), blit_out (by omega), hval]
  · rw [blit_out (by omega), h.zero x hx]

theorem Loading.grown (h : Loading K s0 F0 pt tf guard s F sz img) (hg : Grown K pt s F s' F')
    (hv : view s'.mem pt = view s.mem pt) : Loading K s0 F0 pt tf guard s' F' sz img := by
  have hb := h.space.space.pages_le
  obtain ⟨ha, hsum⟩ := h.space.grown hg hv
  have hsub : F ∪ nodes s.mem pt ⊆ F0 := by
    rw [← h.sum]
    exact Set.subset_union_left
  refine ⟨ha, hsum.trans h.sum, h.off.trans (hg.off.mono hsub), hg.kern.trans h.kern, ?_, fun va hva => ?_, h.zero⟩
  · rw [hv]
    exact h.user
  · obtain ⟨f, fl, hf, -⟩ := h.bound (p := va / 4096) (by omega)
    have hval := h.holds va hva
    unfold umem at hval ⊢
    rw [hv]
    rw [loc_eq hf] at hval ⊢
    obtain ⟨-, h2, h3, -⟩ := h.space.space.data _ (by omega) f fl hf
    rw [hg.off _ (by rw [page_add (view_aligned hf) (Nat.mod_lt _ (by decide))]; exact fun hm => hm.elim h2 h3)]
    exact hval

theorem permAD_user_U (xperm : Nat) : (permAD (PTE_R ||| PTE_U ||| xperm) ||| PTE_V) &&& PTE_U ≠ 0 ∧
    (permAD (PTE_R ||| PTE_U ||| xperm) ||| PTE_V) &&& PTE_R ≠ 0 := by
  rw [permAD_or_V]
  unfold flagsOf
  simp only [Nat.and_or_distrib_right, ne_eq, Nat.or_eq_zero_iff]
  constructor
  · rintro ⟨⟨⟨⟨⟨-, h⟩, -⟩, -⟩, -⟩, -⟩
    exact absurd h (by decide)
  · rintro ⟨⟨⟨⟨⟨h, -⟩, -⟩, -⟩, -⟩, -⟩
    exact absurd h (by decide)

/-- New pages are zero, as `img` was there already. -/
theorem Loading.extend (h : Loading K s0 F0 pt tf guard s F sz img)
    (hx : Extended K pt (fun _ => PTE_R ||| PTE_U ||| xperm) (fun _ _ => 0) s F (pages sz) n s' F')
    (hn : pages sz + n = max (pages sz) (pages newsz)) (hle : sz ≤ newsz) :
      Loading K s0 F0 pt tf guard s' F' newsz img := by
  have hmono := pages_le hle
  obtain ⟨ha, hsum⟩ := h.space.extend hx hn hle
  have hb := ha.space.pages_le
  have hn' : pages sz + n = pages newsz := by omega
  have hsub : F ∪ nodes s.mem pt ⊆ F0 := by
    rw [← h.sum]
    exact Set.subset_union_left
  refine ⟨ha, hsum.trans h.sum, h.off.trans (hx.off.mono hsub), hx.kern.trans h.kern, fun p hp hg f fl hf => ?_,
    fun va hva => ?_, fun va hva => h.zero va (by omega)⟩
  · by_cases hlt : p < pages sz
    · rw [hx.same p (by omega)] at hf
      exact h.user p hlt hg f fl hf
    · obtain ⟨g, hg⟩ := hx.new (p - pages sz) (by omega)
      rw [Nat.add_sub_cancel' (by omega), hf] at hg
      cases hg
      exact permAD_user_U xperm
  · by_cases hlt : va / 4096 < pages sz
    · obtain ⟨f, fl, hf, -⟩ := h.bound hlt
      have hval := h.holds va (by omega)
      unfold umem at hval ⊢
      rw [loc_eq hf] at hval
      rw [loc_eq (by rw [hx.same _ (by omega)]; exact hf)]
      obtain ⟨-, h2, h3, -⟩ := h.space.space.data _ (by omega) f fl hf
      rw [hx.off _ (by rw [page_add (view_aligned hf) (Nat.mod_lt _ (by decide))]; exact fun hm => hm.elim h2 h3)]
      exact hval
    · obtain ⟨g, hg⟩ := hx.new (va / 4096 - pages sz) (by omega)
      have hz := hx.holds _ (by omega) g _ hg (va % 4096) (by omega)
      rw [Nat.add_sub_cancel' (by omega)] at hg
      unfold umem
      rw [loc_eq hg, hz, h.zero va (by omega)]

/-- `uvmalloc` of `exec`: on failure nothing has changed. -/
theorem Loading.uvmalloc_spec (h : Loading K s0 F0 pt tf guard s F sz img) (hx : xperm < 1024)
    (hfail : ∀ s' F', Loading K s0 F0 pt tf guard s' F' sz img → Q 0 s')
    (hok : ∀ s' F', Loading K s0 F0 pt tf guard s' F' (max sz newsz) img → Q (max sz newsz) s') :
    wp (uvmalloc K pt sz newsz xperm) Q E s := by
  by_cases hlt : newsz < sz
  · refine uvmalloc_small hlt ?_
    have := hok s F
    rw [show max sz newsz = sz by omega] at this
    exact this h
  · rw [show max sz newsz = newsz by omega] at hok
    refine (h.space.space.uvmalloc_spec hx (by omega)).imp fun r s' => ?_
    rintro (⟨rfl, F', hg, hv⟩ | ⟨rfl, k, F', hx', hk⟩)
    · exact hfail s' F' (h.grown hg hv)
    · exact hok s' F' (h.extend hx' hk (by omega))

/-! ## loadseg -/

theorem flags2perm_lt (flags : Nat) : flags2perm flags < 1024 := by
  unfold flags2perm
  dsimp only
  split <;> split <;> decide

/-- A page of the process's memory is found by `walkaddr`. -/
theorem Loading.walkaddr_spec (h : Loading K s0 F0 pt tf guard s F sz img) (hp : va / 4096 < pages sz)
    (hg : va / 4096 ≠ guard) (hQ : ∀ f fl, view s.mem pt (va / 4096) = some (f, fl) → f ≠ 0 → Q f s) :
    wp (walkaddr pt va) Q E s := by
  have hb := h.space.space.pages_le
  obtain ⟨f, fl, hf, -⟩ := h.bound hp
  obtain ⟨hU, -⟩ := h.user _ hp hg f fl hf
  refine Vm.walkaddr_spec h.space.space.table.skel (by omega) ?_
  rw [show va / 2 ^ 12 = va / 4096 from rfl, hf, userFrame_some hU]
  exact hQ f fl hf (h.space.space.data _ (by omega) f fl hf).1.ne_zero

/-- What is read is all there, or the file ends before. -/
theorem readCount_eq {size : Nat} (h : Fs.readCount size off n = n) (hn : 0 < n) :
    off + n < 2 ^ 32 ∧ off + n ≤ size := by
  unfold Fs.readCount at h
  split at h
  · omega
  · omega

theorem readCount_le {size : Nat} : Fs.readCount size off n ≤ n := by
  unfold Fs.readCount
  split <;> omega

/-- The bytes of a segment of `file`, which wraps like the argument of `readi`. -/
def segBytes (file : File) (offset k : Nat) : UInt8 := file.byte ((offset + k) % 2 ^ 32)

/-- A segment that lies in the process's memory: it is loaded, or the file ends before. -/
theorem loadsegLoop_spec {offset filesz fuel i : Nat} {img0 : Nat → UInt8}
    (h : Loading K s0 F0 pt tf guard s F sz (blit img0 va (min i filesz) (segBytes file offset)))
    (hva : va % 4096 = 0) (hend : va + filesz ≤ sz) (hg : pages sz ≤ guard) (hi : i % 4096 = 0)
    (hfuel : pages filesz < i / 4096 + fuel)
    (hfit : file.size + 4096 ≤ 2 ^ 32 → offset < 2 ^ 32 → i = 0 ∨ offset + min i filesz ≤ file.size) :
    wp (loadsegLoop pt va file offset filesz fuel i) (fun r s' =>
      (r = -1 ∧ ∃ img', Loading K s0 F0 pt tf guard s' F sz img') ∨
      (r = 0 ∧ Loading K s0 F0 pt tf guard s' F sz (blit img0 va filesz (segBytes file offset)) ∧
        (file.size + 4096 ≤ 2 ^ 32 → offset < 2 ^ 32 → filesz = 0 ∨ offset + filesz ≤ file.size))) E s := by
  have hb := h.space.space.pages_le
  have hsz := h.space.space.sz_le
  have hpg : sz ≤ 4096 * pages sz := by
    unfold pages
    omega
  induction fuel generalizing s i with
  | zero =>
    unfold loadsegLoop
    have hge : filesz ≤ i := by
      unfold pages at hfuel
      omega
    refine wp_neg (by omega) ?_
    rw [wp_pure]
    rw [show min i filesz = filesz by omega] at h hfit
    exact Or.inr ⟨rfl, h, fun h1 h2 => (hfit h1 h2).imp (by omega) id⟩
  | succ fuel ih =>
    unfold loadsegLoop
    refine wp_ite (fun hlt => ?_) fun hge => ?_
    · rw [show min i filesz = i by omega] at h hfit
      rw [wp_bind, Nat.mod_eq_of_lt (by omega : va + i < 2 ^ 32)]
      refine h.walkaddr_spec (by omega) (by omega) fun f fl hf h0 => ?_
      refine wp_neg h0 ?_
      rw [wp_bind, wp_modify]
      generalize hn : (if filesz - i < PGSIZE then filesz - i else PGSIZE) = n
      have hn1 : 0 < n ∧ n ≤ 4096 ∧ i + n = min (i + 4096) filesz := by
        have : PGSIZE = 4096 := rfl
        split at hn <;> omega
      generalize hoff : (offset + i) % 2 ^ 32 = off
      have hcl : Fs.readCount file.size off n ≤ n := readCount_le
      generalize hc : Fs.readCount file.size off n = cnt at hcl ⊢
      have h₁ : Loading K s0 F0 pt tf guard
          { s with mem := blit s.mem (f + (va + i) % 4096) cnt fun k => file.byte (off + k) } F sz _ :=
        h.poke hf (by omega) (by omega) (by omega)
      rw [show (va + i) % 4096 = 0 by omega, Nat.add_zero] at h₁
      refine wp_ite (fun _ => ?_) fun he => ?_
      · rw [wp_pure]
        exact Or.inl ⟨rfl, _, h₁⟩
      · have he : cnt = n := not_not.mp he
        rw [he] at hc h₁
        obtain ⟨hr1, hr2⟩ := readCount_eq hc hn1.1
        have hcat : blit (blit img0 va i (segBytes file offset)) (va + i) n (fun k => file.byte (off + k)) =
            blit img0 va (min (i + 4096) filesz) (segBytes file offset) := by
          rw [← hn1.2.2]
          refine blit_append (fun _ _ => rfl) fun k hk => ?_
          unfold segBytes
          congr 1
          omega
        rw [hcat] at h₁
        have hnext : (i + PGSIZE) % 2 ^ 32 = i + 4096 := by
          show (i + 4096) % 2 ^ 32 = _
          omega
        rw [hnext, he]
        refine ih h₁ (by omega) (by omega) fun h1 h2 => Or.inr ?_
        rcases hfit h1 h2 with h3 | h3
        · subst h3
          rw [Nat.add_zero, Nat.mod_eq_of_lt h2] at hoff
          omega
        · rw [Nat.mod_eq_of_lt (by omega)] at hoff
          omega
    · rw [wp_pure]
      rw [show min i filesz = filesz by omega] at h hfit
      exact Or.inr ⟨rfl, h, fun h1 h2 => (hfit h1 h2).imp (by omega) id⟩

theorem loadseg_spec {offset filesz : Nat} (h : Loading K s0 F0 pt tf guard s F sz img)
    (hva : va % 4096 = 0) (hend : va + filesz ≤ sz) (hg : pages sz ≤ guard) :
    wp (loadseg pt va file offset filesz) (fun r s' =>
      (r = -1 ∧ ∃ img', Loading K s0 F0 pt tf guard s' F sz img') ∨
      (r = 0 ∧ Loading K s0 F0 pt tf guard s' F sz (blit img va filesz (segBytes file offset)) ∧
        (file.size + 4096 ≤ 2 ^ 32 → offset < 2 ^ 32 → filesz = 0 ∨ offset + filesz ≤ file.size))) E s := by
  have hsz := h.space.space.sz_le
  unfold loadseg
  refine loadsegLoop_spec (i := 0) ?_ hva hend hg rfl ?_ fun _ _ => Or.inl rfl
  · rw [Nat.zero_min, blit_zero]
    exact h
  · unfold pages
    omega

/-! ## The segments -/

/-- The segments to load among the `n` program headers from `off` on. -/
def segs (file : File) : Nat → Nat → List Proghdr
  | 0, _ => []
  | n + 1, off =>
    if (file.ph off).type ≠ ELF_PROG_LOAD then segs file n ((off + 32) % 2 ^ 32)
    else file.ph off :: segs file n ((off + 32) % 2 ^ 32)

def place (file : File) (img : Nat → UInt8) (ph : Proghdr) : Nat → UInt8 :=
  blit img ph.vaddr ph.filesz (segBytes file ph.off)

/-- The segment lies in the process's memory, and in the file. -/
def Fits (file : File) (sz : Nat) (ph : Proghdr) : Prop :=
  ph.vaddr + ph.filesz ≤ sz ∧ (file.size + 4096 ≤ 2 ^ 32 → ph.filesz = 0 ∨ ph.off + ph.filesz ≤ file.size)

theorem execSegs_spec (h : Loading K s0 F0 pt tf guard s F sz img) (hg : 4096 ≤ guard) :
    wp (execSegs K pt file n off sz) (fun r s' =>
      (r.1 = false ∧ ∃ F' img', Loading K s0 F0 pt tf guard s' F' r.2 img') ∨
      (r.1 = true ∧ sz ≤ r.2 ∧ (∀ ph ∈ segs file n off, Fits file r.2 ph) ∧
        ∃ F', Loading K s0 F0 pt tf guard s' F' r.2 ((segs file n off).foldl (place file) img))) E s := by
  induction n generalizing s F sz img off with
  | zero =>
    unfold execSegs segs
    rw [wp_pure]
    exact Or.inr ⟨rfl, Nat.le_refl sz, fun ph hph => absurd hph List.not_mem_nil, F, h⟩
  | succ n ih =>
    unfold execSegs segs
    have hbad : ∀ {s' : St} {F' : Set Nat} {sz' : Nat} {img' : Nat → UInt8},
        Loading K s0 F0 pt tf guard s' F' sz' img' →
        ((false, sz').1 = false ∧ ∃ F' img', Loading K s0 F0 pt tf guard s' F' (false, sz').2 img') := fun h =>
          ⟨rfl, _, _, h⟩
    refine wp_ite (fun _ => ?_) fun _ => ?_
    · rw [wp_pure]
      exact Or.inl (hbad h)
    dsimp only
    generalize hph : file.ph off = ph
    have hlt : ph.vaddr < 2 ^ 32 ∧ ph.memsz < 2 ^ 32 ∧ ph.off < 2 ^ 32 := by
      rw [← hph]
      exact ⟨load32_lt _ _, load32_lt _ _, load32_lt _ _⟩
    refine wp_ite (fun ht => ?_) fun ht => ?_
    · rw [if_pos ht]
      exact ih h
    rw [if_neg ht]
    refine wp_ite (fun _ => ?_) fun hm => ?_
    · rw [wp_pure]
      exact Or.inl (hbad h)
    refine wp_ite (fun _ => ?_) fun hw => ?_
    · rw [wp_pure]
      exact Or.inl (hbad h)
    refine wp_ite (fun _ => ?_) fun ha => ?_
    · rw [wp_pure]
      exact Or.inl (hbad h)
    have hnew : (ph.vaddr + ph.memsz) % 2 ^ 32 = ph.vaddr + ph.memsz := by omega
    rw [wp_bind, hnew]
    refine h.uvmalloc_spec (flags2perm_lt _) (fun s1 F1 h₁ => ?_) fun s1 F1 h₁ => ?_
    · refine wp_pos rfl ?_
      rw [wp_pure]
      exact Or.inl (hbad h₁)
    refine wp_ite (fun h0 => ?_) fun _ => ?_
    · rw [wp_pure]
      rw [show max sz (ph.vaddr + ph.memsz) = sz by omega] at h₁
      exact Or.inl (hbad h₁)
    rw [wp_bind]
    have hb := h₁.space.space.pages_le
    have hal : ph.vaddr % 4096 = 0 := not_not.mp ha
    refine (loadseg_spec h₁ hal (by omega) (by omega)).imp fun r s2 => ?_
    rintro (⟨rfl, img', h₂⟩ | ⟨rfl, h₂, hfit⟩)
    · refine wp_pos (by decide) ?_
      rw [wp_pure]
      exact Or.inl (hbad h₂)
    · refine wp_neg (by decide) ?_
      refine (ih h₂).imp fun r s3 => ?_
      rintro (⟨h1, h2⟩ | ⟨h1, h2, h3, F', h4⟩)
      · exact Or.inl ⟨h1, h2⟩
      · refine Or.inr ⟨h1, by omega, fun q hq => ?_, F', h4⟩
        rcases List.mem_cons.mp hq with rfl | hq
        · exact ⟨by omega, fun hs => hfit hs hlt.2.2⟩
        · exact h3 q hq

end Xv6.Vm
