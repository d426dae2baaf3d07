/-
  Xv6.Vm.Args — `exec`'s arguments, and `exec` as a whole.

  The strings are pushed below each other, the pointers to them below the strings, all in
  the one page of the stack: `Pushed` is what the loop has done, `ArgsOk` what a program finds.
-/
import Xv6.Vm.Load
import Mathlib

namespace Xv6.Vm

variable {K : Image} {s s' s0 : St} {F F' F0 : Set Nat}
  {pt sz tf guard p q n f fl g w va dstva len newsz sp top argc : Nat}
  {img img' src : Nat → UInt8} {E : Panic → St → Prop} {ustack : Nat → Nat} {done argv : List (List UInt8)}
    {str : List UInt8}

/-! ## uvmclear -/

theorem and_bit (w i : Nat) : w &&& 2 ^ i = w / 2 ^ i % 2 * 2 ^ i := by
  rw [Nat.and_two_pow, Nat.testBit_eq_decide_div_mod_eq]
  rcases Nat.mod_two_eq_zero_or_one (w / 2 ^ i) with h | h
  · rw [h]
    simp
  · rw [h]
    simp

/-- Without U, the entry is the same. -/
theorem leaf_clear (h : leaf w = some (f, fl)) (hR : fl &&& PTE_R ≠ 0) :
    ∃ fl', leaf (w - (w &&& PTE_U)) = some (f, fl') ∧ fl' ≠ PTE_V := by
  obtain ⟨hV, hpa, hfl⟩ := leaf_some h
  have hU : w &&& PTE_U = w / 16 % 2 * 16 := and_bit w 4
  have hV' : w &&& PTE_V = w / 1 % 2 * 1 := and_bit w 0
  have hR' : fl &&& PTE_R = fl / 2 % 2 * 2 := and_bit fl 1
  rw [PTE2PA_eq] at hpa
  rw [PTE_FLAGS_eq] at hfl
  rw [hV'] at hV
  rw [hR'] at hR
  generalize hw : w - (w &&& PTE_U) = w'
  rw [hU] at hw
  have hV'' : w' &&& PTE_V = w' / 1 % 2 * 1 := and_bit w' 0
  refine ⟨w' % 1024, ?_, ?_⟩
  · unfold leaf
    have hfr : w' / 2 ^ 10 = w / 2 ^ 10 := by omega
    rw [if_pos (by rw [hV'']; omega), PTE2PA_eq, PTE_FLAGS_eq, hfr, hpa]
  · show w' % 1024 ≠ 1
    omega

/-- The flags of one page change. -/
theorem Space.reflag (h : Space K s pt sz F) (hg : Grown K pt s F s' F) (hn : nodes s'.mem pt = nodes s.mem pt)
    (hf : view s.mem pt g = some (f, fl)) (hv : view s'.mem pt = upd (view s.mem pt) g (some (f, n))) (hV : n ≠ PTE_V) :
    Space K s' pt sz F := by
  -- every page has the frame it had
  have hback : ∀ q e el, view s'.mem pt q = some (e, el) → ∃ el', view s.mem pt q = some (e, el') ∧
      (el = el' ∨ el = n) := by
    intro q e el he
    rw [hv, upd_apply] at he
    split at he
    · cases he
      exact ⟨fl, by rw [‹q = g›, hf], Or.inr rfl⟩
    · exact ⟨el, he, Or.inl rfl⟩
  refine ⟨hg.table, fun q hq => ?_, fun q hq e el he => ?_, fun q hq r hr e el el' he he' => ?_⟩
  · rw [← h.leaves q hq, hv, upd_apply]
    split
    · rw [‹q = g›, hf]
      exact ⟨fun _ => rfl, fun _ => rfl⟩
    · exact Iff.rfl
  · obtain ⟨el', hel, hor⟩ := hback q e el he
    obtain ⟨h1, h2, h3, h4⟩ := h.data q hq e el' hel
    rw [hn]
    refine ⟨h1, h2, h3, ?_⟩
    rcases hor with rfl | rfl
    · exact h4
    · exact hV
  · obtain ⟨a, ha, -⟩ := hback q e el he
    obtain ⟨b, hb, -⟩ := hback r e el' he'
    exact h.inj q hq r hr e a b ha hb

/-- The page becomes the guard page. -/
theorem Loading.clear {Q : Unit → St → Prop} (h : Loading K s0 F0 pt tf guard s F sz img) (hguard : 4096 ≤ guard)
    (hg : g < pages sz)
    (hQ : ∀ s', Loading K s0 F0 pt tf g s' F sz img → Q () s') : wp (uvmclear pt (4096 * g)) Q E s := by
  have hb := h.space.space.pages_le
  obtain ⟨f, fl, hf, -⟩ := h.bound hg
  obtain ⟨-, hR⟩ := h.user g hg (by omega) f fl hf
  obtain ⟨c, hc, hl⟩ := view_some hf
  obtain ⟨fl', hl', hV⟩ := leaf_clear hl hR
  unfold uvmclear
  rw [wp_bind]
  refine walk_some (by omega) (by rw [show 4096 * g / 2 ^ 22 = g / 1024 by omega]; exact hc) ?_
  rw [show 4096 * g / 2 ^ 12 = g by omega]
  have h0 := (h.space.space.table.skel.kid hc).1
  refine wp_neg (by omega) ?_
  rw [wp_bind, wp_load, wp_store]
  have hlt : load32 s.mem (c + 4 * (g % 1024)) - (load32 s.mem (c + 4 * (g % 1024)) &&& PTE_U) < 2 ^ 32 :=
    Nat.lt_of_le_of_lt (Nat.sub_le _ _) (load32_lt _ _)
  obtain ⟨hgr, hv⟩ := h.space.space.table.store hc (j := g % 1024) (by omega) hlt
  have hnode := (view_store h.space.space.table.skel hc (j := g % 1024) (by omega) hlt).1.nodes
  rw [hl', show 1024 * (g / 1024) + g % 1024 = g by omega] at hv
  generalize store32 s.mem (c + 4 * (g % 1024)) _ = m' at hgr hv hnode ⊢
  have hother : ∀ q, q ≠ g → view m' pt q = view s.mem pt q := fun q hq => by rw [hv, upd_ne hq]
  have hloc : ∀ va, loc (view m' pt) va = loc (view s.mem pt) va := fun va => by
    by_cases hva : va / 4096 = g
    · rw [loc_eq (v := view m' pt) (by rw [hva, hv, upd_same]), loc_eq (v := view s.mem pt) (by rw [hva]; exact hf)]
    · unfold loc
      rw [hother _ hva]
  have huf : userFrames m' pt sz = userFrames s.mem pt sz := by
    ext x
    constructor
    · rintro ⟨-, k, hk, xl, hx⟩
      by_cases he : 0 + k = g
      · rw [he, hv, upd_same] at hx
        cases hx
        exact ⟨rfl, k, hk, fl, by rw [he]; exact hf⟩
      · exact ⟨rfl, k, hk, xl, hother _ he ▸ hx⟩
    · rintro ⟨-, k, hk, xl, hx⟩
      by_cases he : 0 + k = g
      · rw [he, hf] at hx
        cases hx
        exact ⟨rfl, k, hk, fl', by rw [he, hv, upd_same]⟩
      · exact ⟨rfl, k, hk, xl, by rw [hother _ he]; exact hx⟩
  have hsub : F ∪ nodes s.mem pt ⊆ F0 := by
    rw [← h.sum]
    exact Set.subset_union_left
  refine hQ _ ⟨⟨h.space.space.reflag hgr hnode hf hv hV, by rw [hnode]; exact h.space.frames, ?_, ?_⟩, ?_,
    h.off.trans (hgr.off.mono hsub), h.kern, fun p hp hpg e el he => ?_, fun va hva => ?_, h.zero⟩
  · rw [hother _ (by omega)]
    exact h.space.trampoline
  · rw [hother _ (by omega)]
    exact h.space.trapframe
  · rw [hnode, huf]
    exact h.sum
  · dsimp only at he
    rw [hother p hpg] at he
    exact h.user p hp (by omega) e el he
  · obtain ⟨e, el, he, -⟩ := h.bound (p := va / 4096) (by omega)
    obtain ⟨-, h2, h3, -⟩ := h.space.space.data _ (by omega) e el he
    have hval := h.holds va hva
    unfold umem at hval ⊢
    dsimp only
    rw [hloc]
    rw [loc_eq he] at hval ⊢
    have hoff := hgr.off (e + va % 4096) (by
      rw [page_add (view_aligned he) (Nat.mod_lt _ (by decide))]
      exact fun hm => hm.elim h2 h3)
    exact hoff.trans hval

/-! ## copyout -/

/-- The process's memory is accessible, the guard page apart. -/
theorem Loading.acc (h : Loading K s0 F0 pt tf guard s F sz img) (hva : va < 4096 * pages sz) (hg : va / 4096 ≠ guard) :
    Acc (view s.mem pt) va ∧ tr (view s.mem pt) va = loc (view s.mem pt) va := by
  have hb := h.space.space.pages_le
  obtain ⟨f, fl, hf, -⟩ := h.bound (p := va / 4096) (by omega)
  obtain ⟨hU, -⟩ := h.user _ (by omega) hg f fl hf
  refine ⟨⟨by omega, f, fl, hf, view_V hf, hU⟩, ?_⟩
  rw [loc_eq hf]
  unfold tr
  rw [hf, userFrame_some hU]

theorem Loading.loc_inj (h : Loading K s0 F0 pt tf guard s F sz img) (hva : va < 4096 * pages sz)
    (hn : n < 4096 * pages sz) (he : loc (view s.mem pt) va = loc (view s.mem pt) n) : va = n := by
  have hb := h.space.space.pages_le
  obtain ⟨f, fl, hf, -⟩ := h.bound (p := va / 4096) (by omega)
  obtain ⟨g, gl, hg, -⟩ := h.bound (p := n / 4096) (by omega)
  rw [loc_eq hf, loc_eq hg] at he
  have h1 := view_aligned hf
  have h2 := view_aligned hg
  have hfg : f = g := by omega
  subst hfg
  have hp := h.space.space.inj _ (by omega) _ (by omega) f fl gl hf hg
  omega

theorem Loading.page_loc (h : Loading K s0 F0 pt tf guard s F sz img) (hva : va < 4096 * pages sz) :
    page (loc (view s.mem pt) va) ∈ userFrames s.mem pt sz := by
  obtain ⟨f, fl, hf, hin⟩ := h.bound (p := va / 4096) (by omega)
  rw [loc_eq hf, page_add (view_aligned hf) (Nat.mod_lt _ (by decide))]
  exact hin

/-- A copy to accessible memory succeeds. -/
theorem Loading.copyout_spec {Q : Int → St → Prop} (h : Loading K s0 F0 pt tf guard s F sz img)
    (hva : dstva + len ≤ 4096 * pages sz) (hg : ∀ k < len, (dstva + k) / 4096 ≠ guard)
    (hQ : ∀ s', Loading K s0 F0 pt tf guard s' F sz (blit img dstva len src) → Q 0 s') :
    wp (copyout pt dstva src len) Q E s := by
  have hb := h.space.space.pages_le
  have hacc : ∀ k < len, Acc (view s.mem pt) (dstva + k) ∧ tr (view s.mem pt) (dstva + k) = loc (view s.mem pt)
      (dstva + k) :=
    fun k hk => h.acc (by omega) (hg k hk)
  unfold copyout
  refine (copyoutLoop_spec h.space.userTable (by omega) (Nat.le_refl _)).imp fun r s' => ?_
  rintro ⟨j, hj, hw, ⟨rfl, rfl⟩ | ⟨-, hlt, hna⟩⟩
  · have hset := hw.set
    have hkeep : ∀ x, (∀ k < j, x ≠ loc (view s.mem pt) (dstva + k)) → s'.mem x = s.mem x := fun x hx =>
      hw.keep x fun k hk => by rw [(hacc k hk).2]; exact hx k hk
    refine hQ s' (h.write (fun x hx => ?_) hw.free hw.kern (fun x hx => ?_) fun x hx => ?_)
    · exact hkeep x fun k hk he => hx (by rw [he]; exact h.page_loc (by omega))
    · by_cases hr : dstva ≤ x ∧ x < dstva + j
      · obtain ⟨k, rfl⟩ := Nat.exists_eq_add_of_le hr.1
        have hk : k < j := by omega
        rw [blit_in hk, ← (hacc k hk).2, hset k hk, Nat.zero_add]
      · rw [blit_out (by omega), hkeep _ fun k hk he => ?_]
        · exact h.holds x hx
        · have := h.loc_inj hx (by omega) he
          omega
    · rw [blit_out (by omega), h.zero x hx]
  · exact absurd (hacc j hlt).1 hna

/-! ## The strings -/

/-- The strings `done` lie below each other in `[sp, top)`. -/
structure Pushed (done : List (List UInt8)) (ustack : Nat → Nat) (top sp : Nat) (img : Nat → UInt8) : Prop where
  low : ∀ i < done.length, sp ≤ ustack i
  high : ∀ i < done.length, ustack i + (done.getD i []).length + 1 ≤ top
  apart : ∀ i < done.length, ∀ j < i, ustack i + (done.getD i []).length + 1 ≤ ustack j
  bytes : ∀ i < done.length, ∀ k ≤ (done.getD i []).length, img (ustack i + k) = cbytes (done.getD i []) k

theorem Pushed.nil : Pushed [] ustack top sp img :=
  ⟨fun i hi => absurd hi (Nat.not_lt_zero i), fun i hi => absurd hi (Nat.not_lt_zero i),
    fun i hi => absurd hi (Nat.not_lt_zero i), fun i hi => absurd hi (Nat.not_lt_zero i)⟩

/-- A write below `sp` leaves the strings as they are. -/
theorem Pushed.below (h : Pushed done ustack top sp img) (src : Nat → UInt8) (hle : dstva + len ≤ sp) :
    Pushed done ustack top dstva (blit img dstva len src) := by
  refine ⟨fun i hi => ?_, h.high, h.apart, fun i hi k hk => ?_⟩
  · have := h.low i hi
    omega
  · have := h.low i hi
    rw [blit_out (by omega)]
    exact h.bytes i hi k hk

theorem Pushed.push (h : Pushed done ustack top sp img) (hlen : sp = dstva + (str.length + 1) + n) (htop : sp ≤ top) :
    Pushed (done ++ [str]) (upd ustack done.length dstva) top dstva (blit img dstva (str.length + 1) (cbytes str)) := by
  have hold := h.below (cbytes str) (by omega : dstva + (str.length + 1) ≤ sp)
  have hlt : ∀ i < (done ++ [str]).length, i < done.length ∨ i = done.length := fun i hi => by
    rw [List.length_append, List.length_singleton] at hi
    omega
  have hd : ∀ i < done.length, (done ++ [str]).getD i [] = done.getD i [] ∧ upd ustack done.length dstva i = ustack i :=
      fun i hi =>
    ⟨List.getD_append _ _ _ _ hi, upd_ne (Nat.ne_of_lt hi) _⟩
  have hl : (done ++ [str]).getD done.length [] = str := by
    rw [List.getD_append_right _ _ _ _ (Nat.le_refl _), Nat.sub_self]
    rfl
  refine ⟨fun i hi => ?_, fun i hi => ?_, fun i hi j hj => ?_, fun i hi k hk => ?_⟩
  · rcases hlt i hi with hi | rfl
    · rw [(hd i hi).2]
      exact hold.low i hi
    · rw [upd_same]
  · rcases hlt i hi with hi | rfl
    · rw [(hd i hi).1, (hd i hi).2]
      exact hold.high i hi
    · rw [upd_same, hl]
      omega
  · rcases hlt i hi with hi | rfl
    · rw [(hd i hi).1, (hd i hi).2, (hd j (by omega)).2]
      exact hold.apart i hi j hj
    · have := h.low j hj
      rw [upd_same, hl, (hd j hj).2]
      omega
  · rcases hlt i hi with hi | rfl
    · rw [(hd i hi).1] at hk ⊢
      rw [(hd i hi).2]
      exact hold.bytes i hi k hk
    · rw [hl] at hk ⊢
      rw [upd_same, blit_in (by omega)]

theorem wp_subSp {Q : Nat → St → Prop} (h : n ≤ sp) (hQ : Q (sp - n) s) : wp (subSp sp n) Q E s := by
  unfold subSp
  rw [if_pos h]
  exact hQ

/-- The loop over the strings: none of them is so long that `sp` wraps. -/
theorem execArgs_spec {todo : List (List UInt8)} {base : Nat} (h : Loading K s0 F0 pt tf guard s F sz img)
    (hp : Pushed done ustack sz sp img)
    (hbase : base + 4096 = sz) (hg : 4096 * (guard + 1) = base) (hlo : base ≤ sp) (hhi : sp ≤ sz) (hal : sp % 16 = 0)
    (hstr : ∀ str ∈ todo, str.length < 4096) :
    wp (execArgs pt base todo done.length sp ustack) (fun r s' =>
      (r = none ∧ ∃ img', Loading K s0 F0 pt tf guard s' F sz img') ∨
      ∃ sp' ustack' img', r = some (done.length + todo.length, sp', ustack') ∧
        Loading K s0 F0 pt tf guard s' F sz img' ∧
        Pushed (done ++ todo) ustack' sz sp' img' ∧ base ≤ sp' ∧ sp' ≤ sz ∧ sp' % 16 = 0 ∧ ∀ va < base,
          img' va = img va) E s := by
  have hpg : 4096 * pages sz = sz := by
    unfold pages
    omega
  induction todo generalizing s sp ustack img done with
  | nil =>
    unfold execArgs
    rw [wp_pure, List.append_nil]
    exact Or.inr ⟨sp, ustack, img, rfl, h, hp, hlo, hhi, hal, fun _ _ => rfl⟩
  | cons str todo ih =>
    have hlen := hstr str (List.mem_cons_self)
    unfold execArgs
    refine wp_ite (fun _ => ?_) fun _ => ?_
    · rw [wp_pure]
      exact Or.inl ⟨rfl, img, h⟩
    rw [wp_bind]
    refine wp_subSp (by omega) ?_
    dsimp only
    generalize hsp : sp - (str.length + 1) - (sp - (str.length + 1)) % 16 = sp'
    refine wp_ite (fun _ => ?_) fun hge => ?_
    · rw [wp_pure]
      exact Or.inl ⟨rfl, img, h⟩
    rw [wp_bind]
    refine h.copyout_spec (by omega) (fun k hk => by omega) fun s1 h₁ => ?_
    refine wp_neg (by decide) ?_
    have hp1 := hp.push (by omega : sp = sp' + (str.length + 1) + (sp - (str.length + 1)) % 16) hhi
    have hl : (done ++ [str]).length = done.length + 1 := by rw [List.length_append, List.length_singleton]
    rw [← hl]
    refine (ih h₁ hp1 (by omega) (by omega) (by omega) fun t ht => hstr t (List.mem_cons_of_mem _ ht)).imp
      fun r s' => ?_
    rintro (hbad | ⟨sp2, us2, img2, hr, h2, hp2, hlo2, hhi2, hal2, hsame⟩)
    · exact Or.inl hbad
    · rw [List.append_assoc] at hp2
      refine Or.inr ⟨sp2, us2, img2, ?_, h2, hp2, hlo2, hhi2, hal2, fun va hva => ?_⟩
      · rw [hr, hl, List.length_cons, Nat.add_assoc, Nat.add_comm 1]
      · rw [hsame va hva, blit_out (by omega)]

/-! ## The pointers -/

theorem load32_words {a : Nat → Nat} {i : Nat} (hi : i < n) (ha : a i < 2 ^ 32) :
    load32 (blit img sp (n * 4) (words a)) (sp + 4 * i) = a i := by
  have hk : ∀ k < 4, blit img sp (n * 4) (words a) (sp + 4 * i + k) = UInt8.ofNat (a i / 2 ^ (8 * k)) := fun k hk => by
    rw [Nat.add_assoc, blit_in (by omega)]
    unfold words
    rw [show (4 * i + k) / 4 = i by omega, show (4 * i + k) % 4 = k by omega]
  unfold load32
  rw [hk 1 (by decide), hk 2 (by decide), hk 3 (by decide),
    show blit img sp (n * 4) (words a) (sp + 4 * i) = UInt8.ofNat (a i / 2 ^ (8 * 0)) from hk 0 (by decide)]
  simp only [UInt8.toNat_ofNat']
  omega

def CString (mem : Nat → UInt8) (a : Nat) (str : List UInt8) : Prop :=
  (∀ k (hk : k < str.length), mem (a + k) = str[k] ∧ mem (a + k) ≠ 0) ∧ mem (a + str.length) = 0

/-- What `main` finds: at `sp` the pointers, then a null pointer; the strings above them, each apart from the others;
    all of
    it in the page below `sz`. -/
structure ArgsOk (argv : List (List UInt8)) (mem : Nat → UInt8) (sp sz : Nat) (ptr : Nat → Nat) : Prop where
  aligned : sp % 16 = 0
  stack : sz ≤ sp + 4096 ∧ sp + 4 * (argv.length + 1) ≤ sz
  pointer : ∀ i < argv.length, load32 mem (sp + 4 * i) = ptr i
  null : load32 mem (sp + 4 * argv.length) = 0
  string : ∀ i (hi : i < argv.length), CString mem (ptr i) argv[i]
  above : ∀ i < argv.length, sp + 4 * (argv.length + 1) ≤ ptr i
  below : ∀ i (hi : i < argv.length), ptr i + argv[i].length + 1 ≤ sz
  apart : ∀ i (hi : i < argv.length), ∀ j < i, ptr i + argv[i].length + 1 ≤ ptr j

theorem getD_eq {α : Type} {l : List α} {i : Nat} (hi : i < l.length) (d : α) : l.getD i d = l[i] := by
  rw [List.getD_eq_getElem?_getD, List.getElem?_eq_getElem hi]
  rfl

theorem Pushed.argsOk (h : Pushed argv ustack sz sp img) (hc : ∀ str ∈ argv, (0 : UInt8) ∉ str)
    (hlen : dstva + (argv.length + 1) * 4 ≤ sp) (hal : dstva % 16 = 0) (hlo : sz ≤ dstva + 4096) (hsz : sp ≤ sz)
    (hlt : sz < 2 ^ 32) :
    ArgsOk argv (blit img dstva ((argv.length + 1) * 4) (words (upd ustack argv.length 0))) dstva sz ustack := by
  have hb := h.below (words (upd ustack argv.length 0)) hlen
  have hhigh : ∀ i (hi : i < argv.length), ustack i + argv[i].length + 1 ≤ sz := fun i hi => by
    rw [← getD_eq hi []]
    exact h.high i hi
  refine ⟨hal, ⟨hlo, by omega⟩, fun i hi => ?_, ?_, fun i hi => ⟨fun k hk => ?_, ?_⟩, fun i hi => ?_, hhigh,
    fun i hi j hj => ?_⟩
  · have := hhigh i hi
    rw [load32_words (by omega) (by rw [upd_ne (Nat.ne_of_lt hi)]; omega), upd_ne (Nat.ne_of_lt hi)]
  · rw [load32_words (by omega) (by rw [upd_same]; omega), upd_same]
  · have hbyte := hb.bytes i hi k (by rw [getD_eq hi]; omega)
    rw [getD_eq hi] at hbyte
    unfold cbytes at hbyte
    rw [getD_eq hk] at hbyte
    rw [hbyte]
    exact ⟨rfl, fun h0 => hc _ (List.getElem_mem hi) (h0 ▸ List.getElem_mem hk)⟩
  · have hbyte := hb.bytes i hi argv[i].length (by rw [getD_eq hi])
    rw [hbyte, getD_eq hi]
    unfold cbytes
    exact List.getD_eq_default _ _ (Nat.le_refl _)
  · have := h.low i hi
    omega
  · rw [← getD_eq hi []]
    exact h.apart i hi j hj

/-- Sizes up to a page boundary. -/
theorem Loading.round (h : Loading K s0 F0 pt tf guard s F sz img) :
    Loading K s0 F0 pt tf guard s F (4096 * pages sz) img := by
  have hp : pages (4096 * pages sz) = pages sz := by
    generalize pages sz = n
    unfold pages
    omega
  have huf : userFrames s.mem pt (4096 * pages sz) = userFrames s.mem pt sz := by
    unfold userFrames
    rw [hp]
  refine ⟨⟨⟨h.space.space.table, ?_, h.space.space.data, h.space.space.inj⟩, h.space.frames, h.space.trampoline,
    h.space.trapframe⟩, ?_, h.off, h.kern, ?_, ?_, ?_⟩
  · rw [hp]
    exact h.space.space.leaves
  · rw [huf]
    exact h.sum
  · rw [hp]
    exact h.user
  · rw [hp]
    exact h.holds
  · rw [hp]
    exact h.zero

/-- The stack: a guard page, and a page with the arguments. -/
theorem execStack_spec (h : Loading K s0 F0 pt tf guard s F sz img) (hguard : 4096 ≤ guard)
    (hargc : argv.length < MAXARG) (hstr : ∀ str ∈ argv, str.length < 4096 ∧ (0 : UInt8) ∉ str) :
    wp (execStack K pt sz argv) (fun r s' =>
      (r.1 = none ∧ ∃ g F' img', Loading K s0 F0 pt tf g s' F' r.2 img') ∨
      ∃ sp ptr F' img', r = (some (argv.length, sp), 4096 * (pages sz + 2)) ∧
        Loading K s0 F0 pt tf (pages sz) s' F' (4096 * (pages sz + 2)) img' ∧
        ArgsOk argv img' sp (4096 * (pages sz + 2)) ptr ∧ ∀ va < 4096 * pages sz, img' va = img va) E s := by
  have hb := h.space.space.pages_le
  have hmax : max (4096 * pages sz) (4096 * pages sz + 8192) = 4096 * (pages sz + 2) := by omega
  have hnew : (4096 * pages sz + 2 * PGSIZE) % 2 ^ 32 = 4096 * pages sz + 8192 := by
    show (4096 * pages sz + 2 * 4096) % 2 ^ 32 = _
    omega
  unfold execStack
  rw [PGROUNDUP_pages_eq h.space.space.sz_le]
  dsimp only
  rw [wp_bind, hnew]
  refine h.round.uvmalloc_spec (by decide) (fun s1 F1 h₁ => ?_) fun s1 F1 h₁ => ?_
  · refine wp_pos rfl ?_
    rw [wp_pure]
    exact Or.inl ⟨rfl, guard, F1, img, h₁⟩
  rw [hmax] at h₁ ⊢
  generalize hsz : 4096 * (pages sz + 2) = top at h₁ ⊢
  have hpg : pages top = pages sz + 2 := by
    unfold pages at hsz ⊢
    omega
  have htop := h₁.space.space.sz_le
  refine wp_neg (by omega) ?_
  have hclear : (top + 2 ^ 32 - 2 * PGSIZE) % 2 ^ 32 = 4096 * pages sz := by
    show (top + 2 ^ 32 - 2 * 4096) % 2 ^ 32 = _
    omega
  rw [wp_bind, hclear]
  refine h₁.clear hguard (by omega) fun s2 h₂ => ?_
  rw [wp_bind]
  obtain ⟨base, hbase⟩ : ∃ base, base + 4096 = top := ⟨top - 4096, by omega⟩
  rw [show top - PGSIZE = base by show top - 4096 = base; omega]
  refine (execArgs_spec h₂ (Pushed.nil : Pushed [] (fun _ => 0) top top img) hbase (by omega) (by omega)
    (Nat.le_refl top) (by omega) fun str hs => (hstr str hs).1).imp fun r s3 => ?_
  rintro (⟨rfl, img3, h₃⟩ | ⟨sp, ustack, img3, rfl, h₃, hp3, hlo, hhi, hal, hsame⟩)
  · rw [wp_pure]
    exact Or.inl ⟨rfl, _, F1, img3, h₃⟩
  rw [List.nil_append] at hp3
  rw [List.length_nil, Nat.zero_add]
  refine wp_neg (by omega) ?_
  rw [wp_bind]
  have hargc' : argv.length < 16 := hargc
  refine wp_subSp (by omega) ?_
  generalize hsp : sp - (argv.length + 1) * 4 - (sp - (argv.length + 1) * 4) % 16 = sp'
  refine wp_ite (fun _ => ?_) fun hge => ?_
  · rw [wp_pure]
    exact Or.inl ⟨rfl, _, F1, img3, h₃⟩
  rw [wp_bind]
  refine h₃.copyout_spec (by omega) (fun k hk => by omega) fun s4 h₄ => ?_
  refine wp_neg (by decide) ?_
  rw [wp_pure]
  refine Or.inr ⟨sp', ustack, F1, _, rfl, h₄, hp3.argsOk (fun str hs => (hstr str hs).2) (by omega) (by omega)
    (by omega) hhi (by omega), fun va hva => ?_⟩
  rw [blit_out (by omega), hsame va (by omega)]

end Xv6.Vm
