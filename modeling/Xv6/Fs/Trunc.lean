/-
  Xv6.Fs.Trunc — `itrunc`.

  The blocks of an inode are given back one at a time, while the inode's size, and for the
  indirect block its entries, still speak of them. `Freed` follows the owners that are
  left: `g` is the block each place still has. `bfree` of a block that a place has does
  not panic and takes it from that place (`bfree_place`); at the end the inode has none
  (`itrunc_spec`).
-/
import Xv6.Fs.Core

namespace Xv6.Fs

variable {sb : Superblock} {v : Nat → Dinode} {m i : Nat} {s s0 s' : St} {g : Nat × Pos → Nat}

/-- Blocks have been freed since `s0`; `g` is what each place has left. -/
structure Freed (sb : Superblock) (s0 : St) (g : Nat × Pos → Nat) (s : St) : Prop where
  owns : Owns g (sb.Used s.cache)
  meta_ : ∀ b, b < sb.nmeta → sb.bit s.cache b = true
  frame : ∀ y, ¬ sb.Bitmap y → s.cache y = s0.cache y
  dirty : ∀ y, s.cache y = s0.cache y ∨ y ∈ s.lh
  ext : Ext sb [] s0 s

/-- The table is no concern of `Freed`. -/
theorem Freed.node (h : Freed sb s0 g s) (i : Nat) (ip : Inode) : Freed sb s0 g (s.node i ip) :=
  ⟨h.owns, h.meta_, h.frame, h.dirty, h.ext.trans (.of_eq rfl rfl rfl rfl rfl)⟩

/-- `bfree` of what place `a` has. -/
theorem bfree_place (h : Freed sb s0 g s) (ho : s0.outstanding = 1) {a : Nat × Pos} (ha : g a ≠ 0) :
    wp (bfree sb (g a)) (fun _ s' => s'.itable = s.itable ∧ Freed sb s0 (fun b => if b = a then 0 else g b) s')
      (TooBig sb 0 s0) s := by
  obtain ⟨hlow, hhigh, hbit⟩ := h.owns.used_of ha
  have hbm := sb.bblock_bitmap hhigh
  have ho1 : s.outstanding = 1 := h.ext.outstanding.trans ho
  refine (bfree_spec ho1 hbit).mono (fun _ s' hs => ?_) fun e s' hf => TooBig.after h.ext hf (Nat.le_refl _)
  subst hs
  have bits : ∀ b, sb.bit (s.write (sb.bblock (g a)) (clearBit (s.cache (sb.bblock (g a))) (g a % BPB))).cache b =
      (sb.bit s.cache b && !decide (b = g a)) := fun b => bit_clear b
  refine ⟨rfl, h.owns.release (a := a) (if_pos rfl) (fun b hb => if_neg hb) fun y _ => ?_, fun b hb => ?_,
    fun y hy => ?_, fun y => ?_, h.ext.trans (ext_write (Or.inl hbm))⟩
  · simp only [Superblock.Used, bits, Bool.and_eq_true, Bool.not_eq_eq_eq_not, Bool.not_true, decide_eq_false_iff_not]
    tauto
  · rw [bits, h.meta_ b hb, decide_eq_false (by omega)]; rfl
  · have : y ≠ sb.bblock (g a) := fun e => hy (e ▸ hbm)
    rw [St.write_cache, upd_ne this]; exact h.frame y hy
  · by_cases e : y = sb.bblock (g a)
    · exact Or.inr (mem_absorb.mpr (Or.inr e))
    · rw [St.write_cache, upd_ne e]
      exact (h.dirty y).imp id fun hy => mem_absorb.mpr (Or.inl hy)

/-! ## The direct blocks -/

/-- The places' blocks while the copy of inode `m` is `d`. -/
theorem own_addr_zero {c : Disk} {d : Dinode} (hm : Live sb v m) (hd : d.type ≠ 0) {k : Nat} (hk : k ≠ NDIRECT)
    (a : Nat × Pos) :
    (if a = (m, .addr k) then 0 else own sb (upd v m d) c a) = own sb
      (upd v m { d with addrs := upd d.addrs k 0 }) c a := by
  obtain ⟨m', p⟩ := a
  have l1 := live_upd (d := d) hm hd m'
  have l2 := live_upd (d := { d with addrs := upd d.addrs k 0 }) hm hd m'
  by_cases hm' : Live sb v m'
  · rw [own_live (l1.mpr hm'), own_live (l2.mpr hm')]
    by_cases e : m' = m
    · subst e
      rw [upd_same, upd_same]
      cases p with
      | addr k' =>
        by_cases ek : k' = k
        · simp [ptr, ek]
        · simp [ptr, ek]
      | entry j => simp [ptr, upd_ne (Ne.symm hk)]
    · rw [upd_ne e, upd_ne e, if_neg fun h => e (congrArg Prod.fst h)]
  · rw [own_dead (mt l1.mp hm'), own_dead (mt l2.mp hm')]
    exact ite_self 0

theorem itruncDirect_spec (hm : Live sb v m) (ho : s0.outstanding = 1) :
    ∀ (ks : List Nat) {s : St} {d : Dinode}, (∀ k ∈ ks, k ≠ NDIRECT) → d.type ≠ 0 →
      Freed sb s0 (own sb (upd v m d) s0.cache) s → (s.itable i).copy = d →
      wp (itruncDirect sb i ks)
        (fun _ s' => ∃ d', d' = { d with addrs := d'.addrs } ∧ (∀ k, d'.addrs k = if k ∈ ks then 0 else d.addrs k) ∧
          s'.itable = upd s.itable i { s.itable i with copy := d' } ∧ Freed sb s0 (own sb (upd v m d') s0.cache) s')
        (TooBig sb 0 s0) s
  | [], s, d, _, _, hf, hc => by
    simp only [itruncDirect, wp_pure]
    refine ⟨d, rfl, by simp, ?_, hf⟩
    rw [← hc]; exact (upd_self _ _).symm
  | k :: ks, s, d, hks, hd, hf, hc => by
    have hl := live_upd (d := d) hm hd m
    simp only [itruncDirect, wp_bind, wp_get, hc]
    refine wp_ite (fun h0 => ?_) fun h0 => ?_
    · -- address `k` gives its block back
      have ha : own sb (upd v m d) s0.cache (m, .addr k) = d.addrs k := by
        rw [own_live (hl.mpr hm), upd_same, ptr_addr]
      simp only [wp_bind, wp_setCopy]
      rw [← ha]
      refine (bfree_place hf ho (by rw [ha]; exact h0)).imp fun _ s1 h₁ => ?_
      obtain ⟨ht, hf1⟩ := h₁
      have hkN : k ≠ NDIRECT := hks k (by simp)
      rw [funext (own_addr_zero hm hd hkN)] at hf1
      rw [ht, hc]
      refine (itruncDirect_spec hm ho ks (s := s1.node i _) (d := { d with addrs := upd d.addrs k 0 })
        (fun k' hk' => hks k' (by simp [hk'])) hd (hf1.node i _) (by simp)).imp fun _ s' h' => ?_
      obtain ⟨d', h1, h2, h3, h4⟩ := h'
      refine ⟨d', h1, fun k' => ?_, ?_, h4⟩
      · rw [h2]
        by_cases ek : k' = k
        · simp [ek]
        · simp [ek]
      · rw [h3, St.node_itable, ht, upd_same, upd_upd]
    · rw [not_not] at h0
      refine (itruncDirect_spec hm ho ks (fun k' hk' => hks k' (by simp [hk'])) hd hf hc).imp fun _ s' h' => ?_
      obtain ⟨d', h1, h2, h3, h4⟩ := h'
      refine ⟨d', h1, fun k' => ?_, h3, h4⟩
      rw [h2]
      by_cases ek : k' = k
      · simp [ek, h0]
      · simp [ek]

/-! ## The indirect block -/

theorem itruncIndirect_spec (ho : s0.outstanding = 1) {a : Block} :
    ∀ (js : List Nat) {s : St} {g : Nat × Pos → Nat}, js.Nodup → (∀ j ∈ js, g (m, .entry j) = le32 a (4 * j)) →
      Freed sb s0 g s →
      wp (itruncIndirect sb a js)
        (fun _ s' => s'.itable = s.itable ∧ ∃ g', Freed sb s0 g' s' ∧ (∀ j ∈ js, g' (m, .entry j) = 0) ∧
          ∀ b, (∀ j ∈ js, b ≠ (m, .entry j)) → g' b = g b)
        (TooBig sb 0 s0) s
  | [], s, g, _, _, hf => by
    simp only [itruncIndirect, wp_pure]
    exact ⟨trivial, g, hf, by simp, fun _ _ => rfl⟩
  | j :: js, s, g, hn, hg, hf => by
    obtain ⟨hj, hn⟩ := List.nodup_cons.mp hn
    have hgj := hg j (by simp)
    simp only [itruncIndirect]
    refine wp_ite (fun h0 => ?_) fun h0 => ?_
    · simp only [wp_bind]
      rw [← hgj]
      refine (bfree_place hf ho (by rw [hgj]; exact h0)).imp fun _ s1 h₁ => ?_
      obtain ⟨ht, hf1⟩ := h₁
      refine (itruncIndirect_spec ho js hn (fun j' hj' => ?_) hf1).imp fun _ s' h' => ?_
      · have : j' ≠ j := fun e => hj (e ▸ hj')
        simp only [Prod.mk.injEq, Pos.entry.injEq, this, and_false, if_false]
        exact hg j' (by simp [hj'])
      · obtain ⟨h1, g', h2, h3, h4⟩ := h'
        refine ⟨h1.trans ht, g', h2, fun j' hj' => ?_, fun b hb => ?_⟩
        · rcases List.mem_cons.mp hj' with rfl | hj'
          · rw [h4 _ fun j'' hj'' e => hj (by simp only [Prod.mk.injEq, Pos.entry.injEq] at e; rw [e.2]; exact hj'')]
            simp
          · exact h3 j' hj'
        · rw [h4 b fun j' hj' => hb j' (by simp [hj']), if_neg (hb j (by simp))]
    · rw [not_not] at h0
      refine (itruncIndirect_spec ho js hn (fun j' hj' => hg j' (by simp [hj'])) hf).imp fun _ s' h' => ?_
      obtain ⟨h1, g', h2, h3, h4⟩ := h'
      refine ⟨h1, g', h2, fun j' hj' => ?_, fun b hb => h4 b fun j' hj' => hb j' (by simp [hj'])⟩
      rcases List.mem_cons.mp hj' with rfl | hj'
      · rw [h4 _ fun j'' hj'' e => hj (by simp only [Prod.mk.injEq, Pos.entry.injEq] at e; rw [e.2]; exact hj''), hgj,
          h0]
      · exact h3 j' hj'

/-! ## `itrunc` -/

def Dinode.cut (d : Dinode) : Dinode := { d with addrs := fun _ => 0, size := 0 }

theorem ptr_cut (d : Dinode) (c : Disk) (p : Pos) : ptr d.cut c p = 0 := by
  cases p <;> simp [ptr, Dinode.cut]

theorem Dinode.Wf.cut {d : Dinode} (h : d.Wf) : d.cut.Wf :=
  ⟨h.type, h.major, h.minor, h.nlink, by simp [Dinode.cut], by simp [Dinode.cut], by simp [Dinode.cut]⟩

structure AllFreed (sb : Superblock) (v : Nat → Dinode) (m : Nat) (s : St) (g : Nat × Pos → Nat) (s' : St) : Prop where
  freed : Freed sb s g s'
  mine : ∀ p, g (m, p) = 0
  other : ∀ m' p, m' ≠ m → g (m', p) = own sb v s.cache (m', p)

namespace AllFreed

theorem own_eq (hm : Live sb v m) (h : AllFreed sb v m s g s') (hf : FsOk sb v s.cache) (a : Nat × Pos) :
    own sb (upd v m (v m).cut) s'.cache a = g a := by
  have hdata : ∀ y, sb.nmeta ≤ y → s'.cache y = s.cache y := fun y hy => h.freed.frame y (sb.not_bitmap hy)
  obtain ⟨m', p⟩ := a
  have hl := live_upd (d := (v m).cut) hm hm.2 m'
  by_cases e : m' = m
  · subst e
    rw [own_live (hl.mpr hm), upd_same, ptr_cut, h.mine]
  · rw [h.other m' p e]
    by_cases hm' : Live sb v m'
    · rw [own_live (hl.mpr hm'), upd_ne e, own_live hm', ptr_low hf hm' hdata]
    · rw [own_dead (mt hl.mp hm'), own_dead hm']

theorem fs (hm : Live sb v m) (h : AllFreed sb v m s g s') (hf : FsOk sb v s.cache) :
    FsOk sb (upd v m (v m).cut) s'.cache := by
  have hdata : ∀ y, sb.nmeta ≤ y → s'.cache y = s.cache y := fun y hy => h.freed.frame y (sb.not_bitmap hy)
  have hl := live_upd (d := (v m).cut) hm hm.2
  refine ⟨forall_upd (P := fun m (d : Dinode) => sb.IsInum m → d.Wf) (fun m' _ => hf.wf m') fun h1 => (hf.wf m h1).cut,
    h.freed.owns.congr (h.own_eq hm hf) fun _ _ => Iff.rfl, h.freed.meta_, fun m' hm' => ?_, fun m' hm' k hk => ?_⟩
  · by_cases e : m' = m
    · rw [e, upd_same]; exact Nat.zero_le _
    · rw [upd_ne e]; exact hf.size_le m' ((hl m').mp hm')
  · by_cases e : m' = m
    · rw [e, upd_same] at hk
      exact absurd hk (Nat.not_lt_zero _)
    · rw [upd_ne e] at hk ⊢
      rw [blockAt, ptr_low hf ((hl m').mp hm') hdata]
      exact hf.full m' ((hl m').mp hm') k hk

/-- The copy is truncated too. -/
theorem core (h : AllFreed sb v m s g s') (hc : Core sb v m s) (hi : Opened s i m) (hl : s.lh ⊆ s'.lh)
    (hd : s'.disk = s.disk)
    (ht : s'.itable = upd s.itable i { s.itable i with copy := (v m).cut }) : Core sb (upd v m (v m).cut) m s' := by
  have hm := hc.live hi
  refine ⟨h.fs hm hc.fs, fun m' h1 h2 => ?_, ?_, ?_, ?_⟩
  · rw [upd_ne h2, ← hc.agree m' h1 h2]
    exact ino_congr h1 fun y hy => h.freed.frame y (sb.not_bitmap_low hy)
  · rw [ht]; exact table_setCopy hc hi hm.2
  · rw [ht]; exact unique_setCopy hc
  · refine hc.clean.step hd hl (fun y => (h.freed.dirty y).imp id Or.inl) (fun a h0 => Or.inl ?_) fun m' hm' ht' => ?_
    · obtain ⟨m', p⟩ := a
      rw [h.own_eq hm hc.fs] at h0 ⊢
      exact h.other m' p fun e => h0 (by rw [e]; exact h.mine p)
    · by_cases e : m' = m
      · rw [e, upd_same] at ht'
        rw [e]; exact ht'
      · rwa [upd_ne e] at ht'

end AllFreed

/-- The entries of the indirect block `ind`, then the block itself. -/
theorem itruncEntries_spec (ho : s0.outstanding = 1) {ind : Nat} {js : List Nat} (hn : js.Nodup) (h0 : ind ≠ 0)
    (hf : Freed sb s0 g s)
    (hind : g (m, .addr NDIRECT) = ind) (hj : ∀ j ∈ js, g (m, .entry j) = le32 (s.cache ind) (4 * j)) :
    wp (itruncIndirect sb (s.cache ind) js)
      (fun _ s1 => wp (bfree sb ind)
        (fun _ s' => s'.itable = s.itable ∧ ∃ g', Freed sb s0 g' s' ∧ (∀ j ∈ js, g' (m, .entry j) = 0) ∧
          g' (m, .addr NDIRECT) = 0 ∧ ∀ b, (∀ j ∈ js, b ≠ (m, .entry j)) → b ≠ (m, .addr NDIRECT) → g' b = g b)
        (TooBig sb 0 s0) (s1.ev (.brelse ind)))
      (TooBig sb 0 s0) (s.ev (.bread ind)) := by
  have hstart : Freed sb s0 g (s.ev (.bread ind)) :=
    ⟨hf.owns, hf.meta_, hf.frame, hf.dirty, hf.ext.trans (.of_eq rfl rfl rfl rfl rfl)⟩
  refine (itruncIndirect_spec ho _ hn hj hstart).imp fun _ s1 h₁ => ?_
  · obtain ⟨ht, g', hf', hz, hrest⟩ := h₁
    -- the indirect block is released
    have hf2 : Freed sb s0 g' (s1.ev (.brelse ind)) :=
      ⟨hf'.owns, hf'.meta_, hf'.frame, hf'.dirty, hf'.ext.trans (.of_eq rfl rfl rfl rfl rfl)⟩
    have hind' : g' (m, .addr NDIRECT) = ind := by rw [hrest _ (by simp), hind]
    have hlast := bfree_place hf2 ho (by rw [hind']; exact h0)
    rw [hind'] at hlast
    refine hlast.imp fun _ s' h' => ?_
    refine ⟨h'.1.trans ht, _, h'.2, fun j hj' => ?_, if_pos rfl, fun b hb hb' => ?_⟩
    · rw [if_neg (by simp)]; exact hz j hj'
    · rw [if_neg hb']; exact hrest b hb

structure Truncated (sb : Superblock) (v : Nat → Dinode) (i m : Nat) (s s' : St) : Prop where
  core : Core sb (upd v m (v m).cut) 0 s'
  itable : s'.itable = upd s.itable i { s.itable i with copy := (v m).cut }
  others : Others sb m v s.cache (upd v m (v m).cut) s'.cache
  ext : Ext sb [sb.iblock m] s s'

/-- The end of `itrunc`, once every block is freed. -/
theorem itruncEnd_spec {s1 : St} {d : Dinode} (hc : Core sb v m s) (hi : Opened s i m) (ho : s.outstanding = 1)
    (hf : AllFreed sb v m s g s1) (hd : d = { v m with addrs := fun _ => 0 })
    (ht : s1.itable = upd s.itable i { s.itable i with copy := d }) :
    wp (do
        setCopy i fun d => { d with size := 0 }
        iupdate sb i) (fun _ s' => Truncated sb v i m s s') (TooBig sb 1 s) s1 := by
  have hm := hc.live hi
  have hcut : ({ d with size := 0 } : Dinode) = (v m).cut := by rw [hd]; rfl
  simp only [wp_bind, wp_setCopy, ht, upd_same, hcut]
  obtain ⟨s2, hs2⟩ : ∃ s2, s2 = s1.node i { s.itable i with copy := (v m).cut } := ⟨_, rfl⟩
  have hf2 : AllFreed sb v m s g s2 := hs2 ▸ ⟨hf.freed.node i _, hf.mine, hf.other⟩
  have ht2 : s2.itable = upd s.itable i { s.itable i with copy := (v m).cut } := by
    rw [hs2, St.node_itable, ht, upd_upd]
  have hi2 : Opened s2 i m :=
    ⟨hi.lt, by rw [ht2, upd_same]; exact hi.ref, by rw [ht2, upd_same]; exact hi.valid,
      by rw [ht2, upd_same]; exact hi.inum⟩
  have hc2 := hf2.core hc hi hf2.freed.ext.mono hf2.freed.ext.disk ht2
  rw [← hs2]
  refine (iupdate_spec i (hf2.freed.ext.outstanding.trans ho)).mono (fun _ s' h' => ?_) fun e s' hx =>
    TooBig.after hf2.freed.ext hx.1 (by simp)
  obtain ⟨rfl, hx⟩ := h'
  rw [hi2.inum] at hx
  have hdata : ∀ y, sb.nmeta ≤ y → (s2.updated sb i).cache y = s.cache y := fun y hy => by
    rw [St.updated_cache, hi2.inum, upd_iblock hm.1 hy]
    exact hf2.freed.frame y (sb.not_bitmap hy)
  refine ⟨hc2.updated hi2, ht2, fun m' hne => ?_, (hf2.freed.ext.mono_list (by simp)).trans hx⟩
  rw [upd_ne hne]
  exact ⟨rfl, fun hm' => .low hc.fs hm' hdata⟩

theorem itrunc_spec (h : Core sb v m s) (hi : Opened s i m) (ho : s.outstanding = 1) :
    wp (itrunc sb i) (fun _ s' => Truncated sb v i m s s') (TooBig sb 1 s) s := by
  have hm := h.live hi
  have hv : upd v m (v m) = v := upd_self v m
  have hcopy := h.copy_eq hi
  have e0 : Ext sb [] s (s.ev (.itrunc (s.itable i).inum)) := .of_eq rfl rfl rfl rfl rfl
  have hstart : Freed sb s (own sb (upd v m (v m)) s.cache) (s.ev (.itrunc (s.itable i).inum)) := by
    rw [hv]
    exact ⟨h.fs.owns, h.fs.meta_, fun _ _ => rfl, fun _ => Or.inl rfl, e0⟩
  simp only [itrunc, wp_bind, wp_get, wp_emit]
  refine (itruncDirect_spec hm ho _ (fun k hk => Nat.ne_of_lt (List.mem_range.mp hk)) hm.2 hstart hcopy).mono
    (fun _ s1 h₁ => ?_) fun e s' hx => hx.mono (by omega)
  obtain ⟨d, hd, haddrs, ht, hf⟩ := h₁
  have hdt : d.type ≠ 0 := by rw [hd]; exact hm.2
  have hl := fun m' => live_upd (d := d) hm hdt m'
  have hcopy1 : (s1.itable i).copy = d := by rw [ht, upd_same]
  have hother : ∀ m' p, m' ≠ m → own sb (upd v m d) s.cache (m', p) = own sb v s.cache (m', p) := fun m' p e => by
    by_cases hm' : Live sb v m'
    · rw [own_live hm', own_live ((hl m').mpr hm'), upd_ne e]
    · rw [own_dead hm', own_dead (mt (hl m').mp hm')]
  have hmine : ∀ p, own sb (upd v m d) s.cache (m, p) = ptr d s.cache p := fun p => by
    rw [own_live ((hl m).mpr hm), upd_same]
  have hzero : ∀ k, k ≠ NDIRECT → d.addrs k = 0 := fun k hk => by
    rw [haddrs]
    split
    · rfl
    · rename_i hk'
      rw [List.mem_range] at hk'
      exact (h.fs.wf m hm.1).beyond k (by omega)
  rw [hcopy1]
  refine wp_ite (fun h0 => ?_) fun h0 => ?_
  · -- the indirect block and what it names
    have hlow : sb.nmeta ≤ d.addrs NDIRECT := by
      have := (hf.owns.used_of (a := (m, .addr NDIRECT)) (by rw [hmine]; exact h0)).1
      rwa [hmine] at this
    generalize hjs : List.range NINDIRECT = js
    have hmem : ∀ j, j ∈ js ↔ j < NINDIRECT := fun j => by rw [← hjs]; exact List.mem_range
    have hrun := itruncEntries_spec (m := m) ho (hjs ▸ List.nodup_range) h0 hf (by rw [hmine]; rfl) fun j hj => by
      rw [hmine, hf.frame _ (sb.not_bitmap hlow), ptr, if_pos ⟨h0, (hmem j).mp hj⟩]
    have fail : ∀ e s', TooBig sb 0 s e s' → TooBig sb 1 s e s' := fun e s' hx => hx.mono (by omega)
    rw [wp_bind, wp_bread, wp_bind]
    refine hrun.mono (fun _ s1 h₁ => ?_) fail
    rw [wp_bind, wp_brelse, wp_bind]
    refine h₁.mono (fun _ s2 h₂ => ?_) fail
    obtain ⟨ht2, g', hf2, hz, hi0, hrest⟩ := h₂
    have hg : ∀ p, g' (m, p) = 0 := fun p => by
      cases p with
      | addr k =>
        by_cases hk : k = NDIRECT
        · rw [hk]; exact hi0
        · rw [hrest _ (by simp) (by simpa using hk), hmine, ptr_addr, hzero k hk]
      | entry j =>
        by_cases hj : j ∈ js
        · exact hz j hj
        · rw [hrest _ (fun j' hj' e => hj (by simp only [Prod.mk.injEq, Pos.entry.injEq] at e; rw [e.2]; exact hj'))
            (by simp), hmine, ptr, if_neg fun h => hj ((hmem j).mpr h.2)]
    have haddrs2 : upd d.addrs NDIRECT 0 = fun _ => 0 := by
      funext k
      by_cases hk : k = NDIRECT
      · rw [hk, upd_same]
      · rw [upd_ne hk, hzero k hk]
    have hother2 : ∀ m' p, m' ≠ m → g' (m', p) = own sb v s.cache (m', p) := fun m' p e => by
      rw [hrest _ (fun j _ e' => e (congrArg Prod.fst e')) fun e' => e (congrArg Prod.fst e'), hother m' p e]
    have hend := itruncEnd_spec h hi ho ⟨hf2.node i { s2.itable i with copy := { (s2.itable i).copy with
        addrs := upd (s2.itable i).copy.addrs NDIRECT 0 } }, hg, hother2⟩
      (d := { d with addrs := upd d.addrs NDIRECT 0 }) (by rw [haddrs2, hd])
      (by rw [St.node_itable, ht2, hcopy1, ht, upd_same, upd_upd]; rfl)
    rw [wp_bind, wp_setCopy]
    exact hend
  · rw [not_not] at h0
    have hz : ∀ k, d.addrs k = 0 := fun k => by
      by_cases hk : k = NDIRECT
      · rw [hk]; exact h0
      · exact hzero k hk
    have hend := itruncEnd_spec h hi ho ⟨hf, fun p => by
      rw [hmine]
      cases p with
      | addr k => exact hz k
      | entry j => rw [ptr, if_neg fun h => h.1 h0], hother⟩ (hd.trans (by rw [funext hz])) ht
    exact hend

end Xv6.Fs
