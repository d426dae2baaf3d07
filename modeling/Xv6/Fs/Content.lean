/-
  Xv6.Fs.Content — `bmap`, `readi` and `writei`.

  On an inode with a block for every index below its size, `bmap` of such an index and
  `readi` change nothing but the trace, `readi` returns the file's bytes, and neither
  panics (`bmap_reads`, `readLoop_spec`). `bmap` of any index below MAXFILE, and `writei`,
  keep every block with one owner, leave the other inodes and their contents alone and
  panic only on a full log (`bmap_spec`, `writei_spec`).
-/
import Xv6.Fs.Core

namespace Xv6.Fs

variable {sb : Superblock} {v : Nat → Dinode} {m i : Nat} {s : St}
  {d : Dinode} {c : Disk} {bn j k off tot n b cnt : Nat} {E : Panic → St → Prop} {s1 : St} {dst : Dst} {src : Src}

/-! ## `bmap` -/

theorem blockAt_direct (h : bn < NDIRECT) : blockAt d c bn = d.addrs bn := by
  rw [blockAt, posOf, if_pos h, ptr_addr]

theorem blockAt_indirect (h : ¬ bn < NDIRECT) : blockAt d c bn = ptr d c (.entry (bn - NDIRECT)) := by
  rw [blockAt, posOf, if_neg h]

theorem ptr_entry (hi : d.addrs NDIRECT ≠ 0) (hj : j < NINDIRECT) :
    ptr d c (.entry j) = le32 (c (d.addrs NDIRECT)) (4 * j) := by
  simp only [ptr, hi, hj, ne_eq, not_false_eq_true, and_self, if_true]

/-- The blocks of an inode: direct, indirect, and those the indirect block lists. -/
def blockList (d : Dinode) (c : Disk) : List Nat :=
  ((List.range (NDIRECT + 1)).map d.addrs ++
    (if d.addrs NDIRECT = 0 then [] else (List.range NINDIRECT).map fun j => le32 (c (d.addrs NDIRECT)) (4 * j))).filter
    (· ≠ 0)

structure ReadsOf (B : List Nat) (s s' : St) : Prop where
  eq : s' = { s with trace := s'.trace }
  evs : ∃ evs, s'.trace = s.trace ++ evs ∧ ∀ e ∈ evs, ∃ b ∈ B, e = .bread b ∨ e = .brelse b

namespace ReadsOf

variable {B : List Nat} {b : Nat} {s s1 s' : St}

theorem reads (h : ReadsOf B s s') : Reads s s' := ⟨h.eq⟩

theorem refl (s : St) : ReadsOf B s s := ⟨rfl, [], by simp, by simp⟩

theorem trans (h : ReadsOf B s s1) (h' : ReadsOf B s1 s') : ReadsOf B s s' := by
  obtain ⟨e1, h1, q1⟩ := h.evs
  obtain ⟨e2, h2, q2⟩ := h'.evs
  refine ⟨by rw [h'.eq, h.eq], e1 ++ e2, by rw [h2, h1, List.append_assoc], fun e he => ?_⟩
  rcases List.mem_append.mp he with he | he
  · exact q1 e he
  · exact q2 e he

theorem block (s : St) (hb : b ∈ B) : ReadsOf B s ((s.ev (.bread b)).ev (.brelse b)) := by
  refine ⟨rfl, [.bread b, .brelse b], by simp, fun e he => ⟨b, hb, ?_⟩⟩
  simpa using he

end ReadsOf

section
variable {d : Dinode} {c : Disk} {bn : Nat}

theorem indirect_mem (h : d.addrs NDIRECT ≠ 0) : d.addrs NDIRECT ∈ blockList d c := by
  refine List.mem_filter.mpr ⟨List.mem_append_left _ (List.mem_map_of_mem (List.mem_range.mpr (Nat.lt_succ_self _))),
    ?_⟩
  simpa using h

theorem blockAt_mem (h : blockAt d c bn ≠ 0) : blockAt d c bn ∈ blockList d c := by
  refine List.mem_filter.mpr ⟨?_, by simpa using h⟩
  by_cases hd : bn < NDIRECT
  · rw [blockAt_direct hd]
    exact List.mem_append_left _ (List.mem_map_of_mem (List.mem_range.mpr (by omega)))
  · rw [blockAt_indirect hd] at h ⊢
    by_cases hi : d.addrs NDIRECT ≠ 0 ∧ bn - NDIRECT < NINDIRECT
    · rw [ptr_entry hi.1 hi.2, if_neg hi.1]
      exact List.mem_append_right _ (List.mem_map.mpr ⟨bn - NDIRECT, List.mem_range.mpr hi.2, rfl⟩)
    · rw [ptr, if_neg hi] at h
      exact absurd rfl h

end

/-- An index that has its block. -/
theorem bmap_reads (hb : blockAt (s.itable i).copy s.cache bn ≠ 0) :
    wp (bmap sb i bn) (fun r s' => r = blockAt (s.itable i).copy s.cache bn ∧
    ReadsOf (blockList (s.itable i).copy s.cache) s s') E s := by
  simp only [bmap, wp_bind, wp_get]
  by_cases hd : bn < NDIRECT
  · rw [blockAt_direct hd] at hb ⊢
    simp only [hd, hb, ne_eq, not_false_eq_true, if_true, wp_pure]
    exact ⟨trivial, .refl s⟩
  · rw [blockAt_indirect hd] at hb ⊢
    by_cases hi : (s.itable i).copy.addrs NDIRECT ≠ 0 ∧ bn - NDIRECT < NINDIRECT
    · rw [ptr_entry hi.1 hi.2] at hb ⊢
      simp only [hd, hi.1, hi.2, hb, ne_eq, not_false_eq_true, if_true, if_false, bmapEntry, wp_bind, wp_pure, wp_bread,
        wp_brelse]
      exact ⟨trivial, .block s (indirect_mem hi.1)⟩
    · rw [ptr, if_neg hi] at hb
      exact absurd rfl hb

/-- What `bmap` does when it returns `r`; `d` is the inode's new copy. -/
structure Bmap (sb : Superblock) (v : Nat → Dinode) (i m bn : Nat) (s : St) (r : Nat) (s' : St) (d : Dinode) :
    Prop where
  core : Core sb (upd v m d) m s'
  itable : s'.itable = upd s.itable i { s.itable i with copy := d }
  fields : d = { v m with addrs := d.addrs }
  ind : (v m).addrs NDIRECT ≠ 0 → d.addrs NDIRECT = (v m).addrs NDIRECT
  found : blockAt d s'.cache bn = r
  rest : ∀ k, k ≠ bn → blockAt d s'.cache k = blockAt (v m) s.cache k
  same : SameData (v m) s.cache d s'.cache
  others : Others sb m v s.cache (upd v m d) s'.cache
  low : ∀ y, y < sb.bmapstart → s'.cache y = s.cache y
  full : r = 0 → AllUsed sb s'.cache
  ext : Ext sb [d.addrs NDIRECT, r] s s'

structure BmapEntry (sb : Superblock) (v : Nat → Dinode) (m j : Nat) (s : St) (r : Nat) (s' : St) : Prop where
  core : Core sb v m s'
  itable : s'.itable = s.itable
  found : ptr (v m) s'.cache (.entry j) = r
  rest : ∀ p, p ≠ .entry j → ptr (v m) s'.cache p = ptr (v m) s.cache p
  same : SameData (v m) s.cache (v m) s'.cache
  others : Others sb m v s.cache v s'.cache
  low : ∀ y, y < sb.bmapstart → s'.cache y = s.cache y
  full : r = 0 → AllUsed sb s'.cache
  ext : Ext sb [(v m).addrs NDIRECT, r] s s'

theorem BmapEntry.of_reads {s' : St} (h : Core sb v m s) (hne : ptr (v m) s.cache (.entry j) ≠ 0)
    (hr : Reads s s') : BmapEntry sb v m j s (ptr (v m) s.cache (.entry j)) s' := by
  have hc := hr.cache
  refine ⟨hr.core h, hr.itable, by rw [hc], fun p _ => by rw [hc], ?_, ?_, fun y _ => by rw [hc], fun e =>
    absurd e hne, hr.ext⟩
  · rw [hc]; exact SameData.refl _ _
  · rw [hc]; exact Others.refl _ _ _

theorem bmapEntry_spec (h : Core sb v m s) (hi : Opened s i m) (ho : s.outstanding = 1) (hj : j < NINDIRECT)
    (h0 : (v m).addrs NDIRECT ≠ 0) :
    wp (bmapEntry sb ((v m).addrs NDIRECT) j) (BmapEntry sb v m j s) (TooBig sb 1 s) s := by
  have hm := h.live hi
  generalize hind : (v m).addrs NDIRECT = ind at h0
  have hp0 : ptr (v m) s.cache (.addr NDIRECT) ≠ 0 := by rw [ptr_addr, hind]; exact h0
  have hlow : sb.nmeta ≤ ind := hind ▸ (h.fs.ptr_range hm hp0).1
  have hused : sb.bit s.cache ind = true := by
    have := (h.fs.owns.used_of (a := (m, .addr NDIRECT)) (by rw [own_live hm]; exact hp0)).2.2
    rwa [own_live hm, ptr_addr, hind] at this
  have hpe : ptr (v m) s.cache (.entry j) = le32 (s.cache ind) (4 * j) := by
    rw [ptr_entry (by rw [hind]; exact h0) hj, hind]
  simp only [bmapEntry, wp_bind, wp_bread]
  refine wp_ite (fun hne => ?_) fun hz => ?_
  · simp only [wp_bind, wp_brelse, wp_pure]
    rw [← hpe]
    exact .of_reads h (by rw [hpe]; exact hne) (.block s ind)
  · rw [not_not] at hz
    simp only [wp_bind]
    refine (balloc_spec (s := s.ev _) ho fun b => h.fs.meta_ b).mono (fun r s2 hb => ?_) fun e s' hf => ?_
    · obtain ⟨hb, hused2⟩ := hb
      have ho2 : s2.outstanding = 1 := hb.ext.outstanding.trans ho
      have hl : s.lh ⊆ s2.lh := hb.ext.mono
      refine wp_ite (fun hr0 => ?_) fun hr0 => ?_
      · -- out of blocks
        have hc := hb.none hr0
        simp only [wp_bind, wp_brelse, wp_pure]
        refine ⟨⟨?_, ?_, ?_, ?_, ?_⟩, hb.itable, ?_, fun p _ => ?_, ?_, ?_, fun y _ => ?_, fun h0 => ?_, ?_⟩
        · simpa only [St.ev_cache, hc] using h.fs
        · simpa only [St.ev_cache, hc] using h.agree
        · simpa only [St.ev_itable, hb.itable] using h.table
        · simpa only [St.ev_itable, hb.itable] using h.unique
        · refine h.clean.step hb.ext.disk hl (fun y => Or.inl ?_) (fun a _ => Or.inl ?_) fun _ _ => id
          · simp only [St.ev_cache, hc]
          · simp only [St.ev_cache, hc]
        · simp only [St.ev_cache, hc, hpe, hz]
        · simp only [St.ev_cache, hc]
        · simp only [St.ev_cache, hc]; exact SameData.refl _ _
        · simp only [St.ev_cache, hc]; exact Others.refl _ _ _
        · simp only [St.ev_cache, hc]
        · simp only [St.ev_cache, hc]
          exact hused2 hr0
        · have hx : Ext sb [(v m).addrs NDIRECT, 0] _ s2 := hb.ext.mono_list (by simp [hr0])
          have hs : Ext sb [(v m).addrs NDIRECT, 0] s (s.ev (.bread ind)) := .of_eq rfl rfl rfl rfl rfl
          exact (hs.trans hx).trans (.of_eq rfl rfl rfl rfl rfl)
      · have hfree : FsOk.IsFree sb s.cache r := hb.isFree hr0
        have hir : ind ≠ r := fun e => by rw [e, hfree.clear] at hused; cases hused
        have hci : s2.cache ind = s.cache ind := hb.frame ind (sb.not_bitmap hlow) hir
        simp only [wp_bind, wp_setData, wp_brelse, wp_pure]
        refine wp_logWrite ho2 (fun hf => ⟨rfl, hf, hb.ext.nodup, [r], by simp, fun b hb' =>
          (hb.ext.logs b hb').imp_right (Or.imp_right And.left)⟩) ?_
        · -- the entry takes the block
          obtain ⟨c', hc'⟩ : ∃ c', c' = upd s2.cache ind (putLe32 (s.cache ind) (4 * j) r) := ⟨_, rfl⟩
          have hbits : ∀ b, b < sb.size → sb.bit c' b = (sb.bit s.cache b || decide (b = r)) := fun b hbs => by
            rw [hc', bit_upd (sb.not_bitmap hlow) _ hbs]; exact hb.bits hr0 b hbs
          obtain ⟨f1, f2, f3, f4, f5, f6⟩ := h.fs.claim_entry hm hfree hbits hj (by rw [hind]; exact h0)
            (by rw [hpe, hz]) (by rw [hind, hc', upd_same]) fun y hy hyr hyi => by
              rw [hind] at hyi
              rw [hc', upd_ne hyi, hb.frame y (sb.not_bitmap hy) hyr]
              rfl
          have hdirty : ∀ y, c' y = s.cache y ∨ y ∈ Log.absorb s2.lh ind := fun y => by
            by_cases hyi : y = ind
            · exact Or.inr (mem_absorb.mpr (Or.inr hyi))
            · rw [hc', upd_ne hyi]
              exact (hb.dirty y).imp id fun hy => mem_absorb.mpr (Or.inl hy)
          have hlow' : ∀ y, y < sb.bmapstart → c' y = s.cache y := fun y hy => by
            have := sb.bmap_lt_nmeta
            rw [hc', upd_ne (by omega), hb.frame y (sb.not_bitmap_low hy) (by have := hfree.low; omega)]
            rfl
          subst hc'
          refine ⟨⟨f1, fun m' h1 h2 => ?_, ?_, ?_, ?_⟩, hb.itable, f2, f5, f3, f4, hlow', fun e => absurd e hr0, ?_⟩
          · rw [← h.agree m' h1 h2]; exact ino_congr h1 hlow'
          · simpa only [St.ev_itable, St.log_itable, St.store_itable, hb.itable] using h.table
          · simpa only [St.ev_itable, St.log_itable, St.store_itable, hb.itable] using h.unique
          · refine h.clean.step hb.ext.disk (fun y hy => mem_absorb.mpr (Or.inl (hl hy)))
              (fun y => (hdirty y).imp id Or.inl) (fun a _ => (f6 a).imp id fun e => ?_) fun _ _ => id
            have hmem := hb.logged hr0
            rw [← e] at hmem
            exact mem_absorb.mpr (Or.inl hmem)
          · rw [hind]
            refine ⟨hb.ext.outstanding, hb.ext.disk, hb.ext.ftable, hb.ext.proc, fun hn => Log.absorb_nodup
              (hb.ext.nodup hn), fun y hy => mem_absorb.mpr (Or.inl (hl hy)), fun y hy => ?_⟩
            rcases mem_absorb.mp hy with hy | rfl
            · exact (hb.ext.logs y hy).imp_right (Or.imp_right fun hy => ⟨List.mem_cons_of_mem _ hy.1, hy.2⟩)
            · exact Or.inr (Or.inr ⟨by simp, h0⟩)
    · exact TooBig.mono ⟨hf.eq, hf.full, hf.nodup, hf.logs⟩ (Nat.zero_le _)

structure Claimed (sb : Superblock) (v : Nat → Dinode) (i m k : Nat) (s : St) (r : Nat) (s' : St) (d : Dinode) :
    Prop where
  addrs : d = { v m with addrs := upd (v m).addrs k r }
  core : Core sb (upd v m d) m s'
  opened : Opened s' i m
  itable : s'.itable = upd s.itable i { s.itable i with copy := d }
  direct : ∀ k', k' ≠ k → k' < NDIRECT → blockAt d s'.cache k' = blockAt (v m) s.cache k'
  entries : ∀ j, ptr d s'.cache (.entry j) = ptr (v m) s.cache (.entry j)
  same : SameData (v m) s.cache d s'.cache
  others : Others sb m v s.cache (upd v m d) s'.cache
  low : ∀ y, y < sb.bmapstart → s'.cache y = s.cache y
  ext : Ext sb [r] s s'

theorem claimed (h : Core sb v m s) (hi : Opened s i m) {r : Nat} (hb : Balloc sb s r s1) (hr0 : r ≠ 0)
    (hk : k ≤ NDIRECT) (h0 : (v m).addrs k = 0) :
    Claimed sb v i m k s r
      (s1.node i { s1.itable i with copy := { (s1.itable i).copy with addrs := upd (s1.itable i).copy.addrs k r } })
      { v m with addrs := upd (v m).addrs k r } := by
  have hm := h.live hi
  have hfree := hb.isFree hr0
  obtain ⟨d, hd⟩ : ∃ d, d = { v m with addrs := upd (v m).addrs k r } := ⟨_, rfl⟩
  have hcopy : { (s1.itable i).copy with addrs := upd (s1.itable i).copy.addrs k r } = d := by
    rw [hb.itable, h.copy_eq hi, hd]
  have hty : d.type ≠ 0 := by rw [hd]; exact hm.2
  obtain ⟨f1, f2, f3, f4, f5, f6⟩ := h.fs.claim_addr hm hfree (hb.bits hr0) hk h0 (hb.zero hr0)
    (fun y hy hyr => hb.frame y (sb.not_bitmap hy) hyr) hd
  have hlow : ∀ y, y < sb.bmapstart → s1.cache y = s.cache y := fun y hy => by
    have := sb.bmap_lt_nmeta
    exact hb.frame y (sb.not_bitmap_low hy) (by have := hfree.low; omega)
  rw [hcopy, ← hd]
  have hit : (s1.node i { s1.itable i with copy := d }).itable = upd s.itable i { s.itable i with copy := d } := by
    rw [St.node_itable, hb.itable]
  refine ⟨hd, ⟨f1, fun m' h1 h2 => ?_, ?_, ?_, ?_⟩, ⟨hi.lt, ?_, ?_, ?_⟩, hit, f4, f5, f2, f3, hlow, ?_⟩
  · rw [upd_ne h2, ← h.agree m' h1 h2]
    exact ino_congr h1 hlow
  · rw [hit]; exact table_setCopy h hi hty
  · rw [hit]; exact unique_setCopy h
  · refine h.clean.step hb.ext.disk hb.ext.mono (fun y => (hb.dirty y).imp id Or.inl)
      (fun a _ => (f6 a).imp id fun e => ?_) fun m' hm' ht => ?_
    · have hmem := hb.logged hr0
      rw [← e] at hmem
      exact hmem
    · by_cases e : m' = m
      · rw [e, upd_same, hd] at ht
        rw [e]; exact ht
      · rwa [upd_ne e] at ht
  · rw [hit, upd_same]; exact hi.ref
  · rw [hit, upd_same]; exact hi.valid
  · rw [hit, upd_same]; exact hi.inum
  · exact hb.ext.trans (.of_eq rfl rfl rfl rfl rfl)

/-- `balloc` found no block. -/
theorem core_out_of_blocks {x : Nat} (h : Core sb v x s) (hb : Balloc sb s 0 s1) : Core sb v x s1 := by
  have hc := hb.none rfl
  refine ⟨by rw [hc]; exact h.fs, by rw [hc]; exact h.agree, by rw [hb.itable]; exact h.table,
    by rw [hb.itable]; exact h.unique, ?_⟩
  exact h.clean.step hb.ext.disk hb.ext.mono (fun y => Or.inl (by rw [hc])) (fun a _ => Or.inl (by rw [hc]))
    fun _ _ => id

theorem Bmap.of_unchanged (h : Core sb v m s) (hi : Opened s i m) (hc : Core sb v m s1)
    (hcache : s1.cache = s.cache) (hit : s1.itable = s.itable) {L : List Nat}
    (he : Ext sb L s s1) (hL : L ⊆ [(v m).addrs NDIRECT, blockAt (v m) s.cache bn])
    (hu : blockAt (v m) s.cache bn = 0 → AllUsed sb s.cache) :
    Bmap sb v i m bn s (blockAt (v m) s.cache bn) s1 (v m) := by
  have hv : upd v m (v m) = v := upd_self v m
  refine ⟨by rw [hv]; exact hc, ?_, rfl, fun _ => rfl, by rw [hcache], fun k _ => by rw [hcache], ?_, ?_,
    fun y _ => by rw [hcache],
    fun e => by rw [hcache]; exact hu e, he.mono_list hL⟩
  · rw [hit, ← h.copy_eq hi]; exact (upd_self _ _).symm
  · rw [hcache]; exact SameData.refl _ _
  · rw [hv, hcache]; exact Others.refl _ _ _

theorem bmap_spec (h : Core sb v m s) (hi : Opened s i m) (ho : s.outstanding = 1) (hbn : bn < MAXFILE) :
    wp (bmap sb i bn) (fun r s' => ∃ d, Bmap sb v i m bn s r s' d) (TooBig sb 2 s) s := by
  have hcopy := h.copy_eq hi
  by_cases hfound : blockAt (v m) s.cache bn ≠ 0
  · refine (bmap_reads (by rw [hcopy]; exact hfound)).imp fun r s' hr => ?_
    obtain ⟨rfl, hr⟩ := hr
    have hr := hr.reads
    rw [hcopy]
    exact ⟨v m, .of_unchanged h hi (hr.core h) hr.cache hr.itable (L := []) hr.ext (by simp) fun e => absurd e hfound⟩
  rw [not_not] at hfound
  have none : ∀ {s1}, Balloc sb s 0 s1 → AllUsed sb s.cache → ∃ d, Bmap sb v i m bn s 0 s1 d := fun hb hu =>
    ⟨v m, hfound ▸ .of_unchanged h hi (core_out_of_blocks h hb) (hb.none rfl) hb.itable
      hb.ext (by simp [hfound]) fun _ => hu⟩
  have fail : ∀ e s', TooBig sb 0 s e s' → TooBig sb 2 s e s' := fun e s' hf => hf.mono (by omega)
  simp only [bmap, wp_bind, wp_get, hcopy]
  refine wp_ite (fun hd => ?_) fun hd => ?_
  · -- a direct block
    rw [blockAt_direct hd] at hfound
    simp only [hfound, ne_eq, not_true_eq_false, if_false, wp_bind]
    refine (balloc_spec ho fun b => h.fs.meta_ b).mono (fun r s1 hb => ?_) fail
    obtain ⟨hb, hu⟩ := hb
    refine wp_ite (fun hr0 => ?_) fun hr0 => ?_
    · subst hr0
      exact none hb (hu rfl)
    · simp only [wp_bind, wp_setCopy, wp_pure]
      have hcl := claimed h hi hb hr0 (Nat.le_of_lt hd) hfound
      refine ⟨_, hcl.core, hcl.itable, rfl, fun _ => upd_ne (Nat.ne_of_gt hd) _, ?_, fun k hk => ?_, hcl.same,
        hcl.others, hcl.low, fun e => absurd e hr0, hcl.ext.mono_list (by simp)⟩
      · rw [blockAt_direct hd]; simp
      · by_cases hkd : k < NDIRECT
        · exact hcl.direct k hk hkd
        · rw [blockAt_indirect hkd, blockAt_indirect hkd]; exact hcl.entries _
  · have hj : bn - NDIRECT < NINDIRECT := by simp only [MAXFILE] at hbn; omega
    rw [if_pos hj]
    have pos : ∀ k, k ≠ bn → posOf k ≠ .entry (bn - NDIRECT) := fun k hk e => by
      refine hk (posOf_inj (e.trans ?_))
      rw [posOf, if_neg hd]
    refine wp_ite (fun h0 => ?_) fun h0 => ?_
    · -- the indirect block is there
      refine (bmapEntry_spec h hi ho hj h0).mono (fun r s' hb => ⟨v m, ?_⟩) fun e s' hf => hf.mono (by omega)
      have hv : upd v m (v m) = v := upd_self v m
      refine ⟨by rw [hv]; exact hb.core, ?_, rfl, fun _ => rfl, by rw [blockAt_indirect hd]; exact hb.found,
        fun k hk => hb.rest _ (pos k hk), hb.same, by rw [hv]; exact hb.others, hb.low, hb.full, hb.ext⟩
      rw [hb.itable, ← hcopy]; exact (upd_self _ _).symm
    · -- the indirect block is allocated first
      rw [not_not] at h0
      simp only [wp_bind]
      refine (balloc_spec ho fun b => h.fs.meta_ b).mono (fun r1 s1 hb => ?_) fail
      obtain ⟨hb, hu⟩ := hb
      refine wp_ite (fun hr0 => ?_) fun hr0 => ?_
      · subst hr0
        exact none hb (hu rfl)
      · simp only [wp_bind, wp_setCopy]
        have hcl := claimed h hi hb hr0 (Nat.le_refl _) h0
        obtain ⟨d, hd'⟩ : ∃ d, d = { v m with addrs := upd (v m).addrs NDIRECT r1 } := ⟨_, rfl⟩
        rw [← hd'] at hcl
        have hind : (upd v m d m).addrs NDIRECT = r1 := by rw [upd_same, hd']; simp
        have hspec := bmapEntry_spec hcl.core hcl.opened (hcl.ext.outstanding.trans ho) hj (by rw [hind]; exact hr0)
        rw [hind] at hspec
        refine hspec.mono (fun r s' he => ⟨d, ?_⟩) fun e s' hf => TooBig.after hcl.ext hf (by simp)
        have hdd : upd v m d m = d := upd_same v m d
        have hfound := he.found
        have hrest := he.rest
        have hsame := he.same
        rw [hdd] at hfound hrest hsame
        refine ⟨he.core, he.itable.trans hcl.itable, by rw [hd'], fun h1 =>
          absurd h0 h1, by rw [blockAt_indirect hd]; exact hfound,
          fun k hk => ?_, hcl.same.trans hsame, hcl.others.trans he.others,
          fun y hy => (he.low y hy).trans (hcl.low y hy), he.full, ?_⟩
        · rw [blockAt, hrest _ (pos k hk)]
          by_cases hkd : k < NDIRECT
          · exact hcl.direct k (by omega) hkd
          · have := hcl.entries (k - NDIRECT)
            rw [posOf, if_neg hkd, blockAt_indirect hkd]; exact this
        · have e2 := he.ext
          rw [hind] at e2
          have hdi : d.addrs NDIRECT = r1 := by rw [← hind, hdd]
          rw [hdi]
          exact (hcl.ext.mono_list (by simp)).trans e2

/-! ## `readi` -/

def Mapped (d : Dinode) (c : Disk) (size : Nat) : Prop := ∀ k, k * BSIZE < size → blockAt d c k ≠ 0

theorem byteAt_block (d : Dinode) (c : Disk) (hk : k < BSIZE - off % BSIZE) :
    byteAt d c (off + k) = c (blockAt d c (off / BSIZE)) (off % BSIZE + k) := by
  have h1 : (off + k) / BSIZE = off / BSIZE := by simp only [BSIZE] at *; omega
  have h2 : (off + k) % BSIZE = off % BSIZE + k := by simp only [BSIZE] at *; omega
  rw [byteAt, h1, h2]

/-- The bytes from `tot` to `n` of the destination can be stored. -/
def Dst.Takes (dst : Dst) (tot n : Nat) : Prop := ∀ k, tot ≤ k → k < n → dst k = true

instance (dst : Dst) (tot n : Nat) : Decidable (dst.Takes tot n) :=
  decidable_of_iff (∀ k, k < n → tot ≤ k → dst k = true) ⟨fun h k h1 h2 => h k h2 h1, fun h k h1 h2 => h k h2 h1⟩

theorem Dst.takes_none (dst : Dst) : dst.Takes tot tot := fun k h1 h2 => by omega

theorem kernelDst_takes (tot n : Nat) : kernelDst.Takes tot n := fun _ _ _ => rfl

theorem takes_iff : dst.takes tot m = true ↔ dst.Takes tot (tot + m) := by
  simp only [Dst.takes, List.all_eq_true, List.mem_range, Dst.Takes]
  constructor
  · intro h k h1 h2
    have := h (k - tot) (by omega)
    rwa [Nat.add_sub_cancel' h1] at this
  · intro h k hk
    exact h (tot + k) (by omega) (by omega)

/-- The loop copies the bytes from `off` on to `tot` on, and stops at the first piece that cannot be stored. -/
theorem readLoop_spec : ∀ (fuel : Nat) {tot off : Nat} {acc : Nat → UInt8} {s : St}, n - tot ≤ fuel → tot ≤ n →
    Mapped (s.itable i).copy s.cache (off + (n - tot)) → wp (readLoop sb i dst n fuel tot off acc)
      (fun r s' => ReadsOf (blockList (s.itable i).copy s.cache) s s' ∧
        (r.1 = if dst.Takes tot n then (n : Int) else -1) ∧ (∀ k, k < tot ∨ n ≤ k → r.2 k = acc k) ∧
        (dst.Takes tot n → ∀ k, tot ≤ k → k < n → r.2 k = byteAt (s.itable i).copy s.cache (off + (k - tot)))) E s
  | 0, tot, off, acc, s, hf, ht, _ => by
    have : tot = n := by omega
    subst this
    simp only [readLoop, wp_pure]
    exact ⟨.refl s, by rw [if_pos dst.takes_none], fun _ _ => trivial, fun _ k h1 h2 => by omega⟩
  | fuel + 1, tot, off, acc, s, hf, ht, hfull => by
    simp only [readLoop]
    refine wp_ite (fun hlt => ?_) fun hlt => ?_
    · have hpos : off % BSIZE < BSIZE := Nat.mod_lt _ (by decide)
      have hb : blockAt (s.itable i).copy s.cache (off / BSIZE) ≠ 0 := hfull _ (by simp only [BSIZE] at *; omega)
      simp only [wp_bind]
      refine (bmap_reads hb).imp fun addr s1 h₁ => ?_
      obtain ⟨rfl, hr⟩ := h₁
      simp only [hb, if_false, wp_bind, wp_bread]
      generalize hm : min (n - tot) (BSIZE - off % BSIZE) = m
      have hr1 := hr.trans (.block s1 (blockAt_mem hb))
      refine wp_ite (fun htk => ?_) fun hfault => ?_
      · -- a piece of one block
        simp only [wp_bind, wp_brelse]
        have e1 := hr1.reads.itable
        have e2 := hr1.reads.cache
        refine (readLoop_spec fuel (by omega) (by omega) ?_).imp fun r s' h => ?_
        · rw [e1, e2]
          rwa [show off + m + (n - (tot + m)) = off + (n - tot) by omega]
        · obtain ⟨h1, h2, h3, h4⟩ := h
          rw [e1, e2] at h1 h4
          have htakes : dst.Takes (tot + m) n ↔ dst.Takes tot n := by
            constructor
            · intro h k hk1 hk2
              by_cases hk : tot + m ≤ k
              · exact h k hk hk2
              · exact takes_iff.mp htk k hk1 (by omega)
            · intro h k hk1 hk2
              exact h k (by omega) hk2
          refine ⟨hr1.trans h1, ?_, fun k hk => ?_, fun hd k hk1 hk2 => ?_⟩
          · rw [h2]
            exact if_congr htakes rfl rfl
          · rw [h3 k (by omega), patch_out (by omega)]
          · by_cases hk : tot + m ≤ k
            · rw [h4 (htakes.mpr hd) k hk hk2]
              congr 1
              omega
            · rw [h3 k (Or.inl (by omega)), patch_in hk1 (by omega), hr.reads.cache, byteAt_block _ _ (by omega)]
      · simp only [wp_bind, wp_brelse, wp_pure]
        have hnot : ¬ dst.Takes tot n := fun h => hfault (takes_iff.mpr fun k h1 h2 => h k h1 (by omega))
        exact ⟨hr1, by rw [if_neg hnot], fun _ _ => trivial, fun h => absurd h hnot⟩
    · have : tot = n := by omega
      subst this
      simp only [wp_pure]
      exact ⟨.refl s, by rw [if_pos dst.takes_none], fun _ _ => trivial, fun _ k h1 h2 => by omega⟩

theorem readi_reads (hfull : Mapped (s.itable i).copy s.cache (s.itable i).copy.size) :
    wp (readi sb i dst off n) (fun _ s' => Reads s s') E s := by
  simp only [readi, wp_bind, wp_get]
  refine wp_ite (fun _ => ?_) fun hin => ?_
  · exact .refl s
  · refine (readLoop_spec _ (Nat.le_refl _) (Nat.zero_le _) fun k hk => hfull k ?_).imp fun _ _ h => h.1.reads
    split at hk <;> omega

/-- A kernel buffer gets the bytes, where the file has them. -/
theorem readi_kernel
    (hfull : Mapped (s.itable i).copy s.cache (s.itable i).copy.size) (hsz : (s.itable i).copy.size < 2 ^ 32)
    (hoff : off + n ≤ (s.itable i).copy.size) :
    wp (readi sb i kernelDst off n)
      (fun r s' => Reads s s' ∧ r.1 = n ∧ ∀ k, k < n → r.2 k = byteAt (s.itable i).copy s.cache (off + k)) E s := by
  simp only [readi, wp_bind, wp_get]
  rw [if_neg (by rw [Nat.mod_eq_of_lt (by omega)]; omega), if_neg (by omega)]
  refine (readLoop_spec _ (Nat.le_refl _) (Nat.zero_le _) fun k hk => hfull k (by omega)).imp fun r s' h => ?_
  obtain ⟨h1, h2, -, h3⟩ := h
  rw [if_pos (kernelDst_takes _ _)] at h2
  exact ⟨h1.reads, h2, fun k hk => h3 (kernelDst_takes _ _) k (Nat.zero_le _) hk⟩

/-! ## `writei` -/

/-- The block of an index gets other contents. -/
theorem FsOk.store (h : FsOk sb v c) (hm : Live sb v m) (hb : blockAt (v m) c bn = b) (h0 : b ≠ 0) (x : Block) :
    FsOk sb v (upd c b x) ∧ Others sb m v c v (upd c b x) ∧ ∀ a, own sb v (upd c b x) a = own sb v c a := by
  have hlow : sb.nmeta ≤ b := hb ▸ (h.ptr_range hm (p := posOf bn) (by rw [← blockAt, hb]; exact h0)).1
  have ne : ∀ m', Live sb v m' → ∀ p, ptr (v m') c p ≠ 0 → (m', p) ≠ (m, posOf bn) → ptr (v m') c p ≠ b :=
    fun m' hm' p hp hne e => by
      obtain ⟨e1, e2⟩ := h.ptr_inj hm' hm hp (e.trans hb.symm)
      exact hne (by rw [e1, e2])
  have ind : ∀ m', Live sb v m' → (v m').addrs NDIRECT ≠ 0 → upd c b x ((v m').addrs NDIRECT) = c
      ((v m').addrs NDIRECT) :=
    fun m' hm' hp => upd_ne (ne m' hm' (.addr NDIRECT) hp fun e => posOf_ne_ind bn (congrArg Prod.snd e).symm) x
  refine ⟨h.frame (fun y hy => bit_upd (sb.not_bitmap hlow) x hy) ind,
    .of_frame (fun _ _ => rfl) fun m' hne hm' p hp => upd_ne (ne m' hm' p hp fun e => hne (congrArg Prod.fst e)) x,
    fun a => ?_⟩
  obtain ⟨m', p⟩ := a
  by_cases hm' : Live sb v m'
  · rw [own_live hm', own_live hm', ptr_congr rfl (ind m' hm') p]
  · rw [own_dead hm', own_dead hm']

theorem blockAt_store (h : FsOk sb v c) (hm : Live sb v m) (hb : blockAt (v m) c bn = b)
    (h0 : b ≠ 0) (x : Block) (k : Nat) : blockAt (v m) (upd c b x) k = blockAt (v m) c k := by
  have := (h.store hm hb h0 x).2.2 (m, posOf k)
  rwa [own_live hm, own_live hm] at this

theorem byteAt_store (h : FsOk sb v c) (hm : Live sb v m) (hb : blockAt (v m) c bn = b)
    (h0 : b ≠ 0) (x : Block) (o : Nat) :
    byteAt (v m) (upd c b x) o = if o / BSIZE = bn then x (o % BSIZE) else byteAt (v m) c o := by
  rw [byteAt, blockAt_store h hm hb h0]
  by_cases e : o / BSIZE = bn
  · rw [if_pos e, e, hb, upd_same]
  · rw [if_neg e, upd_ne, byteAt]
    intro hc
    obtain ⟨-, e2⟩ := h.ptr_inj hm hm (p := posOf (o / BSIZE)) (q := posOf bn) (by rw [← blockAt, hc]; exact h0)
      (hc.trans hb.symm)
    exact e (posOf_inj e2)

/-- The data blocks of a write of `cnt` blocks from `off` on. -/
def targets (d : Dinode) (c : Disk) (off cnt : Nat) : List Nat :=
  (List.range cnt).map fun k => blockAt d c (off / BSIZE + k)

/-- What such a write logs outside the free map and the inode blocks. -/
def dataBlocks (d : Dinode) (c : Disk) (off cnt : Nat) : List Nat := d.addrs NDIRECT :: targets d c off cnt

theorem mem_targets (h1 : off / BSIZE ≤ bn) (h2 : bn < off / BSIZE + cnt) : blockAt d c bn ∈ targets d c off cnt :=
  List.mem_map.mpr ⟨bn - off / BSIZE, List.mem_range.mpr (by omega), by rw [Nat.add_sub_cancel' h1]⟩

theorem mem_dataBlocks (h1 : off / BSIZE ≤ bn)
    (h2 : bn < off / BSIZE + cnt) : blockAt d c bn ∈ dataBlocks d c off cnt :=
  List.mem_cons_of_mem _ (mem_targets h1 h2)

/-- A write over blocks that are all there has logged nothing but them. -/
def Overlogs (d : Dinode) (off cnt : Nat) (s s' : St) : Prop :=
  (∀ b ∈ targets d s.cache off cnt, b ≠ 0) → s'.lh ⊆ s.lh ++ targets d s.cache off cnt

theorem dataBlocks_grow {d' : Dinode} {c' : Disk} (hi : d.addrs NDIRECT ≠ 0 → d'.addrs NDIRECT = d.addrs NDIRECT)
    (hk : ∀ k, blockAt d c k ≠ 0 → blockAt d' c' k = blockAt d c k) :
    ∀ b ∈ dataBlocks d c off cnt, b ≠ 0 → b ∈ dataBlocks d' c' off cnt := fun b hb h0 => by
  rcases List.mem_cons.mp hb with rfl | hb
  · rw [← hi h0]; exact List.mem_cons_self
  · obtain ⟨k, hr, rfl⟩ := List.mem_map.mp hb
    rw [← hk _ h0]
    exact List.mem_cons_of_mem _ (List.mem_map.mpr ⟨k, hr, rfl⟩)

/-- `writei` from `off` on: `w` bytes are written, the bytes up to `e` are in the buffers and no
    byte beyond is touched; `d` is the inode's copy. -/
structure Wrote (sb : Superblock) (v : Nat → Dinode) (i m : Nat) (src : Src) (off cnt : Nat) (s : St) (w e : Nat)
    (s' : St) (d : Dinode) : Prop where
  sound : Core sb (upd v m d) m s'.synced
  /-- only a piece that is not logged leaves a directory's buffer ahead of the disk -/
  clean : w = e ∨ (v m).type ≠ T_DIR → Clean sb (upd v m d) s'
  itable : s'.itable = upd s.itable i { s.itable i with copy := d }
  fields : d = { v m with addrs := d.addrs }
  ind : (v m).addrs NDIRECT ≠ 0 → d.addrs NDIRECT = (v m).addrs NDIRECT
  mapped : Mapped d s'.cache (off + e)
  keep : ∀ k, blockAt (v m) s.cache k ≠ 0 → blockAt d s'.cache k = blockAt (v m) s.cache k
  bytes : ∀ o, blockAt (v m) s.cache (o / BSIZE) ≠ 0 → o < off ∨ off + e ≤ o → byteAt d s'.cache o = byteAt
    (v m) s.cache o
  wrote : ∀ k, k < e → byteAt d s'.cache (off + k) = src.byte k
  others : Others sb m v s.cache (upd v m d) s'.cache
  low : ∀ y, y < sb.bmapstart → s'.cache y = s.cache y
  ext : Ext sb (dataBlocks d s'.cache off cnt) s s'
  logs : Overlogs (v m) off cnt s s'

namespace Wrote

variable {src : Src} {off cnt w e n : Nat} {s1 s2 : St} {d d2 : Dinode}

theorem refl (h : Core sb v m s) (hi : Opened s i m) (hm : Mapped (v m) s.cache off) :
    Wrote sb v i m src off cnt s 0 0 s (v m) := by
  have hv : upd v m (v m) = v := upd_self v m
  refine ⟨by rw [hv]; exact h.synced, fun _ => by rw [hv]; exact h.clean, ?_, rfl, fun _ => rfl, hm, fun _ _ => rfl,
    fun _ _ _ => rfl, by simp, by rw [hv]; exact .refl _ _ _, fun _ _ => rfl, .refl s,
    fun _ _ hb => List.mem_append_left _ hb⟩
  rw [← h.copy_eq hi]; exact (upd_self _ _).symm

theorem core (h : Wrote sb v i m src off cnt s w w s1 d) : Core sb (upd v m d) m s1 :=
  ⟨h.sound.fs, h.sound.agree, h.sound.table, h.sound.unique, h.clean (Or.inl rfl)⟩

theorem opened (h : Wrote sb v i m src off cnt s w e s1 d) (hi : Opened s i m) : Opened s1 i m := by
  have ht := h.itable
  exact ⟨hi.lt, by rw [ht, upd_same]; exact hi.ref, by rw [ht, upd_same]; exact hi.valid,
    by rw [ht, upd_same]; exact hi.inum⟩

/-- `bmap` of the next index. -/
theorem bmap {bn r : Nat} (h : Wrote sb v i m src off cnt s w w s1 d) (hb : Bmap sb (upd v m d) i m bn s1 r s2 d2)
    (hl : blockAt d s1.cache bn ≠ 0 → s2.lh = s1.lh) (hbn : off / BSIZE ≤ bn) (hbn' : bn < off / BSIZE + cnt) :
    Wrote sb v i m src off cnt s w w s2 d2 := by
  have hd : upd v m d m = d := upd_same v m d
  have hv : upd (upd v m d) m d2 = upd v m d2 := upd_upd v m d d2
  have core := hb.core
  have fields := hb.fields
  have ind := hb.ind
  have same := hb.same
  have others := hb.others
  rw [hv] at core others
  rw [hd] at fields ind same
  have keep : ∀ k, blockAt d s1.cache k ≠ 0 → blockAt d2 s2.cache k = blockAt d s1.cache k := fun k hk => (same k hk).1
  refine ⟨core.synced, fun _ => core.clean, ?_, ?_, fun h0 => ?_, fun k hk => ?_, fun k hk => ?_, fun o ho hr => ?_,
    fun k hk => ?_, h.others.trans others, fun y hy => (hb.low y hy).trans (h.low y hy), ?_, fun hall => ?_⟩
  · rw [hb.itable, h.itable, upd_same, upd_upd]
  · rw [fields, h.fields]
  · have e1 := h.ind h0
    rw [ind (by rw [e1]; exact h0), e1]
  · have h1 := h.mapped k hk
    rw [keep k h1]; exact h1
  · have e1 := h.keep k hk
    rw [keep k (by rw [e1]; exact hk), e1]
  · rw [same.byteAt (by rw [h.keep _ ho]; exact ho), h.bytes o ho hr]
  · rw [same.byteAt (h.mapped _ (by simp only [BSIZE]; omega)), h.wrote k hk]
  · refine (h.ext.mono_pos (dataBlocks_grow ind keep)).trans (hb.ext.mono_list ?_)
    intro b hb'
    rcases List.mem_cons.mp hb' with rfl | hb'
    · exact List.mem_cons_self
    · rw [List.mem_singleton.mp hb', ← hb.found]
      exact mem_dataBlocks hbn hbn'
  · have h0 := hall _ (mem_targets hbn hbn')
    rw [hl (by rw [h.keep _ h0]; exact h0)]
    exact h.logs hall

/-- A piece of the next block is stored: written, or only touched before a fault. -/
theorem store {b k w' : Nat} {f : Nat → UInt8} (h : Wrote sb v i m src off cnt s w w s1 d) (hi : Opened s i m)
    (hb : blockAt d s1.cache ((off + w) / BSIZE) = b) (h0 : b ≠ 0) (hk : k ≤ BSIZE - (off + w) % BSIZE)
    (hcnt : (off + w) / BSIZE < off / BSIZE + cnt)
    (hc : s2.cache = upd s1.cache b (patch (s1.cache b) ((off + w) % BSIZE) k f)) (ht : s2.itable = s1.itable)
    (hx : Ext sb [b] s1 s2) (hlog : s2.lh ⊆ Log.absorb s1.lh b)
    (hl : w' = w + k ∨ (v m).type ≠ T_DIR → Clean sb (upd v m d) s2)
    (hw : w' = w ∨ w' = w + k) (hf : ∀ j, j < k → f j = src.byte (w + j)) :
    Wrote sb v i m src off cnt s w' (w + k) s2 d := by
  have hm := h.core.live (h.opened hi)
  have hd : upd v m d m = d := upd_same v m d
  have hb' : blockAt (upd v m d m) s1.cache ((off + w) / BSIZE) = b := by rw [hd]; exact hb
  obtain ⟨f1, f2, -⟩ := h.core.fs.store hm hb' h0 (patch (s1.cache b) ((off + w) % BSIZE) k f)
  have blk := blockAt_store h.core.fs hm hb' h0 (patch (s1.cache b) ((off + w) % BSIZE) k f)
  have byt := byteAt_store h.core.fs hm hb' h0 (patch (s1.cache b) ((off + w) % BSIZE) k f)
  rw [hd] at blk byt
  rw [← hc] at f1 f2 blk byt
  have hlow : ∀ y, y < sb.bmapstart → s2.cache y = s1.cache y := fun y hy => by
    have := sb.bmap_lt_nmeta
    have := (h.core.fs.ptr_range hm (p := posOf ((off + w) / BSIZE)) (by rw [← blockAt, hb']; exact h0)).1
    rw [← blockAt, hb'] at this
    rw [hc, upd_ne (by omega)]
  -- a byte outside the piece
  have out : ∀ o, o < off + w ∨ off + w + k ≤ o → byteAt d s2.cache o = byteAt d s1.cache o := fun o ho => by
    rw [byt]
    split
    · rename_i e1
      rw [patch_out (by simp only [BSIZE] at *; omega), byteAt, e1, hb]
    · rfl
  have le : w ≤ w' := by omega
  refine ⟨⟨f1, fun m' h1 h2 => ?_, ?_, ?_, fun _ => Or.inl rfl⟩, hl, ht.trans h.itable, h.fields, h.ind,
    fun k' hk' => ?_, fun k' hk' => by rw [blk]; exact h.keep k' hk', fun o ho hr => ?_, fun j hj => ?_,
    h.others.trans f2, fun y hy => (hlow y hy).trans (h.low y hy), ?_, fun hall x hx' => ?_⟩
  · rw [← h.core.agree m' h1 h2]; exact ino_congr h1 hlow
  · rw [St.synced, ht]; exact h.core.table
  · rw [St.synced, ht]; exact h.core.unique
  · rw [blk]
    by_cases hk1 : k' * BSIZE < off + w
    · exact h.mapped k' hk1
    · have : k' = (off + w) / BSIZE := by simp only [BSIZE] at *; omega
      rw [this, hb]; exact h0
  · rw [out o (by omega)]
    exact h.bytes o ho (by omega)
  · by_cases hj1 : j < w
    · rw [out _ (by omega)]; exact h.wrote j hj1
    · rw [byt, if_pos (by simp only [BSIZE] at *; omega), patch_in (by simp only [BSIZE] at *; omega)
        (by simp only [BSIZE] at *; omega)]
      have e1 : (off + j) % BSIZE - (off + w) % BSIZE = j - w := by simp only [BSIZE] at *; omega
      rw [e1, hf _ (by omega), Nat.add_sub_cancel' (by omega)]
  · refine (h.ext.mono_pos (dataBlocks_grow (fun _ => rfl) fun k _ => blk k)).trans (hx.mono_list ?_)
    intro y hy
    rw [List.mem_singleton.mp hy, ← hb, ← blk]
    exact mem_dataBlocks (by simp only [BSIZE]; omega) hcnt
  · rcases mem_absorb.mp (hlog hx') with h1 | rfl
    · exact h.logs hall h1
    · have hmem : blockAt (v m) s.cache ((off + w) / BSIZE) ∈ targets (v m) s.cache off _ :=
        mem_targets (by simp only [BSIZE]; omega) hcnt
      rw [← hb, h.keep _ (hall _ hmem)]
      exact List.mem_append_right _ hmem

end Wrote

theorem fault_none (h : src.fault tot m = none) (k : Nat) (hk : k < m) : src (tot + k) ≠ none := by
  have := List.find?_eq_none.mp h k (List.mem_range.mpr hk)
  simpa [Option.isNone_iff_eq_none] using this

theorem fault_some (h : src.fault tot m = some k) :
    k < m ∧ src (tot + k) = none ∧ ∀ j, j < k → src (tot + j) ≠ none := by
  obtain ⟨h1, h2, h3⟩ := List.find?_range_eq_some.mp h
  refine ⟨List.mem_range.mp h2, by simpa [Option.isNone_iff_eq_none] using h1, fun j hj => ?_⟩
  exact Option.ne_none_iff_isSome.mpr (by simpa using h3 j hj)

def Src.Ok (src : Src) (n : Nat) : Prop := ∀ k, k < n → src k ≠ none

structure Src.Faults (src : Src) (n f : Nat) : Prop where
  lt : f < n
  none : src f = none
  ok : src.Ok f

structure WroteAll (sb : Superblock) (v : Nat → Dinode) (i m : Nat) (src : Src) (n off cnt : Nat) (s : St) (w e : Nat)
    (s' : St) (d : Dinode) : Prop extends Wrote sb v i m src off cnt s w e s' d where
  le : w ≤ e
  le' : e ≤ n
  read : src.Ok w
  /-- the write is short at a fault, in whose block the bytes before it are touched, or where
      there is no block -/
  short : w < n → src.Faults n e ∧ (off + e) / BSIZE = (off + w) / BSIZE ∧ (w = 0 ∨ (off + w) % BSIZE = 0) ∨
    e = w ∧ blockAt (v m) s.cache ((off + w) / BSIZE) = 0 ∧ AllUsed sb s'.cache

/-- An index that has its block: `bmap` logs nothing and does not fail. -/
theorem bmap_quiet : wp (bmap sb i bn) (fun _ s' => blockAt (s.itable i).copy s.cache bn ≠ 0 → s'.lh = s.lh)
    (fun _ _ => blockAt (s.itable i).copy s.cache bn = 0) s := by
  by_cases hb : blockAt (s.itable i).copy s.cache bn ≠ 0
  · exact (bmap_reads hb).imp fun _ _ hr _ => by rw [hr.2.eq]
  · exact (wp_true _ _).mono (fun _ _ _ h => absurd h hb) fun _ _ _ => not_not.mp hb

theorem writeLoop_spec (hi : Opened s i m) (ho : s.outstanding = 1)
    (hmax : off + n ≤ MAXFILE * BSIZE) (hcnt : off + n ≤ (off / BSIZE + cnt) * BSIZE) : ∀ (fuel : Nat) {w : Nat}
    {s1 : St} {d : Dinode}, n - w ≤ fuel → w ≤ n →
    src.Ok w → w = 0 ∨ (off + w) % BSIZE = 0 ∨ w = n → Wrote sb v i m src off cnt s w w s1 d →
    wp (writeLoop sb i src n fuel w (off + w))
      (fun r s' => ∃ e d', WroteAll sb v i m src n off cnt s r.1 e s' d' ∧ r.2 = off + r.1 ∧
        ((off + w) % BSIZE + (n - w) ≤ BSIZE → r.1 = w ∨ r.1 = n))
      (fun e s' => TooBig sb (cnt + 3) s e s' ∧ Overlogs (v m) off cnt s s') s1 := by
  intro fuel
  induction fuel with
  | zero =>
    intro w s1 d hf hw hok _ hwr
    obtain rfl : w = n := by omega
    simp only [writeLoop, wp_pure]
    exact ⟨w, d, ⟨hwr, Nat.le_refl _, Nat.le_refl _, hok, fun h => absurd h (Nat.lt_irrefl _)⟩, trivial, fun _ =>
      Or.inl trivial⟩
  | succ fuel ih =>
    intro w s1 d hf hw hok hstart hwr
    simp only [writeLoop]
    refine wp_ite (fun hlt => ?_) fun hlt => ?_
    · have ho1 : s1.outstanding = 1 := hwr.ext.outstanding.trans ho
      have hbn : (off + w) / BSIZE < MAXFILE := by simp only [BSIZE] at *; omega
      have hbn1 : off / BSIZE ≤ (off + w) / BSIZE := by simp only [BSIZE]; omega
      have hbn2 : (off + w) / BSIZE < off / BSIZE + cnt := by simp only [BSIZE] at *; omega
      have hlen : (dataBlocks d s1.cache off cnt).length = cnt + 1 := by simp [dataBlocks, targets]
      simp only [wp_bind]
      have hcopy : (s1.itable i).copy = d := by rw [hwr.itable, upd_same]
      refine ((bmap_spec hwr.core (hwr.opened hi) ho1 hbn).and bmap_quiet).mono (fun r s2 hb => ?_) fun e s' hf => ?_
      rotate_left
      · obtain ⟨hf, hz⟩ := hf
        rw [hcopy] at hz
        refine ⟨TooBig.after hwr.ext hf (by omega), fun hall => absurd hz ?_⟩
        have h0 := hall _ (mem_targets hbn1 hbn2)
        rw [hwr.keep _ h0]
        exact h0
      obtain ⟨⟨d2, hb⟩, hquiet⟩ := hb
      rw [hcopy] at hquiet
      have hwr2 := hwr.bmap hb hquiet hbn1 hbn2
      refine wp_ite (fun hr0 => ?_) fun hr0 => ?_
      · -- out of blocks
        simp only [wp_pure]
        refine ⟨w, d2, ⟨hwr2, Nat.le_refl _, hw, hok, fun _ => Or.inr ⟨rfl, ?_, hb.full hr0⟩⟩, trivial,
          fun _ => Or.inl trivial⟩
        by_contra hne
        have := hwr2.keep _ hne
        rw [hb.found, hr0] at this
        exact hne this.symm
      · have hm2 := hwr2.core.live (hwr2.opened hi)
        have ho2 : s2.outstanding = 1 := hwr2.ext.outstanding.trans ho
        have hlow : sb.nmeta ≤ r := by
          have := (hwr2.core.fs.ptr_range hm2 (p := posOf ((off + w) / BSIZE)) (by
            rw [upd_same, ← blockAt, hb.found]; exact hr0)).1
          rwa [upd_same, ← blockAt, hb.found] at this
        have hb' : blockAt (upd v m d2 m) s2.cache ((off + w) / BSIZE) = r := by rw [upd_same]; exact hb.found
        simp only [wp_bind, wp_bread]
        generalize hmm : min (n - w) (BSIZE - (off + w) % BSIZE) = mm
        have hpos : (off + w) % BSIZE < BSIZE := Nat.mod_lt _ (by decide)
        split
        · -- the source faults: the buffer is touched and not logged
          rename_i k hfault
          obtain ⟨hk, hnone, hbefore⟩ := fault_some hfault
          have hfirst : src.Faults n (w + k) := by
            refine ⟨by omega, hnone, fun j hj => ?_⟩
            by_cases hjw : j < w
            · exact hok j hjw
            · have := hbefore (j - w) (by omega)
              rwa [Nat.add_sub_cancel' (by omega)] at this
          simp only [wp_bind, wp_setData, wp_brelse, wp_pure]
          refine ⟨w + k, d2, ⟨hwr2.store (k := k) hi hb.found hr0 (by omega) hbn2 rfl rfl ?_
            (fun y hy => mem_absorb.mpr (Or.inl hy)) (fun htd => ?_) (Or.inl rfl) fun _ _ => rfl,
            by omega, by omega, hok, fun _ => Or.inl ⟨hfirst, ?_, by omega⟩⟩, trivial, fun _ => Or.inl trivial⟩
          · exact .of_eq rfl rfl rfl rfl rfl
          · refine hwr2.core.clean.step rfl (fun _ => id) (fun y => ?_) (fun a _ => Or.inl ?_) fun _ _ => id
            · by_cases hy : y = r ∧ (v m).type ≠ T_DIR
              · obtain ⟨hy, hty'⟩ := hy
                refine Or.inr (Or.inr ⟨hy ▸ hlow, fun a ha => ?_⟩)
                simp only [St.ev_cache, St.store_cache] at ha
                rw [(hwr2.core.fs.store hm2 hb' hr0 _).2.2, hy, ← hb', blockAt, ← own_live hm2] at ha
                obtain rfl := hwr2.core.fs.owns.inj (by rw [ha, own_live hm2, ← blockAt, hb']; exact hr0) ha
                refine ⟨?_, posOf_ne_ind _⟩
                simp only [upd_same]
                rw [hwr2.fields]; exact hty'
              · by_cases hyr : y = r
                · -- of a directory's block no byte is touched
                  have hk0 : k = 0 := by
                    rcases htd with e | e
                    · omega
                    · exact absurd ⟨hyr, e⟩ hy
                  have hsame : patch (s2.cache r) ((off + w) % BSIZE) k (fun j => src.byte (w + j)) = s2.cache r := by
                    rw [hk0]
                    funext o
                    exact patch_out (by omega)
                  refine Or.inl ?_
                  simp only [St.ev_cache, St.store_cache]
                  rw [hsame, upd_self]
                · exact Or.inl (upd_ne hyr _)
            · exact (hwr2.core.fs.store hm2 hb' hr0 _).2.2 a
          · simp only [BSIZE] at *
            omega
        · rename_i hfault
          simp only [wp_bind, wp_setData]
          refine wp_logged ho2 ?_ fun s' hf hlh =>
            ⟨TooBig.after hwr2.ext hf (by simp [dataBlocks, targets]), fun hall => hlh ▸ hwr2.logs hall⟩
          simp only [wp_brelse]
          have hr : r ≠ 0 := hr0
          have hwr3 : Wrote sb v i m src off cnt s (w + mm) (w + mm)
              (s2.write r (patch (s2.cache r) ((off + w) % BSIZE) mm fun j => src.byte (w + j))) d2 := by
            refine hwr2.store (k := mm) hi hb.found hr0 (by omega) hbn2 rfl rfl ?_ (fun _ => id) (fun _ => ?_)
              (Or.inr rfl) fun _ _ => rfl
            · exact ext_write (Or.inr ⟨by simp, hr⟩)
            · refine hwr2.core.clean.step rfl (fun y hy => mem_absorb.mpr (Or.inl hy)) (fun y => ?_)
                (fun a _ => Or.inl ?_) fun _ _ => id
              · by_cases hy : y = r
                · exact Or.inr (Or.inl (mem_absorb.mpr (Or.inr hy)))
                · exact Or.inl (upd_ne hy _)
              · exact (hwr2.core.fs.store hm2 hb' hr0 _).2.2 a
          rw [Nat.add_assoc]
          have hok' : src.Ok (w + mm) := fun j hj => by
            by_cases hjw : j < w
            · exact hok j hjw
            · have := fault_none hfault (j - w) (by omega)
              rwa [Nat.add_sub_cancel' (by omega)] at this
          have hstart' : w + mm = 0 ∨ (off + (w + mm)) % BSIZE = 0 ∨ w + mm = n := by
            simp only [BSIZE] at *
            omega
          refine (ih (by omega) (by omega) hok' hstart' hwr3).imp fun r' s' h' => ?_
          obtain ⟨e, d', h1, h2, h3⟩ := h'
          refine ⟨e, d', h1, h2, fun hone => Or.inr ?_⟩
          have hpos' : (off + (w + mm)) % BSIZE < BSIZE := Nat.mod_lt _ (by decide)
          have h4 := h3 (by omega)
          have := h1.le
          have := h1.le'
          omega
    · obtain rfl : w = n := by omega
      simp only [wp_pure]
      exact ⟨w, d, ⟨hwr, Nat.le_refl _, Nat.le_refl _, hok, fun h => absurd h (Nat.lt_irrefl _)⟩, trivial, fun _ =>
        Or.inl trivial⟩

/-- What `writei` does when it writes `w` bytes; `e` is as in `Wrote`. -/
structure Written (sb : Superblock) (v : Nat → Dinode) (i m : Nat) (src : Src) (n off cnt : Nat) (s : St) (w e : Nat)
    (s' : St) (d : Dinode) : Prop where
  sound : Core sb (upd v m d) 0 s'.synced
  core : w = e ∨ (v m).type ≠ T_DIR → Core sb (upd v m d) 0 s'
  itable : s'.itable = upd s.itable i { s.itable i with copy := d }
  fields : d = { v m with addrs := d.addrs, size := max (v m).size (off + w) }
  le : w ≤ e
  le' : e ≤ n
  bytes : ∀ o, o < (v m).size → o < off ∨ off + e ≤ o → byteAt d s'.cache o = byteAt (v m) s.cache o
  read : src.Ok w
  wrote : ∀ k, k < e → byteAt d s'.cache (off + k) = src.byte k
  short : w < n → src.Faults n e ∧ (off + e) / BSIZE = (off + w) / BSIZE ∧ (w = 0 ∨ (off + w) % BSIZE = 0) ∨
    e = w ∧ (v m).size ≤ (off + w) / BSIZE * BSIZE ∧ AllUsed sb s'.cache
  /-- a write within one block is done or not done -/
  block : off % BSIZE + n ≤ BSIZE → w = 0 ∨ w = n
  others : Others sb m v s.cache (upd v m d) s'.cache
  ext : Ext sb (sb.iblock m :: dataBlocks d s'.cache off cnt) s s'

/-- Only a fault leaves bytes touched and not written. -/
theorem Written.partly {w e : Nat} {s' : St}
    (h : Written sb v i m src n off cnt s w e s' d) (hlt : w < e) : src.Faults n e := by
  rcases h.short (Nat.lt_of_lt_of_le hlt h.le') with h1 | h1
  · exact h1.1
  · omega

def Refused (size off n : Nat) : Prop := size < off ∨ (off + n) % 2 ^ 32 < off ∨ MAXFILE * BSIZE < off + n

theorem writei_spec (h : Core sb v m s) (hi : Opened s i m) (ho : s.outstanding = 1)
    (hcnt : off + n ≤ (off / BSIZE + cnt) * BSIZE) :
    wp (writei sb i src off n)
      (fun r s' => Refused (v m).size off n ∧ r = -1 ∧ s' = s ∨
        ¬ Refused (v m).size off n ∧ ∃ (w e : Nat) (d : Dinode), r = w ∧ Written sb v i m src n off cnt s w e s' d)
      (fun e s' => TooBig sb (cnt + 3) s e s' ∧ Overlogs (v m) off cnt s s') s := by
  have hm := h.live hi
  have hcopy := h.copy_eq hi
  have hfull := h.fs.full m hm
  have hle := h.fs.size_le m hm
  have hw := h.fs.wf m hm.1
  simp only [writei, wp_bind, wp_get, hcopy]
  refine wp_ite (fun hout => ?_) fun hin => ?_
  · rw [wp_pure]
    exact Or.inl ⟨hout.imp id Or.inl, rfl, rfl⟩
  refine wp_ite (fun hbig => ?_) fun hmax => ?_
  · rw [wp_pure]
    exact Or.inl ⟨Or.inr (Or.inr hbig), rfl, rfl⟩
  have hacc : ¬ Refused (v m).size off n := by
    rintro (h1 | h1 | h1)
    · exact hin (Or.inl h1)
    · exact hin (Or.inr h1)
    · exact hmax h1
  have hmap : Mapped (v m) s.cache off := fun k hk => hfull k (by omega)
  simp only [wp_bind]
  have hloop : wp (writeLoop sb i src n n 0 (off + 0)) _ _ s := writeLoop_spec hi ho (Nat.le_of_not_lt hmax) hcnt
    n (Nat.sub_le n 0) (Nat.zero_le _) (fun k hk => absurd hk (Nat.not_lt_zero k)) (Or.inl rfl) (.refl h hi hmap)
  rw [Nat.add_zero] at hloop
  refine hloop.imp fun r s1 h₁ => ?_
  obtain ⟨w, q⟩ := r
  obtain ⟨e, d, hwr, hq, hone⟩ := h₁
  simp only at hwr hone hq
  subst hq
  have hcopy1 : (s1.itable i).copy = d := by rw [hwr.itable, upd_same]
  have hsize : d.size = (v m).size := by rw [hwr.fields]
  have hd : upd v m d m = d := upd_same v m d
  simp only [wp_setCopy, hcopy1]
  obtain ⟨d', hd'⟩ : ∃ d', d' = { d with size := max d.size (off + w) } := ⟨_, rfl⟩
  have hwd : d.Wf := hd ▸ hwr.sound.fs.wf m hm.1
  have hmax' : max d.size (off + w) ≤ MAXFILE * BSIZE := by have := hwr.le; have := hwr.le'; omega
  rw [← hd']
  have hi1 := hwr.opened hi
  have done : ∀ t : St, t.cache = s1.cache → t.itable = s1.itable → Core sb (upd v m d) m t →
      Core sb (upd v m d') 0 ((t.node i { t.itable i with copy := d' }).updated sb i) := fun t hc ht hcore => by
    have hit : Opened t i m := hi1.of_eq (by rw [ht])
    have hw' : d'.Wf := by
      rw [hd']
      exact ⟨hwd.type, hwd.major, hwd.minor, hwd.nlink, by simp only [MAXFILE, NDIRECT, NINDIRECT, BSIZE] at *; omega,
        hwd.addrs, hwd.beyond⟩
    have := hcore.setCopy hit (d := d') (by rw [hd, hd']) (by rw [hd, hd']) hw' (by rw [hd']; exact hmax')
      fun k hk => by
        rw [hd, hc]
        by_cases h1 : k * BSIZE < off + w
        · exact hwr.mapped k (by have := hwr.le; omega)
        · have h2 : blockAt (v m) s.cache k ≠ 0 := hfull k (by rw [hd'] at hk; simp only at hk; omega)
          rw [hwr.keep k h2]; exact h2
    rw [upd_upd] at this
    exact this.updated (hit.setCopy d')
  have hi2 := hi1.setCopy d'
  have ho1 : s1.outstanding = 1 := hwr.ext.outstanding.trans ho
  have e₁ : Ext sb (dataBlocks d s1.cache off cnt) s (s1.node i { s1.itable i with copy := d' }) :=
    hwr.ext.trans (.of_eq rfl rfl rfl rfl rfl)
  refine (iupdate_spec i (s := s1.node i _) ho1).mono (fun _ s2 h₂ => ?_) fun e s' hf =>
    ⟨TooBig.after e₁ hf.1 (by simp [dataBlocks, targets]), fun hall => hf.2 ▸ hwr.logs hall⟩
  obtain ⟨rfl, e₂⟩ := h₂
  rw [hi2.inum] at e₂
  rw [wp_pure]
  have hdata : ∀ y, sb.nmeta ≤ y → ((s1.node i { s1.itable i with copy := d' }).updated sb i).cache y = s1.cache y :=
    fun y hy => by
      rw [St.updated_cache, hi2.inum]; exact upd_iblock hm.1 hy
  have hblk : ∀ k, blockAt d' ((s1.node i { s1.itable i with copy := d' }).updated sb i).cache k = blockAt d
      s1.cache k :=
    fun k => ptr_congr (by rw [hd']) (fun h0 => hdata _ (by
      have := (hwr.sound.fs.ptr_range (hwr.sound.live (hi1.of_eq rfl)) (p := .addr NDIRECT) (by rw [hd]; exact h0)).1
      rwa [hd] at this)) _
  -- a byte in a block of the inode
  have hbyte : ∀ o, blockAt d s1.cache (o / BSIZE) ≠ 0 →
      byteAt d' ((s1.node i { s1.itable i with copy := d' }).updated sb i).cache o = byteAt d s1.cache o :=
      fun o h0 => by
    rw [byteAt, hblk, byteAt, hdata]
    have := (hwr.sound.fs.ptr_range (hwr.sound.live (hi1.of_eq rfl)) (p := posOf (o / BSIZE)) (by rw [hd]; exact h0)).1
    rwa [hd] at this
  refine Or.inr ⟨hacc, w, e, d', rfl, (done s1.synced rfl rfl hwr.sound).synced, fun hwe => done s1 rfl rfl
    ⟨hwr.sound.fs, hwr.sound.agree, hwr.sound.table, hwr.sound.unique, hwr.clean hwe⟩, ?_, ?_, hwr.le, hwr.le',
    fun o ho' hr => ?_, hwr.read, fun k hk => ?_, fun hlt => ?_, fun hb => ?_, ?_, ?_⟩
  · rw [St.updated_itable, St.node_itable, hwr.itable, upd_same, upd_upd]
  · rw [hd', hwr.fields]
  · have h0 : blockAt (v m) s.cache (o / BSIZE) ≠ 0 := hfull _ (by simp only [BSIZE]; omega)
    rw [hbyte o (by rw [hwr.keep _ h0]; exact h0)]
    exact hwr.bytes o h0 hr
  · rw [hbyte _ (hwr.mapped _ (by simp only [BSIZE]; omega))]
    exact hwr.wrote k hk
  · refine (hwr.short hlt).imp id fun hs => ⟨hs.1, ?_, fun b hb => ?_⟩
    · by_contra hc
      exact hfull _ (Nat.lt_of_not_le hc) hs.2.1
    · rw [updated_bit (by rw [hi2.inum]; exact hm.1) hb]
      exact hs.2.2 b hb
  · simpa using hone (by simpa using hb)
  · refine hwr.others.trans fun m' hne => ?_
    rw [upd_ne hne, upd_ne hne]
    refine ⟨rfl, fun hl => ?_⟩
    have := (Others.low (m := m) hwr.sound.fs hdata m' hne).2 hl
    rwa [upd_ne hne] at this
  · exact (e₁.mono_pos fun b hb h0 => List.mem_cons_of_mem _
      (dataBlocks_grow (fun _ => by rw [hd']) (fun k _ => hblk k) b hb h0)).trans
      (e₂.mono_list (by simp))

end Xv6.Fs
