/-
  Xv6.Bio.Coherent — the buffer cache of `Xv6.Bio.Cache` is a plain array of blocks to those who
  use it.

  `Core` collects what every operation keeps: one buffer per block, the LRU list, `refcnt`, and
  that what is not in a buffer is on the disk. A buffer that is neither pinned nor being
  modified is written back (`clean`), so it may be recycled; the blocks of the log are pinned
  until `install_trans` has written them. `PcOk` says where `commit` is.

  Proved: `inv` along every run.
-/
import Xv6.Bio.Cache
import Mathlib

namespace Xv6.Bio

variable {C : Conf} {s s' : St} {u v b blk : Nat} {x : User} {y : Option User}

def Phase.owns : Phase → Prop
  | .locked => True
  | .holding _ => True
  | _ => False

structure UserOk (C : Conf) (s : St) (u : Nat) (x : User) : Prop where
  lt : u < C.users
  buf : x.buf < NBUF
  dev : (s.bufs x.buf).dev = ROOTDEV
  blk : (s.bufs x.buf).blockno = x.blk
  lock : x.phase.owns → s.lock x.buf = some u
  valid : ∀ d, x.phase = .holding d → (s.bufs x.buf).valid = true

def St.Holds (s : St) (b blk : Nat) : Prop := b < NBUF ∧ (s.bufs b).dev = ROOTDEV ∧ (s.bufs b).blockno = blk

def St.Dirty (s : St) (b : Nat) : Prop := ∃ u blk, s.users u = some ⟨b, blk, .holding true⟩

structure Core (C : Conf) (s : St) : Prop where
  list : ∃ L, s.list.Is head L ∧ L.Perm (List.range NBUF)
  uniq : ∀ {b b' blk}, s.Holds b blk → s.Holds b' blk → b = b'
  dev : ∀ b, (s.bufs b).dev = 0 ∨ (s.bufs b).dev = ROOTDEV
  users : ∀ {u x}, s.users u = some x → UserOk C s u x
  refcnt : ∀ {b}, b < NBUF → (s.bufs b).refcnt = s.count C b + s.pins b
  cached : ∀ {blk}, blk ∈ s.pending → ∃ b, s.Holds b blk
  nodup : s.lh.Nodup
  same : ∀ {b blk}, s.Holds b blk → (s.bufs b).valid = true → (s.bufs b).data = s.store blk
  gone : ∀ {blk}, (∀ b, s.Holds b blk → (s.bufs b).valid = false) → s.disk blk = s.store blk
  clean : ∀ {b blk}, s.Holds b blk → (s.bufs b).valid = true → s.disk blk = (s.bufs b).data ∨
    blk ∈ s.pending ∨ s.Dirty b

/-! ## Counting -/

theorem count_change (hu : u < C.users) (hv : ∀ v, v ≠ u → s'.users v = s.users v) (b : Nat) :
    s'.count C b + s.uses u b = s.count C b + s'.uses u b :=
  sum_range_change (f := fun u => s.uses u b) (g := fun u => s'.uses u b) hu fun v hne => by
    simp only [St.uses, hv v hne]

theorem uses_le_count (hu : u < C.users) (b : Nat) : s.uses u b ≤ s.count C b :=
  Finset.single_le_sum (f := fun u => s.uses u b) (fun _ _ => Nat.zero_le _) (Finset.mem_range.mpr hu)

theorem Core.count_pos (hc : Core C s) (hx : s.users u = some x) : 0 < s.count C x.buf := by
  have := uses_le_count (s := s) (hc.users hx).lt x.buf
  simp only [St.uses, hx, if_true] at this
  omega

/-- Who uses a buffer keeps it from being recycled. -/
theorem Core.refcnt_pos (hc : Core C s) (hx : s.users u = some x) : 0 < (s.bufs x.buf).refcnt := by
  rw [hc.refcnt (hc.users hx).buf]
  have := hc.count_pos hx
  omega

theorem uses_none (hx : s.users u = none) (b : Nat) : s.uses u b = 0 := by simp [St.uses, hx]

theorem uses_some (hx : s.users u = some x) (b : Nat) : s.uses u b = if x.buf = b then 1 else 0 := by
  simp [St.uses, hx]

/-! ## A step of one user -/

/-- A field that the new entry has in common with the old one. -/
theorem upd_proj {α β : Type} {t : Nat → α} {x : α} (f : α → β) (hf : f x = f (t b)) (b' : Nat) :
    f (upd t b x b') = f (t b') := by
  by_cases e : b' = b
  · rw [e, upd_same, hf]
  · rw [upd_ne e]

/-- User `u` goes on with its use of buffer `b`, which holds `blk`; the buffer is then `x` and the user `y`. -/
structure Update (C : Conf) (u b blk : Nat) (x : Buf) (y : Option User) (s s' : St) : Prop where
  holds : s.Holds b blk
  lt : u < C.users
  before : ∀ z, s.users u = some z → z.buf = b
  after : ∀ z, y = some z → z.buf = b ∧ z.blk = blk ∧ (z.phase.owns → s'.lock b = some u) ∧
    ∀ d, z.phase = .holding d → x.valid = true
  bufs : s'.bufs = upd s.bufs b x
  users : s'.users = upd s.users u y
  dev : x.dev = (s.bufs b).dev
  blockno : x.blockno = (s.bufs b).blockno
  list : ∃ L, s'.list.Is head L ∧ L.Perm (List.range NBUF)
  nodup : s'.lh.Nodup
  disk : ∀ {k}, k ≠ blk → s'.disk k = s.disk k
  store : ∀ {k}, k ≠ blk → s'.store k = s.store k
  pending : ∀ {k}, k ≠ blk → (k ∈ s'.pending ↔ k ∈ s.pending)
  lock : ∀ {c}, c ≠ b → s'.lock c = s.lock c
  /-- what another user that has `b->lock` relies on -/
  kept : ∀ {v}, v ≠ u → s.lock b = some v → s'.lock b = some v ∧ x.data = (s.bufs b).data ∧ s'.disk blk = s.disk blk
  valid : (s.bufs b).valid = true → x.valid = true
  refcnt : x.refcnt + (s.users u).toList.length + (if blk ∈ s.pending then 1 else 0) =
    (s.bufs b).refcnt + y.toList.length + if blk ∈ s'.pending then 1 else 0
  same : x.valid = true → x.data = s'.store blk
  gone : x.valid = false → s'.disk blk = s'.store blk
  clean : x.valid = true → s'.disk blk = x.data ∨ blk ∈ s'.pending ∨ s'.Dirty b

theorem UserOk.holds (h : UserOk C s u x) : s.Holds x.buf x.blk := ⟨h.buf, h.dev, h.blk⟩

theorem pins_eq (h : s.Holds b blk) : s.pins b = if blk ∈ s.pending then 1 else 0 := by
  simp only [St.pins, h.2.1, h.2.2, true_and]

theorem uses_eq (h : ∀ z, s.users u = some z → z.buf = b) (c : Nat) :
    s.uses u c = if c = b then (s.users u).toList.length else 0 := by
  cases hx : s.users u with
  | none => simp [St.uses, hx]
  | some z => simp [St.uses, hx, h z hx, eq_comm]

theorem Core.update (hc : Core C s) {x : Buf} (h : Update C u b blk x y s s') : Core C s' := by
  have hb : s'.bufs b = x := by rw [h.bufs, upd_same]
  have hu : s'.users u = y := by rw [h.users, upd_same]
  have hne : ∀ {c}, c ≠ b → s'.bufs c = s.bufs c := fun e => by rw [h.bufs, upd_ne e]
  have hv : ∀ v, v ≠ u → s'.users v = s.users v := fun v e => by rw [h.users, upd_ne e]
  have hh : ∀ {c k}, s'.Holds c k ↔ s.Holds c k := by
    intro c k
    rw [St.Holds, h.bufs, upd_proj Buf.dev h.dev, upd_proj Buf.blockno h.blockno, St.Holds]
  -- `b` holds `blk` only, and no other buffer does
  have hkb : ∀ {k}, s.Holds b k → k = blk := fun h1 => h1.2.2.symm.trans h.holds.2.2
  have hk : ∀ {c k}, c ≠ b → s.Holds c k → k ≠ blk := fun e h1 e' => e (hc.uniq (e' ▸ h1) h.holds)
  refine ⟨h.list, fun h1 h2 => hc.uniq (hh.mp h1) (hh.mp h2), fun c => ?_, fun {v z} hz => ?_, fun {c} hlt => ?_,
    fun {k} hm => ?_, h.nodup, fun {c k} h1 hx => ?_, fun {k} hx => ?_, fun {c k} h1 hx => ?_⟩
  · rw [h.bufs, upd_proj Buf.dev h.dev]
    exact hc.dev c
  · by_cases e : v = u
    · subst e
      obtain ⟨rfl, rfl, h3, h4⟩ := h.after z (hu.symm.trans hz)
      have h5 := hh.mpr h.holds
      exact ⟨h.lt, h5.1, h5.2.1, h5.2.2, h3, by rw [hb]; exact h4⟩
    · rw [hv v e] at hz
      have hz' := hc.users hz
      have h5 := hh.mpr hz'.holds
      refine ⟨hz'.lt, hz'.buf, h5.2.1, h5.2.2, fun ho => ?_, fun d hd => ?_⟩
      · by_cases eb : z.buf = b
        · rw [eb]; exact (h.kept e (eb ▸ hz'.lock ho)).1
        · rw [h.lock eb]; exact hz'.lock ho
      · by_cases eb : z.buf = b
        · rw [eb, hb]; exact h.valid (eb ▸ hz'.valid d hd)
        · rw [hne eb]; exact hz'.valid d hd
  · have hcount := count_change h.lt hv c
    have href := hc.refcnt hlt
    rw [uses_eq h.before, uses_eq fun z hz => (h.after z (hu.symm.trans hz)).1, hu] at hcount
    by_cases e : c = b
    · subst e
      have hn := h.refcnt
      rw [if_pos rfl, if_pos rfl] at hcount
      rw [pins_eq h.holds] at href
      rw [hb, pins_eq (hh.mpr h.holds)]
      omega
    · have hpin : s'.pins c = s.pins c := by
        simp only [St.pins, hne e]
        exact if_congr (and_congr_right fun hd => h.pending (hk e ⟨hlt, hd, rfl⟩)) rfl rfl
      rw [if_neg e, if_neg e] at hcount
      rw [hne e, hpin]
      omega
  · by_cases e : k = blk
    · exact ⟨b, hh.mpr (e ▸ h.holds)⟩
    · obtain ⟨c, h1⟩ := hc.cached ((h.pending e).mp hm)
      exact ⟨c, hh.mpr h1⟩
  · by_cases e : c = b
    · subst e
      rw [hb] at hx ⊢
      rw [hkb (hh.mp h1)]
      exact h.same hx
    · rw [hne e] at hx ⊢
      rw [h.store (hk e (hh.mp h1))]
      exact hc.same (hh.mp h1) hx
  · by_cases e : k = blk
    · subst e
      exact h.gone (hb ▸ hx b (hh.mpr h.holds))
    · rw [h.disk e, h.store e]
      refine hc.gone fun c h1 => ?_
      rw [← hne fun ec => e (hkb (ec ▸ h1))]
      exact hx c (hh.mpr h1)
  · by_cases e : c = b
    · subst e
      rw [hb] at hx ⊢
      rw [hkb (hh.mp h1)]
      exact h.clean hx
    · have hkk := hk e (hh.mp h1)
      rw [hne e] at hx ⊢
      rw [h.disk hkk, h.pending hkk]
      refine (hc.clean (hh.mp h1) hx).imp_right (Or.imp_right fun ⟨v, k', hd⟩ => ⟨v, k', ?_⟩)
      rw [hv v fun ev => e (h.before _ (ev ▸ hd)), hd]

def Keeps (s s' : St) : Prop :=
  ∀ {b}, 0 < (s.bufs b).refcnt → (s'.bufs b).dev = (s.bufs b).dev ∧ (s'.bufs b).blockno = (s.bufs b).blockno

structure Frame (u : Nat) (s s' : St) : Prop where
  keeps : Keeps s s'
  pc : s'.pc = s.pc
  unpinned : s'.unpinned = s.unpinned
  outstanding : s'.outstanding = s.outstanding
  lh : s'.lh = s.lh
  users : ∀ {v}, v ≠ u → s'.users v = s.users v
  held : ∀ {v b blk d}, v ≠ u → s.users v = some ⟨b, blk, .holding d⟩ → (s'.bufs b).data = (s.bufs b).data ∧
    s'.disk blk = s.disk blk

theorem Update.keeps {x : Buf} (h : Update C u b blk x y s s') : Keeps s s' := fun _ => by
  rw [h.bufs]
  exact ⟨upd_proj Buf.dev h.dev _, upd_proj Buf.blockno h.blockno _⟩

theorem Update.frame (hc : Core C s) {x : Buf} (h : Update C u b blk x y s s') (hpc : s'.pc = s.pc)
    (hun : s'.unpinned = s.unpinned) (ho : s'.outstanding = s.outstanding) (hlh : s'.lh = s.lh) : Frame u s s' := by
  refine ⟨h.keeps, hpc, hun, ho, hlh, fun e => by rw [h.users, upd_ne e], fun {v c k d} e hz => ?_⟩
  have hz' := hc.users hz
  by_cases ec : c = b
  · subst ec
    obtain ⟨-, h1, h2⟩ := h.kept e (hz'.lock trivial)
    have hk : k = blk := hz'.blk.symm.trans h.holds.2.2
    rw [h.bufs, upd_same, hk]
    exact ⟨h1, h2⟩
  · rw [h.bufs, upd_ne ec]
    exact ⟨rfl, h.disk fun ek => ec (hc.uniq (ek ▸ hz'.holds) h.holds)⟩

def Acts (C : Conf) (u : Nat) (s t : St) : Prop := Core C t ∧ Frame u s t

def SameUse (u : Nat) (s s' : St) : Prop :=
  ∀ {b blk ph}, s.users u = some ⟨b, blk, ph⟩ → ∃ ph', s'.users u = some ⟨b, blk, ph'⟩

theorem Update.sameUse {x : Buf} {ph ph' : Phase} (h : Update C u b blk x (some ⟨b, blk, ph'⟩) s s')
    (hx : s.users u = some ⟨b, blk, ph⟩) : SameUse u s s' := by
  intro c k ph'' hy
  rw [hx] at hy
  cases hy
  exact ⟨ph', by rw [h.users, upd_same]⟩

/-! ### The operations -/

theorem Core.gone_of (hc : Core C s) (hb : s.Holds b blk) (hv : (s.bufs b).valid = false) : s.disk blk = s.store blk :=
  hc.gone fun c h => by rw [hc.uniq h hb]; exact hv

/-- Nobody else has the lock. -/
theorem Core.owner (hc : Core C s) {P : Prop} (hx : s.users u = some x) (ho : x.phase.owns) (hne : v ≠ u)
    (hl : s.lock x.buf = some v) : P := by
  rw [(hc.users hx).lock ho] at hl
  exact absurd (Option.some.inj hl).symm hne

/-- A buffer that user `u` has not modified, and does not now. -/
theorem Core.quiet (hc : Core C s) {t : St} (hb : s.Holds b blk) (hu : ∀ k, s.users u ≠ some ⟨b, k, .holding true⟩)
    (husers : t.users = upd s.users u y) : ((s.bufs b).valid = true → (s.bufs b).data = s.store blk) ∧
      ((s.bufs b).valid = false → s.disk blk = s.store blk) ∧
      ((s.bufs b).valid = true → s.disk blk = (s.bufs b).data ∨ blk ∈ s.pending ∨ t.Dirty b) := by
  refine ⟨hc.same hb, hc.gone_of hb, fun hv => (hc.clean hb hv).imp_right (Or.imp_right fun ⟨v, k, hd⟩ => ⟨v, k, ?_⟩)⟩
  rw [husers, upd_ne fun (e : v = u) => hu k (e ▸ hd), hd]

/-- `b->lock` changes hands between users who have not modified the buffer. -/
theorem Core.relock (hc : Core C s) {ph q : Phase} {l : Option Nat} (hx : s.users u = some ⟨b, blk, ph⟩)
    (hd : ph ≠ .holding true) (hl : q.owns → l = some u) (hh : ∀ d, q ≠ .holding d)
    (hk : ∀ {v}, v ≠ u → s.lock b ≠ some v) : Update C u b blk (s.bufs b) (some ⟨b, blk, q⟩) s
      ({ s with lock := upd s.lock b l }.setUser u (some ⟨b, blk, q⟩)) := by
  have hux := hc.users hx
  obtain ⟨h1, h2, h3⟩ := hc.quiet (t := { s with lock := upd s.lock b l }.setUser u (some ⟨b, blk, q⟩))
    hux.holds (u := u) (fun k e => by rw [hx] at e; cases e; exact hd rfl) rfl
  refine'
    { holds := hux.holds
      lt := hux.lt
      before := by simp [hx]
      after := fun z hz => by
        cases hz
        exact ⟨rfl, rfl, fun ho => (upd_same _ _ _).trans (hl ho), fun d e => absurd e (hh d)⟩
      bufs := (upd_self _ _).symm
      list := hc.list
      nodup := hc.nodup
      lock := fun e => upd_ne e _
      kept := fun e hv => absurd hv (hk e)
      refcnt := by rw [hx]; rfl
      same := h1
      gone := h2
      clean := h3, .. } <;> intros <;> trivial

theorem acquire_acts (hc : Core C s) (hs : acquire s u = .ok s') : Acts C u s s' ∧ SameUse u s s' := by
  unfold acquire at hs
  split at hs
  · rename_i b blk hx
    split at hs <;> cases hs
    rename_i hfree
    have h := hc.relock (l := some u) (q := .locked) hx (by simp) (fun _ => rfl) (by simp) fun _ e => by
      rw [hfree] at e; cases e
    exact ⟨⟨hc.update h, h.frame hc rfl rfl rfl rfl⟩, h.sameUse hx⟩
  · cases hs

theorem Core.dirty_owner (hc : Core C s) (hx : s.users u = some x) (ho : x.phase.owns) (hd : s.Dirty x.buf) :
    x.phase = .holding true := by
  obtain ⟨v, blk, hv⟩ := hd
  have h1 := (hc.users hx).lock ho
  rw [(hc.users hv).lock trivial] at h1
  cases h1
  rw [hx] at hv
  rw [Option.some.inj hv]

theorem read_acts (hc : Core C s) (hs : read s u = .ok s') : Acts C u s s' ∧ SameUse u s s' := by
  unfold read at hs
  split at hs
  · rename_i b blk hx
    cases hs
    have hux := hc.users hx
    have hbb : (s.bufs b).blockno = blk := hux.blk
    -- the buffer after the read, and what is in it
    generalize hxb : (if (s.bufs b).valid then s.bufs b
      else { s.bufs b with data := s.disk (s.bufs b).blockno, valid := true }) = xb
    have hsame : xb.dev = (s.bufs b).dev ∧ xb.blockno = (s.bufs b).blockno ∧ xb.refcnt = (s.bufs b).refcnt ∧
        xb.valid = true := by
      subst hxb
      split
      · rename_i hv
        exact ⟨rfl, rfl, rfl, hv⟩
      · exact ⟨rfl, rfl, rfl, rfl⟩
    have hdata : xb.data = s.store blk ∧ (s.disk blk = xb.data ∨ blk ∈ s.pending ∨ s.Dirty b) := by
      subst hxb
      cases hv : (s.bufs b).valid with
      | true => exact ⟨by simpa using hc.same hux.holds hv, by simpa using hc.clean hux.holds hv⟩
      | false => exact ⟨by simpa [hbb] using hc.gone_of hux.holds hv, Or.inl (by simp [hbb])⟩
    have h : Update C u b blk xb (some ⟨b, blk, .holding false⟩) s
        ((s.put b xb).setUser u (some ⟨b, blk, .holding false⟩)) := by refine'
      { holds := hux.holds
        lt := hux.lt
        before := by simp [hx]
        after := fun z hz => by cases hz; exact ⟨rfl, rfl, fun _ => hux.lock trivial, fun _ _ => hsame.2.2.2⟩
        dev := hsame.1
        blockno := hsame.2.1
        list := hc.list
        nodup := hc.nodup
        kept := fun e hl => hc.owner hx trivial e hl
        valid := fun _ => hsame.2.2.2
        refcnt := by rw [hx, hsame.2.2.1]; rfl
        same := fun _ => hdata.1
        gone := fun hv => by rw [hsame.2.2.2] at hv; cases hv
        clean := fun _ => hdata.2.imp_right (Or.imp_right fun hd => nomatch hc.dirty_owner hx trivial hd), .. } <;>
          intros <;> trivial
    exact ⟨⟨hc.update h, h.frame hc rfl rfl rfl rfl⟩, h.sameUse hx⟩
  · cases hs

theorem modify_acts {f : Block → Block} (hc : Core C s) (hs : modify s u f = .ok s') :
    Acts C u s s' ∧ SameUse u s s' := by
  unfold modify at hs
  split at hs
  · rename_i b blk d hx
    have hux := hc.users hx
    obtain rfl : (s.bufs b).blockno = blk := hux.blk
    cases hs
    have hv := hux.valid d rfl
    have h : Update C u b (s.bufs b).blockno { s.bufs b with data := f (s.bufs b).data }
        (some ⟨b, (s.bufs b).blockno, .holding true⟩) s
        (({ s with store := upd s.store (s.bufs b).blockno (f (s.bufs b).data) }.put b
          { s.bufs b with data := f (s.bufs b).data }).setUser u
          (some ⟨b, (s.bufs b).blockno, .holding true⟩)) := by refine'
      { holds := hux.holds
        lt := hux.lt
        before := by simp [hx]
        after := fun z hz => by cases hz; exact ⟨rfl, rfl, fun _ => hux.lock trivial, fun _ _ => hv⟩
        list := hc.list
        nodup := hc.nodup
        store := fun e => upd_ne e _
        kept := fun e hl => hc.owner hx trivial e hl
        refcnt := by rw [hx]; rfl
        same := fun _ => (upd_same _ _ _).symm
        gone := fun h0 => absurd (hv.symm.trans h0) (by decide)
        clean := fun _ => Or.inr (Or.inr ⟨u, _, upd_same _ _ _⟩), .. } <;> intros <;> trivial
    exact ⟨⟨hc.update h, h.frame hc rfl rfl rfl rfl⟩, h.sameUse hx⟩
  · cases hs

/-- After `bwrite` the disk has the buffer's data. -/
theorem bwrite_acts (hc : Core C s) (hs : bwrite s u = .ok s') : Acts C u s s' ∧
    ∀ {b blk ph}, s.users u = some ⟨b, blk, ph⟩ → s'.users u = some ⟨b, blk, .holding false⟩ ∧
    s'.disk blk = (s'.bufs b).data := by
  unfold bwrite at hs
  split at hs
  · rename_i b blk d hx
    have hux := hc.users hx
    obtain rfl : (s.bufs b).blockno = blk := hux.blk
    cases hs
    have hv := hux.valid d rfl
    have h : Update C u b (s.bufs b).blockno (s.bufs b) (some ⟨b, (s.bufs b).blockno, .holding false⟩) s
        ({ s with disk := upd s.disk (s.bufs b).blockno (s.bufs b).data }.setUser u
        (some ⟨b, (s.bufs b).blockno, .holding false⟩)) := by refine'
      { holds := hux.holds
        lt := hux.lt
        before := by simp [hx]
        after := fun z hz => by cases hz; exact ⟨rfl, rfl, fun _ => hux.lock trivial, fun _ _ => hv⟩
        bufs := (upd_self _ _).symm
        list := hc.list
        nodup := hc.nodup
        disk := fun e => upd_ne e _
        kept := fun e hl => hc.owner hx trivial e hl
        refcnt := by rw [hx]; rfl
        same := hc.same hux.holds
        gone := fun h0 => absurd (hv.symm.trans h0) (by decide)
        clean := fun _ => Or.inl (upd_same _ _ _), .. } <;> intros <;> trivial
    refine ⟨⟨hc.update h, h.frame hc rfl rfl rfl rfl⟩, fun hy => ?_⟩
    rw [hx] at hy
    cases hy
    exact ⟨upd_same _ _ _, upd_same _ _ _⟩
  · cases hs

theorem unlock_acts (hc : Core C s) (hs : unlock s u = .ok s') : Acts C u s s' := by
  unfold unlock at hs
  split at hs
  · rename_i b blk hx
    cases hs
    have h := hc.relock (l := none) (q := .leaving) hx (by simp) False.elim (by simp) fun e hl =>
      hc.owner hx trivial e hl
    exact ⟨hc.update h, h.frame hc rfl rfl rfl rfl⟩
  · cases hs

theorem drop_acts (hc : Core C s) (hs : drop s u = .ok s') : Acts C u s s' := by
  unfold drop at hs
  split at hs
  · rename_i b blk hx
    have hux := hc.users hx
    have hpos : 0 < (s.bufs b).refcnt := hc.refcnt_pos hx
    cases hs
    generalize hl : (if (s.bufs b).refcnt - 1 = 0 then (s.list.unlink b).pushFront head b else s.list) = l
    have hlist : ∃ L, l.Is head L ∧ L.Perm (List.range NBUF) := by
      obtain ⟨L, hL, hp⟩ := hc.list
      have hbL : b ∈ L := hp.mem_iff.mpr (List.mem_range.mpr hux.buf)
      rw [← hl]
      split
      · have hn : b ∉ L.erase b := (List.nodup_cons.mp hL.nodup).2.not_mem_erase
        exact ⟨b :: L.erase b, Dlist.is_pushFront (Dlist.is_unlink hL hbL) (hL.mem hbL) hn,
          (List.perm_cons_erase hbL).symm.trans hp⟩
      · exact ⟨L, hL, hp⟩
    obtain ⟨h1, h2, h3⟩ := hc.quiet (t := s.setUser u none) hux.holds (u := u) (by simp [hx]) rfl
    have h : Update C u b blk { s.bufs b with refcnt := (s.bufs b).refcnt - 1 } none s
        (({ s with list := l }.put b { s.bufs b with refcnt := (s.bufs b).refcnt - 1 }).setUser u none) := by refine'
      { holds := hux.holds
        lt := hux.lt
        before := by simp [hx]
        after := nofun
        list := hlist
        nodup := hc.nodup
        kept := fun _ hl => ⟨hl, rfl, rfl⟩
        refcnt := by rw [hx]; exact congrArg (· + ite (blk ∈ s.pending) 1 0) (Nat.sub_add_cancel hpos)
        same := h1
        gone := h2
        clean := h3, .. } <;> intros <;> trivial
    exact ⟨hc.update h, h.frame hc rfl rfl rfl rfl⟩
  · cases hs

/-- `bget` finds the buffer. -/
theorem hit_acts (hc : Core C s) (hu : u < C.users) (hx : s.users u = none) (hb : s.Holds b blk) :
    Acts C u s ((s.put b { s.bufs b with refcnt := (s.bufs b).refcnt + 1 }).setUser u (some ⟨b, blk, .waiting⟩)) := by
  obtain ⟨h1, h2, h3⟩ := hc.quiet (t := s.setUser u (some ⟨b, blk, .waiting⟩)) hb (u := u) (by simp [hx]) rfl
  have h : Update C u b blk { s.bufs b with refcnt := (s.bufs b).refcnt + 1 } (some ⟨b, blk, .waiting⟩) s
      ((s.put b { s.bufs b with refcnt := (s.bufs b).refcnt + 1 }).setUser u (some ⟨b, blk, .waiting⟩)) := by refine'
    { holds := hb
      lt := hu
      before := by simp [hx]
      after := fun z hz => by cases hz; exact ⟨rfl, rfl, nofun, nofun⟩
      list := hc.list
      nodup := hc.nodup
      kept := fun _ hl => ⟨hl, rfl, rfl⟩
      refcnt := by rw [hx]; rfl
      same := h1
      gone := h2
      clean := h3, .. } <;> intros <;> trivial
  exact ⟨hc.update h, h.frame hc rfl rfl rfl rfl⟩

/-- Nobody uses a buffer whose `refcnt` is 0, it is not pinned, and the disk has its data. -/
theorem Core.unused (hc : Core C s) (hb : b < NBUF) (h0 : (s.bufs b).refcnt = 0) :
    (∀ v z, s.users v = some z → z.buf ≠ b) ∧ (∀ blk, s.Holds b blk → blk ∉ s.pending) ∧
      ∀ blk, s.Holds b blk → (s.bufs b).valid = true → s.disk blk = s.store blk := by
  have href := hc.refcnt hb
  have h1 : ∀ v z, s.users v = some z → z.buf ≠ b := fun v z hz e => by
    have := hc.refcnt_pos hz
    rw [e, h0] at this
    exact absurd this (Nat.lt_irrefl 0)
  have h2 : ∀ blk, s.Holds b blk → blk ∉ s.pending := fun blk h hm => by
    have : s.pins b = 1 := if_pos ⟨h.2.1, by rw [h.2.2]; exact hm⟩
    omega
  refine ⟨h1, h2, fun blk h hv => ?_⟩
  rcases hc.clean h hv with e | e | ⟨v, blk', hd⟩
  · rw [e, hc.same h hv]
  · exact absurd e (h2 blk h)
  · exact absurd rfl (h1 v _ hd)

/-- `bget` recycles a buffer. -/
theorem recycle_core (hc : Core C s) (hu : u < C.users) (hx : s.users u = none) (hnone : ∀ b', ¬ s.Holds b' blk)
    (hb : b < NBUF)
    (h0 : (s.bufs b).refcnt = 0)
    (hs : s' = (s.put b { s.bufs b with dev := ROOTDEV, blockno := blk, valid := false, refcnt := 1 }).setUser u
      (some ⟨b, blk, .waiting⟩)) : Core C s' := by
  have hbufs : s'.bufs =
      upd s.bufs b { s.bufs b with dev := ROOTDEV, blockno := blk, valid := false, refcnt := 1 } := by rw [hs]; rfl
  have husers : s'.users = upd s.users u (some ⟨b, blk, .waiting⟩) := by rw [hs]; rfl
  have hpend : s'.pending = s.pending := by rw [hs]; rfl
  have hdisk : s'.disk = s.disk := by rw [hs]; rfl
  have hstore : s'.store = s.store := by rw [hs]; rfl
  obtain ⟨h1, h2, h3⟩ := hc.unused hb h0
  have other : ∀ {b'}, b' ≠ b → s'.bufs b' = s.bufs b' := fun e => by rw [hbufs, upd_ne e]
  have mine : (s'.bufs b).dev = ROOTDEV ∧ (s'.bufs b).blockno = blk ∧ (s'.bufs b).valid = false ∧
      (s'.bufs b).refcnt = 1 := by
    rw [hbufs, upd_same]
    exact ⟨rfl, rfl, rfl, rfl⟩
  have holds : ∀ {b' blk'}, s'.Holds b' blk' → (b' = b ∧ blk' = blk) ∨ (b' ≠ b ∧ s.Holds b' blk') :=
      fun {b' blk'} h => by
    by_cases e : b' = b
    · subst e
      exact Or.inl ⟨rfl, h.2.2.symm.trans mine.2.1⟩
    · exact Or.inr ⟨e, by rw [St.Holds, ← other e]; exact h⟩
  have holds' : ∀ {b' blk'}, b' ≠ b → s.Holds b' blk' → s'.Holds b' blk' := fun e h => by
    rw [St.Holds, other e]; exact h
  refine ⟨by rw [hs]; exact hc.list, fun h h' => ?_, fun b' => ?_, fun {v z} hz => ?_, fun {b'} hb' => ?_,
    fun {blk'} hm => ?_, by rw [hs]; exact hc.nodup, fun h hv => ?_, fun {blk'} h => ?_, fun h hv => ?_⟩
  · rcases holds h with ⟨rfl, rfl⟩ | ⟨-, h⟩ <;> rcases holds h' with ⟨rfl, e⟩ | ⟨-, h'⟩
    · rfl
    · exact absurd h' (hnone _)
    · exact absurd (e ▸ h) (hnone _)
    · exact hc.uniq h h'
  · by_cases e : b' = b
    · rw [e]
      exact Or.inr mine.1
    · rw [other e]
      exact hc.dev b'
  · rw [husers] at hz
    by_cases e : v = u
    · rw [e, upd_same] at hz
      cases hz
      rw [e]
      exact ⟨hu, hb, mine.1, mine.2.1, fun h => h.elim, fun _ h => nomatch h⟩
    · rw [upd_ne e] at hz
      have hz' := hc.users hz
      have hne := h1 v z hz
      exact ⟨hz'.lt,
        hz'.buf, by rw [other hne]; exact hz'.dev, by rw [other hne]; exact hz'.blk, by rw [hs]; exact hz'.lock,
        by rw [other hne]; exact hz'.valid⟩
  · have hcount : s'.count C b' + s.uses u b' = s.count C b' + s'.uses u b' :=
      count_change hu (fun v hv => by rw [husers, upd_ne hv]) b'
    rw [uses_none hx, uses_some (x := ⟨b, blk, .waiting⟩) (by rw [husers, upd_same])] at hcount
    have href := hc.refcnt hb'
    by_cases e : b' = b
    · subst e
      -- a pinned block would have been found
      have hpin : s'.pins b' = 0 := if_neg fun ⟨_, hm⟩ => by
        rw [mine.2.1, hpend] at hm
        obtain ⟨b'', hb''⟩ := hc.cached hm
        exact hnone b'' hb''
      rw [if_pos rfl] at hcount
      rw [mine.2.2.2, hpin]
      omega
    · have hpin : s'.pins b' = s.pins b' := by simp only [St.pins, other e, hpend]
      rw [if_neg fun e' => e e'.symm] at hcount
      rw [other e, hpin]
      omega
  · rw [hpend] at hm
    obtain ⟨b', hb'⟩ := hc.cached hm
    exact ⟨b', holds' (fun e => h2 blk' (e ▸ hb') hm) hb'⟩
  · rcases holds h with ⟨rfl, -⟩ | ⟨e, h⟩
    · rw [mine.2.2.1] at hv
      cases hv
    · rw [other e] at hv ⊢
      rw [hstore]
      exact hc.same h hv
  · rw [hdisk, hstore]
    by_cases hold : s.Holds b blk' ∧ (s.bufs b).valid = true
    · exact h3 blk' hold.1 hold.2
    · refine hc.gone fun b' hb' => ?_
      by_cases e : b' = b
      · subst e
        cases hv : (s.bufs b').valid with
        | false => rfl
        | true => exact absurd ⟨hb', hv⟩ hold
      · rw [← other e]
        exact h b' (holds' e hb')
  · rcases holds h with ⟨rfl, -⟩ | ⟨e, h⟩
    · rw [mine.2.2.1] at hv
      cases hv
    · rw [other e] at hv ⊢
      rw [hdisk, hpend]
      refine (hc.clean h hv).imp_right (Or.imp_right fun ⟨v, blk'', hd⟩ => ⟨v, blk'', ?_⟩)
      rw [husers, upd_ne fun e => by rw [e, hx] at hd; cases hd]
      exact hd

/-- What the two loops of `bget` find. -/
theorem bget_cases (hc : Core C s) (hs : bget C s u blk = .ok s') : u < C.users ∧ s.users u = none ∧
    ((∃ b, s.Holds b blk ∧ s' = (s.put b { s.bufs b with refcnt := (s.bufs b).refcnt + 1 }).setUser u
      (some ⟨b, blk, .waiting⟩)) ∨ ∃ b, b < NBUF ∧ (s.bufs b).refcnt = 0 ∧ (∀ b', ¬ s.Holds b' blk) ∧
        s' = (s.put b { s.bufs b with dev := ROOTDEV, blockno := blk, valid := false, refcnt := 1 }).setUser u
          (some ⟨b, blk, .waiting⟩)) := by
  obtain ⟨L, hL, hp⟩ := hc.list
  have hlen : L.length < NBUF + 1 := by
    rw [hp.length_eq, List.length_range]
    exact Nat.lt_succ_self _
  have hmem : ∀ {b}, b ∈ L ↔ b < NBUF := fun {b} => hp.mem_iff.trans List.mem_range
  unfold bget at hs
  split at hs
  · rename_i hu
    refine ⟨hu.1, hu.2, ?_⟩
    split at hs
    · rename_i b hf
      cases hs
      rw [hL.search_next hlen] at hf
      have h1 := hmem.mp (List.mem_of_find?_eq_some hf)
      have h2 := List.find?_some hf
      exact Or.inl ⟨b, ⟨h1, of_decide_eq_true h2⟩, rfl⟩
    · rename_i hf
      rw [hL.search_next hlen] at hf
      split at hs
      · rename_i b hg
        cases hs
        rw [hL.search_prev hlen] at hg
        have h1 := hmem.mp (List.mem_reverse.mp (List.mem_of_find?_eq_some hg))
        have h2 := List.find?_some hg
        refine Or.inr ⟨b, h1, of_decide_eq_true h2, fun b' hb' => ?_, rfl⟩
        have := List.find?_eq_none.mp hf b' (hmem.mpr hb'.1)
        exact this (decide_eq_true hb'.2)
      · cases hs
  · cases hs

theorem bget_acts (hc : Core C s) (hs : bget C s u blk = .ok s') :
    Acts C u s s' ∧ ∃ b, s'.users u = some ⟨b, blk, .waiting⟩ := by
  obtain ⟨hu, hx, ⟨b, hb, rfl⟩ | ⟨b, hb, h0, hnone, rfl⟩⟩ := bget_cases hc hs
  · exact ⟨hit_acts hc hu hx hb, b, upd_same _ _ _⟩
  · refine ⟨⟨recycle_core hc hu hx hnone hb h0 rfl, fun {b'} hpos => ?_, rfl, rfl, rfl, rfl, fun hv => upd_ne hv _,
      fun _ _ => ⟨by apply upd_proj Buf.data; rfl, rfl⟩⟩, b, upd_same _ _ _⟩
    -- the recycled buffer is not in use
    have hne : b' ≠ b := fun e => by
      rw [e, h0] at hpos
      exact absurd hpos (Nat.lt_irrefl 0)
    exact ⟨congrArg Buf.dev (upd_ne hne _), congrArg Buf.blockno (upd_ne hne _)⟩

/-- `log_write` is inside a transaction, and only changes the log. -/
theorem logWrite_trans (hs : logWrite C s u = .ok s') :
    0 < s.outstanding ∧ s'.pc = s.pc ∧ s'.unpinned = s.unpinned := by
  unfold logWrite at hs
  split at hs
  · split at hs <;> cases hs
    rename_i hl
    refine ⟨?_, rfl, rfl⟩
    unfold Log.logWrite at hl
    split at hl
    · cases hl
    · split at hl
      · cases hl
      · omega
  · cases hs

theorem logWrite_core (hc : Core C s) (h0 : s.unpinned = 0) (hs : logWrite C s u = .ok s') :
    Core C s' ∧ Keeps s s' := by
  unfold logWrite at hs
  split at hs
  · rename_i b blk d hx
    have hux := hc.users hx
    obtain rfl : (s.bufs b).blockno = blk := hux.blk
    split at hs
    · cases hs
    rename_i lh hl
    replace hl : lh = Log.absorb s.lh (s.bufs b).blockno := by
      unfold Log.logWrite at hl
      split at hl
      · cases hl
      · split at hl <;> cases hl
        rfl
    subst hl
    have hpend : s.pending = s.lh := by simp only [St.pending, h0, List.drop_zero]
    cases hs
    generalize hn : (if (s.bufs b).blockno ∈ s.lh then (s.bufs b).refcnt else (s.bufs b).refcnt + 1) = n
    generalize hs' :
      (({ s with lh := Log.absorb s.lh (s.bufs b).blockno }.put b { s.bufs b with refcnt := n }).setUser u
      (some ⟨b, (s.bufs b).blockno, .holding false⟩)) = s'
    have hmem : ∀ {k}, k ∈ s'.pending ↔ k = (s.bufs b).blockno ∨ k ∈ s.pending := fun {k} => by
      have hpend' : s'.pending = Log.absorb s.lh (s.bufs b).blockno := by
        rw [← hs']
        exact congrArg (List.drop · _) h0
      rw [hpend', hpend]
      exact Log.mem_absorb
    have h : Update C u b (s.bufs b).blockno { s.bufs b with refcnt := n }
        (some ⟨b, (s.bufs b).blockno, .holding false⟩) s s' := by refine'
      { holds := hux.holds
        lt := hux.lt
        before := by simp [hx]
        after := fun z hz => by
          subst hs'; cases hz; exact ⟨rfl, rfl, fun _ => hux.lock trivial, fun _ _ => hux.valid d rfl⟩
        bufs := by rw [← hs']; rfl
        users := by rw [← hs']; rfl
        list := by rw [← hs']; exact hc.list
        nodup := by rw [← hs']; exact Log.absorb_nodup hc.nodup
        disk := fun _ => by rw [← hs']; rfl
        store := fun _ => by rw [← hs']; rfl
        pending := fun e => hmem.trans (or_iff_right e)
        lock := fun _ => by rw [← hs']; rfl
        kept := fun e hl => hc.owner hx trivial e hl
        refcnt := by
          rw [if_pos (hmem.mpr (Or.inl rfl)), hpend, ← hn, hx]
          simp only [Option.toList_some, List.length_singleton]
          split <;> omega
        same := by rw [← hs']; exact hc.same hux.holds
        gone := by rw [← hs']; exact hc.gone_of hux.holds
        clean := fun _ => Or.inr (Or.inl (hmem.mpr (Or.inl rfl))), .. } <;> intros <;> trivial
    exact ⟨hc.update h, h.keeps⟩
  · cases hs

/-- `install_trans` unpins the next logged block, which it has written. -/
theorem bunpin_core {d : Bool} (hc : Core C s) (hx : s.users u = some ⟨b, blk, .holding d⟩)
    (hp : s.pending = blk :: s.lh.drop (s.unpinned + 1))
    (hw : s.disk blk = (s.bufs b).data) (hs : bunpin s u = .ok s') : Core C s' ∧ Keeps s s' := by
  simp only [bunpin, hx] at hs
  have hux := hc.users hx
  have hpos : 0 < (s.bufs b).refcnt := hc.refcnt_pos hx
  have hpend' : s'.pending = s.lh.drop (s.unpinned + 1) := by cases hs; rfl
  rw [← hpend'] at hp
  have hnot : blk ∉ s'.pending := by
    have : s.pending.Nodup := hc.nodup.sublist (List.drop_sublist _ _)
    rw [hp] at this
    exact (List.nodup_cons.mp this).1
  injection hs with hs'
  have h : Update C u b blk { s.bufs b with refcnt := (s.bufs b).refcnt - 1 } (some ⟨b, blk, .holding d⟩) s
      s' := by refine'
    { holds := hux.holds
      lt := hux.lt
      before := by simp [hx]
      after := fun z hz => by subst hs'; cases hz; exact ⟨rfl, rfl, fun _ => hux.lock trivial, fun d => hux.valid d⟩
      bufs := by rw [← hs']; rfl
      users := by rw [← hx, upd_self, ← hs']; rfl
      list := by rw [← hs']; exact hc.list
      nodup := by rw [← hs']; exact hc.nodup
      disk := fun _ => by rw [← hs']; rfl
      store := fun _ => by rw [← hs']; rfl
      pending := fun e => by rw [hp, List.mem_cons, or_iff_right e]
      lock := fun _ => by rw [← hs']; rfl
      kept := fun e hl => hc.owner hx trivial e hl
      refcnt := by
        rw [hp, if_pos List.mem_cons_self, if_neg hnot, hx]
        simp only [Option.toList_some, List.length_singleton]
        omega
      same := by rw [← hs']; exact hc.same hux.holds
      gone := by rw [← hs']; exact hc.gone_of hux.holds
      clean := fun _ => Or.inl (by rw [← hs']; exact hw), .. } <;> intros <;> trivial
  exact ⟨hc.update h, h.keeps⟩

/-- `Core` does not look at `outstanding` and `pc`, and at the log only through `pending`. -/
theorem Core.congr (hc : Core C s) {lh : List Nat} {n o : Nat} {pc : Pc} (hpend : lh.drop n = s.pending)
    (hnodup : lh.Nodup) : Core C { s with lh := lh, unpinned := n, outstanding := o, pc := pc } := by
  refine ⟨hc.list, hc.uniq, hc.dev, fun h => ?_, fun {b} hb => ?_, fun hm => ?_, hnodup, hc.same, hc.gone,
    fun h hv => ?_⟩
  · have hux := hc.users h
    exact ⟨hux.lt, hux.buf, hux.dev, hux.blk, hux.lock, hux.valid⟩
  · have hr := hc.refcnt hb
    rw [St.pins, ← hpend] at hr
    exact hr
  · exact hc.cached (hpend ▸ hm)
  · have hcl := hc.clean h hv
    rw [← hpend] at hcl
    exact hcl

/-! ## commit -/

def PcOk (s : St) : Prop :=
  match s.pc with
  | .iTest t => s.unpinned = t
  | .iLog t _ => s.unpinned = t ∧ t < s.lh.length
  | .iHome t k => s.unpinned = t ∧ t < s.lh.length ∧ (k ≠ .get → ∃ b ph, s.users 1 = some ⟨b, s.entry t, ph⟩)
  | .iCopy t => s.unpinned = t ∧ t < s.lh.length ∧ ∃ b ph, s.users 1 = some ⟨b, s.entry t, ph⟩
  | .iWrite t => s.unpinned = t ∧ t < s.lh.length ∧ ∃ b ph, s.users 1 = some ⟨b, s.entry t, ph⟩
  | .iUnpin t => s.unpinned = t ∧ t < s.lh.length ∧
      ∃ b, s.users 1 = some ⟨b, s.entry t, .holding false⟩ ∧ s.disk (s.entry t) = (s.bufs b).data
  | .iRelLog t _ => s.unpinned = t + 1
  | .iRelHome t _ => s.unpinned = t + 1
  | .clear => s.pending = []
  | _ => s.unpinned = 0

structure Inv (C : Conf) (s : St) : Prop where
  core : Core C s
  pc : PcOk s
  busy : s.pc ≠ .idle → s.outstanding = 0

theorem Frame.entry (hf : Frame u s s') (t : Nat) : s'.entry t = s.entry t := by rw [St.entry, hf.lh]; rfl

/-- The other users do not get in the way of `commit`. -/
theorem PcOk.frame (h : PcOk s) (hf : Frame u s s') (hu : 1 ≠ u) : PcOk s' := by
  unfold PcOk at h ⊢
  rw [hf.pc]
  cases hpc : s.pc with
  | iUnpin t =>
    rw [hpc] at h
    obtain ⟨h1, h2, b, h3, h4⟩ := h
    obtain ⟨h5, h6⟩ := hf.held hu h3
    simp only [hf.unpinned, hf.lh, hf.entry, hf.users hu]
    exact ⟨h1, h2, b, h3, by rw [h5, h6, h4]⟩
  | _ =>
    rw [hpc] at h
    simpa only [hf.unpinned, hf.lh, hf.entry, hf.users hu, St.pending] using h

theorem Core.goto (hc : Core C s) (pc : Pc) : Core C (s.goto pc) := hc.congr rfl hc.nodup

theorem map_ok {α : Type} {x : Except Stop α} {f : α → α} {y : α} (h : x.map f = .ok y) : ∃ a, x = .ok a ∧ y = f a := by
  cases x with
  | error e => cases h
  | ok a =>
    cases h
    exact ⟨a, rfl, rfl⟩

def Load.next (again : Load → Pc) (next : Pc) : Load → Pc
  | .get => again .lock
  | .lock => again .read
  | .read => next

def Rel.next (again : Rel → Pc) (next : Pc) : Rel → Pc
  | .unlock => again .drop
  | .drop => next

theorem load_acts {again : Load → Pc} {next : Pc} {k : Load} (hc : Core C s)
    (hs : load C s u blk again next k = .ok s') : ∃ t, s' = t.goto (k.next again next) ∧ Acts C u s t ∧
      ((k ≠ .get → ∃ b ph, s.users u = some ⟨b, blk, ph⟩) → ∃ b ph, t.users u = some ⟨b, blk, ph⟩) := by
  cases k with
  | get =>
    obtain ⟨t, ht, rfl⟩ := map_ok hs
    obtain ⟨ha, b, hb⟩ := bget_acts hc ht
    exact ⟨t, rfl, ha, fun _ => ⟨b, _, hb⟩⟩
  | lock =>
    obtain ⟨t, ht, rfl⟩ := map_ok hs
    obtain ⟨ha, hu⟩ := acquire_acts hc ht
    refine ⟨t, rfl, ha, fun h => ?_⟩
    obtain ⟨b, ph, hx⟩ := h nofun
    exact ⟨b, hu hx⟩
  | read =>
    obtain ⟨t, ht, rfl⟩ := map_ok hs
    obtain ⟨ha, hu⟩ := read_acts hc ht
    refine ⟨t, rfl, ha, fun h => ?_⟩
    obtain ⟨b, ph, hx⟩ := h nofun
    exact ⟨b, hu hx⟩

theorem brelse_acts {again : Rel → Pc} {next : Pc} {k : Rel} (hc : Core C s) (hs : brelse s u again next k = .ok s') :
    ∃ t, s' = t.goto (k.next again next) ∧ Acts C u s t := by
  cases k with
  | unlock =>
    obtain ⟨t, ht, rfl⟩ := map_ok hs
    exact ⟨t, rfl, unlock_acts hc ht⟩
  | drop =>
    obtain ⟨t, ht, rfl⟩ := map_ok hs
    exact ⟨t, rfl, drop_acts hc ht⟩

theorem copy_acts (hc : Core C s) (hs : copy s u v = .ok s') : Acts C u s s' ∧ SameUse u s s' := by
  unfold copy at hs
  split at hs
  · exact modify_acts hc hs
  · cases hs

/-- The rest of the log from entry `t` on. -/
theorem pending_cons {t : Nat} (hu : s.unpinned = t) (ht : t < s.lh.length) :
    s.pending = s.entry t :: s.lh.drop (s.unpinned + 1) := by
  rw [St.pending, St.entry, List.getD_eq_getElem _ _ ht, hu]
  exact List.drop_eq_getElem_cons ht

theorem commit_inv (h : Inv C s) (hs : commitStep C s = .ok s') : Inv C s' ∧ Keeps s s' := by
  obtain ⟨hc, h0, hbusy⟩ := h
  unfold commitStep at hs
  unfold PcOk at h0
  -- before and after `install_trans` nothing is unpinned
  have plain : ∀ {u t p}, Acts C u s t → s.unpinned = 0 → s.outstanding = 0 → (t.unpinned = 0 → PcOk (t.goto p)) →
      Inv C (t.goto p) ∧ Keeps s (t.goto p) :=
    fun ha hu ho hp => ⟨⟨ha.1.goto _, hp (ha.2.unpinned.trans hu), fun _ => ha.2.outstanding.trans ho⟩, ha.2.keeps⟩
  -- at entry `t`, with its home block or not
  have at_entry : ∀ {u x t p}, Acts C u s t → s.outstanding = 0 → s.unpinned = x ∧ x < s.lh.length →
      (t.unpinned = x ∧ x < t.lh.length → PcOk (t.goto p)) →
      Inv C (t.goto p) ∧ Keeps s (t.goto p) :=
    fun ha ho hx hp =>
      ⟨⟨ha.1.goto _, hp ⟨ha.2.unpinned.trans hx.1, ha.2.lh ▸ hx.2⟩, fun _ => ha.2.outstanding.trans ho⟩, ha.2.keeps⟩
  cases hpc : s.pc with rw [hpc] at hs h0 hbusy
  | idle => cases hs
  | start | wTest =>
    cases hs
    refine ⟨⟨hc.goto _, ?_, fun _ => hbusy nofun⟩, fun _ => ⟨rfl, rfl⟩⟩
    show PcOk (s.goto (if _ then _ else _))
    split <;> exact h0
  | wTo t k | wFrom t k | hLoad t k =>
    obtain ⟨t, rfl, ha, -⟩ := load_acts hc hs
    exact plain ha h0 (hbusy nofun) fun h => by cases k <;> exact h
  | wCopy =>
    obtain ⟨t, ht, rfl⟩ := map_ok hs
    exact plain (copy_acts hc ht).1 h0 (hbusy nofun) id
  | hEdit =>
    obtain ⟨t, ht, rfl⟩ := map_ok hs
    exact plain (modify_acts hc ht).1 h0 (hbusy nofun) id
  | wWrite | hWrite =>
    obtain ⟨t, ht, rfl⟩ := map_ok hs
    exact plain (bwrite_acts hc ht).1 h0 (hbusy nofun) id
  | wRelFrom t k | wRelTo t k =>
    obtain ⟨t, rfl, ha⟩ := brelse_acts hc hs
    exact plain ha h0 (hbusy nofun) fun h => by cases k <;> exact h
  | hRel last k =>
    obtain ⟨t, rfl, ha⟩ := brelse_acts hc hs
    exact plain ha h0 (hbusy nofun) fun h => by cases k <;> cases last <;> exact h
  | iTest x =>
    cases hs
    refine ⟨⟨hc.goto _, ?_, fun _ => hbusy nofun⟩, fun _ => ⟨rfl, rfl⟩⟩
    show PcOk (s.goto (if _ then _ else _))
    split
    · rename_i hx
      exact ⟨h0, hx⟩
    · rename_i hx
      show s.lh.drop s.unpinned = []
      have hx' : s.unpinned = x := h0
      rw [List.drop_eq_nil_iff]
      omega
  | iLog x k =>
    obtain ⟨t, rfl, ha, -⟩ := load_acts hc hs
    refine at_entry ha (hbusy nofun) h0 fun h => ?_
    cases k with
    | read => exact ⟨h.1, h.2, fun h => absurd rfl h⟩
    | _ => exact h
  | iHome x k =>
    obtain ⟨t, rfl, ha, hu⟩ := load_acts hc hs
    obtain ⟨b, ph, hx⟩ := hu h0.2.2
    refine at_entry ha (hbusy nofun) ⟨h0.1, h0.2.1⟩ fun h => ?_
    rw [← ha.2.entry] at hx
    cases k with
    | read => exact ⟨h.1, h.2, b, ph, hx⟩
    | _ => exact ⟨h.1, h.2, fun _ => ⟨b, ph, hx⟩⟩
  | iCopy x =>
    obtain ⟨t, ht, rfl⟩ := map_ok hs
    obtain ⟨ha, hu⟩ := copy_acts hc ht
    obtain ⟨h1, h2, b, ph, hx⟩ := h0
    obtain ⟨ph', hx⟩ := hu hx
    rw [← ha.2.entry] at hx
    exact at_entry ha (hbusy nofun) ⟨h1, h2⟩ fun h => ⟨h.1, h.2, b, ph', hx⟩
  | iWrite x =>
    obtain ⟨t, ht, rfl⟩ := map_ok hs
    obtain ⟨ha, hu⟩ := bwrite_acts hc ht
    obtain ⟨h1, h2, b, ph, hx⟩ := h0
    obtain ⟨hx, hd⟩ := hu hx
    rw [← ha.2.entry] at hx hd
    exact at_entry ha (hbusy nofun) ⟨h1, h2⟩ fun h => ⟨h.1, h.2, b, hx, hd⟩
  | iUnpin x =>
    obtain ⟨t, ht, rfl⟩ := map_ok hs
    obtain ⟨h1, h2, b, hx, hd⟩ := h0
    obtain ⟨hcore, hkeeps⟩ := bunpin_core hc hx (pending_cons h1 h2) hd ht
    simp only [bunpin, hx] at ht
    cases ht
    exact ⟨⟨hcore.goto _, congrArg (· + 1) h1, fun _ => hbusy nofun⟩, hkeeps⟩
  | iRelLog x k | iRelHome x k =>
    obtain ⟨t, rfl, ha⟩ := brelse_acts hc hs
    refine ⟨⟨ha.1.goto _, ?_, fun _ => ha.2.outstanding.trans (hbusy nofun)⟩, ha.2.keeps⟩
    cases k <;> exact ha.2.unpinned.trans h0
  | clear =>
    cases hs
    exact ⟨⟨hc.congr h0.symm List.nodup_nil, rfl, fun _ => hbusy nofun⟩, fun _ => ⟨rfl, rfl⟩⟩
  | done =>
    cases hs
    exact ⟨⟨hc.goto _, h0, fun h => absurd rfl h⟩, fun _ => ⟨rfl, rfl⟩⟩

/-! ## Runs -/

theorem op_inv {o : Op} (h : Inv C s) (hu : 1 ≠ u) (hs : op C s u o = .ok s') :
    Inv C s' ∧ Keeps s s' := by
  have of : Acts C u s s' → Inv C s' ∧ Keeps s s' := fun ⟨hc, hf⟩ =>
    ⟨⟨hc, h.pc.frame hf hu, fun hp => hf.outstanding.trans (h.busy (hf.pc ▸ hp))⟩, hf.keeps⟩
  cases o with
  | bget blk => exact of (bget_acts h.core hs).1
  | acquire => exact of (acquire_acts h.core hs).1
  | read => exact of (read_acts h.core hs).1
  | modify f => exact of (modify_acts h.core hs).1
  | bwrite => exact of (bwrite_acts h.core hs).1
  | unlock => exact of (unlock_acts h.core hs)
  | drop => exact of (drop_acts h.core hs)
  | logWrite =>
    -- no commit is under way
    obtain ⟨ho, hpc, hun⟩ := logWrite_trans hs
    have hidle : s.pc = .idle := by
      by_contra hne
      have := h.busy hne
      omega
    have h0 : s.unpinned = 0 := by simpa only [PcOk, hidle] using h.pc
    obtain ⟨hc, hk⟩ := logWrite_core h.core h0 hs
    refine ⟨⟨hc, ?_, fun hp => absurd (hpc.trans hidle) hp⟩, hk⟩
    simp only [PcOk, hpc, hidle, hun, h0]

theorem step_inv {e : Ev} (h : Inv C s) (hs : step C s e = .ok s') : Inv C s' ∧ Keeps s s' := by
  cases e with
  | user u o =>
    simp only [step] at hs
    split at hs
    · cases hs
    · exact op_inv h (by omega) hs
  | beginOp =>
    simp only [step] at hs
    split at hs <;> cases hs
    rename_i hidle
    exact ⟨⟨h.core.congr rfl h.core.nodup, h.pc, fun hp => absurd hidle.1 hp⟩, fun _ => ⟨rfl, rfl⟩⟩
  | endOp =>
    simp only [step] at hs
    split at hs
    · cases hs
    split at hs <;> cases hs
    rename_i hidle
    have h0 : s.unpinned = 0 := by simpa only [PcOk, Decidable.not_not.mp hidle] using h.pc
    refine ⟨⟨h.core.congr rfl h.core.nodup, ?_, fun hp => ?_⟩, fun _ => ⟨rfl, rfl⟩⟩
    · by_cases hz : s.outstanding - 1 = 0
      · simpa only [PcOk, if_pos hz] using h0
      · simpa only [PcOk, if_neg hz] using h0
    · by_contra hne
      exact hp (if_neg hne)
  | commit => exact commit_inv h hs

theorem binit_list {n : Nat} (hn : n ≤ NBUF) :
    ∃ L, ((List.range n).foldl (fun l b => l.pushFront head b) (Dlist.empty head)).Is head L ∧
    L.Perm (List.range n) := by
  induction n with
  | zero => exact ⟨[], Dlist.is_empty, List.Perm.nil⟩
  | succ n ih =>
    obtain ⟨L, hL, hp⟩ := ih (by omega)
    rw [List.range_succ, List.foldl_append]
    have hb : n ≠ head := by
      rw [head]
      omega
    have hn : n ∉ L := fun h => by
      have := List.mem_range.mp (hp.mem_iff.mp h)
      omega
    refine ⟨n :: L, Dlist.is_pushFront hL hb hn, ?_⟩
    exact (hp.cons n).trans (List.perm_append_singleton n _).symm

theorem init_inv (d : Disk) : Inv C (init d) := by
  have hno : ∀ {b blk}, ¬ (init d).Holds b blk := fun h => by
    have := h.2.1
    simp [init, ROOTDEV] at this
  refine ⟨⟨binit_list (Nat.le_refl _), fun h => absurd h hno, fun b => Or.inl rfl, nofun, fun {b} hb => ?_, nofun,
    List.nodup_nil, fun h => absurd h hno, fun _ => rfl, fun h => absurd h hno⟩, rfl, fun h => absurd rfl h⟩
  simp [init, St.count, St.uses, St.pins, St.pending]

theorem inv {d : Disk} (hr : Reach C d s) : Inv C s := by
  induction hr with
  | init => exact init_inv d
  | step e _ hs ih => exact (step_inv ih hs).1

end Xv6.Bio
