/-
  Xv6.Bio.Commit — `commit` through the buffer cache is `Log.commit`.

  `Pc.rest` is what `commit` has still to do at a program point, on the state of `Xv6.Log.Commit`,
  where `mem` is `store`. A step of `commitStep` does the next piece of it to the blocks the commit
  is about, the log's and the logged ones (`involved`); what the others do meanwhile makes no
  difference as long as they do not write these blocks (`Meanwhile`).

  Proved: `commit_refines`, and `cache_coherent` about the cache as a whole. That a block in
  `log.lh.block` counts as one use until the log is cleared is refuted by `a_logged_block_unpinned`.
-/
import Xv6.Bio.Coherent
import Xv6.Log.Crash

namespace Xv6.Bio

variable {C : Conf} {P : Set Nat} {s s' : St} {u v blk src : Nat} {z : Log.St}

/-! ## What the operations do to blocks -/

def St.At (s : St) (u blk : Nat) : Prop := ∃ b ph, s.users u = some ⟨b, blk, ph⟩

def Op.writes : Op → Bool
  | .modify _ | .bwrite => true
  | _ => false

theorem op_blocks {o : Op} (ho : o.writes = false) (hs : op C s u o = .ok s') :
    s'.disk = s.disk ∧ s'.store = s.store := by
  cases o with
  | modify f | bwrite => cases ho
  | _ =>
    simp only [op, bget, acquire, read, logWrite, unlock, drop] at hs
    repeat' split at hs
    all_goals cases hs
    all_goals exact ⟨rfl, rfl⟩

theorem modify_blocks {f : Block → Block} (hc : Core C s) (hat : s.At u blk) (hs : modify s u f = .ok s') :
    s'.disk = s.disk ∧ s'.store = upd s.store blk (f (s.store blk)) := by
  unfold modify at hs
  split at hs
  · rename_i b k d hx
    obtain ⟨b', ph, hy⟩ := hat
    rw [hx] at hy
    cases hy
    have hux := hc.users hx
    have hdata : (s.bufs b).data = s.store blk := hc.same hux.holds (hux.valid d rfl)
    have hk : (s.bufs b).blockno = blk := hux.blk
    cases hs
    refine ⟨rfl, ?_⟩
    show upd s.store (s.bufs b).blockno (f (s.bufs b).data) = _
    rw [hk, hdata]
  · cases hs

theorem bwrite_blocks (hc : Core C s) (hat : s.At u blk) (hs : bwrite s u = .ok s') :
    s'.disk = upd s.disk blk (s.store blk) ∧ s'.store = s.store := by
  unfold bwrite at hs
  split at hs
  · rename_i b k d hx
    obtain ⟨b', ph, hy⟩ := hat
    rw [hx] at hy
    cases hy
    have hux := hc.users hx
    have hdata : (s.bufs b).data = s.store blk := hc.same hux.holds (hux.valid d rfl)
    have hk : (s.bufs b).blockno = blk := hux.blk
    cases hs
    refine ⟨?_, rfl⟩
    show upd s.disk (s.bufs b).blockno (s.bufs b).data = _
    rw [hk, hdata]
  · cases hs

theorem copy_blocks (hc : Core C s) (hat : s.At u blk) (hsrc : s.At v src) (hs : copy s u v = .ok s') :
    s'.disk = s.disk ∧ s'.store = upd s.store blk (s.store src) := by
  unfold copy at hs
  split at hs
  · rename_i b k d hx
    obtain ⟨b', ph, hy⟩ := hsrc
    rw [hx] at hy
    cases hy
    have hux := hc.users hx
    have hdata : (s.bufs b).data = s.store src := hc.same hux.holds (hux.valid d rfl)
    have h := modify_blocks hc hat hs
    rwa [hdata] at h
  · cases hs

theorem load_blocks {again : Load → Pc} {next : Pc} {k : Load} (hs : load C s u blk again next k = .ok s') :
    s'.disk = s.disk ∧ s'.store = s.store := by
  cases k with
  | get =>
    obtain ⟨t, ht, rfl⟩ := map_ok hs
    have h := op_blocks (o := .bget blk) rfl ht
    exact h
  | lock =>
    obtain ⟨t, ht, rfl⟩ := map_ok hs
    have h := op_blocks (C := C) (o := .acquire) rfl ht
    exact h
  | read =>
    obtain ⟨t, ht, rfl⟩ := map_ok hs
    have h := op_blocks (C := C) (o := .read) rfl ht
    exact h

theorem brelse_blocks (C : Conf) {again : Rel → Pc} {next : Pc} {k : Rel} (hs : brelse s u again next k = .ok s') :
    s'.disk = s.disk ∧ s'.store = s.store := by
  cases k with
  | unlock =>
    obtain ⟨t, ht, rfl⟩ := map_ok hs
    have h := op_blocks (C := C) (o := .unlock) rfl ht
    exact h
  | drop =>
    obtain ⟨t, ht, rfl⟩ := map_ok hs
    have h := op_blocks (C := C) (o := .drop) rfl ht
    exact h

theorem SameUse.at (h : SameUse u s s') (hat : s.At u blk) : s'.At u blk := by
  obtain ⟨b, ph, hx⟩ := hat
  exact ⟨b, h hx⟩

theorem Frame.at (h : Frame u s s') (hne : v ≠ u) (hat : s.At v blk) : s'.At v blk := by
  obtain ⟨b, ph, hx⟩ := hat
  exact ⟨b, ph, (h.users hne).trans hx⟩

/-! ## What is left of `commit` -/

def afterInstall (K : Log.Conf) (a : Log.St) : Log.St := Log.writeHead K { a with lh := [] }

def afterHead (K : Log.Conf) (a : Log.St) : Log.St := afterInstall K (Log.installTrans K a)

def Pc.rest (K : Log.Conf) : Pc → Log.St → Log.St
  | .idle, a | .done, a => a
  | .start, a => Log.commit K a
  | .wTest t, a | .wTo t _, a | .wFrom t _, a | .wCopy t, a =>
    afterHead K (Log.writeHead K (Log.writeLogFrom K t (a.lh.drop t) a))
  | .wWrite t, a =>
    afterHead K (Log.writeHead K (Log.writeLogFrom K (t + 1) (a.lh.drop (t + 1)) (Log.bwrite a (K.start + t + 1))))
  | .wRelFrom t _, a | .wRelTo t _,
    a => afterHead K (Log.writeHead K (Log.writeLogFrom K (t + 1) (a.lh.drop (t + 1)) a))
  | .hLoad last _, a | .hEdit last, a => if last then Log.writeHead K a else afterHead K (Log.writeHead K a)
  | .hWrite last, a => if last then Log.bwrite a K.start else afterHead K (Log.bwrite a K.start)
  | .hRel last _, a => if last then a else afterHead K a
  | .iTest t, a | .iLog t _, a | .iHome t _, a | .iCopy t, a => afterInstall K (Log.installFrom K t (a.lh.drop t) a)
  | .iWrite t, a => afterInstall K (Log.installFrom K (t + 1) (a.lh.drop (t + 1)) (Log.bwrite a (a.lh.getD t 0)))
  | .iUnpin t, a | .iRelLog t _, a | .iRelHome t _,
    a => afterInstall K (Log.installFrom K (t + 1) (a.lh.drop (t + 1)) a)
  | .clear, a => afterInstall K a

/-- The blocks `commit` has buffers for; those of `install_trans` are also in `PcOk`. -/
def Uses (K : Log.Conf) (s : St) : Prop :=
  match s.pc with
  | .wTo t k => t < s.lh.length ∧ (k ≠ .get → s.At 0 (K.start + t + 1))
  | .wFrom t k => t < s.lh.length ∧ s.At 0 (K.start + t + 1) ∧ (k ≠ .get → s.At 1 (s.entry t))
  | .wCopy t => t < s.lh.length ∧ s.At 0 (K.start + t + 1) ∧ s.At 1 (s.entry t)
  | .wWrite t => t < s.lh.length ∧ s.At 0 (K.start + t + 1)
  | .hLoad _ k => k ≠ .get → s.At 0 K.start
  | .hEdit _ | .hWrite _ => s.At 0 K.start
  | .iLog t k => k ≠ .get → s.At 0 (K.start + t + 1)
  | .iHome t _ | .iCopy t => s.At 0 (K.start + t + 1)
  | _ => True

theorem Uses.frame {K : Log.Conf} (h : Uses K s) (hf : Frame u s s') (hu : 2 ≤ u) : Uses K s' := by
  unfold Uses at h ⊢
  rw [hf.pc]
  simp only [hf.lh, hf.entry, St.At, hf.users (show 0 ≠ u by omega), hf.users (show 1 ≠ u by omega)]
  exact h

/-- The log's state `a` is that of the cache, on the blocks `P`. -/
structure Agrees (P : Set Nat) (s : St) (a : Log.St) : Prop where
  disk : ∀ b ∈ P, a.disk b = s.disk b
  mem : ∀ b ∈ P, a.mem b = s.store b
  lh : a.lh = s.lh

structure Mid (C : Conf) (P : Set Nat) (z : Log.St) (s : St) : Prop where
  inv : Inv C s
  idle : s.outstanding = 0
  uses : Uses C.log s
  slots : ∀ k ≤ s.lh.length, C.log.start + k ∈ P
  homes : ∀ b ∈ s.lh, b ∈ P
  sim : ∃ a, Agrees P s a ∧ s.pc.rest C.log a = z

theorem update_upd {f g : Disk} {x : Block} {b : Nat} (h : f b = g b) : Function.update f blk x b = upd g blk x b := by
  by_cases e : b = blk
  · rw [e, Function.update_self, upd_same]
  · rw [Function.update_of_ne e, upd_ne e, h]

theorem Mid.commit (h : Mid C P z s) (hs : commitStep C s = .ok s') : Mid C P z s' := by
  have hinv := (commit_inv h.inv hs).1
  obtain ⟨⟨hc, h0, -⟩, hidle, huses, hslots, hhomes, a, ha, hrest⟩ := h
  have hentry : ∀ t < s.lh.length, s.entry t ∈ P := fun t ht => hhomes _ (by
    rw [St.entry, List.getD_eq_getElem _ _ ht]
    exact List.getElem_mem ht)
  have hdrop : ∀ t < s.lh.length, a.lh.drop t = s.entry t :: a.lh.drop (t + 1) := fun t ht => by
    rw [St.entry, List.getD_eq_getElem _ _ ht, ha.lh]
    exact List.drop_eq_getElem_cons ht
  have hget : ∀ {t}, a.lh.getD t 0 = s.entry t := fun {t} => by rw [ha.lh, St.entry]
  -- a step is no write, a store into a buffer, or a `bwrite`
  have same : ∀ {p : Pc}, s' = s.goto p → Uses C.log (s.goto p) → p.rest C.log a = z → Mid C P z s' := by
    rintro p rfl hu hr
    exact ⟨hinv, hidle, hu, hslots, hhomes, a, ⟨ha.disk, ha.mem, ha.lh⟩, hr⟩
  have next : ∀ {u t} {p : Pc} {x : Log.St}, Acts C u s t → s' = t.goto p → (∀ b ∈ P, x.disk b = t.disk b) →
      (∀ b ∈ P, x.mem b = t.store b) → x.lh = a.lh → Uses C.log (t.goto p) → p.rest C.log x = z → Mid C P z s' := by
    rintro u t p x ⟨-, hf⟩ rfl hd hm hl hu hr
    have hlh : t.lh = s.lh := hf.lh
    exact ⟨hinv, hf.outstanding.trans hidle, hu, fun k hk => hslots k (hlh ▸ hk), fun b hb => hhomes b (hlh ▸ hb), x,
      ⟨hd, hm, hl.trans (ha.lh.trans hlh.symm)⟩, hr⟩
  have plain : ∀ {u t} {p : Pc}, Acts C u s t → s' = t.goto p → s'.disk = s.disk ∧ s'.store = s.store →
      Uses C.log (t.goto p) → p.rest C.log a = z → Mid C P z s' := by
    rintro u t p hacts rfl ⟨hd, hm⟩
    exact next hacts rfl (fun b hb => (ha.disk b hb).trans (congrFun hd.symm b))
      (fun b hb => (ha.mem b hb).trans (congrFun hm.symm b)) rfl
  have stores : ∀ {u t blk} {p : Pc} {x : Block}, Acts C u s t → s' = t.goto p → t.disk = s.disk ∧
      t.store = upd s.store blk x →
      Uses C.log (t.goto p) → p.rest C.log { a with mem := Function.update a.mem blk x } = z → Mid C P z s' := by
    rintro u t blk p x hacts hs' ⟨hd, hm⟩
    exact next hacts hs' (fun b hb => by rw [hd]; exact ha.disk b hb)
      (fun b hb => by rw [hm]; exact update_upd (ha.mem b hb)) rfl
  have writes : ∀ {u t blk} {p : Pc}, Acts C u s t → s' = t.goto p → t.disk = upd s.disk blk (s.store blk) ∧
      t.store = s.store → blk ∈ P → Uses C.log (t.goto p) → p.rest C.log (Log.bwrite a blk) = z → Mid C P z s' := by
    rintro u t blk p hacts hs' ⟨hd, hm⟩ hin
    refine next hacts hs' (fun b hb => ?_) (fun b hb => by rw [hm]; exact ha.mem b hb) rfl
    rw [hd, ← ha.mem blk hin]
    exact update_upd (ha.disk b hb)
  unfold commitStep at hs
  unfold Uses at huses
  unfold PcOk at h0
  cases hpc : s.pc with rw [hpc] at hs huses h0 hrest
  | idle => cases hs
  | start =>
    by_cases hpos : 0 < s.lh.length
    · simp only [if_pos hpos] at hs
      cases hs
      refine same rfl trivial (Eq.trans ?_ hrest)
      rw [Pc.rest, Pc.rest, Log.commit, if_pos (by rw [ha.lh]; exact hpos)]
      rfl
    · simp only [if_neg hpos] at hs
      cases hs
      refine same rfl trivial (Eq.trans ?_ hrest)
      rw [Pc.rest, Pc.rest, Log.commit, if_neg (by rw [ha.lh]; exact hpos)]
  | wTest t =>
    by_cases ht : t < s.lh.length
    · simp only [if_pos ht] at hs
      cases hs
      exact same rfl ⟨ht, fun h => absurd rfl h⟩ hrest
    · simp only [if_neg ht] at hs
      cases hs
      refine same rfl (fun h => absurd rfl h) (Eq.trans ?_ hrest)
      rw [Pc.rest, Pc.rest, List.drop_eq_nil_of_le (by rw [ha.lh]; omega)]
      rfl
  | wTo t k =>
    have hb := load_blocks hs
    obtain ⟨r, rfl, hacts, hload⟩ := load_acts hc hs
    have hat := hload huses.2
    have ht : t < r.lh.length := by rw [hacts.2.lh]; exact huses.1
    cases k with
    | read => exact plain hacts rfl hb ⟨ht, hat, fun h => absurd rfl h⟩ hrest
    | get | lock => exact plain hacts rfl hb ⟨ht, fun _ => hat⟩ hrest
  | wFrom t k =>
    have hb := load_blocks hs
    obtain ⟨r, rfl, hacts, hload⟩ := load_acts hc hs
    have hat := hload huses.2.2
    have h1 := hacts.2.at Nat.zero_ne_one huses.2.1
    have ht : t < r.lh.length := by rw [hacts.2.lh]; exact huses.1
    rw [← hacts.2.entry] at hat
    cases k with
    | read => exact plain hacts rfl hb ⟨ht, h1, hat⟩ hrest
    | get | lock => exact plain hacts rfl hb ⟨ht, h1, fun _ => hat⟩ hrest
  | wCopy t =>
    obtain ⟨r, hr, rfl⟩ := map_ok hs
    obtain ⟨ht, h1, h2⟩ := huses
    obtain ⟨hacts, hsame⟩ := copy_acts hc hr
    refine stores hacts rfl (copy_blocks hc h1 h2 hr) ⟨hacts.2.lh.symm ▸ ht, hsame.at h1⟩ (Eq.trans ?_ hrest)
    rw [Pc.rest, Pc.rest, hdrop t ht, Log.writeLogFrom, ha.mem _ (hentry t ht)]
  | wWrite t =>
    obtain ⟨r, hr, rfl⟩ := map_ok hs
    exact writes (bwrite_acts hc hr).1 rfl (bwrite_blocks hc huses.2 hr) (hslots (t + 1) huses.1) trivial hrest
  | wRelFrom t k | wRelTo t k | iRelLog t k | iRelHome t k =>
    have hb := brelse_blocks C hs
    obtain ⟨r, rfl, hacts⟩ := brelse_acts hc hs
    cases k <;> exact plain hacts rfl hb trivial hrest
  | hLoad last k | iLog t k =>
    have hb := load_blocks hs
    obtain ⟨r, rfl, hacts, hload⟩ := load_acts hc hs
    have hat := hload huses
    cases k with
    | read => exact plain hacts rfl hb hat hrest
    | get | lock => exact plain hacts rfl hb (fun _ => hat) hrest
  | hEdit last =>
    obtain ⟨r, hr, rfl⟩ := map_ok hs
    obtain ⟨hacts, hsame⟩ := modify_acts hc hr
    refine stores hacts rfl (modify_blocks hc huses hr) (hsame.at huses) (Eq.trans ?_ hrest)
    have hm : a.mem C.log.start = s.store C.log.start := ha.mem _ (hslots 0 (Nat.zero_le _))
    rw [← hm, ← ha.lh]
    rfl
  | hWrite last =>
    obtain ⟨r, hr, rfl⟩ := map_ok hs
    exact writes (bwrite_acts hc hr).1 rfl (bwrite_blocks hc huses hr) (hslots 0 (Nat.zero_le _)) trivial hrest
  | hRel last k =>
    have hb := brelse_blocks C hs
    obtain ⟨r, rfl, hacts⟩ := brelse_acts hc hs
    cases k with
    | unlock => exact plain hacts rfl hb trivial hrest
    | drop => cases last <;> exact plain hacts rfl hb trivial hrest
  | iTest t =>
    by_cases ht : t < s.lh.length
    · simp only [if_pos ht] at hs
      cases hs
      exact same rfl (fun h => absurd rfl h) hrest
    · simp only [if_neg ht] at hs
      cases hs
      refine same rfl trivial (Eq.trans ?_ hrest)
      rw [Pc.rest, Pc.rest, List.drop_eq_nil_of_le (by rw [ha.lh]; omega)]
      rfl
  | iHome t k =>
    have hb := load_blocks hs
    obtain ⟨r, rfl, hacts, -⟩ := load_acts hc hs
    have h1 := hacts.2.at Nat.zero_ne_one huses
    cases k <;> exact plain hacts rfl hb h1 hrest
  | iCopy t =>
    obtain ⟨r, hr, rfl⟩ := map_ok hs
    obtain ⟨hacts, -⟩ := copy_acts hc hr
    obtain ⟨-, ht, h2⟩ := h0
    refine stores hacts rfl (copy_blocks hc h2 huses hr) trivial (Eq.trans ?_ hrest)
    have hm : a.mem (C.log.start + t + 1) = s.store (C.log.start + t + 1) := ha.mem _ (hslots (t + 1) ht)
    rw [Pc.rest, Pc.rest, hdrop t ht, Log.installFrom, hget, hm]
  | iWrite t =>
    obtain ⟨r, hr, rfl⟩ := map_ok hs
    obtain ⟨-, ht, h2⟩ := h0
    refine writes (bwrite_acts hc hr).1 rfl (bwrite_blocks hc h2 hr) (hentry t ht) trivial (Eq.trans ?_ hrest)
    rw [Pc.rest, Pc.rest, hget]
    rfl
  | iUnpin t =>
    obtain ⟨r, hr, rfl⟩ := map_ok hs
    obtain ⟨-, -, b, hx, -⟩ := h0
    simp only [bunpin, hx] at hr
    cases hr
    exact ⟨hinv, hidle, trivial, hslots, hhomes, a, ⟨ha.disk, ha.mem, ha.lh⟩, hrest⟩
  | clear =>
    cases hs
    refine ⟨hinv, hidle, fun h => absurd rfl h, fun k hk => ?_, fun b hb => absurd hb List.not_mem_nil,
      { a with lh := [] }, ⟨ha.disk, ha.mem, rfl⟩, hrest⟩
    rw [Nat.le_zero.mp hk]
    exact hslots 0 (Nat.zero_le _)
  | done =>
    cases hs
    exact same rfl trivial hrest

/-! ## The others meanwhile -/

theorem op_acts {o : Op} (hc : Core C s) (hidle : s.outstanding = 0) (hs : op C s u o = .ok s') : Acts C u s s' := by
  cases o with
  | bget blk => exact (bget_acts hc hs).1
  | acquire => exact (acquire_acts hc hs).1
  | read => exact (read_acts hc hs).1
  | modify f => exact (modify_acts hc hs).1
  | bwrite => exact (bwrite_acts hc hs).1
  | unlock => exact unlock_acts hc hs
  | drop => exact drop_acts hc hs
  | logWrite =>
    have := (logWrite_trans hs).1
    omega

/-- The block that is written is the one the user has. -/
theorem op_elsewhere {o : Op} (hc : Core C s) (ho : o.writes = true → ∀ blk, s.At u blk → blk ∉ P)
    (hs : op C s u o = .ok s') {b : Nat} (hb : b ∈ P) : s'.disk b = s.disk b ∧ s'.store b = s.store b := by
  cases hw : o.writes with
  | false =>
    obtain ⟨h1, h2⟩ := op_blocks hw hs
    rw [h1, h2]
    exact ⟨rfl, rfl⟩
  | true =>
    have hat : ∃ blk, s.At u blk := by
      cases hx : s.users u with
      | some x => exact ⟨x.blk, x.buf, x.phase, hx⟩
      | none => cases o <;> simp [op, modify, bwrite, Op.writes, hx] at hs hw
    obtain ⟨blk, hat⟩ := hat
    have hne : b ≠ blk := fun e => ho hw blk hat (e ▸ hb)
    cases o with
    | modify f =>
      obtain ⟨h1, h2⟩ := modify_blocks hc hat hs
      rw [h1, h2, upd_ne hne]
      exact ⟨rfl, rfl⟩
    | bwrite =>
      obtain ⟨h1, h2⟩ := bwrite_blocks hc hat hs
      rw [h1, h2, upd_ne hne]
      exact ⟨rfl, rfl⟩
    | _ => cases hw

/-- `commit` goes on, or a process does anything but write a block of `P`; no system call begins. -/
def Ev.Spares (P : Set Nat) (s : St) : Ev → Prop
  | .commit => True
  | .user u o => o.writes = true → ∀ blk, s.At u blk → blk ∉ P
  | .beginOp | .endOp => False

inductive Meanwhile (C : Conf) (P : Set Nat) (s : St) : St → Prop
  | refl : Meanwhile C P s s
  | step {s1 s' : St} {e : Ev} : Meanwhile C P s s1 → e.Spares P s1 → step C s1 e = .ok s' → Meanwhile C P s s'

theorem Mid.step {e : Ev} (h : Mid C P z s) (he : e.Spares P s) (hs : step C s e = .ok s') : Mid C P z s' := by
  cases e with
  | commit => exact h.commit hs
  | beginOp | endOp => exact he.elim
  | user u o =>
    have hinv := (step_inv h.inv hs).1
    simp only [Bio.step] at hs
    split at hs
    · cases hs
    rename_i hu
    obtain ⟨-, hf⟩ := op_acts h.inv.core h.idle hs
    have hb : ∀ b ∈ P, _ := fun b hb => op_elsewhere h.inv.core he hs hb
    obtain ⟨a, ha, hrest⟩ := h.sim
    refine ⟨hinv, hf.outstanding.trans h.idle, h.uses.frame hf (by omega), ?_, ?_, a,
      ⟨fun b hm => ?_, fun b hm => ?_, ?_⟩, ?_⟩
    · rw [hf.lh]
      exact h.slots
    · rw [hf.lh]
      exact h.homes
    · exact (ha.disk b hm).trans (hb b hm).1.symm
    · exact (ha.mem b hm).trans (hb b hm).2.symm
    · exact ha.lh.trans hf.lh.symm
    · rw [hf.pc]
      exact hrest

theorem Mid.meanwhile (h : Mid C P z s) (hm : Meanwhile C P s s') : Mid C P z s' := by
  induction hm with
  | refl => exact h
  | step _ he hs ih => exact ih.step he hs

def St.involved (s : St) (C : Conf) : Set Nat :=
  {b | b ∈ s.lh ∨ C.log.start ≤ b ∧ b ≤ C.log.start + s.lh.length}

/-- A whole commit, on the blocks it is about. -/
theorem commit_refines {d : Disk} (hr : Reach C d s) (hpc : s.pc = .start) (hm : Meanwhile C (s.involved C) s s')
    (hdone : s'.pc = .done) : Agrees (s.involved C) s' (Log.commit C.log ⟨s.disk, s.store, s.lh, []⟩) := by
  have hi := inv hr
  have hstart : Mid C (s.involved C) (Log.commit C.log ⟨s.disk, s.store, s.lh, []⟩) s := by
    refine ⟨hi, hi.busy (by rw [hpc]; exact nofun), ?_, fun k hk => Or.inr ⟨by omega, by omega⟩, fun b hb => Or.inl hb,
      ⟨s.disk, s.store, s.lh, []⟩, ⟨fun _ _ => rfl, fun _ _ => rfl, rfl⟩, ?_⟩
    · simp only [Uses, hpc]
    · rw [hpc]
      rfl
  obtain ⟨a, ha, hrest⟩ := (hstart.meanwhile hm).sim
  rw [hdone] at hrest
  rw [← hrest]
  exact ha

/-- The cache is an array of blocks: `store`. A commit during which nobody else writes its blocks does to them what
    `Log.commit` does, and a logged block holds afterwards what was stored before. -/
theorem cache_coherent {d : Disk} (hr : Reach C d s) :
    (∀ b b', b < NBUF → b' < NBUF → (s.bufs b).dev ≠ 0 → (s.bufs b').dev = (s.bufs b).dev →
    (s.bufs b').blockno = (s.bufs b).blockno → b' = b) ∧ (∃ L, s.list.Is head L ∧ L.Perm (List.range NBUF)) ∧
    (∀ b, b < NBUF → (s.bufs b).refcnt = s.count C b + s.pins b) ∧
    (∀ e s' b, step C s e = .ok s' → b < NBUF → 0 < (s.bufs b).refcnt →
      (s'.bufs b).dev = (s.bufs b).dev ∧ (s'.bufs b).blockno = (s.bufs b).blockno) ∧
    s.lh.Nodup ∧
    (∀ u b blk dirty, s.users u = some ⟨b, blk, .holding dirty⟩ →
      (s.bufs b).dev = ROOTDEV ∧ (s.bufs b).blockno = blk ∧ (s.bufs b).data = s.store blk) ∧
    ∀ s', s.pc = .start → Meanwhile C (s.involved C) s s' → s'.pc = .done →
      Agrees (s.involved C) s' (Log.commit C.log ⟨s.disk, s.store, s.lh, []⟩) ∧
      (Log.Fits C.log s.lh → ∀ blk ∈ s.lh, s'.store blk = s.store blk) := by
  have hc := (inv hr).core
  refine ⟨fun b b' hb hb' h0 hd hk => ?_, hc.list, fun b hb => hc.refcnt hb, fun e s' b hs hb hpos => ?_, hc.nodup,
    fun u b blk dirty hx => ?_, fun s' hpc hm hdone => ?_⟩
  · have hroot : (s.bufs b).dev = ROOTDEV := (hc.dev b).resolve_left h0
    have hh : s.Holds b (s.bufs b).blockno := ⟨hb, hroot, rfl⟩
    exact hc.uniq ⟨hb', hd.trans hroot, hk⟩ hh
  · exact (step_inv (inv hr) hs).2 hpos
  · have hux := hc.users hx
    exact ⟨hux.dev, hux.blk, hc.same ⟨hux.buf, hux.dev, hux.blk⟩ (hux.valid dirty rfl)⟩
  · have ha := commit_refines hr hpc hm hdone
    refine ⟨ha, fun hf blk hb => ?_⟩
    rw [← ha.mem blk (Or.inl hb), Log.commit_mem C.log hf (hf.outside blk hb).1]

/-- A log of 8 blocks from block 2 on, and one user besides `commit`. -/
def small : Conf := ⟨⟨2, 8, by decide⟩, 3⟩

/-- Block 40 is read, modified, logged and released in a transaction, and read again. -/
def logsBlock : List Ev :=
  [.beginOp, .user 2 (.bget 40), .user 2 .acquire, .user 2 .read, .user 2 (.modify fun _ => putLe32 zeroBlock 0 7),
    .user 2 .logWrite, .user 2 .unlock, .user 2 .drop, .user 2 (.bget 40), .user 2 .acquire, .user 2 .read]

theorem logsBlock_held : ((runs small (init fun _ => zeroBlock) logsBlock).toOption.map fun s => (s.users 2, s.lh)) =
    some (some ⟨0, 40, .holding false⟩, [40]) := by decide +kernel

theorem cache_coherent_logged : ∃ s, Reach small (fun _ => zeroBlock) s ∧ s.lh = [40] ∧
    s.users 2 = some ⟨0, 40, .holding false⟩ ∧ (s.bufs 0).data = s.store 40 := by
  obtain ⟨s, hs, h⟩ := Option.map_eq_some_iff.mp logsBlock_held
  cases hrun : runs small (init fun _ => zeroBlock) logsBlock with
  | error e => rw [hrun] at hs; cases hs
  | ok s' =>
    rw [hrun] at hs
    cases hs
    obtain ⟨hu, hl⟩ := Prod.mk.inj h
    have hr := Reach.runs logsBlock .init hrun
    exact ⟨s, hr, hl, hu, ((cache_coherent hr).2.2.2.2.2.1 2 0 40 false hu).2.2⟩

/-- A transaction on block 40 commits, up to `bunpin(dbuf)`. -/
def unpinsBlock : List Ev :=
  [.beginOp, .user 2 (.bget 40), .user 2 .acquire, .user 2 .read, .user 2 (.modify fun _ => putLe32 zeroBlock 0 7),
    .user 2 .logWrite, .user 2 .unlock, .user 2 .drop, .endOp] ++ List.replicate 32 .commit

theorem unpinsBlock_counts : ((runs small (init fun _ => zeroBlock) unpinsBlock).toOption.map fun s =>
    ((s.bufs 0).dev, (s.bufs 0).blockno, (s.bufs 0).refcnt, s.count small 0, s.lh)) = some
      (ROOTDEV, 40, 1, 1, [40]) := by
  decide +kernel

/-- Between `bunpin` and `log.lh.n = 0` a logged block is not pinned. -/
theorem a_logged_block_unpinned : ¬ ∀ (C : Conf) (d : Disk) (s : St), Reach C d s → ∀ b, b < NBUF →
    (s.bufs b).refcnt = s.count C b + if (s.bufs b).dev = ROOTDEV ∧ (s.bufs b).blockno ∈ s.lh then 1 else 0 := by
  intro hall
  obtain ⟨s, hs, h⟩ := Option.map_eq_some_iff.mp unpinsBlock_counts
  cases hrun : runs small (init fun _ => zeroBlock) unpinsBlock with
  | error e => rw [hrun] at hs; cases hs
  | ok s' =>
    rw [hrun] at hs
    cases hs
    simp only [Prod.mk.injEq] at h
    obtain ⟨hd, hb, hn, hc, hl⟩ := h
    have := hall small _ s (Reach.runs unpinsBlock .init hrun) 0 (by decide)
    rw [hd, hb, hn, hc, hl] at this
    simp at this

end Xv6.Bio
