/-
  Xv6.Log.Crash — crash atomicity of the log (see `Xv6.Log.Commit` for the model).

  Each function of the log is a list of writes that go to the cache and the disk alike
  (`writeLog_eq`, `installTrans_eq`, `writeHead_eq`), so a crash leaves a prefix of
  `commitWrites` or `recoverWrites` on the disk. The invariant `Recoverable C d g` says
  that replaying the on-disk header over `d` gives `g` outside the log area: stale slots
  and stale header entries do not enter it, since `headList` reads the first `n` only.

  Proved: `crash_atomic`: whatever prefix of `commit` and of any number of recoveries
  reached the disk, once a recovery completes every block outside the log area has its
  contents after the transactions whose first `write_head` reached the disk, and the
  on-disk header has `n = 0`.
-/
import Xv6.Log.Commit
import Mathlib

namespace Xv6.Log

/-! ## Lists of writes -/

@[simp] theorem applyWrites_nil (d : Disk) : applyWrites [] d = d := rfl

@[simp] theorem applyWrites_cons (w : Nat × Block) (ws : List (Nat × Block)) (d : Disk) :
    applyWrites (w :: ws) d = applyWrites ws (Function.update d w.1 w.2) := rfl

theorem applyWrites_append (ws vs : List (Nat × Block)) (d : Disk) :
    applyWrites (ws ++ vs) d = applyWrites vs (applyWrites ws d) := by
  simp [applyWrites, List.foldl_append]

variable {ws : List (Nat × Block)} {d : Disk} {b : Nat}

/-- A block no write names keeps its contents. -/
theorem applyWrites_apart (h : ∀ w ∈ ws, w.1 ≠ b) : applyWrites ws d b = d b := by
  induction ws generalizing d with
  | nil => rfl
  | cons w ws ih =>
    rw [applyWrites_cons, ih fun x hx => h x (List.mem_cons_of_mem _ hx)]
    exact Function.update_of_ne (Ne.symm (h w (List.mem_cons_self ..))) _ _

variable {e : Disk}

/-- Two disks that agree wherever `ws` does not write agree after it. -/
theorem applyWrites_congr (h : (∀ w ∈ ws, w.1 ≠ b) → d b = e b) : applyWrites ws d b = applyWrites ws e b := by
  induction ws generalizing d e with
  | nil => exact h (by simp)
  | cons w ws ih =>
    rw [applyWrites_cons, applyWrites_cons]
    apply ih
    intro hw
    by_cases e1 : w.1 = b
    · subst e1; simp
    · rw [Function.update_of_ne (Ne.symm e1), Function.update_of_ne (Ne.symm e1)]
      exact h (by simpa [e1] using hw)

/-- Writing a prefix first changes nothing: the redo log's idempotence. -/
theorem applyWrites_take (ws : List (Nat × Block)) (p : Nat) (d : Disk) (b : Nat) :
    applyWrites ws (applyWrites (ws.take p) d) b = applyWrites ws d b := by
  apply applyWrites_congr
  intro h
  exact applyWrites_apart fun w hw => h w (List.mem_of_mem_take hw)

/-- With distinct targets, a block holds what its one write stored. -/
theorem applyWrites_mem {v : Block} (hn : (ws.map (·.1)).Nodup) (h : (b, v) ∈ ws) : applyWrites ws d b = v := by
  induction ws generalizing d with
  | nil => cases h
  | cons w ws ih =>
    simp only [List.map_cons, List.nodup_cons] at hn
    rcases List.mem_cons.mp h with rfl | h
    · have hb : ∀ x ∈ ws, x.1 ≠ b := by
        intro x hx e
        exact hn.1 (List.mem_map.mpr ⟨x, hx, e⟩)
      rw [applyWrites_cons, applyWrites_apart hb, Function.update_self]
    · exact ih hn.2 h

/-! ## The header block -/

variable {i : Nat}

theorem putBlocks_low {xs : List Nat} {b : Block} {o : Nat} (h : o + 4 ≤ 4 + 4 * i) :
    le32 (putBlocks b i xs) o = le32 b o := by
  induction xs generalizing b i with
  | nil => rfl
  | cons x xs ih => rw [putBlocks, ih (by omega), le32_put_apart (by omega)]

theorem headBlock_putBlocks {xs : List Nat} (hx : ∀ x ∈ xs, x < 2 ^ 32) {b : Block} {k : Nat} (hk : k < xs.length) :
    headBlock (putBlocks b i xs) (i + k) = xs[k] := by
  induction xs generalizing b i k with
  | nil => cases hk
  | cons x xs ih =>
    rw [putBlocks]
    cases k with
    | zero =>
      simp only [headBlock, Nat.add_zero, List.getElem_cons_zero]
      rw [putBlocks_low (by omega), le32_put_same]
      exact Nat.mod_eq_of_lt (hx x (List.mem_cons_self ..))
    | succ k =>
      have := ih (fun y hy => hx y (List.mem_cons_of_mem _ hy)) (b := putLe32 b (4 + 4 * i) x) (i := i + 1)
        (k := k) (by simpa using hk)
      rw [show i + (k + 1) = i + 1 + k by omega, this, List.getElem_cons_succ]

variable {lh : List Nat}

theorem headN_putHead (b : Block) (hl : lh.length < 2 ^ 31) : headN (putHead b lh) = lh.length := by
  have h : le32 (putHead b lh) 0 = lh.length := by
    rw [putHead, putBlocks_low (by omega), le32_put_same, Nat.mod_eq_of_lt (by omega)]
  rw [headN, int32, h, if_pos hl]

/-- `read_head` reads back what `write_head` wrote, whatever the header held before. -/
theorem headList_putHead (b : Block) (hl : lh.length < 2 ^ 31) (hx : ∀ x ∈ lh, x < 2 ^ 32) :
    headList (putHead b lh) = lh := by
  apply List.ext_getElem
  · simp [headList, headN_putHead b hl]
  · intro k h1 h2
    simp only [headList, List.getElem_map, List.getElem_range]
    have := headBlock_putBlocks hx (b := putLe32 b 0 lh.length) (i := 0) h2
    rwa [Nat.zero_add] at this

theorem headList_empty {b : Block} (h : headN b = 0) : headList b = [] := by simp [headList, h]

/-! ## The functions as lists of writes -/

def emit (ws : List (Nat × Block)) (s : St) : St :=
  { s with mem := applyWrites ws s.mem, disk := applyWrites ws s.disk, writes := s.writes ++ ws }

theorem emit_emit (ws vs : List (Nat × Block)) (s : St) : emit vs (emit ws s) = emit (ws ++ vs) s := by
  simp [emit, applyWrites_append]

/-- Storing `v` in a buffer and `bwrite`-ing it. -/
theorem bwrite_emit (s : St) (b : Nat) (v : Block) :
    bwrite { s with mem := Function.update s.mem b v } b = emit [(b, v)] s := by
  simp [bwrite, emit]

variable (C : Conf) {bs : List Nat} {w : Nat × Block} {s s' : St} {t : Tx} {g : Disk}

def slotWrites (m : Disk) (i : Nat) : List Nat → List (Nat × Block)
  | [] => []
  | b :: bs => (C.start + i + 1, m b) :: slotWrites m (i + 1) bs

/-- The home blocks `install_trans` writes, slots from `i` on. -/
def homeWrites (d : Disk) (i : Nat) : List Nat → List (Nat × Block)
  | [] => []
  | b :: bs => (b, d (C.start + i + 1)) :: homeWrites d (i + 1) bs

theorem mem_slotWrites {m : Disk} (h : w ∈ slotWrites C m i bs) :
    C.start + i < w.1 ∧ w.1 ≤ C.start + i + bs.length := by
  induction bs generalizing i with
  | nil => cases h
  | cons b bs ih =>
    simp only [slotWrites, List.mem_cons, List.length_cons] at h ⊢
    rcases h with rfl | h
    · simp only; omega
    · have := ih h; omega

@[simp] theorem length_slotWrites (m : Disk) (i : Nat) (bs : List Nat) : (slotWrites C m i bs).length = bs.length := by
  induction bs generalizing i with
  | nil => rfl
  | cons b bs ih => simp [slotWrites, ih]

@[simp] theorem map_homeWrites (d : Disk) (i : Nat) (bs : List Nat) : (homeWrites C d i bs).map (·.1) = bs := by
  induction bs generalizing i with
  | nil => rfl
  | cons b bs ih => simp [homeWrites, ih]

@[simp] theorem length_homeWrites (d : Disk) (i : Nat) (bs : List Nat) : (homeWrites C d i bs).length = bs.length := by
  rw [← List.length_map (·.1), map_homeWrites]

theorem mem_homeWrites (h : w ∈ homeWrites C d i bs) : w.1 ∈ bs := by
  rw [← map_homeWrites C d i bs]
  exact List.mem_map.mpr ⟨w, h, rfl⟩

/-- `homeWrites` reads the slots only. -/
theorem homeWrites_congr (h : ∀ b, C.start + i < b → b ≤ C.start + i + bs.length → d b = e b) :
    homeWrites C d i bs = homeWrites C e i bs := by
  induction bs generalizing i with
  | nil => rfl
  | cons b bs ih =>
    simp only [List.length_cons] at h
    rw [homeWrites, homeWrites, h _ (by omega) (by omega), ih fun b h1 h2 => h b (by omega) (by omega)]

/-- What the slots hold once `write_log` filled them goes home. -/
theorem homeWrites_slots (m d : Disk) (i : Nat) (bs : List Nat) :
    homeWrites C (applyWrites (slotWrites C m i bs) d) i bs = bs.map fun b => (b, m b) := by
  induction bs generalizing i d with
  | nil => rfl
  | cons b bs ih =>
    simp only [slotWrites, applyWrites_cons, homeWrites, List.map_cons]
    rw [ih, applyWrites_apart]
    · simp
    · intro w hw
      have := mem_slotWrites C hw
      omega

theorem writeLogFrom_eq (hb : ∀ b ∈ bs, Outside C b) (hsz : i + bs.length < C.size) :
    writeLogFrom C i bs s = emit (slotWrites C s.mem i bs) s := by
  induction bs generalizing s i with
  | nil => simp [writeLogFrom, slotWrites, emit]
  | cons b bs ih =>
    simp only [List.length_cons] at hsz
    simp only [writeLogFrom, bwrite_emit, slotWrites]
    rw [ih (fun x hx => hb x (List.mem_cons_of_mem _ hx)) (by omega)]
    -- the slot just written is no home block, so later slots copy the same contents
    have hm : slotWrites C (emit [(C.start + i + 1, s.mem b)] s).mem (i + 1) bs = slotWrites C s.mem (i + 1) bs := by
      have hx : ∀ x ∈ bs, (emit [(C.start + i + 1, s.mem b)] s).mem x = s.mem x := by
        intro x hx
        have := hb x (List.mem_cons_of_mem _ hx)
        simp only [Outside] at this
        simp only [emit, applyWrites_cons, applyWrites_nil]
        exact Function.update_of_ne (by omega) _ _
      clear ih hsz
      generalize i + 1 = j
      induction bs generalizing j with
      | nil => rfl
      | cons y ys ihy =>
        rw [slotWrites, slotWrites, hx y (List.mem_cons_self ..),
          ihy (fun z hz => hb z (by simp only [List.mem_cons] at hz ⊢; tauto))
          (fun z hz => hx z (List.mem_cons_of_mem _ hz))]
    rw [hm, emit_emit]
    rfl

theorem installFrom_eq (hb : ∀ b ∈ bs, Outside C b) (hsz : i + bs.length < C.size) :
    installFrom C i bs s = emit (homeWrites C s.mem i bs) s := by
  induction bs generalizing s i with
  | nil => simp [installFrom, homeWrites, emit]
  | cons b bs ih =>
    simp only [List.length_cons] at hsz
    simp only [installFrom, bwrite_emit, homeWrites]
    rw [ih (fun x hx => hb x (List.mem_cons_of_mem _ hx)) (by omega)]
    -- the home block just written is no slot
    have hm : homeWrites C (emit [(b, s.mem (C.start + i + 1))] s).mem (i + 1) bs = homeWrites C s.mem (i + 1) bs := by
      apply homeWrites_congr
      intro x h1 h2
      have := hb b (List.mem_cons_self ..)
      simp only [Outside] at this
      simp only [emit, applyWrites_cons, applyWrites_nil]
      exact Function.update_of_ne (by omega) _ _
    rw [hm, emit_emit]
    rfl

theorem writeHead_eq (s : St) : writeHead C s = emit [(C.start, putHead (s.mem C.start) s.lh)] s := by
  rw [writeHead, bwrite_emit]

/-- A header `commit` may write: distinct blocks outside the log area, one slot each. -/
structure Fits (lh : List Nat) : Prop where
  outside : ∀ b ∈ lh, Outside C b ∧ b < 2 ^ 32
  nodup : lh.Nodup
  slots : lh = [] ∨ lh.length < C.size
  short : lh.length ≤ LOGSIZE

def commitWrites (m : Disk) (lh : List Nat) : List (Nat × Block) :=
  let h := putHead (m C.start) lh
  slotWrites C m 0 lh ++ (C.start, h) :: (lh.map (fun b => (b, m b)) ++ [(C.start, putHead h [])])

def recoverWrites (d : Disk) : List (Nat × Block) :=
  homeWrites C d 0 (headList (d C.start)) ++ [(C.start, putHead (d C.start) [])]

/-- What `log_write`'s guard gives `commit`: the header fits the log. -/
theorem logWrites_fits (ht : ∀ w ∈ t, Outside C w.1 ∧ w.1 < 2 ^ 32) (hf : Fits C s.lh)
    (h : logWrites C t s = .ok s') : Fits C s'.lh := by
  induction t generalizing s with
  | nil => cases h; exact hf
  | cons w t ih =>
    obtain ⟨b, v⟩ := w
    simp only [logWrites, logWrite] at h
    split at h
    · cases h
    rename_i hcap
    simp only [not_or, Nat.not_le] at hcap
    refine ih (fun x hx => ht x (List.mem_cons_of_mem _ hx)) ?_ h
    have hlen : (absorb s.lh b).length ≤ s.lh.length + 1 := absorb_length s.lh b
    refine ⟨fun x hx => ?_, absorb_nodup hf.nodup, Or.inr (by dsimp only; omega), by dsimp only; omega⟩
    rcases mem_absorb.mp hx with rfl | hx
    · exact ht (x, v) (List.mem_cons_self ..)
    · exact hf.outside x hx

/-- The cache after the transaction's stores, and the disk before any write. -/
theorem logWrites_mem (h : logWrites C t s = .ok s') :
    s'.mem = applyWrites t s.mem ∧ s'.disk = s.disk ∧ s'.writes = s.writes := by
  induction t generalizing s with
  | nil => cases h; exact ⟨rfl, rfl, rfl⟩
  | cons w t ih =>
    obtain ⟨b, v⟩ := w
    simp only [logWrites, logWrite] at h
    split at h
    · cases h
    · exact ih h

/-- Every stored block has its entry. -/
theorem logWrites_lh (h : logWrites C t s = .ok s') : (∀ b ∈ s.lh, b ∈ s'.lh) ∧ ∀ w ∈ t, w.1 ∈ s'.lh := by
  induction t generalizing s with
  | nil => cases h; exact ⟨fun b hb => hb, by simp⟩
  | cons w t ih =>
    obtain ⟨b, v⟩ := w
    simp only [logWrites, logWrite] at h
    split at h
    · cases h
    obtain ⟨h1, h2⟩ := ih h
    refine ⟨fun x hx => h1 x (mem_absorb.mpr (Or.inr hx)), fun x hx => ?_⟩
    rcases List.mem_cons.mp hx with rfl | hx
    · exact h1 b (mem_absorb.mpr (Or.inl rfl))
    · exact h2 x hx

theorem commit_eq (hf : Fits C s.lh) (hne : s.lh ≠ []) :
    commit C s = { emit (commitWrites C s.mem s.lh) s with lh := [] } := by
  have hsz : 0 + s.lh.length < C.size := by
    rcases hf.slots with h | h
    · exact absurd h hne
    · omega
  have hpos : 0 < s.lh.length := List.length_pos_iff.mpr hne
  have hout : ∀ b ∈ s.lh, Outside C b := fun b hb => (hf.outside b hb).1
  have hlog : writeLog C s = emit (slotWrites C s.mem 0 s.lh) s := writeLogFrom_eq C hout hsz
  have hstart : applyWrites (slotWrites C s.mem 0 s.lh) s.mem C.start = s.mem C.start :=
    applyWrites_apart fun w hw => by have := mem_slotWrites C hw; omega
  have hhead : writeHead C (writeLog C s) =
      emit (slotWrites C s.mem 0 s.lh ++ [(C.start, putHead (s.mem C.start) s.lh)]) s := by
    rw [writeHead_eq, hlog, ← emit_emit]
    simp only [emit, hstart]
  -- the slots hold the cached blocks, so the cached blocks go home
  have hhome : homeWrites C (writeHead C (writeLog C s)).mem 0 s.lh = s.lh.map fun b => (b, s.mem b) := by
    rw [hhead, ← homeWrites_slots C s.mem s.mem 0 s.lh]
    apply homeWrites_congr
    intro b h1 _
    simp only [emit, applyWrites_append, applyWrites_cons, applyWrites_nil]
    exact Function.update_of_ne (by omega) _ _
  have hinst : installTrans C (writeHead C (writeLog C s)) = emit (slotWrites C s.mem 0 s.lh ++
      [(C.start, putHead (s.mem C.start) s.lh)] ++ s.lh.map fun b => (b, s.mem b)) s := by
    have hl : (writeHead C (writeLog C s)).lh = s.lh := by rw [hhead]; rfl
    rw [installTrans, hl, installFrom_eq C hout hsz, hhome, hhead, emit_emit]
  have hend (d : Disk) : applyWrites (s.lh.map fun b => (b, s.mem b)) d C.start = d C.start := by
    apply applyWrites_apart
    intro w hw
    obtain ⟨b, hb, rfl⟩ := List.mem_map.mp hw
    have hob := hout b hb
    simp only [Outside] at hob
    simp only
    omega
  have hc : commit C s = writeHead C { installTrans C (writeHead C (writeLog C s)) with lh := [] } := by
    simp only [commit, hpos, if_true]
  rw [hc, hinst, writeHead_eq]
  simp only [emit, commitWrites, applyWrites_append, applyWrites_cons, applyWrites_nil, List.append_assoc,
    List.cons_append, List.nil_append, hend, Function.update_self]

/-- `commit` leaves the cached blocks outside the log as they are. -/
theorem commit_mem (hf : Fits C s.lh) (hb : Outside C b) : (commit C s).mem b = s.mem b := by
  by_cases hne : s.lh = []
  · rw [commit, hne]
    rfl
  · rw [commit_eq C hf hne]
    have hstart : C.start ≠ b := by
      simp only [Outside] at hb
      have := C.header
      omega
    have hsz := hf.slots.resolve_left hne
    have hslot : ∀ w ∈ slotWrites C s.mem 0 s.lh, w.1 ≠ b := fun w hw => by
      have := mem_slotWrites C hw
      simp only [Outside] at hb
      omega
    have hhome : ∀ d : Disk, d b = s.mem b → applyWrites (s.lh.map fun b => (b, s.mem b)) d b = s.mem b :=
        fun d hd => by
      by_cases hin : b ∈ s.lh
      · refine applyWrites_mem ?_ (List.mem_map.mpr ⟨b, hin, rfl⟩)
        rw [List.map_map]
        exact (List.map_id s.lh).symm ▸ hf.nodup
      · rw [applyWrites_apart, hd]
        rintro w hw rfl
        obtain ⟨x, hx, rfl⟩ := List.mem_map.mp hw
        exact hin hx
    simp only [emit, commitWrites, applyWrites_append, applyWrites_cons, applyWrites_nil]
    rw [Function.update_of_ne hstart.symm]
    refine hhome _ ?_
    rw [Function.update_of_ne hstart.symm, applyWrites_apart hslot]

theorem installTrans_boot (hf : Fits C lh) :
    installTrans C ⟨d, d, lh, []⟩ = emit (homeWrites C d 0 lh) ⟨d, d, lh, []⟩ := by
  rcases hf.slots with h | h
  · simp [installTrans, h, installFrom, homeWrites, emit]
  · exact installFrom_eq C (fun b hb => (hf.outside b hb).1) (by simpa using h)

/-- Home blocks are never in the log area. -/
theorem homeWrites_outside (hf : Fits C lh)
    (hw : w ∈ homeWrites C d 0 lh) : w.1 < C.start ∨ C.start + lh.length < w.1 := by
  have hm := mem_homeWrites C hw
  have hob := (hf.outside _ hm).1
  simp only [Outside] at hob
  rcases hf.slots with h | h
  · rw [h] at hm; cases hm
  · omega

theorem homeWrites_start (hf : Fits C lh) (p : Nat) :
    applyWrites ((homeWrites C d 0 lh).take p) e C.start = e C.start := by
  apply applyWrites_apart
  intro w hw
  have := homeWrites_outside C hf (List.mem_of_mem_take hw)
  omega

theorem writeHead_installTrans (hf : Fits C lh) : let ws := homeWrites C d 0 lh ++ [(C.start, putHead (d C.start) [])]
    writeHead C { installTrans C ⟨d, d, lh, []⟩ with lh := [] } = ⟨applyWrites ws d, applyWrites ws d, [], ws⟩ := by
  have hstart := homeWrites_start C (d := d) (e := d) hf (homeWrites C d 0 lh).length
  rw [List.take_length] at hstart
  rw [installTrans_boot C hf]
  simp only [writeHead_eq, emit, hstart, applyWrites_append, applyWrites_cons, applyWrites_nil, List.nil_append]

theorem recoverFromLog_eq (hf : Fits C (headList (d C.start))) : recoverFromLog C (boot d) =
      ⟨applyWrites (recoverWrites C d) d, applyWrites (recoverWrites C d) d, [], recoverWrites C d⟩ := by
  rw [recoverFromLog]
  exact writeHead_installTrans C hf

/-! ## The invariant -/

/-- Replaying the on-disk header over `d` gives `g` outside the log area. -/
structure Recoverable (d g : Disk) : Prop where
  fits : Fits C (headList (d C.start))
  replay : ∀ b, Outside C b → applyWrites (homeWrites C d 0 (headList (d C.start))) d b = g b

theorem fits_nil : Fits C [] := ⟨by simp, by simp, Or.inl rfl, by simp⟩

/-- An empty header: the disk is `g` already. -/
theorem recoverable_of_empty (hn : headN (d C.start) = 0) (h : ∀ b, Outside C b → d b = g b) : Recoverable C d g := by
  have he := headList_empty hn
  exact ⟨he ▸ fits_nil C, by rw [he]; exact h⟩

theorem headN_clear (b : Block) : headN (putHead b []) = 0 := headN_putHead b (by simp)

/-- A completed recovery leaves `g` and an empty header. -/
theorem recover_done (h : Recoverable C d g) : headN (applyWrites (recoverWrites C d) d C.start) = 0 ∧
      ∀ b, Outside C b → applyWrites (recoverWrites C d) d b = g b := by
  simp only [recoverWrites, applyWrites_append, applyWrites_cons, applyWrites_nil]
  refine ⟨by rw [Function.update_self, headN_clear], fun b hb => ?_⟩
  have hz := C.header
  rw [Function.update_of_ne (by simp only [Outside] at hb; omega)]
  exact h.replay b hb

/-- Any prefix of a recovery's writes leaves a recoverable disk. -/
theorem recover_cut (h : Recoverable C d g) (p : Nat) :
    Recoverable C (applyWrites ((recoverWrites C d).take p) d) g := by
  have hf := h.fits
  by_cases hp : p ≤ (headList (d C.start)).length
  · -- the header still stands: replaying it again installs the rest
    have ht : (recoverWrites C d).take p = (homeWrites C d 0 (headList (d C.start))).take p := by
      rw [recoverWrites, List.take_append_of_le_length (by simpa using hp)]
    rw [ht]
    have hs := homeWrites_start C (d := d) (e := d) hf p
    have hh : homeWrites C (applyWrites ((homeWrites C d 0 (headList (d C.start))).take p) d) 0 (headList (d C.start)) =
        homeWrites C d 0 (headList (d C.start)) := by
      apply homeWrites_congr
      intro b h1 h2
      apply applyWrites_apart
      intro w hw
      have := homeWrites_outside C hf (List.mem_of_mem_take hw)
      omega
    refine ⟨by rw [hs]; exact hf, fun b hb => ?_⟩
    rw [hs, hh, applyWrites_take]
    exact h.replay b hb
  · -- the header is cleared: the recovery was complete
    have ht : (recoverWrites C d).take p = recoverWrites C d :=
      List.take_of_length_le (by simp [recoverWrites]; omega)
    rw [ht]
    exact recoverable_of_empty C (recover_done C h).1 (recover_done C h).2

/-- A running kernel between transactions: the cache agrees with the disk, which holds
    `g` outside the log area under an empty header. -/
structure Clean (s : St) (g : Disk) : Prop where
  mem : s.mem = s.disk
  lh : s.lh = []
  writes : s.writes = []
  head : headN (s.disk C.start) = 0
  home : ∀ b, Outside C b → s.disk b = g b

section transaction

variable {C} {s s' : St} {g : Disk} {t : Tx}

theorem fits_of_tx (hc : Clean C s g) (ht : ∀ w ∈ t, Outside C w.1 ∧ w.1 < 2 ^ 32)
    (h : logWrites C t s = .ok s') : Fits C s'.lh :=
  logWrites_fits C ht (hc.lh ▸ fits_nil C) h

/-- Installing the cached copies of the logged blocks is the transaction. -/
theorem install_is_tx (hc : Clean C s g) (ht : ∀ w ∈ t, Outside C w.1 ∧ w.1 < 2 ^ 32)
    (h : logWrites C t s = .ok s') {d : Disk} (hd : ∀ b, Outside C b → d b = s.disk b) {b : Nat} (hb : Outside C b) :
    applyWrites (s'.lh.map fun b => (b, s'.mem b)) d b = applyWrites t g b := by
  have hf := fits_of_tx hc ht h
  have hmem := (logWrites_mem C h).1
  by_cases hin : b ∈ s'.lh
  · rw [applyWrites_mem (v := s'.mem b)]
    · rw [hmem, hc.mem]
      exact applyWrites_congr fun _ => hc.home b hb
    · simpa [Function.comp_def] using hf.nodup
    · exact List.mem_map.mpr ⟨b, hin, rfl⟩
  · have hnt : ∀ w ∈ t, w.1 ≠ b := fun w hw e => hin (e ▸ (logWrites_lh C h).2 w hw)
    rw [applyWrites_apart, applyWrites_apart hnt, hd b hb, hc.home b hb]
    intro w hw
    obtain ⟨x, hx, rfl⟩ := List.mem_map.mp hw
    exact fun e => hin (e ▸ hx)

/-- The disk at the commit point: the slots and the header written. -/
def committed (C : Conf) (s s' : St) : Disk :=
  applyWrites (slotWrites C s'.mem 0 s'.lh ++ [(C.start, putHead (s'.mem C.start) s'.lh)]) s.disk

theorem committed_start : committed C s s' C.start = putHead (s'.mem C.start) s'.lh := by
  simp [committed, applyWrites_append]

theorem headList_committed (hf : Fits C s'.lh) : headList (committed C s s' C.start) = s'.lh := by
  have hs := hf.short
  rw [committed_start]
  exact headList_putHead _ (by simp only [LOGSIZE, MAXOPBLOCKS] at hs; omega) fun x hx => (hf.outside x hx).2

/-- After the commit point, `commit` writes what a recovery of that disk writes. -/
theorem commitWrites_split (hf : Fits C s'.lh) :
    commitWrites C s'.mem s'.lh =
      slotWrites C s'.mem 0 s'.lh ++ (C.start, putHead (s'.mem C.start) s'.lh) :: recoverWrites C
      (committed C s s') := by
  have hh : homeWrites C (committed C s s') 0 s'.lh = s'.lh.map fun b => (b, s'.mem b) := by
    rw [← homeWrites_slots C s'.mem s.disk 0 s'.lh]
    apply homeWrites_congr
    intro b h1 _
    simp only [committed, applyWrites_append, applyWrites_cons, applyWrites_nil]
    exact Function.update_of_ne (by omega) _ _
  rw [commitWrites, recoverWrites, headList_committed hf, hh, committed_start]

/-- The commit point: the disk now recovers to the state after the transaction. -/
theorem committed_recoverable (hc : Clean C s g) (ht : ∀ w ∈ t, Outside C w.1 ∧ w.1 < 2 ^ 32)
    (h : logWrites C t s = .ok s') (hne : s'.lh ≠ []) : Recoverable C (committed C s s') (applyWrites t g) := by
  have hf := fits_of_tx hc ht h
  have hlen : s'.lh.length < C.size := hf.slots.resolve_left hne
  have hsplit := commitWrites_split (s := s) hf
  refine ⟨by rw [headList_committed hf]; exact hf, fun b hb => ?_⟩
  have hh : homeWrites C (committed C s s') 0 s'.lh = s'.lh.map fun b => (b, s'.mem b) := by
    rw [commitWrites, recoverWrites, headList_committed hf] at hsplit
    simp only [List.append_cancel_left_eq, List.cons.injEq, true_and] at hsplit
    exact (List.append_inj' hsplit rfl).1.symm
  rw [headList_committed hf, hh]
  refine install_is_tx hc ht h (fun x hx => ?_) hb
  apply applyWrites_apart
  intro w hw
  simp only [Outside] at hx
  rcases List.mem_append.mp hw with hw | hw
  · have := mem_slotWrites C hw
    omega
  · rw [List.mem_singleton.mp hw]
    simp only
    omega

/-- Cut before the first `write_head`: the header is still empty. -/
theorem slots_recoverable (hc : Clean C s g) (hf : Fits C s'.lh) (p : Nat) :
    Recoverable C (applyWrites ((slotWrites C s'.mem 0 s'.lh).take p) s.disk) g := by
  have hin : ∀ w ∈ (slotWrites C s'.mem 0 s'.lh).take p, C.start < w.1 ∧ w.1 < C.start + C.size := by
    intro w hw
    have hw := List.mem_of_mem_take hw
    have hb := mem_slotWrites C hw
    rcases hf.slots with h0 | h0
    · simp only [h0, slotWrites] at hw; cases hw
    · omega
  apply recoverable_of_empty
  · rw [applyWrites_apart fun w hw => by have := hin w hw; omega]
    exact hc.head
  · intro b hb
    simp only [Outside] at hb
    rw [applyWrites_apart fun w hw => by have := hin w hw; omega]
    exact hc.home b (by simpa only [Outside] using hb)

theorem commit_writes (hc : Clean C s g) (hf : Fits C s'.lh) (h : logWrites C t s = .ok s') (hne : s'.lh ≠ []) :
    (commit C s').writes = commitWrites C s'.mem s'.lh := by
  rw [commit_eq C hf hne]
  simp [emit, (logWrites_mem C h).2.2, hc.writes]

theorem headWritten_slots (m : Disk) (lh : List Nat) (p : Nat) :
    headWritten C ((slotWrites C m 0 lh).take p) = false := by
  simp only [headWritten, List.any_eq_false, beq_iff_eq]
  intro w hw
  have := mem_slotWrites C (List.mem_of_mem_take hw)
  omega

/-- Any prefix of a `commit` recovers to the state before the transaction or after it,
    as the first `write_head` did not or did reach the disk. -/
theorem commit_cut (hc : Clean C s g) (ht : ∀ w ∈ t, Outside C w.1 ∧ w.1 < 2 ^ 32)
    (h : logWrites C t s = .ok s') (p : Nat) :
    Recoverable C (applyWrites ((commit C s').writes.take p) s.disk)
      (if headWritten C ((commit C s').writes.take p) then applyWrites t g else g) := by
  have hf := fits_of_tx hc ht h
  by_cases hne : s'.lh = []
  · have hw : (commit C s').writes = [] := by
      simp [commit, hne, (logWrites_mem C h).2.2, hc.writes]
    simpa [hw, headWritten] using recoverable_of_empty C hc.head hc.home
  rw [commit_writes hc hf h hne]
  by_cases hp : p ≤ s'.lh.length
  · rw [commitWrites, List.take_append_of_le_length (by simpa using hp), headWritten_slots]
    exact slots_recoverable hc hf p
  · obtain ⟨q, rfl⟩ : ∃ q, p = (slotWrites C s'.mem 0 s'.lh).length + (q + 1) :=
      ⟨p - s'.lh.length - 1, by simp; omega⟩
    have ht' : (commitWrites C s'.mem s'.lh).take ((slotWrites C s'.mem 0 s'.lh).length + (q + 1)) =
        (slotWrites C s'.mem 0 s'.lh ++ [(C.start, putHead (s'.mem C.start) s'.lh)]) ++
          (recoverWrites C (committed C s s')).take q := by
      rw [commitWrites_split (s := s) hf, List.take_length_add_append, List.take_succ_cons, List.append_assoc]
      rfl
    have hw : headWritten C ((commitWrites C s'.mem s'.lh).take ((slotWrites C s'.mem 0 s'.lh).length + (q + 1)))
        = true := by
      rw [ht']
      simp [headWritten]
    rw [hw, ht', applyWrites_append, if_pos rfl]
    exact recover_cut C (committed_recoverable hc ht h hne) q

/-- A completed `commit` leaves the kernel clean again. -/
theorem commit_done (hc : Clean C s g) (ht : ∀ w ∈ t, Outside C w.1 ∧ w.1 < 2 ^ 32)
    (h : logWrites C t s = .ok s') :
    Clean C { commit C s' with writes := [] }
      (if headWritten C (commit C s').writes then applyWrites t g else g) := by
  have hf := fits_of_tx hc ht h
  have hm := logWrites_mem C h
  by_cases hne : s'.lh = []
  · -- nothing logged, so nothing stored: `commit` does nothing
    have ht0 : t = [] := by
      cases t with
      | nil => rfl
      | cons w t =>
        have := (logWrites_lh C h).2 w (List.mem_cons_self ..)
        rw [hne] at this
        cases this
    subst ht0
    cases h
    have hcm : commit C s = s := by simp [commit, hne]
    rw [hcm]
    simp only [hc.writes, headWritten, List.any_nil, Bool.false_eq_true, if_false]
    exact ⟨hc.mem, hc.lh, rfl, hc.head, hc.home⟩
  have hdone := recover_done C (committed_recoverable hc ht h hne)
  have hdisk : (commit C s').disk = applyWrites (recoverWrites C (committed C s s')) (committed C s s') := by
    rw [commit_eq C hf hne]
    simp only [emit, hm.2.1]
    rw [commitWrites_split (s := s) hf, committed, ← applyWrites_append, List.append_assoc]
    rfl
  have hmem : (commit C s').mem = (commit C s').disk := by
    rw [commit_eq C hf hne]
    funext b
    apply applyWrites_congr
    intro hb
    -- a block the commit does not write was not stored either
    have hnt : ∀ w ∈ t, w.1 ≠ b := by
      intro w hw e
      have hl := (logWrites_lh C h).2 w hw
      refine hb (w.1, s'.mem w.1) ?_ e
      simp only [commitWrites, List.mem_append, List.mem_cons, List.mem_map]
      exact Or.inr (Or.inr (Or.inl ⟨w.1, hl, rfl⟩))
    rw [hm.1, hm.2.1, applyWrites_apart hnt, hc.mem]
  have hw : headWritten C (commit C s').writes = true := by
    rw [commit_writes hc hf h hne]
    simp [headWritten, commitWrites]
  rw [hw, if_pos rfl]
  refine ⟨hmem, by rw [commit_eq C hf hne], rfl, ?_, fun b hb => ?_⟩
  · simpa only [hdisk] using hdone.1
  · simpa only [hdisk] using hdone.2 b hb

end transaction

/-! ## Every run -/

/-- What a machine state owes the transactions committed so far. -/
def Safe (d₀ : Disk) (m : Mach) (txs : List Tx) : Prop :=
  match m with
  | .up s => Clean C s (afterTxs txs d₀)
  | .down d => Recoverable C d (afterTxs txs d₀)

theorem afterTxs_snoc (txs : List Tx) (t : Tx) (d : Disk) :
    afterTxs (txs ++ [t]) d = applyWrites t (afterTxs txs d) := by
  simp [afterTxs, List.foldl_append]

theorem reach_safe {d₀ : Disk} (h₀ : headN (d₀ C.start) = 0) {m : Mach} {txs : List Tx} (h : Reach C d₀ m txs) :
    Safe C d₀ m txs := by
  induction h with
  | init => exact recoverable_of_empty C h₀ fun b _ => rfl
  | commit t _ ht hl ih =>
    have := commit_done ih ht hl
    split at this <;> rename_i hw <;> simp only [hw, if_true, if_false, Bool.false_eq_true, Safe, afterTxs_snoc] <;>
      exact this
  | crash t p _ ht hl ih =>
    have := commit_cut ih ht hl p
    split at this <;> rename_i hw <;> simp only [hw, if_true, if_false, Bool.false_eq_true, Safe, afterTxs_snoc] <;>
      exact this
  | recoverCut p _ ih =>
    simp only [Safe, recoverFromLog_eq C ih.fits]
    exact recover_cut C ih p
  | recover _ ih =>
    have hdone := recover_done C ih
    simp only [Safe, recoverFromLog_eq C ih.fits]
    exact ⟨rfl, rfl, rfl, hdone.1, hdone.2⟩

/-- Crash atomicity. In every run from a disk with an empty log, whenever the kernel is
    up (a recovery or a `commit` has completed), every block outside the log area has
    exactly its contents after the transactions whose first `write_head` reached the
    disk, and the on-disk header has `n = 0`. -/
theorem crash_atomic {d₀ : Disk} (h₀ : headN (d₀ C.start) = 0) {s : St} {txs : List Tx}
    (h : Reach C d₀ (.up s) txs) :
    (∀ b, Outside C b → s.disk b = afterTxs txs d₀ b) ∧ headN (s.disk C.start) = 0 := by
  have hs : Clean C s (afterTxs txs d₀) := reach_safe C h₀ h
  exact ⟨hs.home, hs.head⟩

/-- A commit of one block cut right after its `write_head`, a recovery cut before its
    first write, and a recovery that completes: the block is installed. -/
theorem crash_atomic_after_head :
    let C : Conf := ⟨2, 16, by decide⟩
    let t : Tx := [(40, fun _ => 7)]
    headN zeroBlock = 0 ∧ ∃ s, Reach C (fun _ => zeroBlock) (.up s) [t] ∧ s.disk 40 = fun _ => 7 := by
  intro C t
  have h0 : headN ((fun _ => zeroBlock : Disk) C.start) = 0 := by simp [headN, int32]
  have h1 : Reach C (fun _ => zeroBlock) (.up { recoverFromLog C (boot fun _ => zeroBlock) with writes := [] }) [] :=
    .recover .init
  generalize hs : { recoverFromLog C (boot fun _ => zeroBlock) with writes := [] } = s1 at h1
  have hclean : Clean C s1 (fun _ => zeroBlock) := @reach_safe C (fun _ => zeroBlock) h0 _ _ h1
  have hok : logWrites C t s1 = .ok { s1 with mem := Function.update s1.mem 40 fun _ => 7, lh := [40] } := by
    simp [t, C, logWrites, logWrite, absorb, hclean.lh, bind, Except.bind]
  have ht : ∀ w ∈ t, Outside C w.1 ∧ w.1 < 2 ^ 32 := by simp [t, C, Outside]
  have h2 := Reach.crash t 2 h1 ht hok
  have hw : headWritten C ((commit C { s1 with mem := Function.update s1.mem 40 fun _ => 7, lh := [40] }).writes.take 2)
      = true := by
    rw [commit_writes hclean (fits_of_tx hclean ht hok) hok (by simp)]
    simp [commitWrites, slotWrites, headWritten]
  rw [hw, if_pos rfl] at h2
  have h3 := Reach.recover (.recoverCut 0 h2)
  have hd := (@crash_atomic C (fun _ => zeroBlock) h0 _ _ h3).1 40 (ht _ (List.mem_singleton.mpr rfl)).1
  rw [List.nil_append] at h3 hd
  refine ⟨h0, _, h3, ?_⟩
  rw [hd]
  simp [afterTxs, t]

end Xv6.Log
