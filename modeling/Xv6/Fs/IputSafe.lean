/-
  Xv6.Fs.IputSafe — what the copies in the inode table are copies of, over every run of
  `Xv6.Fs.Iput`.

  `Content`: a valid entry is live, that is, a copy of its number's present allocation, which is
  not freed, with a content given to it since its `ialloc`, and the disk's unless it is dirty; except
  while the process in the free branch has written `type = 0` and not yet cleared `valid`; it has the
  sleep-lock then. Each allocation is truncated and cleared at most once.

  Proved: `iput_never_blocks`.
-/
import Xv6.Fs.IputLocks

namespace Xv6.Iput

open Fs (Dinode)

/-! ## The invariant -/

/-- The copy is one of the number's present allocation, which is not freed. -/
structure Live (g : Nat → Nat) (d : Nat → Dinode) (w : Nat → List Dinode) (e : Entry) : Prop where
  gen : e.gen = g e.inum
  disk : (d e.inum).type ≠ 0
  copy : e.copy.type ≠ 0
  given : e.copy ∈ w e.inum
  clean : e.dirty = false → e.copy = d e.inum

structure Content (s : St) : Prop where
  read : ∀ p i, s.pc p = .ilockRead i → (s.ent i).valid = false ∧
    ((s.ent i).copy.type ≠ 0 → Live s.gen s.disk s.given (s.ent i))
  valid : ∀ i, 0 < (s.ent i).ref → (s.ent i).valid = true →
    Live s.gen s.disk s.given (s.ent i) ∨ ∃ p, s.pc p = .iputInval i
  given : ∀ n, (s.disk n).type ≠ 0 → s.disk n ∈ s.given n
  clears : ∀ n g, s.clears n g ≤ 1 ∧ (s.gen n < g → s.clears n g = 0) ∧ ((s.disk n).type ≠ 0 → s.clears n (s.gen n) = 0)
  truncs : ∀ n g, s.truncs n g ≤ 1 ∧ (s.gen n < g → s.truncs n g = 0) ∧
    ((s.disk n).type ≠ 0 → s.truncs n (s.gen n) = 0 ∨ ∃ p i, s.pc p = .iputClear i ∧ (s.ent i).inum = n)

variable {s : St} {p q i j : Nat} {e : Entry} {c : Pc} {t : Option Nat} {w : Nat → List Dinode}

/-- Lock and `valid` are not part of it. -/
theorem Live.relock {l : Option Nat} {x : Bool} (h : Live s.gen s.disk s.given (s.ent i)) :
    Live s.gen s.disk s.given { s.ent i with lock := l, valid := x } :=
  ⟨h.gen, h.disk, h.copy, h.given, h.clean⟩

theorem boot_content (disk : Nat → Dinode) : Content (boot disk) := by
  constructor <;> simp [boot]

/-- A step of `p` that changes one entry, or what is on disk for an entry it has locked, and no
    reference or allocation. -/
theorem Content.change (hc : Content s) (hl : Locks s) {d : Nat → Dinode}
    (hinum : e.inum = (s.ent i).inum) (href : e.ref = (s.ent i).ref)
    (hmine : e = s.ent i ∧ d = s.disk ∧ w = s.given ∨ Mine p (s.ent i) e)
    (hd : ∀ n, (d n).type ≠ 0 ↔ (s.disk n).type ≠ 0) (hgiven : ∀ n, (d n).type ≠ 0 → d n ∈ w n)
    (hkeep : ∀ j, j ≠ i → 0 < (s.ent j).ref → Live s.gen s.disk s.given (s.ent j) → Live s.gen d w (s.ent j))
    (hread : ∀ j, c = .ilockRead j → j = i ∧ e.valid = false ∧ (e.copy.type ≠ 0 → Live s.gen d w e))
    (hvalid : 0 < e.ref → e.valid = true → Live s.gen d w e ∨ ∃ q, q ≠ p ∧ s.pc q = .iputInval i)
    (hinval : ∀ j, s.pc p = .iputInval j → j = i) (hclear : ∀ j, s.pc p ≠ .iputClear j) :
    Content { s with ent := upd s.ent i e, tlock := t, pc := upd s.pc p c, disk := d, given := w } := by
  have hpc : ∀ q, q ≠ p → upd s.pc p c q = s.pc q := fun q hq => upd_ne hq c
  refine ⟨fun q j hq => ?_, fun j hr hv => ?_, hgiven, fun n g => ?_, fun n g => ?_⟩
  · by_cases hqp : q = p
    · subst hqp
      obtain ⟨rfl, h1, h2⟩ := hread j (by simpa using hq)
      simpa using ⟨h1, h2⟩
    · have hq' : s.pc q = .ilockRead j := by simpa [hqp] using hq
      have hk := hl.locks q j (by rw [hq']; rfl)
      have h := hc.read q j hq'
      change (upd s.ent i e j).valid = false ∧ ((upd s.ent i e j).copy.type ≠ 0 → Live _ _ _ (upd s.ent i e j))
      by_cases hj : j = i
      · -- `q` has that entry locked, so nothing has changed
        subst hj
        rcases hmine with ⟨he, h1, h2⟩ | hm
        · rw [upd_same, he]
          subst h1 h2
          exact h
        · rcases hm.before with hb | hb <;> rw [hb] at hk
          · cases hk
          · exact absurd (Option.some.inj hk).symm hqp
      · rw [upd_ne hj]
        exact ⟨h.1, fun ht => hkeep j hj (hl.ref_pos (hl.lock q j hk)) (h.2 ht)⟩
  · by_cases hj : j = i
    · subst hj
      change 0 < (upd s.ent j e j).ref at hr
      change (upd s.ent j e j).valid = true at hv
      change Live _ _ _ (upd s.ent j e j) ∨ _
      rw [upd_same] at hr hv ⊢
      rcases hvalid hr hv with h | ⟨q, hq, hpq⟩
      · exact Or.inl h
      · exact Or.inr ⟨q, (hpc q hq).trans hpq⟩
    · change 0 < (upd s.ent i e j).ref at hr
      change (upd s.ent i e j).valid = true at hv
      change Live _ _ _ (upd s.ent i e j) ∨ _
      rw [upd_ne hj] at hr hv ⊢
      rcases hc.valid j hr hv with h | ⟨q, hq⟩
      · exact Or.inl (hkeep j hj hr h)
      · have hqp : q ≠ p := fun e => hj (hinval j (e ▸ hq))
        exact Or.inr ⟨q, (hpc q hqp).trans hq⟩
  · have h := hc.clears n g
    exact ⟨h.1, h.2.1, fun ht => h.2.2 ((hd n).mp ht)⟩
  · have h := hc.truncs n g
    refine ⟨h.1, h.2.1, fun ht => (h.2.2 ((hd n).mp ht)).imp_right ?_⟩
    intro ⟨q, j, hq, hn⟩
    have hqp : q ≠ p := fun e => hclear j (e ▸ hq)
    refine ⟨q, j, (hpc q hqp).trans hq, ?_⟩
    change (upd s.ent i e j).inum = n
    by_cases hj : j = i
    · subst hj
      rw [upd_same, hinum, hn]
    · rw [upd_ne hj, hn]

/-- A valid entry is live, or another process is about to make it invalid. -/
theorem Content.valid_other (hc : Content s) (hn : ∀ j, s.pc p ≠ .iputInval j) (hr : 0 < (s.ent i).ref)
    (hv : (s.ent i).valid = true) : Live s.gen s.disk s.given (s.ent i) ∨ ∃ q, q ≠ p ∧ s.pc q = .iputInval i := by
  refine (hc.valid i hr hv).imp_right fun ⟨q, hq⟩ => ⟨q, fun e => ?_, hq⟩
  exact hn i (e ▸ hq)

/-- A step of `p` that changes one entry, and nothing on disk. -/
theorem Content.entry (hc : Content s) (hl : Locks s)
    (hinum : e.inum = (s.ent i).inum) (href : e.ref = (s.ent i).ref) (hmine : e = s.ent i ∨ Mine p (s.ent i) e)
    (hread : ∀ j, c = .ilockRead j → j = i ∧ e.valid = false ∧ (e.copy.type ≠ 0 → Live s.gen s.disk s.given e))
    (hvalid : 0 < e.ref → e.valid = true → Live s.gen s.disk s.given e ∨ ∃ q, q ≠ p ∧ s.pc q = .iputInval i)
    (hinval : ∀ j, s.pc p = .iputInval j → j = i) (hclear : ∀ j, s.pc p ≠ .iputClear j) :
    Content { s with ent := upd s.ent i e, tlock := t, pc := upd s.pc p c } :=
  hc.change hl hinum href (hmine.imp_left fun h => ⟨h, rfl, rfl⟩) (fun _ => Iff.rfl) hc.given (fun _ _ _ => id)
    hread hvalid hinval hclear

/-- A step of `p`, not in the free branch's writes, that changes no entry. -/
theorem Content.move (hc : Content s) (hl : Locks s) (hread : ∀ j, c ≠ .ilockRead j)
    (hinval : ∀ j, s.pc p ≠ .iputInval j) (hclear : ∀ j, s.pc p ≠ .iputClear j) :
    Content { s with tlock := t, pc := upd s.pc p c } := by
  have hstep := hc.entry hl (p := p) (i := 0) (e := s.ent 0) (c := c) (t := t) rfl rfl (Or.inl rfl)
    (fun j hj => absurd hj (hread j)) (hc.valid_other hinval) (fun j hj => absurd hj (hinval j)) hclear
  rw [upd_self] at hstep
  exact hstep

/-- The inode that a process has locked and sees is live, until the free branch makes it invalid. -/
theorem Content.live (hc : Content s) (hl : Locks s) (hv : (s.ent i).valid = true) (hn : s.pc p ≠ .iputInval i)
    (hk : (s.ent i).lock = some p) : Live s.gen s.disk s.given (s.ent i) := by
  refine (hc.valid i (hl.ref_pos (hl.lock p i hk)) hv).resolve_right fun ⟨q, hq⟩ => ?_
  have hk' := hl.locks q i (by rw [hq]; rfl)
  rw [hk] at hk'
  obtain rfl := Option.some.inj hk'
  exact hn hq

/-- A change of the references to an entry, or a new entry. -/
theorem Content.recount (hc : Content s) (hl : Locks s) {held : Multiset (Nat × Nat)}
    (hread : ∀ j, s.pc p ≠ .ilockRead j) (hinval : ∀ j, s.pc p ≠ .iputInval j) (hclear : ∀ j, s.pc p ≠ .iputClear j)
    (he : e.inum = (s.ent i).inum ∧ e.valid = (s.ent i).valid ∧ e.copy = (s.ent i).copy ∧ e.gen = (s.ent i).gen ∧
        e.dirty = (s.ent i).dirty ∧ (0 < e.ref → 0 < (s.ent i).ref) ∨ e.valid = false ∧ (s.ent i).ref = 0) :
    Content { s with ent := upd s.ent i e, held := held, pc := upd s.pc p .relTable } := by
  -- an entry in use keeps its copy
  have hsame : ∀ j, 0 < (s.ent j).ref → (upd s.ent i e j).inum = (s.ent j).inum ∧
      (upd s.ent i e j).valid = (s.ent j).valid ∧ (upd s.ent i e j).copy = (s.ent j).copy ∧
      (upd s.ent i e j).gen = (s.ent j).gen ∧ (upd s.ent i e j).dirty = (s.ent j).dirty := by
    intro j hj
    by_cases hji : j = i
    · subst hji
      rw [upd_same]
      rcases he with h | h
      · exact ⟨h.1, h.2.1, h.2.2.1, h.2.2.2.1, h.2.2.2.2.1⟩
      · omega
    · rw [upd_ne hji]
      exact ⟨rfl, rfl, rfl, rfl, rfl⟩
  have hlive : ∀ j, 0 < (s.ent j).ref → Live s.gen s.disk s.given (s.ent j) →
      Live s.gen s.disk s.given (upd s.ent i e j) := by
    intro j hj h
    obtain ⟨h1, -, h2, h3, h4⟩ := hsame j hj
    exact ⟨by rw [h3, h1]; exact h.gen, by rw [h1]; exact h.disk, by rw [h2]; exact h.copy,
      by rw [h2, h1]; exact h.given,
      by rw [h4, h2, h1]; exact h.clean⟩
  have hpc : ∀ q c, s.pc q = c → q ≠ p → upd s.pc p .relTable q = c := fun q c hq hqp => (upd_ne hqp _).trans hq
  have hlock : ∀ q j, (s.pc q).locks = some j → 0 < (s.ent j).ref := fun q j h =>
    hl.ref_pos (hl.lock q j (hl.locks q j h))
  refine ⟨fun q j hq => ?_, fun j hr hv => ?_, hc.given, fun n g => hc.clears n g, fun n g => ?_⟩
  · have hqp : q ≠ p := by
      intro e
      subst e
      simp at hq
    have hq' : s.pc q = .ilockRead j := by simpa [hqp] using hq
    have hj := hlock q j (by rw [hq']; rfl)
    obtain ⟨-, h1, h2, -⟩ := hsame j hj
    have h := hc.read q j hq'
    change (upd s.ent i e j).valid = false ∧ ((upd s.ent i e j).copy.type ≠ 0 → Live _ _ _ (upd s.ent i e j))
    rw [h1, h2]
    exact ⟨h.1, fun ht => hlive j hj (h.2 ht)⟩
  · change 0 < (upd s.ent i e j).ref at hr
    change (upd s.ent i e j).valid = true at hv
    have hj : 0 < (s.ent j).ref := by
      by_cases hji : j = i
      · subst hji
        rw [upd_same] at hr hv
        rcases he with h | h
        · exact h.2.2.2.2.2 hr
        · rw [h.1] at hv
          cases hv
      · rwa [upd_ne hji] at hr
    rw [(hsame j hj).2.1] at hv
    rcases hc.valid j hj hv with h | ⟨q, hq⟩
    · exact Or.inl (hlive j hj h)
    · exact Or.inr ⟨q, hpc q _ hq fun e => hinval j (e ▸ hq)⟩
  · have h := hc.truncs n g
    refine ⟨h.1, h.2.1, fun ht => (h.2.2 ht).imp_right ?_⟩
    intro ⟨q, j, hq, hn⟩
    have hj := hlock q j (by rw [hq]; rfl)
    exact ⟨q, j, hpc q _ hq fun e => hclear j (e ▸ hq), (hsame j hj).1.trans hn⟩

/-- `ialloc` of a free number starts a new allocation. -/
theorem Content.alloc (hc : Content s) {n : Nat} {d : Dinode} (hpc : s.pc p = .idle) (hfree : (s.disk n).type = 0) :
    Content { s with
      disk := upd s.disk n d, gen := upd s.gen n (s.gen n + 1), given := upd s.given n [d], pc :=
      upd s.pc p (.igetWait n) } := by
  have hlive : ∀ {e : Entry}, Live s.gen s.disk s.given e →
      Live (upd s.gen n (s.gen n + 1)) (upd s.disk n d) (upd s.given n [d]) e := by
    intro e h
    have hne : e.inum ≠ n := fun en => h.disk (en ▸ hfree)
    exact ⟨h.gen.trans (upd_ne hne _).symm, by simpa [hne] using h.disk, h.copy, by simpa [hne] using h.given,
      by simpa [hne] using h.clean⟩
  have hkeep : ∀ q c, s.pc q = c → c ≠ .idle → upd s.pc p (.igetWait n) q = c := by
    intro q c hq hne
    have hqp : q ≠ p := fun e => hne (by rw [← hq, e, hpc])
    exact (upd_ne hqp _).trans hq
  refine ⟨fun q j hq => ?_, fun j hr hv => ?_, fun m hm => ?_, fun m g => ?_, fun m g => ?_⟩
  · have hqp : q ≠ p := by
      intro e
      subst e
      simp at hq
    have h := hc.read q j (by simpa [hqp] using hq)
    exact ⟨h.1, fun ht => hlive (h.2 ht)⟩
  · rcases hc.valid j hr hv with h | ⟨q, hq⟩
    · exact Or.inl (hlive h)
    · exact Or.inr ⟨q, hkeep q _ hq (by simp)⟩
  · by_cases e : m = n
    · simp [e]
    · simpa [e] using hc.given m (by simpa [e] using hm)
  · have h := hc.clears m g
    by_cases hm : m = n
    · subst hm
      simp only [upd_same]
      exact ⟨h.1, fun hg => h.2.1 (by omega), fun _ => (hc.clears m (s.gen m + 1)).2.1 (by omega)⟩
    · simpa [hm] using h
  · have h := hc.truncs m g
    by_cases hm : m = n
    · subst hm
      simp only [upd_same]
      exact ⟨h.1, fun hg => h.2.1 (by omega), fun _ => Or.inl ((hc.truncs m (s.gen m + 1)).2.1 (by omega))⟩
    · simp only [upd_ne hm]
      refine ⟨h.1, h.2.1, fun ht => (h.2.2 ht).imp_right ?_⟩
      intro ⟨q, j, hq, hn⟩
      exact ⟨q, j, hkeep q _ hq (by simp), hn⟩

/-- The other entries in use have other numbers than one that is locked. -/
theorem Locks.inum_ne (hl : Locks s) (hk : (s.ent i).lock = some p) (hj : j ≠ i) (hr : 0 < (s.ent j).ref) :
    (s.ent j).inum ≠ (s.ent i).inum := fun e => hj (hl.uniq j i hr (hl.ref_pos (hl.lock p i hk)) e)

/-- The holder of an entry's lock writes an inode of its type, a content given to the number: the other
    entries and numbers do not notice. -/
theorem Content.wrote (hc : Content s) (hl : Locks s) {d : Dinode} (hk : (s.ent i).lock = some p)
    (hlive : Live s.gen s.disk s.given (s.ent i)) (hd : d.type ≠ 0) (hw : d ∈ w (s.ent i).inum)
    (hsame : ∀ n, n ≠ (s.ent i).inum → w n = s.given n) :
    (∀ n, (upd s.disk (s.ent i).inum d n).type ≠ 0 ↔ (s.disk n).type ≠ 0) ∧
    (∀ n, (upd s.disk (s.ent i).inum d n).type ≠ 0 → upd s.disk (s.ent i).inum d n ∈ w n) ∧
    ∀ j, j ≠ i → 0 < (s.ent j).ref → Live s.gen s.disk s.given (s.ent j) →
      Live s.gen (upd s.disk (s.ent i).inum d) w (s.ent j) := by
  refine ⟨fun n => ?_, fun n hn => ?_, fun j hj hr h => ?_⟩
  · by_cases e : n = (s.ent i).inum
    · rw [e, upd_same]
      exact iff_of_true hd hlive.disk
    · rw [upd_ne e]
  · by_cases e : n = (s.ent i).inum
    · rw [e, upd_same]
      exact hw
    · rw [upd_ne e] at hn ⊢
      rw [hsame n e]
      exact hc.given n hn
  · have hne := hl.inum_ne hk hj hr
    exact ⟨h.gen, by rw [upd_ne hne]; exact h.disk,
      h.copy, by rw [hsame _ hne]; exact h.given, by rw [upd_ne hne]; exact h.clean⟩

/-- `itrunc` in the free branch: the first of this allocation. -/
theorem Content.trunc (hc : Content s) (hl : Locks s) (hpc : s.pc p = .iputTrunc i) :
    Content (({ s.setEnt i { s.ent i with copy := truncated (s.ent i).copy, dirty := false } with
      truncs := upd s.truncs (s.ent i).inum
        (upd (s.truncs (s.ent i).inum) (s.ent i).gen (s.truncs (s.ent i).inum (s.ent i).gen + 1)) }.give
          (s.ent i).inum (truncated (s.ent i).copy)).putDisk (s.ent i).inum (truncated (s.ent i).copy) |>.goto p
          (.iputClear i)) := by
  have hk := hl.locks p i (by rw [hpc]; rfl)
  have hlive := hc.live hl (hl.frees p i (by rw [hpc]; rfl)) (by simp [hpc]) hk
  have hcopy : (truncated (s.ent i).copy).type ≠ 0 := hlive.copy
  obtain ⟨hd, hgiven, hkeep⟩ := hc.wrote hl hk hlive hcopy
    (w := upd s.given (s.ent i).inum (truncated (s.ent i).copy :: s.given (s.ent i).inum)) (by simp)
    fun n hn => upd_ne hn _
  have hstep := hc.change hl (p := p) (i := i) (e := { s.ent i with copy := truncated (s.ent i).copy, dirty := false })
    (c := .iputClear i) (t := s.tlock) rfl rfl (Or.inr ⟨Or.inr hk, Or.inr hk, Or.inl hk⟩) hd hgiven hkeep nofun
    (fun _ _ => Or.inl ⟨hlive.gen, by simpa using hcopy, hcopy, by simp, by simp⟩) (by simp [hpc]) (by simp [hpc])
  refine ⟨hstep.read, hstep.valid, hstep.given, hstep.clears, fun n g => ?_⟩
  have h := hc.truncs n g
  change upd s.truncs (s.ent i).inum _ n g ≤ 1 ∧ (s.gen n < g → upd s.truncs (s.ent i).inum _ n g = 0) ∧ _
  by_cases hn : n = (s.ent i).inum
  · subst hn
    -- nobody else is in the free branch of this number
    have h0 : s.truncs (s.ent i).inum (s.ent i).gen = 0 := by
      rw [hlive.gen]
      refine (h.2.2 hlive.disk).resolve_right fun ⟨q, j, hq, hn⟩ => ?_
      have hkq := hl.locks q j (by rw [hq]; rfl)
      by_cases hji : j = i
      · subst hji
        rw [hk] at hkq
        obtain rfl := Option.some.inj hkq
        rw [hpc] at hq
        cases hq
      · exact hl.inum_ne hk hji (hl.ref_pos (hl.lock q j hkq)) hn
    rw [upd_same]
    refine ⟨?_, fun hg => ?_, fun _ => Or.inr ⟨p, i, upd_same _ _ _, ?_⟩⟩
    · by_cases hg : g = (s.ent i).gen
      · rw [hg, upd_same, h0]
      · rw [upd_ne hg]; exact h.1
    · have hne : g ≠ (s.ent i).gen := by rw [hlive.gen]; omega
      rw [upd_ne hne]
      exact h.2.1 hg
    · change (upd s.ent i _ i).inum = _
      rw [upd_same]
  · rw [upd_ne hn]
    exact ⟨h.1, h.2.1, fun ht => by
      have h' := (hstep.truncs n g).2.2 ht
      change upd s.truncs (s.ent i).inum _ n (s.gen n) = 0 ∨ _
      rw [upd_ne hn]
      exact h'⟩

/-- `type = 0` in the free branch: it ends the allocation. -/
theorem Content.clear (hc : Content s) (hl : Locks s) (hpc : s.pc p = .iputClear i) :
    Content (({ s.setEnt i { s.ent i with copy := { (s.ent i).copy with type := 0 }, dirty := false } with
      clears := upd s.clears (s.ent i).inum
        (upd (s.clears (s.ent i).inum) (s.ent i).gen (s.clears (s.ent i).inum (s.ent i).gen + 1)) }.putDisk
          (s.ent i).inum { (s.ent i).copy with type := 0 }).goto p (.iputInval i)) := by
  have hk := hl.locks p i (by rw [hpc]; rfl)
  have hlive := hc.live hl (hl.frees p i (by rw [hpc]; rfl)) (by simp [hpc]) hk
  generalize hs' : St.goto _ p (.iputInval i) = s'
  have hent : ∀ j, j ≠ i → s'.ent j = s.ent j := fun j hj => by rw [← hs']; exact upd_ne hj _
  have hdisk : ∀ n, n ≠ (s.ent i).inum → s'.disk n = s.disk n := fun n hn => by rw [← hs']; exact upd_ne hn _
  have hfreed : (s'.disk (s.ent i).inum).type = 0 := by rw [← hs']; simp [St.goto, St.putDisk]
  have hgen : s'.gen = s.gen := by rw [← hs']; rfl
  have hgiv : s'.given = s.given := by rw [← hs']; rfl
  have hpcs : ∀ q, q ≠ p → s'.pc q = s.pc q := fun q hq => by rw [← hs']; exact upd_ne hq _
  have hpcp : s'.pc p = .iputInval i := by rw [← hs']; exact upd_same _ _ _
  have htr : s'.truncs = s.truncs := by rw [← hs']; rfl
  have hcl : s'.clears = upd s.clears (s.ent i).inum
      (upd (s.clears (s.ent i).inum) (s.ent i).gen (s.clears (s.ent i).inum (s.ent i).gen + 1)) := by rw [← hs']; rfl
  -- the other entries in use have other numbers
  have hother : ∀ j, j ≠ i → 0 < (s.ent j).ref → Live s.gen s.disk s.given (s.ent j) →
      Live s'.gen s'.disk s'.given (s'.ent j) := by
    intro j hj hr h
    have hne := hl.inum_ne hk hj hr
    rw [hent j hj]
    exact ⟨by rw [hgen]; exact h.gen, by rw [hdisk _ hne]; exact h.disk, h.copy, by rw [hgiv]; exact h.given,
      by rw [hdisk _ hne]; exact h.clean⟩
  refine ⟨fun q j hq => ?_, fun j hr hv => ?_, fun n hn => ?_, fun n g => ?_, fun n g => ?_⟩
  · have hqp : q ≠ p := fun e => by rw [e, hpcp] at hq; cases hq
    rw [hpcs q hqp] at hq
    have hkq := hl.locks q j (by rw [hq]; rfl)
    have hji : j ≠ i := fun e => by
      rw [e, hk] at hkq
      exact hqp (Option.some.inj hkq).symm
    have h := hc.read q j hq
    refine ⟨by rw [hent j hji]; exact h.1, fun ht => ?_⟩
    rw [hent j hji] at ht
    exact hother j hji (hl.ref_pos (hl.lock q j hkq)) (h.2 ht)
  · by_cases hji : j = i
    · exact Or.inr ⟨p, hji ▸ hpcp⟩
    · rw [hent j hji] at hr hv
      rcases hc.valid j hr hv with h | ⟨q, hq⟩
      · exact Or.inl (hother j hji hr h)
      · have hqp : q ≠ p := fun e => by rw [e, hpc] at hq; cases hq
        exact Or.inr ⟨q, (hpcs q hqp).trans hq⟩
  · have hne : n ≠ (s.ent i).inum := fun e => hn (e ▸ hfreed)
    rw [hdisk n hne] at hn ⊢
    rw [hgiv]
    exact hc.given n hn
  · have h := hc.clears n g
    rw [hcl, hgen]
    by_cases hn : n = (s.ent i).inum
    · subst hn
      have h0 : s.clears (s.ent i).inum (s.ent i).gen = 0 := by
        rw [hlive.gen]
        exact h.2.2 hlive.disk
      rw [upd_same]
      refine ⟨?_, fun hg => ?_, fun ht => absurd hfreed ht⟩
      · by_cases hg : g = (s.ent i).gen
        · rw [hg, upd_same, h0]
        · rw [upd_ne hg]; exact h.1
      · have hne : g ≠ (s.ent i).gen := by rw [hlive.gen]; omega
        rw [upd_ne hne]
        exact h.2.1 hg
    · rw [upd_ne hn, hdisk n hn]
      exact h
  · have h := hc.truncs n g
    rw [htr, hgen]
    refine ⟨h.1, h.2.1, fun ht => ?_⟩
    have hn : n ≠ (s.ent i).inum := fun e => ht (e ▸ hfreed)
    rw [hdisk n hn] at ht
    refine (h.2.2 ht).imp_right fun ⟨q, j, hq, hjn⟩ => ?_
    have hji : j ≠ i := fun e => hn (by rw [← hjn, e])
    have hqp : q ≠ p := fun e => by
      rw [e, hpc] at hq
      exact hji (Pc.iputClear.inj hq).symm
    exact ⟨q, j, (hpcs q hqp).trans hq, by rw [hent j hji]; exact hjn⟩

/-- A process between calls changes an entry it has locked, or what is on disk for it. -/
theorem Content.edit (hc : Content s) (hl : Locks s) {d : Nat → Dinode}
    (hpc : s.pc p = .idle) (hinum : e.inum = (s.ent i).inum) (href : e.ref = (s.ent i).ref) (hmine : Mine p (s.ent i) e)
    (hd : ∀ n, (d n).type ≠ 0 ↔ (s.disk n).type ≠ 0) (hgiven : ∀ n, (d n).type ≠ 0 → d n ∈ w n)
    (hkeep : ∀ j, j ≠ i → 0 < (s.ent j).ref → Live s.gen s.disk s.given (s.ent j) → Live s.gen d w (s.ent j))
    (hlive : Live s.gen d w e) : Content { s with ent := upd s.ent i e, disk := d, given := w } := by
  have hstep := hc.change hl (p := p) (i := i) (e := e) (c := .idle) (t := s.tlock) (d := d) (w := w) hinum href
    (Or.inr hmine) hd hgiven hkeep nofun (fun _ _ => Or.inl hlive) (by simp [hpc]) (by simp [hpc])
  rw [← hpc, upd_self] at hstep
  exact hstep

theorem Content.step {s' : St} (hc : Content s) (hl : Locks s) (hs : Step p s s') : Content s' := by
  cases hs with
  | iget n h | igetLock h ht | idup i q h hh | idupLock h ht | relTable h | ilock i h hh hr | ilockValid h hv
  | iput i h hh hk | iputLock h ht | iputFree h hf | iputKeep h hf | iputRel h | iputAgain h ht =>
    exact hc.move hl nofun (by simp [h]) (by simp [h])
  | ialloc n t h hd ht => exact hc.alloc h hd
  | igetFound h hf =>
    exact hc.recount hl (by simp [h]) (by simp [h]) (by simp [h])
      (Or.inl ⟨rfl, rfl, rfl, rfl, rfl, fun _ => (St.find_some hf).1⟩)
  | igetEmpty h hf he =>
    exact hc.recount hl (by simp [h]) (by simp [h]) (by simp [h]) (Or.inr ⟨rfl, (St.empty_some he).2⟩)
  | igetPanic h hf he | ilockBad i h hh hr | ilockPanic h ht | iunlockBad i h hk | iputSleeps h hk =>
    exact ⟨hc.read, hc.valid, hc.given, hc.clears, hc.truncs⟩
  | idupInc h | iputDec h =>
    have hpos := hl.ref_pos (hl.refs p _ (by rw [h]; rfl))
    exact hc.recount hl (by simp [h]) (by simp [h]) (by simp [h]) (Or.inl ⟨rfl, rfl, rfl, rfl, rfl, fun _ => hpos⟩)
  | @ilockAcq i h hk | @iputAcq i h hk =>
    exact hc.entry hl rfl rfl (Or.inr ⟨Or.inl hk, Or.inr rfl, Or.inr ⟨rfl, rfl, rfl⟩⟩) nofun
      (fun hr hv => (hc.valid_other (by simp [h]) hr hv).imp_left Live.relock)
      (by simp [h]) (by simp [h])
  | @ilockRead i h hv =>
    have hk := hl.locks p i (by rw [h]; rfl)
    refine hc.entry hl rfl rfl (Or.inr ⟨Or.inr hk, Or.inr hk, Or.inl hk⟩) (fun j hj => ?_) (fun _ hv' => ?_)
      (by simp [h]) (by simp [h])
    · cases hj
      exact ⟨rfl, hv, fun ht => ⟨rfl, ht, ht, hc.given _ ht, fun _ => rfl⟩⟩
    · rw [hv] at hv'
      cases hv'
  | @ilockDone i h ht =>
    have hk := hl.locks p i (by rw [h]; rfl)
    have hlive := (hc.read p i h).2 ht
    exact hc.entry hl rfl rfl (Or.inr ⟨Or.inr hk, Or.inr hk, Or.inl hk⟩) nofun (fun _ _ => Or.inl hlive.relock)
      (by simp [h]) (by simp [h])
  | iunlock i h hk hr =>
    have hlive := hc.live hl (hl.seen_valid (by rw [h]; rfl) hk) (by simp [h]) hk
    exact hc.edit hl h rfl rfl ⟨Or.inr hk, Or.inl rfl, Or.inl hk⟩ (fun _ => Iff.rfl) hc.given
      (fun _ _ _ => id) hlive.relock
  | modify i d h hk ht =>
    have hlive := hc.live hl (hl.seen_valid (by rw [h]; rfl) hk) (by simp [h]) hk
    refine hc.edit hl h rfl rfl ⟨Or.inr hk, Or.inr hk, Or.inl hk⟩ (fun _ => Iff.rfl) (fun n hn => ?_)
      (fun j hj hr hlj => ?_) ⟨hlive.gen, hlive.disk, by rw [ht]; exact hlive.copy, by simp, nofun⟩
    · by_cases e : n = (s.ent i).inum
      · rw [e, upd_same]
        exact List.mem_cons_of_mem _ (hc.given _ hlive.disk)
      · rw [upd_ne e]
        exact hc.given n hn
    · have hne := hl.inum_ne hk hj hr
      exact ⟨hlj.gen, hlj.disk, hlj.copy, by rw [upd_ne hne]; exact hlj.given, hlj.clean⟩
  | iupdate i h hk =>
    have hlive := hc.live hl (hl.seen_valid (by rw [h]; rfl) hk) (by simp [h]) hk
    obtain ⟨hd, hgiven, hkeep⟩ := hc.wrote hl hk hlive hlive.copy hlive.given fun _ _ => rfl
    exact hc.edit hl h rfl rfl ⟨Or.inr hk, Or.inr hk, Or.inl hk⟩ hd hgiven hkeep
      ⟨hlive.gen, by simpa using hlive.copy, hlive.copy, hlive.given, by simp⟩
  | iputTrunc h => exact hc.trunc hl h
  | iputClear h => exact hc.clear hl h
  | @iputInval i h =>
    have hk := hl.locks p i (by rw [h]; rfl)
    exact hc.entry hl rfl rfl (Or.inr ⟨Or.inr hk, Or.inr hk, Or.inl hk⟩) nofun nofun (by simp [h]) (by simp [h])
  | @iputUnlock i h =>
    have hk := hl.locks p i (by rw [h]; rfl)
    exact hc.entry hl rfl rfl (Or.inr ⟨Or.inr hk, Or.inl rfl, Or.inl hk⟩) nofun
      (fun hr hv => (hc.valid_other (by simp [h]) hr hv).imp_left Live.relock)
      (by simp [h]) (by simp [h])

theorem Reachable.inv (hr : Reachable s) : Locks s ∧ Content s := by
  induction hr with
  | boot disk => exact ⟨boot_locks disk, boot_content disk⟩
  | step _ _ hs ih => exact ⟨ih.1.step hs, ih.2.step ih.1 hs⟩

/-! ## The results -/

/-- Process `p` is at `acquiresleep` in the free branch of `iput` for entry `i`. -/
def InFreeBranch (s : St) (p i : Nat) : Prop := s.pc p = .iputAcq i

/-- Process `p` has entry `i` locked by an `ilock` that has returned. -/
def HasLocked (s : St) (p i : Nat) : Prop := (s.ent i).lock = some p ∧ (s.pc p).locks ≠ some i

/-- In every reachable state: `acquiresleep` has not slept with `itable.lock` held; in the free branch the
    sleep-lock is free and nobody else has a reference; each allocation of a number is truncated and
    cleared at most once; and what a process has locked is a copy of the number's last allocation, which
    has not been freed: it is the disk's inode, unless a holder of the lock has changed it and not yet
    written it, and in any case a content given to the number since its `ialloc`. -/
theorem iput_never_blocks (hr : Reachable s) :
    s.stop ≠ some .sleeps ∧
    (∀ p i, InFreeBranch s p i → (s.ent i).lock = none ∧ s.held.count (p, i) = 1 ∧ ∀ q, (q, i) ∈ s.held → q = p) ∧
    (∀ n g, s.truncs n g ≤ 1 ∧ s.clears n g ≤ 1) ∧
    ∀ p i, HasLocked s p i → (s.ent i).valid = true ∧ (s.ent i).gen = s.gen (s.ent i).inum ∧
      (s.ent i).copy.type ≠ 0 ∧ s.clears (s.ent i).inum (s.ent i).gen = 0 ∧
      ((s.ent i).dirty = false → (s.ent i).copy = s.disk (s.ent i).inum) ∧
      (s.ent i).copy ∈ s.given (s.ent i).inum ∧ s.disk (s.ent i).inum ∈ s.given (s.ent i).inum := by
  obtain ⟨hl, hc⟩ := hr.inv
  refine ⟨hl.stop, fun p i h => ?_, fun n g => ⟨(hc.truncs n g).1, (hc.clears n g).1⟩, fun p i h => ?_⟩
  · have hp := hl.refs p i (by rw [h]; rfl)
    have hf := hl.acq p i h
    simp only [Entry.isFreed, decide_eq_true_eq] at hf
    exact ⟨hl.acq_free h, (hl.one_holder hf.1 hp hp).2, fun q hq => (hl.one_holder hf.1 hp hq).1⟩
  · obtain ⟨hk, hpc⟩ := h
    have hv := (hl.seen p i hk).resolve_right fun hb => hpc (Pc.locks_of_blind hb)
    have hlive := hc.live hl hv (fun e => hpc (by rw [e]; rfl)) hk
    refine ⟨hv, hlive.gen, hlive.copy, ?_, hlive.clean, hlive.given, hc.given _ hlive.disk⟩
    rw [hlive.gen]
    exact (hc.clears _ 0).2.2 hlive.disk

/-- Process 0 allocates number 5, gives it a size, writes it and drops its reference: the free branch. While it is there
    process 1 allocates the number again, gets the same entry and waits for the lock; what it sees then is the disk's
    inode, of its own type and with nothing in it. -/
theorem iput_never_blocks_reused :
    (∃ s, Reachable s ∧ InFreeBranch s 0 0 ∧ (s.ent 0).copy.size = 9 ∧ (s.ent 0).lock = none) ∧
    ∃ s, Reachable s ∧ HasLocked s 1 0 ∧ s.gen 5 = 2 ∧ s.clears 5 1 = 1 ∧ (s.ent 0).gen = 2 ∧
      (s.ent 0).copy = s.disk 5 ∧ s.disk 5 = { Dinode.zero with type := 1 } := by
  have r0 := Reachable.boot fun _ => Dinode.zero
  have r1 := r0.step (p := 0) rfl (.ialloc 5 2 rfl rfl (by decide))
  have r2 := r1.step (p := 0) rfl (.igetLock (n := 5) rfl rfl)
  have r3 := r2.step (p := 0) rfl (.igetEmpty (n := 5) (i := 0) rfl rfl rfl)
  have r4 := r3.step (p := 0) rfl (.relTable rfl)
  have r5 := r4.step (p := 0) rfl (.ilock 0 rfl (by decide) (by decide))
  have r6 := r5.step (p := 0) rfl (.ilockAcq (i := 0) rfl rfl)
  have r7 := r6.step (p := 0) rfl (.ilockRead (i := 0) rfl rfl)
  have r8 := r7.step (p := 0) rfl (.ilockDone (i := 0) rfl (by decide))
  have r9 := r8.step (p := 0) rfl (.modify 0 { Dinode.zero with type := 2, size := 9 } rfl rfl rfl)
  have r10 := r9.step (p := 0) rfl (.iupdate 0 rfl rfl)
  have r11 := r10.step (p := 0) rfl (.iunlock 0 rfl rfl (by decide))
  have r12 := r11.step (p := 0) rfl (.iput 0 rfl (by decide) nofun)
  have r13 := r12.step (p := 0) rfl (.iputLock (i := 0) rfl rfl)
  have r14 := r13.step (p := 0) rfl (.iputFree (i := 0) rfl (by decide))
  have r15 := r14.step (p := 0) rfl (.iputAcq (i := 0) rfl rfl)
  have r16 := r15.step (p := 0) rfl (.iputRel (i := 0) rfl)
  have r17 := r16.step (p := 0) rfl (.iputTrunc (i := 0) rfl)
  have r18 := r17.step (p := 0) rfl (.iputClear (i := 0) rfl)
  have r19 := r18.step (p := 1) rfl (.ialloc 5 1 rfl rfl (by decide))
  have r20 := r19.step (p := 1) rfl (.igetLock (n := 5) rfl rfl)
  have r21 := r20.step (p := 1) rfl (.igetFound (n := 5) (i := 0) rfl rfl)
  have r22 := r21.step (p := 1) rfl (.relTable rfl)
  have r23 := r22.step (p := 1) rfl (.ilock 0 rfl (by decide) (by decide))
  have r24 := r23.step (p := 0) rfl (.iputInval (i := 0) rfl)
  have r25 := r24.step (p := 0) rfl (.iputUnlock (i := 0) rfl)
  have r26 := r25.step (p := 1) rfl (.ilockAcq (i := 0) rfl rfl)
  have r27 := r26.step (p := 1) rfl (.ilockRead (i := 0) rfl rfl)
  have r28 := r27.step (p := 1) rfl (.ilockDone (i := 0) rfl (by decide))
  have h28 := (iput_never_blocks r28).2.2.2 1 0 ⟨rfl, by decide⟩
  exact ⟨⟨_, r14, rfl, rfl, ((iput_never_blocks r14).2.1 0 0 rfl).1⟩,
    _, r28, ⟨rfl, by decide⟩, rfl, rfl, h28.2.1, h28.2.2.2.2.1 rfl, rfl⟩

end Xv6.Iput
