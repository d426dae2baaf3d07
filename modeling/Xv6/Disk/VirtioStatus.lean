/-
  Xv6.Disk.VirtioStatus — the status check of `platform_qemu_disk_rw` (see
  `Xv6.Disk.Virtio` for the model).

  The caller frees its chain and releases the lock before it looks at
  `info[idx[0]].status`; a process that runs in between can be given the same first
  descriptor, and arms the slot with 0xff. kernel/virtio_disk.c looks at the status in
  the interrupt handler only, under the lock.

  Proved:
  - `inv`: along runs in which no submission takes a slot whose last caller has still to
    look at it (`Fresh`), the slot of every waiting or checking caller is its own;
  - `status_own_iff_fresh`: along such runs the check never panics and every status
    inspected is the one of the caller's own request; and right after a submission that
    is not `Fresh`, a caller's check panics;
  - `a_reused_slot_panics`: two processes and one preemption reach it.
-/
import Xv6.Disk.Virtio

namespace Xv6.Disk.Virtio

/-! ## Descriptors -/

variable {s s' : St}

theorem allocDesc_some {i : Nat} (h : allocDesc s = some (i, s')) :
    i < NUM ∧ s.free i = true ∧ s' = { s with free := Function.update s.free i false } := by
  simp only [allocDesc] at h
  split at h
  · rename_i j hj
    cases h
    exact ⟨List.mem_range.mp (List.mem_of_find?_eq_some hj), List.find?_some hj, rfl⟩
  · cases h

def cleared (s : St) (i : Nat) : St :=
  { s with desc := Function.update s.desc i ⟨.null, 0, 0, 0⟩, free := Function.update s.free i true }

theorem freeDesc_ok {i : Nat} (hi : i < NUM) (hf : s.free i = false) : freeDesc s i = .ok (cleared s i) := by
  simp only [freeDesc, Nat.not_le.mpr hi, hf, if_false, Bool.false_eq_true, cleared]

variable {n : Nat}

theorem freeChainFrom_next {i : Nat} (hi : i < NUM) (hf : s.free i = false) (hn : (s.desc i).hasNext = true) :
    freeChainFrom (n + 1) s i = freeChainFrom n (cleared s i) (s.desc i).next := by
  simp only [freeChainFrom, freeDesc_ok hi hf, bind, Except.bind, hn, if_true]

theorem freeChainFrom_last {i : Nat} (hi : i < NUM) (hf : s.free i = false)
    (hn : (s.desc i).hasNext = false) : freeChainFrom (n + 1) s i = .ok (cleared s i) := by
  simp only [freeChainFrom, freeDesc_ok hi hf, bind, Except.bind, hn, Bool.false_eq_true, if_false]

structure Taken (s s' : St) (i : Idx) : Prop where
  lt : i.a < NUM ∧ i.b < NUM ∧ i.c < NUM
  ne : i.a ≠ i.b ∧ i.a ≠ i.c ∧ i.b ≠ i.c
  wasFree : s.free i.a = true ∧ s.free i.b = true ∧ s.free i.c = true
  eq : s' = { s with free := Function.update (Function.update (Function.update s.free i.a false) i.b false) i.c false }

/-- Only free descriptors were touched, and they are free again. -/
structure Restored (s s' : St) : Prop where
  eq : s' = { s with desc := s'.desc, free := s'.free }
  busy : ∀ j, s.free j = false → s'.desc j = s.desc j ∧ s'.free j = false
  same : ∀ j, s'.free j = s.free j

theorem alloc3Desc_cases (s : St) :
    (∃ s', alloc3Desc s = .ok (none, s') ∧ Restored s s') ∨ ∃ i s', alloc3Desc s = .ok (some i, s') ∧ Taken s s' i := by
  unfold alloc3Desc
  split
  · exact Or.inl ⟨s, rfl, rfl, fun j hj => ⟨rfl, hj⟩, fun _ => rfl⟩
  rename_i a s₁ h₁
  obtain ⟨ha, hfa, rfl⟩ := allocDesc_some h₁
  split
  · -- one descriptor, given back
    rw [freeDesc_ok ha (by simp)]
    refine Or.inl ⟨_, rfl, rfl, fun j hj => ?_, fun j => ?_⟩
    · have hja : j ≠ a := fun e => by rw [e, hfa] at hj; cases hj
      simp [cleared, hja, hj]
    · by_cases hja : j = a
      · simp [cleared, hja, hfa]
      · simp [cleared, hja]
  rename_i b s₂ h₂
  obtain ⟨hb, hfb, rfl⟩ := allocDesc_some h₂
  have hab : b ≠ a := fun e => by simp [e] at hfb
  have hfb' : s.free b = true := by simpa [hab] using hfb
  split
  · -- two descriptors, given back
    rw [freeDesc_ok ha (by simp [hab.symm])]
    simp only [bind, Except.bind]
    rw [freeDesc_ok hb (by simp [cleared, hab])]
    refine Or.inl ⟨_, rfl, rfl, fun j hj => ?_, fun j => ?_⟩
    · have hja : j ≠ a := fun e => by rw [e, hfa] at hj; cases hj
      have hjb : j ≠ b := fun e => by rw [e, hfb'] at hj; cases hj
      simp [cleared, hja, hjb, hj]
    · by_cases hjb : j = b
      · simp [cleared, hjb, hfb']
      · by_cases hja : j = a
        · simp [cleared, hja, hab.symm, hfa]
        · simp [cleared, hja, hjb]
  rename_i c s3 h₃
  obtain ⟨hc, hfc, rfl⟩ := allocDesc_some h₃
  have hcb : c ≠ b := fun e => by simp [e] at hfc
  have hca : c ≠ a := fun e => by simp [e, hab.symm] at hfc
  have hfc' : s.free c = true := by simpa [hcb, hca] using hfc
  exact Or.inr ⟨⟨a, b, c⟩, _, rfl, ⟨ha, hb, hc⟩, ⟨hab.symm, hca.symm, hcb.symm⟩, ⟨hfa, hfb', hfc'⟩, rfl⟩

structure Chain (s : St) (r : Req) (i : Idx) : Prop where
  lt : i.a < NUM ∧ i.b < NUM ∧ i.c < NUM
  ne : i.a ≠ i.b ∧ i.a ≠ i.c ∧ i.b ≠ i.c
  busy : s.free i.a = false ∧ s.free i.b = false ∧ s.free i.c = false
  head : s.desc i.a = ⟨.op i.a, 16, fNext, i.b⟩
  data : s.desc i.b = ⟨.buf r.buf, BSIZE, (if r.write then 0 else fWrite) ||| fNext, i.c⟩
  stat : s.desc i.c = ⟨.status i.a, 1, fWrite, 0⟩

variable {r : Req} {i : Idx}

/-- `platform_qemu_free_chain` frees a chain's three descriptors. -/
theorem freeChain_eq (h : Chain s r i) : freeChain s i.a = .ok (cleared (cleared (cleared s i.a) i.b) i.c) := by
  obtain ⟨ha, hb, hc⟩ := h.lt
  obtain ⟨hab, hac, hbc⟩ := h.ne
  obtain ⟨fa, fb, fc⟩ := h.busy
  have n1 : (s.desc i.a).hasNext = true := by simp [h.head, Desc.hasNext, fNext]
  have n2 : (s.desc i.b).hasNext = true := by cases hw : r.write <;> simp [h.data, hw, Desc.hasNext, fNext, fWrite]
  have n3 : (s.desc i.c).hasNext = false := by simp [h.stat, Desc.hasNext, fNext, fWrite]
  have db : (cleared s i.a).desc i.b = s.desc i.b := Function.update_of_ne hab.symm _ _
  have dc : (cleared (cleared s i.a) i.b).desc i.c = s.desc i.c := by simp [cleared, hac.symm, hbc.symm]
  rw [freeChain, freeChainFrom_next ha fa n1, h.head,
    freeChainFrom_next hb (by simp [cleared, hab.symm, fb]) (by rw [db]; exact n2), db, h.data,
    freeChainFrom_last hc (by simp [cleared, hac.symm, hbc.symm, fc]) (by rw [dc]; exact n3)]

/-- Nothing else changes. -/
theorem freeChain_chain (h : Chain s r i) :
    ∃ s', freeChain s i.a = .ok s' ∧ s' = { s with desc := s'.desc, free := s'.free } ∧
      ∀ j, j ≠ i.a → j ≠ i.b → j ≠ i.c → s'.desc j = s.desc j ∧ s'.free j = s.free j :=
  ⟨_, freeChain_eq h, rfl, fun j h1 h2 h3 => by simp [cleared, h1, h2, h3]⟩

/-! ## The invariant -/

def Idx.Apart (i j : Idx) : Prop :=
  i.a ≠ j.a ∧ i.a ≠ j.b ∧ i.a ≠ j.c ∧ i.b ≠ j.a ∧ i.b ≠ j.b ∧ i.b ≠ j.c ∧ i.c ≠ j.a ∧ i.c ≠ j.b ∧ i.c ≠ j.c

/-- The submission of `e` takes no slot whose last caller has still to look at it. -/
def Fresh (s : St) (e : Ev) : Prop :=
  ∀ p r i s', e = .rw p → s.procs p = .want r → alloc3Desc s = .ok (some i, s') →
    ∀ q r' j n, s.procs q = .check r' j n → j.a ≠ i.a

/-- Runs of a device that reports success and of submissions that are `Fresh`. -/
def Good (s : St) (e : Ev) : Prop := Success s e ∧ Fresh s e

structure Inv (s : St) : Prop where
  chain : ∀ p r i n, s.procs p = .wait r i n → Chain s r i ∧ s.tag i.a = n
  apart : ∀ p q r i n r' j m, p ≠ q → s.procs p = .wait r i n → s.procs q = .wait r' j m → i.Apart j
  doneZero : ∀ h, s.done h = true → s.status h = 0
  checkOwn : ∀ p r i n, s.procs p = .check r i n → s.status i.a = 0 ∧ s.tag i.a = n
  quiet : s.panic ≠ some .status

theorem init_inv : Inv init := ⟨by simp [init], by simp [init], by simp [init], by simp [init], by simp [init]⟩

/-- A step that leaves the chains and the processes alone, and only clears statuses. -/
theorem Inv.frame (hi : Inv s) (hc : s'.desc = s.desc ∧ s'.free = s.free)
    (hp : s'.procs = s.procs ∧ s'.tag = s.tag) (hz : ∀ h, s.status h = 0 → s'.status h = 0)
    (hd : ∀ h, s'.done h = true → s'.status h = 0) (hq : s'.panic ≠ some .status) : Inv s' := by
  obtain ⟨hdesc, hfree⟩ := hc
  obtain ⟨hprocs, htag⟩ := hp
  refine ⟨fun p r i n h => ?_, fun p q r i n r' j m hne h h' => ?_, hd, fun p r i n h => ?_, hq⟩
  · rw [hprocs] at h
    obtain ⟨c, ht⟩ := hi.chain p r i n h
    refine ⟨⟨c.lt, c.ne, ?_, ?_, ?_, ?_⟩, by rw [htag]; exact ht⟩
    · rw [hfree]; exact c.busy
    · rw [hdesc]; exact c.head
    · rw [hdesc]; exact c.data
    · rw [hdesc]; exact c.stat
  · rw [hprocs] at h h'
    exact hi.apart p q r i n r' j m hne h h'
  · rw [hprocs] at h
    obtain ⟨h0, ht⟩ := hi.checkOwn p r i n h
    exact ⟨hz _ h0, by rw [htag]; exact ht⟩

/-- A chain none of whose descriptors a step touches is still a chain. -/
theorem Chain.frame (c : Chain s r i)
    (h : ∀ j, j = i.a ∨ j = i.b ∨ j = i.c → s'.desc j = s.desc j ∧ s'.free j = s.free j) : Chain s' r i := by
  have ha := h i.a (Or.inl rfl)
  have hb := h i.b (Or.inr (Or.inl rfl))
  have hc := h i.c (Or.inr (Or.inr rfl))
  exact ⟨c.lt, c.ne, by rw [ha.2, hb.2, hc.2]; exact c.busy, by rw [ha.1]; exact c.head, by rw [hb.1]; exact c.data,
    by rw [hc.1]; exact c.stat⟩

/-! ## Each step -/

/-- Moving `p` to a state that waits for nothing and has nothing to check. -/
theorem Inv.setProc (hi : Inv s) (p : Nat) {x : PSt} (hw : ∀ r i n, x ≠ .wait r i n)
    (hc : ∀ r i n, x = .check r i n → s.status i.a = 0 ∧ s.tag i.a = n) : Inv (setProc s p x) := by
  refine ⟨fun q r i n h => ?_, fun q q' r i n r' j m hne h h' => ?_, hi.doneZero, fun q r i n h => ?_, hi.quiet⟩
  · by_cases hq : q = p
    · exact absurd (by simpa [Virtio.setProc, hq] using h) (hw r i n)
    · obtain ⟨c, ht⟩ := hi.chain q r i n (by simpa [Virtio.setProc, hq] using h)
      exact ⟨c.frame fun _ _ => ⟨rfl, rfl⟩, ht⟩
  · by_cases hq : q = p
    · exact absurd (by simpa [Virtio.setProc, hq] using h) (hw r i n)
    · by_cases hq' : q' = p
      · exact absurd (by simpa [Virtio.setProc, hq'] using h') (hw r' j m)
      · exact hi.apart q q' r i n r' j m hne (by simpa [Virtio.setProc, hq] using h)
          (by simpa [Virtio.setProc, hq'] using h')
  · by_cases hq : q = p
    · exact hc r i n (by simpa [Virtio.setProc, hq] using h)
    · exact hi.checkOwn q r i n (by simpa [Virtio.setProc, hq] using h)

theorem restored_inv (hi : Inv s) (h : Restored s s') : Inv s' := by
  have hp : s'.procs = s.procs := by rw [h.eq]
  have ht : s'.tag = s.tag := by rw [h.eq]
  refine ⟨fun p r i n hw => ?_, fun p q r i n r' j m hne hw hw' => ?_, by rw [h.eq]; exact hi.doneZero,
    by rw [h.eq]; exact hi.checkOwn, by rw [h.eq]; exact hi.quiet⟩
  · obtain ⟨c, hn⟩ := hi.chain p r i n (hp ▸ hw)
    refine ⟨c.frame fun j hj => ?_, ht ▸ hn⟩
    have hb : s.free j = false := by rcases hj with rfl | rfl | rfl; exacts [c.busy.1, c.busy.2.1, c.busy.2.2]
    rw [(h.busy j hb).1, (h.busy j hb).2, hb]
    exact ⟨rfl, rfl⟩
  · exact hi.apart p q r i n r' j m hne (hp ▸ hw) (hp ▸ hw')

variable {s₁ : St}

/-- The descriptors of a waiting process are none of those just taken. -/
theorem taken_apart {j : Idx} (t : Taken s s₁ i) (c : Chain s r j) : i.Apart j := by
  obtain ⟨fa, fb, fc⟩ := t.wasFree
  obtain ⟨ba, bb, bc⟩ := c.busy
  have ne : ∀ {x y}, s.free x = true → s.free y = false → x ≠ y := fun hx hy e => by rw [e, hy] at hx; cases hx
  exact ⟨ne fa ba, ne fa bb, ne fa bc, ne fb ba, ne fb bb, ne fb bc, ne fc ba, ne fc bb, ne fc bc⟩

theorem Idx.Apart.symm {j : Idx} (h : i.Apart j) : j.Apart i := by
  obtain ⟨h1, h2, h3, h4, h5, h6, h7, h8, h9⟩ := h
  exact ⟨h1.symm, h4.symm, h7.symm, h2.symm, h5.symm, h8.symm, h3.symm, h6.symm, h9.symm⟩

variable {p : Nat}

theorem submit_chain (t : Taken s s₁ i) : Chain (submit s₁ p r i) r i := by
  obtain ⟨hab, hac, hbc⟩ := t.ne
  refine ⟨t.lt, t.ne, ?_, ?_, ?_, ?_⟩ <;> simp [submit, Virtio.setProc, t.eq, hab, hac, hbc]

theorem submit_inv (hi : Inv s) (t : Taken s s₁ i)
    (hfresh : ∀ q r' j n, s.procs q = .check r' j n → j.a ≠ i.a) : Inv (submit s₁ p r i) := by
  -- every other waiting process keeps its chain: its descriptors were not free
  have others : ∀ q, q ≠ p → (submit s₁ p r i).procs q = s.procs q := fun q hq => by
    simp [submit, Virtio.setProc, t.eq, hq]
  have own : (submit s₁ p r i).procs p = .wait r i s.serial := by simp [submit, Virtio.setProc, t.eq]
  refine ⟨fun q r' j n h => ?_, fun q q' r1 j n r2 j' m hne h h' => ?_, fun h hd => ?_, fun q r' j n h => ?_, ?_⟩
  · by_cases hq : q = p
    · rw [hq, own] at h
      cases h
      exact ⟨submit_chain t, by simp [submit, Virtio.setProc, t.eq]⟩
    · obtain ⟨c, hn⟩ := hi.chain q r' j n (others q hq ▸ h)
      obtain ⟨n1, n2, n3, n4, n5, n6, n7, n8, n9⟩ := taken_apart t c
      refine ⟨c.frame fun k hk => ?_, by simp [submit, Virtio.setProc, t.eq, n1.symm, hn]⟩
      rcases hk with rfl | rfl | rfl
      · simp [submit, Virtio.setProc, t.eq, n1.symm, n4.symm, n7.symm]
      · simp [submit, Virtio.setProc, t.eq, n2.symm, n5.symm, n8.symm]
      · simp [submit, Virtio.setProc, t.eq, n3.symm, n6.symm, n9.symm]
  · by_cases hq : q = p
    · subst hq
      rw [own] at h
      cases h
      exact taken_apart t (hi.chain q' r2 j' m (others q' hne.symm ▸ h')).1
    · have hw := others q hq ▸ h
      by_cases hq' : q' = p
      · subst hq'
        rw [own] at h'
        cases h'
        exact (taken_apart t (hi.chain q r1 j n hw).1).symm
      · exact hi.apart q q' r1 j n r2 j' m hne hw (others q' hq' ▸ h')
  · by_cases hh : h = i.a
    · simp [submit, Virtio.setProc, t.eq, hh] at hd
    · simp only [submit, Virtio.setProc, t.eq, Function.update_of_ne hh] at hd ⊢
      exact hi.doneZero h hd
  · by_cases hq : q = p
    · rw [hq, own] at h
      cases h
    · have hc := others q hq ▸ h
      simp only [submit, Virtio.setProc, t.eq, Function.update_of_ne (hfresh q r' j n hc)]
      exact hi.checkOwn q r' j n hc
  · simpa [submit, Virtio.setProc, t.eq] using hi.quiet

/-- The interrupt handler: a slot it marks done has status 0. -/
theorem intrLoop_inv : ∀ (n : Nat) {s : St}, Inv s → Inv (intrLoop n s)
  | 0, _, hi => hi
  | n + 1, s, hi => by
    simp only [intrLoop]
    split
    · refine intrLoop_inv n ?_
      simp only [intrOne]
      split
      · exact hi.frame ⟨rfl, rfl⟩ ⟨rfl, rfl⟩ (fun _ h => h) hi.doneZero (by simp)
      · rename_i h0
        refine hi.frame ⟨rfl, rfl⟩ ⟨rfl, rfl⟩ (fun _ h => h) (fun h hd => ?_) hi.quiet
        by_cases hh : h = s.usedRing (s.seenIdx % NUM)
        · rw [hh]
          exact not_not.mp h0
        · exact hi.doneZero h (by simpa [hh] using hd)
    · exact hi

theorem finish_inv (hi : Inv s) (hp : s.procs p = .wait r i n)
    (hd : s.done i.a = true) (heq : s₁ = { s with desc := s₁.desc, free := s₁.free })
    (hf : ∀ j, j ≠ i.a → j ≠ i.b → j ≠ i.c → s₁.desc j = s.desc j ∧ s₁.free j = s.free j) :
    Inv (setProc s₁ p (.check r i n)) := by
  have hprocs : ∀ q, q ≠ p → (setProc s₁ p (.check r i n)).procs q = s.procs q := fun q hq => by
    rw [heq]; simp [Virtio.setProc, hq]
  have own : (setProc s₁ p (.check r i n)).procs p = .check r i n := by simp [Virtio.setProc]
  have waits : ∀ {q r' j m}, (setProc s₁ p (.check r i n)).procs q = .wait r' j m → q ≠ p ∧
      s.procs q = .wait r' j m := by
    intro q r' j m h
    have hq : q ≠ p := fun e => by rw [e, own] at h; cases h
    exact ⟨hq, hprocs q hq ▸ h⟩
  have htag : (setProc s₁ p (.check r i n)).tag = s.tag := by rw [heq]; rfl
  have hst : (setProc s₁ p (.check r i n)).status = s.status := by rw [heq]; rfl
  refine ⟨fun q r' j m h => ?_, fun q q' r1 j m r2 j' m' hne h h' => ?_, ?_, fun q r' j m h => ?_, ?_⟩
  · obtain ⟨hq, hw⟩ := waits h
    obtain ⟨c, ht⟩ := hi.chain q r' j m hw
    obtain ⟨n1, n2, n3, n4, n5, n6, n7, n8, n9⟩ := hi.apart q p r' j m r i n hq hw hp
    refine ⟨c.frame fun k hk => hf k ?_ ?_ ?_, by rw [htag]; exact ht⟩ <;> rcases hk with rfl | rfl | rfl <;> assumption
  · exact hi.apart q q' r1 j m r2 j' m' hne (waits h).2 (waits h').2
  · rw [hst, heq]
    exact hi.doneZero
  · rw [hst, htag]
    by_cases hq : q = p
    · rw [hq, own] at h
      cases h
      exact ⟨hi.doneZero _ hd, (hi.chain p r i n hp).2⟩
    · exact hi.checkOwn q r' j m (hprocs q hq ▸ h)
  · rw [heq]
    exact hi.quiet

variable {e : Ev}

theorem step_inv (hi : Inv s) (hg : Good s e) (h : step s e = some s') : Inv s' := by
  cases e with
  | call p r =>
    simp only [step] at h
    split at h <;> cases h
    exact hi.setProc p (by simp) (by simp)
  | rw p =>
    simp only [step] at h
    split at h
    · rename_i r hp
      rcases alloc3Desc_cases s with ⟨s₁, ha, hr⟩ | ⟨i, s₁, ha, ht⟩ <;> rw [ha] at h <;> cases h
      · exact restored_inv hi hr
      · exact submit_inv hi ht fun q r' j n hq => hg.2 p r i s₁ rfl hp ha q r' j n hq
    · rename_i r i n hp
      split at h
      · rename_i hd
        obtain ⟨s₁, hfc, heq, hf⟩ := freeChain_chain (hi.chain p r i n hp).1
        rw [hfc] at h
        cases h
        exact finish_inv hi hp hd heq hf
      · cases h
        exact hi
    · cases h
  | check p =>
    simp only [step] at h
    split at h
    · rename_i r i n hp
      -- the slot is still the caller's own: its status is 0
      rw [if_neg (by simp [(hi.checkOwn p r i n hp).1])] at h
      cases h
      exact hi.setProc p (by simp) (by simp)
    · cases h
  | intr =>
    cases h
    exact intrLoop_inv _ hi
  | consume =>
    simp only [step] at h
    split at h <;> cases h
    exact hi.frame ⟨rfl, rfl⟩ ⟨rfl, rfl⟩ (fun _ h => h) hi.doneZero hi.quiet
  | complete k v =>
    obtain rfl := hg.1 k v rfl
    simp only [step] at h
    split at h <;> cases h
    cases (s.desc (s.desc (s.desc k).next).next).addr with
    | status x =>
      have hz : ∀ y, s.status y = 0 → Function.update s.status x 0 y = 0 := fun y hy => by
        by_cases hyx : y = x <;> simp [hyx, hy]
      exact hi.frame ⟨rfl, rfl⟩ ⟨rfl, rfl⟩ hz (fun y hy => hz y (hi.doneZero y hy)) hi.quiet
    | null | op x | buf x => exact hi.frame ⟨rfl, rfl⟩ ⟨rfl, rfl⟩ (fun _ h => h) hi.doneZero hi.quiet

theorem inv (h : Reach Good s) : Inv s := by
  induction h with
  | init => exact init_inv
  | step e _ _ hg hs ih => exact step_inv ih hg hs

/-! ## The status check -/

/-- A submission over a slot still to be looked at: that caller's check panics next. -/
theorem check_panics (hs : step s e = some s') (hf : ¬ Fresh s e) :
    s'.panic = s.panic ∧ ∃ q s'', step s' (.check q) = some s'' ∧ s''.panic = some .status := by
  simp only [Fresh, not_forall, not_not] at hf
  obtain ⟨p, r, i, s₁, rfl, hp, ha, q, r', j, n, hq, hj⟩ := hf
  obtain ⟨s₂, hb, _⟩ | ⟨i', s₂, hb, ht⟩ := alloc3Desc_cases s <;> rw [ha] at hb <;> cases hb
  simp only [step, hp, ha, Option.some.injEq] at hs
  have hqp : q ≠ p := fun e => by rw [e, hp] at hq; cases hq
  have hq' : s'.procs q = .check r' j n := by rw [← hs]; simp [submit, setProc, ht.eq, hqp, hq]
  have hst : s'.status j.a = 0xff := by rw [← hs]; simp [submit, setProc, hj]
  refine ⟨by rw [← hs]; simp [submit, setProc, ht.eq], q, { s' with panic := some .status }, ?_, rfl⟩
  simp only [step, hq', hst]
  rfl

/-- As long as no submission takes a slot its last caller has still to look at, the check
    never panics and what it looks at is the status of the caller's own request; after a
    submission that does, a check panics. -/
theorem status_own_iff_fresh {s : St} (h : Reach Good s) :
    (s.panic ≠ some .status ∧ ∀ p r i n, s.procs p = .check r i n → s.tag i.a = n ∧ s.status i.a = 0) ∧
    ∀ e s', s.panic = none → Success s e → step s e = some s' → ¬ Fresh s e →
      s'.panic = none ∧ ∃ q s'', step s' (.check q) = some s'' ∧ s''.panic = some .status := by
  refine ⟨⟨(inv h).quiet, fun p r i n hp => ((inv h).checkOwn p r i n hp).symm⟩, ?_⟩
  intro e s' hn _ hs hf
  obtain ⟨hpan, hq⟩ := check_panics hs hf
  exact ⟨hpan.trans hn, hq⟩

def run : St → List Ev → Option St
  | s, [] => some s
  | s, e :: es => if s.panic = none then (step s e).bind (run · es) else none

theorem run_reach {P : St → Ev → Prop} {es : List Ev} : ∀ {s s' : St}, Reach P s → (∀ s, ∀ e ∈ es, P s e) →
    run s es = some s' → Reach P s' := by
  induction es with
  | nil => intro s s' h _ hr; cases hr; exact h
  | cons e es ih =>
    intro s s' h hP hr
    simp only [run] at hr
    split at hr
    · rename_i hn
      obtain ⟨s₁, hs, hr⟩ := Option.bind_eq_some_iff.mp hr
      exact ih (.step e h hn (hP s e (by simp)) hs) (fun s e he => hP s e (by simp [he])) hr
    · cases hr

theorem Fresh.of_not_rw (h : ∀ p r, e = .rw p → s.procs p ≠ .want r) : Fresh s e :=
  fun p r _ _ he hp => absurd hp (h p r he)

/-- Process 0's read is submitted and completed, and process 0 has come back from its sleep. -/
theorem readCompletes : ((step (setProc init 0 (.want ⟨46, 0, false⟩)) (.rw 0)).bind fun s₂ =>
    (run s₂ [.consume, .complete 0 0, .intr]).bind fun s₅ => (step s₅ (.rw 0)).map fun s =>
      (s₅.procs 0, s₅.panic, s.procs 0, s.panic)) =
      some (.wait ⟨46, 0, false⟩ ⟨0, 1, 2⟩ 0, none, .check ⟨46, 0, false⟩ ⟨0, 1, 2⟩ 0, none) := by decide +kernel

/-- What its check then finds is the status of that read, and the check passes. -/
theorem status_own_iff_fresh_checked : ∃ s, Reach Good s ∧ s.procs 0 = .check ⟨46, 0, false⟩ ⟨0, 1, 2⟩ 0 ∧ s.tag 0 = 0 ∧
    ∃ s', step s (.check 0) = some s' ∧ s'.panic = none := by
  obtain ⟨s₂, hs2, h⟩ := Option.bind_eq_some_iff.mp readCompletes
  obtain ⟨s₅, hs5, h⟩ := Option.bind_eq_some_iff.mp h
  obtain ⟨s, hs, h⟩ := Option.map_eq_some_iff.mp h
  simp only [Prod.mk.injEq] at h
  obtain ⟨hwait, hpan5, hcheck, hpan⟩ := h
  have h₁ : Reach Good (setProc init 0 (.want ⟨46, 0, false⟩)) :=
    .step (.call 0 ⟨46, 0, false⟩) .init rfl ⟨nofun, nofun⟩ rfl
  have hfresh : Fresh (setProc init 0 (.want ⟨46, 0, false⟩)) (.rw 0) := by
    intro p r i s' _ _ _ q r' j n hq
    by_cases e : q = 0
    · subst e
      cases hq
    · have hq : Function.update init.procs 0 _ q = _ := hq
      rw [Function.update_of_ne e] at hq
      cases hq
  have h₂ : Reach Good s₂ := .step (.rw 0) h₁ rfl ⟨nofun, hfresh⟩ hs2
  have h₅ : Reach Good s₅ := run_reach h₂ (fun s e he => ⟨fun k v hk => ?_, .of_not_rw fun p r hk => ?_⟩) hs5
  · have h₆ : Reach Good s := .step (.rw 0) h₅ hpan5 ⟨nofun, .of_not_rw fun p r hk => by cases hk; rw [hwait]; simp⟩ hs
    obtain ⟨htag, hst⟩ := (status_own_iff_fresh h₆).1.2 0 _ _ _ hcheck
    refine ⟨s, h₆, hcheck, htag, setProc s 0 .idle, ?_, hpan⟩
    have hst : s.status 0 = 0 := hst
    simp only [step, hcheck, hst]
    rfl
  · simp [hk] at he
    exact he.2
  · simp [hk] at he

/-- Process 0's read has completed with status 0 and process 0 is preempted before its check;
    process 1 submits a write of its own. -/
def reuse : List Ev :=
  [.call 0 ⟨46, 0, false⟩, .rw 0, .consume, .complete 0 0, .intr, .rw 0, .call 1 ⟨47, 1, true⟩, .rw 1, .check 0]

/-- Two processes, and a device that reports success for every request: process 0 panics. -/
theorem a_reused_slot_panics : ¬ ∀ s, Reach Success s → s.panic ≠ some .status := by
  intro h
  have hrun : (run init reuse).map St.panic = some (some .status) := by decide +kernel
  obtain ⟨s, hs, hp⟩ := Option.map_eq_some_iff.mp hrun
  exact h s (run_reach .init (fun s e he k v hk => by simp [reuse, hk] at he; exact he.2) hs) hp

end Xv6.Disk.Virtio
