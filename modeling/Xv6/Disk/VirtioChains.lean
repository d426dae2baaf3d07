/-
  Xv6.Disk.VirtioChains — the descriptor protocol of the QEMU virtio driver (see
  `Xv6.Disk.Virtio` for the model), for any number of callers, any order of completions
  and any status bytes.

  A submitted chain is in one of four places: in the avail ring, with the device
  (`inflight`), in the used ring, or marked done by the interrupt handler. `Proto` says
  which chain is where, that the descriptors in use are those of the callers that wait,
  three each, and that the two rings, whose indices wrap at 2^16, hold what was put in.

  `Hist` records, by the number of the submission, what the device has completed and which
  callers have left their wait loop. No code reads it.

  Proved: `proto` along every run, and from it `descriptor_protocol`.
-/
import Xv6.Disk.VirtioStatus
import Xv6.Lib.Ring
import Mathlib

namespace Xv6.Disk.Virtio

structure Hist where
  completed : List Nat
  released : List Nat

def Hist.note (g : Hist) (s : St) (e : Ev) (s' : St) : Hist :=
  match e with
  | .complete h _ => { g with completed := g.completed ++ [s.tag h] }
  | .rw p =>
    match s.procs p, s'.procs p with
    | .wait _ _ n, .check _ _ _ => { g with released := g.released ++ [n] }
    | _, _ => g
  | _ => g

inductive Runs : St → Hist → Prop
  | init : Runs init ⟨[], []⟩
  | step {s s' : St} {g : Hist} (e : Ev) : Runs s g → s.panic = none → step s e = some s' → Runs s' (g.note s e s')

def Req.op (r : Req) : Op := ⟨r.write, r.blockno * (BSIZE / 512)⟩

def Idx.Has (i : Idx) (j : Nat) : Prop := j = i.a ∨ j = i.b ∨ j = i.c

/-! ## The invariant -/

/-- Where the heads are: `q` in the avail ring, `u` in the used ring. -/
structure Places (s : St) (g : Hist) (q u : List Nat) : Prop where
  nodup : (q ++ (s.inflight ++ u)).Nodup
  heads : ∀ h ∈ q ++ (s.inflight ++ u), ∃ p r i n, s.procs p = .wait r i n ∧ i.a = h
  todo : ∀ p r i n, s.procs p = .wait r i n → (s.done i.a = false ↔ i.a ∈ q ++ (s.inflight ++ u))
  completed : ∀ p r i n, s.procs p = .wait r i n → (n ∈ g.completed ↔ i.a ∉ q ∧ i.a ∉ s.inflight)

structure Ledger (s : St) (g : Hist) : Prop where
  completed : g.completed.Nodup
  released : g.released.Nodup
  after : ∀ n ∈ g.released, n ∈ g.completed
  past : ∀ n ∈ g.completed, n < s.serial
  owner : ∀ n ∈ g.completed, n ∉ g.released → ∃ p r i, s.procs p = .wait r i n
  waiting : ∀ p r i n, s.procs p = .wait r i n → n ∉ g.released

structure Proto (s : St) (g : Hist) : Prop where
  chain : ∀ p r i n, s.procs p = .wait r i n → Chain s r i ∧ s.ops i.a = r.op ∧ s.tag i.a = n ∧ n < s.serial
  apart : ∀ p q r i n r' j m, p ≠ q → s.procs p = .wait r i n → s.procs q = .wait r' j m → i.Apart j ∧ n ≠ m
  cover : ∀ j, j < NUM → s.free j = false → ∃ p r i n, s.procs p = .wait r i n ∧ i.Has j
  queues : ∃ q u, Ring NUM (2 ^ 16) s.availRing s.devIdx s.availIdx q ∧
    Ring NUM (2 ^ 16) s.usedRing s.seenIdx s.usedIdx u ∧ Places s g q u
  ledger : Ledger s g
  calm : s.panic ≠ some .freeDesc1 ∧ s.panic ≠ some .freeDesc2

theorem init_proto : Proto init ⟨[], []⟩ := by
  refine ⟨by simp [init], by simp [init], fun j hj h => ?_, ⟨[], [], Ring.init (by simp), Ring.init (by simp), ?_⟩,
    ?_, by simp [init]⟩
  · simp [init, hj] at h
  · exact ⟨by simp [init], by simp [init], by simp [init], by simp [init]⟩
  · exact ⟨by simp, by simp, by simp, by simp, by simp, by simp [init]⟩

variable {s s' : St} {g : Hist} {p : Nat} {q u : List Nat} {s1 : St} {i : Idx}

/-- The wrap of the ring indices. -/
theorem num_dvd : NUM ∣ 2 ^ 16 := ⟨2 ^ 13, rfl⟩

theorem num_lt : NUM < 2 ^ 16 := by decide

/-- Distinct descriptors are at most NUM. -/
theorem nodup_num {l : List Nat} (h : l.Nodup) (hl : ∀ x ∈ l, x < NUM) : l.length ≤ NUM := by
  have hsub : l ⊆ List.range NUM := fun x hx => List.mem_range.mpr (hl x hx)
  have := (h.subperm hsub).length_le
  rwa [List.length_range] at this

theorem Places.lt (hp : Proto s g) (h : Places s g q u) : ∀ x ∈ q ++ (s.inflight ++ u), x < NUM := by
  intro x hx
  obtain ⟨p, r, i, n, hw, rfl⟩ := h.heads x hx
  exact (hp.chain p r i n hw).1.lt.1

/-- A step that leaves the descriptors and the callers alone. -/
theorem Proto.frame {g' : Hist} (h : Proto s g) (hd : s'.desc = s.desc) (hf : s'.free = s.free) (ho : s'.ops = s.ops)
    (hp : s'.procs = s.procs) (ht : s'.tag = s.tag) (hs : s'.serial = s.serial)
    (hq : ∃ q u, Ring NUM (2 ^ 16) s'.availRing s'.devIdx s'.availIdx q ∧
      Ring NUM (2 ^ 16) s'.usedRing s'.seenIdx s'.usedIdx u ∧ Places s' g' q u)
    (hl : Ledger s' g') (hc : s'.panic ≠ some .freeDesc1 ∧ s'.panic ≠ some .freeDesc2) : Proto s' g' := by
  refine ⟨fun p r i n hw => ?_, ?_, ?_, hq, hl, hc⟩
  · rw [hp] at hw
    obtain ⟨c, h2, h3, h4⟩ := h.chain p r i n hw
    exact ⟨c.frame fun j _ =>
      ⟨by rw [hd], by rw [hf]⟩, by rw [ho]; exact h2, by rw [ht]; exact h3, by rw [hs]; exact h4⟩
  · rw [hp]; exact h.apart
  · rw [hp, hf]; exact h.cover

theorem Ledger.same (h : Ledger s g) (hp : s'.procs = s.procs) (hs : s'.serial = s.serial) : Ledger s' g :=
  ⟨h.completed, h.released, h.after, by rw [hs]; exact h.past, by rw [hp]; exact h.owner, by rw [hp]; exact h.waiting⟩

theorem Places.same (h : Places s g q u) (hp : s'.procs = s.procs) (hd : s'.done = s.done)
    (hi : s'.inflight = s.inflight) : Places s' g q u := by
  refine ⟨by rw [hi]; exact h.nodup, by rw [hi, hp]; exact h.heads, by rw [hi, hp, hd]; exact h.todo, ?_⟩
  rw [hi, hp]; exact h.completed

/-! ## The device -/

theorem consume_proto (h : Proto s g) (hs : step s .consume = some s') : Proto s' g := by
  simp only [step] at hs
  split at hs <;> cases hs
  rename_i hne
  obtain ⟨q, u, hq, hu, hpl⟩ := h.queues
  cases q with
  | nil => exact absurd ((hq.empty_iff num_lt).mpr rfl) hne
  | cons x q =>
    obtain ⟨hx, hq'⟩ := hq.pop num_dvd
    have hperm : ((x :: q) ++ (s.inflight ++ u)).Perm (q ++ ((s.inflight ++ [x]) ++ u)) := by
      have : (x :: ((q ++ s.inflight) ++ u)).Perm ((q ++ s.inflight) ++ x :: u) := List.perm_middle.symm
      simpa only [List.append_assoc, List.cons_append, List.nil_append] using this
    refine h.frame rfl rfl rfl rfl rfl rfl ⟨q, u, hq', hu, ?_⟩ (h.ledger.same rfl rfl) h.calm
    rw [hx]
    refine ⟨hperm.nodup_iff.mp hpl.nodup, fun y hy => hpl.heads y (hperm.mem_iff.mpr hy), fun p r i n hw => ?_,
      fun p r i n hw => ?_⟩
    · exact (hpl.todo p r i n hw).trans hperm.mem_iff
    · rw [hpl.completed p r i n hw]
      simp only [List.mem_cons, List.mem_append, List.not_mem_nil, or_false, not_or]
      tauto

/-- The device completes the chain at head `k`, whatever the status. -/
theorem complete_proto {k v : Nat} (h : Proto s g) (hs : step s (.complete k v) = some s') :
    Proto s' (g.note s (.complete k v) s') := by
  simp only [step] at hs
  split at hs <;> cases hs
  rename_i hk
  generalize hst : devStore s (s.desc (s.desc (s.desc k).next).next).addr v = s1
  have hs1 : s1 = { s with status := s1.status } := by
    rw [← hst]
    unfold devStore
    split <;> rfl
  obtain ⟨q, u, hq, hu, hpl⟩ := h.queues
  have hmem : k ∈ q ++ (s.inflight ++ u) := by simp [hk]
  obtain ⟨p0, r0, i0, n0, hw0, hik⟩ := hpl.heads k hmem
  have hperm : (q ++ (s.inflight ++ u)).Perm (q ++ (s.inflight.erase k ++ (u ++ [k]))) := by
    refine List.Perm.append_left q ?_
    have h1 := (List.perm_cons_erase hk).append_right u
    refine h1.trans ?_
    rw [List.cons_append]
    have h2 := (List.perm_append_singleton k (s.inflight.erase k ++ u)).symm
    rwa [List.append_assoc] at h2
  have htag : s.tag k = n0 := by rw [← hik]; exact (h.chain p0 r0 i0 n0 hw0).2.2.1
  have hnew : n0 ∉ g.completed := fun hc => ((hpl.completed p0 r0 i0 n0 hw0).mp hc).2 (by rw [hik]; exact hk)
  -- any other caller's chain is another one
  have other : ∀ p r i n, s.procs p = .wait r i n → n ≠ n0 → i.a ≠ k := fun p r i n hw hn e => by
    have hpp : p ≠ p0 := fun e' => by
      rw [e', hw0] at hw
      cases hw
      exact hn rfl
    exact (h.apart p p0 r i n r0 i0 n0 hpp hw hw0).1.1 (by rw [e, hik])
  have hulen : u.length < NUM := by
    have h1 := nodup_num (hperm.nodup_iff.mp hpl.nodup) fun x hx => hpl.lt h x (hperm.mem_iff.mpr hx)
    simp only [List.length_append, List.length_cons, List.length_nil] at h1
    omega
  obtain ⟨-, hnd, hapart⟩ := List.nodup_append.mp hpl.nodup
  have hkq : k ∉ q := fun hc => hapart k hc k (List.mem_append_left u hk) rfl
  have hke : k ∉ s.inflight.erase k := hnd.of_append_left.not_mem_erase
  rw [hs1]
  refine h.frame rfl rfl rfl rfl rfl rfl ⟨q, u ++ [k], hq, ?_, ?_⟩ ?_ h.calm
  · exact hu.push num_dvd hulen (by simp) fun j hj => by simp [hj]
  · refine ⟨hperm.nodup_iff.mp hpl.nodup, fun y hy => hpl.heads y (hperm.mem_iff.mpr hy), fun p r i n hw => ?_,
      fun p r i n hw => ?_⟩
    · exact (hpl.todo p r i n hw).trans hperm.mem_iff
    · simp only [Hist.note, htag, List.mem_append, List.mem_singleton]
      by_cases hn : n = n0
      · subst hn
        have hik' : i.a = k := by
          by_contra hne
          have hpp : p ≠ p0 := fun e' => hne (by rw [e', hw0] at hw; cases hw; exact hik)
          exact (h.apart p p0 r i n r0 i0 n hpp hw hw0).2 rfl
        rw [hik']
        simp only [or_true, true_iff]
        exact ⟨hkq, hke⟩
      · rw [List.mem_erase_of_ne (other p r i n hw hn), ← hpl.completed p r i n hw]
        simp [hn]
  · refine ⟨?_, h.ledger.released, fun n hn => List.mem_append_left _ (h.ledger.after n hn), fun n hn => ?_,
      fun n hn hr => ?_, h.ledger.waiting⟩
    · simp only [Hist.note, htag]
      exact List.nodup_append.mpr ⟨h.ledger.completed, List.nodup_singleton _, fun a ha b hb e => hnew (by
        rw [← List.mem_singleton.mp hb, ← e]; exact ha)⟩
    · simp only [Hist.note, htag, List.mem_append, List.mem_singleton] at hn
      rcases hn with hn | rfl
      · exact h.ledger.past n hn
      · exact (h.chain p0 r0 i0 n hw0).2.2.2
    · simp only [Hist.note, htag, List.mem_append, List.mem_singleton] at hn
      rcases hn with hn | rfl
      · exact h.ledger.owner n hn hr
      · exact ⟨p0, r0, i0, hw0⟩

/-! ## The interrupt handler -/

theorem intrOne_proto (h : Proto s g) (hne : s.seenIdx ≠ s.usedIdx) : Proto (intrOne s) g := by
  simp only [intrOne]
  split
  · exact h.frame rfl rfl rfl rfl rfl rfl (by
      obtain ⟨q, u, hq, hu, hpl⟩ := h.queues
      exact ⟨q, u, hq, hu, hpl.same rfl rfl rfl⟩) (h.ledger.same rfl rfl) (by simp)
  · obtain ⟨q, u, hq, hu, hpl⟩ := h.queues
    cases u with
    | nil => exact absurd ((hu.empty_iff num_lt).mpr rfl) hne
    | cons x u =>
      obtain ⟨hx, hu'⟩ := hu.pop num_dvd
      have hperm : (q ++ (s.inflight ++ x :: u)).Perm (x :: (q ++ (s.inflight ++ u))) := by
        have : ((q ++ s.inflight) ++ x :: u).Perm (x :: ((q ++ s.inflight) ++ u)) := List.perm_middle
        simpa only [List.append_assoc] using this
      have hnd := List.nodup_cons.mp (hperm.nodup_iff.mp hpl.nodup)
      refine h.frame rfl rfl rfl rfl rfl rfl ⟨q, u, hq, hu', ?_⟩ (h.ledger.same rfl rfl) h.calm
      rw [hx]
      refine ⟨hnd.2, fun y hy => hpl.heads y (hperm.mem_iff.mpr (List.mem_cons_of_mem _ hy)), fun p r i n hw => ?_,
        fun p r i n hw => hpl.completed p r i n hw⟩
      by_cases hix : i.a = x
      · rw [hix]
        simp only [Function.update_self, Bool.true_eq_false, false_iff]
        exact hnd.1
      · simp only [Function.update_of_ne hix]
        rw [hpl.todo p r i n hw, hperm.mem_iff, List.mem_cons]
        exact or_iff_right hix

theorem intrLoop_proto : ∀ (n : Nat) {s : St}, Proto s g → Proto (intrLoop n s) g
  | 0, _, h => h
  | n + 1, s, h => by
    simp only [intrLoop]
    split
    · rename_i hne
      exact intrLoop_proto n (intrOne_proto h hne.1)
    · exact h

/-! ## The callers -/

/-- A process that waits for nothing goes to a place where it waits for nothing. -/
theorem Proto.setProc {x : PSt} (h : Proto s g) (hp : ∀ r i n, s.procs p ≠ .wait r i n)
    (hx : ∀ r i n, x ≠ .wait r i n) : Proto (setProc s p x) g := by
  have iff : ∀ q r i n, (Virtio.setProc s p x).procs q = .wait r i n ↔ s.procs q = .wait r i n := fun q r i n => by
    by_cases hq : q = p
    · subst hq
      simp only [Virtio.setProc, Function.update_self]
      exact ⟨fun e => absurd e (hx r i n), fun e => absurd e (hp r i n)⟩
    · simp only [Virtio.setProc, Function.update_of_ne hq]
  obtain ⟨q, u, hq, hu, hpl⟩ := h.queues
  refine ⟨fun q r i n hw => ?_, fun q q' r i n r' j m hne hw hw' => ?_, fun j hj hf => ?_,
    ⟨q, u, hq, hu, ?_⟩, ?_, h.calm⟩
  · obtain ⟨c, h2⟩ := h.chain q r i n ((iff q r i n).mp hw)
    exact ⟨c.frame fun _ _ => ⟨rfl, rfl⟩, h2⟩
  · exact h.apart q q' r i n r' j m hne ((iff _ _ _ _).mp hw) ((iff _ _ _ _).mp hw')
  · obtain ⟨q, r, i, n, hw, hi⟩ := h.cover j hj hf
    exact ⟨q, r, i, n, (iff q r i n).mpr hw, hi⟩
  · refine ⟨hpl.nodup, fun y hy => ?_, fun q r i n hw => hpl.todo q r i n ((iff q r i n).mp hw),
      fun q r i n hw => hpl.completed q r i n ((iff q r i n).mp hw)⟩
    obtain ⟨q, r, i, n, hw, hi⟩ := hpl.heads y hy
    exact ⟨q, r, i, n, (iff q r i n).mpr hw, hi⟩
  · refine ⟨h.ledger.completed, h.ledger.released, h.ledger.after, h.ledger.past, fun n hn hr => ?_,
      fun q r i n hw => h.ledger.waiting q r i n ((iff q r i n).mp hw)⟩
    obtain ⟨q, r, i, hw⟩ := h.ledger.owner n hn hr
    exact ⟨q, r, i, (iff q r i n).mpr hw⟩

/-- Three descriptors could not be had: those taken are back. -/
theorem restored_proto (h : Proto s g) (hr : Restored s s') : Proto s' g := by
  have hp : s'.procs = s.procs := by rw [hr.eq]
  have hfree : s'.free = s.free := funext hr.same
  obtain ⟨q, u, hq, hu, hpl⟩ := h.queues
  refine ⟨fun p r i n hw => ?_, by rw [hp]; exact h.apart, by rw [hp, hfree]; exact h.cover, ⟨q, u, ?_, ?_, ?_⟩,
    h.ledger.same hp (by rw [hr.eq]), by rw [hr.eq]; exact h.calm⟩
  · rw [hp] at hw
    obtain ⟨c, h2, h3, h4⟩ := h.chain p r i n hw
    refine ⟨c.frame fun j hj =>
      ⟨?_, hr.same j⟩, by rw [hr.eq]; exact h2, by rw [hr.eq]; exact h3, by rw [hr.eq]; exact h4⟩
    refine (hr.busy j ?_).1
    rcases hj with rfl | rfl | rfl
    · exact c.busy.1
    · exact c.busy.2.1
    · exact c.busy.2.2
  · rw [hr.eq]; exact hq
  · rw [hr.eq]; exact hu
  · exact hpl.same hp (by rw [hr.eq]) (by rw [hr.eq])

theorem perm_middle (q v : List Nat) (x : Nat) : (q ++ v ++ [x]).Perm (q ++ [x] ++ v) := by
  rw [List.append_assoc q, List.append_assoc q]
  exact List.perm_append_comm.append_left q

/-- A descriptor just taken is the head of no chain. -/
theorem Places.fresh (hpl : Places s g q u) (h : Proto s g) (t : Taken s s1 i) :
    (q ++ [i.a] ++ (s.inflight ++ u)).Nodup := by
  refine (perm_middle _ _ _).nodup_iff.mp
    (List.nodup_append.mpr ⟨hpl.nodup, List.nodup_singleton _, fun a ha b hb e => ?_⟩)
  obtain ⟨x, r, j, n, hw, hj⟩ := hpl.heads a ha
  rw [List.mem_singleton] at hb
  exact (taken_apart t (h.chain x r j n hw).1).1 (by rw [hj, e, hb])

/-- Three descriptors can be had only while the avail ring is not full. -/
theorem Places.room (hpl : Places s g q u) (h : Proto s g) (t : Taken s s1 i) : q.length < NUM := by
  have hlen := nodup_num (hpl.fresh h t) fun x hx => by
    rw [← (perm_middle _ _ _).mem_iff, List.mem_append, List.mem_singleton] at hx
    rcases hx with hx | rfl
    · exact hpl.lt h x hx
    · exact t.lt.1
  simp only [List.length_append, List.length_cons, List.length_nil] at hlen
  omega

theorem submit_proto {r : Req} (h : Proto s g) (hp : ∀ r' j n, s.procs p ≠ .wait r' j n)
    (t : Taken s s1 i) : Proto (submit s1 p r i) g := by
  obtain ⟨q, u, hq, hu, hpl⟩ := h.queues
  have others : ∀ x, x ≠ p → (submit s1 p r i).procs x = s.procs x := fun x hx => by
    simp [submit, Virtio.setProc, t.eq, hx]
  have own : (submit s1 p r i).procs p = .wait r i s.serial := by simp [submit, Virtio.setProc, t.eq]
  -- a caller that waits now is `p`, or waited before with other descriptors
  have waits : ∀ {x r' j n}, (submit s1 p r i).procs x = .wait r' j n →
      (x = p ∧ r' = r ∧ j = i ∧ n = s.serial) ∨ (x ≠ p ∧ s.procs x = .wait r' j n ∧ i.Apart j) := by
    intro x r' j n hw
    by_cases hx : x = p
    · rw [hx, own] at hw
      cases hw
      exact Or.inl ⟨hx, rfl, rfl, rfl⟩
    · have hw' := others x hx ▸ hw
      exact Or.inr ⟨hx, hw', taken_apart t (h.chain x r' j n hw').1⟩
  have old : ∀ {x r' j n}, s.procs x = .wait r' j n → (submit s1 p r i).procs x = .wait r' j n :=
      fun {x r' j n} hw => by
    rw [others x fun e => hp r' j n (e ▸ hw)]; exact hw
  have hqlen : q.length < NUM := hpl.room h t
  have hnd := hpl.fresh h t
  have hmem : ∀ y, y ∈ q ++ [i.a] ++ (s.inflight ++ u) ↔ y ∈ q ++ (s.inflight ++ u) ∨ y = i.a := fun y => by
    rw [← (perm_middle _ _ _).mem_iff, List.mem_append, List.mem_singleton]
  have hdev : (submit s1 p r i).inflight = s.inflight := by simp [submit, Virtio.setProc, t.eq]
  refine ⟨fun x r' j n hw => ?_, fun x y r1 j n r2 j' m hne hw hw' => ?_, fun j hj hf => ?_,
    ⟨q ++ [i.a], u, ?_, ?_, ?_⟩, ?_, ?_⟩
  · rcases waits hw with ⟨rfl, rfl, rfl, rfl⟩ | ⟨hx, hw', n1, n2, n3, n4, n5, n6, n7, n8, n9⟩
    · exact ⟨submit_chain t, by simp [submit, Virtio.setProc, t.eq, Req.op], by simp [submit, Virtio.setProc, t.eq],
        by simp [submit, Virtio.setProc, t.eq]⟩
    · obtain ⟨c, h2, h3, h4⟩ := h.chain x r' j n hw'
      refine ⟨c.frame fun k hk => ?_, ?_, ?_, ?_⟩
      · rcases hk with rfl | rfl | rfl
        · simp [submit, Virtio.setProc, t.eq, n1.symm, n4.symm, n7.symm]
        · simp [submit, Virtio.setProc, t.eq, n2.symm, n5.symm, n8.symm]
        · simp [submit, Virtio.setProc, t.eq, n3.symm, n6.symm, n9.symm]
      · simpa [submit, Virtio.setProc, t.eq, n1.symm] using h2
      · simpa [submit, Virtio.setProc, t.eq, n1.symm] using h3
      · simp only [submit, Virtio.setProc, t.eq]
        omega
  · rcases waits hw with ⟨rfl, rfl, rfl, rfl⟩ | ⟨hx, hw1, ha⟩ <;> rcases waits hw' with ⟨rfl, rfl, rfl,
      rfl⟩ | ⟨hy, hw2, ha'⟩
    · exact absurd rfl hne
    · have := (h.chain y r2 j' m hw2).2.2.2
      exact ⟨ha', by omega⟩
    · have := (h.chain x r1 j n hw1).2.2.2
      exact ⟨ha.symm, by omega⟩
    · exact h.apart x y r1 j n r2 j' m hne hw1 hw2
  · by_cases hji : i.Has j
    · exact ⟨p, r, i, s.serial, own, hji⟩
    · simp only [Idx.Has, not_or] at hji
      have hf' : s.free j = false := by simpa [submit, Virtio.setProc, t.eq, hji.1, hji.2.1, hji.2.2] using hf
      obtain ⟨x, r', i', n, hw, hi'⟩ := h.cover j hj hf'
      exact ⟨x, r', i', n, old hw, hi'⟩
  · have hslot : (submit s1 p r i).availRing (s.availIdx % NUM) = i.a := by simp [submit, Virtio.setProc, t.eq]
    have := hq.push num_dvd hqlen hslot fun j hj => by simp [submit, Virtio.setProc, t.eq, hj]
    simpa [submit, Virtio.setProc, t.eq] using this
  · simpa [submit, Virtio.setProc, t.eq] using hu
  · refine ⟨by rw [hdev]; exact hnd, fun y hy => ?_, fun x r' j n hw => ?_, fun x r' j n hw => ?_⟩
    · rw [hdev] at hy
      rcases (hmem y).mp hy with hy | rfl
      · obtain ⟨x, r', j, n, hw, hj⟩ := hpl.heads y hy
        exact ⟨x, r', j, n, old hw, hj⟩
      · exact ⟨p, r, i, _, own, rfl⟩
    · rw [hdev, hmem]
      rcases waits hw with ⟨rfl, rfl, rfl, rfl⟩ | ⟨hx, hw', ha⟩
      · simp [submit, Virtio.setProc]
      · have hd : (submit s1 p r i).done j.a = s.done j.a := by simp [submit, Virtio.setProc, t.eq, ha.1.symm]
        rw [hd, hpl.todo x r' j n hw']
        exact ⟨Or.inl, fun h => h.resolve_right ha.1.symm⟩
    · rw [hdev]
      rcases waits hw with ⟨rfl, rfl, rfl, rfl⟩ | ⟨hx, hw', ha⟩
      · have : s.serial ∉ g.completed := fun hc => Nat.lt_irrefl _ (h.ledger.past _ hc)
        simp [this]
      · rw [hpl.completed x r' j n hw']
        simp [ha.1.symm]
  · have hser : (submit s1 p r i).serial = s.serial + 1 := by simp [submit, Virtio.setProc, t.eq]
    refine ⟨h.ledger.completed, h.ledger.released, h.ledger.after, fun n hn => ?_, fun n hn hr => ?_,
      fun x r' j n hw => ?_⟩
    · rw [hser]
      exact Nat.lt_succ_of_lt (h.ledger.past n hn)
    · obtain ⟨x, r', j, hw⟩ := h.ledger.owner n hn hr
      exact ⟨x, r', j, old hw⟩
    · rcases waits hw with ⟨rfl, rfl, rfl, rfl⟩ | ⟨hx, hw', ha⟩
      · exact fun hc => Nat.lt_irrefl _ (h.ledger.past _ (h.ledger.after _ hc))
      · exact h.ledger.waiting x r' j n hw'
  · simpa [submit, Virtio.setProc, t.eq] using h.calm

/-- A caller that finds its request done frees its chain and leaves. -/
theorem finish_proto {r : Req} {n : Nat} (h : Proto s g) (hp : s.procs p = .wait r i n)
    (hd : s.done i.a = true) : Proto (setProc (cleared (cleared (cleared s i.a) i.b) i.c) p (.check r i n))
      { g with released := g.released ++ [n] } := by
  obtain ⟨q, u, hq, hu, hpl⟩ := h.queues
  generalize hs1 : Virtio.setProc (cleared (cleared (cleared s i.a) i.b) i.c) p (.check r i n) = s1
  have hprocs : ∀ x, x ≠ p → s1.procs x = s.procs x := fun x hx => by rw [← hs1]; simp [Virtio.setProc, cleared, hx]
  have own : s1.procs p = .check r i n := by rw [← hs1]; simp [Virtio.setProc]
  have waits : ∀ {x r' j m}, s1.procs x = .wait r' j m → x ≠ p ∧ s.procs x = .wait r' j m := by
    intro x r' j m hw
    have hx : x ≠ p := fun e => by rw [e, own] at hw; cases hw
    exact ⟨hx, hprocs x hx ▸ hw⟩
  have old : ∀ {x r' j m}, x ≠ p → s.procs x = .wait r' j m → s1.procs x = .wait r' j m := fun {x _ _ _} hx hw => by
    rw [hprocs x hx]; exact hw
  have keep : ∀ j, ¬ i.Has j → s1.desc j = s.desc j ∧ s1.free j = s.free j := fun j hj => by
    simp only [Idx.Has, not_or] at hj
    rw [← hs1]
    simp [Virtio.setProc, cleared, hj.1, hj.2.1, hj.2.2]
  have freed : ∀ j, i.Has j → s1.free j = true := fun j hj => by
    rw [← hs1]
    simp only [Virtio.setProc, cleared, Function.update_apply]
    rcases hj with rfl | rfl | rfl <;> split_ifs <;> first | rfl | contradiction
  have rest : s1.ops = s.ops ∧ s1.tag = s.tag ∧ s1.serial = s.serial ∧ s1.done = s.done ∧ s1.inflight = s.inflight ∧
      s1.panic = s.panic := by rw [← hs1]; exact ⟨rfl, rfl, rfl, rfl, rfl, rfl⟩
  obtain ⟨ho, ht, hser, hdone, hinf, hpan⟩ := rest
  -- its head is in no ring and not with the device
  have hout : i.a ∉ q ++ (s.inflight ++ u) := fun hc => by
    rw [(hpl.todo p r i n hp).mpr hc] at hd
    cases hd
  have hcomp : n ∈ g.completed := (hpl.completed p r i n hp).mpr
    ⟨fun hc => hout (List.mem_append_left _ hc), fun hc => hout (List.mem_append_right _ (List.mem_append_left _ hc))⟩
  refine ⟨fun x r' j m hw => ?_, fun x y r1 j m r2 j' m' hne hw hw' => ?_, fun j hj hf => ?_,
    ⟨q, u, ?_, ?_, ?_⟩, ?_, ?_⟩
  · obtain ⟨hx, hw'⟩ := waits hw
    obtain ⟨c, h2, h3, h4⟩ := h.chain x r' j m hw'
    obtain ⟨n1, n2, n3, n4, n5, n6, n7, n8, n9⟩ := (h.apart x p r' j m r i n hx hw' hp).1
    refine ⟨c.frame fun k hk => keep k ?_, by rw [ho]; exact h2, by rw [ht]; exact h3, by rw [hser]; exact h4⟩
    rintro (e | e | e) <;> rcases hk with rfl | rfl | rfl <;> contradiction
  · exact h.apart x y r1 j m r2 j' m' hne (waits hw).2 (waits hw').2
  · by_cases hji : i.Has j
    · rw [freed j hji] at hf
      cases hf
    · rw [(keep j hji).2] at hf
      obtain ⟨x, r', i', m, hw, hi'⟩ := h.cover j hj hf
      refine ⟨x, r', i', m, old (fun e => hji ?_) hw, hi'⟩
      rw [e, hp] at hw
      cases hw
      exact hi'
  · rw [← hs1]; exact hq
  · rw [← hs1]; exact hu
  · refine ⟨by rw [hinf]; exact hpl.nodup, fun y hy => ?_, fun x r' j m hw => ?_, fun x r' j m hw => ?_⟩
    · rw [hinf] at hy
      obtain ⟨x, r', j, m, hw, hj⟩ := hpl.heads y hy
      refine ⟨x, r', j, m, old (fun e => hout ?_) hw, hj⟩
      rw [e, hp] at hw
      cases hw
      rw [hj]; exact hy
    · rw [hinf, hdone]; exact hpl.todo x r' j m (waits hw).2
    · rw [hinf]; exact hpl.completed x r' j m (waits hw).2
  · refine ⟨h.ledger.completed, ?_, fun m hm => ?_, by rw [hser]; exact h.ledger.past, fun m hm hr => ?_,
      fun x r' j m hw hm => ?_⟩
    · exact List.nodup_append.mpr ⟨h.ledger.released, List.nodup_singleton _, fun a ha b hb e =>
        h.ledger.waiting p r i n hp (by rw [← List.mem_singleton.mp hb, ← e]; exact ha)⟩
    · rcases List.mem_append.mp hm with hm | hm
      · exact h.ledger.after m hm
      · rw [List.mem_singleton.mp hm]; exact hcomp
    · have hmn : m ≠ n := fun e => hr (by simp [e])
      obtain ⟨x, r', j, hw⟩ := h.ledger.owner m hm fun hc => hr (List.mem_append_left _ hc)
      refine ⟨x, r', j, old (fun e => hmn ?_) hw⟩
      rw [e, hp] at hw
      cases hw
      rfl
    · obtain ⟨hx, hw'⟩ := waits hw
      rcases List.mem_append.mp hm with hm | hm
      · exact h.ledger.waiting x r' j m hw' hm
      · exact (h.apart x p r' j m r i n hx hw' hp).2 (List.mem_singleton.mp hm)
  · rw [hpan]; exact h.calm

theorem step_proto {e : Ev} (h : Proto s g) (hs : step s e = some s') : Proto s' (g.note s e s') := by
  cases e with
  | call p r =>
    simp only [step] at hs
    split at hs <;> cases hs
    rename_i hp
    exact h.setProc (by simp [hp]) (by simp)
  | rw p =>
    simp only [step] at hs
    split at hs
    · rename_i r hp
      have hg : g.note s (.rw p) s' = g := by simp [Hist.note, hp]
      rw [hg]
      rcases alloc3Desc_cases s with ⟨s1, ha, hr⟩ | ⟨i, s1, ha, ht⟩ <;> rw [ha] at hs <;> cases hs
      · exact restored_proto h hr
      · exact submit_proto h (by simp [hp]) ht
    · rename_i r i n hp
      split at hs
      · rename_i hd
        rw [freeChain_eq (h.chain p r i n hp).1] at hs
        cases hs
        have hg : g.note s (.rw p) (setProc (cleared (cleared (cleared s i.a) i.b) i.c) p (.check r i n)) =
            { g with released := g.released ++ [n] } := by simp [Hist.note, hp, setProc]
        rw [hg]
        exact finish_proto h hp hd
      · cases hs
        have hg : g.note s (.rw p) s = g := by simp [Hist.note, hp]
        rw [hg]
        exact h
    · cases hs
  | check p =>
    simp only [step] at hs
    split at hs
    · rename_i r i n hp
      split at hs <;> cases hs
      · obtain ⟨q, u, hq, hu, hpl⟩ := h.queues
        exact h.frame rfl rfl rfl rfl rfl rfl ⟨q, u, hq, hu, hpl.same rfl rfl rfl⟩ (h.ledger.same rfl rfl) (by simp)
      · exact h.setProc (by simp [hp]) (by simp)
    · cases hs
  | intr =>
    cases hs
    exact intrLoop_proto _ h
  | consume => exact consume_proto h hs
  | complete k v => exact complete_proto h hs

theorem proto (h : Runs s g) : Proto s g := by
  induction h with
  | init => exact init_proto
  | step e _ _ hs ih => exact step_proto ih hs

/-! ## The protocol -/

/-- Entries of the avail ring the device has still to take, as the two counters tell. -/
def unread (s : St) : Nat := (s.availIdx + (2 ^ 16 - s.devIdx)) % 2 ^ 16

theorem Idx.Apart.not_has {i' : Idx} {j : Nat} (h : i.Apart i') (hi : i.Has j) : ¬ i'.Has j := by
  obtain ⟨n1, n2, n3, n4, n5, n6, n7, n8, n9⟩ := h
  rintro (e | e | e) <;> rcases hi with rfl | rfl | rfl <;> contradiction

theorem devStore_availRing (s : St) (a : Addr) (v : Nat) : (devStore s a v).availRing = s.availRing := by
  cases a <;> rfl

theorem intrLoop_availRing (n : Nat) : ∀ s, (intrLoop n s).availRing = s.availRing := by
  induction n with
  | zero => exact fun _ => rfl
  | succ n ih =>
    intro s
    simp only [intrLoop]
    split
    · rw [ih, intrOne]
      split <;> rfl
    · rfl

theorem freeChainFrom_availRing (n : Nat) : ∀ {s s' : St} {i : Nat}, freeChainFrom n s i = .ok s' →
    s'.availRing = s.availRing := by
  induction n with
  | zero => intro s s' i h; cases h; rfl
  | succ n ih =>
    intro s s' i h
    simp only [freeChainFrom, freeDesc, bind, Except.bind] at h
    split_ifs at h
    · exact ih (s := cleared s i) h
    · cases h; rfl

/-- Only a submission writes the avail ring. -/
theorem step_availRing {e : Ev} (hs : step s e = some s') :
    s'.availRing = s.availRing ∨ ∃ s1 p r i, Taken s s1 i ∧ s' = submit s1 p r i := by
  cases e with
  | call p r | consume =>
    simp only [step] at hs
    split at hs <;> cases hs
    exact Or.inl rfl
  | rw p =>
    simp only [step] at hs
    split at hs
    · rcases alloc3Desc_cases s with ⟨s1, ha, hr⟩ | ⟨i, s1, ha, ht⟩ <;> rw [ha] at hs <;> cases hs
      · exact Or.inl (by rw [hr.eq])
      · exact Or.inr ⟨s1, p, _, i, ht, rfl⟩
    · split at hs
      · split at hs <;> cases hs
        · exact Or.inl rfl
        · rename_i hf
          have hk := freeChainFrom_availRing _ hf
          exact Or.inl hk
      · cases hs
        exact Or.inl rfl
    · cases hs
  | check p =>
    simp only [step] at hs
    split at hs
    · split at hs <;> cases hs <;> exact Or.inl rfl
    · cases hs
  | intr =>
    cases hs
    exact Or.inl (intrLoop_availRing _ s)
  | complete k v =>
    simp only [step] at hs
    split at hs <;> cases hs
    exact Or.inl (devStore_availRing s _ v)

/-- In every state of every run: a descriptor is free or in the chain of exactly one caller
    that waits; that chain is what the caller submitted, and what the device holds are heads of
    such chains; no step changes an avail entry the device has not taken, and such an entry is
    the head of a waiting caller's chain; a caller leaves its loop once, after its chain
    completed, and a completed chain that has released no caller has one waiting for it, which
    is done as soon as the handler has caught up with the device; and
    `platform_qemu_free_desc` does not panic. -/
theorem descriptor_protocol (h : Runs s g) :
    (∀ j < NUM, (s.free j = true ∧ ∀ p r i n, s.procs p = .wait r i n → ¬ i.Has j) ∨
      (s.free j = false ∧ ∃! p, ∃ r i n, s.procs p = .wait r i n ∧ i.Has j)) ∧
    (∀ p r i n, s.procs p = .wait r i n → Chain s r i ∧ s.ops i.a = r.op ∧ s.tag i.a = n) ∧
    (∀ a ∈ s.inflight, ∃ p r i n, s.procs p = .wait r i n ∧ i.a = a ∧ n ∉ g.completed) ∧
    (∀ k < unread s, (∃ p r i n, s.procs p = .wait r i n ∧ i.a = s.availRing ((s.devIdx + k) % NUM) ∧ n ∉ g.completed) ∧
      ∀ e s', step s e = some s' → s'.availRing ((s.devIdx + k) % NUM) = s.availRing ((s.devIdx + k) % NUM)) ∧
    (g.released.Nodup ∧ g.completed.Nodup ∧ (∀ n ∈ g.released, n ∈ g.completed) ∧
      (∀ n ∈ g.completed, n ∉ g.released → ∃! p, ∃ r i, s.procs p = .wait r i n) ∧
      ∀ p r i n, s.procs p = .wait r i n → n ∉ g.released ∧ (s.done i.a = true → n ∈ g.completed) ∧
        (n ∈ g.completed → s.seenIdx = s.usedIdx → s.done i.a = true)) ∧
    s.panic ≠ some .freeDesc1 ∧ s.panic ≠ some .freeDesc2 := by
  have hp := proto h
  obtain ⟨q, u, hq, hu, hpl⟩ := hp.queues
  have hlen : unread s = q.length := hq.count num_lt
  refine ⟨fun j hj => ?_, fun p r i n hw => ?_, fun a ha => ?_, fun k hk => ⟨?_, fun e s' hs => ?_⟩,
    ⟨hp.ledger.released, hp.ledger.completed, hp.ledger.after, fun n hn hr => ?_, fun p r i n hw => ⟨?_, ?_, ?_⟩⟩,
    hp.calm⟩
  · cases hf : s.free j with
    | true =>
      refine Or.inl ⟨rfl, fun p r i n hw hj => ?_⟩
      obtain ⟨fa, fb, fc⟩ := (hp.chain p r i n hw).1.busy
      rcases hj with rfl | rfl | rfl
      · rw [fa] at hf; cases hf
      · rw [fb] at hf; cases hf
      · rw [fc] at hf; cases hf
    | false =>
      obtain ⟨p, r, i, n, hw, hi⟩ := hp.cover j hj hf
      refine Or.inr ⟨rfl, p, ⟨r, i, n, hw, hi⟩, fun y => ?_⟩
      rintro ⟨r', i', n', hw', hi'⟩
      by_contra hne
      exact Idx.Apart.not_has (hp.apart y p r' i' n' r i n hne hw' hw).1 hi' hi
  · obtain ⟨c, ho, ht, _⟩ := hp.chain p r i n hw
    exact ⟨c, ho, ht⟩
  · obtain ⟨p, r, i, n, hw, hi⟩ := hpl.heads a (by simp [ha])
    refine ⟨p, r, i, n, hw, hi, fun hc => ((hpl.completed p r i n hw).mp hc).2 ?_⟩
    rw [hi]; exact ha
  · rw [hlen] at hk
    have hslot := hq.slot k q[k] (List.getElem?_eq_getElem hk)
    obtain ⟨p, r, i, n, hw, hi⟩ := hpl.heads q[k] (by simp)
    refine ⟨p, r, i, n, hw, by rw [hi, hslot], fun hc => ((hpl.completed p r i n hw).mp hc).1 ?_⟩
    rw [hi]; exact List.getElem_mem hk
  · rw [hlen] at hk
    rcases step_availRing hs with he | ⟨s1, p, r, i, t, rfl⟩
    · rw [he]
    · have hne := hq.next_slot_ne num_dvd (hpl.room hp t) hk
      simp [submit, Virtio.setProc, t.eq, hne]
  · obtain ⟨p, r, i, hw⟩ := hp.ledger.owner n hn hr
    refine ⟨p, ⟨r, i, hw⟩, fun y => ?_⟩
    rintro ⟨r', i', hw'⟩
    by_contra hne
    exact (hp.apart y p r' i' n r i n hne hw' hw).2 rfl
  · exact hp.ledger.waiting p r i n hw
  · intro hd
    have hout : i.a ∉ q ++ (s.inflight ++ u) := fun hc => by
      rw [(hpl.todo p r i n hw).mpr hc] at hd
      cases hd
    simp only [List.mem_append, not_or] at hout
    exact (hpl.completed p r i n hw).mpr ⟨hout.1, hout.2.1⟩
  · intro hc he
    have hu0 : u = [] := (hu.empty_iff num_lt).mp he
    obtain ⟨h1, h2⟩ := (hpl.completed p r i n hw).mp hc
    by_contra hd
    have := (hpl.todo p r i n hw).mp (by simpa using hd)
    simp [hu0, h1, h2] at this

/-- Two requests submitted one after the other, completed in the other order. -/
def crossed : List Ev :=
  [.call 0 ⟨46, 0, false⟩, .rw 0, .call 1 ⟨47, 1, true⟩, .rw 1, .consume, .consume, .complete 3 0, .intr]

def runHist : St × Hist → List Ev → Option (St × Hist)
  | x, [] => some x
  | x, e :: es => if x.1.panic = none then (step x.1 e).bind fun s' => runHist (s', x.2.note x.1 e s') es else none

theorem runs_runHist {es : List Ev} : ∀ {x y : St × Hist}, Runs x.1 x.2 → runHist x es = some y → Runs y.1 y.2 := by
  induction es with
  | nil => intro x y h hr; cases hr; exact h
  | cons e es ih =>
    intro x y h hr
    simp only [runHist] at hr
    split at hr
    · rename_i hn
      obtain ⟨s1, hs, hr⟩ := Option.bind_eq_some_iff.mp hr
      exact ih (.step e h hn hs) hr
    · cases hr

/-- There process 1 may leave and process 0 may not. -/
theorem descriptor_protocol_crossed : ∃ x, runHist (init, ⟨[], []⟩) crossed = some x ∧
    x.2.completed = [1] ∧ x.1.done 3 = true ∧ x.1.done 0 = false ∧ x.1.panic ≠ some .freeDesc2 := by
  have hrun : (runHist (init, ⟨[], []⟩) crossed).map (fun x => (x.2.completed, x.1.done 3, x.1.done 0)) =
      some ([1], true, false) := by decide +kernel
  obtain ⟨x, hx, he⟩ := Option.map_eq_some_iff.mp hrun
  simp only [Prod.mk.injEq] at he
  obtain ⟨h1, h2, h3⟩ := he
  exact ⟨x, hx, h1, h2, h3, (descriptor_protocol (runs_runHist .init hx)).2.2.2.2.2.2⟩

end Xv6.Disk.Virtio
