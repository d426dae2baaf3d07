/-
  Xv6.Fs.IputLocks — references and locks of `Xv6.Fs.Iput`.

  `Locks`: an entry's `ref` counts the references held to it, no two entries in use have one
  number, who has an inode's sleep-lock has a reference to it, and a second one while it is in
  `iput` of the first. So at `ref == 1` in `iput` nobody has the lock (`acq_free`).

  `Locks.change` is the step lemma for what changes one entry and no reference: its own process
  has it locked, or takes or gives up the lock. `Locks.recount` is the one for references.
-/
import Xv6.Fs.Iput

namespace Xv6.Iput

open Fs (Dinode)

/-! ## The invariant -/

namespace Pc

def inTable : Pc → Bool
  | .igetScan _ | .idupInc _ _ | .iputTest _ | .iputAcq _ | .iputRel _ | .iputDec _ | .relTable => true
  | _ => false

def locks : Pc → Option Nat
  | .ilockGot i | .ilockRead i | .iputRel i | .iputTrunc i | .iputClear i | .iputInval i | .iputUnlock i => some i
  | _ => none

/-- The entry that a call in progress has a reference to and does not have locked. -/
def refs : Pc → Option Nat
  | .idupWait i _ | .idupInc i _ | .ilockWait i | .iputWait i | .iputTest i | .iputAcq i | .iputAgain i | .iputDec i =>
    some i
  | _ => none

def puts : Pc → Option Nat
  | .iputWait i | .iputTest i | .iputAcq i | .iputAgain i | .iputDec i => some i
  | _ => none

/-- The entry in the free branch, until it is marked invalid. -/
def frees : Pc → Option Nat
  | .iputRel i | .iputTrunc i | .iputClear i | .iputInval i => some i
  | _ => none

/-- The entry that the process has locked and that may be invalid. -/
def blind : Pc → Option Nat
  | .ilockGot i | .ilockRead i | .iputUnlock i => some i
  | _ => none

end Pc

def nrefs (held : Multiset (Nat × Nat)) (i : Nat) : Nat := held.countP fun r => r.2 = i

theorem nrefs_same (p i : Nat) (held : Multiset (Nat × Nat)) : nrefs ((p, i) ::ₘ held) i = nrefs held i + 1 :=
  Multiset.countP_cons_of_pos _ rfl

theorem nrefs_ne {i j : Nat} (h : j ≠ i) (p : Nat) (held : Multiset (Nat × Nat)) :
    nrefs ((p, i) ::ₘ held) j = nrefs held j :=
  Multiset.countP_cons_of_neg _ h.symm

variable {held : Multiset (Nat × Nat)}

theorem nrefs_pos {p i : Nat} (h : (p, i) ∈ held) : 0 < nrefs held i :=
  Multiset.countP_pos.mpr ⟨_, h, rfl⟩

structure Locks (s : St) : Prop where
  ref : ∀ i, (s.ent i).ref = nrefs s.held i
  small : ∀ i, 0 < (s.ent i).ref → i < NINODE
  uniq : ∀ i j, 0 < (s.ent i).ref → 0 < (s.ent j).ref → (s.ent i).inum = (s.ent j).inum → i = j
  table : ∀ p, s.tlock = some p ↔ (s.pc p).inTable = true
  locks : ∀ p i, (s.pc p).locks = some i → (s.ent i).lock = some p
  refs : ∀ p i, (s.pc p).refs = some i → (p, i) ∈ s.held
  puts : ∀ p i, (s.pc p).puts = some i → (s.ent i).lock = some p → 2 ≤ s.held.count (p, i)
  lock : ∀ p i, (s.ent i).lock = some p → (p, i) ∈ s.held
  acq : ∀ p i, s.pc p = .iputAcq i → (s.ent i).isFreed = true
  seen : ∀ p i, (s.ent i).lock = some p → (s.ent i).valid = true ∨ (s.pc p).blind = some i
  frees : ∀ p i, (s.pc p).frees = some i → (s.ent i).valid = true
  stop : s.stop ≠ some .sleeps

variable {s : St} {p q i j : Nat}
  {c : Pc} {e : Entry} {t : Option Nat} {d : Nat → Dinode} {g : Nat → Nat} {w : Nat → List Dinode}
  {x y : Nat → Nat → Nat} {n : Nat}

theorem Pc.locks_of_frees (h : c.frees = some i) : c.locks = some i := by
  cases c <;> simp_all [Pc.frees, Pc.locks]

theorem Pc.locks_of_blind (h : c.blind = some i) : c.locks = some i := by
  cases c <;> simp_all [Pc.blind, Pc.locks]

theorem boot_locks (disk : Nat → Dinode) : Locks (boot disk) := by
  constructor <;> simp [boot, nrefs, Pc.inTable, Pc.locks, Pc.refs, Pc.puts, Pc.frees]

namespace Locks

variable (hl : Locks s)
include hl

theorem ref_pos (h : (p, i) ∈ s.held) : 0 < (s.ent i).ref := by
  rw [hl.ref]
  exact nrefs_pos h

/-- With one reference there is one process, which has it once. -/
theorem one_holder (h : (s.ent i).ref = 1) (hp : (p, i) ∈ s.held) (hq : (q, i) ∈ s.held) :
    q = p ∧ s.held.count (p, i) = 1 := by
  have hcount := hl.ref i
  rw [← Multiset.cons_erase hp, nrefs_same, h] at hcount
  have hne : ∀ k, (k, i) ∉ s.held.erase (p, i) := fun k hk => by have := nrefs_pos hk; omega
  constructor
  · by_contra e
    exact hne q ((Multiset.mem_erase_of_ne (by simp [e])).mpr hq)
  · have h0 := Multiset.count_eq_zero.mpr (hne p)
    rw [Multiset.count_erase_self] at h0
    have := Multiset.count_pos.mpr hp
    omega

/-- The free branch finds the sleep-lock free. -/
theorem acq_free (h : s.pc p = .iputAcq i) : (s.ent i).lock = none := by
  have hf := hl.acq p i h
  have hp := hl.refs p i (by rw [h]; rfl)
  by_contra hne
  obtain ⟨q, hq⟩ := Option.ne_none_iff_exists'.mp hne
  simp only [Entry.isFreed, decide_eq_true_eq] at hf
  obtain ⟨rfl, hc⟩ := hl.one_holder hf.1 hp (hl.lock q i hq)
  have := hl.puts q i (by rw [h]; rfl) hq
  omega

/-- One process at a time is in the table. -/
theorem in_table (hp : (s.pc p).inTable = true) (hq : (s.pc q).inTable = true) : q = p := by
  have h1 := (hl.table p).mpr hp
  rw [(hl.table q).mpr hq] at h1
  exact Option.some.inj h1

end Locks

/-- How process `p` may change an entry: as its lock's holder, or by taking or giving up the lock. -/
structure Mine (p : Nat) (e e' : Entry) : Prop where
  before : e.lock = none ∨ e.lock = some p
  after : e'.lock = none ∨ e'.lock = some p
  same : e.lock = some p ∨ e'.valid = e.valid ∧ e'.copy = e.copy ∧ e'.gen = e.gen

/-- What a place asks of the references and locks of the process that is there. -/
structure At (s : St) (p : Nat) (c : Pc) (ent : Nat → Entry) : Prop where
  locks : ∀ i, c.locks = some i → (ent i).lock = some p
  refs : ∀ i, c.refs = some i → (p, i) ∈ s.held
  puts : ∀ i, c.puts = some i → (ent i).lock = some p → 2 ≤ s.held.count (p, i)
  acq : ∀ i, c = .iputAcq i → (ent i).isFreed = true
  seen : ∀ i, (ent i).lock = some p → (ent i).valid = true ∨ c.blind = some i
  frees : ∀ i, c.frees = some i → (ent i).valid = true

/-- A step of `p` that changes one entry and no reference. -/
theorem Locks.change (hl : Locks s)
        (hinum : e.inum = (s.ent i).inum) (href : e.ref = (s.ent i).ref) (hmine : e = s.ent i ∨ Mine p (s.ent i) e)
    (hlock : e.lock = some p → (p, i) ∈ s.held) (htab : ∀ q, t = some q ↔ (upd s.pc p c q).inTable = true)
    (hat : At s p c (upd s.ent i e)) :
    Locks { s with
      ent := upd s.ent i e, tlock := t, pc := upd s.pc p c, disk := d, gen := g, given := w, truncs := x,
      clears := y } := by
  -- the lock of another process is where it was
  have hother : ∀ q j, q ≠ p → ((upd s.ent i e j).lock = some q ↔ (s.ent j).lock = some q) := by
    intro q j hq
    by_cases hj : j = i
    · subst hj
      rw [upd_same]
      rcases hmine with rfl | hm
      · rfl
      · rcases hm.before with hb | hb <;> rcases hm.after with ha | ha <;> simp [hb, ha, Ne.symm hq]
    · rw [upd_ne hj]
  have hrefs : ∀ j, (upd s.ent i e j).ref = (s.ent j).ref ∧ (upd s.ent i e j).inum = (s.ent j).inum := by
    intro j
    by_cases hj : j = i
    · subst hj; rw [upd_same]; exact ⟨href, hinum⟩
    · rw [upd_ne hj]; exact ⟨rfl, rfl⟩
  -- an entry locked by another process, or being freed by it, is not changed
  have hkeep : ∀ q j, q ≠ p → (s.ent j).lock = some q → upd s.ent i e j = s.ent j := by
    intro q j hq hj
    by_cases hji : j = i
    · subst hji
      rw [upd_same]
      refine hmine.resolve_right fun hm => ?_
      rcases hm.before with hb | hb <;> rw [hb] at hj
      · cases hj
      · exact hq (Option.some.inj hj).symm
    · exact upd_ne hji _
  refine ⟨fun j => (hrefs j).1.trans (hl.ref j), fun j hj => hl.small j ((hrefs j).1 ▸ hj), fun j k => ?_, htab,
    fun q j => ?_, fun q j => ?_, fun q j => ?_, fun q j => ?_, fun q j => ?_, fun q j => ?_, fun q j => ?_, hl.stop⟩
  · change 0 < (upd s.ent i e j).ref → 0 < (upd s.ent i e k).ref → (upd s.ent i e j).inum = (upd s.ent i e k).inum → _
    rw [(hrefs j).1, (hrefs k).1, (hrefs j).2, (hrefs k).2]
    exact hl.uniq j k
  · by_cases hq : q = p
    · subst hq; simpa using hat.locks j
    · simpa [hq, hother q j hq] using hl.locks q j
  · by_cases hq : q = p
    · subst hq; simpa using hat.refs j
    · simpa [hq] using hl.refs q j
  · by_cases hq : q = p
    · subst hq; simpa using hat.puts j
    · simpa [hq, hother q j hq] using hl.puts q j
  · by_cases hq : q = p
    · subst hq
      by_cases hj : j = i
      · subst hj; simpa using hlock
      · simpa [hj] using hl.lock q j
    · simpa [hother q j hq] using hl.lock q j
  · by_cases hq : q = p
    · subst hq; simpa using hat.acq j
    · intro hc
      have hc' : s.pc q = .iputAcq j := by simpa [hq] using hc
      have hf := hl.acq q j hc'
      by_cases hj : j = i
      · subst hj
        rcases hmine with rfl | hm
        · simpa using hf
        · rcases hm.same with hs | hs
          · rw [hl.acq_free hc'] at hs
            cases hs
          · simpa [Entry.isFreed, href, hs.1, hs.2.1] using hf
      · simpa [hj] using hf
  · by_cases hq : q = p
    · subst hq; simpa using hat.seen j
    · intro hj
      have hj' := (hother q j hq).mp hj
      simpa [hq, hkeep q j hq hj'] using hl.seen q j hj'
  · by_cases hq : q = p
    · subst hq; simpa using hat.frees j
    · intro hc
      have hc' : (s.pc q).frees = some j := by simpa [hq] using hc
      have hlk := hl.locks q j (Pc.locks_of_frees hc')
      simpa [hkeep q j hq hlk] using hl.frees q j hc'

/-- A step of `p` inside the table that changes the references to one entry and ends the call. -/
theorem Locks.recount (hl : Locks s) (hin : (s.pc p).inTable = true)
    (hpc : (s.pc p).blind = none) (hlock : e.lock = (s.ent i).lock)
    (hvalid : e.valid = (s.ent i).valid ∨ (s.ent i).lock = none)
    (hsmall : i < NINODE) (hcount : ∀ j, (upd s.ent i e j).ref = nrefs held j)
    (huniq : ∀ j, j ≠ i → 0 < e.ref → 0 < (s.ent j).ref → e.inum ≠ (s.ent j).inum)
    (hothers : ∀ q j, q ≠ p → s.held.count (q, j) ≤ held.count (q, j))
    (hown : ∀ j, (s.ent j).lock = some p → (p, j) ∈ held) :
    Locks { s with ent := upd s.ent i e, held := held, pc := upd s.pc p .relTable } := by
  have hmem : ∀ q j, q ≠ p → (q, j) ∈ s.held → (q, j) ∈ held := by
    intro q j hq hm
    exact Multiset.count_pos.mp ((Multiset.count_pos.mpr hm).trans_le (hothers q j hq))
  have hsame : ∀ j, (upd s.ent i e j).lock = (s.ent j).lock := by
    intro j
    by_cases hj : j = i
    · subst hj; rw [upd_same, hlock]
    · rw [upd_ne hj]
  have hkeep : ∀ q j, (s.ent j).lock = some q → (upd s.ent i e j).valid = (s.ent j).valid := by
    intro q j hj
    by_cases hji : j = i
    · subst hji
      rw [upd_same]
      exact hvalid.resolve_right fun h => by rw [h] at hj; cases hj
    · rw [upd_ne hji]
  refine ⟨hcount, fun j hj => ?_, fun j k => ?_, fun q => ?_, fun q j => ?_, fun q j => ?_, fun q j => ?_, fun q j =>
    ?_, fun q j => ?_, fun q j => ?_, fun q j => ?_, hl.stop⟩
  · by_cases e' : j = i
    · rw [e']; exact hsmall
    · exact hl.small j (by simpa [e'] using hj)
  · change 0 < (upd s.ent i e j).ref → 0 < (upd s.ent i e k).ref → (upd s.ent i e j).inum = (upd s.ent i e k).inum → _
    by_cases hj : j = i <;> by_cases hk : k = i
    · intros; rw [hj, hk]
    · rw [hj, upd_same, upd_ne hk]
      exact fun h1 h2 h3 => absurd h3 (huniq k hk h1 h2)
    · rw [hk, upd_same, upd_ne hj]
      exact fun h1 h2 h3 => absurd h3.symm (huniq j hj h2 h1)
    · rw [upd_ne hj, upd_ne hk]
      exact hl.uniq j k
  · by_cases hq : q = p
    · subst hq
      have ht := hl.table q
      rw [hin] at ht
      change s.tlock = some q ↔ (upd s.pc q .relTable q).inTable = true
      rw [upd_same]
      exact ht
    · simpa [hq] using hl.table q
  · by_cases hq : q = p
    · subst hq; simp [Pc.locks]
    · simpa [hq, hsame] using hl.locks q j
  · by_cases hq : q = p
    · subst hq; simp [Pc.refs]
    · simpa [hq] using fun h => hmem q j hq (hl.refs q j h)
  · by_cases hq : q = p
    · subst hq; simp [Pc.puts]
    · simpa [hq, hsame] using fun h1 h2 => (hl.puts q j h1 h2).trans (hothers q j hq)
  · intro hj
    have hj' : (s.ent j).lock = some q := by rw [← hsame j]; exact hj
    by_cases hq : q = p
    · subst hq; exact hown j hj'
    · exact hmem q j hq (hl.lock q j hj')
  · by_cases hq : q = p
    · subst hq; simp
    · intro hc
      -- `q` would be in the table with `p`
      have hc' : s.pc q = .iputAcq j := by simpa [hq] using hc
      exact absurd (hl.in_table hin (by rw [hc']; rfl)) hq
  · intro hj
    have hj' : (s.ent j).lock = some q := by rw [← hsame j]; exact hj
    change (upd s.ent i e j).valid = true ∨ _
    rw [hkeep q j hj']
    by_cases hq : q = p
    · subst hq
      exact Or.inl ((hl.seen q j hj').resolve_right (by simp [hpc]))
    · simpa [hq] using hl.seen q j hj'
  · by_cases hq : q = p
    · subst hq; simp [Pc.frees]
    · intro hc
      have hc' : (s.pc q).frees = some j := by simpa [hq] using hc
      change (upd s.ent i e j).valid = true
      rw [hkeep q j (hl.locks q j (Pc.locks_of_frees hc'))]
      exact hl.frees q j hc'

/-- A step of `p` that changes no entry. -/
theorem Locks.move (hl : Locks s) (htab : ∀ q, t = some q ↔ (upd s.pc p c q).inTable = true) (hat : At s p c s.ent) :
    Locks { s with tlock := t, pc := upd s.pc p c, disk := d, gen := g, given := w } := by
  have hstep := hl.change (i := 0) (e := s.ent 0) (d := d) (g := g) (w := w) (x := s.truncs) (y := s.clears) rfl rfl
    (Or.inl rfl) (hl.lock p 0) htab (by rw [upd_self]; exact hat)
  rw [upd_self] at hstep
  exact hstep

/-- The process stays in the table, or out of it. -/
theorem Locks.table_same (hl : Locks s) (h : c.inTable = (s.pc p).inTable) (q : Nat) :
    s.tlock = some q ↔ (upd s.pc p c q).inTable = true := by
  by_cases hq : q = p
  · subst hq; rw [upd_same, h]; exact hl.table q
  · rw [upd_ne hq]; exact hl.table q

/-- It takes `itable.lock`. -/
theorem Locks.table_in (hl : Locks s) (h : c.inTable = true) (hn : s.tlock = none) (q : Nat) :
    some p = some q ↔ (upd s.pc p c q).inTable = true := by
  by_cases hq : q = p
  · subst hq; simp [h]
  · have hout := hl.table q
    rw [hn] at hout
    simp [hq, Ne.symm hq, ← hout]

/-- It releases `itable.lock`. -/
theorem Locks.table_out (hl : Locks s) (hin : (s.pc p).inTable = true) (h : c.inTable = false) (q : Nat) :
    none = some q ↔ (upd s.pc p c q).inTable = true := by
  by_cases hq : q = p
  · subst hq; simp [h]
  · have hout : ¬ (s.pc q).inTable = true := fun hqin => hq (hl.in_table hin hqin)
    simp [hq, hout]

/-- Who is in none of these places has seen the inodes it has locked. -/
theorem Locks.seen_valid (hl : Locks s) (h : (s.pc p).blind = none) (hk : (s.ent i).lock = some p) :
    (s.ent i).valid = true :=
  (hl.seen p i hk).resolve_right (by simp [h])

/-- A step of `p` to a place where no call has a lock, with every inode that it has locked seen. -/
theorem Locks.quiet (hl : Locks s) (hb : (s.pc p).blind = none)
    (hk : c.locks = none) (ha : ∀ i, c ≠ .iputAcq i) (htab : ∀ q, t = some q ↔ (upd s.pc p c q).inTable = true)
    (hrefs : ∀ i, c.refs = some i → (p, i) ∈ s.held)
    (hputs : ∀ i, c.puts = some i → (s.ent i).lock = some p → 2 ≤ s.held.count (p, i)) :
    Locks { s with tlock := t, pc := upd s.pc p c, disk := d, gen := g, given := w } := by
  refine hl.move htab ⟨by simp [hk], hrefs, hputs, fun i h => absurd h (ha i), fun j hj => Or.inl (hl.seen_valid hb hj),
    fun i hi => ?_⟩
  rw [Pc.locks_of_frees hi] at hk
  cases hk

/-- The same, when it changes an entry. -/
theorem Locks.seen_upd (hl : Locks s) (hb : ∀ j, (s.pc p).blind = some j → j = i)
    (he : e.lock = some p → e.valid = true ∨ c.blind = some i) (j : Nat) (hj : (upd s.ent i e j).lock = some p) :
    (upd s.ent i e j).valid = true ∨ c.blind = some j := by
  by_cases hji : j = i
  · subst hji
    rw [upd_same] at hj ⊢
    exact he hj
  · rw [upd_ne hji] at hj ⊢
    exact Or.inl ((hl.seen p j hj).resolve_right fun h => hji (hb j h))

theorem Locks.panic (hl : Locks s) {e : Panic} (he : e ≠ .sleeps) : Locks (s.panic e) :=
  ⟨hl.ref, hl.small, hl.uniq, hl.table, hl.locks, hl.refs, hl.puts, hl.lock, hl.acq, hl.seen,
    hl.frees, by simp [St.panic, he]⟩

/-- Process `q` gets one more reference to an entry in use. -/
theorem Locks.addRef (hl : Locks s) (hin : (s.pc p).inTable = true) (hpc : (s.pc p).blind = none)
    (hpos : 0 < (s.ent i).ref) :
    Locks (((s.setEnt i { s.ent i with ref := (s.ent i).ref + 1 }).take q i).goto p .relTable) := by
  refine hl.recount hin hpc rfl (Or.inl rfl) (hl.small i hpos) (fun j => ?_)
    (fun j hj _ hr e => hj (hl.uniq i j hpos hr e).symm) (fun k j _ => Multiset.count_le_count_cons _ _ _)
    fun j hj => Multiset.mem_cons_of_mem (hl.lock p j hj)
  change _ = nrefs ((q, i) ::ₘ s.held) j
  by_cases hj : j = i
  · subst hj
    rw [upd_same, nrefs_same, ← hl.ref]
  · rw [upd_ne hj, nrefs_ne hj, hl.ref]

/-- An entry without references gets its first. -/
theorem Locks.firstRef (hl : Locks s) (hin : (s.pc p).inTable = true) (hpc : (s.pc p).blind = none)
    (hsmall : i < NINODE) (hfree : (s.ent i).ref = 0) (hnew : ∀ j, 0 < (s.ent j).ref → n ≠ (s.ent j).inum) :
    Locks (((s.setEnt i { s.ent i with inum := n, ref := 1, valid := false }).take p i).goto p .relTable) := by
  have hlock : (s.ent i).lock = none := by
    by_contra hne
    obtain ⟨q, hq⟩ := Option.ne_none_iff_exists'.mp hne
    have := hl.ref_pos (hl.lock q i hq)
    omega
  refine hl.recount hin hpc rfl (Or.inr hlock) hsmall (fun j => ?_) (fun j _ _ hr => hnew j hr)
    (fun k j _ => Multiset.count_le_count_cons _ _ _) fun j hj => Multiset.mem_cons_of_mem (hl.lock p j hj)
  change _ = nrefs ((p, i) ::ₘ s.held) j
  by_cases hj : j = i
  · subst hj
    rw [upd_same, nrefs_same, ← hl.ref, hfree]
  · rw [upd_ne hj, nrefs_ne hj, hl.ref]

/-- The end of `iput`. -/
theorem Locks.dropRef (hl : Locks s) (hc : s.pc p = .iputDec i) :
    Locks ({ s.setEnt i { s.ent i with ref := (s.ent i).ref - 1 } with held := s.held.erase (p, i) }.goto p
    .relTable) := by
  have hheld := hl.refs p i (by rw [hc]; rfl)
  have hpos := hl.ref_pos hheld
  refine hl.recount (by rw [hc]; rfl) (by rw [hc]; rfl) rfl (Or.inl rfl) (hl.small i hpos) (fun j => ?_)
    (fun j hj _ hr e => hj (hl.uniq i j hpos hr e).symm) (fun k j hk => ?_) fun j hj => ?_
  · have hcount := hl.ref j
    rw [← Multiset.cons_erase hheld] at hcount
    by_cases hj : j = i
    · subst hj
      rw [nrefs_same] at hcount
      rw [upd_same]
      exact Nat.sub_eq_of_eq_add hcount
    · rw [nrefs_ne hj] at hcount
      rw [upd_ne hj, hcount]
  · exact (Multiset.count_erase_of_ne (by simp [hk]) _).ge
  · -- who keeps the inode locked has a second reference
    by_cases hji : j = i
    · subst hji
      have h2 := hl.puts p j (by rw [hc]; rfl) hj
      apply Multiset.count_pos.mp
      rw [Multiset.count_erase_self]
      omega
    · exact (Multiset.mem_erase_of_ne (by simp [hji])).mpr (hl.lock p j hj)

theorem St.find_some (h : s.find n = some i) : 0 < (s.ent i).ref ∧ (s.ent i).inum = n := by
  simpa using List.find?_some h

theorem St.empty_some (h : s.empty = some i) : i < NINODE ∧ (s.ent i).ref = 0 :=
  ⟨List.mem_range.mp (List.mem_of_find?_eq_some h), by simpa using List.find?_some h⟩

/-- Entries in use are in the table. -/
theorem St.find_none (h : s.find n = none) (hi : i < NINODE) (hr : 0 < (s.ent i).ref) : (s.ent i).inum ≠ n := by
  have := List.find?_eq_none.mp h i (List.mem_range.mpr hi)
  simp only [decide_eq_true_eq, not_and] at this
  exact this hr

/-- A process between calls changes an entry it has locked. -/
theorem Locks.edit (hl : Locks s) (hc : s.pc p = .idle) (hmine : e = s.ent i ∨ Mine p (s.ent i) e)
    (hinum : e.inum = (s.ent i).inum) (href : e.ref = (s.ent i).ref) (hlock : e.lock = some p → (p, i) ∈ s.held)
    (hvalid : e.lock = some p → e.valid = true) : Locks { s with ent := upd s.ent i e, disk := d, given := w } := by
  have hstep := hl.change (c := .idle) (t := s.tlock) (d := d) (g := s.gen) (w := w) (x := s.truncs)
    (y := s.clears) hinum href hmine hlock (hl.table_same (by rw [hc]))
    ⟨nofun, nofun, nofun, nofun, hl.seen_upd (by simp [hc, Pc.blind]) fun h => Or.inl (hvalid h), nofun⟩
  rw [← hc, upd_self] at hstep
  exact hstep

/-- A step inside the free branch that changes the copy. -/
theorem Locks.freeing (hl : Locks s)
    (hc : (s.pc p).frees = some i) (hb : (s.pc p).blind = none) (ht : (s.pc p).inTable = false)
      (hinum : e.inum = (s.ent i).inum)
    (href : e.ref = (s.ent i).ref) (hlock : e.lock = (s.ent i).lock) (hvalid : e.valid = (s.ent i).valid)
    (hc' : c = .iputClear i ∨ c = .iputInval i) :
    Locks { s with ent := upd s.ent i e, pc := upd s.pc p c, disk := d, given := w, truncs := x, clears := y } := by
  have hk := hl.locks p i (Pc.locks_of_frees hc)
  have hv := hl.frees p i hc
  refine hl.change hinum href (Or.inr ⟨Or.inr hk, Or.inr (hlock.trans hk), Or.inl hk⟩) (fun _ => hl.lock p i hk)
    (hl.table_same ?_) ⟨fun j hj => ?_, ?_, ?_, ?_, hl.seen_upd (by simp [hb]) fun _ => Or.inl (hvalid.trans hv),
    fun j hj => ?_⟩
  · rw [ht]; rcases hc' with rfl | rfl <;> rfl
  · have e : j = i := by rcases hc' with rfl | rfl <;> cases hj <;> rfl
    rw [e, upd_same, hlock, hk]
  · rcases hc' with rfl | rfl <;> nofun
  · rcases hc' with rfl | rfl <;> nofun
  · rcases hc' with rfl | rfl <;> nofun
  · have e : j = i := by rcases hc' with rfl | rfl <;> cases hj <;> rfl
    rw [e, upd_same, hvalid, hv]

theorem Locks.step {s' : St} (hl : Locks s) (hs : Step p s s') : Locks s' := by
  cases hs with
  | iget n hc | ialloc n t hc _ _ =>
    exact hl.quiet (by rw [hc]; rfl) rfl nofun (hl.table_same (by rw [hc]; rfl)) nofun nofun
  | igetLock hc ht => exact hl.quiet (by rw [hc]; rfl) rfl nofun (hl.table_in rfl ht) nofun nofun
  | igetFound hc hf => exact hl.addRef (by rw [hc]; rfl) (by rw [hc]; rfl) (St.find_some hf).1
  | igetEmpty hc hf he =>
    obtain ⟨hsmall, hfree⟩ := St.empty_some he
    exact hl.firstRef (by rw [hc]; rfl) (by rw [hc]; rfl) hsmall hfree fun j hj =>
      (St.find_none hf (hl.small j hj) hj).symm
  | igetPanic hc hf he | ilockBad i hc hh hr | ilockPanic hc ht | iunlockBad i hc hk => exact hl.panic (by decide)
  | idup i q hc hh | ilock i hc hh hr =>
    refine hl.quiet (by rw [hc]; rfl) rfl nofun (hl.table_same (by rw [hc]; rfl)) (fun j hj => ?_) nofun
    cases hj
    exact hh
  | idupLock hc ht =>
    exact hl.quiet (by rw [hc]; rfl) rfl nofun (hl.table_in rfl ht)
      (fun j hj => hl.refs p j (by rw [hc]; exact hj)) nofun
  | idupInc hc => exact hl.addRef (by rw [hc]; rfl) (by rw [hc]; rfl) (hl.ref_pos (hl.refs p _ (by rw [hc]; rfl)))
  | relTable hc => exact hl.quiet (by rw [hc]; rfl) rfl nofun (hl.table_out (by rw [hc]; rfl) rfl) nofun nofun
  | @ilockAcq i hc hk =>
    refine hl.change rfl rfl (Or.inr ⟨Or.inl hk, Or.inr rfl, Or.inr ⟨rfl, rfl, rfl⟩⟩)
      (fun _ => hl.refs p i (by rw [hc]; rfl))
      (hl.table_same (by rw [hc]; rfl)) ⟨fun j hj => ?_, nofun, nofun, nofun, hl.seen_upd ?_ fun _ => Or.inr rfl, nofun⟩
    · cases hj
      rw [upd_same]
    · simp [hc, Pc.blind]
  | @ilockValid i hc hv =>
    refine hl.move (hl.table_same (by rw [hc]; rfl)) ⟨nofun, nofun, nofun, nofun, fun j hj => ?_, nofun⟩
    rcases hl.seen p j hj with h | h
    · exact Or.inl h
    · rw [hc] at h
      cases h
      exact Or.inl hv
  | @ilockRead i hc hv | @iputInval i hc =>
    have hk := hl.locks p i (by rw [hc]; rfl)
    refine hl.change rfl rfl (Or.inr ⟨Or.inr hk, Or.inr hk, Or.inl hk⟩) (hl.lock p i)
      (hl.table_same (by rw [hc]; rfl)) ⟨fun j hj => ?_, nofun, nofun, nofun, hl.seen_upd ?_ fun _ => Or.inr rfl, nofun⟩
    · cases hj
      rw [upd_same]
      exact hk
    · simp [hc, Pc.blind]
  | @ilockDone i hc ht =>
    have hk := hl.locks p i (by rw [hc]; rfl)
    refine hl.change rfl rfl (Or.inr ⟨Or.inr hk, Or.inr hk, Or.inl hk⟩) (hl.lock p i)
      (hl.table_same (by rw [hc]; rfl)) ⟨nofun, nofun, nofun, nofun, hl.seen_upd ?_ fun _ => Or.inl rfl, nofun⟩
    simp [hc, Pc.blind]
  | iunlock i hc hk hr =>
    refine hl.edit hc (Or.inr ⟨Or.inr hk, Or.inl rfl, Or.inl hk⟩) rfl rfl nofun nofun
  | modify i d hc hk ht | iupdate i hc hk =>
    exact hl.edit hc (Or.inr ⟨Or.inr hk, Or.inr hk, Or.inl hk⟩) rfl rfl (hl.lock p i)
      fun _ => hl.seen_valid (by rw [hc]; rfl) hk
  | iput i hc hh hk =>
    refine hl.quiet (by rw [hc]; rfl) rfl nofun (hl.table_same (by rw [hc]; rfl)) (fun j hj => ?_) fun j hj => ?_
    · cases hj
      exact hh
    · cases hj
      exact hk
  | iputLock hc ht | iputAgain hc ht =>
    exact hl.quiet (by rw [hc]; rfl) rfl nofun (hl.table_in rfl ht) (fun j hj => hl.refs p j (by rw [hc]; exact hj))
      fun j hj => hl.puts p j (by rw [hc]; exact hj)
  | iputFree hc hf =>
    refine hl.move (hl.table_same (by rw [hc]; rfl)) ⟨nofun, fun j hj => ?_, fun j hj => ?_, fun j hj => ?_,
      fun j hj => ?_, nofun⟩
    · exact hl.refs p j (by rw [hc]; exact hj)
    · exact hl.puts p j (by rw [hc]; exact hj)
    · cases hj
      exact hf
    · exact Or.inl (hl.seen_valid (by rw [hc]; rfl) hj)
  | iputKeep hc hf =>
    exact hl.quiet (by rw [hc]; rfl) rfl nofun (hl.table_same (by rw [hc]; rfl))
      (fun j hj => hl.refs p j (by rw [hc]; exact hj)) fun j hj => hl.puts p j (by rw [hc]; exact hj)
  | @iputAcq i hc hk =>
    have hv : (s.ent i).valid = true := by
      have hf := hl.acq p i hc
      simp only [Entry.isFreed, decide_eq_true_eq] at hf
      exact hf.2.1
    refine hl.change rfl rfl (Or.inr ⟨Or.inl hk, Or.inr rfl, Or.inr ⟨rfl, rfl, rfl⟩⟩)
      (fun _ => hl.refs p i (by rw [hc]; rfl))
      (hl.table_same (by rw [hc]; rfl)) ⟨fun j hj => ?_, nofun, nofun, nofun, hl.seen_upd ?_ fun _ => Or.inl hv,
        fun j hj => ?_⟩
    · cases hj
      rw [upd_same]
    · simp [hc, Pc.blind]
    · cases hj
      rw [upd_same]
      exact hv
  | iputSleeps hc hk => exact absurd (hl.acq_free hc) hk
  | iputRel hc =>
    refine hl.move (hl.table_out (by rw [hc]; rfl) rfl) ⟨fun j hj => ?_, nofun, nofun, nofun, fun j hj => ?_,
      fun j hj => ?_⟩
    · exact hl.locks p j (by rw [hc]; exact hj)
    · exact Or.inl (hl.seen_valid (by rw [hc]; rfl) hj)
    · exact hl.frees p j (by rw [hc]; exact hj)
  | @iputTrunc i hc =>
    exact hl.freeing (by rw [hc]; rfl) (by rw [hc]; rfl) (by rw [hc]; rfl) rfl rfl rfl rfl (Or.inl rfl)
  | @iputClear i hc =>
    exact hl.freeing (by rw [hc]; rfl) (by rw [hc]; rfl) (by rw [hc]; rfl) rfl rfl rfl rfl (Or.inr rfl)
  | @iputUnlock i hc =>
    have hk := hl.locks p i (by rw [hc]; rfl)
    refine hl.change rfl rfl (Or.inr ⟨Or.inr hk, Or.inl rfl, Or.inl hk⟩) nofun
      (hl.table_same (by rw [hc]; rfl)) ⟨nofun, fun j hj => ?_, fun j hj => ?_, nofun, hl.seen_upd ?_ nofun, nofun⟩
    · cases hj
      exact hl.lock p i hk
    · cases hj
      rw [upd_same]
      nofun
    · simp [hc, Pc.blind]
  | iputDec hc => exact hl.dropRef hc

end Xv6.Iput
