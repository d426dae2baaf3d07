/-
  Xv6.Fs.Shared — processes that share one `struct file` of a regular file, kernel/file.c.

  `filewrite` writes a chunk in each turn of its loop, in a section from `begin_op` to `end_op`;
  `fileread` is one section under the inode's lock. The sections of any number of processes come in
  any order. What is recorded, and no code reads: every section's use of `f->off`, with the offset it
  found and by how much it moved it, and what each `filewrite` returned.

  Proved (`shared_offset`): each use starts where the one before ended, so the chunks stored are
  disjoint and, with writers only, consecutive; no chunk is overwritten later; and the chunks of a
  `filewrite` that returns its `n` are its `n` bytes in order.
-/
import Xv6.Fs.Table
import Xv6.Fs.Writei
import Xv6.Fs.Syscall

namespace Xv6.Fs.Shared

/-- One section's use of `f->off`: `len` bytes at `off`, for a write from `src` at `start` on. -/
structure Use where
  id : Nat
  stores : Bool
  off : Nat
  len : Nat
  src : Src
  start : Nat

structure Call where
  id : Nat
  src : Src
  n : Int
  i : Nat

structure Sys where
  fs : St
  calls : Nat → Option Call
  next : Nat
  uses : List Use
  returned : List (Call × Int)

inductive Ev where
  | write (p : Nat) (src : Src) (n : Int)
  /-- the next turn of `p`'s loop, or its end -/
  | turn (p : Nat)
  | read (p : Nat) (dst : Dst) (n : Int)

def Call.ret (c : Call) : Int := if (c.i : Int) = c.n then c.n else -1

variable (sb : Superblock) (f : Nat)

def Sys.turn (σ : Sys) (p : Nat) (c : Call) : Option Sys :=
  if c.i < c.n.toNat then
    let x := σ.fs.ftable f
    let n1 := min (c.n.toNat - c.i) maxChunk
    match writeChunk sb f x.ip (fun k => c.src (c.i + k)) n1 σ.fs with
    | .ok r fs =>
      let use : Use := ⟨c.id, true, x.off, r.toNat, c.src, c.i⟩
      if r ≠ n1 then
        some { σ with
          fs := fs, calls := upd σ.calls p none, uses := σ.uses ++ [use], returned := σ.returned ++ [(c, c.ret)] }
      else some { σ with fs := fs, calls := upd σ.calls p (some { c with i := c.i + n1 }), uses := σ.uses ++ [use] }
    | .error _ _ => none
  else some { σ with calls := upd σ.calls p none, returned := σ.returned ++ [(c, c.ret)] }

def step (σ : Sys) : Ev → Option Sys
  | .write p src n =>
    match σ.calls p with
    | some _ => none
    | none =>
      let c : Call := ⟨σ.next, src, n, 0⟩
      if (σ.fs.ftable f).writable = false then
        some { σ with next := σ.next + 1, returned := σ.returned ++ [(c, -1)] }
      else some { σ with next := σ.next + 1, calls := upd σ.calls p (some c) }
  | .turn p =>
    match σ.calls p with
    | some c => σ.turn sb f p c
    | none => none
  | .read p dst n =>
    match σ.calls p with
    | some _ => none
    | none =>
      match fileread sb f dst n 0 σ.fs with
      | .ok r fs =>
        let use : Use := ⟨σ.next, false, (σ.fs.ftable f).off, r.toNat, fun _ => none, 0⟩
        some { σ with fs := fs, next := σ.next + 1, uses := σ.uses ++ [use] }
      | .error _ _ => none

def start (fs : St) : Sys := ⟨fs, fun _ => none, 0, [], []⟩

inductive Reach (fs : St) : Sys → Prop
  | start : Reach fs (start fs)
  | step {σ σ' : Sys} (e : Ev) : Reach fs σ → step sb f σ e = some σ' → Reach fs σ'

/-- Each use starts where the one before ended; the first at `a`, and the last ends at `b`. -/
def Follows : Nat → List Use → Nat → Prop
  | a, [], b => a = b
  | a, u :: us, b => u.off = a ∧ Follows (a + u.len) us b

def InOrder : Nat → List Use → Nat → Prop
  | a, [], b => a = b
  | a, u :: us, b => u.start = a ∧ InOrder (a + u.len) us b

def usesOf (us : List Use) (id : Nat) : List Use := us.filter (·.id = id)

/-! ## One section -/

variable {sb f}
variable {v : Nat → Dinode} {ip m n1 : Nat} {s s' : St} {src : Src}

/-- Between sections: file `f` is inode `m`, a regular file, in entry `ip`. -/
structure Idle (sb : Superblock) (v : Nat → Dinode) (f ip m : Nat) (s : St) : Prop where
  core : Core sb v 0 s
  outstanding : s.outstanding = 0
  lh : s.lh = []
  opened : Opened s ip m
  lock : (s.itable ip).lock = false
  regular : (v m).type = T_FILE
  type : (s.ftable f).type = .inode
  ip : (s.ftable f).ip = ip

/-- What a section does: `len` bytes of the file are used from `f->off` on. -/
structure Section (sb : Superblock) (f ip : Nat) (s s' : St) (len : Nat) : Prop where
  off : (s'.ftable f).off = (s.ftable f).off + len
  /-- what lies before the offset stays -/
  before : ∀ o, o < (s.ftable f).off → seen sb ip s' o = seen sb ip s o
  writable : (s'.ftable f).writable = (s.ftable f).writable

def unlocked (s : St) (ip : Nat) : St := (s.node ip { s.itable ip with lock := false }).ended

theorem unlocked_idle (hc : Core sb v 0 s) (ho : Opened s ip m) (hreg : (v m).type = T_FILE)
    (ht : (s.ftable f).type = .inode) (hip : (s.ftable f).ip = ip) : Idle sb v f ip m (unlocked s ip) where
  core := (hc.locked ip false).ended
  outstanding := rfl
  lh := rfl
  opened := (ho.congr (.node s ip false)).congr fun _ => rfl
  lock := by
    show (upd s.itable ip _ ip).lock = false
    rw [upd_same]
  regular := hreg
  type := ht
  ip := hip

theorem unlocked_seen (hc : Core sb v 0 s) (ho : Opened s ip m) (o : Nat) :
    seen sb ip (unlocked s ip) o = seen sb ip s o := by
  have ho' : Opened (unlocked s ip) ip m := (ho.congr (.node s ip false)).congr fun _ => rfl
  have hc' : Core sb v 0 (unlocked s ip) := (hc.locked ip false).ended
  rw [hc'.seen_eq ho', hc.seen_eq ho]
  rfl

theorem wp_unlocked {Q : St → Prop} {E : Panic → St → Prop} (ho : Opened s ip m) (hl : (s.itable ip).lock = true)
    (h1 : s.outstanding = 1) :
    wp (iunlock ip) (fun _ s1 => wp endOp (fun _ s2 => Q s2) E s1) E s = Q (unlocked s ip) := by
  have h2 : (s.node ip { s.itable ip with lock := false }).outstanding = 1 := h1
  rw [wp_iunlock ho.ref hl, wp_endOp h2]
  rfl

def locked (s : St) (ip : Nat) : St := ((s.opened 1).ev .beginOp).node ip { s.itable ip with lock := true }

/-- One turn of `filewrite`'s loop. -/
theorem writeChunk_spec (h : Idle sb v f ip m s) (n1 : Nat) (src : Src) :
    wp (writeChunk sb f ip src n1)
      (fun r s' => (∃ v', Idle sb v' f ip m s') ∧ Section sb f ip s s' r.toNat ∧ r ≤ n1 ∧
        ∀ k, k < r.toNat → seen sb ip s' ((s.ftable f).off + k) = src k ∧ src k ≠ none)
      (fun _ _ => True) s := by
  have hc1 : Core sb v m (locked s ip) := (h.core.begun.ahead m).locked ip true
  have ho1 : Opened (locked s ip) ip m := by
    have hb : Opened ((s.opened 1).ev .beginOp) ip m := h.opened.congr fun _ => rfl
    exact hb.congr (.node _ ip true)
  have hseen1 : ∀ o, seen sb ip (locked s ip) o = seen sb ip s o := fun o => by
    rw [hc1.seen_eq ho1, h.core.seen_eq h.opened]
    rfl
  unfold writeChunk
  simp only [wp_bind, wp_get]
  rw [wp_beginOp h.outstanding h.lh]
  have hb : Opened ((s.opened 1).ev .beginOp) ip m := h.opened.congr fun _ => rfl
  rw [wp_ilock hb h.lock]
  have hcnt : (s.ftable f).off + n1 ≤ ((s.ftable f).off / BSIZE + ((s.ftable f).off + n1)) * BSIZE := by
    simp only [BSIZE]
    omega
  refine (writei_spec hc1 ho1 rfl hcnt).mono (fun r s2 h₂ => ?_) fun _ _ _ => trivial
  have hlock : ∀ {s2 : St}, s2.itable ip = { (locked s ip).itable ip with copy := (s2.itable ip).copy } →
      (s2.itable ip).lock = true := fun e => by
    rw [e]
    show (upd s.itable ip _ ip).lock = true
    rw [upd_same]
  rcases h₂ with ⟨-, rfl, rfl⟩ | ⟨hacc, w, e, d, rfl, hw⟩
  · -- the range is refused
    rw [if_neg (by decide)]
    simp only [wp_bind, wp_pure]
    rw [wp_unlocked ho1 (hlock rfl) rfl]
    have hc0 : Core sb v 0 (locked s ip) := h.core.begun.locked ip true
    have hi := unlocked_idle (f := f) hc0 ho1 h.regular h.type h.ip
    exact ⟨⟨v, hi⟩, ⟨rfl, fun o _ => (unlocked_seen hc0 ho1 o).trans (hseen1 o), rfl⟩, by omega,
      fun k hk => absurd hk (by simp)⟩
  · -- `w` bytes are stored
    have hoff : (s.ftable f).off ≤ (v m).size := by
      by_contra hc
      exact hacc (Or.inl (by omega))
    have ho2 : Opened s2 ip m := by
      have ht := hw.itable
      exact ⟨ho1.lt, by rw [ht, upd_same]; exact ho1.ref, by rw [ht, upd_same]; exact ho1.valid,
        by rw [ht, upd_same]; exact ho1.inum⟩
    have hl2 : (s2.itable ip).lock = true := hlock (by rw [hw.itable, upd_same])
    have hout2 : s2.outstanding = 1 := hw.ext.outstanding
    have hft : s2.ftable = s.ftable := hw.ext.ftable
    have hreg : (upd v m d m).type = T_FILE := by
      rw [upd_same, hw.fields]
      exact h.regular
    have hsize : d.size = max (v m).size ((s.ftable f).off + w) := by rw [hw.fields]
    have hcore := hw.core (Or.inr fun e => by rw [h.regular] at e; cases e)
    have hbefore : ∀ o, o < (s.ftable f).off → seen sb ip s2 o = seen sb ip s o := fun o ho => by
      rw [hcore.seen_eq ho2, h.core.seen_eq h.opened, upd_same, if_pos (by omega), if_pos (by omega),
        hw.bytes o (by omega) (Or.inl ho)]
      rfl
    have hstored : ∀ k, k < w → seen sb ip s2 ((s.ftable f).off + k) = src k ∧ src k ≠ none := fun k hk => by
      have hne := hw.read k hk
      refine ⟨?_, hne⟩
      rw [hcore.seen_eq ho2, upd_same, if_pos (by omega), hw.wrote k (Nat.lt_of_lt_of_le hk hw.le)]
      unfold Src.byte
      cases hs : src k with
      | none => exact absurd hs hne
      | some b => rfl
    have hmoved : ∀ {s3 : St} (x : File), s3 = s2.file f x → x.type = .inode → x.ip = ip →
        x.off = (s.ftable f).off + w → x.writable = (s.ftable f).writable →
        (∃ v', Idle sb v' f ip m (unlocked s3 ip)) ∧ Section sb f ip s (unlocked s3 ip) (w : Int).toNat ∧
          (w : Int) ≤ n1 ∧
          ∀ k, k < (w : Int).toNat → seen sb ip (unlocked s3 ip) ((s.ftable f).off + k) = src k ∧ src k ≠ none := by
      rintro s3 x rfl h1 h2 h3 h4
      have hc3 : Core sb (upd v m d) 0 (s2.file f x) := hcore.congr rfl (fun _ => rfl) fun _ => id
      have ho3 : Opened (s2.file f x) ip m := ho2.congr fun _ => rfl
      have hx : (s2.file f x).ftable f = x := upd_same _ _ _
      have hs : ∀ o, seen sb ip (unlocked (s2.file f x) ip) o = seen sb ip s2 o := fun o => by
        rw [unlocked_seen hc3 ho3, hc3.seen_eq ho3, hcore.seen_eq ho2]
        rfl
      refine ⟨⟨_, unlocked_idle hc3 ho3 hreg (by rw [hx]; exact h1) (by rw [hx]; exact h2)⟩,
        ⟨?_, fun o ho => (hs o).trans (hbefore o ho), ?_⟩, ?_, fun k hk => ?_⟩
      · show ((s2.file f x).ftable f).off = _
        rw [hx]
        exact h3
      · show ((s2.file f x).ftable f).writable = _
        rw [hx]
        exact h4
      · have := hw.le
        have := hw.le'
        omega
      · rw [hs]
        exact hstored k hk
    refine wp_ite (fun hpos => ?_) fun hpos => ?_
    · simp only [wp_bind, wp_setFile, wp_pure]
      have ho3 : Opened (s2.file f { s2.ftable f with off := (s2.ftable f).off + (w : Int).toNat }) ip m :=
        ho2.congr fun _ => rfl
      rw [wp_unlocked ho3 hl2 hout2]
      exact hmoved _ rfl (by rw [hft]; exact h.type) (by rw [hft]; exact h.ip) (by rw [hft]; rfl) (by rw [hft])
    · simp only [wp_bind, wp_pure]
      rw [wp_unlocked ho2 hl2 hout2]
      have hw0 : w = 0 := by omega
      exact hmoved (s.ftable f) (by rw [← hft]; exact (congrArg (fun t => { s2 with ftable := t }) (upd_self _ _)).symm)
        h.type h.ip (by omega) rfl

/-- The section of `fileread`. -/
theorem fileread_spec (h : Idle sb v f ip m s) (dst : Dst) (n : Int) :
    wp (fileread sb f dst n 0) (fun r s' => Idle sb v f ip m s' ∧ Section sb f ip s s' r.toNat)
    (fun _ _ => True) s := by
  unfold fileread
  simp only [wp_bind, wp_get]
  refine wp_ite (fun _ => ?_) fun _ => ?_
  · rw [wp_pure]
    exact ⟨h, rfl, fun _ _ => rfl, rfl⟩
  simp only [h.type, h.ip, wp_bind]
  rw [wp_ilock h.opened h.lock]
  obtain ⟨s1, hs1⟩ : ∃ s1, s1 = s.node ip { s.itable ip with lock := true } := ⟨_, rfl⟩
  rw [← hs1]
  have hc1 : Core sb v 0 s1 := hs1 ▸ h.core.locked ip true
  have ho1 : Opened s1 ip m := hs1 ▸ h.opened.congr (.node s ip true)
  have hl1 : (s1.itable ip).lock = true := by rw [hs1, St.node_itable, upd_same]
  refine (readi_reads (hc1.mapped ho1)).imp fun r s2 hr => ?_
  have ho2 : Opened s2 ip m := hr.opened ho1
  have hl2 : (s2.itable ip).lock = true := by rw [hr.itable]; exact hl1
  have hft : s2.ftable = s.ftable := by rw [hr.eq, hs1]; rfl
  -- whatever the offset has become, the rest is as before
  have hmoved : ∀ x : File, x.type = .inode → x.ip = ip → x.off = (s.ftable f).off + r.1.toNat →
      x.writable = (s.ftable f).writable →
      Idle sb v f ip m ((s2.file f x).node ip { (s2.file f x).itable ip with lock := false }) ∧
        Section sb f ip s ((s2.file f x).node ip { (s2.file f x).itable ip with lock := false }) r.1.toNat := by
    intro x h1 h2 h3 h4
    have hx : (s2.file f x).ftable f = x := upd_same _ _ _
    have hc3 : Core sb v 0 ((s2.file f x).node ip { (s2.file f x).itable ip with lock := false }) := by
      have : Core sb v 0 (s2.file f x) := (hr.core hc1).congr rfl (fun _ => rfl) fun _ => id
      exact this.locked ip false
    have ho3 : Opened ((s2.file f x).node ip { (s2.file f x).itable ip with lock := false }) ip m := by
      have : Opened (s2.file f x) ip m := ho2.congr fun _ => rfl
      exact this.congr (.node _ ip false)
    refine ⟨⟨hc3, ?_, ?_, ho3, ?_, h.regular, ?_, ?_⟩, ?_, fun o _ => ?_, ?_⟩
    · show s2.outstanding = 0
      rw [hr.outstanding, hs1]
      exact h.outstanding
    · show s2.lh = []
      rw [hr.eq, hs1]
      exact h.lh
    · rw [St.node_itable, upd_same]
    · show ((s2.file f x).ftable f).type = _
      rw [hx]
      exact h1
    · show ((s2.file f x).ftable f).ip = _
      rw [hx]
      exact h2
    · show ((s2.file f x).ftable f).off = _
      rw [hx]
      exact h3
    · rw [hc3.seen_eq ho3, h.core.seen_eq h.opened]
      show (if _ then some (byteAt (v m) s2.cache o) else none) = _
      rw [hr.cache, hs1]
      rfl
    · show ((s2.file f x).ftable f).writable = _
      rw [hx]
      exact h4
  refine wp_ite (fun hpos => ?_) fun hpos => ?_
  · simp only [wp_bind, wp_setFile, wp_pure]
    have ho3 : Opened (s2.file f { s2.ftable f with off := (s2.ftable f).off + r.1.toNat }) ip m :=
      ho2.congr fun _ => rfl
    rw [wp_iunlock ho3.ref hl2]
    exact hmoved _ (by rw [hft]; exact h.type) (by rw [hft]; exact h.ip) (by rw [hft]) (by rw [hft])
  · simp only [wp_bind, wp_pure]
    rw [wp_iunlock ho2.ref hl2]
    have hx := hmoved (s.ftable f) h.type h.ip (by omega) rfl
    have he : s2.file f (s.ftable f) = s2 := by
      rw [← hft]
      exact congrArg (fun t => { s2 with ftable := t }) (upd_self _ _)
    rwa [he] at hx

/-! ## Any interleaving -/

variable {σ σ' : Sys} {fs : St} {a b c : Nat} {us us' : List Use} {u : Use} {off p : Nat} {fs' : St}

theorem Follows.snoc (h : Follows a us b) (hu : u.off = b) : Follows a (us ++ [u]) (b + u.len) := by
  induction us generalizing a with
  | nil =>
    cases h
    exact ⟨hu, rfl⟩
  | cons w us ih => exact ⟨h.1, ih h.2⟩

theorem InOrder.snoc (h : InOrder a us b) (hu : u.start = b) : InOrder a (us ++ [u]) (b + u.len) := by
  induction us generalizing a with
  | nil =>
    cases h
    exact ⟨hu, rfl⟩
  | cons w us ih => exact ⟨h.1, ih h.2⟩

/-- The uses lie one behind another. -/
theorem Follows.bounds (h : Follows a us b) : a + (us.map Use.len).sum = b ∧ (∀ u ∈ us, a ≤ u.off ∧ u.off + u.len ≤ b) ∧
    us.Pairwise fun u w => u.off + u.len ≤ w.off := by
  induction us generalizing a with
  | nil => exact ⟨h, nofun, List.Pairwise.nil⟩
  | cons w us ih =>
    obtain ⟨h1, h2⟩ := h
    obtain ⟨h3, h4, h5⟩ := ih h2
    refine ⟨?_, fun u hu => ?_, List.pairwise_cons.mpr ⟨fun u hu => ?_, h5⟩⟩
    · rw [List.map_cons, List.sum_cons]
      omega
    · rcases List.mem_cons.mp hu with rfl | hu
      · omega
      · have := h4 u hu
        omega
    · have := h4 u hu
      omega

structure Ran (us : List Use) (c : Call) (i : Nat) : Prop where
  order : InOrder 0 (usesOf us c.id) i
  mine : ∀ u ∈ usesOf us c.id, u.stores = true ∧ u.src = c.src

structure Inv (sb : Superblock) (f ip m off : Nat) (σ : Sys) : Prop where
  idle : ∃ v, Idle sb v f ip m σ.fs
  follows : Follows off σ.uses (σ.fs.ftable f).off
  stored : ∀ u ∈ σ.uses, u.stores = true → ∀ k, k < u.len →
    seen sb ip σ.fs (u.off + k) = u.src (u.start + k) ∧ u.src (u.start + k) ≠ none
  ids : ∀ u ∈ σ.uses, u.id < σ.next
  active : ∀ p c, σ.calls p = some c → c.id < σ.next ∧ c.i ≤ c.n.toNat ∧ Ran σ.uses c c.i
  apart : ∀ p q c c', σ.calls p = some c → σ.calls q = some c' → c.id = c'.id → p = q
  returned : ∀ x ∈ σ.returned, x.1.id < σ.next ∧ (∀ p c, σ.calls p = some c → c.id ≠ x.1.id) ∧
    (x.2 = x.1.n → Ran σ.uses x.1 x.1.n.toNat)

theorem usesOf_snoc (us : List Use) (u : Use) (id : Nat) :
    usesOf (us ++ [u]) id = if u.id = id then usesOf us id ++ [u] else usesOf us id := by
  unfold usesOf
  rw [List.filter_append]
  split
  · rename_i h
    simp [h]
  · rename_i h
    simp [h]

theorem Ran.other {i : Nat} {c : Call} (h : Ran us c i) (hu : u.id ≠ c.id) : Ran (us ++ [u]) c i := by
  have he : usesOf (us ++ [u]) c.id = usesOf us c.id := by rw [usesOf_snoc, if_neg hu]
  exact ⟨he ▸ h.order, he ▸ h.mine⟩

theorem Ran.more {i : Nat} {c : Call} (h : Ran us c i) (hid : u.id = c.id) (hs : u.stores = true) (hsrc : u.src = c.src)
    (hi : u.start = i) : Ran (us ++ [u]) c (i + u.len) := by
  have he : usesOf (us ++ [u]) c.id = usesOf us c.id ++ [u] := by rw [usesOf_snoc, if_pos hid]
  refine ⟨he ▸ h.order.snoc hi, fun w hw => ?_⟩
  rw [he] at hw
  rcases List.mem_append.mp hw with hw | hw
  · exact h.mine w hw
  · rw [List.mem_singleton.mp hw]
    exact ⟨hs, hsrc⟩

/-- A call that no use is of. -/
theorem Inv.fresh (h : Inv sb f ip m off σ) (src : Src) (n : Int) : Ran σ.uses ⟨σ.next, src, n, 0⟩ 0 := by
  have he : usesOf σ.uses σ.next = [] := by
    refine List.filter_eq_nil_iff.mpr fun u hu => ?_
    have := h.ids u hu
    simp only [decide_eq_true_eq]
    omega
  refine ⟨?_, fun u hu => ?_⟩
  · show InOrder 0 (usesOf σ.uses σ.next) 0
    rw [he]
    rfl
  · have hu : u ∈ usesOf σ.uses σ.next := hu
    rw [he] at hu
    cases hu

/-- A section keeps what was stored, and its use follows the others. -/
theorem Inv.section {len : Nat} (h : Inv sb f ip m off σ) (hs : Section sb f ip σ.fs fs' len)
    (hu : u.off = (σ.fs.ftable f).off) (hlen : u.len = len)
    (hst : u.stores = true → ∀ k, k < len → seen sb ip fs' (u.off + k) = u.src (u.start + k) ∧
      u.src (u.start + k) ≠ none) :
    Follows off (σ.uses ++ [u]) (fs'.ftable f).off ∧ ∀ w ∈ σ.uses ++ [u], w.stores = true → ∀ k, k < w.len →
      seen sb ip fs' (w.off + k) = w.src (w.start + k) ∧ w.src (w.start + k) ≠ none := by
  refine ⟨?_, fun w hw h1 k hk => ?_⟩
  · have := h.follows.snoc hu
    rw [hlen] at this
    rw [hs.off]
    exact this
  · rcases List.mem_append.mp hw with hw | hw
    · have hb := h.follows.bounds.2.1 w hw
      rw [hs.before _ (by omega)]
      exact h.stored w hw h1 k hk
    · obtain rfl := List.mem_singleton.mp hw
      exact hst h1 k (hlen ▸ hk)

theorem write_inv {n : Int} (h : Inv sb f ip m off σ)
    (hs : step sb f σ (.write p src n) = some σ') : Inv sb f ip m off σ' := by
  have hnew := h.fresh src n
  have hnext : ∀ {i}, i < σ.next → i < σ.next + 1 := fun hi => Nat.lt_succ_of_lt hi
  simp only [step] at hs
  split at hs
  case h_1 => cases hs
  case h_2 hp =>
    split at hs
    case isTrue =>
      -- not open for writing
      cases hs
      refine ⟨h.idle, h.follows, h.stored, fun u hu => hnext (h.ids u hu),
        fun q c hc => ⟨hnext (h.active q c hc).1, (h.active q c hc).2⟩, h.apart, fun x hx => ?_⟩
      rcases List.mem_append.mp hx with hx | hx
      · exact ⟨hnext (h.returned x hx).1, (h.returned x hx).2⟩
      · obtain rfl := List.mem_singleton.mp hx
        refine ⟨Nat.lt_succ_self _, fun q c hc => Nat.ne_of_lt (h.active q c hc).1, fun e => ?_⟩
        have hn : n = -1 := e.symm
        subst hn
        exact hnew
    case isFalse =>
      cases hs
      have hcalls : ∀ {q c}, upd σ.calls p (some ⟨σ.next, src, n, 0⟩) q = some c →
          (q = p ∧ c = ⟨σ.next, src, n, 0⟩) ∨ σ.calls q = some c := fun {q c} hc => by
        by_cases e : q = p
        · rw [e, upd_same] at hc
          exact Or.inl ⟨e, (Option.some.inj hc).symm⟩
        · rw [upd_ne e] at hc
          exact Or.inr hc
      refine ⟨h.idle, h.follows, h.stored, fun u hu => hnext (h.ids u hu), fun q c hc => ?_,
        fun q r c c' hc hc' hid => ?_, fun x hx => ?_⟩
      · rcases hcalls hc with ⟨-, rfl⟩ | hc
        · exact ⟨Nat.lt_succ_self _, Nat.zero_le _, hnew⟩
        · exact ⟨hnext (h.active q c hc).1, (h.active q c hc).2⟩
      · rcases hcalls hc with ⟨h1, rfl⟩ | hc <;> rcases hcalls hc' with ⟨h2, rfl⟩ | hc'
        · rw [h1, h2]
        · exact absurd hid.symm (Nat.ne_of_lt (h.active r c' hc').1)
        · exact absurd hid (Nat.ne_of_lt (h.active q c hc).1)
        · exact h.apart q r c c' hc hc' hid
      · obtain ⟨h1, h2, h3⟩ := h.returned x hx
        refine ⟨hnext h1, fun q c hc => ?_, h3⟩
        rcases hcalls hc with ⟨-, rfl⟩ | hc
        · exact Nat.ne_of_gt h1
        · exact h2 q c hc

theorem read_inv {dst : Dst} {n : Int} (h : Inv sb f ip m off σ)
    (hs : step sb f σ (.read p dst n) = some σ') : Inv sb f ip m off σ' := by
  simp only [step] at hs
  split at hs
  case h_1 => cases hs
  case h_2 =>
    split at hs
    case h_2 => cases hs
    case h_1 r fs' hr =>
      cases hs
      obtain ⟨v, hv⟩ := h.idle
      obtain ⟨hi, hsec⟩ := wp_ok (fileread_spec hv dst n) hr
      obtain ⟨h1, h2⟩ := h.section hsec (u := ⟨σ.next, false, (σ.fs.ftable f).off, r.toNat, fun _ => none, 0⟩)
        rfl rfl nofun
      refine ⟨⟨v, hi⟩, h1, h2, fun u hu => ?_, fun q c hc => ?_, h.apart, fun x hx => ?_⟩
      · rcases List.mem_append.mp hu with hu | hu
        · exact Nat.lt_succ_of_lt (h.ids u hu)
        · obtain rfl := List.mem_singleton.mp hu
          exact Nat.lt_succ_self _
      · obtain ⟨h3, h4, h5⟩ := h.active q c hc
        exact ⟨Nat.lt_succ_of_lt h3, h4, h5.other (Nat.ne_of_gt h3)⟩
      · obtain ⟨h3, h4, h5⟩ := h.returned x hx
        exact ⟨Nat.lt_succ_of_lt h3, h4, fun e => (h5 e).other (Nat.ne_of_gt h3)⟩

/-- `p`'s call goes on or is over; the calls after the turn are those before it. -/
theorem other_calls {q : Nat} {c c' : Call} {next : Option Call} (h : Inv sb f ip m off σ) (hp : σ.calls p = some c)
    (hc : upd σ.calls p next q = some c') : (q = p ∧ next = some c') ∨ (σ.calls q = some c' ∧ c'.id ≠ c.id) := by
  by_cases e : q = p
  · rw [e, upd_same] at hc
    exact Or.inl ⟨e, hc⟩
  · rw [upd_ne e] at hc
    exact Or.inr ⟨hc, fun hid => e (h.apart q p c' c hc hp hid)⟩

theorem apart_turn {c : Call} {next : Option Call} (h : Inv sb f ip m off σ) (hp : σ.calls p = some c)
    (hn : ∀ d, next = some d → d.id = c.id) (q r : Nat) (c1 c2 : Call) (h1 : upd σ.calls p next q = some c1)
    (h2 : upd σ.calls p next r = some c2) (hid : c1.id = c2.id) : q = r := by
  rcases other_calls h hp h1 with ⟨e1, hd1⟩ | ⟨h1, hne1⟩ <;> rcases other_calls h hp h2 with ⟨e2, hd2⟩ | ⟨h2, hne2⟩
  · rw [e1, e2]
  · exact absurd (hid.symm.trans (hn _ hd1)) hne2
  · exact absurd (hid.trans (hn _ hd2)) hne1
  · exact h.apart q r c1 c2 h1 h2 hid

/-- The call returns without another use. -/
theorem done_inv {c : Call} (h : Inv sb f ip m off σ) (hp : σ.calls p = some c) (hi : ¬ c.i < c.n.toNat) :
    Inv sb f ip m off { σ with calls := upd σ.calls p none, returned := σ.returned ++ [(c, c.ret)] } := by
  obtain ⟨hid, hle, hran⟩ := h.active p c hp
  refine ⟨h.idle, h.follows, h.stored, h.ids, fun q d hd => ?_, apart_turn h hp (by simp), fun x hx => ?_⟩
  · rcases other_calls h hp hd with ⟨-, e⟩ | ⟨hd, -⟩
    · cases e
    · exact h.active q d hd
  · rcases List.mem_append.mp hx with hx | hx
    · obtain ⟨h1, h2, h3⟩ := h.returned x hx
      refine ⟨h1, fun q d hd => ?_, h3⟩
      rcases other_calls h hp hd with ⟨-, e⟩ | ⟨hd, -⟩
      · cases e
      · exact h2 q d hd
    · obtain rfl := List.mem_singleton.mp hx
      refine ⟨hid, fun q d hd => ?_, fun _ => ?_⟩
      · rcases other_calls h hp hd with ⟨-, e⟩ | ⟨-, hne⟩
        · cases e
        · exact hne
      · have he : c.i = c.n.toNat := by omega
        show Ran σ.uses c c.n.toNat
        rw [← he]
        exact hran

/-- A turn whose section is `u`. -/
theorem chunk_inv (next : Option Call) (ret : List (Call × Int)) {c : Call}
    (h : Inv sb f ip m off σ) (hp : σ.calls p = some c) (hv : Idle sb v f ip m fs')
    (hs : Section sb f ip σ.fs fs' u.len) (hu : u = ⟨c.id, true, (σ.fs.ftable f).off, u.len, c.src, c.i⟩)
    (hst : ∀ k, k < u.len → seen sb ip fs' ((σ.fs.ftable f).off + k) = c.src (c.i + k) ∧ c.src (c.i + k) ≠ none)
    (hnext : ∀ d, next = some d → d = { c with i := c.i + u.len } ∧ c.i + u.len ≤ c.n.toNat)
    (hret : ∀ x ∈ ret, x.1 = c ∧ x.2 ≠ c.n ∧ next = none) :
    Inv sb f ip m off
      { σ with fs := fs', calls := upd σ.calls p next, uses := σ.uses ++ [u], returned := σ.returned ++ ret } := by
  obtain ⟨hid, hle, hran⟩ := h.active p c hp
  have huid : u.id = c.id := by rw [hu]
  have hran' := hran.more huid (by rw [hu]) (by rw [hu]) (by rw [hu])
  obtain ⟨h1, h2⟩ := h.section hs (u := u) (by rw [hu]) rfl fun _ k hk => by
    have h3 := hst k hk
    rw [hu]
    exact h3
  refine ⟨⟨v, hv⟩, h1, h2, fun w hw => ?_, fun q d hd => ?_, apart_turn h hp fun d hd => by rw [(hnext d hd).1],
    fun x hx => ?_⟩
  · rcases List.mem_append.mp hw with hw | hw
    · exact h.ids w hw
    · obtain rfl := List.mem_singleton.mp hw
      rw [huid]
      exact hid
  · rcases other_calls h hp hd with ⟨-, e⟩ | ⟨hd, hne⟩
    · obtain ⟨rfl, hi⟩ := hnext d e
      exact ⟨hid, hi, hran'.order, hran'.mine⟩
    · obtain ⟨h3, h4, h5⟩ := h.active q d hd
      exact ⟨h3, h4, h5.other (by rw [huid]; exact hne.symm)⟩
  · rcases List.mem_append.mp hx with hx | hx
    · obtain ⟨h3, h4, h5⟩ := h.returned x hx
      refine ⟨h3, fun q d hd => ?_, fun e => (h5 e).other (by rw [huid]; exact h4 p c hp)⟩
      rcases other_calls h hp hd with ⟨-, e⟩ | ⟨hd, -⟩
      · rw [(hnext d e).1]
        exact h4 p c hp
      · exact h4 q d hd
    · obtain ⟨e1, e2, e3⟩ := hret x hx
      refine ⟨e1 ▸ hid, fun q d hd => ?_, fun e => absurd (e1 ▸ e) e2⟩
      rcases other_calls h hp hd with ⟨-, e⟩ | ⟨-, hne⟩
      · rw [e3] at e
        cases e
      · rw [e1]
        exact hne

theorem turn_inv (h : Inv sb f ip m off σ) (hs : step sb f σ (.turn p) = some σ') : Inv sb f ip m off σ' := by
  simp only [step] at hs
  split at hs
  case h_2 => cases hs
  case h_1 c hp =>
    unfold Sys.turn at hs
    split at hs
    case isFalse hdone =>
      cases hs
      exact done_inv h hp hdone
    case isTrue hlt =>
      obtain ⟨v, hv⟩ := h.idle
      simp only [hv.ip] at hs
      split at hs
      case h_2 => cases hs
      case h_1 r fs' hr =>
        obtain ⟨⟨v', hv'⟩, hsec, hle, hst⟩ := wp_ok (writeChunk_spec hv _ _) hr
        split at hs
        case isTrue hshort =>
          cases hs
          refine chunk_inv none [(c, c.ret)] h hp hv' hsec rfl hst nofun fun x hx => ?_
          obtain rfl := List.mem_singleton.mp hx
          refine ⟨rfl, ?_, rfl⟩
          show c.ret ≠ c.n
          unfold Call.ret
          split <;> omega
        case isFalse hfull =>
          cases hs
          have hn : r.toNat = min (c.n.toNat - c.i) maxChunk := by omega
          have hnext : c.i + r.toNat ≤ c.n.toNat := by omega
          have hinv := chunk_inv (u := ⟨c.id, true, (σ.fs.ftable f).off, r.toNat, c.src, c.i⟩)
            (some { c with i := c.i + r.toNat }) [] h hp hv' hsec rfl hst
            (fun d hd => ⟨(Option.some.inj hd).symm, hnext⟩) nofun
          rw [List.append_nil] at hinv
          rw [← hn]
          exact hinv

theorem reach_inv (h0 : Idle sb v f ip m fs) (h : Reach sb f fs σ) : Inv sb f ip m (fs.ftable f).off σ := by
  induction h with
  | start => exact ⟨⟨v, h0⟩, rfl, nofun, nofun, nofun, nofun, nofun⟩
  | step e _ hs ih =>
    cases e with
    | write p src n => exact write_inv ih hs
    | turn p => exact turn_inv ih hs
    | read p dst n => exact read_inv ih hs

theorem step_write (sb : Superblock) (f : Nat) (hp : σ.calls p = none) (src : Src) (n : Int) :
    step sb f σ (.write p src n) =
      if (σ.fs.ftable f).writable = false then
        some { σ with next := σ.next + 1, returned := σ.returned ++ [(⟨σ.next, src, n, 0⟩, -1)] }
      else some { σ with next := σ.next + 1, calls := upd σ.calls p (some ⟨σ.next, src, n, 0⟩) } := by
  simp only [step, hp]

theorem step_done {c : Call} (hp : σ.calls p = some c) (hi : ¬ c.i < c.n.toNat) :
    step sb f σ (.turn p) = some { σ with calls := upd σ.calls p none, returned := σ.returned ++ [(c, c.ret)] } := by
  simp only [step, hp, Sys.turn, if_neg hi]

theorem step_chunk {c : Call} {r : Int} (hp : σ.calls p = some c) (hi : c.i < c.n.toNat)
    (hip : (σ.fs.ftable f).ip = ip)
    (hw : writeChunk sb f ip (fun k => c.src (c.i + k)) (min (c.n.toNat - c.i) maxChunk) σ.fs = .ok r fs') :
    step sb f σ (.turn p) =
      let σ1 : Sys := { σ with fs := fs', uses := σ.uses ++ [⟨c.id, true, (σ.fs.ftable f).off, r.toNat, c.src, c.i⟩] }
      if r ≠ (min (c.n.toNat - c.i) maxChunk : Nat) then
        some { σ1 with calls := upd σ.calls p none, returned := σ.returned ++ [(c, c.ret)] }
      else some { σ1 with calls := upd σ.calls p (some { c with i := c.i + min (c.n.toNat - c.i) maxChunk }) } := by
  simp only [step, hp, Sys.turn, if_pos hi, hip, hw]

/-- `filewrite`'s loop, run without interruption, is the turns of its call. -/
theorem loop_turns {fuel j : Nat} {c : Call} (h0 : Idle sb v f ip m fs) (h : Reach sb f fs σ)
    (hp : σ.calls p = some c) (hfuel : c.n.toNat - c.i ≤ fuel)
    (hl : filewriteLoop sb f ip c.src c.n.toNat fuel c.i σ.fs = .ok j fs') :
    ∃ σ', Reach sb f fs σ' ∧ σ'.fs = fs' ∧
      σ'.returned = σ.returned ++ [({ c with i := j }, if (j : Int) = c.n then c.n else -1)] := by
  induction fuel generalizing σ c with
  | zero =>
    cases hl
    exact ⟨_, h.step _ (step_done hp (by omega)), rfl, rfl⟩
  | succ fuel ih =>
    unfold filewriteLoop at hl
    split at hl
    case isFalse hdone =>
      cases hl
      exact ⟨_, h.step _ (step_done hp hdone), rfl, rfl⟩
    case isTrue hlt =>
      obtain ⟨_, hv⟩ := (reach_inv h0 h).idle
      simp only [bind, EStateM.bind] at hl
      cases hw : writeChunk sb f ip (fun k => c.src (c.i + k)) (min (c.n.toNat - c.i) maxChunk) σ.fs with
      | error e s =>
        rw [hw] at hl
        cases hl
      | ok r fs1 =>
        rw [hw] at hl
        dsimp only at hl
        split at hl
        case isTrue hshort =>
          cases hl
          have hs := step_chunk hp hlt hv.ip hw
          rw [if_pos hshort] at hs
          exact ⟨_, h.step _ hs, rfl, rfl⟩
        case isFalse hfull =>
          have hs := step_chunk hp hlt hv.ip hw
          rw [if_neg hfull] at hs
          have hpos : 0 < maxChunk := by decide
          have hfuel' : c.n.toNat - (c.i + min (c.n.toNat - c.i) maxChunk) ≤ fuel := by omega
          have hrest := ih (h.step _ hs) (upd_same _ _ _) hfuel' hl
          exact hrest

/-- A `filewrite` that nothing interrupts is one of the runs, and returns what is recorded. -/
theorem filewrite_turns {p : Nat} {n ext r : Int} {fs' : St} (h0 : Idle sb v f ip m fs) (h : Reach sb f fs σ)
    (hp : σ.calls p = none) (hf : filewrite sb f src n ext σ.fs = .ok r fs') :
    ∃ σ' c, Reach sb f fs σ' ∧ σ'.fs = fs' ∧ σ'.returned = σ.returned ++ [(c, r)] ∧ c.src = src ∧ c.n = n := by
  obtain ⟨_, hv⟩ := (reach_inv h0 h).idle
  unfold filewrite at hf
  by_cases hw : (σ.fs.ftable f).writable = false
  · have hr : r = -1 ∧ fs' = σ.fs := by
      simp only [bind, EStateM.bind, get, getThe, MonadStateOf.get, EStateM.get, if_pos hw] at hf
      cases hf
      exact ⟨rfl, rfl⟩
    obtain ⟨rfl, rfl⟩ := hr
    have hs := step_write sb f hp src n
    rw [if_pos hw] at hs
    exact ⟨_, _, h.step _ hs, rfl, rfl, rfl, rfl⟩
  · have hs := step_write sb f hp src n
    rw [if_neg hw] at hs
    simp only [bind, EStateM.bind, get, getThe, MonadStateOf.get, EStateM.get, if_neg hw, hv.type, hv.ip] at hf
    cases hl : filewriteLoop sb f ip src n.toNat n.toNat 0 σ.fs with
    | error e s =>
      rw [hl] at hf
      cases hf
    | ok j fs1 =>
      rw [hl] at hf
      cases hf
      obtain ⟨σ', h1, h2, h3⟩ := loop_turns h0 (h.step _ hs) (upd_same _ _ _) (Nat.sub_le _ _) hl
      exact ⟨σ', _, h1, h2, h3, rfl, rfl⟩

/-- Any number of processes write and read through `f`, in any interleaving of their sections: each use of `f->off`
    starts
where the one before ended, so `f->off` is past the bytes used and no two uses overlap; all that was stored is still
in the
file; and what a `filewrite` returned `n` for are its `n` bytes, in order. -/
theorem shared_offset (h0 : Idle sb v f ip m fs) (h : Reach sb f fs σ) :
    Follows (fs.ftable f).off σ.uses (σ.fs.ftable f).off ∧
      (σ.fs.ftable f).off = (fs.ftable f).off + (σ.uses.map Use.len).sum ∧
      σ.uses.Pairwise (fun u w => u.off + u.len ≤ w.off) ∧
      (∀ u ∈ σ.uses, u.stores = true → ∀ k, k < u.len →
        seen sb ip σ.fs (u.off + k) = u.src (u.start + k) ∧ u.src (u.start + k) ≠ none) ∧
      ∀ x ∈ σ.returned, x.2 = x.1.n → InOrder 0 (usesOf σ.uses x.1.id) x.1.n.toNat ∧
        ∀ u ∈ usesOf σ.uses x.1.id, u.stores = true ∧ u.src = x.1.src := by
  have hi := reach_inv h0 h
  obtain ⟨h1, -, h2⟩ := hi.follows.bounds
  refine ⟨hi.follows, h1.symm, h2, hi.stored, fun x hx e => ?_⟩
  have hran := (hi.returned x hx).2.2 e
  exact ⟨hran.order, hran.mine⟩

/-- `tiny` between operations, its file open for reading and writing in entry 0. -/
def tinyShared : St :=
  { tiny with
    outstanding := 0
    itable := fun i => if i = 0 then ⟨ROOTDEV, 1, 1, false, true, tinyInode⟩ else ⟨0, 0, 0, false, false, .zero⟩
    ftable := fun f => if f = 0 then ⟨.inode, 2, true, true, 0, 0, 0⟩ else ⟨.none, 0, false, false, 0, 0, 0⟩ }

theorem tinyShared_idle : Idle tinySb tinyView 0 0 1 tinyShared where
  core := by
    have hino : tinySb.ino tinyDisk 1 = tinyInode := getDinode_put_same _ _ tinyInode_wf
    have he : SameEntries tiny tinyShared := fun i => by
      by_cases e : i = 0 <;> simp [tiny, tinyShared, e]
    have hc : Core tinySb tinyView 1 tinyShared := tiny_core.congr rfl he fun _ => id
    refine ⟨hc.fs, fun m hm _ => ?_, hc.table, hc.unique, hc.clean⟩
    obtain rfl := tiny_inum hm
    exact hino
  outstanding := rfl
  lh := rfl
  opened := ⟨by decide, by decide, rfl, rfl⟩
  lock := rfl
  regular := rfl
  type := rfl
  ip := rfl

/-- Process 0 writes two bytes 7 and process 1 three bytes 9; process 1's section comes first. -/
def tinyRun : List Ev :=
  [.write 0 (kernelSrc fun _ => 7) 2, .write 1 (kernelSrc fun _ => 9) 3, .turn 1, .turn 0, .turn 1, .turn 0]

theorem reach_run {es : List Ev} (h : Reach sb f fs σ) (hr : es.foldlM (step sb f) σ = some σ') : Reach sb f fs σ' := by
  induction es generalizing σ with
  | nil =>
    cases hr
    exact h
  | cons e es ih =>
    rw [List.foldlM_cons] at hr
    cases hs : step sb f σ e with
    | none =>
      rw [hs] at hr
      cases hr
    | some σ1 =>
      rw [hs] at hr
      exact ih (h.step e hs) hr

theorem shared_offset_two : ∃ σ, Reach tinySb 0 tinyShared σ ∧ (σ.fs.ftable 0).off = 5 ∧
    σ.uses.map (fun u => (u.id, u.off, u.len)) = [(1, 0, 3), (0, 3, 2)] ∧
    σ.returned.map (fun x => (x.1.id, x.2)) = [(1, 3), (0, 2)] ∧
    ∀ u ∈ σ.uses, u.stores = true → ∀ k, k < u.len → seen tinySb 0 σ.fs (u.off + k) = u.src (u.start + k) := by
  have hrun : (tinyRun.foldlM (step tinySb 0) (start tinyShared)).map
      (fun σ => (σ.uses.map (fun u => (u.id, u.off, u.len)), σ.returned.map (fun x => (x.1.id, x.2)))) =
      some ([(1, 0, 3), (0, 3, 2)], [(1, 3), (0, 2)]) := by decide +kernel
  obtain ⟨σ, hσ, he⟩ := Option.map_eq_some_iff.mp hrun
  have hr : Reach tinySb 0 tinyShared σ := reach_run .start hσ
  obtain ⟨-, hoff, -, hst, -⟩ := shared_offset tinyShared_idle hr
  obtain ⟨h1, h2⟩ := Prod.mk.inj he
  refine ⟨σ, hr, ?_, h1, h2, fun u hu hs k hk => (hst u hu hs k hk).1⟩
  have hlen : σ.uses.map Use.len = [3, 2] := by
    have := congrArg (List.map fun x => x.2.2) h1
    rw [List.map_map] at this
    exact this
  rw [hoff, hlen]
  rfl

/-- Three bytes 7. -/
theorem filewrite_turns_three : ∃ σ c, Reach tinySb 0 tinyShared σ ∧ σ.returned = [(c, 3)] ∧ c.n = 3 ∧
    (σ.fs.ftable 0).off = 3 ∧ ∀ k < 3, seen tinySb 0 σ.fs k = some 7 := by
  have hrun : wp (filewrite tinySb 0 (kernelSrc fun _ => 7) 3 0)
      (fun r s' => r = 3 ∧ (s'.ftable 0).off = 3 ∧ ∀ k < 3, seen tinySb 0 s' k = some 7)
      (fun _ _ => False) tinyShared := by
    decide +kernel
  obtain ⟨r, s', hf, rfl, hs⟩ := wp_returns hrun fun _ _ => id
  obtain ⟨σ, c, h1, rfl, h2, -, h3⟩ := filewrite_turns (p := 0) tinyShared_idle .start rfl hf
  exact ⟨σ, c, h1, h2, h3, hs⟩

end Xv6.Fs.Shared
