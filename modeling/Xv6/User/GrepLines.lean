/-
  Xv6.User.GrepLines — what `grep` of user/grep.c writes does not depend on how its input is cut
  into pieces by `read`.

  The lines of an input are read off it from the right (`linesOf`); behind a first part of the input, its
  lines are done with and its rest is the beginning of the next line (`linesOf_append`). That
  rest is what `buf` holds between two calls of `read`, at the front and `m` bytes long.
-/
import Xv6.User.GrepMatch

namespace Xv6.User.Grep

variable {b b' : Buf} {p q n fuel : Nat} {c : UInt8} {u v w x y o pattern : Bytes}

/-! ## Lines -/

def pushByte (c : UInt8) (p : List Bytes × Bytes) : List Bytes × Bytes :=
  if c = 10 then ([10] :: p.1, p.2)
  else match p.1 with
    | [] => ([], c :: p.2)
    | l :: ls => ((c :: l) :: ls, p.2)

/-- The lines of an input with their newlines, and the rest without one. -/
def linesOf (x : Bytes) : List Bytes × Bytes := x.foldr pushByte ([], [])

theorem linesOf_cons (c : UInt8) (x : Bytes) : linesOf (c :: x) = pushByte c (linesOf x) := rfl

theorem linesOf_newline (x : Bytes) : linesOf (10 :: x) = ([10] :: (linesOf x).1, (linesOf x).2) := rfl

/-- A byte that is no newline goes to the first line, or to the rest if there is none. -/
theorem linesOf_byte (hc : c ≠ 10) (x : Bytes) : linesOf (c :: x) =
    match (linesOf x).1 with
    | [] => ([], c :: (linesOf x).2)
    | l :: ls => ((c :: l) :: ls, (linesOf x).2) := by
  rw [linesOf_cons]
  unfold pushByte
  rw [if_neg hc]

theorem newline_notMem_rest (x : Bytes) : 10 ∉ (linesOf x).2 := by
  induction x with
  | nil => exact List.not_mem_nil
  | cons c x ih =>
    by_cases hc : c = 10
    · rw [hc, linesOf_newline]
      exact ih
    · rw [linesOf_byte hc]
      cases (linesOf x).1 with
      | nil =>
        intro h
        rcases List.mem_cons.mp h with h | h
        · exact hc h.symm
        · exact ih h
      | cons l ls => exact ih

theorem linesOf_line (hu : 10 ∉ u) (x : Bytes) :
    linesOf (u ++ 10 :: x) = ((u ++ [10]) :: (linesOf x).1, (linesOf x).2) := by
  induction u with
  | nil => exact linesOf_newline x
  | cons c u ih =>
    have hc : c ≠ 10 := fun e => hu (e ▸ List.mem_cons_self)
    rw [List.cons_append, linesOf_byte hc, ih fun h => hu (List.mem_cons_of_mem _ h)]
    rfl

theorem linesOf_none (hu : 10 ∉ u) : linesOf u = ([], u) := by
  induction u with
  | nil => rfl
  | cons c u ih =>
    have hc : c ≠ 10 := fun e => hu (e ▸ List.mem_cons_self)
    rw [linesOf_byte hc, ih fun h => hu (List.mem_cons_of_mem _ h)]

/-- Behind `x`, its lines are done with and its rest begins the next line. -/
theorem linesOf_append (x y : Bytes) :
    linesOf (x ++ y) = ((linesOf x).1 ++ (linesOf ((linesOf x).2 ++ y)).1, (linesOf ((linesOf x).2 ++ y)).2) := by
  induction x with
  | nil => rfl
  | cons c x ih =>
    rw [List.cons_append, linesOf_cons, ih]
    by_cases hc : c = 10
    · rw [hc, linesOf_newline]
      rfl
    · rw [linesOf_byte hc]
      unfold pushByte
      rw [if_neg hc]
      rcases linesOf x with ⟨ls, r⟩
      cases ls with
      | nil =>
        dsimp only
        rw [List.cons_append, linesOf_byte hc]
        rfl
      | cons l ls => rfl

theorem linesOf_flatten (x : Bytes) : (linesOf x).1.flatten ++ (linesOf x).2 = x := by
  induction x with
  | nil => rfl
  | cons c x ih =>
    by_cases hc : c = 10
    · rw [hc, linesOf_newline, List.flatten_cons, List.append_assoc, ih]
      rfl
    · rw [linesOf_byte hc]
      rcases hx : linesOf x with ⟨ls, r⟩
      rw [hx] at ih
      cases ls with
      | nil => exact congrArg (c :: ·) ih
      | cons l ls => exact congrArg (c :: ·) ih

/-- The first newline. -/
theorem newline_split (h : 10 ∈ w) : ∃ u v, w = u ++ 10 :: v ∧ 10 ∉ u := by
  induction w with
  | nil => cases h
  | cons c w ih =>
    by_cases hc : c = 10
    · exact ⟨[], w, by rw [hc]; rfl, List.not_mem_nil⟩
    · have hw : 10 ∈ w := by
        rcases List.mem_cons.mp h with h | h
        · exact absurd h.symm hc
        · exact h
      obtain ⟨u, v, rfl, hu⟩ := ih hw
      refine ⟨c :: u, v, rfl, ?_⟩
      intro h
      rcases List.mem_cons.mp h with h | h
      · exact hc h.symm
      · exact hu h

def Fits (x : Bytes) : Prop := (∀ l ∈ (linesOf x).1, l.length ≤ BUFSZ - 1) ∧ (linesOf x).2.length ≤ BUFSZ - 1

/-- What is unfinished fits, and there is room for more if there is more. -/
theorem Fits.rest (h : Fits (x ++ y)) :
    (linesOf x).2.length ≤ BUFSZ - 1 ∧ (y ≠ [] → (linesOf x).2.length < BUFSZ - 1) := by
  have hr := newline_notMem_rest x
  obtain ⟨hlines, hrest⟩ := h
  rw [linesOf_append] at hlines hrest
  by_cases hy : 10 ∈ y
  · obtain ⟨u, v, rfl, hu⟩ := newline_split hy
    have hru : 10 ∉ (linesOf x).2 ++ u := by
      intro h
      rcases List.mem_append.mp h with h | h
      · exact hr h
      · exact hu h
    rw [← List.append_assoc, linesOf_line hru] at hlines
    have hlen := hlines ((linesOf x).2 ++ u ++ [10]) (List.mem_append_right _ List.mem_cons_self)
    simp only [List.length_append, List.length_cons, List.length_nil] at hlen
    exact ⟨by omega, fun _ => by omega⟩
  · have hry : 10 ∉ (linesOf x).2 ++ y := by
      intro h
      rcases List.mem_append.mp h with h | h
      · exact hr h
      · exact hy h
    rw [linesOf_none hry, List.length_append] at hrest
    refine ⟨by omega, ?_⟩
    intro hne
    have := List.length_pos_of_ne_nil hne
    omega

open Classical in
noncomputable def picked (pattern x : Bytes) : Bytes :=
  ((linesOf x).1.filter fun l => decide ((Pattern.parse pattern).Matches l.dropLast)).flatten

theorem picked_append (x y : Bytes) :
    picked pattern (x ++ y) = picked pattern x ++ picked pattern ((linesOf x).2 ++ y) := by
  unfold picked
  rw [linesOf_append, List.filter_append, List.flatten_append]

theorem picked_none (hu : 10 ∉ u) : picked pattern u = [] := by
  unfold picked
  rw [linesOf_none hu]
  rfl

theorem picked_match (hu : 10 ∉ u) (h : (Pattern.parse pattern).Matches u) :
    picked pattern (u ++ 10 :: v) = u ++ [10] ++ picked pattern v := by
  classical
  unfold picked
  rw [linesOf_line hu, List.filter_cons, List.dropLast_concat, if_pos (decide_eq_true h), List.flatten_cons]

theorem picked_skip (hu : 10 ∉ u) (h : ¬ (Pattern.parse pattern).Matches u) :
    picked pattern (u ++ 10 :: v) = picked pattern v := by
  classical
  unfold picked
  rw [linesOf_line hu, List.filter_cons, List.dropLast_concat, if_neg fun hm => h (of_decide_eq_true hm)]

/-! ## The buffer -/

def Holds (b : Buf) : Nat → Bytes → Prop
  | _, [] => True
  | p, c :: w => b p = c ∧ Holds b (p + 1) w

theorem Holds.congr (h : Holds b p w) (hb : ∀ i, p ≤ i → i < p + w.length → b' i = b i) : Holds b' p w := by
  induction w generalizing p with
  | nil => trivial
  | cons c w ih =>
    rw [List.length_cons] at hb
    refine ⟨(hb p (Nat.le_refl p) (by omega)).trans h.1, ih h.2 ?_⟩
    intro i h1 h2
    exact hb i (by omega) (by omega)

theorem holds_append : Holds b p (u ++ v) ↔ Holds b p u ∧ Holds b (p + u.length) v := by
  induction u generalizing p with
  | nil => simp [Holds]
  | cons c u ih =>
    rw [List.cons_append, List.length_cons, Nat.add_comm u.length, ← Nat.add_assoc]
    simp only [Holds, ih, and_assoc]

theorem holds_fill (b : Buf) (p : Nat) (w : Bytes) : Holds (fill b p w) p w := by
  have hgen : ∀ (v : Bytes) (k : Nat), (∀ i, i < v.length → w.getD (k + i) 0 = v.getD i 0) → k + v.length = w.length →
      Holds (fill b p w) (p + k) v := by
    intro v
    induction v with
    | nil => exact fun _ _ _ => trivial
    | cons c v ih =>
      intro k hv hlen
      rw [List.length_cons] at hv hlen
      refine ⟨?_, ih (k + 1) ?_ (by omega)⟩
      · unfold fill
        rw [if_pos (by omega), Nat.add_sub_cancel_left]
        exact hv 0 (by omega)
      · intro i hi
        rw [Nat.add_assoc, Nat.add_comm 1 i]
        exact hv (i + 1) (by omega)
  exact hgen w 0 (fun i _ => by rw [Nat.zero_add]) (Nat.zero_add _)

theorem fill_low {i : Nat} (h : i < p) : fill b p w i = b i := by
  unfold fill
  rw [if_neg (by omega)]

theorem load_eq (h : p < BUFSZ) : load b p = .ok (b p) := if_pos h

theorem store_eq (h : p < BUFSZ) : store b p c = .ok (upd b p c) := if_pos h

structure Str (b : Buf) (p : Nat) (w : Bytes) : Prop where
  holds : Holds b p w
  ends : b (p + w.length) = 0
  nul : 0 ∉ w
  inside : p + w.length < BUFSZ

theorem Str.tail (h : Str b p (c :: w)) : Str b (p + 1) w := by
  obtain ⟨h1, h2, h3, h4⟩ := h
  rw [List.length_cons] at h2 h4
  refine ⟨h1.2, ?_, fun h => h3 (List.mem_cons_of_mem _ h), by omega⟩
  rw [Nat.add_assoc, Nat.add_comm 1]
  exact h2

theorem Str.head (h : Str b p (c :: w)) : load b p = .ok c ∧ c ≠ 0 := by
  have hin := h.inside
  rw [load_eq (by omega), h.holds.1]
  exact ⟨rfl, fun e => h.nul (e ▸ List.mem_cons_self)⟩

theorem Str.stop (h : Str b p []) : load b p = .ok 0 := by
  have hin : p < BUFSZ := h.inside
  rw [load_eq hin]
  exact congrArg _ h.ends

theorem Str.drop (h : Str b p (u ++ v)) : Str b (p + u.length) v := by
  obtain ⟨h1, h2, h3, h4⟩ := h
  rw [List.length_append] at h2 h4
  refine ⟨(holds_append.mp h1).2, ?_, fun h => h3 (List.mem_append_right _ h), by omega⟩
  rw [Nat.add_assoc]
  exact h2

theorem strchr_none (h : Str b p w) (hc : c ∉ w) (hf : w.length < fuel) : strchr b c fuel p = .ok none := by
  induction w generalizing p fuel with
  | nil =>
    cases fuel with
    | zero => cases hf
    | succ fuel =>
      rw [strchr, h.stop]
      rfl
  | cons x w ih =>
    cases fuel with
    | zero => cases hf
    | succ fuel =>
      obtain ⟨hx, hx0⟩ := h.head
      have hxc : x ≠ c := fun e => hc (e ▸ List.mem_cons_self)
      rw [strchr, hx]
      show (if x = 0 then _ else if x = c then _ else _) = _
      rw [if_neg hx0, if_neg hxc]
      exact ih h.tail (fun h => hc (List.mem_cons_of_mem _ h)) (Nat.lt_of_succ_lt_succ hf)

theorem strchr_some (h : Str b p (u ++ c :: v)) (hc : c ∉ u) (hf : u.length < fuel) :
    strchr b c fuel p = .ok (some (p + u.length)) := by
  induction u generalizing p fuel with
  | nil =>
    cases fuel with
    | zero => cases hf
    | succ fuel =>
      obtain ⟨hx, hx0⟩ := Str.head (w := v) h
      rw [strchr, hx]
      show (if c = 0 then _ else if c = c then _ else _) = _
      rw [if_neg hx0, if_pos rfl]
      rfl
  | cons x u ih =>
    cases fuel with
    | zero => cases hf
    | succ fuel =>
      obtain ⟨hx, hx0⟩ := Str.head (w := u ++ c :: v) h
      have hxc : x ≠ c := fun e => hc (e ▸ List.mem_cons_self)
      rw [strchr, hx]
      show (if x = 0 then _ else if x = c then _ else _) = _
      rw [if_neg hx0, if_neg hxc, ih (Str.tail (c := x) h) (fun h => hc (List.mem_cons_of_mem _ h))
        (Nat.lt_of_succ_lt_succ hf), List.length_cons, Nat.add_assoc, Nat.add_comm 1]

theorem cstr_eq (h : Str b p w) (hf : w.length < fuel) : cstr b fuel p = .ok w := by
  induction w generalizing p fuel with
  | nil =>
    cases fuel with
    | zero => cases hf
    | succ fuel =>
      rw [cstr, h.stop]
      rfl
  | cons x w ih =>
    cases fuel with
    | zero => cases hf
    | succ fuel =>
      obtain ⟨hx, hx0⟩ := h.head
      rw [cstr, hx]
      show (if x = 0 then _ else _) = _
      rw [if_neg hx0, ih h.tail (Nat.lt_of_succ_lt_succ hf)]
      rfl

theorem bytes_eq (h : Holds b p w) (hw : p + w.length ≤ BUFSZ) : bytes b p w.length = .ok w := by
  induction w generalizing p with
  | nil => rfl
  | cons c w ih =>
    rw [List.length_cons] at hw ⊢
    rw [bytes, load_eq (by omega), h.1, ih h.2 (by omega)]
    rfl

/-! ## memmove -/

theorem copyUp_moves {d : Nat} (h : Holds b p w) (hlt : d < p) (hw : p + w.length ≤ BUFSZ) :
    ∃ b', copyUp w.length d p b = .ok b' ∧ Holds b' d w ∧ ∀ i < d, b' i = b i := by
  induction w generalizing b p d with
  | nil => exact ⟨b, rfl, trivial, fun _ _ => rfl⟩
  | cons c w ih =>
    rw [List.length_cons] at hw ⊢
    have hrest : Holds (upd b d c) (p + 1) w := by
      refine h.2.congr ?_
      intro i h1 _
      exact upd_ne (by omega) _
    obtain ⟨b', hb', hh, hlow⟩ := ih hrest (d := d + 1) (by omega) (by omega)
    refine ⟨b', ?_, ⟨?_, hh⟩, ?_⟩
    · rw [copyUp, load_eq (by omega), h.1]
      show (store b d c >>= _) = _
      rw [store_eq (by omega)]
      exact hb'
    · rw [hlow d (by omega), upd_same]
    · intro i hi
      rw [hlow i (by omega), upd_ne (by omega)]

/-- A string that is moved to where it is. -/
theorem copyDown_self (n k : Nat) (hk : k ≤ BUFSZ) (hn : n ≤ k) : copyDown n k k b = .ok b := by
  induction n generalizing k with
  | zero => rfl
  | succ n ih =>
    rw [copyDown, load_eq (by omega)]
    show (store b (k - 1) (b (k - 1)) >>= _) = _
    rw [store_eq (by omega), upd_self]
    exact ih (k - 1) (by omega) (by omega)

theorem memmove_front (h : Holds b p w) (hw : p + w.length ≤ BUFSZ) :
    ∃ b', memmove 0 p w.length b = .ok b' ∧ Holds b' 0 w := by
  unfold memmove
  by_cases hp : p > 0
  · rw [if_pos hp]
    obtain ⟨b', hb', hh, -⟩ := copyUp_moves h hp hw
    exact ⟨b', hb', hh⟩
  · rw [if_neg hp]
    obtain rfl : p = 0 := by omega
    exact ⟨b, copyDown_self _ _ (by omega) (by omega), h⟩

/-! ## The loops -/

/-- The newline is overwritten: what is in front of it is a string, and what is behind it stands. -/
theorem Str.cut (h : Str b p (u ++ 10 :: v)) :
    Str (upd b (p + u.length) 0) p u ∧ Str (upd b (p + u.length) 0) (p + u.length + 1) v := by
  have hin := h.inside
  simp only [List.length_append, List.length_cons] at hin
  obtain ⟨hu, hv⟩ := holds_append.mp h.holds
  have hend := h.ends
  simp only [List.length_append, List.length_cons] at hend
  refine ⟨⟨hu.congr ?_, upd_same _ _ _, ?_, by omega⟩, ⟨hv.2.congr ?_, ?_, ?_, by omega⟩⟩
  · intro i _ h2
    exact upd_ne (by omega) _
  · intro h0
    exact h.nul (List.mem_append_left _ h0)
  · intro i h1 _
    exact upd_ne (by omega) _
  · rw [upd_ne (by omega), ← hend]
    congr 1
    omega
  · intro h0
    exact h.nul (List.mem_append_right _ (List.mem_cons_of_mem _ h0))

/-- The lines of the buffer are done with: those that match are written, and `p` is behind the last. -/
theorem grepLines_spec (hpat : 0 ∉ pattern) (h : Str b p w) (hf : w.length < fuel) :
    ∃ b' p', grepLines pattern fuel b p o = .ok (b', p', o ++ picked pattern w) ∧
      p' + (linesOf w).2.length = p + w.length ∧ Holds b' p' (linesOf w).2 := by
  induction fuel generalizing b p w o with
  | zero => cases hf
  | succ fuel ih =>
    have hin := h.inside
    rw [grepLines]
    by_cases hw : 10 ∈ w
    · obtain ⟨u, v, rfl, hu⟩ := newline_split hw
      simp only [List.length_append, List.length_cons] at hin hf
      obtain ⟨hfirst, hrest⟩ := h.cut
      -- the line is written or not; then the loop is at the next
      have hnext : ∀ b1 out1, Str b1 (p + u.length + 1) v → out1 ++ picked pattern v = o ++ picked pattern
          (u ++ 10 :: v) →
          ∃ b' p', grepLines pattern fuel b1 (p + u.length + 1) out1 = .ok
            (b', p', o ++ picked pattern (u ++ 10 :: v)) ∧
            p' + (linesOf (u ++ 10 :: v)).2.length = p + (u ++ 10 :: v).length ∧
              Holds b' p' (linesOf (u ++ 10 :: v)).2 := by
        intro b1 out1 hb1 hout
        obtain ⟨b', p', hrun, hp', hh⟩ := @ih _ _ _ out1 hb1 (by omega)
        rw [linesOf_line hu, ← hout]
        refine ⟨b', p', hrun, ?_, hh⟩
        simp only [List.length_append, List.length_cons]
        omega
      rw [strchr_some h hu (by omega)]
      show ∃ b' p', (store b (p + u.length) 0 >>= _) = _ ∧ _
      rw [store_eq (by omega)]
      show ∃ b' p', (cstr (upd b (p + u.length) 0) (BUFSZ + 1) p >>= _) = _ ∧ _
      rw [cstr_eq hfirst (by omega)]
      show ∃ b' p', (matchRe (2 * pattern.length + BUFSZ + 2) pattern u >>= _) = _ ∧ _
      have hcost : 2 * pattern.length + u.length + 2 ≤ 2 * pattern.length + BUFSZ + 2 := by omega
      rcases matchRe_spec hpat hfirst.nul hcost with ⟨hm, hmatch⟩ | ⟨hm, hmatch⟩
      · have hback : upd (upd b (p + u.length) 0) (p + u.length) 10 = b := by
          rw [upd_upd]
          have h10 : b (p + u.length) = 10 := (holds_append.mp h.holds).2.1
          exact h10 ▸ upd_self b _
        have hline : Holds b p (u ++ [10]) := by
          obtain ⟨h1, h2⟩ := holds_append.mp h.holds
          exact holds_append.mpr ⟨h1, h2.1, trivial⟩
        have hlen : p + u.length + 1 - p = (u ++ [10]).length := by
          rw [List.length_append, List.length_singleton]
          omega
        rw [hm]
        show ∃ b' p', (store (upd b (p + u.length) 0) (p + u.length) 10 >>= _) = _ ∧ _
        rw [store_eq (by omega), hback]
        show ∃ b' p', (bytes b p (p + u.length + 1 - p) >>= _) = _ ∧ _
        rw [hlen, bytes_eq hline (by omega)]
        have hrest : Str b (p + u.length + 1) v := by
          have hd : Str b (p + (u ++ [10]).length) v := Str.drop (by rw [List.append_assoc]; exact h)
          rwa [List.length_append, ← Nat.add_assoc] at hd
        exact hnext _ _ hrest (by rw [picked_match hu hmatch, List.append_assoc])
      · rw [hm]
        exact hnext _ _ hrest (by rw [picked_skip hu hmatch])
    · rw [strchr_none h hw (by omega)]
      refine ⟨b, p, ?_, ?_, ?_⟩
      · rw [picked_none hw, List.append_nil]
        rfl
      · rw [linesOf_none hw]
      · rw [linesOf_none hw]
        exact h.holds

/-- A call of `read` leaves `m` within the buffer, and asks for something while there is input. -/
def Read.Ok (r : Read) : Prop := r.m + r.n ≤ BUFSZ - 1 ∧ (r.left ≠ 0 → 1 ≤ r.asked)

/-- Between two reads: the lines of what was read are done with, its rest is in the buffer. -/
structure Between (pattern done : Bytes) (s : St) : Prop where
  m : s.m = (linesOf done).2.length
  buf : Holds s.buf 0 (linesOf done).2
  out : s.out = picked pattern done
  reads : ∀ r ∈ s.reads, r.Ok

theorem grepLoop_spec {chunk : Nat → Nat} {k : Nat} {s : St} (hpat : 0 ∉ pattern) (hnul : 0 ∉ x ++ s.input)
    (hfit : Fits (x ++ s.input)) (h : Between pattern x s) (hf : s.input.length < fuel) :
    ∃ s', grepLoop pattern chunk fuel k s = .ok s' ∧ s'.input = [] ∧ Between pattern (x ++ s.input) s' := by
  induction fuel generalizing k s x with
  | zero => cases hf
  | succ fuel ih =>
    obtain ⟨hm, hbuf, hout, hreads⟩ := h
    obtain ⟨hle, hroom⟩ := hfit.rest
    have hB : BUFSZ = 1024 := rfl
    have hasked : (2 ^ 32 + BUFSZ - s.m - 1) % 2 ^ 32 = BUFSZ - 1 - s.m := by omega
    generalize hn : readCount (chunk k) (BUFSZ - 1 - s.m) s.input.length = n
    have hreadOk : Read.Ok ⟨s.m, BUFSZ - 1 - s.m, s.input.length, n⟩ := by
      refine ⟨?_, ?_⟩
      · dsimp only
        unfold readCount at hn
        omega
      · intro hne
        have := hroom (List.ne_nil_of_length_pos (Nat.pos_of_ne_zero hne))
        dsimp only
        omega
    have hreads' : ∀ r ∈ s.reads ++ [⟨s.m, BUFSZ - 1 - s.m, s.input.length, n⟩], r.Ok := by
      intro r hr
      rcases List.mem_append.mp hr with hr | hr
      · exact hreads r hr
      · rw [List.mem_singleton.mp hr]
        exact hreadOk
    rw [grepLoop]
    simp only [hasked, hn]
    by_cases hn0 : n = 0
    · -- nothing was asked for or nothing is left: nothing is left
      have hnil : s.input = [] := by
        by_contra hne
        have := hroom hne
        have := List.length_pos_of_ne_nil hne
        unfold readCount at hn
        omega
      have hx : x ++ s.input = x := by rw [hnil, List.append_nil]
      rw [if_pos hn0, hx]
      exact ⟨_, rfl, hnil, hm, hbuf, hout, hreads'⟩
    · rw [if_neg hn0]
      have hnle : n ≤ s.input.length ∧ s.m + n ≤ BUFSZ - 1 := by
        unfold readCount at hn
        omega
      have htake : (s.input.take n).length = n := by rw [List.length_take]; omega
      have hcat : x ++ s.input.take n ++ s.input.drop n = x ++ s.input := by
        rw [List.append_assoc, List.take_append_drop]
      -- the buffer as a string
      generalize hw : (linesOf x).2 ++ s.input.take n = w
      have hwlen : w.length = s.m + n := by rw [← hw, List.length_append, htake, hm]
      have hstr : Str (upd (fill s.buf s.m (s.input.take n)) (s.m + n) 0) 0 w := by
        refine ⟨Holds.congr (b := fill s.buf s.m (s.input.take n)) ?_ ?_, ?_, ?_, by omega⟩
        · rw [← hw]
          refine holds_append.mpr ⟨hbuf.congr ?_, ?_⟩
          · intro i _ hi
            exact fill_low (by omega)
          · rw [Nat.zero_add, ← hm]
            exact holds_fill _ _ _
        · intro i _ hi
          exact upd_ne (by omega) _
        · rw [Nat.zero_add, hwlen, upd_same]
        · intro h0
          apply hnul
          rw [← hw] at h0
          rcases List.mem_append.mp h0 with h0 | h0
          · rw [← linesOf_flatten x]
            exact List.mem_append_left _ (List.mem_append_right _ h0)
          · exact List.mem_append_right _ (List.mem_of_mem_take h0)
      rw [store_eq (by omega)]
      obtain ⟨b1, p1, hrun, hp1, hh1⟩ := grepLines_spec (o := s.out) hpat hstr (show w.length < BUFSZ + 1 by omega)
      show ∃ s', (grepLines pattern (BUFSZ + 1) _ 0 s.out >>= _) = _ ∧ _
      rw [hrun]
      show ∃ s', (if s.m + n > 0 then _ else _) = _ ∧ _
      rw [if_pos (by omega)]
      have hmp : s.m + n - p1 = (linesOf w).2.length := by omega
      obtain ⟨b2, hmove, hh2⟩ := memmove_front hh1 (by omega)
      rw [hmp, hmove]
      have hb : Between pattern (x ++ s.input.take n)
          { buf := b2, m := (linesOf w).2.length, input := s.input.drop n, out := s.out ++ picked pattern w,
            reads := s.reads ++ [⟨s.m, BUFSZ - 1 - s.m, s.input.length, n⟩] } := by
        refine ⟨?_, ?_, ?_, hreads'⟩
        · rw [linesOf_append, hw]
        · rw [linesOf_append, hw]
          exact hh2
        · rw [picked_append, hw, hout]
      rw [← hcat] at hnul hfit ⊢
      exact ih hnul hfit hb (by rw [List.length_drop]; omega)

/-- However the input comes in, `grep` ends and prints the lines that match, as long as every line fits its buffer. -/
theorem grep_ignores_chunks {input : Bytes} {chunk : Nat → Nat} {buf : Buf} (hpat : 0 ∉ pattern) (hnul : 0 ∉ input)
    (hlines : ∀ l ∈ (linesOf input).1, l.length ≤ BUFSZ - 1) (hrest : (linesOf input).2.length ≤ BUFSZ - 1) :
    ∃ s, grep pattern input chunk buf = .ok s ∧ s.out = picked pattern input ∧ s.input = [] ∧ ∀ r ∈ s.reads, r.Ok := by
  have hstart : Between pattern [] { buf, m := 0, input, out := [], reads := [] } :=
    ⟨rfl, trivial, (picked_none List.not_mem_nil).symm, fun _ h => absurd h List.not_mem_nil⟩
  obtain ⟨s, hrun, hin, -, -, hout, hreads⟩ := grepLoop_spec (x := [])
    (s := { buf, m := 0, input, out := [], reads := [] }) hpat hnul ⟨hlines, hrest⟩ hstart (Nat.lt_succ_self _)
  exact ⟨s, hrun, hout, hin, hreads⟩

/-- "a" in "xay\nb\na", in pieces of one byte and then of two. -/
theorem grep_ignores_chunks_twice : ∃ s s', grep [97] [120, 97, 121, 10, 98, 10, 97] (fun _ => 1) (fun _ => 7) = .ok s ∧
    grep [97] [120, 97, 121, 10, 98, 10, 97] (fun _ => 2) (fun _ => 9) = .ok s' ∧ s.out = s'.out ∧
    s.out = picked [97] [120, 97, 121, 10, 98, 10, 97] := by
  obtain ⟨s, h1, h2, -⟩ := @grep_ignores_chunks [97] [120, 97, 121, 10, 98, 10, 97] (fun _ => 1) (fun _ => 7)
    (by decide) (by decide) (by decide) (by decide)
  obtain ⟨s', h1', h2', -⟩ := @grep_ignores_chunks [97] [120, 97, 121, 10, 98, 10, 97] (fun _ => 2) (fun _ => 9)
    (by decide) (by decide) (by decide) (by decide)
  exact ⟨s, s', h1, h1', h2.trans h2'.symm, h2⟩

end Xv6.User.Grep
