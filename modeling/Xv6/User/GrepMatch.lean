/-
  Xv6.User.GrepMatch — `match` of user/grep.c decides the language of its pattern.

  A pattern is a list of items, each a character or '.', starred or not, with '^' in front and '$'
  behind where these are special (`Pattern.parse`). Its language is the product of the items'
  languages; a text matches if a part of it is in the language, the part at the front for '^', at the
  end for '$' (`Pattern.Matches`).

  `matchhere` and `matchstar` follow the items from an offset on (`Here`), by induction on the fuel.
  Every call is at a later offset of the pattern or of the text, so twice the one and once the
  other bound the fuel.
-/
import Xv6.User.Grep
import Mathlib

namespace Xv6.User.Grep

open scoped Computability

variable {re text : Bytes} {fuel i j : Nat} {c d : UInt8} {t r : Bytes} {e : Bool} {m : Except Stop Int}

/-! ## The language of a pattern -/

inductive Atom where
  | any
  | lit (c : UInt8)
  deriving DecidableEq, Repr

def Atom.Has : Atom → UInt8 → Prop
  | .any, _ => True
  | .lit c, d => c = d

def Atom.lang (a : Atom) : Language UInt8 := {w | ∃ c, a.Has c ∧ w = [c]}

inductive Item where
  | one (a : Atom)
  | star (a : Atom)
  deriving DecidableEq, Repr

def Item.lang : Item → Language UInt8
  | .one a => a.lang
  | .star a => a.lang∗

def atom (c : UInt8) : Atom := if c = 46 then .any else .lit c

/-- The items of a pattern behind its '^', and whether it ends with a special '$'. -/
def items : Bytes → List Item × Bool
  | [] => ([], false)
  | [c] => if c = 36 then ([], true) else ([.one (atom c)], false)
  | c :: d :: r =>
    if d = 42 then (.star (atom c) :: (items r).1, (items r).2)
    else (.one (atom c) :: (items (d :: r)).1, (items (d :: r)).2)

structure Pattern where
  /-- starts with '^' -/
  bol : Bool
  items : List Item
  /-- ends with '$' -/
  eol : Bool
  deriving DecidableEq, Repr

def Pattern.parse : Bytes → Pattern
  | [] => ⟨false, [], false⟩
  | c :: r =>
    if c = 94 then ⟨true, (Grep.items r).1, (Grep.items r).2⟩ else ⟨false, (Grep.items (c :: r)).1,
      (Grep.items (c :: r)).2⟩

def lang (l : List Item) : Language UInt8 := (l.map Item.lang).prod

def Pattern.Matches (p : Pattern) (text : Bytes) : Prop :=
  ∃ pre w post, text = pre ++ w ++ post ∧ w ∈ lang p.items ∧ (p.bol = true → pre = []) ∧ (p.eol = true → post = [])

/-- Some first part of `t` is in the language of the items, all of it for '$'. -/
def Here (p : List Item × Bool) (t : Bytes) : Prop := ∃ w post, t = w ++ post ∧ w ∈ lang p.1 ∧ (p.2 = true → post = [])

theorem here_nil (t : Bytes) : Here ([], false) t := ⟨[], t, rfl, Language.nil_mem_one, nofun⟩

theorem here_end : Here ([], true) t ↔ t = [] := by
  constructor
  · intro ⟨w, post, ht, hw, hpost⟩
    have hw : w = [] := hw
    rw [ht, hw, hpost rfl]
    rfl
  · intro ht
    exact ⟨[], [], ht, Language.nil_mem_one, fun _ => rfl⟩

variable {l : List Item}

theorem mem_lang_cons {x : Item} {w : Bytes} : w ∈ lang (x :: l) ↔ ∃ u ∈ x.lang, ∃ v ∈ lang l, u ++ v = w := by
  unfold lang
  rw [List.map_cons, List.prod_cons]
  exact Language.mem_mul

variable {a : Atom}

theorem here_one : Here (.one a :: l, e) t ↔ ∃ c t', t = c :: t' ∧ a.Has c ∧ Here (l, e) t' := by
  constructor
  · intro ⟨w, post, ht, hw, hpost⟩
    obtain ⟨u, ⟨c, hc, rfl⟩, v, hv, rfl⟩ := mem_lang_cons.mp hw
    exact ⟨c, v ++ post, ht, hc, v, post, rfl, hv, hpost⟩
  · intro ⟨c, t', ht, hc, v, post, ht', hv, hpost⟩
    refine ⟨c :: v, post, ?_, mem_lang_cons.mpr ⟨[c], ⟨c, hc, rfl⟩, v, hv, rfl⟩, hpost⟩
    rw [ht, ht']
    rfl

/-- A starred item is used not at all, or for one character and again. -/
theorem here_star :
    Here (.star a :: l, e) t ↔ Here (l, e) t ∨ ∃ c t', t = c :: t' ∧ a.Has c ∧ Here (.star a :: l, e) t' := by
  constructor
  · intro ⟨w, post, ht, hw, hpost⟩
    obtain ⟨u, hu, v, hv, rfl⟩ := mem_lang_cons.mp hw
    have hu : u ∈ 1 + a.lang * a.lang∗ := by rw [Language.one_add_self_mul_kstar_eq_kstar]; exact hu
    rcases hu with hu | hu
    · have hu : u = [] := hu
      subst hu
      exact Or.inl ⟨v, post, ht, hv, hpost⟩
    · obtain ⟨_, ⟨c, hc, rfl⟩, u', hu', rfl⟩ := Language.mem_mul.mp hu
      exact Or.inr ⟨c, u' ++ v ++ post, ht, hc, u' ++ v, post, rfl, mem_lang_cons.mpr ⟨u', hu', v, hv, rfl⟩, hpost⟩
  · intro h
    rcases h with ⟨v, post, ht, hv, hpost⟩ | ⟨c, t', ht, hc, w, post, ht', hw, hpost⟩
    · exact ⟨v, post, ht, mem_lang_cons.mpr ⟨[], Language.nil_mem_kstar _, v, hv, rfl⟩, hpost⟩
    · obtain ⟨u, hu, v, hv, rfl⟩ := mem_lang_cons.mp hw
      refine ⟨c :: (u ++ v), post, by rw [ht, ht']; rfl, mem_lang_cons.mpr ⟨c :: u, ?_, v, hv, rfl⟩, hpost⟩
      have hcu : c :: u ∈ 1 + a.lang * a.lang∗ := Or.inr (Language.mem_mul.mpr ⟨[c], ⟨c, hc, rfl⟩, u, hu, rfl⟩)
      rwa [Language.one_add_self_mul_kstar_eq_kstar] at hcu

theorem atom_has : (atom c).Has d ↔ c = 46 ∨ c = d := by
  unfold atom
  by_cases h : c = 46
  · simp [h, Atom.Has]
  · simp [h, Atom.Has]

/-! ## Offsets -/

/-- What is read at an offset is the head of what is left there. -/
theorem rd_drop (hi : i ≤ re.length) : rd re i = .ok ((re.drop i).headD 0) := by
  unfold rd
  rw [if_pos hi, List.headD_eq_head?_getD, List.head?_drop, List.getD_eq_getElem?_getD]

theorem drop_next (h : re.drop i = c :: r) : re.drop (i + 1) = r ∧ i + 1 ≤ re.length := by
  have hlen : (re.drop i).length = r.length + 1 := by rw [h]; rfl
  rw [List.length_drop] at hlen
  refine ⟨?_, by omega⟩
  rw [← List.drop_drop, h]
  rfl

theorem ne_zero_of_drop (h0 : 0 ∉ re) (h : re.drop i = c :: r) : c ≠ 0 := by
  intro hc
  apply h0
  rw [← hc]
  apply List.mem_of_mem_drop (i := i)
  rw [h]
  exact List.mem_cons_self

/-! ## The matcher -/

def Says (m : Except Stop Int) (P : Prop) : Prop := (m = .ok 1 ∧ P) ∨ (m = .ok 0 ∧ ¬ P)

theorem Says.congr {P Q : Prop} (h : Says m P) (hPQ : P ↔ Q) : Says m Q := by
  unfold Says at h ⊢
  rwa [← hPQ]

/-- `if(m) return 1;` and then the rest. -/
theorem Says.orElse {n : Except Stop Int} {P Q : Prop} (hm : Says m P) (hn : ¬ P → Says n Q) :
    Says (m >>= fun r => if r ≠ 0 then .ok 1 else n) (P ∨ Q) := by
  rcases hm with ⟨hm, hP⟩ | ⟨hm, hP⟩
  · exact Or.inl ⟨by rw [hm]; rfl, Or.inl hP⟩
  · have h0 : (m >>= fun r => if r ≠ 0 then .ok 1 else n) = n := by rw [hm]; rfl
    rw [h0]
    exact (hn hP).congr ⟨Or.inr, fun h => h.resolve_left hP⟩

/-- One character of the text is taken if it is there and fits. -/
theorem says_take {P : Bytes → Prop} (ht : 0 ∉ text) (hj : j ≤ text.length) {q : UInt8 → Prop}
    [DecidablePred q] (hq : ∀ t, q t ↔ a.Has t) (hm : ∀ c t', text.drop j = c :: t' → a.Has c → Says m (P t')) :
    Says (rd text j >>= fun t => if t ≠ 0 ∧ q t then m else .ok 0) (∃ c t', text.drop j = c :: t' ∧
      a.Has c ∧ P t') := by
  rw [rd_drop hj]
  cases htext : text.drop j with
  | nil => exact Or.inr ⟨rfl, nofun⟩
  | cons c t' =>
    have hc := ne_zero_of_drop ht htext
    show Says (if c ≠ 0 ∧ q c then m else .ok 0) _
    by_cases hhas : a.Has c
    · rw [if_pos ⟨hc, (hq c).mpr hhas⟩]
      refine (hm c t' htext hhas).congr ⟨fun h => ⟨c, t', rfl, hhas, h⟩, ?_⟩
      intro ⟨_, _, he, _, h⟩
      cases he
      exact h
    · rw [if_neg fun h => hhas ((hq c).mp h.2)]
      refine Or.inr ⟨rfl, ?_⟩
      intro ⟨_, _, he, h, _⟩
      cases he
      exact hhas h

theorem items_star (r : Bytes) : items (c :: 42 :: r) = (.star (atom c) :: (items r).1, (items r).2) := by
  rw [items, if_pos rfl]

theorem items_one (h : r.headD 0 ≠ 42) (hc : c = 36 → r ≠ []) :
    items (c :: r) = (.one (atom c) :: (items r).1, (items r).2) := by
  cases r with
  | nil =>
    have hne : c ≠ 36 := fun e => hc e rfl
    show (if c = 36 then _ else _) = _
    rw [if_neg hne]
    rfl
  | cons d r =>
    have hne : d ≠ 42 := h
    rw [items, if_neg hne]

/-- The body of `matchhere` at an item that is not starred. -/
theorem matchhere_one (hre : 0 ∉ re) (ht : 0 ∉ text) (hj : j ≤ text.length) (hr : re.drop i = c :: r)
    (h42 : r.headD 0 ≠ 42) (hend : c = 36 → r ≠ [])
    (ih : ∀ t', text.drop (j + 1) = t' → j + 1 ≤ text.length → Says (matchhere fuel re (i + 1) text (j + 1))
      (Here (items r) t')) :
    Says (matchhere (fuel + 1) re i text j) (Here (items (c :: r)) (text.drop j)) := by
  obtain ⟨hr1, hi1⟩ := drop_next hr
  have hc := ne_zero_of_drop hre hr
  have h36 : ¬ (c = 36 ∧ r.headD 0 = 0) := by
    intro ⟨h1, h2⟩
    cases r with
    | nil => exact hend h1 rfl
    | cons d r => exact ne_zero_of_drop hre hr1 h2
  rw [matchhere, rd_drop (by omega), hr]
  show Says (if c = 0 then _ else _) _
  rw [if_neg hc, rd_drop hi1, hr1]
  show Says (if r.headD 0 = 42 then _ else if c = 36 ∧ r.headD 0 = 0 then _ else _) _
  rw [if_neg h42, if_neg h36, items_one h42 hend]
  refine (says_take ht hj (a := atom c) (P := Here (items r)) (fun t => atom_has.symm) fun c' t' htext _ => ?_).congr
    here_one.symm
  obtain ⟨h1, h2⟩ := drop_next htext
  exact ih t' h1 h2

def cost (re : Bytes) (i : Nat) (text : Bytes) (j : Nat) : Nat := 2 * (re.length - i) + (text.length - j)

theorem matchhere_spec (hre : 0 ∉ re) (ht : 0 ∉ text) :
    (∀ i j, i ≤ re.length → j ≤ text.length → cost re i text j + 1 ≤ fuel →
      Says (matchhere fuel re i text j) (Here (items (re.drop i)) (text.drop j))) ∧
    (∀ c i j, i ≤ re.length → j ≤ text.length → cost re i text j + 2 ≤ fuel →
      Says (matchstar fuel c re i text j) (Here (.star (atom c) :: (items (re.drop i)).1, (items (re.drop i)).2)
      (text.drop j))) := by
  unfold cost
  induction fuel with
  | zero => exact ⟨fun _ _ _ _ h => absurd h (by omega), fun _ _ _ _ _ h => absurd h (by omega)⟩
  | succ fuel ih =>
    obtain ⟨ihHere, ihStar⟩ := ih
    constructor
    · intro i j hi hj hf
      cases hr : re.drop i with
      | nil =>
        rw [matchhere, rd_drop hi, hr]
        exact Or.inl ⟨rfl, here_nil _⟩
      | cons c r =>
        obtain ⟨hr1, hi1⟩ := drop_next hr
        have hc := ne_zero_of_drop hre hr
        by_cases h42 : r.headD 0 = 42
        · -- the item is starred
          obtain ⟨r', rfl⟩ : ∃ r', r = 42 :: r' := by
            cases r with
            | nil => cases h42
            | cons d r' => exact ⟨r', by rw [show d = 42 from h42]⟩
          obtain ⟨hr2, hi2⟩ := drop_next hr1
          rw [matchhere, rd_drop hi, hr]
          show Says (if c = 0 then _ else _) _
          rw [if_neg hc, rd_drop hi1, hr1, items_star, ← hr2]
          exact ihStar c (i + 2) j hi2 hj (by omega)
        · by_cases hend : c = 36 ∧ r = []
          · obtain ⟨rfl, rfl⟩ := hend
            rw [matchhere, rd_drop hi, hr]
            show Says (rd re (i + 1) >>= _) _
            rw [rd_drop hi1, hr1]
            show Says (rd text j >>= fun t => .ok (if t = 0 then 1 else 0)) (Here ([], true) _)
            rw [rd_drop hj, here_end]
            cases htext : text.drop j with
            | nil => exact Or.inl ⟨rfl, rfl⟩
            | cons t t' =>
              have h0 := ne_zero_of_drop ht htext
              refine Or.inr ⟨?_, nofun⟩
              show Except.ok (if t = 0 then 1 else 0) = _
              rw [if_neg h0]
          · refine matchhere_one hre ht hj hr h42 (fun h1 h2 => hend ⟨h1, h2⟩) ?_
            intro t' htext hj1
            rw [← htext, ← hr1]
            exact ihHere (i + 1) (j + 1) hi1 hj1 (by omega)
    · intro c i j hi hj hf
      rw [matchstar]
      refine ((ihHere i j hi hj (by omega)).orElse fun _ => ?_).congr here_star.symm
      refine says_take ht hj (fun t => ?_) fun c' t' htext _ => ?_
      · rw [atom_has, or_comm, @eq_comm _ t c]
      · obtain ⟨h1, h2⟩ := drop_next htext
        rw [← h1]
        exact ihStar c i (j + 1) hi h2 (by omega)

/-- The loop of `match` looks for the pattern at every offset from `j` on. -/
theorem matchLoop_spec (hre : 0 ∉ re) (ht : 0 ∉ text) (hj : j ≤ text.length) (hf : cost re 0 text j + 2 ≤ fuel) :
    Says (matchLoop fuel re text j) (∃ pre t, text.drop j = pre ++ t ∧ Here (items re) t) := by
  induction fuel generalizing j with
  | zero => exact absurd hf (by omega)
  | succ fuel ih =>
    rw [matchLoop]
    have hhere := (@matchhere_spec re text fuel hre ht).1 0 j (Nat.zero_le _) hj (by omega)
    rw [List.drop_zero] at hhere
    have hrest : Says (rd text j >>= fun t => if t ≠ 0 ∧ True then matchLoop fuel re text (j + 1) else .ok 0)
        (∃ c t', text.drop j = c :: t' ∧ Atom.any.Has c ∧ ∃ pre t, t' = pre ++ t ∧ Here (items re) t) := by
      refine says_take ht hj (fun t => Iff.rfl) fun c' t' htext _ => ?_
      obtain ⟨h1, h2⟩ := drop_next htext
      rw [← h1]
      exact ih h2 (by unfold cost at hf ⊢; omega)
    simp only [and_true] at hrest
    refine (hhere.orElse fun _ => hrest).congr ⟨?_, ?_⟩
    · intro h
      rcases h with h | ⟨c, t', hc, -, pre, t, ht', h⟩
      · exact ⟨[], _, rfl, h⟩
      · exact ⟨c :: pre, t, by rw [hc, ht']; rfl, h⟩
    · intro ⟨pre, t, hpre, h⟩
      cases pre with
      | nil => exact Or.inl (hpre ▸ h)
      | cons c pre => exact Or.inr ⟨c, pre ++ t, hpre, trivial, pre, t, rfl, h⟩

/-- A match at the front. -/
theorem matches_bol : (Pattern.mk true l e).Matches text ↔ Here (l, e) text := by
  constructor
  · intro ⟨pre, w, post, ht, hw, hpre, hpost⟩
    rw [hpre rfl] at ht
    exact ⟨w, post, ht, hw, hpost⟩
  · intro ⟨w, post, ht, hw, hpost⟩
    exact ⟨[], w, post, ht, hw, fun _ => rfl, hpost⟩

theorem matches_any : (Pattern.mk false l e).Matches text ↔ ∃ pre t, text = pre ++ t ∧ Here (l, e) t := by
  constructor
  · intro ⟨pre, w, post, ht, hw, _, hpost⟩
    exact ⟨pre, w ++ post, by rw [ht, List.append_assoc], w, post, rfl, hw, hpost⟩
  · intro ⟨pre, t, ht, w, post, ht', hw, hpost⟩
    exact ⟨pre, w, post, by rw [ht, ht', List.append_assoc], hw, nofun, hpost⟩

theorem matchRe_spec (hre : 0 ∉ re) (ht : 0 ∉ text) (hf : 2 * re.length + text.length + 2 ≤ fuel) :
    Says (matchRe fuel re text) ((Pattern.parse re).Matches text) := by
  have hloop : Says (matchLoop fuel re text 0) ((Pattern.mk false (items re).1 (items re).2).Matches text) := by
    refine (matchLoop_spec hre ht (Nat.zero_le _) ?_).congr ?_
    · unfold cost
      omega
    · rw [List.drop_zero]
      exact matches_any.symm
  unfold matchRe
  rw [rd_drop (Nat.zero_le _), List.drop_zero]
  cases re with
  | nil => exact hloop
  | cons c r =>
    show Says (if c = 94 then matchhere fuel (c :: r) 1 text 0 else matchLoop fuel (c :: r) text 0)
      ((if c = 94 then Pattern.mk true (items r).1 (items r).2 else ⟨false, (items (c :: r)).1,
      (items (c :: r)).2⟩).Matches text)
    by_cases hc : c = 94
    · rw [if_pos hc, if_pos hc]
      refine ((matchhere_spec hre ht).1 1 0 (by simp) (Nat.zero_le _) ?_).congr matches_bol.symm
      unfold cost
      simp only [List.length_cons] at hf ⊢
      omega
    · rw [if_neg hc, if_neg hc]
      exact hloop

/-- `match` returns 1 on the texts of its pattern and 0 on the others, and reads nothing outside its strings. -/
theorem match_decides_pattern (hre : 0 ∉ re) (ht : 0 ∉ text) (hf : 2 * re.length + text.length + 2 ≤ fuel) :
    (matchRe fuel re text = .ok 1 ∧ (Pattern.parse re).Matches text) ∨
    (matchRe fuel re text = .ok 0 ∧ ¬ (Pattern.parse re).Matches text) :=
  matchRe_spec hre ht hf

/-- "^a*$" on "ab": the star cannot reach the end. -/
theorem match_decides_pattern_anchored : matchRe 12 [94, 97, 42, 36] [97, 98] = .ok 0 ∧
    ¬ (Pattern.parse [94, 97, 42, 36]).Matches [97, 98] := by
  have hrun : matchRe 12 [94, 97, 42, 36] [97, 98] = .ok 0 := by decide
  rcases @match_decides_pattern [94, 97, 42, 36] [97, 98] 12 (by decide) (by decide) (by decide) with h | h
  · cases hrun.symm.trans h.1
  · exact h

end Xv6.User.Grep
