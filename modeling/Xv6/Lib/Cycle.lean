/-
  Xv6.Lib.Cycle — circular singly linked lists.

  `Chain next l`: each node of `l` but the last points to the one behind it. `Cyc next l`: so does
  the last, to the first. A cycle may be entered at any node (`cyc_rotate`); a node is put in
  behind the first one (`Cyc.insert`) or taken out there (`Cyc.remove`).
-/
import Mathlib

namespace Xv6

variable {next next' : Nat → Nat} {a b x : Nat} {l l' l1 l2 : List Nat}

def Chain (next : Nat → Nat) : List Nat → Prop
  | x :: y :: rest => next x = y ∧ Chain next (y :: rest)
  | _ => True

def Cyc (next : Nat → Nat) : List Nat → Prop
  | [] => True
  | a :: l => Chain next (a :: (l ++ [a]))

/-- Both halves and the seam. -/
theorem chain_append : Chain next (l1 ++ x :: l2) ↔ Chain next (l1 ++ [x]) ∧ Chain next (x :: l2) := by
  induction l1 with
  | nil => exact ⟨fun h => ⟨trivial, h⟩, fun h => h.2⟩
  | cons a l1 ih =>
    cases l1 with
    | nil => exact ⟨fun h => ⟨⟨h.1, trivial⟩, h.2⟩, fun h => ⟨h.1.1, h.2⟩⟩
    | cons b l1 =>
      simp only [List.cons_append, Chain] at ih ⊢
      rw [ih, and_assoc]

theorem Chain.frame (h : Chain next (l ++ [x])) (hn : ∀ y ∈ l, next' y = next y) : Chain next' (l ++ [x]) := by
  induction l with
  | nil => trivial
  | cons a l ih =>
    cases l with
    | nil => exact ⟨(hn a List.mem_cons_self).trans h.1, trivial⟩
    | cons b l => exact ⟨(hn a List.mem_cons_self).trans h.1, ih h.2 fun y hy => hn y (List.mem_cons_of_mem _ hy)⟩

theorem cyc_rotate : Cyc next (l1 ++ l2) ↔ Cyc next (l2 ++ l1) := by
  cases l1 with
  | nil => rw [List.nil_append, List.append_nil]
  | cons a l1 =>
    cases l2 with
    | nil => rw [List.nil_append, List.append_nil]
    | cons b l2 =>
      simp only [Cyc, List.cons_append, List.append_assoc]
      have h1 : Chain next ((a :: l1) ++ b :: (l2 ++ [a])) ↔ _ := chain_append
      have h2 : Chain next ((b :: l2) ++ a :: (l1 ++ [b])) ↔ _ := chain_append
      simp only [List.cons_append] at h1 h2
      rw [h1, h2, and_comm]

theorem Cyc.remove (h : Cyc next (a :: b :: l)) (ha : a ∉ l) (hb : b ∉ l) (h1 : next' a = next b)
    (hn : ∀ y, y ≠ a → y ≠ b → next' y = next y) : Cyc next' (a :: l) := by
  have hmem : ∀ y ∈ l, next' y = next y := fun y hy => hn y (fun e => ha (e ▸ hy)) fun e => hb (e ▸ hy)
  cases l with
  | nil => exact ⟨h1.trans h.2.1, trivial⟩
  | cons c l => exact ⟨h1.trans h.2.1, Chain.frame (l := c :: l) h.2.2 hmem⟩

theorem Cyc.frame (h : Cyc next l) (hn : ∀ y ∈ l, next' y = next y) : Cyc next' l := by
  cases l with
  | nil => trivial
  | cons a l => exact Chain.frame (l := a :: l) h hn

/-- Every node points to a node. -/
theorem Cyc.next_mem (h : Cyc next l) (hx : x ∈ l) : next x ∈ l := by
  obtain ⟨l1, l2, rfl⟩ := List.append_of_mem hx
  have hr := cyc_rotate.mp h
  cases l2 with
  | nil =>
    cases l1 with
    | nil => rw [hr.1]; exact hx
    | cons b l1 =>
      rw [hr.1]
      exact List.mem_append_left _ List.mem_cons_self
  | cons b l2 =>
    rw [hr.1]
    simp

/-- A chain whose first node is replaced. -/
theorem Chain.rehead (h : Chain next (a :: (l ++ [x]))) (hb : next' b = next a) (hn : ∀ y ∈ l, next' y = next y) :
    Chain next' (b :: (l ++ [x])) := by
  cases l with
  | nil => exact ⟨hb.trans h.1, trivial⟩
  | cons c l => exact ⟨hb.trans h.1, Chain.frame (l := c :: l) h.2 hn⟩

/-- No two nodes point to the same node. -/
theorem Cyc.inj (h : Cyc next l) (hd : l.Nodup) (ha : a ∈ l) (hb : b ∈ l) (he : next a = next b) : a = b := by
  obtain ⟨l1, l2, rfl⟩ := List.append_of_mem ha
  have hr := cyc_rotate.mp h
  have hd' : ((a :: l2) ++ l1).Nodup := (List.perm_append_comm.nodup_iff).mp hd
  have hb' : b ∈ a :: (l2 ++ l1) := by simpa [or_comm, or_assoc, or_left_comm] using hb
  rw [List.cons_append] at hr hd'
  generalize l2 ++ l1 = r at hr hd' hb'
  rcases List.mem_cons.mp hb' with hb' | hb'
  · exact hb'.symm
  obtain ⟨r1, r2, rfl⟩ := List.append_of_mem hb'
  rw [List.nodup_cons] at hd'
  have hc : Chain next (a :: r1 ++ b :: (r2 ++ [a])) := by simpa [Cyc] using hr
  obtain ⟨h1, h2⟩ := chain_append.mp hc
  -- what follows `b` is in `r2` or is `a`, what follows `a` is neither
  have hnb : next b ∈ r2 ++ [a] := by
    cases r2 with
    | nil => rw [h2.1]; simp
    | cons c r2 => rw [h2.1]; simp
  have hna : next a ∈ r1 ++ [b] := by
    cases r1 with
    | nil => rw [h1.1]; simp
    | cons c r1 => rw [h1.1]; simp
  rw [he] at hna
  exfalso
  rcases List.mem_append.mp hna with hna | hna <;> rcases List.mem_append.mp hnb with hnb | hnb
  · exact (List.nodup_append.mp hd'.2).2.2 _ hna _ (List.mem_cons_of_mem _ hnb) rfl
  · rw [List.mem_singleton.mp hnb] at hna
    exact hd'.1 (List.mem_append_left _ hna)
  · rw [List.mem_singleton.mp hna] at hnb
    exact (List.nodup_cons.mp (List.nodup_append.mp hd'.2).2.1).1 hnb
  · rw [List.mem_singleton.mp hna] at hnb
    exact hd'.1 (by rw [← List.mem_singleton.mp hnb]; simp)

/-- In a cycle in ascending order a node points to the next larger one, the largest to the first. -/
theorem Cyc.sorted_next (h : Cyc next (a :: l)) (hs : (a :: l).Pairwise (· < ·)) (hx : x ∈ a :: l) :
    (x < next x ∧ next x ∈ a :: l ∧ ∀ y ∈ a :: l, y ≤ x ∨ next x ≤ y) ∨ (next x = a ∧ ∀ y ∈ a :: l, y ≤ x) := by
  obtain ⟨l1, l2, he⟩ := List.append_of_mem hx
  have hc : Chain next (a :: l ++ [a]) := h
  rw [he, List.append_assoc, List.cons_append] at hc
  have hc := (chain_append.mp hc).2
  rw [he] at hs ⊢
  obtain ⟨-, h2, h3⟩ := List.pairwise_append.mp hs
  cases l2 with
  | nil =>
    right
    refine ⟨hc.1, fun y hy => ?_⟩
    rcases List.mem_append.mp hy with hy | hy
    · exact Nat.le_of_lt (h3 y hy x (by simp))
    · exact Nat.le_of_eq (List.mem_singleton.mp hy)
  | cons c l2 =>
    left
    rw [hc.1]
    have hxc : x < c := (List.pairwise_cons.mp h2).1 c (by simp)
    refine ⟨hxc, by simp, fun y hy => ?_⟩
    rcases List.mem_append.mp hy with hy | hy
    · exact Or.inl (Nat.le_of_lt (h3 y hy x (by simp)))
    · rcases List.mem_cons.mp hy with hy | hy
      · exact Or.inl (Nat.le_of_eq hy)
      · rcases List.mem_cons.mp hy with hy | hy
        · exact Or.inr (Nat.le_of_eq hy.symm)
        · exact Or.inr (Nat.le_of_lt ((List.pairwise_cons.mp (List.pairwise_cons.mp h2).2).1 y hy))

end Xv6
