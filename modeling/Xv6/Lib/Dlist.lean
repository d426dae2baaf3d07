/-
  Xv6.Lib.Dlist — circular doubly linked lists through a head node, as two tables of pointers.

  `d.Is h L`: from `h`, the `next` pointers run through the nodes of `L` in order and back to `h`,
  and the `prev` pointers the other way. `unlink` and `pushFront` are the usual assignments, in
  the usual order; `is_unlink` and `is_pushFront` say what they do to `L`. `search` is the loop
  that follows one of the pointers until a node satisfies a condition or the head comes round
  again: it finds what `List.find?` finds.
-/
import Xv6.Lib.Table
import Mathlib

namespace Xv6

structure Dlist where
  next : Nat → Nat
  prev : Nat → Nat

def Links (next prev : Nat → Nat) : Nat → List Nat → Nat → Prop
  | a, [], b => next a = b ∧ prev b = a
  | a, x :: xs, b => next a = x ∧ prev x = a ∧ Links next prev x xs b

namespace Dlist

structure Is (d : Dlist) (h : Nat) (L : List Nat) : Prop where
  links : Links d.next d.prev h L h
  nodup : (h :: L).Nodup

def empty (h : Nat) : Dlist := ⟨fun _ => h, fun _ => h⟩

def unlink (d : Dlist) (b : Nat) : Dlist :=
  let prev := upd d.prev (d.next b) (d.prev b)
  ⟨upd d.next (prev b) (d.next b), prev⟩

/-- `b->next = h->next; b->prev = h; h->next->prev = b; h->next = b;` -/
def pushFront (d : Dlist) (h b : Nat) : Dlist :=
  let next := upd d.next b (d.next h)
  ⟨upd next h b, upd (upd d.prev b h) (next h) b⟩

/-- Follow `step` from `b` until `p` holds or `h` is reached. -/
def search (step : Nat → Nat) (h : Nat) (p : Nat → Bool) : Nat → Nat → Option Nat
  | 0, _ => none
  | fuel + 1, b => if b = h then none else if p b then some b else search step h p fuel (step b)

end Dlist

variable {next prev next' prev' : Nat → Nat} {a b c h : Nat} {xs ys L : List Nat}

/-- A list in two parts. -/
theorem links_append : Links next prev a (xs ++ c :: ys) b ↔ Links next prev a xs c ∧ Links next prev c ys b := by
  induction xs generalizing a with
  | nil => simp [Links, and_assoc]
  | cons x xs ih => simp [Links, ih, and_assoc]

/-- Only the pointers along the way matter. -/
theorem Links.frame (hl : Links next prev a L b) (hn : ∀ x ∈ a :: L, next' x = next x)
    (hp : ∀ x ∈ L ++ [b], prev' x = prev x) : Links next' prev' a L b := by
  induction L generalizing a with
  | nil => exact ⟨(hn a (by simp)).trans hl.1, (hp b (by simp)).trans hl.2⟩
  | cons x xs ih =>
    obtain ⟨h1, h2, h3⟩ := hl
    exact ⟨(hn a (by simp)).trans h1, (hp x (by simp)).trans h2,
      ih h3 (fun y hy => hn y (List.mem_cons_of_mem _ hy)) fun y hy => hp y (List.mem_cons_of_mem _ hy)⟩

theorem Links.reverse (hl : Links next prev a L b) : Links prev next b L.reverse a := by
  induction L generalizing a with
  | nil => exact ⟨hl.2, hl.1⟩
  | cons x xs ih =>
    obtain ⟨h1, h2, h3⟩ := hl
    rw [List.reverse_cons]
    exact links_append.mpr ⟨ih h3, h2, h1⟩

/-- The node before `b` is on the way. -/
theorem Links.prev_mem (hl : Links next prev a L b) : prev b ∈ a :: L := by
  have hr := hl.reverse
  cases e : L.reverse with
  | nil =>
    rw [e] at hr
    rw [hr.1]
    exact List.mem_cons_self
  | cons x xs =>
    rw [e] at hr
    rw [hr.1]
    exact List.mem_cons_of_mem _ (List.mem_reverse.mp (by rw [e]; exact List.mem_cons_self))

/-- The last pointer of a chain turned to another node. -/
theorem Links.retarget (hl : Links next prev a L b) (hn : (a :: L).Nodup) (hc : c ∉ L) :
    Links (upd next (prev b) c) (upd prev c (prev b)) a L c := by
  induction L generalizing a with
  | nil => exact ⟨by rw [hl.2, upd_same], by rw [upd_same, hl.2]⟩
  | cons x xs ih =>
    obtain ⟨h1, h2, h3⟩ := hl
    obtain ⟨ha, hn⟩ := List.nodup_cons.mp hn
    have hne : a ≠ prev b := fun e => ha (e ▸ h3.prev_mem)
    have hxc : x ≠ c := fun e => hc (e ▸ List.mem_cons_self)
    exact ⟨by rw [upd_ne hne, h1], by rw [upd_ne hxc, h2], ih h3 hn fun h => hc (List.mem_cons_of_mem _ h)⟩

namespace Dlist

variable {d : Dlist}

theorem is_empty : (empty h).Is h [] := ⟨⟨rfl, rfl⟩, by simp⟩

theorem Is.mem (hd : d.Is h L) (hb : b ∈ L) : b ≠ h := fun e => (List.nodup_cons.mp hd.nodup).1 (e ▸ hb)

theorem is_unlink (hd : d.Is h L) (hb : b ∈ L) : (d.unlink b).Is h (L.erase b) := by
  obtain ⟨xs, ys, rfl⟩ := List.append_of_mem hb
  obtain ⟨h1, h2⟩ := links_append.mp hd.links
  have hbh := hd.mem hb
  have hnd := hd.nodup
  rw [← List.cons_append] at hnd
  obtain ⟨hx, hy, hxy⟩ := List.nodup_append.mp hnd
  obtain ⟨hby, hy⟩ := List.nodup_cons.mp hy
  have hbx : b ∉ xs := fun h => hxy b (List.mem_cons_of_mem _ h) b List.mem_cons_self rfl
  have herase : (xs ++ b :: ys).erase b = xs ++ ys := by
    rw [List.erase_append_right _ hbx, List.erase_cons_head]
  have hnext : d.next b ≠ b := by
    cases ys with
    | nil => rw [h2.1]; exact hbh.symm
    | cons y ys => rw [h2.1]; exact fun e => hby (by rw [e]; exact List.mem_cons_self)
  have hprev : (upd d.prev (d.next b) (d.prev b)) b = d.prev b := upd_ne hnext.symm _
  rw [herase]
  refine ⟨?_, ?_⟩
  · simp only [unlink, hprev]
    cases ys with
    | nil =>
      rw [List.append_nil, h2.1]
      exact h1.retarget hx (List.nodup_cons.mp hx).1
    | cons y ys =>
      obtain ⟨h3, h4, h5⟩ := h2
      obtain ⟨hyy, -⟩ := List.nodup_cons.mp hy
      rw [h3]
      refine links_append.mpr ⟨h1.retarget hx fun hm => ?_, h5.frame (fun z hz => upd_ne (fun e => ?_) _) fun z hz =>
        upd_ne (fun e => ?_) _⟩
      · exact hxy y (List.mem_cons_of_mem _ hm) y (List.mem_cons_of_mem _ List.mem_cons_self) rfl
      · exact hxy _ h1.prev_mem z (List.mem_cons_of_mem _ hz) e.symm
      · rcases List.mem_append.mp hz with hz | hz
        · exact hyy (e ▸ hz)
        · rw [List.mem_singleton.mp hz] at e
          exact hxy h List.mem_cons_self y (List.mem_cons_of_mem _ List.mem_cons_self) e
  · rw [← List.cons_append]
    exact List.nodup_append.mpr ⟨hx, hy, fun w hw z hz => hxy w hw z (List.mem_cons_of_mem _ hz)⟩

theorem is_pushFront (hd : d.Is h L) (hb : b ≠ h) (hL : b ∉ L) : (d.pushFront h b).Is h (b :: L) := by
  obtain ⟨hh, hnd⟩ := List.nodup_cons.mp hd.nodup
  have hnext : (upd d.next b (d.next h)) h = d.next h := upd_ne hb.symm _
  refine ⟨?_, ?_⟩
  · simp only [pushFront, hnext]
    cases L with
    | nil =>
      obtain ⟨h1, -⟩ := hd.links
      refine ⟨upd_same _ _ _, ?_, ?_, ?_⟩
      · rw [h1, upd_ne hb, upd_same]
      · rw [upd_ne hb, upd_same, h1]
      · rw [h1, upd_same]
    | cons y ys =>
      obtain ⟨h1, h2, h3⟩ := hd.links
      have hby : b ≠ y := fun e => hL (e ▸ List.mem_cons_self)
      have hbys : b ∉ ys := fun h => hL (List.mem_cons_of_mem _ h)
      have hyh : y ≠ h := fun e => hh (e ▸ List.mem_cons_self)
      obtain ⟨hyy, -⟩ := List.nodup_cons.mp hnd
      rw [h1]
      refine ⟨upd_same _ _ _, by rw [upd_ne hby, upd_same], by rw [upd_ne hb, upd_same], upd_same _ _ _, ?_⟩
      refine h3.frame (fun z hz => ?_) fun z hz => ?_
      · have hzh : z ≠ h := fun e => hh (e ▸ hz)
        have hzb : z ≠ b := fun e => hL (e ▸ hz)
        rw [upd_ne hzh, upd_ne hzb]
      · rcases List.mem_append.mp hz with hz | hz
        · have hzy : z ≠ y := fun e => hyy (e ▸ hz)
          have hzb : z ≠ b := fun e => hbys (e ▸ hz)
          rw [upd_ne hzy, upd_ne hzb]
        · rw [List.mem_singleton.mp hz, upd_ne hyh.symm, upd_ne hb.symm]
  · refine List.nodup_cons.mpr ⟨?_, List.nodup_cons.mpr ⟨hL, hnd⟩⟩
    rw [List.mem_cons]
    exact fun e => e.elim (fun e => hb e.symm) hh

theorem search_links {p : Nat → Bool} {fuel : Nat} (hl : Links next prev a L h) (hh : h ∉ L) (hf : L.length < fuel) :
    search next h p fuel (next a) = L.find? p := by
  induction L generalizing a fuel with
  | nil =>
    obtain ⟨fuel, rfl⟩ := Nat.exists_eq_succ_of_ne_zero (Nat.ne_of_gt hf)
    rw [hl.1, search, if_pos rfl]
    rfl
  | cons x xs ih =>
    obtain ⟨h1, -, h3⟩ := hl
    obtain ⟨fuel, rfl⟩ := Nat.exists_eq_succ_of_ne_zero (Nat.ne_of_gt (Nat.zero_lt_of_lt hf))
    have hx : x ≠ h := fun e => hh (e ▸ List.mem_cons_self)
    rw [h1, search, if_neg hx, List.find?_cons]
    cases p x with
    | true => rfl
    | false =>
      exact ih h3 (fun h => hh (List.mem_cons_of_mem _ h)) (by simpa using hf)

/-- Searching forwards. -/
theorem Is.search_next {p : Nat → Bool} {fuel : Nat} (hd : d.Is h L) (hf : L.length < fuel) :
    search d.next h p fuel (d.next h) = L.find? p :=
  search_links hd.links (List.nodup_cons.mp hd.nodup).1 hf

/-- Searching backwards. -/
theorem Is.search_prev {p : Nat → Bool} {fuel : Nat} (hd : d.Is h L) (hf : L.length < fuel) :
    search d.prev h p fuel (d.prev h) = L.reverse.find? p :=
  search_links hd.links.reverse (by simpa using (List.nodup_cons.mp hd.nodup).1) (by simpa using hf)

end Dlist

end Xv6
