/-
  Xv6.Fs.Readi — what `readi` reads.

  On an inode without holes `readi` stores the file's bytes from the offset on and returns how
  many, or -1 where a byte of a user destination cannot be stored (`readi_exact`). It reads
  blocks of the inode's own list only, and changes nothing.
-/
import Xv6.Fs.Writei

namespace Xv6.Fs

variable {sb : Superblock} {i off n : Nat} {dst : Dst} {s s1 s' : St}

/-- The bytes of the file from `off` on that `n` asks for; none where `off + n` does not fit in 32 bits. -/
def readCount (size off n : Nat) : Nat := if size < off ∨ 2 ^ 32 ≤ off + n then 0 else min n (size - off)

/-- `readi` returns: the bytes of the file from `off` on, as many as there are of the `n`, or -1 where the destination
    faults. It reads the file's own blocks and changes nothing. -/
theorem readi_exact (hfull : Mapped (s.itable i).copy s.cache (s.itable i).copy.size) (hoff : off < 2 ^ 32)
    (hn : n < 2 ^ 32) (dst : Dst) : ∃ r b s', readi sb i dst off n s = .ok (r, b) s' ∧
      (r = if dst.Takes 0 (readCount (s.itable i).copy.size off n) then
        (readCount (s.itable i).copy.size off n : Int) else -1) ∧
      (dst = kernelDst → r = readCount (s.itable i).copy.size off n) ∧
      (r ≠ -1 → ∀ k, b k = if k < readCount (s.itable i).copy.size off n then
        byteAt (s.itable i).copy s.cache (off + k) else 0) ∧
      s' = { s with trace := s'.trace } ∧
      ∃ evs, s'.trace = s.trace ++ evs ∧ ∀ e ∈ evs, ∃ a ∈ blockList (s.itable i).copy s.cache, e = .bread a ∨
        e = .brelse a := by
  have hspec : wp (readi sb i dst off n) (fun r s' => ReadsOf (blockList (s.itable i).copy s.cache) s s' ∧
      (r.1 = if dst.Takes 0 (readCount (s.itable i).copy.size off n) then
        (readCount (s.itable i).copy.size off n : Int) else -1) ∧
      (r.1 ≠ -1 → ∀ k, r.2 k = if k < readCount (s.itable i).copy.size off n then
        byteAt (s.itable i).copy s.cache (off + k) else 0))
      (fun _ _ => False) s := by
    have hmod : (off + n) % 2 ^ 32 < off ↔ 2 ^ 32 ≤ off + n := by omega
    simp only [readi, wp_bind, wp_get, hmod]
    refine wp_ite (fun hout => ?_) fun hin => ?_
    · rw [wp_pure, readCount, if_pos hout]
      exact ⟨.refl s, by rw [if_pos dst.takes_none]; rfl, fun _ k => by rw [if_neg (Nat.not_lt_zero k)]⟩
    · have hcnt : (if (s.itable i).copy.size < off + n then (s.itable i).copy.size - off else n) =
          readCount (s.itable i).copy.size off n := by
        rw [readCount, if_neg hin]
        split <;> omega
      rw [hcnt]
      generalize readCount (s.itable i).copy.size off n = cnt at hcnt
      have hmap : Mapped (s.itable i).copy s.cache (off + (cnt - 0)) := fun k hk => hfull k (by split at hcnt <;> omega)
      refine (readLoop_spec _ (Nat.le_refl _) (Nat.zero_le _) hmap).imp fun r s' h => ?_
      obtain ⟨hreads, hr, hrest, hbytes⟩ := h
      refine ⟨hreads, hr, fun hne k => ?_⟩
      have hd : dst.Takes 0 cnt := by
        by_contra hno
        exact hne (hr.trans (if_neg hno))
      by_cases hk : k < cnt
      · rw [if_pos hk]
        exact hbytes hd k (Nat.zero_le _) hk
      · rw [hrest k (Or.inr (by omega)), if_neg hk]
  cases hrun : readi sb i dst off n s with
  | error e s' => exact (wp_error hspec hrun).elim
  | ok r s' =>
    obtain ⟨h1, h2, h3⟩ := wp_ok hspec hrun
    refine ⟨r.1, r.2, s', rfl, h2, fun hk => ?_, h3, h1.eq, h1.evs⟩
    rw [h2, if_pos (hk ▸ kernelDst_takes _ _)]

theorem readi_exact_tail : ∃ r b s', readi tinySb 0 kernelDst 500 100 tiny = .ok (r, b) s' ∧ r = 12 ∧ b 11 = 0 := by
  have hmap : Mapped (tiny.itable 0).copy tiny.cache (tiny.itable 0).copy.size := fun k hk =>
    tiny_fs.full 1 (tiny_core.live tiny_opened) k hk
  have hcnt : readCount (tiny.itable 0).copy.size 500 100 = 12 := by decide
  have hoff : 500 < 2 ^ 32 := by decide
  have hn : 100 < 2 ^ 32 := by decide
  obtain ⟨r, b, s', hr, -, hval, hb, -⟩ := readi_exact hmap hoff hn kernelDst
  have hval : r = 12 := by rw [hval rfl, hcnt]; rfl
  refine ⟨r, b, s', hr, hval, ?_⟩
  rw [hb (by rw [hval]; decide) 11, hcnt, if_pos (by decide)]
  decide +kernel

end Xv6.Fs
