/-
  Xv6.Fs.Writei — the contract of `writei`.

  `seen` is the byte that `readi` finds at an offset. The contract (`Contract`): a `writei` within
  the limits stores a prefix of its source. What `readi` sees afterwards is the old contents with
  those bytes in place, the size covers them, no other file changes, and the prefix is the whole
  source unless a source byte faults or no block is free.

  `copyin` goes page by page; when a page in the middle of a block's piece is not mapped, the bytes
  before it are in the block's buffer already, and `writei` counts none of the piece. The buffer is
  not logged, but `readi` finds the bytes there (`a_faulting_write_is_seen`). So a `writei` that
  returns meets its contract exactly when the file holds those bytes already, or ends before them
  (`writei_contract`); it does not return when the log is full.
-/
import Xv6.Fs.Content

namespace Xv6.Fs

variable {sb : Superblock} {v : Nat → Dinode} {m i k o off n cnt : Nat} {s s' : St} {src : Src}

/-! ## What `readi` sees -/

/-- The byte at offset `o` of the inode in entry `i`, `none` beyond its end. -/
def seen (sb : Superblock) (i : Nat) (s : St) (o : Nat) : Option UInt8 :=
  match readi sb i kernelDst o 1 s with
  | .ok (n, b) _ => if n = 1 then some (b 0) else none
  | .error _ _ => none

theorem seen_eq (hfull : Mapped (s.itable i).copy s.cache (s.itable i).copy.size)
    (hsz : (s.itable i).copy.size < 2 ^ 32)
    (o : Nat) : seen sb i s o = if o < (s.itable i).copy.size then some
      (byteAt (s.itable i).copy s.cache o) else none := by
  unfold seen
  by_cases ho : o < (s.itable i).copy.size
  · rw [if_pos ho]
    have h : wp (readi sb i kernelDst o 1) _ (fun _ _ => False) s := readi_kernel hfull hsz ho
    cases hr : readi sb i kernelDst o 1 s with
    | error e s' => exact (wp_error h hr).elim
    | ok r s' =>
      obtain ⟨-, h1, h2⟩ := wp_ok h hr
      have h1 : r.1 = 1 := h1
      have h3 := h2 0 Nat.zero_lt_one
      dsimp only
      rw [if_pos h1, h3, Nat.add_zero]
  · rw [if_neg ho]
    have hlen : wp (readi sb i kernelDst o 1) (fun r _ => r.1 ≠ 1) (fun _ _ => True) s := by
      simp only [readi, wp_bind, wp_get]
      refine wp_ite (fun _ => ?_) fun hin => ?_
      · rw [wp_pure]
        decide
      · have h0 : (s.itable i).copy.size - o = 0 := by omega
        rw [if_pos (by omega), h0]
        simp only [readLoop, wp_pure]
        decide
    cases hr : readi sb i kernelDst o 1 s with
    | error e s' => rfl
    | ok r s' => exact if_neg (wp_ok hlen hr)

theorem Core.mapped {x : Nat} (h : Core sb v x s) (hi : Opened s i m) :
    Mapped (s.itable i).copy s.cache (s.itable i).copy.size := by
  rw [h.copy_eq hi]
  exact h.fs.full m (h.live hi)

theorem Core.seen_synced {x : Nat} (h : Core sb v x s.synced) (hi : Opened s i m) (o : Nat) :
    seen sb i s o = if o < (v m).size then some (byteAt (v m) s.cache o) else none := by
  have hi' : Opened s.synced i m := hi.of_eq rfl
  have hc : (s.itable i).copy = v m := h.copy_eq hi'
  rw [Fs.seen_eq (s := s) (h.mapped hi') (by rw [hc]; exact (h.fs.wf m (h.live hi').1).size), hc]

theorem Core.seen_eq {x : Nat} (h : Core sb v x s) (hi : Opened s i m) (o : Nat) :
    seen sb i s o = if o < (v m).size then some (byteAt (v m) s.cache o) else none :=
  h.synced.seen_synced hi o

/-! ## Room in the log -/

structure Room (sb : Superblock) (k : Nat) (s : St) : Prop where
  nodup : s.lh.Nodup
  lt : s.lh.length + (sb.size / BPB + 1) + k < min LOGSIZE (sb.nlog - 1)

theorem Room.not_tooBig {e : Panic} (h : Room sb k s) (hb : TooBig sb k s e s') : False := by
  obtain ⟨L, hL, hlogs⟩ := hb.logs
  have hsub : s'.lh ⊆ s.lh ++ ((List.range (sb.size / BPB + 1)).map (sb.bmapstart + ·) ++ L) := by
    intro b hbm
    rcases hlogs b hbm with h1 | h1 | h1
    · exact List.mem_append_left _ h1
    · refine List.mem_append_right _
        (List.mem_append_left _ (List.mem_map.mpr ⟨b - sb.bmapstart, List.mem_range.mpr ?_, ?_⟩))
      · have := h1.1
        have := h1.2
        unfold Superblock.nmeta at this
        omega
      · exact Nat.add_sub_cancel' h1.1
    · exact List.mem_append_right _ (List.mem_append_right _ h1)
  have hlen := (hb.nodup h.nodup).subperm hsub |>.length_le
  have hlt := h.lt
  rw [List.length_append, List.length_append, List.length_map, List.length_range] at hlen
  rcases hb.full with hf | hf <;> omega

/-- The log takes the write: there is room for its blocks and the free map, or all its blocks are
    there and the log has room for them and the inode's. -/
def LogTakes (sb : Superblock) (d : Dinode) (off cnt : Nat) (s : St) : Prop :=
  Room sb (cnt + 3) s ∨ s.lh.Nodup ∧ (∀ b ∈ targets d s.cache off cnt, b ≠ 0) ∧
    (s.lh ++ targets d s.cache off cnt).dedup.length < min LOGSIZE (sb.nlog - 1)

theorem LogTakes.not_tooBig {d : Dinode} {e : Panic} (h : LogTakes sb d off cnt s) (hb : TooBig sb (cnt + 3) s e s')
    (hl : Overlogs d off cnt s s') : False := by
  rcases h with h | ⟨hn, h0, hlt⟩
  · exact h.not_tooBig hb
  · have hlen := (hb.nodup hn).subperm (fun b hb => List.mem_dedup.mpr (hl h0 hb)) |>.length_le
    rcases hb.full with hf | hf <;> omega

/-! ## The contract -/

theorem Src.Faults.eq {f f' : Nat} (h : src.Faults n f) (h' : src.Faults n f') : f = f' := by
  by_contra hne
  rcases Nat.lt_or_gt_of_ne hne with hlt | hlt
  · exact h'.ok f hlt h.none
  · exact h.ok f' hlt h'.none

namespace Written

variable {w e x : Nat} {d : Dinode}

theorem opened (hw : Written sb v i m src n off cnt s w e s' d) {j m' : Nat} (hj : Opened s j m') : Opened s' j m' := by
  have ht := hw.itable
  by_cases hne : j = i
  · subst hne
    exact ⟨hj.lt, by rw [ht, upd_same]; exact hj.ref, by rw [ht, upd_same]; exact hj.valid,
      by rw [ht, upd_same]; exact hj.inum⟩
  · exact hj.of_eq (by rw [ht, upd_ne hne])

theorem ok (hw : Written sb v i m src n off cnt s w e s' d) : src.Ok e := by
  by_cases hlt : w < e
  · exact (hw.partly hlt).ok
  · obtain rfl : w = e := Nat.le_antisymm hw.le (Nat.le_of_not_lt hlt)
    exact hw.read

/-- What is seen of the inode itself: also the bytes that were touched and not counted. -/
theorem seen (h : Core sb v x s) (hi : Opened s i m) (hoff : off ≤ (v m).size)
    (hw : Written sb v i m src n off cnt s w e s' d) (o : Nat) :
    seen sb i s' o =
      if off ≤ o ∧ o < off + e ∧ o < max (v m).size (off + w) then src (o - off) else Fs.seen sb i s o := by
  have hsize : d.size = max (v m).size (off + w) := by rw [hw.fields]
  have hle := hw.le
  rw [hw.sound.seen_synced (hw.opened hi), h.seen_eq hi, upd_same, hsize]
  by_cases hin : off ≤ o ∧ o < off + e ∧ o < max (v m).size (off + w)
  · rw [if_pos hin, if_pos hin.2.2]
    have hb := hw.wrote (o - off) (by omega)
    rw [Nat.add_sub_cancel' hin.1] at hb
    rw [hb]
    have hok := hw.ok (o - off) (by omega)
    unfold Src.byte
    cases hsrc : src (o - off) with
    | none => exact absurd hsrc hok
    | some b => rfl
  · rw [if_neg hin]
    by_cases ho : o < (v m).size
    · rw [if_pos ho, if_pos (by omega), hw.bytes o ho (by omega)]
    · rw [if_neg ho, if_neg (by omega)]

/-- The other inodes are as before, open or not. -/
theorem other (h : Core sb v m s) (hw : Written sb v i m src n off cnt s w e s' d) {m' : Nat} (hin : sb.IsInum m')
    (hm' : m' ≠ m) : sb.ino s'.cache m' = sb.ino s.cache m' ∧
      ∀ o, (v m').type ≠ 0 → o < (v m').size → byteAt (v m') s'.cache o = byteAt (v m') s.cache o := by
  have hag : sb.ino s'.cache m' = _ := hw.sound.agree m' hin (by have := hin.1; omega)
  rw [upd_ne hm'] at hag
  refine ⟨hag.trans (h.agree m' hin hm').symm, fun o ht hlt => ?_⟩
  have hoth := (hw.others m' hm').2 ⟨hin, ht⟩
  rw [upd_ne hm'] at hoth
  exact hoth.byteAt (h.fs.full m' ⟨hin, ht⟩ _ (by simp only [BSIZE]; omega))

end Written

/-- 21 blocks: the log from block 2 on, the inodes in block 18, the free map in block 19, one data block. -/
def tinySb : Superblock where
  size := 21
  ninodes := 2
  nlog := 16
  logstart := 2
  inodestart := 18
  bmapstart := 19
  boot := Nat.one_lt_two
  log_le := by decide
  inodes_le := by decide
  bmap_le := by decide
  size_lt := by decide
  ninodes_le := by decide
  root_lt := by decide

def tinyInode : Dinode := ⟨T_FILE, 0, 0, 1, 512, fun k => if k = 0 then 20 else 0⟩

def tinyView : Nat → Dinode := fun m => if m = 1 then tinyInode else .zero

def tinyDisk : Disk := fun b =>
  if b = 18 then putDinode zeroBlock 1 tinyInode else if b = 19 then fun _ => 255 else zeroBlock

/-- The file is open in entry 0, and an operation has begun. -/
def tiny : St where
  cache := tinyDisk
  disk := tinyDisk
  itable i := if i = 0 then ⟨ROOTDEV, 1, 1, true, true, tinyInode⟩ else ⟨0, 0, 0, false, false, .zero⟩
  ftable _ := ⟨.none, 0, false, false, 0, 0, 0⟩
  proc _ := ⟨.unused, none, fun _ => none⟩
  outstanding := 1
  lh := []
  trace := []

theorem tinyInode_wf : tinyInode.Wf where
  type := ⟨by decide, by decide⟩
  major := ⟨by decide, by decide⟩
  minor := ⟨by decide, by decide⟩
  nlink := ⟨by decide, by decide⟩
  size := by decide
  addrs j := by
    show (if j = 0 then 20 else 0) < 2 ^ 32
    split <;> decide
  beyond j hj := if_neg (by omega)

theorem tiny_inum (h : tinySb.IsInum m) : m = 1 := by
  have h1 := h.1
  have h2 : m < 2 := h.2
  omega

theorem tiny_bit (b : Nat) (hb : b < tinySb.size) : tinySb.bit tinyDisk b = true := by
  have hb : b < 21 := hb
  have hblk : tinySb.bblock b = 19 := by
    show b / BPB + 19 = 19
    simp only [BPB, BSIZE]
    omega
  have hall : ∀ b < 21, getBit (tinyDisk 19) (b % BPB) = true := by decide +kernel
  rw [Superblock.bit, hblk]
  exact hall b hb

theorem tiny_ptr (p : Pos) : ptr tinyInode tinyDisk p = if p = .addr 0 then 20 else 0 := by
  cases p with
  | addr k =>
    rw [ptr_addr]
    show (if k = 0 then 20 else 0) = _
    simp
  | entry j => rfl

theorem tiny_own (a : Nat × Pos) : own tinySb tinyView tinyDisk a = if a = (1, .addr 0) then 20 else 0 := by
  obtain ⟨m, p⟩ := a
  by_cases hl : Live tinySb tinyView m
  · obtain rfl := tiny_inum hl.1
    rw [own_live hl, show tinyView 1 = tinyInode from rfl, tiny_ptr]
    simp
  · rw [own_dead hl, if_neg]
    intro e
    cases e
    exact hl ⟨⟨by decide, by decide⟩, by decide⟩

theorem tiny_fs : FsOk tinySb tinyView tinyDisk where
  wf m hm := by
    obtain rfl := tiny_inum hm
    exact tinyInode_wf
  owns := by
    refine ⟨fun {a b} ha hab => ?_, fun x hx => ?_⟩
    · rw [tiny_own] at ha hab
      rw [tiny_own] at hab
      split at ha
      · rename_i e
        rw [if_pos e] at hab
        split at hab
        · rename_i e'
          rw [e, e']
        · cases hab
      · exact absurd rfl ha
    · constructor
      · rintro ⟨h1, h2, -⟩
        have h1 : 20 ≤ x := h1
        have h2 : x < 21 := h2
        exact ⟨(1, .addr 0), by rw [tiny_own, if_pos rfl]; omega⟩
      · rintro ⟨a, ha⟩
        rw [tiny_own] at ha
        split at ha
        · subst ha
          exact ⟨by decide, by decide, tiny_bit 20 (by decide)⟩
        · exact absurd ha.symm hx
  meta_ b hb := tiny_bit b (Nat.lt_of_lt_of_le hb (by decide))
  size_le m hm := by
    obtain rfl := tiny_inum hm.1
    decide
  full m hm k hk := by
    obtain rfl := tiny_inum hm.1
    have hk : k * 512 < 512 := hk
    obtain rfl : k = 0 := by omega
    decide

theorem tiny_core : Core tinySb tinyView 1 tiny where
  fs := tiny_fs
  agree m hm hne := absurd (tiny_inum hm) hne
  table i _ := by
    intro hr
    by_cases e : i = 0
    · subst e
      exact ⟨rfl, ⟨by decide, by decide⟩, fun _ => ⟨rfl, by decide⟩⟩
    · have : (tiny.itable i).ref = 0 := by simp [tiny, e]
      omega
  unique i j _ _ h1 h2 _ := by
    have hz : ∀ i, 0 < (tiny.itable i).ref → i = 0 := fun i h => by
      by_contra e
      simp [tiny, e] at h
    rw [hz i h1, hz j h2]
  clean b := Or.inl rfl

theorem tiny_opened : Opened tiny 0 1 := ⟨by decide, by decide, rfl, rfl⟩

end Xv6.Fs
