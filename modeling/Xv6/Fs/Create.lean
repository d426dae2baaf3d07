/-
  Xv6.Fs.Create — `create` of kernel/sysfile.c over the inode table.

  A new inode is allocated, given its fields, for a directory its "." and "..", and then its entry
  in the parent. Any of the writes may find no block; `fail:` then frees the new inode, and since a
  directory entry is written whole or not at all the tree is what it was. `Enters` says, of the
  state before, whether `create` of a file goes so far that something stays: the new file, or an
  indirect block of the parent for an entry that then finds no data block (`create_spec`).
-/
import Xv6.Fs.Between
import Xv6.Fs.Syscall

namespace Xv6.Fs

variable {sb : Superblock} {v v1 v' : Nat → Dinode} {K : Nat → Prop} {M : List Nat} {c c' : Disk} {T : Prop}
  {r : Option Nat}
variable {H : Nat → Nat} {own own' : List Nat} {dp ip i m n p : Nat} {s s1 s' : St} {name : Name}
  {type major minor : Int}

/-- The same inodes are allocated, each with the same fields and bytes. -/
def SameTree (sb : Superblock) (v : Nat → Dinode) (c : Disk) (v' : Nat → Dinode) (c' : Disk) : Prop :=
  ∀ m, sb.IsInum m → ((v' m).type = 0 ↔ (v m).type = 0) ∧ (Live sb v m → SameFile (v m) c (v' m) c')

theorem SameTree.refl (v : Nat → Dinode) (c : Disk) : SameTree sb v c v c := fun _ _ => ⟨Iff.rfl, fun _ => .refl _ _⟩

theorem Still.sameTree (h : Still K s s') : SameTree sb v s.cache v s'.cache := by
  rw [h.cache]
  exact .refl v _

theorem SameTree.trans (h : SameTree sb v c v1 c') {c2 : Disk} (h' : SameTree sb v1 c' v' c2) : SameTree sb v c v' c2 :=
    fun m hm => by
  obtain ⟨h1, h2⟩ := h m hm
  obtain ⟨h3, h4⟩ := h' m hm
  exact ⟨h3.trans h1, fun hl => (h2 hl).trans (h4 ⟨hm, fun h0 => hl.2 (h1.mp h0)⟩)⟩

theorem Moved.sameFile (h : Moved sb K M v s v' s') (hf : FsOk sb v s.cache) (hm : m ∉ M) (hl : Live sb v m) :
    SameFile (v m) s.cache (v' m) s'.cache := by
  obtain ⟨h1, h2⟩ := h.files m hm
  have h2 := h2 hl
  rw [h1] at h2 ⊢
  exact .of_data (hf.full m hl) h2

theorem Kept.mono (h : Kept H own i) (hs : own ⊆ own') : Kept H own' i := h.imp_right fun h => hs h

theorem kept_nil (h : Kept H [] i) : Kept H own i := h.mono (by simp)

/-- Two entries in use hold different inodes. -/
theorem Core.inum_ne (h : Core sb v 0 s) (hi : Opened s ip n) (hj : Opened s dp m) (hne : ip ≠ dp) : n ≠ m := fun e =>
  hne (h.unique ip dp hi.lt hj.lt hi.ref hj.ref (by rw [hi.inum, hj.inum, e]))

theorem Last.congr (h : Last sb v' H own s' i) (hi : (s'.itable i).inum = n) (hi' : (s.itable i).inum = n)
    (ht : (v' n).type = (v n).type) (hn : (v' n).nlink = (v n).nlink) : Last sb v H own s i := by
  obtain ⟨h1, h2, h3⟩ := h
  rw [hi] at h2 h3
  exact ⟨h1, by rw [hi']; exact ⟨h2.1, by rw [← ht]; exact h2.2⟩, by rw [hi', ← hn]; exact h3⟩

/-- What a directory holds and what it has room for do not depend on the inode blocks. -/
theorem touches_upper (hf : FsOk sb v c) (hl : Live sb v m) (hc : ∀ y, sb.bmapstart ≤ y → c' y = c y) :
    dirMap (v m) c' = dirMap (v m) c ∧ (Touches sb (v m) c' ↔ Touches sb (v m) c) := by
  have hdata : ∀ y, sb.nmeta ≤ y → c' y = c y := fun y hy => hc y (by have := sb.bmap_lt_nmeta; omega)
  have hs : SameData (v m) c (v m) c' := .low hf hl hdata
  have hslot : ∀ k, k < (v m).size / 16 → slot (v m) c' k = slot (v m) c k := fun k hk =>
    slot_congr fun o ho => hs.bytes (hf.full m hl) _ (by omega)
  have hfree : freeSlot (v m) c' = freeSlot (v m) c := List.find?_congr fun k hk => by
    rw [hslot k (List.mem_range.mp hk)]
  have hbit : ∀ b, sb.bit c' b = sb.bit c b := fun b => by
    rw [Superblock.bit, Superblock.bit, hc (sb.bblock b) (Nat.le_add_left _ _)]
  have hneed : ∀ k, needed (v m) c' k = needed (v m) c k := fun k => by
    rw [needed, needed, blockAt, ptr_low hf hl hdata]
    rfl
  refine ⟨funext fun nm => (Slots.slotMap_congr hslot nm).1, ?_⟩
  simp only [Touches, hfree, hneed, HasFree, hbit]

/-! ## `fail:` -/

theorem createFail_spec (h : Held sb v H [ip, dp] [ip, dp] s) (hip : Opened s ip n) (hdp : Opened s dp m)
    (hne : ip ≠ dp) (hH : H ip = 0) (ho : s.outstanding = 1) (hsafe : ¬ Last sb v H [] s dp) :
    wp (createFail sb dp ip)
      (fun r s' => r = none ∧ ∃ v', Held sb v' H [] [] s' ∧ (v' n).type = 0 ∧ Moved sb (Kept H []) [n] v s v' s')
      Stops s := by
  have hlive := h.core.live hip
  have hnm := h.core.inum_ne hip hdp hne
  have hwf := h.core.fs.wf n hlive.1
  have hkdp : Kept H [ip, dp] dp := Or.inr (by simp)
  have hkdp' : Kept H [dp] dp := Or.inr (by simp)
  simp only [createFail, wp_bind, wp_setCopy, wp_pure, h.core.copy_eq hip]
  refine (iupdate_held (d := { v n with nlink := 0 }) h hip ho rfl rfl rfl
    ⟨hwf.type, hwf.major, hwf.minor, by simp [IsShort], hwf.size, hwf.addrs, hwf.beyond⟩).imp fun _ s1 h₁ => ?_
  have hlast : Last sb (upd v n { v n with nlink := 0 }) H [dp] s1 ip := by
    refine ⟨?_, ?_, ?_⟩
    · rintro (h0 | h0)
      · omega
      · exact hne (by simpa using h0)
    · rw [h₁.opened.inum]
      exact ⟨hlive.1, by rw [upd_same]; exact hlive.2⟩
    · rw [h₁.opened.inum, upd_same]
  refine (iunlockput_last h₁.held h₁.opened (h₁.moved.outstanding.trans ho) (by simpa using hne) hlast).imp
    fun _ s2 h₂ => ?_
  obtain ⟨held2, hm2⟩ := h₂
  -- the parent is what it was
  have hin2 : (s2.itable dp).inum = m := (hm2.inum dp hdp.lt hkdp').trans
    ((h₁.moved.inum dp hdp.lt hkdp).trans hdp.inum)
  generalize hv2 : upd (upd v n { v n with nlink := 0 }) n (upd v n { v n with nlink := 0 } n).freed = v2 at held2 hm2
  have hfree : (v2 n).type = 0 := by rw [← hv2, upd_same]; rfl
  have hvm : v2 m = v m := by rw [← hv2, upd_ne (Ne.symm hnm), upd_ne (Ne.symm hnm)]
  refine (iunlockput_still held2 hdp.lt (by simp) fun hl =>
    hsafe (hl.congr hin2 hdp.inum (by rw [hvm]) (by rw [hvm]))).imp fun _ s3 h₃ => ?_
  exact ⟨trivial, v2, h₃.1, hfree,
    ((h₁.moved.mono (fun _ => kept_nil) (by simp)).trans (hm2.mono (fun _ => kept_nil) (by simp))).trans
    h₃.2.moved⟩

/-! ## "." and ".." -/

theorem createDots_spec (h : Held sb v H [ip, dp] [ip, dp] s) (hip : Opened s ip n) (hdp : Opened s dp m)
    (ho : s.outstanding = 1) (hlk : Linked sb v (Kept H [ip, dp]) s) :
    wp (createDots sb dp ip)
      (fun _ s' => ∃ v', Held sb v' H [ip, dp] [ip, dp] s' ∧ Opened s' ip n ∧ Linked sb v' (Kept H [ip, dp]) s' ∧
        Moved sb (Kept H [ip, dp]) [n] v s v' s') Stops s := by
  have hkip : Kept H [ip, dp] ip := Or.inr (by simp)
  have hkdp : Kept H [ip, dp] dp := Or.inr (by simp)
  simp only [createDots, wp_bind, wp_get]
  refine (dirlink_spec h hip ho hlk hip.lt hkip rfl).imp fun r s1 => ?_
  rintro ⟨v1, h₁⟩
  refine wp_ite (fun _ => ⟨v1, h₁.held, h₁.opened, h₁.linked, h₁.moved⟩) fun _ => ?_
  simp only [wp_bind, wp_get, wp_pure]
  refine (dirlink_spec h₁.held h₁.opened (h₁.moved.outstanding.trans ho) h₁.linked hdp.lt hkdp rfl).imp fun r s2 => ?_
  rintro ⟨v2, h₂⟩
  exact ⟨v2, h₂.held, h₂.opened, h₂.linked, h₁.moved.trans h₂.moved⟩

/-! ## The entry in the parent -/

/-- `create` has made inode `n`, with its entry in `m`, or has taken everything back; `nlink` is what the new inode
    has. -/
structure Made (sb : Superblock) (v : Nat → Dinode) (H : Nat → Nat) (ip n m : Nat) (nlink : Int) (s : St)
    (r : Option Nat) (v' : Nat → Dinode) (s' : St) : Prop where
  moved : Moved sb (Kept H []) [n, m] v s v' s'
  held : Held sb v' H r.toList r.toList s'
  made : ∀ j ∈ r, j = ip ∧ Opened s' ip n ∧ (v' n).nlink = nlink
  failed : r = none → (v' n).type = 0 ∧ SameFile (v m) s.cache (v' m) s'.cache

/-- The result of a call that changes inode `m`, with its blocks: it was done, or they show whether it was begun. -/
structure Begun (T : Prop) (r : Option Nat) (d d' : Dinode) : Prop where
  done : r ≠ none → T
  failed : r = none → (d'.addrs = d.addrs ↔ ¬ T)

/-- `createFail`, after steps that have changed the new inode and left the parent's bytes as they were. -/
theorem createFail_made (nlink : Int) (h : Held sb v1 H [ip, dp] [ip, dp] s1) (hip : Opened s1 ip n)
    (hdp : Opened s1 dp m) (hne : ip ≠ dp) (hH : H ip = 0) (ho : s1.outstanding = 1) (hsafe : ¬ Last sb v1 H [] s1 dp)
    (hm : Moved sb (Kept H []) [n, m] v s v1 s1) (hsame : SameFile (v m) s.cache (v1 m) s1.cache) :
    wp (createFail sb dp ip) (fun r s' => r = none ∧ ∃ v', Made sb v H ip n m nlink s r v' s' ∧ v' m = v1 m)
      Stops s1 := by
  have hnm := h.core.inum_ne hip hdp hne
  refine (createFail_spec h hip hdp hne hH ho hsafe).imp fun r s' hr => ?_
  obtain ⟨rfl, v', hh, h0, hm'⟩ := hr
  have hmem : m ∉ [n] := by simpa using Ne.symm hnm
  refine ⟨rfl, v', ⟨hm.trans (hm'.mono (fun _ => id) (by simp)), hh, nofun, fun _ => ⟨h0, ?_⟩⟩, (hm'.files m hmem).1⟩
  exact hsame.trans (hm'.sameFile h.core.fs hmem (h.core.live hdp))

theorem createEntry_spec (dots : Bool) (h : Held sb v H [ip, dp] [ip, dp] s) (hip : Opened s ip n) (hdp : Opened s dp m)
    (hne : ip ≠ dp) (hH : H ip = 0) (ho : s.outstanding = 1) (hlk : Linked sb v (Kept H [ip, dp]) s)
    (hsafe : ¬ Last sb v H [] s dp) :
    wp (if dots = false then createFail sb dp ip
      else do
        let r ← dirlink sb dp name ((← get).itable ip).inum
        if r < 0 then createFail sb dp ip
        else do
          if type = T_DIR then do
            setCopy dp fun d => { d with nlink := short (d.nlink + 1) }
            iupdate sb dp
          else pure ()
          iunlockput sb dp
          return some ip)
      (fun r s' => r = none ∨ type = T_FILE → ∃ v', Made sb v H ip n m (v n).nlink s r v' s' ∧
        (dots = true → dirMap (v m) s.cache name.key = none → Begun (Touches sb (v m) s.cache) r (v m) (v' m)))
        Stops s := by
  have hnm := h.core.inum_ne hip hdp hne
  have hkip : Kept H [ip, dp] ip := Or.inr (by simp)
  refine wp_ite (fun hdots => ?_) fun _ => ?_
  · refine (createFail_made (v n).nlink h hip hdp hne hH ho hsafe (Still.refl s).moved (.refl _ _)).imp
      fun r s' hr _ => ?_
    obtain ⟨-, v', hmade, -⟩ := hr
    exact ⟨v', hmade, fun h0 => absurd (h0.symm.trans hdots) (by decide)⟩
  simp only [wp_bind, wp_get]
  refine (dirlink_spec h hdp ho hlk hip.lt hkip rfl).imp fun r s1 => ?_
  rintro ⟨v1, h₁⟩
  have hip1 : Opened s1 ip n := hip.kept h₁.moved.toKeeps hkip (h₁.held.ref_pos hip.lt hkip)
  have hsafe1 : ∀ {own}, Last sb v1 H own s1 dp → Last sb v H own s dp := fun hl =>
    hl.congr h₁.opened.inum hdp.inum (by rw [h₁.fields]) (by rw [h₁.fields])
  refine wp_ite (fun hr => ?_) fun hr => ?_
  · refine (createFail_made (v n).nlink h₁.held hip1 h₁.opened hne hH (h₁.moved.outstanding.trans ho) (mt hsafe1 hsafe)
      (h₁.moved.mono (fun _ => kept_nil) (by simp)) (h₁.failed hr)).imp fun r' s' hr' _ => ?_
    obtain ⟨rfl, v', hmade, hvm⟩ := hr'
    refine ⟨v', hmade, fun _ hno => ⟨fun h0 => absurd rfl h0, fun _ => ?_⟩⟩
    rw [hvm]
    exact (h₁.touched hno).2 hr
  -- done: of a file the rest is told, the parent is released
  by_cases hty : type = T_FILE
  · subst hty
    rw [if_neg (by decide)]
    simp only [wp_bind, wp_pure]
    have h1' : Held sb v1 H [dp, ip] [dp, ip] s1 := h₁.held.perm (.swap dp ip []) fun x => by simp [or_comm]
    refine (iunlockput_still h1' hdp.lt (by simpa using Ne.symm hne) fun hl => hsafe (hsafe1 hl).cons).imp
      fun _ s2 h₂ _ => ?_
    obtain ⟨held2, hst⟩ := h₂
    have hk : Kept H [ip] ip := Or.inr (by simp)
    refine ⟨v1, ⟨(h₁.moved.mono (fun _ => kept_nil) (by simp)).trans (hst.mono fun _ => kept_nil).moved,
      held2, ?_, nofun⟩, fun _ hno => ⟨fun _ => (h₁.touched hno).1 hr, nofun⟩⟩
    simp only [Option.mem_def, Option.some.injEq, forall_eq']
    refine ⟨trivial, hip1.kept hst.toKeeps hk (held2.ref_pos hip.lt hk), ?_⟩
    rw [(h₁.moved.files n (by simpa using hnm)).1]
  · have hno : ∀ {A : Prop}, Option.some ip = none ∨ type = T_FILE → A := fun h0 => absurd h0 (by simp [hty])
    refine wp_ite (fun _ => ?_) fun _ => ?_
    · simp only [wp_bind, wp_setCopy, wp_pure]
      exact (wp_true _ _).imp fun _ _ _ => (wp_true _ _).imp fun _ _ _ => hno
    · simp only [wp_bind, wp_pure]
      exact (wp_true _ _).imp fun _ _ _ => hno

/-! ## The new inode -/

theorem createNew_spec (h : Held sb v H [ip, dp] [dp] s) (hlt : ip < NINODE) (hin : (s.itable ip).inum = n)
    (hdp : Opened s dp m)
    (hne : ip ≠ dp) (hH : H ip = 0) (hmaj : IsShort major) (hmin : IsShort minor) (ho : s.outstanding = 1)
    (hlk : Linked sb v (Kept H [ip, dp]) s) (hsafe : ¬ Last sb v H [] s dp) :
    wp (createNew sb dp ip name type major minor)
      (fun r s' => r = none ∨ type = T_FILE → ∃ v', Made sb v H ip n m 1 s r v' s' ∧
        (type = T_FILE → dirMap (v m) s.cache name.key = none → Begun (Touches sb (v m) s.cache) r (v m) (v' m)))
        Stops s := by
  have hkip : Kept H [ip, dp] ip := Or.inr (by simp)
  have hkdp : Kept H [ip, dp] dp := Or.inr (by simp)
  simp only [createNew, wp_bind, wp_setCopy]
  refine (ilock_spec h hlt hkip).imp fun _ s1 h₁ => ?_
  obtain ⟨held1, hip1, -, hst1⟩ := h₁
  rw [hin] at hip1
  have hdp1 : Opened s1 dp m := hdp.kept hst1.toKeeps hkdp (held1.ref_pos hdp.lt hkdp)
  have hnm := held1.core.inum_ne hip1 hdp1 hne
  have hwf := held1.core.fs.wf n (held1.core.live hip1).1
  rw [held1.core.copy_eq hip1]
  refine (iupdate_held (d := { v n with major := major, minor := minor, nlink := 1 }) held1 hip1
    (hst1.outstanding.trans ho) rfl rfl rfl
    ⟨hwf.type, hmaj, hmin, by simp [IsShort], hwf.size, hwf.addrs, hwf.beyond⟩).imp fun _ s2 h₂ => ?_
  have hn2 : (upd v n { v n with major := major, minor := minor, nlink := 1 } n).nlink = 1 := by rw [upd_same]
  have hm2v : upd v n { v n with major := major, minor := minor, nlink := 1 } m = v m := upd_ne (Ne.symm hnm) _
  generalize hv2 : upd v n { v n with major := major, minor := minor, nlink := 1 } = v2 at h₂ hn2 hm2v
  have held2 : Held sb v2 H [ip, dp] [ip, dp] s2 := hv2 ▸ h₂.held
  have hm2 : Moved sb (Kept H [ip, dp]) [n] v s v2 s2 := hst1.moved.trans (hv2 ▸ h₂.moved)
  have hlk2 : Linked sb v2 (Kept H [ip, dp]) s2 := hv2 ▸ h₂.linked (hlk.still hst1)
  have hdp2 : Opened s2 dp m := hdp.kept hm2.toKeeps hkdp (held2.ref_pos hdp.lt hkdp)
  have hsame2 : SameFile (v m) s.cache (v2 m) s2.cache := hm2.sameFile h.core.fs (by simpa using Ne.symm hnm)
    (h.core.live hdp)
  refine wp_ite (fun hty => ?_) fun hty => ?_
  · -- a directory: only its failure is told
    rw [wp_bind]
    refine (createDots_spec held2 h₂.opened hdp2 (hm2.outstanding.trans ho) hlk2).imp fun dots s3 h₃ => ?_
    obtain ⟨v3, held3, hip3, hlk3, hm3⟩ := h₃
    have hm3' := hm2.trans hm3
    have hdp3 : Opened s3 dp m := hdp.kept hm3'.toKeeps hkdp (held3.ref_pos hdp.lt hkdp)
    have hv3 : v3 m = v m := (hm3'.files m (by simpa using Ne.symm hnm)).1
    refine (createEntry_spec dots held3 hip3 hdp3 hne hH (hm3'.outstanding.trans ho) hlk3 fun hl => hsafe ?_).imp
      fun r s' hr hor => ?_
    · exact hl.congr hdp3.inum hdp.inum (by rw [hv3]) (by rw [hv3])
    · obtain rfl : r = none := hor.resolve_right fun h0 => absurd (hty.symm.trans h0) (by decide)
      obtain ⟨v', hmade, -⟩ := hr (Or.inl rfl)
      obtain ⟨h1, h2⟩ := hmade.failed rfl
      refine ⟨v', ⟨(hm3'.mono (fun _ => kept_nil) (by simp)).trans hmade.moved, hmade.held, fun _ h0 => (by cases h0),
        fun _ => ⟨h1, ?_⟩⟩, fun h0 =>
        absurd (hty.symm.trans h0) (by decide)⟩
      exact (hm3'.sameFile h.core.fs (by simpa using Ne.symm hnm) (h.core.live hdp)).trans h2
  · rw [wp_bind, wp_pure]
    refine (createEntry_spec true held2 h₂.opened hdp2 hne hH (hm2.outstanding.trans ho) hlk2 fun hl => hsafe ?_).imp
      fun r s' hr hor => ?_
    · exact hl.congr hdp2.inum hdp.inum (by rw [hm2v]) (by rw [hm2v])
    obtain ⟨v', hmade, hbegun⟩ := hr hor
    rw [hn2] at hmade
    refine ⟨v', ⟨(hm2.mono (fun _ => kept_nil) (by simp)).trans hmade.moved, hmade.held, hmade.made, fun hn => ?_⟩,
      fun _ hno => ?_⟩
    · exact (hmade.failed hn).imp_right hsame2.trans
    · have hupper : ∀ y, sb.bmapstart ≤ y → s2.cache y = s.cache y := fun y hy => by rw [h₂.upper y hy, hst1.cache]
      obtain ⟨hmap, htouch⟩ := touches_upper h.core.fs (h.core.live hdp) hupper
      have := hbegun rfl (by rw [hm2v, hmap]; exact hno)
      rw [hm2v] at this
      exact ⟨fun h0 => htouch.mp (this.done h0), fun h0 => (this.failed h0).trans (not_congr htouch)⟩

/-! ## `create` -/

def SameAddrs (sb : Superblock) (v v' : Nat → Dinode) : Prop := ∀ m, Live sb v m → (v' m).addrs = (v m).addrs

/-- `create` of `path` goes so far that something stays: the name is not in the parent, an inode is free and the parent
    changes. -/
def Enters (sb : Superblock) (s : St) (p : Nat) (path : List UInt8) : Prop :=
  ∃ m name, resolve sb s p path true = some (m, name) ∧ dirMap (sb.ino s.cache m) s.cache name.key = none ∧
    (∃ n, sb.IsInum n ∧ (sb.ino s.cache n).type = 0) ∧ Touches sb (sb.ino s.cache m) s.cache

/-- A call that may make a file has its inode, locked: one that was there, with nothing changed, or, where `T` holds,
    a new
    one; or it has none. -/
structure Created (sb : Superblock) (v : Nat → Dinode) (H : Nat → Nat) (type : Int) (T : Prop) (s : St) (r : Option Nat)
    (v' : Nat → Dinode) (s' : St) : Prop where
  keeps : Keeps (Kept H []) s s'
  held : Held sb v' H r.toList r.toList s'
  failed : r = none → SameTree sb v s.cache v' s'.cache
  addrs : r = none → type = T_FILE → (SameAddrs sb v v' ↔ ¬ T)
  found : ∀ ip ∈ r, ∃ n, Opened s' ip n ∧ (¬ T ∧ v' = v ∧ s'.cache = s.cache ∧ ¬ Last sb v H [] s' ip ∨
    T ∧ sb.IsInum n ∧ (v n).type = 0 ∧ (v' n).nlink = 1)

theorem Created.still (hst : Still (Kept H []) s s') (hh : Held sb v H [] [] s') (hT : ¬ T) :
    Created sb v H type T s none v s' :=
  ⟨hst.toKeeps, hh, fun _ => hst.sameTree, fun _ _ => iff_of_true (fun _ _ => rfl) hT, nofun⟩

theorem Created.after (h : Created sb v H type T s1 r v' s') (hst : Still (Kept H []) s s1) :
    Created sb v H type T s r v' s' :=
  ⟨hst.toKeeps.trans h.keeps, h.held, fun hn => hst.sameTree.trans (h.failed hn),
    h.addrs, by rw [← hst.cache]; exact h.found⟩

/-- The name exists. -/
theorem createOld_spec {off : Nat} (h : Held sb v H [dp] [dp] s) (hdp : Opened s dp m) (hlk : Linked sb v (Kept H []) s)
    (hsafe : ¬ Last sb v H [] s dp) (hf : Found sb v H [dp] [dp] m name s ip off s1) (hT : ¬ T) :
    wp (do
        iunlockput sb dp
        ilock sb ip
        let t := ((← get).itable ip).copy.type
        if type = T_FILE ∧ (t = T_FILE ∨ t = T_DEVICE) then return some ip
        else do
          iunlockput sb ip
          return none)
      (fun r s' => Created sb v H type T s r v s') Stops s1 := by
  have hkip : Kept H [ip] ip := Or.inr (by simp)
  have hkdp : Kept H [dp] dp := Or.inr (by simp)
  obtain ⟨hlt, -, held1, hst1⟩ := hf.got
  have hst1' : Still (Kept H []) s s1 := hst1.mono fun _ => kept_nil
  have held1' : Held sb v H [dp, ip] [dp] s1 := held1.perm (.swap dp ip []) fun _ => Iff.rfl
  have hsafei := (hlk.still hst1').not_last held1 (by simp) hlt (by simp) (hf.named (h.core.live hdp))
  simp only [wp_bind, wp_get]
  refine (iunlockput_still held1' hdp.lt (by simp) fun hl => hsafe (hl.cons.kept hst1.toKeeps hdp.lt hkdp)).imp
    fun _ s2 h₂ => ?_
  refine (ilock_spec h₂.1 hlt hkip).imp fun _ s3 h₃ => ?_
  obtain ⟨held3, hop3, -, hst3⟩ := h₃
  have hst : Still (Kept H [ip]) s1 s3 := h₂.2.trans hst3
  have hst' : Still (Kept H []) s s3 := hst1'.trans (hst.mono fun _ => kept_nil)
  have hsafe3 : ¬ Last sb v H [] s3 ip := fun hl => hsafei (hl.kept hst.toKeeps hlt hkip)
  refine wp_ite (fun _ => ?_) fun _ => ?_
  · refine ⟨hst'.toKeeps, held3, nofun, nofun, ?_⟩
    simp only [Option.mem_def, Option.some.injEq, forall_eq']
    exact ⟨_, hop3, Or.inl ⟨hT, trivial, hst'.cache, hsafe3⟩⟩
  · simp only [wp_bind, wp_pure]
    exact (iunlockput_still held3 hlt (by simp) hsafe3).imp fun _ s4 h₄ => .still (hst'.trans h₄.2) h₄.1 hT

/-- The name does not exist; `T` is what `create` then depends on. -/
theorem createAlloc_spec (h : Held sb v H [dp] [dp] s) (hdp : Opened s dp m) (ho : s.outstanding = 1)
    (hlk : Linked sb v (Kept H []) s)
    (hsafe : ¬ Last sb v H [] s dp) (htype : IsShort type) (hmaj : IsShort major) (hmin : IsShort minor)
    (hno : dirMap (v m) s.cache name.key = none) (hT : T ↔ (∃ n, sb.IsInum n ∧ (v n).type = 0) ∧
      Touches sb (v m) s.cache) :
    wp (ialloc sb ROOTDEV type)
      (fun r s' => wp (match r with
        | none => do
          iunlockput sb dp
          return none
        | some ip => createNew sb dp ip name type major minor)
        (fun r s' => r = none ∨ type = T_FILE → ∃ v', Created sb v H type T s r v' s') Stops s') Stops s := by
  have hkdp : Kept H [dp] dp := Or.inr (by simp)
  have hlive := h.core.live hdp
  refine (ialloc_spec htype h ho fun j hj hlt => ?_).imp fun r s1 h₁ => ?_
  · rw [List.mem_singleton.mp hj, hdp.inum]
    exact hlive
  match r, h₁ with
  | none, ⟨hread, hnone⟩ =>
    have hst : Still (Kept H [dp]) s s1 := .of_reads hread
    simp only [wp_bind, wp_pure]
    refine (iunlockput_still (h.reads hread) hdp.lt (by simp) fun hl => hsafe (hl.kept hst.toKeeps hdp.lt hkdp)).imp
      fun _ s2 h₂ _ => ?_
    refine ⟨v, .still ((hst.mono fun _ => kept_nil).trans h₂.2) h₂.1 fun h0 => ?_⟩
    obtain ⟨⟨n, hn, hn0⟩, -⟩ := hT.mp h0
    exact hnone n hn hn0
  | some ip, ⟨n, ha⟩ =>
    have hdead : ¬ Live sb v n := fun hl => hl.2 ha.was.2
    have hnm : n ≠ m := fun e => hdead (e ▸ hlive)
    -- the entry of a free inode was nobody's
    have hold : ∀ j, j < NINODE → Kept H [dp] j → (s1.itable j).inum ≠ n := fun j hj hk e => by
      rw [ha.moved.inum j hj hk] at e
      rcases hk with hk | hk
      · exact hdead (e ▸ h.live j hj hk)
      · rw [List.mem_singleton.mp hk, hdp.inum] at e
        exact hnm e.symm
    have hH : H ip = 0 := by
      by_contra h0
      exact hold ip ha.lt (Or.inl (Nat.pos_of_ne_zero h0)) ha.inum
    have hne : ip ≠ dp := fun e => hold dp hdp.lt hkdp (e ▸ ha.inum)
    have hdp1 : Opened s1 dp m := hdp.kept ha.moved.toKeeps hkdp (ha.held.ref_pos hdp.lt (Or.inr (by simp)))
    have hvm : upd v n { Dinode.zero with type := type } m = v m := upd_ne (Ne.symm hnm) _
    refine (createNew_spec ha.held ha.lt ha.inum hdp1 hne hH hmaj hmin (ha.moved.outstanding.trans ho)
      (ha.linked (hlk.mono fun _ => kept_nil))
      fun hl => hsafe (hl.congr hdp1.inum hdp.inum (by rw [hvm]) (by rw [hvm]))).imp fun r s' hr hor => ?_
    obtain ⟨v', hmade, hbegun⟩ := hr hor
    have hm : Moved sb (Kept H []) [n, m] v s v' s' := (ha.moved.mono (fun _ => kept_nil) (by simp)).trans hmade.moved
    have hbegun : type = T_FILE → Begun T r (v m) (v' m) := fun hty => by
      obtain ⟨hmap, htouch⟩ := touches_upper h.core.fs hlive ha.upper
      rw [hvm] at hbegun
      have hb := hbegun hty (by rw [hmap]; exact hno)
      have hT' : T ↔ Touches sb (v m) s1.cache := by
        rw [hT, htouch, and_iff_right ⟨n, ha.was⟩]
      exact ⟨fun h0 => hT'.mpr (hb.done h0), fun h0 => (hb.failed h0).trans (not_congr hT').symm⟩
    refine ⟨v', hm.toKeeps, hmade.held, fun hn x hx => ?_, fun hn hty => ?_, fun j hj => ?_⟩
    · obtain ⟨h1, h2⟩ := hmade.failed hn
      by_cases e : x = n
      · subst e
        exact ⟨by rw [h1, ha.was.2], fun hl => absurd hl hdead⟩
      · by_cases e' : x = m
        · subst e'
          have hsame : SameFile (v x) s.cache (v' x) s'.cache :=
            (ha.moved.sameFile h.core.fs (by simpa using e) hlive).trans h2
          exact ⟨by rw [hsame.type], fun _ => hsame⟩
        · have hx' : x ∉ [n, m] := by simp [e, e']
          exact ⟨by rw [(hm.files x hx').1], fun hl => hm.sameFile h.core.fs hx' hl⟩
    · -- of the allocated inodes only the parent can have changed
      refine Iff.trans ⟨fun ha => ha m hlive, fun he x hx => ?_⟩ ((hbegun hty).failed hn)
      by_cases e : x = m
      · rw [e]; exact he
      · rw [(hm.files x (by simp [show x ≠ n from fun e => hdead (e ▸ hx), e])).1]
    · have hty : type = T_FILE := hor.resolve_left (by rintro rfl; cases hj)
      obtain ⟨rfl, h1, h2⟩ := hmade.made j hj
      exact ⟨n, h1, Or.inr ⟨(hbegun hty).done (by rintro rfl; cases hj), ha.was.1, ha.was.2, h2⟩⟩

theorem create_spec (h : Held sb v H [] [] s) (ho : s.outstanding = 1) (hlk : Linked sb v (Kept H []) s)
    (hcwd : ∀ i, (s.proc p).cwd = some i → i < NINODE ∧ 0 < H i) (htype : IsShort type) (hmaj : IsShort major)
    (hmin : IsShort minor) (path : List UInt8) :
    wp (create sb p path type major minor)
      (fun r s' => r = none ∨ type = T_FILE → ∃ v', Created sb v H type (Enters sb s p path) s r v' s') Stops s := by
  simp only [create, nameiparent, wp_bind]
  refine (namex_spec h hlk hcwd path true).imp fun r s1 h₁ => ?_
  rcases r with - | ⟨dp, name⟩
  · rw [wp_pure]
    refine fun _ => ⟨v, .still h₁.still h₁.held ?_⟩
    rintro ⟨m, name, h1, -⟩
    rw [← h₁.found] at h1
    cases h1
  · obtain ⟨hlt, hsafe1⟩ := h₁.safe dp name rfl
    have held1 : Held sb v H [dp] [] s1 := h₁.held
    have hkdp : Kept H [dp] dp := Or.inr (by simp)
    simp only [wp_bind]
    refine (ilock_spec held1 hlt hkdp).imp fun _ s2 h₂ => ?_
    obtain ⟨held2, hop2, -, hst2⟩ := h₂
    have hst : Still (Kept H []) s s2 := h₁.still.trans (hst2.mono fun _ => kept_nil)
    have hsafe2 : ¬ Last sb v H [] s2 dp := fun hl => hsafe1 (hl.kept hst2.toKeeps hlt hkdp)
    have hlk2 := hlk.still hst
    have hres : some ((s1.itable dp).inum, name) = resolve sb s p path true := h₁.found
    generalize (s1.itable dp).inum = m at hop2 hres
    -- the walk has found the parent, so `Enters` speaks of it
    have hent : Enters sb s p path ↔ dirMap (v m) s2.cache name.key = none ∧ (∃ n, sb.IsInum n ∧ (v n).type = 0) ∧
        Touches sb (v m) s2.cache := by
      have hag : ∀ x, sb.IsInum x → sb.ino s.cache x = v x := fun x hx => h.agree hx
      have hm := hag m (held2.core.live hop2).1
      have hfree : (∃ n, sb.IsInum n ∧ (sb.ino s.cache n).type = 0) ↔ ∃ n, sb.IsInum n ∧ (v n).type = 0 :=
        exists_congr fun n => and_congr_right fun hn => by rw [hag n hn]
      rw [hst.cache, ← hfree, ← hm]
      constructor
      · rintro ⟨m', name', h1, h2⟩
        rw [← hres] at h1
        obtain ⟨rfl, rfl⟩ := Prod.mk.inj (Option.some.inj h1)
        exact h2
      · exact fun h2 => ⟨m, name, hres.symm, h2⟩
    refine (dirlookup_spec held2 hop2).imp fun r s3 h₃ => ?_
    obtain ⟨-, h₃⟩ := h₃
    rcases r with - | ⟨ip, off⟩
    · obtain ⟨hread, -, hno⟩ := h₃
      have hst3 : Still (Kept H [dp]) s2 s3 := .of_reads hread
      have hop3 := hread.opened hop2
      have hdev : (s3.itable dp).dev = ROOTDEV := ((held2.reads hread).core.table dp hlt hop3.ref).1
      have hst' : Still (Kept H []) s s3 := hst.trans (hst3.mono fun _ => kept_nil)
      rw [← hread.cache] at hno hent
      simp only [wp_bind, wp_get, hdev]
      refine (createAlloc_spec (held2.reads hread) hop3 (hst'.outstanding.trans ho) (hlk.still hst')
        (fun hl => hsafe2 (hl.kept hst3.toKeeps hlt hkdp)) htype hmaj hmin hno (hent.trans (and_iff_right hno))).imp
        fun r s4 hr => ?_
      exact hr.imp fun r' s' hr' hor => (hr' hor).imp fun _ hc => hc.after hst'
    · refine (createOld_spec held2 hop2 hlk2 hsafe2 h₃ fun h0 => ?_).imp fun r s' hr _ => ⟨v, hr.after hst⟩
      have := (hent.mp h0).1
      rw [h₃.map] at this
      cases this

end Xv6.Fs
