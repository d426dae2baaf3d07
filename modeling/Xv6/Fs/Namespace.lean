/-
  Xv6.Fs.Namespace — `link`, `unlink`, `mkdir` and `mknod` of kernel/sysfile.c.

  Where one of them returns -1 from a consistent state, no reference is left and the tree is what
  it was (`sysLink_spec`, `sysUnlink_spec`, `makeNode_spec`).
-/
import Xv6.Fs.Create

namespace Xv6.Fs

variable {sb : Superblock} {v v1 v' : Nat → Dinode} {c c' : Disk} {dp ip i m n p off : Nat} {s s1 s' : St} {name : Name}

def Failed (sb : Superblock) (v : Nat → Dinode) (s s' : St) : Prop :=
  ∃ v', Held sb v' (holders s) [] [] s' ∧ SameTree sb v s.cache v' s'.cache

/-- `end_op` after steps that leave everything alone. -/
theorem Still.ended (hst : Still (Kept (holders s) []) s.begun s') (hh : Held sb v (holders s) [] [] s') :
    wp endOp (fun _ s'' => Failed sb v s s'') Stops s' := by
  rw [wp_endOp hst.outstanding]
  exact ⟨v, hh.ended, hst.sameTree⟩

def Raised (sb : Superblock) (n : Nat) (v : Nat → Dinode) (c : Disk) (v' : Nat → Dinode) (c' : Disk) : Prop :=
  ∀ x, sb.IsInum x → ((v' x).type = 0 ↔ (v x).type = 0) ∧ (Live sb v x → SameBody (v x) c (v' x) c' ∧
    (v' x).nlink = if x = n then short ((v x).nlink + 1) else (v x).nlink)

theorem Raised.then {c1 : Disk} (h : Raised sb n v c v1 c1) (h' : SameTree sb v1 c1 v' c') : Raised sb n v c v' c' :=
    fun x hx => by
  obtain ⟨h1, h2⟩ := h x hx
  obtain ⟨h3, h4⟩ := h' x hx
  refine ⟨h3.trans h1, fun hl => ?_⟩
  have h4 := h4 ⟨hx, fun h0 => hl.2 (h1.mp h0)⟩
  obtain ⟨h5, h6⟩ := h2 hl
  exact ⟨h5.trans h4.toSameBody, h4.nlink.trans h6⟩

theorem short_up_down {a : Int} (h : IsShort a) : short (short (a + 1) - 1) = a := by
  simp only [IsShort, short] at *
  split <;> split <;> omega

section
variable (hb : Between sb v s) (hlk : Linked sb v (Kept (holders s) []) s)
include hb

/-! ## `mkdir` and `mknod` -/

include hlk in
theorem makeNode_spec {type major minor : Int} (htype : IsShort type) (hmaj : IsShort major) (hmin : IsShort minor)
    (path : Option (List UInt8)) : wp (makeNode sb p path type major minor) (fun r s' => r < 0 → Failed sb v s s')
    Stops s := by
  simp only [makeNode, wp_bind, hb.wp_begin]
  cases path with
  | none =>
    simp only [wp_bind, wp_pure]
    exact (Still.ended (.refl _) hb.held.begun).imp fun _ _ h _ => h
  | some path =>
    simp only [wp_bind]
    refine (create_spec hb.held.begun rfl hlk (fun i hc => hb.cwd i hc) htype hmaj hmin path).imp fun r s1 h₁ => ?_
    cases r with
    | none =>
      obtain ⟨v1, h₁⟩ := h₁ (Or.inl rfl)
      simp only [wp_bind, wp_pure]
      rw [wp_endOp h₁.keeps.outstanding]
      exact fun _ => ⟨v1, h₁.held.ended, h₁.failed rfl⟩
    | some ip => exact wp_then fun _ _ => wp_then fun _ _ => fun h0 => absurd h0 (by decide)

/-! ## `unlink` -/

omit hb in
theorem unlinkBad_spec (h : Held sb v (holders s) [dp] [dp] s1) (hlt : dp < NINODE)
    (hst : Still (Kept (holders s) []) s.begun s1)
    (hsafe : ¬ Last sb v (holders s) [] s1 dp) : wp (unlinkBad sb dp) (fun r s' => r < 0 → Failed sb v s s')
      Stops s1 := by
  simp only [unlinkBad, wp_bind, wp_pure]
  refine (iunlockput_still h hlt (by simp) hsafe).imp fun _ s2 h₂ => ?_
  exact (Still.ended (hst.trans h₂.2) h₂.1).imp fun _ _ h _ => h

omit hb in
/-- From the zeroed entry on, `unlink` returns 0. -/
theorem unlinkEntry_spec : wp (unlinkEntry sb dp ip off) (fun r _ => r = 0) Stops s :=
  wp_then fun _ _ => wp_ite (fun _ => trivial) fun _ => wp_then fun _ _ => wp_ite
    (fun _ => wp_then fun _ _ => wp_then fun _ _ => wp_then fun _ _ => wp_then fun _ _ => wp_then fun _ _ =>
    wp_then fun _ _ =>
      wp_then fun _ _ => rfl)
    fun _ => wp_then fun _ _ => wp_then fun _ _ => wp_then fun _ _ => wp_then fun _ _ => wp_then fun _ _ => rfl

omit hb in
theorem isdirempty_spec (h : Core sb v 0 s) (hi : Opened s i m) :
    wp (isdirempty sb i) (fun _ s' => Reads s s') Stops s := by
  have hloop : ∀ (ks : List Nat) {s1}, Reads s s1 → wp (isdiremptyLoop sb i (ks.map (16 * ·))) (fun _ s' => Reads s s')
      Stops s1 := by
    intro ks
    induction ks with
    | nil =>
      intro s1 hr
      simp only [List.map_nil, isdiremptyLoop, wp_pure]
      exact hr
    | cons k ks ih =>
      intro s1 hr
      simp only [List.map_cons, isdiremptyLoop, wp_bind]
      refine (readi_slot (hr.core h) (hr.opened hi) k).imp fun r s2 h₂ => ?_
      have hr2 := hr.trans h₂.1
      exact wp_ite (fun _ => trivial) fun _ => wp_ite (fun _ => hr2) fun _ => ih hr2
  simp only [isdirempty, wp_bind, wp_get, entryOffs, ← List.map_drop]
  exact hloop _ (.refl s)

omit hb in
include hlk in
/-- `unlink` has found the entry. -/
theorem unlinkFound_spec {s2 s3 : St} (held2 : Held sb v (holders s) [dp] [dp] s2) (hop2 : Opened s2 dp m)
    (hst2 : Still (Kept (holders s) []) s.begun s2) (hsafe2 : ¬ Last sb v (holders s) [] s2 dp)
    (h₃ : Found sb v (holders s) [dp] [dp] m name s2 ip off s3) :
    wp (do
        ilock sb ip
        let d := ((← get).itable ip).copy
        if d.nlink < 1 then throw .unlinkNlink
        else do
          let full ← if d.type = T_DIR then (! ·) <$> isdirempty sb ip else pure false
          if full then do
            iunlockput sb ip
            unlinkBad sb dp
          else unlinkEntry sb dp ip off)
      (fun r s' => r < 0 → Failed sb v s s') Stops s3 := by
  have hkip : Kept (holders s) [ip, dp] ip := Or.inr (by simp)
  have hkdp : Kept (holders s) [dp] dp := Or.inr (by simp)
  obtain ⟨hlt, -, held3, hst⟩ := h₃.got
  have hst3 : Still (Kept (holders s) []) s.begun s3 := hst2.trans (hst.mono fun _ => kept_nil)
  have hlk0 : Linked sb v (Kept (holders s) []) s.begun := hlk
  have hsafei := (hlk0.still hst3).not_last held3 (by simp) hlt (by simp) (h₃.named (held2.core.live hop2))
  simp only [wp_bind, wp_get]
  refine (ilock_spec held3 hlt hkip).imp fun _ s4 h₄ => ?_
  obtain ⟨held4, hop4, hnot, hst4⟩ := h₄
  refine wp_ite (fun _ => trivial) fun _ => ?_
  -- empty or not, nothing has been written so far
  have hrest : ∀ (full : Bool) {s5}, Reads s4 s5 → wp (if full = true then do
        iunlockput sb ip
        unlinkBad sb dp
      else unlinkEntry sb dp ip off) (fun r s' => r < 0 → Failed sb v s s') Stops s5 := fun full {s5} hread => by
    have hst5 : Still (Kept (holders s) [ip, dp]) s3 s5 := hst4.trans (.of_reads hread)
    refine wp_ite (fun _ => ?_) fun _ => unlinkEntry_spec.imp fun r _ hr h0 => absurd h0 (by omega)
    rw [wp_bind]
    refine (iunlockput_still (held4.reads hread) hlt hnot fun hl => hsafei (hl.cons.kept hst5.toKeeps hlt hkip)).imp
      fun _ s6 h₆ => ?_
    have hst6 : Still (Kept (holders s) [dp]) s2 s6 := hst.trans ((hst5.mono fun _ hk => hk.cons ip).trans h₆.2)
    exact unlinkBad_spec h₆.1 hop2.lt (hst2.trans (hst6.mono fun _ => kept_nil)) fun hl =>
      hsafe2 (hl.kept hst6.toKeeps hop2.lt hkdp)
  refine wp_ite (fun _ => ?_) fun _ => ?_
  · simp only [wp_bind, wp_map]
    exact (isdirempty_spec held4.core hop4).imp fun b s5 hread => hrest _ hread
  · rw [wp_bind, wp_pure]
    exact hrest false (.refl s4)

include hlk in
theorem sysUnlink_spec (path : Option (List UInt8)) :
    wp (sysUnlink sb p path) (fun r s' => r < 0 → Failed sb v s s') Stops s := by
  cases path with
  | none =>
    simp only [sysUnlink, wp_pure]
    exact fun _ => ⟨v, hb.held, .refl v _⟩
  | some path =>
    simp only [sysUnlink, nameiparent, wp_bind, hb.wp_begin]
    refine (namex_spec hb.held.begun hlk (fun i hc => hb.cwd i hc) path true).imp fun r s1 h₁ => ?_
    rcases r with - | ⟨dp, name⟩
    · simp only [wp_bind, wp_pure]
      exact (Still.ended h₁.still h₁.held).imp fun _ _ h _ => h
    · obtain ⟨hlt, hsafe1⟩ := h₁.safe dp name rfl
      have hkdp : Kept (holders s) [dp] dp := Or.inr (by simp)
      simp only [wp_bind]
      refine (ilock_spec h₁.held hlt hkdp).imp fun _ s2 h₂ => ?_
      obtain ⟨held2, hop2, -, hst2⟩ := h₂
      have hst : Still (Kept (holders s) []) s.begun s2 := h₁.still.trans (hst2.mono fun _ => kept_nil)
      have hsafe2 : ¬ Last sb v (holders s) [] s2 dp := fun hl => hsafe1 (hl.kept hst2.toKeeps hlt hkdp)
      refine wp_ite (fun _ => unlinkBad_spec held2 hlt hst hsafe2) fun _ => ?_
      rw [wp_bind]
      refine (dirlookup_spec held2 hop2).imp fun r s3 h₃ => ?_
      obtain ⟨-, h₃⟩ := h₃
      rcases r with - | ⟨ip, off⟩
      · have hst3 : Still (Kept (holders s) [dp]) s2 s3 := .of_reads h₃.1
        exact unlinkBad_spec (held2.reads h₃.1) hlt (hst.trans (.of_reads h₃.1)) fun hl =>
          hsafe2 (hl.kept hst3.toKeeps hlt hkdp)
      · exact unlinkFound_spec hlk held2 hop2 hst hsafe2 h₃

/-! ## `link` -/

/-- `bad:` of `sys_link` takes the link back. -/
theorem linkBad_spec (h : Held sb v1 (holders s) [ip] [] s1) (hlt : ip < NINODE) (hin : (s1.itable ip).inum = n)
    (ho : s1.outstanding = 1) (hr : Raised sb n v s.cache v1 s1.cache)
    (hsafe : Live sb v n → (v n).nlink = 0 → Kept (holders s) [] ip) :
    wp (linkBad sb ip) (fun r s' => r < 0 → Failed sb v s s') Stops s1 := by
  have hk : Kept (holders s) [ip] ip := Or.inr (by simp)
  simp only [linkBad, wp_bind, wp_setCopy, wp_pure]
  refine (ilock_spec h hlt hk).imp fun _ s2 h₂ => ?_
  obtain ⟨held2, hop2, -, hst2⟩ := h₂
  rw [hin] at hop2
  rw [← hst2.cache] at hr
  have hlive := held2.core.live hop2
  have hwf := held2.core.fs.wf n hlive.1
  rw [held2.core.copy_eq hop2]
  -- the count is the old one again
  obtain ⟨h1, h2⟩ := hr n hlive.1
  have hl : Live sb v n := ⟨hlive.1, fun h0 => hlive.2 (h1.mpr h0)⟩
  obtain ⟨hbody, hnl⟩ := h2 hl
  have hold : short ((v1 n).nlink - 1) = (v n).nlink := by
    rw [hnl, if_pos rfl]
    exact short_up_down (hb.held.core.fs.wf n hlive.1).nlink
  rw [hold]
  refine (iupdate_held (d := { v1 n with nlink := (v n).nlink }) held2 hop2 (hst2.outstanding.trans ho) rfl rfl rfl
    ⟨hwf.type, hwf.major, hwf.minor, (hb.held.core.fs.wf n hlive.1).nlink, hwf.size, hwf.addrs, hwf.beyond⟩).imp
    fun _ s3 h₃ => ?_
  refine (iunlockput_still h₃.held hlt (by simp) fun hlast => hlast.gone (hsafe hl ?_)).imp fun _ s4 h₄ => ?_
  · have h0 := hlast.nlink
    rwa [h₃.opened.inum, upd_same] at h0
  rw [wp_endOp (h₄.2.outstanding.trans (h₃.moved.outstanding.trans (hst2.outstanding.trans ho)))]
  refine fun _ => ⟨_, h₄.1.ended, fun x hx => ?_⟩
  show _ ∧ (_ → SameFile _ _ _ s4.cache)
  rw [h₄.2.cache]
  by_cases e : x = n
  · subst e
    have hsame : SameFile (v x) s.cache (upd v1 x { v1 x with nlink := (v x).nlink } x) s3.cache := by
      rw [upd_same]
      exact ⟨hbody.trans ⟨rfl, rfl, rfl, rfl, h₃.same.bytes (held2.core.fs.full x hlive)⟩, rfl⟩
    exact ⟨by rw [hsame.type], fun _ => hsame⟩
  · obtain ⟨h5, h6⟩ := hr x hx
    have hsame := h₃.moved.sameFile (m := x) held2.core.fs (by simpa using e)
    rw [upd_ne e] at hsame ⊢
    refine ⟨h5, fun hlx => ?_⟩
    obtain ⟨h7, h8⟩ := h6 hlx
    rw [if_neg e] at h8
    exact (SameFile.mk h7 h8).trans (hsame ⟨hx, fun h0 => hlx.2 (h5.mp h0)⟩)

/-- `link` has its inode, with the link counted, and looks for the parent. -/
theorem linkParent_spec {new : List UInt8} (h : Held sb v1 (holders s) [ip] [] s1) (hlt : ip < NINODE)
    (hin : (s1.itable ip).inum = n) (ho : s1.outstanding = 1) (hproc : s1.proc = s.proc)
    (hlk1 : Linked sb v1 (Kept (holders s) [ip]) s1) (hr : Raised sb n v s.cache v1 s1.cache)
    (hsafe : Live sb v n → (v n).nlink = 0 → Kept (holders s) [] ip) :
    wp (do
        match ← nameiparent sb p new with
        | none => linkBad sb ip
        | some (dp, name) => do
          ilock sb dp
          let s ← get
          let linked ←
            if (s.itable dp).dev ≠ (s.itable ip).dev then pure (-1) else dirlink sb dp name (s.itable ip).inum
          if linked < 0 then do
            iunlockput sb dp
            linkBad sb ip
          else do
            iunlockput sb dp
            iput sb ip
            endOp
            return 0)
      (fun r s' => r < 0 → Failed sb v s s') Stops s1 := by
  have hkip : Kept (holders s) [ip] ip := Or.inr (by simp)
  simp only [nameiparent, wp_bind]
  refine (namex_spec h hlk1 (fun i hc => hb.cwd (p := p) i (by rwa [hproc] at hc)) new true).imp fun r s2 h₂ => ?_
  have hst2 := h₂.still
  have hin2 : (s2.itable ip).inum = n := (hst2.inum ip hlt hkip).trans hin
  have ho2 := hst2.outstanding.trans ho
  rw [← hst2.cache] at hr
  rcases r with - | ⟨dp, name⟩
  · exact linkBad_spec hb h₂.held hlt hin2 ho2 hr hsafe
  · obtain ⟨hltd, hsafed⟩ := h₂.safe dp name rfl
    have held2 : Held sb v1 (holders s) [dp, ip] [] s2 := h₂.held
    have hkd : Kept (holders s) [dp, ip] dp := Or.inr (by simp)
    have hki : Kept (holders s) [dp, ip] ip := Or.inr (by simp)
    simp only [wp_bind, wp_get]
    refine (ilock_spec held2 hltd hkd).imp fun _ s3 h₃ => ?_
    obtain ⟨held3, hop3, -, hst3⟩ := h₃
    have hin3 : (s3.itable ip).inum = n := (hst3.inum ip hlt hki).trans hin2
    have hlk3 : Linked sb v1 (Kept (holders s) [dp, ip]) s3 :=
      ((hlk1.still hst2).mono fun _ hk => hk.cons dp).still hst3
    have hdev : (s3.itable dp).dev = (s3.itable ip).dev :=
      (held3.core.table dp hltd hop3.ref).1.trans (held3.core.table ip hlt (held3.ref_pos hlt hki)).1.symm
    rw [if_neg (not_not.mpr hdev), wp_bind, hin3]
    generalize hmd : (s2.itable dp).inum = m at hop3
    refine (dirlink_spec held3 hop3 (hst3.outstanding.trans ho2) hlk3 hlt hki hin3).imp fun r s4 => ?_
    rintro ⟨v4, h₄⟩
    refine wp_ite (fun hr0 => ?_) fun _ => ?_
    · -- the entry was not written
      rw [wp_bind]
      have hsafe4 : ¬ Last sb v4 (holders s) [ip] s4 dp := fun hl =>
        hsafed (hl.congr h₄.opened.inum hmd (by rw [h₄.fields]) (by rw [h₄.fields]))
      refine (iunlockput_still h₄.held hltd (by simp) hsafe4).imp fun _ s5 h₅ => ?_
      have hin5 : (s5.itable ip).inum = n := (h₅.2.inum ip hlt hkip).trans ((h₄.moved.inum ip hlt hki).trans hin3)
      refine linkBad_spec hb h₅.1 hlt hin5
        (h₅.2.outstanding.trans (h₄.moved.outstanding.trans (hst3.outstanding.trans ho2))) ?_ hsafe
      rw [h₅.2.cache]
      refine (hst3.cache ▸ hr).then fun x hx => ?_
      by_cases e : x = m
      · subst e
        have hsame := h₄.failed hr0
        exact ⟨by rw [hsame.type], fun _ => hsame⟩
      · have hx' : x ∉ [m] := by simpa using e
        exact ⟨by rw [(h₄.moved.files x hx').1], fun hl => h₄.moved.sameFile held3.core.fs hx' hl⟩
    · exact wp_then fun _ _ => wp_then fun _ _ => wp_then fun _ _ => fun h0 => absurd h0 (by decide)

include hlk in
theorem sysLink_spec (old new : Option (List UInt8)) :
    wp (sysLink sb p old new) (fun r s' => r < 0 → Failed sb v s s') Stops s := by
  have hnone : Failed sb v s s := ⟨v, hb.held, .refl v _⟩
  cases old with
  | none =>
    simp only [sysLink, wp_pure]
    exact fun _ => hnone
  | some old =>
    cases new with
    | none =>
      simp only [sysLink, wp_pure]
      exact fun _ => hnone
    | some new =>
      simp only [sysLink, wp_bind, hb.wp_begin]
      refine (namei_spec hb.held.begun hlk (fun i hc => hb.cwd i hc) old).imp fun r s1 h₁ => ?_
      obtain ⟨hst1, held1, hsafe1⟩ := h₁
      cases r with
      | none =>
        simp only [wp_bind, wp_pure]
        exact (Still.ended hst1 held1).imp fun _ _ h _ => h
      | some ip =>
        obtain ⟨hlt, hsafe1⟩ := hsafe1 ip rfl
        have hk : Kept (holders s) [ip] ip := Or.inr (by simp)
        simp only [wp_bind, wp_get]
        refine (ilock_spec held1 hlt hk).imp fun _ s2 h₂ => ?_
        obtain ⟨held2, hop2, -, hst⟩ := h₂
        have hst2 : Still (Kept (holders s) []) s.begun s2 := hst1.trans (hst.mono fun _ => kept_nil)
        have hsafe2 : ¬ Last sb v (holders s) [] s2 ip := fun hl => hsafe1 (hl.kept hst.toKeeps hlt hk)
        generalize (s1.itable ip).inum = n at hop2
        have hlk0 : Linked sb v (Kept (holders s) []) s.begun := hlk
        have hlk2 : Linked sb v (Kept (holders s) [ip]) s2 := (hlk0.still hst2).mono fun _ => kept_nil
        have hlive := held2.core.live hop2
        rw [held2.core.copy_eq hop2]
        refine wp_ite (fun _ => ?_) fun _ => ?_
        · simp only [wp_bind, wp_pure]
          refine (iunlockput_still held2 hlt (by simp) hsafe2).imp fun _ s3 h₃ => ?_
          exact (Still.ended (hst2.trans h₃.2) h₃.1).imp fun _ _ h _ => h
        -- the count goes up before the entry is there
        have hwf := held2.core.fs.wf n hlive.1
        rw [wp_bind, wp_setCopy, wp_bind, held2.core.copy_eq hop2]
        refine (iupdate_held (d := { v n with nlink := short ((v n).nlink + 1) }) held2 hop2
          hst2.outstanding rfl rfl rfl
          ⟨hwf.type, hwf.major, hwf.minor, short_isShort _, hwf.size, hwf.addrs, hwf.beyond⟩).imp fun _ s3 h₃ => ?_
        rw [wp_bind]
        refine (iunlock_spec h₃.held hlt hk (by simp)).imp fun _ s4 h₄ => ?_
        obtain ⟨held4, hst4⟩ := h₄
        refine linkParent_spec hb held4 hlt ((hst4.inum ip hlt hk).trans h₃.opened.inum)
          (hst4.outstanding.trans (h₃.moved.outstanding.trans hst2.outstanding))
          (hst4.proc.trans (h₃.moved.proc.trans hst2.proc)) ((h₃.linked hlk2).still hst4) ?_ fun hl h0 => ?_
        · have hraise : Raised sb n v s2.cache (upd v n { v n with nlink := short ((v n).nlink + 1) }) s3.cache :=
              fun x hx => by
            by_cases e : x = n
            · subst e
              rw [upd_same, if_pos rfl]
              exact ⟨Iff.rfl, fun _ => ⟨⟨rfl, rfl, rfl, rfl, h₃.same.bytes (held2.core.fs.full x hlive)⟩, rfl⟩⟩
            · have hsame := h₃.moved.sameFile (m := x) held2.core.fs (by simpa using e)
              rw [upd_ne e] at hsame ⊢
              rw [if_neg e]
              exact ⟨Iff.rfl, fun hl => ⟨(hsame hl).toSameBody, rfl⟩⟩
          rw [hst2.cache] at hraise
          rw [hst4.cache]
          exact hraise
        · by_contra hn
          refine hsafe2 ⟨hn, by rw [hop2.inum]; exact hlive, ?_⟩
          rw [hop2.inum]
          exact h0

end

end Xv6.Fs
