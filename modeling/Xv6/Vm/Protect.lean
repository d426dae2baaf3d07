/-
  Xv6.Vm.Protect — `copyout` and PTE_W.

  `copyout` finds the destination with `walkaddr`, which asks for V and U only. So the pages a copy
  may change are those the user can read. The copy keeps to the writable ones just when
  every byte it reaches, from the start to the first inaccessible one, is writable
  (`copyout_respects_iff`). A segment without the write flag is not: a system
  call given its address writes it (`a_system_call_overwrites_program_text`).
-/
import Xv6.Vm.Program

namespace Xv6.Vm

variable {K : Image} {s s' : St} {F : Set Nat} {E : Panic → St → Prop} {pt dstva len sp sz argc : Nat}
  {p : Proc} {f : File} {argv : List (List UInt8)}

def Writable (v : Nat → Option (Nat × Nat)) (va : Nat) : Prop :=
  va < 2 ^ 32 ∧ ∃ f fl, v (va / 4096) = some (f, fl) ∧ fl &&& PTE_V ≠ 0 ∧ fl &&& PTE_U ≠ 0 ∧ fl &&& PTE_W ≠ 0

theorem Writable.acc {v : Nat → Option (Nat × Nat)} {va : Nat} (h : Writable v va) : Acc v va := by
  obtain ⟨hlt, f, fl, hv, hV, hU, -⟩ := h
  exact ⟨hlt, f, fl, hv, hV, hU⟩

/-- What changes is writable, and a range that is not writable is refused. -/
def Respects (pt dstva len : Nat) (s : St) (r : Int) (s' : St) : Prop :=
  (∀ x, s'.mem x ≠ s.mem x → ∃ va, Writable (view s.mem pt) va ∧ x = tr (view s.mem pt) va) ∧
    ((∃ k < len, ¬ Writable (view s.mem pt) (dstva + k)) → r = -1)

/-- `copyout` looks at PTE_V and PTE_U only: it leaves read-only pages alone just when it comes to none. -/
theorem copyout_respects_iff (h : UserTable s.mem pt) (hva : dstva < 2 ^ 32) :
    (∀ src, wp (copyout pt dstva src len) (Respects pt dstva len s) (fun _ _ => False) s) ↔
      ∀ k < len, (∀ i ≤ k, Acc (view s.mem pt) (dstva + i)) → Writable (view s.mem pt) (dstva + k) := by
  constructor
  · intro hall k hk hacc
    -- bytes that all differ from what is there
    obtain ⟨src, hsrc⟩ : ∃ src : Nat → UInt8, ∀ i, src i ≠ s.mem (tr (view s.mem pt) (dstva + i)) := by
      refine ⟨fun i => if s.mem (tr (view s.mem pt) (dstva + i)) = 0 then 1 else 0, fun i => ?_⟩
      dsimp only
      split
      · rename_i h0
        rw [h0]
        decide
      · exact Ne.symm ‹_›
    have hloop : wp (copyout pt dstva src len) _ (fun _ _ => False) s := copyoutLoop_spec h hva (Nat.le_refl len)
    obtain ⟨r, s', -, ⟨hresp, -⟩, j, -, hwr, hr⟩ := wp_returns ((hall src).and hloop) fun _ _ he => he.1
    have hkj : k < j := by
      rcases hr with ⟨-, rfl⟩ | ⟨-, -, hna⟩
      · exact hk
      · by_contra hge
        exact hna (hacc j (by omega))
    have hset := hwr.set k hkj
    rw [Nat.zero_add] at hset
    obtain ⟨va, hw, he⟩ := hresp _ fun hsame => hsrc k (hset.symm.trans hsame)
    rw [tr_inj h (hacc k (Nat.le_refl k)) hw.acc he]
    exact hw
  · intro hw src
    unfold copyout
    refine (copyoutLoop_spec h hva (Nat.le_refl _)).imp fun r s' => ?_
    rintro ⟨j, hj, hwr, hr⟩
    have hreach : ∀ k < j, Writable (view s.mem pt) (dstva + k) := fun k hk =>
      hw k (by omega) fun i hi => hwr.acc i (by omega)
    refine ⟨fun x hx => ?_, ?_⟩
    · by_contra hno
      refine hx (hwr.keep x fun k hk he => hno ⟨dstva + k, hreach k hk, he⟩)
    · rintro ⟨k, hk, hnw⟩
      rcases hr with ⟨-, rfl⟩ | ⟨hr, -⟩
      · exact absurd (hreach k hk) hnw
      · exact hr

/-- The one page of `started` is writable. -/
theorem copyout_respects_iff_started : wp (copyout 0x8020B000 16 (fun _ => 7) 1) (Respects 0x8020B000 16 1 started)
    (fun _ _ => False) started := by
  have hpage : ((view started.mem 0x8020B000 0).any fun e => e.2 &&& PTE_V != 0 && e.2 &&& PTE_U != 0 &&
      e.2 &&& PTE_W != 0) = true := by
    decide +kernel
  refine started_aspace.elim fun F h => (copyout_respects_iff h.userTable (by decide)).mpr (fun k hk _ => ?_) _
  obtain rfl : k = 0 := by omega
  obtain ⟨⟨f, fl⟩, heq, hfl⟩ := (Option.any_eq_true _ _).mp hpage
  simp only [Bool.and_eq_true, bne_iff_ne] at hfl
  exact ⟨by decide, f, fl, heq, hfl.1.1, hfl.1.2, hfl.2⟩

/-! ## A segment that is not to be written -/

/-- Once the image is made, `exec` succeeds, and the new table is as it was made. -/
theorem exec_of_image (path : List UInt8) (h : Aspace K s p.pagetable p.sz p.trapframe F) (htf : Frame K p.trapframe)
    (hargc : argv.length < MAXARG) (hstr : ∀ str ∈ argv, str.length < 4096 ∧ (0 : UInt8) ∉ str)
    (hi : execImage K p.trapframe f argv s = .ok (some (pt, argc, sp, sz)) s') :
    ∃ s₁, exec K p (some f) path argv s = .ok ((argc : Int), p.become f path pt sp sz) s₁ ∧ UserTable s₁.mem pt ∧
      view s₁.mem pt = view s'.mem pt := by
  have hspec : wp (execImage K p.trapframe f argv) _ (fun _ _ => False) s :=
    execImage_spec h.space.table.heap htf hargc hstr
  rcases wp_ok hspec hi with ⟨h0, -⟩ | ⟨pt', sp', sz', sz0, F', img, ptr, he, hb⟩
  · cases h0
  cases he
  have hrun : wp (exec K p (some f) path argv) (fun r s₁ => r = ((argv.length : Int), p.become f path pt sp sz) ∧
      UserTable s₁.mem pt ∧ view s₁.mem pt = view s'.mem pt) (fun _ _ => False) s := by
    unfold exec
    rw [wp_bind]
    refine wp_of_ok hi ?_
    rw [wp_bind]
    refine hb.image.commit h fun s₁ hm hl => ?_
    rw [wp_pure]
    refine ⟨rfl, hl.space.userTable, view_congr hb.image.space.space.table.skel hm fun t ht hin =>
      h.held_apart t hin ?_⟩
    exact hb.image.sum ▸ Or.inl (Or.inr ht)
  obtain ⟨r, s₁, hr, rfl, h1⟩ := wp_returns hrun fun _ _ he => he
  exact ⟨s₁, hr, h1⟩

def textLoaded (m : M (Option (Nat × Nat × Nat × Nat))) : Bool :=
  match m started with
  | .ok (some (pt, argc, _, sz)) s' =>
    pt == 0x80207000 && argc == 0 && sz == 12288 &&
      ((view s'.mem 0x80207000 0).map Prod.snd == some (PTE_V ||| PTE_R ||| PTE_X ||| PTE_U ||| PTE_A))
  | _ => false

/-- The program text of `elf`, at address 0, can be read and executed. -/
theorem elf_text : ∃ s' sp, execImage image 0x80300000 elf [] started = .ok (some (0x80207000, 0, sp, 12288)) s' ∧
    ∃ g, view s'.mem 0x80207000 0 = some (g, PTE_V ||| PTE_R ||| PTE_X ||| PTE_U ||| PTE_A) := by
  have hrun : textLoaded (execImage image 0x80300000 elf []) = true := by decide +kernel
  unfold textLoaded at hrun
  split at hrun
  · rename_i pt argc sp sz s' heq
    simp only [Bool.and_eq_true, beq_iff_eq] at hrun
    obtain ⟨⟨⟨rfl, rfl⟩, rfl⟩, hv⟩ := hrun
    obtain ⟨⟨g, fl⟩, hg, hfl⟩ := Option.map_eq_some_iff.mp hv
    exact ⟨s', sp, heq, g, by rw [hg, ← hfl]⟩
  · cases hrun

theorem a_system_call_overwrites_program_text :
    ¬ ∀ (K : Image) (s s₁ : St) (F : Set Nat) (p p₁ : Proc) (file : Option File)
    (path : List UInt8) (argv : List (List UInt8)) (n : Nat), Aspace K s p.pagetable p.sz p.trapframe F →
    exec K p file path argv s = .ok ((n : Int), p₁) s₁ → ∀ dstva src len, dstva < 2 ^ 32 →
      wp (copyout p₁.pagetable dstva src len) (Respects p₁.pagetable dstva len s₁) (fun _ _ => False) s₁ := by
  intro hall
  obtain ⟨F, h⟩ := started_aspace
  obtain ⟨s', sp, hi, g, hg⟩ := elf_text
  obtain ⟨s₁, hrun, ht, hv⟩ := exec_of_image (p := startedProc) [] h frame_started (by decide) (by decide) hi
  have hbad := hall image started s₁ F startedProc _ (some elf) [] [] 0 h hrun 0 (fun _ => 0) 1 (by decide)
  have hloop : wp (copyout 0x80207000 0 (fun _ => 0) 1) _ (fun _ _ => False) s₁ := copyoutLoop_spec ht (by decide)
    (Nat.le_refl 1)
  obtain ⟨r, s2, -, ⟨-, hresp⟩, j, hj, -, hr⟩ := wp_returns (hbad.and hloop) fun _ _ he => he.1
  rw [← hv] at hg
  have hneg : r = -1 := hresp ⟨0, by decide, fun hw => by
    obtain ⟨-, f, fl, hf, -, -, hW⟩ := hw
    cases hg.symm.trans hf
    exact hW (by decide)⟩
  -- but the byte is accessible, and the copy succeeds
  rcases hr with ⟨h0, -⟩ | ⟨-, hlt, hna⟩
  · rw [hneg] at h0
    exact absurd h0 (by decide)
  · obtain rfl : j = 0 := by omega
    exact hna ⟨by decide, g, _, hg, by decide, by decide⟩

end Xv6.Vm
