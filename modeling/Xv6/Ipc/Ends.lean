/-
  Xv6.Ipc.Ends — what the functions of kernel/file.c and kernel/pipe.c do to files and pipes.

  `slots` counts the descriptors that point to a file. `Ends live s` is what relates the file table to
  the pages: `live` are the pages that are pipes, each of them has an open end, `readopen` and
  `writeopen` say which, and no two files are the same end. Every function keeps it, `pipeclose` by
  freeing the page when the second end is closed.
-/
import Xv6.Ipc.Files
import Xv6.Lib.Wp
import Mathlib

namespace Xv6.Ipc.Files

open Xv6.Fs (FdType ProcState Panic Dinode T_DEVICE has openedFile)

variable {s s' : St} {live : Nat → Bool} {p q f fd pa : Nat}

/-! ## Descriptors -/

def slots (proc : Nat → Proc) (f : Nat) : Nat :=
  ∑ p ∈ Finset.range NPROC, ∑ fd ∈ Finset.range NOFILE, if (proc p).ofile fd = some f then 1 else 0

theorem slots_pos {proc : Nat → Proc} (hp : p < NPROC) (hfd : fd < NOFILE) (h : (proc p).ofile fd = some f) :
    0 < slots proc f := by
  have hrow : 1 ≤ ∑ fd ∈ Finset.range NOFILE, if (proc p).ofile fd = some f then 1 else 0 := by
    have := Finset.single_le_sum (f := fun fd => if (proc p).ofile fd = some f then 1 else 0)
      (fun _ _ => Nat.zero_le _) (Finset.mem_range.mpr hfd)
    simp only [if_pos h] at this
    exact this
  exact hrow.trans (Finset.single_le_sum
    (f := fun p => ∑ fd ∈ Finset.range NOFILE, if (proc p).ofile fd = some f then 1 else 0)
    (fun _ _ => Nat.zero_le _) (Finset.mem_range.mpr hp))

/-- One descriptor changes. -/
theorem slots_fd (s : St) {y : Option Nat} (hp : p < NPROC) (hfd : fd < NOFILE) (g : Nat) :
    slots (s.fd p fd y).proc g + (if (s.proc p).ofile fd = some g then 1 else 0) =
      slots s.proc g + (if y = some g then 1 else 0) := by
  have hrow := sum_range_change hfd (f := fun fd => if (s.proc p).ofile fd = some g then 1 else 0)
    (g := fun j => if upd (s.proc p).ofile fd y j = some g then 1 else 0) (fun j hj => by simp only [upd_ne hj])
  have htab := sum_range_change hp
    (f := fun p => ∑ fd ∈ Finset.range NOFILE, if (s.proc p).ofile fd = some g then 1 else 0)
    (g := fun q => ∑ j ∈ Finset.range NOFILE, if ((s.fd p fd y).proc q).ofile j = some g then 1 else 0)
    (fun j hj => by simp only [St.fd, St.process_proc, upd_ne hj])
  simp only [St.fd, St.process_proc, upd_same] at htab hrow
  unfold slots
  simp only [St.fd, St.process_proc]
  omega

theorem slots_set (s : St) (hp : p < NPROC) (hfd : fd < NOFILE) (h : (s.proc p).ofile fd = none) (f g : Nat) :
    slots (s.fd p fd (some f)).proc g = slots s.proc g + if g = f then 1 else 0 := by
  have hs := slots_fd s (y := some f) hp hfd g
  rw [h, if_neg nofun, Nat.add_zero] at hs
  rw [hs]
  by_cases e : g = f
  · rw [e, if_pos rfl, if_pos rfl]
  · rw [if_neg e, if_neg fun he => e (Option.some.inj he).symm]

theorem slots_clear (s : St) (hp : p < NPROC) (hfd : fd < NOFILE) (h : (s.proc p).ofile fd = some f) (g : Nat) :
    slots (s.fd p fd none).proc g + (if g = f then 1 else 0) = slots s.proc g := by
  have hs := slots_fd s (y := none) hp hfd g
  rw [h, if_neg (c := none = some g) nofun, Nat.add_zero] at hs
  rw [← hs]
  by_cases e : g = f
  · rw [e, if_pos rfl, if_pos rfl]
  · rw [if_neg e, if_neg fun he => e (Option.some.inj he).symm]

theorem St.fd_fd (s : St) (p fd : Nat) (y z : Option Nat) : (s.fd p fd y).fd p fd z = s.fd p fd z := by
  simp only [St.fd, St.process, upd_same, upd_upd]

theorem St.fd_self (s : St) (h : (s.proc p).ofile fd = none) : s.fd p fd none = s := by
  have ho : upd (s.proc p).ofile fd none = (s.proc p).ofile := h ▸ upd_self _ _
  simp only [St.fd, St.process, ho]
  exact congrArg (fun P => { s with proc := P }) (upd_self _ _)

theorem St.fd_comm (s : St) (p : Nat) {fd fd' : Nat} (hne : fd ≠ fd') (y z : Option Nat) :
    (s.fd p fd y).fd p fd' z = (s.fd p fd' z).fd p fd y := by
  have ho : ∀ o : Nat → Option Nat, upd (upd o fd y) fd' z = upd (upd o fd' z) fd y := fun o => by
    funext j
    by_cases e : j = fd'
    · rw [e, upd_same, upd_ne hne.symm, upd_same]
    · rw [upd_ne e]
      by_cases e' : j = fd
      · rw [e', upd_same, upd_same]
      · rw [upd_ne e', upd_ne e', upd_ne e]
  simp only [St.fd, St.process, upd_same, upd_upd, ho]

/-- A process that keeps its descriptors. -/
theorem slots_process (s : St) {x : Proc} (hx : x.ofile = (s.proc p).ofile) (g : Nat) :
    slots (s.process p x).proc g = slots s.proc g := by
  refine Finset.sum_congr rfl fun r _ => ?_
  rw [St.process_proc]
  by_cases e : r = p
  · rw [e, upd_same, hx]
  · rw [upd_ne e]

/-! ## Pages -/

/-- Which pages are live after an event; `none` if a live page is allocated or another one used or freed. -/
def after (live : Nat → Bool) : PageEv → Option (Nat → Bool)
  | .alloc pa => if live pa then none else some (upd live pa true)
  | .use pa => if live pa then some live else none
  | .free pa => if live pa then some (upd live pa false) else none

def lives (t : List PageEv) : Option (Nat → Bool) := t.foldlM after fun _ => false

theorem lives_snoc (t : List PageEv) (e : PageEv) : lives (t ++ [e]) = (lives t).bind (after · e) := by
  simp only [lives, List.foldlM_append, List.foldlM_cons, List.foldlM_nil, bind_pure]
  rfl

def Pipe.isOpen (x : Pipe) (w : Bool) : Int := if w then x.writeopen else x.readopen

/-- File `f` is the write end (`w`) or the read end of pipe `pa`. -/
structure IsEnd (ftable : Nat → File) (f pa : Nat) (w : Bool) : Prop where
  type : (ftable f).type = .pipe
  pipe : (ftable f).pipe = pa
  writable : (ftable f).writable = w

def Flag (v : Int) (P : Prop) : Prop := (v = 1 ∧ P) ∨ (v = 0 ∧ ¬ P)

structure Ends (live : Nat → Bool) (s : St) : Prop where
  traced : lives s.trace = some live
  closed : ∀ f, (s.ftable f).ref = 0 → (s.ftable f).type = .none
  bound : ∀ f, NFILE ≤ f → (s.ftable f).ref = 0
  isLive : ∀ f, (s.ftable f).type = .pipe → live (s.ftable f).pipe = true
  unique : ∀ f g pa w, IsEnd s.ftable f pa w → IsEnd s.ftable g pa w → f = g
  flag : ∀ pa w, live pa = true → Flag ((s.page pa).isOpen w) (∃ f, IsEnd s.ftable f pa w)
  someone : ∀ pa, live pa = true → ∃ f w, IsEnd s.ftable f pa w
  pages : (s.freelist ++ s.held).Nodup
  free : ∀ pa ∈ s.freelist ++ s.held, live pa = false

theorem IsEnd.congr {t t' : Nat → File} {w : Bool} (h : IsEnd t f pa w) (e : t' f = { t f with ref := (t' f).ref }) :
    IsEnd t' f pa w := by
  refine ⟨?_, ?_, ?_⟩ <;> rw [e]
  · exact h.type
  · exact h.pipe
  · exact h.writable

theorem isEnd_upd {t : Nat → File} {g : Nat} {w : Bool} {x : File} (hf : (t f).type ≠ .pipe) (hx : x.type ≠ .pipe) :
    IsEnd (upd t f x) g pa w ↔ IsEnd t g pa w := by
  by_cases e : g = f
  · subst e
    refine ⟨fun h => absurd ?_ hx, fun h => absurd h.type hf⟩
    have := h.type
    rwa [upd_same] at this
  · constructor
    · rintro ⟨h1, h2, h3⟩
      rw [upd_ne e] at h1 h2 h3
      exact ⟨h1, h2, h3⟩
    · rintro ⟨h1, h2, h3⟩
      refine ⟨?_, ?_, ?_⟩ <;> rw [upd_ne e]
      · exact h1
      · exact h2
      · exact h3

namespace Ends

theorem lt (h : Ends live s) (hr : 0 < (s.ftable f).ref) : f < NFILE := by
  by_contra hn
  have := h.bound f (by omega)
  omega

/-- The pipes do not see the processes. -/
theorem process (h : Ends live s) (p : Nat) (x : Proc) : Ends live (s.process p x) :=
  ⟨h.traced, h.closed, h.bound, h.isLive, h.unique, h.flag, h.someone, h.pages, h.free⟩

theorem setFd (h : Ends live s) (p fd : Nat) (y : Option Nat) : Ends live (s.fd p fd y) := h.process _ _

/-- A file that is no end of a pipe, before and after. -/
theorem noEnd (h : Ends live s) {x : File} (hf : (s.ftable f).type ≠ .pipe) (hx : x.type ≠ .pipe)
    (h0 : x.ref = 0 → x.type = .none) (hb : f < NFILE) : Ends live (s.file f x) where
  traced := h.traced
  closed := forall_upd (P := fun _ (y : File) => y.ref = 0 → y.type = .none) (fun g _ => h.closed g) h0
  bound g hg := by
    show (upd s.ftable f x g).ref = 0
    rw [upd_ne (by omega)]
    exact h.bound g hg
  isLive := forall_upd (P := fun _ (y : File) => y.type = .pipe → live y.pipe = true) (fun g _ => h.isLive g)
    fun e => absurd e hx
  unique g g' pa w h1 h2 := h.unique g g' pa w ((isEnd_upd hf hx).mp h1) ((isEnd_upd hf hx).mp h2)
  flag pa w hl := by
    simp only [St.file_ftable, St.file_page, isEnd_upd hf hx]
    exact h.flag pa w hl
  someone pa hl := by
    obtain ⟨g, w, hg⟩ := h.someone pa hl
    exact ⟨g, w, (isEnd_upd hf hx).mpr hg⟩
  pages := h.pages
  free := h.free

theorem isEnd_ref {t : Nat → File} {g r : Nat} {w : Bool} :
    IsEnd (upd t f { t f with ref := r }) g pa w ↔ IsEnd t g pa w := by
  have he : ∀ g, upd t f { t f with ref := r } g = { t g with ref := (upd t f { t f with ref := r } g).ref } :=
      fun g => by
    by_cases e : g = f
    · rw [e, upd_same]
    · rw [upd_ne e]
  refine ⟨fun h => h.congr ?_, fun h => h.congr (he g)⟩
  rw [he g]

/-- A count that is not zero afterwards. -/
theorem setRef (h : Ends live s) {r : Nat} (hr : 0 < r) (hb : f < NFILE) :
    Ends live (s.file f { s.ftable f with ref := r }) where
  traced := h.traced
  closed := forall_upd (P := fun _ (y : File) => y.ref = 0 → y.type = .none) (fun g _ => h.closed g) fun e =>
    absurd e (by
    show ¬ r = 0
    omega)
  bound g hg := by
    show (upd s.ftable f _ g).ref = 0
    rw [upd_ne (by omega)]
    exact h.bound g hg
  isLive := forall_upd (P := fun _ (y : File) => y.type = .pipe → live y.pipe = true) (fun g _ => h.isLive g)
    (h.isLive f)
  unique g g' pa w h1 h2 := h.unique g g' pa w (isEnd_ref.mp h1) (isEnd_ref.mp h2)
  flag pa w hl := by
    simp only [St.file_ftable, St.file_page, isEnd_ref]
    exact h.flag pa w hl
  someone pa hl := by
    obtain ⟨g, w, hg⟩ := h.someone pa hl
    exact ⟨g, w, isEnd_ref.mpr hg⟩
  pages := h.pages
  free := h.free

/-! A file that was the last of its end is closed. -/

theorem isEnd_close {t : Nat → File} {g : Nat} {w : Bool} :
    IsEnd (upd t f { t f with ref := 0, type := .none }) g pa w ↔ g ≠ f ∧ IsEnd t g pa w := by
  by_cases e : g = f
  · subst e
    refine ⟨fun h => ?_, fun h => absurd rfl h.1⟩
    have := h.type
    rw [upd_same] at this
    cases this
  · constructor
    · rintro ⟨h1, h2, h3⟩
      rw [upd_ne e] at h1 h2 h3
      exact ⟨e, h1, h2, h3⟩
    · rintro ⟨-, h1, h2, h3⟩
      refine ⟨?_, ?_, ?_⟩ <;> rw [upd_ne e]
      · exact h1
      · exact h2
      · exact h3

/-- A table in which `f`, an end `w` of pipe `pa`, is closed. -/
def shut (s : St) (f : Nat) : St := s.file f { s.ftable f with ref := 0, type := .none }

variable {w : Bool}

/-- The ends of other pipes stay, and the other end of this one. -/
theorem shut_other (hf : IsEnd s.ftable f pa w) {g pb : Nat} {u : Bool} (hne : ¬ (pb = pa ∧ u = w)) :
    IsEnd (shut s f).ftable g pb u ↔ IsEnd s.ftable g pb u := by
  refine isEnd_close.trans ⟨And.right, fun hg => ⟨fun e => hne ?_, hg⟩⟩
  subst e
  exact ⟨hg.pipe.symm.trans hf.pipe, hg.writable.symm.trans hf.writable⟩

theorem shut_self (h : Ends live s) (hf : IsEnd s.ftable f pa w) (g : Nat) : ¬ IsEnd (shut s f).ftable g pa w :=
    fun hg =>
  (isEnd_close.mp hg).1 (h.unique g f pa w (isEnd_close.mp hg).2 hf)

theorem shut_closed (h : Ends live s) (g : Nat) : ((shut s f).ftable g).ref = 0 → ((shut s f).ftable g).type = .none :=
  forall_upd (P := fun _ (y : File) => y.ref = 0 → y.type = .none) (fun g _ => h.closed g) (fun _ => rfl) g

theorem shut_bound (h : Ends live s) (g : Nat) (hg : NFILE ≤ g) : ((shut s f).ftable g).ref = 0 := by
  by_cases e : g = f
  · subst e
    show (upd s.ftable g _ g).ref = 0
    rw [upd_same]
  · show (upd s.ftable f _ g).ref = 0
    rw [upd_ne e]
    exact h.bound g hg

theorem shut_pipe {g : Nat} (hg : ((shut s f).ftable g).type = .pipe) :
    g ≠ f ∧ (shut s f).ftable g = s.ftable g := by
  have hne : g ≠ f := by
    rintro rfl
    have hg : (upd s.ftable g _ g).type = .pipe := hg
    rw [upd_same] at hg
    cases hg
  exact ⟨hne, upd_ne hne _⟩

/-- The other end is still open: the pipe stays. -/
theorem half (h : Ends live s) (hf : IsEnd s.ftable f pa w) {x : Pipe} (hx : x.isOpen w = 0)
    (hx' : x.isOpen (!w) = (s.page pa).isOpen (!w)) (hopen : x.isOpen (!w) ≠ 0) :
    Ends live { shut s f with page := upd s.page pa x, trace := s.trace ++ [.use pa] } := by
  have hlive : live pa = true := hf.pipe ▸ h.isLive f hf.type
  have hflag := h.flag pa (!w) hlive
  rw [← hx'] at hflag
  obtain ⟨-, g, hg⟩ := hflag.resolve_right fun e => hopen e.1
  have hw : ¬ (pa = pa ∧ (!w) = w) := by cases w <;> simp
  refine ⟨?_, shut_closed h, shut_bound h, fun g hg => ?_, fun g g' pb u h1 h2 => ?_, fun pb u hl => ?_,
    fun pb hl => ?_, h.pages, h.free⟩
  · show lives (s.trace ++ [.use pa]) = some live
    rw [lives_snoc, h.traced]
    exact if_pos hlive
  · have hg : ((shut s f).ftable g).type = .pipe := hg
    obtain ⟨hne, e⟩ := shut_pipe hg
    show live ((shut s f).ftable g).pipe = true
    rw [e]
    exact h.isLive g (e ▸ hg)
  · exact h.unique g g' pb u (isEnd_close.mp h1).2 (isEnd_close.mp h2).2
  · show Flag ((upd s.page pa x pb).isOpen u) (∃ g, IsEnd (shut s f).ftable g pb u)
    by_cases e : pb = pa
    · subst e
      rw [upd_same]
      by_cases e : u = w
      · subst e
        exact Or.inr ⟨hx, fun ⟨g, hg⟩ => shut_self h hf g hg⟩
      · obtain rfl : u = !w := by cases u <;> cases w <;> simp_all
        simp only [shut_other hf hw]
        rw [hx']
        exact h.flag pb (!w) hlive
    · rw [upd_ne e]
      simp only [shut_other hf (fun hh => e hh.1)]
      exact h.flag pb u hl
  · by_cases e : pb = pa
    · subst e
      exact ⟨g, !w, (shut_other hf hw).mpr hg⟩
    · obtain ⟨g', u, hg'⟩ := h.someone pb hl
      exact ⟨g', u, (shut_other hf (fun hh => e hh.1)).mpr hg'⟩

/-- The second end is closed: the page is freed. -/
theorem last (h : Ends live s) (hf : IsEnd s.ftable f pa w) {x : Pipe} (hshut : (s.page pa).isOpen (!w) = 0) :
    Ends (upd live pa false)
      { shut s f with
        page := upd s.page pa x, freelist := pa :: s.freelist, trace := s.trace ++ [.use pa] ++ [.free pa] } := by
  have hlive : live pa = true := hf.pipe ▸ h.isLive f hf.type
  have hnone : ∀ g, ¬ IsEnd s.ftable g pa (!w) := fun g hg => by
    rcases h.flag pa (!w) hlive with ⟨e, -⟩ | ⟨-, hn⟩
    · rw [hshut] at e
      cases e
    · exact hn ⟨g, hg⟩
  have hgone : ∀ g u, ¬ IsEnd (shut s f).ftable g pa u := fun g u hg => by
    by_cases e : u = w
    · subst e
      exact shut_self h hf g hg
    · obtain rfl : u = !w := by cases u <;> cases w <;> simp_all
      exact hnone g (isEnd_close.mp hg).2
  have hstays : ∀ {pb}, upd live pa false pb = true → pb ≠ pa ∧ live pb = true := fun {pb} hl => by
    by_cases e : pb = pa
    · rw [e, upd_same] at hl
      cases hl
    · rw [upd_ne e] at hl
      exact ⟨e, hl⟩
  have hfree : pa ∉ s.freelist ++ s.held := fun hm => by
    rw [h.free pa hm] at hlive
    cases hlive
  refine ⟨?_, shut_closed h, shut_bound h, fun g hg => ?_, fun g g' pb u h1 h2 => ?_, fun pb u hl => ?_,
    fun pb hl => ?_, ?_, fun pb hb => ?_⟩
  · show lives (s.trace ++ [.use pa] ++ [.free pa]) = some (upd live pa false)
    rw [lives_snoc, lives_snoc, h.traced]
    simp only [Option.bind_some, after, hlive, if_true]
  · have hg : ((shut s f).ftable g).type = .pipe := hg
    obtain ⟨hne, e⟩ := shut_pipe hg
    have hp : ((shut s f).ftable g).pipe ≠ pa := fun hp => hgone g _ ⟨hg, hp, rfl⟩
    show upd live pa false ((shut s f).ftable g).pipe = true
    rw [upd_ne hp, e]
    exact h.isLive g (e ▸ hg)
  · exact h.unique g g' pb u (isEnd_close.mp h1).2 (isEnd_close.mp h2).2
  · obtain ⟨hne, hl⟩ := hstays hl
    show Flag ((upd s.page pa x pb).isOpen u) (∃ g, IsEnd (shut s f).ftable g pb u)
    rw [upd_ne hne]
    simp only [shut_other hf (fun hh => hne hh.1)]
    exact h.flag pb u hl
  · obtain ⟨hne, hl⟩ := hstays hl
    obtain ⟨g, u, hg⟩ := h.someone pb hl
    exact ⟨g, u, (shut_other hf (fun hh => hne hh.1)).mpr hg⟩
  · show (pa :: (s.freelist ++ s.held)).Nodup
    exact List.nodup_cons.mpr ⟨hfree, h.pages⟩
  · have hb : pb ∈ pa :: (s.freelist ++ s.held) := hb
    rcases List.mem_cons.mp hb with rfl | hb
    · exact upd_same _ _ _
    · have hne : pb ≠ pa := fun e => hfree (e ▸ hb)
      rw [upd_ne hne]
      exact h.free pb hb

end Ends

/-! ## One function -/

variable {Q : Unit → St → Prop} {E : Panic → St → Prop}

@[simp] theorem wp_emit (e : PageEv) : wp (emit e) Q E s = Q () { s with trace := s.trace ++ [e] } := rfl

@[simp] theorem wp_setFile (f : Nat) (g : File → File) :
    wp (setFile f g) Q E s = Q () (s.file f (g (s.ftable f))) := rfl

@[simp] theorem wp_setProc (p : Nat) (g : Proc → Proc) :
    wp (setProc p g) Q E s = Q () (s.process p (g (s.proc p))) := rfl

@[simp] theorem wp_setPage (pa : Nat) (g : Pipe → Pipe) :
    wp (setPage pa g) Q E s = Q () { s with page := upd s.page pa (g (s.page pa)) } := rfl

@[simp] theorem wp_setFd (p fd : Nat) (y : Option Nat) :
    wp (setFd p fd y) Q E s = Q () (s.fd p fd y) := rfl

theorem pipeclose_spec {w : Bool} (h : Ends live s) (hf : IsEnd s.ftable f pa w) :
    wp (pipeclose pa w) (fun _ s' => (∃ live', Ends live' s') ∧ s'.ftable = (Ends.shut s f).ftable ∧ s'.proc = s.proc)
      (fun _ _ => False) (Ends.shut s f) := by
  unfold pipeclose kfree
  cases w
  · simp only [wp_bind, wp_emit, Bool.false_eq_true, if_false, wp_setPage, wp_get]
    refine wp_ite (fun hz => ?_) fun hz => ?_
    · simp only [wp_bind, wp_setPage, wp_modify, wp_emit]
      have hz : (s.page pa).writeopen = 0 := by
        have := hz.2
        simp only [upd_same] at this
        exact this
      refine ⟨⟨upd live pa false, ?_⟩, trivial, rfl⟩
      have := h.last hf (x := junk 1) hz
      simpa only [Ends.shut, upd_upd, St.file_page, St.file_freelist, St.file_trace] using this
    · rw [wp_pure]
      have hz : (s.page pa).writeopen ≠ 0 := fun e => hz ⟨by simp, by simpa [Ends.shut] using e⟩
      exact ⟨⟨_, h.half hf rfl rfl hz⟩, rfl, rfl⟩
  · simp only [wp_bind, wp_emit, if_true, wp_setPage, wp_get]
    refine wp_ite (fun hz => ?_) fun hz => ?_
    · simp only [wp_bind, wp_setPage, wp_modify, wp_emit]
      have hz : (s.page pa).readopen = 0 := by
        have := hz.1
        simp only [upd_same] at this
        exact this
      refine ⟨⟨upd live pa false, ?_⟩, trivial, rfl⟩
      have := h.last hf (x := junk 1) hz
      simpa only [Ends.shut, upd_upd, St.file_page, St.file_freelist, St.file_trace] using this
    · rw [wp_pure]
      have hz : (s.page pa).readopen ≠ 0 := fun e => hz ⟨by simpa [Ends.shut] using e, by simp⟩
      exact ⟨⟨_, h.half hf rfl rfl hz⟩, rfl, rfl⟩

structure Gained (f : Nat) (s s' : St) : Prop where
  proc : s'.proc = s.proc
  other : ∀ g, g ≠ f → s'.ftable g = s.ftable g
  ref : (s'.ftable f).ref = (s.ftable f).ref + 1
  same : s'.ftable f = { s.ftable f with ref := (s'.ftable f).ref }

/-- One reference to `f` is dropped; its file is as it was as long as there is another. -/
structure Dropped (f : Nat) (s s' : St) : Prop where
  proc : s'.proc = s.proc
  other : ∀ g, g ≠ f → s'.ftable g = s.ftable g
  ref : (s'.ftable f).ref + 1 = (s.ftable f).ref
  same : 0 < (s'.ftable f).ref → s'.ftable f = { s.ftable f with ref := (s'.ftable f).ref }

theorem Gained.refs (h : Gained f s s') (g : Nat) : (s'.ftable g).ref = (s.ftable g).ref + if g = f then 1 else 0 := by
  split
  · rename_i e
    rw [e]
    exact h.ref
  · rename_i e
    rw [h.other g e, Nat.add_zero]

theorem Dropped.refs (h : Dropped f s s') (g : Nat) :
    (s'.ftable g).ref + (if g = f then 1 else 0) = (s.ftable g).ref := by
  split
  · rename_i e
    rw [e]
    exact h.ref
  · rename_i e
    rw [h.other g e, Nat.add_zero]

theorem gained (s : St) (f : Nat) {r : Nat} (hr : r = (s.ftable f).ref + 1) :
    Gained f s (s.file f { s.ftable f with ref := r }) := by
  have hf : (s.file f { s.ftable f with ref := r }).ftable f = { s.ftable f with ref := r } := upd_same _ _ _
  refine ⟨rfl, fun g hg => upd_ne hg _, ?_, ?_⟩
  · rw [hf]
    exact hr
  · rw [hf]

theorem fileclose_spec (h : Ends live s) (hr : 0 < (s.ftable f).ref) :
    wp (fileclose f) (fun _ s' => (∃ live', Ends live' s') ∧ Dropped f s s') (fun _ _ => False) s := by
  unfold fileclose
  simp only [wp_bind, wp_get]
  refine wp_neg (by omega) ?_
  refine wp_ite (fun hmore => ?_) fun hlast => ?_
  · rw [wp_setFile]
    have hf : (s.file f { s.ftable f with ref := (s.ftable f).ref - 1 }).ftable f =
        { s.ftable f with ref := (s.ftable f).ref - 1 } := upd_same _ _ _
    refine ⟨⟨live, h.setRef hmore (h.lt hr)⟩, rfl, fun g hg => upd_ne hg _, ?_, fun _ => ?_⟩
    · rw [hf]
      show (s.ftable f).ref - 1 + 1 = _
      omega
    · rw [hf]
  · simp only [wp_bind, wp_setFile]
    have hdrop : ∀ {s' : St}, s'.ftable = (Ends.shut s f).ftable → s'.proc = s.proc → Dropped f s s' :=
        fun {s'} h1 h2 => by
      have hf : s'.ftable f = { s.ftable f with ref := 0, type := .none } := by
        rw [h1]
        exact upd_same _ _ _
      refine ⟨h2, fun g hg => ?_, ?_, fun hpos => ?_⟩
      · rw [h1]
        exact upd_ne hg _
      · rw [hf]
        show 0 + 1 = _
        omega
      · rw [hf] at hpos
        cases hpos
    refine wp_ite (fun ht => ?_) fun ht => ?_
    · refine (pipeclose_spec h ⟨ht, rfl, rfl⟩).imp fun _ s' hs => ⟨hs.1, hdrop hs.2.1 hs.2.2⟩
    · rw [wp_pure]
      exact ⟨⟨live, h.noEnd ht (by simp) (fun _ => rfl) (h.lt hr)⟩, hdrop rfl rfl⟩

theorem filedup_spec (h : Ends live s) (hr : 0 < (s.ftable f).ref) :
    wp (filedup f) (fun _ s' => Ends live s' ∧ Gained f s s') (fun _ _ => False) s := by
  unfold filedup
  simp only [wp_bind, wp_get]
  refine wp_neg (by omega) ?_
  rw [wp_setFile]
  exact ⟨h.setRef (Nat.succ_pos _) (h.lt hr), gained s f rfl⟩

theorem filealloc_spec (h : Ends live s) (ok : Bool) :
    wp (filealloc ok) (fun r s' => (r = none ∧ s' = s) ∨ ∃ f, r = some f ∧ f < NFILE ∧ (s.ftable f).ref = 0 ∧
      Ends live s' ∧ Gained f s s') (fun _ _ => False) s := by
  unfold filealloc
  simp only [wp_bind, wp_get]
  split
  · rename_i f hf
    simp only [wp_bind, wp_setFile, wp_pure]
    have hlt : f < NFILE := List.mem_range.mp (List.mem_of_find?_eq_some hf)
    have h0 : (s.ftable f).ref = 0 := by simpa using List.find?_some hf
    exact Or.inr ⟨f, rfl, hlt, h0, h.setRef Nat.one_pos hlt, gained s f (by rw [h0])⟩
  · rw [wp_pure]
    exact Or.inl ⟨rfl, rfl⟩

theorem fdalloc_spec (p f : Nat) (ok : Bool) :
    wp (fdalloc p f ok) (fun r s' => (r = none ∧ s' = s) ∨ ∃ fd, r = some fd ∧ fd < NOFILE ∧
      (s.proc p).ofile fd = none ∧ s' = s.fd p fd (some f)) (fun _ _ => False) s := by
  unfold fdalloc
  simp only [wp_bind, wp_get]
  split
  · rename_i fd hf
    simp only [wp_bind, wp_setFd, wp_pure]
    have hlt : fd < NOFILE := List.mem_range.mp (List.mem_of_find?_eq_some hf)
    have h0 : (s.proc p).ofile fd = none := by simpa using List.find?_some hf
    exact Or.inr ⟨fd, rfl, hlt, h0, rfl⟩
  · rw [wp_pure]
    exact Or.inl ⟨rfl, rfl⟩

/-- References to the files `F`, none of which was open, are taken; the open files stay. -/
structure Took (F : List Nat) (s s' : St) : Prop where
  proc : s'.proc = s.proc
  refs : ∀ g, (s'.ftable g).ref = (s.ftable g).ref + F.count g
  old : ∀ g, 0 < (s.ftable g).ref → s'.ftable g = s.ftable g
  new : ∀ g ∈ F, (s.ftable g).ref = 0

theorem Took.nil (s : St) : Took [] s s := ⟨rfl, fun _ => rfl, fun _ _ => rfl, nofun⟩

theorem Took.gain {F : List Nat} {s1 s2 : St} (h : Took F s s1) (hg : Gained f s1 s2) (h0 : (s.ftable f).ref = 0) :
    Took (f :: F) s s2 := by
  refine ⟨hg.proc.trans h.proc, fun g => ?_, fun g hpos => ?_, fun g hm => ?_⟩
  · rw [hg.refs g, h.refs g, List.count_cons]
    simp only [beq_iff_eq, eq_comm (a := f) (b := g)]
    omega
  · have hne : g ≠ f := fun e => by
      rw [e, h0] at hpos
      cases hpos
    rw [hg.other g hne, h.old g hpos]
  · rcases List.mem_cons.mp hm with rfl | hm
    · exact h0
    · exact h.new g hm

theorem Took.drop {F : List Nat} {s1 s2 : St} (h : Took (f :: F) s s1) (hd : Dropped f s1 s2) : Took F s s2 := by
  have h0 := h.new f (List.mem_cons_self ..)
  refine ⟨hd.proc.trans h.proc, fun g => ?_, fun g hpos => ?_, fun g hm => h.new g (List.mem_cons_of_mem _ hm)⟩
  · have h1 := hd.refs g
    have h2 := h.refs g
    rw [List.count_cons] at h2
    simp only [beq_iff_eq, eq_comm (a := f) (b := g)] at h2
    omega
  · have hne : g ≠ f := fun e => by
      rw [e, h0] at hpos
      cases hpos
    rw [hd.other g hne, h.old g hpos]

def piped (s : St) (f0 f1 pa : Nat) (rest : List Nat) (x : Pipe) : St :=
  { s with
    freelist := rest
    page := upd s.page pa x
    trace := s.trace ++ [.alloc pa] ++ [.use pa]
    ftable := upd (upd s.ftable f0 { s.ftable f0 with type := .pipe, readable := true, writable := false, pipe := pa })
      f1 { s.ftable f1 with type := .pipe, readable := false, writable := true, pipe := pa } }

section Piped

variable {f0 f1 : Nat} {rest : List Nat} {x : Pipe}
variable (h : Ends live s) (hne : f0 ≠ f1) (h0 : (s.ftable f0).type = .none) (h1 : (s.ftable f1).type = .none)
variable (hr0 : 0 < (s.ftable f0).ref) (hr1 : 0 < (s.ftable f1).ref)
include hne

omit hne in
theorem piped_f1 : (piped s f0 f1 pa rest x).ftable f1 =
    { s.ftable f1 with type := .pipe, readable := false, writable := true, pipe := pa } := upd_same _ _ _

theorem piped_f0 : (piped s f0 f1 pa rest x).ftable f0 =
    { s.ftable f0 with type := .pipe, readable := true, writable := false, pipe := pa } := by
  show upd (upd _ _ _) _ _ f0 = _
  rw [upd_ne hne, upd_same]

omit hne in
theorem piped_other {g : Nat} (hg0 : g ≠ f0) (hg1 : g ≠ f1) : (piped s f0 f1 pa rest x).ftable g = s.ftable g := by
  show upd (upd _ _ _) _ _ g = _
  rw [upd_ne hg1, upd_ne hg0]

include h0 h1

theorem piped_end {g pb : Nat} {u : Bool} : IsEnd (piped s f0 f1 pa rest x).ftable g pb u ↔
    IsEnd s.ftable g pb u ∨ pb = pa ∧ (g = f0 ∧ u = false ∨ g = f1 ∧ u = true) := by
  constructor
  · rintro ⟨e1, e2, e3⟩
    by_cases hg0 : g = f0
    · rw [hg0, piped_f0 hne] at e2 e3
      exact Or.inr ⟨e2.symm, Or.inl ⟨hg0, e3.symm⟩⟩
    by_cases hg1 : g = f1
    · rw [hg1, piped_f1] at e2 e3
      exact Or.inr ⟨e2.symm, Or.inr ⟨hg1, e3.symm⟩⟩
    · rw [piped_other hg0 hg1] at e1 e2 e3
      exact Or.inl ⟨e1, e2, e3⟩
  · rintro (he | ⟨rfl, ⟨rfl, rfl⟩ | ⟨rfl, rfl⟩⟩)
    · have hg0 : g ≠ f0 := fun e => by
        have := he.type
        rw [e, h0] at this
        cases this
      have hg1 : g ≠ f1 := fun e => by
        have := he.type
        rw [e, h1] at this
        cases this
      have e : (piped s f0 f1 pa rest x).ftable g = s.ftable g := piped_other hg0 hg1
      exact ⟨e ▸ he.type, e ▸ he.pipe, e ▸ he.writable⟩
    · refine ⟨?_, ?_, ?_⟩ <;> rw [piped_f0 hne]
    · refine ⟨?_, ?_, ?_⟩ <;> rw [piped_f1]

include h hr0 hr1

theorem piped_ends (hfree : s.freelist = pa :: rest) (hx : ∀ u, x.isOpen u = 1) :
    Ends (upd live pa true) (piped s f0 f1 pa rest x) := by
  have hdead : live pa = false := h.free pa (by rw [hfree]; simp)
  have hold : ∀ {g u}, ¬ IsEnd s.ftable g pa u := fun {g u} he => by
    have := h.isLive g he.type
    rw [he.pipe, hdead] at this
    cases this
  have href : ∀ g, ((piped s f0 f1 pa rest x).ftable g).ref = (s.ftable g).ref := fun g => by
    by_cases hg1 : g = f1
    · rw [hg1, piped_f1]
    by_cases hg0 : g = f0
    · rw [hg0, piped_f0 hne]
    · rw [piped_other hg0 hg1]
  have hnd : (pa :: (rest ++ s.held)).Nodup := by
    have := h.pages
    rw [hfree] at this
    exact this
  refine ⟨?_, fun g hg => ?_, fun g hg => ?_, fun g hg => ?_, fun g g' pb u e1 e2 => ?_, fun pb u hl => ?_,
    fun pb hl => ?_, (List.nodup_cons.mp hnd).2, fun pb hb => ?_⟩
  · show lives (s.trace ++ [.alloc pa] ++ [.use pa]) = _
    rw [lives_snoc, lives_snoc, h.traced]
    simp [after, hdead]
  · rw [href] at hg
    have hg0 : g ≠ f0 := fun e => by
      rw [e] at hg
      omega
    have hg1 : g ≠ f1 := fun e => by
      rw [e] at hg
      omega
    rw [piped_other hg0 hg1]
    exact h.closed g hg
  · rw [href]
    exact h.bound g hg
  · rcases (piped_end hne h0 h1).mp ⟨hg, rfl, rfl⟩ with he | ⟨e, -⟩
    · have hne' : ((piped s f0 f1 pa rest x).ftable g).pipe ≠ pa := fun e => hold (e ▸ he)
      rw [upd_ne hne']
      exact he.pipe ▸ h.isLive g he.type
    · rw [e, upd_same]
  · rcases (piped_end hne h0 h1).mp e1 with a1 | ⟨rfl, a1⟩ <;> rcases (piped_end hne h0 h1).mp e2 with a2 | ⟨e, a2⟩
    · exact h.unique g g' pb u a1 a2
    · exact absurd (e ▸ a1) hold
    · exact absurd a2 hold
    · rcases a1 with ⟨rfl, rfl⟩ | ⟨rfl, rfl⟩ <;> rcases a2 with ⟨rfl, e⟩ | ⟨rfl, e⟩
      · rfl
      · cases e
      · cases e
      · rfl
  · show Flag ((upd s.page pa x pb).isOpen u) _
    by_cases e : pb = pa
    · subst e
      rw [upd_same]
      refine Or.inl ⟨hx u, ?_⟩
      cases u
      · exact ⟨f0, (piped_end hne h0 h1).mpr (Or.inr ⟨rfl, Or.inl ⟨rfl, rfl⟩⟩)⟩
      · exact ⟨f1, (piped_end hne h0 h1).mpr (Or.inr ⟨rfl, Or.inr ⟨rfl, rfl⟩⟩)⟩
    · rw [upd_ne e] at hl ⊢
      have hiff : (∃ g, IsEnd (piped s f0 f1 pa rest x).ftable g pb u) ↔ ∃ g, IsEnd s.ftable g pb u :=
        exists_congr fun g => (piped_end hne h0 h1).trans ⟨fun hh => hh.resolve_right fun e' => e e'.1, Or.inl⟩
      rw [hiff]
      exact h.flag pb u hl
  · by_cases e : pb = pa
    · subst e
      exact ⟨f0, false, (piped_end hne h0 h1).mpr (Or.inr ⟨rfl, Or.inl ⟨rfl, rfl⟩⟩)⟩
    · rw [upd_ne e] at hl
      obtain ⟨g, u, hg⟩ := h.someone pb hl
      exact ⟨g, u, (piped_end hne h0 h1).mpr (Or.inl hg)⟩
  · have hb : pb ∈ rest ++ s.held := hb
    have hne' : pb ≠ pa := fun e => (List.nodup_cons.mp hnd).1 (e ▸ hb)
    rw [upd_ne hne']
    refine h.free pb ?_
    rw [hfree]
    exact List.mem_cons_of_mem _ hb

end Piped

/-- One of the files of a failed call is closed. -/
theorem close_took {F : List Nat} {s0 : St} (h : ∃ live, Ends live s) (ht : Took (f :: F) s0 s) :
    wp (fileclose f) (fun _ s' => (∃ live, Ends live s') ∧ Took F s0 s') (fun _ _ => False) s := by
  obtain ⟨live, he⟩ := h
  have hr : 0 < (s.ftable f).ref := by
    rw [ht.refs f, List.count_cons_self]
    omega
  exact (fileclose_spec he hr).imp fun _ s' hs => ⟨hs.1, ht.drop hs.2⟩

theorem Took.swap {F : List Nat} {g : Nat} (h : Took (f :: g :: F) s s') : Took (g :: f :: F) s s' := by
  have hp : (f :: g :: F).Perm (g :: f :: F) := List.Perm.swap g f F
  exact ⟨h.proc, fun a => by rw [h.refs a, hp.count_eq], h.old, fun a ha => h.new a (hp.mem_iff.mpr ha)⟩

theorem kalloc_spec (ok : Bool) {Q : Option Nat → St → Prop} (hnone : Q none s)
    (hsome : ∀ pa rest, s.freelist = pa :: rest → Q (some pa)
      { s with freelist := rest, page := upd s.page pa (junk 5), trace := s.trace ++ [.alloc pa] }) :
    wp (kalloc ok) Q (fun _ _ => False) s := by
  unfold kalloc
  simp only [wp_bind, wp_get]
  split
  · rename_i pa rest hfree
    exact hsome pa rest hfree
  · exact hnone

theorem pipealloc_spec (h : Ends live s) (o : PipeOk) :
    wp (pipealloc o) (fun r s' => (∃ live', Ends live' s') ∧
      ((r = none ∧ Took [] s s') ∨ ∃ f0 f1, r = some (f0, f1) ∧ Took [f0, f1] s s')) (fun _ _ => False) s := by
  unfold pipealloc
  rw [wp_bind]
  refine (filealloc_spec h o.file0).imp fun r s1 hr => ?_
  rcases hr with ⟨rfl, rfl⟩ | ⟨f0, rfl, -, h0, he1, hg₁⟩
  · exact ⟨⟨live, h⟩, Or.inl ⟨rfl, .nil s1⟩⟩
  have ht1 : Took [f0] s s1 := (Took.nil s).gain hg₁ h0
  rw [wp_bind]
  refine (filealloc_spec he1 o.file1).imp fun r s2 hr => ?_
  rcases hr with ⟨rfl, rfl⟩ | ⟨f1, rfl, -, h1, he2, hg2⟩
  · simp only [pipeallocBad, wp_bind, wp_pure]
    exact (close_took ⟨live, he1⟩ ht1).imp fun _ s' hs => ⟨hs.1, Or.inl ⟨trivial, hs.2⟩⟩
  have hne : f0 ≠ f1 := fun e => by
    rw [← e, hg₁.ref] at h1
    cases h1
  have h1' : (s.ftable f1).ref = 0 := hg₁.other f1 hne.symm ▸ h1
  have ht2 : Took [f1, f0] s s2 := ht1.gain hg2 h1'
  rw [wp_bind]
  refine kalloc_spec o.page ?_ fun pa rest hfree => ?_
  · -- no page: both files are closed
    simp only [pipeallocBad, wp_bind, wp_pure]
    refine (close_took ⟨live, he2⟩ ht2.swap).imp fun _ s3 h₃ => ?_
    exact (close_took h₃.1 h₃.2).imp fun _ s' hs => ⟨hs.1, Or.inl ⟨trivial, hs.2⟩⟩
  · have hty0 : (s2.ftable f0).type = .none := by
      rw [hg2.other f0 hne, hg₁.same]
      exact h.closed f0 h0
    have hty1 : (s2.ftable f1).type = .none := by
      rw [hg2.same]
      exact he1.closed f1 h1
    have hr0 : 0 < (s2.ftable f0).ref := by
      rw [hg2.other f0 hne, hg₁.ref]
      exact Nat.succ_pos _
    have hr1 : 0 < (s2.ftable f1).ref := by
      rw [hg2.ref]
      exact Nat.succ_pos _
    have hends := piped_ends (x := ⟨0, 0, 1, 1⟩) he2 hne hty0 hty1 hr0 hr1 hfree (fun u => by cases u <;> rfl)
    have htook : Took [f1, f0] s (piped s2 f0 f1 pa rest ⟨0, 0, 1, 1⟩) := by
      refine ⟨ht2.proc, fun g => ?_, fun g hg => ?_, ht2.new⟩
      · rw [← ht2.refs g]
        by_cases hg1 : g = f1
        · rw [hg1, piped_f1]
        by_cases hg0 : g = f0
        · rw [hg0, piped_f0 hne]
        · rw [piped_other hg0 hg1]
      · have hg0 : g ≠ f0 := fun e => by
          rw [e, h0] at hg
          cases hg
        have hg1 : g ≠ f1 := fun e => by
          rw [e, h1'] at hg
          cases hg
        rw [piped_other hg0 hg1]
        exact ht2.old g hg
    have hdone : ∀ s3, s3 = piped s2 f0 f1 pa rest ⟨0, 0, 1, 1⟩ → (∃ live', Ends live' s3) ∧
        ((some (f0, f1) = none ∧ Took [] s s3) ∨ ∃ g0 g1, some (f0, f1) = some (g0, g1) ∧ Took [g0, g1] s s3) := by
      rintro _ rfl
      exact ⟨⟨_, hends⟩, Or.inr ⟨f0, f1, rfl, htook.swap⟩⟩
    simp only [wp_bind, wp_emit, wp_setPage, wp_setFile, wp_pure]
    refine hdone _ ?_
    simp only [piped, St.file, upd_upd, upd_ne hne.symm]

end Xv6.Ipc.Files
