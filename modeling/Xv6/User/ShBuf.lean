/-
  Xv6.User.ShBuf — the parser of `Xv6.User.Sh` on the buffer the line is in, and `nulterminate`.

  A pointer is an address; `es` is where the line's NUL is. A word is the two addresses
  `[q, eq)` that `gettoken` hands out. The functions are those of `Xv6.User.Sh`, byte by byte; `parsecmd`
  ends with `nulterminate`, which writes a NUL at every recorded `eq`.

  The parser reads off the buffer what `Xv6.User.Sh` reads off the list (`Sim`). The bytes of a word are
  no whitespace and no symbols, and the byte behind it is one or is the end of the line, so no
  NUL is written into a word.
-/
import Xv6.User.Sh
import Xv6.Lib.Table

namespace Xv6.User.Sh.Buf

abbrev Mem := Nat → UInt8

structure Word where
  q : Nat
  eq : Nat
  deriving DecidableEq, Repr

/-! ## Tokens -/

def scan (m : Mem) (f : UInt8 → Bool) (es : Nat) : Nat → Nat → Nat
  | 0, s => s
  | n + 1, s => if s < es ∧ f (m s) = true then scan m f es n (s + 1) else s

def skip (m : Mem) (es s : Nat) : Nat := scan m isSpace es (es - s) s

/-- What `gettoken` returns, `*q` and `*eq`, and `*ps`. -/
def gettoken (m : Mem) (es s : Nat) : UInt8 × Word × Nat :=
  let s := skip m es s
  let q := s
  let c := m s
  let (ret, s) :=
    if c = 0 then (0, s)
    else if c = 124 ∨ c = 40 ∨ c = 41 ∨ c = 59 ∨ c = 38 ∨ c = 60 then (c, s + 1)
    else if c = 62 then if m (s + 1) = 62 then (43, s + 2) else (62, s + 1)
    else (97, scan m isWord es (es - s) s)
  (ret, ⟨q, s⟩, skip m es s)

def peek (m : Mem) (es s : Nat) (toks : Bytes) : Bool × Nat :=
  let s := skip m es s
  (m s ≠ 0 && toks.contains (m s), s)

/-! ## Commands -/

structure Redir where
  file : Word
  mode : Nat
  fd : Nat
  deriving DecidableEq, Repr

inductive Cmd where
  | exec (argv : List Word)
  | redir (cmd : Cmd) (r : Redir)
  | pipe (left right : Cmd)
  | list (left right : Cmd)
  | back (cmd : Cmd)
  deriving DecidableEq, Repr

def wrap (cmd : Cmd) (rs : List Redir) : Cmd := rs.foldl .redir cmd

def redirOf (tok : UInt8) (file : Word) : List Redir :=
  if tok = 60 then [⟨file, O_RDONLY, 0⟩]
  else if tok = 62 then [⟨file, O_WRONLY ||| O_CREATE ||| O_TRUNC, 1⟩]
  else if tok = 43 then [⟨file, O_WRONLY ||| O_CREATE, 1⟩]
  else []

def parseredirs (m : Mem) (es : Nat) : Nat → Nat → Except Stop (List Redir × Nat)
  | 0, _ => .error .fuel
  | n + 1, s =>
    match peek m es s [60, 62] with
    | (false, s) => .ok ([], s)
    | (true, s) =>
      let (tok, _, s) := gettoken m es s
      let (ret, file, s) := gettoken m es s
      if ret = 97 then do
        let (rs, s) ← parseredirs m es n s
        return (redirOf tok file ++ rs, s)
      else .error (.panic .missingFile)

def parseargs (m : Mem) (es : Nat) : Nat → Nat → Nat → Except Stop ((List Word × List Redir) × Nat)
  | 0, _, _ => .error .fuel
  | n + 1, argc, s =>
    match peek m es s [124, 41, 38, 59] with
    | (true, s) => .ok (([], []), s)
    | (false, s) =>
      let (tok, w, s) := gettoken m es s
      if tok = 0 then .ok (([], []), s)
      else if tok = 97 then
        if MAXARGS ≤ argc + 1 then .error (.panic .tooManyArgs)
        else do
          let (rs, s) ← parseredirs m es n s
          let ((ws, rs'), s) ← parseargs m es n (argc + 1) s
          return ((w :: ws, rs ++ rs'), s)
      else .error (.panic .badToken)

def parsebacks (m : Mem) (es : Nat) : Nat → Cmd → Nat → Except Stop (Cmd × Nat)
  | 0, _, _ => .error .fuel
  | n + 1, cmd, s =>
    match peek m es s [38] with
    | (true, s) => parsebacks m es n (.back cmd) (gettoken m es s).2.2
    | (false, s) => .ok (cmd, s)

mutual

def parseline (m : Mem) (es : Nat) : Nat → Nat → Except Stop (Cmd × Nat)
  | 0, _ => .error .fuel
  | n + 1, s => do
    let (cmd, s) ← parsepipe m es n s
    let (cmd, s) ← parsebacks m es n cmd s
    match peek m es s [59] with
    | (true, s) =>
      let (right, s) ← parseline m es n (gettoken m es s).2.2
      return (.list cmd right, s)
    | (false, s) => return (cmd, s)

def parsepipe (m : Mem) (es : Nat) : Nat → Nat → Except Stop (Cmd × Nat)
  | 0, _ => .error .fuel
  | n + 1, s => do
    let (cmd, s) ← parseexec m es n s
    match peek m es s [124] with
    | (true, s) =>
      let (right, s) ← parsepipe m es n (gettoken m es s).2.2
      return (.pipe cmd right, s)
    | (false, s) => return (cmd, s)

def parseblock (m : Mem) (es : Nat) : Nat → Nat → Except Stop (Cmd × Nat)
  | 0, _ => .error .fuel
  | n + 1, s =>
    match peek m es s [40] with
    | (false, _) => .error (.panic .parseblock)
    | (true, s) => do
      let (cmd, s) ← parseline m es n (gettoken m es s).2.2
      match peek m es s [41] with
      | (false, _) => .error (.panic .missingParen)
      | (true, s) =>
        let (rs, s) ← parseredirs m es n (gettoken m es s).2.2
        return (wrap cmd rs, s)

def parseexec (m : Mem) (es : Nat) : Nat → Nat → Except Stop (Cmd × Nat)
  | 0, _ => .error .fuel
  | n + 1, s =>
    match peek m es s [40] with
    | (true, s) => parseblock m es n s
    | (false, s) => do
      let (rs, s) ← parseredirs m es n s
      let ((argv, rs'), s) ← parseargs m es n 0 s
      return (wrap (.exec argv) (rs ++ rs'), s)

end

def nulterminate : Cmd → Mem → Mem
  | .exec argv, m => argv.foldl (fun m w => upd m w.eq 0) m
  | .redir cmd r, m => upd (nulterminate cmd m) r.file.eq 0
  | .pipe left right, m => nulterminate right (nulterminate left m)
  | .list left right, m => nulterminate right (nulterminate left m)
  | .back cmd, m => nulterminate cmd m

/-- `es` is `s + strlen(s)`. The tree, and the buffer behind it. -/
def parsecmd (m : Mem) (s es : Nat) : Except Stop (Cmd × Mem) := do
  let (cmd, s) ← parseline m es (4 * (es - s) + 5) s
  let (_, s) := peek m es s []
  if s ≠ es then .error (.panic .leftovers)
  else return (cmd, nulterminate cmd m)

/-! ## The line as a list -/

variable {m m' : Mem} {lo es s q n i : Nat} {f : UInt8 → Bool} {c : UInt8}

def rest (m : Mem) (es s : Nat) : Bytes := (List.range' s (es - s)).map m

theorem rest_cons (h : s < es) : rest m es s = m s :: rest m es (s + 1) := by
  unfold rest
  rw [show es - s = es - (s + 1) + 1 by omega, List.range'_succ, List.map_cons]

theorem rest_nil (h : es ≤ s) : rest m es s = [] := by
  unfold rest
  rw [show es - s = 0 by omega]
  rfl

theorem length_rest : (rest m es s).length = es - s := by
  unfold rest
  rw [List.length_map, List.length_range']

/-- A scan stops at the end, or at the first byte that `f` refuses. -/
structure Scan (m : Mem) (f : UInt8 → Bool) (es s e : Nat) : Prop where
  le : s ≤ e
  le_end : e ≤ es
  all : ∀ i, s ≤ i → i < e → f (m i) = true
  stop : e = es ∨ f (m e) = false
  behind : rest m es e = (rest m es s).dropWhile f
  seen : rest m e s = (rest m es s).takeWhile f

theorem scan_spec (h : s ≤ es) : Scan m f es s (scan m f es (es - s) s) := by
  generalize hn : es - s = n
  induction n generalizing s with
  | zero =>
    have he : s = es := by omega
    have hnil : rest m es s = [] := rest_nil (by omega)
    refine ⟨Nat.le_refl _, h, fun i h1 h2 => absurd h2 (by unfold scan; omega), Or.inl he, ?_, ?_⟩
    · rw [scan, hnil]
      rfl
    · rw [scan, hnil, rest_nil (Nat.le_refl s)]
      rfl
  | succ n ih =>
    have hlt : s < es := by omega
    rw [scan]
    by_cases hf : f (m s) = true
    · obtain ⟨h1, h2, h3, h4, h5, h6⟩ := ih (s := s + 1) hlt (by omega)
      rw [if_pos ⟨hlt, hf⟩]
      refine ⟨by omega, h2, ?_, h4, ?_, ?_⟩
      · intro i hi1 hi2
        by_cases hi : i = s
        · rw [hi]
          exact hf
        · exact h3 i (by omega) hi2
      · rw [rest_cons hlt, List.dropWhile_cons, if_pos hf]
        exact h5
      · rw [rest_cons hlt, List.takeWhile_cons, if_pos hf, rest_cons (by omega), h6]
    · rw [if_neg fun h => hf h.2]
      refine ⟨Nat.le_refl _, h, fun i h1 h2 => absurd h2 (by omega), Or.inr (by simpa using hf), ?_, ?_⟩
      · rw [rest_cons hlt, List.dropWhile_cons, if_neg hf]
      · rw [rest_cons hlt, List.takeWhile_cons, if_neg hf, rest_nil (Nat.le_refl s)]

theorem skip_spec (h : s ≤ es) : s ≤ skip m es s ∧ skip m es s ≤ es ∧ rest m es (skip m es s) = Sh.skip (rest m es s) ∧
    (skip m es s < es → isSpace (m (skip m es s)) = false) := by
  obtain ⟨h1, h2, -, h4, h5, -⟩ := scan_spec (m := m) (f := isSpace) h
  exact ⟨h1, h2, h5, fun hlt => h4.resolve_left (by unfold skip at hlt; omega)⟩

structure InLine (m : Mem) (lo es : Nat) : Prop where
  le : lo ≤ es
  bytes : ∀ i, lo ≤ i → i < es → m i ≠ 0
  nul : m es = 0

structure Word.Ok (m : Mem) (lo es : Nat) (w : Word) : Prop where
  lo_le : lo ≤ w.q
  lt : w.q < w.eq
  le_end : w.eq ≤ es
  all : ∀ i, w.q ≤ i → i < w.eq → isWord (m i) = true
  stop : w.eq = es ∨ isWord (m w.eq) = false

def Word.text (m : Mem) (w : Word) : Bytes := rest m w.eq w.q

/-- What `gettoken` of the buffer returns for what `gettoken` of the list does. -/
def Tok (m : Mem) (lo es : Nat) (ret : UInt8) (w : Word) : Option Token → Prop
  | none => ret = 0
  | some .bar => ret = 124
  | some .lparen => ret = 40
  | some .rparen => ret = 41
  | some .semi => ret = 59
  | some .amp => ret = 38
  | some .lt => ret = 60
  | some .gt => ret = 62
  | some .app => ret = 43
  | some (.word t) => ret = 97 ∧ w.Ok m lo es ∧ t = w.text m

/-- Where the token ends, before the whitespace behind it is skipped. -/
def tokenEnd (m : Mem) (es s : Nat) : UInt8 × Nat :=
  let c := m s
  if c = 0 then (0, s)
  else if c = 124 ∨ c = 40 ∨ c = 41 ∨ c = 59 ∨ c = 38 ∨ c = 60 then (c, s + 1)
  else if c = 62 then if m (s + 1) = 62 then (43, s + 2) else (62, s + 1)
  else (97, scan m isWord es (es - s) s)

theorem gettoken_eq (m : Mem) (es s : Nat) : gettoken m es s =
    ((tokenEnd m es (skip m es s)).1, ⟨skip m es s, (tokenEnd m es (skip m es s)).2⟩,
      skip m es (tokenEnd m es (skip m es s)).2) := rfl

theorem isWord_of (hs : isSpace c = false) (hc : ¬ (c = 124 ∨ c = 40 ∨ c = 41 ∨ c = 59 ∨ c = 38 ∨ c = 60))
    (hc' : c ≠ 62) : isWord c = true := by
  unfold isWord symbols
  rw [hs]
  simp only [Bool.not_false, Bool.true_and, List.contains_eq_mem, List.mem_cons, List.not_mem_nil, or_false,
    Bool.not_eq_true', decide_eq_false_iff_not]
  intro h
  rcases h with h | h | h | h | h | h | h
  all_goals simp [h] at hc hc'

/-- The token at the front of a list, before the whitespace behind it is skipped. -/
def tokenOf : Bytes → Option Token × Bytes
  | [] => (none, [])
  | c :: s =>
    match symbolToken c s with
    | some (t, s) => (some t, s)
    | none => (some (.word ((c :: s).takeWhile isWord)), (c :: s).dropWhile isWord)

theorem gettoken_list (s : Bytes) : Sh.gettoken s = ((tokenOf (Sh.skip s)).1, Sh.skip (tokenOf (Sh.skip s)).2) := by
  unfold Sh.gettoken tokenOf
  cases Sh.skip s with
  | nil => rfl
  | cons c s =>
    dsimp only
    cases symbolToken c s with
    | none => rfl
    | some r => rfl

theorem tokenEnd_sim (hl : InLine m lo es) (hlo : lo ≤ s) (hes : s ≤ es) (hs : s < es → isSpace (m s) = false) :
    Tok m lo es (tokenEnd m es s).1 ⟨s, (tokenEnd m es s).2⟩ (tokenOf (rest m es s)).1 ∧ s ≤ (tokenEnd m es s).2 ∧
      (tokenEnd m es s).2 ≤ es ∧ (tokenOf (rest m es s)).2 = rest m es (tokenEnd m es s).2 := by
  by_cases hend : s = es
  · have h0 : m s = 0 := hend ▸ hl.nul
    have hnil : rest m es s = [] := rest_nil (by omega)
    unfold tokenEnd
    rw [if_pos h0, hnil]
    exact ⟨rfl, Nat.le_refl s, hes, rfl⟩
  have hlt : s < es := by omega
  have h0 : m s ≠ 0 := hl.bytes s hlo hlt
  have hsp := hs hlt
  unfold tokenEnd
  rw [rest_cons hlt]
  generalize hc : m s = c at h0 hsp
  unfold tokenOf symbolToken
  dsimp only
  rw [if_neg h0]
  by_cases h1 : c = 124
  · rw [if_pos (Or.inl h1), if_pos h1]
    exact ⟨h1, Nat.le_succ s, hlt, rfl⟩
  by_cases h2 : c = 40
  · rw [if_pos (by simp [h2]), if_neg h1, if_pos h2]
    exact ⟨h2, Nat.le_succ s, hlt, rfl⟩
  by_cases h3 : c = 41
  · rw [if_pos (by simp [h3]), if_neg h1, if_neg h2, if_pos h3]
    exact ⟨h3, Nat.le_succ s, hlt, rfl⟩
  by_cases h4 : c = 59
  · rw [if_pos (by simp [h4]), if_neg h1, if_neg h2, if_neg h3, if_pos h4]
    exact ⟨h4, Nat.le_succ s, hlt, rfl⟩
  by_cases h5 : c = 38
  · rw [if_pos (by simp [h5]), if_neg h1, if_neg h2, if_neg h3, if_neg h4, if_pos h5]
    exact ⟨h5, Nat.le_succ s, hlt, rfl⟩
  by_cases h6 : c = 60
  · rw [if_pos (by simp [h6]), if_neg h1, if_neg h2, if_neg h3, if_neg h4, if_neg h5, if_pos h6]
    exact ⟨h6, Nat.le_succ s, hlt, rfl⟩
  rw [if_neg (by simp [h1, h2, h3, h4, h5, h6]), if_neg h1, if_neg h2, if_neg h3, if_neg h4, if_neg h5, if_neg h6]
  by_cases h7 : c = 62
  · rw [if_pos h7, if_pos h7]
    by_cases hend' : s + 1 = es
    · have hnul : m (s + 1) ≠ 62 := by
        rw [hend', hl.nul]
        decide
      rw [if_neg hnul, rest_nil (by omega)]
      exact ⟨rfl, Nat.le_succ s, hlt, rfl⟩
    · rw [rest_cons (s := s + 1) (by omega)]
      dsimp only
      by_cases h8 : m (s + 1) = 62
      · rw [if_pos h8, if_pos h8]
        exact ⟨rfl, by omega, by omega, rfl⟩
      · rw [if_neg h8, if_neg h8]
        exact ⟨rfl, Nat.le_succ s, hlt, by rw [rest_cons (s := s + 1) (by omega)]⟩
  · rw [if_neg h7, if_neg h7]
    have hw : isWord c = true := isWord_of hsp (by simp [h1, h2, h3, h4, h5, h6]) h7
    obtain ⟨k1, k2, k3, k4, k5, k6⟩ := scan_spec (m := m) (f := isWord) hes
    have hpos : s < scan m isWord es (es - s) s := by
      rcases Nat.lt_or_ge s (scan m isWord es (es - s) s) with h | h
      · exact h
      · have he : scan m isWord es (es - s) s = s := by omega
        rcases k4 with k4 | k4
        · omega
        · rw [he, hc, hw] at k4
          cases k4
    rw [rest_cons hlt, hc] at k5 k6
    exact ⟨⟨rfl, ⟨hlo, hpos, k2, k3, k4⟩, k6.symm⟩, k1, k2, k5.symm⟩

theorem gettoken_sim (hl : InLine m lo es) (hlo : lo ≤ s) (hes : s ≤ es) :
    ∃ ret w s1 t, gettoken m es s = (ret, w, s1) ∧ Sh.gettoken (rest m es s) = (t, rest m es s1) ∧ Tok m lo es ret w t ∧
      lo ≤ s1 ∧ s1 ≤ es := by
  obtain ⟨h1, h2, h3, h4⟩ := skip_spec (m := m) hes
  obtain ⟨k1, k2, k3, k4⟩ := tokenEnd_sim hl (Nat.le_trans hlo h1) h2 h4
  obtain ⟨l1, l2, l3, -⟩ := skip_spec (m := m) k3
  refine ⟨_, _, _, _, gettoken_eq m es s, ?_, k1, by omega, l2⟩
  rw [gettoken_list, ← h3, k4, l3]

theorem peek_sim (hl : InLine m lo es) (hlo : lo ≤ s) (hes : s ≤ es) (toks : Bytes) :
    ∃ b s1, peek m es s toks = (b, s1) ∧ Sh.peek (rest m es s) toks = (b, rest m es s1) ∧ lo ≤ s1 ∧ s1 ≤ es := by
  obtain ⟨h1, h2, h3, -⟩ := skip_spec (m := m) hes
  refine ⟨_, _, rfl, ?_, by omega, h2⟩
  unfold Sh.peek
  rw [← h3]
  by_cases hend : skip m es s = es
  · rw [rest_nil (by omega), hend, hl.nul]
    rfl
  · have h0 := hl.bytes (skip m es s) (by omega) (by omega)
    rw [rest_cons (by omega)]
    simp [h0]

/-! ## Trees -/

def Redir.Is (P : Word → Bytes → Prop) (r : Redir) (r' : Sh.Redir) : Prop :=
  P r.file r'.file ∧ r.mode = r'.mode ∧ r.fd = r'.fd

/-- The same tree, with `P` between a word of the one and the string at its place in the other. -/
inductive Tree (P : Word → Bytes → Prop) : Cmd → Sh.Cmd → Prop
  | exec {ws : List Word} {ts : List Bytes} : List.Forall₂ P ws ts → Tree P (.exec ws) (.exec ts)
  | redir {c : Cmd} {c' : Sh.Cmd} {r : Redir} {r' : Sh.Redir} : Tree P c c' → r.Is P r' → Tree P (.redir c r)
    (.redir c' r')
  | pipe {l r : Cmd} {l' r' : Sh.Cmd} : Tree P l l' → Tree P r r' → Tree P (.pipe l r) (.pipe l' r')
  | list {l r : Cmd} {l' r' : Sh.Cmd} : Tree P l l' → Tree P r r' → Tree P (.list l r) (.list l' r')
  | back {c : Cmd} {c' : Sh.Cmd} : Tree P c c' → Tree P (.back c) (.back c')

theorem Tree.wrap {P : Word → Bytes → Prop} {cmd : Cmd} {cmd' : Sh.Cmd} {rs : List Redir} {rs' : List Sh.Redir}
    (h : Tree P cmd cmd') (hr : List.Forall₂ (Redir.Is P) rs rs') : Tree P (Buf.wrap cmd rs) (Sh.wrap cmd' rs') := by
  induction hr generalizing cmd cmd' with
  | nil => exact h
  | cons hr _ ih => exact ih (.redir h hr)

/-! ## The parser -/

section

variable (m lo es)

def IsText (w : Word) (t : Bytes) : Prop := w.Ok m lo es ∧ t = w.text m

/-- Both stop alike, or return what `R` relates and are at the same place. -/
def Sim {α β : Type} (R : α → β → Prop) : Except Stop (α × Nat) → Except Stop (β × Bytes) → Prop
  | .ok (a, s), .ok (b, t) => R a b ∧ lo ≤ s ∧ s ≤ es ∧ t = rest m es s
  | .error e, .error e' => e = e'
  | _, _ => False

end

variable {α β γ δ : Type} {R : α → β → Prop} {R' : γ → δ → Prop} {w : Word} {t : Option Token} {ws : List Word}

theorem Sim.ok {a : α} {b : β} (h : R a b) (hlo : lo ≤ s) (hes : s ≤ es) :
    Sim m lo es R (.ok (a, s)) (.ok (b, rest m es s)) :=
  ⟨h, hlo, hes, rfl⟩

theorem Sim.bind {x : Except Stop (α × Nat)} {y : Except Stop (β × Bytes)} {k : α × Nat → Except Stop (γ × Nat)}
    {l : β × Bytes → Except Stop (δ × Bytes)} (h : Sim m lo es R x y)
    (hk : ∀ a b s, R a b → lo ≤ s → s ≤ es → Sim m lo es R' (k (a, s)) (l (b, rest m es s))) :
    Sim m lo es R' (x >>= k) (y >>= l) := by
  cases x with
  | error e =>
    cases y with
    | error e' => exact h
    | ok r => cases h
  | ok r =>
    cases y with
    | error e' => cases h
    | ok r' =>
      obtain ⟨a, s⟩ := r
      obtain ⟨b, t⟩ := r'
      obtain ⟨h1, h2, h3, rfl⟩ := h
      exact hk a b s h1 h2 h3

theorem redirOf_sim {tok : UInt8} {v : Word} {b : Bytes} (h : Tok m lo es tok v t)
    (hw : IsText m lo es w b) : List.Forall₂ (Redir.Is (IsText m lo es)) (redirOf tok w) (Sh.redirOf t b) := by
  have hone : ∀ mode fd, List.Forall₂ (Redir.Is (IsText m lo es)) [⟨w, mode, fd⟩] [⟨b, mode, fd⟩] := by
    intro mode fd
    exact .cons ⟨hw, rfl, rfl⟩ .nil
  cases t with
  | none =>
    cases h
    exact .nil
  | some t =>
    cases t with
    | lt | gt | app =>
      cases h
      exact hone _ _
    | word t =>
      rw [h.1]
      exact .nil
    | bar | lparen | rparen | semi | amp =>
      cases h
      exact .nil

theorem Tok.word_iff {ret : UInt8} (h : Tok m lo es ret w t) : ret = 97 ↔ ∃ b, t = some (.word b) := by
  cases t with
  | none =>
    cases h
    simp
  | some t =>
    cases t with
    | word t =>
      simp [h.1]
    | bar | lparen | rparen | semi | amp | lt | gt | app =>
      cases h
      simp

theorem parseredirs_sim (hl : InLine m lo es) (hlo : lo ≤ s) (hes : s ≤ es) :
    Sim m lo es (List.Forall₂ (Redir.Is (IsText m lo es))) (parseredirs m es n s) (Sh.parseredirs n (rest m es s)) := by
  induction n generalizing s with
  | zero => rfl
  | succ n ih =>
    obtain ⟨b, s1, hp, hp', hlo1, hes1⟩ := peek_sim hl hlo hes [60, 62]
    rw [parseredirs, Sh.parseredirs, hp, hp']
    cases b with
    | false => exact Sim.ok .nil hlo1 hes1
    | true =>
      obtain ⟨tok, v, s2, t, hg, hg', htok, hlo2, hes2⟩ := gettoken_sim hl hlo1 hes1
      obtain ⟨ret, w, s3, t', hg3, hg3', hret, hlo3, hes3⟩ := gettoken_sim hl hlo2 hes2
      dsimp only
      rw [hg, hg']
      dsimp only
      rw [hg3, hg3']
      dsimp only
      by_cases h97 : ret = 97
      · obtain ⟨b, rfl⟩ := hret.word_iff.mp h97
        rw [if_pos h97]
        refine (ih hlo3 hes3).bind ?_
        intro rs rs' s4 hrs hlo4 hes4
        exact Sim.ok (List.rel_append (redirOf_sim htok hret.2) hrs) hlo4 hes4
      · rw [if_neg h97]
        split
        · rename_i heq
          cases heq
          exact absurd hret.1 h97
        · rfl

/-- The words and the redirections of a simple command. -/
def Args (m : Mem) (lo es : Nat) (a : List Word × List Redir) (b : List Bytes × List Sh.Redir) : Prop :=
  List.Forall₂ (IsText m lo es) a.1 b.1 ∧ List.Forall₂ (Redir.Is (IsText m lo es)) a.2 b.2

theorem Tok.zero_iff {ret : UInt8} (h : Tok m lo es ret w t) : ret = 0 ↔ t = none := by
  cases t with
  | none => simp [show ret = 0 from h]
  | some t =>
    cases t with
    | word t => simp [h.1]
    | bar | lparen | rparen | semi | amp | lt | gt | app =>
      cases h
      simp

theorem parseargs_sim {argc : Nat} (hl : InLine m lo es) (hlo : lo ≤ s) (hes : s ≤ es) :
    Sim m lo es (Args m lo es) (parseargs m es n argc s) (Sh.parseargs n argc (rest m es s)) := by
  induction n generalizing s argc with
  | zero => rfl
  | succ n ih =>
    obtain ⟨b, s1, hp, hp', hlo1, hes1⟩ := peek_sim hl hlo hes [124, 41, 38, 59]
    rw [parseargs, Sh.parseargs, hp, hp']
    cases b with
    | true => exact Sim.ok ⟨.nil, .nil⟩ hlo1 hes1
    | false =>
      obtain ⟨tok, w, s2, t, hg, hg', htok, hlo2, hes2⟩ := gettoken_sim hl hlo1 hes1
      dsimp only
      rw [hg, hg']
      dsimp only
      by_cases h0 : tok = 0
      · rw [if_pos h0, htok.zero_iff.mp h0]
        exact Sim.ok ⟨.nil, .nil⟩ hlo2 hes2
      rw [if_neg h0]
      by_cases h97 : tok = 97
      · obtain ⟨b, rfl⟩ := htok.word_iff.mp h97
        rw [if_pos h97]
        dsimp only
        split
        · rfl
        · refine (parseredirs_sim hl hlo2 hes2).bind ?_
          intro rs rs' s3 hrs hlo3 hes3
          refine (ih hlo3 hes3).bind ?_
          intro a a' s4 ha hlo4 hes4
          exact Sim.ok ⟨.cons htok.2 ha.1, List.rel_append hrs ha.2⟩ hlo4 hes4
      · rw [if_neg h97]
        split
        · exact absurd (htok.zero_iff.mpr (Prod.mk.inj ‹_›).1) h0
        · exact absurd (htok.word_iff.mpr ⟨_, (Prod.mk.inj ‹_›).1⟩) h97
        · rfl

theorem parsebacks_sim {cmd : Cmd} {cmd' : Sh.Cmd} (hl : InLine m lo es) (hlo : lo ≤ s) (hes : s ≤ es)
    (h : Tree (IsText m lo es) cmd cmd') :
    Sim m lo es (Tree (IsText m lo es)) (parsebacks m es n cmd s) (Sh.parsebacks n cmd' (rest m es s)) := by
  induction n generalizing s cmd cmd' with
  | zero => rfl
  | succ n ih =>
    obtain ⟨b, s1, hp, hp', hlo1, hes1⟩ := peek_sim hl hlo hes [38]
    rw [parsebacks, Sh.parsebacks, hp, hp']
    cases b with
    | false => exact Sim.ok h hlo1 hes1
    | true =>
      obtain ⟨tok, w, s2, t, hg, hg', -, hlo2, hes2⟩ := gettoken_sim hl hlo1 hes1
      dsimp only
      rw [hg, hg']
      exact ih hlo2 hes2 (.back h)

/-- The recursive descent, by induction on the fuel. -/
theorem parse_sim (hl : InLine m lo es) (n : Nat) :
    (∀ s, lo ≤ s → s ≤ es → Sim m lo es (Tree (IsText m lo es)) (parseline m es n s) (Sh.parseline n (rest m es s))) ∧
    (∀ s, lo ≤ s → s ≤ es → Sim m lo es (Tree (IsText m lo es)) (parsepipe m es n s) (Sh.parsepipe n (rest m es s))) ∧
    (∀ s, lo ≤ s → s ≤ es → Sim m lo es (Tree (IsText m lo es)) (parseblock m es n s) (Sh.parseblock n (rest m es s))) ∧
    (∀ s, lo ≤ s → s ≤ es → Sim m lo es (Tree (IsText m lo es)) (parseexec m es n s)
      (Sh.parseexec n (rest m es s))) := by
  induction n with
  | zero =>
    refine ⟨?_, ?_, ?_, ?_⟩
    · intro s _ _
      rw [parseline, Sh.parseline]
      rfl
    · intro s _ _
      rw [parsepipe, Sh.parsepipe]
      rfl
    · intro s _ _
      rw [parseblock, Sh.parseblock]
      rfl
    · intro s _ _
      rw [parseexec, Sh.parseexec]
      rfl
  | succ n ih =>
    obtain ⟨ihLine, ihPipe, ihBlock, ihExec⟩ := ih
    refine ⟨?_, ?_, ?_, ?_⟩
    · intro s hlo hes
      rw [parseline, Sh.parseline]
      refine (ihPipe s hlo hes).bind ?_
      intro cmd cmd' s1 hcmd hlo1 hes1
      refine (parsebacks_sim hl hlo1 hes1 hcmd).bind ?_
      intro cmd cmd' s2 hcmd hlo2 hes2
      obtain ⟨b, s3, hp, hp', hlo3, hes3⟩ := peek_sim hl hlo2 hes2 [59]
      dsimp only
      rw [hp, hp']
      cases b with
      | false => exact Sim.ok hcmd hlo3 hes3
      | true =>
        obtain ⟨tok, w, s4, t, hg, hg', -, hlo4, hes4⟩ := gettoken_sim hl hlo3 hes3
        dsimp only
        rw [hg, hg']
        refine (ihLine s4 hlo4 hes4).bind ?_
        intro right right' s5 hright hlo5 hes5
        exact Sim.ok (.list hcmd hright) hlo5 hes5
    · intro s hlo hes
      rw [parsepipe, Sh.parsepipe]
      refine (ihExec s hlo hes).bind ?_
      intro cmd cmd' s1 hcmd hlo1 hes1
      obtain ⟨b, s2, hp, hp', hlo2, hes2⟩ := peek_sim hl hlo1 hes1 [124]
      dsimp only
      rw [hp, hp']
      cases b with
      | false => exact Sim.ok hcmd hlo2 hes2
      | true =>
        obtain ⟨tok, w, s3, t, hg, hg', -, hlo3, hes3⟩ := gettoken_sim hl hlo2 hes2
        dsimp only
        rw [hg, hg']
        refine (ihPipe s3 hlo3 hes3).bind ?_
        intro right right' s4 hright hlo4 hes4
        exact Sim.ok (.pipe hcmd hright) hlo4 hes4
    · intro s hlo hes
      obtain ⟨b, s1, hp, hp', hlo1, hes1⟩ := peek_sim hl hlo hes [40]
      rw [parseblock, Sh.parseblock, hp, hp']
      cases b with
      | false => rfl
      | true =>
        obtain ⟨tok, w, s2, t, hg, hg', -, hlo2, hes2⟩ := gettoken_sim hl hlo1 hes1
        dsimp only
        rw [hg, hg']
        refine (ihLine s2 hlo2 hes2).bind ?_
        intro cmd cmd' s3 hcmd hlo3 hes3
        obtain ⟨b, s4, hp, hp', hlo4, hes4⟩ := peek_sim hl hlo3 hes3 [41]
        dsimp only
        rw [hp, hp']
        cases b with
        | false => rfl
        | true =>
          obtain ⟨tok, w, s5, t, hg, hg', -, hlo5, hes5⟩ := gettoken_sim hl hlo4 hes4
          dsimp only
          rw [hg, hg']
          refine (parseredirs_sim hl hlo5 hes5).bind ?_
          intro rs rs' s6 hrs hlo6 hes6
          exact Sim.ok (hcmd.wrap hrs) hlo6 hes6
    · intro s hlo hes
      obtain ⟨b, s1, hp, hp', hlo1, hes1⟩ := peek_sim hl hlo hes [40]
      rw [parseexec, Sh.parseexec, hp, hp']
      cases b with
      | true => exact ihBlock s1 hlo1 hes1
      | false =>
        refine (parseredirs_sim hl hlo1 hes1).bind ?_
        intro rs rs' s2 hrs hlo2 hes2
        refine (parseargs_sim hl hlo2 hes2).bind ?_
        intro a a' s3 ha hlo3 hes3
        exact Sim.ok ((Tree.exec ha.1).wrap (List.rel_append hrs ha.2)) hlo3 hes3

/-! ## nulterminate -/

def Cmd.words : Cmd → List Word
  | .exec argv => argv
  | .redir cmd r => cmd.words ++ [r.file]
  | .pipe left right => left.words ++ right.words
  | .list left right => left.words ++ right.words
  | .back cmd => cmd.words

theorem nulterminate_eq (cmd : Cmd) (m : Mem) : nulterminate cmd m = cmd.words.foldl (fun m w => upd m w.eq 0) m := by
  induction cmd generalizing m with
  | exec argv => rfl
  | redir cmd r ih => rw [nulterminate, Cmd.words, List.foldl_append, ih]; rfl
  | pipe left right ihl ihr | list left right ihl ihr => rw [nulterminate, Cmd.words, List.foldl_append, ihr, ihl]
  | back cmd ih => rw [nulterminate, Cmd.words, ih]

theorem foldl_out (h : ∀ w ∈ ws, w.eq ≠ i) : ws.foldl (fun m w => upd m w.eq 0) m i = m i := by
  induction ws generalizing m with
  | nil => rfl
  | cons w ws ih =>
    rw [List.foldl_cons, ih fun w hw => h w (List.mem_cons_of_mem _ hw)]
    exact upd_ne (Ne.symm (h w List.mem_cons_self)) _

theorem foldl_zero (h : m i = 0) : ws.foldl (fun m w => upd m w.eq 0) m i = 0 := by
  induction ws generalizing m with
  | nil => exact h
  | cons w ws ih =>
    apply ih
    show upd m w.eq 0 i = 0
    by_cases he : i = w.eq
    · rw [he, upd_same]
    · rw [upd_ne he]
      exact h

theorem foldl_end (h : w ∈ ws) : ws.foldl (fun m w => upd m w.eq 0) m w.eq = 0 := by
  induction ws generalizing m with
  | nil => cases h
  | cons v ws ih =>
    rw [List.foldl_cons]
    rcases List.mem_cons.mp h with rfl | h
    · exact foldl_zero (upd_same _ _ _)
    · exact ih h

theorem forall2_left {P : Word → Bytes → Prop} {ts : List Bytes} (h : List.Forall₂ P ws ts) :
    ∀ w ∈ ws, ∃ t, P w t := by
  induction h with
  | nil =>
    intro w hw
    cases hw
  | cons hp _ ih =>
    intro w hw
    rcases List.mem_cons.mp hw with rfl | hw
    · exact ⟨_, hp⟩
    · exact ih w hw

variable {P Q : Word → Bytes → Prop} {cmd : Cmd} {cmd' : Sh.Cmd}

theorem Tree.words (h : Tree P cmd cmd') : ∀ w ∈ cmd.words, ∃ t, P w t := by
  induction h with
  | exec h => exact forall2_left h
  | redir _ hr ih =>
    intro w hw
    rcases List.mem_append.mp hw with hw | hw
    · exact ih w hw
    · rw [List.mem_singleton.mp hw]
      exact ⟨_, hr.1⟩
  | pipe _ _ ihl ihr | list _ _ ihl ihr =>
    intro w hw
    rcases List.mem_append.mp hw with hw | hw
    · exact ihl w hw
    · exact ihr w hw
  | back _ ih => exact ih

theorem Tree.imp (h : Tree P cmd cmd') (hPQ : ∀ w ∈ cmd.words, ∀ t, P w t → Q w t) : Tree Q cmd cmd' := by
  induction h with
  | exec h =>
    refine .exec ?_
    induction h with
    | nil => exact .nil
    | cons hp _ ih =>
      refine .cons (hPQ _ List.mem_cons_self _ hp) (ih ?_)
      intro w hw
      exact hPQ w (List.mem_cons_of_mem _ hw)
  | redir _ hr ih =>
    refine .redir (ih ?_) ⟨hPQ _ (List.mem_append_right _ List.mem_cons_self) _ hr.1, hr.2⟩
    intro w hw
    exact hPQ w (List.mem_append_left _ hw)
  | pipe _ _ ihl ihr =>
    refine .pipe (ihl ?_) (ihr ?_)
    · intro w hw
      exact hPQ w (List.mem_append_left _ hw)
    · intro w hw
      exact hPQ w (List.mem_append_right _ hw)
  | list _ _ ihl ihr =>
    refine .list (ihl ?_) (ihr ?_)
    · intro w hw
      exact hPQ w (List.mem_append_left _ hw)
    · intro w hw
      exact hPQ w (List.mem_append_right _ hw)
  | back _ ih => exact .back (ih hPQ)

def StrAt (m : Mem) (p : Nat) (t : Bytes) : Prop := 0 ∉ t ∧ t = rest m (p + t.length) p ∧ m (p + t.length) = 0

/-- No end of a word lies within a word. -/
theorem Word.Ok.end_out {v : Word} (hw : w.Ok m lo es) (hv : v.Ok m lo es) (h1 : w.q ≤ i) (h2 : i < w.eq) :
    v.eq ≠ i := by
  intro he
  have hword := hw.all i h1 h2
  have hend := hw.le_end
  rcases hv.stop with hs | hs
  · omega
  · rw [he, hword] at hs
    cases hs

theorem rest_congr (h : ∀ i, s ≤ i → i < es → m' i = m i) : rest m' es s = rest m es s := by
  unfold rest
  apply List.map_congr_left
  intro i hi
  have := List.mem_range'_1.mp hi
  exact h i this.1 (by omega)

theorem nulterminate_strAt (hl : InLine m lo es) (hok : ∀ w ∈ cmd.words, w.Ok m lo es) (hw : w ∈ cmd.words) :
    StrAt (nulterminate cmd m) w.q (w.text m) := by
  have hwok := hok w hw
  have hlt := hwok.lt
  have hlen : w.q + (w.text m).length = w.eq := by
    unfold Word.text
    rw [length_rest]
    omega
  have hsame : ∀ i, w.q ≤ i → i < w.eq → nulterminate cmd m i = m i := by
    intro i h1 h2
    rw [nulterminate_eq]
    exact foldl_out fun v hv => hwok.end_out (hok v hv) h1 h2
  refine ⟨?_, ?_, ?_⟩
  · intro h0
    unfold Word.text rest at h0
    obtain ⟨i, hi, h0⟩ := List.mem_map.mp h0
    have hi := List.mem_range'_1.mp hi
    have h3 := hwok.lo_le
    have h4 := hwok.le_end
    exact hl.bytes i (by omega) (by omega) h0
  · rw [hlen, rest_congr hsame]
    rfl
  · rw [hlen, nulterminate_eq]
    exact foldl_end hw

theorem nulterminate_out (hok : ∀ w ∈ cmd.words, w.Ok m lo es) (hi : ¬ (lo ≤ i ∧ i ≤ es)) :
    nulterminate cmd m i = m i := by
  rw [nulterminate_eq]
  refine foldl_out ?_
  intro w hw he
  have h1 := (hok w hw).lo_le
  have h2 := (hok w hw).lt
  have h3 := (hok w hw).le_end
  omega

theorem parsecmd_sim (hl : InLine m lo es) :
    (∃ cmd cmd', parsecmd m lo es = .ok (cmd, nulterminate cmd m) ∧ Sh.parsecmd (rest m es lo) = .ok cmd' ∧
    Tree (IsText m lo es) cmd cmd') ∨ ∃ e, parsecmd m lo es = .error e ∧ Sh.parsecmd (rest m es lo) = .error e := by
  have hsim := (parse_sim hl (4 * (es - lo) + 5)).1 lo (Nat.le_refl lo) hl.le
  unfold parsecmd Sh.parsecmd
  rw [length_rest]
  cases h1 : parseline m es (4 * (es - lo) + 5) lo with
  | error e =>
    cases h2 : Sh.parseline (4 * (es - lo) + 5) (rest m es lo) with
    | error e' =>
      rw [h1, h2] at hsim
      cases hsim
      exact Or.inr ⟨e, rfl, rfl⟩
    | ok r =>
      rw [h1, h2] at hsim
      cases hsim
  | ok r =>
    obtain ⟨cmd, s⟩ := r
    cases h2 : Sh.parseline (4 * (es - lo) + 5) (rest m es lo) with
    | error e' =>
      rw [h1, h2] at hsim
      cases hsim
    | ok r =>
      obtain ⟨cmd', t⟩ := r
      rw [h1, h2] at hsim
      obtain ⟨htree, hlo1, hes1, rfl⟩ := hsim
      obtain ⟨b, s2, hp, hp', hlo2, hes2⟩ := peek_sim hl hlo1 hes1 []
      simp only [bind, Except.bind, hp, hp']
      by_cases hend : s2 = es
      · rw [if_neg (not_not.mpr hend), rest_nil (Nat.le_of_eq hend.symm)]
        exact Or.inl ⟨cmd, cmd', rfl, rfl, htree⟩
      · rw [if_pos hend, rest_cons (by omega)]
        exact Or.inr ⟨_, rfl, rfl⟩

/-- Behind `parsecmd`, every word is the string that was parsed for it, and the line's bytes are the only ones
    written. -/
theorem nulterminate_keeps_tokens {cmd : Cmd} (hl : InLine m lo es) (h : parsecmd m lo es = .ok (cmd, m')) :
    (∃ cmd', Sh.parsecmd (rest m es lo) = .ok cmd' ∧ Tree (fun w t => StrAt m' w.q t ∧ t = w.text m) cmd cmd') ∧
    ∀ i, ¬ (lo ≤ i ∧ i ≤ es) → m' i = m i := by
  rcases parsecmd_sim hl with ⟨c, c', h1, h2, htree⟩ | ⟨e, h1, -⟩
  · rw [h1] at h
    cases h
    have hok : ∀ w ∈ cmd.words, w.Ok m lo es := by
      intro w hw
      obtain ⟨t, ht⟩ := htree.words w hw
      exact ht.1
    refine ⟨⟨c', h2, htree.imp ?_⟩, ?_⟩
    · intro w hw t ht
      rw [ht.2]
      exact ⟨nulterminate_strAt hl hok hw, rfl⟩
    · intro i hi
      exact nulterminate_out hok hi
  · rw [h1] at h
    cases h

/-- "a>b|c" -/
def shortLine : Mem := fun i => [97, 62, 98, 124, 99].getD i 0

theorem nulterminate_keeps_tokens_short : ∃ cmd m', parsecmd shortLine 0 5 = .ok (cmd, m') ∧
    Tree (fun w t => StrAt m' w.q t ∧ t = w.text shortLine) cmd
      (.pipe (.redir (.exec [[97]]) ⟨[98], O_WRONLY ||| O_CREATE ||| O_TRUNC, 1⟩) (.exec [[99]])) := by
  have hline : InLine shortLine 0 5 := by
    have hall : ∀ i < 5, shortLine i ≠ 0 := by decide
    exact ⟨by decide, fun i _ hi => hall i hi, rfl⟩
  have hparse : Sh.parsecmd (rest shortLine 5 0) =
      .ok (.pipe (.redir (.exec [[97]]) ⟨[98], O_WRONLY ||| O_CREATE ||| O_TRUNC, 1⟩) (.exec [[99]])) := by
      decide +kernel
  have hok : (parsecmd shortLine 0 5).isOk = true := by decide +kernel
  cases h : parsecmd shortLine 0 5 with
  | error e =>
    rw [h] at hok
    cases hok
  | ok r =>
    obtain ⟨⟨cmd', h1, h2⟩, -⟩ := nulterminate_keeps_tokens hline h
    rw [hparse] at h1
    cases h1
    exact ⟨r.1, r.2, rfl, h2⟩

end Xv6.User.Sh.Buf
