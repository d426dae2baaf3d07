/-
  Xv6.User.ShGrammar — `parsecmd` of `Xv6.User.Sh` accepts exactly the lines of its grammar, and
  returns the tree of the derivation.

  `gettoken` and `peek` are followed on the tokens of the rest of the line (`gettoken_lex`,
  `peek_lex`). `gives` and `complete` go by induction on the fuel: `gives` has what a parser that
  returns has read, and that it does so with enough fuel, since every call is at fewer tokens or
  at less of it; `complete` has what may follow each phrase: a line ends at ')' or at the end, a
  pipe also at '&' and ';', a simple command also at '|'.
-/
import Xv6.User.Sh
import Mathlib

namespace Xv6.User.Sh

variable {s s' : Bytes} {c : UInt8} {t : Token} {α β : Type} {d : UInt8}

/-! ## Tokens -/

theorem lex_nil : lex [] = [] := by rw [lex]

theorem lex_space (h : isSpace c = true) : lex (c :: s) = lex s := by rw [lex.eq_def]; simp [h]

theorem lex_skip (s : Bytes) : lex (skip s) = lex s := by
  induction s with
  | nil => rfl
  | cons c s ih =>
    unfold skip at ih ⊢
    rw [List.dropWhile_cons]
    split
    · rename_i h
      rw [ih, lex_space h]
    · rfl

theorem skip_head {r : Bytes} (h : skip s = c :: r) : isSpace c = false := by
  have hne : s.dropWhile isSpace ≠ [] := by
    rw [← skip, h]
    simp
  have hd := List.head_dropWhile_not isSpace hne
  unfold skip at h
  simpa only [h, List.head_cons] using hd

theorem lex_symbol (hc : isSpace c = false) (h : symbolToken c s = some (t, s')) : lex (c :: s) = t :: lex s' := by
  rw [lex.eq_def]
  simp only [hc, Bool.false_eq_true, if_false]
  unfold symbolToken at h
  split at h
  · rename_i e; cases h; simp [e]
  split at h
  · rename_i e; cases h; simp [e]
  split at h
  · rename_i e; cases h; simp [e]
  split at h
  · rename_i e; cases h; simp [e]
  split at h
  · rename_i e; cases h; simp [e]
  split at h
  · rename_i e; cases h; simp [e]
  split at h
  · rename_i e
    rw [if_pos e]
    split at h
    · cases h
      rw [lex_nil]
    · split at h
      · rename_i d _ hd
        cases h
        simp [hd]
      · rename_i d _ hd
        cases h
        simp [hd]
  · cases h

theorem symbolToken_of_mem (h : c ∈ symbols) : symbolToken c s ≠ none := by
  have hc : c = 60 ∨ c = 124 ∨ c = 62 ∨ c = 38 ∨ c = 59 ∨ c = 40 ∨ c = 41 := by simpa [symbols] using h
  rcases hc with rfl | rfl | rfl | rfl | rfl | rfl | rfl <;> cases s <;> simp [symbolToken]
  split <;> simp

theorem lex_word (hc : isSpace c = false) (h : symbolToken c s = none) :
    lex (c :: s) = .word ((c :: s).takeWhile isWord) :: lex ((c :: s).dropWhile isWord) := by
  have hsym : c ∉ symbols := fun hm => symbolToken_of_mem hm h
  have hw : isWord c = true := by simpa [isWord, hc] using hsym
  simp only [symbols, List.mem_cons, List.not_mem_nil, or_false, not_or] at hsym
  obtain ⟨h1, h2, h3, h4, h5, h6, h7⟩ := hsym
  rw [lex.eq_def]
  simp [hc, h1, h2, h3, h4, h5, h6, h7, hw]

/-- `gettoken` takes the first token. -/
theorem gettoken_lex (s : Bytes) : (gettoken s = (none, []) ∧ lex s = []) ∨ ∃ t r, gettoken s = (some t, r) ∧
    lex s = t :: lex r := by
  rw [← lex_skip s]
  unfold gettoken
  cases hs : skip s with
  | nil => exact Or.inl ⟨rfl, lex_nil⟩
  | cons c r =>
    have hc := skip_head hs
    right
    cases ht : symbolToken c r with
    | some x =>
      obtain ⟨t, r'⟩ := x
      exact ⟨t, skip r', by simp only [ht], by rw [lex_skip]; exact lex_symbol hc ht⟩
    | none =>
      exact ⟨_, skip ((c :: r).dropWhile isWord), by simp only [ht]; rfl, by rw [lex_skip]; exact lex_word hc ht⟩

def Token.sym : Token → Option UInt8
  | .bar => some 124
  | .lparen => some 40
  | .rparen => some 41
  | .semi => some 59
  | .amp => some 38
  | .lt => some 60
  | .gt => some 62
  | .app => some 62
  | .word _ => none

def Token.among (t : Token) (toks : Bytes) : Bool :=
  match t.sym with
  | some c => toks.contains c
  | none => false

theorem symbolToken_sym (h : symbolToken c s = some (t, s')) : t.sym = some c := by
  unfold symbolToken at h
  repeat' split at h
  all_goals cases h
  all_goals simp [Token.sym, *]

/-- `peek` looks at the first token and leaves the tokens as they are. -/
theorem peek_lex {toks : Bytes} (ht : ∀ c ∈ toks, c ∈ symbols) (s : Bytes) : ∃ r, lex r = lex s ∧
    ((∃ t ts, peek s toks = (true, r) ∧ lex s = t :: ts ∧ t.among toks = true) ∨
      (peek s toks = (false, r) ∧ ∀ t ts, lex s = t :: ts → t.among toks = false)) := by
  unfold peek
  rw [← lex_skip s]
  cases hs : skip s with
  | nil => exact ⟨[], rfl, Or.inr ⟨rfl, fun t ts h => by rw [lex_nil] at h; cases h⟩⟩
  | cons c r =>
    have hc := skip_head hs
    refine ⟨c :: r, rfl, ?_⟩
    dsimp only
    cases hy : symbolToken c r with
    | some x =>
      obtain ⟨t, r'⟩ := x
      have hl := lex_symbol hc hy
      have hsym : t.among toks = toks.contains c := by rw [Token.among, symbolToken_sym hy]
      cases hm : toks.contains c with
      | true => exact Or.inl ⟨t, _, rfl, hl, by rw [hsym, hm]⟩
      | false =>
        refine Or.inr ⟨rfl, fun t' ts' h => ?_⟩
        rw [hl] at h
        cases h
        rw [hsym, hm]
    | none =>
      have hm : toks.contains c = false := by
        rw [← Bool.not_eq_true, List.contains_iff_mem]
        exact fun h => symbolToken_of_mem (ht c h) hy
      rw [hm]
      refine Or.inr ⟨rfl, fun t ts h => ?_⟩
      rw [lex_word hc hy] at h
      cases h
      rfl

theorem lex_length (s : Bytes) : (lex s).length ≤ s.length := by
  fun_induction lex s <;> simp_all <;> try omega
  · exact Nat.le_trans ‹_› (length_dropWhile_le _ _)

/-! ## Soundness -/

/-- The parser panics, or returns what `P` says; it runs out of fuel only where `b` fails. -/
def Gives (b : Prop) (P : α → Bytes → Prop) : Except Stop (α × Bytes) → Prop
  | .ok x => P x.1 x.2
  | .error .fuel => ¬ b
  | .error (.panic _) => True

/-- `x` is what the grammar `D` makes of the tokens between `s` and `s'`. -/
def Reads (D : List Token → α → Prop) (s : Bytes) (x : α) (s' : Bytes) : Prop := ∃ ts, lex s = ts ++ lex s' ∧ D ts x

theorem Gives.bind {a b : Prop} {P : α → Bytes → Prop} {Q : β → Bytes → Prop} {r : Except Stop (α × Bytes)}
    {f : α × Bytes → Except Stop (β × Bytes)} (h : Gives a P r) (hb : b → a)
    (hf : ∀ x s', P x s' → Gives b Q (f (x, s'))) : Gives b Q (r >>= f) := by
  cases r with
  | ok x => exact hf x.1 x.2 h
  | error e =>
    cases e with
    | fuel => exact fun h' => h (hb h')
    | panic p => trivial

theorem Gives.mono {a b : Prop} {P Q : α → Bytes → Prop} {r : Except Stop (α × Bytes)} (h : Gives a P r) (hb : b → a)
    (hf : ∀ x s', P x s' → Q x s') : Gives b Q r := by
  rw [← bind_pure r]
  exact h.bind hb hf

theorem Gives.pure {b : Prop} {P : α → Bytes → Prop} {x : α} (h : P x s) : Gives b P (Pure.pure (x, s)) := h

theorem Reads.length_le {D : List Token → α → Prop} {x : α} (h : Reads D s x s') :
    (lex s').length ≤ (lex s).length := by
  obtain ⟨ts, hl, -⟩ := h
  rw [hl, List.length_append]
  omega

theorem mem_of_all {xs ys : Bytes} (h : xs.all ys.contains = true) (c : UInt8) (hc : c ∈ xs) : c ∈ ys :=
  List.contains_iff_mem.mp (List.all_eq_true.mp h c hc)

theorem redirOps (c : UInt8) (h : c ∈ [60, 62]) : c ∈ symbols := mem_of_all (by decide) c h
theorem argStops (c : UInt8) (h : c ∈ [124, 41, 38, 59]) : c ∈ symbols := mem_of_all (by decide) c h
theorem single (hd : d ∈ symbols) (c : UInt8) (h : c ∈ [d]) : c ∈ symbols := by
  rw [List.mem_singleton.mp h]
  exact hd

/-- The token that is one given symbol. -/
theorem among_single {u : Token} (h : t.among [d] = true) (hu : u.sym = some d) (hd : d ≠ 62) : t = u := by
  cases u <;> cases hu <;> cases t <;> first | rfl | exact absurd h (by decide) | exact absurd rfl hd | cases h

variable {n : Nat} {ts ts' rest : List Token} {cmd cmd' : Cmd} {rs rs' : List Redir} {argv : List Bytes}
  {argc : Nat}

theorem among_redir {f : Bytes} (h : t.among [60, 62] = true) : ∃ r, redirOf (some t) f = [r] ∧ RedirOp t f r := by
  cases t <;> simp_all [Token.among, Token.sym]
  · exact ⟨_, rfl, .lt f⟩
  · exact ⟨_, rfl, .gt f⟩
  · exact ⟨_, rfl, .app f⟩

theorem parseredirs_gives : Gives ((lex s).length < n) (Reads Redirs s) (parseredirs n s) := by
  induction n generalizing s with
  | zero => exact Nat.not_lt_zero _
  | succ n ih =>
    unfold parseredirs
    obtain ⟨r, hr, ⟨t, ts, hp, hl, ha⟩ | ⟨hp, -⟩⟩ := peek_lex redirOps s
    · obtain ⟨-, hn⟩ | ⟨u, r1, hg, hl1⟩ := gettoken_lex r
      · rw [hr, hl] at hn
        cases hn
      · rw [hr, hl] at hl1
        cases hl1
        obtain ⟨hg2, -⟩ | ⟨u2, r2, hg2, hl2⟩ := gettoken_lex r1
        · simp only [hp, hg, hg2]
          trivial
        · simp only [hp, hg, hg2]
          rw [hl2] at hl
          cases u2 with
          | word f =>
            have hlen : (lex s).length = (lex r2).length + 2 := by rw [hl]; rfl
            refine ih.bind (fun h => by omega) ?_
            rintro rs1 s1 ⟨ts1, hts, hd⟩
            obtain ⟨rd, hrd, hop⟩ := among_redir (f := f) ha
            refine Gives.pure ⟨t :: .word f :: ts1, by rw [hl, hts]; rfl, ?_⟩
            rw [hrd]
            exact .cons hop hd
          | _ => trivial
    · rw [hp]
      exact ⟨[], hr.symm, .nil⟩

theorem parseargs_gives (hn : argc < MAXARGS) : Gives ((lex s).length < n)
    (Reads (fun ts x => Args ts x.1 x.2 ∧ argc + x.1.length < MAXARGS) s) (parseargs n argc s) := by
  induction n generalizing s argc with
  | zero => exact Nat.not_lt_zero _
  | succ n ih =>
    unfold parseargs
    obtain ⟨r, hr, ⟨t, ts, hp, -, -⟩ | ⟨hp, -⟩⟩ := peek_lex argStops s
    · rw [hp]
      exact ⟨[], hr.symm, .nil, hn⟩
    · obtain ⟨hg, hl⟩ | ⟨u, r1, hg, hl⟩ := gettoken_lex r
      · simp only [hp, hg]
        exact ⟨[], by rw [← hr, hl, lex_nil]; rfl, .nil, hn⟩
      · simp only [hp, hg]
        rw [hr] at hl
        cases u with
        | word w =>
          dsimp only
          split
          · trivial
          · rename_i hlt
            have hlen : (lex s).length = (lex r1).length + 1 := by rw [hl]; rfl
            refine parseredirs_gives.bind (fun h => by omega) fun rs1 s1 h1 => ?_
            have hle := h1.length_le
            obtain ⟨ts1, hts1, hd1⟩ := h1
            dsimp only
            refine (ih (Nat.lt_of_not_le hlt)).bind (fun h => by omega) ?_
            rintro ⟨ws, rs2⟩ s2 ⟨ts2, hts2, hd2, hlen2⟩
            refine Gives.pure ⟨.word w :: (ts1 ++ ts2), ?_, .cons hd1 hd2,
              by simp only [List.length_cons] at hlen2 ⊢; omega⟩
            rw [hl, hts1, hts2, List.cons_append, List.append_assoc]
        | _ => trivial

theorem backs_back (k : Nat) (cmd : Cmd) : backs k (.back cmd) = backs (k + 1) cmd := by
  induction k with
  | zero => rfl
  | succ k ih => exact congrArg Cmd.back ih

/-- `peek` for one symbol, and the `gettoken` after it. -/
theorem peek_single (u : Token) (hu : u.sym = some d) (hd : d ≠ 62) (s : Bytes) :
    (∃ r r', peek s [d] = (true, r) ∧ gettoken r = (some u, r') ∧ lex s = u :: lex r' ∧ lex r = lex s) ∨
      ∃ r, peek s [d] = (false, r) ∧ lex r = lex s ∧ ∀ ts, lex s ≠ u :: ts := by
  have hsym : d ∈ symbols := by
    cases u <;> cases hu <;> decide
  obtain ⟨r, hr, ⟨t, ts, hp, hl, ha⟩ | ⟨hp, hne⟩⟩ := peek_lex (single hsym) s
  · left
    have ht := among_single ha hu hd
    subst ht
    obtain ⟨-, hn⟩ | ⟨v, r1, hg, hl1⟩ := gettoken_lex r
    · rw [hr, hl] at hn
      cases hn
    · rw [hr, hl] at hl1
      cases hl1
      exact ⟨r, r1, hp, hg, hl, hr⟩
  · right
    refine ⟨r, hp, hr, fun ts hl => ?_⟩
    have := hne u ts hl
    simp [Token.among, hu] at this

theorem parsebacks_gives : Gives ((lex s).length < n)
    (Reads (fun ts c => ∃ k, ts = List.replicate k .amp ∧ c = backs k cmd) s) (parsebacks n cmd s) := by
  induction n generalizing s cmd with
  | zero => exact Nat.not_lt_zero _
  | succ n ih =>
    unfold parsebacks
    obtain ⟨r, r', hp, hg, hl, -⟩ | ⟨r, hp, hr, -⟩ := peek_single .amp rfl (by decide) s
    · simp only [hp, hg]
      have hlen : (lex s).length = (lex r').length + 1 := by rw [hl]; rfl
      refine (ih (s := r')).mono (fun h => by omega) ?_
      rintro c s1 ⟨ts, hts, k, rfl, rfl⟩
      exact ⟨_, by rw [hl, hts]; rfl, k + 1, rfl, backs_back k cmd⟩
    · rw [hp]
      exact ⟨[], hr.symm, 0, rfl, rfl⟩

theorem gives (n : Nat) :
    (∀ {s}, Gives (4 * (lex s).length + 4 ≤ n) (Reads Line s) (parseline n s)) ∧
    (∀ {s}, Gives (4 * (lex s).length + 3 ≤ n) (Reads Pipe s) (parsepipe n s)) ∧
    (∀ {s}, Gives (4 * (lex s).length + 1 ≤ n) (Reads Exec s) (parseblock n s)) ∧
    ∀ {s}, Gives (4 * (lex s).length + 2 ≤ n) (Reads Exec s) (parseexec n s) := by
  induction n with
  | zero =>
    refine ⟨fun {s} => ?_, fun {s} => ?_, fun {s} => ?_, fun {s} => ?_⟩
    · rw [parseline]; exact Nat.not_succ_le_zero _
    · rw [parsepipe]; exact Nat.not_succ_le_zero _
    · rw [parseblock]; exact Nat.not_succ_le_zero _
    · rw [parseexec]; exact Nat.not_succ_le_zero _
  | succ n ih =>
    obtain ⟨line, pipe, block, exec⟩ := ih
    refine ⟨fun {s} => ?_, fun {s} => ?_, fun {s} => ?_, fun {s} => ?_⟩
    · rw [parseline]
      refine pipe.bind (fun h => by omega) fun c1 s1 h1 => ?_
      have hle1 := h1.length_le
      obtain ⟨ts1, hl1, hd1⟩ := h1
      refine parsebacks_gives.bind (fun h => by omega) fun c2 s2 h2 => ?_
      have hle2 := h2.length_le
      obtain ⟨_, hl2, k, rfl, rfl⟩ := h2
      obtain ⟨r, r', hp, hg, hl, -⟩ | ⟨r, hp, hr, -⟩ := peek_single .semi rfl (by decide) s2
      · simp only [hp, hg]
        rw [hl, List.length_cons] at hle2
        refine line.bind (fun h => by omega) ?_
        rintro c3 s3 ⟨ts3, hl3, hd3⟩
        refine Gives.pure ⟨_, ?_, .seq k hd1 hd3⟩
        rw [hl1, hl2, hl, hl3]
        simp only [List.append_assoc, List.cons_append]
      · simp only [hp]
        refine Gives.pure ⟨_, ?_, .one k hd1⟩
        rw [hl1, hl2, hr, List.append_assoc]
    · rw [parsepipe]
      refine exec.bind (fun h => by omega) fun c1 s1 h1 => ?_
      have hle1 := h1.length_le
      obtain ⟨ts1, hl1, hd1⟩ := h1
      obtain ⟨r, r', hp, hg, hl, -⟩ | ⟨r, hp, hr, -⟩ := peek_single .bar rfl (by decide) s1
      · simp only [hp, hg]
        rw [hl, List.length_cons] at hle1
        refine pipe.bind (fun h => by omega) ?_
        rintro c3 s3 ⟨ts3, hl3, hd3⟩
        refine Gives.pure ⟨_, ?_, .bar hd1 hd3⟩
        rw [hl1, hl, hl3, List.append_assoc]
        rfl
      · simp only [hp]
        exact Gives.pure ⟨ts1, by rw [hl1, hr], .one hd1⟩
    · rw [parseblock]
      obtain ⟨r, r', hp, hg, hl, -⟩ | ⟨r, hp, hr, -⟩ := peek_single .lparen rfl (by decide) s
      · simp only [hp, hg]
        have hlen : (lex s).length = (lex r').length + 1 := by rw [hl]; rfl
        refine line.bind (fun h => by omega) fun c1 s1 h1 => ?_
        have hle1 := h1.length_le
        obtain ⟨ts1, hl1, hd1⟩ := h1
        obtain ⟨r2, r2', hp2, hg2, hl2, -⟩ | ⟨r2, hp2, -, -⟩ := peek_single .rparen rfl (by decide) s1
        · simp only [hp2, hg2]
          rw [hl2, List.length_cons] at hle1
          refine parseredirs_gives.bind (fun h => by omega) ?_
          rintro rs s3 ⟨ts3, hl3, hd3⟩
          refine Gives.pure ⟨_, ?_, .block hd1 hd3⟩
          rw [hl, hl1, hl2, hl3]
          simp only [List.append_assoc, List.cons_append]
        · simp only [hp2]
          trivial
      · simp only [hp]
        trivial
    · rw [parseexec]
      obtain ⟨r, r', hp, -, hl, hr⟩ | ⟨r, hp, hr, -⟩ := peek_single .lparen rfl (by decide) s
      · simp only [hp]
        refine block.mono (fun h => by rw [hr]; omega) ?_
        rintro c1 s1 ⟨ts1, hl1, hd1⟩
        exact ⟨ts1, hr.symm.trans hl1, hd1⟩
      · simp only [hp]
        refine parseredirs_gives.bind (fun h => by rw [hr]; omega) fun rs1 s1 h1 => ?_
        have hle1 := h1.length_le
        obtain ⟨ts1, hl1, hd1⟩ := h1
        rw [hr] at hle1 hl1
        dsimp only
        refine (parseargs_gives (by decide)).bind (fun h => by omega) ?_
        rintro ⟨ws, rs2⟩ s2 ⟨ts2, hl2, hd2, hlen⟩
        refine Gives.pure ⟨_, ?_, .simple hd1 hd2 (by simp only [MAXARGS] at *; omega)⟩
        rw [hl1, hl2, List.append_assoc]

/-! ## Completeness -/

/-- What may follow a phrase: the end of the line, or one of the symbols `toks`. -/
def Follows (toks : Bytes) (rest : List Token) : Prop := ∀ t ts, rest = t :: ts → t.among toks = true

theorem Follows.mono {toks toks' : Bytes} (h : Follows toks rest) (hs : ∀ c ∈ toks, c ∈ toks') : Follows toks' rest :=
  fun t ts e => by
    have := h t ts e
    unfold Token.among at *
    split at this
    · rw [List.contains_iff_mem] at *
      exact hs _ this
    · cases this

/-- A parser runs out of fuel, or returns `x` before the tokens `rest`. -/
def Yields {α : Type} (r : Except Stop (α × Bytes)) (x : α) (rest : List Token) : Prop :=
  r = .error .fuel ∨ ∃ s', r = .ok (x, s') ∧ lex s' = rest

theorem Yields.bind {r : Except Stop (α × Bytes)} {f : α × Bytes → Except Stop (β × Bytes)} {x : α} {y : β}
    (h : Yields r x rest) (hf : ∀ s', lex s' = rest → Yields (f (x, s')) y ts) : Yields (r >>= f) y ts := by
  rcases h with rfl | ⟨s', rfl, hl⟩
  · exact Or.inl rfl
  · exact hf s' hl

theorem Yields.pure {x : α} (h : lex s = rest) : Yields (Pure.pure (x, s)) x rest := Or.inr ⟨s, rfl, h⟩

theorem among_op {f : Bytes} {r : Redir} (h : RedirOp t f r) :
    t.among [60, 62] = true ∧ redirOf (some t) f = [r] := by
  cases h <;> exact ⟨rfl, rfl⟩

theorem parseredirs_complete (hd : Redirs ts rs) (hl : lex s = ts ++ rest)
    (hr : ∀ t r, rest = t :: r → t.among [60, 62] = false) : Yields (parseredirs n s) rs rest := by
  induction hd generalizing n s with
  | nil =>
    cases n with
    | zero => exact Or.inl rfl
    | succ n =>
      unfold parseredirs
      obtain ⟨r, hlr, ⟨t, ts, hp, hlt, ha⟩ | ⟨hp, -⟩⟩ := peek_lex redirOps s
      · rw [hr t ts (by rw [← hlt, hl]; rfl)] at ha
        cases ha
      · rw [hp]
        exact Or.inr ⟨r, rfl, by rw [hlr, hl]; rfl⟩
  | @cons op f rd ts rs hop hd ih =>
    cases n with
    | zero => exact Or.inl rfl
    | succ n =>
      unfold parseredirs
      obtain ⟨ha, hrd⟩ := among_op hop
      obtain ⟨r, hlr, ⟨t, ts', hp, -, -⟩ | ⟨hp, hne⟩⟩ := peek_lex redirOps s
      · obtain ⟨-, hn⟩ | ⟨u, r1, hg, hl1⟩ := gettoken_lex r
        · rw [hlr, hl] at hn
          cases hn
        · rw [hlr, hl] at hl1
          injection hl1 with e1 e2
          subst e1
          obtain ⟨-, hn⟩ | ⟨u2, r2, hg2, hl2⟩ := gettoken_lex r1
          · rw [← e2] at hn
            cases hn
          · rw [← e2] at hl2
            injection hl2 with e3 e4
            subst e3
            simp only [hp, hg, hg2]
            refine (ih (n := n) (s := r2) e4.symm).bind fun s' hs' => ?_
            dsimp only
            rw [hrd]
            exact .pure hs'
      · rw [hne op _ hl] at ha
        cases ha

theorem args_head {r : List Token} (hd : Args ts argv rs) (hf : Follows [124, 41, 38, 59] rest)
    (hl : ts ++ rest = t :: r) : t.among [60, 62] = false ∧ t ≠ .lparen := by
  cases hd with
  | nil =>
    have := hf t r hl
    cases t <;> simp [Token.among, Token.sym] at this <;> exact ⟨rfl, by simp⟩
  | cons hd1 hd2 =>
    cases hl
    exact ⟨rfl, by simp⟩

theorem parseargs_complete (hd : Args ts argv rs) (hl : lex s = ts ++ rest) (hf : Follows [124, 41, 38, 59] rest)
    (hn : argc + argv.length < MAXARGS) : Yields (parseargs n argc s) (argv, rs) rest := by
  induction hd generalizing n s argc with
  | nil =>
    cases n with
    | zero => exact Or.inl rfl
    | succ n =>
      unfold parseargs
      rw [List.nil_append] at hl
      obtain ⟨r, hlr, ⟨t, ts, hp, hlt, ha⟩ | ⟨hp, hne⟩⟩ := peek_lex argStops s
      · rw [hp]
        exact Or.inr ⟨r, rfl, by rw [hlr, hl]⟩
      · obtain ⟨hg, hl1⟩ | ⟨u, r1, hg, hl1⟩ := gettoken_lex r
        · simp only [hp, hg]
          exact Or.inr ⟨[], rfl, by rw [lex_nil, ← hl1, hlr, hl]⟩
        · rw [hlr] at hl1
          have := hf u _ (hl.symm.trans hl1)
          rw [hne u _ hl1] at this
          cases this
  | @cons w ts1 ts2 ws rs1 rs2 hd1 hd2 ih =>
    cases n with
    | zero => exact Or.inl rfl
    | succ n =>
      unfold parseargs
      rw [List.cons_append, List.append_assoc] at hl
      obtain ⟨r, hlr, ⟨t, ts, hp, hlt, ha⟩ | ⟨hp, -⟩⟩ := peek_lex argStops s
      · rw [hl] at hlt
        cases hlt
        cases ha
      · obtain ⟨-, hn'⟩ | ⟨u, r1, hg, hl1⟩ := gettoken_lex r
        · rw [hlr, hl] at hn'
          cases hn'
        · rw [hlr, hl] at hl1
          injection hl1 with e1 e2
          subst e1
          rw [List.length_cons] at hn
          simp only [hp, hg, if_neg (show ¬ MAXARGS ≤ argc + 1 by omega)]
          refine (parseredirs_complete (n := n) hd1 e2.symm fun t r h => (args_head hd2 hf h).1).bind fun s1 hs1 => ?_
          have hargc : argc + 1 + ws.length < MAXARGS := by omega
          refine (ih (n := n) hs1 hargc).bind fun s2 hs2 => ?_
          exact .pure hs2

theorem parsebacks_complete {k : Nat} (hl : lex s = List.replicate k .amp ++ rest) (hf : Follows [41, 59] rest) :
    Yields (parsebacks n cmd s) (backs k cmd) rest := by
  induction n generalizing k s cmd with
  | zero => exact Or.inl rfl
  | succ n ih =>
    unfold parsebacks
    obtain ⟨r, r', hp, hg, hl1, -⟩ | ⟨r, hp, hr, hne⟩ := peek_single .amp rfl (by decide) s
    · cases k with
      | zero =>
        have := hf .amp (lex r') (by rw [← hl1, hl]; rfl)
        cases this
      | succ k =>
        rw [hl1] at hl
        injection hl with _ hl
        simp only [hp, hg]
        rw [← backs_back]
        exact ih hl
    · cases k with
      | zero =>
        simp only [hp]
        exact Or.inr ⟨r, rfl, by rw [hr, hl]; rfl⟩
      | succ k => exact absurd hl (hne _)

theorem complete (n : Nat) :
    (∀ {s ts rest cmd}, Line ts cmd → lex s = ts ++ rest → Follows [41] rest → Yields (parseline n s) cmd rest) ∧
    (∀ {s ts rest cmd}, Pipe ts cmd → lex s = ts ++ rest → Follows [41, 38, 59] rest →
      Yields (parsepipe n s) cmd rest) ∧
    (∀ {s ts ts' rest cmd rs}, Line ts cmd → Redirs ts' rs → lex s = .lparen :: (ts ++ .rparen :: ts') ++ rest →
      Follows [124, 41, 38, 59] rest → Yields (parseblock n s) (wrap cmd rs) rest) ∧
    ∀ {s ts rest cmd}, Exec ts cmd → lex s = ts ++ rest → Follows [124, 41, 38, 59] rest →
      Yields (parseexec n s) cmd rest := by
  induction n with
  | zero =>
    refine ⟨fun _ _ _ => ?_, fun _ _ _ => ?_, fun _ _ _ _ => ?_, fun _ _ _ => ?_⟩
    · rw [parseline]; exact Or.inl rfl
    · rw [parsepipe]; exact Or.inl rfl
    · rw [parseblock]; exact Or.inl rfl
    · rw [parseexec]; exact Or.inl rfl
  | succ n ih =>
    obtain ⟨line, pipe, block, exec⟩ := ih
    -- what follows a symbol that ends a phrase
    have cons : ∀ {toks t r}, t.among toks = true → Follows toks (t :: r) := fun h u us e => by
      cases e
      exact h
    have amps : ∀ {k rest}, Follows [41, 59] rest → Follows [41, 38, 59] (List.replicate k .amp ++ rest) :=
        fun {k rest} h => by
      cases k with
      | zero => exact h.mono (mem_of_all (by decide))
      | succ k => exact cons rfl
    refine ⟨fun {s ts rest cmd} hd hl hf => ?_, fun {s ts rest cmd} hd hl hf => ?_,
      fun {s ts ts' rest cmd rs} hd hd' hl hf => ?_, fun {s ts rest cmd} hd hl hf => ?_⟩
    · rw [parseline]
      cases hd with
      | @one ts c k hd =>
        rw [List.append_assoc] at hl
        have hf' : Follows [41, 59] rest := hf.mono (mem_of_all (by decide))
        refine (pipe hd hl (amps hf')).bind fun s1 hs1 => (parsebacks_complete hs1 hf').bind fun s2 hs2 => ?_
        obtain ⟨r, r', hp, hg, hl1, -⟩ | ⟨r, hp, hr, -⟩ := peek_single .semi rfl (by decide) s2
        · rw [hs2] at hl1
          cases hf _ _ hl1
        · simp only [hp]
          exact .pure (hr.trans hs2)
      | @seq ts ts' c c' k hd hd' =>
        rw [List.append_assoc, List.append_assoc, List.cons_append] at hl
        have hf' : Follows [41, 59] (.semi :: (ts' ++ rest)) := cons rfl
        refine (pipe hd hl (amps hf')).bind fun s1 hs1 => (parsebacks_complete hs1 hf').bind fun s2 hs2 => ?_
        obtain ⟨r, r', hp, hg, hl1, -⟩ | ⟨r, hp, hr, hne⟩ := peek_single .semi rfl (by decide) s2
        · simp only [hp, hg]
          rw [hs2] at hl1
          injection hl1 with _ hl1
          exact (line hd' hl1.symm hf).bind fun s3 hs3 => .pure hs3
        · exact absurd hs2 (hne _)
    · rw [parsepipe]
      cases hd with
      | one hd =>
        refine (exec hd hl (hf.mono (mem_of_all (by decide)))).bind fun s1 hs1 => ?_
        obtain ⟨r, r', hp, hg, hl1, -⟩ | ⟨r, hp, hr, -⟩ := peek_single .bar rfl (by decide) s1
        · rw [hs1] at hl1
          cases hf _ _ hl1
        · simp only [hp]
          exact .pure (hr.trans hs1)
      | @bar ts ts' c c' hd hd' =>
        rw [List.append_assoc, List.cons_append] at hl
        refine (exec hd hl (cons rfl)).bind fun s1 hs1 => ?_
        obtain ⟨r, r', hp, hg, hl1, -⟩ | ⟨r, hp, hr, hne⟩ := peek_single .bar rfl (by decide) s1
        · simp only [hp, hg]
          rw [hs1] at hl1
          injection hl1 with _ hl1
          exact (pipe hd' hl1.symm hf).bind fun s3 hs3 => .pure hs3
        · exact absurd hs1 (hne _)
    · rw [parseblock]
      rw [List.cons_append, List.append_assoc, List.cons_append] at hl
      obtain ⟨r, r', hp, hg, hl1, -⟩ | ⟨r, hp, hr, hne⟩ := peek_single .lparen rfl (by decide) s
      · simp only [hp, hg]
        rw [hl] at hl1
        injection hl1 with _ hl1
        refine (line hd hl1.symm (cons rfl)).bind fun s1 hs1 => ?_
        obtain ⟨r2, r2', hp2, hg2, hl2, -⟩ | ⟨r2, hp2, -, hne2⟩ := peek_single .rparen rfl (by decide) s1
        · simp only [hp2, hg2]
          rw [hs1] at hl2
          injection hl2 with _ hl2
          have hstop : ∀ t r, rest = t :: r → t.among [60, 62] = false := fun t r e => (args_head .nil hf e).1
          exact (parseredirs_complete hd' hl2.symm hstop).bind fun s3 hs3 => .pure hs3
        · exact absurd hs1 (hne2 _)
      · exact absurd hl (hne _)
    · rw [parseexec]
      cases hd with
      | @block ts ts' c rs hd hd' =>
        obtain ⟨r, r', hp, hg, hl1, hr⟩ | ⟨r, hp, hr, hne⟩ := peek_single .lparen rfl (by decide) s
        · simp only [hp]
          exact block hd hd' (hr.trans hl) hf
        · exact absurd hl (hne _)
      | @simple ts ts' rs rs' argv hd hd' hlen =>
        rw [List.append_assoc] at hl
        obtain ⟨r, r', hp, hg, hl1, hr⟩ | ⟨r, hp, hr, -⟩ := peek_single .lparen rfl (by decide) s
        · rw [hl] at hl1
          exfalso
          cases hd with
          | nil => exact (args_head hd' hf hl1).2 rfl
          | cons hop _ =>
            injection hl1 with e
            rw [e] at hop
            cases hop
        · simp only [hp]
          refine (parseredirs_complete hd (hr.trans hl) fun t r h => (args_head hd' hf h).1).bind fun s1 hs1 => ?_
          refine (parseargs_complete hd' hs1 hf (by simp only [MAXARGS] at *; omega)).bind fun s2 hs2 => ?_
          exact .pure hs2

/-! ## parsecmd -/

theorem peek_end (s : Bytes) : (∃ b, peek s [] = (b, []) ∧ lex s = []) ∨ ∃ b c r, peek s [] = (b, c :: r) ∧
    lex s ≠ [] := by
  unfold peek
  rw [← lex_skip s]
  cases hs : skip s with
  | nil => exact Or.inl ⟨false, rfl, lex_nil⟩
  | cons c r =>
    refine Or.inr ⟨false, c, r, rfl, fun h => ?_⟩
    have hc := skip_head hs
    cases hy : symbolToken c r with
    | some x =>
      have hx : lex (c :: r) = x.1 :: lex x.2 := lex_symbol hc hy
      rw [hx] at h
      cases h
    | none => rw [lex_word hc hy] at h; cases h

theorem parseline_gives (s : Bytes) : Gives True (Reads Line s) (parseline (4 * s.length + 5) s) :=
  ((gives _).1 (s := s)).mono (fun _ => by have := lex_length s; omega) fun _ _ h => h

theorem parsecmd_returns (s : Bytes) : (∃ p, parsecmd s = .error (.panic p)) ∨ ∃ cmd, parsecmd s = .ok cmd := by
  have hg := parseline_gives s
  unfold parsecmd
  cases hl : parseline (4 * s.length + 5) s with
  | error e =>
    rw [hl] at hg
    cases e with
    | fuel => exact absurd trivial hg
    | panic p => exact Or.inl ⟨p, rfl⟩
  | ok x =>
    obtain ⟨cmd, s'⟩ := x
    obtain ⟨b, hp, -⟩ | ⟨b, c, r, hp, -⟩ := peek_end s'
    · exact Or.inr ⟨cmd, by simp [bind, Except.bind, hp, pure, Except.pure]⟩
    · exact Or.inl ⟨.leftovers, by simp [bind, Except.bind, hp]⟩

theorem parsecmd_iff (s : Bytes) (cmd : Cmd) : parsecmd s = .ok cmd ↔ Line (lex s) cmd := by
  have hg := parseline_gives s
  constructor
  · intro h
    unfold parsecmd at h
    cases hl : parseline (4 * s.length + 5) s with
    | error e =>
      rw [hl] at h
      cases h
    | ok x =>
      rw [hl] at h hg
      obtain ⟨c, s'⟩ := x
      obtain ⟨ts, hts, hd⟩ := hg
      obtain ⟨b, hp, hn⟩ | ⟨b, c', r, hp, -⟩ := peek_end s'
      · simp only [bind, Except.bind, hp] at h
        cases h
        rwa [hts, hn, List.append_nil]
      · simp only [bind, Except.bind, hp] at h
        cases h
  · intro hd
    obtain h | ⟨s', h, hn⟩ := (complete (4 * s.length + 5)).1 hd (List.append_nil _).symm (fun t r e => nomatch e)
    · rw [h] at hg
      exact absurd trivial hg
    · unfold parsecmd
      obtain ⟨b, hp, -⟩ | ⟨b, c', r, hp, hne⟩ := peek_end s'
      · simp [h, bind, Except.bind, hp, pure, Except.pure]
      · exact absurd hn hne

/-- `parsecmd` returns a tree exactly when the line derives it, and panics on every other line. -/
theorem parser_accepts_grammar (s : Bytes) : (∀ cmd, parsecmd s = .ok cmd ↔ Line (lex s) cmd) ∧
    ((∃ p, parsecmd s = .error (.panic p)) ↔ ∀ cmd, ¬ Line (lex s) cmd) := by
  refine ⟨parsecmd_iff s, fun ⟨p, hp⟩ cmd hd => ?_, fun hno => ?_⟩
  · rw [(parsecmd_iff s cmd).mpr hd] at hp
    cases hp
  · rcases parsecmd_returns s with hp | ⟨cmd, hc⟩
    · exact hp
    · exact absurd ((parsecmd_iff s cmd).mp hc) (hno cmd)

/-- "(a<f;b)>>g&" -/
example : parsecmd [40, 97, 60, 102, 59, 98, 41, 62, 62, 103, 38] =
    .ok (.back (.redir (.list (.redir (.exec [[97]]) ⟨[102], 0, 0⟩) (.exec [[98]])) ⟨[103], 0x201, 1⟩)) := by
    decide +kernel

end Xv6.User.Sh
