/-
  Xv6.User.Sh — the parser of the shell, user/sh.c: `gettoken`, `peek` and the recursive descent
  from `parsecmd` down.

  A line is its bytes before the NUL. A pointer into it is the rest of the line from there on;
  `es`, where the NUL is, is the end of the list. A word is its bytes `[q, eq)`, which `nulterminate` ends with
  a NUL. `parseexec` fills `argv` in through `cmd` while `ret` already wraps that node in
  `redircmd`s, so the redirections are collected in order and wrapped at the end (`wrap`).
  `malloc` does not fail here.

  The functions have fuel; `Xv6.User.ShGrammar` shows that what `parsecmd` gives them is enough.
-/
import Mathlib

namespace Xv6.User.Sh

abbrev Bytes := List UInt8

abbrev MAXARGS : Nat := 10

/-- " \t\r\n\v" -/
def whitespace : Bytes := [32, 9, 13, 10, 11]

/-- "<|>&;()" -/
def symbols : Bytes := [60, 124, 62, 38, 59, 40, 41]

def isSpace (c : UInt8) : Bool := whitespace.contains c

def isWord (c : UInt8) : Bool := !isSpace c && !symbols.contains c

/-- What `gettoken` returns; `word` is 'a' with `*q` and `*eq`, `app` is '+'. -/
inductive Token where
  | bar
  | lparen
  | rparen
  | semi
  | amp
  | lt
  | gt
  | app
  | word (w : Bytes)
  deriving DecidableEq, Repr

def skip (s : Bytes) : Bytes := s.dropWhile isSpace

/-- The token that starts with a symbol, and what is behind it. -/
def symbolToken (c : UInt8) (s : Bytes) : Option (Token × Bytes) :=
  if c = 124 then some (.bar, s)
  else if c = 40 then some (.lparen, s)
  else if c = 41 then some (.rparen, s)
  else if c = 59 then some (.semi, s)
  else if c = 38 then some (.amp, s)
  else if c = 60 then some (.lt, s)
  else if c = 62 then
    match s with
    | [] => some (.gt, [])
    | d :: s' => if d = 62 then some (.app, s') else some (.gt, s)
  else none

/-- `none` is the 0 at the end of the line. -/
def gettoken (s : Bytes) : Option Token × Bytes :=
  match skip s with
  | [] => (none, [])
  | c :: s =>
    match symbolToken c s with
    | some (t, s) => (some t, skip s)
    | none => (some (.word ((c :: s).takeWhile isWord)), skip ((c :: s).dropWhile isWord))

def peek (s toks : Bytes) : Bool × Bytes :=
  match skip s with
  | [] => (false, [])
  | c :: s => (toks.contains c, c :: s)

/-! ## Commands -/

abbrev O_RDONLY : Nat := 0x000
abbrev O_WRONLY : Nat := 0x001
abbrev O_CREATE : Nat := 0x200
abbrev O_TRUNC : Nat := 0x400

structure Redir where
  file : Bytes
  mode : Nat
  fd : Nat
  deriving DecidableEq, Repr

inductive Cmd where
  /-- `argv`, up to its terminating 0 -/
  | exec (argv : List Bytes)
  | redir (cmd : Cmd) (r : Redir)
  | pipe (left right : Cmd)
  | list (left right : Cmd)
  | back (cmd : Cmd)
  deriving DecidableEq, Repr

def wrap (cmd : Cmd) (rs : List Redir) : Cmd := rs.foldl .redir cmd

inductive Panic where
  /-- panic("syntax") in `parsecmd`, after the leftovers -/
  | leftovers
  /-- panic("missing file for redirection") -/
  | missingFile
  /-- panic("parseblock") -/
  | parseblock
  /-- panic("syntax - missing )") -/
  | missingParen
  /-- panic("syntax") in `parseexec` -/
  | badToken
  /-- panic("too many args") -/
  | tooManyArgs
  deriving DecidableEq, Repr

inductive Stop where
  | panic (p : Panic)
  | fuel
  deriving DecidableEq, Repr

def redirOf (tok : Option Token) (file : Bytes) : List Redir :=
  match tok with
  | some .lt => [⟨file, O_RDONLY, 0⟩]
  | some .gt => [⟨file, O_WRONLY ||| O_CREATE ||| O_TRUNC, 1⟩]
  | some .app => [⟨file, O_WRONLY ||| O_CREATE, 1⟩]
  | _ => []

/-- The redirections in the order in which they are wrapped. -/
def parseredirs : Nat → Bytes → Except Stop (List Redir × Bytes)
  | 0, _ => .error .fuel
  | n + 1, s =>
    match peek s [60, 62] with
    | (false, s) => .ok ([], s)
    | (true, s) =>
      let (tok, s) := gettoken s
      match gettoken s with
      | (some (.word file), s) => do
        let (rs, s) ← parseredirs n s
        return (redirOf tok file ++ rs, s)
      | _ => .error (.panic .missingFile)

/-- The loop of `parseexec`: `argv` from `argc` on, and the redirections between the words. -/
def parseargs : Nat → Nat → Bytes → Except Stop ((List Bytes × List Redir) × Bytes)
  | 0, _, _ => .error .fuel
  | n + 1, argc, s =>
    match peek s [124, 41, 38, 59] with
    | (true, s) => .ok (([], []), s)
    | (false, s) =>
      match gettoken s with
      | (none, s) => .ok (([], []), s)
      | (some (.word w), s) =>
        if MAXARGS ≤ argc + 1 then .error (.panic .tooManyArgs)
        else do
          let (rs, s) ← parseredirs n s
          let ((ws, rs'), s) ← parseargs n (argc + 1) s
          return ((w :: ws, rs ++ rs'), s)
      | _ => .error (.panic .badToken)

def parsebacks : Nat → Cmd → Bytes → Except Stop (Cmd × Bytes)
  | 0, _, _ => .error .fuel
  | n + 1, cmd, s =>
    match peek s [38] with
    | (true, s) => parsebacks n (.back cmd) (gettoken s).2
    | (false, s) => .ok (cmd, s)

mutual

def parseline : Nat → Bytes → Except Stop (Cmd × Bytes)
  | 0, _ => .error .fuel
  | n + 1, s => do
    let (cmd, s) ← parsepipe n s
    let (cmd, s) ← parsebacks n cmd s
    match peek s [59] with
    | (true, s) =>
      let (right, s) ← parseline n (gettoken s).2
      return (.list cmd right, s)
    | (false, s) => return (cmd, s)

def parsepipe : Nat → Bytes → Except Stop (Cmd × Bytes)
  | 0, _ => .error .fuel
  | n + 1, s => do
    let (cmd, s) ← parseexec n s
    match peek s [124] with
    | (true, s) =>
      let (right, s) ← parsepipe n (gettoken s).2
      return (.pipe cmd right, s)
    | (false, s) => return (cmd, s)

def parseblock : Nat → Bytes → Except Stop (Cmd × Bytes)
  | 0, _ => .error .fuel
  | n + 1, s =>
    match peek s [40] with
    | (false, _) => .error (.panic .parseblock)
    | (true, s) => do
      let (cmd, s) ← parseline n (gettoken s).2
      match peek s [41] with
      | (false, _) => .error (.panic .missingParen)
      | (true, s) =>
        let (rs, s) ← parseredirs n (gettoken s).2
        return (wrap cmd rs, s)

def parseexec : Nat → Bytes → Except Stop (Cmd × Bytes)
  | 0, _ => .error .fuel
  | n + 1, s =>
    match peek s [40] with
    | (true, s) => parseblock n s
    | (false, s) => do
      let (rs, s) ← parseredirs n s
      let ((argv, rs'), s) ← parseargs n 0 s
      return (wrap (.exec argv) (rs ++ rs'), s)

end

def parsecmd (s : Bytes) : Except Stop Cmd := do
  let (cmd, s) ← parseline (4 * s.length + 5) s
  match peek s [] with
  | (_, []) => return cmd
  | _ => .error (.panic .leftovers)

/-! ## The grammar -/

theorem length_dropWhile_le (p : UInt8 → Bool) (s : Bytes) : (s.dropWhile p).length ≤ s.length :=
  (s.dropWhile_suffix p).length_le

/-- The tokens of a line: words of characters that are neither whitespace nor symbols, and symbols. -/
def lex (s : Bytes) : List Token :=
  match s with
  | [] => []
  | c :: s =>
    if isSpace c then lex s
    else if c = 62 then
      match s with
      | [] => [.gt]
      | d :: s' => if d = 62 then .app :: lex s' else .gt :: lex (d :: s')
    else if c = 60 then .lt :: lex s
    else if c = 124 then .bar :: lex s
    else if c = 38 then .amp :: lex s
    else if c = 59 then .semi :: lex s
    else if c = 40 then .lparen :: lex s
    else if c = 41 then .rparen :: lex s
    else .word (c :: s.takeWhile isWord) :: lex (s.dropWhile isWord)
termination_by s.length
decreasing_by
  all_goals simp only [List.length_cons]
  all_goals first | omega | exact Nat.lt_succ_of_le (length_dropWhile_le _ _)

/-- redir -/
inductive RedirOp : Token → Bytes → Redir → Prop
  | lt (f : Bytes) : RedirOp .lt f ⟨f, O_RDONLY, 0⟩
  | gt (f : Bytes) : RedirOp .gt f ⟨f, O_WRONLY ||| O_CREATE ||| O_TRUNC, 1⟩
  | app (f : Bytes) : RedirOp .app f ⟨f, O_WRONLY ||| O_CREATE, 1⟩

/-- redir* -/
inductive Redirs : List Token → List Redir → Prop
  | nil : Redirs [] []
  | cons {op : Token} {f : Bytes} {r : Redir} {ts : List Token} {rs : List Redir} :
      RedirOp op f r → Redirs ts rs → Redirs (op :: .word f :: ts) (r :: rs)

/-- (word redir*)* -/
inductive Args : List Token → List Bytes → List Redir → Prop
  | nil : Args [] [] []
  | cons {w : Bytes} {ts ts' : List Token} {ws : List Bytes} {rs rs' : List Redir} :
      Redirs ts rs → Args ts' ws rs' → Args (.word w :: (ts ++ ts')) (w :: ws) (rs ++ rs')

def backs (n : Nat) (c : Cmd) : Cmd := Nat.rec c (fun _ => .back) n

mutual

/-- line ::= pipe '&'* [';' line] -/
inductive Line : List Token → Cmd → Prop
  | one {ts : List Token} {c : Cmd} (n : Nat) : Pipe ts c → Line (ts ++ List.replicate n .amp) (backs n c)
  | seq {ts ts' : List Token} {c c' : Cmd} (n : Nat) :
      Pipe ts c → Line ts' c' → Line (ts ++ List.replicate n .amp ++ .semi :: ts') (.list (backs n c) c')

/-- pipe ::= exec ['|' pipe] -/
inductive Pipe : List Token → Cmd → Prop
  | one {ts : List Token} {c : Cmd} : Exec ts c → Pipe ts c
  | bar {ts ts' : List Token} {c c' : Cmd} : Exec ts c → Pipe ts' c' → Pipe (ts ++ .bar :: ts') (.pipe c c')

/-- exec ::= '(' line ')' redir* | redir* (word redir*)*, with at most MAXARGS-1 words -/
inductive Exec : List Token → Cmd → Prop
  | block {ts ts' : List Token} {c : Cmd} {rs : List Redir} :
      Line ts c → Redirs ts' rs → Exec (.lparen :: (ts ++ .rparen :: ts')) (wrap c rs)
  | simple {ts ts' : List Token} {rs rs' : List Redir} {argv : List Bytes} :
      Redirs ts rs → Args ts' argv rs' → argv.length ≤ MAXARGS - 1 → Exec (ts ++ ts') (wrap (.exec argv) (rs ++ rs'))

end

end Xv6.User.Sh
