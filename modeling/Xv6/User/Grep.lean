/-
  Xv6.User.Grep — user/grep.c, with `strchr` and `memmove` of user/ulib.c.

  A C string is its bytes before the NUL and a pointer into it is an offset; the NUL can be read
  and nothing behind it (`rd`). Likewise no byte outside `buf` can be read or written.

  `read` gives what is left of the input in pieces. How long the k-th piece is, `chunk k`
  says, within what is asked for and what is left; a piece is empty only when nothing is asked
  for or nothing is left.

  The loops have fuel; `Xv6.User.GrepMatch` and `Xv6.User.GrepLines` show that it suffices.
-/
import Xv6.Lib.Table

namespace Xv6.User.Grep

abbrev Bytes := List UInt8

inductive Stop where
  /-- a read or write outside a string or the buffer -/
  | outside
  | fuel
  deriving DecidableEq, Repr

/-! ## match -/

def rd (s : Bytes) (i : Nat) : Except Stop UInt8 :=
  if i ≤ s.length then .ok (s.getD i 0) else .error .outside

mutual

def matchhere : Nat → Bytes → Nat → Bytes → Nat → Except Stop Int
  | 0, _, _, _, _ => .error .fuel
  | fuel + 1, re, i, text, j => do
    let c ← rd re i
    if c = 0 then return 1
    else
      let d ← rd re (i + 1)
      -- '*'
      if d = 42 then matchstar fuel c re (i + 2) text j
      -- '$'
      else if c = 36 ∧ d = 0 then
        let t ← rd text j
        return if t = 0 then 1 else 0
      else
        let t ← rd text j
        -- '.'
        if t ≠ 0 ∧ (c = 46 ∨ c = t) then matchhere fuel re (i + 1) text (j + 1) else return 0

def matchstar : Nat → UInt8 → Bytes → Nat → Bytes → Nat → Except Stop Int
  | 0, _, _, _, _, _ => .error .fuel
  | fuel + 1, c, re, i, text, j => do
    let r ← matchhere fuel re i text j
    if r ≠ 0 then return 1
    else
      let t ← rd text j
      if t ≠ 0 ∧ (t = c ∨ c = 46) then matchstar fuel c re i text (j + 1) else return 0

end

def matchLoop : Nat → Bytes → Bytes → Nat → Except Stop Int
  | 0, _, _, _ => .error .fuel
  | fuel + 1, re, text, j => do
    let r ← matchhere fuel re 0 text j
    if r ≠ 0 then return 1
    else
      let t ← rd text j
      if t ≠ 0 then matchLoop fuel re text (j + 1) else return 0

/-- `match`, which is a word of Lean. -/
def matchRe (fuel : Nat) (re text : Bytes) : Except Stop Int := do
  let c ← rd re 0
  -- '^'
  if c = 94 then matchhere fuel re 1 text 0 else matchLoop fuel re text 0

/-! ## grep -/

abbrev BUFSZ : Nat := 1024

abbrev Buf := Nat → UInt8

def load (b : Buf) (i : Nat) : Except Stop UInt8 := if i < BUFSZ then .ok (b i) else .error .outside

def store (b : Buf) (i : Nat) (c : UInt8) : Except Stop Buf := if i < BUFSZ then .ok (upd b i c) else .error .outside

def strchr (b : Buf) (c : UInt8) : Nat → Nat → Except Stop (Option Nat)
  | 0, _ => .error .fuel
  | fuel + 1, s => do
    let x ← load b s
    if x = 0 then return none
    else if x = c then return some s
    else strchr b c fuel (s + 1)

def copyUp : Nat → Nat → Nat → Buf → Except Stop Buf
  | 0, _, _, b => return b
  | n + 1, dst, src, b => do
    let x ← load b src
    copyUp n (dst + 1) (src + 1) (← store b dst x)

/-- `while(n-- > 0) *--dst = *--src;`, with `dst` and `src` behind the last byte. -/
def copyDown : Nat → Nat → Nat → Buf → Except Stop Buf
  | 0, _, _, b => return b
  | n + 1, dst, src, b => do
    let x ← load b (src - 1)
    copyDown n (dst - 1) (src - 1) (← store b (dst - 1) x)

def memmove (dst src n : Nat) (b : Buf) : Except Stop Buf :=
  if src > dst then copyUp n dst src b else copyDown n (dst + n) (src + n) b

def cstr (b : Buf) : Nat → Nat → Except Stop Bytes
  | 0, _ => .error .fuel
  | fuel + 1, p => do
    let x ← load b p
    if x = 0 then return [] else return x :: (← cstr b fuel (p + 1))

def bytes (b : Buf) : Nat → Nat → Except Stop Bytes
  | _, 0 => return []
  | p, n + 1 => do return (← load b p) :: (← bytes b (p + 1) n)

/-- `while((q = strchr(p, '\n')) != 0)`: the buffer, `p` and what is written. -/
def grepLines (pattern : Bytes) : Nat → Buf → Nat → Bytes → Except Stop (Buf × Nat × Bytes)
  | 0, _, _, _ => .error .fuel
  | fuel + 1, b, p, out => do
    match ← strchr b 10 (BUFSZ + 1) p with
    | none => return (b, p, out)
    | some q =>
      let b ← store b q 0
      let text ← cstr b (BUFSZ + 1) p
      if (← matchRe (2 * pattern.length + BUFSZ + 2) pattern text) ≠ 0 then
        let b ← store b q 10
        grepLines pattern fuel b (q + 1) (out ++ (← bytes b p (q + 1 - p)))
      else grepLines pattern fuel b (q + 1) out

/-- A call of `read`: `m` before it, what is asked for, what is left of the input, what is returned. -/
structure Read where
  m : Nat
  asked : Nat
  left : Nat
  n : Nat
  deriving DecidableEq, Repr

structure St where
  buf : Buf
  m : Nat
  input : Bytes
  out : Bytes
  reads : List Read

def readCount (chunk asked left : Nat) : Nat := min (max 1 chunk) (min asked left)

def fill (b : Buf) (p : Nat) (w : Bytes) : Buf := fun i => if p ≤ i ∧ i < p + w.length then w.getD (i - p) 0 else b i

/-- `while((n = read(fd, buf+m, sizeof(buf)-m-1)) > 0)`, at the k-th call. -/
def grepLoop (pattern : Bytes) (chunk : Nat → Nat) : Nat → Nat → St → Except Stop St
  | 0, _, _ => .error .fuel
  | fuel + 1, k, s => do
    let asked := (2 ^ 32 + BUFSZ - s.m - 1) % 2 ^ 32
    let n := readCount (chunk k) asked s.input.length
    let reads := s.reads ++ [⟨s.m, asked, s.input.length, n⟩]
    if n = 0 then return { s with reads }
    else
      let m := s.m + n
      let b ← store (fill s.buf s.m (s.input.take n)) m 0
      let (b, p, out) ← grepLines pattern (BUFSZ + 1) b 0 s.out
      if m > 0 then
        let b ← memmove 0 p (m - p) b
        grepLoop pattern chunk fuel (k + 1) { buf := b, m := m - p, input := s.input.drop n, out, reads }
      else grepLoop pattern chunk fuel (k + 1) { buf := b, m, input := s.input.drop n, out, reads }

def grep (pattern input : Bytes) (chunk : Nat → Nat) (buf : Buf) : Except Stop St :=
  grepLoop pattern chunk (input.length + 1) 0 { buf, m := 0, input, out := [], reads := [] }

end Xv6.User.Grep
