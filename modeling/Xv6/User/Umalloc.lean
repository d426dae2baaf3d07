/-
  Xv6.User.Umalloc — the user allocator, user/umalloc.c: `malloc`, `free` and `morecore`.

  A `Header` is 8 bytes; `ptr a` and `size a` are the fields of a header at address `a`.
  `base` is the static header, below the heap. Sums of sizes and addresses stay below 2^32
  because every block lies in memory the process has, so only `nunits` and the argument of
  `sbrk` are computed modulo 2^32. `sbrk brk n` is what the call returns with the break at
  `brk`: -1 (`none`), or an address and the new break.

  The loops have fuel; `Xv6.User.FreeList` shows that what they get is enough.

  `live`, `regions` and `obtained` are not in the source: the allocated blocks with their
  sizes, the memory `sbrk` gave, and how many units that is. Between two calls the program may
  write into its blocks (`Writes`).
-/
import Xv6.Lib.Cycle
import Xv6.Lib.Table

namespace Xv6.User.Umalloc

structure St where
  ptr : Nat → Nat
  size : Nat → Nat
  freep : Nat
  brk : Nat
  live : List (Nat × Nat)
  regions : List (Nat × Nat)
  obtained : Nat

inductive Stop where
  /-- the model's fuel is used up -/
  | fuel
  deriving DecidableEq, Repr

abbrev Sbrk := Nat → Nat → Option (Nat × Nat)

def St.setPtr (s : St) (a v : Nat) : St := { s with ptr := upd s.ptr a v }
def St.setSize (s : St) (a v : Nat) : St := { s with size := upd s.size a v }

/-- `for(p = freep; !(bp > p && bp < p->s.ptr); p = p->s.ptr) ..` -/
def findLoop (s : St) (bp : Nat) : Nat → Nat → Except Stop Nat
  | 0, _ => .error .fuel
  | n + 1, p =>
    if bp > p ∧ bp < s.ptr p then .ok p
    else if p ≥ s.ptr p ∧ (bp > p ∨ bp < s.ptr p) then .ok p
    else findLoop s bp n (s.ptr p)

def link (s : St) (bp p : Nat) : St :=
  let s :=
    if bp + 8 * s.size bp = s.ptr p then
      (s.setSize bp (s.size bp + s.size (s.ptr p))).setPtr bp (s.ptr (s.ptr p))
    else s.setPtr bp (s.ptr p)
  let s :=
    if p + 8 * s.size p = bp then (s.setSize p (s.size p + s.size bp)).setPtr p (s.ptr bp)
    else s.setPtr p bp
  { s with freep := p }

def freeBlock (s : St) (bp : Nat) : Except Stop St := do
  let p ← findLoop s bp (s.obtained + 2) s.freep
  return { link s bp p with live := s.live.erase (bp, s.size bp) }

def grant (s : St) (a brk nu : Nat) : St :=
  { s.setSize a nu with
    brk := brk, live := (a, nu) :: s.live, regions := (a, brk) :: s.regions, obtained := s.obtained + (brk - a) / 8 }

/-- `none`: it returns 0. -/
def morecore (sbrk : Sbrk) (s : St) (nu : Nat) : Except Stop (Option St) :=
  let nu := if nu < 4096 then 4096 else nu
  match sbrk s.brk (nu * 8 % 2 ^ 32) with
  | none => .ok none
  | some (a, brk) => do return some (← freeBlock (grant s a brk nu) a)

def take (s : St) (nunits prevp p : Nat) : St × Nat :=
  let (s, p) :=
    if s.size p = nunits then (s.setPtr prevp (s.ptr p), p)
    else
      let rest := s.size p - nunits
      ((s.setSize p rest).setSize (p + 8 * rest) nunits, p + 8 * rest)
  ({ s with freep := prevp, live := (p, nunits) :: s.live }, p + 8)

def mallocLoop (sbrk : Sbrk) (nunits : Nat) : Nat → St → Nat → Nat → Except Stop (St × Option Nat)
  | 0, _, _, _ => .error .fuel
  | n + 1, s, prevp, p =>
    if s.size p ≥ nunits then
      let (s, r) := take s nunits prevp p
      .ok (s, some r)
    else if p = s.freep then do
      match ← morecore sbrk s nunits with
      | none => return (s, none)
      | some s => mallocLoop sbrk nunits n s s.freep (s.ptr s.freep)
    else mallocLoop sbrk nunits n s p (s.ptr p)

def nunits (nbytes : Nat) : Nat := (nbytes + 8 - 1) % 2 ^ 32 / 8 + 1

def first (base : Nat) (s : St) : St :=
  if s.freep = 0 then { (s.setPtr base base).setSize base 0 with freep := base } else s

def malloc (base : Nat) (sbrk : Sbrk) (s : St) (nbytes : Nat) : Except Stop (St × Option Nat) :=
  let s := first base s
  mallocLoop sbrk (nunits nbytes) (2 * (s.obtained + nunits nbytes + 4096) + 4) s s.freep (s.ptr s.freep)

def init (ptr size : Nat → Nat) (brk : Nat) : St := ⟨ptr, size, 0, brk, [], [], 0⟩

/-- The blocks `[a, a + 8m)` and `[b, b + 8n)` do not overlap. -/
def Apart (x y : Nat × Nat) : Prop := x.1 + 8 * x.2 ≤ y.1 ∨ y.1 + 8 * y.2 ≤ x.1

/-- The program writes into its blocks, behind their headers. -/
structure Writes (s s' : St) : Prop where
  same : s' = { s with ptr := s'.ptr, size := s'.size }
  out : ∀ a, (∀ x ∈ s.live, a + 8 ≤ x.1 + 8 ∨ x.1 + 8 * x.2 ≤ a) → s'.ptr a = s.ptr a ∧ s'.size a = s.size a

/-- The answers of `sbrk` at the break `brk`: -1, or a region above. -/
def Grows (sbrk : Sbrk) (brk n : Nat) : Prop := sbrk brk n = none ∨ ∃ a, brk ≤ a ∧ sbrk brk n = some (a, a + n)

inductive Reach (base : Nat) : St → Prop
  | init (ptr size : Nat → Nat) (brk : Nat) : 0 < base → base + 8 ≤ brk → Reach base (init ptr size brk)
  | malloc {s s' : St} {r : Option Nat} (sbrk : Sbrk) (nbytes : Nat) :
      Reach base s → nunits nbytes * 8 < 2 ^ 31 → (∀ brk n, Grows sbrk brk n) →
      malloc base sbrk s nbytes = .ok (s', r) → Reach base s'
  | free {s s' : St} (bp n : Nat) : Reach base s → (bp, n) ∈ s.live → freeBlock s bp = .ok s' → Reach base s'
  | writes {s s' : St} : Reach base s → Writes s s' → Reach base s'

end Xv6.User.Umalloc
