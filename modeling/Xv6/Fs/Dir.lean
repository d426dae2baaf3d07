/-
  Xv6.Fs.Dir — directories and path names of kernel/fs.c: `dirlookup`, `dirlink`,
  `skipelem` and `namex`.

  A path is its bytes before the NUL. A name (`char name[DIRSIZ]`) is its bytes before the
  NUL, or all DIRSIZ of them; `strncmp` and `strncpy` read no further.
-/
import Xv6.Fs.Inode

namespace Xv6.Fs

variable (sb : Superblock)

abbrev Name := List UInt8

def Name.buf (name : Name) (k : Nat) : UInt8 := name.getD k 0

def strncmp : Nat → (Nat → UInt8) → (Nat → UInt8) → Int
  | 0, _, _ => 0
  | n + 1, p, q =>
    if p 0 ≠ 0 ∧ p 0 = q 0 then strncmp n (fun k => p (k + 1)) (fun k => q (k + 1))
    else (p 0).toNat - (q 0).toNat

def namecmp (s t : Nat → UInt8) : Int := strncmp DIRSIZ s t

/-- `de.inum` and `de.name` of the 16 bytes of a `struct dirent`. -/
def deInum (de : Nat → UInt8) : Nat := le16 de 0
def deName (de : Nat → UInt8) : Nat → UInt8 := fun k => de (2 + k)

/-- A `struct dirent` with this inode number and, by `strncpy`, this name. -/
def dirent (inum : Nat) (name : Name) : Nat → UInt8 := putLe16 (fun k => name.buf (k - 2)) 0 inum

def entryOffs (size : Nat) : List Nat := (List.range ((size + 15) / 16)).map (16 * ·)

def dirlookupLoop (i : Nat) (name : Name) : List Nat → M (Option (Nat × Nat))
  | [] => return none
  | off :: offs => do
    let (r, de) ← readi sb i kernelDst off 16
    if r ≠ 16 then throw .dirlookupRead
    else if deInum de = 0 then dirlookupLoop i name offs
    else if namecmp name.buf (deName de) = 0 then do
      let ip := (← get).itable i
      let next ← iget ip.dev (deInum de)
      return some (next, off)
    else dirlookupLoop i name offs

def dirlookup (i : Nat) (name : Name) : M (Option (Nat × Nat)) := do
  let ip := (← get).itable i
  if ip.copy.type ≠ T_DIR then throw .notDir
  else dirlookupLoop sb i name (entryOffs ip.copy.size)

/-- `dirlink`'s search for an empty entry: its offset, or the one behind the last. -/
def emptyEntry (i last : Nat) : List Nat → M Nat
  | [] => return last
  | off :: offs => do
    let (r, de) ← readi sb i kernelDst off 16
    if r ≠ 16 then throw .dirlinkRead
    else if deInum de = 0 then return off
    else emptyEntry i last offs

def dirlink (i : Nat) (name : Name) (inum : Nat) : M Int := do
  -- Check that name is not present.
  match ← dirlookup sb i name with
  | some (ip, _) => do
    iput sb ip
    return -1
  | none => do
    let size := ((← get).itable i).copy.size
    let off ← emptyEntry sb i (16 * ((size + 15) / 16)) (entryOffs size)
    let r ← writei sb i (kernelSrc (dirent inum name)) off 16
    if r ≠ 16 then return -1 else return 0

/-! ## Paths -/

def slash : UInt8 := 47

/-- The next path element, cut to DIRSIZ bytes, and the path behind it. -/
def skipelem (path : List UInt8) : Option (Name × List UInt8) :=
  match path.dropWhile (· == slash) with
  | [] => none
  | s => some ((s.takeWhile (· != slash)).take DIRSIZ, (s.dropWhile (· != slash)).dropWhile (· == slash))

/-- `namex`'s loop. Each `skipelem` takes a byte at least, so the path's length is fuel
    enough. -/
def namexLoop (parent : Bool) : Nat → Nat → List UInt8 → M (Option (Nat × Name))
  | 0, i, _ => return some (i, [])
  | fuel + 1, i, path =>
    match skipelem path with
    | none =>
      if parent then do
        iput sb i
        return none
      else return some (i, [])
    | some (name, path) => do
      ilock sb i
      if ((← get).itable i).copy.type ≠ T_DIR then do
        iunlockput sb i
        return none
      else if parent && path.isEmpty then do
        -- Stop one level early.
        iunlock i
        return some (i, name)
      else do
        match ← dirlookup sb i name with
        | none => do
          iunlockput sb i
          return none
        | some (next, _) => do
          iunlockput sb i
          namexLoop parent fuel next path

/-- `namex` for process `p`: the inode, and for the parent the last path element. -/
def namex (p : Nat) (path : List UInt8) (parent : Bool) : M (Option (Nat × Name)) := do
  let i ←
    if path.head? = some slash then iget ROOTDEV ROOTINO
    else
      match ((← get).proc p).cwd with
      | some cwd => idup cwd
      | none => throw .nullCwd
  namexLoop sb parent (path.length + 1) i path

def namei (p : Nat) (path : List UInt8) : M (Option Nat) := do
  match ← namex sb p path false with
  | some (i, _) => return some i
  | none => return none

def nameiparent (p : Nat) (path : List UInt8) : M (Option (Nat × Name)) := namex sb p path true

end Xv6.Fs
