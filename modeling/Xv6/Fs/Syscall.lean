/-
  Xv6.Fs.Syscall — kernel/file.c, kernel/sysfile.c, the file half of kernel/exec.c, and what
  `fork` and `exit` (kernel/proc.c) do to files and current directories.

  A call carries what the kernel fetches for it: a path is `none` where `argstr` fails, a
  buffer says which of its bytes are mapped. `ext` is what a pipe or a device returns.
  `exec` reads its file as the source does; of the memory it builds only whether each of
  its allocations succeeds is used (`mem`).
-/
import Xv6.Fs.Dir

namespace Xv6.Fs

variable (sb : Superblock)

/-! ## kernel/file.c -/

def filealloc : M (Option Nat) := do
  let s ← get
  match (List.range NFILE).find? fun f => decide ((s.ftable f).ref = 0) with
  | some f => do
    setFile f fun x => { x with ref := 1 }
    return some f
  | none => return none

def filedup (f : Nat) : M Unit := do
  if ((← get).ftable f).ref < 1 then throw .filedup
  else setFile f fun x => { x with ref := x.ref + 1 }

def fileclose (f : Nat) : M Unit := do
  let ff := (← get).ftable f
  if ff.ref < 1 then throw .fileclose
  else if 0 < ff.ref - 1 then setFile f fun x => { x with ref := x.ref - 1 }
  else do
    setFile f fun x => { x with ref := 0, type := .none }
    match ff.type with
    | .inode | .device => do
      beginOp
      iput sb ff.ip
      endOp
    | .pipe | .none => return ()

def filestat (f : Nat) (ok : Bool) : M Int := do
  let x := (← get).ftable f
  match x.type with
  | .inode | .device => do
    ilock sb x.ip
    iunlock x.ip
    return if ok then 0 else -1
  | .pipe | .none => return -1

def uint (n : Int) : Nat := (n % 4294967296).toNat

def fileread (f : Nat) (dst : Dst) (n ext : Int) : M Int := do
  let x := (← get).ftable f
  if x.readable = false then return -1
  else
    match x.type with
    | .pipe => return ext
    | .device => return if x.major < 0 ∨ NDEV ≤ x.major then -1 else ext
    | .inode => do
      ilock sb x.ip
      let (r, _) ← readi sb x.ip dst x.off (uint n)
      if 0 < r then setFile f fun x => { x with off := x.off + r.toNat } else pure ()
      iunlock x.ip
      return r
    | .none => throw .fileread

abbrev maxChunk : Nat := (MAXOPBLOCKS - 1 - 1 - 2) / 2 * BSIZE

/-- One turn of `filewrite`'s loop: the operation that writes a chunk. -/
def writeChunk (f ip : Nat) (src : Src) (n1 : Nat) : M Int := do
  beginOp
  ilock sb ip
  let r ← writei sb ip src ((← get).ftable f).off n1
  if 0 < r then setFile f fun x => { x with off := x.off + r.toNat } else pure ()
  iunlock ip
  endOp
  return r

def filewriteLoop (f ip : Nat) (src : Src) (n : Nat) : Nat → Nat → M Nat
  | 0, i => return i
  | fuel + 1, i =>
    if i < n then do
      let n1 := min (n - i) maxChunk
      let r ← writeChunk sb f ip (fun k => src (i + k)) n1
      if r ≠ n1 then return i
      else filewriteLoop f ip src n fuel (i + n1)
    else return i

def filewrite (f : Nat) (src : Src) (n ext : Int) : M Int := do
  let x := (← get).ftable f
  if x.writable = false then return -1
  else
    match x.type with
    | .pipe => return ext
    | .device => return if x.major < 0 ∨ NDEV ≤ x.major then -1 else ext
    | .inode => do
      let i ← filewriteLoop sb f x.ip src n.toNat n.toNat 0
      return if (i : Int) = n then n else -1
    | .none => throw .filewrite

/-! ## kernel/sysfile.c -/

def argfd (p : Nat) (fd : Int) : M (Option Nat) := do
  if fd < 0 ∨ (NOFILE : Int) ≤ fd then return none
  else return ((← get).proc p).ofile fd.toNat

def setFd (p fd : Nat) (f : Option Nat) : M Unit :=
  setProc p fun x => { x with ofile := upd x.ofile fd f }

def fdalloc (p f : Nat) : M Int := do
  let s ← get
  match (List.range NOFILE).find? fun fd => decide ((s.proc p).ofile fd = none) with
  | some fd => do
    setFd p fd (some f)
    return fd
  | none => return -1

def sysDup (p : Nat) (fd : Int) : M Int := do
  match ← argfd p fd with
  | none => return -1
  | some f => do
    let fd ← fdalloc p f
    if fd < 0 then return -1
    else do
      filedup f
      return fd

def sysRead (p : Nat) (fd : Int) (dst : Dst) (n ext : Int) : M Int := do
  match ← argfd p fd with
  | none => return -1
  | some f => fileread sb f dst n ext

def sysWrite (p : Nat) (fd : Int) (src : Src) (n ext : Int) : M Int := do
  match ← argfd p fd with
  | none => return -1
  | some f => filewrite sb f src n ext

def sysClose (p : Nat) (fd : Int) : M Int := do
  match ← argfd p fd with
  | none => return -1
  | some f => do
    setFd p fd.toNat none
    fileclose sb f
    return 0

def sysFstat (p : Nat) (fd : Int) (ok : Bool) : M Int := do
  match ← argfd p fd with
  | none => return -1
  | some f => filestat sb f ok

def linkBad (ip : Nat) : M Int := do
  ilock sb ip
  setCopy ip fun d => { d with nlink := short (d.nlink - 1) }
  iupdate sb ip
  iunlockput sb ip
  endOp
  return -1

def sysLink (p : Nat) (old new : Option (List UInt8)) : M Int := do
  match old, new with
  | some old, some new => do
    beginOp
    match ← namei sb p old with
    | none => do
      endOp
      return -1
    | some ip => do
      ilock sb ip
      if ((← get).itable ip).copy.type = T_DIR then do
        iunlockput sb ip
        endOp
        return -1
      else do
        setCopy ip fun d => { d with nlink := short (d.nlink + 1) }
        iupdate sb ip
        iunlock ip
        match ← nameiparent sb p new with
        | none => linkBad sb ip
        | some (dp, name) => do
          ilock sb dp
          let s ← get
          let linked ←
            if (s.itable dp).dev ≠ (s.itable ip).dev then pure (-1) else dirlink sb dp name (s.itable ip).inum
          if linked < 0 then do
            iunlockput sb dp
            linkBad sb ip
          else do
            iunlockput sb dp
            iput sb ip
            endOp
            return 0
  | _, _ => return -1

def isdiremptyLoop (i : Nat) : List Nat → M Bool
  | [] => return true
  | off :: offs => do
    let (r, de) ← readi sb i kernelDst off 16
    if r ≠ 16 then throw .isdiremptyReadi
    else if deInum de ≠ 0 then return false
    else isdiremptyLoop i offs

def isdirempty (i : Nat) : M Bool := do
  isdiremptyLoop sb i ((entryOffs ((← get).itable i).copy.size).drop 2)

def dot : Name := [46]
def dotdot : Name := [46, 46]

def unlinkBad (dp : Nat) : M Int := do
  iunlockput sb dp
  endOp
  return -1

def unlinkEntry (dp ip off : Nat) : M Int := do
  let r ← writei sb dp (kernelSrc fun _ => 0) off 16
  if r ≠ 16 then throw .unlinkWritei
  else do
    if ((← get).itable ip).copy.type = T_DIR then do
      setCopy dp fun d => { d with nlink := short (d.nlink - 1) }
      iupdate sb dp
    else pure ()
    iunlockput sb dp
    setCopy ip fun d => { d with nlink := short (d.nlink - 1) }
    iupdate sb ip
    iunlockput sb ip
    endOp
    return 0

def sysUnlink (p : Nat) (path : Option (List UInt8)) : M Int := do
  match path with
  | none => return -1
  | some path => do
    beginOp
    match ← nameiparent sb p path with
    | none => do
      endOp
      return -1
    | some (dp, name) => do
      ilock sb dp
      -- Cannot unlink "." or "..".
      if namecmp name.buf dot.buf = 0 ∨ namecmp name.buf dotdot.buf = 0 then unlinkBad sb dp
      else do
        match ← dirlookup sb dp name with
        | none => unlinkBad sb dp
        | some (ip, off) => do
          ilock sb ip
          let d := ((← get).itable ip).copy
          if d.nlink < 1 then throw .unlinkNlink
          else do
            let full ← if d.type = T_DIR then (! ·) <$> isdirempty sb ip else pure false
            if full then do
              iunlockput sb ip
              unlinkBad sb dp
            else unlinkEntry sb dp ip off

def createFail (dp ip : Nat) : M (Option Nat) := do
  setCopy ip fun d => { d with nlink := 0 }
  iupdate sb ip
  iunlockput sb ip
  iunlockput sb dp
  return none

def createDots (dp ip : Nat) : M Bool := do
  let r ← dirlink sb ip dot ((← get).itable ip).inum
  if r < 0 then return false
  else do
    let r ← dirlink sb ip dotdot ((← get).itable dp).inum
    return decide (0 ≤ r)

def createNew (dp ip : Nat) (name : Name) (type major minor : Int) : M (Option Nat) := do
  ilock sb ip
  setCopy ip fun d => { d with major := major, minor := minor, nlink := 1 }
  iupdate sb ip
  let dots ← if type = T_DIR then createDots sb dp ip else pure true
  if dots = false then createFail sb dp ip
  else do
    let r ← dirlink sb dp name ((← get).itable ip).inum
    if r < 0 then createFail sb dp ip
    else do
      if type = T_DIR then do
        -- now that success is guaranteed: for ".."
        setCopy dp fun d => { d with nlink := short (d.nlink + 1) }
        iupdate sb dp
      else pure ()
      iunlockput sb dp
      return some ip

/-- The inode is returned locked. -/
def create (p : Nat) (path : List UInt8) (type major minor : Int) : M (Option Nat) := do
  match ← nameiparent sb p path with
  | none => return none
  | some (dp, name) => do
    ilock sb dp
    match ← dirlookup sb dp name with
    | some (ip, _) => do
      iunlockput sb dp
      ilock sb ip
      let t := ((← get).itable ip).copy.type
      if type = T_FILE ∧ (t = T_FILE ∨ t = T_DEVICE) then return some ip
      else do
        iunlockput sb ip
        return none
    | none => do
      match ← ialloc sb ((← get).itable dp).dev type with
      | none => do
        iunlockput sb dp
        return none
      | some ip => createNew sb dp ip name type major minor

abbrev O_RDONLY : Nat := 0x000
abbrev O_WRONLY : Nat := 0x001
abbrev O_RDWR : Nat := 0x002
abbrev O_CREATE : Nat := 0x200
abbrev O_TRUNC : Nat := 0x400

def has (omode flag : Nat) : Bool := omode &&& flag != 0

def openInode (p : Nat) (path : List UInt8) (omode : Nat) : M (Option Nat) := do
  if has omode O_CREATE then create sb p path T_FILE 0 0
  else
    match ← namei sb p path with
    | none => return none
    | some ip => do
      ilock sb ip
      if ((← get).itable ip).copy.type = T_DIR ∧ omode ≠ O_RDONLY then do
        iunlockput sb ip
        return none
      else return some ip

def openFile (p : Nat) : M (Option (Nat × Nat)) := do
  match ← filealloc with
  | none => return none
  | some f => do
    let fd ← fdalloc p f
    if fd < 0 then do
      fileclose sb f
      return none
    else return some (f, fd.toNat)

def openBad (ip : Nat) : M Int := do
  iunlockput sb ip
  endOp
  return -1

def openedFile (x : File) (ip : Nat) (d : Dinode) (omode : Nat) : File :=
  let x := if d.type = T_DEVICE then { x with type := .device, major := d.major } else
    { x with type := .inode, off := 0 }
  { x with ip := ip, readable := !has omode O_WRONLY, writable := has omode O_WRONLY || has omode O_RDWR }

def sysOpen (p : Nat) (path : Option (List UInt8)) (omode : Nat) : M Int := do
  match path with
  | none => return -1
  | some path => do
    beginOp
    match ← openInode sb p path omode with
    | none => do
      endOp
      return -1
    | some ip => do
      let d := ((← get).itable ip).copy
      if d.type = T_DEVICE ∧ (d.major < 0 ∨ NDEV ≤ d.major) then openBad sb ip
      else do
        match ← openFile sb p with
        | none => openBad sb ip
        | some (f, fd) => do
          setFile f fun x => openedFile x ip d omode
          if has omode O_TRUNC ∧ d.type = T_FILE then itrunc sb ip else pure ()
          iunlock ip
          endOp
          return fd

/-- `sys_mkdir` and `sys_mknod`: an entry that is not kept open. -/
def makeNode (p : Nat) (path : Option (List UInt8)) (type major minor : Int) : M Int := do
  beginOp
  let ip ←
    match path with
    | none => pure none
    | some path => create sb p path type major minor
  match ip with
  | none => do
    endOp
    return -1
  | some ip => do
    iunlockput sb ip
    endOp
    return 0

def sysMkdir (p : Nat) (path : Option (List UInt8)) : M Int := makeNode sb p path T_DIR 0 0

/-- The device numbers are `int`s that `create` takes as `short`s. -/
def sysMknod (p : Nat) (path : Option (List UInt8)) (major minor : Int) : M Int :=
  makeNode sb p path T_DEVICE (short major) (short minor)

def sysChdir (p : Nat) (path : Option (List UInt8)) : M Int := do
  beginOp
  let ip ←
    match path with
    | none => pure none
    | some path => namei sb p path
  match ip with
  | none => do
    endOp
    return -1
  | some ip => do
    ilock sb ip
    if ((← get).itable ip).copy.type ≠ T_DIR then do
      iunlockput sb ip
      endOp
      return -1
    else do
      iunlock ip
      match ((← get).proc p).cwd with
      | none => throw .nullCwd
      | some cwd => do
        iput sb cwd
        endOp
        setProc p fun x => { x with cwd := some ip }
        return 0

/-! ## kernel/exec.c -/

abbrev PGSIZE : Nat := 4096
abbrev ELF_MAGIC : Nat := 0x464C457F

def loadsegLoop (ip offset sz : Nat) : List Nat → M Bool
  | [] => return true
  | i :: is => do
    let n := min (sz - i) PGSIZE
    let (r, _) ← readi sb ip kernelDst ((offset + i) % 2 ^ 32) n
    if r ≠ n then return false else loadsegLoop ip offset sz is

def loadseg (ip offset sz : Nat) : M Bool :=
  loadsegLoop sb ip offset sz ((List.range ((sz + PGSIZE - 1) / PGSIZE)).map (· * PGSIZE))

/-- `exec`'s loop over the program headers left; `mem k` is whether the `k`-th allocation
    of user memory succeeds. -/
def execSegs (ip phoff : Nat) (mem : Nat → Bool) : List Nat → M Bool
  | [] => return true
  | i :: is => do
    let (r, ph) ← readi sb ip kernelDst ((phoff + 32 * i) % 2 ^ 32) 32
    if r ≠ 32 then return false
    else if le32 ph 0 ≠ 1 then execSegs ip phoff mem is
    else if le32 ph 20 < le32 ph 16 then return false
    else if (le32 ph 8 + le32 ph 20) % 2 ^ 32 < le32 ph 8 then return false
    else if le32 ph 8 % PGSIZE ≠ 0 then return false
    else if mem (i + 1) = false then return false
    else do
      if ← loadseg sb ip (le32 ph 4) (le32 ph 16) then execSegs ip phoff mem is else return false

/-- `exec` while it holds its inode: the header, then the segments. -/
def execRead (ip : Nat) (mem : Nat → Bool) : M Bool := do
  let (r, elf) ← readi sb ip kernelDst 0 52
  if r ≠ 52 then return false
  else if le32 elf 0 ≠ ELF_MAGIC then return false
  else if mem 0 = false then return false
  else execSegs sb ip (le32 elf 28) mem (List.range (le16 elf 44))

/-- The operation of `exec`. What follows it (the stack, the commit to the new image) does
    not touch the file system: `stack` is whether that succeeds. -/
def sysExec (p : Nat) (path : Option (List UInt8)) (mem : Nat → Bool) (stack : Bool) : M Int := do
  match path with
  | none => return -1
  | some path => do
    beginOp
    match ← namei sb p path with
    | none => do
      endOp
      return -1
    | some ip => do
      ilock sb ip
      let loaded ← execRead sb ip mem
      iunlockput sb ip
      endOp
      return if loaded && stack then 0 else -1

/-! ## kernel/proc.c -/

def forkFds (p q : Nat) : List Nat → M Unit
  | [] => return ()
  | fd :: fds => do
    match ((← get).proc p).ofile fd with
    | some f => do
      filedup f
      setFd q fd (some f)
      forkFds p q fds
    | none => forkFds p q fds

/-- `mem` is whether the memory copy succeeds. -/
def fork (p : Nat) (mem : Bool) : M Int := do
  let s ← get
  match (List.range NPROC).find? fun q => decide ((s.proc q).state = .unused) with
  | none => return -1
  | some q =>
    if mem = false then return -1
    else do
      forkFds p q (List.range NOFILE)
      match ((← get).proc p).cwd with
      | none => throw .nullCwd
      | some cwd => do
        let _ ← idup cwd
        setProc q fun x => { x with cwd := some cwd, state := .used }
        return q

def exitFds (p : Nat) : List Nat → M Unit
  | [] => return ()
  | fd :: fds => do
    match ((← get).proc p).ofile fd with
    | some f => do
      fileclose sb f
      setFd p fd none
      exitFds p fds
    | none => exitFds p fds

def exit (p : Nat) : M Int := do
  if p = 0 then throw .initExiting
  else do
    exitFds sb p (List.range NOFILE)
    beginOp
    match ((← get).proc p).cwd with
    | none => throw .nullCwd
    | some cwd => do
      iput sb cwd
      endOp
      setProc p fun x => { x with cwd := none, state := .zombie }
      return 0

def reap (q : Nat) : M Int := do
  if ((← get).proc q).state = .zombie then do
    setProc q fun x => { x with state := .unused }
    return q
  else return -1

/-! ## System calls -/

inductive Call where
  | dup (fd : Int)
  | read (fd : Int) (dst : Dst) (n ext : Int)
  | write (fd : Int) (src : Src) (n ext : Int)
  | close (fd : Int)
  | fstat (fd : Int) (ok : Bool)
  | link (old new : Option (List UInt8))
  | unlink (path : Option (List UInt8))
  | open (path : Option (List UInt8)) (omode : Nat)
  | mkdir (path : Option (List UInt8))
  | mknod (path : Option (List UInt8)) (major minor : Int)
  | chdir (path : Option (List UInt8))
  | exec (path : Option (List UInt8)) (mem : Nat → Bool) (stack : Bool)
  | fork (mem : Bool)
  | exit
  | wait (q : Nat)

def sys (p : Nat) : Call → M Int
  | .dup fd => sysDup p fd
  | .read fd dst n ext => sysRead sb p fd dst n ext
  | .write fd src n ext => sysWrite sb p fd src n ext
  | .close fd => sysClose sb p fd
  | .fstat fd ok => sysFstat sb p fd ok
  | .link old new => sysLink sb p old new
  | .unlink path => sysUnlink sb p path
  | .open path omode => sysOpen sb p path omode
  | .mkdir path => sysMkdir sb p path
  | .mknod path major minor => sysMknod sb p path major minor
  | .chdir path => sysChdir sb p path
  | .exec path mem stack => sysExec sb p path mem stack
  | .fork mem => fork p mem
  | .exit => exit sb p
  | .wait q => reap q

end Xv6.Fs
