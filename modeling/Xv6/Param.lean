/-
  Xv6.Param — the constants of kernel/param.h, kernel/fs.h, kernel/riscv.h and kernel/virtio.h the
  development uses, with the values this port configures.
-/

namespace Xv6

abbrev NPROC : Nat := 8
abbrev NOFILE : Nat := 8
abbrev NFILE : Nat := 8
abbrev NINODE : Nat := 8
abbrev NDEV : Int := 8
abbrev ROOTDEV : Nat := 1
abbrev MAXOPBLOCKS : Nat := 16
abbrev LOGSIZE : Nat := MAXOPBLOCKS
abbrev NBUF : Nat := MAXOPBLOCKS
abbrev FSSIZE : Nat := 2000

abbrev ROOTINO : Nat := 1
abbrev BSIZE : Nat := 512
abbrev NDIRECT : Nat := 12
abbrev NINDIRECT : Nat := BSIZE / 4
abbrev MAXFILE : Nat := NDIRECT + NINDIRECT
abbrev IPB : Nat := BSIZE / 64
abbrev BPB : Nat := BSIZE * 8
abbrev DIRSIZ : Nat := 14

abbrev PGSIZE : Nat := 4096

abbrev NUM : Nat := 8

end Xv6
