import Mathlib

/-!
# Xv6.Param

The kernel's compile-time constants (`param.h`, `mmu.h`, `memlayout.h`),
under the names the C sources give them.
-/

namespace Xv6

/-! ## param.h -/

/-- maximum number of processes -/
abbrev NPROC : Nat := 64

instance neZeroNPROC : NeZero NPROC := ⟨Nat.succ_ne_zero _⟩

/-- maximum number of CPUs -/
abbrev NCPU : Nat := 8

instance neZeroNCPU : NeZero NCPU := ⟨Nat.succ_ne_zero _⟩

/-- open files per process -/
abbrev NOFILE : Nat := 16

/-- open files per system -/
abbrev NFILE : Nat := 100

instance neZeroNFILE : NeZero NFILE := ⟨Nat.succ_ne_zero _⟩

/-- maximum number of active i-nodes -/
abbrev NINODE : Nat := 50

instance neZeroNINODE : NeZero NINODE := ⟨Nat.succ_ne_zero _⟩

/-- max # of blocks any FS op writes -/
abbrev MAXOPBLOCKS : Nat := 10

/-- max data blocks in on-disk log -/
abbrev LOGSIZE : Nat := MAXOPBLOCKS * 3

/-- size of file system in blocks -/
abbrev FSSIZE : Nat := 2000

/-- device number of file system root disk -/
abbrev ROOTDEV : Nat := 1

/-- the number of queues in MLFQ -/
abbrev NMLFQ : Nat := 3

/-- divided by the required cpu share to give the stride -/
abbrev NSTRIDE : Int32 := 100000

/-- the stride queue is indexed from 1 to `NPROC` -/
abbrev NSTRIDE_QUEUE : Nat := NPROC + 1

abbrev MIN_CPU_SHARE : Int32 := 1

abbrev MAX_CPU_SHARE : Int32 := 800

/-! ## mmu.h and memlayout.h -/

/-- bytes mapped by a page -/
abbrev PGSIZE : Nat := 4096

/-- First kernel virtual address -/
abbrev KERNBASE : Nat := 0x80000000

end Xv6
