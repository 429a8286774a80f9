import Xv6.Param

/-!
# Xv6.Proc

The process table (`proc.h` and the `ptable` of `proc.c`).

A `struct proc *` is a `Slot`, an index into `ptable.proc`, and a pointer
that may be null is an `Option Slot`.  The scheduling integers that the code adds,
subtracts and divides are `Int32`, with C's two's-complement wrap-around
(the kernel is built at `-O0`); identifiers and thread counters are `Int`.
-/

namespace Xv6

/-- An index into `ptable.proc`: what a non-null `struct proc *` points to. -/
abbrev Slot : Type := Fin NPROC

/-- `enum procstate` -/
inductive ProcState where
  | unused | embryo | sleeping | runnable | running | zombie
  deriving DecidableEq, Repr

/-- What a `void *chan` points to: nothing, a process slot (`wait` and
`thread_join` sleep on one), or some other kernel object. -/
inductive Chan where
  | null
  | proc (p : Slot)
  | addr (a : Nat)
  deriving DecidableEq, Repr

/-- The channel for a `struct proc *`, null included. -/
def Chan.ofPtr : Option Slot → Chan
  | none => .null
  | some p => .proc p

/-- An index into `ftable.file`: what a non-null `struct file *` points to. -/
abbrev FileId : Type := Fin NFILE

/-- An index into `icache.inode`: what a non-null `struct inode *` points to. -/
abbrev InodeId : Type := Fin NINODE

/-- A physical page, by number. -/
abbrev Frame : Type := Nat

/-- The name of a page directory.  Every successful `setupkvm` hands out a new one. -/
abbrev PgdirId : Type := Nat

/-- Per-process state.  `kstack` and `pgdir` are null as `none`, and
`pgdirRefIdx` is `none` for the C value `-1`. -/
structure Proc where
  sz : Nat
  pgdir : Option PgdirId
  kstack : Option Frame
  state : ProcState
  pid : Int
  parent : Option Slot
  chan : Chan
  killed : Bool
  ofile : Fin NOFILE → Option FileId
  cwd : Option InodeId
  tickUsed : Nat
  timeQuantumUsed : Nat
  levelOfMLFQ : Nat
  cpuShare : Int32
  stride : Int32
  strideCount : Int32
  tid : Int
  pgdirRefIdx : Option (Fin NPROC)
  threadReturn : Nat
  numOfThreads : Int
  procForkedInThread : Option Slot
  originalCpuShare : Int32

/-- A process table entry that was never used: the kernel's bss is zero. -/
def Proc.zero : Proc where
  sz := 0
  pgdir := none
  kstack := none
  state := .unused
  pid := 0
  parent := none
  chan := .null
  killed := false
  ofile := fun _ => none
  cwd := none
  tickUsed := 0
  timeQuantumUsed := 0
  levelOfMLFQ := 0
  cpuShare := 0
  stride := 0
  strideCount := 0
  tid := 0
  pgdirRefIdx := some 0
  threadReturn := 0
  numOfThreads := 0
  procForkedInThread := none
  originalCpuShare := 0

/-- The `ptable` of `proc.c`, less its lock.  `strideQueue` is the array
`stride_queue[NSTRIDE_QUEUE]`, used from index 1. -/
structure PTable where
  proc : Slot → Proc
  mlfqTimeQuantum : Nat → Nat
  mlfqTickUsed : Nat
  queueLevelAtMost : Nat
  minOfRunProcLevel : Nat
  strideQueue : Nat → Option Slot
  sumCpuShare : Int32
  strideQueueSize : Int
  strideTimeQuantum : Nat
  strideTickUsed : Nat

namespace PTable

/-- The table after `pinit()`: the MLFQ quanta double from 5 ticks, the
stride queue is empty. -/
def pinit : PTable where
  proc := fun _ => Proc.zero
  mlfqTimeQuantum := fun level => if level < NMLFQ then 5 * 2 ^ level else 0
  mlfqTickUsed := 0
  queueLevelAtMost := NMLFQ - 1
  minOfRunProcLevel := NMLFQ - 1
  strideQueue := fun _ => none
  sumCpuShare := 0
  strideQueueSize := 0
  strideTimeQuantum := 1
  strideTickUsed := 0

/-- Update one process table entry. -/
def setProc (t : PTable) (p : Slot) (f : Proc → Proc) : PTable :=
  { t with proc := Function.update t.proc p (f (t.proc p)) }

@[simp] theorem setProc_proc_same (t : PTable) (p : Slot) (f : Proc → Proc) :
    (t.setProc p f).proc p = f (t.proc p) := by
  simp [setProc]

theorem setProc_proc_of_ne (t : PTable) {p q : Slot} (f : Proc → Proc) (h : q ≠ p) :
    (t.setProc p f).proc q = t.proc q := by
  simp [setProc, h]

@[simp] theorem setProc_strideQueue (t : PTable) (p : Slot) (f : Proc → Proc) :
    (t.setProc p f).strideQueue = t.strideQueue := rfl

@[simp] theorem setProc_strideQueueSize (t : PTable) (p : Slot) (f : Proc → Proc) :
    (t.setProc p f).strideQueueSize = t.strideQueueSize := rfl

end PTable

/-- The ways a modelled call does not complete: the `panic` calls of the
source, `trap` for a fault in the kernel (a null pointer, a division by zero)
and `asleep` for a call that blocks in `sleep` where the source never expects
it to. -/
inductive Panic where
  | acquire
  | asleep
  | copyuvmPte
  | copyuvmPage
  | exitNotInStride
  | exitWrongCase
  | fileclose
  | filedup
  | initExiting
  | kfree
  | pgdirRefFull
  | remap
  | clearpteu
  | setCpuShareThreads
  | threadCreateStride
  | trap
  | userinit
  deriving DecidableEq, Repr

end Xv6
