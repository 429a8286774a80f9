import Xv6.Stride
import Xv6.Vm

/-!
# Xv6.Kernel

The kernel state that the process system calls share, and the helpers they
are built from.

System calls run one at a time, so the locks never show between them and are left
out, except `thread_lock`, which a failing `thread_create` never gives back.
-/

namespace Xv6

open Lib Function

/-! ## The state -/

/-- `FD_NONE`, `FD_PIPE` and `FD_INODE` with what the file refers to. -/
inductive FileKind where
  | none
  | pipe (p : Frame)
  | inode (ip : InodeId)
  deriving DecidableEq, Repr

/-- `struct file`, less its offset -/
structure File where
  ref : Int
  kind : FileKind
  writable : Bool

/-- The reference count, `I_VALID` flag and link count of a `struct inode`. -/
structure Inode where
  ref : Int
  valid : Bool
  nlink : Int

/-- The two ends of a `struct pipe`, which lives in a page of its own. -/
structure Pipe where
  readopen : Bool
  writeopen : Bool

/-- A call of `freevm` on a page directory, with the other process table
entries in use that had it as their page directory at that moment. -/
structure FreevmCall where
  pgdir : PgdirId
  others : List Slot

/-- The kernel's global state.  `junk` supplies the values of uninitialised
locals, one per use; `freevmCalls` is a ghost record. -/
structure Kernel where
  ptable : PTable
  initproc : Slot
  nextpid : Int
  nextThreadId : Int
  threadLock : Bool
  pgdirRef : Fin NPROC → Int8
  pgdirRefNextIdx : Fin NPROC
  ftable : FileId → File
  icache : InodeId → Inode
  pipes : Frame → Pipe
  freelist : List Frame
  pgdirs : PgdirId → PgDir
  nextPgdir : PgdirId
  junk : Nat → Bool
  freevmCalls : List FreevmCall

/-- The process table entries in the order a `for` loop visits them. -/
def slots : List Slot := List.finRange NPROC

namespace Kernel

/-- The process table entry `p`. -/
def proc (s : Kernel) (p : Slot) : Proc := s.ptable.proc p

/-- Update one process table entry. -/
def upd (s : Kernel) (p : Slot) (f : Proc → Proc) : Kernel :=
  { s with ptable := s.ptable.setProc p f }

@[simp] theorem upd_proc_same (s : Kernel) (p : Slot) (f : Proc → Proc) :
    (s.upd p f).proc p = f (s.proc p) :=
  PTable.setProc_proc_same ..

theorem upd_proc_of_ne (s : Kernel) {p q : Slot} (f : Proc → Proc) (h : q ≠ p) :
    (s.upd p f).proc q = s.proc q :=
  PTable.setProc_proc_of_ne _ f h

/-- The process table entry `p` is in use. -/
def Live (s : Kernel) (p : Slot) : Prop := (s.proc p).state ≠ .unused

instance (s : Kernel) (p : Slot) : Decidable (s.Live p) :=
  inferInstanceAs (Decidable (_ ≠ _))

/-! ## Locks and wakeups -/

/-- `acquire(&thread_lock)`: panics when a failed `thread_create` still holds it. -/
def acquireThreadLock (s : Kernel) : Except Panic Unit :=
  if s.threadLock then .error .acquire else .ok ()

/-- `wakeup1(chan)` -/
def wakeup1 (s : Kernel) (chan : Chan) : Kernel :=
  { s with
    ptable := { s.ptable with
      proc := fun p =>
        if (s.proc p).state = .sleeping ∧ (s.proc p).chan = chan then
          { s.proc p with state := .runnable }
        else s.proc p } }

/-! ## Open files -/

/-- The channel readers of the pipe in page `p` sleep on, `&p->nread`. -/
def nreadChan (p : Frame) : Chan := .addr (2 * p + 1)

/-- The channel writers of the pipe in page `p` sleep on, `&p->nwrite`. -/
def nwriteChan (p : Frame) : Chan := .addr (2 * p + 2)

/-- The channel `begin_op` sleeps on, `&log`. -/
def logChan : Chan := .addr 0

/-- `pipeclose(p, writable)` -/
def pipeclose (s : Kernel) (p : Frame) (writable : Bool) : Kernel :=
  let s :=
    if writable then
      wakeup1 { s with
        pipes := update s.pipes p { s.pipes p with writeopen := false } } (nreadChan p)
    else
      wakeup1 { s with
        pipes := update s.pipes p { s.pipes p with readopen := false } } (nwriteChan p)
  if (s.pipes p).readopen = false ∧ (s.pipes p).writeopen = false then
    { s with freelist := p :: s.freelist }
  else s

/-- `iput(ip)`: the last reference to an inode without links frees it.  A null
`ip` makes the source count down a word of user memory. -/
def iput (s : Kernel) : Option InodeId → Kernel
  | none => s
  | some ip =>
    let i := s.icache ip
    let i := if i.ref = 1 ∧ i.valid ∧ i.nlink = 0 then { i with valid := false } else i
    { s with icache := update s.icache ip { i with ref := i.ref - 1 } }

/-- `end_op()` wakes the processes that wait for the log. -/
def endOp (s : Kernel) : Kernel := s.wakeup1 logChan

/-- `fileclose(f)` -/
def fileclose (s : Kernel) (f : FileId) : Except Panic Kernel :=
  let ff := s.ftable f
  if ff.ref < 1 then .error .fileclose
  else if ff.ref - 1 > 0 then
    .ok { s with ftable := update s.ftable f { ff with ref := ff.ref - 1 } }
  else
    let s := { s with ftable := update s.ftable f { ff with ref := 0, kind := .none } }
    match ff.kind with
    | .none => .ok s
    | .pipe p => .ok (s.pipeclose p ff.writable)
    | .inode ip => .ok (s.iput (some ip)).endOp

/-- `filedup(f)` -/
def filedup (s : Kernel) (f : FileId) : Except Panic Kernel :=
  let ff := s.ftable f
  if ff.ref < 1 then .error .filedup
  else .ok { s with ftable := update s.ftable f { ff with ref := ff.ref + 1 } }

/-- `idup(ip)` -/
def idup (s : Kernel) : Option InodeId → Kernel
  | none => s
  | some ip =>
    { s with icache := update s.icache ip
               { s.icache ip with ref := (s.icache ip).ref + 1 } }

/-- Close one descriptor of `p`, as `common_exit` and `thread_exit` do: with
`thread_lock` held around `fileclose`. -/
def closeFd (p : Slot) (s : Kernel) (fd : Fin NOFILE) : Except Panic Kernel :=
  match (s.proc p).ofile fd with
  | none => .ok s
  | some f => do
    s.acquireThreadLock
    let s ← s.fileclose f
    return s.upd p fun x => { x with ofile := update x.ofile fd none }

/-- Close all open files of `p` and drop its current directory. -/
def closeAll (s : Kernel) (p : Slot) : Except Panic Kernel := do
  let s ← forEach (closeFd p) (List.finRange NOFILE) s
  let s := (s.iput (s.proc p).cwd).endOp
  return s.upd p fun x => { x with cwd := none }

/-- Copy one open file of `c` into `np`, as `fork` and `thread_create` do. -/
def dupFd (c np : Slot) (s : Kernel) (fd : Fin NOFILE) : Except Panic Kernel :=
  match (s.proc c).ofile fd with
  | none => .ok s
  | some f => do
    s.acquireThreadLock
    let s ← s.filedup f
    return s.upd np fun x => { x with ofile := update x.ofile fd (some f) }

/-- Copy the open files and the current directory of `c` into `np`. -/
def dupAll (s : Kernel) (c np : Slot) : Except Panic Kernel := do
  let s ← forEach (dupFd c np) (List.finRange NOFILE) s
  s.acquireThreadLock
  let s := s.idup (s.proc c).cwd
  return s.upd np fun x => { x with cwd := (s.proc c).cwd }

/-! ## Page directories -/

/-- The entries in use other than `p` whose page directory is `g`. -/
def otherUsers (s : Kernel) (p : Slot) (g : PgdirId) : List Slot :=
  slots.filter fun q => q ≠ p ∧ s.Live q ∧ (s.proc q).pgdir = some g

/-- `freevm(g)` called on behalf of `p`. -/
def freePgdir (s : Kernel) (p : Slot) (g : PgdirId) : Except Panic Kernel := do
  let free ← freevm (s.pgdirs g) s.freelist
  return { s with
    freelist := free
    freevmCalls := { pgdir := g, others := s.otherUsers p g } :: s.freevmCalls }

/-- `freevm(pgdir)` for a page directory that may be null. -/
def freePgdir? (s : Kernel) (p : Slot) : Option PgdirId → Except Panic Kernel
  | none => .error .trap
  | some g => s.freePgdir p g

/-- `check_pgdir_counter_and_call_freevm(p)` -/
def checkPgdirCounterAndCallFreevm (s : Kernel) (p : Slot) : Except Panic Kernel :=
  match (s.proc p).pgdirRefIdx with
  | none => s.freePgdir? p (s.proc p).pgdir
  | some i =>
    if s.pgdirRef i ≤ 1 then do
      s.acquireThreadLock
      let s := { s with pgdirRef := update s.pgdirRef i 0 }
      s.freePgdir? p (s.proc p).pgdir
    else do
      s.acquireThreadLock
      return { s with pgdirRef := update s.pgdirRef i (s.pgdirRef i - 1) }

/-- The search loop of `allocate_new_pgdir_idx`: the first of `n` counters
from `i` on, cyclically, that is zero. -/
def findZeroRef (s : Kernel) : Nat → Fin NPROC → Option (Fin NPROC)
  | 0, _ => none
  | n + 1, i => if s.pgdirRef i = 0 then some i else s.findZeroRef n (i + 1)

/-- `allocate_new_pgdir_idx(p)` -/
def allocateNewPgdirIdx (s : Kernel) (p : Slot) : Except Panic Kernel := do
  s.acquireThreadLock
  match s.findZeroRef NPROC s.pgdirRefNextIdx with
  | none => .error .pgdirRefFull
  | some i =>
    return { s with
      ptable := s.ptable.setProc p fun x => { x with pgdirRefIdx := some i }
      pgdirRefNextIdx := i + 1
      pgdirRef := update s.pgdirRef i 1 }

end Kernel
end Xv6
