import Xv6.Process

/-!
# Xv6.Exit

The system calls that end processes and threads and collect them:
`exit`, `wait`, `thread_exit`, `thread_join` and `kill` (`proc.c`).

`wait` and `thread_join` scan the table once and finish or go to sleep; one call
of the source is a sequence of these scans.
-/

namespace Xv6

open Lib

namespace Kernel

/-! ## Giving up a process table entry -/

/-- The fields `clear_proc` resets. -/
def Proc.cleared (x : Proc) : Proc :=
  { x with
    pid := 0
    parent := none
    killed := false
    tickUsed := 0
    timeQuantumUsed := 0
    levelOfMLFQ := 0
    cpuShare := 0
    stride := 0
    strideCount := 0
    tid := 0
    pgdirRefIdx := none
    threadReturn := 0
    numOfThreads := 0
    procForkedInThread := none
    originalCpuShare := 0
    state := .unused }

/-- `clear_proc(p)` -/
def clearProc (s : Kernel) (p : Slot) : Except Panic (Kernel × Int) := do
  let pid := (s.proc p).pid
  let s ← s.kfreeKstack p
  let s ← s.checkPgdirCounterAndCallFreevm p
  return (s.upd p Proc.cleared, pid)

/-- `p->parent->sz = newsz < p->parent->sz ? newsz : p->parent->sz` -/
def lowerParentSz (s : Kernel) (p : Slot) (newsz : Nat) : Except Panic Kernel :=
  match (s.proc p).parent with
  | none => .error .trap
  | some m => .ok (s.upd m fun x => { x with sz := if newsz < x.sz then newsz else x.sz })

/-- Unmap the two pages below the size of `p`: the first half of
`remove_thread_stack`. -/
def unmapThreadStack (s : Kernel) (p : Slot) : Except Panic Kernel :=
  match (s.proc p).pgdirRefIdx with
  | none => .error .trap
  | some i =>
    if s.pgdirRef i > 1 then
      match (s.proc p).pgdir with
      | none => .error .trap
      | some g => do
        let sz := (s.proc p).sz
        let (d, free, newsz) ←
          deallocuvm (s.pgdirs g) s.freelist sz (uint (sz + 2 ^ 32 - 2 * PGSIZE))
        let s := { s with pgdirs := Function.update s.pgdirs g d, freelist := free }
        s.lowerParentSz p newsz
    else .ok s

/-- `remove_thread_stack(p)` -/
def removeThreadStack (s : Kernel) (p : Slot) : Except Panic Kernel := do
  let s ← s.unmapThreadStack p
  s.acquireThreadLock
  match (s.proc p).parent with
  | none => .error .trap
  | some m => return s.upd m fun x => { x with numOfThreads := x.numOfThreads - 1 }

/-! ## Leaving -/

/-- One turn of the loop that passes abandoned children to init. -/
def passChild (p : Slot) (s : Kernel) (q : Slot) : Kernel :=
  if (s.proc q).parent = some p then
    let s := s.upd q fun x => { x with parent := some s.initproc }
    if (s.proc q).state = .zombie then s.wakeup1 (.proc s.initproc) else s
  else s

/-- Pass abandoned children of `p` to init. -/
def passChildren (s : Kernel) (p : Slot) : Kernel := slots.foldl (passChild p) s

/-- `stride_queue_delete(p)`, if `p` is a stride process, with `thread_lock`
held. -/
def leaveStride (s : Kernel) (cur p : Slot) : Except Panic Kernel :=
  if (s.proc p).cpuShare ≠ 0 then do
    s.acquireThreadLock
    let t ← s.ptable.strideQueueDelete cur p (s.junk 0)
    return { s with ptable := t, junk := fun n => s.junk (n + 1) }
  else .ok s

/-- `common_exit(p)` with `cur` running. -/
def commonExit (s : Kernel) (cur p : Slot) : Except Panic Kernel := do
  let s ← s.closeAll p
  let s ← s.leaveStride cur p
  let s := s.wakeup1 (.ofPtr (s.proc p).parent)
  let s := s.passChildren p
  return s.upd p fun x => { x with state := .zombie }

/-- `thread_exit(retval)` -/
def threadExit (s : Kernel) (c : Slot) (retval : Nat) : Except Panic Kernel := do
  if c = s.initproc then .error .initExiting
  let s ← s.closeAll c
  let s := s.upd c fun x => { x with threadReturn := retval }
  let s ← s.leaveStride c c
  let s := s.wakeup1 (.ofPtr (s.proc c).parent)
  let s := s.passChildren c
  return s.upd c fun x => { x with state := .zombie }

/-! ## Collecting -/

/-- Go to sleep on `chan`. -/
def sleepOn (s : Kernel) (c : Slot) (chan : Chan) : Kernel :=
  s.upd c fun x => { x with chan := chan, state := .sleeping }

/-- What a scan of `wait` or `thread_join` ends with. -/
inductive Scan where
  | done (r : Int)
  | asleep
  deriving DecidableEq, Repr

/-- The end of a scan that found no zombie. -/
def scanEnd (s : Kernel) (c : Slot) (havekids : Bool) (chan : Chan) : Kernel × Scan :=
  if havekids = false ∨ (s.proc c).killed then (s, .done (-1)) else (s.sleepOn c chan, .asleep)

/-- `thread_join(thread, retval)` -/
def threadJoin (s : Kernel) (c : Slot) (thread : Int) : Except Panic (Kernel × Scan) :=
  let kid (p : Slot) : Prop := (s.proc p).parent = some c ∧ (s.proc p).tid = thread
  match slots.find? fun p => kid p ∧ (s.proc p).state = .zombie with
  | some p => do
    let s ← s.removeThreadStack p
    let (s, _) ← s.clearProc p
    return (s, .done 0)
  | none => .ok (s.scanEnd c (slots.any fun p => kid p) (.proc c))

/-- The scan of `wait_normal` and `wait_thread` over the children `kid`. -/
def waitScan (s : Kernel) (c : Slot) (kid : Slot → Bool) (chan : Chan) :
    Except Panic (Kernel × Scan) :=
  match slots.find? fun p => kid p ∧ (s.proc p).state = .zombie with
  | some p => do
    let (s, pid) ← s.clearProc p
    return (s, .done pid)
  | none => .ok (s.scanEnd c (slots.any kid) chan)

/-- `wait_normal()` -/
def waitNormal (s : Kernel) (c : Slot) : Except Panic (Kernel × Scan) :=
  s.waitScan c (fun p => (s.proc p).parent = some c ∧ (s.proc p).tid = 0) (.proc c)

/-- `wait_thread()` -/
def waitThread (s : Kernel) (c : Slot) : Except Panic (Kernel × Scan) :=
  s.waitScan c (fun p => (s.proc p).parent = (s.proc c).procForkedInThread)
    (.ofPtr (s.proc c).procForkedInThread)

/-- `wait()` -/
def wait (s : Kernel) (c : Slot) : Except Panic (Kernel × Scan) :=
  if (s.proc c).tid = 0 then s.waitNormal c else s.waitThread c

/-! ## exit -/

/-- One turn of the loop of `exit` in a master thread: end the thread `p` and
join it. -/
def exitMasterThread (c : Slot) (s : Kernel) (p : Slot) : Except Panic Kernel :=
  if (s.proc p).pid = (s.proc c).pid ∧ (s.proc p).tid ≠ 0 then do
    let tid := (s.proc p).tid
    let s ← s.commonExit c p
    match ← s.threadJoin c tid with
    | (s, .done _) => return s
    | (_, .asleep) => .error .asleep
  else .ok s

/-- One turn of the loop of `exit` in a thread: end and clear the other thread
`p`. -/
def exitOtherThread (c : Slot) (s : Kernel) (p : Slot) : Except Panic Kernel :=
  if (s.proc p).pid = (s.proc c).pid ∧ (s.proc p).tid ≠ 0 ∧ p ≠ c then do
    let s ← s.removeThreadStack p
    let s ← s.commonExit c p
    let (s, _) ← s.clearProc p
    return s
  else .ok s

/-- `exit()`.  The state is the one in which the caller jumps into the
scheduler, never to return. -/
def exit (s : Kernel) (c : Slot) : Except Panic Kernel :=
  if c = s.initproc then .error .initExiting
  else if (s.proc c).tid = 0 ∧ (s.proc c).numOfThreads = 0 then s.commonExit c c
  else if (s.proc c).tid = 0 ∧ (s.proc c).numOfThreads ≠ 0 then do
    let s ← forEach (exitMasterThread c) slots s
    s.commonExit c c
  else if (s.proc c).tid ≠ 0 ∧ (s.proc c).numOfThreads = 0 then do
    -- the source takes the parent for the master thread
    match (s.proc c).parent with
    | none => .error .trap
    | some masterThread => do
      let s ← forEach (exitOtherThread c) slots s
      let s ← s.commonExit c masterThread
      let s ← s.removeThreadStack c
      let s ← s.commonExit c c
      return s.upd c fun x => { x with state := .unused }
  else .error .exitWrongCase

/-! ## kill -/

/-- `kill(pid)` -/
def kill (s : Kernel) (pid : Int) : Kernel × Int :=
  match slots.find? fun p => (s.proc p).pid = pid with
  | some p =>
    (s.upd p fun x =>
      { x with
        killed := true
        state := if x.state = .sleeping then .runnable else x.state }, 0)
  | none => (s, -1)

end Kernel
end Xv6
