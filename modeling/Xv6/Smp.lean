import Xv6.Scheduler

/-!
# Xv6.Smp

The kernel on several CPUs.  Every critical section of `ptable.lock` is a step of
its own, and so is the code between two of them.  What a process has still to do
of its call is a list of instructions, and any CPU may take the next step.

A process may be preempted, or sleep for the log, between two instructions.
-/

namespace Xv6

open Lib Function

namespace Kernel

/-! ## Calls in parts -/

/-- `common_exit(p)` from where it takes `ptable.lock`, with `cur` running. -/
def bury (s : Kernel) (cur p : Slot) : Except Panic Kernel := do
  let s ← s.leaveStride cur p
  let s := s.wakeup1 (.ofPtr (s.proc p).parent)
  let s := s.passChildren p
  return s.upd p fun x => { x with state := .zombie }

/-- `thread_exit(retval)` from where it takes `ptable.lock`. -/
def threadBury (s : Kernel) (c : Slot) (retval : Nat) : Except Panic Kernel :=
  (s.upd c fun x => { x with threadReturn := retval }).bury c c

/-- What `fork` does to the child in entry `np` before it takes `ptable.lock`
again, with the copied memory `d`. -/
def dressChild (s : Kernel) (c np : Slot) (d : PgDir) : Except Panic Kernel := do
  let g := s.nextPgdir
  let s := s.newPgdir d
  let s := s.upd np fun x => { x with pgdir := some g, sz := (s.proc c).sz, parent := some c }
  let s ← s.allocateNewPgdirIdx np
  s.dupAll c np

/-- `fork` between its two critical sections, and whether there will be a
child. -/
def fillChild (s : Kernel) (c np : Slot) : Except Panic (Kernel × Bool) :=
  match (s.proc c).pgdir with
  | none => .error .trap
  | some g => do
    match ← copyuvm (s.pgdirs g) (s.proc c).sz s.freelist with
    | (none, free) => do
      let s ← { s with freelist := free }.forkFailed np
      return (s, false)
    | (some d, free) => do
      let s ← { s with freelist := free }.dressChild c np d
      return (s, true)

/-- `thread_create` between its two critical sections, and whether there will
be a thread. -/
def fillThread (s : Kernel) (c np : Slot) : Except Panic (Kernel × Bool) := do
  let s := s.threadEntry c np
  s.acquireThreadLock
  match (s.proc np).pgdirRefIdx with
  | none => .error .trap
  | some i => do
    let s := { s with pgdirRef := update s.pgdirRef i (s.pgdirRef i + 1) }
    let s ← s.dupAll c np
    match ← s.threadStack c np with
    | (s, false) => return (s, false)
    | (s, true) => do
      let s ← s.countThread c
      return (s, true)

/-- `np->state = RUNNABLE` -/
def ready (s : Kernel) (np : Slot) : Kernel := s.upd np fun x => { x with state := .runnable }

/-- The return value that `thread_join(thread)` by `c` finds, if it finds a
zombie. -/
def joinRetval (s : Kernel) (c : Slot) (thread : Int) : Option Nat :=
  (slots.find? fun p => ((s.proc p).parent = some c ∧ (s.proc p).tid = thread) ∧
    (s.proc p).state = .zombie).map fun p => (s.proc p).threadReturn

/-- A turn of `scheduler()` that looks in the stride queue, and the process it
switches to, whatever its state.  The counter of `select_stride_or_MLFQ` goes
round on all CPUs; here it has come to zero. -/
def strideTurn (s : Kernel) : Except Panic (Kernel × Option Slot) := do
  let (m, strideIsSelected) ← Machine.selectStrideOrMLFQ ⟨s, -1⟩
  if strideIsSelected then do
    let (m, p) ← m.runStride
    return (m.kernel, p)
  else return (m.kernel, none)

/-! ## Instructions -/

/-- What a process has to do next, inside a system call. -/
inductive Instr where
  /-- `fork` with the new entry `np`, up to its last critical section. -/
  | fillChild (np : Slot)
  /-- `thread_create` with the new entry `np`, up to its last critical section. -/
  | fillThread (np : Slot)
  /-- The last critical section of `fork` and `thread_create`. -/
  | ready (np : Slot)
  /-- The end of `thread_create`: the CPU share of the group. -/
  | share (np : Slot)
  /-- `common_exit(p)` and `thread_exit` up to the critical section. -/
  | close (p : Slot)
  /-- The critical section of `common_exit(p)` for another process. -/
  | bury (p : Slot)
  /-- The critical section of `common_exit(proc)`, into the scheduler. -/
  | die
  /-- The critical section of `thread_exit(retval)`, into the scheduler. -/
  | threadDie (retval : Nat)
  /-- A scan of `thread_join(thread)`. -/
  | join (thread : Int)
  /-- `remove_thread_stack(p)` -/
  | stack (p : Slot)
  /-- The critical section of `common_exit(p)` with `clear_proc(p)`. -/
  | buryAndClear (p : Slot)
  /-- The critical section of `common_exit(proc)`, and `proc->state = UNUSED`. -/
  | vanish
  /-- The loop of `exit` in a master thread, at entry `i`. -/
  | masterLoop (i : Nat)
  /-- The loop of `exit` in a thread, at entry `i`. -/
  | threadLoop (i : Nat) (masterThread : Slot)
  deriving DecidableEq, Repr

/-- Carry out an instruction for the running process `c`: the new state, and
what is to be done in its place. -/
def Instr.run (s : Kernel) (c : Slot) : Instr → Except Panic (Kernel × List Instr)
  | .fillChild np => do
    let (s, ok) ← s.fillChild c np
    return (s, if ok then [.ready np] else [])
  | .fillThread np => do
    let (s, ok) ← s.fillThread c np
    return (s, if ok then [.ready np, .share np] else [])
  | .ready np => .ok (s.ready np, [])
  | .share np => do
    let s ← s.shareWithThread c np
    return (s, [])
  | .close p => do
    let s ← s.closeAll p
    return (s, [])
  | .bury p => do
    let s ← s.bury c p
    return (s, [])
  | .die => do
    let s ← s.bury c c
    return (s, [])
  | .threadDie retval => do
    let s ← s.threadBury c retval
    return (s, [])
  | .join thread => do
    match ← s.threadJoin c thread with
    | (s, .done _) => return (s, [])
    -- scan again after the wakeup
    | (s, .asleep) => return (s, [.join thread])
  | .stack p => do
    let s ← s.removeThreadStack p
    return (s, [])
  | .buryAndClear p => do
    let s ← s.bury c p
    let (s, _) ← s.clearProc p
    return (s, [])
  | .vanish => do
    let s ← s.bury c c
    return (s.upd c fun x => { x with state := .unused }, [])
  | .masterLoop i =>
    if h : i < NPROC then
      let p : Slot := ⟨i, h⟩
      if (s.proc p).pid = (s.proc c).pid ∧ (s.proc p).tid ≠ 0 then
        .ok (s, [.close p, .bury p, .join (s.proc p).tid, .masterLoop (i + 1)])
      else .ok (s, [.masterLoop (i + 1)])
    else .ok (s, [.close c, .die])
  | .threadLoop i masterThread =>
    if h : i < NPROC then
      let p : Slot := ⟨i, h⟩
      if (s.proc p).pid = (s.proc c).pid ∧ (s.proc p).tid ≠ 0 ∧ p ≠ c then
        .ok (s, [.stack p, .close p, .buryAndClear p, .threadLoop (i + 1) masterThread])
      else .ok (s, [.threadLoop (i + 1) masterThread])
    else .ok (s, [.close masterThread, .bury masterThread, .stack c, .close c, .vanish])

/-- The instructions of `exit()`. -/
def beginExit (s : Kernel) (c : Slot) : Except Panic (List Instr) :=
  if c = s.initproc then .error .initExiting
  else if (s.proc c).tid = 0 ∧ (s.proc c).numOfThreads = 0 then .ok [.close c, .die]
  else if (s.proc c).tid = 0 ∧ (s.proc c).numOfThreads ≠ 0 then .ok [.masterLoop 0]
  else if (s.proc c).tid ≠ 0 ∧ (s.proc c).numOfThreads = 0 then
    match (s.proc c).parent with
    | none => .error .trap
    | some masterThread => .ok [.threadLoop 0 masterThread]
  else .error .exitWrongCase

/-- The first step of a system call by `c`: the new state, and what is left to
do. -/
def beginCall (s : Kernel) (c : Slot) : Syscall → Except Panic (Kernel × List Instr)
  | .fork =>
    if (s.proc c).tid ≠ 0 then .ok (s, [])
    else
      match s.allocproc with
      | (s, none) => .ok (s, [])
      | (s, some np) => .ok (s, [.fillChild np])
  | .threadCreate =>
    match s.allocproc with
    | (s, none) => .ok (s, [])
    | (s, some np) => .ok (s, [.fillThread np])
  | .threadExit retval =>
    if c = s.initproc then .error .initExiting else .ok (s, [.close c, .threadDie retval])
  | .threadJoin thread => .ok (s, [.join thread])
  | .exit => do
    let l ← s.beginExit c
    return (s, l)
  | op => do
    let s ← s.syscall c op
    return (s, [])

end Kernel

/-! ## The machine -/

/-- A CPU. -/
abbrev Cpu : Type := Fin NCPU

/-- The kernel with the current process of every CPU, and with what every
process has still to do of its system call. -/
structure Smp where
  kernel : Kernel
  cpu : Cpu → Option Slot
  todo : Slot → List Kernel.Instr

namespace Smp

/-- What happens on a CPU. -/
inductive Act where
  /-- The scheduler switches to `p`, which is in the MLFQ. -/
  | schedule (i : Cpu) (p : Slot)
  /-- The scheduler looks in the stride queue. -/
  | stride (i : Cpu)
  /-- The current process leaves the CPU in `yield`. -/
  | yield (i : Cpu)
  /-- The current process goes to sleep, in a call that is not modelled or for
  the log. -/
  | sleep (i : Cpu) (chan : Chan)
  /-- An interrupt handler calls `wakeup`. -/
  | wakeup (chan : Chan)
  /-- The current process makes a file system call. -/
  | files (i : Cpu) (f : Kernel.FilesAfter)
  /-- The current process starts a system call. -/
  | call (i : Cpu) (op : Kernel.Syscall)
  /-- The current process carries out the next instruction of its call. -/
  | step (i : Cpu)

/-- The current process may sleep here outside of `thread_join`: in a call that
is not modelled, and in `begin_op`. -/
def MaySleep : List Kernel.Instr → Prop
  | [] | .close _ :: _ => True
  | _ => False

instance : DecidablePred MaySleep
  | [] | .close _ :: _ => inferInstanceAs (Decidable True)
  | .fillChild _ :: _ | .fillThread _ :: _ | .ready _ :: _ | .share _ :: _ | .bury _ :: _
  | .die :: _ | .threadDie _ :: _ | .join _ :: _ | .stack _ :: _ | .buryAndClear _ :: _
  | .vanish :: _ | .masterLoop _ :: _ | .threadLoop _ _ :: _ => inferInstanceAs (Decidable False)

/-- The process `c` on CPU `i` has brought the kernel to `k`, with `l` left to
do.  When it is not `RUNNING` it has switched to the scheduler. -/
def after (s : Smp) (i : Cpu) (c : Slot) (k : Kernel) (l : List Kernel.Instr) : Smp where
  kernel := k
  cpu := if (k.proc c).state = .running then s.cpu else update s.cpu i none
  todo := update s.todo c l

/-- The next step of `c`, the current process of CPU `i`. -/
def acts (s : Smp) (i : Cpu) (c : Slot) : Act → Option Smp
  | .yield _ => (s.kernel.next (.yield c)).map fun k => s.after i c k (s.todo c)
  | .sleep _ chan =>
    if MaySleep (s.todo c) then
      (s.kernel.next (.sleep c chan)).map fun k => s.after i c k (s.todo c)
    else none
  | .files _ f =>
    if s.todo c = [] then
      (s.kernel.next (.files c f)).map fun k => s.after i c k []
    else none
  | .call _ op =>
    if s.todo c = [] then
      (s.kernel.beginCall c op).toOption.map fun r => s.after i c r.1 r.2
    else none
  | .step _ =>
    match s.todo c with
    | [] => none
    | x :: l => (x.run s.kernel c).toOption.map fun r => s.after i c r.1 (r.2 ++ l)
  | .schedule _ _ | .stride _ | .wakeup _ => none

/-- The CPU on which something happens. -/
def Act.cpu : Act → Option Cpu
  | .schedule i _ | .stride i | .yield i | .sleep i _ | .files i _ | .call i _ | .step i => some i
  | .wakeup _ => none

/-- The state after an act, if it can happen and the kernel does not panic.
Only a `RUNNING` process takes a step: what the code does on a CPU whose process
has been taken away from it, or given to another CPU as well, is not modelled. -/
def next (s : Smp) (a : Act) : Option Smp :=
  match a with
  | .schedule i p =>
    if s.cpu i = none ∧ (s.kernel.proc p).cpuShare = 0 then
      (s.kernel.next (.dispatch p)).map fun k =>
        { s with kernel := k, cpu := update s.cpu i (some p) }
    else none
  | .stride i =>
    if s.cpu i = none then
      s.kernel.strideTurn.toOption.map fun r =>
        { s with kernel := r.1, cpu := update s.cpu i r.2 }
    else none
  | .wakeup chan => some { s with kernel := s.kernel.wakeup1 chan }
  | .yield i | .sleep i _ | .files i _ | .call i _ | .step i =>
    match s.cpu i with
    | none => none
    | some c => if (s.kernel.proc c).state = .running then s.acts i c a else none

/-- The first process has just started on the first CPU; the others idle. -/
def boot (k : Kernel) : Smp where
  kernel := k
  cpu := update (fun _ => none) 0 (some k.initproc)
  todo := fun _ => []

/-- The states in which the first process has just started. -/
def Started (s : Smp) : Prop := ∃ k : Kernel, k.Started ∧ s = boot k

/-- Reachable by acts that all meet `guard`. -/
abbrev ReachableBy (guard : Smp → Act → Prop) (s : Smp) : Prop := Reach Started next guard s

end Smp

end Xv6
