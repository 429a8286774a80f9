import Xv6.System

/-!
# Xv6.Scheduler

Scheduling: `select_stride_or_MLFQ` and `scheduler` (`proc.c`), and what a
timer interrupt does to the process it finds running (`trap.c`).

There are two machines.  `Machine` is the kernel of `Xv6.System` with the
stride selections of any number of CPUs as further steps.  `Sched` follows
`scheduler()` on one CPU through its table scan: where it is in the loop, its
local variables, and the process it has switched to.
-/

namespace Xv6

open Lib

/-- The kernel with the static variable `queue_selector`. -/
structure Machine where
  kernel : Kernel
  queueSelector : Int

namespace Machine

/-! ## Choosing between stride and MLFQ -/

/-- `select_stride_or_MLFQ()` -/
def selectStrideOrMLFQ (m : Machine) : Except Panic (Machine × Bool) := do
  m.kernel.acquireThreadLock
  let m := { m with queueSelector := (m.queueSelector + 1) % 100 }
  let t := m.kernel.ptable
  if m.queueSelector < (t.sumCpuShare / 10).toInt then
    -- the stride queue is selected, unless it is empty
    if t.strideQueueSize = 0 then
      return ({ m with kernel := { m.kernel with ptable := { t with sumCpuShare := 0 } } }, false)
    else return (m, true)
  else return (m, false)

/-- `p->state = RUNNING; swtch(&cpu->scheduler, p->context)`.  The process
comes back in `sched()`, which resets its time quantum. -/
def switchTo (m : Machine) (p : Slot) : Machine :=
  { m with kernel := m.kernel.upd p fun x => { x with state := .running, timeQuantumUsed := 0 } }

/-- Find a process in the stride queue and switch to it, if there is one. -/
def runStride (m : Machine) : Except Panic (Machine × Option Slot) := do
  let (t, strideIdxToBeRun) ← m.kernel.ptable.findIdxOfStrideToRun
  let m := { m with kernel := { m.kernel with ptable := t } }
  if (strideIdxToBeRun : Int) ≤ t.strideQueueSize then do
    let p ← PTable.deref (t.strideQueue strideIdxToBeRun)
    return (m.switchTo p, some p)
  else return (m, none)

/-! ## The kernel with stride selections -/

/-- An event of the kernel, or a turn of the loop of `scheduler()` in which it
chooses a queue. -/
inductive Move where
  | event (e : Kernel.Event)
  | turn

/-- A turn in which `scheduler()` chooses a queue, and runs a process of the
stride queue if it chooses that. -/
def turn (m : Machine) : Except Panic Machine :=
  if m.kernel.ptable.sumCpuShare = 0 then .ok m
  else do
    let (m, strideIsSelected) ← m.selectStrideOrMLFQ
    if strideIsSelected then Prod.fst <$> m.runStride else return m

/-- The state after a move, if it can happen and the kernel does not panic. -/
def next (m : Machine) : Move → Option Machine
  | .event e => (m.kernel.next e).map fun k => { m with kernel := k }
  | .turn => m.turn.toOption

/-- The first process has just started. -/
def Started (m : Machine) : Prop := m.kernel.Started ∧ m.queueSelector = -1

/-- Reachable by moves that all meet `guard`. -/
abbrev ReachableBy (guard : Machine → Move → Prop) (m : Machine) : Prop :=
  Reach Started next guard m

end Machine

/-! ## One CPU -/

/-- Where `scheduler()` is. -/
inductive Place where
  /-- It does not hold `ptable.lock`. -/
  | released
  /-- At the top of the `for` loop, with `p` at entry `i`. -/
  | scan (i : Nat)
  /-- It has switched to `p`; `before` is the local `before_MLFQ_used_tick`. -/
  | running (p : Slot) (before : Nat)
  deriving DecidableEq, Repr

/-- `scheduler()` on one CPU, with its local variables. -/
structure Sched extends Machine where
  choosingStrideOrMLFQ : Bool
  strideIsSelected : Bool
  place : Place

namespace Sched

/-- The process table. -/
def ptable (s : Sched) : PTable := s.kernel.ptable

/-- Replace the process table. -/
def setTable (s : Sched) (t : PTable) : Sched :=
  { s with kernel := { s.kernel with ptable := t } }

/-- `acquire(&ptable.lock)` and the start of the first table scan. -/
def acquire (s : Sched) : Sched :=
  { s.setTable { s.ptable with queueLevelAtMost := NMLFQ - 1, minOfRunProcLevel := NMLFQ - 1 } with
    choosingStrideOrMLFQ := true
    place := .scan 0 }

/-- The first part of the loop body: which queue to look in. -/
def chooseQueue (s : Sched) : Except Panic Sched :=
  if s.ptable.sumCpuShare = 0 then
    .ok { s with strideIsSelected := false, choosingStrideOrMLFQ := false }
  else if s.choosingStrideOrMLFQ then do
    let (m, strideIsSelected) ← s.toMachine.selectStrideOrMLFQ
    return { s with toMachine := m, strideIsSelected := strideIsSelected }
  else .ok s

/-- Switch to `p`. -/
def switchTo (s : Sched) (p : Slot) : Sched :=
  { s with toMachine := s.toMachine.switchTo p, place := .running p s.ptable.mlfqTickUsed }

/-- `p` can be run by the MLFQ: it is `RUNNABLE`, not in the stride queue, and
on a level not below `queue_level_at_most`. -/
def Eligible (t : PTable) (p : Slot) : Prop :=
  (t.proc p).state = .runnable ∧ (t.proc p).cpuShare = 0 ∧
    (t.proc p).levelOfMLFQ ≤ t.queueLevelAtMost

instance (t : PTable) (p : Slot) : Decidable (Eligible t p) := inferInstanceAs (Decidable (_ ∧ _))

/-- The table after the MLFQ has chosen `p`. -/
def lowerLevel (t : PTable) (p : Slot) : PTable :=
  let level := min (t.proc p).levelOfMLFQ t.queueLevelAtMost
  { t with queueLevelAtMost := level, minOfRunProcLevel := level }

/-- The second part of the loop body, with `p` at entry `i`. -/
def runChosen (s : Sched) (i : Slot) : Except Panic Sched :=
  if s.strideIsSelected then do
    match ← s.toMachine.runStride with
    | (m, some p) => return { s with toMachine := m, place := .running p m.kernel.ptable.mlfqTickUsed }
    | (m, none) =>
      -- no process to be run in the stride queue
      return { s with
        toMachine := m
        strideIsSelected := false
        choosingStrideOrMLFQ := false
        place := .scan (i + 1) }
  else if Eligible s.ptable i then .ok ((s.setTable (lowerLevel s.ptable i)).switchTo i)
  else .ok { s with choosingStrideOrMLFQ := false, place := .scan (i + 1) }

/-- The end of a table scan: the next one starts, or the lock is released. -/
def endScan (s : Sched) : Sched :=
  let t := s.ptable
  let t := if t.minOfRunProcLevel = NMLFQ - 1 then
    { t with queueLevelAtMost := t.queueLevelAtMost + 1 } else t
  if t.queueLevelAtMost < NMLFQ then
    { s.setTable { t with minOfRunProcLevel := NMLFQ - 1 } with place := .scan 0 }
  else { s.setTable t with place := .released }

/-- One turn of the `for` loop. -/
def scan (s : Sched) (i : Nat) : Except Panic Sched :=
  if h : i < NPROC then do
    let s ← s.chooseQueue
    s.runChosen ⟨i, h⟩
  else .ok s.endScan

/-- `scheduler()` after `p` has switched back to it.  A process of the MLFQ
that did not use a tick is run again; after a stride process the scan goes on
at the entry of that process. -/
def resume (s : Sched) (p : Slot) (before : Nat) : Sched :=
  let x := s.kernel.proc p
  if s.strideIsSelected = false ∧ s.ptable.sumCpuShare ≠ 0 ∧ x.state = .runnable ∧
      x.cpuShare = 0 ∧ s.ptable.mlfqTickUsed = before then
    { s with choosingStrideOrMLFQ := false, place := .scan p }
  else if s.strideIsSelected then { s with choosingStrideOrMLFQ := true, place := .scan p }
  else { s with choosingStrideOrMLFQ := true, place := .scan (p + 1) }

/-! ## Interrupts -/

/-- `priority_boost()` -/
def priorityBoost (t : PTable) : PTable :=
  { t with
    proc := fun p =>
      { t.proc p with levelOfMLFQ := 0, tickUsed := 0, timeQuantumUsed := 0 }
    mlfqTickUsed := 0 }

/-- The check for a priority boost in `trap()`. -/
def boost (s : Sched) : Sched :=
  if s.ptable.mlfqTickUsed ≥ 100 then s.setTable (priorityBoost s.ptable) else s

/-- `get_time_quantum()` -/
def getTimeQuantum (t : PTable) (p : Slot) : Nat :=
  if (t.proc p).cpuShare ≠ 0 then t.strideTimeQuantum
  else t.mlfqTimeQuantum (t.proc p).levelOfMLFQ

/-- Count a timer tick for `p`. -/
def countTick (t : PTable) (p : Slot) : PTable :=
  let t := t.setProc p fun x =>
    { x with tickUsed := x.tickUsed + 1, timeQuantumUsed := x.timeQuantumUsed + 1 }
  if (t.proc p).cpuShare = 0 then { t with mlfqTickUsed := t.mlfqTickUsed + 1 }
  else { t with strideTickUsed := t.strideTickUsed + 1 }

/-- `p` has used its time quantum: it moves to the next level and yields. -/
def yieldTick (t : PTable) (p : Slot) : PTable :=
  t.setProc p fun x =>
    { x with
      levelOfMLFQ := if x.levelOfMLFQ < NMLFQ - 1 then x.levelOfMLFQ + 1 else x.levelOfMLFQ
      timeQuantumUsed := 0
      state := .runnable }

/-- A timer interrupt while `p` runs. -/
def tickRunning (s : Sched) (p : Slot) (before : Nat) : Sched :=
  let s := s.boost
  let t := countTick s.ptable p
  if (t.proc p).timeQuantumUsed ≥ getTimeQuantum t p then
    (s.setTable (yieldTick t p)).resume p before
  else s.setTable t

/-! ## Steps -/

/-- What happens on the CPU. -/
inductive Act where
  /-- `scheduler()` takes `ptable.lock`. -/
  | acquire
  /-- One turn of the `for` loop. -/
  | scan
  /-- The running process makes a call, sleeps, yields or wakes others. -/
  | process (e : Kernel.Event)
  /-- A timer interrupt; the sleepers it wakes are an `interrupt` of their own. -/
  | tick
  /-- Another interrupt, whose handler calls `wakeup`. -/
  | interrupt (chan : Chan)

/-- The events that come from the running process `p`. -/
def ActsAs (p : Slot) : Kernel.Event → Prop
  | .yield q | .sleep q _ | .files q _ | .call q _ => q = p
  | .wakeup _ => True
  | .dispatch _ => False

instance (p : Slot) : DecidablePred (ActsAs p)
  | .yield _ | .sleep _ _ | .files _ _ | .call _ _ => inferInstanceAs (Decidable (_ = _))
  | .wakeup _ => inferInstanceAs (Decidable True)
  | .dispatch _ => inferInstanceAs (Decidable False)

/-- The running process makes a call; when it does not run afterwards it has
switched back to the scheduler. -/
def process (s : Sched) (p : Slot) (before : Nat) (e : Kernel.Event) : Option Sched :=
  if ActsAs p e then
    (s.kernel.next e).map fun k =>
      let s := { s with kernel := k }
      if (k.proc p).state = .running then s else s.resume p before
  else none

/-- The state after an act, if it can happen and the kernel does not panic.
Interrupts are off while `scheduler()` holds the lock. -/
def next (s : Sched) : Act → Option Sched
  | .acquire => if s.place = .released then some s.acquire else none
  | .scan =>
    match s.place with
    | .scan i => (s.scan i).toOption
    | _ => none
  | .process e =>
    match s.place with
    | .running p before => s.process p before e
    | _ => none
  | .tick =>
    match s.place with
    | .running p before => some (s.tickRunning p before)
    | .released => some s.boost
    | .scan _ => none
  | .interrupt chan =>
    match s.place with
    | .scan _ => none
    | _ => some { s with kernel := s.kernel.wakeup1 chan }.boost

/-- The scheduler has switched to the first process, which has just started. -/
def boot (k : Kernel) : Sched where
  kernel := { k with ptable := lowerLevel k.ptable k.initproc }
  queueSelector := -1
  choosingStrideOrMLFQ := false
  strideIsSelected := false
  place := .running k.initproc k.ptable.mlfqTickUsed

/-- The states in which the first process has just started. -/
def Started (s : Sched) : Prop := ∃ k : Kernel, k.Started ∧ s = boot k

/-- Reachable by acts that all meet `guard`. -/
abbrev ReachableBy (guard : Sched → Act → Prop) (s : Sched) : Prop :=
  Reach Started next guard s

end Sched
end Xv6
