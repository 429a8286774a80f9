import Xv6.Param
import Xv6.Lib.Bytes
import Xv6.Lib.Run

/-!
# Xv6.Log

The log (`log.c`): file-system operations of any number of processes between
`begin_op` and `end_op`, the commit of a transaction block by block, crashes at
any point and the recovery after them.

Each critical section of `log.lock` is one step, and so are each disk write of
`commit()` and `recover_from_log()` and the checks at the start of `log_write`.
-/

namespace Xv6

open Lib Function

/-! ## The disk and the buffer cache -/

/-- The disk, and the buffers that hold copies of its blocks. -/
structure Buffers where
  disk : Nat → Bytes
  /-- The contents of the buffers with `B_VALID`. -/
  cache : Nat → Option Bytes
  /-- The flag `B_DIRTY`. -/
  dirty : Nat → Bool

namespace Buffers

/-- What `bread` returns for block `b`. -/
def bread (s : Buffers) (b : Nat) : Bytes := (s.cache b).getD (s.disk b)

/-- The buffers after `bread`. -/
def load (s : Buffers) (b : Nat) : Buffers :=
  { s with cache := update s.cache b (some (s.bread b)) }

/-- `bwrite` of a buffer that holds `data`.  The disk driver clears `B_DIRTY`. -/
def bwrite (s : Buffers) (b : Nat) (data : Bytes) : Buffers where
  disk := update s.disk b data
  cache := update s.cache b (some data)
  dirty := update s.dirty b false

/-- A buffer that holds `data` now and is pinned in the cache with `B_DIRTY`. -/
def pin (s : Buffers) (b : Nat) (data : Bytes) : Buffers :=
  { s with
    cache := update s.cache b (some data)
    dirty := update s.dirty b true }

/-- `bget` recycles the buffer of block `b`, if it is clean. -/
def evict (s : Buffers) (b : Nat) : Buffers :=
  if s.dirty b then s else { s with cache := update s.cache b none }

/-- The buffers of a machine that has been restarted. -/
def restart (s : Buffers) : Buffers where
  disk := s.disk
  cache := fun _ => none
  dirty := fun _ => false

end Buffers

/-! ## The log header -/

/-- The header block with `lh` in it: `n`, and the first `n` block numbers. -/
def encodeHead (old : Bytes) (lh : List Nat) : Bytes :=
  (lh.zipIdx).foldl (fun b x => putLE b (4 + 4 * x.2) 4 x.1) (putLE old 0 4 lh.length)

/-- The header that a block holds. -/
def decodeHead (b : Bytes) : List Nat :=
  (List.range (getLE b 0 4)).map fun i => getLE b (4 + 4 * i) 4

/-- `log.lh` with a block recorded in it, once. -/
def record (lh : List Nat) (b : Nat) : List Nat := if b ∈ lh then lh else lh ++ [b]

/-! ## State -/

/-- The panics of `log.c`. -/
inductive LogPanic where
  /-- too big a transaction -/
  | tooBig
  /-- log_write outside of trans -/
  | outsideOfTrans
  /-- log.committing -/
  | committing
  deriving DecidableEq, Repr

/-- Where `commit()` is. -/
inductive CommitPc where
  | writeLog (tail : Nat)
  | writeHead
  | installTrans (tail : Nat)
  /-- `log.lh.n = 0; write_head()` -/
  | eraseHead
  /-- Back in `end_op`. -/
  | finish
  deriving DecidableEq, Repr

/-- Where a process is.  Operations are numbered in the order they begin. -/
inductive LogPc where
  | idle
  /-- Between `begin_op` and `end_op`. -/
  | op (id : Nat)
  /-- In `log_write`, past its checks, with a buffer of block `b`. -/
  | logging (id b : Nat) (data : Bytes)
  | commit (c : CommitPc)

/-- Where `recover_from_log()` is. -/
inductive RecoverPc where
  | readHead
  | installTrans (tail : Nat)
  /-- `log.lh.n = 0; write_head()` -/
  | eraseHead
  deriving DecidableEq, Repr

/-- What has happened so far.  No step of the code depends on it. -/
structure LogHistory where
  nextOp : Nat
  /-- All calls of `log_write`, with their operations. -/
  written : List (Nat × Nat)
  /-- Those since the last commit. -/
  txn : List (Nat × Nat)
  /-- The commits, with their headers. -/
  commits : List (List Nat × List (Nat × Nat))
  /-- The disk when the transaction began. -/
  pre : Nat → Bytes
  /-- The disk that the transaction asks for, from the start of its commit on. -/
  target : Nat → Bytes
  /-- The first `write_head` of the transaction is done. -/
  committed : Bool

/-- The log, and everybody who uses it. -/
structure Log where
  start : Nat
  size : Nat
  outstanding : Int
  committing : Bool
  /-- `log.lh`: its first `n` block numbers. -/
  lh : List Nat
  bufs : Buffers
  pc : Nat → LogPc
  /-- `recover_from_log()` runs, and nobody else. -/
  recovery : Option RecoverPc
  history : LogHistory

namespace Log

/-- The number of the operation that a process is in. -/
def opOf : LogPc → Option Nat
  | .op id | .logging id _ _ => some id
  | .idle | .commit _ => none

/-- Move process `p` to `pc`. -/
def setPc (s : Log) (p : Nat) (pc : LogPc) : Log := { s with pc := update s.pc p pc }

/-! ## Operations -/

/-- Process `p` has begun an operation. -/
def begun (s : Log) (p : Nat) : Log :=
  { s with
    outstanding := s.outstanding + 1
    pc := update s.pc p (.op s.history.nextOp)
    history := { s.history with nextOp := s.history.nextOp + 1 } }

/-- One turn of the loop of `begin_op()`.  A process that has to wait sleeps on
the log and takes another turn when it is woken. -/
def beginOp (s : Log) (p : Nat) : Log :=
  if s.committing then s
  else if (s.lh.length : Int) + (s.outstanding + 1) * MAXOPBLOCKS > LOGSIZE then s
  else s.begun p

/-- The checks of `log_write(b)`, called by an operation that has put `data`
into the buffer of block `b`. -/
def logWrite (s : Log) (p id b : Nat) (data : Bytes) : Except LogPanic Log :=
  if s.lh.length ≥ LOGSIZE ∨ (s.lh.length : Int) ≥ s.size - 1 then .error .tooBig
  else if s.outstanding < 1 then .error .outsideOfTrans
  else .ok (s.setPc p (.logging id b data))

/-- The critical section of `log_write`. -/
def logSection (s : Log) (p id b : Nat) (data : Bytes) : Log :=
  { s with
    lh := record s.lh b
    bufs := s.bufs.pin b data
    pc := update s.pc p (.op id)
    history :=
      { s.history with
        written := (id, b) :: s.history.written
        txn := (id, b) :: s.history.txn } }

/-- The start of `commit()`. -/
def commitStart (lh : List Nat) : CommitPc := if lh.length > 0 then .writeLog 0 else .finish

/-- Process `p` has ended an operation, and others go on. -/
def left (s : Log) (p : Nat) : Log :=
  { s with outstanding := s.outstanding - 1, pc := update s.pc p .idle }

/-- Process `p` has ended the last operation, and commits. -/
def closed (s : Log) (p : Nat) : Log :=
  { s with
    outstanding := s.outstanding - 1
    committing := true
    pc := update s.pc p (.commit (commitStart s.lh))
    history :=
      { s.history with
        target := fun b => if b ∈ s.lh then s.bufs.bread b else s.bufs.disk b } }

/-- The first critical section of `end_op()`. -/
def endOp (s : Log) (p : Nat) : Except LogPanic Log :=
  if s.committing then .error .committing
  else if s.outstanding - 1 = 0 then .ok (s.closed p)
  else .ok (s.left p)

/-! ## Commit and recovery -/

/-- The home location of entry `tail`. -/
def home (s : Log) (tail : Nat) : Nat := s.lh.getD tail 0

/-- A turn of `write_log()`. -/
def writeLogBufs (s : Log) (tail : Nat) : Buffers :=
  let bufs := (s.bufs.load (s.start + tail + 1)).load (s.home tail)
  bufs.bwrite (s.start + tail + 1) (bufs.bread (s.home tail))

/-- `write_head()` -/
def writeHeadBufs (s : Log) (lh : List Nat) : Buffers :=
  s.bufs.bwrite s.start (encodeHead (s.bufs.bread s.start) lh)

/-- A turn of `install_trans()`. -/
def installBufs (s : Log) (tail : Nat) : Buffers :=
  let bufs := (s.bufs.load (s.start + tail + 1)).load (s.home tail)
  bufs.bwrite (s.home tail) (bufs.bread (s.start + tail + 1))

/-- The next step of `commit()`, and of `end_op()` after it. -/
def commitStep (s : Log) (p : Nat) : CommitPc → Log
  | .writeLog tail =>
    let pc := if tail + 1 < s.lh.length then .writeLog (tail + 1) else .writeHead
    { s.setPc p (.commit pc) with bufs := s.writeLogBufs tail }
  | .writeHead =>
    { s.setPc p (.commit (.installTrans 0)) with
      bufs := s.writeHeadBufs s.lh
      history :=
        { s.history with
          commits := (s.lh, s.history.txn) :: s.history.commits
          committed := true } }
  | .installTrans tail =>
    let pc := if tail + 1 < s.lh.length then .installTrans (tail + 1) else .eraseHead
    { s.setPc p (.commit pc) with bufs := s.installBufs tail }
  | .eraseHead =>
    { s.setPc p (.commit .finish) with
      lh := []
      bufs := s.writeHeadBufs []
      history := { s.history with txn := [] } }
  | .finish =>
    { s.setPc p .idle with
      committing := false
      history := { s.history with pre := s.bufs.disk, committed := false } }

/-- The machine stops and starts again: what was in memory is lost. -/
def crash (s : Log) : Log :=
  { s with
    outstanding := 0
    committing := false
    lh := []
    bufs := s.bufs.restart
    pc := fun _ => .idle
    recovery := some .readHead
    history := { s.history with txn := [] } }

/-- The next step of `recover_from_log()`. -/
def recoverStep (s : Log) : RecoverPc → Log
  | .readHead =>
    let lh := decodeHead (s.bufs.bread s.start)
    { s with
      lh := lh
      bufs := s.bufs.load s.start
      recovery := some (if lh.length > 0 then .installTrans 0 else .eraseHead) }
  | .installTrans tail =>
    let pc := if tail + 1 < s.lh.length then .installTrans (tail + 1) else .eraseHead
    { s with bufs := s.installBufs tail, recovery := some pc }
  | .eraseHead =>
    { s with
      lh := []
      bufs := s.writeHeadBufs []
      recovery := none
      history :=
        { s.history with
          pre := (s.writeHeadBufs []).disk
          committed := false } }

/-! ## Runs -/

/-- What can happen. -/
inductive Act where
  | beginOp (p : Nat)
  | logWrite (p b : Nat) (data : Bytes)
  /-- The critical section of the `log_write` that process `p` is in. -/
  | logSection (p : Nat)
  | endOp (p : Nat)
  /-- The next step of the `commit()` that process `p` is in. -/
  | commit (p : Nat)
  /-- Somebody reads a block. -/
  | load (b : Nat)
  /-- Somebody needs a buffer. -/
  | evict (b : Nat)
  | crash
  /-- The next step of the recovery. -/
  | recover

/-- A step of process `p`. -/
def stepProc (s : Log) (p : Nat) : Act → Option (Except LogPanic Log)
  | .beginOp _ =>
    match s.pc p with
    | .idle => some (.ok (s.beginOp p))
    | _ => none
  | .logWrite _ b data =>
    match s.pc p with
    | .op id => some (s.logWrite p id b data)
    | _ => none
  | .logSection _ =>
    match s.pc p with
    | .logging id b data => some (.ok (s.logSection p id b data))
    | _ => none
  | .endOp _ =>
    match s.pc p with
    | .op _ => some (s.endOp p)
    | _ => none
  | .commit _ =>
    match s.pc p with
    | .commit c => some (.ok (s.commitStep p c))
    | _ => none
  | _ => none

/-- The outcome of an act, if it can happen. -/
def outcome (s : Log) : Act → Option (Except LogPanic Log)
  | .load b => some (.ok { s with bufs := s.bufs.load b })
  | .evict b => some (.ok { s with bufs := s.bufs.evict b })
  | .crash => some (.ok s.crash)
  | .recover => s.recovery.map fun r => .ok (s.recoverStep r)
  | .beginOp p => if s.recovery = none then s.stepProc p (.beginOp p) else none
  | .logWrite p b data => if s.recovery = none then s.stepProc p (.logWrite p b data) else none
  | .logSection p => if s.recovery = none then s.stepProc p (.logSection p) else none
  | .endOp p => if s.recovery = none then s.stepProc p (.endOp p) else none
  | .commit p => if s.recovery = none then s.stepProc p (.commit p) else none

/-- The state after an act, if it can happen and the kernel does not panic. -/
def next (s : Log) (a : Act) : Option Log := (s.outcome a).bind Except.toOption

/-- The log after `initlog()`, with nothing in it. -/
structure Started (s : Log) : Prop where
  outstanding : s.outstanding = 0
  committing : s.committing = false
  lh : s.lh = []
  head : decodeHead (s.bufs.disk s.start) = []
  cache : ∀ b, s.bufs.cache b = none
  dirty : ∀ b, s.bufs.dirty b = false
  pc : ∀ p, s.pc p = .idle
  recovery : s.recovery = none
  written : s.history.written = []
  txn : s.history.txn = []
  commits : s.history.commits = []
  pre : s.history.pre = s.bufs.disk
  committed : s.history.committed = false

/-- Reachable by acts that all meet `guard`. -/
abbrev ReachableBy (guard : Log → Act → Prop) (s : Log) : Prop := Reach Started next guard s

/-- Reachable. -/
abbrev Reachable (s : Log) : Prop := s.ReachableBy fun _ _ => True

end Log
end Xv6
