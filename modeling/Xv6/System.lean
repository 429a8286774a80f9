import Xv6.Lib.Run
import Xv6.Exit

/-!
# Xv6.System

The kernel as a transition system: how it starts, the system calls a running
process can make, and what else happens between two of them.

A system call is one step.  Between calls the scheduler switches processes,
processes sleep and are woken, and the file system calls change the descriptors of
their caller and the tables behind them.
-/

namespace Xv6

open Lib

namespace Kernel

/-! ## Boot -/

/-- The kernel's variables when `main` calls `userinit`, with the pages in
`free` for `kalloc`. -/
def atBoot (free : List Frame) : Kernel where
  ptable := PTable.pinit
  initproc := 0
  nextpid := 1
  nextThreadId := 1
  threadLock := false
  pgdirRef := fun _ => 0
  pgdirRefNextIdx := 0
  ftable := fun _ => { ref := 0, kind := .none, writable := false }
  icache := fun _ => { ref := 0, valid := false, nlink := 0 }
  pipes := fun _ => { readopen := false, writeopen := false }
  freelist := free
  pgdirs := fun _ => { frame := 0, kern := [], table := fun _ => none }
  nextPgdir := 0
  junk := fun _ => false
  freevmCalls := []

/-- `inituvm`: the page of initcode at address 0. -/
def inituvm (d : PgDir) : List Frame → Except Panic (PgDir × List Frame)
  | [] => .error .trap
  | mem :: free => do
    match ← mappages d free 0 { frame := mem, writable := true, user := true } with
    | some r => return r
    | none => .error .trap

/-- `userinit()`.  The current directory is the first entry of the inode cache. -/
def userinit (s : Kernel) : Except Panic Kernel :=
  match s.allocproc with
  | (_, none) => .error .trap
  | (s, some p) =>
    match setupkvm s.freelist with
    | (none, _) => .error .userinit
    | (some d, free) => do
      let (d, free) ← inituvm d free
      let g := s.nextPgdir
      let s := { s.newPgdir d with initproc := p, freelist := free }
      let s := { s with
        icache := Function.update s.icache 0 { ref := 1, valid := false, nlink := 1 } }
      return s.upd p fun x =>
        { x with pgdir := some g, sz := PGSIZE, cwd := some 0, state := .runnable }

/-- Initcode has run: the first process executes the program in `file`. -/
def start (free : List Frame) (junk : Nat → Bool) (file : ExecFile) : Except Panic Kernel := do
  let s ← { atBoot free with junk := junk }.userinit
  let p := s.initproc
  let s := s.upd p fun x => { x with state := .running }
  match ← s.exec p file with
  | (s, 0) => return s
  -- initcode calls `exit` when its `exec` fails
  | _ => .error .initExiting

theorem userinit_eq {s s' : Kernel} (h : s.userinit = .ok s') :
    ∃ s1 p d free, s.allocproc = (s1, some p) ∧ s' =
      { s1.newPgdir d with
        initproc := p
        freelist := free
        icache := Function.update s1.icache 0 { ref := 1, valid := false, nlink := 1 } }.upd p
      fun x => { x with pgdir := some s1.nextPgdir, sz := PGSIZE, cwd := some 0, state := .runnable } := by
  unfold userinit at h
  split at h
  · contradiction
  next s1 p hs1 =>
  split at h
  · contradiction
  · obtain ⟨⟨d, free⟩, -, h⟩ := bind_eq_ok.mp h
    cases h
    exact ⟨s1, p, d, free, hs1, rfl⟩

theorem start_eq_ok {free : List Frame} {junk : Nat → Bool} {file : ExecFile} {s : Kernel}
    (h : start free junk file = .ok s) : ∃ s1, { atBoot free with junk := junk }.userinit = .ok s1 ∧
      (s1.upd s1.initproc fun x => { x with state := .running }).exec s1.initproc file =
        .ok (s, 0) := by
  obtain ⟨s1, h1, h⟩ := bind_eq_ok.mp h
  obtain ⟨⟨s2, r⟩, h2, h⟩ := bind_eq_ok.mp h
  split at h
  · next heq =>
    cases heq
    cases h
    exact ⟨s1, h1, h2⟩
  · contradiction

/-! ## Steps -/

/-- The modelled system calls with their arguments. -/
inductive Syscall where
  | fork
  | exec (file : ExecFile)
  | sbrk (n : Int32)
  | setCpuShare (required : Int32)
  | threadCreate
  | threadExit (retval : Nat)
  | threadJoin (thread : Int)
  | exit
  | wait
  | kill (pid : Int)

/-- A system call by `c`. -/
def syscall (s : Kernel) (c : Slot) : Syscall → Except Panic Kernel
  | .fork => Prod.fst <$> s.fork c
  | .exec file => Prod.fst <$> s.exec c file
  | .sbrk n => Prod.fst <$> s.growproc c n.toInt
  | .setCpuShare required => Prod.fst <$> s.sysSetCpuShare c required
  | .threadCreate => Prod.fst <$> s.threadCreate c
  | .threadExit retval => s.threadExit c retval
  | .threadJoin thread => Prod.fst <$> s.threadJoin c thread
  | .exit => s.exit c
  | .wait => Prod.fst <$> s.wait c
  | .kill pid => .ok (s.kill pid).1

/-- What a file system call may leave behind. -/
structure FilesAfter where
  ofile : Fin NOFILE → Option FileId
  cwd : Option InodeId
  ftable : FileId → File
  icache : InodeId → Inode
  pipes : Frame → Pipe
  freelist : List Frame

/-- The outcome of a file system call by `c`. -/
def setFiles (s : Kernel) (c : Slot) (f : FilesAfter) : Kernel :=
  { s.upd c fun x => { x with ofile := f.ofile, cwd := f.cwd } with
    ftable := f.ftable
    icache := f.icache
    pipes := f.pipes
    freelist := f.freelist }

/-- What happens in a step. -/
inductive Event where
  /-- The scheduler switches to `p`. -/
  | dispatch (p : Slot)
  /-- `p` leaves the CPU in `yield`. -/
  | yield (p : Slot)
  /-- `p` goes to sleep in a system call that is not modelled. -/
  | sleep (p : Slot) (chan : Chan)
  /-- An interrupt handler calls `wakeup`. -/
  | wakeup (chan : Chan)
  /-- `p` makes a file system call. -/
  | files (p : Slot) (f : FilesAfter)
  /-- `p` makes a system call. -/
  | call (p : Slot) (op : Syscall)

/-- The processes that can take part: a `RUNNABLE` one is dispatched, a
`RUNNING` one does everything else. -/
def Enabled (s : Kernel) : Event → Prop
  | .dispatch p => (s.proc p).state = .runnable
  | .wakeup _ => True
  | .yield p | .sleep p _ | .files p _ | .call p _ => (s.proc p).state = .running

instance (s : Kernel) : DecidablePred s.Enabled
  | .wakeup _ => inferInstanceAs (Decidable True)
  | .dispatch _ | .yield _ | .sleep _ _ | .files _ _ | .call _ _ =>
    inferInstanceAs (Decidable (_ = _))

/-- The effect of an event. -/
def effect (s : Kernel) : Event → Except Panic Kernel
  | .dispatch p => .ok (s.upd p fun x => { x with state := .running })
  | .yield p => .ok (s.upd p fun x => { x with state := .runnable, timeQuantumUsed := 0 })
  | .sleep p chan => .ok (s.sleepOn p chan)
  | .wakeup chan => .ok (s.wakeup1 chan)
  | .files p f => .ok (s.setFiles p f)
  | .call p op => s.syscall p op

/-- The state after an event, if it can happen and the kernel does not panic. -/
def next (s : Kernel) (e : Event) : Option Kernel :=
  if s.Enabled e then (s.effect e).toOption else none

/-- The states in which the first process has just started. -/
def Started (s : Kernel) : Prop := ∃ free junk file, start free junk file = .ok s

/-- Reachable by events that all meet `guard`. -/
abbrev ReachableBy (guard : Kernel → Event → Prop) (s : Kernel) : Prop :=
  Reach Started next guard s

/-- Reachable by any events. -/
abbrev Reachable (s : Kernel) : Prop := ReachableBy (fun _ _ => True) s

theorem next_eq_some {s s' : Kernel} {e : Event} :
    s.next e = some s' ↔ s.Enabled e ∧ s.effect e = .ok s' := by
  unfold next
  cases s.effect e with
  | error _ => simp [Except.toOption]
  | ok s1 => simp [Except.toOption]

/-! ## Runs along given events -/

/-- The state after the events `es` in a system that starts with the pages in
`free`. -/
def runEvents (free : List Frame) (junk : Nat → Bool) (file : ExecFile) (es : List Event) :
    Option Kernel :=
  (start free junk file).toOption.bind fun s => runFrom next s es

theorem eq_ok_of_toOption {α : Type} {x : Except Panic α} {a : α} (h : x.toOption = some a) :
    x = .ok a := by
  cases x with
  | error e => contradiction
  | ok b => exact congrArg Except.ok (Option.some.inj h)

/-- A run of events that meet the condition reaches a state as described. -/
theorem exists_reachableBy (guard : Kernel → Event → Prop) {P : Kernel → Prop} [DecidablePred P]
    (free : List Frame) (junk : Nat → Bool) (file : ExecFile) (es : List Event)
    (hg : ∀ e ∈ es, ∀ s, guard s e) (h : (runEvents free junk file es).any (fun s => P s) = true) :
    ∃ s, ReachableBy guard s ∧ P s := by
  obtain ⟨s, hs, hP⟩ := (Option.any_eq_true _ _).mp h
  obtain ⟨s0, h0, h1⟩ := Option.bind_eq_some_iff.mp hs
  have hstart : Started s0 := ⟨free, junk, file, eq_ok_of_toOption h0⟩
  exact ⟨s, (Reach.start hstart).runFrom hg h1, of_decide_eq_true hP⟩

/-- A run of events that are checked against the condition on the way. -/
theorem exists_reachableBy_guarded (guard : Kernel → Event → Prop)
    [∀ s e, Decidable (guard s e)] {P : Kernel → Prop} [DecidablePred P]
    (free : List Frame) (junk : Nat → Bool) (file : ExecFile) (es : List Event)
    (h : ((start free junk file).toOption.bind fun s => runFrom (guarded next guard) s es).any
      (fun s => P s) = true) :
    ∃ s, ReachableBy guard s ∧ P s :=
  Reach.exists_of_boot (fun _ h0 => ⟨free, junk, file, eq_ok_of_toOption h0⟩) es h

theorem exists_eq_ok {α : Type} {x : Except Panic α} {P : α → Prop} [DecidablePred P]
    (h : x.toOption.any (fun a => P a) = true) : ∃ a, x = .ok a ∧ P a := by
  cases x with
  | error e => contradiction
  | ok a => exact ⟨a, rfl, of_decide_eq_true h⟩

/-- A program of one page. -/
def smallProgram : ExecFile where
  found := true
  headerOk := true
  progs := [{ readOk := true, load := true, vaddr := 0, memsz := 4096, filesz := 4096, loadOk := true }]
  argsOk := true

/-- Init forks a process into entry 1, which is running. -/
def forked : List Event := [.call 0 .fork, .dispatch 1]

/-- The process in entry 1 creates a thread in entry 2, which is running. -/
def threaded : List Event := forked ++ [.call 1 .threadCreate, .dispatch 2]

end Kernel
end Xv6
