import Xv6.Kernel

/-!
# Xv6.Process

The system calls that make processes and threads and change their memory and
CPU share (`proc.c`, `exec.c`).

Every function takes the running process `c`, the C variable `proc`, and returns
the new state with the C return value, or the panic that stops the kernel.
-/

namespace Xv6

open Lib Function

namespace Kernel

/-! ## Allocating a process table entry -/

/-- The fields `allocproc` sets in the entry it finds. -/
def Proc.embryo (x : Proc) (pid : Int) : Proc :=
  { x with
    state := .embryo
    pid := pid
    tickUsed := 0
    levelOfMLFQ := 0
    timeQuantumUsed := 0
    cpuShare := 0
    stride := 0
    strideCount := 0
    tid := 0
    pgdirRefIdx := none
    threadReturn := 0
    numOfThreads := 0
    procForkedInThread := none
    originalCpuShare := 0 }

/-- The first entry that is `UNUSED`. -/
def freeSlot (s : Kernel) : Option Slot :=
  slots.find? fun p => (s.proc p).state = .unused

/-- `allocproc()`: the state and the new entry, if there is one. -/
def allocproc (s : Kernel) : Kernel × Option Slot :=
  match s.freeSlot with
  | none => (s, none)
  | some p =>
    let s := { s.upd p (Proc.embryo · s.nextpid) with nextpid := s.nextpid + 1 }
    match s.freelist with
    | [] => (s.upd p fun x => { x with kstack := none, state := .unused }, none)
    | f :: free => ({ s.upd p fun x => { x with kstack := some f } with freelist := free }, some p)

theorem unused_of_freeSlot {s : Kernel} {p : Slot} (h : s.freeSlot = some p) :
    (s.proc p).state = .unused := by
  simpa using List.find?_some h

/-- `allocproc` finds an `UNUSED` entry and a page for the kernel stack. -/
theorem allocproc_some {s s' : Kernel} {np : Slot} (h : s.allocproc = (s', some np)) :
    (s.proc np).state = .unused ∧ s.freeSlot = some np ∧ ∃ f free, s.freelist = f :: free ∧
      s' = { s with nextpid := s.nextpid + 1, freelist := free }.upd np fun x =>
        { Proc.embryo x s.nextpid with kstack := some f } := by
  unfold allocproc at h
  split at h
  · cases h
  next p hp =>
  simp only at h
  split at h
  · cases h
  next f free hf =>
  simp only [Prod.mk.injEq, Option.some.injEq] at h
  obtain ⟨rfl, rfl⟩ := h
  exact ⟨unused_of_freeSlot hp, hp, f, free, hf, by simp [upd, PTable.setProc]⟩

/-- `allocproc` fails without an entry or without a page; in the second case it
gives back the entry it took. -/
theorem allocproc_none {s s' : Kernel} (h : s.allocproc = (s', none)) :
    s.freeSlot = none ∧ s' = s ∨
      s.freelist = [] ∧ ∃ np, (s.proc np).state = .unused ∧ s.freeSlot = some np ∧
      s' = { s with nextpid := s.nextpid + 1 }.upd np fun x =>
        { Proc.embryo x s.nextpid with kstack := none, state := .unused } := by
  unfold allocproc at h
  split at h
  · next hnone =>
    cases h
    exact .inl ⟨hnone, rfl⟩
  · next p hp =>
    simp only at h
    split at h
    · next hpage =>
      cases h
      exact .inr ⟨hpage, p, unused_of_freeSlot hp, hp, by simp [upd, PTable.setProc]⟩
    · cases h

/-- A new page directory `d`, under a name of its own. -/
def newPgdir (s : Kernel) (d : PgDir) : Kernel :=
  { s with pgdirs := update s.pgdirs s.nextPgdir d, nextPgdir := s.nextPgdir + 1 }

/-- `kfree(p->kstack)` -/
def kfreeKstack (s : Kernel) (p : Slot) : Except Panic Kernel :=
  match (s.proc p).kstack with
  | none => .error .kfree
  | some f => .ok { s.upd p fun x => { x with kstack := none } with freelist := f :: s.freelist }

/-! ## fork -/

/-- `fork` without memory for the child: the entry `np` is given back. -/
def forkFailed (s : Kernel) (np : Slot) : Except Panic Kernel := do
  let s ← (s.upd np fun x => { x with pgdir := none }).kfreeKstack np
  return s.upd np fun x => { x with state := .unused }

/-- `fork` with the copied memory `d` for the child. -/
def forkChild (s : Kernel) (c np : Slot) (d : PgDir) : Except Panic Kernel := do
  let g := s.nextPgdir
  let s := s.newPgdir d
  let s := s.upd np fun x => { x with pgdir := some g, sz := (s.proc c).sz, parent := some c }
  let s ← s.allocateNewPgdirIdx np
  let s ← s.dupAll c np
  return s.upd np fun x => { x with state := .runnable }

/-- `fork()`.  The branches of the source for a thread that forks are behind
its first check and never taken. -/
def fork (s : Kernel) (c : Slot) : Except Panic (Kernel × Int) :=
  if (s.proc c).tid ≠ 0 then .ok (s, -1)
  else
    match s.allocproc with
    | (s, none) => .ok (s, -1)
    | (s, some np) =>
      match (s.proc c).pgdir with
      | none => .error .trap
      | some g => do
        match ← copyuvm (s.pgdirs g) (s.proc c).sz s.freelist with
        | (none, free) => do
          let s ← { s with freelist := free }.forkFailed np
          return (s, -1)
        | (some d, free) => do
          let s ← { s with freelist := free }.forkChild c np d
          return (s, (s.proc np).pid)

/-! ## exec -/

/-- A program header, with the outcome of the reads that go with it. -/
structure ProgHdr where
  readOk : Bool
  load : Bool
  vaddr : Nat
  memsz : Nat
  filesz : Nat
  loadOk : Bool

/-- What `exec` finds in the file and the arguments it is given. -/
structure ExecFile where
  found : Bool
  headerOk : Bool
  progs : List ProgHdr
  argsOk : Bool

/-- The load loop of `exec`: the directory, the free pages and the size, with
`none` for a jump to `bad`. -/
def execLoad : List ProgHdr → PgDir → List Frame → Nat →
    Except Panic (Option Nat × PgDir × List Frame)
  | [], d, free, sz => .ok (some sz, d, free)
  | ph :: phs, d, free, sz =>
    if ph.readOk = false then .ok (none, d, free)
    else if ph.load = false then execLoad phs d free sz
    else if ph.memsz < ph.filesz then .ok (none, d, free)
    else if uint (ph.vaddr + ph.memsz) < ph.vaddr then .ok (none, d, free)
    else do
      let (d, free, sz) ← allocuvm d free sz (uint (ph.vaddr + ph.memsz))
      if sz = 0 then return (none, d, free)
      else if ph.vaddr % PGSIZE ≠ 0 then return (none, d, free)
      else if ph.loadOk = false then return (none, d, free)
      else execLoad phs d free sz

/-- `exec` up to the commit: the new directory with its size, or `none`. -/
def execImage (file : ExecFile) (free : List Frame) :
    Except Panic (Option (PgDir × Nat) × List Frame) :=
  if file.found = false ∨ file.headerOk = false then .ok (none, free)
  else
    match setupkvm free with
    | (none, free) => .ok (none, free)
    | (some d, free) => do
      match ← execLoad file.progs d free 0 with
      | (none, d, free) => do
        let free ← freevm d free
        return (none, free)
      | (some sz, d, free) => do
        let sz := pgRoundUp sz
        let (d, free, sz) ← allocuvm d free sz (uint (sz + 2 * PGSIZE))
        if sz = 0 then
          let free ← freevm d free
          return (none, free)
        else do
          let d ← clearpteu d (sz - 2 * PGSIZE)
          if file.argsOk = false then
            let free ← freevm d free
            return (none, free)
          else return (some (d, sz), free)

/-- What `exec` does with the old page directory.  A counter above one is left
as it is: the source has no decrement there. -/
def execDropOld (s : Kernel) (c : Slot) (old : Option PgdirId) : Except Panic Kernel :=
  match (s.proc c).pgdirRefIdx with
  | none => s.freePgdir? c old
  | some i =>
    if s.pgdirRef i ≤ 1 then do
      s.acquireThreadLock
      let s := { s with pgdirRef := update s.pgdirRef i 0 }
      s.freePgdir? c old
    else .ok s

/-- `exec(path, argv)` -/
def exec (s : Kernel) (c : Slot) (file : ExecFile) : Except Panic (Kernel × Int) := do
  match ← execImage file s.freelist with
  | (none, free) => return ({ s with freelist := free }, -1)
  | (some (d, sz), free) => do
    let oldpgdir := (s.proc c).pgdir
    let g := s.nextPgdir
    let s := { s.newPgdir d with freelist := free }
    let s := s.upd c fun x => { x with pgdir := some g, sz := sz }
    let s ← s.execDropOld c oldpgdir
    let s ← s.allocateNewPgdirIdx c
    return (s, 0)

/-! ## sbrk -/

/-- `growproc(n)` -/
def growproc (s : Kernel) (c : Slot) (n : Int) : Except Panic (Kernel × Int) :=
  match (s.proc c).pgdir with
  | none => .error .trap
  | some g =>
    let sz := (s.proc c).sz
    -- `sz + n` on `uint`s
    let newsz := ((sz + n) % 2 ^ 32).toNat
    if n > 0 then do
      let (d, free, r) ← allocuvm (s.pgdirs g) s.freelist sz newsz
      let s := { s with pgdirs := update s.pgdirs g d, freelist := free }
      if r = 0 then return (s, -1)
      else return (s.upd c fun x => { x with sz := r }, 0)
    else if n < 0 then do
      let (d, free, r) ← deallocuvm (s.pgdirs g) s.freelist sz newsz
      let s := { s with pgdirs := update s.pgdirs g d, freelist := free }
      if r = 0 then return (s, -1)
      else return (s.upd c fun x => { x with sz := r }, 0)
    else .ok (s, 0)

/-! ## CPU shares -/

/-- `stride_queue_push(p)`, where the queue has room: the source does not look
and writes outside the array. -/
def strideQueuePush (s : Kernel) (p : Slot) : Except Panic Kernel :=
  if 0 ≤ s.ptable.strideQueueSize ∧ s.ptable.strideQueueSize < NPROC then
    .ok { s with ptable := s.ptable.strideQueuePush p }
  else .error .trap

/-- `stride_queue_push(p)` for a process that is not in the queue yet. -/
def pushIfNew (s : Kernel) (p : Slot) (isNew : Bool) : Except Panic Kernel :=
  if isNew then s.strideQueuePush p else .ok s

/-- `set_cpu_share_in_thread_create(required, p, master_thread)` -/
def setCpuShareInThreadCreate (s : Kernel) (required : Int32) (p master : Slot) :
    Except Panic (Kernel × Int) :=
  if ¬ (MIN_CPU_SHARE ≤ required ∧ required ≤ MAX_CPU_SHARE) then .ok (s, -1)
  else do
    let isNew := (s.proc p).cpuShare = 0
    let s := s.upd p fun x =>
      { x with
        cpuShare := required
        originalCpuShare := (s.proc master).originalCpuShare
        stride := NSTRIDE / required }
    let s ← s.pushIfNew p isNew
    return (s, 0)

/-- `set_cpu_share_other_threads(required, t)`.  Its first check, that the
caller is not a thread, holds at its only call. -/
def setCpuShareOtherThreads (s : Kernel) (c : Slot) (required : Int32) (t : Slot) :
    Except Panic (Kernel × Int) :=
  if ¬ (MIN_CPU_SHARE ≤ required ∧ required ≤ MAX_CPU_SHARE) then .ok (s, -1)
  else
    let isNew := (s.proc t).cpuShare = 0
    let desired := s.ptable.sumCpuShare - (s.proc t).cpuShare + required
    if desired > MAX_CPU_SHARE then .ok (s, -1)
    else do
      let s := { s with ptable := { s.ptable with sumCpuShare := desired } }
      let s := s.upd t fun x =>
        { x with
          cpuShare := required
          originalCpuShare := (s.proc c).originalCpuShare
          stride := NSTRIDE / required }
      let s ← s.pushIfNew t isNew
      return (s, 0)

/-- One turn of the thread loop of `set_cpu_share`. -/
def setCpuShareThread (c : Slot) (required : Int32) (s : Kernel) (t : Slot) : Except Panic Kernel :=
  if (s.proc t).pid = (s.proc c).pid ∧ (s.proc t).tid ≠ 0 then do
    match ← s.setCpuShareOtherThreads c required t with
    | (s, 0) => return s
    | _ => .error .setCpuShareThreads
  else .ok s

/-- The part of `required` that `x` takes for itself: a master thread divides
it among its threads. -/
def ownShare (x : Proc) (required : Int32) : Int32 :=
  if x.tid = 0 ∧ x.numOfThreads ≠ 0 then required / Int32.ofInt (x.numOfThreads + 1)
  else required

/-- The division of `required` by `num_of_threads + 1` traps: by zero, or when the
quotient is not an `int`. -/
def DivisionTraps (x : Proc) (required : Int32) : Prop :=
  x.tid = 0 ∧ (x.numOfThreads = -1 ∨ x.numOfThreads = -2 ∧ required = Int32.minValue)

instance (x : Proc) (required : Int32) : Decidable (DivisionTraps x required) :=
  inferInstanceAs (Decidable (_ ∧ _))

/-- `set_cpu_share(required)` -/
def setCpuShare (s : Kernel) (c : Slot) (required : Int32) : Except Panic (Kernel × Int) :=
  if DivisionTraps (s.proc c) required then .error .trap
  else
    let required := ownShare (s.proc c) required
    if ¬ (MIN_CPU_SHARE ≤ required ∧ required ≤ MAX_CPU_SHARE) then .ok (s, -1)
    else
      let isNew := (s.proc c).cpuShare = 0
      let desired := s.ptable.sumCpuShare - (s.proc c).cpuShare + required
      if desired > MAX_CPU_SHARE then .ok (s, -1)
      else do
        let s := { s with ptable := { s.ptable with sumCpuShare := desired } }
        let s := s.upd c fun x =>
          { x with
            cpuShare := required
            originalCpuShare := required
            stride := NSTRIDE / required }
        let s ← s.pushIfNew c isNew
        if (s.proc c).tid = 0 ∧ (s.proc c).numOfThreads ≠ 0 then do
          let s ← forEach (setCpuShareThread c required) slots s
          return (s, 0)
        else return (s, 0)

/-- `sys_set_cpu_share()` with its decoded argument -/
def sysSetCpuShare (s : Kernel) (c : Slot) (required : Int32) : Except Panic (Kernel × Int) :=
  s.setCpuShare c (required * 10)

/-! ## thread_create -/

/-- Give `p` its part of the group's share. -/
def shareThread (c : Slot) (share : Int32) (s : Kernel) (p : Slot) : Kernel :=
  if (s.proc p).pid = (s.proc c).pid then
    s.upd p fun x => { x with cpuShare := share, stride := NSTRIDE / share }
  else s

/-- Divide the share of the group of `c` among its threads, the new thread
`np` included: the end of `thread_create`. -/
def shareWithThread (s : Kernel) (c np : Slot) : Except Panic Kernel :=
  if (s.proc c).cpuShare ≠ 0 then
    if (s.proc c).numOfThreads = -1 then .error .trap
    else do
      let share := (s.proc c).originalCpuShare / Int32.ofInt ((s.proc c).numOfThreads + 1)
      match ← s.setCpuShareInThreadCreate share np c with
      | (s, 0) => return slots.foldl (shareThread c share) s
      | _ => .error .threadCreateStride
  else .ok s

/-- The counter of the master thread: `proc->num_of_threads++`, or the
parent's when the creator is itself a thread. -/
def countThread (s : Kernel) (c : Slot) : Except Panic Kernel :=
  if (s.proc c).tid = 0 then
    .ok (s.upd c fun x => { x with numOfThreads := x.numOfThreads + 1 })
  else
    match (s.proc c).parent with
    | none => .error .trap
    | some m => .ok (s.upd m fun x => { x with numOfThreads := x.numOfThreads + 1 })

/-- The new stack of `np`: two pages at the creator's size, and 4MB of address
space taken from the creator.  When the pages run out the source returns with
`thread_lock` held. -/
def threadStack (s : Kernel) (c np : Slot) : Except Panic (Kernel × Bool) := do
  s.acquireThreadLock
  match (s.proc np).pgdir with
  | none => .error .trap
  | some g => do
    let base := pgRoundUp (s.proc c).sz
    let (d, free, r) ← allocuvm (s.pgdirs g) s.freelist base (uint (base + 2 * PGSIZE))
    let s := { s with pgdirs := update s.pgdirs g d, freelist := free }
    let s := s.upd np fun x => { x with sz := r }
    if r = 0 then return ({ s with threadLock := true }, false)
    else do
      let d ← clearpteu (s.pgdirs g) (r - 2 * PGSIZE)
      let s := { s with pgdirs := update s.pgdirs g d }
      let s := s.upd c fun x => { x with sz := uint (r + PGSIZE * (1024 - 2)) }
      return (s, true)

/-- The thread's own fields and the page directory it shares with `c`. -/
def threadEntry (s : Kernel) (c np : Slot) : Kernel :=
  { s.upd np fun x =>
      { x with
        pid := (s.proc c).pid
        tid := s.nextThreadId
        pgdir := (s.proc c).pgdir
        sz := (s.proc c).sz
        parent := some c
        pgdirRefIdx := (s.proc c).pgdirRefIdx } with
    nextThreadId := s.nextThreadId + 1 }

theorem threadEntry_eq (s : Kernel) (c np : Slot) :
    s.threadEntry c np = { s with nextThreadId := s.nextThreadId + 1 }.upd np fun x =>
      { x with
        pid := (s.proc c).pid
        tid := s.nextThreadId
        pgdir := (s.proc c).pgdir
        sz := (s.proc c).sz
        parent := some c
        pgdirRefIdx := (s.proc c).pgdirRefIdx } := rfl

/-- `thread_create(thread, start_routine, arg)` -/
def threadCreate (s : Kernel) (c : Slot) : Except Panic (Kernel × Int) :=
  match s.allocproc with
  | (s, none) => .ok (s, -1)
  | (s, some np) => do
    let s := s.threadEntry c np
    s.acquireThreadLock
    match (s.proc np).pgdirRefIdx with
    -- `pgdir_ref[-1]` is not an element of the array
    | none => .error .trap
    | some i => do
      let s := { s with pgdirRef := update s.pgdirRef i (s.pgdirRef i + 1) }
      let s ← s.dupAll c np
      match ← s.threadStack c np with
      | (s, false) => return (s, -1)
      | (s, true) => do
        let s ← s.countThread c
        let s := s.upd np fun x => { x with state := .runnable }
        let s ← s.shareWithThread c np
        return (s, 0)

end Kernel
end Xv6
