import Xv6.System

/-!
# Xv6.Files

The system calls that make and drop file descriptors: `open`, `dup`, `pipe`,
`close` and `chdir` (`sysfile.c`, with `filealloc` of `file.c` and `pipealloc`
of `pipe.c`), and the kernel in which processes make them.

What the file system finds under a path is an argument of the call: the entry
of the inode cache that `namei` or `create` returns with a reference, and
whether it is a directory.
-/

namespace Xv6

open Lib Function

namespace Kernel

/-! ## File table and descriptors -/

/-- `filealloc()` -/
def filealloc (s : Kernel) : Option (Kernel × FileId) :=
  match (List.finRange NFILE).find? fun f => (s.ftable f).ref = 0 with
  | none => none
  | some f =>
    some ({ s with ftable := update s.ftable f { s.ftable f with ref := 1 } }, f)

/-- `proc->ofile[fd] = v` -/
def setOfile (s : Kernel) (c : Slot) (fd : Fin NOFILE) (v : Option FileId) : Kernel :=
  s.upd c fun x => { x with ofile := update x.ofile fd v }

/-- `fdalloc(f)` -/
def fdalloc (s : Kernel) (c : Slot) (f : FileId) : Option (Kernel × Fin NOFILE) :=
  match (List.finRange NOFILE).find? fun fd => (s.proc c).ofile fd = none with
  | none => none
  | some fd => some (s.setOfile c fd (some f), fd)

/-- `argfd(n, &fd, &f)` with the number the process passed. -/
def argfd (s : Kernel) (c : Slot) (n : Int) : Option (Fin NOFILE × FileId) :=
  if h : 0 ≤ n ∧ n < NOFILE then
    let fd : Fin NOFILE := ⟨n.toNat, by simp only [NOFILE] at *; omega⟩
    ((s.proc c).ofile fd).map fun f => (fd, f)
  else none

/-! ## dup and close -/

/-- `sys_dup()` -/
def sysDup (s : Kernel) (c : Slot) (n : Int) : Except Panic (Kernel × Int) :=
  match s.argfd c n with
  | none => .ok (s, -1)
  | some (_, f) =>
    match s.fdalloc c f with
    | none => .ok (s, -1)
    | some (s, fd) => do
      let s ← s.filedup f
      return (s, fd.val)

/-- `sys_close()` -/
def sysClose (s : Kernel) (c : Slot) (n : Int) : Except Panic (Kernel × Int) :=
  match s.argfd c n with
  | none => .ok (s, -1)
  | some (fd, f) => do
    let s ← (s.setOfile c fd none).fileclose f
    return (s, 0)

/-! ## open and chdir -/

/-- `fcntl.h` -/
abbrev O_RDONLY : Nat := 0x000

abbrev O_WRONLY : Nat := 0x001

abbrev O_RDWR : Nat := 0x002

abbrev O_CREATE : Nat := 0x200

/-- What `namei` or `create` returns: an entry of the inode cache, with a
reference, and whether it is a directory. -/
structure Found where
  ip : InodeId
  isDir : Bool
  deriving DecidableEq, Repr

/-- `sys_open()` when there is no file structure or no descriptor: `f` is the
file structure, if there is one. -/
def openFailed (s : Kernel) (f : Option FileId) (ip : InodeId) : Except Panic (Kernel × Int) := do
  let s ← match f with
    | none => .ok s
    | some f => s.fileclose f
  return ((s.iput (some ip)).endOp, -1)

/-- `sys_open()` -/
def sysOpen (s : Kernel) (c : Slot) (found : Option Found) (omode : Nat) :
    Except Panic (Kernel × Int) :=
  match found with
  | none => .ok (s.endOp, -1)
  | some ⟨ip, isDir⟩ =>
    let s := s.idup (some ip)
    if omode &&& O_CREATE = 0 ∧ isDir ∧ omode ≠ O_RDONLY then
      .ok ((s.iput (some ip)).endOp, -1)
    else
      match s.filealloc with
      | none => s.openFailed none ip
      | some (s, f) =>
        match s.fdalloc c f with
        | none => s.openFailed (some f) ip
        | some (s, fd) =>
          let s := s.endOp
          let writable := omode &&& O_WRONLY ≠ 0 ∨ omode &&& O_RDWR ≠ 0
          .ok ({ s with
            ftable := update s.ftable f
              { s.ftable f with kind := .inode ip, writable := writable } }, fd.val)

/-- `sys_chdir()` -/
def sysChdir (s : Kernel) (c : Slot) (found : Option Found) : Kernel × Int :=
  match found with
  | none => (s.endOp, -1)
  | some ⟨ip, isDir⟩ =>
    let s := s.idup (some ip)
    if isDir = false then ((s.iput (some ip)).endOp, -1)
    else
      let s := (s.iput (s.proc c).cwd).endOp
      (s.upd c fun x => { x with cwd := some ip }, 0)

/-! ## pipe -/

/-- The two files of a new pipe in the page `p`. -/
def openPipe (s : Kernel) (p : Frame) (f0 f1 : FileId) : Kernel :=
  { s with
    pipes := update s.pipes p { readopen := true, writeopen := true }
    ftable :=
      let ft := update s.ftable f0 { s.ftable f0 with kind := .pipe p, writable := false }
      update ft f1 { ft f1 with kind := .pipe p, writable := true } }

/-- `pipealloc(&f0, &f1)` -/
def pipealloc (s : Kernel) : Except Panic (Kernel × Option (FileId × FileId)) :=
  match s.filealloc with
  | none => .ok (s, none)
  | some (s, f0) =>
    match s.filealloc with
    | none => do
      let s ← s.fileclose f0
      return (s, none)
    | some (s, f1) =>
      match s.freelist with
      | [] => do
        let s ← s.fileclose f0
        let s ← s.fileclose f1
        return (s, none)
      | p :: free => .ok ({ s with freelist := free }.openPipe p f0 f1, some (f0, f1))

/-- `sys_pipe()`, where `argOk` says that the array for the descriptors is in
the address space. -/
def sysPipe (s : Kernel) (c : Slot) (argOk : Bool) : Except Panic (Kernel × Int) :=
  if argOk = false then .ok (s, -1)
  else do
    match ← s.pipealloc with
    | (s, none) => return (s, -1)
    | (s, some (rf, wf)) =>
      match s.fdalloc c rf with
      | none => do
        let s ← s.fileclose rf
        let s ← s.fileclose wf
        return (s, -1)
      | some (s, fd0) =>
        match s.fdalloc c wf with
        | none => do
          let s ← (s.setOfile c fd0 none).fileclose rf
          let s ← s.fileclose wf
          return (s, -1)
        | some (s, _) => return (s, 0)

end Kernel

/-! ## The kernel with its file calls -/

namespace Files

/-- The calls on files, with what they find. -/
inductive Call where
  | sysOpen (found : Option Kernel.Found) (omode : Nat)
  | sysDup (fd : Int)
  | sysPipe (argOk : Bool)
  | sysClose (fd : Int)
  | sysChdir (found : Option Kernel.Found)
  /-- Any other call: it may change what the inode cache holds, but returns
  every reference it takes. -/
  | other (valid : InodeId → Bool) (nlink : InodeId → Int)

/-- A call on files by `c`. -/
def call (s : Kernel) (c : Slot) : Call → Except Panic Kernel
  | .sysOpen found omode => Prod.fst <$> s.sysOpen c found omode
  | .sysDup fd => Prod.fst <$> s.sysDup c fd
  | .sysPipe argOk => Prod.fst <$> s.sysPipe c argOk
  | .sysClose fd => Prod.fst <$> s.sysClose c fd
  | .sysChdir found => .ok (s.sysChdir c found).1
  | .other valid nlink =>
    .ok { s with icache := fun ip => { s.icache ip with valid := valid ip, nlink := nlink ip } }

/-- The states that a call on files by `c` goes through before it is done: `c` may
be preempted there, or sleep in `end_op`.  What the other calls have in hand
meanwhile is left open. -/
def middles (s : Kernel) (c : Slot) : Call → List Kernel
  | .sysOpen (some ⟨ip, _⟩) _ =>
    let s := s.idup (some ip)
    match s.filealloc with
    | none => [s]
    | some (s₁, f) =>
      match s₁.fdalloc c f with
      | none => [s, s₁]
      -- here it sleeps in end_op, and the type of the file is not set
      | some (s₂, _) => [s, s₁, s₂]
  | .sysDup fd =>
    match s.argfd c fd with
    | none => []
    | some (_, f) => ((s.fdalloc c f).map Prod.fst).toList
  | .sysPipe true =>
    match s.pipealloc with
    | .ok (s, some (rf, _)) => s :: ((s.fdalloc c rf).map Prod.fst).toList
    | _ => []
  | .sysClose fd =>
    match s.argfd c fd with
    | none => []
    | some (fd, _) => [s.setOfile c fd none]
  | .sysChdir (some ⟨ip, isDir⟩) =>
    let s := s.idup (some ip)
    if isDir = false then [s] else [s, s.iput (s.proc c).cwd]
  | .sysOpen none _ | .sysPipe false | .sysChdir none | .other _ _ => []

/-- `exit()` by `p` ends the process or thread `c`, in whatever it is doing. -/
def EndsOther (s : Kernel) (p c : Slot) : Prop :=
  c ≠ p ∧ (s.proc c).pid = (s.proc p).pid ∧
    ((s.proc c).state = .sleeping ∨ (s.proc c).state = .runnable ∨ (s.proc c).state = .running) ∧
    ((s.proc p).tid = 0 ∧ (s.proc p).numOfThreads ≠ 0 ∧ (s.proc c).tid ≠ 0 ∨
      (s.proc p).tid ≠ 0 ∧ ((s.proc c).tid ≠ 0 ∨ (s.proc p).parent = some c))

instance (s : Kernel) (p c : Slot) : Decidable (EndsOther s p c) :=
  inferInstanceAs (Decidable (_ ∧ _))

/-- What happens in a step: a call on files, or anything else that happens in
the kernel. -/
inductive Act where
  | file (p : Slot) (op : Call)
  | event (e : Kernel.Event)
  /-- `p` calls `exit()` while `c` is in a call on files, which has come to its
  `i`-th intermediate state and gets no further. -/
  | cut (c : Slot) (op : Call) (i : Nat) (p : Slot)

/-- A file call is made by a `RUNNING` process; events are as in the kernel,
with `Act.file` in place of the file calls left open there. -/
def Enabled (s : Kernel) : Act → Prop
  | .file p _ => (s.proc p).state = .running
  | .cut c op i p => (s.proc p).state = .running ∧ EndsOther s p c ∧ i < (middles s c op).length
  | .event (.files _ _) => False
  | .event e => s.Enabled e

instance (s : Kernel) : DecidablePred (Enabled s)
  | .file _ _ => inferInstanceAs (Decidable (_ = _))
  | .cut _ _ _ _ => inferInstanceAs (Decidable (_ ∧ _ ∧ _))
  | .event (.files _ _) => inferInstanceAs (Decidable False)
  | .event (.dispatch p) => inferInstanceAs (Decidable (s.Enabled (.dispatch p)))
  | .event (.yield p) => inferInstanceAs (Decidable (s.Enabled (.yield p)))
  | .event (.sleep p chan) => inferInstanceAs (Decidable (s.Enabled (.sleep p chan)))
  | .event (.wakeup chan) => inferInstanceAs (Decidable (s.Enabled (.wakeup chan)))
  | .event (.call p op) => inferInstanceAs (Decidable (s.Enabled (.call p op)))

/-- The effect of an act. -/
def effect (s : Kernel) : Act → Except Panic Kernel
  | .file p op => call s p op
  | .event e => s.effect e
  | .cut c op i p => ((middles s c op).getD i s).exit p

/-- The state after an act, if it can happen and the kernel does not panic. -/
def next (s : Kernel) (a : Act) : Option Kernel :=
  if Enabled s a then (effect s a).toOption else none

/-- The states between the system calls of a run whose acts all meet `guard`. -/
abbrev ReachableBy (guard : Kernel → Act → Prop) (s : Kernel) : Prop :=
  Reach Kernel.Started next guard s

/-- No call on files is cut short by the `exit()` of another member of the
process. -/
def Whole (_ : Kernel) : Act → Prop
  | .cut _ _ _ _ => False
  | _ => True

instance (s : Kernel) : DecidablePred (Whole s)
  | .cut _ _ _ _ => inferInstanceAs (Decidable False)
  | .file _ _ | .event _ => inferInstanceAs (Decidable True)

theorem next_eq_some {s s' : Kernel} {a : Act} :
    next s a = some s' ↔ Enabled s a ∧ effect s a = .ok s' := by
  unfold next
  cases effect s a with
  | error _ => simp [Except.toOption]
  | ok s1 => simp [Except.toOption]

end Files
end Xv6
