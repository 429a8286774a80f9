import Xv6.Lib.Ring
import Xv6.Lib.Run

/-!
# Xv6.Pipe

Pipes (`pipe.c`) and the processes that read, write and close them.

A stretch of `pipewrite` or `piperead` from the acquisition of the pipe's lock to
its release, or to a call of `sleep`, is one step.  `kill` needs no lock of the
pipe and can come between any two steps.
-/

namespace Xv6

open Lib Function List

abbrev PIPESIZE : Nat := 512

/-- `struct pipe`, less its lock -/
structure PipeBuf where
  data : Nat → UInt8
  nread : UInt32
  nwrite : UInt32
  readopen : Bool
  writeopen : Bool

namespace PipeBuf

/-! ## With the lock held -/

/-- `p->nwrite == p->nread + PIPESIZE` -/
def Full (p : PipeBuf) : Prop := p.nwrite = p.nread + UInt32.ofNat PIPESIZE

/-- `p->nread == p->nwrite` -/
def Empty (p : PipeBuf) : Prop := p.nread = p.nwrite

instance : DecidablePred Full := fun _ => inferInstanceAs (Decidable (_ = _))

instance : DecidablePred Empty := fun _ => inferInstanceAs (Decidable (_ = _))

/-- `p->data[p->nwrite++ % PIPESIZE] = c` -/
def put (p : PipeBuf) (c : UInt8) : PipeBuf :=
  { p with
    data := update p.data (p.nwrite.toNat % PIPESIZE) c
    nwrite := p.nwrite + 1 }

/-- How `pipewrite` comes to release the lock. -/
inductive WriteEnd where
  /-- it has stored everything -/
  | returns
  /-- it returns -1 -/
  | fails
  | sleeps
  deriving DecidableEq, Repr

/-- The loop of `pipewrite` on the bytes that are left, until the lock is released: the
pipe, the number of bytes stored, and how it ends. -/
def pipewrite (killed : Bool) : PipeBuf → List UInt8 → PipeBuf × Nat × WriteEnd
  | p, [] => (p, 0, .returns)
  | p, c :: rest =>
    if p.Full then
      if p.readopen = false ∨ killed then (p, 0, .fails) else (p, 0, .sleeps)
    else
      let r := pipewrite killed (p.put c) rest
      (r.1, r.2.1 + 1, r.2.2)

/-- How `piperead` comes to release the lock. -/
inductive ReadEnd where
  /-- it has copied these bytes -/
  | returns (bytes : List UInt8)
  /-- it returns -1 -/
  | fails
  | sleeps
  deriving DecidableEq, Repr

/-- The loop of `piperead` that copies at most `n` bytes. -/
def copyOut : Nat → PipeBuf → PipeBuf × List UInt8
  | 0, p => (p, [])
  | n + 1, p =>
    if p.Empty then (p, [])
    else
      let r := copyOut n { p with nread := p.nread + 1 }
      (r.1, p.data (p.nread.toNat % PIPESIZE) :: r.2)

/-- `piperead`, until the lock is released -/
def piperead (killed : Bool) (p : PipeBuf) (n : Int) : PipeBuf × ReadEnd :=
  if p.Empty ∧ p.writeopen then
    if killed then (p, .fails) else (p, .sleeps)
  else
    let r := copyOut n.toNat p
    (r.1, .returns r.2)

/-- The bytes in the pipe, in the order of the counters. -/
def contents (p : PipeBuf) : List UInt8 :=
  (range (p.nwrite - p.nread).toNat).map fun j => p.data ((p.nread.toNat + j) % PIPESIZE)

/-! ## What the functions do

The bytes ever stored form a history.  The pipe holds those from a certain
index on, the number of bytes taken. -/

/-- The pipe after the bytes `hist` have been stored and `lo` of them taken. -/
structure Stands (p : PipeBuf) (hist : List UInt8) (lo : Nat) : Prop where
  ring : RingHolds PIPESIZE p.data hist lo
  nread : p.nread = UInt32.ofNat lo
  nwrite : p.nwrite = UInt32.ofNat hist.length

variable {p : PipeBuf} {hist : List UInt8} {lo : Nat}

section

variable (h : p.Stands hist lo)
include h

theorem Stands.full_iff : p.Full ↔ hist.length = lo + PIPESIZE := by
  have hroom := h.ring.room
  have hle := h.ring.le
  rw [Full, h.nread, h.nwrite, ← UInt32.ofNat_add]
  exact ofNat_eq_iff hroom (by simp only [PIPESIZE]; omega)

theorem Stands.empty_iff : p.Empty ↔ lo = hist.length := by
  have hroom := h.ring.room
  rw [Empty, h.nread, h.nwrite]
  exact ofNat_eq_iff h.ring.le (by simp only [PIPESIZE] at hroom; omega)

theorem Stands.size : (p.nwrite - p.nread).toNat = hist.length - lo := by
  have hroom := h.ring.room
  rw [h.nread, h.nwrite]
  exact toNat_ofNat_sub h.ring.le (by simp only [PIPESIZE] at hroom; omega)

theorem Stands.contents : p.contents = hist.drop lo := by
  rw [PipeBuf.contents, h.size, h.ring.drop_eq]
  refine map_congr_left fun j _ => ?_
  rw [← Nat.mod_add_mod, h.nread, toNat_ofNat_mod (by decide), Nat.mod_add_mod]

theorem Stands.put (hfull : ¬ p.Full) (c : UInt8) : (p.put c).Stands (hist ++ [c]) lo where
  ring := by
    have hroom := h.ring.room
    have hlt : hist.length < lo + PIPESIZE := lt_of_le_of_ne hroom (mt h.full_iff.mpr hfull)
    have hpush := h.ring.push hlt c
    rwa [← toNat_ofNat_mod (by decide) hist.length, ← h.nwrite] at hpush
  nread := h.nread
  nwrite := by
    rw [length_append, length_singleton, ← ofNat_succ, ← h.nwrite]
    rfl

/-- Storing keeps the history, whatever made the writer stop. -/
theorem Stands.pipewrite (killed : Bool) (bytes : List UInt8) :
    (p.pipewrite killed bytes).1.Stands (hist ++ bytes.take (p.pipewrite killed bytes).2.1) lo := by
  induction bytes generalizing p hist with
  | nil => simpa [PipeBuf.pipewrite] using h
  | cons c rest ih =>
    by_cases hfull : p.Full
    · have hstop : (p.pipewrite killed (c :: rest)).1 = p ∧
          (p.pipewrite killed (c :: rest)).2.1 = 0 := by
        rw [PipeBuf.pipewrite, if_pos hfull]
        split <;> exact ⟨rfl, rfl⟩
      rw [hstop.1, hstop.2, take_zero, append_nil]
      exact h
    · rw [PipeBuf.pipewrite, if_neg hfull]
      simpa using ih (h.put hfull c)

end

/-- How a stretch of `pipewrite` ends, and that it moves neither end of the pipe. -/
structure Writes (p : PipeBuf) (killed : Bool) (bytes : List UInt8)
    (r : PipeBuf × Nat × WriteEnd) : Prop where
  readopen : r.1.readopen = p.readopen
  writeopen : r.1.writeopen = p.writeopen
  same : r.2.1 = 0 → r.1 = p
  room : r.2.1 ≠ 0 → ¬ p.Full
  returns : r.2.2 = .returns → r.2.1 = bytes.length
  full : r.2.2 ≠ .returns → r.1.Full ∧ r.2.1 < bytes.length
  fails : r.2.2 = .fails → p.readopen = false ∨ killed = true
  sleeps : r.2.2 = .sleeps → p.readopen = true ∧ killed = false

theorem pipewrite_writes (p : PipeBuf) (killed : Bool) (bytes : List UInt8) :
    p.Writes killed bytes (p.pipewrite killed bytes) := by
  induction bytes generalizing p with
  | nil => constructor <;> simp [pipewrite]
  | cons c rest ih =>
    by_cases hfull : p.Full
    · rw [pipewrite, if_pos hfull]
      split
      · next hstop => constructor <;> simp [hfull, hstop]
      · next hgo =>
        rw [not_or, Bool.not_eq_false, Bool.not_eq_true] at hgo
        constructor <;> simp [hfull, hgo]
    · have hrest := ih (p.put c)
      rw [pipewrite, if_neg hfull]
      exact {
        readopen := hrest.readopen
        writeopen := hrest.writeopen
        same := fun h => absurd h (Nat.succ_ne_zero _)
        room := fun _ => hfull
        returns := fun h => congrArg (· + 1) (hrest.returns h)
        full := fun h => ⟨(hrest.full h).1, Nat.succ_lt_succ (hrest.full h).2⟩
        fails := hrest.fails
        sleeps := hrest.sleeps }

theorem copyOut_ends (n : Nat) (p : PipeBuf) :
    (copyOut n p).1.readopen = p.readopen ∧ (copyOut n p).1.writeopen = p.writeopen := by
  induction n generalizing p with
  | zero => exact ⟨rfl, rfl⟩
  | succ n ih =>
    rw [copyOut]
    split
    · exact ⟨rfl, rfl⟩
    · exact ih { p with nread := p.nread + 1 }

/-- The bytes copied are the next ones of the history. -/
theorem Stands.copyOut (n : Nat) (h : p.Stands hist lo) :
    (copyOut n p).1.Stands hist (lo + (copyOut n p).2.length) ∧
      (hist.drop lo).take (copyOut n p).2.length = (copyOut n p).2 := by
  induction n generalizing p lo with
  | zero => exact ⟨h, rfl⟩
  | succ n ih =>
    rw [PipeBuf.copyOut]
    by_cases hempty : p.Empty
    · rw [if_pos hempty]
      exact ⟨h, rfl⟩
    rw [if_neg hempty]
    have hlt : lo < hist.length := lt_of_le_of_ne h.ring.le (mt h.empty_iff.mpr hempty)
    obtain ⟨hcell, hpop⟩ := h.ring.pop hlt
    have hstep : Stands { p with nread := p.nread + 1 } hist (lo + 1) :=
      ⟨hpop, by rw [← ofNat_succ, ← h.nread], h.nwrite⟩
    obtain ⟨hrest, htake⟩ := ih hstep
    refine ⟨?_, ?_⟩
    · rw [length_cons, Nat.add_comm _ 1, ← Nat.add_assoc]
      exact hrest
    · rw [drop_eq_getElem_cons hlt, length_cons, take_succ_cons, htake]
      rw [getElem?_eq_getElem hlt, Option.some.injEq,
        ← toNat_ofNat_mod (by decide) lo, ← h.nread] at hcell
      rw [hcell]

end PipeBuf

/-! ## Processes on a pipe -/

/-- `&p->nread` and `&p->nwrite` -/
inductive PipeChan where
  | nread
  | nwrite
  deriving DecidableEq, Repr

/-- What a process is doing. -/
inductive PipeTask where
  | idle
  /-- `pipewrite(p, addr, n)` with `i` bytes stored -/
  | pipewrite (addr : List UInt8) (i : Nat)
  /-- `piperead(p, addr, n)` -/
  | piperead (n : Int)
  deriving DecidableEq, Repr

/-- A pipe and the processes that use it.  `asleep` is the channel a process is `SLEEPING`
on.  The rest is a record of the run: the bytes stored, with the process that
stored them, the bytes returned by reads, and for each process what its completed
calls of `pipewrite` have stored. -/
structure PipeRun where
  pipe : PipeBuf
  task : Nat → PipeTask
  asleep : Nat → Option PipeChan
  killed : Nat → Bool
  stored : List (Nat × UInt8)
  taken : List UInt8
  sent : Nat → List UInt8

namespace PipeRun

/-- `wakeup(chan)` -/
def wakeup (s : PipeRun) (chan : PipeChan) : PipeRun :=
  { s with asleep := fun p => if s.asleep p = some chan then none else s.asleep p }

/-- Process `p` has the lock in `pipewrite` with `i` bytes of `addr` stored. -/
def writeOn (s : PipeRun) (p : Nat) (addr : List UInt8) (i : Nat) : PipeRun :=
  let r := s.pipe.pipewrite (s.killed p) (addr.drop i)
  let s := { s with
    pipe := r.1
    stored := s.stored ++ ((addr.drop i).take r.2.1).map (Prod.mk p) }
  match r.2.2 with
  | .returns =>
    { s.wakeup .nread with
      task := update s.task p .idle
      sent := update s.sent p (s.sent p ++ addr) }
  | .fails =>
    { s with
      task := update s.task p .idle
      sent := update s.sent p (s.sent p ++ addr.take (i + r.2.1)) }
  | .sleeps =>
    { s.wakeup .nread with
      task := update s.task p (.pipewrite addr (i + r.2.1))
      asleep := update (s.wakeup .nread).asleep p (some .nwrite) }

/-- Process `p` has the lock in `piperead`. -/
def readOn (s : PipeRun) (p : Nat) (n : Int) : PipeRun :=
  let r := s.pipe.piperead (s.killed p) n
  let s := { s with pipe := r.1 }
  match r.2 with
  | .returns bytes =>
    { s.wakeup .nwrite with
      task := update s.task p .idle
      taken := s.taken ++ bytes }
  | .fails => { s with task := update s.task p .idle }
  | .sleeps =>
    { s with
      task := update s.task p (.piperead n)
      asleep := update s.asleep p (some .nread) }

/-- `pipeclose(p, writable)` -/
def pipeclose (s : PipeRun) (writable : Bool) : PipeRun :=
  if writable then { s with pipe := { s.pipe with writeopen := false } }.wakeup .nread
  else { s with pipe := { s.pipe with readopen := false } }.wakeup .nwrite

/-- Both ends are closed, and the page of the pipe is free. -/
def Freed (s : PipeRun) : Prop := s.pipe.readopen = false ∧ s.pipe.writeopen = false

instance : DecidablePred Freed := fun _ => inferInstanceAs (Decidable (_ ∧ _))

inductive Act where
  /-- process `p` calls `pipewrite` -/
  | write (p : Nat) (addr : List UInt8)
  /-- process `p` calls `piperead` -/
  | read (p : Nat) (n : Int)
  /-- process `p`, which is not asleep, acquires the lock again -/
  | resume (p : Nat)
  /-- `kill` of process `p`; it is `late` where it comes after the last test of `killed`
  and before `sleep` has made the process `SLEEPING` -/
  | kill (p : Nat) (late : Bool)
  | close (writable : Bool)

/-- The step on the pipe itself. -/
def act (s : PipeRun) : Act → Option PipeRun
  | .write p addr => if s.task p = .idle then some (s.writeOn p addr 0) else none
  | .read p n => if s.task p = .idle then some (s.readOn p n) else none
  | .resume p =>
    if s.asleep p = none then
      match s.task p with
      | .idle => none
      | .pipewrite addr i => some (s.writeOn p addr i)
      | .piperead n => some (s.readOn p n)
    else none
  | .kill p late =>
    some { s with
      killed := update s.killed p true
      asleep := if late = true then s.asleep else update s.asleep p none }
  | .close writable =>
    if (if writable then s.pipe.writeopen else s.pipe.readopen) then some (s.pipeclose writable)
    else none

/-- No step is taken on a pipe that is freed. -/
def next (s : PipeRun) (a : Act) : Option PipeRun := if s.Freed then none else s.act a

/-- After `pipealloc`, with no process in the pipe. -/
structure Started (s : PipeRun) : Prop where
  nread : s.pipe.nread = 0
  nwrite : s.pipe.nwrite = 0
  readopen : s.pipe.readopen = true
  writeopen : s.pipe.writeopen = true
  task : ∀ p, s.task p = .idle
  asleep : ∀ p, s.asleep p = none
  stored : s.stored = []
  taken : s.taken = []
  sent : ∀ p, s.sent p = []

abbrev Reachable : PipeRun → Prop := Reach Started next fun _ _ => True

/-- A new pipe. -/
def fresh : PipeRun where
  pipe := { data := fun _ => 0, nread := 0, nwrite := 0, readopen := true, writeopen := true }
  task _ := .idle
  asleep _ := none
  killed _ := false
  stored := []
  taken := []
  sent _ := []

theorem started_fresh : Started fresh :=
  ⟨rfl, rfl, rfl, rfl, fun _ => rfl, fun _ => rfl, rfl, rfl, fun _ => rfl⟩

/-- The call of `pipewrite` a step goes on with: the process, its bytes, and how many of
them are stored. -/
def writing (s : PipeRun) : Act → Option (Nat × List UInt8 × Nat)
  | .write p addr => some (p, addr, 0)
  | .resume p =>
    match s.task p with
    | .pipewrite addr i => some (p, addr, i)
    | _ => none
  | _ => none

/-- What a step can be: a stretch of one of the two calls, a kill or a close. -/
inductive Takes (s : PipeRun) (a : Act) : PipeRun → Prop where
  | write {p : Nat} {addr : List UInt8} {i : Nat} :
      s.writing a = some (p, addr, i) →
      s.task p = .idle ∧ i = 0 ∨ s.task p = .pipewrite addr i ∧ s.asleep p = none →
      Takes s a (s.writeOn p addr i)
  | read {p : Nat} {n : Int} :
      s.writing a = none →
      s.task p = .idle ∨ s.task p = .piperead n ∧ s.asleep p = none →
      Takes s a (s.readOn p n)
  | kill {p : Nat} (late : Bool) :
      s.writing a = none →
      Takes s a { s with
        killed := update s.killed p true
        asleep := if late = true then s.asleep else update s.asleep p none }
  | close (writable : Bool) :
      s.writing a = none → Takes s a (s.pipeclose writable)

variable {a : Act}

theorem takes_of_next {s s' : PipeRun} (h : s.next a = some s') : Takes s a s' := by
  unfold next at h
  split at h
  · contradiction
  cases a with
  | write p addr =>
    simp only [act] at h
    split at h
    · next hidle =>
      cases h
      exact .write rfl (.inl ⟨hidle, rfl⟩)
    · contradiction
  | read p n =>
    simp only [act] at h
    split at h
    · next hidle =>
      cases h
      exact .read rfl (.inl hidle)
    · contradiction
  | resume p =>
    simp only [act] at h
    split at h
    · next hawake =>
      split at h
      · contradiction
      · next addr i htask =>
        cases h
        exact .write (by simp only [writing, htask]) (.inr ⟨htask, hawake⟩)
      · next n htask =>
        cases h
        exact .read (by simp only [writing, htask]) (.inr ⟨htask, hawake⟩)
    · contradiction
  | kill p late =>
    cases h
    exact .kill late rfl
  | close writable =>
    by_cases hopen : (if writable then s.pipe.writeopen else s.pipe.readopen) = true
    · rw [act, if_pos hopen] at h
      cases h
      exact .close writable rfl
    · rw [act, if_neg hopen] at h
      contradiction

/-! ## First in, first out -/

/-- What a call of `pipewrite` in progress has stored. -/
def underway (s : PipeRun) (p : Nat) : List UInt8 :=
  match s.task p with
  | .pipewrite addr i => addr.take i
  | _ => []

/-- The bytes process `p` has stored, in the order of the pipe. -/
def storedBy (s : PipeRun) (p : Nat) : List UInt8 :=
  (s.stored.filter fun b => b.1 = p).map Prod.snd

/-- The bytes stored are the bytes taken and then those in the pipe, which has never more
than it has room for, and each process's bytes stand in the order it wrote them. -/
structure Fifo (s : PipeRun) : Prop where
  order : s.stored.map Prod.snd = s.taken ++ s.pipe.contents
  size : (s.pipe.nwrite - s.pipe.nread).toNat ≤ PIPESIZE
  own : ∀ p, s.storedBy p = s.sent p ++ s.underway p

/-- The pipe stands where the record of the run says. -/
structure Ordered (s : PipeRun) : Prop where
  stands : s.pipe.Stands (s.stored.map Prod.snd) s.taken.length
  taken : (s.stored.map Prod.snd).take s.taken.length = s.taken
  own : ∀ p, s.storedBy p = s.sent p ++ s.underway p

variable {s s' : PipeRun} {p : Nat}

theorem Ordered.fifo (h : Ordered s) : Fifo s where
  order := by
    rw [h.stands.contents]
    conv_lhs => rw [← take_append_drop s.taken.length (s.stored.map Prod.snd), h.taken]
  size := by
    have hroom := h.stands.ring.room
    rw [h.stands.size]
    omega
  own := h.own

theorem Started.ordered (h : Started s) : Ordered s where
  stands := by
    rw [h.stored, h.taken]
    exact ⟨ringHolds_nil _ _, h.nread, h.nwrite⟩
  taken := by rw [h.stored, h.taken, map_nil, take_nil]
  own p := by simp [storedBy, underway, h.stored, h.sent, h.task]

/-- A stretch of a call of `pipewrite` by `p` that stores the bytes `chunk`. -/
theorem Ordered.wrote (h : Ordered s) {chunk : List UInt8}
    (hstored : s'.stored = s.stored ++ chunk.map (Prod.mk p))
    (hstands : s'.pipe.Stands (s.stored.map Prod.snd ++ chunk) s.taken.length)
    (htaken : s'.taken = s.taken)
    (hother : ∀ q, q ≠ p → s'.sent q = s.sent q ∧ s'.underway q = s.underway q)
    (hself : s'.sent p ++ s'.underway p = s.sent p ++ s.underway p ++ chunk) : Ordered s' where
  stands := by simpa [hstored, htaken, Function.comp_def] using hstands
  taken := by
    have hlen : s.taken.length ≤ (s.stored.map Prod.snd).length := h.stands.ring.le
    rw [hstored, htaken, map_append, take_append_of_le_length hlen, h.taken]
  own q := by
    by_cases hq : q = p
    · subst hq
      rw [hself, ← h.own, storedBy, storedBy, hstored, filter_append, map_append]
      simp [filter_map, Function.comp_def]
    · rw [(hother q hq).1, (hother q hq).2, ← h.own, storedBy, storedBy, hstored,
        filter_append, map_append]
      simp [filter_map, Function.comp_def, Ne.symm hq]

variable {addr : List UInt8} {i : Nat}

theorem Ordered.writeOn (h : Ordered s)
    (hunder : s.underway p = addr.take i) : Ordered (s.writeOn p addr i) := by
  have hstands := h.stands.pipewrite (s.killed p) (addr.drop i)
  have hw := s.pipe.pipewrite_writes (s.killed p) (addr.drop i)
  have hchunk : ∀ n, addr.take i ++ (addr.drop i).take n = addr.take (i + n) :=
    fun n => take_add.symm
  simp only [PipeRun.writeOn]
  split
  · next hend =>
    refine h.wrote rfl hstands rfl (fun q hq => ?_) ?_
    · simp [underway, hq]
    · rw [hw.returns hend, take_length, hunder, append_assoc, take_append_drop]
      simp [underway]
  · refine h.wrote rfl hstands rfl (fun q hq => ?_) ?_
    · simp [underway, hq]
    · rw [hunder, append_assoc, hchunk]
      simp [underway]
  · refine h.wrote rfl hstands rfl (fun q hq => ?_) ?_
    · simp [wakeup, underway, hq]
    · rw [hunder, append_assoc, hchunk]
      simp [wakeup, underway]

/-- A step that leaves the counters, the bytes and the calls of `pipewrite` alone. -/
theorem Ordered.kept (h : Ordered s) (hdata : s'.pipe.data = s.pipe.data)
    (hnread : s'.pipe.nread = s.pipe.nread) (hnwrite : s'.pipe.nwrite = s.pipe.nwrite)
    (hstored : s'.stored = s.stored) (htaken : s'.taken = s.taken) (hsent : s'.sent = s.sent)
    (hunder : s'.underway = s.underway) : Ordered s' where
  stands := by
    rw [hstored, htaken]
    exact ⟨hdata ▸ h.stands.ring, hnread ▸ h.stands.nread, hnwrite ▸ h.stands.nwrite⟩
  taken := by rw [hstored, htaken, h.taken]
  own p := by rw [storedBy, hstored, hsent, hunder, ← h.own, storedBy]

/-- A process that stores nothing can change what it does. -/
theorem underway_update (hunder : s.underway p = []) (t : PipeTask)
    (ht : ∀ addr i, t ≠ .pipewrite addr i) (htask : s'.task = update s.task p t) :
    s'.underway = s.underway := by
  funext q
  by_cases hq : q = p
  · rw [hq, hunder, underway, htask, update_self]
    cases t with
    | pipewrite addr i => exact absurd rfl (ht addr i)
    | idle => rfl
    | piperead n => rfl
  · rw [underway, htask, update_of_ne hq, underway]

theorem readOn_cases (s : PipeRun) (p : Nat) (n : Int) :
    (s.pipe.Empty ∧ s.pipe.writeopen = true ∧
      (s.readOn p n = { s with task := update s.task p .idle } ∨
        s.readOn p n = { s with
          task := update s.task p (.piperead n)
          asleep := update s.asleep p (some .nread) })) ∨
      s.readOn p n = { s.wakeup .nwrite with
        pipe := (s.pipe.copyOut n.toNat).1
        task := update s.task p .idle
        taken := s.taken ++ (s.pipe.copyOut n.toNat).2 } := by
  by_cases hempty : s.pipe.Empty ∧ s.pipe.writeopen = true
  · refine .inl ⟨hempty.1, hempty.2, ?_⟩
    simp only [readOn, PipeBuf.piperead, if_pos hempty]
    cases s.killed p with
    | true => exact .inl rfl
    | false => exact .inr rfl
  · refine .inr ?_
    simp only [readOn, PipeBuf.piperead, if_neg hempty]
    rfl

theorem Ordered.readOn (h : Ordered s) {n : Int} (hunder : s.underway p = []) :
    Ordered (s.readOn p n) := by
  rcases readOn_cases s p n with ⟨_, _, heq | heq⟩ | heq
  · rw [heq]
    exact h.kept rfl rfl rfl rfl rfl rfl (underway_update hunder .idle (by simp) rfl)
  · rw [heq]
    exact h.kept rfl rfl rfl rfl rfl rfl (underway_update hunder (.piperead n) (by simp) rfl)
  · obtain ⟨hstands, hbytes⟩ := h.stands.copyOut n.toNat
    have hunder' : (s.readOn p n).underway = s.underway :=
      underway_update hunder .idle (by simp) (by rw [heq])
    have htaken : (s.stored.map Prod.snd).take
        (s.taken.length + (s.pipe.copyOut n.toNat).2.length) =
          s.taken ++ (s.pipe.copyOut n.toNat).2 := by
      rw [take_add, h.taken, hbytes]
    rw [← length_append] at hstands htaken
    rw [heq] at hunder' ⊢
    exact {
      stands := hstands
      taken := htaken
      own := fun q => by
        rw [hunder']
        exact h.own q }

theorem Ordered.next (h : Ordered s) (hnext : s.next a = some s') : Ordered s' := by
  cases takes_of_next hnext with
  | write _ htask =>
    refine h.writeOn ?_
    rcases htask with ⟨hidle, rfl⟩ | ⟨htask, _⟩
    · simp only [underway, hidle, take_zero]
    · simp only [underway, htask]
  | read _ htask =>
    refine h.readOn ?_
    rcases htask with hidle | ⟨htask, _⟩
    · simp only [underway, hidle]
    · simp only [underway, htask]
  | kill late _ => exact h.kept rfl rfl rfl rfl rfl rfl rfl
  | close writable _ => cases writable <;> exact h.kept rfl rfl rfl rfl rfl rfl rfl

theorem ordered_of_reach {guard : PipeRun → Act → Prop} (h : Reach Started PipeRun.next guard s) :
    Ordered s :=
  h.inv Ordered (fun _ => Started.ordered) fun _ _ _ ho _ hnext => ho.next hnext

/-- **Pipes are first in, first out**: in every state that readers, writers, kills and
closes can bring about, the bytes read are the first of the bytes stored and the
others are in the pipe, and each process's bytes are stored in its order. -/
theorem fifo_of_reachable (h : Reachable s) : Fifo s := (ordered_of_reach h).fifo

theorem fifo_of_reachable_two_writers : ∃ s, s.taken = [1, 3] ∧ s.pipe.contents = [2] ∧ Fifo s := by
  obtain ⟨s, hreach, htaken, hcontents⟩ :
      ∃ s, Reachable s ∧ s.taken = [1, 3] ∧ s.pipe.contents = [2] :=
    Reach.exists_of_run (.start started_fresh)
      [.read 0 2, .write 1 [1], .write 2 [3, 2], .resume 0] (by decide +kernel)
  exact ⟨s, htaken, hcontents, fifo_of_reachable hreach⟩

/-! ## Wakeups -/

/-- Nobody sleeps for what is already there. -/
structure NoLostWakeup (s : PipeRun) : Prop where
  reader : ∀ p, s.asleep p = some .nread → s.pipe.Empty ∧ s.pipe.writeopen = true
  writer : ∀ p, s.asleep p = some .nwrite → s.pipe.Full ∧ s.pipe.readopen = true

/-- A writer that would fill the pipe while a reader sleeps, with bytes left over, is not
stopped there: it is not killed and the read end is open. -/
def WakesReaders (s : PipeRun) (a : Act) : Prop :=
  ∀ p addr i, s.writing a = some (p, addr, i) → (∃ q, s.asleep q = some .nread) →
    PIPESIZE < (addr.drop i).length → s.pipe.readopen = true ∧ s.killed p = false

theorem wakesReaders_of_none (h : s.writing a = none) : s.WakesReaders a := by
  intro p addr i hw
  rw [h] at hw
  contradiction

variable {chan c : PipeChan} {q : Nat}

theorem wakeup_asleep (h : (s.wakeup chan).asleep q = some c) : s.asleep q = some c ∧ c ≠ chan := by
  simp only [wakeup] at h
  split at h
  · contradiction
  · next hne => exact ⟨h, fun hc => hne (hc ▸ h)⟩

theorem update_asleep {asleep : Nat → Option PipeChan}
    (h : update asleep p (some chan) q = some c) : asleep q = some c ∨ q = p ∧ c = chan := by
  by_cases hqp : q = p
  · rw [hqp, update_self] at h
    exact .inr ⟨hqp, (Option.some.inj h).symm⟩
  · rw [update_of_ne hqp] at h
    exact .inl h

theorem NoLostWakeup.readOn (h : NoLostWakeup s) {n : Int} : NoLostWakeup (s.readOn p n) := by
  rcases readOn_cases s p n with ⟨hempty, hopen, heq | heq⟩ | heq
  · rw [heq]
    exact ⟨h.reader, h.writer⟩
  · rw [heq]
    exact ⟨fun q hq => ⟨hempty, hopen⟩,
      fun q hq => h.writer q ((update_asleep hq).resolve_right fun hc => nomatch hc.2)⟩
  · rw [heq]
    refine ⟨fun q hq => ?_, fun q hq => absurd rfl (wakeup_asleep hq).2⟩
    -- a reader that sleeps has seen the pipe empty, so nothing was copied
    obtain ⟨hempty, hopen⟩ := h.reader q (wakeup_asleep hq).1
    have hends := PipeBuf.copyOut_ends n.toNat s.pipe
    have hnone : (s.pipe.copyOut n.toNat).1 = s.pipe := by
      cases n.toNat with
      | zero => rfl
      | succ m => rw [PipeBuf.copyOut, if_pos hempty]
    refine ⟨?_, hends.2.trans hopen⟩
    show (s.pipe.copyOut n.toNat).1.Empty
    rw [hnone]
    exact hempty

/-- A stretch of `pipewrite` that stores something finds no writer asleep. -/
theorem NoLostWakeup.not_nwrite (h : NoLostWakeup s) (hfull : ¬ s.pipe.Full) (q : Nat) :
    s.asleep q ≠ some .nwrite :=
  fun hq => hfull (h.writer q hq).1

variable {killed : Bool} {bytes : List UInt8}

/-- The writers that sleep when a stretch of `pipewrite` begins can go on sleeping. -/
theorem NoLostWakeup.writer_kept (h : NoLostWakeup s) {r : PipeBuf × Nat × PipeBuf.WriteEnd}
    (hw : s.pipe.Writes killed bytes r)
    (hq : s.asleep q = some .nwrite) : r.1.Full ∧ r.1.readopen = true := by
  have hzero : r.2.1 = 0 := by
    by_contra hne
    exact h.not_nwrite (hw.room hne) q hq
  rw [hw.same hzero]
  exact h.writer q hq

/-- A stretch of `pipewrite` that does not store everything fills the pipe, and where a
reader sleeps it has stored `PIPESIZE` bytes. -/
theorem NoLostWakeup.filled (h : NoLostWakeup s) (ho : Ordered s) (hq : s.asleep q = some .nread) :
    (s.pipe.pipewrite killed bytes).2.2 ≠ .returns ↔ PIPESIZE < bytes.length := by
  have hw := s.pipe.pipewrite_writes killed bytes
  have hstands := ho.stands.pipewrite killed bytes
  have hempty := ho.stands.empty_iff.mp (h.reader q hq).1
  have hlen : ∀ n, (s.stored.map Prod.snd ++ bytes.take n).length =
      s.taken.length + min n bytes.length := by
    intro n
    rw [length_append, ← hempty, length_take]
  constructor
  · intro hend
    obtain ⟨hfull, hlt⟩ := hw.full hend
    rw [hstands.full_iff, hlen] at hfull
    omega
  · intro hlt hend
    have hroom := hstands.ring.room
    rw [hlen, hw.returns hend] at hroom
    omega

theorem Ordered.not_empty_of_full (ho : Ordered s) (hfull : s.pipe.Full) : ¬ s.pipe.Empty := by
  intro hempty
  rw [ho.stands.full_iff, ← ho.stands.empty_iff.mp hempty] at hfull
  simp only [PIPESIZE] at hfull
  omega

/-- A stretch of `pipewrite` loses a wakeup just where it gives up after it has filled the
pipe, with a reader asleep. -/
theorem NoLostWakeup.writeOn_iff (h : NoLostWakeup s) (ho : Ordered s)
    (hunder : s.underway p = addr.take i) :
    NoLostWakeup (s.writeOn p addr i) ↔
      ((∃ q, s.asleep q = some .nread) → PIPESIZE < (addr.drop i).length →
        s.pipe.readopen = true ∧ s.killed p = false) := by
  have hw := s.pipe.pipewrite_writes (s.killed p) (addr.drop i)
  have ho' := ho.writeOn hunder
  simp only [writeOn] at ho' ⊢
  split at ho'
  · next hend =>
    refine iff_of_true ⟨fun q hq => absurd rfl (wakeup_asleep hq).2,
      fun q hq => h.writer_kept hw (wakeup_asleep hq).1⟩ ?_
    rintro ⟨q, hq⟩ hlt
    exact absurd hend ((h.filled ho hq).mpr hlt)
  · next hend =>
    have hne : (s.pipe.pipewrite (s.killed p) (addr.drop i)).2.2 ≠ .returns := by
      rw [hend]
      decide
    constructor
    · rintro hnew ⟨q, hq⟩
      exact absurd (hnew.reader q hq).1 (ho'.not_empty_of_full (hw.full hne).1)
    · intro hgo
      refine ⟨fun q hq => ?_, fun q hq => h.writer_kept hw hq⟩
      obtain ⟨hopen, halive⟩ := hgo ⟨q, hq⟩ ((h.filled ho hq).mp hne)
      rcases hw.fails hend with hclosed | hkilled
      · rw [hclosed] at hopen
        contradiction
      · rw [hkilled] at halive
        contradiction
  · next hend =>
    refine iff_of_true ⟨fun q hq => ?_, fun q hq => ?_⟩ fun _ _ => hw.sleeps hend
    · rcases update_asleep hq with hq | ⟨_, hc⟩
      · exact absurd rfl (wakeup_asleep hq).2
      · contradiction
    · rcases update_asleep hq with hq | _
      · exact h.writer_kept hw (wakeup_asleep hq).1
      · exact ⟨(hw.full (by rw [hend]; decide)).1, hw.readopen.trans (hw.sleeps hend).1⟩

/-- A step from a state in which no wakeup is lost loses none just where no writer gives up
after filling the pipe with a reader asleep. -/
theorem NoLostWakeup.next_iff (h : NoLostWakeup s) (ho : Ordered s)
    (hnext : s.next a = some s') : NoLostWakeup s' ↔ s.WakesReaders a := by
  cases takes_of_next hnext with
  | @write p addr i hwriting htask =>
    have hunder : s.underway p = addr.take i := by
      rcases htask with ⟨hidle, rfl⟩ | ⟨htask, _⟩
      · simp only [underway, hidle, take_zero]
      · simp only [underway, htask]
    rw [h.writeOn_iff ho hunder, WakesReaders, hwriting]
    simp only [Option.some.injEq, Prod.mk.injEq, and_imp]
    constructor
    · rintro hgo _ _ _ rfl rfl rfl
      exact hgo
    · exact fun hgo => hgo p addr i rfl rfl rfl
  | read hwriting _ => exact iff_of_true h.readOn (wakesReaders_of_none hwriting)
  | @kill p late hwriting =>
    refine iff_of_true ?_ (wakesReaders_of_none hwriting)
    have hkept : ∀ q c, (if late = true then s.asleep else update s.asleep p none) q =
        some c → s.asleep q = some c := by
      intro q c hq
      split at hq
      · exact hq
      by_cases hqp : q = p
      · rw [hqp, update_self] at hq
        contradiction
      · rwa [update_of_ne hqp] at hq
    exact ⟨fun q hq => h.reader q (hkept q _ hq), fun q hq => h.writer q (hkept q _ hq)⟩
  | close writable hwriting =>
    refine iff_of_true ?_ (wakesReaders_of_none hwriting)
    cases writable with
    | true =>
      exact ⟨fun q hq => absurd rfl (wakeup_asleep hq).2,
        fun q hq => h.writer q (wakeup_asleep hq).1⟩
    | false =>
      exact ⟨fun q hq => h.reader q (wakeup_asleep hq).1,
        fun q hq => absurd rfl (wakeup_asleep hq).2⟩

theorem Started.noLostWakeup (h : Started s) : NoLostWakeup s := by
  have hnone : ∀ {q c}, s.asleep q ≠ some c := by simp [h.asleep]
  exact ⟨fun _ hq => absurd hq hnone, fun _ hq => absurd hq hnone⟩

/-- **No wakeup is lost** in a run in which no writer, being killed or without a reader, gives
up after it has filled the pipe while a reader sleeps. -/
theorem noLostWakeup_of_reach (h : Reach Started next WakesReaders s) : NoLostWakeup s := by
  refine (h.inv (fun s => Ordered s ∧ NoLostWakeup s)
    (fun _ hs => ⟨hs.ordered, hs.noLostWakeup⟩) fun s a s' hs hg hnext => ?_).2
  exact ⟨hs.1.next hnext, (hs.2.next_iff hs.1 hnext).mpr hg⟩

theorem noLostWakeup_of_reach_woken :
    ∃ s, s.task 0 = .piperead 1 ∧ s.asleep 0 = none ∧ NoLostWakeup s := by
  have hread : Reach Started next WakesReaders (fresh.readOn 0 1) :=
    .step (a := .read 0 1) (.start started_fresh) (wakesReaders_of_none rfl) rfl
  have hgo : (fresh.readOn 0 1).WakesReaders (.write 1 [7]) := by
    intro p addr i hw _ hlong
    cases hw
    simp at hlong
  exact ⟨_, by decide, by decide, noLostWakeup_of_reach (.step hread hgo rfl)⟩

/-- A reader sleeps on a new pipe.  A writer that is killed on its way into `pipewrite` stores
`PIPESIZE` of its bytes, finds the pipe full and returns -1 without a wakeup: the
reader sleeps on, with the pipe full. -/
theorem killed_writer_leaves_reader :
    ∃ s, Reachable s ∧ s.asleep 0 = some .nread ∧ ¬ s.pipe.Empty :=
  Reach.exists_of_run (.start started_fresh)
    [.read 0 1, .kill 1 false, .write 1 (replicate 513 0)] (by decide +kernel)

end PipeRun
end Xv6
