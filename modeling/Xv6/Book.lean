import Xv6.System
import Xv6.Effects

/-!
# Xv6.Book

The bookkeeping of processes and page directories on its own: who is in the
process table, who is whose parent, who uses which page directory and counter.

`Kernel.book` forgets everything else.  What the helpers and the system calls
do to the book is said once, here and in `Xv6.Book.Calls`.
-/

namespace Xv6

open Lib Function

variable {i : Fin NPROC} {s s' : Kernel} {old : Option PgdirId} {c p : Slot}

/-- A process on a CPU, waiting for one or asleep is just `RUNNABLE` here. -/
def ProcState.settled : ProcState → ProcState
  | .sleeping | .running => .runnable
  | st => st

theorem Woken.settled {st st' : ProcState} (h : Woken st st') : st'.settled = st.settled := by
  rcases h with rfl | ⟨rfl, rfl⟩
  · rfl
  · rfl

/-! ## The book -/

/-- What the book knows of a process table entry. -/
structure Entry where
  state : ProcState
  pid : Int
  tid : Int
  parent : Option Slot
  pgdir : Option PgdirId
  idx : Option (Fin NPROC)

/-- The bookkeeping state. -/
structure Book where
  entry : Slot → Entry
  initproc : Slot
  nextpid : Int
  pgdirRef : Fin NPROC → Int8
  nextPgdir : PgdirId
  freevmCalls : List FreevmCall

/-- The book's part of a process table entry. -/
def Proc.entry (x : Proc) : Entry where
  state := x.state.settled
  pid := x.pid
  tid := x.tid
  parent := x.parent
  pgdir := x.pgdir
  idx := x.pgdirRefIdx

namespace Book

/-- The entry `p` is in use. -/
def Live (b : Book) (p : Slot) : Prop := (b.entry p).state ≠ .unused

instance (b : Book) (p : Slot) : Decidable (b.Live p) := inferInstanceAs (Decidable (_ ≠ _))

/-- The entries in use other than `p` whose page directory is `g`. -/
def otherUsers (b : Book) (p : Slot) (g : PgdirId) : List Slot :=
  slots.filter fun q => q ≠ p ∧ b.Live q ∧ (b.entry q).pgdir = some g

/-- Replace the entry `p`. -/
def set (b : Book) (p : Slot) (e : Entry) : Book := { b with entry := update b.entry p e }

@[simp] theorem set_entry_same (b : Book) (p : Slot) (e : Entry) : (b.set p e).entry p = e :=
  update_self ..

theorem set_entry_of_ne (b : Book) {q : Slot} (e : Entry) (h : q ≠ p) :
    (b.set p e).entry q = b.entry q :=
  update_of_ne h ..

/-! ## What the helpers do to the book -/

/-- `p` has ended: it is a zombie and its children belong to init. -/
def die (b : Book) (p : Slot) : Book :=
  { b with
    entry := fun q =>
      { b.entry q with
        parent := Kernel.heir b.initproc p (b.entry q).parent
        state := if q = p then .zombie else (b.entry q).state } }

variable {b : Book}

theorem live_die (hp : b.Live p) (q : Slot) : (b.die p).Live q ↔ b.Live q := by
  by_cases hq : q = p
  · subst hq
    simpa [Live, die] using hp
  · simp [Live, die, hq]

/-- `freevm` is called on behalf of `p`. -/
def freevm (b : Book) (p : Slot) : Option PgdirId → Book
  | none => b
  | some g => { b with freevmCalls := { pgdir := g, others := b.otherUsers p g } :: b.freevmCalls }

theorem freevm_eq (b : Book) (p : Slot) (g : Option PgdirId) :
    ∃ calls, b.freevm p g = { b with freevmCalls := calls } := by
  cases g with
  | none => exact ⟨_, rfl⟩
  | some g => exact ⟨_, rfl⟩

/-- `check_pgdir_counter_and_call_freevm(p)` -/
def dropRef (b : Book) (p : Slot) : Book :=
  match (b.entry p).idx with
  | none => b.freevm p (b.entry p).pgdir
  | some i =>
    if b.pgdirRef i ≤ 1 then
      { b with pgdirRef := update b.pgdirRef i 0 }.freevm p (b.entry p).pgdir
    else { b with pgdirRef := update b.pgdirRef i (b.pgdirRef i - 1) }

theorem dropRef_none (hi : (b.entry p).idx = none) :
    b.dropRef p = b.freevm p (b.entry p).pgdir := by
  rw [dropRef, hi]

theorem dropRef_last (hi : (b.entry p).idx = some i) (hle : b.pgdirRef i ≤ 1) :
    b.dropRef p =
      { b with pgdirRef := update b.pgdirRef i 0 }.freevm p (b.entry p).pgdir := by
  simp only [dropRef, hi, if_pos hle]

theorem dropRef_shared (hi : (b.entry p).idx = some i) (hgt : ¬ b.pgdirRef i ≤ 1) :
    b.dropRef p = { b with pgdirRef := update b.pgdirRef i (b.pgdirRef i - 1) } := by
  simp only [dropRef, hi, if_neg hgt]

/-- Dropping a reference changes counters and calls only. -/
theorem dropRef_eq (b : Book) (p : Slot) :
    ∃ ref calls, b.dropRef p = { b with pgdirRef := ref, freevmCalls := calls } := by
  cases hi : (b.entry p).idx with
  | none =>
    obtain ⟨calls, hc⟩ := freevm_eq b p (b.entry p).pgdir
    exact ⟨_, calls, (dropRef_none hi).trans hc⟩
  | some i =>
    by_cases hle : b.pgdirRef i ≤ 1
    · obtain ⟨calls, hc⟩ :=
        freevm_eq { b with pgdirRef := update b.pgdirRef i 0 } p (b.entry p).pgdir
      exact ⟨_, calls, (dropRef_last hi hle).trans hc⟩
    · exact ⟨_, _, dropRef_shared hi hle⟩

/-- The entry `p` after `clear_proc`. -/
def clear (b : Book) (p : Slot) : Book :=
  b.set p
    { state := .unused, pid := 0, tid := 0, parent := none, pgdir := (b.entry p).pgdir, idx := none }

theorem collect_entry_of_ne (b : Book) {q : Slot} (h : q ≠ p) :
    ((b.dropRef p).clear p).entry q = b.entry q := by
  obtain ⟨ref, calls, hd⟩ := dropRef_eq b p
  rw [clear, set_entry_of_ne _ _ h, hd]

/-- What `exec` does about the page directory `old`. -/
def dropOld (b : Book) (c : Slot) (old : Option PgdirId) : Book :=
  match (b.entry c).idx with
  | none => b.freevm c old
  | some i =>
    if b.pgdirRef i ≤ 1 then
      { b with pgdirRef := update b.pgdirRef i 0 }.freevm c old
    else b

theorem dropOld_none (hi : (b.entry c).idx = none) : b.dropOld c old = b.freevm c old := by
  rw [dropOld, hi]

theorem dropOld_last (hi : (b.entry c).idx = some i) (hle : b.pgdirRef i ≤ 1) :
    b.dropOld c old = { b with pgdirRef := update b.pgdirRef i 0 }.freevm c old := by
  simp only [dropOld, hi, if_pos hle]

theorem dropOld_shared (hi : (b.entry c).idx = some i) (hgt : ¬ b.pgdirRef i ≤ 1) :
    b.dropOld c old = b := by
  simp only [dropOld, hi, if_neg hgt]

/-- Dealing with the old page directory changes counters and calls only. -/
theorem dropOld_eq (b : Book) (c : Slot) (old : Option PgdirId) :
    ∃ ref calls, b.dropOld c old = { b with pgdirRef := ref, freevmCalls := calls } := by
  cases hi : (b.entry c).idx with
  | none =>
    obtain ⟨calls, hc⟩ := freevm_eq b c old
    exact ⟨_, calls, (dropOld_none hi).trans hc⟩
  | some i =>
    by_cases hle : b.pgdirRef i ≤ 1
    · obtain ⟨calls, hc⟩ :=
        freevm_eq { b with pgdirRef := update b.pgdirRef i 0 } c old
      exact ⟨_, calls, (dropOld_last hi hle).trans hc⟩
    · exact ⟨_, _, dropOld_shared hi hle⟩

/-- `allocate_new_pgdir_idx(p)` that finds the counter `i`. -/
def giveIdx (b : Book) (p : Slot) (i : Fin NPROC) : Book :=
  { b.set p { b.entry p with idx := some i } with pgdirRef := update b.pgdirRef i 1 }

/-! ## What the system calls do to the book -/

/-- `allocproc()` that finds the entry `np`. -/
def embryo (b : Book) (np : Slot) : Book :=
  { b.set np { b.entry np with state := .embryo, pid := b.nextpid, tid := 0, idx := none } with
    nextpid := b.nextpid + 1 }

/-- The entry `np` was taken from the free ones and given back. -/
def retract (b : Book) (np : Slot) (g : Option PgdirId) : Book :=
  { b.set np { b.entry np with pid := b.nextpid, tid := 0, pgdir := g, idx := none } with
    nextpid := b.nextpid + 1 }

/-- `fork` by `c` into the entry `np`, with counter `i`. -/
def spawn (b : Book) (c np : Slot) (i : Fin NPROC) : Book :=
  { b.set np
      { state := .runnable
        pid := b.nextpid
        tid := 0
        parent := some c
        pgdir := some b.nextPgdir
        idx := some i } with
    nextpid := b.nextpid + 1
    pgdirRef := update b.pgdirRef i 1
    nextPgdir := b.nextPgdir + 1 }

/-- `thread_create` by `c` into the entry `np`, which shares the counter `i`. -/
def share (b : Book) (c np : Slot) (i : Fin NPROC) (st : ProcState) (tid : Int) : Book :=
  { b.set np
      { state := st
        pid := (b.entry c).pid
        tid := tid
        parent := some c
        pgdir := (b.entry c).pgdir
        idx := some i } with
    nextpid := b.nextpid + 1
    pgdirRef := update b.pgdirRef i (b.pgdirRef i + 1) }

/-- `c` has a new page directory, the old one is not dealt with yet. -/
def newImage (b : Book) (c : Slot) : Book :=
  { b.set c { b.entry c with pgdir := some b.nextPgdir } with nextPgdir := b.nextPgdir + 1 }

end Book

namespace Kernel

/-- The bookkeeping part of a kernel state. -/
def book (s : Kernel) : Book where
  entry p := (s.proc p).entry
  initproc := s.initproc
  nextpid := s.nextpid
  pgdirRef := s.pgdirRef
  nextPgdir := s.nextPgdir
  freevmCalls := s.freevmCalls

@[simp] theorem book_entry (s : Kernel) (p : Slot) : s.book.entry p = (s.proc p).entry := rfl

@[simp] theorem book_initproc (s : Kernel) : s.book.initproc = s.initproc := rfl

@[simp] theorem book_nextpid (s : Kernel) : s.book.nextpid = s.nextpid := rfl

@[simp] theorem book_pgdirRef (s : Kernel) : s.book.pgdirRef = s.pgdirRef := rfl

@[simp] theorem book_nextPgdir (s : Kernel) : s.book.nextPgdir = s.nextPgdir := rfl

theorem settled_eq_unused {st : ProcState} : st.settled = .unused ↔ st = .unused := by
  cases st <;> simp [ProcState.settled]

theorem live_book (s : Kernel) (p : Slot) : s.book.Live p ↔ s.Live p :=
  not_congr settled_eq_unused

theorem otherUsers_book (s : Kernel) (p : Slot) (g : PgdirId) :
    s.book.otherUsers p g = s.otherUsers p g := by
  unfold Book.otherUsers otherUsers
  congr 1
  funext q
  simp only [live_book, book_entry, Proc.entry]

theorem upd_book (s : Kernel) (p : Slot) (f : Proc → Proc) :
    (s.upd p f).book = s.book.set p (f (s.proc p)).entry := by
  simp only [book, Book.set, Book.mk.injEq, and_true, upd]
  funext q
  by_cases hq : q = p
  · subst hq
    simp [proc]
  · simp [proc, hq, PTable.setProc_proc_of_ne]

theorem upd_state_book (s : Kernel) (p : Slot) (st : ProcState) :
    (s.upd p fun x => { x with state := st }).book =
      s.book.set p { s.book.entry p with state := st.settled } :=
  upd_book s p _

theorem upd_book_eq (s : Kernel) (p : Slot) {f : Proc → Proc}
    (hf : (f (s.proc p)).entry = (s.proc p).entry) : (s.upd p f).book = s.book := by
  rw [upd_book, hf]
  exact congrArg (fun e => { s.book with entry := e }) (update_eq_self p s.book.entry)

/-! ## Helpers -/

theorem Minor.book (h : Minor p s s') : s'.book = s.book := by
  obtain ⟨pr, qu, n, v, ft, ic, pp, fr, j, rfl, hq⟩ := h
  simp only [Kernel.book, Book.mk.injEq, and_true]
  funext q
  obtain ⟨st, of, wd, tr, h, hw, -⟩ := hq q
  simp only [proc] at h hw ⊢
  rw [h]
  simp only [Proc.entry, hw.settled]

theorem FilesOnly.book (h : FilesOnly p s s') : s'.book = s.book :=
  h.minor.book

theorem reparent_book (s : Kernel) (p : Slot) :
    (s.reparent p).book =
      { s.book with
        entry := fun q =>
          { s.book.entry q with parent := heir s.initproc p (s.book.entry q).parent } } := by
  simp only [Kernel.book, reparent, reparentIn, Book.mk.injEq, and_true]
  funext q
  simp [proc, Proc.entry, mem_slots]

theorem Died.book (h : Died p s s') : s'.book = s.book.die p := by
  obtain ⟨s1, hm, rfl⟩ := h
  rw [upd_state_book, hm.book, reparent_book]
  simp only [Book.set, Book.die, Book.mk.injEq, and_true]
  funext q
  by_cases hq : q = p
  · subst hq
    simp [ProcState.settled]
  · simp [hq]

theorem sleepOn_book (s : Kernel) (c : Slot) (chan : Chan) (h : (s.proc c).state = .running) :
    (s.sleepOn c chan).book = s.book :=
  upd_book_eq s c (by simp [Proc.entry, h, ProcState.settled])

theorem freePgdir?_book {g : Option PgdirId}
    (h : s.freePgdir? p g = .ok s') : g.isSome ∧ s'.book = s.book.freevm p g := by
  cases g with
  | none => contradiction
  | some g =>
    obtain ⟨free, _, h⟩ := bind_eq_ok.mp h
    cases h
    refine ⟨rfl, ?_⟩
    simp only [Book.freevm, otherUsers_book]
    rfl

theorem checkPgdirCounter_book (h : s.checkPgdirCounterAndCallFreevm p = .ok s') :
    s'.book = s.book.dropRef p := by
  unfold checkPgdirCounterAndCallFreevm at h
  split at h
  · next hi =>
    rw [Book.dropRef_none (b := s.book) hi]
    exact (freePgdir?_book h).2
  · next i hi =>
    split at h
    · next hle =>
      obtain ⟨_, _, h⟩ := bind_eq_ok.mp h
      have hb := (freePgdir?_book h).2
      rw [Book.dropRef_last (b := s.book) hi hle, hb]
      rfl
    · next hgt =>
      obtain ⟨_, _, h⟩ := bind_eq_ok.mp h
      cases h
      rw [Book.dropRef_shared (b := s.book) hi hgt]
      rfl

theorem execDropOld_book (h : s.execDropOld c old = .ok s') : s'.book = s.book.dropOld c old := by
  unfold execDropOld at h
  split at h
  · next hi =>
    rw [Book.dropOld_none (b := s.book) hi]
    exact (freePgdir?_book h).2
  · next i hi =>
    split at h
    · next hle =>
      obtain ⟨_, _, h⟩ := bind_eq_ok.mp h
      have hb := (freePgdir?_book h).2
      rw [Book.dropOld_last (b := s.book) hi hle, hb]
      rfl
    · next hgt =>
      cases h
      rw [Book.dropOld_shared (b := s.book) hi hgt]

theorem clearProc_book {pid : Int} (h : s.clearProc p = .ok (s', pid)) :
    s'.book = (s.book.dropRef p).clear p := by
  obtain ⟨s1, h1, h⟩ := bind_eq_ok.mp h
  obtain ⟨s2, h2, h⟩ := bind_eq_ok.mp h
  cases h
  have hb1 : s1.book = s.book := by
    obtain ⟨f, -, rfl⟩ := kfreeKstack_eq h1
    exact upd_book_eq _ p rfl
  rw [← hb1, ← checkPgdirCounter_book h2, upd_book]
  rfl

theorem removeThreadStack_book (h : s.removeThreadStack p = .ok s') : s'.book = s.book := by
  obtain ⟨m, pgdirs, free, size, -, rfl⟩ := removeThreadStack_eq h
  exact upd_book_eq _ m rfl

theorem findZeroRef_some {n : Nat} {j : Fin NPROC}
    (h : s.findZeroRef n i = some j) : s.pgdirRef j = 0 := by
  induction n generalizing i with
  | zero => contradiction
  | succ n ih =>
    unfold findZeroRef at h
    split at h
    · next hz =>
      cases h
      exact hz
    · exact ih h

theorem allocateNewPgdirIdx_book (h : s.allocateNewPgdirIdx p = .ok s') :
    ∃ i, s.pgdirRef i = 0 ∧ s'.book = s.book.giveIdx p i := by
  obtain ⟨i, hi, rfl⟩ := allocateNewPgdirIdx_eq h
  exact ⟨i, findZeroRef_some hi, upd_book _ p _⟩

end Kernel
end Xv6
