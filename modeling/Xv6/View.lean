import Xv6.Effects
import Xv6.System

/-!
# Xv6.View

What a part of a process table entry is after a call, for any part that does
not read the fields the call changes.  A part is a function `f` of the entry.
-/

namespace Xv6

open Function
namespace Kernel

variable {r : Int} {g : Proc → Proc} {c : Slot}

variable {α : Type} {f : Proc → α} {s s' : Kernel} {p : Slot}

theorem upd_view (s : Kernel) (p : Slot) (g : Proc → Proc) :
    (fun q => f ((s.upd p g).proc q)) =
      update (fun q => f (s.proc q)) p (f (g (s.proc p))) := by
  funext q
  by_cases hq : q = p
  · subst hq
    simp
  · simp [upd_proc_of_ne s g hq, hq]

theorem upd_view_eq (s : Kernel) (p : Slot) (hg : f (g (s.proc p)) = f (s.proc p)) (q : Slot) :
    f ((s.upd p g).proc q) = f (s.proc q) := by
  by_cases hq : q = p
  · subst hq
    simpa using hg
  · rw [upd_proc_of_ne s g hq]

/-- A part without state, files and return value. -/
theorem Minor.view (h : Minor p s s')
    (hf : ∀ x st of wd tr,
      f { x with state := st, ofile := of, cwd := wd, threadReturn := tr } = f x) (q : Slot) :
    f (s'.proc q) = f (s.proc q) := by
  obtain ⟨pr, qu, n, v, ft, ic, pp, fr, j, rfl, hall⟩ := h
  obtain ⟨st, of, wd, tr, he, -, -⟩ := hall q
  simp only [proc] at he ⊢
  rw [he]
  exact hf _ _ _ _ _

/-- A part without the fields of the stride scheduler. -/
theorem SharesOnly.view (h : SharesOnly s s')
    (hf : ∀ x a b c d,
      f { x with cpuShare := a, originalCpuShare := b, stride := c, strideCount := d } = f x)
    (q : Slot) : f (s'.proc q) = f (s.proc q) := by
  obtain ⟨t, rfl, hall⟩ := h
  obtain ⟨a, b, c, d, he⟩ := hall q
  simp only [proc] at he ⊢
  rw [he]
  exact hf _ _ _ _ _

/-- A part without parent, state, files and return value. -/
theorem Died.view (h : Died p s s')
    (hf : ∀ x par st of wd tr,
      f { x with parent := par, state := st, ofile := of, cwd := wd, threadReturn := tr } = f x)
    (q : Slot) : f (s'.proc q) = f (s.proc q) := by
  obtain ⟨s1, hm, rfl⟩ := h
  have hzombie : f ((s1.upd p fun x => { x with state := .zombie }).proc q) = f (s1.proc q) :=
    upd_view_eq s1 p (hf (s1.proc p) _ _ _ _ _) q
  have hminor : f (s1.proc q) = f ((s.reparent p).proc q) :=
    hm.view (fun x _ _ _ _ => hf x x.parent _ _ _ _) q
  have hparent : f ((s.reparent p).proc q) = f (s.proc q) := hf (s.proc q) _ _ _ _ _
  exact hzombie.trans (hminor.trans hparent)

/-! ## A part of all entries, with the rest of the table -/

/-- The counters for new processes and threads, the first process, and the
values of uninitialised locals. -/
def globals (s : Kernel) : Slot × Int × Int × (Nat → Bool) :=
  (s.initproc, s.nextpid, s.nextThreadId, s.junk)

/-- `s'` has the same part `f` of every entry as `s`, and the same queue and
counters around the entries. -/
structure SamePart (f : Proc → α) (s s' : Kernel) : Prop where
  entry : ∀ q, f (s'.proc q) = f (s.proc q)
  rest : s'.ptable = { s.ptable with proc := s'.ptable.proc }
  globals : s'.globals = s.globals

theorem SamePart.junk (h : SamePart f s s') : s'.junk = s.junk :=
  congrArg (fun g => g.2.2.2) h.globals

theorem SamePart.refl (f : Proc → α) (s : Kernel) : SamePart f s s := ⟨fun _ => rfl, rfl, rfl⟩

theorem SamePart.trans {s1 : Kernel} (h1 : SamePart f s s1) (h2 : SamePart f s1 s') :
    SamePart f s s' where
  entry q := (h2.entry q).trans (h1.entry q)
  rest := by rw [h2.rest, h1.rest]
  globals := h2.globals.trans h1.globals

theorem SamePart.of_ptable (h : s'.ptable = s.ptable) (hg : s'.globals = s.globals) :
    SamePart f s s' where
  entry q := congrArg (fun t => f (t.proc q)) h
  rest := by rw [h]
  globals := hg

theorem samePart_upd (s : Kernel) (p : Slot) (hg : f (g (s.proc p)) = f (s.proc p)) :
    SamePart f s (s.upd p g) where
  entry := upd_view_eq s p hg
  rest := rfl
  globals := rfl

theorem FilesOnly.samePart (h : FilesOnly p s s')
    (hf : ∀ x st of wd, Woken x.state st → f { x with state := st, ofile := of, cwd := wd } = f x) :
    SamePart f s s' := by
  obtain ⟨pr, ft, ic, pp, fr, rfl, hall⟩ := h
  refine ⟨fun q => ?_, rfl, rfl⟩
  obtain ⟨st, of, wd, he, hw, -⟩ := hall q
  simp only [proc] at he hw ⊢
  rw [he]
  exact hf _ _ _ _ hw

/-- `f` does not read the size, the page directory, its counter and the number
of threads. -/
def IgnoresMemory (f : Proc → α) : Prop :=
  ∀ x sz pgdir idx num,
    f { x with sz := sz, pgdir := pgdir, pgdirRefIdx := idx, numOfThreads := num } = f x

theorem SamePart.memory {s1 : Kernel} (h : SamePart f s s1) (hf : IgnoresMemory f)
    (hg : ∀ x, ∃ sz pgdir idx num, g x =
      { x with sz := sz, pgdir := pgdir, pgdirRefIdx := idx, numOfThreads := num }) :
    SamePart f s (s1.upd p g) := by
  refine h.trans (samePart_upd s1 p ?_)
  obtain ⟨sz, pgdir, idx, num, h⟩ := hg (s1.proc p)
  rw [h]
  exact hf _ _ _ _ _

section

variable (hf : IgnoresMemory f)
include hf

theorem allocateNewPgdirIdx_samePart (h : s.allocateNewPgdirIdx p = .ok s') : SamePart f s s' := by
  obtain ⟨i, -, rfl⟩ := allocateNewPgdirIdx_eq h
  exact .memory (.of_ptable rfl rfl) hf fun _ => ⟨_, _, _, _, rfl⟩

theorem exec_samePart {file : ExecFile} (h : s.exec c file = .ok (s', r)) : SamePart f s s' := by
  rcases exec_eq h with ⟨free, rfl⟩ | ⟨_, _, _, _, _, _, _, _, _, rfl⟩
  · exact .of_ptable rfl rfl
  · exact .memory (.of_ptable rfl rfl) hf fun _ => ⟨_, _, _, _, rfl⟩

theorem growproc_samePart {n : Int} (h : s.growproc c n = .ok (s', r)) : SamePart f s s' := by
  obtain ⟨pgdirs, free, size, rfl⟩ := growproc_eq h
  exact .memory (.of_ptable rfl rfl) hf fun _ => ⟨_, _, _, _, rfl⟩

theorem removeThreadStack_samePart (h : s.removeThreadStack p = .ok s') : SamePart f s s' := by
  obtain ⟨m, pgdirs, free, size, -, rfl⟩ := removeThreadStack_eq h
  have hu := (SamePart.refl f s).memory hf (p := m) (g := fun x =>
    { x with sz := size x.sz, numOfThreads := x.numOfThreads - 1 }) fun _ => ⟨_, _, _, _, rfl⟩
  exact hu.trans (.of_ptable rfl rfl)

theorem threadStack_samePart {np : Slot} {ok : Bool}
    (h : s.threadStack c np = .ok (s', ok)) : SamePart f s s' := by
  obtain ⟨-, pgdirs, free, sz, size, rfl⟩ := threadStack_eq h
  refine .memory ?_ hf fun _ => ⟨_, _, _, _, rfl⟩
  exact .memory (.of_ptable rfl rfl) hf fun _ => ⟨_, _, _, _, rfl⟩

theorem countThread_samePart (h : s.countThread c = .ok s') : SamePart f s s' := by
  obtain ⟨m, -, rfl⟩ := countThread_eq h
  exact .memory (.refl f s) hf fun _ => ⟨_, _, _, _, rfl⟩

end

/-! ## New entries -/

/-- `f` does not tell a sleeper from a process that has been woken, and reads
neither files nor memory. -/
structure Coarse (f : Proc → α) : Prop where
  files : ∀ x st of wd, Woken x.state st → f { x with state := st, ofile := of, cwd := wd } = f x
  memory : IgnoresMemory f

/-- `Q` holds of a new entry, whatever is written into it before it runs. -/
structure Blank (f : Proc → α) (Q : α → Prop) : Prop where
  embryo : ∀ x pid, Q (f (Proc.embryo x pid))
  state : ∀ x st, st ≠ .running → Q (f x) → Q (f { x with state := st })
  filled : ∀ x pid tid parent kstack pgdir sz idx wd, Q (f x) → Q (f
    { x with
      pid := pid
      tid := tid
      parent := parent
      kstack := kstack
      pgdir := pgdir
      sz := sz
      pgdirRefIdx := idx
      cwd := wd })

/-- Of the part `f` of the entries only that of `p` has changed, and `Q` holds
of it. -/
structure NewAt (f : Proc → α) (Q : α → Prop) (s : Kernel) (p : Slot) (s' : Kernel) : Prop where
  new : Q (f (s'.proc p))
  other : ∀ q, q ≠ p → f (s'.proc q) = f (s.proc q)
  rest : s'.ptable = { s.ptable with proc := s'.ptable.proc }
  junk : s'.junk = s.junk

variable {Q : α → Prop} {s1 : Kernel} {np : Slot}

theorem NewAt.then_same (h : NewAt f Q s p s1) (h' : SamePart f s1 s') : NewAt f Q s p s' where
  new := (h'.entry p).symm ▸ h.new
  other q hq := (h'.entry q).trans (h.other q hq)
  rest := by rw [h'.rest, h.rest]
  junk := h'.junk.trans h.junk

/-- The counters for new processes and threads do not matter. -/
theorem NewAt.of_ptable (h : NewAt f Q s p s1) (ht : s'.ptable = s1.ptable)
    (hj : s'.junk = s1.junk) : NewAt f Q s p s' := by
  have hproc : s'.proc = s1.proc := congrArg PTable.proc ht
  exact ⟨hproc ▸ h.new, hproc ▸ h.other, ht ▸ h.rest, hj.trans h.junk⟩

theorem NewAt.upd (h : NewAt f Q s p s1) (g : Proc → Proc)
    (hg : Q (f (s1.proc p)) → Q (f (g (s1.proc p)))) : NewAt f Q s p (s1.upd p g) where
  new := by
    rw [upd_proc_same]
    exact hg h.new
  other q hq := by rw [upd_proc_of_ne s1 g hq, h.other q hq]
  rest := by
    show s1.ptable.setProc p g = _
    rw [h.rest]
    rfl
  junk := h.junk

theorem newAt_upd (ht : s1.ptable = s.ptable) (hj : s1.junk = s.junk) (hg : Q (f (g (s1.proc p)))) :
    NewAt f Q s p (s1.upd p g) where
  new := by
    rw [upd_proc_same]
    exact hg
  other q hq := by
    rw [upd_proc_of_ne s1 g hq]
    exact congrArg (fun t => f (t.proc q)) ht
  rest := by
    rw [← ht]
    rfl
  junk := hj

theorem newAt_allocproc (hQ : Blank f Q) (h : s.allocproc = (s', some np)) :
    s.freeSlot = some np ∧ NewAt f Q s np s' := by
  obtain ⟨-, hfree, stack, free, -, rfl⟩ := allocproc_some h
  exact ⟨hfree, newAt_upd rfl rfl (hQ.filled _ _ _ _ _ _ _ _ _ (hQ.embryo _ _))⟩

theorem newAt_allocproc_none (hQ : Blank f Q) (h : s.allocproc = (s', none)) :
    s.freeSlot = none ∧ s' = s ∨ ∃ np, s.freeSlot = some np ∧ NewAt f Q s np s' := by
  rcases allocproc_none h with hsame | ⟨-, np, -, hfree, rfl⟩
  · exact .inl hsame
  · refine .inr ⟨np, hfree, newAt_upd rfl rfl ?_⟩
    exact hQ.state _ .unused (by decide)
      (hQ.filled _ _ _ _ none _ _ _ _ (hQ.embryo (s.proc np) s.nextpid))

theorem NewAt.forkFailed (hQ : Blank f Q) (h : NewAt f Q s np s1)
    (hf : s1.forkFailed np = .ok s') : NewAt f Q s np s' := by
  obtain ⟨free, rfl⟩ := forkFailed_eq hf
  apply NewAt.upd
  · exact h.of_ptable rfl rfl
  · exact fun hx => hQ.state _ .unused (by decide) (hQ.filled _ _ _ _ none none _ _ _ hx)

theorem NewAt.forkChild {d : PgDir} (hc : Coarse f) (hQ : Blank f Q)
    (h : NewAt f Q s np s1) (hf : s1.forkChild c np d = .ok s') : NewAt f Q s np s' := by
  obtain ⟨s2, h2, hf⟩ := Lib.bind_eq_ok.mp hf
  obtain ⟨s3, h3, hf⟩ := Lib.bind_eq_ok.mp hf
  cases hf
  have hnew : NewAt f Q s np (s1.newPgdir d) := h.of_ptable rfl rfl
  have hentry := hnew.upd (fun x =>
    { x with
      pgdir := some s1.nextPgdir
      sz := ((s1.newPgdir d).proc c).sz
      parent := some c }) (hQ.filled _ _ _ _ _ _ _ _ _)
  have hidx := hentry.then_same (allocateNewPgdirIdx_samePart hc.memory h2)
  have hfiles := hidx.then_same ((filesOnly_dupAll c np h3).samePart hc.files)
  exact hfiles.upd _ (hQ.state _ .runnable (by decide))

theorem fork_paths (h : s.fork c = .ok (s', r)) :
    (s.proc c).tid ≠ 0 ∧ s' = s ∨ (s.proc c).tid = 0 ∧ (s.allocproc = (s', none) ∨
      ∃ s1 np g o free, s.allocproc = (s1, some np) ∧ (s1.proc c).pgdir = some g ∧
        copyuvm (s1.pgdirs g) (s1.proc c).sz s1.freelist = .ok (o, free) ∧
        match o with
        | none => { s1 with freelist := free }.forkFailed np = .ok s'
        | some d => { s1 with freelist := free }.forkChild c np d = .ok s') := by
  unfold fork at h
  split at h
  · next ht =>
    cases h
    exact .inl ⟨ht, rfl⟩
  · next ht =>
    refine .inr ⟨not_not.mp ht, ?_⟩
    split at h
    · next s1 hs1 =>
      cases h
      exact .inl hs1
    · next s1 np hs1 =>
      split at h
      · contradiction
      next g hg =>
      obtain ⟨⟨o, free⟩, hcopy, h⟩ := Lib.bind_eq_ok.mp h
      refine .inr ⟨s1, np, g, o, free, hs1, hg, hcopy, ?_⟩
      cases o with
      | none =>
        obtain ⟨s2, h2, h⟩ := Lib.bind_eq_ok.mp h
        cases h
        exact h2
      | some d =>
        obtain ⟨s2, h2, h⟩ := Lib.bind_eq_ok.mp h
        cases h
        exact h2

/-- `fork` leaves the table alone, or takes the first free entry. -/
theorem fork_newAt (hc : Coarse f) (hQ : Blank f Q) (h : s.fork c = .ok (s', r)) :
    ((s.proc c).tid ≠ 0 ∨ s.freeSlot = none) ∧ s' = s ∨
      (s.proc c).tid = 0 ∧ ∃ np, s.freeSlot = some np ∧ NewAt f Q s np s' := by
  rcases fork_paths h with ⟨ht, rfl⟩ | ⟨ht, hnone | ⟨s1, np, g, o, free, hs1, -, -, h⟩⟩
  · exact .inl ⟨.inl ht, rfl⟩
  · rcases newAt_allocproc_none hQ hnone with ⟨hnone, rfl⟩ | hnew
    · exact .inl ⟨.inr hnone, rfl⟩
    · exact .inr ⟨ht, hnew⟩
  · obtain ⟨hfree, hnp⟩ := newAt_allocproc hQ hs1
    have hcopied : NewAt f Q s np { s1 with freelist := free } := hnp.of_ptable rfl rfl
    refine .inr ⟨ht, np, hfree, ?_⟩
    cases o with
    | none => exact hcopied.forkFailed hQ h
    | some d => exact hcopied.forkChild hc hQ h

theorem NewAt.threadEntry (hQ : Blank f Q) (h : NewAt f Q s np s1) :
    NewAt f Q s np (s1.threadEntry c np) := by
  rw [threadEntry_eq]
  apply NewAt.upd
  · exact h.of_ptable rfl rfl
  · exact hQ.filled _ _ _ _ _ _ _ _ _

/-- The steps of `thread_create` by `c` into the entry `np`, from the entry
that `allocproc` returned to the stack of the thread. -/
structure ThreadMade (s : Kernel) (c np : Slot) (ok : Bool) (s' : Kernel) : Prop where
  made : ∃ s1 i s2, s.allocproc = (s1, some np) ∧
    { s1.threadEntry c np with
      pgdirRef := update (s1.threadEntry c np).pgdirRef i
        ((s1.threadEntry c np).pgdirRef i + 1) }.dupAll c np = .ok s2 ∧
    s2.threadStack c np = .ok (s', ok)

/-- The ways through `thread_create`, with the counter `i` it counts up. -/
theorem threadCreate_stages (h : s.threadCreate c = .ok (s', r)) :
    s.allocproc = (s', none) ∨ ∃ s1 np i s2 s3 ok, s.allocproc = (s1, some np) ∧
      ((s1.threadEntry c np).proc np).pgdirRefIdx = some i ∧
      { s1.threadEntry c np with
        pgdirRef := update (s1.threadEntry c np).pgdirRef i
          ((s1.threadEntry c np).pgdirRef i + 1) }.dupAll c np = .ok s2 ∧
      s2.threadStack c np = .ok (s3, ok) ∧
      match ok with
      | false => s' = s3
      | true => r = 0 ∧ ∃ s4, s3.countThread c = .ok s4 ∧
          (s4.upd np fun x => { x with state := .runnable }).shareWithThread c np = .ok s' := by
  unfold threadCreate at h
  split at h
  · next s1 hs1 =>
    cases h
    exact .inl hs1
  · next s1 np hs1 =>
    obtain ⟨-, -, h⟩ := Lib.bind_eq_ok.mp h
    split at h
    · contradiction
    next i hi =>
    obtain ⟨s2, h2, h⟩ := Lib.bind_eq_ok.mp h
    obtain ⟨⟨s3, ok⟩, h3, h⟩ := Lib.bind_eq_ok.mp h
    refine .inr ⟨s1, np, i, s2, s3, ok, hs1, hi, h2, h3, ?_⟩
    cases ok with
    | false =>
      cases h
      rfl
    | true =>
      obtain ⟨s4, h4, h⟩ := Lib.bind_eq_ok.mp h
      obtain ⟨s5, h5, h⟩ := Lib.bind_eq_ok.mp h
      cases h
      exact ⟨rfl, s4, h4, h5⟩

theorem threadCreate_paths (h : s.threadCreate c = .ok (s', r)) :
    s.allocproc = (s', none) ∨
      (∃ np, ThreadMade s c np false s') ∨
      ∃ np s3 s4, ThreadMade s c np true s3 ∧ s3.countThread c = .ok s4 ∧
        (s4.upd np fun x => { x with state := .runnable }).shareWithThread c np = .ok s' := by
  rcases threadCreate_stages h with hnone | ⟨s1, np, i, s2, s3, ok, h1, -, h2, h3, h⟩
  · exact .inl hnone
  have hmade : ThreadMade s c np ok s3 := ⟨s1, i, s2, h1, h2, h3⟩
  cases ok with
  | false =>
    cases h
    exact .inr (.inl ⟨np, hmade⟩)
  | true =>
    obtain ⟨-, s4, h4, h5⟩ := h
    exact .inr (.inr ⟨np, s3, s4, hmade, h4, h5⟩)

theorem ThreadMade.newAt {ok : Bool} (hc : Coarse f) (hQ : Blank f Q)
    (h : ThreadMade s c np ok s') : s.freeSlot = some np ∧ NewAt f Q s np s' := by
  obtain ⟨s1, i, s2, h1, h2, h3⟩ := h.made
  obtain ⟨hfree, hnp⟩ := newAt_allocproc hQ h1
  have hentry : NewAt f Q s np { s1.threadEntry c np with
      pgdirRef := update (s1.threadEntry c np).pgdirRef i
        ((s1.threadEntry c np).pgdirRef i + 1) } := (hnp.threadEntry hQ).of_ptable rfl rfl
  have hfiles := hentry.then_same ((filesOnly_dupAll c np h2).samePart hc.files)
  exact ⟨hfree, hfiles.then_same (threadStack_samePart hc.memory h3)⟩

/-- `thread_create` leaves the table alone or takes the first free entry, and
at its end divides the share of the caller. -/
theorem threadCreate_newAt (hc : Coarse f) (hQ : Blank f Q) (h : s.threadCreate c = .ok (s', r)) :
    s.freeSlot = none ∧ s' = s ∨ ∃ np, s.freeSlot = some np ∧
      (NewAt f Q s np s' ∨ ∃ s1, NewAt f Q s np s1 ∧ s1.shareWithThread c np = .ok s') := by
  rcases threadCreate_paths h with hnone | ⟨np, hmade⟩ | ⟨np, s3, s4, hmade, hcount, hshare⟩
  · rcases newAt_allocproc_none hQ hnone with hsame | ⟨np, hfree, hnew⟩
    · exact .inl hsame
    · exact .inr ⟨np, hfree, .inl hnew⟩
  · obtain ⟨hfree, hnew⟩ := hmade.newAt hc hQ
    exact .inr ⟨np, hfree, .inl hnew⟩
  · obtain ⟨hfree, hnew⟩ := hmade.newAt hc hQ
    have hcounted := hnew.then_same (countThread_samePart hc.memory hcount)
    have hrunnable := hcounted.upd (fun x => { x with state := .runnable })
      (hQ.state _ .runnable (by decide))
    exact .inr ⟨np, hfree, .inr ⟨_, hrunnable, hshare⟩⟩

theorem newAt_userinit (hQ : Blank f Q) (h : s.userinit = .ok s') : NewAt f Q s s'.initproc s' := by
  obtain ⟨s1, p, d, free, hs1, rfl⟩ := userinit_eq h
  apply NewAt.upd
  · exact (newAt_allocproc hQ hs1).2.of_ptable rfl rfl
  · exact fun hx => hQ.state _ .runnable (by decide) (hQ.filled _ _ _ _ _ _ PGSIZE _ (some 0) hx)

theorem started_newAt (hc : Coarse f) (hQ : Blank f Q)
    (hrun : ∀ x, Q (f x) → Q (f { x with state := .running })) (h : Started s) :
    ∃ free junk p, NewAt f Q { atBoot free with junk := junk } p s := by
  obtain ⟨free, junk, file, h⟩ := h
  obtain ⟨s1, h1, h2⟩ := start_eq_ok h
  have hinit := (newAt_userinit hQ h1).upd (fun x => { x with state := .running }) (hrun _)
  exact ⟨free, junk, _, hinit.then_same (exec_samePart hc.memory h2)⟩

end Kernel
end Xv6
