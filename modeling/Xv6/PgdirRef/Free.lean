import Xv6.PgdirRef

/-!
# Xv6.PgdirRef.Free

No address space is freed under its users: whenever `freevm` is called for a
process, nobody else in the process table has that page directory.

A leak does no harm until the signed char overflows.  The other danger is `exit`,
which ends every entry with the caller's pid and a thread id, in use or not.
-/

namespace Xv6

open Lib

variable {i : Fin NPROC} {pid : Int} {s s' : Kernel} {c m np p : Slot}

namespace Book

/-! ## The invariant -/

/-- Counters cover their users, and no page directory was freed that another
process still had. -/
structure Covered (b : Book) : Prop where
  counted : ∃ leak, Counted b leak
  calls : ∀ call ∈ b.freevmCalls, call.others = []

variable {leak : Fin NPROC → Nat}

/-- Counting down frees a page directory only for its last user. -/
theorem Counted.calls_dropRef {b : Book} (h : Counted b leak) (hp : b.Live p)
    (hcalls : ∀ call ∈ b.freevmCalls, call.others = []) :
    ∀ call ∈ (b.dropRef p).freevmCalls, call.others = [] := by
  obtain ⟨i, hi⟩ := h.idx_some p hp
  obtain ⟨g, hg, -⟩ := h.pgdir_lt p hp
  by_cases hle : b.pgdirRef i ≤ 1
  · rw [dropRef_last hi hle, hg]
    intro call hcall
    rcases List.mem_cons.mp hcall with rfl | hcall
    · exact h.otherUsers_eq_nil hp hi hle hg
    · exact hcalls call hcall
  · rw [dropRef_shared hi hle]
    exact hcalls

theorem Counted.calls_dropOld {b : Book} (h : Counted b leak) (hc : b.Live c)
    (hcalls : ∀ call ∈ b.freevmCalls, call.others = []) :
    ∀ call ∈ ((b.newImage c).dropOld c (b.entry c).pgdir).freevmCalls, call.others = [] := by
  obtain ⟨i, hi⟩ := h.idx_some c hc
  obtain ⟨g, hg, -⟩ := h.pgdir_lt c hc
  have hidx : ((b.newImage c).entry c).idx = some i := by simp [newImage, hi]
  by_cases hle : b.pgdirRef i ≤ 1
  · rw [dropOld_last hidx hle, hg]
    intro call hcall
    rcases List.mem_cons.mp hcall with rfl | hcall
    · -- the caller itself has its new page directory already
      have hnil := h.otherUsers_eq_nil hc hi hle hg
      simp only [otherUsers, List.filter_eq_nil_iff, decide_eq_true_eq] at hnil ⊢
      intro q hq hother
      have hentry : (b.newImage c).entry q = b.entry q := set_entry_of_ne b _ hother.1
      refine hnil q hq ⟨hother.1, ?_, ?_⟩
      · have hlive := hother.2.1
        simp only [Live] at hlive ⊢
        rwa [hentry] at hlive
      · rw [← hentry]
        exact hother.2.2
    · exact hcalls call hcall
  · rw [dropOld_shared hidx hle]
    exact hcalls

namespace Covered

variable {b : Book}

theorem startBook (p : Slot) (i : Fin NPROC) : (Kernel.startBook p i).Covered := by
  refine ⟨⟨_, Counted.startBook p i⟩, ?_⟩
  simp [Kernel.startBook]

section

variable (h : b.Covered)
include h

theorem retract {g : Option PgdirId} (hnp : ¬ b.Live np) : (b.retract np g).Covered := by
  obtain ⟨⟨leak, hl⟩, hcalls⟩ := h
  exact ⟨⟨leak, hl.retract hnp⟩, hcalls⟩

theorem spawn (hnp : ¬ b.Live np) (hi : b.pgdirRef i = 0) : (b.spawn c np i).Covered := by
  obtain ⟨⟨leak, hl⟩, hcalls⟩ := h
  exact ⟨⟨leak, hl.spawn hnp hi⟩, hcalls⟩

theorem share {st : ProcState} {tid : Int}
    (hc : b.Live c) (hnp : ¬ b.Live np) (hi : (b.entry c).idx = some i) (hst : st ≠ .unused)
    (hlt : (b.pgdirRef i).toInt < 127) : (b.share c np i st tid).Covered := by
  obtain ⟨⟨leak, hl⟩, hcalls⟩ := h
  exact ⟨⟨leak, hl.share hc hnp hi hst hlt⟩, hcalls⟩

theorem die (hp : b.Live p) : (b.die p).Covered := by
  obtain ⟨⟨leak, hl⟩, hcalls⟩ := h
  exact ⟨⟨leak, hl.die hp⟩, hcalls⟩

theorem collect (hp : b.Live p) : ((b.dropRef p).clear p).Covered := by
  obtain ⟨⟨leak, hl⟩, hcalls⟩ := h
  exact ⟨⟨leak, hl.collect hp⟩, hl.calls_dropRef hp hcalls⟩

/-- Giving up an entry without counting down only leaks. -/
theorem release {e : Entry} (hp : b.Live p) (he : e.state = .unused) : (b.set p e).Covered := by
  obtain ⟨⟨leak, hl⟩, hcalls⟩ := h
  obtain ⟨i, hi⟩ := hl.idx_some p hp
  exact ⟨⟨_, hl.release hp hi he⟩, hcalls⟩

theorem image (hc : b.Live c) (hi : ((b.newImage c).dropOld c (b.entry c).pgdir).pgdirRef i = 0) :
    (((b.newImage c).dropOld c (b.entry c).pgdir).giveIdx c i).Covered := by
  obtain ⟨⟨leak, hl⟩, hcalls⟩ := h
  obtain ⟨k, hk⟩ := hl.idx_some c hc
  refine ⟨?_, hl.calls_dropOld hc hcalls⟩
  by_cases hle : b.pgdirRef k ≤ 1
  · exact ⟨leak, hl.image hc (hl.dropOld_count_last hc hk hle) hi⟩
  · exact ⟨_, hl.image hc (hl.dropOld_count_shared hc hk hle) hi⟩

end

end Covered
end Book

namespace Kernel

/-! ## Runs -/

/-- `thread_create` does not overflow the caller's counter.  When `exit` is
called, no free entry looks like a thread of the caller, and the parent of a
calling thread is a process in the table. -/
def KeepsCover (s : Kernel) : Event → Prop
  | .call c .threadCreate => ∀ i, (s.proc c).pgdirRefIdx = some i → s.pgdirRef i ≠ 127
  | .call c .exit =>
    (∀ p, (s.proc p).state = .unused → (s.proc p).pid = (s.proc c).pid → (s.proc p).tid = 0) ∧
    ((s.proc c).tid ≠ 0 →
      ∃ m, (s.proc c).parent = some m ∧ s.Live m ∧ (s.proc m).tid = 0)
  | _ => True

/-- What holds throughout the loops of `exit`: the caller `c` and the process
`m` stay in the table, and no free entry looks like a thread of the caller. -/
structure ExitCovered (c m : Slot) (pid : Int) (s : Kernel) : Prop where
  covered : s.book.Covered
  unused_tid : ∀ p, ¬ s.book.Live p → (s.book.entry p).pid = pid → (s.book.entry p).tid = 0
  caller_live : s.book.Live c
  caller_pid : (s.book.entry c).pid = pid
  master_live : s.book.Live m
  master_tid : (s.book.entry m).tid = 0

theorem ExitCovered.die (hs : ExitCovered c m pid s)
    (hp : s.book.Live p) (hb : s'.book = s.book.die p) : ExitCovered c m pid s' := by
  have hlive := Book.live_die hp
  constructor
  all_goals rw [hb]
  · exact hs.covered.die hp
  · intro q hq
    exact hs.unused_tid q fun hl => hq ((hlive q).mpr hl)
  · exact (hlive c).mpr hs.caller_live
  · exact hs.caller_pid
  · exact (hlive m).mpr hs.master_live
  · exact hs.master_tid

theorem ExitCovered.collect (hs : ExitCovered c m pid s) (hp : s.book.Live p) (hpc : c ≠ p)
    (hpm : m ≠ p) (hb : s'.book = (s.book.dropRef p).clear p) : ExitCovered c m pid s' := by
  have hother : ∀ q, q ≠ p → s'.book.entry q = s.book.entry q := fun q hq => by
    rw [hb]
    exact Book.collect_entry_of_ne s.book hq
  refine ⟨?_, ?_, ?_, ?_, ?_, ?_⟩
  · rw [hb]
    exact hs.covered.collect hp
  · intro q hq hpid
    by_cases hqp : q = p
    · rw [hqp, hb]
      simp [Book.clear]
    · rw [Book.Live, hother q hqp] at hq
      rw [hother q hqp] at hpid ⊢
      exact hs.unused_tid q hq hpid
  · rw [Book.Live, hother c hpc]
    exact hs.caller_live
  · rw [hother c hpc]
    exact hs.caller_pid
  · rw [Book.Live, hother m hpm]
    exact hs.master_live
  · rw [hother m hpm]
    exact hs.master_tid

/-- An entry with the caller's pid and a thread id is in use. -/
theorem ExitCovered.live_thread (hs : ExitCovered c m pid s)
    (hpid : (s.proc p).pid = (s.proc c).pid)
    (htid : (s.proc p).tid ≠ 0) : s.book.Live p := by
  by_contra hp
  exact htid (hs.unused_tid p hp (hpid.trans hs.caller_pid))

theorem ExitCovered.join {s1 : Kernel} {n : Int} (hs : ExitCovered c c pid s)
    (htid : (s.proc p).tid ≠ 0) (hz : (s.proc p).state = .zombie)
    (h1 : s.removeThreadStack p = .ok s1) (h2 : s1.clearProc p = .ok (s', n)) :
    ExitCovered c c pid s' := by
  have hpc : c ≠ p := by
    rintro rfl
    exact htid hs.master_tid
  refine hs.collect (live_book_zombie hz) hpc hpc ?_
  rw [clearProc_book h2, removeThreadStack_book h1]

theorem ExitCovered.exitOtherThread (hs : ExitCovered c m pid s)
    (h : exitOtherThread c s p = .ok s') : ExitCovered c m pid s' := by
  rcases exitOtherThread_cases h with rfl | ⟨hpid, htid, hpc, s1, s2, r, h1, h2, h3⟩
  · exact hs
  have hp := hs.live_thread hpid htid
  have hpm : m ≠ p := by
    rintro rfl
    exact htid hs.master_tid
  have hb2 : s2.book = s.book.die p := by
    rw [(died_commonExit h2).book, removeThreadStack_book h1]
  have hs2 := hs.die hp hb2
  have hp2 : s2.book.Live p := by
    rw [hb2]
    exact (Book.live_die hp p).mpr hp
  exact hs2.collect hp2 hpc.symm hpm (clearProc_book h3)

theorem covered_exit (hc : (s.proc c).state = .running) (hg : s.KeepsCover (.call c .exit))
    (h : s.exit c = .ok s') (hs : s.book.Covered) : s'.book.Covered := by
  have hlive := live_book_running hc
  have hunused : ∀ p, ¬ s.book.Live p → (s.book.entry p).pid = (s.proc c).pid →
      (s.book.entry p).tid = 0 := fun p hp => hg.1 p (not_not.mp (mt (live_book s p).mpr hp))
  by_cases htid : (s.proc c).tid = 0
  · obtain ⟨-, k, hk, hend⟩ := exit_process (I := ExitCovered c c (s.proc c).pid)
      (fun hk hpid hp hd => hk.die (hk.live_thread hpid hp) (died_commonExit hd).book)
      (fun hk _ hp hz h1 h2 => hk.join hp hz h1 h2) htid h ⟨hs, hunused, hlive, rfl, hlive, htid⟩
    rw [(died_commonExit hend).book]
    exact hk.covered.die hk.caller_live
  · obtain ⟨-, ⟨⟨h0, -⟩, -⟩ | ⟨h0, -⟩ | ⟨-, m, s1, s2, s3, s4, hm, h1, h2, h3, h4, rfl⟩⟩ :=
      exit_cases h
    · contradiction
    · contradiction
    obtain ⟨m', hm', hmlive, hmtid⟩ := hg.2 htid
    have hmm : m' = m := Option.some.inj (hm'.symm.trans hm)
    subst hmm
    have hs1 : ExitCovered c m' (s.proc c).pid s1 :=
      forEach_inv (ExitCovered c m' (s.proc c).pid) (fun _ _ _ _ ha hb => ha.exitOtherThread hb) h1
        ⟨hs, hunused, hlive, rfl, (live_book s m').mpr hmlive, hmtid⟩
    have hs2 := hs1.die hs1.master_live (died_commonExit h2).book
    have hb4 : s4.book = s2.book.die c := by
      rw [(died_commonExit h4).book, removeThreadStack_book h3]
    have hs4 := hs2.die hs2.caller_live hb4
    rw [upd_state_book]
    exact hs4.covered.release hs4.caller_live rfl

/-- **Counters cover their users** in every run that meets the condition. -/
theorem covered_of_reachable (h : ReachableBy KeepsCover s) : s.book.Covered := by
  refine h.inv (fun s => s.book.Covered) ?_ ?_
  · intro s hs
    obtain ⟨p, i, hb⟩ := started_book hs
    rw [hb]
    exact .startBook p i
  · intro s e s' hs hg hn
    cases step_of_next hn with
    | quiet hb | sbrk hb =>
      rw [hb]
      exact hs
    | retract hnp hb =>
      rw [hb]
      exact hs.retract (not_live_book hnp)
    | fork hc hnp hi hb =>
      rw [hb]
      exact hs.spawn (not_live_book hnp) hi
    | exec hc hi hb =>
      rw [hb]
      exact hs.image (live_book_running hc) hi
    | @threadCreate _ c np i g d free free' top ok hc hnp hi hb =>
      rw [hb]
      refine hs.share (live_book_running hc) (not_live_book hnp) hi ?_ ?_
      · cases ok <;> decide
      · have hne : (s.pgdirRef i).toInt ≠ 127 := fun h127 =>
          hg i hi (Int8.toInt_inj.mp (h127.trans (by decide)))
        have hlt := Int8.toInt_lt (s.pgdirRef i)
        simp only [book_pgdirRef]
        omega
    | threadExit hc hinit hb =>
      rw [hb]
      exact hs.die (live_book_running hc)
    | threadJoin hz hb | wait hz hb =>
      rw [hb]
      exact hs.collect (live_book_zombie hz)
    | exit hc h => exact covered_exit hc hg h hs

/-! ## No premature free -/

/-- So far `freevm` was only called for page directories that no other entry
in use had. -/
def FreesAlone (s : Kernel) : Prop := ∀ call ∈ s.freevmCalls, call.others = []

instance (s : Kernel) : Decidable s.FreesAlone :=
  inferInstanceAs (Decidable (∀ call ∈ s.freevmCalls, call.others = []))

/-- **No address space is freed under its users** in every run that meets the
condition. -/
theorem freesAlone_of_keepsCover {s : Kernel} (h : ReachableBy KeepsCover s) : s.FreesAlone :=
  (covered_of_reachable h).calls

/-- The process in entry 1 runs another program, exits and is waited for. -/
def replaced : List Event :=
  forked ++ [.call 1 (.exec smallProgram), .yield 0, .call 1 (.threadExit 0), .dispatch 0, .call 0 .wait]

theorem freesAlone_replaced :
    ∃ s : Kernel, ReachableBy KeepsCover s ∧ s.freevmCalls.length = 3 ∧ s.FreesAlone := by
  obtain ⟨s, hr, hs⟩ := exists_reachableBy KeepsCover (P := fun s => s.freevmCalls.length = 3)
    (List.range' 1 600) (fun _ => false) smallProgram replaced
    (by simp [replaced, forked, KeepsCover]) (by decide +kernel)
  exact ⟨s, hr, hs, freesAlone_of_keepsCover hr⟩

/-- The thread in entry 2 creates one in entry 3, which calls `exit` and takes entry 2 for the
master thread: it clears that entry and then makes it a zombie.  The process exits too. -/
def orphaned : List Event :=
  threaded ++ [.call 2 .threadCreate, .dispatch 3, .call 3 .exit, .call 1 .exit, .call 0 .wait,
    .call 0 (.threadJoin 2)]

/-- The address space is freed with entry 3, and the zombie in entry 2 still has it. -/
theorem not_freesAlone_orphaned : ∃ s : Kernel, s.Reachable ∧ (s.proc 2).state = .zombie ∧
    (s.proc 2).pgdir = some 2 ∧ (∃ call ∈ s.freevmCalls, call.pgdir = 2 ∧ 2 ∈ call.others) ∧
    ¬ s.FreesAlone :=
  exists_reachableBy (fun _ _ => True) (List.range' 1 600) (fun _ => false) smallProgram orphaned
    (fun _ _ _ => trivial) (by decide +kernel)

end Kernel
end Xv6
