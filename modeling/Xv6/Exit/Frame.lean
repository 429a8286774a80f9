import Xv6.Book.Tree

/-!
# Xv6.Exit.Frame

What `exit()` does to processes outside the caller's group.

`exit` in a process or master thread only passes on children and wakes
sleepers there.  `exit` in any other thread calls `remove_thread_stack` on itself
when its parent is init already: init's thread count goes down.
-/

namespace Xv6

open Lib

namespace Kernel

variable {k k' s s' : Kernel} {c m p : Slot} {G : Slot → Prop}

/-! ## The frame -/

/-- The caller's group: the entries with its pid, init apart. -/
def Group (s : Kernel) (c q : Slot) : Prop := (s.proc q).pid = (s.proc c).pid ∧ q ≠ s.initproc

/-- The entries outside `G` are as they were, except that children of `G`
belong to init and sleepers may have been woken. -/
def Untouched (G : Slot → Prop) (s s' : Kernel) : Prop :=
  s'.initproc = s.initproc ∧ ∀ q, ¬ G q → ∃ par st,
    s'.proc q = { s.proc q with parent := par, state := st } ∧
    (par = (s.proc q).parent ∨
      (∃ m, (s.proc q).parent = some m ∧ G m) ∧ par = some s.initproc) ∧
    Woken (s.proc q).state st

/-- `exit()` by `c` left the entries outside the group of `c` alone. -/
def ExitFrame (s : Kernel) (c : Slot) (s' : Kernel) : Prop := Untouched (s.Group c) s s'

theorem Untouched.refl (G : Slot → Prop) (s : Kernel) : Untouched G s s :=
  ⟨rfl, fun _ _ => ⟨_, _, rfl, .inl rfl, .refl _⟩⟩

theorem Untouched.trans {s1 s2 : Kernel} (h1 : Untouched G s s1)
    (h2 : Untouched G s1 s2) : Untouched G s s2 := by
  refine ⟨h2.1.trans h1.1, fun q hq => ?_⟩
  obtain ⟨par1, st1, he1, hp1, hw1⟩ := h1.2 q hq
  obtain ⟨par2, st2, he2, hp2, hw2⟩ := h2.2 q hq
  rw [he1] at he2 hp2 hw2
  rw [h1.1] at hp2
  refine ⟨par2, st2, he2, ?_, hw1.trans hw2⟩
  rcases hp2 with rfl | ⟨⟨m, hm, hGm⟩, rfl⟩
  · exact hp1
  · rcases hp1 with rfl | ⟨hm₁, rfl⟩
    · exact .inr ⟨⟨m, hm, hGm⟩, rfl⟩
    · exact .inr ⟨hm₁, rfl⟩

/-! ## The helpers -/

theorem Died.proc_eq (h : Died p s s') (q : Slot) (hq : q ≠ p) :
    ∃ st, s'.proc q =
      { s.proc q with parent := heir s.initproc p (s.proc q).parent, state := st } ∧
      Woken (s.proc q).state st := by
  obtain ⟨s1, ⟨pr, qu, n, v, ft, ic, pp, fr, j, rfl, hall⟩, rfl⟩ := h
  obtain ⟨st, of, wd, tr, he, hw, hf⟩ := hall q
  obtain ⟨rfl, rfl, rfl⟩ := hf hq
  refine ⟨st, ?_, hw⟩
  simp only [proc, upd, PTable.setProc_proc_of_ne _ _ hq, he]
  simp [reparent, reparentIn, mem_slots, proc]

theorem Died.threads_eq (h : Died p s s') (q : Slot) :
    (s'.proc q).tid = (s.proc q).tid ∧ (s'.proc q).numOfThreads = (s.proc q).numOfThreads ∧
      (s'.proc q).parent = heir s.initproc p (s.proc q).parent := by
  obtain ⟨s1, ⟨pr, qu, n, v, ft, ic, pp, fr, j, rfl, hall⟩, rfl⟩ := h
  obtain ⟨st, of, wd, tr, he, -, -⟩ := hall q
  by_cases hq : q = p
  · subst hq
    simp [proc, upd, he, reparent, reparentIn, mem_slots]
  · simp [proc, upd, PTable.setProc_proc_of_ne, hq, he, reparent, reparentIn, mem_slots]

theorem Died.initproc_eq (h : Died p s s') : s'.initproc = s.initproc := by
  obtain ⟨s1, ⟨pr, qu, n, v, ft, ic, pp, fr, j, rfl, -⟩, rfl⟩ := h
  rfl

theorem Died.untouched (h : Died p s s') (hp : G p) : Untouched G s s' := by
  refine ⟨h.initproc_eq, fun q hq => ?_⟩
  have hqp : q ≠ p := by
    rintro rfl
    contradiction
  obtain ⟨st, he, hw⟩ := h.proc_eq q hqp
  refine ⟨_, st, he, ?_, hw⟩
  unfold heir
  split
  · next hm => exact .inr ⟨⟨p, hm, hp⟩, rfl⟩
  · exact .inl rfl

/-- A change to one entry of `G` is not seen outside. -/
theorem untouched_of_ne (hp : G p) (hinit : s'.initproc = s.initproc)
    (hsame : ∀ q, q ≠ p → s'.proc q = s.proc q) : Untouched G s s' := by
  refine ⟨hinit, fun q hq => ?_⟩
  have hqp : q ≠ p := by
    rintro rfl
    contradiction
  exact ⟨_, _, hsame q hqp, .inl rfl, .refl _⟩

theorem untouched_clearProc {pid : Int}
    (h : s.clearProc p = .ok (s', pid)) (hp : G p) : Untouched G s s' := by
  obtain ⟨ref, free, calls, rfl⟩ := clearProc_eq h
  exact untouched_of_ne hp rfl fun q hq => by simp [proc, upd, PTable.setProc_proc_of_ne, hq]

theorem untouched_removeThreadStack (h : s.removeThreadStack p = .ok s')
    (hm : (s.proc p).parent = some m) (hG : G m) : Untouched G s s' := by
  obtain ⟨m', pgdirs, free, size, hm', rfl⟩ := removeThreadStack_eq h
  have hmm : m' = m := Option.some.inj (hm'.symm.trans hm)
  subst hmm
  exact untouched_of_ne hG rfl fun q hq => by simp [proc, upd, PTable.setProc_proc_of_ne, hq]

/-! ## A process calls exit -/

/-- What holds throughout the loop of `exit` in the master thread `c`, with
`s` the state before it. -/
structure ExitLoop (s : Kernel) (c : Slot) (k : Kernel) : Prop where
  tree : ExitTree c s.initproc (s.proc c).pid k
  untouched : Untouched (s.Group c) s k
  pid_eq : ∀ q, (k.proc q).pid = (s.proc q).pid ∨ (k.proc q).pid = 0

/-- Entries with the caller's pid have always had it. -/
theorem ExitLoop.group {q : Slot} (hk : ExitLoop s c k) (hpid : 0 < (s.proc c).pid)
    (hq : (k.proc q).pid = (k.proc c).pid) (htid : (k.proc q).tid ≠ 0) : s.Group c q := by
  have hc : (k.proc c).pid = (s.proc c).pid := hk.tree.caller_pid
  refine ⟨?_, ?_⟩
  · rcases hk.pid_eq q with h | h
    · rw [← h, hq, hc]
    · rw [hq, hc] at h
      omega
  · rintro rfl
    have hinit := hk.tree.tree.init_tid
    rw [hk.tree.initproc] at hinit
    exact htid hinit

theorem ExitLoop.commonExit (hk : ExitLoop s c k)
    (hpid : 0 < (s.proc c).pid) (hpc : (k.proc p).pid = (k.proc c).pid)
    (htid : (k.proc p).tid ≠ 0) (h : k.commonExit c p = .ok k') : ExitLoop s c k' := by
  have hd := died_commonExit h
  refine ⟨hk.tree.commonExit hpid hpc htid h, ?_, fun q => ?_⟩
  · exact hk.untouched.trans (hd.untouched (hk.group hpid hpc htid))
  · have hq : (k'.proc q).pid = (k.proc q).pid :=
      congrArg Entry.pid (congrFun (congrArg Book.entry hd.book) q)
    rw [hq]
    exact hk.pid_eq q

theorem ExitLoop.join {k1 : Kernel} {n : Int} (hk : ExitLoop s c k) (hc : c ≠ s.initproc)
    (hpid : 0 < (s.proc c).pid) (hp : (k.proc p).parent = some c) (htid : (k.proc p).tid ≠ 0)
    (hz : (k.proc p).state = .zombie) (h1 : k.removeThreadStack p = .ok k1)
    (h2 : k1.clearProc p = .ok (k', n)) : ExitLoop s c k' := by
  have hpc : (k.proc p).pid = (k.proc c).pid := by
    refine hk.tree.tree.thread_pid p c htid hp ?_
    rw [hk.tree.initproc]
    exact hc
  have hu := (untouched_removeThreadStack h1 hp (G := s.Group c) ⟨rfl, hc⟩).trans
    (untouched_clearProc h2 (hk.group hpid hpc htid))
  refine ⟨hk.tree.join htid hz h1 h2, hk.untouched.trans hu, fun q => ?_⟩
  have hb : k'.book = (k.book.dropRef p).clear p := by
    rw [clearProc_book h2, removeThreadStack_book h1]
  obtain ⟨ref, calls, hd⟩ := Book.dropRef_eq k.book p
  have hq := congrArg Entry.pid (congrFun (congrArg Book.entry hb) q)
  rw [hd] at hq
  by_cases hqp : q = p
  · subst hqp
    rw [Book.clear, Book.set_entry_same] at hq
    exact .inr hq
  · rw [Book.clear, Book.set_entry_of_ne _ _ hqp] at hq
    have hq : (k'.proc q).pid = (k.proc q).pid := hq
    rw [hq]
    exact hk.pid_eq q

/-- `exit()` by a process only passes on children and wakes sleepers outside
its group. -/
theorem exitFrame_of_process (ht : s.book.Tree) (hc : (s.proc c).state = .running)
    (htid : (s.proc c).tid = 0) (h : s.exit c = .ok s') : s.ExitFrame c s' := by
  have hpid : 0 < (s.proc c).pid := ht.pid_pos c (live_book_running hc)
  have hinit : c ≠ s.initproc := (exit_cases h).1
  obtain ⟨-, k, hk, hend⟩ := exit_process (I := ExitLoop s c)
    (fun hk hpc hp hd => hk.commonExit hpid hpc hp hd)
    (fun hk hpar hp hz h1 h2 => hk.join hinit hpid hpar hp hz h1 h2) htid h
    ⟨⟨ht, rfl, rfl, htid⟩, .refl _ s, fun _ => .inl rfl⟩
  exact hk.untouched.trans ((died_commonExit hend).untouched ⟨rfl, hinit⟩)

/-! ## A thread calls exit -/

/-- What holds throughout the loop of `exit` in the thread `c`, whose parent
is `m`, with `s` the state before it: init has at most the threads it had. -/
structure ThreadExitLoop (s : Kernel) (c m : Slot) (k : Kernel) : Prop where
  initproc : k.initproc = s.initproc
  init_tid : (k.proc s.initproc).tid = 0
  init_threads : (k.proc s.initproc).numOfThreads ≤ (s.proc s.initproc).numOfThreads
  parent : (k.proc c).parent = some m ∨ (k.proc c).parent = some s.initproc

section

variable (hk : ThreadExitLoop s c m k)
include hk

theorem ThreadExitLoop.commonExit (h : k.commonExit c p = .ok k') : ThreadExitLoop s c m k' := by
  have hd := died_commonExit h
  obtain ⟨htid, hnum, -⟩ := hd.threads_eq s.initproc
  refine ⟨hd.initproc_eq.trans hk.initproc, ?_, ?_, ?_⟩
  · rw [htid]
    exact hk.init_tid
  · rw [hnum]
    exact hk.init_threads
  · rw [(hd.threads_eq c).2.2, hk.initproc]
    unfold heir
    split
    · exact .inr rfl
    · exact hk.parent

theorem ThreadExitLoop.removeThreadStack (h : k.removeThreadStack p = .ok k') :
    ThreadExitLoop s c m k' := by
  obtain ⟨m', pgdirs, free, size, -, rfl⟩ := removeThreadStack_eq h
  have hthreads := hk.init_threads
  refine ⟨hk.initproc, ?_, ?_, ?_⟩
  · have htid := hk.init_tid
    by_cases hm : s.initproc = m'
    · simpa [proc, upd, ← hm] using htid
    · simpa [proc, upd, PTable.setProc_proc_of_ne, hm] using htid
  · simp only [proc] at hthreads
    by_cases hm : s.initproc = m'
    · simp only [proc, upd, ← hm, PTable.setProc_proc_same]
      omega
    · simpa [proc, upd, PTable.setProc_proc_of_ne, hm] using hthreads
  · have hparent := hk.parent
    by_cases hm : c = m'
    · simpa [proc, upd, ← hm] using hparent
    · simpa [proc, upd, PTable.setProc_proc_of_ne, hm] using hparent

theorem ThreadExitLoop.clearProc {pid : Int} (hp : p ≠ s.initproc)
    (hpc : p ≠ c) (h : k.clearProc p = .ok (k', pid)) : ThreadExitLoop s c m k' := by
  obtain ⟨ref, free, calls, rfl⟩ := clearProc_eq h
  refine ⟨hk.initproc, ?_, ?_, ?_⟩
  · simpa [proc, upd, PTable.setProc_proc_of_ne, hp.symm] using hk.init_tid
  · simpa [proc, upd, PTable.setProc_proc_of_ne, hp.symm] using hk.init_threads
  · simpa [proc, upd, PTable.setProc_proc_of_ne, hpc.symm] using hk.parent

theorem ThreadExitLoop.exitOtherThread (h : exitOtherThread c k p = .ok k') :
    ThreadExitLoop s c m k' := by
  rcases exitOtherThread_cases h with rfl | ⟨-, htid, hpc, k1, k2, pid, h1, h2, h3⟩
  · exact hk
  have hp : p ≠ s.initproc := by
    rintro rfl
    exact htid hk.init_tid
  exact ((hk.removeThreadStack h1).commonExit h2).clearProc hp hpc h3

end

/-- After `exit()` by a thread, init has fewer threads than before. -/
theorem exit_thread_init (hinit : (s.proc s.initproc).tid = 0)
    (htid : (s.proc c).tid ≠ 0) (h : s.exit c = .ok s') :
    (s'.proc s.initproc).numOfThreads < (s.proc s.initproc).numOfThreads := by
  obtain ⟨hc, ⟨⟨ht, -⟩, -⟩ | ⟨ht, -⟩ | ⟨-, m, s1, s2, s3, s4, hm, h1, h2, h3, h4, rfl⟩⟩ :=
    exit_cases h
  · contradiction
  · contradiction
  · have hs1 : ThreadExitLoop s c m s1 :=
      forEach_inv (ThreadExitLoop s c m) (fun _ _ _ _ ha hb => ha.exitOtherThread hb) h1
        ⟨rfl, hinit, le_rfl, .inl hm⟩
    have hs2 := hs1.commonExit h2
    -- the "master thread" has ended, so its thread `c` belongs to init
    have hparent : (s2.proc c).parent = some s.initproc := by
      rw [((died_commonExit h2).threads_eq c).2.2, hs1.initproc]
      unfold heir
      rcases hs1.parent with hp | hp
      · rw [if_pos hp]
      · rw [hp, ite_self]
    have hless : (s3.proc s.initproc).numOfThreads < (s.proc s.initproc).numOfThreads := by
      obtain ⟨m', pgdirs, free, size, hm', rfl⟩ := removeThreadStack_eq h3
      have hmm : m' = s.initproc := Option.some.inj (hm'.symm.trans hparent)
      have hle := hs2.init_threads
      simp only [proc] at hle
      simp only [proc, upd, hmm, PTable.setProc_proc_same]
      omega
    rw [upd_proc_of_ne _ _ hc.symm, ((died_commonExit h4).threads_eq s.initproc).2.1]
    exact hless

/-! ## The result -/

/-- **The frame of `exit()`.**  As long as only processes have called `exit`,
a completed `exit()` leaves the processes outside the caller's group alone, up
to passing on children and waking sleepers, exactly when the caller is a
process and not a thread. -/
theorem exitFrame_iff_process {s s' : Kernel} {c : Slot} (hr : ReachableBy ProcessExits s)
    (hc : (s.proc c).state = .running) (h : s.exit c = .ok s') :
    s.ExitFrame c s' ↔ (s.proc c).tid = 0 := by
  have ht := tree_of_reachable hr
  constructor
  · intro hf
    by_contra htid
    have hlt := exit_thread_init ht.init_tid htid h
    have hout : ¬ s.Group c s.initproc := fun hg => hg.2 rfl
    obtain ⟨par, st, he, -, -⟩ := hf.2 s.initproc hout
    rw [he] at hlt
    exact lt_irrefl _ hlt
  · exact fun htid => exitFrame_of_process ht hc htid h

/-- `exit()` by a process that init has forked. -/
theorem exitFrame_forked :
    ∃ s s', ReachableBy ProcessExits s ∧ (s.proc 1).state = .running ∧ s.exit 1 = .ok s' ∧
      s.ExitFrame 1 s' := by
  obtain ⟨s, hr, hc, ht, hx⟩ := exists_reachableBy ProcessExits
    (P := fun s => (s.proc 1).state = .running ∧ (s.proc 1).tid = 0 ∧
      (s.exit 1).toOption.any (fun _ => True) = true)
    (List.range' 1 400) (fun _ => false) smallProgram forked
    (by simp [forked, ProcessExits]) (by decide +kernel)
  obtain ⟨s', h, -⟩ := exists_eq_ok hx
  exact ⟨s, s', hr, hc, h, (exitFrame_iff_process hr hc h).mpr ht⟩

/-- `exit()` by the thread of a process: init, which has no threads, is left
with a thread count of -1. -/
theorem not_exitFrame_threaded :
    ∃ s s' : Kernel, s.Reachable ∧ (s.proc 2).state = .running ∧ s.exit 2 = .ok s' ∧
      (s'.proc s.initproc).numOfThreads = -1 ∧ ¬ s.ExitFrame 2 s' := by
  obtain ⟨s, hr, hc, h0, hx⟩ := exists_reachableBy (fun _ _ => True)
    (P := fun s => (s.proc 2).state = .running ∧ (s.proc s.initproc).numOfThreads = 0 ∧
      (s.exit 2).toOption.any (fun s' => (s'.proc s.initproc).numOfThreads = -1) = true)
    (List.range' 1 400) (fun _ => false) smallProgram threaded
    (fun _ _ _ => trivial) (by decide +kernel)
  obtain ⟨s', h, hm1⟩ := exists_eq_ok hx
  refine ⟨s, s', hr, hc, h, hm1, fun hf => ?_⟩
  obtain ⟨par, st, he, -, -⟩ := hf.2 s.initproc fun hg => hg.2 rfl
  rw [he] at hm1
  exact absurd (h0.symm.trans hm1) (by decide)

end Kernel
end Xv6
