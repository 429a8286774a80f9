import Xv6.View

/-!
# Xv6.Threads.Tally

The thread counters on their own: `num_of_threads` of every entry, the next
thread id and `thread_lock`.  Together with the book this is all that the
creation and collection of threads depends on.
-/

namespace Xv6

open Lib Function

variable {r : Int} {s s' : Kernel} {c np p : Slot}

/-- `num_of_threads` and `proc_forked_in_thread` of an entry. -/
structure ThreadCount where
  num : Int
  forkedIn : Option Slot

/-- What `allocproc` and `clear_proc` set. -/
def ThreadCount.zero : ThreadCount := ⟨0, none⟩

/-- The counters, the next thread id and whether `thread_lock` is held. -/
structure Tally where
  entry : Slot → ThreadCount
  nextTid : Int
  lock : Bool

namespace Tally

/-- Replace the counter of one entry. -/
def set (t : Tally) (p : Slot) (e : ThreadCount) : Tally :=
  { t with entry := update t.entry p e }

/-- Add `n` to the counter of one entry. -/
def add (t : Tally) (p : Slot) (n : Int) : Tally :=
  t.set p { t.entry p with num := (t.entry p).num + n }

@[simp] theorem set_entry_same (t : Tally) (p : Slot) (e : ThreadCount) : (t.set p e).entry p = e :=
  update_self ..

theorem set_entry_of_ne (t : Tally) {q : Slot} (e : ThreadCount) (h : q ≠ p) :
    (t.set p e).entry q = t.entry q :=
  update_of_ne h ..

end Tally

/-- The counters of an entry. -/
def Proc.threadCount (x : Proc) : ThreadCount := ⟨x.numOfThreads, x.procForkedInThread⟩

namespace Kernel

/-- The counters of a kernel state. -/
def tally (s : Kernel) : Tally where
  entry p := (s.proc p).threadCount
  nextTid := s.nextThreadId
  lock := s.threadLock

theorem tally_congr (hentry : ∀ q, (s'.proc q).threadCount = (s.proc q).threadCount)
    (htid : s'.nextThreadId = s.nextThreadId) (hlock : s'.threadLock = s.threadLock) :
    s'.tally = s.tally := by
  simp only [tally, Tally.mk.injEq]
  exact ⟨funext hentry, htid, hlock⟩

theorem upd_tally (s : Kernel) (p : Slot) (g : Proc → Proc) :
    (s.upd p g).tally = s.tally.set p (g (s.proc p)).threadCount := by
  simp only [tally, Tally.set, upd_view]
  rfl

theorem upd_tally_eq (s : Kernel) (p : Slot) {g : Proc → Proc}
    (hg : (g (s.proc p)).threadCount = (s.proc p).threadCount) : (s.upd p g).tally = s.tally :=
  tally_congr (upd_view_eq s p hg) rfl rfl

/-! ## Helpers -/

theorem Minor.tally (h : Minor p s s') : s'.tally = s.tally := by
  refine tally_congr (h.view fun _ _ _ _ _ => rfl) ?_ ?_
  all_goals
    obtain ⟨pr, qu, n, v, ft, ic, pp, fr, j, rfl, -⟩ := h
    rfl

theorem FilesOnly.tally (h : FilesOnly p s s') : s'.tally = s.tally :=
  h.minor.tally

theorem SharesOnly.tally (h : SharesOnly s s') : s'.tally = s.tally := by
  refine tally_congr (h.view fun _ _ _ _ _ => rfl) ?_ ?_
  all_goals
    obtain ⟨t, rfl, -⟩ := h
    rfl

theorem Died.tally (h : Died p s s') : s'.tally = s.tally := by
  refine tally_congr (h.view fun _ _ _ _ _ _ => rfl) ?_ ?_
  all_goals
    obtain ⟨s1, ⟨pr, qu, n, v, ft, ic, pp, fr, j, rfl, -⟩, rfl⟩ := h
    rfl

theorem sleepOn_tally (s : Kernel) (c : Slot) (chan : Chan) : (s.sleepOn c chan).tally = s.tally :=
  upd_tally_eq s c rfl

theorem kill_tally (s : Kernel) (pid : Int) : (s.kill pid).1.tally = s.tally := by
  unfold kill
  split
  · exact upd_tally_eq s _ rfl
  · rfl

theorem setFiles_tally (s : Kernel) (p : Slot) (f : FilesAfter) :
    (s.setFiles p f).tally = s.tally := by
  have hu : (s.upd p fun x => { x with ofile := f.ofile, cwd := f.cwd }).tally = s.tally :=
    upd_tally_eq s p rfl
  exact hu

theorem clearProc_tally {pid : Int}
    (h : s.clearProc p = .ok (s', pid)) : s'.tally = s.tally.set p .zero := by
  obtain ⟨ref, free, calls, rfl⟩ := clearProc_eq h
  exact upd_tally _ p _

theorem allocateNewPgdirIdx_tally (h : s.allocateNewPgdirIdx p = .ok s') : s'.tally = s.tally := by
  obtain ⟨i, -, rfl⟩ := allocateNewPgdirIdx_eq h
  exact upd_tally_eq _ p rfl

theorem exec_tally {file : ExecFile} (h : s.exec c file = .ok (s', r)) : s'.tally = s.tally := by
  rcases exec_eq h with ⟨free, rfl⟩ | ⟨_, _, _, _, _, _, _, _, _, rfl⟩
  · rfl
  · exact upd_tally_eq _ c rfl

theorem growproc_tally {n : Int} (h : s.growproc c n = .ok (s', r)) : s'.tally = s.tally := by
  obtain ⟨pgdirs, free, size, rfl⟩ := growproc_eq h
  exact upd_tally_eq _ c rfl

/-- `remove_thread_stack(p)` counts down in the parent of `p`. -/
theorem removeThreadStack_tally (h : s.removeThreadStack p = .ok s') :
    ∃ m, (s.proc p).parent = some m ∧ s'.tally = s.tally.add m (-1) ∧ s.threadLock = false := by
  obtain ⟨m, pgdirs, free, size, hm, heq⟩ := removeThreadStack_eq h
  refine ⟨m, hm, ?_, ?_⟩
  · rw [heq]
    exact upd_tally _ m _
  · -- the lock is taken after the pages are unmapped
    obtain ⟨s1, h1, h⟩ := bind_eq_ok.mp h
    obtain ⟨_, hlock, h⟩ := bind_eq_ok.mp h
    have hs1 : s1.threadLock = s'.threadLock := by
      split at h
      · contradiction
      · cases h
        rfl
    have hs' : s'.threadLock = s.threadLock := by rw [heq]; rfl
    rw [← hs', ← hs1]
    exact threadLock_of_acquire hlock

/-! ## New entries -/

theorem allocproc_some_tally (h : s.allocproc = (s', some np)) :
    s'.tally = s.tally.set np .zero := by
  obtain ⟨-, -, f, free, -, rfl⟩ := allocproc_some h
  exact upd_tally _ np _

theorem forkFailed_tally (h : s.forkFailed np = .ok s') : s'.tally = s.tally := by
  obtain ⟨free, rfl⟩ := forkFailed_eq h
  exact upd_tally_eq _ np rfl

theorem forkChild_tally {d : PgDir} (h : s.forkChild c np d = .ok s') : s'.tally = s.tally := by
  obtain ⟨s2, h2, h⟩ := bind_eq_ok.mp h
  obtain ⟨s3, h3, h⟩ := bind_eq_ok.mp h
  cases h
  rw [upd_tally_eq s3 np (by rfl), (filesOnly_dupAll c np h3).tally, allocateNewPgdirIdx_tally h2]
  exact upd_tally_eq _ np rfl

/-! ## Creating threads -/

/-- The entry whose counter `thread_create` by `c` counts up. -/
def counterOf (s : Kernel) (c : Slot) : Option Slot :=
  if (s.proc c).tid = 0 then some c else (s.proc c).parent

theorem countThread_tally (h : s.countThread c = .ok s') :
    ∃ m, s.counterOf c = some m ∧ s'.tally = s.tally.add m 1 := by
  obtain ⟨m, hm, rfl⟩ := countThread_eq h
  exact ⟨m, hm, upd_tally s m _⟩

theorem threadStack_tally {ok : Bool} (h : s.threadStack c np = .ok (s', ok)) :
    s.threadLock = false ∧ s'.tally = { s.tally with lock := !ok } := by
  obtain ⟨hlock, pgdirs, free, sz, size, rfl⟩ := threadStack_eq h
  exact ⟨hlock, (upd_tally_eq _ c rfl).trans (upd_tally_eq _ np rfl)⟩

theorem threadEntry_tally (s : Kernel) (c np : Slot) :
    (s.threadEntry c np).tally = { s.tally with nextTid := s.nextThreadId + 1 } := by
  rw [threadEntry_eq]
  exact upd_tally_eq _ np rfl

/-! ## Collecting and the start -/

theorem threadJoin_tally {s1 : Kernel} {pid : Int} (hp : (s.proc p).parent = some c)
    (h1 : s.removeThreadStack p = .ok s1) (h2 : s1.clearProc p = .ok (s', pid)) :
    s'.tally = (s.tally.add c (-1)).set p .zero ∧ s.threadLock = false := by
  obtain ⟨m, hm, ht1, hlock⟩ := removeThreadStack_tally h1
  have hmc : m = c := Option.some.inj (hm.symm.trans hp)
  subst hmc
  exact ⟨by rw [clearProc_tally h2, ht1], hlock⟩

theorem started_tally (h : Started s) :
    s.tally = { entry := fun _ => .zero, nextTid := 1, lock := false } := by
  obtain ⟨free, junk, file, h⟩ := h
  obtain ⟨s1, h1, h2⟩ := start_eq_ok h
  rw [exec_tally h2, upd_tally_eq s1 _ (by rfl)]
  obtain ⟨k, p, d, free', hk, rfl⟩ := userinit_eq h1
  rw [upd_tally_eq _ p (by rfl)]
  refine (allocproc_some_tally hk).trans ?_
  simp only [Tally.set, tally, Tally.mk.injEq]
  refine ⟨?_, rfl, rfl⟩
  funext q
  by_cases hq : q = p
  · simp [hq]
  · simp only [update_of_ne hq]
    rfl

end Kernel
end Xv6
