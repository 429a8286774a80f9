import Xv6.Book.Step

/-!
# Xv6.Book.Tree

The process tree.  As long as only processes, not threads, call `exit`, init
stays what it was at the start, a thread has the pid of its parent, and
nothing that has ended has children.
-/

namespace Xv6

open Lib Function

variable {pid : Int} {s s' : Kernel} {c init p : Slot}

namespace Book

/-- The invariant of the process tree. -/
structure Tree (b : Book) : Prop where
  init_tid : (b.entry b.initproc).tid = 0
  init_state : (b.entry b.initproc).state = .runnable
  nextpid_pos : 0 < b.nextpid
  pid_pos : ∀ p, b.Live p → 0 < (b.entry p).pid
  thread_pid : ∀ q r, (b.entry q).tid ≠ 0 → (b.entry q).parent = some r → r ≠ b.initproc →
    (b.entry q).pid = (b.entry r).pid
  childless : ∀ r, r ≠ b.initproc → ¬ b.Live r ∨ (b.entry r).state = .zombie →
    ∀ q, (b.entry q).parent ≠ some r

variable {b b' : Book} {np : Slot}

/-- In `b'` the entry `p` has been emptied. -/
structure Vacates (b : Book) (p : Slot) (b' : Book) : Prop where
  same : ∀ q, q ≠ p → b'.entry q = b.entry q
  state : (b'.entry p).state = .unused
  tid : (b'.entry p).tid = 0
  parent : (b'.entry p).parent = none ∨ (b'.entry p).parent = (b.entry p).parent
  initproc : b'.initproc = b.initproc
  nextpid : b.nextpid ≤ b'.nextpid

theorem vacates_retract {g : Option PgdirId} (hnp : ¬ b.Live np) :
    b.Vacates np (b.retract np g) := by
  have hnew : (b.retract np g).entry np =
      { b.entry np with pid := b.nextpid, tid := 0, pgdir := g, idx := none } :=
    set_entry_same b np _
  refine ⟨fun q hq => set_entry_of_ne b _ hq, ?_, ?_, .inr ?_, rfl, (Int.lt_succ _).le⟩
  · rw [hnew]
    exact not_not.mp hnp
  · rw [hnew]
  · rw [hnew]

theorem vacates_collect (b : Book) (p : Slot) : b.Vacates p ((b.dropRef p).clear p) := by
  obtain ⟨ref, calls, hd⟩ := dropRef_eq b p
  have hnew : ((b.dropRef p).clear p).entry p = _ := set_entry_same _ p _
  refine ⟨fun q hq => collect_entry_of_ne b hq, ?_, ?_, .inl ?_, ?_, ?_⟩
  · rw [hnew]
  · rw [hnew]
  · rw [hnew]
  · rw [hd]
    rfl
  · rw [hd]
    exact le_rfl

namespace Tree

section

variable (h : b.Tree)
include h

theorem ne_init_of_unused (hp : ¬ b.Live p) : p ≠ b.initproc := by
  rintro rfl
  exact hp (by simp [Live, h.init_state])

theorem ne_init_of_zombie (hp : (b.entry p).state = .zombie) : p ≠ b.initproc := by
  rintro rfl
  simp [h.init_state] at hp

/-- The tree does not depend on page directories and counters. -/
theorem congr (hinit : b'.initproc = b.initproc)
    (hnext : b'.nextpid = b.nextpid)
    (he : ∀ q, (b'.entry q).state = (b.entry q).state ∧ (b'.entry q).pid = (b.entry q).pid ∧
      (b'.entry q).tid = (b.entry q).tid ∧ (b'.entry q).parent = (b.entry q).parent) :
    b'.Tree where
  init_tid := by
    rw [hinit, (he _).2.2.1]
    exact h.init_tid
  init_state := by
    rw [hinit, (he _).1]
    exact h.init_state
  nextpid_pos := hnext ▸ h.nextpid_pos
  pid_pos p hp := by
    rw [(he p).2.1]
    exact h.pid_pos p (by simpa [Live, (he p).1] using hp)
  thread_pid q r ht hp hr := by
    rw [(he q).2.2.1] at ht
    rw [(he q).2.2.2] at hp
    rw [(he q).2.1, (he r).2.1]
    exact h.thread_pid q r ht hp (hinit ▸ hr)
  childless r hr hs q := by
    rw [(he q).2.2.2]
    exact h.childless r (hinit ▸ hr) (by simpa [Live, (he r).1] using hs) q

/-- Giving an unused entry to a child of a live process keeps the tree. -/
theorem set_child {e : Entry} (hnp : ¬ b.Live np)
    (hc : (b.entry c).state = .runnable) (hentry : b'.entry = update b.entry np e)
    (hinit : b'.initproc = b.initproc) (hnext : b'.nextpid = b.nextpid + 1)
    (hparent : e.parent = some c) (hst : e.state = .runnable ∨ e.state = .embryo)
    (hpid : 0 < e.pid) (ht : e.tid ≠ 0 → e.pid = (b.entry c).pid) : b'.Tree := by
  have hne := h.ne_init_of_unused hnp
  have hcnp : c ≠ np := by
    rintro rfl
    exact hnp (by simp [Live, hc])
  have hsame : ∀ q, q ≠ np → b'.entry q = b.entry q := fun q hq => by
    rw [hentry, update_of_ne hq]
  have hnew : b'.entry np = e := by rw [hentry, update_self]
  have hinit' : b'.entry b'.initproc = b.entry b.initproc := by
    rw [hinit]
    exact hsame _ hne.symm
  refine ⟨?_, ?_, hnext ▸ Int.lt_add_one_of_le h.nextpid_pos.le, ?_, ?_, ?_⟩
  · rw [hinit']
    exact h.init_tid
  · rw [hinit']
    exact h.init_state
  · intro p hp
    by_cases hpn : p = np
    · rw [hpn, hnew]
      exact hpid
    · rw [hsame p hpn]
      exact h.pid_pos p (by simpa [Live, hsame p hpn] using hp)
  · intro q r htq hpq hr
    by_cases hqn : q = np
    · subst hqn
      rw [hnew] at htq hpq ⊢
      rw [hparent, Option.some.injEq] at hpq
      subst hpq
      rw [hsame c hcnp]
      exact ht htq
    · rw [hsame q hqn] at htq hpq ⊢
      have hrn : r ≠ np := by
        rintro rfl
        exact h.childless r hne (.inl hnp) q hpq
      rw [hsame r hrn]
      exact h.thread_pid q r htq hpq (hinit ▸ hr)
  · intro r hr hs q
    by_cases hrn : r = np
    · subst hrn
      rw [Live, hnew] at hs
      rcases hst with hst | hst <;> simp [hst] at hs
    · rw [Live, hsame r hrn] at hs
      by_cases hqn : q = np
      · rw [hqn, hnew, hparent]
        rintro ⟨⟩
        simp [hc] at hs
      · rw [hsame q hqn]
        exact h.childless r (hinit ▸ hr) hs q

/-- Emptying an entry without children keeps the tree. -/
theorem vacate (hne : p ≠ b.initproc) (hchildless : ∀ q, (b.entry q).parent ≠ some p)
    (hv : b.Vacates p b') : b'.Tree := by
  -- whoever has a parent had it before, and it is not `p`
  have hparent : ∀ q r, (b'.entry q).parent = some r → (b.entry q).parent = some r ∧ r ≠ p := by
    intro q r hq
    have hq' : (b.entry q).parent = some r := by
      by_cases hqp : q = p
      · subst hqp
        rcases hv.parent with hnone | hsame
        · rw [hnone] at hq
          contradiction
        · exact hsame.symm.trans hq
      · exact hv.same q hqp ▸ hq
    refine ⟨hq', ?_⟩
    rintro rfl
    exact hchildless q hq'
  have hinit : b'.entry b'.initproc = b.entry b.initproc := by
    rw [hv.initproc]
    exact hv.same _ hne.symm
  refine ⟨?_, ?_, h.nextpid_pos.trans_le hv.nextpid, ?_, ?_, ?_⟩
  · rw [hinit]
    exact h.init_tid
  · rw [hinit]
    exact h.init_state
  · intro q hq
    by_cases hqp : q = p
    · subst hqp
      exact absurd hv.state hq
    · rw [hv.same q hqp]
      exact h.pid_pos q (by simpa [Live, hv.same q hqp] using hq)
  · intro q r htq hq hr
    obtain ⟨hq, hrp⟩ := hparent q r hq
    have hqp : q ≠ p := by
      rintro rfl
      exact htq hv.tid
    rw [hv.same q hqp] at htq ⊢
    rw [hv.same r hrp]
    exact h.thread_pid q r htq hq (hv.initproc ▸ hr)
  · intro r hr hs q hq
    obtain ⟨hq, hrp⟩ := hparent q r hq
    exact h.childless r (hv.initproc ▸ hr) (by simpa [Live, hv.same r hrp] using hs) q hq

theorem retract {g : Option PgdirId} (hnp : ¬ b.Live np) : (b.retract np g).Tree := by
  have hne := h.ne_init_of_unused hnp
  exact h.vacate hne (h.childless np hne (.inl hnp)) (vacates_retract hnp)

theorem die (hp : p ≠ b.initproc) (hpid : 0 < (b.entry p).pid) : (b.die p).Tree := by
  -- whoever still has a parent other than init had it before, and it is not `p`
  have hparent : ∀ q r, ((b.die p).entry q).parent = some r → r ≠ b.initproc →
      (b.entry q).parent = some r ∧ r ≠ p := by
    intro q r hq hr
    simp only [Book.die, Kernel.heir] at hq
    split at hq
    · cases hq
      contradiction
    next hqp =>
    refine ⟨hq, ?_⟩
    rintro rfl
    contradiction
  refine ⟨h.init_tid, ?_, h.nextpid_pos, ?_, ?_, ?_⟩
  · simpa [Book.die, hp.symm] using h.init_state
  · intro q hq
    by_cases hqp : q = p
    · exact hqp ▸ hpid
    · exact h.pid_pos q (by simpa [Live, Book.die, hqp] using hq)
  · intro q r ht hq hr
    exact h.thread_pid q r ht (hparent q r hq hr).1 hr
  · intro r hr hs q hq
    obtain ⟨hq', hrp⟩ := hparent q r hq hr
    exact h.childless r hr (by simpa [Live, Book.die, hrp] using hs) q hq'

theorem collect (hz : (b.entry p).state = .zombie) : ((b.dropRef p).clear p).Tree := by
  have hne := h.ne_init_of_zombie hz
  exact h.vacate hne (h.childless p hne (.inr hz)) (vacates_collect b p)

theorem image (c : Slot) (old : Option PgdirId) (i : Fin NPROC) :
    (((b.newImage c).dropOld c old).giveIdx c i).Tree := by
  obtain ⟨ref, calls, hd⟩ := dropOld_eq (b.newImage c) c old
  rw [hd]
  refine h.congr rfl rfl fun q => ?_
  by_cases hq : q = c
  · subst hq
    simp [giveIdx, newImage]
  · simp [giveIdx, newImage, set, hq]

end

theorem startBook (p : Slot) (i : Fin NPROC) : (Kernel.startBook p i).Tree := by
  refine ⟨?_, ?_, ?_, ?_, ?_, ?_⟩
  · simp [Kernel.startBook]
  · simp [Kernel.startBook]
  · simp [Kernel.startBook]
  · intro q hq
    by_cases hqp : q = p
    · simp [Kernel.startBook, hqp]
    · simp [Live, Kernel.startBook, hqp, Proc.zero, Proc.entry, ProcState.settled] at hq
  · intro q r ht hp hr
    by_cases hqp : q = p
    · simp [Kernel.startBook, hqp] at hp
    · simp [Kernel.startBook, hqp, Proc.zero, Proc.entry] at hp
  · intro r hr hs q
    by_cases hqp : q = p
    · simp [Kernel.startBook, hqp]
    · simp [Kernel.startBook, hqp, Proc.zero, Proc.entry]

end Tree
end Book

namespace Kernel

/-- Only processes call `exit`, no thread does. -/
def ProcessExits (s : Kernel) : Event → Prop
  | .call c .exit => (s.proc c).tid = 0
  | _ => True

theorem state_book_running (hc : (s.proc c).state = .running) :
    (s.book.entry c).state = .runnable := by
  simp [Proc.entry, hc, ProcState.settled]

theorem live_book_running (hc : (s.proc c).state = .running) : s.book.Live c := by
  rw [Book.Live, state_book_running hc]
  simp

theorem not_live_book (hp : (s.proc p).state = .unused) : ¬ s.book.Live p := by
  simp [Book.Live, Proc.entry, hp, ProcState.settled]

theorem state_book_zombie (hp : (s.proc p).state = .zombie) : (s.book.entry p).state = .zombie := by
  simp [Proc.entry, hp, ProcState.settled]

theorem live_book_zombie (hp : (s.proc p).state = .zombie) : s.book.Live p := by
  rw [Book.Live, state_book_zombie hp]
  simp

/-- What holds throughout the loop of `exit` in the master thread `c`. -/
structure ExitTree (c init : Slot) (pid : Int) (s : Kernel) : Prop where
  tree : s.book.Tree
  initproc : s.book.initproc = init
  caller_pid : (s.book.entry c).pid = pid
  caller_tid : (s.book.entry c).tid = 0

theorem ExitTree.commonExit (hs : ExitTree c init pid s) (hpid : 0 < pid)
    (hpc : (s.proc p).pid = (s.proc c).pid)
    (htid : (s.proc p).tid ≠ 0) (h : s.commonExit c p = .ok s') : ExitTree c init pid s' := by
  have hb := (died_commonExit h).book
  have hp : p ≠ s.initproc := by
    rintro rfl
    exact htid hs.tree.init_tid
  have hc : (s.proc c).pid = pid := hs.caller_pid
  refine ⟨?_, ?_, ?_, ?_⟩
  · rw [hb]
    exact hs.tree.die hp (by simpa [Proc.entry, hpc, hc] using hpid)
  all_goals rw [hb]
  · exact hs.initproc
  · exact hs.caller_pid
  · exact hs.caller_tid

theorem ExitTree.join {s1 : Kernel} {n : Int} (hs : ExitTree c init pid s)
    (htid : (s.proc p).tid ≠ 0) (hz : (s.proc p).state = .zombie)
    (h1 : s.removeThreadStack p = .ok s1) (h2 : s1.clearProc p = .ok (s', n)) :
    ExitTree c init pid s' := by
  have hb : s'.book = (s.book.dropRef p).clear p := by
    rw [clearProc_book h2, removeThreadStack_book h1]
  have hpc : c ≠ p := by
    rintro rfl
    exact htid hs.caller_tid
  obtain ⟨ref, calls, hd⟩ := Book.dropRef_eq s.book p
  have hec : s'.book.entry c = s.book.entry c := by
    rw [hb]
    exact Book.collect_entry_of_ne s.book hpc
  refine ⟨?_, ?_, ?_, ?_⟩
  · rw [hb]
    exact hs.tree.collect (state_book_zombie hz)
  · rw [hb, hd]
    exact hs.initproc
  · rw [hec]
    exact hs.caller_pid
  · rw [hec]
    exact hs.caller_tid

theorem tree_exit (hc : (s.proc c).state = .running)
    (htid : (s.proc c).tid = 0) (h : s.exit c = .ok s') (ht : s.book.Tree) : s'.book.Tree := by
  have hpid : 0 < (s.proc c).pid := ht.pid_pos c (live_book_running hc)
  obtain ⟨hinit, k, hk, hend⟩ := exit_process (I := ExitTree c s.initproc (s.proc c).pid)
    (fun hk hpc hp hd => hk.commonExit hpid hpc hp hd)
    (fun hk _ hp hz h1 h2 => hk.join hp hz h1 h2) htid h ⟨ht, rfl, rfl, htid⟩
  rw [(died_commonExit hend).book]
  refine hk.tree.die ?_ ?_
  · rw [hk.initproc]
    exact hinit
  · rw [hk.caller_pid]
    exact hpid

/-- **The tree invariant** holds in every state reached while only processes
call `exit`. -/
theorem tree_of_reachable (h : ReachableBy ProcessExits s) : s.book.Tree := by
  refine h.inv (fun s => s.book.Tree) ?_ ?_
  · intro s hs
    obtain ⟨p, i, hb⟩ := started_book hs
    rw [hb]
    exact .startBook p i
  · intro s e s' ht hg hn
    cases step_of_next hn with
    | quiet hb | sbrk hb =>
      rw [hb]
      exact ht
    | retract hnp hb =>
      rw [hb]
      exact ht.retract (not_live_book hnp)
    | fork hc hnp hi hb =>
      rw [hb]
      exact ht.set_child (not_live_book hnp) (state_book_running hc) rfl rfl rfl rfl (.inl rfl)
        ht.nextpid_pos fun h => absurd rfl h
    | exec hc hi hb =>
      rw [hb]
      exact ht.image _ _ _
    | @threadCreate _ c np i g d free free' top ok hc hnp hi hb =>
      rw [hb]
      exact ht.set_child (not_live_book hnp) (state_book_running hc) rfl rfl rfl rfl
        (by cases ok <;> simp) (ht.pid_pos c (live_book_running hc)) fun _ => rfl
    | @threadExit _ c retval hc hinit hb =>
      rw [hb]
      exact ht.die hinit (ht.pid_pos c (live_book_running hc))
    | threadJoin hz hb | wait hz hb =>
      rw [hb]
      exact ht.collect (state_book_zombie hz)
    | exit hc h => exact tree_exit hc hg h ht

end Kernel
end Xv6
