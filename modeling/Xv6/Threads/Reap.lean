import Xv6.Threads.Count

/-!
# Xv6.Threads.Reap

Every zombie has somebody who can collect it.  `wait` takes no threads, and
`thread_join` takes only children of the caller, so a thread whose parent has
ended is lost: it belongs to init, which is in another group.
-/

namespace Xv6

open Lib

namespace Kernel

/-- Every zombie has a parent that can still make system calls and that one of
them lets collect it: `wait` if it is a process, `thread_join` if it is a
thread of the parent's group. -/
def Reapable (s : Kernel) : Prop :=
  ∀ z, (s.proc z).state = .zombie → ∃ m, (s.proc z).parent = some m ∧
    (s.proc m).state ≠ .unused ∧ (s.proc m).state ≠ .zombie ∧
    ((s.proc z).tid = 0 ∨ (s.proc z).tid ≠ 0 ∧ (s.proc m).pid = (s.proc z).pid)

/-- **Every zombie can be reaped**, in every run in which processes create the
threads and leave by `exit` or without threads, and nobody joins thread 0. -/
theorem reapable_of_oneLevel {s : Kernel} (h : ReachableBy OneLevel s) : s.Reapable := by
  have hkin := (tallied_of_reachable h).kin
  intro z hz
  have hz' := state_book_zombie hz
  obtain ⟨m, hm, hms, -⟩ := hkin.parent z (live_book_zombie hz) (hkin.tree.ne_init_of_zombie hz')
  have hstate : (s.proc m).state ≠ .unused ∧ (s.proc m).state ≠ .zombie := by
    constructor <;> intro hst <;> simp [Proc.entry, hst, ProcState.settled] at hms
  refine ⟨m, hm, hstate.1, hstate.2, ?_⟩
  by_cases htid : (s.proc z).tid = 0
  · exact .inl htid
  · refine .inr ⟨htid, ?_⟩
    exact (hkin.thread_pid z m ⟨htid, by rw [hz']; simp⟩ hm).symm

/-- A thread has ended and not been joined yet. -/
theorem reapable_threaded :
    ∃ s : Kernel, ReachableBy OneLevel s ∧ (s.proc 2).state = .zombie ∧ (s.proc 2).tid ≠ 0 ∧
      s.Reapable := by
  obtain ⟨s, hr, hs⟩ := exists_reachableBy_guarded OneLevel
    (P := fun s => (s.proc 2).state = .zombie ∧ (s.proc 2).tid ≠ 0)
    (List.range' 1 400) (fun _ => false) smallProgram
    (threaded ++ [.call 2 (.threadExit 7)]) (by decide +kernel)
  exact ⟨s, hr, hs.1, hs.2, reapable_of_oneLevel hr⟩

/-- The process in entry 1 and its thread in entry 2 both call `thread_exit`. -/
def abandoned : List Event :=
  threaded ++ [.call 1 (.threadExit 0), .call 2 (.threadExit 0)]

/-- The thread is left to init, which can neither wait for it nor join it as a
member of its group. -/
theorem not_reapable_abandoned :
    ∃ s : Kernel, s.Reachable ∧ (s.proc 2).state = .zombie ∧ (s.proc 2).tid = 1 ∧
      (s.proc 2).parent = some 0 ∧ (s.proc 2).pid = 2 ∧ (s.proc 0).pid = 1 ∧ ¬ s.Reapable := by
  obtain ⟨s, hr, hz, ht, hp, hpid, hpid0⟩ := exists_reachableBy (fun _ _ => True)
    (P := fun s => (s.proc 2).state = .zombie ∧ (s.proc 2).tid = 1 ∧
      (s.proc 2).parent = some 0 ∧ (s.proc 2).pid = 2 ∧ (s.proc 0).pid = 1)
    (List.range' 1 400) (fun _ => false) smallProgram abandoned
    (fun _ _ _ => trivial) (by decide +kernel)
  refine ⟨s, hr, hz, ht, hp, hpid, hpid0, fun h => ?_⟩
  obtain ⟨m, hm, -, -, h0 | ⟨-, hg⟩⟩ := h 2 hz
  · rw [ht] at h0
    contradiction
  · rw [hp, Option.some.injEq] at hm
    rw [← hm, hpid0, hpid] at hg
    contradiction

end Kernel
end Xv6
