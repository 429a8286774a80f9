import Xv6.Stride.Lane

/-!
# Xv6.Threads.Create

`thread_create` that returns -1.

Without a free entry nothing has happened yet, and without a page for the kernel
stack `allocproc` gives the entry back.  Without pages for the user stack it returns
in the middle: the entry, the kernel stack, the references to the page directory and
to the files are taken, and `thread_lock` is held.
-/

namespace Xv6

open Lib

namespace Kernel

variable {s s' : Kernel} {c np : Slot}

/-- A call that went from `s` to `s'` has given back whatever it took, and
nobody holds a lock. -/
structure CleanFailure (s s' : Kernel) : Prop where
  lock : s'.threadLock = false
  slots : ∀ q, s'.Live q ↔ s.Live q
  pgdirRef : s'.pgdirRef = s.pgdirRef
  files : s'.ftable = s.ftable
  inodes : s'.icache = s.icache
  threads : ∀ q, s.Live q → (s'.proc q).numOfThreads = (s.proc q).numOfThreads
  size : ∀ q, s.Live q → (s'.proc q).sz = (s.proc q).sz
  pages : s'.freelist.Perm s.freelist

theorem threadCreate_fails (h : s.threadCreate c = .ok (s', -1)) :
    s.allocproc = (s', none) ∨ ∃ np, ThreadMade s c np false s' := by
  rcases threadCreate_stages h with hnone | ⟨s1, np, i, s2, s3, ok, h1, -, h2, h3, h⟩
  · exact .inl hnone
  cases ok with
  | false =>
    cases h
    exact .inr ⟨np, s1, i, s2, h1, h2, h3⟩
  | true => exact absurd h.1 (by decide)

/-- A failed `allocproc` is clean if nobody held the lock. -/
theorem cleanFailure_allocproc (h : s.allocproc = (s', none)) (hlock : s.threadLock = false) :
    s.CleanFailure s' := by
  rcases allocproc_none h with ⟨-, rfl⟩ | ⟨-, np, hnp, -, rfl⟩
  · exact ⟨hlock, fun _ => Iff.rfl, rfl, rfl, rfl, fun _ _ => rfl, fun _ _ => rfl, .refl _⟩
  have hdead : ¬ s.Live np := not_not.mpr hnp
  have hother : ∀ q, q ≠ np → (s.upd np fun x =>
      { Proc.embryo x s.nextpid with kstack := none, state := .unused }).proc q = s.proc q :=
    fun q hq => upd_proc_of_ne s _ hq
  refine ⟨hlock, fun q => ?_, rfl, rfl, rfl, fun q hq => ?_, fun q hq => ?_, .refl _⟩
  · by_cases hq : q = np
    · subst hq
      have hsame := upd_proc_same s q fun x =>
        { Proc.embryo x s.nextpid with kstack := none, state := .unused }
      exact iff_of_false (not_not.mpr (congrArg Proc.state hsame)) hdead
    · exact not_congr (iff_of_eq (congrArg (fun x => x.state = ProcState.unused) (hother q hq)))
  · exact congrArg Proc.numOfThreads (hother q fun h => hdead (h ▸ hq))
  · exact congrArg Proc.sz (hother q fun h => hdead (h ▸ hq))

/-- **`thread_create` fails cleanly** exactly when it fails in `allocproc`, with
`thread_lock` free. -/
theorem threadCreate_cleanFailure_iff (h : s.threadCreate c = .ok (s', -1)) :
    s.CleanFailure s' ↔ (s.freeSlot = none ∨ s.freelist = []) ∧ s.threadLock = false := by
  rcases threadCreate_fails h with hnone | ⟨np, hmade⟩
  · constructor
    · intro hclean
      rcases allocproc_none hnone with ⟨hslot, rfl⟩ | ⟨hpage, np, -, -, rfl⟩
      · exact ⟨.inl hslot, hclean.lock⟩
      · exact ⟨.inr hpage, hclean.lock⟩
    · exact fun hfree => cleanFailure_allocproc hnone hfree.2
  · obtain ⟨s1, i, s2, h1, -, h3⟩ := hmade.made
    obtain ⟨-, hslot, f, free, hpage, -⟩ := allocproc_some h1
    have hheld : s'.threadLock = true := congrArg Tally.lock (threadStack_tally h3).2
    refine iff_of_false (fun hclean => ?_) (by simp [hslot, hpage])
    rw [hclean.lock] at hheld
    contradiction

/-- Init has used up the memory for the kernel stack, too. -/
theorem cleanFailure_noPage : ∃ s s' : Kernel, s.Reachable ∧ s.threadCreate 0 = .ok (s', -1) ∧
    s.CleanFailure s' := by
  obtain ⟨s, hr, hpage, hlock, hcall⟩ := exists_reachableBy (fun _ _ => True)
    (P := fun s => s.freelist = [] ∧ s.threadLock = false ∧
      (s.threadCreate 0).toOption.any fun a => a.2 = -1)
    (List.range' 1 137) (fun _ => false) smallProgram [.call 0 (.sbrk 274432)]
    (fun _ _ _ => trivial) (by decide +kernel)
  obtain ⟨⟨s', r⟩, hok, rfl⟩ := exists_eq_ok hcall
  exact ⟨s, s', hr, hok, (threadCreate_cleanFailure_iff hok).mpr ⟨.inr hpage, hlock⟩⟩

/-- Two pages are left, one for the kernel stack and one for the user stack,
which takes two. -/
theorem not_cleanFailure_twoPages : ∃ s s' : Kernel, s.Reachable ∧ s.threadLock = false ∧
    s.threadCreate 0 = .ok (s', -1) ∧ s'.threadLock = true ∧ (s.proc 1).state = .unused ∧
    (s'.proc 1).state = .embryo ∧ s'.freelist.length < s.freelist.length ∧
    ¬ s.CleanFailure s' := by
  obtain ⟨s, hr, hlock, hunused, hcall⟩ := exists_reachableBy (fun _ _ => True)
    (P := fun s => s.threadLock = false ∧ (s.proc 1).state = .unused ∧
      (s.threadCreate 0).toOption.any fun a => a.2 = -1 ∧ a.1.threadLock = true ∧
        (a.1.proc 1).state = .embryo ∧ a.1.freelist.length < s.freelist.length)
    (List.range' 1 137) (fun _ => false) smallProgram [.call 0 (.sbrk 266240)]
    (fun _ _ _ => trivial) (by decide +kernel)
  obtain ⟨⟨s', r⟩, hok, rfl, hheld, hembryo, hpages⟩ := exists_eq_ok hcall
  refine ⟨s, s', hr, hlock, hok, hheld, hunused, hembryo, hpages, fun h => ?_⟩
  rw [h.lock] at hheld
  contradiction

end Kernel
end Xv6
