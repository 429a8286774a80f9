import Xv6.Stride.Account
import Xv6.Stride.Pass

/-!
# Xv6.Stride.Group

`exit()` of a process whose threads are in the stride queue.

`common_exit` calls `stride_queue_delete(p)` for every thread `p` and for the
caller, but its body names the running process: the first call takes the caller
out of the queue, the second does not find it.
-/

namespace Xv6

open Lib Function

variable {junk : Bool} {k k' : Kernel} {q : Nat → Option Slot} {p : Slot}

namespace PTable

variable {t t' : PTable} {c : Slot} {i : Nat}

/-! ## A process in no place of the queue -/

/-- `c` stands in no place of the array. -/
def Absent (q : Nat → Option Slot) (c : Slot) : Prop := ∀ i, q i ≠ some c

theorem Absent.update (h : Absent q c) {x : Option Slot} (hx : x ≠ some c)
    (i : Nat) : Absent (Function.update q i x) c := by
  intro j
  by_cases hj : j = i
  · rw [hj, Function.update_self]
    exact hx
  · rw [Function.update_of_ne hj]
    exact h j

theorem Absent.heapifyUpLoop (h : Absent q c) (fuel i : Nat) :
    Absent (heapifyUpLoop fuel q i).1 c := by
  induction fuel generalizing q i with
  | zero => exact h
  | succ fuel ih =>
    unfold PTable.heapifyUpLoop
    split
    · split
      · exact ih (h.update (h (i / 2)) i) (i / 2)
      · exact h
    · exact h

theorem Absent.heapifyDownLoop (h : Absent q c) (t : PTable) {p : Option Slot} {fuel i : Nat}
    {r : (Nat → Option Slot) × Nat} (hr : heapifyDownLoop t p fuel q i = .ok r) : Absent r.1 c := by
  induction fuel generalizing q i with
  | zero =>
    cases hr
    exact h
  | succ fuel ih =>
    rcases heapifyDownLoop_cases hr with ⟨rfl, -⟩ | ⟨j, x, hto, hrest⟩
    · exact h
    have hnew := h.update (hto.entry ▸ h j) i
    rcases hrest with hrest | ⟨-, -, rfl⟩
    · exact ih hnew hrest
    · exact hnew

theorem Absent.heapifyRemoved (h : Absent t.strideQueue c)
    (ht : t.heapifyRemoved i junk = .ok t') : Absent t'.strideQueue c := by
  obtain ⟨up, -, ht⟩ := bind_eq_ok.mp ht
  split at ht
  · cases ht
    exact h
  split at ht
  · obtain ⟨r, hr, ht⟩ := bind_eq_ok.mp ht
    cases ht
    exact (h.heapifyDownLoop t hr).update (h i) r.2
  · cases ht
    exact (h.heapifyUpLoop _ i).update (h i) _

/-- A process that stands in one place is in no place after its deletion. -/
theorem absent_of_delete (honce : ∃! i, t.strideQueue i = some c)
    (h : t.strideQueueDelete c p junk = .ok t') : Absent t'.strideQueue c := by
  obtain ⟨k, hk, honly⟩ := honce
  unfold strideQueueDelete at h
  simp only at h
  split at h
  · contradiction
  next i hi =>
  split at h
  · contradiction
  have hik : i = k := honly i (strideIndexOf_some hi).2
  refine Absent.heapifyRemoved (fun j => ?_) h
  simp only [strideQueueRemove]
  by_cases hlast : j = t.strideQueueSize.toNat
  · rw [hlast, update_self]
    simp
  rw [update_of_ne hlast]
  by_cases hj : j = i
  · rw [hj, update_self]
    intro heq
    exact hlast (by rw [hj, hik, ← honly _ heq])
  · rw [update_of_ne hj]
    intro heq
    exact hj ((honly j heq).trans hik.symm)

theorem delete_of_absent (h : Absent t.strideQueue c) :
    t.strideQueueDelete c p junk = .error .exitNotInStride := by
  have hnone : strideIndexOf { t with sumCpuShare := t.sumCpuShare - (t.proc c).cpuShare }
      c NPROC 1 = none := by
    cases hi : strideIndexOf { t with sumCpuShare := t.sumCpuShare - (t.proc c).cpuShare }
      c NPROC 1 with
    | none => rfl
    | some i => exact absurd (strideIndexOf_some hi).2 (h i)
  unfold strideQueueDelete
  simp only [hnone]

/-- Deletion takes the share of the running process from the sum. -/
theorem delete_sum (h : t.strideQueueDelete c p junk = .ok t') :
    t'.sumCpuShare = t.sumCpuShare - (t.proc c).cpuShare := by
  unfold strideQueueDelete at h
  simp only at h
  split at h
  · contradiction
  split at h
  · contradiction
  · obtain ⟨q, rfl⟩ := heapifyRemoved_eq h
    rfl

end PTable

namespace Kernel

variable {s s' : Kernel} {c : Slot}

/-! ## The caller through its exit -/

/-- What the queue knows of the caller `c` inside `exit()`, which started in
`s`: it is still in its place, or it has been deleted once. -/
structure Leaving (c : Slot) (s k : Kernel) : Prop where
  share : (k.proc c).cpuShare = (s.proc c).cpuShare
  queue : (k.Active c ∧ (∃! i, k.ptable.strideQueue i = some c) ∧
      k.ptable.sumCpuShare = s.ptable.sumCpuShare) ∨
    (PTable.Absent k.ptable.strideQueue c ∧
      k.ptable.sumCpuShare = s.ptable.sumCpuShare - (s.proc c).cpuShare)

section

variable (h : Leaving c s k)
include h

/-- Steps that leave the queue alone and do not end `c`. -/
theorem Leaving.of_rest (hlane : (k'.proc c).lane = (k.proc c).lane)
    (hrest : k'.ptable = { k.ptable with proc := k'.ptable.proc }) : Leaving c s k' := by
  have hactive : k'.Active c ↔ k.Active c := by
    rw [Active, Active, show (k'.proc c).state.settled = _ from congrArg Lane.state hlane]
    rfl
  refine ⟨(congrArg Lane.cpuShare hlane).trans h.share, ?_⟩
  rw [hrest, hactive]
  exact h.queue

/-- The caller is deleted only while it is in the queue, and takes its share
along. -/
theorem Leaving.leaveStride (hshare : (k.proc p).cpuShare ≠ 0) (hl : k.leaveStride c p = .ok k') :
    PTable.Absent k'.ptable.strideQueue c ∧
      k'.ptable.sumCpuShare = s.ptable.sumCpuShare - (s.proc c).cpuShare := by
  unfold Kernel.leaveStride at hl
  rw [if_pos hshare] at hl
  obtain ⟨-, -, hl⟩ := bind_eq_ok.mp hl
  obtain ⟨t, ht, hl⟩ := bind_eq_ok.mp hl
  cases hl
  rcases h.queue with ⟨-, honce, hsum⟩ | ⟨habsent, -⟩
  · refine ⟨PTable.absent_of_delete honce ht, ?_⟩
    rw [PTable.delete_sum ht, hsum]
    exact congrArg (s.ptable.sumCpuShare - ·) h.share
  · rw [PTable.delete_of_absent habsent] at ht
    contradiction

theorem Leaving.leaves (hc : (s.proc c).cpuShare ≠ 0) (hl : Leaves k c p k') : Leaving c s k' := by
  have hshare : (k'.proc c).cpuShare = (s.proc c).cpuShare :=
    (hl.kept c).cpuShare.trans h.share
  have hof : p ≠ c → (k'.proc c).lane = (k.proc c).lane := fun hp => hl.of_ne hp.symm
  obtain ⟨k1, k2, h1, h2, h3⟩ := hl
  have hk1 := h.of_rest (h1.entry c) h1.rest
  by_cases hp : (k1.proc p).cpuShare = 0
  · -- nobody is deleted, and `p` is not the caller
    have hne : p ≠ c := by
      rintro rfl
      exact hc (hk1.share.symm.trans hp)
    unfold Kernel.leaveStride at h2
    rw [if_neg (not_not.mpr hp)] at h2
    cases h2
    exact hk1.of_rest (h3.other c hne.symm) h3.rest
  · obtain ⟨habsent, hsum⟩ := hk1.leaveStride hp h2
    refine ⟨hshare, .inr ?_⟩
    rw [h3.rest]
    exact ⟨habsent, hsum⟩

theorem Leaving.step {m : Option Slot}
    (hc : (s.proc c).cpuShare ≠ 0) (hstep : ExitStep c m k k') : Leaving c s k' := by
  cases hstep with
  | same hs => exact h.of_rest (hs.entry c) hs.rest
  | leaves _ hl => exact h.leaves hc hl
  | clears hp _ _ hat => exact h.of_rest (hat.other c hp.symm) hat.rest
  | unused hz hat =>
    refine ⟨(congrArg Lane.cpuShare hat.same).trans h.share, ?_⟩
    rw [hat.rest]
    refine .inr (h.queue.resolve_left fun hin => ?_)
    exact not_active_of_zombie hz hin.1

theorem Leaving.steps {m : Option Slot} (hc : (s.proc c).cpuShare ≠ 0)
    (hs : Relation.ReflTransGen (ExitStep c m) k k') : Leaving c s k' := by
  induction hs with
  | refl => exact h
  | tail _ hstep ih => exact ih.step hc hstep

end

theorem not_active_of_exit (h : s.exit c = .ok s') : ¬ s'.Active c := by
  obtain ⟨-, ⟨-, hself⟩ | ⟨-, s1, -, hself⟩ | ⟨-, m, s1, s2, s3, s4, -, -, -, -, -, rfl⟩⟩ :=
    exit_cases h
  · exact not_active_of_zombie (leaves_commonExit hself).zombie
  · exact not_active_of_zombie (leaves_commonExit hself).zombie
  · rw [Active, upd_proc_same]
    exact ProcState.noConfusion

/-- **Whatever the group**, an `exit()` that returns has taken the share of the
caller from the sum, once. -/
theorem exit_sum (hc : s.Active c) (hshare : (s.proc c).cpuShare ≠ 0)
    (honce : ∃! i, s.ptable.strideQueue i = some c) (h : s.exit c = .ok s') :
    s'.ptable.sumCpuShare = s.ptable.sumCpuShare - (s.proc c).cpuShare := by
  have hstart : Leaving c s s := ⟨rfl, .inl ⟨hc, honce, rfl⟩⟩
  rcases (hstart.steps hshare (exitSteps_of_exit h)).queue with ⟨hactive, -⟩ | ⟨-, hsum⟩
  · exact absurd hactive (not_active_of_exit h)
  · exact hsum

/-! ## What the shares are -/

/-- Every share that has been granted is one that `set_cpu_share` allows. -/
def SharesFit (s : Kernel) : Prop :=
  ∀ p, (s.proc p).cpuShare = 0 ∨ ShareInRange (s.proc p).cpuShare

theorem SharesFit.of_kept {s s' : Kernel} (h : s.SharesFit)
    (hk : ∀ p, (s.proc p).lane.KeptOrDropped (s'.proc p).lane) : s'.SharesFit := by
  intro p
  rcases hk p with hkept | hdrop
  · rw [show (s'.proc p).cpuShare = (s.proc p).cpuShare from hkept.cpuShare]
    exact h p
  · exact .inl hdrop.fresh.cpuShare

theorem SharesFit.freshAt {s s' : Kernel} {np : Slot} (h : s.SharesFit)
    (hf : FreshAt s np s') : s'.SharesFit := by
  obtain ⟨e, he, hat⟩ := hf
  intro p
  by_cases hp : p = np
  · subst hp
    exact .inl ((congrArg Lane.cpuShare hat.same).trans he.cpuShare)
  · rw [show (s'.proc p).cpuShare = (s.proc p).cpuShare from
      congrArg Lane.cpuShare (hat.other p hp)]
    exact h p

theorem SharesFit.grants {s s' : Kernel} {c : Slot} (h : s.SharesFit)
    (hs : Relation.ReflTransGen (GrantStep c) s s') : s'.SharesFit := by
  induction hs with
  | refl => exact h
  | @tail k _ _ hstep ih =>
    cases hstep with
    | @grant p required original _ hrange _ _ =>
      intro q
      by_cases hq : q = p
      · subst hq
        rw [grant_proc_same]
        exact .inr hrange
      · rw [grant_proc_of_ne k required original hq]
        exact ih q

theorem SharesFit.divide {s s1 s' : Kernel} {c np : Slot} (h : s.SharesFit)
    (hnp : FreshAt s np s1) (hs : s1.shareWithThread c np = .ok s') : s'.SharesFit := by
  rcases divide_cases hnp hs with hfresh | ⟨hother, hnew, -⟩
  · exact h.freshAt hfresh
  intro p
  by_cases hp : p = np
  · subst hp
    exact .inr hnew
  rcases hother p hp with hlane | ⟨hrange, -⟩
  · rw [show (s'.proc p).cpuShare = (s.proc p).cpuShare from congrArg Lane.cpuShare hlane]
    exact h p
  · exact .inr hrange

/-- **An event** grants only allowed shares. -/
theorem SharesFit.event {s s' : Kernel} {e : Event} (h : s.SharesFit) (hs : s.next e = some s') :
    s'.SharesFit := by
  cases laneStep_of_next hs with
  | quiet _ hq => exact h.of_kept fun p => .inl (hq.kept p)
  | alloc _ hf => exact h.freshAt hf
  | divide _ hf hshare => exact h.divide hf.fresh hshare
  | setCpuShare hset => exact h.grants (grants_of_setCpuShare hset)
  | threadExit hl => exact h.of_kept fun p => .inl (hl.kept p)
  | collect _ _ hk hat => exact h.of_kept (hat.keptOrDropped hk)
  | exit hx => exact h.of_kept (keptOrDropped_of_exit hx)

/-! ## The group of the caller -/

/-- Every thread of the process of `c` is a member of the stride queue: it has
a share, and stands in one place of the array. -/
def GroupQueued (s : Kernel) (c : Slot) : Prop :=
  ∀ p, (s.proc p).pid = (s.proc c).pid → (s.proc p).state ≠ .unused →
    (s.proc p).cpuShare ≠ 0 ∧ s.ptable.InQueue p ∧ ∃! i, s.ptable.strideQueue i = some p

/-- The entries of the process of `c`. -/
def members (s : Kernel) (c : Slot) : Finset Slot :=
  Finset.univ.filter fun p => (s.proc p).pid = (s.proc c).pid ∧ (s.proc p).state ≠ .unused

/-- The process of `c` has left the stride queue between `s` and `s'`, with its
shares, and nobody else has. -/
structure LeftGroup (s : Kernel) (c : Slot) (s' : Kernel) : Prop where
  gone : ∀ p ∈ s.members c, ¬ s'.ptable.InQueue p
  kept : ∀ p, p ∉ s.members c → s.ptable.InQueue p →
    ∃! i : Nat, (1 ≤ i ∧ (i : Int) ≤ s'.ptable.strideQueueSize) ∧ s'.ptable.strideQueue i = some p
  sum : s'.ptable.sumCpuShare.toInt =
    s.ptable.sumCpuShare.toInt - ∑ p ∈ s.members c, (s.proc p).cpuShare.toInt

/-- `exit()` by `c` returns, and the process of `c` has left the stride queue. -/
def ExitsClean (s : Kernel) (c : Slot) : Prop := ∃ s', s.exit c = .ok s' ∧ LeftGroup s c s'

/-- The shares of the other threads do not vanish in the sum. -/
theorem SharesFit.sum_ne (h : s.SharesFit) {G : Finset Slot} (hG : G.Nonempty)
    (hshare : ∀ p ∈ G, (s.proc p).cpuShare ≠ 0) :
    0 < ∑ p ∈ G, (s.proc p).cpuShare.toInt ∧ ∑ p ∈ G, (s.proc p).cpuShare.toInt ≤ 64 * 800 := by
  have hrange : ∀ p ∈ G, 1 ≤ (s.proc p).cpuShare.toInt ∧ (s.proc p).cpuShare.toInt ≤ 800 := by
    intro p hp
    have hr := ((h p).resolve_left (hshare p hp)).toInt
    omega
  constructor
  · exact Finset.sum_pos (fun p hp => (hrange p hp).1) hG
  · have hcard : G.card ≤ 64 := (Finset.card_le_univ G).trans (by simp)
    have hle := Finset.sum_le_card_nsmul G _ 800 fun p hp => (hrange p hp).2
    rw [nsmul_eq_mul] at hle
    omega

/-- An `exit()` that returns has left the shares of the other threads in the
sum. -/
theorem not_exitsClean (hfit : s.SharesFit) (hc : (s.proc c).state = .running)
    (hq : s.GroupQueued c) (hgroup : (s.members c).Nontrivial) : ¬ s.ExitsClean c := by
  rintro ⟨s', hexit, hleft⟩
  have hmember : ∀ p ∈ s.members c, (s.proc p).cpuShare ≠ 0 := by
    intro p hp
    obtain ⟨hpid, hused⟩ := (Finset.mem_filter.mp hp).2
    exact (hq p hpid hused).1
  have hmine : c ∈ s.members c := by simp [members, hc]
  obtain ⟨hshare, -, honce⟩ := hq c rfl (by simp [hc])
  have hactive : s.Active c := by
    rw [Active, hc]
    rfl
  have hsum := exit_sum hactive hshare honce hexit
  have hrest : ((s.members c).erase c).Nonempty := by
    obtain ⟨p, hp, hpc⟩ := hgroup.exists_ne c
    exact ⟨p, Finset.mem_erase.mpr ⟨hpc, hp⟩⟩
  obtain ⟨hpos, hle⟩ := hfit.sum_ne hrest fun p hp => hmember p (Finset.mem_of_mem_erase hp)
  have hclaim := hleft.sum
  rw [← Finset.add_sum_erase _ _ hmine, hsum, Int32.toInt_sub, Int.bmod_def] at hclaim
  omega

end Kernel

namespace Machine

open Kernel

/-! ## Every run -/

/-- A selection charges pass values, never shares. -/
theorem cpuShare_search {t t' : PTable} {k : Nat}
    (h : t.findLoop (t.strideQueueSize.toNat + 1) 1 = .ok (t', k)) (p : Slot) :
    (t'.proc p).cpuShare = (t.proc p).cpuShare := by
  rcases PTable.search_cases h with ⟨-, rfl⟩ | ⟨r, i, -, -, -, hsift⟩
  · rfl
  obtain ⟨q, rfl⟩ := PTable.strideQueueHeapifyDown_eq hsift
  by_cases hp : p = r
  · subst hp
    simp [PTable.charge]
  · simp [PTable.charge, PTable.setProc_proc_of_ne _ _ hp]

theorem cpuShare_turn {m m' : Machine} (h : TurnStep m m') (p : Slot) :
    (m'.kernel.proc p).cpuShare = (m.kernel.proc p).cpuShare := by
  cases h with
  | idle _ hk => rw [hk]
  | reset _ _ hk =>
    rw [hk]
    rfl
  | search _ ht hk =>
    rw [hk]
    exact cpuShare_search ht p
  | @run t _ _ q _ ht _ _ hk =>
    rw [hk]
    refine Eq.trans ?_ (cpuShare_search ht p)
    by_cases hp : p = q
    · subst hp
      rw [upd_proc_same]
      rfl
    · rw [upd_proc_of_ne _ _ hp]
      rfl

theorem sharesFit_of_reachable {m : Machine} (h : m.ReachableBy fun _ _ => True) :
    m.kernel.SharesFit := by
  refine h.inv (fun m => m.kernel.SharesFit)
    (fun m hs p => .inl (started_fresh hs.1 p).cpuShare) fun m mv m' hm _ hn => ?_
  cases mv with
  | event e =>
    obtain ⟨k, hk, rfl⟩ := Option.map_eq_some_iff.mp hn
    exact hm.event hk
  | turn =>
    intro p
    rw [cpuShare_turn (turnStep_of_turn (eq_ok_of_toOption hn)) p]
    exact hm p

/-- **No group leaves the stride queue**: in no reachable state does `exit()`
of a process with threads, all of them members of the stride queue, return
with the threads gone from the queue and their shares from the sum. -/
theorem not_exitsClean_of_group {m : Machine} (h : m.ReachableBy fun _ _ => True) {c : Slot}
    (hc : (m.kernel.proc c).state = .running) (hq : m.kernel.GroupQueued c)
    (hgroup : (m.kernel.members c).Nontrivial) : ¬ m.kernel.ExitsClean c :=
  not_exitsClean (sharesFit_of_reachable h) hc hq hgroup

/-! ## A process with one thread -/

/-- In a queue that holds everybody once, a member stands in one place. -/
theorem existsUnique_of_queued {t : PTable} {n : Nat} (h : t.Queued n) (h0 : t.strideQueue 0 = none)
    (hp : t.InQueue p) : ∃! i, t.strideQueue i = some p := by
  obtain ⟨i, hi, hpi⟩ := h.inQueue_iff.mp hp
  refine ⟨i, hpi, fun j (hj : t.strideQueue j = some p) => ?_⟩
  have hpos : 1 ≤ j := by
    by_contra hlt
    rw [show j = 0 by omega, h0] at hj
    contradiction
  have hle : j ≤ n := by
    by_contra hgt
    rw [h.ending j (by omega)] at hj
    contradiction
  exact h.distinct ⟨hpos, hle⟩ hi (hj.trans hpi.symm)

/-- A process takes a share of 20 and creates a thread, which gets half of it;
its `exit()` does not find the process in the queue for the second time. -/
theorem exists_group : ∃ m : Machine, m.ReachableBy KeepsAccount ∧
    (m.kernel.proc 1).state = .running ∧ m.kernel.GroupQueued 1 ∧
    (m.kernel.members 1).Nontrivial ∧
    (m.kernel.exit 1).map (fun _ => ()) = .error .exitNotInStride := by
  obtain ⟨k, hk, hrun, hshares, hzero, h1, h2, hexit⟩ := Kernel.exists_reachableBy_guarded
    Kernel.KeepsAccount
    (P := fun k => (k.proc 1).state = .running ∧
      (∀ p : Slot, (k.proc p).pid = (k.proc 1).pid → (k.proc p).state ≠ .unused →
        (k.proc p).cpuShare ≠ 0 ∧ k.ptable.InQueue p) ∧
      k.ptable.strideQueue 0 = none ∧ 1 ∈ k.members 1 ∧ 2 ∈ k.members 1 ∧
      (k.exit 1).map (fun _ => ()) = .error .exitNotInStride)
    (List.range' 1 400) (fun _ => false) smallProgram
    (forked ++ [.call 1 (.setCpuShare 2), .call 1 .threadCreate]) (by decide +kernel)
  have hm : ReachableBy KeepsAccount { kernel := k, queueSelector := -1 } :=
    reachableBy_of_kernel (fun _ _ h => h) hk
  obtain ⟨n, hn⟩ := accounts_of_reachable hm
  refine ⟨_, hm, hrun, fun p hpid hused => ?_, ⟨1, h1, 2, h2, by decide⟩, hexit⟩
  obtain ⟨hshare, hin⟩ := hshares p hpid hused
  exact ⟨hshare, hin, existsUnique_of_queued hn.queued hzero hin⟩

theorem not_exitsClean_oneThread : ∃ m : Machine, m.ReachableBy (fun _ _ => True) ∧
    (m.kernel.proc 1).state = .running ∧ m.kernel.GroupQueued 1 ∧
    (m.kernel.members 1).Nontrivial ∧ ¬ m.kernel.ExitsClean 1 := by
  obtain ⟨m, hm, hrun, hq, hgroup, -⟩ := exists_group
  have hreach : m.ReachableBy fun _ _ => True := hm.mono fun _ _ _ => trivial
  exact ⟨m, hreach, hrun, hq, hgroup, not_exitsClean_of_group hreach hrun hq hgroup⟩

/-- The `exit()` of the process ends in the panic of `stride_queue_delete`. -/
theorem exit_panics_oneThread : ∃ m : Machine, m.ReachableBy (fun _ _ => True) ∧
    (m.kernel.proc 1).state = .running ∧ m.kernel.GroupQueued 1 ∧
    (m.kernel.members 1).Nontrivial ∧
    (m.kernel.exit 1).map (fun _ => ()) = .error .exitNotInStride ∧ ¬ m.kernel.ExitsClean 1 := by
  obtain ⟨m, hm, hrun, hq, hgroup, hexit⟩ := exists_group
  refine ⟨m, hm.mono fun _ _ _ => trivial, hrun, hq, hgroup, hexit, ?_⟩
  rintro ⟨s', hok, -⟩
  rw [hok] at hexit
  contradiction

end Machine
end Xv6
