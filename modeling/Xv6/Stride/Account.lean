import Xv6.Stride.Lane
import Xv6.Stride.Shares
import Xv6.Stride.Turn

/-!
# Xv6.Stride.Account

Share accounting: `sum_cpu_share` against the shares of the processes in the
stride queue, along runs of the kernel with stride selections.

The sum is right as long as a thread creation divides evenly, no thread has ended
when a process changes its share, and a group that exits has no other stride
processes.
-/

namespace Xv6

open Lib Finset Lane

variable {s s' : Kernel} {m : Machine} {n : Nat} {c np p : Slot}

namespace Kernel

/-! ## The property -/

/-- The sum of `cpu_share` over the processes in the stride queue. -/
def queuedShares (s : Kernel) : Int :=
  ∑ p : Slot, if s.ptable.InQueue p then (s.proc p).cpuShare.toInt else 0

/-- `sum_cpu_share` is that sum, and leaves a part for the MLFQ. -/
structure Accounted (s : Kernel) : Prop where
  sum : s.ptable.sumCpuShare.toInt = s.queuedShares
  nonneg : 0 ≤ s.ptable.sumCpuShare
  bound : s.ptable.sumCpuShare ≤ MAX_CPU_SHARE

/-! ## The invariant -/

/-- The share that `p` has in the queue. -/
def activeShare (s : Kernel) (p : Slot) : Int32 := if s.Active p then (s.proc p).cpuShare else 0

/-- The queue holds the active processes with a share, once each, and the sum
is right. -/
structure Accounts (s : Kernel) (n : Nat) : Prop where
  queued : s.ptable.Queued n
  member : ∀ p, s.ptable.InQueue p ↔ s.activeShare p ≠ 0
  range : ∀ p, s.activeShare p ≠ 0 → ShareInRange (s.activeShare p)
  sum : s.ptable.sumCpuShare.toInt = ∑ p : Slot, (s.activeShare p).toInt
  bound : s.ptable.sumCpuShare.toInt ≤ 800

theorem Accounts.share_bounds (h : Accounts s n) (p : Slot) :
    0 ≤ (s.activeShare p).toInt ∧ (s.activeShare p).toInt ≤ 800 := by
  by_cases hp : s.activeShare p = 0
  · rw [hp]
    decide
  · have hr := (h.range p hp).toInt
    omega

theorem Accounts.nonneg (h : Accounts s n) : 0 ≤ s.ptable.sumCpuShare.toInt := by
  rw [h.sum]
  exact sum_nonneg fun p _ => (h.share_bounds p).1

theorem Accounts.accounted (h : Accounts s n) : s.Accounted where
  sum := by
    rw [h.sum, queuedShares]
    refine sum_congr rfl fun p _ => ?_
    by_cases hp : s.ptable.InQueue p
    · have hne := (h.member p).mp hp
      unfold activeShare at hne ⊢
      split at hne
      · next hact => rw [if_pos hp, if_pos hact]
      · exact absurd rfl hne
    · have hzero : s.activeShare p = 0 := not_not.mp fun hne => hp ((h.member p).mpr hne)
      rw [if_neg hp, hzero]
      rfl
  nonneg := Int32.le_iff_toInt_le.mpr h.nonneg
  bound := Int32.le_iff_toInt_le.mpr h.bound

theorem Accounts.congr (h : Accounts s n) (hqueue : s'.ptable.strideQueue = s.ptable.strideQueue)
    (hsize : s'.ptable.strideQueueSize = s.ptable.strideQueueSize)
    (hsum : s'.ptable.sumCpuShare = s.ptable.sumCpuShare)
    (hshare : ∀ p, s'.activeShare p = s.activeShare p) : Accounts s' n := by
  have hr : Rearranged n s.ptable.strideQueue s'.ptable.strideQueue := hqueue ▸ Rearranged.refl n _
  constructor
  case queued => exact h.queued.of_rearranged hsize hr
  case member =>
    intro p
    rw [h.queued.inQueue_rearranged hsize hr p, hshare p]
    exact h.member p
  case range =>
    intro p
    rw [hshare p]
    exact h.range p
  case sum =>
    rw [hsum, h.sum]
    simp only [hshare]
  case bound =>
    rw [hsum]
    exact h.bound

theorem toInt_sumChange {sum a b : Int32} (h0 : 0 ≤ sum.toInt ∧ sum.toInt ≤ 800)
    (ha : 0 ≤ a.toInt ∧ a.toInt ≤ 800) (hb : 0 ≤ b.toInt ∧ b.toInt ≤ 800) :
    (sum - a + b).toInt = sum.toInt - a.toInt + b.toInt := by
  rw [Int32.toInt_add, Int32.toInt_sub,
    Int.bmod_eq_of_le (n := sum.toInt - a.toInt) (by omega) (by omega)]
  exact Int.bmod_eq_of_le (by omega) (by omega)

/-- The share of one process changes, and the queue and the sum with it. -/
theorem Accounts.change {n' : Nat} (h : Accounts s n) (hqueued : s'.ptable.Queued n')
    (hself : s'.ptable.InQueue p ↔ s'.activeShare p ≠ 0)
    (hmem : ∀ q, q ≠ p → (s'.ptable.InQueue q ↔ s.ptable.InQueue q))
    (hother : ∀ q, q ≠ p → s'.activeShare q = s.activeShare q)
    (hrange : s'.activeShare p ≠ 0 → ShareInRange (s'.activeShare p))
    (hsum : s'.ptable.sumCpuShare = s.ptable.sumCpuShare - s.activeShare p + s'.activeShare p)
    (hbound : s'.activeShare p = 0 ∨ s'.ptable.sumCpuShare ≤ MAX_CPU_SHARE) : Accounts s' n' := by
  have hnew : 0 ≤ (s'.activeShare p).toInt ∧ (s'.activeShare p).toInt ≤ 800 := by
    by_cases hp : s'.activeShare p = 0
    · rw [hp]
      decide
    · have hr := (hrange hp).toInt
      omega
  have hexact := toInt_sumChange ⟨h.nonneg, h.bound⟩ (h.share_bounds p) hnew
  rw [← hsum] at hexact
  constructor
  case queued => exact hqueued
  case member =>
    intro q
    by_cases hq : q = p
    · exact hq ▸ hself
    · rw [hmem q hq, hother q hq]
      exact h.member q
  case range =>
    intro q
    by_cases hq : q = p
    · exact hq ▸ hrange
    · rw [hother q hq]
      exact h.range q
  case sum =>
    rw [hexact, h.sum, ← add_sum_erase _ _ (mem_univ p),
      ← add_sum_erase _ (fun q => (s'.activeShare q).toInt) (mem_univ p)]
    have hrest : ∑ q ∈ univ.erase p, (s'.activeShare q).toInt =
        ∑ q ∈ univ.erase p, (s.activeShare q).toInt :=
      sum_congr rfl fun q hq => by rw [hother q (ne_of_mem_erase hq)]
    rw [hrest]
    ring
  case bound =>
    rcases hbound with hzero | hbound
    · have hz : (s'.activeShare p).toInt = 0 := congrArg Int32.toInt hzero
      have h1 := h.bound
      have h2 := (h.share_bounds p).1
      omega
    · exact Int32.le_iff_toInt_le.mp hbound

/-! ## Steps without shares -/

theorem activeShare_congr (h : (s'.proc p).lane = (s.proc p).lane) :
    s'.activeShare p = s.activeShare p := by
  have hst : (s'.proc p).state.settled = (s.proc p).state.settled := congrArg state h
  have hact : s'.Active p ↔ s.Active p := by rw [Active, Active, hst]
  exact if_congr hact (congrArg cpuShare h) rfl

theorem activeShare_of_not_active (h : ¬ s.Active p) : s.activeShare p = 0 :=
  if_neg h

theorem not_active_of_zombie (h : (s.proc p).state = .zombie) : ¬ s.Active p := by
  rw [Active, h]
  decide

theorem activeShare_of_cpuShare (h : (s.proc p).cpuShare = 0) : s.activeShare p = 0 := by
  unfold activeShare
  split
  · exact h
  · rfl

theorem Accounts.same (h : Accounts s n) (hs : SameLanes s s') : Accounts s' n :=
  h.congr (by rw [hs.rest]) (by rw [hs.rest]) (by rw [hs.rest])
    fun p => activeShare_congr (hs.entry p)

/-- An entry that has no share in the queue before and after. -/
theorem Accounts.laneAt {e : Lane} (h : Accounts s n) (hat : LaneAt s p e s')
    (hp : s.activeShare p = 0) (he : e.state ≠ .runnable ∨ e.cpuShare = 0) : Accounts s' n := by
  refine h.congr (by rw [hat.rest]) (by rw [hat.rest]) (by rw [hat.rest]) fun q => ?_
  by_cases hq : q = p
  · subst hq
    rw [hp]
    rcases he with he | he
    · exact activeShare_of_not_active fun hact => he ((congrArg state hat.same).symm.trans hact)
    · exact activeShare_of_cpuShare ((congrArg cpuShare hat.same).trans he)
  · exact activeShare_congr (hat.other q hq)

/-! ## Leaving -/

/-- `c` is not the last of three or more members when it leaves, or the flag
that `stride_queue_delete` leaves uninitialised happens to say down. -/
def LeavesWell (s : Kernel) (c : Slot) : Prop :=
  (s.proc c).cpuShare ≠ 0 → 3 ≤ s.ptable.strideQueueSize →
    s.ptable.strideQueue s.ptable.strideQueueSize.toNat = some c → s.junk 0 = true

instance (s : Kernel) (c : Slot) : Decidable (s.LeavesWell c) :=
  inferInstanceAs (Decidable (_ → _))

/-- A process that leaves on its own account takes its share along. -/
theorem Accounts.leaves (h : Accounts s n)
    (hwell : s.LeavesWell c) (hshare : (s.proc c).cpuShare ≠ 0) (hl : Leaves s c c s') :
    ∃ n', Accounts s' n' ∧ ¬ s'.ptable.InQueue c := by
  obtain ⟨s1, s2, h1, h2, h3⟩ := hl
  have hs1 := h.same h1
  have hcpu : (s1.proc c).cpuShare = (s.proc c).cpuShare := congrArg cpuShare (h1.entry c)
  unfold leaveStride at h2
  rw [if_pos (hcpu ▸ hshare)] at h2
  obtain ⟨-, -, h2⟩ := bind_eq_ok.mp h2
  obtain ⟨t, ht, h2⟩ := bind_eq_ok.mp h2
  cases h2
  obtain ⟨hinc, hqueued, hmem, hproc, hsum⟩ := hs1.queued.delete (fun h3' hlast => by
    have hsize := h.queued.size
    have hqueue : s1.ptable.strideQueue = s.ptable.strideQueue := by rw [h1.rest]
    rw [h1.junk]
    refine hwell hshare (by omega) ?_
    rw [hsize, Int.toNat_natCast, ← hqueue, hlast]) ht
  have htable : s'.ptable.strideQueue = t.strideQueue ∧
      s'.ptable.strideQueueSize = t.strideQueueSize ∧ s'.ptable.sumCpuShare = t.sumCpuShare := by
    rw [h3.rest]
    exact ⟨rfl, rfl, rfl⟩
  have hin : ∀ q, s'.ptable.InQueue q ↔ t.InQueue q := by
    intro q
    unfold PTable.InQueue
    rw [htable.1, htable.2.1]
  have hzero : s'.activeShare c = 0 := activeShare_of_not_active fun hact => by
    have hz : (s'.proc c).state.settled = .zombie := congrArg state h3.same
    rw [Active, hz] at hact
    contradiction
  have hout : ¬ s'.ptable.InQueue c := by
    rw [hin, hmem]
    simp
  -- a process in the queue is active
  have heff : s1.activeShare c = (s1.proc c).cpuShare := by
    have hne := (hs1.member c).mp hinc
    unfold activeShare at hne ⊢
    split at hne
    · next hact => rw [if_pos hact]
    · exact absurd rfl hne
  refine ⟨n - 1, hs1.change (p := c) ?_ ?_ ?_ ?_ ?_ ?_ ?_, hout⟩
  · exact hqueued.of_rearranged htable.2.1 (htable.1 ▸ Rearranged.refl _ _)
  · rw [hzero]
    simpa using hout
  · intro q hq
    rw [hin, hmem]
    simp [hq]
  · intro q hq
    have hq1 : (({ s1 with ptable := t, junk := fun n => s1.junk (n + 1) } : Kernel).proc q).lane =
        (s1.proc q).lane := congrArg (fun f => (f q).lane) hproc
    exact activeShare_congr ((h3.other q hq).trans hq1)
  · exact fun hne => absurd hzero hne
  · rw [htable.2.2, hsum, hzero, heff]
    exact (Int32.add_zero _).symm
  · exact .inl hzero

/-- A process without a share leaves the account alone. -/
theorem Accounts.leave (h : Accounts s n)
    (hwell : s.LeavesWell c) (hl : Leaves s c c s') : ∃ n', Accounts s' n' := by
  by_cases hshare : (s.proc c).cpuShare = 0
  · exact ⟨n, h.laneAt (hl.laneAt hshare) (activeShare_of_cpuShare hshare)
      (.inl (by simp [withState]))⟩
  · obtain ⟨n', h', -⟩ := h.leaves hwell hshare hl
    exact ⟨n', h'⟩

/-- The condition on a process that leaves looks at its share, the queue and
the next uninitialised value. -/
theorem LeavesWell.congr (h : s.LeavesWell c) (hshare : (s'.proc c).cpuShare = (s.proc c).cpuShare)
    (hrest : s'.ptable = { s.ptable with proc := s'.ptable.proc }) (hjunk : s'.junk = s.junk) :
    s'.LeavesWell c := by
  have hqueue : s'.ptable.strideQueue = s.ptable.strideQueue := by rw [hrest]
  have hsize : s'.ptable.strideQueueSize = s.ptable.strideQueueSize := by rw [hrest]
  unfold LeavesWell
  rw [hshare, hqueue, hsize, hjunk]
  exact h

/-- What `exit()` by `c` keeps, if nobody else it ends has a share. -/
structure ExitAccounts (c : Slot) (m : Option Slot) (s : Kernel) : Prop where
  accounts : ∃ n, Accounts s n
  group : ∀ p, p ≠ c → (s.proc p).pid = (s.proc c).pid → (s.proc p).tid ≠ 0 →
    (s.proc p).cpuShare = 0
  master : ∀ p, m = some p → (s.proc p).cpuShare = 0
  well : s.LeavesWell c

variable {m : Option Slot}

theorem ExitAccounts.of_kept (h : ExitAccounts c m s) (hacc : ∃ n, Accounts s' n)
    (hpid : ∀ p, (s'.proc p).pid = (s.proc p).pid) (htid : ∀ p, (s'.proc p).tid = (s.proc p).tid)
    (hshare : ∀ p, (s'.proc p).cpuShare = (s.proc p).cpuShare) (hwell : s'.LeavesWell c) :
    ExitAccounts c m s' where
  accounts := hacc
  group p hp hpids htids := by
    rw [hpid p, hpid c] at hpids
    rw [htid p] at htids
    rw [hshare p]
    exact h.group p hp hpids htids
  master p hp := by
    rw [hshare p]
    exact h.master p hp
  well := hwell

theorem Leaves.fields {cur : Slot} (h : Leaves s cur p s') (q : Slot) :
    (s'.proc q).pid = (s.proc q).pid ∧ (s'.proc q).tid = (s.proc q).tid ∧
      (s'.proc q).cpuShare = (s.proc q).cpuShare := by
  by_cases hq : q = p
  · subst hq
    obtain ⟨s1, s2, -, -, h3⟩ := h
    exact ⟨congrArg pid h3.same, congrArg tid h3.same, congrArg cpuShare h3.same⟩
  · have hlane := h.of_ne hq
    exact ⟨congrArg pid hlane, congrArg tid hlane, congrArg cpuShare hlane⟩

theorem ExitAccounts.step (h : ExitAccounts c m s)
    (hs : ExitStep c m s s') : ExitAccounts c m s' := by
  obtain ⟨n, hacc⟩ := h.accounts
  cases hs with
  | same hs =>
    have hshare : ∀ p, (s'.proc p).cpuShare = (s.proc p).cpuShare := fun p =>
      congrArg cpuShare (hs.entry p)
    exact h.of_kept ⟨n, hacc.same hs⟩ hs.pid hs.tid hshare
      (h.well.congr (hshare c) hs.rest hs.junk)
  | @leaves p _ hp hl =>
    have hkept : (∃ n, Accounts s' n) → s'.LeavesWell c → ExitAccounts c m s' := fun ha hw =>
      h.of_kept ha (fun q => (hl.fields q).1) (fun q => (hl.fields q).2.1)
        (fun q => (hl.fields q).2.2) hw
    by_cases hshare : (s.proc p).cpuShare = 0
    · have hat := hl.laneAt hshare
      refine hkept ⟨n, hacc.laneAt hat (activeShare_of_cpuShare hshare)
        (.inl (by simp [withState]))⟩ ?_
      exact h.well.congr (hl.fields c).2.2 hat.rest hat.junk
    · have hpc : p = c := by
        rcases hp with hp | ⟨hpc, hpid, htid⟩ | hp
        · exact hp
        · exact absurd (h.group p hpc hpid htid) hshare
        · exact absurd (h.master p hp) hshare
      subst hpc
      obtain ⟨n', ha, hout⟩ := hacc.leaves h.well hshare hl
      refine hkept ⟨n', ha⟩ fun _ h3 hlast => ?_
      exact absurd ⟨_, by omega, by omega, hlast⟩ hout
  | @clears p _ hpc hz _ hat =>
    have hc := hat.other c hpc.symm
    refine ⟨⟨n, hacc.laneAt hat (activeShare_of_not_active (not_active_of_zombie hz)) (.inr rfl)⟩,
      fun q hq hpid htid => ?_, fun q hq => ?_, ?_⟩
    · by_cases hqp : q = p
      · subst hqp
        exact congrArg cpuShare hat.same
      have hlane := hat.other q hqp
      have hpid' : (s.proc q).pid = (s.proc c).pid :=
        (congrArg pid hlane).symm.trans (hpid.trans (congrArg pid hc))
      have htid' : (s.proc q).tid ≠ 0 := fun ht =>
        htid ((congrArg tid hlane).trans ht)
      exact (congrArg cpuShare hlane).trans (h.group q hq hpid' htid')
    · by_cases hqp : q = p
      · subst hqp
        exact congrArg cpuShare hat.same
      · exact (congrArg cpuShare (hat.other q hqp)).trans (h.master q hq)
    · exact h.well.congr (congrArg cpuShare hc) hat.rest hat.junk
  | unused hz hat =>
    have hfields : ∀ q, (s'.proc q).pid = (s.proc q).pid ∧ (s'.proc q).tid = (s.proc q).tid ∧
        (s'.proc q).cpuShare = (s.proc q).cpuShare := by
      intro q
      by_cases hq : q = c
      · subst hq
        exact ⟨congrArg pid hat.same, congrArg tid hat.same,
          congrArg cpuShare hat.same⟩
      · have hlane := hat.other q hq
        exact ⟨congrArg pid hlane, congrArg tid hlane, congrArg cpuShare hlane⟩
    exact h.of_kept ⟨n, hacc.laneAt hat (activeShare_of_not_active (not_active_of_zombie hz))
        (.inl (by simp [withState]))⟩ (fun q => (hfields q).1) (fun q => (hfields q).2.1)
      (fun q => (hfields q).2.2) (h.well.congr (hfields c).2.2 hat.rest hat.junk)

theorem ExitAccounts.exit (h : ExitAccounts c m s)
    (hs : Relation.ReflTransGen (ExitStep c m) s s') : ExitAccounts c m s' := by
  induction hs with
  | refl => exact h
  | tail _ hstep ih => exact ih.step hstep

/-! ## Granting -/

theorem active_congr (h : (s'.proc p).state = (s.proc p).state) : s'.Active p ↔ s.Active p := by
  rw [Active, Active, h]

theorem Accounts.grant {required : Int32} (h : Accounts s n) (hp : s.Active p)
    (hrange : ShareInRange required) (hsum : s.sumWith p required ≤ MAX_CPU_SHARE)
    (original : Int32) : ∃ n', Accounts (s.grant p required original) n' := by
  have hsame := grant_proc_same s p required original
  have hactive : (s.grant p required original).Active p := by
    rw [active_congr (s := s) (by rw [hsame])]
    exact hp
  have hself : (s.grant p required original).activeShare p = required := by
    rw [activeShare, if_pos hactive, hsame]
  have hother : ∀ q, q ≠ p →
      (s.grant p required original).activeShare q = s.activeShare q := fun q hq =>
    activeShare_congr (by rw [grant_proc_of_ne s required original hq])
  have hold : s.activeShare p = (s.proc p).cpuShare := if_pos hp
  have htotal : (s.grant p required original).ptable.sumCpuShare =
      s.ptable.sumCpuShare - s.activeShare p +
        (s.grant p required original).activeShare p := by
    rw [hold, hself]
    exact PTable.granted_sumCpuShare _ p required original
  have hrange' : (s.grant p required original).activeShare p ≠ 0 →
      ShareInRange ((s.grant p required original).activeShare p) := by
    rw [hself]
    exact fun _ => hrange
  have hbound : (s.grant p required original).ptable.sumCpuShare ≤ MAX_CPU_SHARE := by
    rw [htotal, hold, hself]
    exact hsum
  have hqueued : PTable.Queued { s.ptable with sumCpuShare := s.sumWith p required } n :=
    h.queued.of_rearranged rfl (Rearranged.refl n _)
  by_cases hnew : (s.proc p).cpuShare = 0
  · -- the first share: `p` enters the queue
    have hout : ¬ s.ptable.InQueue p := fun hin => (h.member p).mp hin (hold.trans hnew)
    obtain ⟨hq, hmem⟩ := hqueued.granted_new required original hnew hout
    refine ⟨n + 1, h.change hq ?_ (fun q hqp => ?_) hother hrange' htotal (.inr hbound)⟩
    · rw [hself]
      exact iff_of_true ((hmem p).mpr (.inr rfl)) hrange.ne_zero
    · exact (hmem q).trans (or_iff_left hqp)
  · obtain ⟨hq, hmem⟩ := hqueued.granted_old required original hnew
    have hin : s.ptable.InQueue p := (h.member p).mpr (hold ▸ hnew)
    refine ⟨n, h.change hq ?_ (fun q _ => hmem q) hother hrange' htotal (.inr hbound)⟩
    rw [hself]
    exact iff_of_true ((hmem p).mpr hin) hrange.ne_zero

/-- The threads that `set_cpu_share` by `c` looks for have not ended. -/
def GroupActive (s : Kernel) (c : Slot) : Prop :=
  ∀ p, (s.proc p).pid = (s.proc c).pid → (s.proc p).tid ≠ 0 → s.Active p

instance (s : Kernel) (c : Slot) : Decidable (s.GroupActive c) :=
  inferInstanceAs (Decidable (∀ _, _ → _ → _))

theorem GroupActive.grant (h : s.GroupActive c) (p : Slot)
    (required original : Int32) : (s.grant p required original).GroupActive c := by
  intro q hpid htid
  obtain ⟨_, _, _, _, hq⟩ := grant_proc s p q required original
  obtain ⟨_, _, _, _, hc⟩ := grant_proc s p c required original
  rw [hq] at htid
  rw [hq, hc] at hpid
  rw [active_congr (s := s) (by rw [hq])]
  exact h q hpid htid

theorem Accounts.grants (hs : Relation.ReflTransGen (GrantStep c) s s') (h : ∃ n, Accounts s n)
    (hc : s.Active c) (hgroup : s.GroupActive c) : ∃ n, Accounts s' n := by
  have hall : (∃ n, Accounts s' n) ∧ s'.Active c ∧ s'.GroupActive c := by
    induction hs with
    | refl => exact ⟨h, hc, hgroup⟩
    | @tail k _ _ hstep ih =>
      obtain ⟨⟨n, hn⟩, hck, hgk⟩ := ih
      cases hstep with
      | @grant p required original hp hrange hsum hroom =>
        have hpact : k.Active p := by
          rcases hp with rfl | ⟨hpid, htid⟩
          · exact hck
          · exact hgk p hpid htid
        refine ⟨hn.grant hpact hrange hsum original, ?_, hgk.grant p required original⟩
        obtain ⟨_, _, _, _, he⟩ := grant_proc k p c required original
        rw [active_congr (s := k) (by rw [he])]
        exact hck
  exact hall.1

/-! ## Dividing -/

/-- The entries of the process that `c` belongs to. -/
def group (s : Kernel) (c : Slot) : Finset Slot :=
  univ.filter fun p => (s.proc p).pid = (s.proc c).pid

/-- A master thread `c` whose share divides evenly among its threads and one
more: they are all active stride processes, their shares add up to the share
that `c` asked for, and the new number of threads divides it. -/
def EvenSplit (s : Kernel) (c : Slot) : Prop :=
  (s.proc c).tid = 0 ∧ (∀ p, (s.proc p).pid = (s.proc c).pid → s.Active p ∧ (s.proc p).cpuShare ≠ 0) ∧
    ∑ p ∈ s.group c, (s.proc p).cpuShare.toInt = (s.proc c).originalCpuShare.toInt ∧
    ((s.group c).card : Int) = (s.proc c).numOfThreads + 1 ∧
    ((s.proc c).numOfThreads + 2) ∣ (s.proc c).originalCpuShare.toInt

instance (s : Kernel) (c : Slot) : Decidable (s.EvenSplit c) :=
  inferInstanceAs (Decidable (_ ∧ _ ∧ _ ∧ _ ∧ _))

/-- Giving all of `G` the same does not change a sum that `G` had as a whole. -/
theorem sum_ite_mem_const {G : Finset Slot} {a : Slot → Int} {y : Int}
    (h : (G.card : Int) * y = ∑ p ∈ G, a p) : ∑ p, (if p ∈ G then y else a p) = ∑ p, a p := by
  rw [sum_ite, filter_mem_eq_inter, univ_inter, sum_const, nsmul_eq_mul,
    h, ← sum_filter_add_sum_filter_not univ (· ∈ G) a, filter_mem_eq_inter,
    univ_inter]

theorem EvenSplit.parts {s1 : Kernel} (h : s.EvenSplit c)
    (ht : NewThread s c np s1) (horig : (s1.proc c).originalCpuShare = (s.proc c).originalCpuShare) :
    ((s.group c).card + 1 : Int) * (s1.dividedShare c).toInt =
      ∑ p ∈ s.group c, (s.proc p).cpuShare.toInt := by
  obtain ⟨hmaster, -, hsum, hcard, hdvd⟩ := h
  have hcount := ht.count hmaster
  have hle : (s.group c).card ≤ 64 := (card_le_univ _).trans_eq (Fintype.card_fin NPROC)
  have hd : (Int32.ofInt ((s1.proc c).numOfThreads + 1)).toInt = (s.proc c).numOfThreads + 2 := by
    rw [Int32.toInt_ofInt_of_le (by omega) (by omega)]
    omega
  have hne : Int32.ofInt ((s1.proc c).numOfThreads + 1) ≠ -1 := by
    intro hneg
    rw [hneg] at hd
    have hd : -1 = (s.proc c).numOfThreads + 2 := hd
    omega
  rw [hsum, hcard, dividedShare, Int32.toInt_div_of_ne_right _ _ hne, hd, horig, add_assoc,
    mul_comm]
  exact Int.tdiv_mul_cancel hdvd

/-- After the division every entry of the group has the same share. -/
theorem divided_entry
    (hs' : s' = slots.foldl (shareThread c (s.dividedShare c)) (s.grantThread c np)) (q : Slot) :
    (s'.Active q ↔ s.Active q) ∧
      ((s.proc q).pid = (s.proc c).pid → (s'.proc q).cpuShare = s.dividedShare c) ∧
      ((s.proc q).pid ≠ (s.proc c).pid → q ≠ np → (s'.proc q).cpuShare = (s.proc q).cpuShare) := by
  have hq := foldl_shareThread c (s.dividedShare c) slots (s.grantThread c np) q
  rw [← hs'] at hq
  obtain ⟨_, _, _, _, hgq⟩ := grantThread_proc s c np q
  obtain ⟨_, _, _, _, hgc⟩ := grantThread_proc s c np c
  have hpid : ((s.grantThread c np).proc q).pid = (s.proc q).pid := by rw [hgq]
  have hpidc : ((s.grantThread c np).proc c).pid = (s.proc c).pid := by rw [hgc]
  rw [hpid, hpidc] at hq
  have hactive : ((s.grantThread c np).proc q).state = (s.proc q).state := by rw [hgq]
  by_cases hg : (s.proc q).pid = (s.proc c).pid
  · rw [if_pos ⟨mem_slots q, hg⟩] at hq
    refine ⟨active_congr (by rw [hq]; exact hactive), fun _ => by rw [hq], fun hne => absurd hg hne⟩
  · rw [if_neg fun h => hg h.2] at hq
    refine ⟨active_congr (by rw [hq]; exact hactive), fun he => absurd he hg, fun _ hne => ?_⟩
    rw [hq, grantThread_proc_of_ne s hne]

theorem Accounts.divided (h : Accounts s n)
    (hrange : ShareInRange (s.dividedShare c)) (hnp : (s.proc np).cpuShare = 0)
    (hmine : (s.proc np).pid = (s.proc c).pid)
    (hgroup : ∀ p, (s.proc p).pid = (s.proc c).pid →
      s.Active p ∧ (p ≠ np → (s.proc p).cpuShare ≠ 0))
    (hparts : ((s.group c).card : Int) * (s.dividedShare c).toInt =
      ∑ p ∈ s.group c, (s.activeShare p).toInt)
    (hs' : s' = slots.foldl (shareThread c (s.dividedShare c)) (s.grantThread c np)) :
    Accounts s' (n + 1) := by
  obtain ⟨pr, hrest⟩ := foldl_shareThread_rest c (s.dividedShare c) slots (s.grantThread c np)
  rw [← hs'] at hrest
  have hout : ¬ s.ptable.InQueue np := fun hin =>
    (h.member np).mp hin (activeShare_of_cpuShare hnp)
  obtain ⟨hqueued, hmem⟩ := h.queued.granted_new (s.dividedShare c) (s.proc c).originalCpuShare
    hnp hout
  have htable : s'.ptable.strideQueue = (s.grantThread c np).ptable.strideQueue ∧
      s'.ptable.strideQueueSize = (s.grantThread c np).ptable.strideQueueSize ∧
      s'.ptable.sumCpuShare = s.ptable.sumCpuShare := by
    rw [hrest]
    exact ⟨rfl, rfl, PTable.granted_sumCpuShare _ np _ _⟩
  have hin : ∀ q, s'.ptable.InQueue q ↔ s.ptable.InQueue q ∨ q = np := by
    intro q
    rw [← hmem q]
    unfold PTable.InQueue
    rw [htable.1, htable.2.1]
    rfl
  have hmember : ∀ q, q ∈ s.group c ↔ (s.proc q).pid = (s.proc c).pid := fun q => by
    rw [group, mem_filter, and_iff_right (mem_univ q)]
  have hshare : ∀ q, s'.activeShare q =
      if q ∈ s.group c then s.dividedShare c else s.activeShare q := by
    intro q
    obtain ⟨hact, hingroup, houtside⟩ := divided_entry hs' q
    by_cases hg : (s.proc q).pid = (s.proc c).pid
    · rw [if_pos ((hmember q).mpr hg), activeShare, if_pos (hact.mpr (hgroup q hg).1), hingroup hg]
    · rw [if_neg fun hq => hg ((hmember q).mp hq)]
      exact if_congr hact (houtside hg fun hq => hg (hq ▸ hmine)) rfl
  constructor
  case queued => exact hqueued.of_rearranged htable.2.1 (htable.1 ▸ Rearranged.refl _ _)
  case member =>
    intro q
    rw [hin q, hshare q]
    by_cases hg : q ∈ s.group c
    · have hq := hgroup q ((hmember q).mp hg)
      rw [if_pos hg]
      refine iff_of_true ?_ hrange.ne_zero
      by_cases hqn : q = np
      · exact .inr hqn
      · refine .inl ((h.member q).mpr ?_)
        rw [activeShare, if_pos hq.1]
        exact hq.2 hqn
    · rw [if_neg hg, h.member q]
      exact or_iff_left fun hqn => hg ((hmember q).mpr (hqn ▸ hmine))
  case range =>
    intro q
    rw [hshare q]
    split
    · exact fun _ => hrange
    · exact h.range q
  case sum =>
    rw [htable.2.2, h.sum]
    have hite : ∀ q, (s'.activeShare q).toInt =
        if q ∈ s.group c then (s.dividedShare c).toInt else (s.activeShare q).toInt := by
      intro q
      rw [hshare q]
      split <;> rfl
    simp only [hite]
    exact (sum_ite_mem_const hparts).symm
  case bound =>
    rw [htable.2.2]
    exact h.bound

theorem Accounts.divide {s1 : Kernel} (h : Accounts s n)
    (hc : s.Active c) (hnew : s.freeSlot = some np) (ht : NewThread s c np s1)
    (heven : (s.proc c).cpuShare = 0 ∨ s.EvenSplit c)
    (hshare : s1.shareWithThread c np = .ok s') : ∃ n', Accounts s' n' := by
  obtain ⟨e, he, hat⟩ := ht.fresh
  have hinactive : ¬ s.Active np := by
    rw [Active, unused_of_freeSlot hnew]
    decide
  have hcn : c ≠ np := fun hcn => hinactive (hcn ▸ hc)
  have hclane := hat.other c hcn
  have h1 : Accounts s1 n :=
    h.laneAt hat (activeShare_of_not_active hinactive) (.inr he.cpuShare)
  rcases shareWithThread_eq hshare with ⟨-, rfl⟩ | ⟨hcs, hrange, -, hs'⟩
  · exact ⟨n, h1⟩
  have heven : s.EvenSplit c := heven.resolve_left fun hz =>
    hcs ((congrArg cpuShare hclane).trans hz)
  have hparts := heven.parts ht (congrArg originalCpuShare hclane)
  have hnpshare : (s1.proc np).cpuShare = 0 := (congrArg cpuShare hat.same).trans he.cpuShare
  have hcpid : (s1.proc c).pid = (s.proc c).pid := congrArg pid hclane
  have hmine : (s1.proc np).pid = (s1.proc c).pid := ht.pid.trans hcpid.symm
  have hpids : ∀ q, q ≠ np → ((s1.proc q).pid = (s1.proc c).pid ↔
      (s.proc q).pid = (s.proc c).pid) := by
    intro q hq
    rw [hcpid, show (s1.proc q).pid = (s.proc q).pid from congrArg pid (hat.other q hq)]
  -- the group with its new thread
  have hnotin : np ∉ s.group c := fun hin =>
    hinactive (heven.2.1 np (mem_filter.mp hin).2).1
  have hgroup : s1.group c = insert np (s.group c) := by
    ext q
    rw [mem_insert, group, group, mem_filter, mem_filter]
    by_cases hq : q = np
    · subst hq
      simp [hmine]
    · simp [hq, hpids q hq]
  refine ⟨n + 1, h1.divided hrange hnpshare hmine (fun p hp => ?_) ?_ hs'⟩
  · by_cases hpn : p = np
    · subst hpn
      refine ⟨?_, fun hne => absurd rfl hne⟩
      rw [Active, ht.state]
      rfl
    · obtain ⟨hact, hne⟩ := heven.2.1 p ((hpids p hpn).mp hp)
      have hlane := hat.other p hpn
      exact ⟨(congrArg state hlane).trans hact,
        fun _ hz => hne ((congrArg cpuShare hlane).symm.trans hz)⟩
  · rw [hgroup, card_insert_of_notMem hnotin, sum_insert hnotin,
      activeShare_of_cpuShare hnpshare]
    push_cast
    rw [hparts]
    have hsum : ∑ p ∈ s.group c, (s1.activeShare p).toInt =
        ∑ p ∈ s.group c, (s.proc p).cpuShare.toInt := by
      refine sum_congr rfl fun p hp => ?_
      have hpn : p ≠ np := fun hpn => hnotin (hpn ▸ hp)
      rw [activeShare_congr (hat.other p hpn), activeShare,
        if_pos (heven.2.1 p (mem_filter.mp hp).2).1]
    rw [hsum]
    exact (zero_add _).symm

/-! ## Events -/

/-- The calls that leave the sum right: a thread is created without a share to
divide or with an even split, a share is changed while no thread of the
process is a zombie, a group exits without other stride processes in it, and a
leaving process is not the last of three or more. -/
def KeepsAccount (s : Kernel) : Event → Prop
  | .call c .threadCreate => (s.proc c).cpuShare = 0 ∨ s.EvenSplit c
  | .call c (.setCpuShare _) => s.GroupActive c
  | .call c (.threadExit _) => s.LeavesWell c
  | .call c .exit =>
    (∀ p, p ≠ c → (s.proc p).pid = (s.proc c).pid → (s.proc p).tid ≠ 0 →
      (s.proc p).cpuShare = 0) ∧
    (∀ p, s.exitMaster c = some p → (s.proc p).cpuShare = 0) ∧ s.LeavesWell c
  | _ => True

instance (s : Kernel) : DecidablePred s.KeepsAccount
  | .call c .threadCreate => inferInstanceAs (Decidable (_ ∨ s.EvenSplit c))
  | .call c (.setCpuShare _) => inferInstanceAs (Decidable (s.GroupActive c))
  | .call c (.threadExit _) => inferInstanceAs (Decidable (s.LeavesWell c))
  | .call c .exit => inferInstanceAs (Decidable (_ ∧ _ ∧ s.LeavesWell c))
  | .call _ .fork | .call _ (.exec _) | .call _ (.sbrk _) | .call _ (.threadJoin _)
  | .call _ .wait | .call _ (.kill _) | .dispatch _ | .yield _ | .sleep _ _ | .wakeup _
  | .files _ _ => inferInstanceAs (Decidable True)

theorem active_of_enabled {op : Syscall} (h : s.next (.call c op) = some s') : s.Active c := by
  have hrun : (s.proc c).state = .running := (next_eq_some.mp h).1
  rw [Active, hrun]
  rfl

/-- **An event** that meets the condition keeps the account. -/
theorem Accounts.event {e : Event} (h : Accounts s n)
    (hk : s.KeepsAccount e) (hn : s.next e = some s') : ∃ n', Accounts s' n' := by
  cases laneStep_of_next hn with
  | quiet _ hs => exact ⟨n, h.same hs⟩
  | alloc hnew hf =>
    obtain ⟨l, hl, hat⟩ := hf
    exact ⟨n, h.laneAt hat (activeShare_of_not_active (not_active_of_allocates hnew))
      (.inr hl.cpuShare)⟩
  | divide hnew ht hshare => exact h.divide (active_of_enabled hn) hnew ht hk hshare
  | setCpuShare hset =>
    exact Accounts.grants (grants_of_setCpuShare hset) ⟨n, h⟩ (active_of_enabled hn) hk
  | threadExit hl => exact h.leave hk hl
  | collect _ hz _ hat =>
    exact ⟨n, h.laneAt hat (activeShare_of_not_active (not_active_of_zombie hz)) (.inr rfl)⟩
  | exit hs =>
    have hexit : ExitAccounts _ _ s := ⟨⟨n, h⟩, hk.1, hk.2.1, hk.2.2⟩
    exact (hexit.exit hs).accounts

end Kernel

namespace Machine

open Kernel

/-! ## Turns -/

/-- The search of a selection permutes the queue and charges a member. -/
theorem accounts_search {k : Nat} {t : PTable} (h : Accounts m.kernel n)
    (ht : m.kernel.ptable.findLoop (m.kernel.ptable.strideQueueSize.toNat + 1) 1 = .ok (t, k)) :
    Accounts { m.kernel with ptable := t } n := by
  rcases PTable.search_cases ht with ⟨-, rfl⟩ | ⟨p, i, -, hi, -, hsift⟩
  · exact h
  have hsize := h.queued.size
  have hend : ∀ j, n < j → (m.kernel.ptable.charge p).strideQueue j = none := h.queued.ending
  obtain ⟨q, rfl, hr⟩ := PTable.strideQueueHeapifyDown_rearranged ⟨hi.1, by omega⟩ hend hsift
  have hlane : ∀ x, ((m.kernel.ptable.charge p).proc x).state = (m.kernel.proc x).state ∧
      ((m.kernel.ptable.charge p).proc x).cpuShare = (m.kernel.proc x).cpuShare := by
    intro x
    by_cases hx : x = p
    · subst hx
      simp [PTable.charge, Kernel.proc]
    · simp [PTable.charge, PTable.setProc_proc_of_ne _ _ hx, Kernel.proc]
  have hshare : ∀ x, activeShare
      { m.kernel with ptable := { m.kernel.ptable.charge p with strideQueue := q } } x =
        m.kernel.activeShare x :=
    fun x => if_congr (active_congr (hlane x).1) (hlane x).2 rfl
  have hin : ∀ x, PTable.InQueue { m.kernel.ptable.charge p with strideQueue := q } x ↔ _ :=
    h.queued.inQueue_rearranged rfl hr
  constructor
  case queued => exact h.queued.of_rearranged rfl hr
  case member =>
    intro x
    rw [hshare x, ← h.member x]
    exact hin x
  case range =>
    intro x
    rw [hshare x]
    exact h.range x
  case sum =>
    simp only [hshare]
    exact h.sum
  case bound => exact h.bound

/-- **A turn** keeps the account. -/
theorem accounts_turn {m' : Machine} (h : Accounts m.kernel n) (ht : TurnStep m m') :
    Accounts m'.kernel n := by
  cases ht with
  | idle _ hk => exact hk ▸ h
  | reset _ hsize hk =>
    have hn : n = 0 := by
      have := h.queued.size
      omega
    have hnone : ∀ p, m.kernel.activeShare p = 0 := by
      intro p
      by_contra hp
      obtain ⟨i, hi, -⟩ := h.queued.inQueue_iff.mp ((h.member p).mpr hp)
      omega
    have hsum : m.kernel.ptable.sumCpuShare = 0 := by
      rw [← Int32.toInt_inj, h.sum]
      simp [hnone]
    rw [hk]
    exact h.congr rfl rfl hsum.symm fun _ => rfl
  | search _ hs hk => exact hk ▸ accounts_search h hs
  | @run t k i p _ hs hi hp hk =>
    have hsearch := accounts_search h hs
    have hne := (hsearch.member p).mp ⟨i, hi.1, hi.2, hp⟩
    rw [hk]
    refine hsearch.congr rfl rfl rfl fun q => ?_
    by_cases hq : q = p
    · subst hq
      unfold activeShare at hne
      split at hne
      · next hact =>
        have hrun : Active (Kernel.upd { m.kernel with ptable := t } q fun x =>
            { x with state := .running, timeQuantumUsed := 0 }) q := by
          rw [Active, upd_proc_same]
          rfl
        rw [activeShare, if_pos hrun, upd_proc_same, activeShare, if_pos hact]
      · exact absurd rfl hne
    · exact activeShare_congr (by rw [upd_proc_of_ne _ _ hq])

/-- The moves that leave the sum right. -/
def KeepsAccount (m : Machine) : Move → Prop
  | .event e => m.kernel.KeepsAccount e
  | .turn => True

theorem started_accounts (h : m.Started) : Accounts m.kernel 0 := by
  obtain ⟨hqueue, hsize, hsum⟩ := started_queue h.1
  have hzero : ∀ p, m.kernel.activeShare p = 0 := fun p =>
    activeShare_of_cpuShare (started_fresh h.1 p).cpuShare
  constructor
  case queued =>
    refine ⟨hsize, fun i h1 h2 => by omega, fun i _ => by rw [hqueue], ?_⟩
    intro i hi
    have h1 := hi.1
    have h2 := hi.2
    omega
  case member =>
    intro p
    rw [hzero p]
    refine iff_of_false ?_ (by simp)
    rintro ⟨i, -, -, hp⟩
    rw [hqueue] at hp
    contradiction
  case range => exact fun p hp => absurd (hzero p) hp
  case sum =>
    rw [hsum]
    simp [hzero]
  case bound =>
    rw [hsum]
    decide

theorem accounts_of_reachable (h : ReachableBy KeepsAccount m) : ∃ n, Accounts m.kernel n := by
  refine h.inv (fun m => ∃ n, Accounts m.kernel n) (fun m hs => ⟨0, started_accounts hs⟩) ?_
  rintro m mv m' ⟨n, hn⟩ hk hnext
  cases mv with
  | event e =>
    obtain ⟨k, hkn, rfl⟩ := Option.map_eq_some_iff.mp hnext
    exact hn.event hk hkn
  | turn => exact ⟨n, accounts_turn hn (turnStep_of_turn (eq_ok_of_toOption hnext))⟩

/-- **Share accounting**: in every state reached by moves that meet the
condition, `sum_cpu_share` is the sum of the shares in the stride queue and
between 0 and `MAX_CPU_SHARE`. -/
theorem accounted_of_keepsAccount {m : Machine} (h : ReachableBy KeepsAccount m) :
    m.kernel.Accounted := by
  obtain ⟨n, hn⟩ := accounts_of_reachable h
  exact hn.accounted

/-- Init takes a share of 20 and creates a thread, which gets half of it. -/
theorem exists_keepsAccount :
    ∃ m, ReachableBy KeepsAccount m ∧ m.kernel.ptable.strideQueueSize = 2 ∧
      (m.kernel.proc 1).cpuShare = 10 := by
  obtain ⟨k, hk, hP⟩ := Kernel.exists_reachableBy_guarded Kernel.KeepsAccount
    (P := fun k => k.ptable.strideQueueSize = 2 ∧ (k.proc 1).cpuShare = 10)
    (List.range' 1 400) (fun _ => false) smallProgram
    [.call 0 (.setCpuShare 2), .call 0 .threadCreate] (by decide +kernel)
  exact ⟨_, reachableBy_of_kernel (fun _ _ h => h) hk, hP⟩

theorem accounted_evenSplit : ∃ m : Machine, ReachableBy KeepsAccount m ∧
    m.kernel.ptable.strideQueueSize = 2 ∧ m.kernel.Accounted := by
  obtain ⟨m, hm, hsize, -⟩ := exists_keepsAccount
  exact ⟨m, hm, hsize, accounted_of_keepsAccount hm⟩

/-- Init takes a share of 10 and creates two threads: each of the three has a
share of 3, and the sum is still 10. -/
theorem not_accounted_unevenSplit :
    ∃ m : Machine, ReachableBy (fun _ _ => True) m ∧ ¬ m.kernel.Accounted := by
  obtain ⟨k, hk, hsum, hshares⟩ := Kernel.exists_reachableBy (fun _ _ => True)
    (P := fun k => k.ptable.sumCpuShare = 10 ∧ k.queuedShares = 9)
    (List.range' 1 400) (fun _ => false) smallProgram
    [.call 0 (.setCpuShare 1), .call 0 .threadCreate, .call 0 .threadCreate]
    (fun _ _ _ => trivial) (by decide +kernel)
  refine ⟨_, reachableBy_of_kernel (fun _ _ h => h) hk, fun hacc => ?_⟩
  have heq := hacc.sum
  rw [hsum, hshares] at heq
  contradiction

end Machine
end Xv6
