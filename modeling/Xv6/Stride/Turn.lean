import Xv6.Scheduler
import Xv6.Stride.Queue

/-!
# Xv6.Stride.Turn

What a turn of the loop of `scheduler()` in which it chooses a queue does to
the table: whom it charges, and whom it switches to.
-/

namespace Xv6

open Lib

namespace PTable

/-! ## Whom a selection charges -/

theorem deref_eq_ok {a : Option Slot} {p : Slot} : deref a = .ok p ↔ a = some p := by
  cases a with
  | none => simp [deref]
  | some q => simp [deref]

variable {t t' : PTable} {i k : Nat}

/-- The search of `find_idx_of_stride_to_run` ends at a `RUNNABLE` process,
which is charged and sifted down, or outside the queue. -/
theorem findLoop_eq_ok {fuel : Nat} (hi : 1 ≤ i)
    (hfuel : t.strideQueueSize.toNat + 2 ≤ fuel + i) (h : t.findLoop fuel i = .ok (t', k)) :
    (1 ≤ k ∧ (k : Int) ≤ t.strideQueueSize ∧ ∃ p, t.strideQueue k = some p ∧
        (t.proc p).state = .runnable ∧ (t.charge p).strideQueueHeapifyDown k = .ok t') ∨
      t.strideQueueSize < k ∧ t' = t := by
  induction fuel generalizing i with
  | zero =>
    cases h
    exact .inr ⟨by omega, rfl⟩
  | succ fuel ih =>
    unfold findLoop at h
    split at h
    · next hsize =>
      obtain ⟨p, hp, h⟩ := bind_eq_ok.mp h
      have hp := deref_eq_ok.mp hp
      split at h
      · next hrun =>
        obtain ⟨t1, h1, h⟩ := bind_eq_ok.mp h
        cases h
        exact .inl ⟨hi, hsize, p, hp, hrun, h1⟩
      · split at h
        · obtain ⟨l, -, h⟩ := bind_eq_ok.mp h
          obtain ⟨r, -, h⟩ := bind_eq_ok.mp h
          refine ih ?_ ?_ h
          · split <;> omega
          · split <;> omega
        · split at h
          · exact ih (by omega) (by omega) h
          · exact ih (by omega) (by omega) h
    · next hsize =>
      cases h
      exact .inr ⟨by omega, rfl⟩

/-- The process that `find_idx_of_stride_to_run` charges. -/
def charged (t : PTable) : Option Slot :=
  match t.findLoop (t.strideQueueSize.toNat + 1) 1 with
  | .ok (_, i) => if (i : Int) ≤ t.strideQueueSize then t.strideQueue i else none
  | .error _ => none

theorem search_cases (h : t.findLoop (t.strideQueueSize.toNat + 1) 1 = .ok (t', k)) :
    t.charged = none ∧ t' = t ∨
      ∃ p, ∃ i : Nat, t.charged = some p ∧ (1 ≤ i ∧ (i : Int) ≤ t.strideQueueSize) ∧
        t.strideQueue i = some p ∧ (t.charge p).strideQueueHeapifyDown i = .ok t' := by
  unfold charged
  rw [h]
  rcases findLoop_eq_ok le_rfl (by omega) h with ⟨h1, h2, p, hp, -, hsift⟩ | ⟨hk, rfl⟩
  · exact .inr ⟨p, k, by simp only [if_pos h2, hp], ⟨h1, h2⟩, hp, hsift⟩
  · exact .inl ⟨by simp only [if_neg (not_le.mpr hk)], rfl⟩

theorem scanRunnable_index {n : Nat} (h : t.scanRunnable n i = .ok (some k)) :
    i ≤ k ∧ ∃ p, t.strideQueue k = some p ∧ (t.proc p).state = .runnable := by
  induction n generalizing i with
  | zero => cases h
  | succ n ih =>
    unfold scanRunnable at h
    obtain ⟨p, hp, h⟩ := bind_eq_ok.mp h
    split at h
    · next hrun =>
      cases h
      exact ⟨le_rfl, p, deref_eq_ok.mp hp, hrun⟩
    · obtain ⟨hle, hfound⟩ := ih h
      exact ⟨(Nat.le_succ i).trans hle, hfound⟩

/-- `find_idx_of_stride_to_run` is the search, and an index. -/
theorem findIdxOfStrideToRun_eq_ok (h : t.findIdxOfStrideToRun = .ok (t', i)) :
    (∃ k, t.findLoop (t.strideQueueSize.toNat + 1) 1 = .ok (t', k)) ∧
      ((i : Int) ≤ t'.strideQueueSize → 1 ≤ i) := by
  obtain ⟨⟨t1, k⟩, h1, h⟩ := bind_eq_ok.mp h
  simp only at h
  split at h
  · next hout =>
    obtain ⟨o, h2, h⟩ := bind_eq_ok.mp h
    cases o with
    | none =>
      cases h
      exact ⟨⟨_, h1⟩, fun hin => by omega⟩
    | some j =>
      cases h
      exact ⟨⟨_, h1⟩, fun _ => (scanRunnable_index h2).1⟩
  · next hin =>
    cases h
    refine ⟨⟨_, h1⟩, fun _ => ?_⟩
    rcases findLoop_eq_ok le_rfl (by omega) h1 with ⟨hpos, -⟩ | ⟨hk, rfl⟩
    · exact hpos
    · omega

/-! ## Whom a selection takes -/

/-- Directly below a `RUNNABLE` process of the stride queue there are only
`RUNNABLE` ones. -/
def ReadyBelow (t : PTable) : Prop :=
  ∀ i ≤ t.strideQueueSize.toNat, 1 ≤ i → ∀ p c, t.strideQueue i = some p →
    (t.proc p).state = .runnable →
      (t.strideQueue (i * 2) = some c ∨ t.strideQueue (i * 2 + 1) = some c) →
        (t.proc c).state = .runnable

instance (t : PTable) : Decidable t.ReadyBelow := Nat.decidableBallLE _ _

/-- The process that takes the place of the charged one is a child of it, so it
is `RUNNABLE` if the children are. -/
theorem ReadyBelow.taken {p : Slot} (hready : t.ReadyBelow)
    (h : t.findIdxOfStrideToRun = .ok (t', i)) (hin : (i : Int) ≤ t'.strideQueueSize)
    (hp : t'.strideQueue i = some p) : (t.proc p).state = .runnable := by
  obtain ⟨⟨t1, k⟩, h1, hfind⟩ := bind_eq_ok.mp h
  simp only at hfind
  rcases findLoop_eq_ok le_rfl (by omega) h1 with ⟨hk, hsize, r, hr, hrun, hsift⟩ | ⟨hk, rfl⟩
  · obtain ⟨q, hq, hentry⟩ := strideQueueHeapifyDown_entry (t.charge r) k r hk hsize hr
    rw [hq] at hsift
    cases hsift
    rw [if_neg (by simp only [charge_strideQueueSize]; omega)] at hfind
    cases hfind
    have hbelow := fun c => hready i (by omega) hk r c hr hrun
    rcases hentry with ⟨hi, -⟩ | ⟨c, hi, -, -, l, hl, hc⟩
    · rw [Option.some.inj (hp.symm.trans hi)]
      exact hrun
    · rw [Option.some.inj (hp.symm.trans hi)]
      rcases hc with rfl | hc
      · exact hbelow c (.inl hl)
      · exact hbelow c (.inr hc)
  · rw [if_pos (by omega)] at hfind
    obtain ⟨o, h2, hfind⟩ := bind_eq_ok.mp hfind
    cases o with
    | none =>
      cases hfind
      omega
    | some j =>
      cases hfind
      obtain ⟨-, r, hr, hrun⟩ := scanRunnable_index h2
      rw [Option.some.inj (hp.symm.trans hr)]
      exact hrun

end PTable

namespace Machine

/-! ## Turns -/

/-- The process that a turn charges. -/
def charged (m : Machine) : Option Slot :=
  if m.kernel.ptable.sumCpuShare = 0 then none
  else
    match m.selectStrideOrMLFQ with
    | .ok (_, true) => m.kernel.ptable.charged
    | _ => none

/-- What a turn does. -/
inductive TurnStep (m : Machine) : Machine → Prop where
  /-- The MLFQ is chosen. -/
  | idle {m' : Machine} (hc : m.charged = none) (hk : m'.kernel = m.kernel) : TurnStep m m'
  /-- The stride queue would be chosen, but is empty. -/
  | reset {m' : Machine} (hc : m.charged = none) (hsize : m.kernel.ptable.strideQueueSize = 0)
      (hk : m'.kernel =
        { m.kernel with ptable := { m.kernel.ptable with sumCpuShare := 0 } }) : TurnStep m m'
  /-- The stride queue is chosen, and has nobody to run. -/
  | search {m' : Machine} {t : PTable} {k : Nat} (hc : m.charged = m.kernel.ptable.charged)
      (ht : m.kernel.ptable.findLoop (m.kernel.ptable.strideQueueSize.toNat + 1) 1 = .ok (t, k))
      (hk : m'.kernel = { m.kernel with ptable := t }) : TurnStep m m'
  /-- The stride queue is chosen, and `p` runs. -/
  | run {m' : Machine} {t : PTable} {k i : Nat} {p : Slot}
      (hc : m.charged = m.kernel.ptable.charged)
      (ht : m.kernel.ptable.findLoop (m.kernel.ptable.strideQueueSize.toNat + 1) 1 = .ok (t, k))
      (hi : 1 ≤ i ∧ (i : Int) ≤ t.strideQueueSize) (hp : t.strideQueue i = some p)
      (hk : m'.kernel = { m.kernel with ptable := t }.upd p fun x =>
        { x with state := .running, timeQuantumUsed := 0 }) : TurnStep m m'

/-- `select_stride_or_MLFQ` changes the selector, and the sum of an empty queue. -/
theorem selectStrideOrMLFQ_cases {m m' : Machine} {b : Bool}
    (h : m.selectStrideOrMLFQ = .ok (m', b)) :
    m'.kernel = m.kernel ∨ b = false ∧ m.kernel.ptable.strideQueueSize = 0 ∧
      m'.kernel = { m.kernel with ptable := { m.kernel.ptable with sumCpuShare := 0 } } := by
  obtain ⟨-, -, h⟩ := bind_eq_ok.mp h
  simp only at h
  split at h
  · split at h
    · next hsize =>
      cases h
      exact .inr ⟨rfl, hsize, rfl⟩
    · cases h
      exact .inl rfl
  · cases h
    exact .inl rfl

/-- Running the stride queue is a search and, if that finds a process, a switch. -/
theorem runStride_cases {m : Machine} {r : Machine × Option Slot} (h : m.runStride = .ok r) :
    ∃ t k, m.kernel.ptable.findLoop (m.kernel.ptable.strideQueueSize.toNat + 1) 1 = .ok (t, k) ∧
      (r.1.kernel = { m.kernel with ptable := t } ∨
        ∃ i : Nat, ∃ p, (1 ≤ i ∧ (i : Int) ≤ t.strideQueueSize) ∧ t.strideQueue i = some p ∧
          r.1.kernel = { m.kernel with ptable := t }.upd p fun x =>
            { x with state := .running, timeQuantumUsed := 0 }) := by
  obtain ⟨⟨t, i⟩, h1, h⟩ := bind_eq_ok.mp h
  obtain ⟨⟨k, hk⟩, hpos⟩ := PTable.findIdxOfStrideToRun_eq_ok h1
  refine ⟨t, k, hk, ?_⟩
  simp only at h
  split at h
  · next hin =>
    obtain ⟨p, hp, h⟩ := bind_eq_ok.mp h
    cases h
    exact .inr ⟨i, p, ⟨hpos hin, hin⟩, PTable.deref_eq_ok.mp hp, rfl⟩
  · cases h
    exact .inl rfl

theorem turnStep_of_turn {m m' : Machine} (h : m.turn = .ok m') : TurnStep m m' := by
  unfold turn at h
  split at h
  · next hsum =>
    cases h
    exact .idle (by rw [charged, if_pos hsum]) rfl
  · next hsum =>
    obtain ⟨⟨m1, b⟩, h1, h⟩ := bind_eq_ok.mp h
    have hcharged : m.charged = if b then m.kernel.ptable.charged else none := by
      rw [charged, if_neg hsum, h1]
      cases b <;> rfl
    cases b with
    | false =>
      cases h
      rcases selectStrideOrMLFQ_cases h1 with hk | ⟨-, hsize, hk⟩
      · exact .idle hcharged hk
      · exact .reset hcharged hsize hk
    | true =>
      have hk : m1.kernel = m.kernel := by
        rcases selectStrideOrMLFQ_cases h1 with hk | ⟨hb, -⟩
        · exact hk
        · contradiction
      simp only [if_true] at h hcharged
      cases hrun : m1.runStride with
      | error e =>
        rw [hrun] at h
        contradiction
      | ok r =>
        rw [hrun] at h
        cases h
        obtain ⟨t, k, ht, hnone | ⟨i, p, hi, hp, hkernel⟩⟩ := runStride_cases hrun
        · exact .search hcharged (hk ▸ ht) (hk ▸ hnone)
        · exact .run hcharged (hk ▸ ht) hi hp (hk ▸ hkernel)

theorem reachableBy_of_kernel {guard : Machine → Move → Prop}
    {guardK : Kernel → Kernel.Event → Prop}
    (hg : ∀ k e, guardK k e → guard { kernel := k, queueSelector := -1 } (.event e)) {k : Kernel}
    (h : k.ReachableBy guardK) : ReachableBy guard { kernel := k, queueSelector := -1 } := by
  induction h with
  | start hs => exact .start ⟨hs, rfl⟩
  | @step k k' e _ hk hn ih =>
    have hnext : next { kernel := k, queueSelector := -1 } (.event e) =
        some { kernel := k', queueSelector := -1 } := by
      rw [next, hn]
      rfl
    exact .step ih (hg k e hk) hnext

end Machine
end Xv6
