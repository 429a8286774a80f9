import Xv6.Stride.Delete

/-!
# Xv6.Stride.Least

Whether a stride selection picks the smallest pass value.

The search of `find_idx_of_stride_to_run` goes past a process that is not
`RUNNABLE` to the child with the smaller `stride_count` and never comes back.  If
it meets no `RUNNABLE` process, the first one of the array is taken.
-/

namespace Xv6
namespace PTable

open Lib

variable {t : PTable} {i j k n s : Nat} {p : Slot}

/-! ## Branches -/

/-- Index `j` is index `i` or stands below it in the heap. -/
def InBranch (i j : Nat) : Prop := ∃ d, j / 2 ^ d = i

theorem InBranch.le (h : InBranch i j) : i ≤ j := by
  obtain ⟨d, rfl⟩ := h
  exact Nat.div_le_self j (2 ^ d)

theorem inBranch_root (hj : 1 ≤ j) : InBranch 1 j := by
  induction j using Nat.strong_induction_on with
  | _ j ih =>
    by_cases h1 : j = 1
    · exact ⟨0, by rw [h1]; rfl⟩
    · obtain ⟨d, hd⟩ := ih (j / 2) (by omega) (by omega)
      refine ⟨d + 1, ?_⟩
      rwa [Nat.pow_succ', ← Nat.div_div_eq_div_mul]

/-- A branch is its root and the branches of its two children. -/
theorem InBranch.split (h : InBranch i j) :
    j = i ∨ InBranch (i * 2) j ∨ InBranch (i * 2 + 1) j := by
  obtain ⟨d, hd⟩ := h
  cases d with
  | zero =>
    rw [Nat.pow_zero, Nat.div_one] at hd
    exact .inl hd
  | succ d =>
    rw [Nat.pow_succ, ← Nat.div_div_eq_div_mul] at hd
    have hchild : j / 2 ^ d = i * 2 ∨ j / 2 ^ d = i * 2 + 1 := by omega
    cases hchild with
    | inl h => exact .inr (.inl ⟨d, h⟩)
    | inr h => exact .inr (.inr ⟨d, h⟩)

/-- In a heap no entry of a branch is below its root. -/
theorem InBranch.key_le {f : Nat → Int} (h : InBranch i j) (hf : HeapOrdered n f) (hi : 1 ≤ i)
    (hj : j ≤ n) : f i ≤ f j := by
  obtain ⟨d, hd⟩ := h
  induction d generalizing i with
  | zero =>
    rw [Nat.pow_zero, Nat.div_one] at hd
    rw [hd]
  | succ d ih =>
    rw [Nat.pow_succ, ← Nat.div_div_eq_div_mul] at hd
    have hle := Nat.div_le_self j (2 ^ d)
    have hkey := ih (by omega) rfl
    have hparent := hf (j / 2 ^ d) (by omega) (by omega)
    rw [hd] at hparent
    exact hparent.trans hkey

/-! ## What the search does not see -/

/-- The search passes index `s / 2` and goes to the other child. -/
def TurnsFrom (t : PTable) (s : Nat) : Prop :=
  ∃ i l r, t.SearchReaches i ∧ ¬ t.RunnableAt i ∧ ((i * 2 + 1 : Nat) : Int) ≤ t.strideQueueSize ∧
    t.strideQueue (i * 2) = some l ∧ t.strideQueue (i * 2 + 1) = some r ∧
    s / 2 = i ∧ s ≠ (t.smallerChild i l r).1

/-- Every index of the queue is below where the search is, was passed by it, or is in a
branch it has turned away from. -/
theorem SearchReaches.covers (h : t.SearchReaches k) (hj : 1 ≤ j)
    (hsize : (j : Int) ≤ t.strideQueueSize) :
    InBranch k j ∨ ¬ t.RunnableAt j ∨ ∃ s, t.TurnsFrom s ∧ InBranch s j := by
  induction h with
  | root => exact .inl (inBranch_root hj)
  | @both i l r hi hrun hright hl hr ih =>
    rcases ih with hin | hseen
    · -- the two children of the index that is passed
      have hturn : ∀ s, s / 2 = i → s ≠ (t.smallerChild i l r).1 → t.TurnsFrom s :=
        fun s hs hne => ⟨i, l, r, hi, hrun, hright, hl, hr, hs, hne⟩
      have hchild : ∀ s, s / 2 = i → InBranch s j → InBranch (t.smallerChild i l r).1 j ∨
          ¬ t.RunnableAt j ∨ ∃ s, t.TurnsFrom s ∧ InBranch s j := fun s hs hsj => by
        by_cases heq : s = (t.smallerChild i l r).1
        · exact .inl (heq ▸ hsj)
        · exact .inr (.inr ⟨s, hturn s hs heq, hsj⟩)
      rcases hin.split with rfl | hleft | hright'
      · exact .inr (.inl hrun)
      · exact hchild _ (by omega) hleft
      · exact hchild _ (by omega) hright'
    · exact .inr hseen
  | @leftOnly i hi hrun hleft ih =>
    rcases ih with hin | hseen
    · rcases hin.split with rfl | hin | hright
      · exact .inr (.inl hrun)
      · exact .inl hin
      · have hle := hright.le
        omega
    · exact .inr hseen

/-! ## The selection -/

/-- `p` is the process that the call of `find_idx_of_stride_to_run` charges or, when it
charges none, the one whose index it returns. -/
def Selects (t : PTable) (p : Slot) : Prop :=
  ∃ t' i, t.findIdxOfStrideToRun = .ok (t', i) ∧ (i : Int) ≤ t.strideQueueSize ∧
    t.strideQueue i = some p ∧ (t'.proc = (t.charge p).proc ∨ t' = t)

/-- `p` has the smallest `stride_count` of the `RUNNABLE` members. -/
def LeastRunnable (t : PTable) (p : Slot) : Prop :=
  (t.proc p).state = .runnable ∧
    ∀ q, t.InQueue q → (t.proc q).state = .runnable → (t.proc p).strideCount ≤ (t.proc q).strideCount

/-- The search meets a `RUNNABLE` process, and no branch that it has turned away from
holds one with a smaller `stride_count`. -/
def SearchSees (t : PTable) : Prop :=
  ∃ k p, t.SearchReaches k ∧ (k : Int) ≤ t.strideQueueSize ∧ t.strideQueue k = some p ∧
    (t.proc p).state = .runnable ∧
    ∀ s j r, t.TurnsFrom s → InBranch s j → (j : Int) ≤ t.strideQueueSize →
      t.strideQueue j = some r → (t.proc r).state = .runnable →
      (t.proc p).strideCount ≤ (t.proc r).strideCount

/-- The search meets no `RUNNABLE` process, and none behind the first one of the array has a
smaller `stride_count`. -/
def ScanSees (t : PTable) : Prop :=
  (∀ k, t.SearchReaches k → (k : Int) ≤ t.strideQueueSize → ¬ t.RunnableAt k) ∧
    ∃ (k : Nat) (p : Slot), 1 ≤ k ∧ (k : Int) ≤ t.strideQueueSize ∧ t.strideQueue k = some p ∧
      (t.proc p).state = .runnable ∧ (∀ j, 1 ≤ j → j < k → ¬ t.RunnableAt j) ∧
      ∀ (j : Nat) (r : Slot), k < j → (j : Int) ≤ t.strideQueueSize → t.strideQueue j = some r →
        (t.proc r).state = .runnable → (t.proc p).strideCount ≤ (t.proc r).strideCount

/-- The process at the index that the call returns is the one selected. -/
theorem selects_iff {t' : PTable} (hfind : t.findIdxOfStrideToRun = .ok (t', k))
    (hsize : (k : Int) ≤ t.strideQueueSize) (hp : t.strideQueue k = some p)
    (ht' : t'.proc = (t.charge p).proc ∨ t' = t) (q : Slot) : t.Selects q ↔ q = p := by
  constructor
  · rintro ⟨t'', i, hret, -, hq, -⟩
    rw [hfind, Except.ok.injEq, Prod.mk.injEq] at hret
    rw [← hret.2, hp] at hq
    exact (Option.some.inj hq).symm
  · rintro rfl
    exact ⟨t', k, hfind, hsize, hp, ht'⟩

/-- A process that the search meets is the one selected. -/
theorem selects_of_reaches (hfull : t.QueueFull) (hk : t.SearchReaches k)
    (hsize : (k : Int) ≤ t.strideQueueSize) (hp : t.strideQueue k = some p)
    (hrun : (t.proc p).state = .runnable) (q : Slot) : t.Selects q ↔ q = p := by
  obtain ⟨queue, hfind, -⟩ := find_of_reaches t hfull hk hsize hp hrun
  exact selects_iff hfind hsize hp (.inl rfl) q

/-- **The selection picks the smallest pass value exactly when no smaller one hides**, in
the branches that the search turns away from or behind the first entry of the scan. -/
theorem selects_least_iff (hfull : t.QueueFull)
    (hheap : HeapOrdered t.strideQueueSize.toNat fun j => t.pass (t.strideQueue j))
    (hsome : ∃ i : Nat, 1 ≤ i ∧ (i : Int) ≤ t.strideQueueSize ∧ t.RunnableAt i) :
    (∃ p, t.Selects p ∧ t.LeastRunnable p) ↔ t.SearchSees ∨ t.ScanSees := by
  by_cases hpath : ∃ k, t.SearchReaches k ∧ (k : Int) ≤ t.strideQueueSize ∧ t.RunnableAt k
  · obtain ⟨k, hk, hsize, p, hp, hrun⟩ := hpath
    have hselects := selects_of_reaches hfull hk hsize hp hrun
    constructor
    · rintro ⟨q, hq, -, hleast⟩
      rw [hselects] at hq
      subst hq
      refine .inl ⟨k, q, hk, hsize, hp, hrun, fun s j r hs hj hjs hr hrr => hleast r ?_ hrr⟩
      have hpos : 1 ≤ s := by
        obtain ⟨i, -, -, hi, -, -, -, -, hhalf, -⟩ := hs
        have := hi.pos
        omega
      have hle := hj.le
      exact ⟨j, by omega, hjs, hr⟩
    · rintro (⟨k', p', hk', hsize', hp', hrun', hsees⟩ | ⟨hnone, -⟩)
      · refine ⟨p', (selects_of_reaches hfull hk' hsize' hp' hrun' p').mpr rfl, hrun', ?_⟩
        rintro q ⟨j, hj, hjs, hq⟩ hqr
        rcases hk'.covers hj hjs with hin | hseen | ⟨s, hs, hin⟩
        · have hkey := hin.key_le hheap hk'.pos (by omega)
          simp only [hp', hq] at hkey
          exact Int32.le_iff_toInt_le.mpr hkey
        · exact absurd ⟨q, hq, hqr⟩ hseen
        · exact hsees s j q hs hin hjs hq hqr
      · exact absurd ⟨p, hp, hrun⟩ (hnone k hk hsize)
  · obtain ⟨i, hi, his, hir⟩ := hsome
    obtain ⟨k, hfind, hk, -, hrun, hfirst⟩ := find_of_not_reaches t hfull hpath
    have hki : k ≤ i := Nat.le_of_not_lt fun hlt => hfirst i hi his hlt hir
    have hsize : (k : Int) ≤ t.strideQueueSize := by omega
    obtain ⟨p, hp, hpr⟩ := hrun hsize
    have hselects := selects_iff hfind hsize hp (.inr rfl)
    constructor
    · rintro ⟨q, hq, -, hleast⟩
      rw [hselects] at hq
      subst hq
      exact .inr ⟨fun j hj hjs hjr => hpath ⟨j, hj, hjs, hjr⟩, k, q, hk, hsize, hp, hpr,
        fun j hj hlt => hfirst j hj (by omega) hlt, fun j r hkj hjs hr hrr =>
        hleast r ⟨j, by omega, hjs, hr⟩ hrr⟩
    · rintro (⟨k', p', hk', hsize', hp', hrun', -⟩ | ⟨-, k', p', hk', hsize', hp', hrun', hfirst', hsees⟩)
      · exact absurd ⟨k', hk', hsize', p', hp', hrun'⟩ hpath
      · -- both are the first one of the array
        obtain rfl : k' = k := by
          rcases Nat.lt_trichotomy k' k with hlt | heq | hgt
          · exact absurd ⟨p', hp', hrun'⟩ (hfirst k' hk' hsize' hlt)
          · exact heq
          · exact absurd ⟨p, hp, hpr⟩ (hfirst' k hk hgt)
        rw [hp] at hp'
        obtain rfl := Option.some.inj hp'
        refine ⟨p, (hselects p).mpr rfl, hpr, ?_⟩
        rintro q ⟨j, hj, hjs, hq⟩ hqr
        rcases Nat.lt_trichotomy j k' with hlt | heq | hgt
        · exact absurd ⟨q, hq, hqr⟩ (hfirst j hj hjs hlt)
        · rw [heq, hp] at hq
          rw [Option.some.inj hq]
          exact Int32.le_refl _
        · exact hsees j q hgt hjs hq hqr

/-- A search that finds the root `RUNNABLE` goes no further. -/
theorem SearchReaches.eq_one (h : t.SearchReaches i) (hroot : t.RunnableAt 1) : i = 1 := by
  induction h with
  | root => rfl
  | both _ hrun _ _ _ ih => exact absurd hroot (ih ▸ hrun)
  | leftOnly _ hrun _ ih => exact absurd hroot (ih ▸ hrun)

theorem selects_least_sleeperAhead :
    ∃ p, sleeperAhead.Selects p ∧ sleeperAhead.LeastRunnable p := by
  have hroot : sleeperAhead.RunnableAt 1 := ⟨1, rfl, rfl⟩
  have hfull : sleeperAhead.QueueFull := sleeperBehind_queueFull
  refine (selects_least_iff hfull ?_ ⟨1, le_rfl, by decide, hroot⟩).mpr
    (.inl ⟨1, 1, .root, by decide, rfl, rfl, ?_⟩)
  · intro j h2 hj
    have hj : j ≤ 2 := hj
    interval_cases j
    decide
  · rintro s j r ⟨i, -, -, hi, hrun, -⟩
    exact absurd (hi.eq_one hroot ▸ hroot) hrun

/-- A heap of four: the root and its left child are asleep, the right child and the child of
the left one are `RUNNABLE`. -/
def sleepingBranch : PTable :=
  { rowQueue 4 fun _ => 0 with
    proc := fun p =>
      if p = 1 then { Proc.zero with state := .sleeping, stride := 1000, strideCount := 0 }
      else if p = 2 then { Proc.zero with state := .sleeping, stride := 1000, strideCount := 1 }
      else if p = 3 then { Proc.zero with state := .runnable, stride := 1000, strideCount := 2 }
      else { Proc.zero with state := .runnable, stride := 1000, strideCount := 10 } }

/-- The search turns to the left and charges the process with pass value 10; the one with
pass value 2 is `RUNNABLE`. -/
theorem not_selects_least_sleepingBranch : sleepingBranch.QueueFull ∧
    (HeapOrdered 4 fun j => sleepingBranch.pass (sleepingBranch.strideQueue j)) ∧
    sleepingBranch.Selects 4 ∧ sleepingBranch.InQueue 3 ∧
    (sleepingBranch.proc 3).state = .runnable ∧
    (sleepingBranch.proc 3).strideCount < (sleepingBranch.proc 4).strideCount ∧
    ¬ ∃ p, sleepingBranch.Selects p ∧ sleepingBranch.LeastRunnable p := by
  have hqueued : sleepingBranch.Queued 4 :=
    (queued_rowQueue (by decide) fun _ => 0).of_rearranged rfl (Rearranged.refl 4 _)
  have hin : sleepingBranch.InQueue 3 := inQueue_rowQueue (n := 4) (fun _ => 0) 3 (by decide)
  have hfind : ∃ t', sleepingBranch.findIdxOfStrideToRun = .ok (t', 4) ∧
      t'.proc = (sleepingBranch.charge 4).proc := ⟨_, rfl, rfl⟩
  obtain ⟨t', hfind, hproc⟩ := hfind
  refine ⟨hqueued.full, fun j h2 hj => ?_, ⟨t', 4, hfind, by decide, rfl, .inl hproc⟩, hin, rfl,
    by decide, ?_⟩
  · interval_cases j
    · decide
    · decide
    · decide
  · rintro ⟨p, ⟨t'', i, hret, -, hp, -⟩, -, hleast⟩
    rw [hfind, Except.ok.injEq, Prod.mk.injEq] at hret
    obtain rfl : p = 4 := by
      rw [← hret.2] at hp
      exact (Option.some.inj hp).symm
    exact absurd (hleast 3 hin rfl) (by decide)

end PTable
end Xv6
