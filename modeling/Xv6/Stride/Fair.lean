import Xv6.Stride.Queue

/-!
# Xv6.Stride.Fair

Proportional fairness of stride dispatching, for a queue whose members are
all `RUNNABLE` at every selection.

A selection charges the root of the heap and runs the process that the sift leaves
there: the member that is charged is the one that ran at the selection before.  So
the numbers of runs and of charges differ by at most one, and the charges follow
the pass values, whose spread the heap keeps below the largest stride.
-/

namespace Xv6
namespace PTable

variable {S : Int} {c i j m n : Nat} {q : Nat → Option Slot} {t t' t0 : PTable} {k p r x : Slot}
  {d : Slot → Nat}

open Lib Function

/-! ## Stride dispatches -/

/-- The pass value of a queue entry. -/
def pass (t : PTable) : Option Slot → Int
  | some p => (t.proc p).strideCount.toInt
  | none => 0

/-- The queue is a min-heap of `m` members on `stride_count`. -/
structure MinHeap (t : PTable) (m : Nat) : Prop extends t.Queued m where
  heap : HeapOrdered m fun i => t.pass (t.strideQueue i)

/-- No two members are more than `S` apart in `stride_count`. -/
def SpreadAtMost (t : PTable) (S : Int) : Prop :=
  ∀ p q, t.InQueue p → t.InQueue q →
    (t.proc p).strideCount.toInt - (t.proc q).strideCount.toInt ≤ S

/-- The members are `RUNNABLE`. -/
def AllRunnable (t : PTable) : Prop := ∀ p, t.InQueue p → (t.proc p).state = .runnable

/-- The charge of the root does not overflow. -/
def ChargeFits (t : PTable) : Prop :=
  ∀ r, t.strideQueue 1 = some r →
    (t.proc r).strideCount.toInt + (t.proc r).stride.toInt < 2 ^ 31

/-- `t'` has the queue of `t`, with the strides and pass values of its
members; everything else may differ. -/
structure SameMembers (t t' : PTable) : Prop where
  queue : t'.strideQueue = t.strideQueue
  size : t'.strideQueueSize = t.strideQueueSize
  stride : ∀ p, t.InQueue p → (t'.proc p).stride = (t.proc p).stride
  strideCount : ∀ p, t.InQueue p → (t'.proc p).strideCount = (t.proc p).strideCount

/-- Consecutive stride dispatches from `t0`, with `d p` the number of times
`p` was run so far.  Between two of them membership, strides and pass values
stay as they are. -/
inductive Dispatches (t0 : PTable) : (Slot → Nat) → PTable → Prop where
  | start : Dispatches t0 (fun _ => 0) t0
  | run {d : Slot → Nat} {t t₁ t₂ : PTable} {i : Nat} {p : Slot} :
      Dispatches t0 d t → t.AllRunnable → t.ChargeFits →
      t.findIdxOfStrideToRun = .ok (t₁, i) → t₁.strideQueue i = some p → SameMembers t₁ t₂ →
      Dispatches t0 (update d p (d p + 1)) t₂

/-! ## Sifting down keeps the heap -/

theorem pass_update (t : PTable) (q : Nat → Option Slot) (x : Option Slot) (hij : i ≠ j) :
    (fun k => t.pass (update (update q i (q j)) j x k)) =
      (fun k => t.pass (update q i x k)) ∘ Equiv.swap i j := by
  rw [update_move q x hij]
  rfl

theorem SiftsTo.half {p : Option Slot} (h : t.SiftsTo p q i c x) : c / 2 = i := by
  have := h.child
  omega

theorem SiftsTo.le {p : Option Slot} (h : t.SiftsTo p q i c x) (hend : ∀ j, n < j → q j = none) :
    c ≤ n := by
  by_contra hout
  have hnone := hend c (by omega)
  rw [h.entry] at hnone
  contradiction

theorem filled_update (x : Slot) (hfill : ∀ j, 1 ≤ j → j ≤ n → j ≠ i → ∃ x, q j = some x)
    (h1 : 1 ≤ j) (hn : j ≤ n) : ∃ y, update q i (some x) j = some y := by
  by_cases hji : j = i
  · exact ⟨x, by rw [hji, update_self]⟩
  · rw [update_of_ne hji]
    exact hfill j h1 hn hji

/-- After one turn the sift goes on from the child that went up. -/
theorem SiftsTo.siftReady (hto : t.SiftsTo (some k) q i c x) (hi : 1 ≤ i) (hcn : c ≤ n)
    (hfill : ∀ j, 1 ≤ j → j ≤ n → j ≠ i → ∃ x, q j = some x)
    (hready : SiftReady n (fun j => t.pass (update q i (some k) j)) i) :
    SiftReady n (fun j =>
      t.pass (update (update q i (some x)) c (some k) j)) c := by
  have hc := hto.half
  have hic : i ≠ c := by omega
  obtain ⟨k', hk', hlt⟩ := hto.below
  cases hk'
  have hentry : update q i (some k) c = some x := by
    rw [update_of_ne hic.symm, hto.entry]
  have hmove := hready.move hi hc hcn
    (by
      simp only [update_self, hentry]
      exact Int32.le_iff_toInt_le.mp (Int32.le_of_lt hlt))
    (by
      intro j h2 hjn hj
      simp only [hentry]
      rw [update_of_ne (by omega)]
      rcases (by omega : j = i * 2 ∨ j = i * 2 + 1) with rfl | rfl
      · obtain ⟨l, hl⟩ := hfill (i * 2) (by omega) hjn (by omega)
        rw [hl]
        exact Int32.le_iff_toInt_le.mp (hto.left l hl)
      · obtain ⟨rr, hrr⟩ := hfill (i * 2 + 1) (by omega) hjn (by omega)
        rw [hrr]
        exact Int32.le_iff_toInt_le.mp (hto.right rr hrr))
  rwa [← pass_update t q (some k) hic, hto.entry] at hmove

/-- Where the sift stops in front of children, they are not below the entry. -/
theorem SiftStops.le (h : t.SiftStops (some k) q i) (hsize : t.strideQueueSize = n) (hi : 1 ≤ i)
    (hfill : ∀ j, 1 ≤ j → j ≤ n → j ≠ i → ∃ x, q j = some x) (hlow : i * 2 < NPROC) (hjn : j ≤ n)
    (hj : j / 2 = i) : t.pass (some k) ≤ t.pass (q j) := by
  obtain ⟨l, hl⟩ := hfill (i * 2) (by omega) (by omega) (by omega)
  obtain ⟨k', hk', hleft, hright⟩ := h hlow (by omega) l hl
  cases hk'
  rcases (by omega : j = i * 2 ∨ j = i * 2 + 1) with rfl | rfl
  · rw [hl]
    exact Int32.le_iff_toInt_le.mp (Int32.not_lt.mp hleft)
  · obtain ⟨rr, hrr⟩ := hfill (i * 2 + 1) (by omega) hjn (by omega)
    rw [hrr]
    exact Int32.le_iff_toInt_le.mp (Int32.not_lt.mp (hright rr hrr))

section

variable {fuel : Nat} {r : (Nat → Option Slot) × Nat} (hsize : t.strideQueueSize = n)
  (hi : 1 ≤ i ∧ i ≤ n) (hfuel : NPROC < i + fuel)
  (hfill : ∀ j, 1 ≤ j → j ≤ n → j ≠ i → ∃ x, q j = some x) (hend : ∀ j, n < j → q j = none)
  (hready : SiftReady n (fun j => t.pass (update q i (some k) j)) i)
  (h : heapifyDownLoop t (some k) fuel q i = .ok r)
include hsize hi hfuel hfill hend hready h

/-- Where the sift ends the rest is a heap, and a child that the sift looks at
there is not below the sifted entry.  The fuel is enough because the hole moves
to a larger index on every turn. -/
theorem heapifyDownLoop_settles (hn : n ≤ NPROC) :
    SiftReady n (fun j => t.pass (update r.1 r.2 (some k) j)) r.2 ∧
      (r.2 * 2 < NPROC → ∀ j, 2 ≤ j → j ≤ n → j / 2 = r.2 → t.pass (some k) ≤ t.pass (r.1 j)) := by
  induction fuel generalizing q i with
  | zero => omega
  | succ fuel ih =>
    rcases heapifyDownLoop_cases h with ⟨rfl, hstop⟩ | ⟨c, x, hto, hrest⟩
    · exact ⟨hready, fun hlow j _ hjn hj => hstop.le hsize hi.1 hfill hlow hjn hj⟩
    have hc := hto.half
    have hcn : c ≤ n := hto.le hend
    have hready' := hto.siftReady hi.1 hcn hfill hready
    rcases hrest with hrest | ⟨rfl, hlast, rfl⟩
    · refine ih (by omega) (by omega) (fun j h1 hjn _ => filled_update x hfill h1 hjn)
        (fun j hj => ?_) hready' hrest
      rw [update_of_ne (by omega), hend j hj]
    · -- the hole is at the last entry, which has no children
      refine ⟨hready', fun _ j h2 hjn hj => ?_⟩
      have hout : n < i * 2 + 1 := by
        by_contra hin
        obtain ⟨rr, hrr⟩ := hfill (i * 2 + 1) (by omega) (by omega) (by omega)
        rw [hlast] at hrr
        contradiction
      simp only at hj
      omega

/-- The sift ends with a heap: a queue that is not full has no entry that the
sift cannot see. -/
theorem heapifyDownLoop_heapOrdered (hn : n < NPROC) :
    HeapOrdered n fun j => t.pass (update r.1 r.2 (some k) j) := by
  obtain ⟨hrest, hstop⟩ := heapifyDownLoop_settles hsize hi hfuel hfill hend hready h (by omega)
  refine hrest.heapOrdered fun j h2 hjn hj => ?_
  rw [update_self, update_of_ne (by omega)]
  exact hstop (by omega) j h2 hjn hj

end

/-! ## One selection -/

theorem toInt_add_of_lt {a b : Int32} (hb : 0 ≤ b.toInt) (h : a.toInt + b.toInt < 2 ^ 31) :
    (a + b).toInt = a.toInt + b.toInt := by
  have ha := a.le_toInt
  rw [Int32.toInt_add]
  exact Int.bmod_eq_of_le (by omega) (by omega)

theorem MinHeap.pass_charge (h : t.MinHeap m) (hr : t.strideQueue 1 = some r) (h2 : 2 ≤ j)
    (hj : j ≤ m) : (t.charge r).pass (t.strideQueue j) = t.pass (t.strideQueue j) := by
  obtain ⟨x, hx⟩ := h.filled j (by omega) hj
  have hne : x ≠ r := by
    rintro rfl
    have h1j : 1 = j := h.distinct ⟨le_rfl, by omega⟩ ⟨by omega, hj⟩ (hr.trans hx.symm)
    omega
  rw [hx]
  simp only [pass, charge_strideCount, if_neg hne]

/-- With its root `RUNNABLE` a selection charges the root, sifts it down and
returns the index of the root. -/
theorem MinHeap.select (h : t.MinHeap m) (hm : 1 ≤ m ∧ m < NPROC) (hr : t.strideQueue 1 = some r)
    (hrun : (t.proc r).state = .runnable) :
    ∃ t', t.findIdxOfStrideToRun = .ok (t', 1) ∧ t'.proc = (t.charge r).proc ∧
      t'.strideQueueSize = t.strideQueueSize ∧ Rearranged m t.strideQueue t'.strideQueue ∧
      t'.MinHeap m := by
  have hsize : ((1 : Nat) : Int) ≤ t.strideQueueSize := by rw [h.size]; omega
  obtain ⟨res, hres⟩ := heapifyDownLoop_ok (t.charge r) r NPROC t.strideQueue 1
  have hself : update t.strideQueue 1 (some r) = t.strideQueue := by
    rw [← hr, update_eq_self]
  have hsift : (t.charge r).strideQueueHeapifyDown 1 =
      .ok { t.charge r with strideQueue := update res.1 res.2 (some r) } := by
    simp only [strideQueueHeapifyDown, charge_strideQueue, hr, hres, ok_bind, pure_eq_ok]
  have hrearr := heapifyDownLoop_rearranged ⟨le_rfl, hm.1⟩ h.ending hres
  rw [hself] at hrearr
  have hready : SiftReady m
      (fun j => (t.charge r).pass (update t.strideQueue 1 (some r) j)) 1 := by
    rw [hself]
    exact h.heap.siftReady le_rfl (fun j h1 hj hne => h.pass_charge hr (by omega) hj) (by omega)
  have hcharged : (t.charge r).strideQueueSize = m := h.size
  have hheap := heapifyDownLoop_heapOrdered hcharged ⟨le_rfl, hm.1⟩ (by omega)
    (fun j h1 hj _ => h.filled j h1 hj) h.ending hready hres hm.2
  refine ⟨{ t.charge r with strideQueue := update res.1 res.2 (some r) }, ?_, rfl, rfl,
    hrearr, h.toQueued.of_rearranged rfl hrearr, hheap⟩
  simp only [findIdxOfStrideToRun, findLoop_found t _ 1 r hsize hr hrun hsift, ok_bind,
    charge_strideQueueSize, pure_eq_ok]
  rw [if_neg (by omega)]

/-! ## Runs of selections -/

/-- 1 for the root of the queue and 0 for the other processes. -/
def atRoot (t : PTable) (p : Slot) : Int := if t.strideQueue 1 = some p then 1 else 0

/-- What a run of dispatches from `t0` keeps.  The charges of `p` are its runs
`d p`, plus one for the root at the start, less one for the root now, which
has run and is charged next. -/
structure Fairly (t0 : PTable) (m : Nat) (S : Int) (d : Slot → Nat) (t : PTable) : Prop where
  heap : t.MinHeap m
  members : ∀ p, t.InQueue p ↔ t0.InQueue p
  stride : ∀ p, t0.InQueue p → (t.proc p).stride = (t0.proc p).stride
  spread : t.SpreadAtMost S
  charges : ∀ p, t0.InQueue p → (t.proc p).strideCount.toInt =
    (t0.proc p).strideCount.toInt +
      (d p + t0.atRoot p - t.atRoot p) * (t0.proc p).stride.toInt

theorem MinHeap.root_le (h : t.MinHeap m) (hr : t.strideQueue 1 = some r) (hp : t.InQueue p) :
    (t.proc r).strideCount.toInt ≤ (t.proc p).strideCount.toInt := by
  obtain ⟨i, hi, hp⟩ := h.inQueue_iff.mp hp
  have hle := h.heap.root_le hi.1 hi.2
  simpa only [hr, hp, pass] using hle

theorem SameMembers.inQueue_iff (h : SameMembers t t') (p : Slot) : t'.InQueue p ↔ t.InQueue p := by
  unfold InQueue
  rw [h.queue, h.size]

theorem SameMembers.minHeap (hs : SameMembers t t') (h : t.MinHeap m) : t'.MinHeap m where
  toQueued := h.toQueued.of_rearranged hs.size (hs.queue ▸ Rearranged.refl m _)
  heap := by
    intro j h2 hj
    have hpass : ∀ i, 1 ≤ i → i ≤ m → t'.pass (t'.strideQueue i) = t.pass (t.strideQueue i) := by
      intro i h1 hi
      obtain ⟨p, hp⟩ := h.filled i h1 hi
      rw [hs.queue, hp]
      simp only [pass, hs.strideCount p (h.inQueue_iff.mpr ⟨i, ⟨h1, hi⟩, hp⟩)]
    simp only [hpass (j / 2) (by omega) (by omega), hpass j (by omega) hj]
    exact h.heap j h2 hj

/-- What other processes do between two dispatches does not matter. -/
theorem Fairly.of_sameMembers (h : Fairly t0 m S d t) (hs : SameMembers t t') :
    Fairly t0 m S d t' where
  heap := hs.minHeap h.heap
  members p := (hs.inQueue_iff p).trans (h.members p)
  stride p hp := (hs.stride p ((h.members p).mpr hp)).trans (h.stride p hp)
  spread := by
    intro p q hp hq
    rw [hs.inQueue_iff] at hp hq
    rw [hs.strideCount p hp, hs.strideCount q hq]
    exact h.spread p q hp hq
  charges p hp := by
    rw [hs.strideCount p ((h.members p).mpr hp), h.charges p hp]
    simp only [atRoot, hs.queue]

/-- One dispatch: the root is charged and the new root runs. -/
theorem Fairly.dispatch (hm : 1 ≤ m ∧ m < NPROC)
    (hstride : ∀ p, t0.InQueue p → 0 ≤ (t0.proc p).stride.toInt ∧ (t0.proc p).stride.toInt ≤ S)
    (h : Fairly t0 m S d t) (hrun : t.AllRunnable) (hfits : t.ChargeFits)
    (hfind : t.findIdxOfStrideToRun = .ok (t', i)) (hp : t'.strideQueue i = some p) :
    Fairly t0 m S (update d p (d p + 1)) t' := by
  obtain ⟨r, hr⟩ := h.heap.filled 1 le_rfl hm.1
  have hrmem : t.InQueue r := h.heap.inQueue_iff.mpr ⟨1, ⟨le_rfl, hm.1⟩, hr⟩
  obtain ⟨t₁, hsel, hproc, hsize, hrearr, hheap⟩ := h.heap.select hm hr (hrun r hrmem)
  rw [hfind, Except.ok.injEq, Prod.mk.injEq] at hsel
  obtain ⟨rfl, rfl⟩ := hsel
  have hmem : ∀ x, t'.InQueue x ↔ t.InQueue x := h.heap.inQueue_rearranged hsize hrearr
  have hstr : ∀ x, (t'.proc x).stride = (t.proc x).stride := by
    intro x
    rw [hproc]
    by_cases hx : x = r
    · subst hx; simp [charge]
    · rw [charge, setProc_proc_of_ne _ _ hx]
  have hr0 : t0.InQueue r := (h.members r).mp hrmem
  obtain ⟨hpos, hle⟩ := hstride r hr0
  rw [← h.stride r hr0] at hpos hle
  -- the charge is exact
  have hcount : ∀ x, (t'.proc x).strideCount.toInt = (t.proc x).strideCount.toInt +
      t.atRoot x * (t.proc x).stride.toInt := by
    intro x
    rw [hproc, charge_strideCount]
    unfold atRoot
    by_cases hx : x = r
    · subst hx
      rw [if_pos rfl, if_pos hr, toInt_add_of_lt hpos (hfits x hr), one_mul]
    have hne : ¬ t.strideQueue 1 = some x := by
      rw [hr, Option.some.injEq]
      exact fun h => hx h.symm
    rw [if_neg hx, if_neg hne, zero_mul, add_zero]
  constructor
  case heap => exact hheap
  case members => exact fun x => (hmem x).trans (h.members x)
  case stride => exact fun x hx => (hstr x).trans (h.stride x hx)
  case spread =>
    -- every pass value is between the charged root's old value and that plus `S`
    have hlow : ∀ x, t.InQueue x →
        (t.proc r).strideCount.toInt ≤ (t'.proc x).strideCount.toInt := by
      intro x hx
      have hxr := h.heap.root_le hr hx
      rw [hcount]
      unfold atRoot
      split
      · next hroot =>
        obtain rfl : r = x := by simpa [hr] using hroot
        omega
      · omega
    have hhigh : ∀ x, t.InQueue x →
        (t'.proc x).strideCount.toInt ≤ (t.proc r).strideCount.toInt + S := by
      intro x hx
      have hxr := h.spread x r hx hrmem
      rw [hcount]
      unfold atRoot
      split
      · next hroot =>
        obtain rfl : r = x := by simpa [hr] using hroot
        omega
      · omega
    intro x y hx hy
    have h1 := hhigh x ((hmem x).mp hx)
    have h2 := hlow y ((hmem y).mp hy)
    omega
  case charges =>
    intro x hx
    have hnew : (update d p (d p + 1) x : Int) - t'.atRoot x = d x := by
      unfold atRoot
      simp only [hp, Option.some.injEq]
      by_cases hxp : x = p
      · subst hxp; simp
      · rw [update_of_ne hxp, if_neg (fun h => hxp h.symm), sub_zero]
    have hold := h.charges x hx
    have hs := h.stride x hx
    have hc := hcount x
    rw [hs] at hc
    rw [hc, hold]
    linear_combination (t0.proc x).stride.toInt * (-hnew)

theorem fairly_start (hheap : t0.MinHeap m)
    (hspread : t0.SpreadAtMost S) : Fairly t0 m S (fun _ => 0) t0 where
  heap := hheap
  members _ := Iff.rfl
  stride _ _ := rfl
  spread := hspread
  charges p _ := by simp

theorem fairly_of_dispatches (hm : 1 ≤ m ∧ m < NPROC) (hheap : t0.MinHeap m)
    (hspread : t0.SpreadAtMost S)
    (hstride : ∀ p, t0.InQueue p → 0 ≤ (t0.proc p).stride.toInt ∧ (t0.proc p).stride.toInt ≤ S)
    (h : Dispatches t0 d t) : Fairly t0 m S d t := by
  induction h with
  | start => exact fairly_start hheap hspread
  | run _ hrun hfits hfind hp hsame ih =>
    exact (ih.dispatch hm hstride hrun hfits hfind hp).of_sameMembers hsame

/-! ## Fairness -/

theorem abs_atRoot_sub_le (t t' : PTable) (p : Slot) : |t.atRoot p - t'.atRoot p| ≤ 1 := by
  unfold atRoot
  split <;> split <;> simp

/-- The runs of a member, weighed by its stride, follow its pass value up to
one stride. -/
theorem Fairly.abs_runs_sub_le (h : Fairly t0 m S d t) (hp : t0.InQueue p)
    (hpos : 0 ≤ (t0.proc p).stride.toInt) (hle : (t0.proc p).stride.toInt ≤ S) :
    |d p * (t0.proc p).stride.toInt -
      ((t.proc p).strideCount.toInt - (t0.proc p).strideCount.toInt)| ≤ S := by
  have hdiff : d p * (t0.proc p).stride.toInt -
      ((t.proc p).strideCount.toInt - (t0.proc p).strideCount.toInt) =
        (t.atRoot p - t0.atRoot p) * (t0.proc p).stride.toInt := by
    rw [h.charges p hp]
    ring
  rw [hdiff, abs_mul, abs_of_nonneg hpos]
  calc |t.atRoot p - t0.atRoot p| * (t0.proc p).stride.toInt
      ≤ 1 * (t0.proc p).stride.toInt := by
        gcongr
        exact abs_atRoot_sub_le t t0 p
    _ ≤ S := by rwa [one_mul]

theorem SpreadAtMost.abs_sub_le (h : t.SpreadAtMost S) {q : Slot} (hp : t.InQueue p)
    (hq : t.InQueue q) : |(t.proc p).strideCount.toInt - (t.proc q).strideCount.toInt| ≤ S := by
  rw [abs_le]
  have h1 := h p q hp hq
  have h2 := h q p hq hp
  omega

/-- A selection in a run of dispatches returns, with the index of a member. -/
theorem Fairly.select (hm : 1 ≤ m ∧ m < NPROC) (h : Fairly t0 m S d t) (hrun : t.AllRunnable) :
    ∃ t' i p, t.findIdxOfStrideToRun = .ok (t', i) ∧ (i : Int) ≤ t'.strideQueueSize ∧
      t'.strideQueue i = some p ∧ t0.InQueue p := by
  obtain ⟨r, hr⟩ := h.heap.filled 1 le_rfl hm.1
  have hrmem : t.InQueue r := h.heap.inQueue_iff.mpr ⟨1, ⟨le_rfl, hm.1⟩, hr⟩
  obtain ⟨t', hsel, -, hsize, hrearr, hheap⟩ := h.heap.select hm hr (hrun r hrmem)
  obtain ⟨p, hp⟩ := hheap.filled 1 le_rfl hm.1
  have hpmem := hheap.inQueue_iff.mpr ⟨1, ⟨le_rfl, hm.1⟩, hp⟩
  rw [h.heap.inQueue_rearranged hsize hrearr, h.members] at hpmem
  refine ⟨_, 1, p, hsel, ?_, hp, hpmem⟩
  rw [hheap.size]
  omega

/-- **Proportional fairness**: from a min-heap of spread at most `S`, the
largest stride, every number of dispatches keeps the spread, and the runs of
two members, weighed by their strides, never differ by more than `4 * S`.
Every selection on the way returns a member. -/
theorem fair_of_dispatches {t0 t : PTable} {m : Nat} {S : Int} {d : Slot → Nat}
    (hm : 1 ≤ m ∧ m ≤ NPROC - 1) (hheap : t0.MinHeap m) (hspread : t0.SpreadAtMost S)
    (hstride : ∀ p, t0.InQueue p → 0 ≤ (t0.proc p).stride.toInt ∧ (t0.proc p).stride.toInt ≤ S)
    (h : Dispatches t0 d t) :
    t.SpreadAtMost S ∧
      (∀ i j, t0.InQueue i → t0.InQueue j →
        |d i * (t0.proc i).stride.toInt - d j * (t0.proc j).stride.toInt| ≤ 4 * S) ∧
      (t.AllRunnable → ∃ t' k p, t.findIdxOfStrideToRun = .ok (t', k) ∧
        (k : Int) ≤ t'.strideQueueSize ∧ t'.strideQueue k = some p ∧ t0.InQueue p) := by
  have hm' : 1 ≤ m ∧ m < NPROC := by omega
  have hfair := fairly_of_dispatches hm' hheap hspread hstride h
  refine ⟨hfair.spread, fun i j hi hj => ?_, hfair.select hm'⟩
  have hruns_i := hfair.abs_runs_sub_le hi (hstride i hi).1 (hstride i hi).2
  have hruns_j := hfair.abs_runs_sub_le hj (hstride j hj).1 (hstride j hj).2
  have hnow := hfair.spread.abs_sub_le ((hfair.members i).mpr hi) ((hfair.members j).mpr hj)
  have hthen := hspread.abs_sub_le hi hj
  rw [abs_le] at *
  constructor <;> linarith [hruns_i.1, hruns_i.2, hruns_j.1, hruns_j.2]

/-- Two processes with shares of 50% and 10% that have just joined. -/
def twoMembers : PTable :=
  { PTable.pinit with
    proc := fun p => { Proc.zero with
      state := .runnable
      cpuShare := if p = 1 then 500 else 100
      stride := if p = 1 then 200 else 1000 }
    strideQueue := fun i => if i = 1 then some 2 else if i = 2 then some 1 else none
    sumCpuShare := 600
    strideQueueSize := 2 }

theorem minHeap_twoMembers : twoMembers.MinHeap 2 where
  size := rfl
  filled i h1 h2 := by
    rcases (by omega : i = 1 ∨ i = 2) with rfl | rfl
    · exact ⟨2, rfl⟩
    · exact ⟨1, rfl⟩
  ending i hi := by
    show (if i = 1 then some 2 else if i = 2 then some 1 else none : Option Slot) = none
    rw [if_neg (by omega), if_neg (by omega)]
  distinct i hi j hj heq := by
    simp only [Set.mem_Icc] at hi hj
    rcases (by omega : i = 1 ∨ i = 2) with rfl | rfl <;>
      rcases (by omega : j = 1 ∨ j = 2) with rfl | rfl <;>
      first | rfl | exact absurd heq (by decide)
  heap j h2 hj := by
    obtain rfl : j = 2 := by omega
    decide

theorem inQueue_twoMembers (h : twoMembers.InQueue p) : p = 1 ∨ p = 2 := by
  obtain ⟨i, hi, hp⟩ := minHeap_twoMembers.inQueue_iff.mp h
  rcases (by omega : i = 1 ∨ i = 2) with rfl | rfl
  · exact .inr (Option.some.inj hp).symm
  · exact .inl (Option.some.inj hp).symm

/-- The two processes after one dispatch. -/
theorem fair_twoMembers : ∃ d t, Dispatches twoMembers d t ∧ d 1 + d 2 = 1 ∧
    t.SpreadAtMost 1000 ∧ |d 1 * (200 : Int) - d 2 * 1000| ≤ 4 * 1000 := by
  have hspread : twoMembers.SpreadAtMost 1000 := fun p q _ _ => by
    show (0 : Int32).toInt - (0 : Int32).toInt ≤ 1000
    decide
  have hstride : ∀ p, 0 ≤ (twoMembers.proc p).stride.toInt ∧
      (twoMembers.proc p).stride.toInt ≤ 1000 := by decide
  have hfits : twoMembers.ChargeFits := by
    intro r hr
    cases Option.some.inj hr
    decide
  obtain ⟨t, i, p, hfind, -, hp, hpmem⟩ :=
    (fairly_start minHeap_twoMembers hspread).select (by decide) fun _ _ => rfl
  have hrun : Dispatches twoMembers (update (fun _ => 0) p 1) t :=
    .run .start (fun _ _ => rfl) hfits hfind hp ⟨rfl, rfl, fun _ _ => rfl, fun _ _ => rfl⟩
  obtain ⟨hkeep, hfair, -⟩ := fair_of_dispatches (by decide) minHeap_twoMembers hspread
    (fun p _ => hstride p) hrun
  have hone : twoMembers.InQueue 1 := ⟨2, by decide, by decide, rfl⟩
  have htwo : twoMembers.InQueue 2 := ⟨1, by decide, by decide, rfl⟩
  refine ⟨_, t, hrun, ?_, hkeep, hfair 1 2 hone htwo⟩
  rcases inQueue_twoMembers hpmem with rfl | rfl <;> decide

end PTable
end Xv6
