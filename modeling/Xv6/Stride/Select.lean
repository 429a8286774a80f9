import Xv6.Stride

/-!
# Xv6.Stride.Select

Which process a stride selection charges, and which one it hands to
`scheduler()`.

`find_idx_of_stride_to_run` charges the `RUNNABLE` process its search ends
at, lets the heap sift it down, and returns the *index*; `scheduler()` then runs
whatever the sift left there.
-/

namespace Xv6
namespace PTable

open Lib Function

/-! ## The search path -/

/-- Index `i` of the queue holds a `RUNNABLE` process. -/
def RunnableAt (t : PTable) (i : Nat) : Prop :=
  ∃ p, t.strideQueue i = some p ∧ (t.proc p).state = .runnable

/-- The entries `1 .. stride_queue_size` are not null. -/
def QueueFull (t : PTable) : Prop :=
  ∀ i : Nat, 1 ≤ i → (i : Int) ≤ t.strideQueueSize → ∃ p, t.strideQueue i = some p

/-- The indices the search visits: from the root, past every process that is
not `RUNNABLE`, to the child with the smaller `stride_count`. -/
inductive SearchReaches (t : PTable) : Nat → Prop where
  | root : SearchReaches t 1
  | both {i : Nat} {l r : Slot} : SearchReaches t i → ¬ t.RunnableAt i →
      ((i * 2 + 1 : Nat) : Int) ≤ t.strideQueueSize →
      t.strideQueue (i * 2) = some l → t.strideQueue (i * 2 + 1) = some r →
      SearchReaches t (t.smallerChild i l r).1
  | leftOnly {i : Nat} : SearchReaches t i → ¬ t.RunnableAt i →
      ((i * 2 : Nat) : Int) = t.strideQueueSize → SearchReaches t (i * 2)

/-- The sift that follows the charge of `p` at index `i` leaves it there: no
child that the sift looks at is below the new `stride_count` of `p`. -/
def StaysAt (t : PTable) (i : Nat) (p : Slot) : Prop :=
  i * 2 < NPROC → ∀ l, t.strideQueue (i * 2) = some l →
    (l = p ∨ (t.proc p).strideCount + (t.proc p).stride ≤ (t.proc l).strideCount) ∧
    ∀ r, t.strideQueue (i * 2 + 1) = some r →
      r = p ∨ (t.proc p).strideCount + (t.proc p).stride ≤ (t.proc r).strideCount

/-- The condition on the queue under which the selection is right: nothing in
it is `RUNNABLE`, or the search reaches a `RUNNABLE` process with a non-zero
stride that the sift leaves where it is. -/
def FindSound (t : PTable) : Prop :=
  (∀ i : Nat, 1 ≤ i → (i : Int) ≤ t.strideQueueSize → ¬ t.RunnableAt i) ∨
  ∃ i p, t.SearchReaches i ∧ (i : Int) ≤ t.strideQueueSize ∧ t.strideQueue i = some p ∧
    (t.proc p).state = .runnable ∧ (t.proc p).stride ≠ 0 ∧ t.StaysAt i p

/-! ## What a right selection is -/

/-- The `stride_count` of `p` was increased by its own stride. -/
def Charged (t t' : PTable) (p : Slot) : Prop :=
  (t'.proc p).strideCount ≠ (t.proc p).strideCount ∧
    (t'.proc p).strideCount = (t.proc p).strideCount + (t.proc p).stride

/-- The call of `find_idx_of_stride_to_run` returns, and if the index is in
the queue then the process stored there afterwards, which `scheduler()`
switches to, was `RUNNABLE` and is the one and only process charged. -/
def SelectsCharged (t : PTable) : Prop :=
  ∃ t' i, t.findIdxOfStrideToRun = .ok (t', i) ∧
    ((i : Int) ≤ t'.strideQueueSize →
      ∃ p, t'.strideQueue i = some p ∧ (t.proc p).state = .runnable ∧
        ∀ q, Charged t t' q ↔ q = p)

/-! ## The charge and the sift -/

@[simp] theorem charge_strideQueue (t : PTable) (p : Slot) :
    (t.charge p).strideQueue = t.strideQueue := rfl

@[simp] theorem charge_strideQueueSize (t : PTable) (p : Slot) :
    (t.charge p).strideQueueSize = t.strideQueueSize := rfl

theorem charge_strideCount (t : PTable) (p q : Slot) :
    ((t.charge p).proc q).strideCount =
      if q = p then (t.proc p).strideCount + (t.proc p).stride else (t.proc q).strideCount := by
  by_cases h : q = p
  · subst h; simp [charge]
  · rw [if_neg h, charge, setProc_proc_of_ne _ _ h]

/-- A charge changes nothing when the stride is zero, and otherwise charges
the one process. -/
theorem charged_charge (t : PTable) (p q : Slot) :
    Charged t (t.charge p) q ↔ q = p ∧ (t.proc p).stride ≠ 0 := by
  unfold Charged
  rw [charge_strideCount]
  by_cases h : q = p
  · subst h; simp
  · simp [h]

/-- Sifting down from an index that holds `p` succeeds and changes the queue
only.  If no child is below `p` the entry stays; otherwise a process strictly
below `p` replaces it. -/
theorem strideQueueHeapifyDown_entry (t : PTable) (i : Nat) (p : Slot) (hi : 1 ≤ i)
    (hsize : (i : Int) ≤ t.strideQueueSize) (hp : t.strideQueue i = some p) :
    ∃ q, t.strideQueueHeapifyDown i = .ok { t with strideQueue := q } ∧
      ((q i = some p ∧ (i * 2 < NPROC → ∀ l, t.strideQueue (i * 2) = some l →
          ¬ (t.proc l).strideCount < (t.proc p).strideCount ∧
          ∀ r, t.strideQueue (i * 2 + 1) = some r →
            ¬ (t.proc r).strideCount < (t.proc p).strideCount)) ∨
        (∃ c, q i = some c ∧ (t.proc c).strideCount < (t.proc p).strideCount ∧ i * 2 < NPROC ∧
          ∃ l, t.strideQueue (i * 2) = some l ∧
            (c = l ∨ t.strideQueue (i * 2 + 1) = some c))) := by
  obtain ⟨r, hr⟩ := heapifyDownLoop_ok t p NPROC t.strideQueue i
  refine ⟨update r.1 r.2 (some p), ?_, ?_⟩
  · simp only [strideQueueHeapifyDown, hp, hr, ok_bind, pure_eq_ok]
  · replace hr : heapifyDownLoop t (some p) (63 + 1) t.strideQueue i = .ok r := hr
    cases hl : t.strideQueue (i * 2) with
    | none =>
      have hstop : r = (t.strideQueue, i) := by
        simp only [heapifyDownLoop, hl] at hr
        split at hr <;> exact (Except.ok.inj hr).symm
      rw [hstop]
      exact .inl ⟨update_self .., fun _ l h => by contradiction⟩
    | some l =>
      rcases heapifyDownLoop_cases hr with ⟨rfl, hstops⟩ | ⟨c, x, hto, hrest⟩
      · refine .inl ⟨update_self .., fun hleaf l' hl' => ?_⟩
        obtain ⟨k, hk, hstay⟩ := hstops hleaf hsize l' (hl.trans hl')
        cases hk
        exact hstay
      · obtain ⟨k, hk, hlt⟩ := hto.below
        cases hk
        have hic := hto.lt hi
        refine .inr ⟨x, ?_, hlt, hto.room, l, rfl, ?_⟩
        · rcases hrest with hrest | ⟨-, -, rfl⟩
          · obtain ⟨hle, hkept⟩ := heapifyDownLoop_below _ _ _ _ _ (by omega) _ hrest
            rw [update_of_ne (by omega), hkept i hic, update_self]
          · exact (update_of_ne hic.ne ..).trans (update_self ..)
        · have hentry := hto.entry
          rcases hto.child with rfl | rfl
          · exact .inl (Option.some.inj (hentry.symm.trans hl))
          · exact .inr hentry

/-- Charging the process at index `i` and sifting it down leaves it there
exactly when `StaysAt` says so. -/
theorem charge_heapifyDown (t : PTable) (i : Nat) (p : Slot) (hi : 1 ≤ i)
    (hsize : (i : Int) ≤ t.strideQueueSize) (hp : t.strideQueue i = some p) :
    ∃ q, (t.charge p).strideQueueHeapifyDown i = .ok { t.charge p with strideQueue := q } ∧
      ((q i = some p ∧ t.StaysAt i p) ∨ (∃ c, q i = some c ∧ c ≠ p ∧ ¬ t.StaysAt i p)) := by
  have hkey : ∀ c, ¬ ((t.charge p).proc c).strideCount < ((t.charge p).proc p).strideCount ↔
      c = p ∨ (t.proc p).strideCount + (t.proc p).stride ≤ (t.proc c).strideCount := by
    intro c
    rw [charge_strideCount, charge_strideCount, if_pos rfl, Int32.not_lt]
    by_cases h : c = p
    · simp [h]
    · simp [h]
  obtain ⟨q, hq, hcase⟩ := strideQueueHeapifyDown_entry (t.charge p) i p hi hsize hp
  refine ⟨q, hq, ?_⟩
  simp only [charge_strideQueue] at hcase
  rcases hcase with ⟨hqi, hstay⟩ | ⟨c, hqi, hlt, hleaf, l, hl, hc⟩
  · refine .inl ⟨hqi, fun hleaf l hl => ?_⟩
    obtain ⟨hl', hr'⟩ := hstay hleaf l hl
    exact ⟨(hkey l).mp hl', fun r hr => (hkey r).mp (hr' r hr)⟩
  · have hmoved : ¬ (c = p ∨ (t.proc p).strideCount + (t.proc p).stride ≤ (t.proc c).strideCount) :=
      fun h => (hkey c).mpr h hlt
    refine .inr ⟨c, hqi, fun h => hmoved (.inl h), fun hstay => hmoved ?_⟩
    obtain ⟨hl', hr'⟩ := hstay hleaf l hl
    rcases hc with rfl | hr
    · exact hl'
    · exact hr' c hr

/-! ## The search -/

theorem SearchReaches.pos {t : PTable} {i : Nat} (h : t.SearchReaches i) : 1 ≤ i := by
  induction h with
  | root => exact le_rfl
  | @both i l r _ _ _ _ _ ih => rcases smallerChild_index t i l r with hc | hc <;> omega
  | leftOnly _ _ _ ih => omega

/-- One turn of the search at an index whose process is not `RUNNABLE`. -/
theorem findLoop_down (t : PTable) (hfull : t.QueueFull) (fuel i : Nat) (hi : 1 ≤ i)
    (hsize : (i : Int) ≤ t.strideQueueSize) (hrun : ¬ t.RunnableAt i) :
    (∃ l r, ((i * 2 + 1 : Nat) : Int) ≤ t.strideQueueSize ∧ t.strideQueue (i * 2) = some l ∧
        t.strideQueue (i * 2 + 1) = some r ∧
        t.findLoop (fuel + 1) i = t.findLoop fuel (t.smallerChild i l r).1) ∨
      (((i * 2 : Nat) : Int) = t.strideQueueSize ∧
        t.findLoop (fuel + 1) i = t.findLoop fuel (i * 2)) ∨
      t.strideQueueSize < ((i * 2 : Nat) : Int) ∧
        t.findLoop (fuel + 1) i = t.findLoop fuel (t.strideQueueSize + 1).toNat := by
  obtain ⟨p, hp⟩ := hfull i hi hsize
  have hst : ¬ (t.proc p).state = .runnable := fun h => hrun ⟨p, hp, h⟩
  by_cases hright : ((i * 2 + 1 : Nat) : Int) ≤ t.strideQueueSize
  · obtain ⟨l, hl⟩ := hfull (i * 2) (by omega) (by omega)
    obtain ⟨r, hr⟩ := hfull (i * 2 + 1) (by omega) hright
    refine .inl ⟨l, r, hright, hl, hr, ?_⟩
    simp only [findLoop, if_pos hsize, hp, deref, ok_bind, if_neg hst, if_pos hright, hl, hr,
      strideCountOf_some, smallerChild]
    split <;> rfl
  · by_cases hleft : ((i * 2 : Nat) : Int) > t.strideQueueSize
    · refine .inr (.inr ⟨hleft, ?_⟩)
      simp only [findLoop, if_pos hsize, hp, deref, ok_bind, if_neg hst, if_neg hright,
        if_pos hleft]
    · refine .inr (.inl ⟨by omega, ?_⟩)
      simp only [findLoop, if_pos hsize, hp, deref, ok_bind, if_neg hst, if_neg hright,
        if_neg hleft]

theorem findLoop_found (t : PTable) (fuel i : Nat) (p : Slot)
    (hsize : (i : Int) ≤ t.strideQueueSize) (hp : t.strideQueue i = some p)
    (hrun : (t.proc p).state = .runnable) {q : Nat → Option Slot}
    (hq : (t.charge p).strideQueueHeapifyDown i = .ok { t.charge p with strideQueue := q }) :
    t.findLoop (fuel + 1) i = .ok ({ t.charge p with strideQueue := q }, i) := by
  simp only [findLoop, if_pos hsize, hp, deref, ok_bind, if_pos hrun, hq, pure_eq_ok]

/-- The search from the root passes through every index of the path, with
fuel to spare. -/
theorem findLoop_of_reaches (t : PTable) (hfull : t.QueueFull) {i : Nat} (h : t.SearchReaches i) :
    ∃ fuel, t.strideQueueSize.toNat + 2 ≤ fuel + i ∧
      t.findLoop (t.strideQueueSize.toNat + 1) 1 = t.findLoop fuel i := by
  induction h with
  | root => exact ⟨_, by omega, rfl⟩
  | @both i l r hi hrun hright hl hr ih =>
    obtain ⟨fuel, hfuel, heq⟩ := ih
    have hpos := hi.pos
    obtain ⟨fuel, rfl⟩ : ∃ n, fuel = n + 1 := ⟨fuel - 1, by omega⟩
    refine ⟨fuel, ?_, ?_⟩
    · rcases smallerChild_index t i l r with hc | hc <;> omega
    · rw [heq]
      rcases findLoop_down t hfull fuel i hpos (by omega) hrun with
        ⟨l', r', _, hl', hr', hdown⟩ | ⟨hlast, _⟩ | ⟨hlast, _⟩
      · rw [hdown]
        rw [hl] at hl'
        rw [hr] at hr'
        rw [Option.some.inj hl', Option.some.inj hr']
      · omega
      · omega
  | @leftOnly i hi hrun hleft ih =>
    obtain ⟨fuel, hfuel, heq⟩ := ih
    have hpos := hi.pos
    obtain ⟨fuel, rfl⟩ : ∃ n, fuel = n + 1 := ⟨fuel - 1, by omega⟩
    refine ⟨fuel, by omega, ?_⟩
    rw [heq]
    rcases findLoop_down t hfull fuel i hpos (by omega) hrun with
      ⟨_, _, hboth, _⟩ | ⟨_, hdown⟩ | ⟨hlast, _⟩
    · omega
    · exact hdown
    · omega

/-- The path leaves the queue at the index behind the last member. -/
theorem SearchReaches.past {t : PTable} {i : Nat} (h : t.SearchReaches i)
    (hi : t.strideQueueSize < i) : i = t.strideQueueSize.toNat + 1 := by
  cases h with
  | root => omega
  | @both i l r _ _ _ _ _ =>
    rcases smallerChild_index t i l r with hc | hc <;> omega
  | leftOnly => omega

theorem findLoop_past (t : PTable) (fuel : Nat) {i : Nat} (hi : t.strideQueueSize < i) :
    t.findLoop fuel i = .ok (t, i) := by
  cases fuel with
  | zero => rfl
  | succ fuel => simp only [findLoop, if_neg (Int.not_le.mpr hi)]

/-- The search ends at a `RUNNABLE` process of its path, or past the queue. -/
theorem findLoop_cases (t : PTable) (hfull : t.QueueFull) (fuel i : Nat) (hi : t.SearchReaches i)
    (hfuel : t.strideQueueSize.toNat + 2 ≤ fuel + i) :
    (∃ k p, t.SearchReaches k ∧ (k : Int) ≤ t.strideQueueSize ∧ t.strideQueue k = some p ∧
        (t.proc p).state = .runnable) ∨
      t.findLoop fuel i = .ok (t, t.strideQueueSize.toNat + 1) := by
  induction fuel generalizing i with
  | zero => exact .inr (hi.past (by omega) ▸ rfl)
  | succ fuel ih =>
    have hpos := hi.pos
    by_cases hsize : (i : Int) ≤ t.strideQueueSize
    · obtain ⟨p, hp⟩ := hfull i hpos hsize
      by_cases hrun : t.RunnableAt i
      · obtain ⟨p, hp, hrun⟩ := hrun
        exact .inl ⟨i, p, hi, hsize, hp, hrun⟩
      rcases findLoop_down t hfull fuel i hpos hsize hrun with
        ⟨l, r, hright, hl, hr, hdown⟩ | ⟨hleft, hdown⟩ | ⟨_, hdown⟩
      · rw [hdown]
        refine ih _ (.both hi hrun hright hl hr) ?_
        rcases smallerChild_index t i l r with hc | hc <;> omega
      · rw [hdown]
        exact ih _ (.leftOnly hi hrun hleft) (by omega)
      · right
        rw [hdown]
        rw [findLoop_past t fuel (by omega), Int.toNat_add (by omega) (by omega)]
        rfl
    · have hpast : t.strideQueueSize < i := by omega
      rw [findLoop_past t _ hpast, hi.past hpast]
      exact .inr rfl

/-- The linear scan finds the first `RUNNABLE` process if there is one. -/
theorem scanRunnable_spec (t : PTable) (hfull : t.QueueFull) (n i : Nat) (hi : 1 ≤ i)
    (hn : ∀ k : Nat, k < n → ((i + k : Nat) : Int) ≤ t.strideQueueSize) :
    (t.scanRunnable n i = .ok none ∧ ∀ k, i ≤ k → k < i + n → ¬ t.RunnableAt k) ∨
      ∃ k, t.scanRunnable n i = .ok (some k) ∧ i ≤ k ∧ k < i + n ∧ t.RunnableAt k ∧
        ∀ j, i ≤ j → j < k → ¬ t.RunnableAt j := by
  induction n generalizing i with
  | zero => exact .inl ⟨rfl, fun k h1 h2 => by omega⟩
  | succ n ih =>
    obtain ⟨p, hp⟩ := hfull i hi (hn 0 (by omega))
    have hn' : ∀ k : Nat, k < n → ((i + 1 + k : Nat) : Int) ≤ t.strideQueueSize := by
      intro k hk
      have := hn (k + 1) (by omega)
      omega
    by_cases hrun : (t.proc p).state = .runnable
    · refine .inr ⟨i, ?_, le_rfl, by omega, ⟨p, hp, hrun⟩, fun j h1 h2 => by omega⟩
      simp only [scanRunnable, hp, deref, ok_bind, if_pos hrun, pure_eq_ok]
    have hnot : ¬ t.RunnableAt i := by
      rintro ⟨p', hp', hrun'⟩
      rw [hp] at hp'
      exact hrun (Option.some.inj hp' ▸ hrun')
    have hstep : t.scanRunnable (n + 1) i = t.scanRunnable n (i + 1) := by
      simp only [scanRunnable, hp, deref, ok_bind, if_neg hrun]
    have hlater : ∀ {j : Nat}, i ≤ j → (i + 1 ≤ j → ¬ t.RunnableAt j) → ¬ t.RunnableAt j := by
      intro j h1 h
      rcases Nat.eq_or_lt_of_le h1 with rfl | hlt
      · exact hnot
      · exact h hlt
    rw [hstep]
    rcases ih (i + 1) (by omega) hn' with ⟨hnone, hall⟩ | ⟨k, hk, h1, h2, h3, hfirst⟩
    · exact .inl ⟨hnone, fun k h1 h2 => hlater h1 fun h => hall k h (by omega)⟩
    · exact .inr ⟨k, hk, by omega, by omega, h3, fun j h1 h2 => hlater h1 fun h => hfirst j h h2⟩

/-! ## The selection as a whole -/

/-- When the path meets a `RUNNABLE` process, it is charged and its index is returned. -/
theorem find_of_reaches (t : PTable) (hfull : t.QueueFull) {k : Nat} {p : Slot}
    (hk : t.SearchReaches k) (hsize : (k : Int) ≤ t.strideQueueSize)
    (hp : t.strideQueue k = some p) (hrun : (t.proc p).state = .runnable) :
    ∃ q, t.findIdxOfStrideToRun = .ok ({ t.charge p with strideQueue := q }, k) ∧
      ((q k = some p ∧ t.StaysAt k p) ∨ (∃ c, q k = some c ∧ c ≠ p ∧ ¬ t.StaysAt k p)) := by
  obtain ⟨fuel, hfuel, heq⟩ := findLoop_of_reaches t hfull hk
  obtain ⟨q, hq, hcase⟩ := charge_heapifyDown t k p hk.pos hsize hp
  obtain ⟨fuel, rfl⟩ : ∃ n, fuel = n + 1 := ⟨fuel - 1, by omega⟩
  refine ⟨q, ?_, hcase⟩
  simp only [findIdxOfStrideToRun, heq, findLoop_found t fuel k p hsize hp hrun hq, ok_bind,
    charge_strideQueueSize, pure_eq_ok]
  rw [if_neg (by omega)]

/-- Otherwise nothing is charged, and the first `RUNNABLE` process of the array is found, or
nobody. -/
theorem find_of_not_reaches (t : PTable) (hfull : t.QueueFull)
    (hnone : ¬ ∃ k, t.SearchReaches k ∧ (k : Int) ≤ t.strideQueueSize ∧ t.RunnableAt k) :
    ∃ k : Nat, t.findIdxOfStrideToRun = .ok (t, k) ∧ 1 ≤ k ∧ k ≤ t.strideQueueSize.toNat + 1 ∧
      ((k : Int) ≤ t.strideQueueSize → t.RunnableAt k) ∧
      ∀ j : Nat, 1 ≤ j → (j : Int) ≤ t.strideQueueSize → j < k → ¬ t.RunnableAt j := by
  rcases findLoop_cases t hfull _ 1 .root le_rfl with ⟨m, x, hm, hms, hx, hxr⟩ | hloop
  · exact absurd ⟨m, hm, hms, x, hx, hxr⟩ hnone
  rcases scanRunnable_spec t hfull t.strideQueueSize.toNat 1 le_rfl (fun k hk => by omega) with
    ⟨hscan, hall⟩ | ⟨k, hscan, h1, h2, hrun, hfirst⟩
  · refine ⟨_, ?_, by omega, le_rfl, fun h => by omega, fun j h1 h2 _ => hall j h1 (by omega)⟩
    simp only [findIdxOfStrideToRun, hloop, ok_bind, hscan, pure_eq_ok]
    rw [if_pos (by omega)]
  · refine ⟨k, ?_, h1, by omega, fun _ => hrun, fun j h1 _ => hfirst j h1⟩
    simp only [findIdxOfStrideToRun, hloop, ok_bind, hscan, pure_eq_ok]
    rw [if_pos (by omega)]

theorem not_charged_self (t : PTable) (p : Slot) : ¬ Charged t t p := fun h => h.1 rfl

/-- **Stride selection**: the process that `scheduler()` switches to was
`RUNNABLE` and is the one and only process charged exactly when nothing in
the queue is `RUNNABLE` or the search finds a process that the sift after its
charge does not move. -/
theorem selectsCharged_iff_findSound (t : PTable) (hfull : t.QueueFull) :
    t.SelectsCharged ↔ t.FindSound := by
  by_cases hpath : ∃ k, t.SearchReaches k ∧ (k : Int) ≤ t.strideQueueSize ∧ t.RunnableAt k
  · obtain ⟨k, hk, hsize, p, hp, hrun⟩ := hpath
    obtain ⟨q, hfind, hcase⟩ := find_of_reaches t hfull hk hsize hp hrun
    have hcharged : ∀ x, Charged t { t.charge p with strideQueue := q } x ↔
        x = p ∧ (t.proc p).stride ≠ 0 := charged_charge t p
    constructor
    · rintro ⟨t', i, hret, hsel⟩
      rw [hfind, Except.ok.injEq, Prod.mk.injEq] at hret
      obtain ⟨rfl, rfl⟩ := hret
      obtain ⟨x, hx, -, hall⟩ := hsel hsize
      obtain ⟨rfl, hstride⟩ := (hcharged x).mp ((hall x).mpr rfl)
      rcases hcase with ⟨_, hstay⟩ | ⟨c, hc, hne, _⟩
      · exact .inr ⟨k, x, hk, hsize, hp, hrun, hstride, hstay⟩
      · simp only [hc, Option.some.injEq] at hx
        exact absurd hx hne
    · rintro (hnone | ⟨k', p', hk', hsize', hp', hrun', hstride, hstay⟩)
      · exact absurd ⟨p, hp, hrun⟩ (hnone k hk.pos hsize)
      · -- the search is deterministic: both indices are the one it returns
        obtain ⟨q', hfind', -⟩ := find_of_reaches t hfull hk' hsize' hp' hrun'
        rw [hfind, Except.ok.injEq, Prod.mk.injEq] at hfind'
        obtain rfl := hfind'.2
        rw [hp] at hp'
        obtain rfl := Option.some.inj hp'
        refine ⟨_, k, hfind, fun _ => ⟨p, ?_, hrun, fun x => ?_⟩⟩
        · rcases hcase with ⟨hqk, _⟩ | ⟨_, _, _, hmoved⟩
          · exact hqk
          · exact absurd hstay hmoved
        · rw [hcharged x]
          exact ⟨fun h => h.1, fun h => ⟨h, hstride⟩⟩
  · obtain ⟨k, hfind, hk, -, hrun, hfirst⟩ := find_of_not_reaches t hfull hpath
    constructor
    · rintro ⟨t', i, hret, hsel⟩
      rw [hfind, Except.ok.injEq, Prod.mk.injEq] at hret
      obtain ⟨rfl, rfl⟩ := hret
      refine .inl fun j hj hjs hjr => ?_
      by_cases hks : (k : Int) ≤ t.strideQueueSize
      · obtain ⟨x, -, -, hx⟩ := hsel hks
        exact not_charged_self t x ((hx x).mpr rfl)
      · exact hfirst j hj hjs (by omega) hjr
    · rintro (hnone | ⟨k', p', hk', hsize', hp', hrun', -⟩)
      · exact ⟨t, k, hfind, fun hks => absurd (hrun hks) (hnone k hk hks)⟩
      · exact absurd ⟨k', hk', hsize', p', hp', hrun'⟩ hpath

/-! ## What the search reads -/

/-- The search has ended when the fuel that it is given runs out. -/
theorem findLoop_fuel (t : PTable) (n fuel i : Nat) (hi : 1 ≤ i)
    (hfuel : t.strideQueueSize.toNat + 2 ≤ fuel + i) :
    t.findLoop (fuel + n) i = t.findLoop fuel i := by
  induction fuel generalizing i with
  | zero => rw [findLoop_past t _ (by omega), findLoop_past t _ (by omega)]
  | succ fuel ih =>
    rw [Nat.add_right_comm]
    unfold findLoop
    split
    · refine bind_congr fun p => ?_
      split
      · rfl
      split
      · refine bind_congr fun l => bind_congr fun r => ?_
        split
        · exact ih _ (by omega) (by omega)
        · exact ih _ (by omega) (by omega)
      · split
        · exact ih _ (by omega) (by omega)
        · exact ih _ (by omega) (by omega)
    · rfl

section Members

variable {t : PTable} {q : Nat → Option Slot} {i k : Nat}
  (hq : ∀ i : Nat, 1 ≤ i → (i : Int) ≤ t.strideQueueSize → q i = t.strideQueue i)

include hq

theorem runnableAt_members (hi : 1 ≤ i) (hsize : (i : Int) ≤ t.strideQueueSize) :
    { t with strideQueue := q }.RunnableAt i ↔ t.RunnableAt i := by
  simp only [RunnableAt, hq i hi hsize]

theorem SearchReaches.members (h : t.SearchReaches i) :
    { t with strideQueue := q }.SearchReaches i := by
  induction h with
  | root => exact .root
  | both hi hrun hright hl hr ih =>
    have hpos := hi.pos
    exact .both ih (mt (runnableAt_members hq hpos (by omega)).mp hrun) hright
      ((hq _ (by omega) (by omega)).trans hl) ((hq _ (by omega) hright).trans hr)
  | leftOnly hi hrun hleft ih =>
    exact .leftOnly ih (mt (runnableAt_members hq hi.pos (by omega)).mp hrun) hleft

theorem find_members {t' : PTable} (hfull : t.QueueFull)
    (hfind : t.findIdxOfStrideToRun = .ok (t', k)) :
    ∃ t'', { t with strideQueue := q }.findIdxOfStrideToRun = .ok (t'', k) := by
  have hfull' : { t with strideQueue := q }.QueueFull := fun i hi hs => by
    obtain ⟨p, hp⟩ := hfull i hi hs
    exact ⟨p, (hq i hi hs).trans hp⟩
  by_cases hpath : ∃ k, t.SearchReaches k ∧ (k : Int) ≤ t.strideQueueSize ∧ t.RunnableAt k
  · obtain ⟨m, hm, hs, p, hp, hrun⟩ := hpath
    obtain ⟨_, hret, -⟩ := find_of_reaches t hfull hm hs hp hrun
    obtain ⟨_, hret', -⟩ :=
      find_of_reaches _ hfull' (hm.members hq) hs ((hq m hm.pos hs).trans hp) hrun
    simp only [hfind, Except.ok.injEq, Prod.mk.injEq] at hret
    exact ⟨_, hret.2 ▸ hret'⟩
  · have hpath' : ¬ ∃ k : Nat, { t with strideQueue := q }.SearchReaches k ∧
        (k : Int) ≤ t.strideQueueSize ∧ { t with strideQueue := q }.RunnableAt k := by
      rintro ⟨m, hm, hs, hrun⟩
      have hback : t.SearchReaches m := SearchReaches.members (t := { t with strideQueue := q })
        (fun i hi hs => (hq i hi hs).symm) hm
      exact hpath ⟨m, hback, hs, (runnableAt_members hq hm.pos hs).mp hrun⟩
    obtain ⟨m, hret, hm, hle, hrun, hfirst⟩ := find_of_not_reaches t hfull hpath
    obtain ⟨m', hret', hm', hle', hrun', hfirst'⟩ := find_of_not_reaches _ hfull' hpath'
    simp only [hfind, Except.ok.injEq, Prod.mk.injEq] at hret
    obtain ⟨-, rfl⟩ := hret
    -- both are the first index with a `RUNNABLE` process, or the one behind the queue
    rcases Nat.lt_trichotomy k m' with hlt | heq | hgt
    · have hs : (k : Int) ≤ t.strideQueueSize := by simp only at hle'; omega
      exact absurd ((runnableAt_members hq hm hs).mpr (hrun hs)) (hfirst' k hm hs hlt)
    · exact ⟨_, heq ▸ hret'⟩
    · have hs : (m' : Int) ≤ t.strideQueueSize := by omega
      exact absurd ((runnableAt_members hq hm' hs).mp (hrun' hs)) (hfirst m' hm' hs hgt)

end Members

/-- **The search misses no `RUNNABLE` member**: it ends, returns the index of a member exactly
when some member is `RUNNABLE`, and returns the same index whatever the slots outside
`1..stride_queue_size` hold, also when they are null and reading through one would fault. -/
theorem find_returns_member_iff (t : PTable) (hfull : t.QueueFull) :
    (∀ n, t.findLoop (t.strideQueueSize.toNat + 1 + n) 1 =
      t.findLoop (t.strideQueueSize.toNat + 1) 1) ∧
    ∃ t' k, t.findIdxOfStrideToRun = .ok (t', k) ∧
      ((k : Int) ≤ t.strideQueueSize ↔
        ∃ i : Nat, 1 ≤ i ∧ (i : Int) ≤ t.strideQueueSize ∧ t.RunnableAt i) ∧
      ∀ q, (∀ i : Nat, 1 ≤ i → (i : Int) ≤ t.strideQueueSize → q i = t.strideQueue i) →
        ∃ t'', { t with strideQueue := q }.findIdxOfStrideToRun = .ok (t'', k) := by
  refine ⟨fun n => findLoop_fuel t n _ 1 le_rfl le_rfl, ?_⟩
  by_cases hpath : ∃ k, t.SearchReaches k ∧ (k : Int) ≤ t.strideQueueSize ∧ t.RunnableAt k
  · obtain ⟨k, hk, hs, p, hp, hrun⟩ := hpath
    obtain ⟨_, hfind, -⟩ := find_of_reaches t hfull hk hs hp hrun
    exact ⟨_, k, hfind, iff_of_true hs ⟨k, hk.pos, hs, p, hp, hrun⟩,
      fun q hq => find_members hq hfull hfind⟩
  · obtain ⟨k, hfind, hk, -, hrun, hfirst⟩ := find_of_not_reaches t hfull hpath
    refine ⟨t, k, hfind, ⟨fun hs => ⟨k, hk, hs, hrun hs⟩, ?_⟩,
      fun q hq => find_members hq hfull hfind⟩
    rintro ⟨i, hi, his, hir⟩
    have hki : k ≤ i := Nat.le_of_not_lt fun hlt => hfirst i hi his hlt hir
    omega

/-- A queue of two: the process at the root is `RUNNABLE` and its charge takes
it past its only child, which is asleep. -/
def sleeperBehind : PTable :=
  { pinit with
    proc := fun p =>
      if p = 1 then { Proc.zero with state := .runnable, cpuShare := 100, stride := 1000 }
      else if p = 2 then
        { Proc.zero with state := .sleeping, cpuShare := 200, stride := 500, strideCount := 500 }
      else Proc.zero
    strideQueue := fun i => if i = 1 then some 1 else if i = 2 then some 2 else none
    sumCpuShare := 300
    strideQueueSize := 2 }

theorem sleeperBehind_queueFull : sleeperBehind.QueueFull := by
  intro i h1 h2
  have h2 : i ≤ 2 := by simpa [sleeperBehind] using h2
  interval_cases i
  · exact ⟨1, rfl⟩
  · exact ⟨2, rfl⟩

theorem sleeperBehind_returns_member : sleeperBehind.QueueFull ∧
    ∃ t' k, sleeperBehind.findIdxOfStrideToRun = .ok (t', k) ∧ (k : Int) ≤ 2 := by
  obtain ⟨-, t', k, hfind, hiff, -⟩ := find_returns_member_iff _ sleeperBehind_queueFull
  exact ⟨sleeperBehind_queueFull, t', k, hfind, hiff.mpr ⟨1, le_rfl, by decide, 1, rfl, rfl⟩⟩

/-- The call charges process 1 and has `scheduler()` switch to process 2,
which is `SLEEPING`. -/
theorem not_selectsCharged_sleeperBehind :
    sleeperBehind.QueueFull ∧ ¬ sleeperBehind.SelectsCharged := by
  refine ⟨sleeperBehind_queueFull, ?_⟩
  have hret : sleeperBehind.findIdxOfStrideToRun.map (fun r => (r.2, r.1.strideQueueSize,
      r.1.strideQueue r.2)) = .ok (1, 2, some 2) := by rfl
  rintro ⟨t', i, hfind, hsel⟩
  rw [hfind] at hret
  simp only [Except.map, Except.ok.injEq, Prod.mk.injEq] at hret
  obtain ⟨rfl, hsize, hentry⟩ := hret
  obtain ⟨p, hp, hrun, -⟩ := hsel (by rw [hsize]; decide)
  rw [hentry, Option.some.injEq] at hp
  subst hp
  exact absurd hrun (by decide)

/-- On the same queue with the child further ahead the selection is right. -/
def sleeperAhead : PTable :=
  sleeperBehind.setProc 2 fun x => { x with strideCount := 5000 }

theorem sleeperAhead_findSound : sleeperAhead.FindSound := by
  refine .inr ⟨1, 1, .root, by decide, rfl, rfl, by decide, fun _ l hl => ⟨.inr ?_, ?_⟩⟩
  · obtain rfl : l = 2 := (Option.some.inj hl).symm
    decide
  · intro r hr
    have hr : (none : Option Slot) = some r := hr
    contradiction

theorem selectsCharged_sleeperAhead :
    sleeperAhead.QueueFull ∧ sleeperAhead.FindSound ∧ sleeperAhead.SelectsCharged :=
  ⟨sleeperBehind_queueFull, sleeperAhead_findSound,
    (selectsCharged_iff_findSound sleeperAhead sleeperBehind_queueFull).mpr sleeperAhead_findSound⟩

end PTable
end Xv6
