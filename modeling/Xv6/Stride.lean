import Xv6.Lib.Except
import Xv6.Proc

/-!
# Xv6.Stride

The stride queue of `proc.c`: a binary heap of process pointers in
`ptable.stride_queue[1 .. stride_queue_size]`, keyed by `stride_count`.

The loops of the source are recursions on a fuel argument that is always
large enough.  Following a null queue entry faults in the kernel, so every
function that follows one returns an `Except Panic`.
-/

namespace Xv6
namespace PTable

open Lib Function

/-! ## Pointers -/

/-- Follow a `struct proc *`. -/
def deref : Option Slot → Except Panic Slot
  | some p => .ok p
  | none => .error .trap

/-- The C comparison `a < b` of two `struct proc *`: by address. -/
def ptrLt : Option Slot → Option Slot → Bool
  | _, none => false
  | none, some _ => true
  | some p, some q => p < q

/-- `a->stride_count` -/
def strideCountOf (t : PTable) (a : Option Slot) : Except Panic Int32 := do
  let p ← deref a
  return (t.proc p).strideCount

/-! ## Heapify -/

/-- The loop of `stride_queue_heapify_up`.  The source compares the two
pointers, not the `stride_count`s they lead to. -/
def heapifyUpLoop : Nat → (Nat → Option Slot) → Nat → (Nat → Option Slot) × Nat
  | 0, q, i => (q, i)
  | fuel + 1, q, i =>
    if i ≠ 1 then
      if ptrLt (q i) (q (i / 2)) then
        heapifyUpLoop fuel (update q i (q (i / 2))) (i / 2)
      else (q, i)
    else (q, i)

/-- `stride_queue_heapify_up` -/
def strideQueueHeapifyUp (t : PTable) (strideIdx : Nat) : PTable :=
  let targetProc := t.strideQueue strideIdx
  let r := heapifyUpLoop NSTRIDE_QUEUE t.strideQueue strideIdx
  { t with strideQueue := update r.1 r.2 targetProc }

/-- The smaller of the two children `l` and `r` of index `i`, with its
index: the right one on a tie. -/
def smallerChild (t : PTable) (i : Nat) (l r : Slot) : Nat × Slot :=
  if (t.proc l).strideCount < (t.proc r).strideCount then (i * 2, l) else (i * 2 + 1, r)

/-- The loop of `stride_queue_heapify_down`: `p` is the pointer being placed
and `i` the hole.  Children are told from leaves by null entries. -/
def heapifyDownLoop (t : PTable) (p : Option Slot) :
    Nat → (Nat → Option Slot) → Nat → Except Panic ((Nat → Option Slot) × Nat)
  | 0, q, i => .ok (q, i)
  | fuel + 1, q, i =>
    if i * 2 < NPROC ∧ (i : Int) ≤ t.strideQueueSize then
      match q (i * 2), q (i * 2 + 1) with
      | some l, some r => do
        -- two children
        let c := t.smallerChild i l r
        let key ← t.strideCountOf p
        if (t.proc c.2).strideCount < key then
          heapifyDownLoop t p fuel (update q i (some c.2)) c.1
        else .ok (q, i)
      | some l, none => do
        -- only left child: the last element
        let key ← t.strideCountOf p
        if (t.proc l).strideCount < key then
          .ok (update q i (some l), i * 2)
        else .ok (q, i)
      | none, _ => .ok (q, i)
    else .ok (q, i)

/-- `stride_queue_heapify_down` -/
def strideQueueHeapifyDown (t : PTable) (strideIdx : Nat) : Except Panic PTable := do
  let p := t.strideQueue strideIdx
  let r ← heapifyDownLoop t p NPROC t.strideQueue strideIdx
  return { t with strideQueue := update r.1 r.2 p }

/-! ## Selecting the process to run -/

/-- `proc_to_be_run->stride_count += proc_to_be_run->stride` -/
def charge (t : PTable) (p : Slot) : PTable :=
  t.setProc p fun x => { x with strideCount := x.strideCount + x.stride }

/-- The descending loop of `find_idx_of_stride_to_run`, from index `i`. -/
def findLoop (t : PTable) : Nat → Nat → Except Panic (PTable × Nat)
  | 0, i => .ok (t, i)
  | fuel + 1, i =>
    if (i : Int) ≤ t.strideQueueSize then do
      let procToBeRun ← deref (t.strideQueue i)
      if (t.proc procToBeRun).state = .runnable then do
        let t' ← (t.charge procToBeRun).strideQueueHeapifyDown i
        return (t', i)
      else if ((i * 2 + 1 : Nat) : Int) ≤ t.strideQueueSize then do
        -- BOTH
        let left ← t.strideCountOf (t.strideQueue (i * 2))
        let right ← t.strideCountOf (t.strideQueue (i * 2 + 1))
        findLoop t fuel (if left < right then i * 2 else i * 2 + 1)
      else if ((i * 2 : Nat) : Int) > t.strideQueueSize then
        -- NO_CHILD
        findLoop t fuel (t.strideQueueSize + 1).toNat
      else
        -- LEFT_ONLY
        findLoop t fuel (i * 2)
    else .ok (t, i)

/-- The linear scan at the end of `find_idx_of_stride_to_run`: the first
index from `i` on, of `n` indices, that holds a `RUNNABLE` process. -/
def scanRunnable (t : PTable) : Nat → Nat → Except Panic (Option Nat)
  | 0, _ => .ok none
  | n + 1, i => do
    let p ← deref (t.strideQueue i)
    if (t.proc p).state = .runnable then return some i else scanRunnable t n (i + 1)

/-- `find_idx_of_stride_to_run`: the table after the call and the index
returned. -/
def findIdxOfStrideToRun (t : PTable) : Except Panic (PTable × Nat) := do
  let (t', strideFindIdx) ← findLoop t (t.strideQueueSize.toNat + 1) 1
  if (strideFindIdx : Int) ≥ t'.strideQueueSize + 1 then
    match ← scanRunnable t' t'.strideQueueSize.toNat 1 with
    | some i => return (t', i)
    | none => return (t', strideFindIdx)
  else
    return (t', strideFindIdx)

/-! ## Insertion and deletion -/

/-- The loop of `stride_queue_push`: the ancestors of `i` move down one
place. -/
def pushLoop : Nat → (Nat → Option Slot) → Nat → (Nat → Option Slot) × Nat
  | 0, q, i => (q, i)
  | fuel + 1, q, i =>
    if i ≠ 1 then pushLoop fuel (update q i (q (i / 2))) (i / 2) else (q, i)

/-- `stride_queue_push` -/
def strideQueuePush (t : PTable) (p : Slot) : PTable :=
  let t := match t.strideQueue 1 with
    | some r => t.setProc p fun x => { x with strideCount := (t.proc r).strideCount }
    | none => t
  let size := t.strideQueueSize + 1
  let r := pushLoop NSTRIDE_QUEUE t.strideQueue size.toNat
  { t with strideQueue := update r.1 r.2 (some p), strideQueueSize := size }

/-- The search of `stride_queue_delete`: the first index from `i` on, of `n`
indices, that holds `p`. -/
def strideIndexOf (t : PTable) (p : Slot) : Nat → Nat → Option Nat
  | 0, _ => none
  | n + 1, i => if t.strideQueue i = some p then some i else strideIndexOf t p n (i + 1)

/-- Delete index `i` from the heap: the last entry takes its place. -/
def strideQueueRemove (t : PTable) (i : Nat) : PTable :=
  let q := update t.strideQueue i (t.strideQueue t.strideQueueSize.toNat)
  { t with
    strideQueue := update q t.strideQueueSize.toNat none
    strideQueueSize := t.strideQueueSize - 1 }

/-- The local `heapify_up` of `stride_queue_delete`, with `junk` the value it
holds when the branches leave it uninitialised. -/
def heapifyUpFlag (t : PTable) (i : Nat) (junk : Bool) : Except Panic Bool :=
  if i = 1 then .ok false
  else if (i : Int) ≤ t.strideQueueSize then do
    let a ← t.strideCountOf (t.strideQueue i)
    let b ← t.strideCountOf (t.strideQueue (i / 2))
    return decide (a < b)
  else .ok junk

/-- The heapify step of `stride_queue_delete`.  The source swaps the two
directions. -/
def heapifyRemoved (t : PTable) (i : Nat) (junk : Bool) : Except Panic PTable := do
  let heapifyUp ← t.heapifyUpFlag i junk
  if t.strideQueueSize = 0 ∨ t.strideQueueSize = 1 then return t
  else if heapifyUp then t.strideQueueHeapifyDown i
  else return t.strideQueueHeapifyUp i

/-- `stride_queue_delete(p)` called with `cur` as the running process.  The
body of the source names the running process `proc`, never its parameter, so
`p` is not used. -/
def strideQueueDelete (t : PTable) (cur _p : Slot) (junk : Bool) : Except Panic PTable :=
  let t := { t with sumCpuShare := t.sumCpuShare - (t.proc cur).cpuShare }
  match t.strideIndexOf cur NPROC 1 with
  | none => .error .exitNotInStride
  | some i =>
    -- `stride_queue[-1]` is not an element of the array
    if t.strideQueueSize < 0 then .error .trap
    else (t.strideQueueRemove i).heapifyRemoved i junk

/-! ## Sifting down -/

@[simp] theorem strideCountOf_some (t : PTable) (p : Slot) :
    t.strideCountOf (some p) = .ok (t.proc p).strideCount := rfl

theorem smallerChild_index (t : PTable) (i : Nat) (l r : Slot) :
    (t.smallerChild i l r).1 = i * 2 ∧ (t.smallerChild i l r).2 = l ∨
      (t.smallerChild i l r).1 = i * 2 + 1 ∧ (t.smallerChild i l r).2 = r := by
  unfold smallerChild
  split
  · exact .inl ⟨rfl, rfl⟩
  · exact .inr ⟨rfl, rfl⟩

theorem heapifyDownLoop_ok (t : PTable) (p : Slot) (fuel : Nat) (q : Nat → Option Slot) (i : Nat) :
    ∃ r, heapifyDownLoop t (some p) fuel q i = .ok r := by
  induction fuel generalizing q i with
  | zero => exact ⟨_, rfl⟩
  | succ fuel ih =>
    simp only [heapifyDownLoop, strideCountOf_some, ok_bind]
    split
    · split
      · split
        · exact ih _ _
        · exact ⟨_, rfl⟩
      · split <;> exact ⟨_, rfl⟩
      · exact ⟨_, rfl⟩
    · exact ⟨_, rfl⟩

theorem smallerChild_le (t : PTable) (i : Nat) (l r : Slot) :
    (t.proc (t.smallerChild i l r).2).strideCount ≤ (t.proc l).strideCount ∧
      (t.proc (t.smallerChild i l r).2).strideCount ≤ (t.proc r).strideCount := by
  unfold smallerChild
  split
  · next h => exact ⟨Int32.le_refl _, Int32.le_of_lt h⟩
  · next h => exact ⟨Int32.not_lt.mp h, Int32.le_refl _⟩

/-- No child that the sift of `p` looks at from index `i` is below `p`. -/
def SiftStops (t : PTable) (p : Option Slot) (q : Nat → Option Slot) (i : Nat) : Prop :=
  i * 2 < NPROC → (i : Int) ≤ t.strideQueueSize → ∀ l, q (i * 2) = some l →
    ∃ k, p = some k ∧ ¬ (t.proc l).strideCount < (t.proc k).strideCount ∧
      ∀ r, q (i * 2 + 1) = some r → ¬ (t.proc r).strideCount < (t.proc k).strideCount

/-- The child `x` of index `c` goes up to the hole `i`: it is below `p`, and
no child of `i` is below it.  The left child only goes up if it is below the
right one. -/
structure SiftsTo (t : PTable) (p : Option Slot) (q : Nat → Option Slot) (i c : Nat)
    (x : Slot) : Prop where
  child : c = i * 2 ∨ c = i * 2 + 1
  entry : q c = some x
  below : ∃ k, p = some k ∧ (t.proc x).strideCount < (t.proc k).strideCount
  left : ∀ l, q (i * 2) = some l → (t.proc x).strideCount ≤ (t.proc l).strideCount
  right : ∀ r, q (i * 2 + 1) = some r → (t.proc x).strideCount ≤ (t.proc r).strideCount
  side : c = i * 2 → ∀ r, q (i * 2 + 1) = some r → (t.proc x).strideCount < (t.proc r).strideCount
  room : i * 2 < NPROC

variable {t : PTable} {p : Option Slot}

theorem strideCountOf_eq_ok {key : Int32}
    (h : t.strideCountOf p = .ok key) : ∃ k, p = some k ∧ key = (t.proc k).strideCount := by
  cases p with
  | none => contradiction
  | some k =>
    rw [strideCountOf_some, Except.ok.injEq] at h
    exact ⟨k, rfl, h.symm⟩

variable {q : Nat → Option Slot} {i : Nat}

/-- One turn of the sift: it stops, moves the hole and goes on, or moves the
hole to the last entry and stops there. -/
theorem heapifyDownLoop_cases {fuel : Nat}
    {r : (Nat → Option Slot) × Nat} (h : heapifyDownLoop t p (fuel + 1) q i = .ok r) :
    (r = (q, i) ∧ t.SiftStops p q i) ∨
      ∃ c x, t.SiftsTo p q i c x ∧
        (heapifyDownLoop t p fuel (update q i (some x)) c = .ok r ∨
          (c = i * 2 ∧ q (i * 2 + 1) = none ∧ r = (update q i (some x), c))) := by
  simp only [heapifyDownLoop] at h
  split at h
  · next hcond =>
    cases hl : q (i * 2) with
    | none =>
      simp only [hl, Except.ok.injEq] at h
      exact .inl ⟨h.symm, fun _ _ l h => by simp [hl] at h⟩
    | some l =>
      cases hr : q (i * 2 + 1) with
      | none =>
        simp only [hl, hr] at h
        obtain ⟨key, hkey, h⟩ := bind_eq_ok.mp h
        obtain ⟨k, rfl, rfl⟩ := strideCountOf_eq_ok hkey
        split at h
        · next hlt =>
          have hto : t.SiftsTo (some k) q i (i * 2) l :=
            ⟨.inl rfl, hl, ⟨k, rfl, hlt⟩, by simp [hl], by simp [hr], by simp [hr], hcond.1⟩
          simp only [Except.ok.injEq] at h
          exact .inr ⟨i * 2, l, hto, .inr ⟨rfl, rfl, h.symm⟩⟩
        · next hlt =>
          simp only [Except.ok.injEq] at h
          refine .inl ⟨h.symm, fun _ _ l' hl' => ⟨k, rfl, ?_, by simp [hr]⟩⟩
          rw [hl, Option.some.injEq] at hl'
          exact hl' ▸ hlt
      | some rr =>
        simp only [hl, hr] at h
        obtain ⟨key, hkey, h⟩ := bind_eq_ok.mp h
        obtain ⟨k, rfl, rfl⟩ := strideCountOf_eq_ok hkey
        obtain ⟨hcl, hcr⟩ := smallerChild_le t i l rr
        split at h
        · next hlt =>
          refine .inr ⟨_, _, ⟨?_, ?_, ⟨k, rfl, hlt⟩, ?_, ?_, ?_, hcond.1⟩, .inl h⟩
          · rcases smallerChild_index t i l rr with hc | hc
            · exact .inl hc.1
            · exact .inr hc.1
          · rcases smallerChild_index t i l rr with hc | hc
            · rw [hc.1, hc.2, hl]
            · rw [hc.1, hc.2, hr]
          · simpa [hl] using hcl
          · simpa [hr] using hcr
          · intro hc r hr'
            rw [hr, Option.some.injEq] at hr'
            subst hr'
            unfold smallerChild at hc ⊢
            split at hc
            · next hlr => rwa [if_pos hlr]
            · simp at hc
        · next hlt =>
          simp only [Except.ok.injEq] at h
          refine .inl ⟨h.symm, fun _ _ l' hl' => ⟨k, rfl, ?_, fun r' hr' => ?_⟩⟩
          · rw [hl, Option.some.injEq] at hl'
            exact fun h => hlt (Int32.lt_of_le_of_lt hcl (hl' ▸ h))
          · rw [hr, Option.some.injEq] at hr'
            exact fun h => hlt (Int32.lt_of_le_of_lt hcr (hr' ▸ h))
  · next hcond =>
    simp only [Except.ok.injEq] at h
    exact .inl ⟨h.symm, fun h₁ h₂ => absurd ⟨h₁, h₂⟩ hcond⟩

theorem SiftsTo.lt {c : Nat} {x : Slot} (h : t.SiftsTo p q i c x) (hi : 1 ≤ i) : i < c := by
  rcases h.child with rfl | rfl <;> omega

/-- The hole only moves down, and nothing above it changes. -/
theorem heapifyDownLoop_below (t : PTable) (p : Option Slot) (fuel : Nat) (q : Nat → Option Slot)
    (i : Nat) (hi : 1 ≤ i) (r : (Nat → Option Slot) × Nat)
    (h : heapifyDownLoop t p fuel q i = .ok r) : i ≤ r.2 ∧ ∀ k, k < i → r.1 k = q k := by
  induction fuel generalizing q i with
  | zero =>
    cases h
    exact ⟨le_rfl, fun k _ => rfl⟩
  | succ fuel ih =>
    rcases heapifyDownLoop_cases h with ⟨rfl, -⟩ | ⟨c, x, hto, hrest⟩
    · exact ⟨le_rfl, fun k _ => rfl⟩
    have hic := hto.lt hi
    rcases hrest with hrest | ⟨-, -, rfl⟩
    · obtain ⟨hle, hk⟩ := ih _ _ (by omega) hrest
      refine ⟨by omega, fun k hki => ?_⟩
      rw [hk k (by omega), update_of_ne (by omega)]
    · exact ⟨hic.le, fun k hki => update_of_ne (by omega) ..⟩

/-! ## What deletion changes -/

theorem strideQueueHeapifyDown_eq {t' : PTable}
    (h : t.strideQueueHeapifyDown i = .ok t') : ∃ q, t' = { t with strideQueue := q } := by
  obtain ⟨r, _, h⟩ := bind_eq_ok.mp h
  cases h
  exact ⟨_, rfl⟩

theorem heapifyRemoved_eq {t' : PTable} {junk : Bool}
    (h : t.heapifyRemoved i junk = .ok t') : ∃ q, t' = { t with strideQueue := q } := by
  obtain ⟨up, _, h⟩ := bind_eq_ok.mp h
  split at h
  · cases h
    exact ⟨_, rfl⟩
  split at h
  · exact strideQueueHeapifyDown_eq h
  · cases h
    exact ⟨_, rfl⟩

/-- Deletion changes the queue, its size and the sum, and no process. -/
theorem strideQueueDelete_eq {t' : PTable} {cur p : Slot} {junk : Bool}
    (h : t.strideQueueDelete cur p junk = .ok t') :
    ∃ q n v, t' = { t with strideQueue := q, strideQueueSize := n, sumCpuShare := v } := by
  unfold strideQueueDelete at h
  simp only at h
  split at h
  · contradiction
  split at h
  · contradiction
  · obtain ⟨q, rfl⟩ := heapifyRemoved_eq h
    exact ⟨q, _, _, rfl⟩

end PTable
end Xv6
