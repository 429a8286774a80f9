import Xv6.Stride.Fair

/-!
# Xv6.Stride.Heap

The order of the stride queue under `stride_queue_push` and
`stride_queue_heapify_down`.

An insertion moves the path from the root to the new place down by one, and the
inserted process, which has the pass value of the old root, becomes the root.

The sift of a charged member stops at `NPROC / 2`.  In a full queue the entry of
index `NPROC` is a child of that index, and the sift does not look at it.
-/

namespace Xv6
namespace PTable

open Lib Function

/-! ## Insertion -/

variable {fuel n : Nat}

/-- The loop of `stride_queue_push` moves the hole of a heap to the root. -/
theorem pushLoop_holeReady {t : PTable} {i : Nat} {q : Nat → Option Slot} {K : Int}
    (hi : 1 ≤ i ∧ i ≤ n) (hfuel : i ≤ fuel) (hready : HoleReady n (fun j => t.pass (q j)) i)
    (hmin : ∀ j, 1 ≤ j → j ≤ n → j ≠ i → K ≤ t.pass (q j)) :
    HoleReady n (fun j => t.pass ((pushLoop fuel q i).1 j)) 1 ∧
      ∀ j, 2 ≤ j → j ≤ n → K ≤ t.pass ((pushLoop fuel q i).1 j) := by
  induction fuel generalizing q i with
  | zero => omega
  | succ fuel ih =>
    unfold pushLoop
    by_cases hone : i = 1
    · subst hone
      simp only [ne_eq, not_true_eq_false, if_false]
      exact ⟨hready, fun j h2 hn => hmin j (by omega) hn (by omega)⟩
    · rw [if_pos hone]
      have hlift := hready.lift (by omega)
      have hcomp : (fun j => t.pass (update q i (q (i / 2)) j)) =
          update (fun j => t.pass (q j)) i (t.pass (q (i / 2))) :=
        comp_update t.pass q i (q (i / 2))
      rw [← hcomp] at hlift
      refine ih (by omega) (by omega) hlift fun j h1 hn hj => ?_
      by_cases hji : j = i
      · rw [hji, update_self]
        exact hmin (i / 2) (by omega) (by omega) (by omega)
      · rw [update_of_ne hji]
        exact hmin j h1 hn hji

theorem strideQueuePush_strideCount {t : PTable} {p q : Slot} (hq : q ≠ p) :
    ((t.strideQueuePush p).proc q).strideCount = (t.proc q).strideCount := by
  unfold strideQueuePush
  cases t.strideQueue 1 with
  | none => rfl
  | some r => simp [setProc_proc_of_ne _ _ hq]

/-- **`stride_queue_push` keeps the heap.** -/
theorem MinHeap.push {t : PTable} (h : t.MinHeap n) (hn : n < NPROC) {p : Slot}
    (hp : ¬ t.InQueue p) : (t.strideQueuePush p).MinHeap (n + 1) where
  toQueued := (h.toQueued.push hp).1
  heap := by
    have hmember : ∀ j, 1 ≤ j → j ≤ n →
        (t.setProc p t.inheritPass).pass (t.strideQueue j) = t.pass (t.strideQueue j) := by
      intro j h1 hj
      obtain ⟨x, hx⟩ := h.filled j h1 hj
      have hne : x ≠ p := by
        rintro rfl
        exact hp (h.inQueue_iff.mpr ⟨j, ⟨h1, hj⟩, hx⟩)
      rw [hx]
      simp only [pass, setProc_proc_of_ne _ _ hne]
    have hheap : HeapOrdered n fun j =>
        (t.setProc p t.inheritPass).pass (t.strideQueue j) := by
      intro j h2 hj
      simp only [hmember (j / 2) (by omega) (by omega), hmember j (by omega) hj]
      exact h.heap j h2 hj
    -- the new member takes over the pass value of the root, which is the smallest
    have hmin : ∀ j, 1 ≤ j → j ≤ n + 1 → j ≠ n + 1 →
        (t.setProc p t.inheritPass).pass (some p) ≤
          (t.setProc p t.inheritPass).pass (t.strideQueue j) := by
      intro j h1 hj hlast
      obtain ⟨r, hr⟩ := h.filled 1 le_rfl (by omega)
      have hroot := h.heap.root_le h1 (show j ≤ n by omega)
      rw [hmember j h1 (by omega)]
      simpa [pass, hr, inheritPass] using hroot
    have hfuel : n + 1 ≤ NSTRIDE_QUEUE := by simp only [NSTRIDE_QUEUE]; omega
    obtain ⟨hready, hbelow⟩ :=
      pushLoop_holeReady ⟨by omega, le_rfl⟩ hfuel hheap.holeReady hmin
    have hfill := hready.heapOrdered hbelow
    rw [strideQueuePush_eq t p h.size]
    simp only [pushLoop_index (show 1 ≤ n + 1 by omega) hfuel]
    have hcomp := comp_update (t.setProc p t.inheritPass).pass
      (pushLoop NSTRIDE_QUEUE t.strideQueue (n + 1)).1 1 (some p)
    have hfun : (fun j => (t.setProc p t.inheritPass).pass
        (update (pushLoop NSTRIDE_QUEUE t.strideQueue (n + 1)).1 1 (some p) j)) = _ := hcomp
    exact hfun ▸ hfill

/-- `stride_queue_push` of a process that is not in a heap with room: the
members are the old ones and the new one, in the indices `1 .. n + 1`, and form
a heap with the new one at the root; the pass values of the old ones stay. -/
theorem strideQueuePush_keeps_heap {t : PTable} {n : Nat} (h : t.MinHeap n) (hn : n < NPROC)
    {p : Slot} (hp : ¬ t.InQueue p) :
    (t.strideQueuePush p).MinHeap (n + 1) ∧
      (∀ q, (t.strideQueuePush p).InQueue q ↔ t.InQueue q ∨ q = p) ∧
      (t.strideQueuePush p).strideQueue 1 = some p ∧
      ∀ q, t.InQueue q → ((t.strideQueuePush p).proc q).strideCount = (t.proc q).strideCount := by
  have hsize := h.size
  refine ⟨h.push hn hp, (h.toQueued.push hp).2, strideQueuePush_root p (by omega) (by omega),
    fun q hq => strideQueuePush_strideCount ?_⟩
  rintro rfl
  exact hp hq

/-- A third process joins the queue of two. -/
theorem strideQueuePush_twoMembers : (twoMembers.strideQueuePush 3).MinHeap 3 ∧
    (∀ q, (twoMembers.strideQueuePush 3).InQueue q ↔ twoMembers.InQueue q ∨ q = 3) ∧
    (twoMembers.strideQueuePush 3).strideQueue 1 = some 3 ∧
    ∀ q, twoMembers.InQueue q →
      ((twoMembers.strideQueuePush 3).proc q).strideCount = (twoMembers.proc q).strideCount :=
  strideQueuePush_keeps_heap minHeap_twoMembers (by decide) (by decide)

/-! ## Charging -/

/-- `stride_count` of `p` becomes `v`. -/
def setStrideCount (t : PTable) (p : Slot) (v : Int32) : PTable :=
  t.setProc p fun x => { x with strideCount := v }

/-- A sift from `i` with the key `K` comes to the parent of the last index of
the array while the entry of the last index is below the key: `i` is an
ancestor of the last index, and every entry on the way there is below the
entry beside it. -/
structure Overlooked (t : PTable) (q : Nat → Option Slot) (K : Int) (i : Nat) : Prop where
  ancestor : ∃ e, i * 2 ^ (e + 1) = NPROC
  below : t.pass (q NPROC) < K
  way : ∀ e, i * 2 ^ e * 2 < NPROC → t.pass (q (i * 2 ^ e * 2)) < t.pass (q (i * 2 ^ e * 2 + 1))

variable {t : PTable} {q : Nat → Option Slot} {K : Int} {i : Nat}

theorem not_overlooked_odd (hi : 1 ≤ i) : ¬ t.Overlooked q K (i * 2 + 1) := by
  intro h
  obtain ⟨e, he⟩ := h.ancestor
  have hodd : Odd (i * 2 + 1) := ⟨i, by ring⟩
  have hdvd : i * 2 + 1 ∣ 2 ^ 6 := ⟨2 ^ (e + 1), he.symm⟩
  have hcoprime : Nat.Coprime (i * 2 + 1) (2 ^ 6) :=
    Nat.Coprime.pow_right 6 hodd.coprime_two_right
  have hone := Nat.Coprime.eq_one_of_dvd hcoprime hdvd
  omega

/-- The way from the left child is the rest of the way. -/
theorem overlooked_left (x : Option Slot) (hlow : i * 2 < NPROC)
    (hside : t.pass (q (i * 2)) < t.pass (q (i * 2 + 1))) :
    t.Overlooked (update q i x) K (i * 2) ↔ t.Overlooked q K i := by
  have hshift : ∀ e, i * 2 ^ (e + 1) = i * 2 * 2 ^ e := fun e => by ring
  have hge : ∀ e, i * 2 ≤ i * 2 * 2 ^ e := fun e => Nat.le_mul_of_pos_right _ (by positivity)
  have hlast : update q i x NPROC = q NPROC := update_of_ne (by omega) _ _
  constructor
  · intro h
    obtain ⟨e, he⟩ := h.ancestor
    have hpos : i ≠ 0 := by
      rintro rfl
      simp at he
    refine ⟨⟨e + 1, by rw [hshift]; exact he⟩, hlast ▸ h.below, fun e => ?_⟩
    cases e with
    | zero => simpa using fun _ => hside
    | succ e =>
      intro hle
      have hway := h.way e (by rw [← hshift]; exact hle)
      have := hge e
      rw [update_of_ne (by omega), update_of_ne (by omega)] at hway
      rwa [hshift]
  · intro h
    obtain ⟨e, he⟩ := h.ancestor
    have hpos : i ≠ 0 := by
      rintro rfl
      simp at he
    refine ⟨?_, hlast.symm ▸ h.below, fun e hle => ?_⟩
    · cases e with
      | zero => omega
      | succ e => exact ⟨e, by rw [← hshift]; exact he⟩
    · have hway := h.way (e + 1) (by rw [hshift]; exact hle)
      have := hge e
      rw [hshift] at hway
      rwa [update_of_ne (by omega), update_of_ne (by omega)]

variable {r : (Nat → Option Slot) × Nat}

/-- In a full queue the sift ends above a last entry that is below the key if
and only if that entry is overlooked from the start. -/
theorem heapifyDownLoop_overlooks {k : Slot}
    (hsize : t.strideQueueSize = NPROC) (hi : 1 ≤ i ∧ i ≤ NPROC) (hfuel : NPROC < i + fuel)
    (hfill : ∀ j, 1 ≤ j → j ≤ NPROC → j ≠ i → ∃ x, q j = some x)
    (hready : SiftReady NPROC (fun j => t.pass (update q i (some k) j)) i)
    (h : heapifyDownLoop t (some k) fuel q i = .ok r) :
    (r.2 * 2 = NPROC ∧ t.pass (r.1 NPROC) < t.pass (some k)) ↔
      t.Overlooked q (t.pass (some k)) i := by
  induction fuel generalizing q i with
  | zero => omega
  | succ fuel ih =>
    rcases heapifyDownLoop_cases h with ⟨rfl, hstop⟩ | ⟨c, x, hto, hrest⟩
    · simp only
      by_cases hlow : i * 2 < NPROC
      · -- the sift stops before: the entries down to the last one are not below the key
        refine iff_of_false (by omega) fun hover => ?_
        obtain ⟨e, he⟩ := hover.ancestor
        have hle := hready.le_left (c := i * 2) (by omega) e (by rw [← he, pow_succ]; grind)
        have hdown : i * 2 * 2 ^ e = NPROC := by rw [← he]; ring
        have hstart := hstop.le hsize hi.1 hfill hlow (j := i * 2) (by omega) (by omega)
        have hbelow := hover.below
        simp only [hdown] at hle
        rw [update_of_ne (by omega), update_of_ne (by omega)] at hle
        omega
      · constructor
        · rintro ⟨hlast, hbelow⟩
          refine ⟨⟨0, by omega⟩, hbelow, fun e he => ?_⟩
          have hge : i ≤ i * 2 ^ e := Nat.le_mul_of_pos_right i (by positivity)
          omega
        · intro hover
          obtain ⟨e, he⟩ := hover.ancestor
          have hge : i ≤ i * 2 ^ e := Nat.le_mul_of_pos_right i (by positivity)
          have hdouble : i * 2 ^ (e + 1) = i * 2 ^ e * 2 := by ring
          exact ⟨by omega, hover.below⟩
    · have hroom := hto.room
      have hc := hto.half
      have hcn : c ≤ NPROC := by
        have := hto.child
        omega
      rcases hrest with hrest | ⟨-, hnone, -⟩
      · have hready' := hto.siftReady hi.1 hcn hfill hready
        rw [ih (by omega) (by omega) (fun j h1 hj _ => filled_update x hfill h1 hj) hready' hrest]
        obtain ⟨rr, hrr⟩ := hfill (i * 2 + 1) (by omega) (by omega) (by omega)
        rcases hto.child with rfl | rfl
        · refine overlooked_left (some x) hroom ?_
          rw [hto.entry, hrr]
          exact Int32.lt_iff_toInt_lt.mp (hto.side rfl rr hrr)
        · -- the right child is not on the way
          refine iff_of_false (not_overlooked_odd hi.1) fun hover => ?_
          have hway := hover.way 0 (by omega)
          obtain ⟨l, hl⟩ := hfill (i * 2) (by omega) (by omega) (by omega)
          simp only [pow_zero, mul_one] at hway
          rw [hto.entry, hl] at hway
          have hle := Int32.le_iff_toInt_le.mp (hto.left l hl)
          simp only [pass] at hway
          omega
      · obtain ⟨rr, hrr⟩ := hfill (i * 2 + 1) (by omega) (by omega) (by omega)
        rw [hnone] at hrr
        contradiction

/-! ## The bounds of the array -/

/-- Two queues with the same entries in the array. -/
def SameArray (q q' : Nat → Option Slot) : Prop := ∀ k, k ≤ NPROC → q' k = q k

variable {q' : Nat → Option Slot}

theorem SameArray.update (h : SameArray q q') (i : Nat)
    (x : Option Slot) : SameArray (Function.update q i x) (Function.update q' i x) := by
  intro k hk
  by_cases hki : k = i
  · rw [hki, Function.update_self, Function.update_self]
  · rw [Function.update_of_ne hki, Function.update_of_ne hki, h k hk]

/-- The sift depends on the entries in the array only, and changes no others. -/
theorem heapifyDownLoop_sameArray {p : Option Slot} (hi : i ≤ NPROC) (hq : SameArray q q')
    (h : heapifyDownLoop t p fuel q i = .ok r) :
    ∃ r', heapifyDownLoop t p fuel q' i = .ok r' ∧ r'.2 = r.2 ∧ r.2 ≤ NPROC ∧
      SameArray r.1 r'.1 ∧ ∀ k, NPROC < k → r'.1 k = q' k := by
  induction fuel generalizing q q' i with
  | zero =>
    simp only [heapifyDownLoop, Except.ok.injEq] at h
    subst h
    exact ⟨(q', i), rfl, rfl, hi, hq, fun _ _ => rfl⟩
  | succ fuel ih =>
    have hstay : r = (q, i) → ∃ r', (.ok (q', i) : Except Panic _) = .ok r' ∧ r'.2 = r.2 ∧
        r.2 ≤ NPROC ∧ SameArray r.1 r'.1 ∧ ∀ k, NPROC < k → r'.1 k = q' k := by
      rintro rfl
      exact ⟨(q', i), rfl, rfl, hi, hq, fun _ _ => rfl⟩
    have houtside : ∀ x k, NPROC < k → update q' i x k = q' k := fun x k hk =>
      update_of_ne (by omega) _ _
    unfold heapifyDownLoop at h ⊢
    split at h
    · next hcond =>
      rw [if_pos hcond, hq (i * 2) (by omega), hq (i * 2 + 1) (by omega)]
      cases hl : q (i * 2) with
      | none =>
        simp only [hl] at h
        exact hstay (by simpa using h.symm)
      | some l =>
        cases hr : q (i * 2 + 1) with
        | none =>
          simp only [hl, hr] at h ⊢
          obtain ⟨key, hkey, h⟩ := bind_eq_ok.mp h
          rw [hkey, ok_bind]
          split at h
          · next hlt =>
            rw [if_pos hlt]
            cases h
            exact ⟨_, rfl, rfl, by simp only; omega, hq.update i _, houtside _⟩
          · next hlt =>
            rw [if_neg hlt]
            exact hstay (by simpa using h.symm)
        | some rr =>
          simp only [hl, hr] at h ⊢
          obtain ⟨key, hkey, h⟩ := bind_eq_ok.mp h
          rw [hkey, ok_bind]
          split at h
          · next hlt =>
            rw [if_pos hlt]
            have hchild : (t.smallerChild i l rr).1 ≤ NPROC := by
              have := smallerChild_index t i l rr
              omega
            obtain ⟨r', h', hidx, hle, hsame, hout⟩ := ih hchild (hq.update i _) h
            exact ⟨r', h', hidx, hle, hsame, fun k hk => (hout k hk).trans (houtside _ k hk)⟩
          · next hlt =>
            rw [if_neg hlt]
            exact hstay (by simpa using h.symm)
    · next hcond =>
      rw [if_neg hcond]
      exact hstay (by simpa using h.symm)

/-- Whatever stands behind the array, the call at `i` gives the same array and
leaves what is behind it. -/
def SiftsInArray (t : PTable) (i : Nat) (t' : PTable) : Prop :=
  ∀ q, SameArray t.strideQueue q →
    ∃ t₁, strideQueueHeapifyDown { t with strideQueue := q } i = .ok t₁ ∧
      SameArray t'.strideQueue t₁.strideQueue ∧ ∀ k, NPROC < k → t₁.strideQueue k = q k

/-- What the call at `i` promises for a queue of `n` members. -/
def SiftKeepsHeap (t : PTable) (n i : Nat) : Prop :=
  ∃ t', t.strideQueueHeapifyDown i = .ok t' ∧ t'.proc = t.proc ∧
    Rearranged n t.strideQueue t'.strideQueue ∧ t'.MinHeap n ∧ t.SiftsInArray i t'

theorem heapifyDownLoop_table (t : PTable) (q0 : Nat → Option Slot) (p : Option Slot) (fuel : Nat)
    (q : Nat → Option Slot) (i : Nat) :
    heapifyDownLoop { t with strideQueue := q0 } p fuel q i = heapifyDownLoop t p fuel q i := by
  induction fuel generalizing q i with
  | zero => rfl
  | succ fuel ih =>
    unfold heapifyDownLoop
    simp only [ih]
    rfl

theorem siftsInArray_of_ok {t' : PTable} (hi : i ≤ NPROC)
    (h : t.strideQueueHeapifyDown i = .ok t') :
    t.SiftsInArray i t' := by
  intro q hq
  obtain ⟨r, hr, h⟩ := bind_eq_ok.mp h
  cases h
  obtain ⟨r', hr', hidx, hle, hsame, hout⟩ := heapifyDownLoop_sameArray hi hq hr
  refine ⟨{ t with strideQueue := update r'.1 r.2 (t.strideQueue i) }, ?_,
    hsame.update r.2 (t.strideQueue i), fun k hk => ?_⟩
  · unfold strideQueueHeapifyDown
    simp only [hq i hi, heapifyDownLoop_table, hr', hidx, ok_bind, pure_eq_ok]
  · simp only
    rw [update_of_ne (by omega), hout k hk]

/-- A charged member of a heap is the only one to be sifted. -/
theorem MinHeap.siftReady_setStrideCount {p : Slot} {v : Int32} (h : t.MinHeap n)
    (hi : 1 ≤ i ∧ i ≤ n) (hp : t.strideQueue i = some p) (hv : (t.proc p).strideCount ≤ v) :
    SiftReady n (fun j => (t.setStrideCount p v).pass (t.strideQueue j)) i := by
  refine h.heap.siftReady hi.1 (fun j h1 hj hne => ?_) fun _ => ?_
  · obtain ⟨x, hx⟩ := h.filled j h1 hj
    have hxp : x ≠ p := by
      rintro rfl
      exact hne (h.distinct ⟨h1, hj⟩ hi (hx.trans hp.symm))
    rw [hx]
    simp only [pass, setStrideCount, setProc_proc_of_ne _ _ hxp]
  · simp only [hp, pass, setStrideCount, setProc_proc_same]
    exact Int32.le_iff_toInt_le.mp hv

/-- **Charging**: the call keeps the heap unless the queue is full and its last
entry is overlooked. -/
theorem siftKeepsHeap_iff {n : Nat} {p : Slot} {v : Int32} (h : t.MinHeap n) (hn : n ≤ NPROC)
    (hi : 1 ≤ i ∧ i ≤ n) (hp : t.strideQueue i = some p) (hv : (t.proc p).strideCount ≤ v) :
    (t.setStrideCount p v).SiftKeepsHeap n i ↔
      ¬ (n = NPROC ∧ (t.setStrideCount p v).Overlooked t.strideQueue v.toInt i) := by
  have hself : update t.strideQueue i (some p) = t.strideQueue := by
    rw [← hp, update_eq_self]
  have hready := h.siftReady_setStrideCount hi hp hv
  rw [← hself] at hready
  obtain ⟨r, hr⟩ := heapifyDownLoop_ok (t.setStrideCount p v) p NPROC t.strideQueue i
  have hsift : (t.setStrideCount p v).strideQueueHeapifyDown i =
      .ok { t.setStrideCount p v with strideQueue := update r.1 r.2 (some p) } := by
    unfold strideQueueHeapifyDown
    have hq : (t.setStrideCount p v).strideQueue = t.strideQueue := rfl
    simp only [hq, hp, hr, ok_bind, pure_eq_ok]
  have hsize : (t.setStrideCount p v).strideQueueSize = n := h.size
  have hkey : (t.setStrideCount p v).pass (some p) = v.toInt := by simp [pass, setStrideCount]
  have hrearr := heapifyDownLoop_rearranged hi h.ending hr
  rw [hself] at hrearr
  obtain ⟨hrest, hstop⟩ := heapifyDownLoop_settles hsize hi (by omega)
    (fun j h1 hj _ => h.filled j h1 hj) h.ending hready hr hn
  have hover := fun hfull : n = NPROC =>
    heapifyDownLoop_overlooks (hfull ▸ hsize) (hfull ▸ hi) (by omega)
      (fun j h1 hj _ => h.filled j h1 (hfull ▸ hj)) (hfull ▸ hready) hr
  rw [hkey] at hover hstop
  constructor
  · rintro ⟨t', hok, -, -, hheap, -⟩ ⟨hfull, hmiss⟩
    rw [hsift, Except.ok.injEq] at hok
    subst hok
    obtain ⟨hhalf, hbelow⟩ := (hover hfull).mpr hmiss
    have hle := hheap.heap NPROC (by decide) hfull.ge
    simp only at hle
    rw [show NPROC / 2 = r.2 by omega, update_self, update_of_ne (by omega)] at hle
    have hkey' : PTable.pass { t.setStrideCount p v with
      strideQueue := update r.1 r.2 (some p) } (some p) = v.toInt := hkey
    rw [hkey'] at hle
    exact absurd hle (not_le.mpr hbelow)
  · intro hmiss
    refine ⟨_, hsift, rfl, hrearr, ⟨h.toQueued.of_rearranged rfl hrearr, ?_⟩,
      siftsInArray_of_ok (by omega) hsift⟩
    refine hrest.heapOrdered fun j h2 hjn hj => ?_
    rw [update_self, update_of_ne (by omega), hkey]
    by_cases hlow : r.2 * 2 < NPROC
    · exact hstop hlow j h2 hjn hj
    -- the only child beyond the reach of the sift is the last entry of a full queue
    have hfull : n = NPROC := by omega
    have hlast : j = NPROC := by omega
    have hnot := mt (hover hfull).mp fun hover => hmiss ⟨hfull, hover⟩
    rw [hlast]
    by_contra hbelow
    exact hnot ⟨by omega, not_le.mp hbelow⟩

/-- A queue that is not full. -/
theorem siftKeepsHeap_twoMembers : (twoMembers.setStrideCount 2 1000).SiftKeepsHeap 2 1 :=
  (siftKeepsHeap_iff minHeap_twoMembers (by decide) (by decide) rfl (by decide)).mpr
    (by simp)

/-- A full queue in which the path down to the last index is smaller than the rest. -/
def fullQueue : PTable :=
  { pinit with
    proc := fun p => { Proc.zero with
      cpuShare := 10
      stride := 10000
      strideCount := if p.val + 1 ∣ NPROC then 0 else 1 }
    strideQueue := fun i => if 1 ≤ i ∧ i ≤ NPROC then some (Fin.ofNat NPROC (i - 1)) else none
    strideQueueSize := NPROC }

theorem minHeap_fullQueue : fullQueue.MinHeap NPROC where
  size := rfl
  filled i h1 hn := ⟨Fin.ofNat NPROC (i - 1), if_pos ⟨h1, hn⟩⟩
  ending i hi := if_neg (by omega)
  distinct i hi j hj hij := by
    rw [Set.mem_Icc] at hi hj
    simp only [fullQueue] at hij
    rw [if_pos hi, if_pos hj, Option.some.injEq, Fin.ext_iff] at hij
    simp only [Fin.ofNat, NPROC] at *
    omega
  heap := by
    have hall : ∀ j < NPROC + 1, 2 ≤ j → fullQueue.pass (fullQueue.strideQueue (j / 2)) ≤
        fullQueue.pass (fullQueue.strideQueue j) := by decide +kernel
    exact fun j h2 hj => hall j (by omega) h2

/-- Charging the root of the full queue leaves it at index `NPROC / 2`, above the smaller
entry of index `NPROC`. -/
theorem not_siftKeepsHeap_fullQueue : fullQueue.MinHeap NPROC ∧ fullQueue.strideQueue 1 = some 0 ∧
    (fullQueue.proc 0).strideCount ≤ 1 ∧ ¬ (fullQueue.setStrideCount 0 1).SiftKeepsHeap NPROC 1 := by
  refine ⟨minHeap_fullQueue, by decide, by decide, ?_⟩
  rintro ⟨t', hok, -, -, hheap, -⟩
  have hrun : ((fullQueue.setStrideCount 0 1).strideQueueHeapifyDown 1).toOption.map
      (fun t => (t.pass (t.strideQueue (NPROC / 2)), t.pass (t.strideQueue NPROC))) =
        some (1, 0) := by decide +kernel
  rw [hok] at hrun
  have hle : t'.pass (t'.strideQueue (NPROC / 2)) ≤ t'.pass (t'.strideQueue NPROC) :=
    hheap.heap NPROC (by decide) le_rfl
  simp only [Except.toOption, Option.map_some, Option.some.injEq, Prod.mk.injEq] at hrun
  omega

end PTable
end Xv6
