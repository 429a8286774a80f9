import Xv6.Lib.Heap
import Xv6.Stride.Select

/-!
# Xv6.Stride.Queue

What the operations of the stride queue do to its entries: each of them adds
or removes one entry and rearranges the others.

The loops of the source move a hole through the heap and write the entry they
carry at the end, so each turn is one move of `Xv6.Lib.Heap`.
-/

namespace Xv6
namespace PTable

variable {fuel i n : Nat} {t t' : PTable} {p : Slot}

open Lib Function

/-! ## Sifting down -/

/-- The sift moves the hole within the queue and rearranges the entries. -/
theorem heapifyDownLoop_rearranged {p : Option Slot} {q : Nat → Option Slot}
    {r : (Nat → Option Slot) × Nat} (hi : 1 ≤ i ∧ i ≤ n) (hend : ∀ k, n < k → q k = none)
    (h : heapifyDownLoop t p fuel q i = .ok r) :
    Rearranged n (update q i p) (update r.1 r.2 p) := by
  induction fuel generalizing q i with
  | zero =>
    simp only [heapifyDownLoop, Except.ok.injEq] at h
    exact h ▸ Rearranged.refl n _
  | succ fuel ih =>
    rcases heapifyDownLoop_cases h with ⟨rfl, _⟩ | ⟨c, x, hto, hrest⟩
    · exact Rearranged.refl n _
    have hc : 1 ≤ c ∧ c ≤ n := by
      refine ⟨by rcases hto.child with rfl | rfl <;> omega, ?_⟩
      by_contra hout
      have hnone := hend c (by omega)
      rw [hto.entry] at hnone
      contradiction
    have hic : i ≠ c := by rcases hto.child with rfl | rfl <;> omega
    have hmove := rearranged_move q p hi hc hic
    rw [hto.entry] at hmove
    rcases hrest with hrest | ⟨_, _, rfl⟩
    · refine hmove.trans (ih hc (fun k hk => ?_) hrest)
      rw [update_of_ne (by omega), hend k hk]
    · exact hmove

theorem strideQueueHeapifyDown_rearranged (hi : 1 ≤ i ∧ i ≤ n)
    (hend : ∀ k, n < k → t.strideQueue k = none) (h : t.strideQueueHeapifyDown i = .ok t') :
    ∃ q, t' = { t with strideQueue := q } ∧ Rearranged n t.strideQueue q := by
  obtain ⟨r, hr, h⟩ := bind_eq_ok.mp h
  cases h
  have hrearr := heapifyDownLoop_rearranged hi hend hr
  rw [update_eq_self] at hrearr
  exact ⟨_, rfl, hrearr⟩

/-! ## Sifting up -/

/-- The loop moves the hole up and rearranges the entries. -/
theorem heapifyUpLoop_rearranged (fuel : Nat) (q : Nat → Option Slot) (p : Option Slot)
    (hi : 1 ≤ i ∧ i ≤ n) :
    Rearranged n (update q i p)
      (update (heapifyUpLoop fuel q i).1 (heapifyUpLoop fuel q i).2 p) := by
  induction fuel generalizing q i with
  | zero => exact Rearranged.refl n _
  | succ fuel ih =>
    simp only [heapifyUpLoop]
    split
    · split
      · have hhalf : 1 ≤ i / 2 ∧ i / 2 ≤ n := by omega
        exact (rearranged_move q p hi hhalf (by omega)).trans (ih _ hhalf)
      · exact Rearranged.refl n _
    · exact Rearranged.refl n _

theorem strideQueueHeapifyUp_rearranged (t : PTable) (hi : 1 ≤ i ∧ i ≤ n) :
    ∃ q, t.strideQueueHeapifyUp i = { t with strideQueue := q } ∧
      Rearranged n t.strideQueue q := by
  refine ⟨_, rfl, ?_⟩
  have hrearr := heapifyUpLoop_rearranged NSTRIDE_QUEUE t.strideQueue (t.strideQueue i) hi
  rwa [update_eq_self] at hrearr

/-! ## Insertion -/

/-- The loop of `stride_queue_push` moves the hole to the root. -/
theorem pushLoop_rearranged (fuel : Nat) (q : Nat → Option Slot) (p : Option Slot)
    (hi : 1 ≤ i ∧ i ≤ n) :
    Rearranged n (update q i p)
      (update (pushLoop fuel q i).1 (pushLoop fuel q i).2 p) := by
  induction fuel generalizing q i with
  | zero => exact Rearranged.refl n _
  | succ fuel ih =>
    simp only [pushLoop]
    split
    · have hhalf : 1 ≤ i / 2 ∧ i / 2 ≤ n := by omega
      exact (rearranged_move q p hi hhalf (by omega)).trans (ih _ hhalf)
    · exact Rearranged.refl n _

/-- The process that `stride_queue_push` inserts takes over the pass value of
the root, if there is one. -/
def inheritPass (t : PTable) (x : Proc) : Proc :=
  match t.strideQueue 1 with
  | some r => { x with strideCount := (t.proc r).strideCount }
  | none => x

/-- `stride_queue_push` opens a hole behind the last entry, which its loop moves
to the root. -/
theorem strideQueuePush_eq (t : PTable) (p : Slot) (hsize : t.strideQueueSize = n) :
    t.strideQueuePush p = { t.setProc p t.inheritPass with
      strideQueue :=
        let r := pushLoop NSTRIDE_QUEUE t.strideQueue (n + 1)
        update r.1 r.2 (some p)
      strideQueueSize := (n + 1 : Nat) } := by
  have hn : ((n : Int) + 1).toNat = n + 1 := by omega
  unfold strideQueuePush inheritPass
  cases t.strideQueue 1 with
  | none => simp [setProc, hsize, hn]
  | some r => simp [hsize, hn]

theorem strideQueuePush_rearranged (t : PTable) (p : Slot) (hsize : t.strideQueueSize = n) :
    ∃ q, t.strideQueuePush p =
        { t.setProc p t.inheritPass with strideQueue := q, strideQueueSize := (n + 1 : Nat) } ∧
      Rearranged (n + 1) (update t.strideQueue (n + 1) (some p)) q :=
  ⟨_, strideQueuePush_eq t p hsize,
    pushLoop_rearranged NSTRIDE_QUEUE t.strideQueue (some p) (by omega)⟩

theorem pushLoop_index (hi : 1 ≤ i) (hfuel : i ≤ fuel) (q : Nat → Option Slot) :
    (pushLoop fuel q i).2 = 1 := by
  induction fuel generalizing q i with
  | zero => omega
  | succ fuel ih =>
    unfold pushLoop
    split
    · exact ih (by omega) (by omega) _
    · next h => simpa using h

theorem strideQueuePush_root (p : Slot) (h0 : 0 ≤ t.strideQueueSize)
    (h₁ : t.strideQueueSize < NPROC) : (t.strideQueuePush p).strideQueue 1 = some p := by
  have hidx : ∀ q, (pushLoop NSTRIDE_QUEUE q (t.strideQueueSize + 1).toNat).2 = 1 :=
    pushLoop_index (by omega) (by simp only [NSTRIDE_QUEUE, NPROC] at *; omega)
  unfold strideQueuePush
  cases t.strideQueue 1 with
  | none => simp only [hidx, update_self]
  | some r => simp only [setProc_strideQueueSize, hidx, update_self]

/-! ## Deletion -/

theorem strideIndexOf_some {k : Nat}
    (h : t.strideIndexOf p n i = some k) : i ≤ k ∧ t.strideQueue k = some p := by
  induction n generalizing i with
  | zero => contradiction
  | succ n ih =>
    unfold strideIndexOf at h
    split at h
    · next hp =>
      rw [Option.some.injEq] at h
      exact h ▸ ⟨le_rfl, hp⟩
    · obtain ⟨hle, hk⟩ := ih h
      exact ⟨by omega, hk⟩

/-! ## Well-formed queues -/

/-- The queue holds `n` distinct processes in the indices `1 .. n` and null
pointers above. -/
structure Queued (t : PTable) (n : Nat) : Prop where
  size : t.strideQueueSize = n
  filled : ∀ i, 1 ≤ i → i ≤ n → ∃ p, t.strideQueue i = some p
  ending : ∀ i, n < i → t.strideQueue i = none
  distinct : Set.InjOn t.strideQueue (Set.Icc 1 n)

/-- `p` is in `stride_queue[1 .. stride_queue_size]`. -/
def InQueue (t : PTable) (p : Slot) : Prop :=
  ∃ i : Nat, 1 ≤ i ∧ (i : Int) ≤ t.strideQueueSize ∧ t.strideQueue i = some p

instance (t : PTable) (p : Slot) : Decidable (t.InQueue p) :=
  decidable_of_iff (∃ i, i < t.strideQueueSize.toNat + 1 ∧ 1 ≤ i ∧ t.strideQueue i = some p) <| by
    constructor
    · rintro ⟨i, hi, h₁, hp⟩
      exact ⟨i, h₁, by omega, hp⟩
    · rintro ⟨i, h₁, h₂, hp⟩
      exact ⟨i, by omega, h₁, hp⟩

theorem Queued.full (h : t.Queued n) : t.QueueFull := by
  intro i hi hsize
  rw [h.size] at hsize
  exact h.filled i hi (by omega)

theorem Queued.inQueue_iff (h : t.Queued n) :
    t.InQueue p ↔ ∃ i, (1 ≤ i ∧ i ≤ n) ∧ t.strideQueue i = some p := by
  unfold InQueue
  rw [h.size]
  constructor
  · rintro ⟨i, h₁, h₂, hp⟩
    exact ⟨i, ⟨h₁, by omega⟩, hp⟩
  · rintro ⟨i, ⟨h₁, h₂⟩, hp⟩
    exact ⟨i, h₁, by omega, hp⟩

theorem Queued.of_rearranged (h : t.Queued n) (hsize : t'.strideQueueSize = t.strideQueueSize)
    (hr : Rearranged n t.strideQueue t'.strideQueue) : t'.Queued n where
  size := hsize.trans h.size
  filled := by
    intro i h₁ h₂
    obtain ⟨j, hj, heq⟩ := hr.exists_of_new ⟨h₁, h₂⟩
    rw [heq]
    exact h.filled j hj.1 hj.2
  ending := by
    intro i hi
    rw [hr.outside (by omega)]
    exact h.ending i hi
  distinct := hr.injOn h.distinct

theorem Queued.inQueue_rearranged (h : t.Queued n) (hsize : t'.strideQueueSize = t.strideQueueSize)
    (hr : Rearranged n t.strideQueue t'.strideQueue) (p : Slot) : t'.InQueue p ↔ t.InQueue p := by
  rw [(h.of_rearranged hsize hr).inQueue_iff, h.inQueue_iff]
  constructor
  · rintro ⟨i, hi, hp⟩
    obtain ⟨j, hj, heq⟩ := hr.exists_of_new hi
    exact ⟨j, hj, heq ▸ hp⟩
  · rintro ⟨i, hi, hp⟩
    obtain ⟨j, hj, heq⟩ := hr.exists_of_old hi
    exact ⟨j, hj, heq.trans hp⟩

/-! ## Members after insertion and deletion -/

/-- `stride_queue_push` of a process that is not in the queue. -/
theorem Queued.push (h : t.Queued n) (hp : ¬ t.InQueue p) :
    (t.strideQueuePush p).Queued (n + 1) ∧
      ∀ q, (t.strideQueuePush p).InQueue q ↔ t.InQueue q ∨ q = p := by
  obtain ⟨q, heq, hr⟩ := strideQueuePush_rearranged t p h.size
  -- the queue with `p` at its end, before the loop moves it to the root
  have hadd : Queued { t with
      strideQueue := update t.strideQueue (n + 1) (some p)
      strideQueueSize := (n + 1 : Nat) } (n + 1) := by
    constructor
    case size => rfl
    case filled =>
      intro i h₁ h₂
      by_cases hi : i = n + 1
      · exact ⟨p, by simp [hi]⟩
      · obtain ⟨x, hx⟩ := h.filled i h₁ (by omega)
        exact ⟨x, by simp [hi, hx]⟩
    case ending =>
      intro i hi
      simp only
      rw [update_of_ne (by omega)]
      exact h.ending i (by omega)
    case distinct =>
      have hnew : ∀ i ∈ Set.Icc 1 n, t.strideQueue i ≠ some p := fun i hi he =>
        hp (h.inQueue_iff.mpr ⟨i, hi, he⟩)
      intro i hi j hj hij
      simp only at hij
      by_cases hin : i = n + 1 <;> by_cases hjn : j = n + 1
      · omega
      · rw [hin, update_self, update_of_ne hjn] at hij
        exact absurd hij.symm (hnew j ⟨hj.1, by have := hj.2; omega⟩)
      · rw [hjn, update_self, update_of_ne hin] at hij
        exact absurd hij (hnew i ⟨hi.1, by have := hi.2; omega⟩)
      · rw [update_of_ne hin, update_of_ne hjn] at hij
        exact h.distinct ⟨hi.1, by have := hi.2; omega⟩ ⟨hj.1, by have := hj.2; omega⟩ hij
  have hmem : ∀ x, InQueue { t.setProc p t.inheritPass with
      strideQueue := q, strideQueueSize := (n + 1 : Nat) } x ↔ _ := hadd.inQueue_rearranged rfl hr
  rw [heq]
  refine ⟨hadd.of_rearranged rfl hr, fun x => ?_⟩
  rw [hmem x, hadd.inQueue_iff, h.inQueue_iff]
  constructor
  · rintro ⟨i, hi, hx⟩
    by_cases hin : i = n + 1
    · simp only [hin, update_self, Option.some.injEq] at hx
      exact .inr hx.symm
    · simp only [update_of_ne hin] at hx
      exact .inl ⟨i, by omega, hx⟩
  · rintro (⟨i, hi, hx⟩ | rfl)
    · exact ⟨i, by omega, by simpa only [update_of_ne (show i ≠ n + 1 by omega)] using hx⟩
    · exact ⟨n + 1, by omega, by simp⟩

theorem Queued.remove (h : t.Queued n) (hi : 1 ≤ i ∧ i ≤ n) (hp : t.strideQueue i = some p) :
    (t.strideQueueRemove i).Queued (n - 1) ∧
      ∀ q, (t.strideQueueRemove i).InQueue q ↔ t.InQueue q ∧ q ≠ p := by
  -- where the entry at `j` comes from
  have hentry : ∀ j, j < n → (t.strideQueueRemove i).strideQueue j =
      t.strideQueue (if j = i then n else j) := by
    intro j hj
    simp only [strideQueueRemove, h.size, Int.toNat_natCast]
    rw [update_of_ne (by omega)]
    by_cases hji : j = i
    · rw [hji, update_self, if_pos rfl]
    · rw [update_of_ne hji, if_neg hji]
  have hsize : (t.strideQueueRemove i).strideQueueSize = (n - 1 : Nat) := by
    simp only [strideQueueRemove, h.size]
    omega
  have hqueued : (t.strideQueueRemove i).Queued (n - 1) := by
    constructor
    case size => exact hsize
    case filled =>
      intro j h₁ h₂
      rw [hentry j (by omega)]
      split
      · exact h.filled n (by omega) le_rfl
      · exact h.filled j h₁ (by omega)
    case ending =>
      intro j hj
      simp only [strideQueueRemove, h.size, Int.toNat_natCast]
      by_cases hjn : j = n
      · rw [hjn, update_self]
      · rw [update_of_ne hjn, update_of_ne (by omega)]
        exact h.ending j (by omega)
    case distinct =>
      intro j hj k hk hjk
      have hjn : j < n := by have := hj.2; have := hj.1; omega
      have hkn : k < n := by have := hk.2; have := hk.1; omega
      rw [hentry j hjn, hentry k hkn] at hjk
      have heq := h.distinct
        (show (if j = i then n else j) ∈ Set.Icc 1 n by
          have := hj.1
          split <;> constructor <;> omega)
        (show (if k = i then n else k) ∈ Set.Icc 1 n by
          have := hk.1
          split <;> constructor <;> omega) hjk
      split at heq <;> split at heq <;> omega
  refine ⟨hqueued, fun q => ?_⟩
  rw [hqueued.inQueue_iff, h.inQueue_iff]
  constructor
  · rintro ⟨j, hj, hq⟩
    rw [hentry j (by omega)] at hq
    have hne : (if j = i then n else j) ≠ i := by split <;> omega
    refine ⟨⟨_, ⟨by split <;> omega, by split <;> omega⟩, hq⟩, ?_⟩
    rintro rfl
    exact hne (h.distinct ⟨by split <;> omega, by split <;> omega⟩ hi (hq.trans hp.symm))
  · rintro ⟨⟨j, hj, hq⟩, hne⟩
    have hji : j ≠ i := by
      rintro rfl
      exact hne (Option.some.inj (hq.symm.trans hp))
    by_cases hjn : j = n
    · exact ⟨i, by omega, by rw [hentry i (by omega), if_pos rfl, ← hjn, hq]⟩
    · exact ⟨j, by omega, by rw [hentry j (by omega), if_neg hji, hq]⟩

theorem strideQueueHeapifyDown_outside (hi : t.strideQueueSize < i)
    (h : t.strideQueueHeapifyDown i = .ok t') : t' = t := by
  obtain ⟨r, hr, h⟩ := bind_eq_ok.mp h
  cases h
  have hloop : ∀ fuel, heapifyDownLoop t (t.strideQueue i) (fuel + 1) t.strideQueue i =
      .ok (t.strideQueue, i) := by
    intro fuel
    rw [heapifyDownLoop, if_neg (by omega)]
  rw [show NPROC = 63 + 1 from rfl, hloop] at hr
  cases hr
  simp only [update_eq_self]

/-- The heapify step after a removal rearranges the entries, unless the last
one was removed and the uninitialised flag says up. -/
theorem heapifyRemoved_rearranged {m : Nat} {junk : Bool} (h : t.Queued m) (hi : 1 ≤ i ∧ i ≤ m + 1)
    (hlast : i = m + 1 → 2 ≤ m → junk = true) (hr : t.heapifyRemoved i junk = .ok t') :
    ∃ q, t' = { t with strideQueue := q } ∧ Rearranged m t.strideQueue q := by
  obtain ⟨up, hup, hr⟩ := bind_eq_ok.mp hr
  split at hr
  · cases hr
    exact ⟨_, rfl, Rearranged.refl m _⟩
  next hsize =>
  rw [h.size] at hsize
  by_cases him : i ≤ m
  · split at hr
    · exact strideQueueHeapifyDown_rearranged ⟨hi.1, him⟩ h.ending hr
    · cases hr
      exact strideQueueHeapifyUp_rearranged t ⟨hi.1, him⟩
  · have hjunk : up = true := by
      unfold heapifyUpFlag at hup
      rw [if_neg (by omega), if_neg (by rw [h.size]; omega)] at hup
      cases hup
      exact hlast (by omega) (by omega)
    rw [if_pos hjunk] at hr
    rw [strideQueueHeapifyDown_outside (by rw [h.size]; omega) hr]
    exact ⟨_, rfl, Rearranged.refl m _⟩

/-- **`stride_queue_delete`** that finds its caller in the queue.  When the member is the
last of three or more, the flag that the source leaves uninitialised has to
say down. -/
theorem Queued.delete (h : t.Queued n) {c : Slot} {junk : Bool}
    (hlast : 3 ≤ n → t.strideQueue n = some c → junk = true)
    (hd : t.strideQueueDelete c p junk = .ok t') :
    t.InQueue c ∧ t'.Queued (n - 1) ∧ (∀ q, t'.InQueue q ↔ t.InQueue q ∧ q ≠ c) ∧
      t'.proc = t.proc ∧ t'.sumCpuShare = t.sumCpuShare - (t.proc c).cpuShare := by
  unfold strideQueueDelete at hd
  simp only at hd
  split at hd
  · contradiction
  next i hi =>
  obtain ⟨hpos, hic⟩ := strideIndexOf_some hi
  have hin : i ≤ n := by
    by_contra hout
    have hnone : t.strideQueue i = none := h.ending i (by omega)
    have hsome : t.strideQueue i = some c := hic
    rw [hnone] at hsome
    contradiction
  split at hd
  · contradiction
  have hq : Queued { t with sumCpuShare := t.sumCpuShare - (t.proc c).cpuShare } n :=
    h.of_rearranged rfl (Rearranged.refl n _)
  obtain ⟨hrem, hmem⟩ := hq.remove ⟨hpos, hin⟩ hic
  obtain ⟨q, rfl, hrearr⟩ := heapifyRemoved_rearranged hrem ⟨hpos, by omega⟩
    (fun hin' hm => hlast (by omega) (by
      have hni : n = i := by omega
      rw [hni]
      exact hic)) hd
  have hsame : ∀ x, InQueue { strideQueueRemove
      { t with sumCpuShare := t.sumCpuShare - (t.proc c).cpuShare } i with
        strideQueue := q } x ↔ _ := hrem.inQueue_rearranged rfl hrearr
  exact ⟨h.inQueue_iff.mpr ⟨i, ⟨hpos, hin⟩, hic⟩, hrem.of_rearranged rfl hrearr,
    fun x => (hsame x).trans (hmem x), rfl, rfl⟩

end PTable
end Xv6
