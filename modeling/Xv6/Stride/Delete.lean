import Xv6.Stride.Fair

/-!
# Xv6.Stride.Delete

What `stride_queue_delete` leaves behind when it finds its caller.

The last entry of the queue takes the place of the deleted one.  The source calls
the two heapify routines the wrong way round, and `stride_queue_heapify_up` compares
addresses.  When the deleted entry is the last one the flag that chooses the routine
is not initialised, and `stride_queue_heapify_up` moves the null pointer into the
heap.
-/

namespace Xv6
namespace PTable

open Lib Function

variable {t t' : PTable} {n i : Nat} {c : Slot}

/-! ## Finding the caller -/

/-- The indices `1 .. n` hold distinct processes. -/
structure Packed (t : PTable) (n : Nat) : Prop where
  size : t.strideQueueSize = n
  filled : ∀ i, 1 ≤ i → i ≤ n → ∃ p, t.strideQueue i = some p
  distinct : Set.InjOn t.strideQueue (Set.Icc 1 n)

theorem Queued.packed (h : t.Queued n) : t.Packed n := ⟨h.size, h.filled, h.distinct⟩

theorem Packed.le (h : t.Packed n) : n ≤ NPROC := by
  have hmaps : ∀ i ∈ Finset.Icc 1 n, t.strideQueue i ∈ (Finset.univ : Finset (Option Slot)).erase none := by
    intro i hi
    obtain ⟨h1, h2⟩ := Finset.mem_Icc.mp hi
    obtain ⟨p, hp⟩ := h.filled i h1 h2
    simp [hp]
  have hcard := Finset.card_le_card_of_injOn t.strideQueue hmaps (by simpa using h.distinct)
  simpa using hcard

variable {m j k : Nat}

/-- The search stops at the first index that holds the process. -/
theorem strideIndexOf_le {p : Slot} (hk : t.strideQueue k = some p) (h1 : j ≤ k)
    (h2 : k < j + m) : ∃ i, t.strideIndexOf p m j = some i ∧ i ≤ k := by
  induction m generalizing j with
  | zero => omega
  | succ m ih =>
    unfold strideIndexOf
    by_cases hj : t.strideQueue j = some p
    · exact ⟨j, if_pos hj, h1⟩
    · rw [if_neg hj]
      have hne : j ≠ k := fun h => hj (h ▸ hk)
      exact ih (by omega) (by omega)

theorem Packed.strideIndexOf (h : t.Packed n) (hi : 1 ≤ i ∧ i ≤ n) (hc : t.strideQueue i = some c) :
    t.strideIndexOf c NPROC 1 = some i := by
  have hle := h.le
  obtain ⟨j, hj, hji⟩ := strideIndexOf_le (m := NPROC) hc hi.1 (by omega)
  obtain ⟨hpos, hcj⟩ := strideIndexOf_some hj
  have hij : j = i := h.distinct ⟨hpos, by omega⟩ hi (hcj.trans hc.symm)
  rw [hj, hij]

/-- The table in which the last entry stands at index `i`. -/
def lastAt (t : PTable) (c : Slot) (i : Nat) : PTable :=
  { t with sumCpuShare := t.sumCpuShare - (t.proc c).cpuShare }.strideQueueRemove i

theorem Packed.delete_eq (h : t.Packed n) (hi : 1 ≤ i ∧ i ≤ n) (hc : t.strideQueue i = some c)
    (p : Slot) (junk : Bool) :
    t.strideQueueDelete c p junk = (t.lastAt c i).heapifyRemoved i junk := by
  have hfind : PTable.strideIndexOf { t with sumCpuShare := t.sumCpuShare - (t.proc c).cpuShare }
      c NPROC 1 = some i := Packed.strideIndexOf ⟨h.size, h.filled, h.distinct⟩ hi hc
  unfold strideQueueDelete
  simp only [hfind]
  have hsize : ¬ t.strideQueueSize < 0 := by
    rw [h.size]
    omega
  rw [if_neg hsize, lastAt]

theorem Packed.lastAt_size (h : t.Packed n) (hn : 1 ≤ n) (c : Slot) (i : Nat) :
    (t.lastAt c i).strideQueueSize = (n - 1 : Nat) := by
  simp only [lastAt, strideQueueRemove, h.size]
  omega

theorem Packed.lastAt_self (h : t.Packed n) (hi : i < n) (c : Slot) :
    (t.lastAt c i).strideQueue i = t.strideQueue n := by
  simp only [lastAt, strideQueueRemove, h.size, Int.toNat_natCast]
  rw [update_of_ne (by omega), update_self]

theorem Packed.lastAt_of_ne (h : t.Packed n) (hj : j < n) (hji : j ≠ i) (c : Slot) :
    (t.lastAt c i).strideQueue j = t.strideQueue j := by
  simp only [lastAt, strideQueueRemove, h.size, Int.toNat_natCast]
  rw [update_of_ne (by omega), update_of_ne hji]

theorem Packed.lastAt_last (h : t.Packed n) (c : Slot) (i : Nat) :
    (t.lastAt c i).strideQueue n = none := by
  simp only [lastAt, strideQueueRemove, h.size, Int.toNat_natCast]
  rw [update_self]

/-! ## Sifting up -/

/-- The hole of `stride_queue_heapify_up` moves from index `i` up to index `k`. -/
inductive Climbs (q : Nat → Option Slot) : Nat → Nat → Prop where
  | refl (i : Nat) : Climbs q i i
  | step {i k : Nat} : i ≠ 1 → ptrLt (q i) (q (i / 2)) → Climbs q (i / 2) k → Climbs q i k

variable {q : Nat → Option Slot}

theorem Climbs.le {i : Nat} (h : Climbs q i k) : k ≤ i := by
  induction h with
  | refl => exact le_rfl
  | step _ _ _ ih => omega

theorem Climbs.congr {i : Nat} (h : Climbs q i k)
    (q' : Nat → Option Slot) (heq : ∀ j ≤ i, q' j = q j) : Climbs q' i k := by
  induction h with
  | refl => exact .refl _
  | @step i k hi hlt _ ih =>
    refine .step hi ?_ (ih fun j hj => heq j (by omega))
    rwa [heq i le_rfl, heq (i / 2) (by omega)]

theorem heapifyUpLoop_range (fuel : Nat) (q : Nat → Option Slot) {i : Nat} (hi : 1 ≤ i) :
    1 ≤ (heapifyUpLoop fuel q i).2 ∧ (heapifyUpLoop fuel q i).2 ≤ i := by
  induction fuel generalizing q i with
  | zero => exact ⟨hi, le_rfl⟩
  | succ fuel ih =>
    unfold heapifyUpLoop
    split
    · split
      · obtain ⟨h1, h2⟩ := ih (update q i (q (i / 2))) (i := i / 2) (by omega)
        exact ⟨h1, by omega⟩
      · exact ⟨hi, le_rfl⟩
    · exact ⟨hi, le_rfl⟩

theorem heapifyUpLoop_above (fuel : Nat) (q : Nat → Option Slot) {i : Nat} (hi : 1 ≤ i)
    (hk : i < k) : (heapifyUpLoop fuel q i).1 k = q k := by
  induction fuel generalizing q i with
  | zero => rfl
  | succ fuel ih =>
    unfold heapifyUpLoop
    split
    · split
      · rw [ih _ (by omega) (by omega), update_of_ne (by omega)]
      · rfl
    · rfl

/-! ## The members after a deletion -/

theorem Queued.heapifyRemoved_ok (h : t.Queued m) (hi : 1 ≤ i ∧ i ≤ m + 1) (junk : Bool) :
    ∃ t', t.heapifyRemoved i junk = .ok t' := by
  have hflag : ∃ up, t.heapifyUpFlag i junk = .ok up := by
    unfold heapifyUpFlag
    split
    · exact ⟨_, rfl⟩
    split
    · next h1 hsize =>
      rw [h.size] at hsize
      obtain ⟨x, hx⟩ := h.filled i hi.1 (by omega)
      obtain ⟨y, hy⟩ := h.filled (i / 2) (by omega) (by omega)
      exact ⟨_, by rw [hx, hy, strideCountOf_some, strideCountOf_some]; rfl⟩
    · exact ⟨_, rfl⟩
  obtain ⟨up, hup⟩ := hflag
  rw [heapifyRemoved, hup, ok_bind]
  split
  · exact ⟨_, rfl⟩
  split
  · unfold strideQueueHeapifyDown
    simp only
    by_cases him : i ≤ m
    · obtain ⟨x, hx⟩ := h.filled i hi.1 him
      obtain ⟨r, hr⟩ := heapifyDownLoop_ok t x NPROC t.strideQueue i
      exact ⟨_, by rw [hx, hr]; rfl⟩
    · have hstop : heapifyDownLoop t (t.strideQueue i) NPROC t.strideQueue i =
          .ok (t.strideQueue, i) := by
        rw [show NPROC = 63 + 1 from rfl, heapifyDownLoop, if_neg]
        rw [h.size]
        omega
      exact ⟨_, by rw [hstop]; rfl⟩
  · exact ⟨_, rfl⟩

/-- **Deletion keeps the other members and leaves no hole, unless the deleted entry is
the last of three or more and the uninitialised flag is zero.** -/
theorem delete_keeps_iff (h : t.Queued n) (hc : t.InQueue c) (junk : Bool) :
    (∃ t', t.strideQueueDelete c c junk = .ok t' ∧ t'.Queued (n - 1) ∧
        ∀ q, t'.InQueue q ↔ t.InQueue q ∧ q ≠ c) ↔
      ¬ (3 ≤ n ∧ t.strideQueue n = some c ∧ junk = false) := by
  obtain ⟨i, hi, hic⟩ := h.inQueue_iff.mp hc
  have hdelete := h.packed.delete_eq hi hic c junk
  have hremoved : (t.lastAt c i).Queued (n - 1) := by
    have hq : Queued { t with sumCpuShare := t.sumCpuShare - (t.proc c).cpuShare } n :=
      h.of_rearranged rfl (Rearranged.refl n _)
    exact (hq.remove hi hic).1
  constructor
  · rintro ⟨t', hok, hq, -⟩ ⟨hn, hlast, rfl⟩
    have hin : i = n := h.distinct hi ⟨by omega, le_rfl⟩ (hic.trans hlast.symm)
    subst hin
    -- the null pointer of index `i` takes the place of its parent
    rw [hdelete, heapifyRemoved, heapifyUpFlag, if_neg (by omega),
      if_neg (by rw [hremoved.size]; omega), ok_bind, if_neg (by rw [hremoved.size]; omega)] at hok
    cases hok
    obtain ⟨x, hx⟩ := hremoved.filled (i / 2) (by omega) (by omega)
    have hnull := h.packed.lastAt_last c i
    have hrange := heapifyUpLoop_range 64
      (update (t.lastAt c i).strideQueue i ((t.lastAt c i).strideQueue (i / 2)))
      (show 1 ≤ i / 2 by omega)
    have hloop : heapifyUpLoop NSTRIDE_QUEUE (t.lastAt c i).strideQueue i =
        heapifyUpLoop 64 (update (t.lastAt c i).strideQueue i
          ((t.lastAt c i).strideQueue (i / 2))) (i / 2) := by
      rw [show NSTRIDE_QUEUE = 64 + 1 from rfl, heapifyUpLoop, if_pos (by omega), if_pos]
      rw [hnull, hx]
      rfl
    rw [← hloop] at hrange
    obtain ⟨y, hy⟩ := hq.filled _ hrange.1 (by omega)
    simp only [strideQueueHeapifyUp, update_self, hnull] at hy
    contradiction
  · intro hcond
    have hlast : 3 ≤ n → t.strideQueue n = some c → junk = true := fun h1 h2 => by
      cases junk with
      | true => rfl
      | false => exact absurd ⟨h1, h2, rfl⟩ hcond
    obtain ⟨t', hok⟩ := hremoved.heapifyRemoved_ok (i := i) (by omega) junk
    rw [← hdelete] at hok
    obtain ⟨-, hq, hmem, -⟩ := h.delete hlast hok
    exact ⟨t', hok, hq, hmem⟩

/-- A queue of the first processes of the table, with the pass values `key`. -/
def rowQueue (n : Nat) (key : Slot → Int32) : PTable :=
  { pinit with
    proc := fun p => { Proc.zero with cpuShare := 100, stride := 1000, strideCount := key p }
    strideQueue := fun i => if h : 1 ≤ i ∧ i ≤ n ∧ i < NPROC then some ⟨i, h.2.2⟩ else none
    sumCpuShare := 100 * Int32.ofNat n
    strideQueueSize := n }

theorem rowQueue_entry (n : Nat) (key : Slot → Int32) (p : Slot) (hp : 1 ≤ p.val ∧ p.val ≤ n) :
    (rowQueue n key).strideQueue p = some p := by
  simp only [rowQueue]
  rw [dif_pos ⟨hp.1, hp.2, p.isLt⟩]

theorem queued_rowQueue {n : Nat} (hn : n < NPROC) (key : Slot → Int32) :
    (rowQueue n key).Queued n where
  size := rfl
  filled i h1 h2 := ⟨⟨i, by omega⟩, rowQueue_entry n key ⟨i, by omega⟩ ⟨h1, h2⟩⟩
  ending i hi := by
    simp only [rowQueue]
    rw [dif_neg (by omega)]
  distinct i hi j hj hij := by
    have hin : i < NPROC := Nat.lt_of_le_of_lt hi.2 hn
    have hjn : j < NPROC := Nat.lt_of_le_of_lt hj.2 hn
    rw [rowQueue_entry n key ⟨i, hin⟩ hi, rowQueue_entry n key ⟨j, hjn⟩ hj,
      Option.some.injEq] at hij
    exact congrArg Fin.val hij

theorem inQueue_rowQueue {n : Nat} (key : Slot → Int32) (p : Slot) (hp : 1 ≤ p.val ∧ p.val ≤ n) :
    (rowQueue n key).InQueue p :=
  ⟨p, hp.1, Int.ofNat_le.mpr hp.2, rowQueue_entry n key p hp⟩

theorem delete_keeps_first : ∃ t', (rowQueue 3 fun _ => 0).strideQueueDelete 1 1 false = .ok t' ∧
    t'.Queued 2 ∧ ∀ q, t'.InQueue q ↔ (rowQueue 3 fun _ => 0).InQueue q ∧ q ≠ 1 :=
  (delete_keeps_iff (queued_rowQueue (by decide) _) (inQueue_rowQueue _ 1 (by decide)) false).mpr
    (by decide)

/-- Deleting the last of three entries with the flag at zero: the root is null afterwards,
and the former root stands behind the end of the queue. -/
theorem delete_last_hole : (rowQueue 3 fun _ => 0).Queued 3 ∧ (rowQueue 3 fun _ => 0).InQueue 3 ∧
    ∃ t', (rowQueue 3 fun _ => 0).strideQueueDelete 3 3 false = .ok t' ∧
      t'.strideQueueSize = 2 ∧ t'.strideQueue 1 = none ∧ t'.strideQueue 3 = some 1 := by
  refine ⟨queued_rowQueue (by decide) _, inQueue_rowQueue _ 3 (by decide), ?_⟩
  exact ⟨_, rfl, rfl, rfl, rfl⟩

/-! ## The order after a deletion -/

/-- If the hole only passes entries with the key of `x`, no key changes place. -/
theorem heapifyUpLoop_keys (t : PTable) (x : Option Slot) (fuel : Nat) (q : Nat → Option Slot)
    {i : Nat} (hi : 1 ≤ i) (hpast : ∀ k, Climbs q i k → k ≠ i → t.pass (q k) = t.pass x) (j : Nat) :
    t.pass (update (heapifyUpLoop fuel q i).1 (heapifyUpLoop fuel q i).2 x j) =
      t.pass (update q i x j) := by
  induction fuel generalizing q i with
  | zero => rfl
  | succ fuel ih =>
    unfold heapifyUpLoop
    split
    · next h1 =>
      split
      · next hlt =>
        have hkeep : ∀ k ≤ i / 2, update q i (q (i / 2)) k = q k := fun k hk =>
          update_of_ne (by omega) _ _
        have hhalf := hpast (i / 2) (.step h1 hlt (.refl _)) (by omega)
        rw [ih (update q i (q (i / 2))) (by omega) fun k hk hne => ?_]
        · by_cases hj : j = i / 2
          · rw [hj, update_self, update_of_ne (by omega), hhalf]
          rw [update_of_ne hj]
          by_cases hji : j = i
          · rw [hji, update_self, update_self, hhalf]
          · rw [update_of_ne hji, update_of_ne hji]
        · have hle := hk.le
          have hk' := hk.congr _ fun k hk => (hkeep k hk).symm
          rw [hkeep k hle]
          exact hpast k (.step h1 hlt hk') (by omega)
      · rfl
    · rfl

/-- Where the hole stops: no index it reaches is above, and if it has moved then the
entry of that index went down to a child. -/
theorem heapifyUpLoop_end (fuel : Nat) (q : Nat → Option Slot) {i : Nat} (hi : 1 ≤ i)
    (hfuel : i ≤ fuel) :
    (∀ k, Climbs q i k → Climbs q k (heapifyUpLoop fuel q i).2) ∧
      ((heapifyUpLoop fuel q i).2 ≠ i → ∃ c, 2 ≤ c ∧ c ≤ i ∧
        c / 2 = (heapifyUpLoop fuel q i).2 ∧
        (heapifyUpLoop fuel q i).1 c = q (heapifyUpLoop fuel q i).2) := by
  induction fuel generalizing q i with
  | zero => omega
  | succ fuel ih =>
    have hstay : (i ≠ 1 → ¬ ptrLt (q i) (q (i / 2)) = true) → ∀ k, Climbs q i k → Climbs q k i := by
      intro hstop k hk
      cases hk with
      | refl => exact .refl _
      | step h1 hlt _ => exact absurd hlt (hstop h1)
    unfold heapifyUpLoop
    split
    · next h1 =>
      split
      · next hlt =>
        have hkeep : ∀ k ≤ i / 2, update q i (q (i / 2)) k = q k := fun k hk =>
          update_of_ne (by omega) _ _
        obtain ⟨hall, hend⟩ := ih (update q i (q (i / 2))) (i := i / 2) (by omega)
          (by omega)
        generalize hr : heapifyUpLoop fuel (update q i (q (i / 2))) (i / 2) = r at *
        have hreach : ∀ k, Climbs q (i / 2) k → Climbs q k r.2 := by
          intro k hk
          have hle := hk.le
          exact (hall k (hk.congr _ hkeep)).congr _ fun j hj => (hkeep j (by omega)).symm
        have hdown := (hreach (i / 2) (.refl _)).le
        refine ⟨fun k hk => ?_, fun _ => ?_⟩
        · cases hk with
          | refl => exact .step h1 hlt (hreach _ (.refl _))
          | step _ _ hk => exact hreach k hk
        · by_cases hmoved : r.2 = i / 2
          · refine ⟨i, by omega, le_rfl, hmoved.symm, ?_⟩
            have hr1 : r.1 i = q (i / 2) := by
              have hup := heapifyUpLoop_above fuel (update q i (q (i / 2))) (i := i / 2)
                (k := i) (by omega) (by omega)
              rw [hr] at hup
              rw [hup, update_self]
            rw [hr1, hmoved]
          · obtain ⟨c, h2, hci, hhalf, hc⟩ := hend hmoved
            exact ⟨c, h2, by omega, hhalf, by rw [hc, hkeep _ hdown]⟩
      · next hlt => exact ⟨hstay fun _ => hlt, fun h => absurd rfl h⟩
    · next h1 => exact ⟨hstay fun h => absurd h h1, fun h => absurd rfl h⟩

theorem Climbs.key_le {f : Nat → Int} {i : Nat} (h : Climbs q i k)
    (hi : 1 ≤ i) (hf : ∀ j, 2 ≤ j → j ≤ i → f (j / 2) ≤ f j) : f k ≤ f i := by
  induction h with
  | refl => exact le_rfl
  | @step i k h1 _ _ ih =>
    have hhalf := ih (by omega) fun j h2 hj => hf j h2 (by omega)
    exact hhalf.trans (hf i (by omega) le_rfl)

/-- The last entry of the queue, put in the place of index `i`, is moved past index `k`
by the comparison of addresses. -/
def MovesPast (t : PTable) (n i k : Nat) : Prop :=
  i ≠ 1 ∧ ptrLt (t.strideQueue n) (t.strideQueue (i / 2)) ∧ Climbs t.strideQueue (i / 2) k

/-- The last entry of the queue belongs in the place of index `i`: it is not below the
parent, no child is below it, and neither is an ancestor that it is moved past. -/
structure LastFits (t : PTable) (n i : Nat) : Prop where
  parent : i ≠ 1 → t.pass (t.strideQueue (i / 2)) ≤ t.pass (t.strideQueue n)
  child : ∀ j < n, j / 2 = i → t.pass (t.strideQueue n) ≤ t.pass (t.strideQueue j)
  past : ∀ k, t.MovesPast n i k → t.pass (t.strideQueue n) ≤ t.pass (t.strideQueue k)

section

variable (h : t.Packed n) (hi : 1 ≤ i ∧ i < n)

include h hi

/-- The queue with the last entry at index `i` is ordered when that fits between the
parent and the children. -/
theorem Packed.lastAt_ordered_iff (hheap : HeapOrdered n fun j => t.pass (t.strideQueue j)) :
    (HeapOrdered (n - 1) fun j => t.pass ((t.lastAt c i).strideQueue j)) ↔
      (i ≠ 1 → t.pass (t.strideQueue (i / 2)) ≤ t.pass (t.strideQueue n)) ∧
        ∀ j < n, j / 2 = i → t.pass (t.strideQueue n) ≤ t.pass (t.strideQueue j) := by
  have hself := h.lastAt_self hi.2 c
  constructor
  · intro ho
    refine ⟨fun h1 => ?_, fun j hj hji => ?_⟩
    · have hle := ho i (by omega) (by omega)
      simp only at hle
      rwa [hself, h.lastAt_of_ne (by omega) (by omega)] at hle
    · have hle := ho j (by omega) (by omega)
      simp only at hle
      rwa [hji, hself, h.lastAt_of_ne hj (by omega)] at hle
  · rintro ⟨hparent, hchild⟩ j h2 hj
    simp only
    by_cases hji : j = i
    · rw [hji, hself, h.lastAt_of_ne (by omega) (by omega)]
      exact hparent (by omega)
    rw [h.lastAt_of_ne (by omega) hji]
    by_cases hhalf : j / 2 = i
    · rw [hhalf, hself]
      exact hchild j (by omega) hhalf
    · rw [h.lastAt_of_ne (by omega) hhalf]
      exact hheap j h2 (by omega)

/-- The addresses compared are those of the last entry and of the ancestors of `i`. -/
theorem Packed.climbs_lastAt :
    (Climbs (t.lastAt c i).strideQueue i k ∧ k ≠ i) ↔ t.MovesPast n i k := by
  have hself := h.lastAt_self hi.2 c
  have hkeep : ∀ j ≤ i / 2, (t.lastAt c i).strideQueue j = t.strideQueue j := fun j hj =>
    h.lastAt_of_ne (by omega) (by omega) c
  constructor
  · rintro ⟨hk, hne⟩
    cases hk with
    | refl => exact absurd rfl hne
    | step h1 hlt hk =>
      rw [hself, hkeep _ le_rfl] at hlt
      exact ⟨h1, hlt, hk.congr _ fun j hj => (hkeep j hj).symm⟩
  · rintro ⟨h1, hlt, hk⟩
    have hle := hk.le
    refine ⟨.step h1 ?_ (hk.congr _ hkeep), by omega⟩
    rwa [hself, hkeep _ le_rfl]

/-- Sifting the last entry up leaves an ordered queue when it belongs at index `i`. -/
theorem Packed.heapifyUp_ordered_iff (hheap : HeapOrdered n fun j => t.pass (t.strideQueue j))
    (hparent : i ≠ 1 → t.pass (t.strideQueue (i / 2)) ≤ t.pass (t.strideQueue n)) :
    (HeapOrdered (n - 1) fun j => t.pass (((t.lastAt c i).strideQueueHeapifyUp i).strideQueue j)) ↔
      t.LastFits n i := by
  have hself := h.lastAt_self hi.2 c
  have hn := h.le
  have hmono : ∀ j, 2 ≤ j → j ≤ i → t.pass (t.strideQueue (j / 2)) ≤ t.pass (t.strideQueue j) :=
    fun j h2 hj => hheap j h2 (by omega)
  obtain ⟨hall, hend⟩ := heapifyUpLoop_end NSTRIDE_QUEUE (t.lastAt c i).strideQueue hi.1
    (Nat.le_trans (by omega) (show NPROC ≤ NSTRIDE_QUEUE by decide))
  have hrange := heapifyUpLoop_range NSTRIDE_QUEUE (t.lastAt c i).strideQueue hi.1
  have hkeys := heapifyUpLoop_keys t (t.strideQueue n) NSTRIDE_QUEUE (t.lastAt c i).strideQueue hi.1
  have hqueue : ((t.lastAt c i).strideQueueHeapifyUp i).strideQueue =
      update (heapifyUpLoop NSTRIDE_QUEUE (t.lastAt c i).strideQueue i).1
        (heapifyUpLoop NSTRIDE_QUEUE (t.lastAt c i).strideQueue i).2 (t.strideQueue n) := by
    simp only [strideQueueHeapifyUp, hself]
  have hsame : update (t.lastAt c i).strideQueue i (t.strideQueue n) =
      (t.lastAt c i).strideQueue := by rw [← hself, update_eq_self]
  rw [hqueue]
  rw [hsame] at hkeys
  generalize heapifyUpLoop NSTRIDE_QUEUE (t.lastAt c i).strideQueue i = r at *
  constructor
  · intro ho
    by_cases hmoved : r.2 = i
    · -- the hole has not moved
      have hnone : ∀ k, ¬ t.MovesPast n i k := fun k hk => by
        obtain ⟨hcl, hne⟩ := (h.climbs_lastAt hi (c := c)).mpr hk
        have hle := hcl.le
        have hge := (hall k hcl).le
        omega
      have hkeys' := hkeys fun k hk hne => absurd ((h.climbs_lastAt hi).mp ⟨hk, hne⟩) (hnone k)
      simp only [hkeys'] at ho
      obtain ⟨-, hchild⟩ := (h.lastAt_ordered_iff hi hheap).mp ho
      exact ⟨hparent, hchild, fun k hk => absurd hk (hnone k)⟩
    · obtain ⟨d, h2, hdi, hhalf, hd⟩ := hend hmoved
      -- the last entry is not above the one that went down
      have hle : t.pass (t.strideQueue n) ≤ t.pass (t.strideQueue r.2) := by
        have hord := ho d h2 (by omega)
        simp only at hord
        rwa [hhalf, update_self, update_of_ne (by omega), hd,
          h.lastAt_of_ne (by omega) hmoved] at hord
      have hup : t.pass (t.strideQueue r.2) ≤ t.pass (t.strideQueue i) := by
        have hcl := hall i (.refl i)
        cases hcl with
        | refl => exact absurd rfl hmoved
        | step h1 _ hcl =>
          have hcl' := hcl.congr t.strideQueue fun j hj =>
            (h.lastAt_of_ne (by omega) (by omega) c).symm
          exact (hcl'.key_le (f := fun j => t.pass (t.strideQueue j)) (by omega)
            fun j h2 hj => hmono j h2 (by omega)).trans (hmono i (by omega) le_rfl)
      refine ⟨hparent, fun j hj hji => ?_, fun k hk => ?_⟩
      · have hchild := hheap j (by omega) (by omega)
        simp only [hji] at hchild
        exact (hle.trans hup).trans hchild
      · obtain ⟨hcl, hne⟩ := (h.climbs_lastAt hi (c := c)).mpr hk
        have hki := hcl.le
        have hcl' := (hall k hcl).congr t.strideQueue fun j hj =>
          (h.lastAt_of_ne (by omega) (by omega) c).symm
        have hpos := (hall k hcl).le
        exact hle.trans (hcl'.key_le (f := fun j => t.pass (t.strideQueue j)) (by omega)
          fun j h2 hj => hmono j h2 (by omega))
  · intro hfits
    have hkeys' := hkeys fun k hk hne => by
      have hpast := (h.climbs_lastAt hi).mp ⟨hk, hne⟩
      obtain ⟨h1, -, hcl⟩ := id hpast
      have hki := hk.le
      rw [h.lastAt_of_ne (by omega) hne]
      refine le_antisymm ?_ (hfits.past k hpast)
      exact (hcl.key_le (f := fun j => t.pass (t.strideQueue j)) (by omega)
        fun j h2 hj => hmono j h2 (by omega)).trans (hparent h1)
    simp only [hkeys']
    exact (h.lastAt_ordered_iff hi hheap).mpr ⟨hfits.parent, hfits.child⟩

/-- Sifting down does not help an entry that is below its parent. -/
theorem Packed.heapifyDown_not_ordered (h1 : i ≠ 1)
    (hlt : t.pass (t.strideQueue n) < t.pass (t.strideQueue (i / 2)))
    (hok : (t.lastAt c i).strideQueueHeapifyDown i = .ok t') :
    ¬ HeapOrdered (n - 1) fun j => t.pass (t'.strideQueue j) := by
  obtain ⟨x, hx⟩ := h.filled n (by omega) le_rfl
  have hself := h.lastAt_self hi.2 c
  obtain ⟨q, hq, hcase⟩ := strideQueueHeapifyDown_entry (t.lastAt c i) i x hi.1
    (by rw [h.lastAt_size (by omega)]; omega) (hself.trans hx)
  have hentry : t.pass (q i) ≤ t.pass (t.strideQueue n) := by
    cases hcase with
    | inl hstay => rw [hstay.1, hx]
    | inr hmoved =>
      obtain ⟨y, hy, hle, -⟩ := hmoved
      rw [hy, hx]
      exact (Int32.lt_iff_toInt_lt.mp hle).le
  have hparent : t'.strideQueue (i / 2) = t.strideQueue (i / 2) := by
    obtain ⟨r, hr, hok'⟩ := bind_eq_ok.mp hok
    cases hok'
    obtain ⟨hge, hbelow⟩ := heapifyDownLoop_below _ _ _ _ _ hi.1 _ hr
    simp only
    rw [update_of_ne (by omega), hbelow _ (by omega), h.lastAt_of_ne (by omega) (by omega)]
  rw [hq, Except.ok.injEq] at hok
  intro ho
  have hord := ho i (by omega) (by omega)
  simp only [hparent] at hord
  rw [← hok] at hord
  exact absurd (hord.trans hentry) (not_le.mpr hlt)

end

/-- **Deletion of an entry that is not the last keeps the heap ordered exactly when
the last entry belongs in its place.** -/
theorem delete_ordered_iff (h : t.Packed n)
    (hheap : HeapOrdered n fun j => t.pass (t.strideQueue j))
    (hi : 1 ≤ i ∧ i < n) (hc : t.strideQueue i = some c) (junk : Bool) :
    (∃ t', t.strideQueueDelete c c junk = .ok t' ∧
        HeapOrdered (n - 1) fun j => t'.pass (t'.strideQueue j)) ↔ t.LastFits n i := by
  rw [h.delete_eq ⟨hi.1, by omega⟩ hc]
  have hsize := h.lastAt_size (show 1 ≤ n by omega) c i
  by_cases h1 : i = 1
  · subst h1
    have hflag : (t.lastAt c 1).heapifyUpFlag 1 junk = .ok false := by
      rw [heapifyUpFlag, if_pos rfl]
    rw [heapifyRemoved, hflag, ok_bind]
    by_cases hn : n = 2
    · subst hn
      rw [if_pos (by rw [hsize]; decide)]
      refine iff_of_true ⟨_, rfl, fun j h2 hj => by omega⟩ ⟨fun h => absurd rfl h, ?_, ?_⟩
      · intro j hj hhalf
        omega
      · rintro k ⟨h1, -⟩
        exact absurd rfl h1
    · rw [if_neg (by rw [hsize]; omega), if_neg Bool.false_ne_true,
        ← h.heapifyUp_ordered_iff (c := c) hi hheap fun h => absurd rfl h]
      constructor
      · rintro ⟨t', hok, ho⟩
        cases hok
        exact ho
      · exact fun ho => ⟨_, rfl, ho⟩
  · obtain ⟨x, hx⟩ := h.filled n (by omega) le_rfl
    obtain ⟨y, hy⟩ := h.filled (i / 2) (by omega) (by omega)
    have hflag : (t.lastAt c i).heapifyUpFlag i junk =
        .ok (decide ((t.proc x).strideCount < (t.proc y).strideCount)) := by
      rw [heapifyUpFlag, if_neg h1, if_pos (by rw [hsize]; omega), h.lastAt_self hi.2,
        h.lastAt_of_ne (by omega) (by omega), hx, hy]
      rfl
    rw [heapifyRemoved, hflag, ok_bind, if_neg (by rw [hsize]; omega)]
    by_cases hlt : (t.proc x).strideCount < (t.proc y).strideCount
    · have hbelow : t.pass (t.strideQueue n) < t.pass (t.strideQueue (i / 2)) := by
        rw [hx, hy]
        exact Int32.lt_iff_toInt_lt.mp hlt
      rw [if_pos (by simpa using hlt)]
      refine iff_of_false ?_ fun hfits => absurd (hfits.parent h1) (not_le.mpr hbelow)
      rintro ⟨t', hok, ho⟩
      have hproc : t'.pass = t.pass := by
        obtain ⟨q, rfl⟩ := strideQueueHeapifyDown_eq hok
        rfl
      rw [hproc] at ho
      exact h.heapifyDown_not_ordered hi h1 hbelow hok ho
    · have hparent : t.pass (t.strideQueue (i / 2)) ≤ t.pass (t.strideQueue n) := by
        rw [hx, hy]
        exact Int32.le_iff_toInt_le.mp (Int32.not_lt.mp hlt)
      rw [if_neg (by simpa using hlt), ← h.heapifyUp_ordered_iff (c := c) hi hheap fun _ => hparent]
      constructor
      · rintro ⟨t', hok, ho⟩
        cases hok
        exact ho
      · exact fun ho => ⟨_, rfl, ho⟩

theorem delete_ordered_equal : ∃ t', (rowQueue 3 fun _ => 0).strideQueueDelete 1 1 false = .ok t' ∧
    HeapOrdered 2 fun j => t'.pass (t'.strideQueue j) := by
  have hzero : ∀ x, (rowQueue 3 fun _ => 0).pass x = 0 := fun x => by cases x <;> rfl
  refine (delete_ordered_iff (queued_rowQueue (by decide) _).packed ?_ (by decide) rfl false).mpr
    ⟨fun h => absurd rfl h, fun j _ _ => ?_, fun k hk => absurd rfl hk.1⟩
  · intro j _ _
    simp only [hzero, le_refl]
  · simp only [hzero, le_refl]

/-- A heap with the pass values 5, 10 and 15.  After the deletion of the root the entry
with 15 stands above the one with 10. -/
theorem delete_root_unordered :
    (rowQueue 3 fun p => 5 * Int32.ofNat p).Packed 3 ∧
      (HeapOrdered 3 fun j => (rowQueue 3 fun p => 5 * Int32.ofNat p).pass
        ((rowQueue 3 fun p => 5 * Int32.ofNat p).strideQueue j)) ∧
      ∃ t', (rowQueue 3 fun p => 5 * Int32.ofNat p).strideQueueDelete 1 1 false = .ok t' ∧
        t'.strideQueue 1 = some 3 ∧ t'.strideQueue 2 = some 2 ∧
        ¬ HeapOrdered 2 fun j => t'.pass (t'.strideQueue j) := by
  refine ⟨(queued_rowQueue (by decide) _).packed, fun j h2 hj => ?_, _, rfl, rfl, rfl, fun ho => ?_⟩
  · interval_cases j
    · decide
    · decide
  · exact absurd (ho 2 le_rfl le_rfl) (by decide)

end PTable
end Xv6
