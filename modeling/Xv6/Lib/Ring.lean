import Mathlib

/-!
# Xv6.Lib.Ring

Ring buffers whose indices come from 32-bit counters that are never reset.

The elements ever stored form a history; the counters stand at its length and at
the number of elements taken, modulo `2 ^ 32`.  As long as the two are at most the
capacity apart, comparing the counters is comparing the numbers.
-/

namespace Lib

open Function List

variable {α : Type} {cap lo : ℕ} {data : ℕ → α} {hist : List α}

/-! ## Counters -/

theorem ofNat_succ (n : ℕ) : UInt32.ofNat n + 1 = UInt32.ofNat (n + 1) :=
  (UInt32.ofNat_add n 1).symm

theorem ofNat_pred {n : ℕ} (h : 0 < n) : UInt32.ofNat n - 1 = UInt32.ofNat (n - 1) := by
  obtain ⟨m, rfl⟩ : ∃ m, n = m + 1 := ⟨n - 1, by omega⟩
  rw [← ofNat_succ, UInt32.add_sub_cancel, Nat.add_sub_cancel]

theorem toNat_ofNat_mod (h : cap ∣ 2 ^ 32) (n : ℕ) : (UInt32.ofNat n).toNat % cap = n % cap := by
  rw [UInt32.toNat_ofNat']
  exact Nat.mod_mod_of_dvd n h

/-- Counters that are close are equal when the numbers are. -/
theorem ofNat_eq_iff {a b : ℕ} (h : a ≤ b) (h' : b < a + 2 ^ 32) :
    UInt32.ofNat a = UInt32.ofNat b ↔ a = b := by
  constructor
  · intro heq
    have hmod := congrArg UInt32.toNat heq
    rw [UInt32.toNat_ofNat', UInt32.toNat_ofNat'] at hmod
    omega
  · exact congrArg UInt32.ofNat

theorem toNat_ofNat_sub {a b : ℕ} (h : a ≤ b) (h' : b < a + 2 ^ 32) :
    (UInt32.ofNat b - UInt32.ofNat a).toNat = b - a := by
  rw [UInt32.toNat_sub, UInt32.toNat_ofNat', UInt32.toNat_ofNat']
  omega

/-! ## Cells -/

/-- The cells hold the history from index `lo` on. -/
structure RingHolds (cap : ℕ) (data : ℕ → α) (hist : List α) (lo : ℕ) : Prop where
  le : lo ≤ hist.length
  room : hist.length ≤ lo + cap
  cell : ∀ i, lo ≤ i → i < hist.length → hist[i]? = some (data (i % cap))

theorem ringHolds_nil (cap : ℕ) (data : ℕ → α) : RingHolds cap data [] 0 :=
  ⟨le_rfl, Nat.zero_le _, fun i _ h => absurd h (Nat.not_lt_zero i)⟩

/-- Indices less than the capacity apart have cells of their own. -/
theorem mod_ne_of_lt {i j : ℕ} (h : i < j) (h' : j < i + cap) : i % cap ≠ j % cap := by
  intro heq
  have hdvd : cap ∣ j - i := (Nat.modEq_iff_dvd' h.le).mp heq
  have hle := Nat.le_of_dvd (by omega) hdvd
  omega

section

variable (h : RingHolds cap data hist lo)
include h

theorem RingHolds.push (hroom : hist.length < lo + cap) (x : α) :
    RingHolds cap (update data (hist.length % cap) x) (hist ++ [x]) lo where
  le := by
    rw [length_append]
    exact h.le.trans (Nat.le_add_right ..)
  room := by
    rw [length_append, length_singleton]
    omega
  cell i hlo hi := by
    rw [length_append, length_singleton] at hi
    by_cases hlast : i = hist.length
    · rw [hlast, getElem?_append_right le_rfl, update_self]
      simp
    · rw [getElem?_append_left (by omega),
        update_of_ne (mod_ne_of_lt (by omega) (by omega)), h.cell i hlo (by omega)]

theorem RingHolds.pop (hlt : lo < hist.length) :
    hist[lo]? = some (data (lo % cap)) ∧ RingHolds cap data hist (lo + 1) := by
  have hroom := h.room
  exact ⟨h.cell lo le_rfl hlt, hlt, by omega, fun i hi => h.cell i (by omega)⟩

theorem RingHolds.dropLast (hlt : lo < hist.length) : RingHolds cap data hist.dropLast lo where
  le := by
    rw [length_dropLast]
    omega
  room := by
    have hroom := h.room
    rw [length_dropLast]
    omega
  cell i hlo hi := by
    rw [length_dropLast] at hi
    rw [getElem?_dropLast, if_pos hi, h.cell i hlo (by omega)]

theorem RingHolds.slice_eq {a n : ℕ} (ha : lo ≤ a) (hn : a + n ≤ hist.length) :
    (hist.drop a).take n = (range n).map fun j => data ((a + j) % cap) := by
  refine ext_getElem? fun j => ?_
  rw [getElem?_take, getElem?_drop, getElem?_map]
  by_cases hj : j < n
  · rw [if_pos hj, h.cell (a + j) (by omega) (by omega), getElem?_range hj, Option.map_some]
  · rw [if_neg hj, getElem?_eq_none (by simpa using hj), Option.map_none]

/-- The elements that are stored and not yet taken. -/
theorem RingHolds.drop_eq :
    hist.drop lo = (range (hist.length - lo)).map fun j => data ((lo + j) % cap) := by
  have hle := h.le
  rw [← h.slice_eq le_rfl (by omega), take_of_length_le (length_drop ▸ le_rfl)]

end

end Lib
