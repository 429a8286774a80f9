import Xv6.Vm

/-!
# Xv6.Vm.Enough

How many free pages are enough: a page takes at most one more page for its
page table, and with two free pages for every page it maps a call does not run
out of memory.
-/

namespace Xv6

open Lib

variable {free free' : List Frame} {a m : Nat} {d d' : PgDir}

theorem mappages_length {e : Pte}
    (h : mappages d free a e = .ok (some (d', free'))) : free.length ≤ free'.length + 1 := by
  unfold mappages at h
  split at h
  · split at h
    · contradiction
    · cases h
      exact Nat.le_succ _
  · split at h
    · cases h
    · cases h
      exact le_of_eq List.length_cons

theorem mappages_none {e : Pte} (h : mappages d free a e = .ok none) : free = [] := by
  unfold mappages at h
  split at h
  · split at h <;> cases h
  · split at h
    · rfl
    · cases h

/-- With two free pages for each of `m` pages, `f` among them, the next one is
mapped, and there is enough left for the others. -/
theorem mappages_enough {e : Pte} {f : Frame} {sz : Nat} {o : Option (PgDir × List Frame)}
    (hfree : 2 * m ≤ (f :: free).length) (hlt : a < sz) (hm : sz ≤ a + m * PGSIZE)
    (h : mappages d free a e = .ok o) : ∃ k d1 free1, o = some (d1, free1) ∧
      2 * k ≤ free1.length ∧ sz ≤ a + PGSIZE + k * PGSIZE := by
  obtain ⟨k, rfl⟩ : ∃ k, m = k + 1 := by
    refine Nat.exists_eq_succ_of_ne_zero ?_
    rintro rfl
    omega
  rw [List.length_cons] at hfree
  cases o with
  | none =>
    rw [mappages_none h, List.length_nil] at hfree
    omega
  | some p =>
    have hlen := mappages_length h
    exact ⟨k, p.1, p.2, rfl, by omega, by simp only [PGSIZE] at *; omega⟩

/-- With two free pages for each of `m` pages the loop of `allocuvm` gets
through. -/
theorem allocuvmLoop_enough {oldsz newsz fuel r : Nat} (hfree : 2 * m ≤ free.length)
    (ha : newsz ≤ a + m * PGSIZE)
    (h : allocuvmLoop oldsz newsz fuel d free a = .ok (d', free', r)) : r = newsz := by
  induction fuel generalizing a m d free with
  | zero =>
    cases h
    rfl
  | succ fuel ih =>
    unfold allocuvmLoop at h
    split at h
    · next hlt =>
      split at h
      · obtain rfl : m = 0 := by simpa using hfree
        omega
      · obtain ⟨o, hmap, h⟩ := bind_eq_ok.mp h
        obtain ⟨k, d1, free1, rfl, hfree1, hk⟩ := mappages_enough hfree hlt ha hmap
        exact ih hfree1 hk h
    · cases h
      rfl

theorem allocuvm_enough {oldsz newsz r : Nat} (hnew : newsz < KERNBASE) (hle : oldsz ≤ newsz)
    (hfree : 2 * m ≤ free.length) (hm : newsz ≤ pgRoundUp oldsz + m * PGSIZE)
    (h : allocuvm d free oldsz newsz = .ok (d', free', r)) : r = newsz := by
  rw [allocuvm, if_neg (Nat.not_le.mpr hnew), if_neg (Nat.not_lt.mpr hle)] at h
  exact allocuvmLoop_enough hfree hm h

variable {o : Option PgDir} {src : PgDir}

/-- With two free pages for each of `m` pages the loop of `copyuvm` gets through. -/
theorem copyuvmLoop_enough {sz fuel i : Nat}
    (hfree : 2 * m ≤ free.length) (hi : sz ≤ i + m * PGSIZE)
    (h : copyuvmLoop src sz fuel d free i = .ok (o, d', free')) : o.isSome := by
  induction fuel generalizing i m d free with
  | zero =>
    cases h
    rfl
  | succ fuel ih =>
    unfold copyuvmLoop at h
    split at h
    · next hlt =>
      split at h
      · contradiction
      split at h
      · contradiction
      split at h
      · obtain rfl : m = 0 := by simpa using hfree
        omega
      · obtain ⟨o', hmap, h⟩ := bind_eq_ok.mp h
        obtain ⟨k, d1, free1, rfl, hfree1, hk⟩ := mappages_enough hfree hlt hi hmap
        exact ih hfree1 hk h
    · cases h
      rfl

theorem copyuvm_enough {sz : Nat} (hfree : 1 + kernTables + 2 * m ≤ free.length)
    (hm : sz ≤ m * PGSIZE) (h : copyuvm src sz free = .ok (o, free')) : o.isSome := by
  unfold copyuvm at h
  cases free with
  | nil =>
    simp only [List.length_nil] at hfree
    omega
  | cons f free =>
    rw [List.length_cons] at hfree
    have hset : setupkvm (f :: free) =
        (some { frame := f, kern := free.take kernTables, table := fun _ => none },
          free.drop kernTables) := by
      rw [setupkvm, if_pos (by omega)]
    rw [hset] at h
    obtain ⟨⟨o', d, free1⟩, hloop, h⟩ := bind_eq_ok.mp h
    have hsome := copyuvmLoop_enough (m := m)
      (by rw [List.length_drop]; omega) (by omega) hloop
    cases o' with
    | none => contradiction
    | some d' =>
      cases h
      rfl

end Xv6
