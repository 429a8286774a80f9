import Mathlib

/-!
# Xv6.Lib.Extents

Extents of memory: a start and a number of units of `u` bytes.  A list of extents
tiles a list of regions when it cuts up exactly their bytes; tilings are kept when
extents are reordered, joined or split, and when a region is added.
-/

namespace Lib

/-- The bytes of an extent. -/
def span (u : ℕ) (e : ℕ × ℕ) : Set ℕ := Set.Ico e.1 (e.1 + u * e.2)

variable {u a m n x : ℕ} {e r : ℕ × ℕ} {es es' rs : List (ℕ × ℕ)}

theorem mem_span : x ∈ span u e ↔ e.1 ≤ x ∧ x < e.1 + u * e.2 := Iff.rfl

theorem span_add (u a m n : ℕ) : span u (a, m + n) = span u (a, m) ∪ span u (a + u * m, n) := by
  ext x
  simp only [Set.mem_union, mem_span, Nat.mul_add]
  omega

theorem disjoint_span_add (u a m n : ℕ) : Disjoint (span u (a, m)) (span u (a + u * m, n)) :=
  Set.disjoint_left.mpr fun x h h' => by
    simp only [mem_span] at h h'
    omega

/-- Disjoint extents that are not empty come one after the other. -/
theorem end_le_of_disjoint (h : Disjoint (span u e) (span u r)) (hu : 0 < u) (hr : 0 < r.2)
    (hlt : e.1 < r.1) : e.1 + u * e.2 ≤ r.1 := by
  by_contra hover
  have hpos : 0 < u * r.2 := Nat.mul_pos hu hr
  exact Set.disjoint_left.mp h (mem_span.mpr ⟨hlt.le, by omega⟩) (mem_span.mpr ⟨le_rfl, by omega⟩)

theorem start_ne_of_disjoint (h : Disjoint (span u e) (span u r)) (hu : 0 < u) (he : 0 < e.2)
    (hr : 0 < r.2) : e.1 ≠ r.1 := by
  intro heq
  have hpos : 0 < u * r.2 := Nat.mul_pos hu hr
  have hpos' : 0 < u * e.2 := Nat.mul_pos hu he
  exact Set.disjoint_left.mp h (mem_span.mpr ⟨heq.le, by omega⟩) (mem_span.mpr ⟨le_rfl, by omega⟩)

/-- The extents are disjoint and have the bytes of the regions among them. -/
structure Tiles (u : ℕ) (es rs : List (ℕ × ℕ)) : Prop where
  apart : es.Pairwise fun e e' => Disjoint (span u e) (span u e')
  covers : ∀ x, (∃ e ∈ es, x ∈ span u e) ↔ ∃ r ∈ rs, x ∈ span u r
  units : (es.map Prod.snd).sum = (rs.map Prod.snd).sum

namespace Tiles

theorem perm (h : Tiles u es rs) (hp : es.Perm es') : Tiles u es' rs where
  apart := (hp.pairwise_iff fun hd => hd.symm).mp h.apart
  covers x := by simp only [← h.covers, hp.mem_iff]
  units := (hp.map Prod.snd).sum_eq.symm.trans h.units

/-- Joining two extents that touch, or splitting one. -/
theorem join_iff : Tiles u ((a, m) :: (a + u * m, n) :: es) rs ↔ Tiles u ((a, m + n) :: es) rs := by
  have hdisj := disjoint_span_add u a m n
  have happart : ((a, m) :: (a + u * m, n) :: es).Pairwise
        (fun e e' => Disjoint (span u e) (span u e')) ↔
      ((a, m + n) :: es).Pairwise fun e e' => Disjoint (span u e) (span u e') := by
    simp only [List.pairwise_cons, List.forall_mem_cons, hdisj, true_and, span_add,
      Set.disjoint_union_left, forall_and]
    tauto
  have hcovers : ∀ x, (∃ e ∈ (a, m) :: (a + u * m, n) :: es, x ∈ span u e) ↔
      ∃ e ∈ (a, m + n) :: es, x ∈ span u e := by
    simp [span_add, or_assoc]
  have hunits : (((a, m) :: (a + u * m, n) :: es).map Prod.snd).sum =
      (((a, m + n) :: es).map Prod.snd).sum := by
    simp [Nat.add_assoc]
  constructor
  · intro h
    exact ⟨happart.mp h.apart, fun x => (hcovers x).symm.trans (h.covers x), hunits ▸ h.units⟩
  · intro h
    exact ⟨happart.mpr h.apart, fun x => (hcovers x).trans (h.covers x), hunits ▸ h.units⟩

theorem grow (h : Tiles u es rs) (hr : ∀ r' ∈ rs, Disjoint (span u r) (span u r')) :
    Tiles u (r :: es) (rs ++ [r]) where
  apart := by
    refine List.pairwise_cons.mpr ⟨fun e he => Set.disjoint_left.mpr fun x hx hxe => ?_, h.apart⟩
    obtain ⟨r', hr', hxr'⟩ := (h.covers x).mp ⟨e, he, hxe⟩
    exact Set.disjoint_left.mp (hr r' hr') hx hxr'
  covers x := by
    have hcov := h.covers x
    simp only [List.mem_cons, List.mem_append, or_and_right, exists_or, exists_eq_left, hcov]
    simp [or_comm]
  units := by simp [h.units, Nat.add_comm]

end Tiles

end Lib
