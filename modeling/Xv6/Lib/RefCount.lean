import Mathlib

/-!
# Xv6.Lib.RefCount

Reference counts.  Places of a table refer to objects, and so do the references
in the hands of the code that is running; the count of an object is the number
of both.
-/

namespace Lib

open Function

variable {κ α : Type} [Fintype κ] [DecidableEq α]

/-- The number of places that refer to `a`. -/
def holders (t : κ → Option α) (a : α) : Nat := (Finset.univ.filter fun k => t k = some a).card

theorem holders_update_some [DecidableEq κ] {t : κ → Option α} {k : κ} (hk : t k = none) (a b : α) :
    holders (update t k (some a)) b = holders t b + if a = b then 1 else 0 := by
  unfold holders
  by_cases hab : a = b
  · subst hab
    have hset : (Finset.univ.filter fun j => update t k (some a) j = some a) =
        insert k (Finset.univ.filter fun j => t j = some a) := by
      ext j
      by_cases hj : j = k
      · simp [hj]
      · simp [hj]
    rw [hset, Finset.card_insert_of_notMem (by simp [hk]), if_pos rfl]
  · rw [if_neg hab, Nat.add_zero]
    congr 1
    ext j
    by_cases hj : j = k
    · simp [hj, hk, hab]
    · simp [hj]

theorem holders_update_none [DecidableEq κ] {t : κ → Option α} {k : κ} {a : α} (hk : t k = some a)
    (b : α) : holders t b = holders (update t k none) b + if a = b then 1 else 0 := by
  have hback := holders_update_some (t := update t k none) (update_self ..) a b
  rwa [update_idem, ← hk, update_eq_self] at hback

/-- The counts `ref` are right for the table `t` and the references in `hand`. -/
def Balanced (ref : α → Int) (t : κ → Option α) (hand : List α) : Prop :=
  ∀ a, ref a = holders t a + hand.count a

namespace Balanced

variable {ref : α → Int} {t : κ → Option α} {hand : List α} {a : α} {k : κ}

/-- A reference in the hand goes into an empty place. -/
theorem put [DecidableEq κ] (h : Balanced ref t (a :: hand)) (hk : t k = none) :
    Balanced ref (update t k (some a)) hand := by
  intro b
  rw [h b, holders_update_some hk, List.count_cons]
  simp only [beq_iff_eq]
  push_cast
  ring

theorem take [DecidableEq κ] (h : Balanced ref t hand) (hk : t k = some a) :
    Balanced ref (update t k none) (a :: hand) := by
  intro b
  rw [h b, holders_update_none hk, List.count_cons]
  simp only [beq_iff_eq]
  push_cast
  ring

theorem made (h : Balanced ref t hand) (a : α) :
    Balanced (update ref a (ref a + 1)) t (a :: hand) := by
  intro b
  by_cases hb : b = a
  · subst hb
    rw [update_self, h b, List.count_cons_self]
    push_cast
    ring
  · rw [update_of_ne hb, h b, List.count_cons_of_ne (Ne.symm hb)]

theorem drop (h : Balanced ref t (a :: hand)) : Balanced (update ref a (ref a - 1)) t hand := by
  intro b
  by_cases hb : b = a
  · subst hb
    rw [update_self, h b, List.count_cons_self]
    push_cast
    ring
  · rw [update_of_ne hb, h b, List.count_cons_of_ne (Ne.symm hb)]

theorem perm {hand' : List α} (h : Balanced ref t hand) (hp : hand.Perm hand') :
    Balanced ref t hand' := by
  intro b
  rw [h b, hp.count_eq]

theorem pos_of_hand (h : Balanced ref t (a :: hand)) : 0 < ref a := by
  rw [h a, List.count_cons_self]
  omega

end Balanced
end Lib
