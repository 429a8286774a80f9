import Mathlib

/-!
# Xv6.Lib.Owner

Who owns what: places that hold an object each or nothing, objects of an area,
and the set of objects in use.  Every object that is held is in use and held in
one place only; objects are taken when they are free and given back by the
place that holds them.
-/

namespace Lib

open Function

variable {ι β : Type} {null : β} {area used : Set β} {held : ι → β}

/-- Every object that is held belongs to the area, is in use and is held once. -/
structure Owns (null : β) (area used : Set β) (held : ι → β) : Prop where
  mem_area : ∀ x, held x ≠ null → held x ∈ area
  mem_used : ∀ x, held x ≠ null → held x ∈ used
  inj : ∀ x y, held x ≠ null → held x = held y → x = y

/-- Every object of the area that is in use is held. -/
def Covers (area used : Set β) (held : ι → β) : Prop := ∀ b ∈ area, b ∈ used → ∃ x, held x = b

namespace Owns

theorem ne_of_not_mem (h : Owns null area used held) {b : β} (hb : b ∉ used) {x : ι}
    (hx : held x ≠ null) : held x ≠ b :=
  fun heq => hb (heq ▸ h.mem_used x hx)

/-- A free object is taken by a place that holds nothing. -/
theorem take [DecidableEq ι] (h : Owns null area used held) {b : β} {x : ι} (hb : b ∉ used)
    (hmem : b ∈ area) : Owns null area (insert b used) (update held x b) where
  mem_area y hy := by
    by_cases hyx : y = x
    · subst hyx
      rwa [update_self]
    · rw [update_of_ne hyx] at hy ⊢
      exact h.mem_area y hy
  mem_used y hy := by
    by_cases hyx : y = x
    · subst hyx
      rw [update_self]
      exact Set.mem_insert b used
    · rw [update_of_ne hyx] at hy ⊢
      exact Set.mem_insert_of_mem b (h.mem_used y hy)
  inj y z hy heq := by
    by_cases hyx : y = x
    · subst hyx
      by_contra hzy
      rw [update_self, update_of_ne (Ne.symm hzy)] at heq
      rw [update_self, heq] at hy
      exact h.ne_of_not_mem hb hy heq.symm
    · rw [update_of_ne hyx] at hy heq
      by_cases hzx : z = x
      · subst hzx
        rw [update_self] at heq
        exact (h.ne_of_not_mem hb hy heq).elim
      · rw [update_of_ne hzx] at heq
        exact h.inj y z hy heq

/-- The places outside `keep` give back what they hold. -/
theorem restrict (h : Owns null area used held) (keep : ι → Prop) [DecidablePred keep] :
    Owns null area (used \ { b | ∃ x, ¬ keep x ∧ held x ≠ null ∧ held x = b })
      (fun x => if keep x then held x else null) where
  mem_area x hx := by
    by_cases hk : keep x
    · rw [if_pos hk] at hx ⊢
      exact h.mem_area x hx
    · exact absurd (if_neg hk) hx
  mem_used x hx := by
    by_cases hk : keep x
    · rw [if_pos hk] at hx ⊢
      refine ⟨h.mem_used x hx, ?_⟩
      rintro ⟨y, hy, hnull, heq⟩
      exact hy (h.inj y x hnull heq ▸ hk)
    · exact absurd (if_neg hk) hx
  inj x y hx heq := by
    by_cases hk : keep x
    · rw [if_pos hk] at hx heq
      by_cases hk' : keep y
      · rw [if_pos hk'] at heq
        exact h.inj x y hx heq
      · rw [if_neg hk'] at heq
        exact absurd heq hx
    · exact absurd (if_neg hk) hx

end Owns

namespace Covers

theorem take [DecidableEq ι] (h : Covers area used held) {b : β} {x : ι} (hx : held x ∉ area) :
    Covers area (insert b used) (update held x b) := by
  intro c hc hused
  by_cases hcb : c = b
  · exact ⟨x, by rw [update_self, hcb]⟩
  · obtain ⟨y, hy⟩ := h c hc (hused.resolve_left hcb)
    have hyx : y ≠ x := fun hyx => hx (by rw [← hyx, hy]; exact hc)
    exact ⟨y, by rw [update_of_ne hyx, hy]⟩

/-- Only what the places outside `keep` gave back is free afterwards. -/
theorem restrict (h : Covers area used held) (hnull : null ∉ area) (keep : ι → Prop)
    [DecidablePred keep] :
    Covers area (used \ { b | ∃ x, ¬ keep x ∧ held x ≠ null ∧ held x = b })
      (fun x => if keep x then held x else null) := by
  intro c hc hused
  obtain ⟨x, hx⟩ := h c hc hused.1
  have hne : held x ≠ null := fun heq => hnull (by rw [← heq, hx]; exact hc)
  have hk : keep x := by
    by_contra hk
    exact hused.2 ⟨x, hk, hne, hx⟩
  exact ⟨x, (if_pos hk).trans hx⟩

end Covers

/-! ## What was taken since -/

/-- What has come into use since is held by places that held nothing, and was
free. -/
structure Gains (null : β) (used : Set β) (held : ι → β) (used' : Set β) (held' : ι → β) :
    Prop where
  mem_iff : ∀ b, b ∈ used' ↔ b ∈ used ∨ ∃ x, held x = null ∧ held' x = b ∧ b ≠ null
  free : ∀ x, held x = null → held' x ≠ null → held' x ∉ used

namespace Gains

variable {used' used'' : Set β} {held' held'' : ι → β}

theorem refl (null : β) (used : Set β) (held : ι → β) : Gains null used held used held where
  mem_iff b := by
    refine ⟨.inl, ?_⟩
    rintro (hb | ⟨x, hx, heq, hne⟩)
    · exact hb
    · exact absurd (heq.symm.trans hx) hne
  free x hx hne := absurd hx hne

theorem trans (h : Gains null used held used' held') (h' : Gains null used' held' used'' held'')
    (hkept : ∀ x, held x ≠ null → held' x = held x)
    (hkept' : ∀ x, held' x ≠ null → held'' x = held' x) : Gains null used held used'' held'' where
  mem_iff b := by
    rw [h'.mem_iff b, h.mem_iff b]
    constructor
    · rintro ((hb | ⟨x, hx, heq, hne⟩) | ⟨x, hx, heq, hne⟩)
      · exact .inl hb
      · exact .inr ⟨x, hx, by rw [hkept' x (heq ▸ hne), heq], hne⟩
      · refine .inr ⟨x, ?_, heq, hne⟩
        by_contra hold
        exact hold ((hkept x hold).symm.trans hx)
    · rintro (hb | ⟨x, hx, heq, hne⟩)
      · exact .inl (.inl hb)
      · by_cases hx' : held' x = null
        · exact .inr ⟨x, hx', heq, hne⟩
        · exact .inl (.inr ⟨x, hx, (hkept' x hx').symm.trans heq, hne⟩)
  free x hx hne := by
    by_cases hx' : held' x = null
    · intro hmem
      exact h'.free x hx' hne ((h.mem_iff _).mpr (.inl hmem))
    · rw [hkept' x hx']
      exact h.free x hx hx'

/-- A free object is taken by a place that holds nothing. -/
theorem take [DecidableEq ι] {b : β} {x : ι} (hx : held x = null) (hb : b ∉ used)
    (hne : b ≠ null) : Gains null used held (insert b used) (update held x b) where
  mem_iff c := by
    rw [Set.mem_insert_iff]
    constructor
    · rintro (rfl | hc)
      · exact .inr ⟨x, hx, update_self .., hne⟩
      · exact .inl hc
    · rintro (hc | ⟨y, hy, heq, hnull⟩)
      · exact .inr hc
      · by_cases hyx : y = x
        · rw [hyx, update_self] at heq
          exact .inl heq.symm
        · rw [update_of_ne hyx, hy] at heq
          exact absurd heq.symm hnull
  free y hy hnull := by
    by_cases hyx : y = x
    · rw [hyx, update_self]
      exact hb
    · rw [update_of_ne hyx] at hnull
      exact absurd hy hnull

/-- When the only places that took something give everything back, what was in
use before is in use again. -/
theorem giveBack (h : Gains null used held used' held') (S : ι → Prop)
    (hempty : ∀ x, S x → held x = null) (hframe : ∀ x, ¬ S x → held' x = held x) :
    used' \ { b | ∃ x, S x ∧ held' x ≠ null ∧ held' x = b } = used := by
  ext b
  rw [Set.mem_sdiff, h.mem_iff b]
  constructor
  · rintro ⟨hb | ⟨x, hx, heq, hne⟩, hout⟩
    · exact hb
    · by_cases hS : S x
      · exact absurd ⟨x, hS, heq ▸ hne, heq⟩ hout
      · rw [hframe x hS, hx] at heq
        exact absurd heq.symm hne
  · intro hb
    refine ⟨.inl hb, ?_⟩
    rintro ⟨x, hS, hne, heq⟩
    exact h.free x (hempty x hS) hne (heq ▸ hb)

end Gains
end Lib
