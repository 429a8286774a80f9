import Mathlib

/-!
# Xv6.Lib.Heap

Binary heaps in the indices `1 .. n` of an array, given as a function of the
index: rearrangements of the entries, sifting an entry down, and lifting a
hole to the root.

Sifting moves a hole.  With the sifted entry `x` written into the hole, each move
is a swap (`update_move`, `SiftReady.move`).
-/

namespace Lib

open Function

variable {α : Type}

/-! ## Rearrangements -/

/-- `q'` holds the entries of `q` in another order in the indices `1 .. n`,
and the same entries outside. -/
def Rearranged (n : ℕ) (q q' : ℕ → α) : Prop :=
  ∃ σ : Equiv.Perm ℕ, (∀ i, ¬ (1 ≤ i ∧ i ≤ n) → σ i = i) ∧ q' = q ∘ σ

theorem Rearranged.refl (n : ℕ) (q : ℕ → α) : Rearranged n q q :=
  ⟨1, fun _ _ => rfl, rfl⟩

theorem Rearranged.trans {n : ℕ} {q q' q'' : ℕ → α} (h : Rearranged n q q')
    (h' : Rearranged n q' q'') : Rearranged n q q'' := by
  obtain ⟨σ, hσ, rfl⟩ := h
  obtain ⟨τ, hτ, rfl⟩ := h'
  refine ⟨σ * τ, fun i hi => ?_, rfl⟩
  rw [Equiv.Perm.mul_apply, hτ i hi, hσ i hi]

theorem Rearranged.outside {n : ℕ} {q q' : ℕ → α} (h : Rearranged n q q') {i : ℕ}
    (hi : ¬ (1 ≤ i ∧ i ≤ n)) : q' i = q i := by
  obtain ⟨σ, hσ, rfl⟩ := h
  rw [Function.comp_apply, hσ i hi]

/-- A permutation that fixes what is outside maps the inside to itself. -/
private theorem inside_of_fixes {n : ℕ} {σ : Equiv.Perm ℕ} (hσ : ∀ i, ¬ (1 ≤ i ∧ i ≤ n) → σ i = i)
    {i : ℕ} (hi : 1 ≤ i ∧ i ≤ n) : 1 ≤ σ i ∧ σ i ≤ n := by
  by_contra hout
  have hfix : σ i = i := σ.injective (hσ _ hout)
  rw [hfix] at hout
  exact hout hi

theorem Rearranged.exists_of_new {n : ℕ} {q q' : ℕ → α} (h : Rearranged n q q') {i : ℕ}
    (hi : 1 ≤ i ∧ i ≤ n) : ∃ j, (1 ≤ j ∧ j ≤ n) ∧ q' i = q j := by
  obtain ⟨σ, hσ, rfl⟩ := h
  exact ⟨σ i, inside_of_fixes hσ hi, rfl⟩

theorem Rearranged.symm {n : ℕ} {q q' : ℕ → α} (h : Rearranged n q q') : Rearranged n q' q := by
  obtain ⟨σ, hσ, rfl⟩ := h
  refine ⟨σ⁻¹, fun i hi => ?_, ?_⟩
  · rw [Equiv.Perm.inv_eq_iff_eq, hσ i hi]
  · funext i
    simp

theorem Rearranged.exists_of_old {n : ℕ} {q q' : ℕ → α} (h : Rearranged n q q') {i : ℕ}
    (hi : 1 ≤ i ∧ i ≤ n) : ∃ j, (1 ≤ j ∧ j ≤ n) ∧ q' j = q i := by
  obtain ⟨j, hj, heq⟩ := h.symm.exists_of_new hi
  exact ⟨j, hj, heq.symm⟩

theorem Rearranged.injOn {n : ℕ} {q q' : ℕ → α} (h : Rearranged n q q')
    (hinj : Set.InjOn q (Set.Icc 1 n)) : Set.InjOn q' (Set.Icc 1 n) := by
  obtain ⟨σ, hσ, rfl⟩ := h
  intro i hi j hj heq
  exact σ.injective (hinj (inside_of_fixes hσ hi) (inside_of_fixes hσ hj) heq)

/-- An entry that the array holds once is held once. -/
theorem Rearranged.existsUnique {n : ℕ} {q q' : ℕ → α} (h : Rearranged n q q') {x : α}
    (hx : ∃! i, (1 ≤ i ∧ i ≤ n) ∧ q' i = x) : ∃! i, (1 ≤ i ∧ i ≤ n) ∧ q i = x := by
  obtain ⟨σ, hσ, rfl⟩ := h
  obtain ⟨i, ⟨hi, hix⟩, hunique⟩ := hx
  refine ⟨σ i, ⟨inside_of_fixes hσ hi, hix⟩, fun j hj => ?_⟩
  have hback : ∀ k, ¬ (1 ≤ k ∧ k ≤ n) → σ⁻¹ k = k := fun k hk => by
    rw [Equiv.Perm.inv_eq_iff_eq, hσ k hk]
  have hsame := hunique (σ⁻¹ j) ⟨inside_of_fixes hback hj.1, by simpa using hj.2⟩
  rw [← hsame]
  simp

/-! ## Moving a hole -/

/-- Moving the entry of `j` into the hole `i` is a swap of the array with `x`
in the hole. -/
theorem update_move (q : ℕ → α) (x : α) {i j : ℕ} (hij : i ≠ j) :
    update (update q i (q j)) j x = update q i x ∘ Equiv.swap i j := by
  funext k
  by_cases hj : k = j
  · subst hj; simp
  by_cases hi : k = i
  · subst hi
    simp [hij, hij.symm]
  · simp [hj, hi, Equiv.swap_apply_of_ne_of_ne hi hj]

theorem rearranged_swap {n : ℕ} (q : ℕ → α) {i j : ℕ} (hi : 1 ≤ i ∧ i ≤ n) (hj : 1 ≤ j ∧ j ≤ n) :
    Rearranged n q (q ∘ Equiv.swap i j) := by
  refine ⟨Equiv.swap i j, fun k hk => ?_, rfl⟩
  apply Equiv.swap_apply_of_ne_of_ne
  · rintro rfl; exact hk hi
  · rintro rfl; exact hk hj

theorem rearranged_move {n : ℕ} (q : ℕ → α) (x : α) {i j : ℕ} (hi : 1 ≤ i ∧ i ≤ n)
    (hj : 1 ≤ j ∧ j ≤ n) (hij : i ≠ j) :
    Rearranged n (update q i x) (update (update q i (q j)) j x) := by
  rw [update_move q x hij]
  exact rearranged_swap _ hi hj

/-! ## Heap order -/

section Order

variable {K : Type} [LinearOrder K] {n : ℕ} {f : ℕ → K} {i : ℕ}

/-- No entry is below its parent. -/
def HeapOrdered (n : ℕ) (f : ℕ → K) : Prop :=
  ∀ j, 2 ≤ j → j ≤ n → f (j / 2) ≤ f j

theorem HeapOrdered.root_le (h : HeapOrdered n f) {j : ℕ} (h1 : 1 ≤ j) (hn : j ≤ n) :
    f 1 ≤ f j := by
  induction j using Nat.strong_induction_on with
  | _ j ih =>
    by_cases hj : j = 1
    · rw [hj]
    · have hhalf : f 1 ≤ f (j / 2) := ih (j / 2) (by omega) (by omega) (by omega)
      exact hhalf.trans (h j (by omega) hn)

/-- A heap except that the entry of index `i` may be above its children; those
are not below the parent of `i`. -/
structure SiftReady (n : ℕ) (f : ℕ → K) (i : ℕ) : Prop where
  ordered : ∀ j, 2 ≤ j → j ≤ n → j / 2 ≠ i → f (j / 2) ≤ f j
  grand : 2 ≤ i → ∀ j, j ≤ n → j / 2 = i → f (i / 2) ≤ f j

/-- Raising an entry of a heap leaves it to be sifted; the root may change in
any way. -/
theorem HeapOrdered.siftReady {g : ℕ → K} (h : HeapOrdered n f) (hi : 1 ≤ i)
    (hfg : ∀ j, 1 ≤ j → j ≤ n → j ≠ i → g j = f j) (hup : 2 ≤ i → f i ≤ g i) : SiftReady n g i := by
  constructor
  · intro j h2 hn hj
    rw [hfg (j / 2) (by omega) (by omega) hj]
    by_cases hji : j = i
    · subst hji
      exact (h j h2 hn).trans (hup h2)
    · rw [hfg j (by omega) hn hji]
      exact h j h2 hn
  · intro h2 j hn hj
    rw [hfg (i / 2) (by omega) (by omega) (by omega), hfg j (by omega) hn (by omega)]
    have hparent : f (i / 2) ≤ f i := h i h2 (by omega)
    have hchild : f (j / 2) ≤ f j := h j (by omega) hn
    rw [hj] at hchild
    exact hparent.trans hchild

/-- Below the hole the entries grow along every path to the left. -/
theorem SiftReady.le_left (h : SiftReady n f i) {c : ℕ} (hc : i < c) (e : ℕ) (hn : c * 2 ^ e ≤ n) :
    f c ≤ f (c * 2 ^ e) := by
  induction e with
  | zero => simp
  | succ e ih =>
    have hdouble : c * 2 ^ (e + 1) = c * 2 ^ e * 2 := by rw [pow_succ, mul_assoc]
    have hge : c ≤ c * 2 ^ e := Nat.le_mul_of_pos_right c (by positivity)
    have hstep := h.ordered (c * 2 ^ (e + 1)) (by omega) hn (by omega)
    have hhalf : c * 2 ^ (e + 1) / 2 = c * 2 ^ e := by omega
    rw [hhalf] at hstep
    exact (ih (by omega)).trans hstep

/-- The sift ends where no child is below the entry. -/
theorem SiftReady.heapOrdered (h : SiftReady n f i)
    (hstop : ∀ j, 2 ≤ j → j ≤ n → j / 2 = i → f i ≤ f j) : HeapOrdered n f := by
  intro j h2 hn
  by_cases hj : j / 2 = i
  · rw [hj]
    exact hstop j h2 hn hj
  · exact h.ordered j h2 hn hj

/-- One move of the sift: the smallest child `c` of `i` goes up. -/
theorem SiftReady.move {c : ℕ} (h : SiftReady n f i) (hi : 1 ≤ i) (hc : c / 2 = i) (hcn : c ≤ n)
    (hlt : f c ≤ f i) (hmin : ∀ j, 2 ≤ j → j ≤ n → j / 2 = i → f c ≤ f j) :
    SiftReady n (f ∘ Equiv.swap i c) c := by
  have hic : i ≠ c := by omega
  have hci : (f ∘ Equiv.swap i c) i = f c := by simp
  have hcc : (f ∘ Equiv.swap i c) c = f i := by simp
  have hother : ∀ k, k ≠ i → k ≠ c → (f ∘ Equiv.swap i c) k = f k := fun k h1 h2 => by
    rw [Function.comp_apply, Equiv.swap_apply_of_ne_of_ne h1 h2]
  constructor
  · intro j h2 hn hjc
    by_cases hji : j = i
    · -- the parent of the hole: `c` was a grandchild
      subst hji
      rw [hci, hother (j / 2) (by omega) (by omega)]
      exact h.grand h2 c hcn hc
    · by_cases hpi : j / 2 = i
      · rw [hpi, hci]
        by_cases hj : j = c
        · rw [hj, hcc]
          exact hlt
        · rw [hother j hji hj]
          exact hmin j h2 hn hpi
      · have hj : j ≠ c := fun hj => hpi (hj ▸ hc)
        rw [hother _ hpi hjc, hother j hji hj]
        exact h.ordered j h2 hn hpi
  · intro h2 j hn hj
    rw [hc, hci, hother j (by omega) (by omega), ← hj]
    exact h.ordered j (by omega) hn (by omega)

/-! ## Lifting a hole -/

/-- A heap with a hole at `i`: the entry there does not count, and the children
of `i` are not below the parent of `i`. -/
structure HoleReady (n : ℕ) (f : ℕ → K) (i : ℕ) : Prop where
  ordered : ∀ j, 2 ≤ j → j ≤ n → j ≠ i → j / 2 ≠ i → f (j / 2) ≤ f j
  grand : 2 ≤ i → ∀ j, j ≤ n → j / 2 = i → f (i / 2) ≤ f j

/-- A heap has room for a hole behind its last entry. -/
theorem HeapOrdered.holeReady (h : HeapOrdered n f) : HoleReady (n + 1) f (n + 1) := by
  refine ⟨fun j h2 hn hj _ => h j h2 (by omega), fun h2 j hn hj => ?_⟩
  omega

theorem HoleReady.lift (h : HoleReady n f i) (h2 : 2 ≤ i) :
    HoleReady n (update f i (f (i / 2))) (i / 2) := by
  have hother : ∀ k, k ≠ i → update f i (f (i / 2)) k = f k := fun k hk =>
    update_of_ne hk _ _
  constructor
  · intro j hj2 hn hj hpar
    by_cases hji : j = i
    · exact absurd (by rw [hji]) hpar
    rw [hother j hji]
    by_cases hpi : j / 2 = i
    · rw [hpi, update_self]
      exact h.grand h2 j hn hpi
    · rw [hother _ hpi]
      exact h.ordered j hj2 hn hji hpi
  · intro hhalf j hn hj
    rw [hother _ (by omega)]
    -- the entry that left the new hole is not below its parent
    have hup : f (i / 2 / 2) ≤ f (i / 2) :=
      h.ordered (i / 2) hhalf (by omega) (by omega) (by omega)
    by_cases hji : j = i
    · rw [hji, update_self]
      exact hup
    rw [hother j hji]
    have hstep : f (j / 2) ≤ f j := h.ordered j (by omega) hn hji (by omega)
    rw [hj] at hstep
    exact hup.trans hstep

/-- The hole at the root is filled with a minimum. -/
theorem HoleReady.heapOrdered {x : K} (h : HoleReady n f 1)
    (hx : ∀ j, 2 ≤ j → j ≤ n → x ≤ f j) : HeapOrdered n (update f 1 x) := by
  intro j h2 hn
  have hbelow : update f 1 x j = f j := update_of_ne (by omega) _ _
  rw [hbelow]
  by_cases hj : j / 2 = 1
  · rw [hj, update_self]
    exact hx j h2 hn
  · rw [update_of_ne hj]
    exact h.ordered j h2 hn (by omega) hj

end Order

end Lib
