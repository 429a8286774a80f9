import Mathlib

/-!
# Xv6.Lib.Run

Runs of a labelled transition system given by a function `next` that returns
the next state where a step is possible: the states reached by steps that all
meet a condition, the invariant rule for them, and runs along a given list of
labels.
-/

namespace Lib

variable {σ α : Type} {start : σ → Prop} {next : σ → α → Option σ} {guard : σ → α → Prop}

/-- The states reached from `start` by steps that all meet `guard`. -/
inductive Reach (start : σ → Prop) (next : σ → α → Option σ) (guard : σ → α → Prop) : σ → Prop where
  | start {s : σ} : start s → Reach start next guard s
  | step {s s' : σ} {a : α} :
      Reach start next guard s → guard s a → next s a = some s' → Reach start next guard s'

variable {s : σ}

/-- **Invariant rule**: what holds at the start and is preserved by every step
that meets the condition holds in every state reached. -/
theorem Reach.inv (inv : σ → Prop) (h0 : ∀ s, start s → inv s)
    (hstep : ∀ s a s', inv s → guard s a → next s a = some s' → inv s')
    (h : Reach start next guard s) : inv s := by
  induction h with
  | start hs => exact h0 _ hs
  | step _ hg hn ih => exact hstep _ _ _ ih hg hn

theorem Reach.mono {guard' : σ → α → Prop} (hg : ∀ s a, guard s a → guard' s a)
    (h : Reach start next guard s) : Reach start next guard' s := by
  induction h with
  | start hs => exact .start hs
  | step _ ha hn ih => exact .step ih (hg _ _ ha) hn

/-- The state after the steps `as`, if they are all possible. -/
def runFrom (next : σ → α → Option σ) : σ → List α → Option σ
  | s, [] => some s
  | s, a :: as => (next s a).bind fun s' => runFrom next s' as

/-- A run whose steps all meet the condition reaches its last state. -/
theorem Reach.runFrom {s' : σ} {as : List α} (h : Reach start next guard s)
    (hg : ∀ a ∈ as, ∀ s, guard s a) (hr : runFrom next s as = some s') :
    Reach start next guard s' := by
  induction as generalizing s with
  | nil =>
    rw [Lib.runFrom, Option.some.injEq] at hr
    exact hr ▸ h
  | cons a as ih =>
    obtain ⟨s1, h1, h2⟩ := Option.bind_eq_some_iff.mp hr
    exact ih (.step h (hg a List.mem_cons_self s) h1)
      (fun b hb => hg b (List.mem_cons_of_mem a hb)) h2

/-- The next state where the step meets the condition. -/
def guarded (next : σ → α → Option σ) (guard : σ → α → Prop) [∀ s a, Decidable (guard s a)]
    (s : σ) (a : α) : Option σ :=
  if guard s a then next s a else none

/-- A run in which every step is checked against the condition. -/
theorem Reach.runGuarded [∀ s a, Decidable (guard s a)] {s' : σ} {as : List α}
    (h : Reach start next guard s) (hr : Lib.runFrom (guarded next guard) s as = some s') :
    Reach start next guard s' := by
  induction as generalizing s with
  | nil =>
    rw [Lib.runFrom, Option.some.injEq] at hr
    exact hr ▸ h
  | cons a as ih =>
    obtain ⟨s1, h1, h2⟩ := Option.bind_eq_some_iff.mp hr
    unfold guarded at h1
    split at h1
    · next hg => exact ih (.step h hg h1) h2
    · contradiction

theorem Reach.exists_of_run [∀ s a, Decidable (guard s a)] {P : σ → Prop} [DecidablePred P]
    (h : Reach start next guard s) (as : List α)
    (hr : (Lib.runFrom (guarded next guard) s as).any (fun s => P s) = true) :
    ∃ s, Reach start next guard s ∧ P s := by
  obtain ⟨s', hs', hP⟩ := (Option.any_eq_true _ _).mp hr
  exact ⟨s', h.runGuarded hs', of_decide_eq_true hP⟩

theorem Reach.exists_of_boot {β : Type} [∀ s a, Decidable (guard s a)] {P : σ → Prop}
    [DecidablePred P] {x : Option β} {boot : β → σ} (hboot : ∀ b, x = some b → start (boot b))
    (as : List α)
    (hr : (x.bind fun b => Lib.runFrom (guarded next guard) (boot b) as).any (fun s => P s) = true) :
    ∃ s, Reach start next guard s ∧ P s := by
  obtain ⟨s, hs, hP⟩ := (Option.any_eq_true _ _).mp hr
  obtain ⟨b, hb, hrun⟩ := Option.bind_eq_some_iff.mp hs
  exact ⟨s, (Reach.start (hboot b hb)).runGuarded hrun, of_decide_eq_true hP⟩

end Lib
