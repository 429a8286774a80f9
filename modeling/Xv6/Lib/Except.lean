import Mathlib

/-!
# Xv6.Lib.Except

Computations that may fail, as `Except ε`: how a successful sequence
decomposes, and the invariant rule for a loop over a list.
-/

namespace Lib

variable {ε α β σ : Type}

/-! ## Sequencing -/

@[simp] theorem ok_bind (a : α) (f : α → Except ε β) : (Except.ok a >>= f) = f a := rfl

@[simp] theorem error_bind (e : ε) (f : α → Except ε β) :
    ((Except.error e : Except ε α) >>= f) = .error e := rfl

@[simp] theorem pure_eq_ok (a : α) : (pure a : Except ε α) = .ok a := rfl

variable {f : α → Except ε β} {b : β}

theorem bind_eq_ok {x : Except ε α} : (x >>= f) = .ok b ↔ ∃ a, x = .ok a ∧ f a = .ok b := by
  cases x with
  | error e => simp
  | ok a => simp

/-- A sequence fails with its first part or with its second. -/
theorem map_eq_ok {x : Except ε α} {f : α → β} : x.map f = .ok b ↔ ∃ a, x = .ok a ∧ f a = b := by
  cases x <;> simp [Except.map]

variable {e : ε}

theorem bind_eq_error {x : Except ε α} :
    (x >>= f) = .error e ↔ x = .error e ∨ ∃ a, x = .ok a ∧ f a = .error e := by
  cases x with
  | error e' => simp
  | ok a => simp

/-! ## Failures that cannot occur -/

/-- The computation does not fail with `e`. -/
structure Avoids (e : ε) (x : Except ε α) : Prop where
  ne_error : x ≠ .error e

theorem avoids_ok {a : α} : Avoids e (.ok a) := ⟨by simp⟩

theorem avoids_error {e' : ε} (h : e' ≠ e) : Avoids e (.error e' : Except ε α) :=
  ⟨by simpa using h⟩

theorem Avoids.bind {x : Except ε α} (hx : Avoids e x)
    (hf : ∀ a, Avoids e (f a)) : Avoids e (x >>= f) := by
  cases x with
  | error e' => exact avoids_error fun h => hx.ne_error (congrArg Except.error h)
  | ok a => exact hf a

theorem Avoids.returns {x : Except ε α} {f : α → β} (hx : Avoids e x) :
    Avoids e (x >>= fun a => .ok (f a)) :=
  hx.bind fun _ => avoids_ok

/-- A failure that the first part avoids comes from the second. -/
theorem Avoids.bind_eq_error {x : Except ε α} (hx : Avoids e x)
    (h : x >>= f = .error e) : ∃ a, x = .ok a ∧ f a = .error e := by
  cases x with
  | error e' =>
    cases h
    exact absurd rfl hx.ne_error
  | ok a => exact ⟨a, rfl, h⟩

/-! ## Loops -/

/-- Run `body` for each element of a list in turn, stopping at a failure. -/
def forEach (body : σ → α → Except ε σ) : List α → σ → Except ε σ
  | [], s => .ok s
  | x :: xs, s => do
    let s' ← body s x
    forEach body xs s'

@[simp] theorem forEach_nil (body : σ → α → Except ε σ) (s : σ) : forEach body [] s = .ok s := rfl

@[simp] theorem forEach_cons (body : σ → α → Except ε σ) (x : α) (xs : List α) (s : σ) :
    forEach body (x :: xs) s = (body s x >>= fun s' => forEach body xs s') := rfl

theorem forEach_append (body : σ → α → Except ε σ) (xs ys : List α) (s : σ) :
    forEach body (xs ++ ys) s = (forEach body xs s >>= fun s' => forEach body ys s') := by
  induction xs generalizing s with
  | nil => rfl
  | cons x xs ih =>
    rw [List.cons_append, forEach_cons, forEach_cons]
    cases body s x with
    | error e => rfl
    | ok s' => exact ih s'

variable {body : σ → α → Except ε σ} {s : σ} {xs : List α}

theorem forEach_of_idle (h : ∀ x ∈ xs, body s x = .ok s) : forEach body xs s = .ok s := by
  induction xs with
  | nil => rfl
  | cons x xs ih =>
    rw [forEach_cons, h x List.mem_cons_self, ok_bind]
    exact ih fun y hy => h y (List.mem_cons_of_mem x hy)

theorem avoids_forEach (hbody : ∀ s x, Avoids e (body s x))
    (xs : List α) (s : σ) : Avoids e (forEach body xs s) := by
  induction xs generalizing s with
  | nil => exact avoids_ok
  | cons x xs ih => exact (hbody s x).bind fun s' => ih s'

/-- **Loop rule**: what every turn preserves, the loop preserves. -/
theorem forEach_inv {s' : σ} (inv : σ → Prop)
    (hstep : ∀ x ∈ xs, ∀ a b, inv a → body a x = .ok b → inv b)
    (h : forEach body xs s = .ok s') (h0 : inv s) : inv s' := by
  induction xs generalizing s with
  | nil =>
    simp only [forEach_nil, Except.ok.injEq] at h
    exact h ▸ h0
  | cons x xs ih =>
    obtain ⟨s1, h1, h2⟩ := bind_eq_ok.mp h
    exact ih (fun y hy => hstep y (List.mem_cons_of_mem x hy)) h2
      (hstep x List.mem_cons_self s s1 h0 h1)

/-- **Loop rule with progress**: besides the invariant, every turn settles its
own element and leaves the others settled. -/
theorem forEach_inv_all {s' : σ} (inv : σ → Prop)
    (settled : σ → α → Prop)
    (hstep : ∀ x a b, inv a → body a x = .ok b →
      inv b ∧ settled b x ∧ ∀ y, settled a y → settled b y)
    (h : forEach body xs s = .ok s') (h0 : inv s) : inv s' ∧ ∀ x ∈ xs, settled s' x := by
  -- whatever is settled before the loop is still settled after it
  have hloop : inv s' ∧ (∀ x ∈ xs, settled s' x) ∧ ∀ y, settled s y → settled s' y := by
    induction xs generalizing s with
    | nil =>
      simp only [forEach_nil, Except.ok.injEq] at h
      subst h
      exact ⟨h0, by simp, fun _ hy => hy⟩
    | cons x xs ih =>
      obtain ⟨s1, h1, h2⟩ := bind_eq_ok.mp h
      obtain ⟨hinv, hx, hkeep⟩ := hstep x s s1 h0 h1
      obtain ⟨hinv', hxs, hkeep'⟩ := ih h2 hinv
      refine ⟨hinv', ?_, fun y hy => hkeep' y (hkeep y hy)⟩
      simp only [List.mem_cons, forall_eq_or_imp]
      exact ⟨hkeep' x hx, hxs⟩
  exact ⟨hloop.1, hloop.2.1⟩

/-- **Loop rule for disjoint parts**: if every turn succeeds and does its own part of
the work, the loop succeeds and does all of them. -/
theorem forEach_parts {γ : Type} {done : Set γ}
    (inv : Set γ → σ → Prop) (part : α → Set γ)
    (hstep : ∀ x ∈ xs, ∀ done s, inv done s → Disjoint done (part x) →
      ∃ s', body s x = .ok s' ∧ inv (done ∪ part x) s')
    (hxs : xs.Pairwise fun x y => Disjoint (part x) (part y))
    (hdone : ∀ x ∈ xs, Disjoint done (part x)) (h0 : inv done s) :
    ∃ s', forEach body xs s = .ok s' ∧ inv (done ∪ ⋃ x ∈ xs, part x) s' := by
  induction xs generalizing s done with
  | nil => exact ⟨s, rfl, by simpa using h0⟩
  | cons x xs ih =>
    obtain ⟨hx, hxs⟩ := List.pairwise_cons.mp hxs
    obtain ⟨s1, h1, hinv1⟩ := hstep x List.mem_cons_self done s h0 (hdone x List.mem_cons_self)
    have hdone1 : ∀ y ∈ xs, Disjoint (done ∪ part x) (part y) := fun y hy =>
      (hdone y (List.mem_cons_of_mem x hy)).union_left (hx y hy)
    obtain ⟨s', h', hinv'⟩ :=
      ih (fun y hy => hstep y (List.mem_cons_of_mem x hy)) hxs hdone1 hinv1
    refine ⟨s', by rw [forEach_cons, h1, ok_bind, h'], ?_⟩
    have hall : done ∪ ⋃ y ∈ x :: xs, part y = done ∪ part x ∪ ⋃ y ∈ xs, part y := by
      simp [Set.union_assoc]
    rwa [hall]

/-! ## Results and failures at once -/

/-- The computation fails with none of the errors in `bad`, and what it
returns meets `post`. -/
def Ensures (bad : ε → Prop) (x : Except ε α) (post : α → Prop) : Prop :=
  match x with
  | .ok a => post a
  | .error e => ¬ bad e

section

variable {bad : ε → Prop} {x : Except ε α} {post post' : α → Prop}

theorem Ensures.ne_error (h : Ensures bad x post) (he : bad e) : x ≠ .error e := by
  rintro rfl
  exact h he

section

variable (h : Ensures bad x post)
include h

theorem Ensures.mono (hpost : ∀ a, post a → post' a) : Ensures bad x post' := by
  cases x with
  | error e => exact h
  | ok a => exact hpost a h

theorem Ensures.bind {post2 : β → Prop}
    (hf : ∀ a, post a → Ensures bad (f a) post2) : Ensures bad (x >>= f) post2 := by
  cases x with
  | error e => exact h
  | ok a => exact hf a h

theorem Ensures.map {f : α → β} {post2 : β → Prop}
    (hf : ∀ a, post a → post2 (f a)) : Ensures bad (f <$> x) post2 := by
  cases x with
  | error e => exact h
  | ok a => exact hf a h

end

end

end Lib
