import Xv6.Lib.Linked

/-!
# Xv6.Lib.DRing

Doubly linked rings with a fixed root: taking a node out and putting one in behind
the root, as assignments to `next` and `prev`.
-/

namespace Lib

open Function List

variable {α : Type} {next prev : α → α} {root b : α} {l : List α}

/-- A ring in which `prev` leads back where `next` leads on. -/
structure DRing (next prev : α → α) (root : α) (l : List α) : Prop where
  ring : Ring next root l
  back : ∀ a ∈ l, prev (next a) = a

theorem dRing_singleton (root : α) : DRing (fun _ => root) (fun _ => root) root [root] :=
  ⟨⟨rfl, rfl, trivial⟩, fun _ ha => (mem_singleton.mp ha).symm⟩

theorem DRing.next_inj (h : DRing next prev root l) {a c : α} (ha : a ∈ l) (hc : c ∈ l)
    (heq : next a = next c) : a = c := by
  rw [← h.back a ha, heq, h.back c hc]

theorem linked_reverse {a stop : α} (h : Linked next (a :: l) stop)
    (hback : ∀ c ∈ a :: l, prev (next c) = c) :
    Linked prev l.reverse a ∧ prev stop = first l.reverse a := by
  induction l generalizing a with
  | nil => exact ⟨trivial, by rw [← hback a mem_cons_self, h.1]; rfl⟩
  | cons c l ih =>
    have hc : prev c = a := by
      rw [← hback a mem_cons_self, h.1]
      rfl
    obtain ⟨hlinked, hstop⟩ := ih h.2 fun d hd => hback d (mem_cons_of_mem a hd)
    rw [reverse_cons, linked_concat, first_append, first_cons]
    exact ⟨⟨hlinked, hc⟩, hstop⟩

theorem DRing.reverse (h : DRing next prev root (root :: l)) :
    Ring prev root (root :: l.reverse) := by
  obtain ⟨hlinked, hroot⟩ := linked_reverse h.ring.linked h.back
  exact ⟨rfl, hroot, hlinked⟩

section
variable [DecidableEq α]

/-- `b->next->prev = b->prev; b->prev->next = b->next` -/
def unlink (next prev : α → α) (b : α) : (α → α) × (α → α) :=
  (update next (prev b) (next b), update prev (next b) (prev b))

/-- `b->next = root->next; b->prev = root; root->next->prev = b; root->next = b` -/
def pushFront (next prev : α → α) (root b : α) : (α → α) × (α → α) :=
  let next := update next b (next root)
  let prev := update prev b root
  (update next root b, update prev (next root) b)

theorem DRing.pushFront (h : DRing next prev root (root :: l)) (hnodup : (root :: l).Nodup)
    (hb : b ∉ root :: l) :
    DRing (pushFront next prev root b).1 (pushFront next prev root b).2 root (root :: b :: l) := by
  obtain ⟨hroot, _⟩ := nodup_cons.mp hnodup
  have hbroot : b ≠ root := fun heq => hb (heq ▸ mem_cons_self)
  have hnext : ∀ a ∈ root :: l, next a ≠ b := fun a ha heq => hb (heq ▸ h.ring.next_mem ha)
  have hother : ∀ a ∈ l, a ≠ root ∧ a ≠ b := fun a ha =>
    ⟨fun heq => hroot (heq ▸ ha), fun heq => hb (heq ▸ mem_cons_of_mem _ ha)⟩
  simp only [Lib.pushFront, update_of_ne hbroot.symm]
  refine ⟨⟨rfl, ?_, ?_, ?_⟩, ?_⟩
  · rw [update_self, first_cons]
  · rw [update_of_ne hbroot, update_self, h.ring.linked.1]
  · refine h.ring.linked.2.congr fun a ha => ?_
    rw [update_of_ne (hother a ha).1, update_of_ne (hother a ha).2]
  · simp only [forall_mem_cons]
    refine ⟨?_, ?_, fun a ha => ?_⟩
    · rw [update_self, update_of_ne (hnext root mem_cons_self).symm,
        update_self]
    · rw [update_of_ne hbroot, update_self, update_self]
    · have hal := mem_cons_of_mem root ha
      have hne : next a ≠ next root := fun heq =>
        (hother a ha).1 (h.next_inj hal mem_cons_self heq)
      rw [update_of_ne (hother a ha).1, update_of_ne (hother a ha).2,
        update_of_ne hne, update_of_ne (hnext a hal), h.back a hal]

theorem DRing.unlink {A B : List α} (h : DRing next prev root (A ++ b :: B))
    (hnodup : (A ++ b :: B).Nodup) (hb : b ≠ root) :
    DRing (unlink next prev b).1 (unlink next prev b).2 root (A ++ B) := by
  have hA : A ≠ [] := by
    rintro rfl
    exact hb (Option.some.inj h.ring.head)
  obtain ⟨A, p, rfl⟩ : ∃ A' p, A = A' ++ [p] :=
    ⟨A.dropLast, A.getLast hA, (dropLast_append_getLast hA).symm⟩
  obtain ⟨hAlinked, hbB⟩ := linked_append.mp h.ring.linked
  obtain ⟨hAp, hp⟩ := linked_concat.mp hAlinked
  rw [first_cons] at hp
  have hprev : prev b = p := by rw [← hp, h.back p (by simp)]
  have hmem : ∀ a ∈ A ++ [p] ++ B, a ∈ A ++ [p] ++ b :: B := by
    intro a ha
    simp only [mem_append, mem_cons] at ha ⊢
    tauto
  have hnotb : b ∉ A ++ [p] ++ B := by
    rw [nodup_middle] at hnodup
    exact (nodup_cons.mp hnodup).1
  have hnodup' : (A ++ p :: B).Nodup := by
    have hsub : (A ++ [p] ++ B).Sublist (A ++ [p] ++ b :: B) :=
      (sublist_cons_self b B).append_left _
    simpa using hnodup.sublist hsub
  have hother : ∀ a ∈ A ++ B, a ≠ p := by
    rw [nodup_middle] at hnodup'
    exact fun a ha heq => (nodup_cons.mp hnodup').1 (heq ▸ ha)
  simp only [Lib.unlink, hprev]
  refine ⟨⟨?_, linked_append.mpr ⟨linked_concat.mpr ⟨?_, ?_⟩, ?_⟩⟩, fun a ha => ?_⟩
  · rw [← h.ring.head]
    cases A <;> rfl
  · exact hAp.congr fun a ha => update_of_ne (hother a (mem_append_left _ ha)) ..
  · rw [update_self, hbB.1]
  · exact hbB.2.congr fun a ha => update_of_ne (hother a (mem_append_right _ ha)) ..
  · by_cases hap : a = p
    · rw [hap, update_self, update_self]
    · have hne : next a ≠ next b := fun heq =>
        hnotb (h.next_inj (hmem a ha) (by simp) heq ▸ ha)
      rw [update_of_ne hap, update_of_ne hne, h.back a (hmem a ha)]

end

end Lib
