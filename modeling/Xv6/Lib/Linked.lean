import Mathlib

/-!
# Xv6.Lib.Linked

Singly linked lists given by a function `next`, linear or closed to a ring, and
the walk along `next` to the first node that passes a test.
-/

namespace Lib

open List

variable {α : Type} {next next' : α → α}

/-- The first of the nodes, or where they end. -/
def first (l : List α) (stop : α) : α := l.headD stop

@[simp]
theorem first_nil (stop : α) : first [] stop = stop := rfl

@[simp]
theorem first_cons (a : α) (l : List α) (stop : α) : first (a :: l) stop = a := rfl

theorem first_append (l m : List α) (stop : α) : first (l ++ m) stop = first l (first m stop) := by
  cases l <;> rfl

/-- `next` leads through the nodes and then to `stop`. -/
def Linked (next : α → α) : List α → α → Prop
  | [], _ => True
  | a :: l, stop => next a = first l stop ∧ Linked next l stop

variable {l m : List α} {stop : α}

theorem linked_append :
    Linked next (l ++ m) stop ↔ Linked next l (first m stop) ∧ Linked next m stop := by
  induction l with
  | nil => simp [Linked]
  | cons a l ih => simp only [cons_append, Linked, ih, first_append, and_assoc]

theorem Linked.congr (h : Linked next l stop)
    (heq : ∀ a ∈ l, next' a = next a) : Linked next' l stop := by
  induction l with
  | nil => trivial
  | cons a l ih =>
    exact ⟨(heq a mem_cons_self).trans h.1,
      ih h.2 fun b hb => heq b (mem_cons_of_mem a hb)⟩

/-- Where the nodes lead to a new end, only the last of them changes. -/
theorem linked_concat {a : α} : Linked next (l ++ [a]) stop ↔ Linked next l a ∧ next a = stop := by
  simp [linked_append, Linked]

theorem Linked.next_eq {a : α} (h : Linked next (l ++ a :: m) stop) : next a = first m stop :=
  (linked_append.mp h).2.1

/-! ## Rings -/

/-- The nodes are linked, and the last leads back to the first. -/
structure Ring (next : α → α) (root : α) (l : List α) : Prop where
  head : l.head? = some root
  linked : Linked next l root

theorem Ring.eq_cons {root : α} (h : Ring next root l) : ∃ m, l = root :: m := by
  have hhead := h.head
  cases l with
  | nil => contradiction
  | cons a m => exact ⟨m, by rw [Option.some.inj hhead]⟩

theorem Ring.next_mem {root a : α} (h : Ring next root l) (ha : a ∈ l) : next a ∈ l := by
  obtain ⟨A, B, rfl⟩ := append_of_mem ha
  obtain ⟨m, hm⟩ := h.eq_cons
  rw [h.linked.next_eq]
  cases B with
  | nil => simp [hm]
  | cons c B => simp

/-- From a node of a ring the links lead through all others and back to it. -/
theorem Ring.tour {root f : α} {A B : List α} (h : Ring next root (A ++ f :: B)) :
    next f = first (B ++ A) f ∧ Linked next (B ++ A) f := by
  have hroot : root = first A f := by
    have hhead := h.head
    cases A with
    | nil => exact (Option.some.inj hhead).symm
    | cons a A => exact (Option.some.inj hhead).symm
  obtain ⟨hA, hf, hB⟩ := linked_append.mp h.linked
  rw [hroot] at hf hB
  rw [first_append, linked_append]
  exact ⟨hf, hB, hA⟩

/-- The last node of an increasing list below a given one that is not in the list. -/
theorem exists_last_lt {β : Type} [LinearOrder β] {l : List β} {root b : β}
    (h : (root :: l).Pairwise (· < ·)) (hroot : root < b) (hb : b ∉ l) :
    ∃ P p Q, root :: l = P ++ p :: Q ∧ p < b ∧ ∀ q ∈ Q, b < q := by
  induction l generalizing root with
  | nil => exact ⟨[], root, [], rfl, hroot, by simp⟩
  | cons a l ih =>
    obtain ⟨hne, hbl⟩ := by simpa using hb
    obtain ⟨_, hal⟩ := pairwise_cons.mp h
    rcases lt_or_gt_of_ne hne with hlt | hlt
    · refine ⟨[], root, a :: l, rfl, hroot, fun q hq => ?_⟩
      rcases mem_cons.mp hq with rfl | hq
      · exact hlt
      · exact hlt.trans (rel_of_pairwise_cons hal hq)
    · obtain ⟨P, p, Q, hl, hp, hQ⟩ := ih hal hlt hbl
      exact ⟨root :: P, p, Q, by rw [hl, cons_append], hp, hQ⟩

/-! ## Walks -/

section
variable (next : α → α) (test : α → Prop) [DecidablePred test]

/-- The first node from `a` on that passes the test, with the node before it, within `n`
steps; `prev` is the node before `a`. -/
def walk : ℕ → α → α → Option (α × α)
  | 0, _, _ => none
  | n + 1, prev, a => if test a then some (prev, a) else walk n a (next a)

end

section
variable {test : α → Prop} [DecidablePred test]

theorem walk_mono {n m : ℕ} {prev a : α} {r : α × α} (h : walk next test n prev a = some r)
    (hnm : n ≤ m) : walk next test m prev a = some r := by
  induction n generalizing m prev a with
  | zero => contradiction
  | succ n ih =>
    obtain ⟨m, rfl⟩ : ∃ k, m = k + 1 := ⟨m - 1, by omega⟩
    rw [walk] at h ⊢
    split at h
    · next ht => rwa [if_pos ht]
    · next ht =>
      rw [if_neg ht]
      exact ih h (by omega)

/-- Along linked nodes the walk ends at the first that passes. -/
theorem walk_linked (h : Linked next l stop) (ht : ∃ a ∈ l, test a) (prev : α) :
    ∃ l1 a l2, l = l1 ++ a :: l2 ∧ test a ∧ (∀ b ∈ l1, ¬ test b) ∧
      walk next test l.length prev (first l stop) = some (l1.getLastD prev, a) := by
  induction l generalizing prev with
  | nil => simp at ht
  | cons a l ih =>
    by_cases ha : test a
    · refine ⟨[], a, l, rfl, ha, by simp, ?_⟩
      rw [length_cons, first_cons, walk, if_pos ha, getLastD_nil]
    have hrest : ∃ b ∈ l, test b := by
      obtain ⟨b, hb, htb⟩ := ht
      rcases mem_cons.mp hb with rfl | hb
      · exact absurd htb ha
      · exact ⟨b, hb, htb⟩
    obtain ⟨l1, b, l2, hl, hb, hfail, hwalk⟩ := ih h.2 hrest a
    refine ⟨a :: l1, b, l2, by rw [hl, cons_append], hb, ?_, ?_⟩
    · simpa [ha] using hfail
    · rw [length_cons, first_cons, walk, if_neg ha, h.1, hwalk, getLastD_cons]

theorem getLastD_append (hm : m ≠ []) (a b : α) : (l ++ m).getLastD a = m.getLastD b := by
  obtain ⟨m, x, rfl⟩ : ∃ m' x, m = m' ++ [x] :=
    ⟨m.dropLast, m.getLast hm, (dropLast_append_getLast hm).symm⟩
  rw [← append_assoc, getLastD_concat, getLastD_concat]

/-- A node on the way around a ring from `f`, with the node before it. -/
theorem split_tour {l1 l2 A B : List α} {f x : α} (h : B ++ (A ++ [f]) = l1 ++ x :: l2) :
    ∃ P Q, A ++ f :: B = P ++ x :: Q ∧ (P ≠ [] → l1.getLastD f = P.getLastD x) := by
  have hcase : ∀ as, l1 = B ++ as → A ++ [f] = as ++ x :: l2 →
      ∃ P Q, A ++ f :: B = P ++ x :: Q ∧ (P ≠ [] → l1.getLastD f = P.getLastD x) := by
    intro as hl1 has
    refine ⟨as, l2 ++ B, ?_, fun hne => hl1 ▸ getLastD_append hne f x⟩
    have happ := congrArg (· ++ B) has
    simpa using happ
  rcases append_eq_append_iff.mp h with ⟨as, hl1, has⟩ | ⟨bs, hB, hbs⟩
  · exact hcase as hl1 has
  cases bs with
  | nil => exact hcase [] (by simpa using hB.symm) (by simpa using hbs.symm)
  | cons b bs =>
    obtain ⟨rfl, rfl⟩ := cons.inj hbs
    refine ⟨A ++ f :: l1, bs, by simp [hB], fun _ => ?_⟩
    rw [getLastD_append (cons_ne_nil f l1) x f, getLastD_cons]

/-- A walk from behind the node `f` of a ring, where `f` itself passes, ends at a node `x` that
passes, and has then the node before `x`.  It ends at `f` only if no other node
passes. -/
theorem Ring.walk_behind {root f : α} (h : Ring next root l) (hnodup : l.Nodup)
    (hf : f ∈ l) (htest : test f) :
    ∃ P x Q prev, l = P ++ x :: Q ∧ test x ∧ (P ≠ [] → prev = P.getLastD x) ∧
      (x = f → ∀ y ∈ l, test y → y = f) ∧
      walk next test l.length f (next f) = some (prev, x) := by
  obtain ⟨A, B, rfl⟩ := append_of_mem hf
  obtain ⟨hnext, hlinked⟩ := h.tour
  have hperm : (B ++ (A ++ [f])).Perm (A ++ f :: B) := by
    rw [← append_assoc]
    refine (perm_append_comm.append_right [f]).trans ?_
    rw [append_assoc]
    exact (perm_append_singleton f B).append_left A
  have htour : Linked next (B ++ (A ++ [f])) (next f) := by
    rw [← append_assoc, linked_concat]
    exact ⟨hlinked, rfl⟩
  have hstart : first (B ++ (A ++ [f])) (next f) = next f := by
    rw [hnext, ← append_assoc, first_append, first_cons]
  obtain ⟨l1, x, l2, hsplit, hx, hfail, hwalk⟩ := walk_linked htour ⟨f, by simp, htest⟩ f
  rw [hstart, hperm.length_eq] at hwalk
  obtain ⟨P, Q, hPQ, hprev⟩ := split_tour hsplit
  refine ⟨P, x, Q, _, hPQ, hx, hprev, fun hxf y hy hty => ?_, hwalk⟩
  -- `f` is the last node on the way, so the nodes before it are all the others
  subst hxf
  rw [← hperm.nodup_iff, hsplit] at hnodup
  have hend : l2 = [] := by
    by_contra hne
    have hlast := congrArg (getLastD · x) hsplit
    simp only [← append_assoc, getLastD_concat] at hlast
    rw [getLastD_append (cons_ne_nil x l2) x x, getLastD_cons,
      ← dropLast_append_getLast hne, getLastD_concat] at hlast
    have hx2 : x ∈ l2 := hlast ▸ getLast_mem hne
    exact (nodup_cons.mp (nodup_append.mp hnodup).2.1).1 hx2
  rw [← hperm.mem_iff, hsplit, hend] at hy
  rcases mem_append.mp hy with hy | hy
  · exact absurd hty (hfail y hy)
  · exact mem_singleton.mp hy

/-- A walk around a ring of which one node passes finds it, wherever it begins. -/
theorem Ring.walk_unique {root f p : α} (h : Ring next root l) (hf : f ∈ l)
    (hp : p ∈ l) (htest : ∀ a ∈ l, test a ↔ a = p) (prev : α) :
    ∃ before, walk next test l.length prev f = some (before, p) := by
  obtain ⟨A, B, rfl⟩ := append_of_mem hf
  obtain ⟨hnext, hlinked⟩ := h.tour
  have hlen : (A ++ f :: B).length = (B ++ A).length + 1 := by
    simp only [length_append, length_cons]
    omega
  rw [hlen, walk]
  by_cases hfp : f = p
  · rw [if_pos ((htest f hf).mpr hfp), hfp]
    exact ⟨prev, rfl⟩
  have hpass : ∃ a ∈ B ++ A, test a := by
    refine ⟨p, ?_, (htest p hp).mpr rfl⟩
    simp only [mem_append, mem_cons] at hp ⊢
    tauto
  obtain ⟨l1, x, l2, hsplit, hx, _, hwalk⟩ := walk_linked hlinked hpass f
  have hxl : x ∈ B ++ A := hsplit ▸ by simp
  have hxp : x = p := by
    refine (htest x ?_).mp hx
    simp only [mem_append, mem_cons] at hxl ⊢
    tauto
  rw [if_neg (mt (htest f hf).mp hfp), hnext, hwalk, hxp]
  exact ⟨_, rfl⟩

end

end Lib
