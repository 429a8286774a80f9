import Xv6.Book.Tree

/-!
# Xv6.PgdirRef

The page directory reference counters `pgdir_ref`.

Processes in use that share a page directory share a counter, and a counter
is the number of its users plus what has leaked: references of users that left
without counting down.  Every helper keeps this, and says what it leaks.
-/

namespace Xv6

open Lib Function Finset

variable {i : Fin NPROC} {old : Option PgdirId} {c np p : Slot}

/-! ## Signed bytes -/

theorem Int8.toInt_add_one {a : Int8} (h : a.toInt < 127) : (a + 1).toInt = a.toInt + 1 := by
  have hlow := Int8.le_toInt a
  rw [Int8.toInt_add]
  exact Int.bmod_eq_of_le (by simp at *; omega) (by simp at *; omega)

theorem Int8.toInt_sub_one {a : Int8} (h : 1 < a.toInt) : (a - 1).toInt = a.toInt - 1 := by
  have hhigh := Int8.toInt_lt a
  rw [Int8.toInt_sub]
  exact Int.bmod_eq_of_le (by simp at *; omega) (by simp at *; omega)

namespace Book

/-! ## Users -/

/-- The entries in use with counter `i`. -/
def users (b : Book) (i : Fin NPROC) : Finset Slot :=
  univ.filter fun p => b.Live p ∧ (b.entry p).idx = some i

theorem mem_users {b : Book} : p ∈ b.users i ↔ b.Live p ∧ (b.entry p).idx = some i := by
  simp [users]

/-- Every user of a counter after one entry has been replaced. -/
theorem users_set (b : Book) (p : Slot) (e : Entry) (i : Fin NPROC) :
    (b.set p e).users i =
      if e.state ≠ .unused ∧ e.idx = some i then insert p (b.users i) else (b.users i).erase p := by
  ext q
  by_cases hq : q = p
  · subst hq
    split
    · next h => simp [mem_users, Live, h]
    · next h => simpa [mem_users, Live] using h
  · split <;> simp [mem_users, Live, hq, set_entry_of_ne]

theorem users_congr {b b' : Book} (h : b'.entry = b.entry) (i : Fin NPROC) :
    b'.users i = b.users i := by
  ext p
  simp [mem_users, Live, h]

theorem live_startBook (p : Slot) (i : Fin NPROC) (q : Slot) :
    (Kernel.startBook p i).Live q ↔ q = p := by
  by_cases hq : q = p
  · simp [Live, Kernel.startBook, hq]
  · simp [Live, Kernel.startBook, hq, Proc.zero, Proc.entry, ProcState.settled]

/-- Counters and users agree, up to what has leaked. -/
structure Counted (b : Book) (leak : Fin NPROC → Nat) : Prop where
  idx_some : ∀ p, b.Live p → ∃ i, (b.entry p).idx = some i
  pgdir_lt : ∀ p, b.Live p → ∃ g, (b.entry p).pgdir = some g ∧ g < b.nextPgdir
  same : ∀ p q, b.Live p → b.Live q →
    ((b.entry p).idx = (b.entry q).idx ↔ (b.entry p).pgdir = (b.entry q).pgdir)
  count : ∀ i, (b.pgdirRef i).toInt = (b.users i).card + leak i

namespace Counted

variable {b : Book} {leak : Fin NPROC → Nat}

theorem of_zero (h : Counted b leak) (hi : b.pgdirRef i = 0) : b.users i = ∅ ∧ leak i = 0 := by
  have hc := h.count i
  rw [hi] at hc
  simp only [Int8.toInt_zero] at hc
  refine ⟨card_eq_zero.mp ?_, ?_⟩ <;> omega

theorem eq_of_le_one (h : Counted b leak) (hi : b.pgdirRef i ≤ 1) {q : Slot}
    (hp : p ∈ b.users i) (hq : q ∈ b.users i) : q = p := by
  have hle : (b.users i).card ≤ 1 := by
    have hc := h.count i
    have h1 := Int8.le_iff_toInt_le.mp hi
    simp only [Int8.toInt_one] at h1
    omega
  exact card_le_one.mp hle q hq p hp

/-- The last user of a counter is the last user of its page directory. -/
theorem otherUsers_eq_nil (h : Counted b leak) {g : PgdirId}
    (hp : b.Live p) (hi : (b.entry p).idx = some i) (hle : b.pgdirRef i ≤ 1)
    (hg : (b.entry p).pgdir = some g) : b.otherUsers p g = [] := by
  simp only [otherUsers, List.filter_eq_nil_iff, decide_eq_true_eq]
  rintro q - ⟨hne, hlive, hq⟩
  have hidx : (b.entry q).idx = some i := by
    rw [← hi]
    exact (h.same q p hlive hp).mpr (hq.trans hg.symm)
  exact hne (h.eq_of_le_one hle (mem_users.mpr ⟨hp, hi⟩) (mem_users.mpr ⟨hlive, hidx⟩))

/-! ## Replacing an entry -/

variable {e : Entry} {leak' : Fin NPROC → Nat}

/-- Replacing one entry keeps the agreement, if the new entry shares its
counter with exactly those it shares its page directory with and the counters
are adjusted. -/
theorem set (h : Counted b leak) {b' : Book}
    (hentry : b'.entry = (b.set p e).entry) (hnext : b.nextPgdir ≤ b'.nextPgdir)
    (hlive : e.state ≠ .unused → ∃ i g, e.idx = some i ∧ e.pgdir = some g ∧ g < b'.nextPgdir ∧
      ∀ q, q ≠ p → b.Live q → ((b.entry q).idx = some i ↔ (b.entry q).pgdir = some g))
    (hcount : ∀ i, (b'.pgdirRef i).toInt = ((b.set p e).users i).card + leak' i) :
    Counted b' leak' := by
  have hnew : b'.entry p = e := by
    rw [hentry]
    exact set_entry_same b p e
  have hold : ∀ q, q ≠ p → b'.entry q = b.entry q := fun q hq => by
    rw [hentry]
    exact set_entry_of_ne b e hq
  have hliveOld : ∀ q, q ≠ p → b'.Live q → b.Live q := fun q hq hl => by
    simpa [Live, hold q hq] using hl
  have hliveNew : b'.Live p → e.state ≠ .unused := fun hl => by simpa [Live, hnew] using hl
  refine ⟨?_, ?_, ?_, ?_⟩
  · intro q hq
    by_cases hqp : q = p
    · subst hqp
      obtain ⟨i, g, hi, -⟩ := hlive (hliveNew hq)
      exact ⟨i, by rw [hnew, hi]⟩
    · rw [hold q hqp]
      exact h.idx_some q (hliveOld q hqp hq)
  · intro q hq
    by_cases hqp : q = p
    · subst hqp
      obtain ⟨i, g, -, hg, hlt, -⟩ := hlive (hliveNew hq)
      exact ⟨g, by rw [hnew, hg], hlt⟩
    · rw [hold q hqp]
      obtain ⟨g, hg, hlt⟩ := h.pgdir_lt q (hliveOld q hqp hq)
      exact ⟨g, hg, hlt.trans_le hnext⟩
  · intro q r hq hr
    by_cases hqp : q = p
    · subst hqp
      by_cases hrq : r = q
      · rw [hrq]
        simp
      · obtain ⟨i, g, hi, hg, -, hiff⟩ := hlive (hliveNew hq)
        rw [hnew, hold r hrq, hi, hg, eq_comm, hiff r hrq (hliveOld r hrq hr), eq_comm]
    · rw [hold q hqp]
      by_cases hrp : r = p
      · subst hrp
        obtain ⟨i, g, hi, hg, -, hiff⟩ := hlive (hliveNew hr)
        rw [hnew, hi, hg]
        exact hiff q hqp (hliveOld q hqp hq)
      · rw [hold r hrp]
        exact h.same q r (hliveOld q hqp hq) (hliveOld r hrp hr)
  · intro i
    rw [hcount i, users_congr hentry i]

/-! ## The helpers -/

section

variable (h : Counted b leak)
include h

/-- The end of a process changes neither users nor counters. -/
theorem die (hp : b.Live p) : Counted (b.die p) leak := by
  have hlive := live_die hp
  refine ⟨fun q hq => h.idx_some q ((hlive q).mp hq), fun q hq => h.pgdir_lt q ((hlive q).mp hq),
    fun q r hq hr => h.same q r ((hlive q).mp hq) ((hlive r).mp hr), fun i => ?_⟩
  have husers : (b.die p).users i = b.users i := by
    ext q
    rw [mem_users, mem_users, hlive]
    rfl
  rw [husers]
  exact h.count i

theorem erase_other {j : Fin NPROC} (hi : (b.entry p).idx = some i)
    (hj : j ≠ i) : (b.pgdirRef j).toInt = ((b.users j).erase p).card + leak j := by
  have hmem : p ∉ b.users j := by
    rw [mem_users, hi]
    simp [Ne.symm hj]
  rw [erase_eq_of_notMem hmem]
  exact h.count j

theorem erase_own (hp : b.Live p) (hi : (b.entry p).idx = some i) :
    (b.pgdirRef i).toInt = ((b.users i).erase p).card + 1 + leak i := by
  have hmem : p ∈ b.users i := mem_users.mpr ⟨hp, hi⟩
  have hcard := card_erase_add_one hmem
  have hc := h.count i
  omega

/-- A user leaves without counting down: its reference has leaked. -/
theorem release (hp : b.Live p) (hi : (b.entry p).idx = some i)
    (he : e.state = .unused) : Counted (b.set p e) (update leak i (leak i + 1)) := by
  refine h.set rfl le_rfl (fun hl => absurd he hl) fun j => ?_
  rw [users_set, if_neg (fun hl => hl.1 he)]
  by_cases hj : j = i
  · subst hj
    rw [update_self]
    have hc := h.erase_own hp hi
    simp only [Book.set]
    omega
  · rw [update_of_ne hj]
    exact h.erase_other hi hj

theorem dropRef_count (hp : b.Live p) (j : Fin NPROC) :
    ((b.dropRef p).pgdirRef j).toInt = ((b.users j).erase p).card + leak j := by
  obtain ⟨i, hi⟩ := h.idx_some p hp
  have hown := h.erase_own hp hi
  by_cases hle : b.pgdirRef i ≤ 1
  · -- the last user: the counter was one and becomes zero
    have h1 := Int8.le_iff_toInt_le.mp hle
    simp only [Int8.toInt_one] at h1
    obtain ⟨calls, hc⟩ :=
      freevm_eq { b with pgdirRef := update b.pgdirRef i 0 } p (b.entry p).pgdir
    rw [dropRef_last hi hle, hc]
    by_cases hj : j = i
    · subst hj
      simp only [update_self, Int8.toInt_zero]
      omega
    · simp only [update_of_ne hj]
      exact h.erase_other hi hj
  · have h1 : 1 < (b.pgdirRef i).toInt := by
      rw [Int8.le_iff_toInt_le, Int8.toInt_one] at hle
      omega
    rw [dropRef_shared hi hle]
    by_cases hj : j = i
    · subst hj
      simp only [update_self]
      rw [Int8.toInt_sub_one h1]
      omega
    · simp only [update_of_ne hj]
      exact h.erase_other hi hj

theorem collect (hp : b.Live p) : Counted ((b.dropRef p).clear p) leak := by
  have hcount := h.dropRef_count hp
  obtain ⟨ref, calls, hd⟩ := dropRef_eq b p
  rw [hd] at hcount ⊢
  refine h.set rfl le_rfl (fun hl => absurd rfl hl) fun j => ?_
  rw [users_set, if_neg (fun hl => hl.1 rfl)]
  exact hcount j

end

/-! ## The start and the system calls -/

theorem startBook (p : Slot) (i : Fin NPROC) : Counted (Kernel.startBook p i) fun _ => 0 := by
  have hlive := live_startBook p i
  refine ⟨?_, ?_, ?_, ?_⟩
  · intro q hq
    rw [hlive] at hq
    exact ⟨i, by simp [Kernel.startBook, hq]⟩
  · intro q hq
    rw [hlive] at hq
    exact ⟨1, by simp [Kernel.startBook, hq], Nat.one_lt_two⟩
  · intro q r hq hr
    rw [hlive] at hq hr
    simp [hq, hr]
  · intro j
    by_cases hj : j = i
    · have husers : (Kernel.startBook p i).users j = {p} := by
        ext q
        rw [mem_users, hlive, mem_singleton, and_iff_left_iff_imp]
        intro hq
        simp [Kernel.startBook, hq, hj]
      rw [husers]
      simp [Kernel.startBook, hj]
    · have husers : (Kernel.startBook p i).users j = ∅ := by
        rw [eq_empty_iff_forall_notMem]
        intro q hq
        rw [mem_users, hlive] at hq
        simp [Kernel.startBook, hq.1, Ne.symm hj] at hq
      rw [husers]
      simp [Kernel.startBook, hj]

section

variable (h : Counted b leak)
include h

theorem retract {g : Option PgdirId} (hnp : ¬ b.Live np) : Counted (b.retract np g) leak := by
  have hun : (b.entry np).state = .unused := not_not.mp hnp
  refine h.set rfl le_rfl (fun hl => absurd hun hl) fun j => ?_
  rw [users_set, if_neg (fun hl => hl.1 hun), erase_eq_of_notMem]
  · exact h.count j
  · rw [mem_users]
    exact fun hm => hnp hm.1

/-- A new process has a page directory and a counter of its own. -/
theorem spawn (hnp : ¬ b.Live np) (hi : b.pgdirRef i = 0) : Counted (b.spawn c np i) leak := by
  obtain ⟨hnone, hleak⟩ := h.of_zero hi
  refine h.set rfl (Nat.le_succ _) (fun _ => ⟨i, b.nextPgdir, rfl, rfl, Nat.lt_succ_self _, ?_⟩) ?_
  · intro q hq hlive
    constructor
    · intro hqi
      have hmem : q ∈ b.users i := mem_users.mpr ⟨hlive, hqi⟩
      simp [hnone] at hmem
    · intro hqg
      obtain ⟨g, hg, hlt⟩ := h.pgdir_lt q hlive
      rw [hg, Option.some.injEq] at hqg
      exact absurd hqg (Nat.ne_of_lt hlt)
  · intro j
    have hnmem : np ∉ b.users j := by
      rw [mem_users]
      exact fun hm => hnp hm.1
    by_cases hj : j = i
    · subst hj
      rw [users_set, if_pos ⟨by simp, rfl⟩, hnone]
      simp [Book.spawn, hleak]
    · rw [users_set, if_neg (fun hl => hj (Option.some.inj hl.2).symm),
        erase_eq_of_notMem hnmem]
      simp only [Book.spawn, update_of_ne hj]
      exact h.count j

/-- A new thread shares the page directory and the counter of its creator. -/
theorem share {st : ProcState} {tid : Int} (hc : b.Live c) (hnp : ¬ b.Live np)
    (hi : (b.entry c).idx = some i) (hst : st ≠ .unused) (hlt : (b.pgdirRef i).toInt < 127) :
    Counted (b.share c np i st tid) leak := by
  obtain ⟨g, hg, hgl⟩ := h.pgdir_lt c hc
  refine h.set rfl le_rfl (fun _ => ⟨i, g, rfl, hg, hgl, ?_⟩) ?_
  · intro q hq hlive
    rw [← hi, ← hg]
    exact h.same q c hlive hc
  · intro j
    have hnmem : np ∉ b.users j := by
      rw [mem_users]
      exact fun hm => hnp hm.1
    have hcj := h.count j
    by_cases hj : j = i
    · subst hj
      rw [users_set, if_pos ⟨hst, rfl⟩, card_insert_of_notMem hnmem]
      simp only [Book.share, update_self]
      rw [Int8.toInt_add_one hlt]
      omega
    · rw [users_set, if_neg (fun hl => hj (Option.some.inj hl.2).symm),
        erase_eq_of_notMem hnmem]
      simp only [Book.share, update_of_ne hj]
      exact hcj

/-- The counters when `exec` has dealt with the old page directory of `c`, the
last user of its counter. -/
theorem dropOld_count_last {k : Fin NPROC} (hc : b.Live c) (hk : (b.entry c).idx = some k)
    (hle : b.pgdirRef k ≤ 1) (j : Fin NPROC) :
    (((b.newImage c).dropOld c old).pgdirRef j).toInt = ((b.users j).erase c).card + leak j := by
  have hidx : ((b.newImage c).entry c).idx = some k := by simp [newImage, hk]
  have hown := h.erase_own hc hk
  have h1 := Int8.le_iff_toInt_le.mp hle
  simp only [Int8.toInt_one] at h1
  obtain ⟨calls, hcalls⟩ :=
    freevm_eq { b.newImage c with pgdirRef := update b.pgdirRef k 0 } c old
  rw [dropOld_last hidx hle]
  simp only [show (b.newImage c).pgdirRef = b.pgdirRef from rfl, hcalls]
  by_cases hj : j = k
  · subst hj
    simp only [update_self, Int8.toInt_zero]
    omega
  · simp only [update_of_ne hj]
    exact h.erase_other hk hj

/-- The counters when `c` shares its counter: they are left as they are, and
the reference of `c` has leaked. -/
theorem dropOld_count_shared {k : Fin NPROC} (hc : b.Live c)
    (hk : (b.entry c).idx = some k) (hgt : ¬ b.pgdirRef k ≤ 1) (j : Fin NPROC) :
    (((b.newImage c).dropOld c old).pgdirRef j).toInt =
      ((b.users j).erase c).card + update leak k (leak k + 1) j := by
  have hidx : ((b.newImage c).entry c).idx = some k := by simp [newImage, hk]
  rw [dropOld_shared hidx hgt]
  by_cases hj : j = k
  · subst hj
    have hown := h.erase_own hc hk
    rw [update_self]
    simp only [newImage, Book.set]
    omega
  · rw [update_of_ne hj]
    exact h.erase_other hk hj

/-- A new program has a page directory and a counter of its own. -/
theorem image (hc : b.Live c)
    (hcount : ∀ j, (((b.newImage c).dropOld c old).pgdirRef j).toInt =
      ((b.users j).erase c).card + leak' j)
    (hi : ((b.newImage c).dropOld c old).pgdirRef i = 0) :
    Counted (((b.newImage c).dropOld c old).giveIdx c i) leak' := by
  have hci := hcount i
  rw [hi, Int8.toInt_zero] at hci
  have hnone : (b.users i).erase c = ∅ := card_eq_zero.mp (by omega)
  have hleak : leak' i = 0 := by omega
  obtain ⟨ref, calls, hd⟩ := dropOld_eq (b.newImage c) c old
  rw [hd] at hcount ⊢
  have hentry : (giveIdx { b.newImage c with pgdirRef := ref, freevmCalls := calls } c i).entry =
      (b.set c { b.entry c with pgdir := some b.nextPgdir, idx := some i }).entry := by
    simp [giveIdx, newImage, Book.set]
  refine h.set hentry (Nat.le_succ _) (fun _ => ⟨i, b.nextPgdir, rfl, rfl, Nat.lt_succ_self _, ?_⟩) ?_
  · intro q hq hlive
    constructor
    · intro hqi
      have hmem : q ∈ (b.users i).erase c := mem_erase.mpr ⟨hq, mem_users.mpr ⟨hlive, hqi⟩⟩
      simp [hnone] at hmem
    · intro hqg
      obtain ⟨g, hg, hlt⟩ := h.pgdir_lt q hlive
      rw [hg, Option.some.injEq] at hqg
      exact absurd hqg (Nat.ne_of_lt hlt)
  · intro j
    by_cases hj : j = i
    · subst hj
      have hone : insert c (b.users j) = {c} := by
        have hsub := insert_subset_insert c
          (erase_eq_empty_iff (b.users j) c |>.mp hnone |>.elim
            (fun h => h.le.trans (empty_subset {c})) (fun h => h.le))
        rw [insert_eq_self.mpr (mem_singleton_self c)] at hsub
        exact Finset.Subset.antisymm hsub (by simp)
      rw [users_set, if_pos ⟨hc, rfl⟩, hone]
      simp [giveIdx, hleak]
    · rw [users_set, if_neg (fun hl => hj (Option.some.inj hl.2).symm)]
      simp only [giveIdx, update_of_ne hj]
      exact hcount j

end

end Counted
end Book
end Xv6
