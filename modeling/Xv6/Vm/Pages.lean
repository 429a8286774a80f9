import Xv6.Vm.Spec

/-!
# Xv6.Vm.Pages

The pages that a directory holds.  Pages are neither made nor lost: what a directory
holds and what is on the free list make up the same pages before and after.
-/

namespace Xv6

open Lib Finset

variable {free free' : List Frame} {fuel k n newsz oldsz sz va : Nat} {d d' : PgDir} {tab : PgTab}
  {e : Pte}

/-! ## Unmapping -/

/-- The frames of the present pages of a list. -/
def PgDir.framesOf (d : PgDir) (l : List Nat) : List Frame :=
  l.filterMap fun n => (d.pte n).map Pte.frame

theorem forEach_deallocPage (free : List Frame) {l : List Nat} (hnodup : l.Nodup)
    (hl : ∀ n ∈ l, n < 2 ^ 19) (hframe : ∀ n ∈ l, ∀ e, d.pte n = some e → e.frame ≠ 0) :
    ∃ d', forEach deallocPage l (d, free) = .ok (d', (d.framesOf l).reverse ++ free) := by
  induction l generalizing d free with
  | nil => exact ⟨d, rfl⟩
  | cons k l ih =>
    simp only [List.nodup_cons, List.mem_cons, forall_eq_or_imp] at hnodup hl hframe
    rcases deallocPage_eq (d, free) k with ⟨hnone, hstep⟩ | ⟨e, tab, hsome, htab, hstep⟩
    · obtain ⟨d', hloop⟩ := ih free hnodup.2 hl.2 hframe.2
      have hskip : d.framesOf (k :: l) = d.framesOf l := by simp [PgDir.framesOf, hnone]
      exact ⟨d', by rw [forEach_cons, hstep, ok_bind, hloop, hskip]⟩
    · rw [if_neg (hframe.1 e hsome)] at hstep
      have hkeep : ∀ n ∈ l, (d.setEntry tab (k * PGSIZE) none).pte n = d.pte n := fun n hn => by
        have hlt := hl.2 n hn
        have hne : n ≠ k := fun h => hnodup.1 (h ▸ hn)
        rw [deallocPage_pte hl.1 hstep (by omega), if_neg hne]
      have hframes : (d.setEntry tab (k * PGSIZE) none).framesOf l = d.framesOf l :=
        List.filterMap_congr fun n hn => by rw [hkeep n hn]
      obtain ⟨d', hloop⟩ := ih (d := d.setEntry tab (k * PGSIZE) none) (e.frame :: free) hnodup.2
        hl.2 fun n hn e he => hframe.2 n hn e (hkeep n hn ▸ he)
      have hadd : d.framesOf (k :: l) = e.frame :: d.framesOf l := by simp [PgDir.framesOf, hsome]
      refine ⟨d', ?_⟩
      rw [forEach_cons, hstep, ok_bind, hloop, hframes, hadd]
      simp

/-- A visit that gets to its end has met no null page. -/
theorem frame_ne_zero_of_forEach {free : List Frame} {l : List Nat} {r : PgDir × List Frame}
    (hnodup : l.Nodup) (hl : ∀ n ∈ l, n < 2 ^ 19) (h : forEach deallocPage l (d, free) = .ok r) :
    ∀ n ∈ l, ∀ e, d.pte n = some e → e.frame ≠ 0 := by
  induction l generalizing d free with
  | nil => simp
  | cons k l ih =>
    simp only [List.nodup_cons, List.mem_cons, forall_eq_or_imp] at hnodup hl ⊢
    obtain ⟨⟨d1, free1⟩, hstep, hrest⟩ := bind_eq_ok.mp (forEach_cons .. ▸ h)
    have hkeep : ∀ n ∈ l, d1.pte n = d.pte n := fun n hn => by
      have hne : n ≠ k := fun heq => hnodup.1 (heq ▸ hn)
      have hlt := hl.2 n hn
      rw [deallocPage_pte hl.1 hstep (by omega), if_neg hne]
    refine ⟨fun e he hzero => ?_, fun n hn e he =>
      ih hnodup.2 hl.2 hrest n hn e ((hkeep n hn).trans he)⟩
    rcases deallocPage_eq (d, free) k with ⟨hnone, -⟩ | ⟨e', tab, hsome, -, hstep'⟩
    · rw [he] at hnone
      contradiction
    · rw [he] at hsome
      cases hsome
      rw [hstep', if_pos hzero] at hstep
      contradiction

/-- Without the null page among them, the pages of the range are unmapped and
their frames freed. -/
theorem deallocuvm_frames (hold : oldsz ≤ KERNBASE) (free : List Frame)
    (hframe : ∀ n, InRange ((newsz + 4095) / PGSIZE) oldsz n →
      ∀ e, d.pte n = some e → e.frame ≠ 0) :
    ∃ d', deallocuvm d free oldsz newsz = .ok (d',
        (d.framesOf (pagesFrom ((newsz + 4095) / PGSIZE) oldsz)).reverse ++ free,
        min oldsz newsz) ∧
      ∀ n < 2 ^ 20, d'.pte n =
        if InRange ((newsz + 4095) / PGSIZE) oldsz n then none else d.pte n := by
  obtain ⟨d', hloop⟩ := forEach_deallocPage free (nodup_pagesFrom _ _)
    (fun n => lt_of_mem_pagesFrom hold) fun n hn => hframe n (mem_pagesFrom.mp hn)
  have hres : deallocuvm d free oldsz newsz = .ok (d',
      (d.framesOf (pagesFrom ((newsz + 4095) / PGSIZE) oldsz)).reverse ++ free,
      min oldsz newsz) := by
    rw [deallocuvm_eq_byPage hold, deallocuvmByPage, hloop]
    rfl
  exact ⟨d', hres, (deallocuvm_pte hold hres).2⟩

/-- **The skipping of `deallocuvm` is exact**: it does what visiting each page
does, so the present pages of the range are unmapped, each frame is freed once,
and no other page is touched. -/
theorem deallocuvm_exact (hold : oldsz ≤ KERNBASE) (d : PgDir) (free : List Frame) (newsz : Nat) :
    deallocuvm d free oldsz newsz = deallocuvmByPage d free oldsz newsz ∧
    ((∀ n, InRange ((newsz + 4095) / PGSIZE) oldsz n → ∀ e, d.pte n = some e → e.frame ≠ 0) →
      ∃ d', deallocuvm d free oldsz newsz = .ok (d',
          (d.framesOf (pagesFrom ((newsz + 4095) / PGSIZE) oldsz)).reverse ++ free,
          min oldsz newsz) ∧
        ∀ n < 2 ^ 20, d'.pte n =
          if InRange ((newsz + 4095) / PGSIZE) oldsz n then none else d.pte n) :=
  ⟨deallocuvm_eq_byPage hold d free newsz, deallocuvm_frames hold free⟩

/-- One page, at address 0. -/
def firstPage : PgDir where
  frame := 1
  kern := []
  table i := if i = 0 then
    some { frame := 2, entry := fun j => if j = 0 then some ⟨3, true, true⟩ else none } else none

theorem firstPage_pte (hn : n < 2 ^ 20) :
    firstPage.pte n = if n = 0 then some ⟨3, true, true⟩ else none := by
  by_cases hzero : n = 0
  · subst hzero
    rfl
  rw [if_neg hzero, PgDir.pte, firstPage]
  by_cases htab : n / 1024 % 1024 = 0
  · have hent : n % 1024 ≠ 0 := by omega
    simp [htab, hent]
  · simp [htab]

theorem deallocuvm_exact_firstPage :
    (deallocuvm firstPage [] (3 * PGSIZE) 0).map (fun r => r.2) = .ok ([3], 0) := by
  rw [(deallocuvm_exact (by decide) firstPage [] 0).1]
  decide +kernel

/-! ## The pages of a directory -/

/-- The frame of an entry. -/
def held : Option Pte → Multiset Frame
  | none => 0
  | some e => {e.frame}

/-- The frame of a table. -/
def heldTable : Option PgTab → Multiset Frame
  | none => 0
  | some tab => {tab.frame}

theorem sum_exchange {M : Type} [AddCommMonoid M] {f g : Nat → M} {top : Nat} (hk : k < top)
    (h : ∀ n < top, n ≠ k → f n = g n) :
    ∑ n ∈ range top, f n + g k = ∑ n ∈ range top, g n + f k := by
  have hmem : k ∈ range top := mem_range.mpr hk
  have hrest : ∑ n ∈ (range top).erase k, f n = ∑ n ∈ (range top).erase k, g n :=
    sum_congr rfl fun n hn => by
      obtain ⟨hne, hn⟩ := mem_erase.mp hn
      exact h n (mem_range.mp hn) hne
  rw [← add_sum_erase _ f hmem, ← add_sum_erase _ g hmem, hrest]
  abel

/-- The user half has `KERNBASE / PGSIZE` pages. -/
@[irreducible] def userPages : Nat := 2 ^ 19

/-- The user half has 512 tables. -/
@[irreducible] def userTables : Nat := 512

theorem userPages_eq : userPages = 2 ^ 19 := by rw [userPages]

theorem userTables_eq : userTables = 512 := by rw [userTables]

namespace PgDir

/-- The frames of the user pages. -/
def users (d : PgDir) : Multiset Frame := ∑ n ∈ range userPages, held (d.pte n)

/-- The frames of the user half's tables. -/
def tabs (d : PgDir) : Multiset Frame := ∑ i ∈ range userTables, heldTable (d.table i)

theorem users_eq_zero (h : ∀ n < 2 ^ 19, d.pte n = none) : d.users = 0 :=
  sum_eq_zero fun n hn => by
    rw [mem_range, userPages_eq] at hn
    rw [h n hn, held]

theorem frame_mem_users (hn : n < 2 ^ 19) (h : d.pte n = some e) : e.frame ∈ d.users := by
  rw [users, Multiset.mem_sum]
  exact ⟨n, mem_range.mpr (userPages_eq ▸ hn), by simp [h, held]⟩

variable {o : Option Pte}

/-- Writing one entry exchanges its frame for the one before. -/
theorem users_setEntry
    (htab : ∀ m, m / 1024 % 1024 = pdx (k * PGSIZE) → tab.entry (m % 1024) = d.pte m)
    (hk : k < 2 ^ 19) :
    (d.setEntry tab (k * PGSIZE) o).users + held (d.pte k) = d.users + held o := by
  have hset : ∀ n < 2 ^ 19, (d.setEntry tab (k * PGSIZE) o).pte n =
      if n = k then o else d.pte n := fun n hn => by
    rw [pte_setEntry htab (by simp only [PGSIZE]; omega) (by omega),
      Nat.mul_div_cancel k (by decide)]
  have hsum := sum_exchange (f := fun n => held ((d.setEntry tab (k * PGSIZE) o).pte n))
    (g := fun n => held (d.pte n)) (userPages_eq ▸ hk) fun n hn hne => by
      rw [hset n (userPages_eq ▸ hn), if_neg hne]
  rwa [hset k hk, if_pos rfl] at hsum

theorem table_setEntry (d : PgDir) (tab : PgTab) (va : Nat) (o : Option Pte) (i : Nat) :
    heldTable ((d.setEntry tab va o).table i) =
      if i = pdx va then {tab.frame} else heldTable (d.table i) := by
  by_cases hi : i = pdx va
  · simp [setEntry, hi, heldTable]
  · simp [setEntry, hi]

theorem tabs_setEntry (h : d.table (pdx va) = some tab) : (d.setEntry tab va o).tabs = d.tabs := by
  refine sum_congr rfl fun i _ => ?_
  rw [table_setEntry]
  split
  · next hi => rw [hi, h, heldTable]
  · rfl

theorem tabs_setEntry_new (h : d.table (pdx va) = none) (hva : pdx va < 512) :
    (d.setEntry tab va o).tabs = d.tabs + {tab.frame} := by
  have hsum := sum_exchange (f := fun i => heldTable ((d.setEntry tab va o).table i))
    (g := fun i => heldTable (d.table i)) (userTables_eq ▸ hva) fun i _ hne => by
      rw [table_setEntry, if_neg hne]
  rwa [h, table_setEntry, if_pos rfl, heldTable, add_zero] at hsum

end PgDir

/-- A call has moved pages between a directory and the free list, except those
in `lost`. -/
structure Moves (d d' : PgDir) (free free' : List Frame) (lost : Multiset Frame) : Prop where
  pages : d'.users + d'.tabs + ↑free' + lost = d.users + d.tabs + ↑free
  tabs : ∃ t, d'.tabs = d.tabs + t
  frame : d'.frame = d.frame
  kern : d'.kern = d.kern

theorem Moves.refl (d : PgDir) (free : List Frame) : Moves d d free free 0 :=
  ⟨add_zero _, ⟨0, (add_zero _).symm⟩, rfl, rfl⟩

theorem Moves.trans {d1 : PgDir} {free1 : List Frame} {a b : Multiset Frame}
    (h : Moves d d1 free free1 a) (h' : Moves d1 d' free1 free' b) :
    Moves d d' free free' (b + a) := by
  obtain ⟨t, ht⟩ := h.tabs
  obtain ⟨t', ht'⟩ := h'.tabs
  refine ⟨?_, ⟨t + t', by rw [ht', ht, add_assoc]⟩, h'.frame.trans h.frame, h'.kern.trans h.kern⟩
  rw [← h.pages, ← h'.pages, add_assoc _ b a]

theorem Moves.cons {lost : Multiset Frame} (h : Moves d d' free free' lost) (f : Frame) :
    Moves d d' (f :: free) (f :: free') lost := by
  refine ⟨?_, h.tabs, h.frame, h.kern⟩
  rw [← Multiset.cons_coe, ← Multiset.cons_coe, Multiset.add_cons, Multiset.cons_add,
    Multiset.add_cons, h.pages]

/-- With the same pages mapped, only new tables are missing from the free list. -/
theorem Moves.free_eq (h : Moves d d' free free' 0) (hpte : ∀ n < 2 ^ 20, d'.pte n = d.pte n) :
    ∃ t, d'.tabs = d.tabs + t ∧ (free : Multiset Frame) = ↑free' + t := by
  have husers : d'.users = d.users := sum_congr rfl fun n hn => by
    rw [mem_range, userPages_eq] at hn
    rw [hpte n (by omega)]
  obtain ⟨t, ht⟩ := h.tabs
  have hpages := h.pages
  rw [add_zero, husers, ht, add_assoc, add_assoc, add_assoc] at hpages
  exact ⟨t, ht, by rw [← add_left_cancel (add_left_cancel hpages), add_comm]⟩

theorem deallocPage_moves (hn : n < 2 ^ 19) (h : deallocPage (d, free) n = .ok (d', free')) :
    Moves d d' free free' 0 := by
  rcases deallocPage_eq (d, free) n with ⟨-, hstep⟩ | ⟨e, tab, hsome, htab, hstep⟩
  · cases hstep.symm.trans h
    exact .refl d free
  rw [hstep] at h
  split at h
  · contradiction
  cases h
  have husers := d.users_setEntry (o := none) (PgDir.entry_eq_pte htab) hn
  refine ⟨?_, ⟨0, ?_⟩, rfl, rfl⟩
  · rw [PgDir.tabs_setEntry htab, ← Multiset.cons_coe, ← Multiset.singleton_add]
    simp only [hsome, held, add_zero] at husers
    rw [← husers]
    abel
  · rw [PgDir.tabs_setEntry htab, add_zero]

theorem deallocuvm_moves {r : Nat} (hold : oldsz ≤ KERNBASE)
    (h : deallocuvm d free oldsz newsz = .ok (d', free', r)) : Moves d d' free free' 0 := by
  rw [deallocuvm_eq_byPage hold] at h
  obtain ⟨⟨d1, free1⟩, hloop, h⟩ := bind_eq_ok.mp h
  cases h
  refine forEach_inv (fun s => Moves d s.1 free s.2 0) (fun n hn s s' hs hstep => ?_) hloop
    (.refl d free)
  simpa using hs.trans (deallocPage_moves (lt_of_mem_pagesFrom hold hn) hstep)

/-- Mapping a page uses its frame, and maybe one for the table. -/
theorem mappages_moves (hk : k < 2 ^ 19)
    (h : mappages d free (k * PGSIZE) e = .ok (some (d', free'))) :
    Moves d d' (e.frame :: free) free' 0 := by
  have hnone := (mappages_pte (by omega) h).1
  have hpdx : pdx (k * PGSIZE) < 512 := by
    rw [pdx_eq, Nat.mul_div_cancel k (by decide)]
    omega
  unfold mappages at h
  cases htab : d.table (pdx (k * PGSIZE)) with
  | some tab =>
    simp only [htab] at h
    split at h
    · contradiction
    cases h
    have husers := d.users_setEntry (o := some e) (PgDir.entry_eq_pte htab) hk
    refine ⟨?_, ⟨0, ?_⟩, rfl, rfl⟩
    · rw [PgDir.tabs_setEntry htab, ← Multiset.cons_coe, ← Multiset.singleton_add]
      simp only [hnone, held, add_zero] at husers
      rw [husers]
      abel
    · rw [PgDir.tabs_setEntry htab, add_zero]
  | none =>
    simp only [htab] at h
    split at h
    · cases h
    next f rest =>
    cases h
    have hnew : ∀ m, m / 1024 % 1024 = pdx (k * PGSIZE) →
        (⟨f, fun _ => none⟩ : PgTab).entry (m % 1024) = d.pte m := PgDir.none_eq_pte htab
    have husers := d.users_setEntry (o := some e) hnew hk
    refine ⟨?_, ⟨{f}, PgDir.tabs_setEntry_new htab hpdx⟩, rfl, rfl⟩
    rw [PgDir.tabs_setEntry_new htab hpdx, ← Multiset.cons_coe, ← Multiset.cons_coe,
      ← Multiset.singleton_add, ← Multiset.singleton_add]
    simp only [hnone, held, add_zero] at husers
    rw [husers]
    abel

theorem coe_tables (d : PgDir) (top : Nat) :
    (((List.range top).filterMap fun i => (d.table i).map PgTab.frame : List Frame) :
      Multiset Frame) = ∑ i ∈ range top, heldTable (d.table i) := by
  induction top with
  | zero => rfl
  | succ top ih =>
    rw [List.range_succ, List.filterMap_append, ← Multiset.coe_add, ih, sum_range_succ]
    cases htab : d.table top <;> simp [htab, heldTable]

/-- `freevm` gives everything back that the directory holds. -/
theorem freevm_frames (free : List Frame)
    (hframe : ∀ n < 2 ^ 19, ∀ e, d.pte n = some e → e.frame ≠ 0) :
    ∃ free', freevm d free = .ok free' ∧
      (free' : Multiset Frame) = d.users + d.tabs + ↑free + ↑d.kern + {d.frame} := by
  have hlow : ∀ n, InRange ((0 + 4095) / PGSIZE) KERNBASE n ↔ n < 2 ^ 19 := fun n => by
    simp only [InRange, KERNBASE, PGSIZE]
    omega
  obtain ⟨d', hres, hpte⟩ := deallocuvm_frames le_rfl free
    fun n hn => hframe n ((hlow n).mp hn)
  have hmoves := deallocuvm_moves le_rfl hres
  generalize (d.framesOf (pagesFrom ((0 + 4095) / PGSIZE) KERNBASE)).reverse ++ free = free1 at *
  have husers : d'.users = 0 := PgDir.users_eq_zero fun n hn => by
    rw [hpte n (by omega), if_pos ((hlow n).mpr hn)]
  have htabs := coe_tables d' userTables
  rw [userTables_eq] at htabs
  refine ⟨_, by rw [freevm, hres]; rfl, ?_⟩
  have hpages := hmoves.pages
  rw [husers, zero_add, add_zero] at hpages
  rw [← hpages, hmoves.frame, hmoves.kern, PgDir.tabs, userTables_eq, ← htabs]
  simp only [← Multiset.cons_coe, ← Multiset.coe_add, Multiset.coe_reverse,
    ← Multiset.singleton_add]
  abel

theorem freevm_ok_iff (d : PgDir) (free : List Frame) :
    (∃ free', freevm d free = .ok free') ↔ ∀ n < 2 ^ 19, ∀ e, d.pte n = some e → e.frame ≠ 0 := by
  constructor
  · rintro ⟨free', h⟩ n hn
    obtain ⟨⟨d', free1, r⟩, hdealloc, -⟩ := bind_eq_ok.mp h
    rw [deallocuvm_eq_byPage le_rfl] at hdealloc
    obtain ⟨r', hloop, -⟩ := bind_eq_ok.mp hdealloc
    refine frame_ne_zero_of_forEach (nodup_pagesFrom _ _)
      (fun n => lt_of_mem_pagesFrom le_rfl) hloop n
      (mem_pagesFrom.mpr ⟨Nat.zero_le _, ?_⟩)
    simp only [KERNBASE, PGSIZE]
    omega
  · intro h
    obtain ⟨free', hok, -⟩ := freevm_frames free h
    exact ⟨free', hok⟩

end Xv6
