import Xv6.Vm

/-!
# Xv6.Vm.Spec

What the memory functions do to the pages of an address space.

A page directory denotes a map from page numbers to entries, `PgDir.pte`; each
function clears, fills or keeps a range of pages.  `deallocuvm` skips a missing
table as a whole, and does what a visit of every single page would do.
-/

namespace Xv6

open Lib Function

variable {free free' : List Frame} {fuel k n newsz oldsz r sz va : Nat} {d d' : PgDir}
  {tab : PgTab}

/-! ## Pages -/

theorem pdx_eq (va : Nat) : pdx va = va / PGSIZE / 1024 % 1024 := by
  simp only [pdx, PGSIZE]
  omega

theorem ptx_eq (va : Nat) : ptx va = va / PGSIZE % 1024 := by
  simp only [ptx, PGSIZE]
  omega

theorem pgRoundUp_eq (h : sz + 4095 < 2 ^ 32) : pgRoundUp sz = (sz + 4095) / PGSIZE * PGSIZE := by
  have h' : sz + (PGSIZE - 1) < 2 ^ 32 := h
  rw [pgRoundUp, uint, Nat.mod_eq_of_lt h']
  rfl

namespace PgDir

/-- The entry of page number `n`. -/
def pte (d : PgDir) (n : Nat) : Option Pte :=
  match d.table (n / 1024 % 1024) with
  | some tab => tab.entry (n % 1024)
  | none => none

theorem lookup_eq_pte (d : PgDir) (va : Nat) : d.lookup va = d.pte (va / PGSIZE) := by
  cases htab : d.table (pdx va) with
  | none => simp only [lookup, pte, ← pdx_eq, htab]
  | some tab => simp only [lookup, pte, ← pdx_eq, ← ptx_eq, htab]

theorem pte_of_table (h : d.table (pdx va) = some tab) :
    d.pte (va / PGSIZE) = tab.entry (ptx va) := by
  rw [pte, ← pdx_eq, h, ptx_eq]

theorem pte_of_no_table (h : d.table (pdx va) = none) : d.pte (va / PGSIZE) = none := by
  rw [pte, ← pdx_eq, h]

/-- Writing the entry for `va` in a table that says what was said before
changes the page of `va` only. -/
theorem pte_setEntry {e : Option Pte}
    (htab : ∀ m, m / 1024 % 1024 = pdx va → tab.entry (m % 1024) = d.pte m) (hva : va < 2 ^ 32)
    (hn : n < 2 ^ 20) : (d.setEntry tab va e).pte n = if n = va / PGSIZE then e else d.pte n := by
  rw [pte, setEntry]
  by_cases ht : n / 1024 % 1024 = pdx va
  · simp only [ht, update_self]
    by_cases hnk : n = va / PGSIZE
    · simp [hnk, ptx_eq]
    have hne : n % 1024 ≠ ptx va := by
      rw [pdx_eq] at ht
      rw [ptx_eq]
      simp only [PGSIZE] at *
      omega
    simp only [update_of_ne hne, if_neg hnk]
    exact htab n ht
  · have hnk : n ≠ va / PGSIZE := fun h => ht (by rw [h, pdx_eq])
    simp only [update_of_ne ht, if_neg hnk]
    rfl

/-- The table that is there says what it said before. -/
theorem entry_eq_pte (h : d.table (pdx va) = some tab)
    (m : Nat) (hm : m / 1024 % 1024 = pdx va) : tab.entry (m % 1024) = d.pte m := by
  rw [pte, hm, h]

/-- A new table says what a missing one did. -/
theorem none_eq_pte (h : d.table (pdx va) = none) (m : Nat)
    (hm : m / 1024 % 1024 = pdx va) : none = d.pte m := by
  rw [pte, hm, h]

end PgDir

/-! ## Unmapping -/

/-- Page `n` lies in `[k * PGSIZE, sz)`. -/
def InRange (k sz n : Nat) : Prop := k ≤ n ∧ n * PGSIZE < sz

instance (k sz n : Nat) : Decidable (InRange k sz n) := inferInstanceAs (Decidable (_ ∧ _))

theorem inRange_succ_iff (h : n ≠ k) : InRange (k + 1) sz n ↔ InRange k sz n := by
  simp only [InRange, and_congr_left_iff]
  omega

theorem not_inRange_of_le (h : sz ≤ k * PGSIZE) (n : Nat) : ¬ InRange k sz n := by
  simp only [InRange, PGSIZE] at *
  omega

/-- The pages of `[k * PGSIZE, sz)`. -/
def pagesFrom (k sz : Nat) : List Nat := List.range' k ((sz + 4095) / PGSIZE - k)

theorem mem_pagesFrom : n ∈ pagesFrom k sz ↔ InRange k sz n := by
  simp only [pagesFrom, List.mem_range'_1, InRange, PGSIZE]
  omega

theorem nodup_pagesFrom (k sz : Nat) : (pagesFrom k sz).Nodup := List.nodup_range'

theorem pagesFrom_split (k j sz : Nat) :
    ∃ l, pagesFrom k sz = l ++ pagesFrom (k + j) sz ∧ ∀ n ∈ l, k ≤ n ∧ n < k + j := by
  refine ⟨List.range' k (min j ((sz + 4095) / PGSIZE - k)), ?_, fun n hn => ?_⟩
  · unfold pagesFrom
    by_cases hj : j ≤ (sz + 4095) / PGSIZE - k
    · rw [min_eq_left hj, List.range'_append_1]
      congr 1
      omega
    · rw [min_eq_right (by omega), show (sz + 4095) / PGSIZE - (k + j) = 0 by omega]
      simp
  · rw [List.mem_range'_1] at hn
    omega

theorem lt_of_mem_pagesFrom (hsz : sz ≤ KERNBASE) (h : n ∈ pagesFrom k sz) : n < 2 ^ 19 := by
  have hin := (mem_pagesFrom.mp h).2
  simp only [PGSIZE, KERNBASE] at *
  omega

theorem pagesFrom_cons (h : k * PGSIZE < sz) : pagesFrom k sz = k :: pagesFrom (k + 1) sz := by
  unfold pagesFrom
  have hlen : (sz + 4095) / PGSIZE - k = (sz + 4095) / PGSIZE - (k + 1) + 1 := by
    simp only [PGSIZE] at *
    omega
  rw [hlen, List.range'_succ]

theorem pagesFrom_nil (h : sz ≤ k * PGSIZE) : pagesFrom k sz = [] := by
  unfold pagesFrom
  have hlen : (sz + 4095) / PGSIZE - k = 0 := by
    simp only [PGSIZE] at *
    omega
  rw [hlen, List.range'_zero]

/-- Visit one page: if it is present, unmap it and free its frame. -/
def deallocPage (s : PgDir × List Frame) (n : Nat) : Except Panic (PgDir × List Frame) :=
  match s.1.table (pdx (n * PGSIZE)) with
  | none => .ok s
  | some tab =>
    match tab.entry (ptx (n * PGSIZE)) with
    | none => .ok s
    | some e =>
      if e.frame = 0 then .error .kfree
      else .ok (s.1.setEntry tab (n * PGSIZE) none, e.frame :: s.2)

/-- The loop of `deallocuvm` visits every page: those it skips are not there. -/
theorem deallocuvmLoop_eq (hold : oldsz ≤ KERNBASE) (hfuel : oldsz / PGSIZE + 1 ≤ fuel + k) :
    deallocuvmLoop oldsz fuel d free (k * PGSIZE) =
      forEach deallocPage (pagesFrom k oldsz) (d, free) := by
  induction fuel generalizing d free k with
  | zero =>
    rw [pagesFrom_nil (by simp only [PGSIZE] at *; omega)]
    rfl
  | succ fuel ih =>
    rw [deallocuvmLoop]
    by_cases hlt : k * PGSIZE < oldsz
    · have hdiv : k * PGSIZE / PGSIZE = k := Nat.mul_div_cancel k (by decide)
      have hstep : k * PGSIZE + PGSIZE = (k + 1) * PGSIZE := by ring
      have hpdx : pdx (k * PGSIZE) = k / 1024 := by
        rw [pdx_eq, hdiv]
        simp only [PGSIZE, KERNBASE] at *
        omega
      rw [if_pos hlt]
      cases htab : d.table (pdx (k * PGSIZE)) with
      | none =>
        -- up to the next multiple of 1024 the pages are in the missing table
        obtain ⟨l, hl, hmem⟩ := pagesFrom_split k ((k / 1024 + 1) * 1024 - k) oldsz
        have hnext : (k / 1024 + 1) * 2 ^ 22 =
            (k + ((k / 1024 + 1) * 1024 - k)) * PGSIZE := by
          simp only [PGSIZE]
          omega
        have hidle : ∀ n ∈ l, deallocPage (d, free) n = .ok (d, free) := fun n hn => by
          have hsame : pdx (n * PGSIZE) = pdx (k * PGSIZE) := by
            have hn := hmem n hn
            rw [hpdx, pdx_eq, Nat.mul_div_cancel n (by decide)]
            simp only [PGSIZE, KERNBASE] at *
            omega
          simp only [deallocPage, hsame, htab]
        simp only
        rw [hl, forEach_append, forEach_of_idle hidle, ok_bind, hpdx, hnext]
        exact ih (by omega)
      | some tab =>
        rw [pagesFrom_cons hlt, forEach_cons, hstep]
        simp only [deallocPage, htab]
        cases hent : tab.entry (ptx (k * PGSIZE)) with
        | none => exact ih (by omega)
        | some e =>
          simp only
          split
          · rfl
          · exact ih (by omega)
    · rw [if_neg hlt, pagesFrom_nil (not_lt.mp hlt)]
      rfl

theorem deallocPage_eq (s : PgDir × List Frame) (n : Nat) :
    (s.1.pte n = none ∧ deallocPage s n = .ok s) ∨
    ∃ e tab, s.1.pte n = some e ∧ s.1.table (pdx (n * PGSIZE)) = some tab ∧
      deallocPage s n = if e.frame = 0 then .error .kfree
        else .ok (s.1.setEntry tab (n * PGSIZE) none, e.frame :: s.2) := by
  have hdiv : n * PGSIZE / PGSIZE = n := Nat.mul_div_cancel n (by decide)
  unfold deallocPage
  cases htab : s.1.table (pdx (n * PGSIZE)) with
  | none => exact .inl ⟨hdiv ▸ PgDir.pte_of_no_table htab, rfl⟩
  | some tab =>
    have hpte := PgDir.pte_of_table htab
    rw [hdiv] at hpte
    cases hent : tab.entry (ptx (n * PGSIZE)) with
    | none => exact .inl ⟨hpte.trans hent, by simp [hent]⟩
    | some e => exact .inr ⟨e, tab, hpte.trans hent, rfl, by simp [hent]⟩

/-- The pages of `[PGROUNDUP(newsz), oldsz)`, one by one. -/
def deallocuvmByPage (d : PgDir) (free : List Frame) (oldsz newsz : Nat) :
    Except Panic (PgDir × List Frame × Nat) := do
  let (d, free) ← forEach deallocPage (pagesFrom ((newsz + 4095) / PGSIZE) oldsz) (d, free)
  return (d, free, min oldsz newsz)

theorem deallocuvm_eq_byPage (hold : oldsz ≤ KERNBASE) (d : PgDir) (free : List Frame)
    (newsz : Nat) : deallocuvm d free oldsz newsz = deallocuvmByPage d free oldsz newsz := by
  unfold deallocuvm deallocuvmByPage
  by_cases hge : newsz ≥ oldsz
  · have hnil : pagesFrom ((newsz + 4095) / PGSIZE) oldsz = [] := pagesFrom_nil (by
      simp only [PGSIZE]
      omega)
    rw [if_pos hge, hnil, min_eq_left hge]
    rfl
  · have hround : pgRoundUp newsz = (newsz + 4095) / PGSIZE * PGSIZE := by
      refine pgRoundUp_eq ?_
      simp only [KERNBASE] at hold
      omega
    rw [if_neg hge, hround, deallocuvmLoop_eq hold (Nat.le_add_right _ _),
      min_eq_right (not_le.mp hge).le]

theorem deallocPage_pte (hk : k < 2 ^ 19) (h : deallocPage (d, free) k = .ok (d', free'))
    (hn : n < 2 ^ 20) : d'.pte n = if n = k then none else d.pte n := by
  rcases deallocPage_eq (d, free) k with ⟨hnone, hstep⟩ | ⟨e, tab, -, htab, hstep⟩
  · cases hstep.symm.trans h
    split
    · next hnk => exact hnk ▸ hnone
    · rfl
  · rw [hstep] at h
    split at h
    · contradiction
    · cases h
      rw [PgDir.pte_setEntry (PgDir.entry_eq_pte htab) (by simp only [PGSIZE]; omega) hn,
        Nat.mul_div_cancel k (by decide)]

theorem forEach_deallocPage_pte {l : List Nat} (hl : ∀ k ∈ l, k < 2 ^ 19)
    (h : forEach deallocPage l (d, free) = .ok (d', free')) (hn : n < 2 ^ 20) :
    d'.pte n = if n ∈ l then none else d.pte n := by
  induction l generalizing d free with
  | nil =>
    cases h
    simp
  | cons k l ih =>
    obtain ⟨⟨d1, free1⟩, h1, h⟩ := bind_eq_ok.mp h
    rw [ih (fun k hk => hl k (List.mem_cons_of_mem _ hk)) h,
      deallocPage_pte (hl k List.mem_cons_self) h1 hn]
    by_cases hnk : n = k <;> simp [hnk]

/-- `deallocuvm` clears the pages between the sizes, and only those. -/
theorem deallocuvm_pte (hold : oldsz ≤ KERNBASE)
    (h : deallocuvm d free oldsz newsz = .ok (d', free', r)) :
    r = min oldsz newsz ∧ ∀ n < 2 ^ 20, d'.pte n =
      if InRange ((newsz + 4095) / PGSIZE) oldsz n then none else d.pte n := by
  rw [deallocuvm_eq_byPage hold] at h
  obtain ⟨⟨d1, free1⟩, hloop, h⟩ := bind_eq_ok.mp h
  cases h
  refine ⟨rfl, fun n hn => ?_⟩
  simp only [forEach_deallocPage_pte (fun k => lt_of_mem_pagesFrom hold) hloop hn, mem_pagesFrom]

/-! ## Mapping -/

/-- `mappages` fills a page that was free, or runs out of pages. -/
theorem mappages_pte {e : Pte} {r : Option (PgDir × List Frame)} (hk : k < 2 ^ 20)
    (h : mappages d free (k * PGSIZE) e = .ok r) :
    d.pte k = none ∧ ∀ d' free', r = some (d', free') →
      ∀ n < 2 ^ 20, d'.pte n = if n = k then some e else d.pte n := by
  have hdiv : k * PGSIZE / PGSIZE = k := Nat.mul_div_cancel k (by decide)
  have hlt : k * PGSIZE < 2 ^ 32 := by
    simp only [PGSIZE]
    omega
  unfold mappages at h
  cases htab : d.table (pdx (k * PGSIZE)) with
  | some tab =>
    simp only [htab] at h
    split at h
    · contradiction
    next hent =>
    cases h
    refine ⟨?_, ?_⟩
    · rw [← hdiv, PgDir.pte_of_table htab]
      exact Option.not_isSome_iff_eq_none.mp hent
    · intro d' free' heq n hn
      cases heq
      rw [PgDir.pte_setEntry (PgDir.entry_eq_pte htab) hlt hn, hdiv]
  | none =>
    simp only [htab] at h
    refine ⟨hdiv ▸ PgDir.pte_of_no_table htab, ?_⟩
    intro d' free' heq n hn
    subst heq
    split at h
    · cases h
    · cases h
      rw [PgDir.pte_setEntry (PgDir.none_eq_pte htab) hlt hn, hdiv]

/-- The pages of `[k * PGSIZE, sz)` were free and have been filled. -/
def Adds (k sz : Nat) (d d' : PgDir) : Prop := ∀ n < 2 ^ 20,
  (InRange k sz n → d.pte n = none ∧ (d'.pte n).isSome) ∧
  (¬ InRange k sz n → d'.pte n = d.pte n)

theorem Adds.none (h : sz ≤ k * PGSIZE) (d : PgDir) : Adds k sz d d := fun n _ =>
  ⟨fun hin => absurd hin (not_inRange_of_le h n), fun _ => rfl⟩

theorem Adds.step {d1 : PgDir} {e : Pte} (h : Adds (k + 1) sz d1 d') (hlt : k * PGSIZE < sz)
    (hnone : d.pte k = .none) (hmap : ∀ n < 2 ^ 20, d1.pte n = if n = k then some e else d.pte n) :
    Adds k sz d d' := fun n hn => by
  obtain ⟨hin, hout⟩ := h n hn
  rw [hmap n hn] at hin hout
  by_cases hnk : n = k
  · subst hnk
    have hpast : ¬ InRange (n + 1) sz n := fun hlast => by
      simp only [InRange] at hlast
      omega
    refine ⟨fun _ => ⟨hnone, ?_⟩, fun hno => absurd ⟨le_rfl, hlt⟩ hno⟩
    rw [hout hpast, if_pos rfl]
    rfl
  · rw [inRange_succ_iff hnk, if_neg hnk] at hin hout
    exact ⟨hin, hout⟩

/-- The loop of `allocuvm` fills the pages from `k` on; or it runs out of pages
and clears what lies above the old size. -/
theorem allocuvmLoop_pte (hnew : newsz ≤ KERNBASE) (hold : oldsz ≤ k * PGSIZE)
    (hfuel : newsz / PGSIZE + 1 ≤ fuel + k)
    (h : allocuvmLoop oldsz newsz fuel d free (k * PGSIZE) = .ok (d', free', r)) :
    (r = newsz ∧ Adds k newsz d d') ∨
    (r = 0 ∧ ∀ n < 2 ^ 20,
      d'.pte n = if InRange ((oldsz + 4095) / PGSIZE) newsz n then none else d.pte n) := by
  induction fuel generalizing d free k with
  | zero =>
    cases h
    refine .inl ⟨rfl, .none ?_ _⟩
    simp only [PGSIZE] at *
    omega
  | succ fuel ih =>
    unfold allocuvmLoop at h
    by_cases hlt : k * PGSIZE < newsz
    · have hk : k < 2 ^ 20 := by
        simp only [PGSIZE, KERNBASE] at *
        omega
      have hstep : k * PGSIZE + PGSIZE = (k + 1) * PGSIZE := by ring
      rw [if_pos hlt] at h
      cases free with
      | nil =>
        obtain ⟨⟨d1, free1, r1⟩, h1, h⟩ := bind_eq_ok.mp h
        cases h
        exact .inr ⟨rfl, (deallocuvm_pte hnew h1).2⟩
      | cons mem free =>
        obtain ⟨m, hm, h⟩ := bind_eq_ok.mp h
        obtain ⟨hnone, hmap⟩ := mappages_pte hk hm
        cases m with
        | none =>
          obtain ⟨⟨d1, free1, r1⟩, h1, h⟩ := bind_eq_ok.mp h
          cases h
          exact .inr ⟨rfl, (deallocuvm_pte hnew h1).2⟩
        | some m =>
          obtain ⟨d1, free1⟩ := m
          have hmap := hmap d1 free1 rfl
          simp only [hstep] at h
          rcases ih (hstep ▸ Nat.le_add_right_of_le hold) (by omega) h with ⟨hr, hadds⟩ | ⟨hr, hspec⟩
          · exact .inl ⟨hr, hadds.step hlt hnone hmap⟩
          refine .inr ⟨hr, fun n hn => ?_⟩
          rw [hspec n hn, hmap n hn]
          by_cases hin : InRange ((oldsz + 4095) / PGSIZE) newsz n
          · rw [if_pos hin, if_pos hin]
          have hnk : n ≠ k := by
            rintro rfl
            refine hin ⟨?_, hlt⟩
            simp only [PGSIZE] at *
            omega
          rw [if_neg hin, if_neg hin, if_neg hnk]
    · rw [if_neg hlt] at h
      cases h
      exact .inl ⟨rfl, .none (not_lt.mp hlt) _⟩

/-- `allocuvm` fails and maps nothing new; or it has nothing to do; or it fills
the free pages between the sizes. -/
theorem allocuvm_pte (h : allocuvm d free oldsz newsz = .ok (d', free', r)) :
    (r = 0 ∧ ∀ n < 2 ^ 20,
      d'.pte n = d.pte n ∨ InRange ((oldsz + 4095) / PGSIZE) newsz n ∧ d'.pte n = none) ∨
    (r = oldsz ∧ newsz < oldsz ∧ newsz < KERNBASE ∧ d' = d) ∨
    (r = newsz ∧ oldsz ≤ newsz ∧ newsz < KERNBASE ∧
      Adds ((oldsz + 4095) / PGSIZE) newsz d d') := by
  rw [allocuvm] at h
  split at h
  · cases h
    exact .inl ⟨rfl, fun _ _ => .inl rfl⟩
  next hnew =>
  split at h
  · next hlt =>
    cases h
    exact .inr (.inl ⟨rfl, hlt, not_le.mp hnew, rfl⟩)
  · next hge =>
    have hround : pgRoundUp oldsz = (oldsz + 4095) / PGSIZE * PGSIZE := by
      refine pgRoundUp_eq ?_
      simp only [KERNBASE] at hnew
      omega
    rw [hround] at h
    have hup : oldsz ≤ (oldsz + 4095) / PGSIZE * PGSIZE := by
      simp only [PGSIZE]
      omega
    rcases allocuvmLoop_pte (not_le.mp hnew).le hup (Nat.le_add_right _ _) h with
      ⟨hr, hspec⟩ | ⟨hr, hspec⟩
    · exact .inr (.inr ⟨hr, not_lt.mp hge, not_le.mp hnew, hspec⟩)
    · refine .inl ⟨hr, fun n hn => ?_⟩
      rw [hspec n hn]
      split
      · next hin => exact .inr ⟨hin, rfl⟩
      · exact .inl rfl

/-! ## Address spaces without holes -/

/-- Every page below `sz` is present. -/
def Filled (d : PgDir) (sz : Nat) : Prop := ∀ n < 2 ^ 20, n * PGSIZE < sz → (d.pte n).isSome

theorem Filled.zero (d : PgDir) : Filled d 0 := fun _ _ h => absurd h (Nat.not_lt_zero _)

theorem Filled.present (h : Filled d sz) (hva : va < 2 ^ 32) (hlt : va < sz) : d.Present va := by
  rw [PgDir.Present, PgDir.lookup_eq_pte]
  refine h _ ?_ ?_ <;> simp only [PGSIZE] <;> omega

theorem Filled.pgRoundUp (h : Filled d sz) (hsz : sz + 4095 < 2 ^ 32) :
    Filled d (pgRoundUp sz) := by
  intro n hn hlt
  rw [pgRoundUp_eq hsz] at hlt
  refine h n hn ?_
  simp only [PGSIZE] at *
  omega

/-- `allocuvm` keeps a filled space filled, up to its return value. -/
theorem Filled.allocuvm (hd : Filled d oldsz)
    (h : allocuvm d free oldsz newsz = .ok (d', free', r)) :
    Filled d' oldsz ∧ Filled d' r := by
  have hbelow : ∀ n, n * PGSIZE < oldsz → ¬ InRange ((oldsz + 4095) / PGSIZE) newsz n := by
    intro n hlt hin
    simp only [InRange, PGSIZE] at *
    omega
  rcases allocuvm_pte h with ⟨rfl, hout⟩ | ⟨rfl, -, -, rfl⟩ | ⟨rfl, -, -, hspec⟩
  · refine ⟨fun n hn hlt => ?_, .zero d'⟩
    rcases hout n hn with heq | ⟨hin, -⟩
    · rw [heq]
      exact hd n hn hlt
    · exact absurd hin (hbelow n hlt)
  · exact ⟨hd, hd⟩
  · have hold : Filled d' oldsz := fun n hn hlt => by
      rw [(hspec n hn).2 (hbelow n hlt)]
      exact hd n hn hlt
    refine ⟨hold, fun n hn hlt => ?_⟩
    by_cases hn' : n * PGSIZE < oldsz
    · exact hold n hn hn'
    · refine ((hspec n hn).1 ⟨?_, hlt⟩).2
      simp only [PGSIZE] at *
      omega

/-- `deallocuvm` keeps a filled space filled, up to its return value. -/
theorem Filled.deallocuvm (hd : Filled d oldsz) (hold : oldsz ≤ KERNBASE)
    (h : deallocuvm d free oldsz newsz = .ok (d', free', r)) : Filled d' r := by
  obtain ⟨rfl, hspec⟩ := deallocuvm_pte hold h
  intro n hn hlt
  have hout : ¬ InRange ((newsz + 4095) / PGSIZE) oldsz n := by
    simp only [InRange, PGSIZE] at *
    omega
  rw [hspec n hn, if_neg hout]
  exact hd n hn (hlt.trans_le (min_le_left _ _))

theorem Filled.clearpteu {uva : Nat} (hd : Filled d sz) (huva : uva < 2 ^ 32)
    (h : clearpteu d uva = .ok d') : Filled d' sz := by
  unfold Xv6.clearpteu at h
  cases htab : d.table (pdx uva) with
  | none =>
    simp only [htab] at h
    contradiction
  | some tab =>
    simp only [htab] at h
    cases h
    intro n hn hlt
    have hpte := hd n hn hlt
    rw [PgDir.pte_setEntry (PgDir.entry_eq_pte htab) huva hn]
    split
    · next hnk =>
      rw [hnk, PgDir.pte_of_table htab] at hpte
      simpa using hpte
    · exact hpte

/-- The pages present are those below `sz`. -/
structure Exact (d : PgDir) (sz : Nat) : Prop where
  filled : Filled d sz
  bare : ∀ n < 2 ^ 20, sz ≤ n * PGSIZE → d.pte n = none

theorem Exact.pgRoundUp (h : Exact d sz) (hsz : sz + 4095 < 2 ^ 32) : Exact d (pgRoundUp sz) := by
  refine ⟨h.filled.pgRoundUp hsz, fun n hn hle => h.bare n hn ?_⟩
  rw [pgRoundUp_eq hsz] at hle
  simp only [PGSIZE] at *
  omega

theorem Exact.allocuvm (hd : Exact d oldsz) (h : allocuvm d free oldsz newsz = .ok (d', free', r))
    (hr : r ≠ 0) : Exact d' r := by
  refine ⟨(hd.filled.allocuvm h).2, fun n hn hle => ?_⟩
  rcases allocuvm_pte h with ⟨rfl, -⟩ | ⟨rfl, -, -, rfl⟩ | ⟨rfl, hold, -, hspec⟩
  · contradiction
  · exact hd.bare n hn hle
  · have hout : ¬ InRange ((oldsz + 4095) / PGSIZE) r n := fun hin => by
      have hlt := hin.2
      omega
    rw [(hspec n hn).2 hout]
    exact hd.bare n hn (hold.trans hle)

theorem Exact.clearpteu {uva : Nat} (hd : Exact d sz) (huva : uva < 2 ^ 32)
    (h : clearpteu d uva = .ok d') : Exact d' sz := by
  refine ⟨hd.filled.clearpteu huva h, fun n hn hle => ?_⟩
  have hnone := hd.bare n hn hle
  unfold Xv6.clearpteu at h
  cases htab : d.table (pdx uva) with
  | none =>
    simp only [htab] at h
    contradiction
  | some tab =>
    simp only [htab] at h
    cases h
    rw [PgDir.pte_setEntry (PgDir.entry_eq_pte htab) huva hn]
    split
    · next hnk =>
      rw [hnk, PgDir.pte_of_table htab] at hnone
      rw [hnone]
      rfl
    · exact hnone

/-- The loop of `copyuvm` copies every page from `k` on. -/
theorem copyuvmLoop_pte {src d'' : PgDir} (hsz : sz ≤ 2 ^ 32) (hfuel : sz / PGSIZE + 1 ≤ fuel + k)
    (h : copyuvmLoop src sz fuel d free (k * PGSIZE) = .ok (some d', d'', free')) :
    Adds k sz d d' := by
  induction fuel generalizing d free k with
  | zero =>
    cases h
    refine .none ?_ _
    simp only [PGSIZE] at *
    omega
  | succ fuel ih =>
    unfold copyuvmLoop at h
    by_cases hlt : k * PGSIZE < sz
    · have hk : k < 2 ^ 20 := by
        simp only [PGSIZE] at *
        omega
      have hstep : k * PGSIZE + PGSIZE = (k + 1) * PGSIZE := by ring
      rw [if_pos hlt] at h
      split at h
      · contradiction
      split at h
      · contradiction
      cases free with
      | nil => cases h
      | cons mem free =>
        obtain ⟨m, hm, h⟩ := bind_eq_ok.mp h
        obtain ⟨hnone, hmap⟩ := mappages_pte hk hm
        cases m with
        | none => cases h
        | some m =>
          obtain ⟨d1, free1⟩ := m
          simp only [hstep] at h
          exact (ih (by omega) h).step hlt hnone (hmap d1 free1 rfl)
    · rw [if_neg hlt] at h
      cases h
      exact .none (not_lt.mp hlt) _

theorem filled_copyuvm {src : PgDir} (hsz : sz ≤ 2 ^ 32)
    (h : copyuvm src sz free = .ok (some d, free')) : Filled d sz := by
  unfold copyuvm at h
  split at h
  · cases h
  obtain ⟨⟨r, d1, free1⟩, h1, h⟩ := bind_eq_ok.mp h
  cases r with
  | none =>
    obtain ⟨_, _, h⟩ := bind_eq_ok.mp h
    cases h
  | some d2 =>
    cases h
    rw [← Nat.zero_mul PGSIZE] at h1
    intro n hn hlt
    exact ((copyuvmLoop_pte hsz (Nat.le_add_right _ 0) h1 n hn).1 ⟨Nat.zero_le n, hlt⟩).2

end Xv6
