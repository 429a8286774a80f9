import Xv6.Lib.Bytes
import Xv6.Vm.Pages

/-!
# Xv6.Vm.Ram

The memory functions with the bytes of the pages, which `memset`, `memmove` and
`kfree` write.  Forgetting the bytes gives the functions of `Xv6.Vm` back.
-/

namespace Xv6

open Lib Function

/-- The free list and the bytes of every page. -/
structure Ram where
  free : List Frame
  page : Frame → Bytes

variable {m m' m1 : Ram} {fuel k j l n newsz oldsz sz a r : Nat} {d d' d1 : PgDir} {e : Pte}
  {f : Frame}

namespace Ram

/-! ## The functions -/

/-- Write a page as a whole: `memset`, or `memmove` of `PGSIZE` bytes. -/
def write (m : Ram) (f : Frame) (p : Bytes) : Ram := { m with page := update m.page f p }

/-- `kfree(v)`: the page is filled with junk. -/
def kfree (m : Ram) (f : Frame) : Ram := { m.write f fun _ => 1 with free := f :: m.free }

/-- `mappages` of one page; a new page table is cleared. -/
def mappages (d : PgDir) (m : Ram) (a : Nat) (e : Pte) : Except Panic (Option (PgDir × Ram)) :=
  match d.table (pdx a) with
  | some tab =>
    if (tab.entry (ptx a)).isSome then .error .remap
    else .ok (some (d.setEntry tab a (some e), m))
  | none =>
    match m.free with
    | [] => .ok none
    | f :: free => .ok (some (d.setEntry { frame := f, entry := fun _ => none } a (some e),
        { m with free }.write f fun _ => 0))

/-- The loop of `deallocuvm` -/
def deallocuvmLoop (oldsz : Nat) : Nat → PgDir → Ram → Nat → Except Panic (PgDir × Ram)
  | 0, d, m, _ => .ok (d, m)
  | fuel + 1, d, m, a =>
    if a < oldsz then
      match d.table (pdx a) with
      | none => deallocuvmLoop oldsz fuel d m ((pdx a + 1) * 2 ^ 22)
      | some tab =>
        match tab.entry (ptx a) with
        | none => deallocuvmLoop oldsz fuel d m (a + PGSIZE)
        | some e =>
          if e.frame = 0 then .error .kfree
          else deallocuvmLoop oldsz fuel (d.setEntry tab a none) (m.kfree e.frame) (a + PGSIZE)
    else .ok (d, m)

/-- `deallocuvm(pgdir, oldsz, newsz)` -/
def deallocuvm (d : PgDir) (m : Ram) (oldsz newsz : Nat) : Except Panic (PgDir × Ram × Nat) :=
  if newsz ≥ oldsz then .ok (d, m, oldsz)
  else do
    let (d, m) ← deallocuvmLoop oldsz (oldsz / PGSIZE + 1) d m (pgRoundUp newsz)
    return (d, m, newsz)

/-- The loop of `allocuvm` -/
def allocuvmLoop (oldsz newsz : Nat) : Nat → PgDir → Ram → Nat → Except Panic (PgDir × Ram × Nat)
  | 0, d, m, _ => .ok (d, m, newsz)
  | fuel + 1, d, m, a =>
    if a < newsz then
      match m.free with
      | [] => do
        let (d, m, _) ← deallocuvm d m newsz oldsz
        return (d, m, 0)
      | mem :: free => do
        let m := { m with free }.write mem fun _ => 0
        match ← mappages d m a { frame := mem, writable := true, user := true } with
        | none => do
          let (d, m, _) ← deallocuvm d m newsz oldsz
          return (d, m.kfree mem, 0)
        | some (d, m) => allocuvmLoop oldsz newsz fuel d m (a + PGSIZE)
    else .ok (d, m, newsz)

/-- `allocuvm(pgdir, oldsz, newsz)` -/
def allocuvm (d : PgDir) (m : Ram) (oldsz newsz : Nat) : Except Panic (PgDir × Ram × Nat) :=
  if newsz ≥ KERNBASE then .ok (d, m, 0)
  else if newsz < oldsz then .ok (d, m, oldsz)
  else allocuvmLoop oldsz newsz (newsz / PGSIZE + 1) d m (pgRoundUp oldsz)

/-! ## Forgetting the bytes -/

theorem mappages_forget (d : PgDir) (m : Ram) (a : Nat) (e : Pte) :
    (mappages d m a e).map (Option.map fun x => (x.1, x.2.free)) = Xv6.mappages d m.free a e := by
  unfold mappages Xv6.mappages
  cases d.table (pdx a) with
  | some tab => simp only; split <;> rfl
  | none => cases m.free <;> simp [write, Except.map]

theorem deallocuvmLoop_forget (oldsz fuel : Nat) (d : PgDir) (m : Ram) (a : Nat) :
    (deallocuvmLoop oldsz fuel d m a).map (fun x => (x.1, x.2.free)) =
      Xv6.deallocuvmLoop oldsz fuel d m.free a := by
  induction fuel generalizing d m a with
  | zero => rfl
  | succ fuel ih =>
    unfold deallocuvmLoop Xv6.deallocuvmLoop
    split
    · cases d.table (pdx a) with
      | none => exact ih ..
      | some tab =>
        simp only
        cases tab.entry (ptx a) with
        | none => exact ih ..
        | some e =>
          simp only
          split
          · rfl
          · exact ih ..
    · rfl

theorem deallocuvm_forget (d : PgDir) (m : Ram) (oldsz newsz : Nat) :
    (deallocuvm d m oldsz newsz).map (fun x => (x.1, x.2.1.free, x.2.2)) =
      Xv6.deallocuvm d m.free oldsz newsz := by
  unfold deallocuvm Xv6.deallocuvm
  split
  · rfl
  · rw [← deallocuvmLoop_forget]
    cases deallocuvmLoop oldsz (oldsz / PGSIZE + 1) d m (pgRoundUp newsz) <;> rfl

theorem allocuvmLoop_forget (oldsz newsz fuel : Nat) (d : PgDir) (m : Ram) (a : Nat) :
    (allocuvmLoop oldsz newsz fuel d m a).map (fun x => (x.1, x.2.1.free, x.2.2)) =
      Xv6.allocuvmLoop oldsz newsz fuel d m.free a := by
  induction fuel generalizing d m a with
  | zero => rfl
  | succ fuel ih =>
    unfold allocuvmLoop Xv6.allocuvmLoop
    split
    · cases hfree : m.free with
      | nil =>
        have hd := deallocuvm_forget d m newsz oldsz
        rw [hfree] at hd
        simp only [← hd]
        cases deallocuvm d m newsz oldsz <;> rfl
      | cons mem free =>
        simp only
        generalize hm : ({ m with free } : Ram).write mem (fun _ => 0) = m1
        have hfree1 : m1.free = free := by rw [← hm]; rfl
        rw [← hfree1, ← mappages_forget]
        rcases mappages d m1 a _ with _ | _ | ⟨d2, m2⟩
        · rfl
        · simp only [Except.map, Option.map, ok_bind, ← deallocuvm_forget]
          cases deallocuvm d m1 newsz oldsz <;> rfl
        · exact ih ..
    · rfl

theorem allocuvm_forget (d : PgDir) (m : Ram) (oldsz newsz : Nat) :
    (allocuvm d m oldsz newsz).map (fun x => (x.1, x.2.1.free, x.2.2)) =
      Xv6.allocuvm d m.free oldsz newsz := by
  unfold allocuvm Xv6.allocuvm
  split
  · rfl
  · split
    · rfl
    · exact allocuvmLoop_forget ..

/-! ## What is written -/

/-- Only pages that end up on the free list have been written. -/
structure Frees (m m' : Ram) : Prop where
  subset : m.free ⊆ m'.free
  kept : ∀ f ∉ m'.free, m'.page f = m.page f

theorem Frees.refl (m : Ram) : Frees m m := ⟨List.Subset.refl _, fun _ _ => rfl⟩

theorem Frees.trans (h : Frees m m1) (h' : Frees m1 m') : Frees m m' :=
  ⟨fun _ hf => h'.subset (h.subset hf), fun f hf =>
    (h'.kept f hf).trans (h.kept f fun hmem => hf (h'.subset hmem))⟩

theorem kfree_frees (m : Ram) (f : Frame) : Frees m (m.kfree f) := by
  refine ⟨List.subset_cons_self f m.free, fun g hg => update_of_ne ?_ ..⟩
  exact (List.ne_of_not_mem_cons hg)

theorem deallocuvmLoop_frees (h : deallocuvmLoop oldsz fuel d m a = .ok (d', m')) : Frees m m' := by
  induction fuel generalizing d m a with
  | zero =>
    cases h
    exact .refl _
  | succ fuel ih =>
    unfold deallocuvmLoop at h
    split at h
    · split at h
      · exact ih h
      split at h
      · exact ih h
      · split at h
        · contradiction
        · exact (kfree_frees m _).trans (ih h)
    · cases h
      exact .refl _

theorem deallocuvm_frees (h : deallocuvm d m oldsz newsz = .ok (d', m', r)) : Frees m m' := by
  unfold deallocuvm at h
  split at h
  · cases h
    exact .refl m
  · obtain ⟨⟨d1, m1⟩, hloop, h⟩ := bind_eq_ok.mp h
    cases h
    exact deallocuvmLoop_frees hloop

/-- The pages from `k` to `j` have been mapped, each as `want` says, to frames
of the free list; nothing else has changed. -/
structure Fills (want : Nat → Pte → Bytes → Prop) (k j : Nat) (d : PgDir) (m : Ram) (d' : PgDir)
    (m' : Ram) : Prop where
  inside : ∀ n, k ≤ n → n < j → ∃ e, d'.pte n = some e ∧ want n e (m'.page e.frame) ∧
    e.frame ∈ m.free ∧ e.frame ∉ m'.free
  distinct : ∀ n n' e e', k ≤ n → n < n' → n' < j → d'.pte n = some e → d'.pte n' = some e' →
    e.frame ≠ e'.frame
  outside : ∀ n < 2 ^ 20, ¬ (k ≤ n ∧ n < j) → d'.pte n = d.pte n
  moves : Moves d d' m.free m'.free 0
  suffix : m'.free <:+ m.free
  kept : ∀ f ∉ m.free, m'.page f = m.page f

variable {want : Nat → Pte → Bytes → Prop}

theorem Fills.refl (k : Nat) (d : PgDir) (m : Ram) : Fills want k k d m d m where
  inside := fun n _ _ => by omega
  distinct := fun n n' _ _ _ _ _ => by omega
  outside := fun _ _ _ => rfl
  moves := .refl d m.free
  suffix := List.suffix_rfl
  kept := fun _ _ => rfl

theorem Fills.trans (h : Fills want k j d m d1 m1) (h' : Fills want j l d1 m1 d' m')
    (hkj : k ≤ j) (hjl : j ≤ l) (hl : l ≤ 2 ^ 20) : Fills want k l d m d' m' := by
  have hpte : ∀ n, n < j → d'.pte n = d1.pte n := fun n hn =>
    h'.outside n (by omega) (by omega)
  refine ⟨fun n hk hn => ?_, fun n n' e e' hk hlt hn he he' => ?_,
    fun n hn hout => (h'.outside n hn (by omega)).trans
      (h.outside n hn (by omega)), ?_, h'.suffix.trans h.suffix, fun f hf => ?_⟩
  · by_cases hj : n < j
    · obtain ⟨e, he, hwant, hin, hnot⟩ := h.inside n hk hj
      exact ⟨e, (hpte n hj).trans he, h'.kept _ hnot ▸ hwant, hin,
        fun hmem => hnot (h'.suffix.subset hmem)⟩
    · obtain ⟨e, he, hwant, hin, hnot⟩ := h'.inside n (by omega) hn
      exact ⟨e, he, hwant, h.suffix.subset hin, hnot⟩
  · by_cases hj' : n' < j
    · rw [hpte n (by omega)] at he
      rw [hpte n' hj'] at he'
      exact h.distinct n n' e e' hk hlt hj' he he'
    · by_cases hj : n < j
      · -- the first frame was gone when the second one was taken
        obtain ⟨_, he1, -, -, hnot⟩ := h.inside n hk hj
        obtain ⟨_, he2, -, hin, -⟩ := h'.inside n' (by omega) hn
        rw [hpte n hj, he1] at he
        rw [he2] at he'
        cases he
        cases he'
        exact fun heq => hnot (heq ▸ hin)
      · exact h'.distinct n n' e e' (by omega) hlt hn he he'
  · simpa using h.moves.trans h'.moves
  · exact (h'.kept f fun hmem => hf (h.suffix.subset hmem)).trans (h.kept f hf)

/-- `mappages` writes at most the page of a new table. -/
theorem mappages_ram (h : mappages d m a e = .ok (some (d', m'))) :
    m' = m ∨ ∃ f free, m.free = f :: free ∧ m' = ({ m with free } : Ram).write f fun _ => 0 := by
  unfold mappages at h
  split at h
  · split at h
    · contradiction
    · cases h
      exact .inl rfl
  · split at h
    · cases h
    · next f free hfree =>
      cases h
      exact .inr ⟨f, free, hfree, rfl⟩

theorem fills_mappages {mem : Frame} {free : List Frame} {p : Bytes} (hfree : m.free = mem :: free)
    (hnodup : m.free.Nodup) (hk : k < 2 ^ 19) (he : e.frame = mem) (hwant : want k e p)
    (h : mappages d (({ m with free } : Ram).write mem p) (k * PGSIZE) e = .ok (some (d', m'))) :
    Fills want k (k + 1) d m d' m' := by
  have hbase := mappages_forget d (({ m with free } : Ram).write mem p) (k * PGSIZE) e
  rw [h] at hbase
  have hbase : Xv6.mappages d free (k * PGSIZE) e = .ok (some (d', m'.free)) := hbase.symm
  have hpte := (mappages_pte (by omega) hbase).2 _ _ rfl
  have hmoves := mappages_moves hk hbase
  rw [hfree, List.nodup_cons] at hnodup
  have hself : d'.pte k = some e := by rw [hpte k (by omega), if_pos rfl]
  -- the page of a new table is not the page just taken
  obtain ⟨hsuffix, hmem, hpage, hkept⟩ : m'.free <:+ free ∧ mem ∉ m'.free ∧ m'.page mem = p ∧
      ∀ f ∉ m.free, m'.page f = m.page f := by
    rcases mappages_ram h with rfl | ⟨f, rest, hrest, rfl⟩
    · refine ⟨List.suffix_rfl, hnodup.1, update_self .., fun f hf => ?_⟩
      exact update_of_ne (fun heq => hf (by simp [hfree, heq])) ..
    have hrest : free = f :: rest := hrest
    subst hrest
    have hne : mem ≠ f := fun heq => hnodup.1 (by simp [heq])
    refine ⟨List.suffix_cons f rest, fun hin => hnodup.1 (List.mem_cons_of_mem f hin), ?_,
      fun g hg => ?_⟩
    · simp [write, hne]
    · simp only [hfree, List.mem_cons, not_or] at hg
      simp [write, hg.1, hg.2.1]
  refine ⟨fun n hkn hn => ?_, fun n n' _ _ _ _ _ => by omega, fun n hn hout => ?_, ?_, ?_, hkept⟩
  · obtain rfl : n = k := by omega
    refine ⟨e, hself, ?_, ?_, ?_⟩
    · rw [he, hpage]
      exact hwant
    · simp [he, hfree]
    · rw [he]
      exact hmem
  · rw [hpte n hn, if_neg (by omega)]
  · rwa [he, ← hfree] at hmoves
  · rw [hfree]
    exact hsuffix.trans (List.suffix_cons mem free)

/-! ## `allocuvm` -/

/-- The page tables that are missing for the pages from `k` on. -/
def missing (d : PgDir) (k newsz : Nat) : Finset Nat :=
  ((Finset.Ico k ((newsz + 4095) / PGSIZE)).image (· / 1024)).filter fun i => (d.table i).isNone

/-- The frames that the pages from `k` on take: one for each page and one for
each table that is missing. -/
def demand (d : PgDir) (k newsz : Nat) : Nat :=
  (newsz + 4095) / PGSIZE - k + (missing d k newsz).card

theorem pdx_page (hk : k < 2 ^ 19) : pdx (k * PGSIZE) = k / 1024 := by
  simp only [pdx, PGSIZE]
  omega

theorem mem_missing_self (hlt : k * PGSIZE < newsz) :
    k / 1024 ∈ missing d k newsz ↔ d.table (k / 1024) = none := by
  have hmem : k ∈ Finset.Ico k ((newsz + 4095) / PGSIZE) := by
    simp only [Finset.mem_Ico, PGSIZE] at *
    omega
  simp only [missing, Finset.mem_filter, Option.isNone_iff_eq_none]
  exact and_iff_right (Finset.mem_image_of_mem _ hmem)

/-- With the first page mapped its table is not missing any more. -/
theorem missing_setEntry (tab : PgTab) (o : Option Pte) (hk : k < 2 ^ 19)
    (hlt : k * PGSIZE < newsz) :
    missing (d.setEntry tab (k * PGSIZE) o) (k + 1) newsz = (missing d k newsz).erase (k / 1024) := by
  have hico : Finset.Ico k ((newsz + 4095) / PGSIZE) =
      insert k (Finset.Ico (k + 1) ((newsz + 4095) / PGSIZE)) :=
    (Finset.insert_Ico_add_one_left_eq_Ico (by simp only [PGSIZE] at *; omega)).symm
  ext i
  simp only [missing, hico, Finset.image_insert, Finset.mem_filter, Finset.mem_erase,
    Finset.mem_insert, PgDir.setEntry, pdx_page hk]
  by_cases hi : i = k / 1024 <;> simp [hi]

/-- Mapping a page takes the frames by which the demand goes down, but for the
one of the page itself. -/
theorem mappages_demand (hk : k < 2 ^ 19) (hlt : k * PGSIZE < newsz)
    (h : mappages d m (k * PGSIZE) e = .ok (some (d', m'))) :
    demand d k newsz + m'.free.length = demand d' (k + 1) newsz + m.free.length + 1 := by
  have hpages : (newsz + 4095) / PGSIZE - k = (newsz + 4095) / PGSIZE - (k + 1) + 1 := by
    simp only [PGSIZE] at *
    omega
  have hself := mem_missing_self (d := d) hlt
  unfold mappages at h
  rw [pdx_page hk] at h
  cases htab : d.table (k / 1024) with
  | some tab =>
    rw [htab] at h
    simp only at h
    split at h
    · contradiction
    cases h
    rw [htab] at hself
    rw [demand, demand, missing_setEntry tab _ hk hlt,
      Finset.erase_eq_of_notMem fun hmem => nomatch hself.mp hmem]
    omega
  | none =>
    rw [htab] at h
    simp only at h
    split at h
    · cases h
    · next f free hfree =>
      cases h
      have hcard := Finset.card_erase_add_one (hself.mpr htab)
      rw [demand, demand, missing_setEntry _ _ hk hlt, hfree, List.length_cons]
      simp only [write]
      omega

theorem demand_eq_zero (hle : newsz ≤ k * PGSIZE) : demand d k newsz = 0 := by
  have htop : (newsz + 4095) / PGSIZE ≤ k := by
    simp only [PGSIZE] at *
    omega
  rw [demand, missing, Finset.Ico_eq_empty_of_le htop, Nat.sub_eq_zero_of_le htop]
  rfl

theorem demand_pos (hlt : k * PGSIZE < newsz) : 0 < demand d k newsz := by
  simp only [demand, PGSIZE] at *
  omega

theorem demand_of_mappages (hk : k < 2 ^ 19) (hlt : k * PGSIZE < newsz)
    (h : mappages d m (k * PGSIZE) e = .ok none) : 1 < demand d k newsz := by
  unfold mappages at h
  rw [pdx_page hk] at h
  cases htab : d.table (k / 1024) with
  | some tab =>
    rw [htab] at h
    simp only at h
    split at h <;> cases h
  | none =>
    have hcard := Finset.card_pos.mpr ⟨_, (mem_missing_self hlt).mpr htab⟩
    simp only [demand, PGSIZE] at *
    omega

/-- A page that is free can be mapped, unless its table needs a page and there is
none. -/
theorem mappages_total (e : Pte) (hnone : d.pte k = none) :
    (m.free = [] ∧ mappages d m (k * PGSIZE) e = .ok none) ∨
      ∃ d' m', mappages d m (k * PGSIZE) e = .ok (some (d', m')) := by
  unfold mappages
  cases htab : d.table (pdx (k * PGSIZE)) with
  | some tab =>
    have hent : tab.entry (ptx (k * PGSIZE)) = none := by
      rw [← PgDir.pte_of_table htab, Nat.mul_div_cancel k (by decide)]
      exact hnone
    simp [hent]
  | none => cases hfree : m.free <;> simp

/-- A new page: zeroed, writable and open to the user. -/
def Fresh (_ : Nat) (e : Pte) (p : Bytes) : Prop :=
  e.writable = true ∧ e.user = true ∧ p = fun _ => 0

/-- The loop of `allocuvm` fills pages until it is done or the free list, too
short for what the call takes, is empty; then everything down to `oldsz` is
unmapped. -/
theorem allocuvmLoop_fills (oldsz : Nat) (hnew : newsz ≤ KERNBASE)
    (hfuel : newsz / PGSIZE + 1 ≤ fuel + k)
    (hnodup : m.free.Nodup) (hnone : ∀ n, InRange k newsz n → d.pte n = none) :
    ∃ j d1 m1, k ≤ j ∧ (∀ n, k ≤ n → n < j → n * PGSIZE < newsz) ∧ Fills Fresh k j d m d1 m1 ∧
      ((demand d k newsz ≤ m.free.length ∧ newsz ≤ j * PGSIZE ∧
          allocuvmLoop oldsz newsz fuel d m (k * PGSIZE) = .ok (d1, m1, newsz)) ∨
        (m.free.length < demand d k newsz ∧ m1.free = [] ∧ allocuvmLoop oldsz newsz fuel d m (k * PGSIZE) =
          (deallocuvm d1 m1 newsz oldsz).map fun x => (x.1, x.2.1, 0)) ∨
        ∃ mem, m.free.length < demand d k newsz ∧ m1.free = [mem] ∧
          allocuvmLoop oldsz newsz fuel d m (k * PGSIZE) =
          (deallocuvm d1 (({ m1 with free := [] } : Ram).write mem fun _ => 0) newsz oldsz).map
            fun x => (x.1, x.2.1.kfree mem, 0)) := by
  have hnothing : ∀ k n, k ≤ n → n < k → n * PGSIZE < newsz := fun k n h h' =>
    absurd h (not_le.mpr h')
  induction fuel generalizing d m k with
  | zero =>
    have hdone : newsz ≤ k * PGSIZE := by
      simp only [PGSIZE] at *
      omega
    refine ⟨k, d, m, le_rfl, hnothing k, .refl k d m, .inl ⟨?_, hdone, rfl⟩⟩
    simp [demand_eq_zero hdone]
  | succ fuel ih =>
    unfold allocuvmLoop
    by_cases hlt : k * PGSIZE < newsz
    · have hk : k < 2 ^ 19 := by
        simp only [PGSIZE, KERNBASE] at *
        omega
      rw [if_pos hlt]
      cases hfree : m.free with
      | nil =>
        refine ⟨k, d, m, le_rfl, hnothing k, .refl k d m, .inr (.inl ⟨demand_pos hlt, hfree, ?_⟩)⟩
        cases deallocuvm d m newsz oldsz <;> rfl
      | cons mem free =>
        simp only
        rcases mappages_total (m := ({ m with free } : Ram).write mem fun _ => 0)
          { frame := mem, writable := true, user := true } (hnone k ⟨le_rfl, hlt⟩) with
          ⟨hnil, hmap⟩ | ⟨d1, m1, hmap⟩
        · have hnil : free = [] := hnil
          subst hnil
          refine ⟨k, d, m, le_rfl, hnothing k, .refl k d m,
            .inr (.inr ⟨mem, demand_of_mappages hk hlt hmap, hfree, ?_⟩)⟩
          rw [hmap, ok_bind]
          cases deallocuvm d (({ m with free := [] } : Ram).write mem fun _ => 0) newsz oldsz <;>
            rfl
        · have hone : Fills Fresh k (k + 1) d m d1 m1 :=
            fills_mappages hfree hnodup hk rfl ⟨rfl, rfl, rfl⟩ hmap
          have hnone1 : ∀ n, InRange (k + 1) newsz n → d1.pte n = none := fun n hn => by
            have hn' := hn.2
            rw [hone.outside n (by simp only [PGSIZE, KERNBASE] at *; omega)
              (fun h => by have := hn.1; omega)]
            exact hnone n ⟨by have := hn.1; omega, hn'⟩
          obtain ⟨j, d2, m2, hj, hin, hfills, hres⟩ := ih (k := k + 1) (by omega)
            (hnodup.sublist hone.suffix.sublist) hnone1
          have hin' : ∀ n, k ≤ n → n < j → n * PGSIZE < newsz := fun n hkn hn => by
            by_cases hnk : n = k
            · exact hnk ▸ hlt
            · exact hin n (by omega) hn
          have hj' : j ≤ 2 ^ 20 := by
            by_contra hgt
            have := hin' (2 ^ 20) (by omega) (by omega)
            simp only [PGSIZE, KERNBASE] at *
            omega
          refine ⟨j, d2, m2, by omega, hin', hone.trans hfills (by omega) hj hj', ?_⟩
          have hdemand := mappages_demand hk hlt hmap
          have hle : demand d k newsz ≤ (mem :: free).length ↔
              demand d1 (k + 1) newsz ≤ m1.free.length := by
            simp only [write, List.length_cons] at hdemand ⊢
            omega
          simp only [← not_le] at hres ⊢
          rw [hmap, ok_bind, show k * PGSIZE + PGSIZE = (k + 1) * PGSIZE by ring, hle]
          exact hres
    · rw [if_neg hlt]
      refine ⟨k, d, m, le_rfl, hnothing k, .refl k d m, .inl ⟨?_, not_lt.mp hlt, rfl⟩⟩
      simp [demand_eq_zero (not_lt.mp hlt)]

/-- Unmapping the pages just mapped gives the old mappings back. -/
theorem Fills.rollback (hf : Fills Fresh ((oldsz + 4095) / PGSIZE) j d m d1 m1)
    (hin : ∀ n, (oldsz + 4095) / PGSIZE ≤ n → n < j → n * PGSIZE < newsz) (hnew : newsz ≤ KERNBASE)
    (hnull : 0 ∉ m.free) (hnone : ∀ n, InRange ((oldsz + 4095) / PGSIZE) newsz n → d.pte n = none)
    (m2 : Ram) :
    ∃ d' m' r, deallocuvm d1 m2 newsz oldsz = .ok (d', m', r) ∧
      (∀ n < 2 ^ 20, d'.pte n = d.pte n) ∧ Moves d1 d' m2.free m'.free 0 ∧ Frees m2 m' := by
  have hout : ∀ n < 2 ^ 20, ¬ InRange ((oldsz + 4095) / PGSIZE) newsz n ∨ j ≤ n →
      d1.pte n = d.pte n := fun n hn h =>
    hf.outside n hn fun ⟨hle, hlt⟩ => h.elim (fun h => h ⟨hle, hin n hle hlt⟩) (by omega)
  obtain ⟨d', hbase, hpte⟩ := deallocuvm_frames (d := d1) hnew m2.free fun n hn e he => by
    by_cases hj : n < j
    · obtain ⟨_, he', -, hmem, -⟩ := hf.inside n hn.1 hj
      cases he.symm.trans he'
      exact fun hzero => hnull (hzero ▸ hmem)
    · have hlt := hn.2
      rw [hout n (by simp only [PGSIZE, KERNBASE] at *; omega) (.inr (not_lt.mp hj)),
        hnone n hn] at he
      contradiction
  have hforget := deallocuvm_forget d1 m2 newsz oldsz
  rw [hbase] at hforget
  obtain ⟨⟨d2, m', r⟩, hram, heq⟩ := map_eq_ok.mp hforget
  rw [← heq] at hbase
  obtain rfl : d2 = d' := congrArg Prod.fst heq
  refine ⟨d2, m', r, hram, fun n hn => ?_, deallocuvm_moves hnew hbase, deallocuvm_frees hram⟩
  rw [hpte n hn]
  split
  · next h => exact (hnone n h).symm
  · next h => exact hout n hn (.inl h)

/-- The outcome of `allocuvm`: with enough free pages it has filled the pages
between the sizes, with too few it has left the mappings as they were, with only
page tables gone from the free list. -/
theorem allocuvm_fills (hle : oldsz ≤ newsz) (hnew : newsz < KERNBASE) (hnodup : m.free.Nodup)
    (hnull : 0 ∉ m.free) (hnone : ∀ n, InRange ((oldsz + 4095) / PGSIZE) newsz n → d.pte n = none) :
    ∃ d' m' r, allocuvm d m oldsz newsz = .ok (d', m', r) ∧
      ((demand d ((oldsz + 4095) / PGSIZE) newsz ≤ m.free.length ∧ r = newsz ∧
          ∃ j, (∀ n, (oldsz + 4095) / PGSIZE ≤ n → (n < j ↔ n * PGSIZE < newsz)) ∧
          Fills Fresh ((oldsz + 4095) / PGSIZE) j d m d' m') ∨
        (m.free.length < demand d ((oldsz + 4095) / PGSIZE) newsz ∧ r = 0 ∧
          (∀ n < 2 ^ 20, d'.pte n = d.pte n) ∧ Moves d d' m.free m'.free 0 ∧
          ∀ f ∉ m.free, f ∉ m'.free → m'.page f = m.page f)) := by
  have hround : pgRoundUp oldsz = (oldsz + 4095) / PGSIZE * PGSIZE := pgRoundUp_eq (by
    simp only [KERNBASE] at *
    omega)
  obtain ⟨j, d1, m1, hj, hin, hfills, hres⟩ := allocuvmLoop_fills oldsz hnew.le
    (Nat.le_add_right (newsz / PGSIZE + 1) _) hnodup hnone
  rw [allocuvm, if_neg (not_le.mpr hnew), if_neg (not_lt.mpr hle), hround]
  rcases hres with ⟨hroom, hdone, hres⟩ | ⟨hroom, hnil, hres⟩ | ⟨mem, hroom, hmem, hres⟩
  · refine ⟨d1, m1, newsz, hres, .inl ⟨hroom, rfl, j, fun n hn => ⟨hin n hn, fun hlt => ?_⟩, hfills⟩⟩
    simp only [PGSIZE] at *
    omega
  · obtain ⟨d', m', r, hd, hpte, hmoves, hfrees⟩ := hfills.rollback hin hnew.le hnull hnone m1
    refine ⟨d', m', 0, by rw [hres, hd]; rfl, .inr ⟨hroom, rfl, hpte, ?_, fun f hf hf' => ?_⟩⟩
    · simpa using hfills.moves.trans hmoves
    · exact (hfrees.kept f hf').trans (hfills.kept f hf)
  · obtain ⟨d', m', r, hd, hpte, hmoves, hfrees⟩ := hfills.rollback hin hnew.le hnull hnone
      (({ m1 with free := [] } : Ram).write mem fun _ => 0)
    refine ⟨d', m'.kfree mem, 0, by rw [hres, hd]; rfl, .inr ⟨hroom, rfl, hpte, ?_, fun f hf hf' => ?_⟩⟩
    · have hboth := hmoves.cons mem
      simp only [write, ← hmem] at hboth
      rw [← add_zero (0 : Multiset Frame)]
      exact hfills.moves.trans hboth
    · have hne : f ≠ mem := List.ne_of_not_mem_cons hf'
      have hf1 := hfrees.kept f fun h => hf' (List.mem_cons_of_mem mem h)
      simp only [kfree, write, update_of_ne hne] at hf1 ⊢
      exact hf1.trans (hfills.kept f hf)

/-- **`allocuvm` is all or nothing**: with a free page for each page between the
sizes and for each table that they miss it fills exactly these pages with distinct
zeroed frames; with fewer it returns 0, the mappings are as before, and every page
is on the free list again that is not a page table. -/
theorem allocuvm_atomic (hle : oldsz ≤ newsz) (hnew : newsz < KERNBASE) (hnodup : m.free.Nodup)
    (hnull : 0 ∉ m.free) (hnone : ∀ n, InRange ((oldsz + 4095) / PGSIZE) newsz n → d.pte n = none) :
    ∃ d' m' r, allocuvm d m oldsz newsz = .ok (d', m', r) ∧
      ((demand d ((oldsz + 4095) / PGSIZE) newsz ≤ m.free.length ∧ r = newsz ∧
          (∀ n < 2 ^ 20, ¬ InRange ((oldsz + 4095) / PGSIZE) newsz n →
            d'.pte n = d.pte n) ∧
          (∀ n, InRange ((oldsz + 4095) / PGSIZE) newsz n → ∃ e, d'.pte n = some e ∧
            e.frame ∈ m.free ∧ e.frame ∉ m'.free ∧ m'.page e.frame = fun _ => 0) ∧
          ∀ n n' e e', InRange ((oldsz + 4095) / PGSIZE) newsz n →
            InRange ((oldsz + 4095) / PGSIZE) newsz n' → d'.pte n = some e → d'.pte n' = some e' →
            e.frame = e'.frame → n = n') ∨
        (m.free.length < demand d ((oldsz + 4095) / PGSIZE) newsz ∧ r = 0 ∧
          (∀ n < 2 ^ 20, d'.pte n = d.pte n) ∧
          ∃ t, d'.tabs = d.tabs + t ∧ (m.free : Multiset Frame) = ↑m'.free + t)) := by
  obtain ⟨d', m', r, hres, hcase⟩ := allocuvm_fills hle hnew hnodup hnull hnone
  refine ⟨d', m', r, hres, ?_⟩
  rcases hcase with ⟨hroom, hr, j, hj, hfills⟩ | ⟨hroom, hr, hpte, hmoves, -⟩
  · refine .inl ⟨hroom, hr, fun n hn hout => ?_, fun n hn => ?_,
      fun n n' e e' hn hn' he he' heq => ?_⟩
    · exact hfills.outside n hn fun h => hout ⟨h.1, (hj n h.1).mp h.2⟩
    · obtain ⟨e, he, hfresh, hin, hnot⟩ := hfills.inside n hn.1 ((hj n hn.1).mpr hn.2)
      exact ⟨e, he, hin, hnot, hfresh.2.2⟩
    · rcases Nat.lt_trichotomy n n' with hlt | rfl | hlt
      · exact absurd heq (hfills.distinct n n' e e' hn.1 hlt ((hj n' hn'.1).mpr hn'.2) he he')
      · rfl
      · exact absurd heq.symm (hfills.distinct n' n e' e hn'.1 hlt ((hj n hn.1).mpr hn.2) he' he)
  · exact .inr ⟨hroom, hr, hpte, hmoves.free_eq hpte⟩

/-- Three pages, of which the last two miss their table: four frames are enough,
three are not. -/
theorem allocuvm_atomic_firstPage :
    (∃ d' m', allocuvm firstPage ⟨[4, 5, 6, 7], fun _ _ => 7⟩ (1023 * PGSIZE) (1026 * PGSIZE) =
        .ok (d', m', 1026 * PGSIZE) ∧ ∀ n, 1023 ≤ n → n < 1026 →
        ∃ e, d'.pte n = some e ∧ m'.page e.frame = fun _ => 0) ∧
      ∃ d' m', allocuvm firstPage ⟨[4, 5, 6], fun _ _ => 7⟩ (1023 * PGSIZE) (1026 * PGSIZE) =
        .ok (d', m', 0) ∧ ∀ n < 2 ^ 20, d'.pte n = firstPage.pte n := by
  have hround : (1023 * PGSIZE + 4095) / PGSIZE = 1023 := by decide +kernel
  have hnone : ∀ n, InRange ((1023 * PGSIZE + 4095) / PGSIZE) (1026 * PGSIZE) n →
      firstPage.pte n = none := fun n hn => by
    simp only [InRange, hround, PGSIZE] at hn
    rw [firstPage_pte (by omega), if_neg (by omega)]
  constructor
  · obtain ⟨d', m', r, hres, ⟨-, rfl, -, hin, -⟩ | ⟨hroom, -⟩⟩ := allocuvm_atomic
      (m := ⟨[4, 5, 6, 7], fun _ _ => 7⟩) (by decide) (by decide) (by decide) (by decide) hnone
    · refine ⟨d', m', hres, fun n hn hlt => ?_⟩
      obtain ⟨e, he, -, -, hpage⟩ := hin n ⟨by omega, by simp only [PGSIZE]; omega⟩
      exact ⟨e, he, hpage⟩
    · exact absurd hroom (by decide +kernel)
  · obtain ⟨d', m', r, hres, ⟨hroom, -⟩ | ⟨-, rfl, hpte, -⟩⟩ := allocuvm_atomic
      (m := ⟨[4, 5, 6], fun _ _ => 7⟩) (by decide) (by decide) (by decide) (by decide) hnone
    · exact absurd hroom (by decide +kernel)
    · exact ⟨d', m', hres, hpte⟩

end Ram
end Xv6
