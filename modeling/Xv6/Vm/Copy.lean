import Xv6.Vm.Ram

/-!
# Xv6.Vm.Copy

`copyuvm` with the bytes of the pages: what a copy takes from the free list,
where it stops when the list is too short, and that it shares no page with the
original.
-/

namespace Xv6

open Lib List

variable {src d d' d1 : PgDir} {m m' m1 : Ram} {sz fuel k n : Nat} {e : Pte} {f : Frame}

namespace Ram

/-- `setupkvm()`: the pages it takes are cleared. -/
def setupkvm (m : Ram) : Option PgDir × Ram :=
  ((Xv6.setupkvm m.free).1,
    { (m.free.take (kernTables + 1)).foldl (fun m f => m.write f fun _ => 0) m with
      free := (Xv6.setupkvm m.free).2 })

/-- `freevm(pgdir)` -/
def freevm (d : PgDir) (m : Ram) : Except Panic Ram := do
  let (d, m, _) ← deallocuvm d m KERNBASE 0
  let tables := (range 512).filterMap fun i => (d.table i).map PgTab.frame
  return (tables ++ (d.kern ++ [d.frame])).foldl kfree m

/-- The loop of `copyuvm` -/
def copyuvmLoop (src : PgDir) (sz : Nat) :
    Nat → PgDir → Ram → Nat → Except Panic (Option PgDir × PgDir × Ram)
  | 0, d, m, _ => .ok (some d, d, m)
  | fuel + 1, d, m, i =>
    if i < sz then
      match src.table (pdx i) with
      | none => .error .copyuvmPte
      | some tab =>
        match tab.entry (ptx i) with
        | none => .error .copyuvmPage
        | some e =>
          match m.free with
          | [] => .ok (none, d, m)
          | mem :: free => do
            let m := { m with free }.write mem (m.page e.frame)
            match ← mappages d m i { e with frame := mem } with
            | none => return (none, d, m)
            | some (d, m) => copyuvmLoop src sz fuel d m (i + PGSIZE)
    else .ok (some d, d, m)

/-- `copyuvm(pgdir, sz)` -/
def copyuvm (src : PgDir) (sz : Nat) (m : Ram) : Except Panic (Option PgDir × Ram) :=
  match setupkvm m with
  | (none, m) => .ok (none, m)
  | (some d, m) => do
    match ← copyuvmLoop src sz (sz / PGSIZE + 1) d m 0 with
    | (some d, _, m) => return (some d, m)
    | (none, d, m) => do
      let m ← freevm d m
      return (none, m)

/-! ## Forgetting the bytes -/

theorem kfree_foldl_free (l : List Frame) (m : Ram) :
    (l.foldl kfree m).free = l.reverse ++ m.free := by
  induction l generalizing m with
  | nil => rfl
  | cons f l ih => simp [ih, kfree]

theorem freevm_forget (d : PgDir) (m : Ram) : (freevm d m).map Ram.free = Xv6.freevm d m.free := by
  unfold freevm Xv6.freevm
  rw [← deallocuvm_forget]
  rcases deallocuvm d m KERNBASE 0 with _ | ⟨d1, m1, r⟩
  · rfl
  · simp only [Except.map, ok_bind, pure_eq_ok, kfree_foldl_free]
    simp

theorem copyuvmLoop_forget (src : PgDir) (sz fuel : Nat) (d : PgDir) (m : Ram) (i : Nat) :
    (copyuvmLoop src sz fuel d m i).map (fun x => (x.1, x.2.1, x.2.2.free)) =
      Xv6.copyuvmLoop src sz fuel d m.free i := by
  induction fuel generalizing d m i with
  | zero => rfl
  | succ fuel ih =>
    unfold copyuvmLoop Xv6.copyuvmLoop
    split
    · cases src.table (pdx i) with
      | none => rfl
      | some tab =>
        simp only
        cases tab.entry (ptx i) with
        | none => rfl
        | some e =>
          simp only
          cases hfree : m.free with
          | nil => simp [Except.map, hfree]
          | cons mem free =>
            simp only
            generalize hm : ({ m with free } : Ram).write mem (m.page e.frame) = m1
            have hfree1 : m1.free = free := by rw [← hm]; rfl
            rw [← hfree1, ← mappages_forget]
            rcases mappages d m1 i _ with _ | _ | ⟨d2, m2⟩
            · rfl
            · rfl
            · exact ih ..
    · rfl

theorem copyuvm_forget (src : PgDir) (sz : Nat) (m : Ram) :
    (copyuvm src sz m).map (fun x => (x.1, x.2.free)) = Xv6.copyuvm src sz m.free := by
  unfold copyuvm Xv6.copyuvm
  obtain ⟨m1, hset, hfree⟩ : ∃ m1, setupkvm m = ((Xv6.setupkvm m.free).1, m1) ∧
      m1.free = (Xv6.setupkvm m.free).2 := ⟨_, rfl, rfl⟩
  rw [hset]
  generalize Xv6.setupkvm m.free = x at hfree ⊢
  obtain ⟨_ | d, free⟩ := x
  · simp [Except.map, hfree]
  · obtain rfl : m1.free = free := hfree
    simp only [← copyuvmLoop_forget]
    rcases copyuvmLoop src sz (sz / PGSIZE + 1) d m1 0 with _ | ⟨_ | d2, d1, m2⟩
    · rfl
    · simp only [Except.map, ok_bind, ← freevm_forget]
      cases freevm d1 m2 <;> rfl
    · rfl

/-! ## Where a copy stops -/

/-- A directory under construction: the tables of the first `k` pages are there. -/
def Built (k : Nat) (d : PgDir) : Prop := ∀ i < 512, (d.table i).isSome ↔ i * 1024 < k

/-- A page of the copy: flags and, if nobody has written the original, bytes as there. -/
def Copied (src : PgDir) (page : Frame → Bytes) (owned : Prop) (n : Nat) (e : Pte)
    (p : Bytes) : Prop :=
  ∃ e₀, src.pte n = some e₀ ∧ e.writable = e₀.writable ∧ e.user = e₀.user ∧
    (owned → p = page e₀.frame)

/-- Mapping the next page takes a table at every 1024th. -/
theorem mappages_built (hb : Built k d) (hk : k < 2 ^ 19) (hnone : d.pte k = none) (e : Pte) :
    (k % 1024 = 0 ∧ m.free = [] ∧ mappages d m (k * PGSIZE) e = .ok none) ∨
      ∃ d' m', mappages d m (k * PGSIZE) e = .ok (some (d', m')) ∧ Built (k + 1) d' ∧
        m'.free.length + (k + 1 + 1023) / 1024 = m.free.length + (k + 1023) / 1024 := by
  have hpdx : pdx (k * PGSIZE) = k / 1024 := by
    rw [pdx_eq, Nat.mul_div_cancel k (by decide)]
    omega
  have hnext : ∀ tab va, pdx va = k / 1024 → Built (k + 1) (d.setEntry tab va (some e)) := by
    intro tab va hva i hi
    by_cases hik : i = k / 1024
    · simp only [PgDir.setEntry, hva, hik, Function.update_self, Option.isSome_some, true_iff]
      omega
    · simp only [PgDir.setEntry, hva, Function.update_of_ne hik]
      rw [hb i hi]
      omega
  have htabs := hb (k / 1024) (by omega)
  unfold mappages
  cases htab : d.table (pdx (k * PGSIZE)) with
  | some tab =>
    have hent : tab.entry (ptx (k * PGSIZE)) = none := by
      rw [← PgDir.pte_of_table htab, Nat.mul_div_cancel k (by decide)]
      exact hnone
    rw [hpdx] at htab
    simp only [htab, Option.isSome_some, true_iff] at htabs
    refine .inr ⟨_, m, by simp [hent], hnext tab _ hpdx, by omega⟩
  | none =>
    rw [hpdx] at htab
    simp only [htab, Option.isSome_none, Bool.false_eq_true, false_iff] at htabs
    cases hfree : m.free with
    | nil => exact .inl ⟨by omega, rfl, by simp⟩
    | cons f free =>
      refine .inr ⟨_, _, rfl, hnext _ _ hpdx, ?_⟩
      simp only [write, length_cons]
      omega

/-- What the loop of `copyuvm` has done when it ends: it is through, or the free
list is empty at a page, or at the table of a page that has been taken. -/
theorem copyuvmLoop_fills (page : Frame → Bytes) (owned : Prop) (hsz : sz ≤ KERNBASE)
    (hfuel : sz / PGSIZE + 1 ≤ fuel + k) (hk : k ≤ (sz + 4095) / PGSIZE) (hsrc : Filled src sz)
    (hnodup : m.free.Nodup)
    (howned : owned → ∀ n < 2 ^ 19, ∀ e, src.pte n = some e →
      e.frame ∉ m.free ∧ m.page e.frame = page e.frame)
    (hb : Built k d) (hnone : ∀ n < 2 ^ 19, k ≤ n → d.pte n = none) :
    ∃ j d1 m1, k ≤ j ∧ j ≤ (sz + 4095) / PGSIZE ∧
      Fills (Copied src page owned) k j d m d1 m1 ∧
      m1.free.length + j + (j + 1023) / 1024 = m.free.length + k + (k + 1023) / 1024 ∧
      ((j = (sz + 4095) / PGSIZE ∧
          copyuvmLoop src sz fuel d m (k * PGSIZE) = .ok (some d1, d1, m1)) ∨
        (j < (sz + 4095) / PGSIZE ∧ m1.free = [] ∧
          copyuvmLoop src sz fuel d m (k * PGSIZE) = .ok (none, d1, m1)) ∨
        (j < (sz + 4095) / PGSIZE ∧ j % 1024 = 0 ∧ ∃ mem p, m1.free = [mem] ∧
          copyuvmLoop src sz fuel d m (k * PGSIZE) =
            .ok (none, d1, ({ m1 with free := [] } : Ram).write mem p))) := by
  induction fuel generalizing d m k with
  | zero =>
    refine ⟨k, d, m, le_rfl, hk, .refl k d m, rfl, .inl ⟨?_, rfl⟩⟩
    simp only [PGSIZE] at *
    omega
  | succ fuel ih =>
    unfold copyuvmLoop
    by_cases hlt : k * PGSIZE < sz
    · have hk' : k < 2 ^ 19 := by
        simp only [PGSIZE, KERNBASE] at *
        omega
      have hkP : k < (sz + 4095) / PGSIZE := by
        simp only [PGSIZE] at *
        omega
      obtain ⟨e, he⟩ := Option.isSome_iff_exists.mp (hsrc k (by omega) hlt)
      -- the page of the original is there
      obtain ⟨tab, htab, hent⟩ : ∃ tab, src.table (pdx (k * PGSIZE)) = some tab ∧
          tab.entry (ptx (k * PGSIZE)) = some e := by
        have hlook := src.lookup_eq_pte (k * PGSIZE)
        rw [Nat.mul_div_cancel k (by decide), he, PgDir.lookup] at hlook
        split at hlook
        · next tab htab => exact ⟨tab, htab, hlook⟩
        · contradiction
      rw [if_pos hlt]
      simp only [htab, hent]
      cases hfree : m.free with
      | nil => exact ⟨k, d, m, le_rfl, hk, .refl k d m, by rw [hfree], .inr (.inl ⟨hkP, hfree, rfl⟩)⟩
      | cons mem free =>
        simp only
        rcases mappages_built (m := ({ m with free } : Ram).write mem (m.page e.frame)) hb hk'
          (hnone k hk' le_rfl) { e with frame := mem } with
          ⟨hmod, hnil, hmap⟩ | ⟨d1, m1, hmap, hb1, hlen⟩
        · have hnil : free = [] := hnil
          subst hnil
          exact ⟨k, d, m, le_rfl, hk, .refl k d m, by rw [hfree],
            .inr (.inr ⟨hkP, hmod, mem, _, hfree, by rw [hmap]; rfl⟩)⟩
        · have hone : Fills (Copied src page owned) k (k + 1) d m d1 m1 :=
            fills_mappages (e := { e with frame := mem }) hfree hnodup hk' rfl
              ⟨e, he, rfl, rfl, fun h => (howned h k hk' e he).2⟩ hmap
          obtain ⟨j, d2, m2, hj, hjP, hfills, hlen2, hres⟩ := ih (k := k + 1) (by omega) hkP
            (hnodup.sublist hone.suffix.sublist)
            (fun h n hn e he => by
              obtain ⟨hnot, hpage⟩ := howned h n hn e he
              exact ⟨fun hmem => hnot (hone.suffix.subset hmem),
                (hone.kept _ hnot).trans hpage⟩)
            hb1 (fun n hn hkn => by
              rw [hone.outside n (by omega) (by omega)]
              exact hnone n hn (by omega))
          have hj' : j ≤ 2 ^ 20 := by
            simp only [PGSIZE, KERNBASE] at *
            omega
          refine ⟨j, d2, m2, by omega, hjP, hone.trans hfills (by omega) hj hj', ?_, ?_⟩
          · have hfree1 : (({ m with free } : Ram).write mem (m.page e.frame)).free = free := rfl
            rw [hfree1] at hlen
            rw [length_cons]
            omega
          · rw [hmap, ok_bind, show k * PGSIZE + PGSIZE = (k + 1) * PGSIZE by ring]
            exact hres
    · have hk' : k = (sz + 4095) / PGSIZE := by
        simp only [PGSIZE] at *
        omega
      rw [if_neg hlt]
      exact ⟨k, d, m, le_rfl, hk, .refl k d m, rfl, .inl ⟨hk', rfl⟩⟩

theorem setupkvm_kept (hf : f ∉ m.free) : (setupkvm m).2.page f = m.page f := by
  have hfold : ∀ (l : List Frame) (m : Ram), f ∉ l →
      (l.foldl (fun m f => m.write f fun _ => 0) m).page f = m.page f := by
    intro l
    induction l with
    | nil => exact fun _ _ => rfl
    | cons g l ih =>
      intro m hfl
      rw [mem_cons, not_or] at hfl
      rw [foldl_cons, ih _ hfl.2]
      simp [write, hfl.1]
  exact hfold _ m fun hmem => hf (mem_of_mem_take hmem)

/-- With a page for the directory and one for each table, there is a directory
with an empty user half. -/
theorem setupkvm_enough (h : kernTables + 1 ≤ m.free.length) :
    ∃ d, setupkvm m = (some d, (setupkvm m).2) ∧ d.table = (fun _ => none) ∧
      d.kern.length = kernTables ∧ m.free = d.frame :: (d.kern ++ (setupkvm m).2.free) := by
  unfold setupkvm Xv6.setupkvm
  cases hfree : m.free with
  | nil => simp [hfree] at h
  | cons f free =>
    rw [hfree, length_cons] at h
    simp only [if_pos (show kernTables ≤ free.length by omega)]
    exact ⟨_, rfl, rfl, by simpa using h, by simp⟩

/-- **`copyuvm` copies and isolates.**  With enough free pages the copy maps
exactly the pages below `sz`, with the flags and the bytes of the original, into
frames that are pairwise distinct and not the original's; so what is written to a
page of one is not seen through the other. -/
theorem copyuvm_isolates (hsz : sz ≤ KERNBASE) (hsrc : Filled src sz) (hnodup : m.free.Nodup)
    (howned : ∀ n < 2 ^ 19, ∀ e, src.pte n = some e → e.frame ∉ m.free)
    (henough : kernTables + 1 + (sz + 4095) / PGSIZE + ((sz + 4095) / PGSIZE + 1023) / 1024 ≤
      m.free.length) :
    ∃ d' m', copyuvm src sz m = .ok (some d', m') ∧
      (∀ n < 2 ^ 20, (d'.pte n).isSome ↔ n * PGSIZE < sz) ∧
      (∀ n e', d'.pte n = some e' → n < 2 ^ 20 → ∃ e, src.pte n = some e ∧
        e'.writable = e.writable ∧ e'.user = e.user ∧ m'.page e'.frame = m.page e.frame) ∧
      (∀ n < 2 ^ 20, ∀ n' < 2 ^ 20, ∀ e e', d'.pte n = some e → d'.pte n' = some e' →
        e.frame = e'.frame → n = n') ∧
      ∀ n < 2 ^ 19, ∀ n' < 2 ^ 20, ∀ e e', src.pte n = some e → d'.pte n' = some e' →
        m'.page e.frame = m.page e.frame ∧ ∀ p,
          (m'.write e'.frame p).page e.frame = m'.page e.frame ∧
          (m'.write e.frame p).page e'.frame = m'.page e'.frame := by
  obtain ⟨top, htop⟩ : ∃ top, top = (sz + 4095) / PGSIZE := ⟨_, rfl⟩
  have hlt : ∀ n, n < top ↔ n * PGSIZE < sz := fun n => by
    rw [htop]
    simp only [PGSIZE]
    omega
  rw [← htop] at henough
  obtain ⟨d, hset, htable, hkern, hfree⟩ := setupkvm_enough (m := m) (by omega)
  have hkept : ∀ f ∉ m.free, (setupkvm m).2.page f = m.page f := fun f => setupkvm_kept
  generalize (setupkvm m).2 = m0 at hset hfree hkept
  have hsub : m0.free <:+ m.free := by
    rw [hfree, ← cons_append]
    exact suffix_append ..
  have hbare : ∀ n, d.pte n = none := fun n => by rw [PgDir.pte, htable]
  have hlen := congrArg length hfree
  rw [length_cons, length_append, hkern] at hlen
  obtain ⟨j, d1, m1, -, hj, hfills, hcount, hres⟩ := copyuvmLoop_fills (k := 0) (m := m0)
    m.page True hsz (Nat.le_add_right (sz / PGSIZE + 1) 0) (Nat.zero_le _) hsrc
    (hnodup.sublist hsub.sublist)
    (fun _ n hn e he => ⟨fun h => howned n hn e he (hsub.subset h), hkept _ (howned n hn e he)⟩)
    (fun i _ => by simp [htable]) (fun n _ _ => hbare n)
  rw [Nat.zero_mul, ← htop] at hres
  obtain ⟨rfl, hloop⟩ : j = top ∧ copyuvmLoop src sz (sz / PGSIZE + 1) d m0 0 =
      .ok (some d1, d1, m1) := by
    rcases hres with h | ⟨hjlt, hnil, -⟩ | ⟨hjlt, hmod, mem, p, hmem, -⟩
    · exact h
    · rw [hnil, length_nil] at hcount
      omega
    · rw [hmem, length_singleton] at hcount
      omega
  have hin : ∀ n < 2 ^ 20, ∀ e, d1.pte n = some e → n < j := fun n hn e he => by
    by_contra hge
    rw [hfills.outside n hn (by omega), hbare] at he
    contradiction
  refine ⟨d1, m1, ?_, fun n hn => ⟨fun h => ?_, fun h => ?_⟩, fun n e' he' hn => ?_,
    fun n hn n' hn' e e' he he' heq => ?_, fun n hn n' hn' e e' he he' => ?_⟩
  · rw [copyuvm, hset]
    simp only [hloop, ok_bind]
    rfl
  · obtain ⟨e, he⟩ := Option.isSome_iff_exists.mp h
    exact (hlt n).mp (hin n hn e he)
  · obtain ⟨e, he, -⟩ := hfills.inside n (Nat.zero_le n) ((hlt n).mpr h)
    simp [he]
  · obtain ⟨e1, he1, ⟨e, he, hw, hu, hbytes⟩, -⟩ :=
      hfills.inside n (Nat.zero_le n) (hin n hn e' he')
    cases he1.symm.trans he'
    exact ⟨e, he, hw, hu, hbytes trivial⟩
  · rcases Nat.lt_trichotomy n n' with h | rfl | h
    · exact absurd heq (hfills.distinct n n' e e' (Nat.zero_le n) h (hin n' hn' e' he') he he')
    · rfl
    · exact absurd heq.symm (hfills.distinct n' n e' e (Nat.zero_le n') h (hin n hn e he) he' he)
  · -- the frames of the copy were on the free list, those of the original were not
    have hnot := howned n hn e he
    obtain ⟨e1, he1, -, hmem, -⟩ := hfills.inside n' (Nat.zero_le n') (hin n' hn' e' he')
    cases he1.symm.trans he'
    have hne : e.frame ≠ e'.frame := fun heq => hnot (heq ▸ hsub.subset hmem)
    refine ⟨(hfills.kept _ fun h => hnot (hsub.subset h)).trans (hkept _ hnot), fun p => ⟨?_, ?_⟩⟩
    · simp [write, hne]
    · simp [write, hne.symm]

/-- A page without user access and one with it, as `exec` leaves them below the
stack. -/
def guarded : PgDir where
  frame := 1
  kern := []
  table i := if i = 0 then
    some { frame := 2, entry := fun j =>
      if j = 0 then some ⟨3, true, false⟩ else if j = 1 then some ⟨4, true, true⟩ else none }
    else none

theorem guarded_frame {n : Nat} {e : Pte} (h : guarded.pte n = some e) :
    e.frame = 3 ∨ e.frame = 4 := by
  simp only [PgDir.pte, guarded] at h
  split at h
  · next ht =>
    split at ht
    · cases ht
      grind
    · contradiction
  · contradiction

/-- Every frame is full of its own number: the pages of the copy have the rights
and the bytes of the original, which a write to the copy leaves alone. -/
theorem copyuvm_isolates_guarded :
    ∃ d' m' e0 e1, copyuvm guarded 5000 ⟨range' 10 70, fun f _ => .ofNat f⟩ = .ok (some d', m') ∧
      d'.pte 0 = some e0 ∧ e0.user = false ∧ m'.page e0.frame = (fun _ => 3) ∧
      d'.pte 1 = some e1 ∧ e1.user = true ∧ m'.page e1.frame = (fun _ => 4) ∧
      e0.frame ≠ e1.frame ∧ ∀ p, (m'.write e1.frame p).page 4 = fun _ => 4 := by
  obtain ⟨d', m', hres, hpages, hbytes, hdistinct, hapart⟩ := copyuvm_isolates
    (m := ⟨range' 10 70, fun f _ => .ofNat f⟩) (show 5000 ≤ KERNBASE by decide)
    (show Filled guarded 5000 from fun n hn hlt => by
      simp only [PGSIZE] at hlt
      obtain rfl | rfl : n = 0 ∨ n = 1 := by omega
      · rfl
      · rfl)
    nodup_range'
    (fun n hn e he => by rcases guarded_frame he with h | h <;> rw [h] <;> decide)
    (by decide)
  obtain ⟨e0, h0⟩ := Option.isSome_iff_exists.mp ((hpages 0 (by decide)).mpr (by decide))
  obtain ⟨e1, h1⟩ := Option.isSome_iff_exists.mp ((hpages 1 (by decide)).mpr (by decide))
  obtain ⟨s0, hs0, -, hu0, hb0⟩ := hbytes 0 e0 h0 (by decide)
  obtain ⟨s1, hs1, -, hu1, hb1⟩ := hbytes 1 e1 h1 (by decide)
  cases hs0
  cases hs1
  obtain ⟨hsame, hwrite⟩ := hapart 1 (by decide) 1 (by decide) _ e1 rfl h1
  refine ⟨d', m', e0, e1, hres, h0, hu0, hb0, h1, hu1, hb1, fun heq => ?_, fun p => ?_⟩
  · exact absurd (hdistinct 0 (by decide) 1 (by decide) e0 e1 h0 h1 heq) (by decide)
  · exact (hwrite p).1.trans hsame

end Ram

/-- A copy that runs out of pages gives back all it has taken, unless it was
building the kernel half or about to take a page for a table. -/
theorem copyuvm_short {free : List Frame} (hsz : sz ≤ KERNBASE) (hsrc : Filled src sz)
    (hnodup : free.Nodup) (hnull : 0 ∉ free)
    (hshort : free.length <
      kernTables + 1 + (sz + 4095) / PGSIZE + ((sz + 4095) / PGSIZE + 1023) / 1024) :
    ∃ free' lost, copyuvm src sz free = .ok (none, free') ∧
      (free' : Multiset Frame) + lost = ↑free ∧
      (lost = 0 ↔ free = [] ∨ kernTables + 1 ≤ free.length ∧
        ∀ t, free.length ≠ kernTables + 2 + 1025 * t) := by
  obtain ⟨top, htop⟩ : ∃ top, top = (sz + 4095) / PGSIZE := ⟨_, rfl⟩
  rw [← htop] at hshort
  by_cases hlen : kernTables + 1 ≤ free.length
  · obtain ⟨d, hset, htable, hkern, hfree⟩ := Ram.setupkvm_enough (m := ⟨free, fun _ _ => 0⟩) hlen
    have hfst : (setupkvm free).1 = some d := congrArg Prod.fst hset
    have hbase : setupkvm free = (some d, (Ram.setupkvm ⟨free, fun _ _ => 0⟩).2.free) :=
      Prod.ext hfst rfl
    generalize (Ram.setupkvm ⟨free, fun _ _ => 0⟩).2 = m0 at hbase hfree
    have hfree : free = d.frame :: (d.kern ++ m0.free) := hfree
    have hsub : m0.free <:+ free := by
      rw [hfree, ← cons_append]
      exact suffix_append ..
    have hcount := congrArg length hfree
    rw [length_cons, length_append, hkern] at hcount
    have hbare : ∀ n, d.pte n = none := fun n => by rw [PgDir.pte, htable]
    obtain ⟨j, d1, m1, -, -, hfills, hcount1, hres⟩ := Ram.copyuvmLoop_fills (k := 0) (m := m0)
      (fun _ _ => 0) False hsz (Nat.le_add_right (sz / PGSIZE + 1) 0)
      (Nat.zero_le _) hsrc (hnodup.sublist hsub.sublist) False.elim (fun i _ => by simp [htable])
      (fun n _ _ => hbare n)
    rw [← htop, Nat.zero_mul] at hres
    -- what the loop leaves is given back by `freevm`
    obtain ⟨free', hfreevm, hsum⟩ := freevm_frames (d := d1) [] fun n hn e he hzero => by
      by_cases hj : n < j
      · obtain ⟨e1, he1, -, hmem, -⟩ := hfills.inside n (Nat.zero_le n) hj
        cases he1.symm.trans he
        exact hnull (hzero ▸ hsub.subset hmem)
      · rw [hfills.outside n (by omega) (by omega), hbare] at he
        contradiction
    have hpages : d1.users + d1.tabs + ↑m1.free = (m0.free : Multiset Frame) := by
      have hzero : d.tabs = 0 := Finset.sum_eq_zero fun i _ => by rw [htable, heldTable]
      have h := hfills.moves.pages
      rwa [add_zero, PgDir.users_eq_zero fun n _ => hbare n, hzero, zero_add, zero_add] at h
    have hall : (free : Multiset Frame) = {d.frame} + (↑d.kern + ↑m0.free) := by
      rw [hfree, ← Multiset.cons_coe, ← Multiset.coe_add, Multiset.singleton_add]
    have hend : ∀ m2 : Ram, m2.free = [] →
        Ram.copyuvmLoop src sz (sz / PGSIZE + 1) d m0 0 = .ok (none, d1, m2) →
        copyuvm src sz free = .ok (none, free') := fun m2 hnil hloop => by
      have hloop' := Ram.copyuvmLoop_forget src sz (sz / PGSIZE + 1) d m0 0
      rw [hloop] at hloop'
      simp only [copyuvm, hbase, ← hloop', Except.map, ok_bind, hnil, hfreevm]
      rfl
    rw [hfills.moves.frame, hfills.moves.kern] at hsum
    rcases hres with ⟨rfl, -⟩ | ⟨-, hnil, hloop⟩ | ⟨-, hmod, mem, p, hmem, hloop⟩
    · omega
    · rw [hnil, length_nil] at hcount1
      refine ⟨free', 0, hend _ hnil hloop, ?_, ?_⟩
      · rw [hnil] at hpages
        rw [add_zero, hsum, hall, ← hpages]
        abel
      · simp only [true_iff]
        exact .inr ⟨hlen, fun t => by omega⟩
    · rw [hmem, length_singleton] at hcount1
      refine ⟨free', {mem}, hend _ rfl hloop, ?_, ?_⟩
      · rw [hmem] at hpages
        rw [hsum, hall, ← hpages, Multiset.coe_singleton, Multiset.coe_nil]
        abel
      · simp only [Multiset.singleton_ne_zero, false_iff, not_or, not_and, not_forall, not_not]
        exact ⟨fun h => by simp [h] at hlen, fun _ => ⟨j / 1024, by omega⟩⟩
  · have hset : setupkvm free = (none, []) := by
      cases free with
      | nil => rfl
      | cons f free => exact if_neg fun h => hlen (by rw [length_cons]; omega)
    refine ⟨[], ↑free, by rw [copyuvm, hset], by simp, ?_⟩
    simp [hlen]

end Xv6
