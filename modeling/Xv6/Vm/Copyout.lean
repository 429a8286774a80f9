import Xv6.Lib.Bytes
import Xv6.Vm.Spec

/-!
# Xv6.Vm.Copyout

`copyout` writes bytes through a page directory that is not the current one.

`uva2ka` reads the entry that `walkpgdir` returns without asking whether there
is one: an address whose page table does not exist makes the kernel read through a
null pointer.
-/

namespace Xv6

open Lib Function

/-- A read through the null pointer that `walkpgdir` returns. -/
inductive Fault
  | nullPte
  deriving DecidableEq, Repr

variable {d : PgDir} {page page' : Frame → Bytes} {va n len fuel i : Nat} {p : Bytes} {e : Pte}

/-! ## The functions -/

/-- The tables of the kernel half: the memory below `PHYSTOP`, and the devices. -/
def KernelTable (i : Nat) : Prop := i < 568 ∨ 1016 ≤ i

instance (i : Nat) : Decidable (KernelTable i) := inferInstanceAs (Decidable (_ ∨ _))

/-- `uva2ka(pgdir, uva)`: the frame of a present page that is open to the user,
or 0.  The pages of the kernel half are not open to the user. -/
def uva2ka (d : PgDir) (uva : Nat) : Except Fault (Option Frame) :=
  if pdx uva < 512 then
    match d.table (pdx uva) with
    | none => .error .nullPte
    | some tab =>
      match tab.entry (ptx uva) with
      | none => .ok none
      | some e => if e.user = false then .ok none else .ok (some e.frame)
  else if KernelTable (pdx uva) then .ok none
  else .error .nullPte

/-- The loop of `copyout`, with `len` bytes left at `p`. -/
def copyoutLoop (d : PgDir) :
    Nat → (Frame → Bytes) → Nat → Bytes → Nat → Except Fault ((Frame → Bytes) × Int)
  | 0, page, _, _, _ => .ok (page, 0)
  | fuel + 1, page, va, p, len =>
    if len > 0 then do
      let va0 := va / PGSIZE * PGSIZE
      match ← uva2ka d va0 with
      | none => return (page, -1)
      | some pa0 =>
        let n := min (PGSIZE - (va - va0)) len
        let page := update page pa0 (copyTo (page pa0) (va - va0) p n)
        copyoutLoop d fuel page (uint (va0 + PGSIZE)) (fun i => p (i + n)) (len - n)
    else .ok (page, 0)

/-- `copyout(pgdir, va, p, len)`: every turn writes at least one byte. -/
def copyout (d : PgDir) (page : Frame → Bytes) (va : Nat) (p : Bytes) (len : Nat) :
    Except Fault ((Frame → Bytes) × Int) :=
  copyoutLoop d len page va p len

/-! ## What it should do -/

/-- The page of `va` is present and open to the user. -/
def Accessible (d : PgDir) (va : Nat) : Prop :=
  pdx va < 512 ∧ ∃ e, d.lookup va = some e ∧ e.user = true

/-- The page table of `va` exists. -/
def HasTable (d : PgDir) (va : Nat) : Prop :=
  if pdx va < 512 then (d.table (pdx va)).isSome else KernelTable (pdx va)

/-- Write one byte through the directory. -/
def poke (d : PgDir) (page : Frame → Bytes) (va : Nat) (b : UInt8) : Frame → Bytes :=
  match d.lookup va with
  | some e => update page e.frame (update (page e.frame) (va % PGSIZE) b)
  | none => page

/-- Write the first `n` bytes at `p` one by one. -/
def pokes (d : PgDir) (page : Frame → Bytes) (va : Nat) (p : Bytes) : Nat → Frame → Bytes
  | 0 => page
  | n + 1 => poke d (pokes d page va p n) (va + n) (p n)

/-- `copyout` returns -1, or it has written exactly the given bytes, to pages
that are present and open to the user. -/
def Safe (d : PgDir) (page : Frame → Bytes) (va : Nat) (p : Bytes) (len : Nat) : Prop :=
  ∃ page' r, copyout d page va p len = .ok (page', r) ∧
    (r = -1 ∨ r = 0 ∧ (∀ i < len, Accessible d (va + i)) ∧ page' = pokes d page va p len)

/-! ## One page -/

theorem pokes_add (d : PgDir) (page : Frame → Bytes) (va : Nat) (p : Bytes) (a b : Nat) :
    pokes d page va p (a + b) =
      pokes d (pokes d page va p a) (va + a) (fun i => p (i + a)) b := by
  induction b with
  | zero => rfl
  | succ b ih =>
    rw [← Nat.add_assoc, pokes, pokes, ih, Nat.add_assoc, Nat.add_comm b a]

theorem pokes_page (page : Frame → Bytes) (p : Bytes) (hn : va % PGSIZE + n ≤ PGSIZE)
    (he : d.pte (va / PGSIZE) = some e) :
    pokes d page va p n =
      update page e.frame (copyTo (page e.frame) (va % PGSIZE) p n) := by
  induction n with
  | zero =>
    have hid : copyTo (page e.frame) (va % PGSIZE) p 0 = page e.frame :=
      funext fun i => copyTo_outside _ _ (by omega)
    rw [pokes, hid, update_eq_self]
  | succ n ih =>
    have hdiv : (va + n) / PGSIZE = va / PGSIZE := by
      simp only [PGSIZE] at *
      omega
    have hmod : (va + n) % PGSIZE = va % PGSIZE + n := by
      simp only [PGSIZE] at *
      omega
    rw [pokes, ih (by omega), poke, PgDir.lookup_eq_pte, hdiv, he, hmod]
    simp only [update_self, update_idem]
    congr 1
    funext i
    by_cases hi : i = va % PGSIZE + n
    · rw [hi, update_self, copyTo_inside _ _ (by omega) (by omega)]
      congr 1
      omega
    · rw [update_of_ne hi]
      unfold copyTo
      simp only [show va % PGSIZE ≤ i ∧ i < va % PGSIZE + n ↔
        va % PGSIZE ≤ i ∧ i < va % PGSIZE + (n + 1) by omega]

/-- Whether an address is accessible depends on its page. -/
theorem accessible_congr {va' : Nat} (h : va' / PGSIZE = va / PGSIZE) :
    Accessible d va' ↔ Accessible d va := by
  rw [Accessible, Accessible, PgDir.lookup_eq_pte, PgDir.lookup_eq_pte, pdx_eq, pdx_eq, h]

theorem uva2ka_cases (d : PgDir) (va : Nat) :
    (uva2ka d (va / PGSIZE * PGSIZE) = .error .nullPte ∧ ¬ HasTable d va) ∨
    (uva2ka d (va / PGSIZE * PGSIZE) = .ok none ∧ HasTable d va ∧ ¬ Accessible d va) ∨
    ∃ e, uva2ka d (va / PGSIZE * PGSIZE) = .ok (some e.frame) ∧ HasTable d va ∧
      Accessible d va ∧ d.pte (va / PGSIZE) = some e := by
  have hdiv : va / PGSIZE * PGSIZE / PGSIZE = va / PGSIZE := Nat.mul_div_cancel _ (by decide)
  have hpdx : pdx (va / PGSIZE * PGSIZE) = pdx va := by rw [pdx_eq, pdx_eq, hdiv]
  have hptx : ptx (va / PGSIZE * PGSIZE) = ptx va := by rw [ptx_eq, ptx_eq, hdiv]
  rw [uva2ka, hpdx, hptx, HasTable, Accessible, PgDir.lookup_eq_pte]
  by_cases hlow : pdx va < 512
  · simp only [hlow, true_and]
    cases htab : d.table (pdx va) with
    | none => simp
    | some tab =>
      rw [PgDir.pte_of_table htab]
      cases hent : tab.entry (ptx va) with
      | none => simp [hent]
      | some e => cases huser : e.user <;> simp [hent, huser]
  · simp only [hlow, false_and]
    by_cases hkern : KernelTable (pdx va) <;> simp [hkern]

theorem Accessible.hasTable (h : Accessible d va) : HasTable d va := by
  obtain ⟨hlow, e, he, -⟩ := h
  rw [HasTable, if_pos hlow]
  cases htab : d.table (pdx va) with
  | none => simp [PgDir.lookup, htab] at he
  | some tab => rfl

/-! ## The loop -/

/-- The first address that cannot be written. -/
def Stops (d : PgDir) (va i : Nat) : Prop :=
  (∀ j < i, Accessible d (va + j)) ∧ ¬ Accessible d (va + i)

theorem accessible_append (hpage : ∀ j < n, Accessible d (va + j))
    (hrest : ∀ j < i, Accessible d (va + n + j)) :
    ∀ j < n + i, Accessible d (va + j) := fun j hj => by
  by_cases hjn : j < n
  · exact hpage j hjn
  · have hlater := hrest (j - n) (by omega)
    rwa [show va + n + (j - n) = va + j by omega] at hlater

theorem Stops.add (h : Stops d (va + n) i) (hpage : ∀ j < n, Accessible d (va + j)) :
    Stops d va (n + i) := ⟨accessible_append hpage h.1, by rw [← Nat.add_assoc]; exact h.2⟩

/-- The loop writes every byte; or it stops at an address, with -1 if that has a
page table, and otherwise with a fault. -/
theorem copyoutLoop_cases (page : Frame → Bytes) (p : Bytes) (hva : va < 2 ^ 32)
    (hfuel : len ≤ fuel) :
    (copyoutLoop d fuel page va p len = .ok (pokes d page va p len, 0) ∧
      ∀ i < len, Accessible d (va + i)) ∨
    (∃ page' i, copyoutLoop d fuel page va p len = .ok (page', -1) ∧ i < len ∧ Stops d va i ∧
      HasTable d (va + i)) ∨
    ∃ i, copyoutLoop d fuel page va p len = .error .nullPte ∧ i < len ∧ Stops d va i ∧
      ¬ HasTable d (va + i) := by
  induction fuel generalizing page va p len with
  | zero =>
    obtain rfl : len = 0 := by omega
    exact .inl ⟨rfl, fun i hi => absurd hi (Nat.not_lt_zero i)⟩
  | succ fuel ih =>
    unfold copyoutLoop
    by_cases hlen : len > 0
    · rw [if_pos hlen]
      have hstop : ¬ Accessible d va → Stops d va 0 := fun h => ⟨fun j hj => by omega, h⟩
      rcases uva2ka_cases d va with ⟨hres, hno⟩ | ⟨hres, hhas, hacc⟩ | ⟨e, hres, hhas, hacc, he⟩
      · exact .inr (.inr ⟨0, by simp only [hres]; rfl, hlen, hstop fun h => hno h.hasTable, hno⟩)
      · exact .inr (.inl ⟨page, 0, by simp only [hres]; rfl, hlen, hstop hacc, hhas⟩)
      · have hoff : va - va / PGSIZE * PGSIZE = va % PGSIZE := by
          simp only [PGSIZE]
          omega
        have hmod : va % PGSIZE < PGSIZE := Nat.mod_lt _ (by decide)
        simp only [hres, ok_bind, hoff]
        generalize hn : min (PGSIZE - va % PGSIZE) len = n
        have hone := pokes_page page p (show va % PGSIZE + n ≤ PGSIZE by omega) he
        rw [← hone]
        -- the bytes of this page are accessible
        have hpage : ∀ j < n, Accessible d (va + j) := fun j hj => by
          refine (accessible_congr ?_).mpr hacc
          simp only [PGSIZE] at *
          omega
        by_cases hlast : len = n
        · have hdone : copyoutLoop d fuel (pokes d page va p n)
              (uint (va / PGSIZE * PGSIZE + PGSIZE)) (fun i => p (i + n)) (len - n) =
              .ok (pokes d page va p n, 0) := by
            rw [hlast, Nat.sub_self]
            cases fuel <;> rfl
          exact .inl ⟨hlast ▸ hdone, hlast ▸ hpage⟩
        · -- the page lies in the user half, so the next address does not wrap around
          have hlow := hacc.1
          have hva' : va < 2 ^ 31 := by
            unfold pdx at hlow
            omega
          have hnext : uint (va / PGSIZE * PGSIZE + PGSIZE) = va + n ∧ va + n < 2 ^ 32 := by
            simp only [uint, PGSIZE] at *
            omega
          have hsplit : len = n + (len - n) := by omega
          rw [hnext.1]
          rcases ih (pokes d page va p n) (fun i => p (i + n)) hnext.2
            (show len - n ≤ fuel by omega) with ⟨h, hall⟩ | ⟨page', i, h, hi, hs, ht⟩ | ⟨i, h, hi, hs, ht⟩
          · refine .inl ⟨?_, ?_⟩
            · rw [h, ← pokes_add, ← hsplit]
            · rw [hsplit]
              exact accessible_append hpage hall
          · exact .inr (.inl ⟨page', n + i, h, by omega, hs.add hpage, by rwa [← Nat.add_assoc]⟩)
          · exact .inr (.inr ⟨n + i, h, by omega, hs.add hpage, by rwa [← Nat.add_assoc]⟩)
    · obtain rfl : len = 0 := by omega
      exact .inl ⟨rfl, fun i hi => absurd hi (Nat.not_lt_zero i)⟩

/-- **`copyout` is safe** exactly when every address up to the first one that
cannot be written has a page table. -/
theorem copyout_safe_iff (hva : va < 2 ^ 32) (d : PgDir) (page : Frame → Bytes) (p : Bytes)
    (len : Nat) : Safe d page va p len ↔
      ∀ i < len, (∀ j < i, Accessible d (va + j)) → HasTable d (va + i) := by
  have hcases := copyoutLoop_cases (d := d) page p hva (le_refl len)
  constructor
  · rintro ⟨page', r, hres, -⟩ i hi hbefore
    rcases hcases with ⟨-, hall⟩ | ⟨_, k, -, -, hstop, hhas⟩ | ⟨k, herr, -⟩
    · exact (hall i hi).hasTable
    · rcases Nat.lt_trichotomy i k with hlt | rfl | hlt
      · exact (hstop.1 i hlt).hasTable
      · exact hhas
      · exact absurd (hbefore k hlt) hstop.2
    · rw [copyout, herr] at hres
      contradiction
  · intro h
    rcases hcases with ⟨hok, hall⟩ | ⟨page', k, hok, -⟩ | ⟨k, -, hk, hstop, hno⟩
    · exact ⟨_, 0, hok, .inr ⟨rfl, hall, rfl⟩⟩
    · exact ⟨page', -1, hok, .inl rfl⟩
    · exact absurd (h k hk hstop.1) hno

/-- A directory without user pages. -/
def bareDir : PgDir := { frame := 1, kern := [], table := fun _ => none }

/-- The devices have a table, so writing there fails. -/
theorem copyout_safe_devices : Safe bareDir (fun _ _ => 0) (2 ^ 32 - 1) (fun _ => 7) 1 :=
  (copyout_safe_iff (by decide) bareDir _ _ 1).mpr fun i hi _ => by
    obtain rfl : i = 0 := by omega
    rw [HasTable, if_neg (by decide)]
    decide

/-- `sp = (sp - (strlen(arg) + 1)) & ~3` of `exec` -/
def pushArg (sp len : Nat) : Nat := uint (2 ^ 32 + sp - uint (len + 1)) / 4 * 4

/-- An argument of 48 megabytes below a stack at two pages: the address has
wrapped around to where no directory has a table. -/
theorem not_safe_longArgument :
    pushArg 8192 (48 * 2 ^ 20) = 0xFD001FFC ∧
      copyout bareDir (fun _ _ => 0) 0xFD001FFC (fun _ => 7) (48 * 2 ^ 20 + 1) = .error .nullPte ∧
      ¬ Safe bareDir (fun _ _ => 0) 0xFD001FFC (fun _ => 7) (48 * 2 ^ 20 + 1) := by
  have hfault : copyout bareDir (fun _ _ => 0) 0xFD001FFC (fun _ => 7) (48 * 2 ^ 20 + 1) =
      .error .nullPte := by
    rw [copyout, copyoutLoop, if_pos (Nat.succ_pos _)]
    rfl
  refine ⟨by decide, hfault, ?_⟩
  rintro ⟨page', r, hres, -⟩
  rw [hfault] at hres
  contradiction

end Xv6
