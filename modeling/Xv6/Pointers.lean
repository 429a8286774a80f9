import Xv6.Mapped

/-!
# Xv6.Pointers

The checks on user pointers (`syscall.c`), and whether the threads of one
address space agree on them.

Every check compares with the `sz` of the caller's own entry, and `thread_create`
gives the new thread and its creator two different sizes.
-/

namespace Xv6

open Lib Function

/-! ## The checks -/

/-- The bytes of a user address space. -/
abbrev UserMem : Type := Nat → UInt8

/-- The little-endian `int` at `addr`. -/
def UserMem.word (mem : UserMem) (addr : Nat) : Nat :=
  (mem addr).toNat + 2 ^ 8 * (mem (addr + 1)).toNat + 2 ^ 16 * (mem (addr + 2)).toNat +
    2 ^ 24 * (mem (addr + 3)).toNat

namespace Kernel

variable (s : Kernel) (c : Slot) (mem : UserMem)

/-- `fetchint(addr, ip)`: the `int` stored through `ip`, or `none` for `-1`. -/
def fetchint (addr : Nat) : Option Nat :=
  if addr ≥ (s.proc c).sz ∨ uint (addr + 4) > (s.proc c).sz then none else some (mem.word addr)

/-- The loop of `fetchstr`: the first of `n` bytes from `p` on that is zero. -/
def fetchstrLoop : Nat → Nat → Option Nat
  | 0, _ => none
  | n + 1, p => if mem p = 0 then some p else fetchstrLoop n (p + 1)

/-- `fetchstr(addr, pp)`: the length of the string, or `none` for `-1`. -/
def fetchstr (addr : Nat) : Option Nat :=
  if addr ≥ (s.proc c).sz then none
  else (fetchstrLoop mem ((s.proc c).sz - addr) addr).map (· - addr)

/-- `argint(n, ip)` with the saved stack pointer `esp`. -/
def argint (esp n : Nat) : Option Nat := s.fetchint c mem (uint (esp + 4 + 4 * n))

/-- The check of `argptr` on the pointer `i` it has fetched. -/
def argptrCheck (i : Nat) (size : Int32) : Option Nat :=
  if size < 0 ∨ i ≥ (s.proc c).sz ∨ uint (i + size.toNatClampNeg) > (s.proc c).sz then none
  else some i

/-- `argptr(n, pp, size)`: the pointer stored through `pp`, or `none` for `-1`. -/
def argptr (esp n : Nat) (size : Int32) : Option Nat := do
  let i ← s.argint c mem esp n
  s.argptrCheck c i size

/-! ## Agreement -/

/-- A process that can make system calls. -/
def Alive : Prop :=
  (s.proc c).state = .sleeping ∨ (s.proc c).state = .runnable ∨ (s.proc c).state = .running

/-- The threads of one address space accept the same pointers. -/
def AgreeOnPointers : Prop :=
  ∀ p q, s.Alive p → s.Alive q → ∀ g, (s.proc p).pgdir = some g → (s.proc q).pgdir = some g →
    ∀ mem : UserMem,
      (∀ i size, (s.argptrCheck p i size).isSome ↔ (s.argptrCheck q i size).isSome) ∧
      (∀ addr, (s.fetchint p mem addr).isSome ↔ (s.fetchint q mem addr).isSome) ∧
      (∀ addr, (s.fetchstr p mem addr).isSome ↔ (s.fetchstr q mem addr).isSome)

variable {s c}

theorem alive_iff_book : s.Alive c ↔ (s.book.entry c).state = .runnable := by
  simp only [Alive, book_entry, Proc.entry]
  cases (s.proc c).state <;> simp [ProcState.settled]

theorem Alive.live_book (h : s.Alive c) : s.book.Live c := by
  rw [Book.Live, alive_iff_book.mp h]
  simp

/-- An empty block at `i` is accepted when `i` is below the size. -/
theorem argptrCheck_zero_isSome {i : Nat} (hi : i < 2 ^ 32) :
    (s.argptrCheck c i 0).isSome ↔ i < (s.proc c).sz := by
  have hzero : (0 : Int32).toNatClampNeg = 0 := by decide
  have hwrap : uint (i + (0 : Int32).toNatClampNeg) = i := by
    rw [hzero, Nat.add_zero, uint, Nat.mod_eq_of_lt hi]
  unfold argptrCheck
  rw [hwrap]
  simp only [Int32.lt_irrefl, false_or]
  split <;> simp <;> omega

/-- Two sizes that the checks cannot tell apart are equal. -/
theorem sz_eq_of_argptrCheck {p q : Slot} (hp : (s.proc p).sz < 2 ^ 32)
    (hq : (s.proc q).sz < 2 ^ 32)
    (h : ∀ i, (s.argptrCheck p i 0).isSome ↔ (s.argptrCheck q i 0).isSome) :
    (s.proc p).sz = (s.proc q).sz := by
  have hpq := h (s.proc p).sz
  have hqp := h (s.proc q).sz
  rw [argptrCheck_zero_isSome hp, argptrCheck_zero_isSome hp] at hpq
  rw [argptrCheck_zero_isSome hq, argptrCheck_zero_isSome hq] at hqp
  omega

/-- Where every address space has one user, there is nothing to agree on. -/
theorem agreeOnPointers_of_unique
    (h : ∀ p q, s.Alive p → s.Alive q → (s.proc p).pgdir = (s.proc q).pgdir → p = q) :
    s.AgreeOnPointers := by
  intro p q hp hq g hgp hgq mem
  have hpq : p = q := h p q hp hq (hgp.trans hgq.symm)
  subst hpq
  exact ⟨fun _ _ => Iff.rfl, fun _ => Iff.rfl, fun _ => Iff.rfl⟩

theorem agreeOnPointers_of_solo (h : s.book.Solo) : s.AgreeOnPointers :=
  agreeOnPointers_of_unique fun _ _ hp hq hpq =>
    (h.eq_of_pgdir hq.live_book hp.live_book hpq)

/-- A thread and its creator disagree right after `thread_create`. -/
theorem not_agreeOnPointers_of_sz {p q : Slot} {g : PgdirId} {r : Nat} (hp : s.Alive p)
    (hq : s.Alive q) (hgp : (s.proc p).pgdir = some g) (hgq : (s.proc q).pgdir = some g)
    (hr : r < 2 ^ 32) (hszp : (s.proc p).sz = r)
    (hszq : (s.proc q).sz = uint (r + PGSIZE * (1024 - 2))) : ¬ s.AgreeOnPointers := by
  intro h
  have hlt : (s.proc q).sz < 2 ^ 32 := by
    rw [hszq, uint]
    omega
  have heq := sz_eq_of_argptrCheck (hszp ▸ hr) hlt
    fun i => (h p q hp hq g hgp hgq fun _ => 0).1 i 0
  rw [hszp, hszq] at heq
  simp only [uint, PGSIZE] at heq
  omega

/-! ## Creating a thread -/

theorem pgRoundUp_lt (sz : Nat) : pgRoundUp sz < 2 ^ 32 := by
  simp only [pgRoundUp, uint, PGSIZE]
  omega

theorem allocuvm_lt {d d' : PgDir} {free free' : List Frame} {oldsz newsz r : Nat}
    (hold : oldsz < 2 ^ 32) (hnew : newsz < 2 ^ 32)
    (h : allocuvm d free oldsz newsz = .ok (d', free', r)) : r < 2 ^ 32 := by
  rcases allocuvm_pte h with ⟨rfl, -⟩ | ⟨rfl, -⟩ | ⟨rfl, -⟩
  · exact Nat.two_pow_pos 32
  · exact hold
  · exact hnew

/-- A new thread and its creator `c` have different sizes. -/
theorem not_agreeOnPointers_of_stacked {s' : Kernel} {np : Slot} {i : Fin NPROC} {tid : Int}
    {g : PgdirId} {d d' : PgDir} {free free' : List Frame} {top : Nat}
    (hc : (s.proc c).state = .running) (hcn : c ≠ np) (hg : (s.proc c).pgdir = some g)
    (hb : s'.book = s.book.share c np i .runnable tid)
    (halloc : allocuvm (s.pgdirs g) free (pgRoundUp (s.proc c).sz)
      (uint (pgRoundUp (s.proc c).sz + 2 * PGSIZE)) = .ok (d, free', top))
    (hl : s'.layout =
      { sz := update (update s.layout.sz np top) c
          (uint (top + PGSIZE * (1024 - 2)))
        pgdirs := update s.pgdirs g d' }) :
    s'.Alive np ∧ ¬ s'.AgreeOnPointers := by
  have hsame : s'.book.entry c = s.book.entry c := by
    rw [hb]
    exact Book.set_entry_of_ne _ _ hcn
  have hnew : (s'.book.entry np).state = .runnable ∧
      (s'.book.entry np).pgdir = (s.book.entry c).pgdir := by
    rw [hb, Book.share, Book.set_entry_same]
    exact ⟨rfl, rfl⟩
  have halive : s'.Alive np := alive_iff_book.mpr hnew.1
  refine ⟨halive, not_agreeOnPointers_of_sz halive ?_ (hnew.2.trans hg)
    ((congrArg Entry.pgdir hsame).trans hg) (allocuvm_lt (pgRoundUp_lt _) ?_ halloc) ?_ ?_⟩
  · rw [alive_iff_book, hsame]
    exact state_book_running hc
  · exact Nat.mod_lt _ (Nat.two_pow_pos 32)
  · have hz := congrFun (congrArg Layout.sz hl) np
    simpa only [layout_sz, update_of_ne hcn.symm, update_self] using hz
  · have hz := congrFun (congrArg Layout.sz hl) c
    simpa only [layout_sz, update_self] using hz

/-- `thread_create` in a system without threads leaves the processes in
agreement exactly when it creates no thread. -/
theorem agreeOnPointers_threadCreate {s' : Kernel} (hs : s.book.Solo)
    (hn : s.next (.call c .threadCreate) = some s') :
    s'.AgreeOnPointers ↔ ∀ p, s'.Alive p → s.Live p := by
  -- nobody new, nobody to disagree with
  have hold : (∀ p, s'.Alive p → s'.book.entry p = s.book.entry p) →
      (s'.AgreeOnPointers ↔ ∀ p, s'.Alive p → s.Live p) := by
    intro he
    have halive : ∀ p, s'.Alive p → s.book.Live p := fun p hp => by
      rw [Book.Live, ← he p hp]
      exact hp.live_book
    refine ⟨fun _ p hp => (live_book s p).mp (halive p hp), fun _ => ?_⟩
    refine agreeOnPointers_of_unique fun p q hp hq hpq => ?_
    refine hs.eq_of_pgdir (halive q hq) (halive p hp) ?_
    rw [← he p hp, ← he q hq]
    exact hpq
  cases step_of_next hn with
  | quiet hb => exact hold fun p _ => by rw [hb]
  | @retract _ _ np g hnp hb =>
    refine hold fun p hp => ?_
    have hpn : p ≠ np := by
      rintro rfl
      have hst := alive_iff_book.mp hp
      rw [hb, Book.retract, Book.set_entry_same] at hst
      exact absurd (hst.symm.trans (not_not.mp (not_live_book hnp))) (by simp)
    rw [hb]
    exact Book.set_entry_of_ne _ _ hpn
  | @threadCreate _ _ np i g d free free' top ok hc hnp hi hb hcount hg halloc hstack =>
    rcases hstack with ⟨-, rfl, -⟩ | ⟨-, rfl, d', -, hl⟩
    · -- the new entry stays `EMBRYO`
      refine hold fun p hp => ?_
      have hpn : p ≠ np := by
        rintro rfl
        have hst := alive_iff_book.mp hp
        rw [hb, Book.share, Book.set_entry_same] at hst
        simp at hst
      rw [hb]
      exact Book.set_entry_of_ne _ _ hpn
    · have hcn : c ≠ np := by
        rintro rfl
        exact absurd (hc.symm.trans hnp) (by simp)
      obtain ⟨halive, hbad⟩ := not_agreeOnPointers_of_stacked hc hcn hg hb halloc hl
      exact ⟨fun h => absurd h hbad, fun h => absurd hnp (h np halive)⟩

/-! ## The result -/

/-- **Threads and pointers.**  The processes agree on user pointers as long as
no `thread_create` is called, and the first one leaves them in agreement
exactly when it creates no thread. -/
theorem agreeOnPointers_of_noThreadCreate (h : ReachableBy NoThreadCreate s) :
    s.AgreeOnPointers ∧ ∀ c s', s.next (.call c .threadCreate) = some s' →
      (s'.AgreeOnPointers ↔ ∀ p, s'.Alive p → s.Live p) := by
  have hsolo := solo_of_reachable h
  exact ⟨agreeOnPointers_of_solo hsolo, fun _ _ hn => agreeOnPointers_threadCreate hsolo hn⟩

/-- A process that init has forked, next to init. -/
theorem agreeOnPointers_forked :
    ∃ s : Kernel, ReachableBy NoThreadCreate s ∧ s.Live 0 ∧ s.Live 1 ∧ s.AgreeOnPointers := by
  obtain ⟨s, hr, hs⟩ := exists_reachableBy NoThreadCreate (P := fun s => s.Live 0 ∧ s.Live 1)
    (List.range' 1 400) (fun _ => false) smallProgram forked
    (by simp [forked, NoThreadCreate]) (by decide +kernel)
  exact ⟨s, hr, hs.1, hs.2, (agreeOnPointers_of_noThreadCreate hr).1⟩

/-- Init and the thread it has created, in entry 1: an address above the stack
of the thread is accepted from init only. -/
theorem not_agreeOnPointers_created :
    ∃ s : Kernel, s.Reachable ∧ (s.proc 0).pgdir = some 1 ∧ (s.proc 1).pgdir = some 1 ∧
      s.argptrCheck 0 0x5000 4 = some 0x5000 ∧ s.argptrCheck 1 0x5000 4 = none ∧
      ¬ s.AgreeOnPointers := by
  obtain ⟨s, hr, h0, h1, hg0, hg1, hc0, hc1⟩ := exists_reachableBy (fun _ _ => True)
    (P := fun s => (s.proc 0).state = .running ∧ (s.proc 1).state = .runnable ∧
      (s.proc 0).pgdir = some 1 ∧ (s.proc 1).pgdir = some 1 ∧
      s.argptrCheck 0 0x5000 4 = some 0x5000 ∧ s.argptrCheck 1 0x5000 4 = none)
    (List.range' 1 400) (fun _ => false) smallProgram created
    (fun _ _ _ => trivial) (by decide +kernel)
  refine ⟨s, hr, hg0, hg1, hc0, hc1, fun h => ?_⟩
  have hiff := (h 0 1 (.inr (.inr h0)) (.inr (.inl h1)) 1 hg0 hg1 fun _ => 0).1 0x5000 4
  rw [hc0, hc1] at hiff
  simp at hiff

/-! ## What is accepted is mapped -/

variable {mem : UserMem}

theorem fetchstrLoop_eq_some {n p q : Nat} (h : fetchstrLoop mem n p = some q) :
    p ≤ q ∧ q < p + n ∧ mem q = 0 ∧ ∀ k, p ≤ k → k < q → mem k ≠ 0 := by
  induction n generalizing p with
  | zero => contradiction
  | succ n ih =>
    unfold fetchstrLoop at h
    split at h
    · grind
    · obtain ⟨hle, hlt, hzero, hall⟩ := ih h
      refine ⟨by omega, by omega, hzero, fun k hk => ?_⟩
      rcases Nat.eq_or_lt_of_le hk with rfl | hk
      · exact fun _ => ‹_›
      · exact hall k hk

/-- **The kernel can use what it accepts**: where every page below the sizes is mapped, so are the
bytes of every `int`, string and block that the checks let through. -/
theorem accepted_present {p : Slot} (h : ReachableBy KeepsMapped s) (hp : s.Live p)
    (mem : UserMem) :
    ∃ g, (s.proc p).pgdir = some g ∧
      (∀ addr v, s.fetchint p mem addr = some v → ∀ k < 4, (s.pgdirs g).Present (addr + k)) ∧
      (∀ addr n, s.fetchstr p mem addr = some n → mem (addr + n) = 0 ∧
        (∀ k < n, mem (addr + k) ≠ 0) ∧ ∀ k ≤ n, (s.pgdirs g).Present (addr + k)) ∧
      ∀ esp n size i, s.argptr p mem esp n size = some i → ∀ k < size.toNatClampNeg,
        (s.pgdirs g).Present (i + k) := by
  have hs : s.NoHoles := h.inv NoHoles (fun _ => .of_started) fun _ _ _ hs hg hn => hs.next hg hn
  obtain ⟨g, hg, hfilled, hle⟩ := hs.mapped p ((live_book s p).mpr hp)
  simp only [layout_sz, KERNBASE] at hle
  have hpresent : ∀ va < (s.proc p).sz, (s.pgdirs g).Present va := fun va hva =>
    hfilled.present (by omega) hva
  refine ⟨g, hg, fun addr v hv k hk => ?_, fun addr n hn => ?_, fun esp n size i hi k hk => ?_⟩
  · unfold fetchint uint at hv
    split at hv
    · contradiction
    · exact hpresent _ (by omega)
  · unfold fetchstr at hn
    split at hn
    · contradiction
    · obtain ⟨q, hq, rfl⟩ := Option.map_eq_some_iff.mp hn
      obtain ⟨hpq, hlt, hzero, hall⟩ := fetchstrLoop_eq_some hq
      rw [Nat.add_sub_cancel' hpq]
      exact ⟨hzero, fun k hk => hall _ (by omega) (by omega), fun k hk => hpresent _ (by omega)⟩
  · obtain ⟨j, -, hj⟩ := Option.bind_eq_some_iff.mp hi
    -- `i + size` does not wrap, because both are below `2 ^ 31`
    have hsize := size.toNatClampNeg_lt
    unfold argptrCheck uint at hj
    split at hj
    · contradiction
    · cases hj
      exact hpresent _ (by omega)

/-- The child of init passes a string of three bytes at the top of its memory. -/
theorem accepted_present_forked :
    ∃ s : Kernel, ReachableBy KeepsMapped s ∧ s.Live 1 ∧
      s.fetchstr 1 (fun va => if va = 0x2fff then 0 else 1) 0x2ffc = some 3 ∧
      ∃ g, (s.proc 1).pgdir = some g ∧ ∀ k ≤ 3, (s.pgdirs g).Present (0x2ffc + k) := by
  obtain ⟨s, hr, hlive, hstr⟩ := exists_reachableBy KeepsMapped
    (P := fun s => s.Live 1 ∧
      s.fetchstr 1 (fun va => if va = 0x2fff then 0 else 1) 0x2ffc = some 3)
    (List.range' 1 400) (fun _ => false) smallProgram forked
    (by simp [forked, KeepsMapped]) (by decide +kernel)
  obtain ⟨g, hg, -, hmapped, -⟩ := accepted_present hr hlive _
  exact ⟨s, hr, hlive, hstr, g, hg, (hmapped _ _ hstr).2.2⟩

end Kernel
end Xv6
