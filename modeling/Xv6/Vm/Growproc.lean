import Xv6.Process
import Xv6.Vm.Ram

/-!
# Xv6.Vm.Growproc

The contract of `growproc(n)`: a process whose pages are those below its size
grows or shrinks by exactly `n`, or nothing happens.

Zero is the error value of `allocuvm` and `deallocuvm`, and the new size is
computed on `uint`s: shrinking to nothing unmaps every page and reports a failure,
and shrinking below zero does nothing and reports success.
-/

namespace Xv6

open Lib

/-- The memory of a process: its page directory, its size, and the pages of
the machine. -/
structure Space where
  pgdir : PgDir
  sz : Nat
  ram : Ram

namespace Space

/-- `growproc(n)` -/
def growproc (s : Space) (n : Int) : Except Panic (Space × Int) :=
  let newsz := ((s.sz + n) % 2 ^ 32).toNat
  if n > 0 then do
    let (d, m, r) ← Ram.allocuvm s.pgdir s.ram s.sz newsz
    if r = 0 then return ({ s with pgdir := d, ram := m }, -1)
    else return ({ pgdir := d, sz := r, ram := m }, 0)
  else if n < 0 then do
    let (d, m, r) ← Ram.deallocuvm s.pgdir s.ram s.sz newsz
    if r = 0 then return ({ s with pgdir := d, ram := m }, -1)
    else return ({ pgdir := d, sz := r, ram := m }, 0)
  else .ok (s, 0)

/-- The call on a process of the table does to its memory what it does here. -/
theorem growproc_forget (k : Kernel) (c : Slot) (g : PgdirId) (page : Frame → Bytes) (n : Int)
    (hg : (k.proc c).pgdir = some g) :
    (k.growproc c n).map (fun x => (x.1.pgdirs g, (x.1.proc c).sz, x.1.freelist, x.2)) =
      (growproc ⟨k.pgdirs g, (k.proc c).sz, ⟨k.freelist, page⟩⟩ n).map
        fun x => (x.1.pgdir, x.1.sz, x.1.ram.free, x.2) := by
  unfold Kernel.growproc growproc
  simp only [hg]
  split
  · rw [← Ram.allocuvm_forget (k.pgdirs g) ⟨k.freelist, page⟩]
    rcases Ram.allocuvm _ _ _ _ with _ | ⟨d, m, r⟩
    · rfl
    · by_cases hr : r = 0 <;> simp [Except.map, hr, Kernel.upd, Kernel.proc, PTable.setProc]
  · split
    · rw [← Ram.deallocuvm_forget (k.pgdirs g) ⟨k.freelist, page⟩]
      rcases Ram.deallocuvm _ _ _ _ with _ | ⟨d, m, r⟩
      · rfl
      · by_cases hr : r = 0 <;> simp [Except.map, hr, Kernel.upd, Kernel.proc, PTable.setProc]
    · rfl

/-- The bytes of page `k`, if it is mapped. -/
def bytes (s : Space) (k : Nat) : Option Bytes := (s.pgdir.pte k).map fun e => s.ram.page e.frame

/-- A process whose pages are those below its size, each in a frame of its own. -/
structure Sound (s : Space) : Prop where
  exact : Exact s.pgdir s.sz
  small : s.sz < KERNBASE
  once : ∀ f, (s.pgdir.users + ↑s.ram.free).count f ≤ 1
  noNull : 0 ∉ s.pgdir.users + ↑s.ram.free

/-- `growproc(n)` returns 0 with the size changed by `n`, the pages below the
new size mapped, old bytes kept and new pages zero; or it returns -1 with
nothing changed. -/
def Grows (s : Space) (n : Int) : Prop :=
  ∃ s' ret, s.growproc n = .ok (s', ret) ∧
    (ret = 0 ∧ (s'.sz : Int) = s.sz + n ∧ Exact s'.pgdir s'.sz ∧
        (∀ k, k * PGSIZE < min s.sz s'.sz →
          s'.pgdir.pte k = s.pgdir.pte k ∧ s'.bytes k = s.bytes k) ∧
        (∀ k, s.sz ≤ k * PGSIZE → k * PGSIZE < s'.sz → s'.bytes k = some fun _ => 0) ∨
      ret = -1 ∧ s'.sz = s.sz ∧
        ∀ k < 2 ^ 20, s'.pgdir.pte k = s.pgdir.pte k ∧ s'.bytes k = s.bytes k)

variable {s s' : Space} {n : Int} {k newsz : Nat} {d : PgDir} {m : Ram}

theorem bytes_eq (hpte : s'.pgdir.pte k = s.pgdir.pte k)
    (hpage : ∀ e, s.pgdir.pte k = some e → s'.ram.page e.frame = s.ram.page e.frame) :
    s'.bytes k = s.bytes k := by
  rw [bytes, bytes, hpte]
  cases he : s.pgdir.pte k with
  | none => rfl
  | some e => simp [hpage e he]

namespace Sound

section

variable (hs : s.Sound)
include hs

theorem nodup : (s.pgdir.users + ↑s.ram.free).Nodup :=
  Multiset.nodup_iff_count_le_one.mpr hs.once

theorem frame_notMem {e : Pte} (hk : k < 2 ^ 19) (he : s.pgdir.pte k = some e) :
    e.frame ∉ s.ram.free := fun hmem =>
  Multiset.disjoint_left.mp (Multiset.nodup_add.mp hs.nodup).2.2 (PgDir.frame_mem_users hk he)
    (Multiset.mem_coe.mpr hmem)

theorem lt_of_pte {e : Pte} (hk : k < 2 ^ 20) (he : s.pgdir.pte k = some e) : k < 2 ^ 19 := by
  by_contra hge
  have hsmall := hs.small
  have hbare := hs.exact.bare k hk (by simp only [PGSIZE, KERNBASE] at *; omega)
  rw [hbare] at he
  contradiction

theorem grow (hn : 0 < n) (hnew : ((s.sz + n) % 2 ^ 32).toNat = newsz)
    (hsz : (newsz : Int) = s.sz + n) (hlt : newsz < KERNBASE) : s.Grows n := by
  obtain ⟨d, m, r, hres, hcase⟩ := Ram.allocuvm_fills (d := s.pgdir) (m := s.ram)
    (show s.sz ≤ newsz by omega) hlt
    (Multiset.coe_nodup.mp (Multiset.nodup_add.mp hs.nodup).2.1)
    (fun h => hs.noNull (Multiset.mem_add.mpr (.inr (Multiset.mem_coe.mpr h))))
    (fun k hk => hs.exact.bare k (by have := hk.2; simp only [PGSIZE, KERNBASE] at *; omega)
      (by have := hk.1; simp only [PGSIZE] at *; omega))
  unfold Grows growproc
  rw [if_pos hn]
  simp only [hnew, hres, ok_bind]
  rcases hcase with ⟨-, rfl, j, hj, hfills⟩ | ⟨-, rfl, hpte, hmoves, hkept⟩
  · have hbelow : ∀ k, k * PGSIZE < s.sz → d.pte k = s.pgdir.pte k := fun k hk => by
      refine hfills.outside k ?_ ?_ <;> simp only [PGSIZE, KERNBASE] at * <;> omega
    rw [if_neg (by omega)]
    refine ⟨_, _, rfl, .inl ⟨rfl, hsz, ⟨fun k hk hlt' => ?_, fun k hk (hle : r ≤ k * PGSIZE) => ?_⟩,
      fun k hk => ?_, fun k hle hlt' => ?_⟩⟩
    · by_cases hold : k * PGSIZE < s.sz
      · rw [hbelow k hold]
        exact hs.exact.filled k hk hold
      have hk' : (s.sz + 4095) / PGSIZE ≤ k := by
        simp only [PGSIZE] at *
        omega
      obtain ⟨e, he, -⟩ := hfills.inside k hk' ((hj k hk').mpr hlt')
      simp [he]
    · rw [hfills.outside k hk fun h => by have := (hj k h.1).mp h.2; omega]
      exact hs.exact.bare k hk (by omega)
    · have hold := hk.trans_le (min_le_left _ _)
      refine ⟨hbelow k hold, bytes_eq (hbelow k hold) fun e he => hfills.kept _ ?_⟩
      have hsmall := hs.small
      exact hs.frame_notMem (by simp only [PGSIZE, KERNBASE] at *; omega) he
    · have hk' : (s.sz + 4095) / PGSIZE ≤ k := by
        simp only [PGSIZE] at *
        omega
      obtain ⟨e, he, hfresh, -⟩ := hfills.inside k hk' ((hj k hk').mpr hlt')
      simp [bytes, he, hfresh.2.2]
  · -- the pages of the process are neither on the old nor on the new free list
    obtain ⟨t, -, hfree⟩ := hmoves.free_eq hpte
    refine ⟨_, _, rfl, .inr ⟨rfl, rfl, fun k hk => ⟨hpte k hk, bytes_eq (hpte k hk) fun e he => ?_⟩⟩⟩
    have hnot := hs.frame_notMem (hs.lt_of_pte hk he) he
    refine hkept _ hnot fun hmem => hnot ?_
    rw [← Multiset.mem_coe, hfree, Multiset.mem_add]
    exact .inl (Multiset.mem_coe.mpr hmem)

theorem dealloc (hlt : newsz < s.sz) :
    ∃ d m, Ram.deallocuvm s.pgdir s.ram s.sz newsz = .ok (d, m, newsz) ∧
      (∀ k < 2 ^ 20, d.pte k =
        if InRange ((newsz + 4095) / PGSIZE) s.sz k then none else s.pgdir.pte k) ∧
      ∀ k e, k < 2 ^ 19 → d.pte k = some e → m.page e.frame = s.ram.page e.frame := by
  have hsmall := hs.small
  have hframe : ∀ k, InRange ((newsz + 4095) / PGSIZE) s.sz k → ∀ e, s.pgdir.pte k = some e →
      e.frame ≠ 0 := fun k hk e he hzero => hs.noNull (Multiset.mem_add.mpr (.inl (hzero ▸
    PgDir.frame_mem_users (by have := hk.2; simp only [PGSIZE, KERNBASE] at *; omega) he)))
  obtain ⟨d, hbase, hpte⟩ := deallocuvm_frames hs.small.le s.ram.free hframe
  have hforget := Ram.deallocuvm_forget s.pgdir s.ram s.sz newsz
  rw [hbase] at hforget
  obtain ⟨⟨d2, m, r⟩, hram, heq⟩ := map_eq_ok.mp hforget
  rw [← heq] at hbase
  obtain rfl : d2 = d := congrArg Prod.fst heq
  obtain rfl : r = newsz := by
    have hr : r = min s.sz newsz := congrArg (fun x => x.2.2) heq
    omega
  refine ⟨d2, m, hram, hpte, fun k e hk he => (Ram.deallocuvm_frees hram).kept _ fun hmem => ?_⟩
  -- the frames still mapped and those on the new free list are all different
  obtain ⟨hpages, ⟨t, ht⟩, -, -⟩ := deallocuvm_moves hs.small.le hbase
  have hsplit : d2.users + ↑m.free + t = s.pgdir.users + ↑s.ram.free := by
    refine add_left_cancel (a := s.pgdir.tabs) ?_
    rw [ht, add_zero] at hpages
    calc s.pgdir.tabs + (d2.users + ↑m.free + t)
        = d2.users + (s.pgdir.tabs + t) + ↑m.free := by abel
      _ = s.pgdir.users + s.pgdir.tabs + ↑s.ram.free := hpages
      _ = s.pgdir.tabs + (s.pgdir.users + ↑s.ram.free) := by abel
  have hnodup := (Multiset.nodup_add.mp (hsplit ▸ hs.nodup)).1
  exact Multiset.disjoint_left.mp (Multiset.nodup_add.mp hnodup).2.2 (PgDir.frame_mem_users hk he)
    (Multiset.mem_coe.mpr hmem)

theorem shrink (hn : n < 0) (hpos : 0 < s.sz + n) : s.Grows n := by
  obtain ⟨newsz, hsz⟩ : ∃ k : Nat, (k : Int) = s.sz + n := ⟨(s.sz + n).toNat, by omega⟩
  have hsmall := hs.small
  have hnew : ((s.sz + n) % 2 ^ 32).toNat = newsz := by
    simp only [KERNBASE] at hsmall
    omega
  obtain ⟨d, m, hres, hpte, hkept⟩ := hs.dealloc (show newsz < s.sz by omega)
  have hbelow : ∀ k, k * PGSIZE < newsz → d.pte k = s.pgdir.pte k := fun k hk => by
    rw [hpte k (by simp only [PGSIZE, KERNBASE] at *; omega), if_neg fun h => ?_]
    have := h.1
    simp only [PGSIZE] at *
    omega
  unfold Grows growproc
  rw [if_neg (by omega), if_pos hn]
  simp only [hnew, hres, ok_bind]
  rw [if_neg (by omega)]
  refine ⟨_, _, rfl, .inl ⟨rfl, hsz, ⟨fun k hk (hlt : k * PGSIZE < newsz) => ?_,
    fun k hk (hle : newsz ≤ k * PGSIZE) => ?_⟩, fun k hk => ?_,
    fun k _ (hlt : k * PGSIZE < newsz) => by omega⟩⟩
  · rw [hbelow k hlt]
    exact hs.exact.filled k hk (by omega)
  · rw [hpte k hk]
    split
    · rfl
    next hout =>
    refine hs.exact.bare k hk (not_lt.mp fun hlt => hout ⟨?_, hlt⟩)
    simp only [PGSIZE] at *
    omega
  · have hlt := hk.trans_le (min_le_right _ _)
    refine ⟨hbelow k hlt, bytes_eq (hbelow k hlt) fun e he => hkept k e ?_
      ((hbelow k hlt).trans he)⟩
    simp only [PGSIZE, KERNBASE] at *
    omega

/-- Shrinking by all of the memory or by more breaks the contract. -/
theorem not_grows (hn : -2 ^ 31 ≤ n) (hneg : s.sz + n ≤ 0) (hsz : 0 < s.sz) : ¬ s.Grows n := by
  have hsmall := hs.small
  simp only [KERNBASE] at hsmall
  rintro ⟨s', ret, hres, hcase⟩
  unfold growproc at hres
  rw [if_neg (by omega), if_pos (by omega)] at hres
  by_cases hzero : s.sz + n = 0
  · -- every page is unmapped, and the new size 0 is taken for an error
    have hnew : ((s.sz + n) % 2 ^ 32).toNat = 0 := by omega
    obtain ⟨d, m, hd, hpte, -⟩ := hs.dealloc hsz
    simp only [hnew, hd, ok_bind, if_true] at hres
    cases hres
    rcases hcase with ⟨hret, -⟩ | ⟨-, -, hsame⟩
    · contradiction
    have hpos : 0 * PGSIZE < s.sz := by
      rw [Nat.zero_mul]
      exact hsz
    have hfirst := hs.exact.filled 0 (Nat.two_pow_pos 20) hpos
    rw [← (hsame 0 (Nat.two_pow_pos 20)).1, hpte 0 (Nat.two_pow_pos 20),
      if_pos ⟨by decide, hpos⟩] at hfirst
    contradiction
  · -- the new size has wrapped around
    have hnew : ((s.sz + n) % 2 ^ 32).toNat ≥ s.sz := by omega
    rw [Ram.deallocuvm, if_pos hnew] at hres
    simp only [ok_bind] at hres
    rw [if_neg hsz.ne'] at hres
    cases hres
    rcases hcase with ⟨-, hsame, -⟩ | ⟨hret, -⟩
    · simp only at hsame
      omega
    · contradiction

end

end Sound

/-- **The contract of `growproc`** holds exactly for a process that does not
shrink, keeps some memory, or has none. -/
theorem grows_iff (hs : s.Sound) (hn : -2 ^ 31 ≤ n ∧ n < 2 ^ 31) :
    s.Grows n ↔ 0 ≤ n ∨ 0 < s.sz + n ∨ s.sz = 0 := by
  have hsmall := hs.small
  simp only [KERNBASE] at hsmall
  constructor
  · intro h
    by_contra hcon
    exact hs.not_grows hn.1 (by omega) (by omega) h
  · intro h
    rcases lt_trichotomy n 0 with hneg | rfl | hpos
    · by_cases hpos : 0 < s.sz + n
      · exact hs.shrink hneg hpos
      have hsz : s.sz = 0 := by omega
      unfold Grows growproc Ram.deallocuvm
      rw [if_neg (by omega), if_pos hneg, if_pos (by omega)]
      simp only [ok_bind, hsz, if_true]
      exact ⟨_, _, rfl, .inr ⟨rfl, rfl, fun _ _ => ⟨rfl, rfl⟩⟩⟩
    · exact ⟨s, 0, rfl, .inl ⟨rfl, by omega, hs.exact, fun _ _ => ⟨rfl, rfl⟩, fun _ _ _ => by omega⟩⟩
    · by_cases hlt : s.sz + n < KERNBASE
      · exact hs.grow hpos (by simp only [KERNBASE] at hlt; omega)
          (show ((s.sz + n).toNat : Int) = s.sz + n by omega) (by omega)
      · unfold Grows growproc Ram.allocuvm
        rw [if_pos hpos, if_pos (by simp only [KERNBASE] at *; omega)]
        exact ⟨_, _, rfl, .inr ⟨rfl, rfl, fun _ _ => ⟨rfl, rfl⟩⟩⟩

/-- A process of one page. -/
def onePage : Space where
  pgdir := firstPage
  sz := 4096
  ram.free := [4, 5]
  ram.page _ _ := 7

theorem onePage_sound : onePage.Sound := by
  have husers : onePage.pgdir.users = {3} := by
    rw [PgDir.users, Finset.sum_eq_single 0]
    · rfl
    · intro k hk hne
      rw [Finset.mem_range, userPages_eq] at hk
      rw [onePage, firstPage_pte (by omega), if_neg hne]
      rfl
    · intro h
      simp [userPages_eq] at h
  refine ⟨⟨fun k hk hlt => ?_, fun k hk hle => ?_⟩, by decide, fun f => ?_, ?_⟩
  · obtain rfl : k = 0 := by
      simp only [onePage, PGSIZE] at hlt
      omega
    rfl
  · rw [onePage, firstPage_pte hk, if_neg]
    rintro rfl
    exact absurd hle (by decide)
  · rw [husers]
    exact Multiset.nodup_iff_count_le_one.mp (by decide : ({3} + ↑[4, 5] : Multiset Nat).Nodup) f
  · rw [husers]
    decide

theorem grows_onePage : onePage.Sound ∧ onePage.Grows 4096 :=
  ⟨onePage_sound, (grows_iff onePage_sound (by decide)).mpr (.inl (by decide))⟩

/-- Shrinking to nothing fails with the page gone; shrinking by two pages of
one succeeds and does nothing. -/
theorem not_grows_onePage :
    (onePage.growproc (-4096)).map (fun x => (x.2, x.1.sz, x.1.bytes 0 |>.isSome)) =
      .ok (-1, 4096, false) ∧
    (onePage.growproc (-8192)).map (fun x => (x.2, x.1.sz)) = .ok (0, 4096) ∧
    onePage.Sound ∧ ¬ onePage.Grows (-4096) ∧ ¬ onePage.Grows (-8192) :=
  ⟨by decide, by decide, onePage_sound,
    onePage_sound.not_grows (by decide) (by decide) (by decide),
    onePage_sound.not_grows (by decide) (by decide) (by decide)⟩

end Space
end Xv6
