import Xv6.System
import Xv6.Vm.Copy

/-!
# Xv6.Fork

`fork()` when the pages run out.

Wherever `kalloc` fails, `fork` returns -1, the entry it took is free again and
the parent is as it was.  The free list gets every page back unless `setupkvm`
fails halfway, or `copyuvm` at a new page table, where it forgets the page it was
about to map.
-/

namespace Xv6

open Lib

namespace Kernel

variable {s s' : Kernel} {c : Slot} {g : PgdirId}

/-- A process that is not a thread and has all its pages below `sz`, in a table
with room for another and with a free list of distinct pages. -/
structure CanFork (s : Kernel) (c : Slot) (g : PgdirId) : Prop where
  live : (s.proc c).state ≠ .unused
  tid : (s.proc c).tid = 0
  pgdir : (s.proc c).pgdir = some g
  filled : Filled (s.pgdirs g) (s.proc c).sz
  small : (s.proc c).sz ≤ KERNBASE
  room : ∃ p, (s.proc p).state = .unused
  nodup : s.freelist.Nodup
  noNull : 0 ∉ s.freelist

/-- The pages that `fork` takes: a kernel stack, a directory with the tables of
the kernel half, and the user pages with their tables. -/
def forkPages (sz : Nat) : Nat :=
  kernTables + 2 + (sz + 4095) / PGSIZE + ((sz + 4095) / PGSIZE + 1023) / 1024

/-- The entries in use and the memory of the parent `c` are as before. -/
structure SameParent (s s' : Kernel) (c : Slot) (g : PgdirId) : Prop where
  state : ∀ p, (s'.proc p).state = .unused ↔ (s.proc p).state = .unused
  pgdir : (s'.proc c).pgdir = (s.proc c).pgdir
  sz : (s'.proc c).sz = (s.proc c).sz
  mappings : s'.pgdirs g = s.pgdirs g

/-- An entry that was free has been used and given back. -/
theorem sameParent_upd {np : Slot} {f : Proc → Proc} (hp : s'.ptable = (s.upd np f).ptable)
    (hg : s'.pgdirs = s.pgdirs) (hnp : (s.proc np).state = .unused)
    (hf : (f (s.proc np)).state = .unused) (hc : (s.proc c).state ≠ .unused) :
    SameParent s s' c g := by
  have hproc : ∀ p, s'.proc p = (s.upd np f).proc p := fun p => by rw [proc, hp]; rfl
  have hne : c ≠ np := fun h => hc (h ▸ hnp)
  refine ⟨fun p => ?_, ?_, ?_, by rw [hg]⟩
  · by_cases h : p = np
    · rw [hproc, h, upd_proc_same, hf, hnp]
    · rw [hproc, upd_proc_of_ne s f h]
  · rw [hproc, upd_proc_of_ne s f hne]
  · rw [hproc, upd_proc_of_ne s f hne]

/-- Giving back the entry that `allocproc` has filled in. -/
theorem forkFailed_allocated (s : Kernel) (np : Slot) (f : Frame) (free : List Frame) :
    ({ s.upd np fun x => { Proc.embryo x s.nextpid with kstack := some f } with
        nextpid := s.nextpid + 1, freelist := free } : Kernel).forkFailed np =
      .ok { s.upd np fun x => { Proc.embryo x s.nextpid with
          kstack := none, pgdir := none, state := .unused } with
        nextpid := s.nextpid + 1, freelist := f :: free } := by
  simp [forkFailed, kfreeKstack, upd, proc, PTable.setProc]

variable {free : List Frame}

theorem fork_of_none {s1 : Kernel} {np : Slot} (htid : (s.proc c).tid = 0)
    (hal : s.allocproc = (s1, some np)) (hpg : (s1.proc c).pgdir = some g)
    (hcopy : copyuvm (s1.pgdirs g) (s1.proc c).sz s1.freelist = .ok (none, free))
    (hfail : { s1 with freelist := free }.forkFailed np = .ok s') : s.fork c = .ok (s', -1) := by
  unfold fork
  rw [if_neg (not_not.mpr htid), hal]
  simp only [hpg, hcopy, ok_bind, hfail]
  rfl

/-- `fork` without enough pages fails and loses the pages of an unfinished
kernel half, or the page that has no table. -/
theorem fork_short (h : s.CanFork c g) (hshort : s.freelist.length < forkPages (s.proc c).sz) :
    ∃ s' lost, s.fork c = .ok (s', -1) ∧ SameParent s s' c g ∧
      (s'.freelist : Multiset Frame) + lost = ↑s.freelist ∧
      (lost = 0 ↔ s.freelist.length < 2 ∨ kernTables + 2 ≤ s.freelist.length ∧
        ∀ t, s.freelist.length ≠ kernTables + 3 + 1025 * t) := by
  rcases hal : s.allocproc with ⟨s1, _ | np⟩
  · rcases allocproc_none hal with ⟨hnone, -⟩ | ⟨hnil, np, hnp, -, rfl⟩
    · -- there is an entry
      obtain ⟨p, hp⟩ := h.room
      simpa [hp] using List.find?_eq_none.mp hnone p (List.mem_finRange p)
    · refine ⟨_, 0, by rw [fork, if_neg (not_not.mpr h.tid), hal], ?_, by simp [upd],
        by simp [hnil]⟩
      exact sameParent_upd (f := fun x => { Proc.embryo x s.nextpid with
        kstack := none, state := .unused }) rfl rfl hnp rfl h.live
  · obtain ⟨hnp, -, f, free, hfree, rfl⟩ := allocproc_some hal
    have hne : c ≠ np := fun heq => h.live (heq ▸ hnp)
    have hnodup := h.nodup
    have hnull := h.noNull
    rw [hfree] at hnodup hnull hshort ⊢
    rw [List.length_cons, forkPages] at hshort
    obtain ⟨free', lost, hcopy, hsum, hlost⟩ := copyuvm_short h.small h.filled
      (List.nodup_cons.mp hnodup).2 (fun hmem => hnull (List.mem_cons_of_mem f hmem)) (by omega)
    have hproc : (s.upd np fun x => { Proc.embryo x s.nextpid with kstack := some f }).proc c =
        s.proc c := upd_proc_of_ne s _ hne
    refine ⟨{ s.upd np fun x => { Proc.embryo x s.nextpid with
          kstack := none, pgdir := none, state := .unused } with
        nextpid := s.nextpid + 1, freelist := f :: free' }, lost, ?_,
      sameParent_upd (f := fun x => { Proc.embryo x s.nextpid with
        kstack := none, pgdir := none, state := .unused }) rfl rfl hnp rfl h.live, ?_, ?_⟩
    · refine fork_of_none h.tid hal (hproc.symm ▸ h.pgdir) ?_ (forkFailed_allocated s np f free')
      exact (congrArg (fun x => copyuvm (s.pgdirs g) x.sz free) hproc).trans hcopy
    · rw [← Multiset.cons_coe, ← Multiset.cons_coe, Multiset.cons_add, hsum]
    · rw [hlost, List.length_cons, ← List.length_eq_zero_iff]
      constructor
      · rintro (hzero | ⟨hle, hall⟩)
        · exact .inl (by omega)
        · exact .inr ⟨by omega, fun t => by have := hall t; omega⟩
      · rintro (hlt | ⟨hle, hall⟩)
        · exact .inl (by omega)
        · exact .inr ⟨by omega, fun t => by have := hall t; omega⟩

/-- `fork()` returns -1 and leaves the free pages, the entries in use and the
parent's memory as they were. -/
def ForkUndone (s : Kernel) (c : Slot) (g : PgdirId) : Prop :=
  ∃ s', s.fork c = .ok (s', -1) ∧ SameParent s s' c g ∧ ∀ f, f ∈ s'.freelist ↔ f ∈ s.freelist

/-- The pages are all there again exactly if none is lost. -/
theorem mem_iff_of_add {free' : List Frame} {lost : Multiset Frame} (hnodup : free.Nodup)
    (hsum : (free' : Multiset Frame) + lost = ↑free) : (∀ f, f ∈ free' ↔ f ∈ free) ↔ lost = 0 := by
  have hdisjoint := (Multiset.nodup_add.mp (hsum ▸ Multiset.coe_nodup.mpr hnodup)).2.2
  constructor
  · intro h
    refine Multiset.eq_zero_of_forall_notMem fun f hf => ?_
    have hmem : f ∈ (free : Multiset Frame) := hsum ▸ Multiset.mem_add.mpr (.inr hf)
    exact Multiset.disjoint_left.mp hdisjoint ((h f).mpr hmem) hf
  · rintro rfl f
    rw [add_zero] at hsum
    rw [← Multiset.mem_coe, hsum, Multiset.mem_coe]

/-- **A failed `fork` is clean** exactly when the pages run out at the kernel
stack, at the directory or at a user page, and not at a table. -/
theorem forkUndone_iff (h : s.CanFork c g) (hshort : s.freelist.length < forkPages (s.proc c).sz) :
    s.ForkUndone c g ↔ s.freelist.length < 2 ∨ kernTables + 2 ≤ s.freelist.length ∧
      ∀ t, s.freelist.length ≠ kernTables + 3 + 1025 * t := by
  obtain ⟨s', lost, hfork, hsame, hsum, hlost⟩ := fork_short h hshort
  rw [← hlost, ← mem_iff_of_add h.nodup hsum]
  constructor
  · rintro ⟨s'', hfork', -, hfree⟩
    cases hfork.symm.trans hfork'
    exact hfree
  · exact fun hfree => ⟨s', hfork, hsame, hfree⟩

/-- A process of one page, with `free` for the rest. -/
def onePage (free : List Frame) : Kernel :=
  { atBoot free with pgdirs := fun _ => firstPage }.upd 0 fun x =>
    { x with state := .running, tid := 0, pgdir := some 0, sz := 4096 }

theorem onePage_canFork (hnodup : free.Nodup) (hnull : 0 ∉ free) : (onePage free).CanFork 0 0 where
  live := (by decide : ProcState.running ≠ .unused)
  tid := rfl
  pgdir := rfl
  filled := fun n hn (hlt : n * PGSIZE < 4096) => by
    obtain rfl : n = 0 := by
      simp only [PGSIZE] at hlt
      omega
    rfl
  small := (by decide : 4096 ≤ KERNBASE)
  room := ⟨1, rfl⟩
  nodup := hnodup
  noNull := hnull

theorem forkUndone_onePage : (onePage [4]).CanFork 0 0 ∧ (onePage [4]).ForkUndone 0 0 :=
  ⟨onePage_canFork (by decide) (by decide),
    (forkUndone_iff (onePage_canFork (by decide) (by decide)) (by decide)).mpr (.inl (by decide))⟩

/-- With three pages the directory and the first table are lost; with 67 the
copied page is. -/
theorem not_forkUndone_onePage :
    ((onePage [4, 5, 6]).fork 0).map (fun x => (x.2, x.1.freelist)) = .ok (-1, [4]) ∧
    ((onePage (List.range' 4 67)).fork 0).map (fun x => (x.2, x.1.freelist.length)) = .ok (-1, 66) ∧
    (onePage [4, 5, 6]).CanFork 0 0 ∧ ¬ (onePage [4, 5, 6]).ForkUndone 0 0 := by
  refine ⟨by decide, by decide +kernel, onePage_canFork (by decide) (by decide), ?_⟩
  rintro ⟨s', hfork, -, hfree⟩
  have hlost : s'.freelist = [4] := by
    have hres : ((onePage [4, 5, 6]).fork 0).map (fun x => x.1.freelist) = .ok [4] := by decide
    rw [hfork] at hres
    exact Except.ok.inj hres
  have hmem := (hfree 5).mpr (by decide)
  rw [hlost] at hmem
  contradiction

end Kernel
end Xv6
