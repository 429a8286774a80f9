import Xv6.Book

/-!
# Xv6.Layout

The memory of the processes on its own: the size of every process and the page
directories.  Like the book it is a view of the kernel state, and what the
helpers do to it is said once, here.
-/

namespace Xv6

open Lib Function

variable {s s' : Kernel} {p : Slot}

/-- The sizes and the page directories. -/
structure Layout where
  sz : Slot → Nat
  pgdirs : PgdirId → PgDir

namespace Kernel

/-- The memory part of a kernel state. -/
def layout (s : Kernel) : Layout where
  sz p := (s.proc p).sz
  pgdirs := s.pgdirs

@[simp] theorem layout_sz (s : Kernel) (p : Slot) : s.layout.sz p = (s.proc p).sz := rfl

@[simp] theorem layout_pgdirs (s : Kernel) : s.layout.pgdirs = s.pgdirs := rfl

theorem upd_layout (s : Kernel) (p : Slot) (f : Proc → Proc) :
    (s.upd p f).layout = { s.layout with sz := update s.layout.sz p (f (s.proc p)).sz } := by
  simp only [layout, Layout.mk.injEq, upd, and_true]
  funext q
  by_cases hq : q = p
  · subst hq
    simp [proc]
  · simp [proc, hq, PTable.setProc_proc_of_ne]

theorem upd_layout_eq (s : Kernel) (p : Slot) {f : Proc → Proc}
    (hf : (f (s.proc p)).sz = (s.proc p).sz) : (s.upd p f).layout = s.layout := by
  rw [upd_layout, hf]
  exact congrArg (fun z => { s.layout with sz := z }) (update_eq_self p s.layout.sz)

/-! ## Helpers -/

theorem Minor.layout (h : Minor p s s') : s'.layout = s.layout := by
  obtain ⟨pr, qu, n, v, ft, ic, pp, fr, j, rfl, hq⟩ := h
  simp only [Kernel.layout, Layout.mk.injEq, and_true]
  funext q
  obtain ⟨st, of, wd, tr, h, -, -⟩ := hq q
  simp only [proc] at h ⊢
  rw [h]

theorem FilesOnly.layout (h : FilesOnly p s s') : s'.layout = s.layout :=
  h.minor.layout

theorem SharesOnly.layout (h : SharesOnly s s') : s'.layout = s.layout := by
  obtain ⟨t, rfl, hq⟩ := h
  simp only [Kernel.layout, Layout.mk.injEq, and_true]
  funext q
  obtain ⟨a, b, c, d, h⟩ := hq q
  simp only [proc] at h ⊢
  rw [h]

theorem Died.layout (h : Died p s s') : s'.layout = s.layout := by
  obtain ⟨s1, hm, rfl⟩ := h
  exact (upd_layout_eq s1 p rfl).trans hm.layout

theorem sleepOn_layout (s : Kernel) (c : Slot) (chan : Chan) :
    (s.sleepOn c chan).layout = s.layout :=
  upd_layout_eq s c rfl

theorem clearProc_layout {pid : Int}
    (h : s.clearProc p = .ok (s', pid)) : s'.layout = s.layout := by
  obtain ⟨ref, free, calls, rfl⟩ := clearProc_eq h
  exact upd_layout_eq _ p rfl

theorem allocateNewPgdirIdx_layout (h : s.allocateNewPgdirIdx p = .ok s') :
    s'.layout = s.layout := by
  obtain ⟨i, -, rfl⟩ := allocateNewPgdirIdx_eq h
  exact upd_layout_eq _ p rfl

theorem allocproc_layout {r : Option Slot} (h : s.allocproc = (s', r)) : s'.layout = s.layout := by
  cases r with
  | none =>
    rcases allocproc_none h with ⟨-, rfl⟩ | ⟨-, np, -, -, rfl⟩
    · rfl
    · exact upd_layout_eq _ np rfl
  | some np =>
    obtain ⟨-, -, f, free, -, rfl⟩ := allocproc_some h
    exact upd_layout_eq _ np rfl

theorem countThread_layout {c : Slot} (h : s.countThread c = .ok s') : s'.layout = s.layout := by
  obtain ⟨m, -, rfl⟩ := countThread_eq h
  exact upd_layout_eq s m rfl

theorem lowerParentSz_layout {newsz : Nat} (h : s.lowerParentSz p newsz = .ok s') :
    ∃ m, (s.proc p).parent = some m ∧
      s'.layout = { s.layout with sz := update s.layout.sz m (min newsz (s.proc m).sz) } := by
  unfold lowerParentSz at h
  split at h
  · contradiction
  next m hm =>
  cases h
  refine ⟨m, hm, ?_⟩
  rw [upd_layout]
  have hmin : (if newsz < (s.proc m).sz then newsz else (s.proc m).sz) =
      min newsz (s.proc m).sz := by
    split <;> omega
  rw [hmin]

/-- `remove_thread_stack(p)` in an address space that nobody shares does
nothing to the memory; otherwise it unmaps two pages below the size of `p` and
may lower the size of the parent. -/
theorem removeThreadStack_layout (h : s.removeThreadStack p = .ok s') :
    ∃ i, (s.proc p).pgdirRefIdx = some i ∧
      (s.pgdirRef i ≤ 1 ∧ s'.layout = s.layout ∨
       ¬ s.pgdirRef i ≤ 1 ∧ ∃ m g d free newsz,
        (s.proc p).parent = some m ∧ (s.proc p).pgdir = some g ∧
        deallocuvm (s.pgdirs g) s.freelist (s.proc p).sz
          (uint ((s.proc p).sz + 2 ^ 32 - 2 * PGSIZE)) = .ok (d, free, newsz) ∧
        s'.layout =
          { sz := update s.layout.sz m (min newsz (s.proc m).sz)
            pgdirs := update s.pgdirs g d }) := by
  obtain ⟨s1, h1, h⟩ := bind_eq_ok.mp h
  obtain ⟨_, _, h⟩ := bind_eq_ok.mp h
  have hlast : s'.layout = s1.layout := by
    split at h
    · contradiction
    · next m _ =>
      cases h
      exact upd_layout_eq s1 m rfl
  unfold unmapThreadStack at h1
  split at h1
  · contradiction
  next i hi =>
  refine ⟨i, hi, ?_⟩
  split at h1
  · next hgt =>
    split at h1
    · contradiction
    next g hg =>
    obtain ⟨⟨d, free, newsz⟩, h2, h1⟩ := bind_eq_ok.mp h1
    obtain ⟨m, hm, hl⟩ := lowerParentSz_layout h1
    refine .inr ⟨Int8.not_le.mpr hgt, m, g, d, free, newsz, hm, hg, h2, ?_⟩
    rw [hlast, hl]
    rfl
  · next hle =>
    cases h1
    exact .inl ⟨Int8.not_lt.mp hle, hlast⟩

end Kernel
end Xv6
