import Xv6.Share.Standing

/-!
# Xv6.Scan

The cursor of the table scan of `scheduler()` around a stride dispatch.

The stride process to run is stored in the cursor `p` before the "back up"
`p_mlfq = p` is made.  So the scan goes on at its slot, wherever the cursor was.
-/

namespace Xv6
namespace Sched

open Lib

variable {s s' u u' : Sched} {c p : Slot} {before : Nat}

/-! ## Stride dispatches -/

/-- The iteration at slot `c` switches to `p`, a process of the stride queue. -/
structure StrideDispatch (s : Sched) (c p : Slot) (s' : Sched) : Prop where
  cursor : s.place = .scan c
  turn : s.next .scan = some s'
  selected : s'.strideIsSelected = true
  running : s'.place.Runs p

/-- A process runs on the CPU. -/
def Busy (s : Sched) : Prop := ∃ p, s.place.Runs p

/-- Any run of the process that was dispatched in `s`, up to its switch back to
`scheduler()` in `u`. -/
def SwitchesBack (s u : Sched) : Prop :=
  Reach (fun v => v = s) next (fun v _ => v.Busy) u ∧ ¬ u.Busy

/-- Consecutive iterations that dispatch the stride processes `ps`. -/
inductive StrideDispatches : Sched → List Slot → Sched → Prop where
  | none (s : Sched) : StrideDispatches s [] s
  | cons {s s' s₁ s₂ : Sched} {c p : Slot} {ps : List Slot} :
      s.StrideDispatch c p s' → s'.SwitchesBack s₁ → StrideDispatches s₁ ps s₂ →
      StrideDispatches s (p :: ps) s₂

/-! ## The run of a stride process -/

/-- After a stride dispatch the process runs, or the scan goes on at its slot. -/
def ServesStride (p : Slot) (s : Sched) : Prop :=
  s.strideIsSelected = true ∧ (s.place.Runs p ∨ s.place = .scan p)

theorem runs_iff {pl : Place} : pl.Runs p ↔ ∃ before, pl = .running p before := by
  cases pl with
  | released => simp [Place.Runs]
  | scan i => simp [Place.Runs]
  | running q before => simp [Place.Runs]

theorem resume_servesStride (h : s.strideIsSelected = true) (p : Slot) (before : Nat) :
    (s.resume p before).ServesStride p := by
  simp [ServesStride, resume, h]

theorem not_busy_resume (s : Sched) (p : Slot) (before : Nat) : ¬ (s.resume p before).Busy := by
  rintro ⟨q, hq⟩
  obtain ⟨-, -, i, hplace, -⟩ := resume_cases s p before
  rw [hplace] at hq
  exact hq

theorem servesStride_of_running (h : s.strideIsSelected = true)
    (hplace : s.place = .running p before) : s.ServesStride p :=
  ⟨h, .inl (runs_iff.mpr ⟨before, hplace⟩)⟩

/-- **Step**: an act of the running process, or an interrupt. -/
theorem ServesStride.next {a : Act} (h : s.ServesStride p) (hbusy : s.Busy)
    (hn : s.next a = some s') : s'.ServesStride p := by
  obtain ⟨hsel, hplace⟩ := h
  have hruns : s.place.Runs p := by
    rcases hplace with hruns | hscan
    · exact hruns
    · obtain ⟨q, hq⟩ := hbusy
      rw [hscan] at hq
      exact hq.elim
  obtain ⟨before, hrun⟩ := runs_iff.mp hruns
  cases a with
  | acquire => simp [Sched.next, hrun] at hn
  | scan => simp [Sched.next, hrun] at hn
  | process e =>
    simp only [Sched.next, hrun, process] at hn
    split at hn
    · obtain ⟨k, hk, rfl⟩ := Option.map_eq_some_iff.mp hn
      split
      · refine servesStride_of_running ?_ rfl
        exact hsel
      · refine resume_servesStride ?_ p before
        exact hsel
    · contradiction
  | tick =>
    simp only [Sched.next, hrun, Option.some.injEq] at hn
    subst hn
    have hboost : s.boost.strideIsSelected = true := (boost_strideIsSelected s).trans hsel
    unfold tickRunning
    simp only
    split
    · refine resume_servesStride ?_ p before
      exact hboost
    · refine servesStride_of_running ?_ ((boost_place s).trans hrun)
      exact hboost
  | interrupt chan =>
    simp only [Sched.next, hrun, Option.some.injEq] at hn
    subst hn
    exact servesStride_of_running ((boost_strideIsSelected _).trans hsel) (boost_place _)

/-- **Run**: when a stride process switches back, the scan goes on at its slot. -/
theorem SwitchesBack.place (h : s.SwitchesBack u) (hsel : s.strideIsSelected = true)
    (hrun : s.place.Runs p) : u.place = .scan p := by
  have hstart : ∀ v, v = s → v.ServesStride p := by
    intro v hv
    exact hv ▸ ⟨hsel, .inl hrun⟩
  have hinv := h.1.inv (ServesStride p) hstart fun v a v' hv hbusy hn => hv.next hbusy hn
  rcases hinv.2 with hruns | hscan
  · exact absurd ⟨p, hruns⟩ h.2
  · exact hscan

/-! ## The process can always yield -/

theorem runStride_running {m m' : Machine} (h : m.runStride = .ok (m', some p)) :
    (m'.kernel.proc p).state = .running := by
  obtain ⟨⟨t, i⟩, -, h⟩ := bind_eq_ok.mp h
  simp only at h
  split at h
  · obtain ⟨q, -, h⟩ := bind_eq_ok.mp h
    rw [pure_eq_ok, Except.ok.injEq, Prod.mk.injEq, Option.some.injEq] at h
    obtain ⟨rfl, rfl⟩ := h
    simp [Machine.switchTo]
  · cases h

theorem StrideDispatch.running_state (h : s.StrideDispatch c p s') :
    (s'.kernel.proc p).state = .running := by
  have hturn := h.turn
  simp only [Sched.next, h.cursor] at hturn
  have hok := Kernel.eq_ok_of_toOption hturn
  rw [scan, dif_pos c.isLt] at hok
  obtain ⟨s₁, -, hok⟩ := bind_eq_ok.mp hok
  have hsel := h.selected
  have hrun := h.running
  unfold runChosen at hok
  split at hok
  · obtain ⟨⟨m, o⟩, hm, hok⟩ := bind_eq_ok.mp hok
    cases o with
    | none => cases hok; simp at hsel
    | some q =>
      cases hok
      obtain rfl : q = p := hrun
      exact runStride_running hm
  · next hchosen =>
    split at hok
    · cases hok; exact absurd hsel hchosen
    · cases hok; exact absurd hsel hchosen

/-- A dispatched stride process may yield at once. -/
theorem StrideDispatch.exists_switchesBack (h : s.StrideDispatch c p s') :
    ∃ u, s'.SwitchesBack u := by
  obtain ⟨before, hrun⟩ := runs_iff.mp h.running
  have hacts : ActsAs p (.yield p) := rfl
  have hyield : s'.kernel.next (.yield p) =
      some (s'.kernel.upd p fun x => { x with state := .runnable, timeQuantumUsed := 0 }) :=
    Kernel.next_eq_some.mpr ⟨h.running_state, rfl⟩
  generalize hk : (s'.kernel.upd p fun x =>
    { x with state := .runnable, timeQuantumUsed := 0 }) = k at hyield
  have hleft : (k.proc p).state ≠ .running := by simp [← hk]
  have hstep : s'.next (.process (.yield p)) =
      some (resume { s' with kernel := k } p before) := by
    simp only [Sched.next, hrun, process]
    rw [if_pos hacts, hyield, Option.map_some]
    simp only [if_neg hleft]
  refine ⟨_, .step (.start rfl) ⟨p, h.running⟩ hstep, not_busy_resume _ p before⟩

/-! ## The cursor -/

/-- After any number of stride dispatches the cursor is at the slot of the last
of them. -/
theorem StrideDispatches.place {ps : List Slot} {i : Nat} (h : s.StrideDispatches ps u)
    (hs : s.place = .scan i) : u.place = .scan ((ps.getLast?.map Fin.val).getD i) := by
  induction h generalizing i with
  | none s => exact hs
  | @cons s s' s₁ s₂ c p ps hd hback _ ih =>
    have hscan : s₁.place = .scan p := hback.place hd.selected hd.running
    rw [ih hscan]
    cases ps with
    | nil => simp
    | cons q ps => simp [List.getLast?_cons]

/-- The iteration after a stride dispatch at slot `c` examines slot `c` again,
whatever the process does, if and only if the process is the one of slot `c`;
and after any number of stride dispatches the cursor is back at `c` if and only
if the last of them was of that process. -/
theorem strideDispatch_keeps_cursor_iff (s : Sched) (c : Slot) (hs : s.place = .scan c) :
    (∀ p s', s.StrideDispatch c p s' → ((∀ u, s'.SwitchesBack u → u.place = .scan c) ↔ p = c)) ∧
      ∀ ps u, s.StrideDispatches ps u → (u.place = .scan c ↔ ∀ p ∈ ps.getLast?, p = c) := by
  constructor
  · intro p s' hd
    constructor
    · intro hall
      obtain ⟨u, hu⟩ := hd.exists_switchesBack
      have hplace := hu.place hd.selected hd.running
      rw [hall u hu, Place.scan.injEq] at hplace
      exact Fin.ext hplace.symm
    · rintro rfl u hu
      exact hu.place hd.selected hd.running
  · intro ps u hd
    rw [hd.place hs, Place.scan.injEq]
    cases ps.getLast? with
    | none => simp
    | some p => simp [Fin.val_inj]

/-- The first process creates a child, which takes a share and yields. -/
def sharingChild : List Act :=
  [.process (.call 0 .fork), .process (.yield 0), .scan, .process (.call 1 (.setCpuShare 50)),
    .process (.yield 1)]

theorem exists_dispatch_sharingChild :
    ∃ s s' : Sched, (s.ReachableBy fun _ _ => True) ∧ s.StrideDispatch 2 1 s' := by
  obtain ⟨s, hs, hcursor, s', hturn, hsel, hrun⟩ := exists_reachableBy (fun _ _ => True)
    (P := fun s => s.place = .scan 2 ∧
      ∃ s', s.next .scan = some s' ∧ s'.strideIsSelected = true ∧ s'.place.Runs 1)
    (List.range' 1 400) (fun _ => false) Kernel.smallProgram sharingChild (by decide +kernel)
  exact ⟨s, s', hs, hcursor, hturn, hsel, hrun⟩

theorem keeps_cursor_iff_sharingChild : ∃ s s' : Sched, (s.ReachableBy fun _ _ => True) ∧
    s.StrideDispatch 2 1 s' ∧
    ((∀ u, s'.SwitchesBack u → u.place = .scan ((2 : Slot) : Nat)) ↔ (1 : Slot) = 2) := by
  obtain ⟨s, s', hs, hd⟩ := exists_dispatch_sharingChild
  exact ⟨s, s', hs, hd, (strideDispatch_keeps_cursor_iff s 2 hd.cursor).1 1 s' hd⟩

/-- The cursor is at slot 2, the process of slot 1 runs, and the scan goes on at slot 1. -/
theorem cursor_moves_sharingChild : ∃ s s' u : Sched, (s.ReachableBy fun _ _ => True) ∧
    s.place = .scan 2 ∧ s.StrideDispatch 2 1 s' ∧ s'.SwitchesBack u ∧ u.place = .scan 1 := by
  obtain ⟨s, s', hs, hd⟩ := exists_dispatch_sharingChild
  obtain ⟨u, hu⟩ := hd.exists_switchesBack
  exact ⟨s, s', u, hs, hd.cursor, hd, hu, hu.place hd.selected hd.running⟩

end Sched
end Xv6
