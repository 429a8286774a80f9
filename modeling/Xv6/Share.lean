import Xv6.Share.Standing

/-!
# Xv6.Share

What part of the CPU time the stride queue gets, on one CPU whose processes
never leave it on their own.

`select_stride_or_MLFQ` gives the stride queue `sum_cpu_share / 10` of a hundred
selections.  A selection of the stride queue is worth one tick.  A selection of the
MLFQ is worth nothing when the scan finds nobody behind the entry it stands at, and
five ticks or more when it does; at least every second one is worth something.
-/

namespace Xv6

open Lib Sched

variable {before i : Nat} {s : Sched} {p : Slot}

/-! ## Counting selections -/

/-- How many of the first `n` selections of a round and the rounds after it go
to the stride queue, which gets the first `a` of every hundred. -/
def strideSelections (a : Nat) : Nat → Nat
  | 0 => 0
  | n + 1 => strideSelections a n + if n % 100 < a then 1 else 0

theorem strideSelections_of_lt {a n : Nat} (h : n % 100 < a) :
    strideSelections a (n + 1) = strideSelections a n + 1 := by
  rw [strideSelections, if_pos h]

theorem strideSelections_of_ge {a n : Nat} (h : a ≤ n % 100) :
    strideSelections a (n + 1) = strideSelections a n := by
  rw [strideSelections, if_neg (not_lt.mpr h), add_zero]

theorem strideSelections_round {a k j : Nat} (hj : j ≤ 100) :
    strideSelections a (100 * k + j) = strideSelections a (100 * k) + min j a := by
  induction j with
  | zero => simp
  | succ j ih =>
    have ih := ih (by omega)
    rw [← add_assoc]
    by_cases hlt : j < a
    · rw [strideSelections_of_lt (by omega), ih]
      omega
    · rw [strideSelections_of_ge (by omega), ih]
      omega

/-- Of `k` rounds the stride queue gets `a * k` selections. -/
theorem strideSelections_rounds {a : Nat} (ha : a ≤ 100) (k : Nat) :
    strideSelections a (100 * k) = a * k := by
  induction k with
  | zero => rfl
  | succ k ih =>
    rw [Nat.mul_succ, strideSelections_round le_rfl, ih, Nat.mul_succ]
    omega

/-- After `n` selections and `d` dispatches from the MLFQ: all but `j` of the
selections of the MLFQ are covered by two for each dispatch and one for each
round. -/
def Debt (a n d j : Nat) : Prop := n ≤ strideSelections a n + 2 * d + (n + 99) / 100 + j

/-- All are covered, or all but the last selection, which was one of the MLFQ. -/
def AlmostPaid (a n d : Nat) : Prop :=
  Debt a n d 0 ∨ Debt a n d 1 ∧ (n % 100 = 0 ∨ a ≤ n % 100)

section Debts

variable {a n d : Nat}

theorem Debt.stride (h : Debt a n d 0) (hn : n % 100 < a) : Debt a (n + 1) d 0 := by
  unfold Debt at *
  rw [strideSelections_of_lt hn]
  omega

/-- The first selection of a round covers one that is open. -/
theorem AlmostPaid.stride (h : AlmostPaid a n d) (hn : n % 100 < a) : Debt a (n + 1) d 0 := by
  rcases h with h | ⟨h, hround⟩
  · exact h.stride hn
  · unfold Debt at *
    rw [strideSelections_of_lt hn]
    omega

theorem Debt.mlfq (h : Debt a n d 0) (hn : a ≤ n % 100) : AlmostPaid a (n + 1) d := by
  refine .inr ⟨?_, by omega⟩
  unfold Debt at *
  rw [strideSelections_of_ge hn]
  omega

theorem AlmostPaid.mlfq (h : AlmostPaid a n d) (hn : a ≤ n % 100) : Debt a (n + 1) d 2 := by
  have hone : Debt a n d 1 := by
    rcases h with h | ⟨h, -⟩
    · exact Nat.le_add_right_of_le h
    · exact h
  unfold Debt at *
  rw [strideSelections_of_ge hn]
  omega

theorem Debt.dispatch (h : Debt a n d 2) : Debt a n (d + 1) 0 := by
  unfold Debt at *
  omega

theorem AlmostPaid.dispatch (h : AlmostPaid a n d) : Debt a n (d + 1) 0 := by
  rcases h with h | ⟨h, -⟩ <;> unfold Debt at * <;> omega

end Debts

/-! ## The machine -/

/-- The scheduler with the selections made and the ticks used since some
moment. -/
structure Usage extends Sched where
  selections : Nat
  strideTicks : Nat
  allTicks : Nat

namespace Usage

/-- The scheduler is about to select a queue. -/
def selects (u : Usage) : Bool :=
  match u.place with
  | .scan i =>
    decide (i < NPROC ∧ u.ptable.sumCpuShare ≠ 0 ∧ u.choosingStrideOrMLFQ = true)
  | _ => false

/-- The process that runs. -/
def current (u : Usage) : Option Slot :=
  match u.place with
  | .running p _ => some p
  | _ => none

/-- The counters after an act. -/
def next (u : Usage) (a : Sched.Act) : Option Usage :=
  (u.toSched.next a).map fun s =>
    match a with
    | .scan => { u with toSched := s, selections := u.selections + if u.selects then 1 else 0 }
    | .tick =>
      match u.current with
      | some p =>
        { u with
          toSched := s
          strideTicks := u.strideTicks + if (u.kernel.proc p).cpuShare ≠ 0 then 1 else 0
          allTicks := u.allTicks + 1 }
      | none => { u with toSched := s }
    | _ => { u with toSched := s }

/-- The counters start at `s`. -/
def start (s : Sched) : Usage where
  toSched := s
  selections := 0
  strideTicks := 0
  allTicks := 0

/-- The acts of a CPU whose processes leave it only when their time quantum is
used up. -/
def CpuBound : Sched.Act → Prop
  | .process _ => False
  | .acquire | .scan | .tick | .interrupt _ => True

instance : DecidablePred CpuBound
  | .process _ => inferInstanceAs (Decidable False)
  | .acquire | .scan | .tick | .interrupt _ => inferInstanceAs (Decidable True)

/-! ## The invariant -/

variable {a d : Nat} {m : Slot} {u u' : Usage}

/-- What stays the same: the sum of the shares, of which the stride queue gets
`a` selections in a round, and the process `m` in the MLFQ. -/
structure Steady (a : Nat) (m : Slot) (u : Usage) : Prop where
  paced : u.Paced
  sum : u.ptable.sumCpuShare ≠ 0
  part : (u.ptable.sumCpuShare / 10).toInt = a
  size : u.ptable.strideQueueSize ≠ 0
  share : (u.ptable.standing m).cpuShare = 0
  selector : (u.queueSelector + 1) % 100 = ((u.selections % 100 : Nat) : Int)

/-- `m` can be dispatched. -/
def Ready (m : Slot) (u : Usage) : Prop := (u.ptable.standing m).state = .runnable

/-- Nobody runs: the ticks of the stride queue come from selections of it, and
every dispatch from the MLFQ has had five ticks. -/
structure Settled (a d : Nat) (u : Usage) : Prop where
  stride : u.strideTicks ≤ strideSelections a u.selections
  mlfq : 5 * d + u.strideTicks ≤ u.allTicks

/-- Where the scheduler is, and what is owed there, after `d` dispatches from
the MLFQ. -/
inductive Phase (a : Nat) (m : Slot) (d : Nat) (u : Usage) : Prop where
  | released (hplace : u.place = .released) (hready : u.Ready m) (hsettled : u.Settled a d)
      (hpaid : AlmostPaid a u.selections d)
  /-- Before a selection. -/
  | choose {i : Nat} (hplace : u.place = .scan i) (hchoosing : u.choosingStrideOrMLFQ = true)
      (hready : u.Ready m) (hsettled : u.Settled a d) (hpaid : Debt a u.selections d 0)
  /-- Before the first selection of an outer turn. -/
  | fresh (hplace : u.place = .scan 0) (hchoosing : u.choosingStrideOrMLFQ = true)
      (hlevel : u.ptable.queueLevelAtMost = NMLFQ - 1)
      (hready : u.Ready m) (hsettled : u.Settled a d) (hpaid : AlmostPaid a u.selections d)
  /-- Looking for a process of the MLFQ. -/
  | search {i : Nat} (hplace : u.place = .scan i) (hchoosing : u.choosingStrideOrMLFQ = false)
      (hselected : u.strideIsSelected = false)
      (hready : u.Ready m) (hsettled : u.Settled a d) (hpaid : AlmostPaid a u.selections d)
  /-- Looking for a process of the MLFQ, with `m` still ahead. -/
  | seek {i : Nat} (hplace : u.place = .scan i) (hchoosing : u.choosingStrideOrMLFQ = false)
      (hselected : u.strideIsSelected = false) (hahead : i ≤ m)
      (hlevel : u.ptable.queueLevelAtMost = NMLFQ - 1)
      (hready : u.Ready m) (hsettled : u.Settled a d) (hpaid : Debt a u.selections d 2)
  /-- A process runs that was found in the stride queue. -/
  | stride {p : Slot} {before : Nat} (hplace : u.place = .running p before)
      (hselected : u.strideIsSelected = true) (hready : p = m ∨ u.Ready m)
      (hticks : u.strideTicks + (if (u.ptable.standing p).cpuShare = 0 then 0 else 1) ≤
        strideSelections a u.selections)
      (hmlfq : 5 * d + u.strideTicks ≤ u.allTicks) (hpaid : Debt a u.selections d 0)
  /-- A process of the MLFQ runs. -/
  | mlfq {p : Slot} {before : Nat} (hplace : u.place = .running p before)
      (hselected : u.strideIsSelected = false) (hready : p = m ∨ u.Ready m)
      (hshare : (u.ptable.standing p).cpuShare = 0)
      (hstride : u.strideTicks ≤ strideSelections a u.selections)
      (hmlfq : 5 * d + (u.ptable.standing p).used + u.strideTicks ≤ u.allTicks + 5)
      (hpaid : Debt a u.selections d 0)

/-! ## Steps -/

theorem Steady.of_table (h : u.Steady a m) (hpaced : u'.Paced)
    (hsetup : u'.ptable.setup = u.ptable.setup)
    (hshare : (u'.ptable.standing m).cpuShare = (u.ptable.standing m).cpuShare)
    (hselector : (u'.queueSelector + 1) % 100 = ((u'.selections % 100 : Nat) : Int)) :
    u'.Steady a m := by
  have hsum : u'.ptable.sumCpuShare = u.ptable.sumCpuShare := congrArg Setup.sumCpuShare hsetup
  have hsize : u'.ptable.strideQueueSize = u.ptable.strideQueueSize :=
    congrArg Setup.strideQueueSize hsetup
  exact ⟨hpaced, hsum ▸ h.sum, hsum ▸ h.part, hsize ▸ h.size, hshare.trans h.share, hselector⟩

/-- A process of the MLFQ that waits can be dispatched when the bound is the
loosest. -/
theorem eligible_of_ready (h : u.Steady a m) (hready : u.Ready m)
    (hlevel : u.ptable.queueLevelAtMost = NMLFQ - 1) : Sched.Eligible u.ptable m :=
  ⟨hready, h.share, hlevel ▸ h.paced.level m⟩

theorem Ready.of_switched (h : u.Ready m) (hstanding : ∀ q, u'.ptable.standing q =
    if q = p then (u.ptable.standing p).switched else u.ptable.standing q) :
    p = m ∨ u'.Ready m := by
  by_cases hp : p = m
  · exact .inl hp
  · refine .inr ?_
    rw [Ready, hstanding, if_neg (Ne.symm hp)]
    exact h

/-- No tick has passed. -/
structure SameTicks (u u' : Usage) : Prop where
  stride : u'.strideTicks = u.strideTicks
  all : u'.allTicks = u.allTicks

theorem Settled.of_sameTicks (h : u.Settled a d) (ht : SameTicks u u')
    (hn : strideSelections a u.selections ≤ strideSelections a u'.selections) : u'.Settled a d :=
  ⟨by rw [ht.stride]; exact h.stride.trans hn, by rw [ht.stride, ht.all]; exact h.mlfq⟩

/-- A turn of the `for` loop that selects a queue. -/
theorem scan_selects (hi : i < NPROC) (h : u.Steady a m) (hplace : u.place = .scan i)
    (hchoosing : u.choosingStrideOrMLFQ = true) (hn : u.next .scan = some u') :
    ∃ (s1 : Sched) (b : Bool), u'.selections = u.selections + 1 ∧ SameTicks u u' ∧
      s1 = { u.toSched with queueSelector := (u.queueSelector + 1) % 100, strideIsSelected := b } ∧
      (b = true ↔ u.selections % 100 < a) ∧ s1.runChosen ⟨i, hi⟩ = .ok u'.toSched := by
  obtain ⟨s, hs, rfl⟩ := Option.map_eq_some_iff.mp hn
  simp only [Sched.next, hplace] at hs
  have hok := Kernel.eq_ok_of_toOption hs
  unfold scan at hok
  rw [dif_pos hi] at hok
  obtain ⟨s1, h1, hok⟩ := bind_eq_ok.mp hok
  have hselects : u.selects = true := by simp [selects, hplace, hi, h.sum, hchoosing]
  rcases chooseQueue_cases h.sum h.size h1 with ⟨hfalse, -⟩ | ⟨-, b, hs1, hb⟩
  · rw [hchoosing] at hfalse
    contradiction
  · refine ⟨s1, b, by simp [hselects], ⟨rfl, rfl⟩, hs1, ?_, hok⟩
    rw [hb, h.selector, h.part]
    exact Int.ofNat_lt

/-- A turn of the `for` loop in which the last choice stands. -/
theorem scan_stands (hi : i < NPROC) (h : u.Steady a m) (hplace : u.place = .scan i)
    (hchoosing : u.choosingStrideOrMLFQ = false) (hn : u.next .scan = some u') :
    u'.selections = u.selections ∧ SameTicks u u' ∧
      u.toSched.runChosen ⟨i, hi⟩ = .ok u'.toSched := by
  obtain ⟨s, hs, rfl⟩ := Option.map_eq_some_iff.mp hn
  simp only [Sched.next, hplace] at hs
  have hok := Kernel.eq_ok_of_toOption hs
  unfold scan at hok
  rw [dif_pos hi] at hok
  obtain ⟨s1, h1, hok⟩ := bind_eq_ok.mp hok
  have hselects : u.selects = false := by simp [selects, hplace, hchoosing]
  rcases chooseQueue_cases h.sum h.size h1 with ⟨-, rfl⟩ | ⟨htrue, -⟩
  · exact ⟨by simp [hselects], ⟨rfl, rfl⟩, hok⟩
  · rw [hchoosing] at htrue
    contradiction

theorem scan_ends (hi : NPROC ≤ i) (hplace : u.place = .scan i)
    (hn : u.next .scan = some u') : u' = { u with toSched := u.endScan } := by
  obtain ⟨s, hs, rfl⟩ := Option.map_eq_some_iff.mp hn
  simp only [Sched.next, hplace] at hs
  have hok := Kernel.eq_ok_of_toOption hs
  unfold scan at hok
  rw [dif_neg (not_lt.mpr hi)] at hok
  cases hok
  have hselects : u.selects = false := by simp [selects, hplace, not_lt.mpr hi]
  simp [hselects]

theorem phase_mlfq {i : Slot} (hready : u.Ready m)
    (hsettled : u.Settled a d) (ht : SameTicks u u')
    (hn : strideSelections a u.selections ≤ strideSelections a u'.selections)
    (hs : s.ptable = u.ptable) (hel : Sched.Eligible s.ptable i)
    (hplace : u'.place = .running i before) (hselected : u'.strideIsSelected = false)
    (hstanding : ∀ q, u'.ptable.standing q =
      if q = i then (s.ptable.standing i).switched else s.ptable.standing q)
    (hpaid : Debt a u'.selections (d + 1) 0) : Phase a m (d + 1) u' := by
  rw [hs] at hstanding hel
  have hi := hstanding i
  rw [if_pos rfl] at hi
  have hsettled' := hsettled.of_sameTicks ht hn
  refine .mlfq hplace hselected (hready.of_switched hstanding) ?_ hsettled'.stride ?_ hpaid
  · rw [hi]
    exact hel.2.1
  · rw [hi]
    have hle := hsettled'.mlfq
    simp only [Standing.switched]
    omega

/-- **A turn of the loop** that selects a queue, at a place where `d` dispatches
are owed at most `j`. -/
theorem Phase.selects (hi : i < NPROC) (h : u.Steady a m) (hplace : u.place = .scan i)
    (hchoosing : u.choosingStrideOrMLFQ = true) (hready : u.Ready m) (hsettled : u.Settled a d)
    (hstride : u.selections % 100 < a → Debt a (u.selections + 1) d 0)
    (hdispatch : a ≤ u.selections % 100 → Debt a (u.selections + 1) (d + 1) 0)
    (hskip : a ≤ u.selections % 100 → u'.selections = u.selections + 1 →
      ¬ Sched.Eligible u.ptable ⟨i, hi⟩ → u'.place = .scan (i + 1) →
      u'.choosingStrideOrMLFQ = false → u'.strideIsSelected = false →
      u'.ptable = u.ptable → u'.Ready m → u'.Settled a d → Phase a m d u')
    (hn : u.next .scan = some u') : ∃ d', Phase a m d' u' := by
  obtain ⟨s1, b, hsel, ht, rfl, hb, hrun⟩ := scan_selects hi h hplace hchoosing hn
  obtain ⟨-, -, hstep⟩ := runStep_of_runChosen hrun
  have hmono : strideSelections a u.selections ≤ strideSelections a u'.selections := by
    rw [hsel, strideSelections]
    omega
  have hsettled' := hsettled.of_sameTicks ht hmono
  cases hstep with
  | stride hchosen hplace' hstanding hselected =>
    have hlt := hb.mp hchosen
    refine ⟨d, .stride hplace' hselected (hready.of_switched hstanding) ?_ hsettled'.mlfq
      (hsel ▸ hstride hlt)⟩
    have hle := hsettled.stride
    rw [ht.stride, hsel, strideSelections_of_lt hlt]
    split <;> omega
  | none hchosen hplace' hstanding hselected hchoosing' =>
    refine ⟨d, .search hplace' hchoosing' hselected ?_ hsettled'
      (.inl (hsel ▸ hstride (hb.mp hchosen)))⟩
    have hsame : u'.ptable.standing m = u.ptable.standing m := congrFun hstanding m
    rw [Ready, hsame]
    exact hready
  | mlfq hchosen hel hplace' hstanding hselected =>
    have hge : a ≤ u.selections % 100 := by
      rw [← not_lt, ← hb]
      simpa using hchosen
    exact ⟨d + 1, phase_mlfq hready hsettled ht hmono rfl hel hplace' hselected hstanding
      (hsel ▸ hdispatch hge)⟩
  | skip hchosen hel hs' =>
    have hge : a ≤ u.selections % 100 := by
      rw [← not_lt, ← hb]
      simpa using hchosen
    have htable : u'.ptable = u.ptable := by
      rw [hs']
      rfl
    refine ⟨d, hskip hge hsel hel (by rw [hs']) (by rw [hs']) (by rw [hs']; exact hchosen) htable ?_
      hsettled'⟩
    rw [Ready, htable]
    exact hready

/-- **A turn of the loop** in which the MLFQ was chosen before. -/
theorem Phase.stands (hi : i < NPROC) (h : u.Steady a m) (hplace : u.place = .scan i)
    (hchoosing : u.choosingStrideOrMLFQ = false) (hselected : u.strideIsSelected = false)
    (hready : u.Ready m) (hsettled : u.Settled a d) (hdispatch : Debt a u.selections (d + 1) 0)
    (hskip : u'.selections = u.selections → ¬ Sched.Eligible u.ptable ⟨i, hi⟩ →
      u'.place = .scan (i + 1) → u'.choosingStrideOrMLFQ = false → u'.strideIsSelected = false →
      u'.ptable = u.ptable → u'.Ready m → u'.Settled a d → Phase a m d u')
    (hn : u.next .scan = some u') : ∃ d', Phase a m d' u' := by
  obtain ⟨hsel, ht, hrun⟩ := scan_stands hi h hplace hchoosing hn
  obtain ⟨-, -, hstep⟩ := runStep_of_runChosen hrun
  cases hstep with
  | stride hchosen _ _ _ =>
    rw [hselected] at hchosen
    contradiction
  | none hchosen _ _ _ _ =>
    rw [hselected] at hchosen
    contradiction
  | mlfq hchosen hel hplace' hstanding hselected' =>
    exact ⟨d + 1, phase_mlfq hready hsettled ht (by rw [hsel]) rfl hel hplace' hselected' hstanding
      (hsel ▸ hdispatch)⟩
  | skip hchosen hel hs' =>
    have htable : u'.ptable = u.ptable := by
      rw [hs']
      rfl
    refine ⟨d, hskip hsel hel (by rw [hs']) (by rw [hs']) (by rw [hs']; exact hchosen) htable ?_
      (hsettled.of_sameTicks ht (by rw [hsel]))⟩
    rw [Ready, htable]
    exact hready

/-- The end of a table scan, where a selection may be lost. -/
theorem Phase.ends (hi : NPROC ≤ i) (hplace : u.place = .scan i) (hready : u.Ready m)
    (hsettled : u.Settled a d) (hpaid : AlmostPaid a u.selections d)
    (hscan : u.choosingStrideOrMLFQ = true ∧ Debt a u.selections d 0 ∨
      u.choosingStrideOrMLFQ = false ∧ u.strideIsSelected = false)
    (hn : u.next .scan = some u') : Phase a m d u' := by
  rw [scan_ends hi hplace hn]
  obtain ⟨hstanding, -, -, hchoosing, hselected, hplace'⟩ := endScan_standing u.toSched
  have hready' : Ready m { u with toSched := u.endScan } := by
    rw [Ready]
    exact (congrArg Standing.state (congrFun hstanding m)).trans hready
  have hsettled' : Settled a d { u with toSched := u.endScan } := ⟨hsettled.stride, hsettled.mlfq⟩
  rcases hplace' with hplace' | hplace'
  · exact .released hplace' hready' hsettled' hpaid
  · rcases hscan with ⟨hc, hdebt⟩ | ⟨hc, hs⟩
    · exact .choose hplace' (hchoosing.trans hc) hready' hsettled' hdebt
    · exact .search hplace' (hchoosing.trans hc) (hselected.trans hs) hready' hsettled' hpaid

/-- **A turn of the loop**. -/
theorem Phase.scan (h : Phase a m d u) (hs : u.Steady a m) (hn : u.next .scan = some u') :
    ∃ d', Phase a m d' u' := by
  cases h with
  | released hplace _ _ _ =>
    obtain ⟨s, hs, -⟩ := Option.map_eq_some_iff.mp hn
    simp [Sched.next, hplace] at hs
  | @choose i hplace hchoosing hready hsettled hpaid =>
    rcases Nat.lt_or_ge i NPROC with hi | hi
    · exact Phase.selects hi hs hplace hchoosing hready hsettled hpaid.stride
        (fun hge => (hpaid.mlfq hge).dispatch)
        (fun hge hsel _ hp hc hsl _ hr hset => .search hp hc hsl hr hset (hsel ▸ hpaid.mlfq hge)) hn
    · exact ⟨d, Phase.ends hi hplace hready hsettled (.inl hpaid) (.inl ⟨hchoosing, hpaid⟩) hn⟩
  | fresh hplace hchoosing hlevel hready hsettled hpaid =>
    refine Phase.selects (by decide) hs hplace hchoosing hready hsettled hpaid.stride
      (fun hge => (hpaid.mlfq hge).dispatch) (fun hge hsel hel hp hc hsl htable hr hset => ?_) hn
    have hne : m ≠ 0 := by
      rintro rfl
      exact hel (eligible_of_ready hs hready hlevel)
    have hahead : 0 + 1 ≤ (m : Nat) := Fin.pos_iff_ne_zero.mpr hne
    exact .seek hp hc hsl hahead (htable ▸ hlevel) hr hset (hsel ▸ hpaid.mlfq hge)
  | @search i hplace hchoosing hselected hready hsettled hpaid =>
    rcases Nat.lt_or_ge i NPROC with hi | hi
    · exact Phase.stands hi hs hplace hchoosing hselected hready hsettled hpaid.dispatch
        (fun hsel _ hp hc hsl _ hr hset => .search hp hc hsl hr hset (hsel ▸ hpaid)) hn
    · exact ⟨d, Phase.ends hi hplace hready hsettled hpaid (.inr ⟨hchoosing, hselected⟩) hn⟩
  | @seek i hplace hchoosing hselected hahead hlevel hready hsettled hpaid =>
    have hi : i < NPROC := Nat.lt_of_le_of_lt hahead m.isLt
    refine Phase.stands hi hs hplace hchoosing hselected hready hsettled hpaid.dispatch
      (fun hsel hel hp hc hsl htable hr hset => ?_) hn
    have hne : i ≠ m := by
      rintro rfl
      exact hel (eligible_of_ready hs hready hlevel)
    exact .seek hp hc hsl (by omega) (htable ▸ hlevel) hr hset (hsel ▸ hpaid)
  | stride hplace _ _ _ _ _ =>
    obtain ⟨s, hs, -⟩ := Option.map_eq_some_iff.mp hn
    simp [Sched.next, hplace] at hs
  | mlfq hplace _ _ _ _ _ _ =>
    obtain ⟨s, hs, -⟩ := Option.map_eq_some_iff.mp hn
    simp [Sched.next, hplace] at hs

/-! ## Ticks -/

theorem phase_resumed (hu' : u'.toSched = s.resume p before)
    (hready : (s.ptable.standing m).state = .runnable) (hsettled : u'.Settled a d)
    (hpaid : Debt a u'.selections d 0) : Phase a m d u' := by
  obtain ⟨-, hselected, i, hplace, hscan⟩ := resume_cases s p before
  rw [← hu'] at hselected hplace hscan
  have hready' : u'.Ready m := by
    rw [Ready, hu', resume_ptable]
    exact hready
  rcases hscan with hc | ⟨hc, hs⟩
  · exact .choose hplace hc hready' hsettled hpaid
  · exact .search hplace hc (hselected.trans hs) hready' hsettled (.inl hpaid)

theorem tick_running (hplace : u.place = .running p before)
    (hn : u.next .tick = some u') : u'.toSched = u.tickRunning p before ∧
      u'.selections = u.selections ∧
      u'.strideTicks = u.strideTicks + (if (u.ptable.standing p).cpuShare = 0 then 0 else 1) ∧
      u'.allTicks = u.allTicks + 1 := by
  obtain ⟨s, hs, rfl⟩ := Option.map_eq_some_iff.mp hn
  simp only [Sched.next, hplace, Option.some.injEq] at hs
  subst hs
  have hcurrent : u.current = some p := by simp [current, hplace]
  simp only [hcurrent]
  refine ⟨trivial, trivial, ?_, trivial⟩
  by_cases hshare : (u.kernel.proc p).cpuShare = 0
  · rw [if_neg (not_not.mpr hshare), if_pos (show (u.ptable.standing p).cpuShare = 0 from hshare)]
  · rw [if_pos hshare, if_neg (show ¬ (u.ptable.standing p).cpuShare = 0 from hshare)]

/-- A boost changes no state and no share, and no tick counter grows. -/
theorem boost_bounds (s : Sched) (p : Slot) :
    (s.boost.ptable.standing p).state = (s.ptable.standing p).state ∧
      (s.boost.ptable.standing p).cpuShare = (s.ptable.standing p).cpuShare ∧
      (s.boost.ptable.standing p).used ≤ (s.ptable.standing p).used := by
  obtain ⟨-, -, hsame | hboosted⟩ := boost_standing s
  · rw [hsame]
    exact ⟨rfl, rfl, le_rfl⟩
  · rw [hboosted]
    exact ⟨rfl, rfl, Nat.zero_le _⟩

/-- `m` waits through a tick of somebody else, and after a tick in which it
yields. -/
theorem ready_yields (h : p = m ∨ (s.ptable.standing m).state = .runnable) :
    ((yieldTick (countTick s.boost.ptable p) p).standing m).state = .runnable := by
  rw [yieldTick_standing]
  split
  · rfl
  · next hne =>
    rw [(countTick_standing s.boost.ptable p m).2, if_neg hne, (boost_bounds s m).1]
    exact h.resolve_left fun hp => hne hp.symm

theorem ready_ticks (hu' : u'.toSched = u.boost.setTable (countTick u.boost.ptable p))
    (h : p = m ∨ u.Ready m) : p = m ∨ u'.Ready m := by
  by_cases hp : p = m
  · exact .inl hp
  refine .inr ?_
  have hready := h.resolve_left hp
  have hcount := (countTick_standing u.boost.ptable p m).2
  rw [if_neg (Ne.symm hp)] at hcount
  rw [Ready, hu']
  exact (congrArg Standing.state hcount).trans ((boost_bounds u.toSched m).1.trans hready)

theorem place_ticks (hu' : u'.toSched = u.boost.setTable (countTick u.boost.ptable p)) :
    u'.place = u.place ∧ u'.strideIsSelected = u.strideIsSelected := by
  rw [hu']
  exact ⟨boost_place u.toSched, boost_strideIsSelected u.toSched⟩

/-- A tick of a process found in the stride queue.  With a share it has had its
quantum. -/
theorem Phase.tick_stride (hs : u.Steady a m)
    (hplace : u.place = .running p before) (hselected : u.strideIsSelected = true)
    (hready : p = m ∨ u.Ready m)
    (hticks : u.strideTicks + (if (u.ptable.standing p).cpuShare = 0 then 0 else 1) ≤
      strideSelections a u.selections)
    (hmlfq : 5 * d + u.strideTicks ≤ u.allTicks) (hpaid : Debt a u.selections d 0)
    (hn : u.next .tick = some u') : Phase a m d u' := by
  obtain ⟨hu', hsel, hstride, hall⟩ := tick_running hplace hn
  obtain ⟨-, hshare, -⟩ := boost_bounds u.toSched p
  have hpaid' : Debt a u'.selections d 0 := hsel ▸ hpaid
  have hmlfq' : 5 * d + u'.strideTicks ≤ u'.allTicks := by
    rw [hstride, hall]
    split <;> omega
  rcases tickRunning_cases u.toSched p before with ⟨hlt, heq⟩ | ⟨-, heq⟩
  · rw [heq] at hu'
    have hzero : (u.ptable.standing p).cpuShare = 0 := by
      by_contra hne
      rw [quantumOf, if_pos (hshare ▸ hne), hs.paced.strideQuantum] at hlt
      simp [Standing.ticked] at hlt
    rw [if_pos hzero] at hticks hstride
    have hcount := (countTick_standing u.boost.ptable p p).2
    rw [if_pos rfl] at hcount
    have hzero' : (u'.ptable.standing p).cpuShare = 0 := by
      rw [hu']
      exact (congrArg Standing.cpuShare hcount).trans (hshare.trans hzero)
    obtain ⟨hplace', hselected'⟩ := place_ticks hu'
    refine .stride (hplace'.trans hplace) (hselected'.trans hselected) (ready_ticks hu' hready) ?_
      hmlfq' hpaid'
    rw [if_pos hzero', hstride, hsel]
    exact hticks
  · rw [heq] at hu'
    refine phase_resumed hu' (ready_yields hready) ⟨?_, hmlfq'⟩ hpaid'
    rw [hstride, hsel]
    exact hticks

/-- A tick of a process of the MLFQ.  Its quantum is five ticks or more. -/
theorem Phase.tick_mlfq (hs : u.Steady a m)
    (hplace : u.place = .running p before) (hselected : u.strideIsSelected = false)
    (hready : p = m ∨ u.Ready m) (hshare : (u.ptable.standing p).cpuShare = 0)
    (hstride : u.strideTicks ≤ strideSelections a u.selections)
    (hmlfq : 5 * d + (u.ptable.standing p).used + u.strideTicks ≤ u.allTicks + 5)
    (hpaid : Debt a u.selections d 0) (hn : u.next .tick = some u') : Phase a m d u' := by
  obtain ⟨hu', hsel, hstride', hall⟩ := tick_running hplace hn
  obtain ⟨-, hshareb, husedb⟩ := boost_bounds u.toSched p
  rw [if_pos hshare, add_zero] at hstride'
  have hpaid' : Debt a u'.selections d 0 := hsel ▸ hpaid
  have hticks : u'.strideTicks ≤ strideSelections a u'.selections := by
    rw [hstride', hsel]
    exact hstride
  rcases tickRunning_cases u.toSched p before with ⟨-, heq⟩ | ⟨hge, heq⟩
  · rw [heq] at hu'
    have hcount := (countTick_standing u.boost.ptable p p).2
    rw [if_pos rfl] at hcount
    have hstanding : u'.ptable.standing p = (u.boost.ptable.standing p).ticked := by
      rw [hu']
      exact hcount
    obtain ⟨hplace', hselected'⟩ := place_ticks hu'
    refine .mlfq (hplace'.trans hplace) (hselected'.trans hselected) (ready_ticks hu' hready) ?_
      hticks ?_ hpaid'
    · rw [hstanding]
      exact hshareb.trans hshare
    · rw [hstanding, hstride', hall]
      simp only [Standing.ticked]
      omega
  · rw [heq] at hu'
    refine phase_resumed hu' (ready_yields hready) ⟨hticks, ?_⟩ hpaid'
    have hquantum : 5 ≤ quantumOf u.ptable (u.boost.ptable.standing p) := by
      rw [quantumOf, if_neg (not_not.mpr (hshareb.trans hshare))]
      exact Quanta.quantum_pos hs.paced.quanta (hs.paced.boost.level p)
    rw [hstride', hall]
    simp only [Standing.ticked] at hge
    omega

/-! ## Other interrupts -/

/-- What an interrupt without a tick changes: sleepers are woken up, and the
tick counters may be reset. -/
structure Eases (s s' : Sched) : Prop where
  place : s'.place = s.place
  selected : s'.strideIsSelected = s.strideIsSelected
  selector : s'.queueSelector = s.queueSelector
  setup : s'.ptable.setup = s.ptable.setup
  ready : ∀ p, (s.ptable.standing p).state = .runnable → (s'.ptable.standing p).state = .runnable
  share : ∀ p, (s'.ptable.standing p).cpuShare = (s.ptable.standing p).cpuShare
  used : ∀ p, (s'.ptable.standing p).used ≤ (s.ptable.standing p).used

theorem eases_boost (s : Sched) : Eases s s.boost where
  place := boost_place s
  selected := boost_strideIsSelected s
  selector := (boost_standing s).2.1
  setup := (boost_standing s).1
  ready p h := (boost_bounds s p).1.trans h
  share p := (boost_bounds s p).2.1
  used p := (boost_bounds s p).2.2

theorem eases_interrupt (s : Sched) (chan : Chan) :
    Eases s (boost { s with kernel := s.kernel.wakeup1 chan }) := by
  have hboost := eases_boost { s with kernel := s.kernel.wakeup1 chan }
  have hwake := fun p => wakeup1_standing s.kernel chan p
  refine ⟨hboost.place, hboost.selected, hboost.selector, hboost.setup, fun p h => ?_, fun p => ?_,
    fun p => ?_⟩
  · refine hboost.ready p ?_
    rcases hwake p with hsame | ⟨hsleeping, -⟩
    · exact (congrArg Standing.state hsame).trans h
    · have hrun : (s.kernel.proc p).state = .runnable := h
      rw [hsleeping] at hrun
      contradiction
  · refine (hboost.share p).trans ?_
    show ((s.kernel.wakeup1 chan).ptable.standing p).cpuShare = _
    rcases hwake p with hsame | ⟨-, hwoken⟩
    · rw [hsame]
      rfl
    · rw [hwoken]
      rfl
  · refine (hboost.used p).trans ?_
    show ((s.kernel.wakeup1 chan).ptable.standing p).used ≤ _
    rcases hwake p with hsame | ⟨-, hwoken⟩
    · rw [hsame]
      exact le_rfl
    · rw [hwoken]
      exact le_rfl

theorem Phase.eases (h : Phase a m d u) (he : Eases u.toSched s)
    (hscan : ∀ i, u.place ≠ .scan i) : Phase a m d { u with toSched := s } := by
  have hready : u.Ready m → Ready m { u with toSched := s } := he.ready m
  cases h with
  | released hplace hr hsettled hpaid =>
    exact .released (he.place.trans hplace) (hready hr) ⟨hsettled.stride, hsettled.mlfq⟩ hpaid
  | choose hplace => exact absurd hplace (hscan _)
  | fresh hplace => exact absurd hplace (hscan _)
  | search hplace => exact absurd hplace (hscan _)
  | seek hplace => exact absurd hplace (hscan _)
  | @stride p _ hplace hselected hr hticks hmlfq hpaid =>
    refine .stride (he.place.trans hplace) (he.selected.trans hselected) (hr.imp_right hready) ?_
      hmlfq hpaid
    rw [show (ptable s).standing p = s.ptable.standing p from rfl, he.share p]
    exact hticks
  | @mlfq p _ hplace hselected hr hshare hstride hmlfq hpaid =>
    refine .mlfq (he.place.trans hplace) (he.selected.trans hselected) (hr.imp_right hready)
      ((he.share p).trans hshare) hstride ?_ hpaid
    have hle : (s.ptable.standing p).used ≤ (u.ptable.standing p).used := he.used p
    show 5 * d + (s.ptable.standing p).used + u.strideTicks ≤ u.allTicks + 5
    omega

/-- **Every act** of a CPU-bound run leads from phase to phase. -/
theorem Phase.next {act : Sched.Act} (h : Phase a m d u) (hs : u.Steady a m) (hact : CpuBound act)
    (hn : u.next act = some u') : ∃ d', Phase a m d' u' := by
  cases act with
  | process e => exact hact.elim
  | scan => exact h.scan hs hn
  | acquire =>
    obtain ⟨s, hok, rfl⟩ := Option.map_eq_some_iff.mp hn
    simp only [Sched.next] at hok
    split at hok
    · next hplace =>
      cases hok
      cases h with
      | released _ hready hsettled hpaid =>
        exact ⟨d, .fresh rfl rfl rfl hready ⟨hsettled.stride, hsettled.mlfq⟩ hpaid⟩
      | choose hplace' => simp [hplace] at hplace'
      | fresh hplace' => simp [hplace] at hplace'
      | search hplace' => simp [hplace] at hplace'
      | seek hplace' => simp [hplace] at hplace'
      | stride hplace' => simp [hplace] at hplace'
      | mlfq hplace' => simp [hplace] at hplace'
    · contradiction
  | tick =>
    cases h with
    | released hplace hready hsettled hpaid =>
      obtain ⟨s, hok, rfl⟩ := Option.map_eq_some_iff.mp hn
      simp only [Sched.next, hplace, Option.some.injEq] at hok
      subst hok
      have hcurrent : u.current = none := by simp [current, hplace]
      simp only [hcurrent]
      exact ⟨d, (Phase.released hplace hready hsettled hpaid).eases (eases_boost u.toSched)
        (by simp [hplace])⟩
    | choose hplace =>
      obtain ⟨s, hok, -⟩ := Option.map_eq_some_iff.mp hn
      simp [Sched.next, hplace] at hok
    | fresh hplace =>
      obtain ⟨s, hok, -⟩ := Option.map_eq_some_iff.mp hn
      simp [Sched.next, hplace] at hok
    | search hplace =>
      obtain ⟨s, hok, -⟩ := Option.map_eq_some_iff.mp hn
      simp [Sched.next, hplace] at hok
    | seek hplace =>
      obtain ⟨s, hok, -⟩ := Option.map_eq_some_iff.mp hn
      simp [Sched.next, hplace] at hok
    | stride hplace hselected hready hticks hmlfq hpaid =>
      exact ⟨d, .tick_stride hs hplace hselected hready hticks hmlfq hpaid hn⟩
    | mlfq hplace hselected hready hshare hstride hmlfq hpaid =>
      exact ⟨d, .tick_mlfq hs hplace hselected hready hshare hstride hmlfq hpaid hn⟩
  | interrupt chan =>
    obtain ⟨s, hok, rfl⟩ := Option.map_eq_some_iff.mp hn
    simp only [Sched.next] at hok
    split at hok
    · contradiction
    · next hscan =>
      cases hok
      exact ⟨d, h.eases (eases_interrupt u.toSched chan) fun i hi => hscan i hi⟩

/-! ## Runs -/

theorem cpuShare_of_runStep {s' : Sched} {i : Slot} (h : Sched.RunStep s i s') (q : Slot) :
    (s'.ptable.standing q).cpuShare = (s.ptable.standing q).cpuShare := by
  have hswitched : ∀ {p : Slot}, (∀ q, s'.ptable.standing q =
      if q = p then (s.ptable.standing p).switched else s.ptable.standing q) →
      (s'.ptable.standing q).cpuShare = (s.ptable.standing q).cpuShare := by
    intro p hstanding
    rw [hstanding]
    split
    · next hq => rw [hq]; rfl
    · rfl
  cases h with
  | stride _ _ hstanding _ => exact hswitched hstanding
  | none _ _ hstanding _ _ => rw [hstanding]
  | mlfq _ _ _ hstanding _ => exact hswitched hstanding
  | skip _ _ hs' => rw [hs']; rfl

/-- A tick touches neither the shares nor the selector. -/
theorem tickRunning_keeps (s : Sched) (p : Slot) (before : Nat) :
    (s.tickRunning p before).ptable.setup = s.ptable.setup ∧
      (s.tickRunning p before).queueSelector = s.queueSelector ∧
      ∀ q, ((s.tickRunning p before).ptable.standing q).cpuShare =
        (s.ptable.standing q).cpuShare := by
  obtain ⟨hsetup, hselector, -⟩ := boost_standing s
  have hcount := fun q => countTick_standing s.boost.ptable p q
  have hshare : ∀ q, ((countTick s.boost.ptable p).standing q).cpuShare =
      (s.ptable.standing q).cpuShare := by
    intro q
    rw [(hcount q).2, ← (boost_bounds s q).2.1]
    split
    · next hq => rw [hq]; rfl
    · rfl
  rcases tickRunning_cases s p before with ⟨-, heq⟩ | ⟨-, heq⟩
  · rw [heq]
    exact ⟨(hcount p).1.trans hsetup, hselector, hshare⟩
  rw [heq, resume_ptable, (resume_cases _ p before).1]
  refine ⟨(hcount p).1.trans hsetup, hselector, fun q => ?_⟩
  refine (congrArg Standing.cpuShare (yieldTick_standing _ p q)).trans ?_
  split
  · next hq => rw [hq]; exact hshare p
  · exact hshare q

theorem Steady.eases (h : u.Steady a m) (he : Eases u.toSched s) (hpaced : s.Paced) :
    Steady a m { u with toSched := s } :=
  h.of_table hpaced he.setup (he.share m) (by rw [he.selector]; exact h.selector)

theorem Steady.scan (h : u.Steady a m) (hplace : u.place = .scan i) (hpaced : u'.Paced)
    (hn : u.next .scan = some u') : u'.Steady a m := by
  rcases Nat.lt_or_ge i NPROC with hi | hi
  · by_cases hc : u.choosingStrideOrMLFQ = true
    · obtain ⟨s1, b, hsel, -, rfl, -, hrun⟩ := scan_selects hi h hplace hc hn
      obtain ⟨hsetup, hselector, hstep⟩ := runStep_of_runChosen hrun
      refine h.of_table hpaced hsetup (cpuShare_of_runStep hstep m) ?_
      have hold := h.selector
      have hnew : u'.queueSelector = (u.queueSelector + 1) % 100 := hselector
      rw [hnew, hsel]
      omega
    · have hc : u.choosingStrideOrMLFQ = false := by simpa using hc
      obtain ⟨hsel, -, hrun⟩ := scan_stands hi h hplace hc hn
      obtain ⟨hsetup, hselector, hstep⟩ := runStep_of_runChosen hrun
      refine h.of_table hpaced hsetup (cpuShare_of_runStep hstep m) ?_
      rw [hselector, hsel]
      exact h.selector
  · have hu' := scan_ends hi hplace hn
    obtain ⟨hstanding, hsetup, hselector, -⟩ := endScan_standing u.toSched
    rw [hu'] at hpaced ⊢
    refine h.of_table hpaced hsetup ?_ ?_
    · exact congrArg Standing.cpuShare (congrFun hstanding m)
    · exact (congrArg (fun q => (q + 1) % 100) hselector).trans h.selector

/-- **Every act** of a CPU-bound run keeps the shares. -/
theorem Steady.next {act : Sched.Act} (h : u.Steady a m) (hact : CpuBound act)
    (hn : u.next act = some u') : u'.Steady a m := by
  obtain ⟨s, hok, hu'⟩ := Option.map_eq_some_iff.mp hn
  have hpaced : s.Paced := h.paced.next hok
  cases act with
  | process e => exact hact.elim
  | acquire =>
    subst hu'
    simp only [Sched.next] at hok
    split at hok
    · cases hok
      exact h.of_table hpaced rfl rfl h.selector
    · contradiction
  | scan =>
    have hpaced' : u'.Paced := by
      rw [← hu']
      exact hpaced
    simp only [Sched.next] at hok
    split at hok
    · next i hplace => exact h.scan hplace hpaced' hn
    · contradiction
  | tick =>
    simp only [Sched.next] at hok
    split at hok
    · next p before hplace =>
      cases hok
      obtain ⟨hsetup, hselector, hshare⟩ := tickRunning_keeps u.toSched p before
      have hcurrent : u.current = some p := by simp [current, hplace]
      simp only [hcurrent] at hu'
      subst hu'
      refine h.of_table hpaced hsetup (hshare m) ?_
      exact (congrArg (fun q => (q + 1) % 100) hselector).trans h.selector
    · next hplace =>
      cases hok
      have hcurrent : u.current = none := by simp [current, hplace]
      simp only [hcurrent] at hu'
      subst hu'
      exact h.eases (eases_boost u.toSched) hpaced
    · contradiction
  | interrupt chan =>
    subst hu'
    simp only [Sched.next] at hok
    split at hok
    · contradiction
    · cases hok
      exact h.eases (eases_interrupt u.toSched chan) hpaced

/-- **Run**: a CPU-bound run goes from phase to phase. -/
theorem phase_of_run {acts : List Sched.Act} (hs : u.Steady a m) (h : Phase a m d u)
    (hacts : ∀ act ∈ acts, CpuBound act) (hrun : runFrom next u acts = some u') :
    ∃ d', Phase a m d' u' := by
  induction acts generalizing u d with
  | nil =>
    rw [runFrom, Option.some.injEq] at hrun
    exact ⟨d, hrun ▸ h⟩
  | cons act acts ih =>
    obtain ⟨u1, h1, hrun⟩ := Option.bind_eq_some_iff.mp hrun
    have hact := hacts act List.mem_cons_self
    obtain ⟨d1, hphase⟩ := h.next hs hact h1
    exact ih (hs.next hact h1) hphase (fun b hb => hacts b (List.mem_cons_of_mem act hb)) hrun

theorem Phase.bounds (h : Phase a m d u) : u.strideTicks ≤ strideSelections a u.selections ∧
    5 * d + u.strideTicks ≤ u.allTicks + 5 ∧ Debt a u.selections d 2 := by
  have hsettled : u.Settled a d → AlmostPaid a u.selections d →
      u.strideTicks ≤ strideSelections a u.selections ∧
        5 * d + u.strideTicks ≤ u.allTicks + 5 ∧ Debt a u.selections d 2 := by
    rintro ⟨hstride, hmlfq⟩ hpaid
    refine ⟨hstride, by omega, ?_⟩
    rcases hpaid with h | ⟨h, -⟩ <;> unfold Debt at * <;> omega
  cases h with
  | released _ _ hs hpaid => exact hsettled hs hpaid
  | choose _ _ _ hs hpaid => exact hsettled hs (.inl hpaid)
  | fresh _ _ _ _ hs hpaid => exact hsettled hs hpaid
  | search _ _ _ _ hs hpaid => exact hsettled hs hpaid
  | seek _ _ _ _ _ _ hs hpaid => exact ⟨hs.stride, by have := hs.mlfq; omega, hpaid⟩
  | stride _ _ _ hticks hmlfq hpaid =>
    exact ⟨by omega, by omega, Nat.le_add_right_of_le hpaid⟩
  | mlfq _ _ _ _ hstride hmlfq hpaid =>
    exact ⟨hstride, by omega, Nat.le_add_right_of_le hpaid⟩

/-- The ticks of the stride queue are its part of all ticks, up to `c` ticks. -/
def Guaranteed (share : Int) (c : Nat) (u : Usage) : Prop :=
  share * u.allTicks ≤ 1000 * (u.strideTicks + c)

instance (share : Int) (c : Nat) (u : Usage) : Decidable (u.Guaranteed share c) :=
  inferInstanceAs (Decidable (_ ≤ _))

theorem not_guaranteed_of_bounds {share : Int} {k : Nat} (ha : 1 ≤ a) (ha' : a ≤ 80)
    (hshare : 10 * (a : Int) ≤ share) (hk : 1 ≤ k) (hstride : u.strideTicks ≤ a * k)
    (hmlfq : 5 * d + u.strideTicks ≤ u.allTicks + 5)
    (hdebt : 100 * k ≤ a * k + 2 * d + (100 * k + 99) / 100 + 2) : ¬ u.Guaranteed share k := by
  unfold Guaranteed
  have hmul : 10 * (a : Int) * u.allTicks ≤ share * u.allTicks :=
    mul_le_mul_of_nonneg_right hshare (by positivity)
  intro h
  have hle := hmul.trans h
  interval_cases a <;> omega

/-- The next act is the first selection of a round of a hundred. -/
structure BeginsRound (s : Sched) : Prop where
  place : ∃ i, s.place = .scan i
  choosing : s.choosingStrideOrMLFQ = true
  selector : (s.queueSelector + 1) % 100 = 0

/-- **The stride queue misses its share**: on one CPU, with processes that use
all of their time quanta, a process in the MLFQ and members of the stride
queue, the stride queue is behind its part of the ticks by more than `k` ticks
after `k` rounds of a hundred selections. -/
theorem not_guaranteed_of_cpuBound {s : Sched} (hs : s.ReachableBy fun _ _ => True)
    (hround : BeginsRound s) {m : Slot} (hm : s.ptable.Waits m)
    (hlo : 10 ≤ s.ptable.sumCpuShare.toInt) (hhi : s.ptable.sumCpuShare.toInt ≤ 800)
    (hsize : 0 < s.ptable.strideQueueSize) {acts : List Sched.Act} {u : Usage}
    (hacts : ∀ act ∈ acts, CpuBound act) (hrun : runFrom next (start s) acts = some u) {k : Nat}
    (hk : 1 ≤ k) (hsel : u.selections = 100 * k) : ¬ u.Guaranteed s.ptable.sumCpuShare.toInt k := by
  -- the selections that the stride queue gets in a round
  obtain ⟨a, ha⟩ : ∃ a : Nat, (s.ptable.sumCpuShare / 10).toInt = a ∧
      10 * (a : Int) ≤ s.ptable.sumCpuShare.toInt ∧ 1 ≤ a ∧ a ≤ 80 := by
    have hdiv : (s.ptable.sumCpuShare / 10).toInt = s.ptable.sumCpuShare.toInt / 10 := by
      rw [Int32.toInt_div_of_ne_right _ _ (by decide), Int.tdiv_eq_ediv_of_nonneg (by omega)]
      rfl
    exact ⟨(s.ptable.sumCpuShare.toInt / 10).toNat, by rw [hdiv]; omega, by omega, by omega, by omega⟩
  obtain ⟨hpart, hshare, ha1, ha2⟩ := ha
  have hsum : s.ptable.sumCpuShare ≠ 0 := by
    intro h
    rw [h] at hlo
    contradiction
  have hsteady : Steady a m (start s) :=
    ⟨paced_of_reachable hs, hsum, hpart, hsize.ne', hm.2, hround.selector⟩
  have hphase : Phase a m 0 (start s) := by
    obtain ⟨i, hi⟩ := hround.place
    exact .choose hi hround.choosing hm.1 ⟨le_rfl, le_rfl⟩ (Nat.zero_le _)
  obtain ⟨d, hphase⟩ := phase_of_run hsteady hphase hacts hrun
  obtain ⟨hstride, hmlfq, hdebt⟩ := hphase.bounds
  have hrounds := strideSelections_rounds (show a ≤ 100 by omega) k
  rw [hsel, hrounds] at hstride
  rw [Debt, hsel, hrounds] at hdebt
  exact not_guaranteed_of_bounds ha1 ha2 hshare hk hstride hmlfq hdebt

/-! ## A round with a share of 80 per cent -/

/-- What happens next when nothing else does. -/
def nextAct (u : Usage) : Sched.Act :=
  match u.place with
  | .released => .acquire
  | .scan _ => .scan
  | .running _ _ => .tick

/-- The state after `n` such acts. -/
def spin : Nat → Usage → Option Usage
  | 0, u => some u
  | n + 1, u => (u.next u.nextAct).bind (spin n)

theorem run_of_spin {n : Nat} (h : spin n u = some u') :
    ∃ acts, (∀ act ∈ acts, CpuBound act) ∧ runFrom next u acts = some u' := by
  induction n generalizing u with
  | zero => exact ⟨[], by simp, h⟩
  | succ n ih =>
    obtain ⟨u1, h1, h⟩ := Option.bind_eq_some_iff.mp h
    obtain ⟨acts, hacts, hrun⟩ := ih h
    refine ⟨u.nextAct :: acts, ?_, by rw [runFrom, h1]; exact hrun⟩
    intro act hact
    rcases List.mem_cons.mp hact with rfl | hact
    · unfold nextAct
      split <;> trivial
    · exact hacts act hact

/-- Init creates three children, takes a share of 80 per cent and yields. -/
def shared : List Sched.Act :=
  [.process (.call 0 .fork), .process (.call 0 .fork), .process (.call 0 .fork),
    .process (.call 0 (.setCpuShare 80)), .process (.yield 0)]

/-- In the round that follows, init has 80 of 290 ticks. -/
theorem exists_shared : ∃ (s : Sched) (acts : List Sched.Act) (u : Usage),
    (s.ReachableBy fun _ _ => True) ∧ BeginsRound s ∧ s.ptable.Waits 1 ∧
    s.ptable.sumCpuShare.toInt = 800 ∧ s.ptable.strideQueueSize = 1 ∧
    (∀ act ∈ acts, CpuBound act) ∧ runFrom next (start s) acts = some u ∧
    u.selections = 100 ∧ u.strideTicks = 80 ∧ u.allTicks = 290 := by
  obtain ⟨s, hs, hplace, hchoosing, hselector, hwaits, hsum, hsize, hspin⟩ :=
    exists_reachableBy (fun _ _ => True)
      (P := fun s => s.place = .scan 1 ∧ s.choosingStrideOrMLFQ = true ∧
        (s.queueSelector + 1) % 100 = 0 ∧ s.ptable.Waits 1 ∧ s.ptable.sumCpuShare.toInt = 800 ∧
        s.ptable.strideQueueSize = 1 ∧
        (spin 1024 (start s)).any (fun u => decide
          (u.selections = 100 ∧ u.strideTicks = 80 ∧ u.allTicks = 290)) = true)
      (List.range' 1 400) (fun _ => false) Kernel.smallProgram shared (by decide +kernel)
  obtain ⟨u, hu, hticks⟩ := (Option.any_eq_true _ _).mp hspin
  obtain ⟨acts, hacts, hrun⟩ := run_of_spin hu
  exact ⟨s, acts, u, hs, ⟨⟨1, hplace⟩, hchoosing, hselector⟩, hwaits, hsum, hsize, hacts, hrun,
    of_decide_eq_true hticks⟩

theorem not_guaranteed_shared : ∃ (s : Sched) (acts : List Sched.Act) (u : Usage),
    (s.ReachableBy fun _ _ => True) ∧ BeginsRound s ∧ s.ptable.sumCpuShare.toInt = 800 ∧
    (∀ act ∈ acts, CpuBound act) ∧ runFrom next (start s) acts = some u ∧
    u.selections = 100 * 1 ∧ ¬ u.Guaranteed s.ptable.sumCpuShare.toInt 1 := by
  obtain ⟨s, acts, u, hs, hround, hwaits, hsum, hsize, hacts, hrun, hsel, -⟩ := exists_shared
  exact ⟨s, acts, u, hs, hround, hsum, hacts, hrun, hsel, not_guaranteed_of_cpuBound hs hround hwaits
    (by omega) (by omega) (by omega) hacts hrun le_rfl hsel⟩

/-- After one round the stride queue is behind by more than 100 ticks. -/
theorem not_guaranteed_hundred : ∃ (s : Sched) (acts : List Sched.Act) (u : Usage),
    (s.ReachableBy fun _ _ => True) ∧ BeginsRound s ∧ s.ptable.Waits 1 ∧
    s.ptable.sumCpuShare.toInt = 800 ∧ s.ptable.strideQueueSize = 1 ∧
    (∀ act ∈ acts, CpuBound act) ∧ runFrom next (start s) acts = some u ∧
    u.selections = 100 * 1 ∧ ¬ u.Guaranteed 800 100 := by
  obtain ⟨s, acts, u, hs, hround, hwaits, hsum, hsize, hacts, hrun, hsel, hstride, hall⟩ :=
    exists_shared
  refine ⟨s, acts, u, hs, hround, hwaits, hsum, hsize, hacts, hrun, hsel, ?_⟩
  rw [Guaranteed, hstride, hall]
  decide

end Usage
end Xv6
