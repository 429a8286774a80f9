import Xv6.Quantum

/-!
# Xv6.Share.Standing

What `scheduler()` and `trap()` go by in the process table, and what each of
their steps does to it: one lemma for each step of `Sched`, without the pass
values, the files and the memory of the processes.
-/

namespace Xv6

open Lib

/-! ## What the scheduler goes by -/

/-- What `scheduler()` and `trap()` look at in an entry. -/
structure Standing where
  state : ProcState
  cpuShare : Int32
  level : Nat
  used : Nat

def Proc.standing (x : Proc) : Standing where
  state := x.state
  cpuShare := x.cpuShare
  level := x.levelOfMLFQ
  used := x.timeQuantumUsed

namespace Standing

/-- A process that is switched to. -/
def switched (x : Standing) : Standing := { x with state := .running, used := 0 }

/-- A process after `priority_boost`. -/
def boosted (x : Standing) : Standing := { x with level := 0, used := 0 }

/-- A sleeper that is woken up. -/
def woken (x : Standing) : Standing := { x with state := .runnable }

/-- A process that has had another tick. -/
def ticked (x : Standing) : Standing := { x with used := x.used + 1 }

/-- A process that has used its time quantum and yields. -/
def yielded (x : Standing) : Standing where
  state := .runnable
  cpuShare := x.cpuShare
  level := if x.level < NMLFQ - 1 then x.level + 1 else x.level
  used := 0

end Standing

/-- What the selections and the time quanta depend on outside the entries. -/
structure Setup where
  sumCpuShare : Int32
  strideQueueSize : Int
  mlfqTimeQuantum : Nat → Nat
  strideTimeQuantum : Nat

namespace PTable

variable {t t' : PTable}

def standing (t : PTable) (p : Slot) : Standing := (t.proc p).standing

def setup (t : PTable) : Setup where
  sumCpuShare := t.sumCpuShare
  strideQueueSize := t.strideQueueSize
  mlfqTimeQuantum := t.mlfqTimeQuantum
  strideTimeQuantum := t.strideTimeQuantum

theorem setProc_standing (t : PTable) (p q : Slot) (f : Proc → Proc) :
    (t.setProc p f).standing q = if q = p then (f (t.proc p)).standing else t.standing q := by
  by_cases hq : q = p
  · rw [if_pos hq, hq, standing, setProc_proc_same]
  · rw [if_neg hq, standing, setProc_proc_of_ne _ _ hq, standing]

/-- A search changes pass values and the order of the queue. -/
theorem search_standing {k : Nat} (h : t.findLoop (t.strideQueueSize.toNat + 1) 1 = .ok (t', k)) :
    t'.standing = t.standing ∧ t'.setup = t.setup := by
  rcases search_cases h with ⟨-, rfl⟩ | ⟨r, i, -, -, -, hsift⟩
  · exact ⟨rfl, rfl⟩
  obtain ⟨q, rfl⟩ := strideQueueHeapifyDown_eq hsift
  refine ⟨funext fun p => ?_, rfl⟩
  have hcharge := setProc_standing t r p fun x =>
    { x with strideCount := x.strideCount + x.stride }
  by_cases hp : p = r
  · rw [if_pos hp] at hcharge
    exact hp ▸ hcharge
  · rw [if_neg hp] at hcharge
    exact hcharge

end PTable

namespace Machine

variable {m m' : Machine}

theorem switchTo_standing (m : Machine) (p q : Slot) :
    (m.switchTo p).kernel.ptable.standing q =
      if q = p then (m.kernel.ptable.standing p).switched else m.kernel.ptable.standing q :=
  PTable.setProc_standing m.kernel.ptable p q fun x =>
    { x with state := .running, timeQuantumUsed := 0 }

/-- Running the stride queue changes the standing of the one it switches to. -/
theorem runStride_standing {o : Option Slot} (h : m.runStride = .ok (m', o)) :
    m'.kernel.ptable.setup = m.kernel.ptable.setup ∧ m'.queueSelector = m.queueSelector ∧
      match o with
      | some p => ∀ q, m'.kernel.ptable.standing q =
          if q = p then (m.kernel.ptable.standing p).switched else m.kernel.ptable.standing q
      | none => m'.kernel.ptable.standing = m.kernel.ptable.standing := by
  obtain ⟨t, i, hfind, ho⟩ := Quanta.runStride_eq h
  obtain ⟨⟨k, hk⟩, -⟩ := PTable.findIdxOfStrideToRun_eq_ok hfind
  obtain ⟨hstanding, hsetup⟩ := PTable.search_standing hk
  cases o with
  | none =>
    cases ho
    exact ⟨hsetup, rfl, hstanding⟩
  | some p =>
    cases ho
    refine ⟨hsetup, rfl, fun q => ?_⟩
    have hq := switchTo_standing { m with kernel := { m.kernel with ptable := t } } p q
    simp only [hstanding] at hq
    exact hq

/-- A selection from a stride queue that is not empty counts up the selector
and looks at nothing but the sum. -/
theorem selectStrideOrMLFQ_eq {b : Bool} (hsize : m.kernel.ptable.strideQueueSize ≠ 0)
    (h : m.selectStrideOrMLFQ = .ok (m', b)) :
    m' = { m with queueSelector := (m.queueSelector + 1) % 100 } ∧
      (b = true ↔ (m.queueSelector + 1) % 100 < (m.kernel.ptable.sumCpuShare / 10).toInt) := by
  obtain ⟨-, -, h⟩ := bind_eq_ok.mp h
  simp only at h
  split at h
  · next hlt =>
    cases h
    exact ⟨rfl, by simpa using hlt⟩
  · next hlt =>
    cases h
    exact ⟨rfl, by simpa using hlt⟩

end Machine

namespace Sched

variable {s s' : Sched}

/-! ## Interrupts -/

theorem boost_standing (s : Sched) :
    s.boost.ptable.setup = s.ptable.setup ∧ s.boost.queueSelector = s.queueSelector ∧
      (s.boost.ptable.standing = s.ptable.standing ∨
        s.boost.ptable.standing = fun p => (s.ptable.standing p).boosted) := by
  unfold boost
  split
  · exact ⟨rfl, rfl, .inr rfl⟩
  · exact ⟨rfl, rfl, .inl rfl⟩

theorem boost_strideIsSelected (s : Sched) : s.boost.strideIsSelected = s.strideIsSelected := by
  unfold boost
  split
  · rfl
  · rfl

theorem wakeup1_standing (k : Kernel) (chan : Chan) (p : Slot) :
    (k.wakeup1 chan).ptable.standing p = k.ptable.standing p ∨
      (k.proc p).state = .sleeping ∧
        (k.wakeup1 chan).ptable.standing p = (k.ptable.standing p).woken := by
  by_cases hp : (k.proc p).state = .sleeping ∧ (k.proc p).chan = chan
  · exact .inr ⟨hp.1, congrArg Proc.standing (if_pos hp)⟩
  · exact .inl (congrArg Proc.standing (if_neg hp))

theorem countTick_standing (t : PTable) (p q : Slot) :
    (countTick t p).setup = t.setup ∧
      (countTick t p).standing q = if q = p then (t.standing p).ticked else t.standing q := by
  have hset := t.setProc_standing p q fun x =>
    { x with tickUsed := x.tickUsed + 1, timeQuantumUsed := x.timeQuantumUsed + 1 }
  unfold countTick
  simp only
  split
  · exact ⟨rfl, hset⟩
  · exact ⟨rfl, hset⟩

theorem yieldTick_standing (t : PTable) (p q : Slot) :
    (yieldTick t p).standing q = if q = p then (t.standing p).yielded else t.standing q :=
  t.setProc_standing p q fun x =>
    { x with
      levelOfMLFQ := if x.levelOfMLFQ < NMLFQ - 1 then x.levelOfMLFQ + 1 else x.levelOfMLFQ
      timeQuantumUsed := 0
      state := .runnable }

/-- Back in `scheduler()`: a queue is chosen next, unless a process of the MLFQ
is run again. -/
theorem resume_cases (s : Sched) (p : Slot) (before : Nat) :
    (s.resume p before).queueSelector = s.queueSelector ∧
      (s.resume p before).strideIsSelected = s.strideIsSelected ∧
      ∃ i, (s.resume p before).place = .scan i ∧
        ((s.resume p before).choosingStrideOrMLFQ = true ∨
          (s.resume p before).choosingStrideOrMLFQ = false ∧ s.strideIsSelected = false) := by
  unfold resume
  simp only
  split
  · next hrerun => exact ⟨rfl, rfl, _, rfl, .inr ⟨rfl, hrerun.1⟩⟩
  · split
    · exact ⟨rfl, rfl, _, rfl, .inl rfl⟩
    · exact ⟨rfl, rfl, _, rfl, .inl rfl⟩

/-- The time quantum of an entry. -/
def quantumOf (t : PTable) (x : Standing) : Nat :=
  if x.cpuShare ≠ 0 then t.strideTimeQuantum else t.mlfqTimeQuantum x.level

/-- A tick of the process `p` that runs: it is counted, and `p` goes on, or it
was the last one of the quantum of `p`. -/
theorem tickRunning_cases (s : Sched) (p : Slot) (before : Nat) :
    ((s.boost.ptable.standing p).ticked.used < quantumOf s.ptable (s.boost.ptable.standing p) ∧
      s.tickRunning p before = s.boost.setTable (countTick s.boost.ptable p)) ∨
    (quantumOf s.ptable (s.boost.ptable.standing p) ≤ (s.boost.ptable.standing p).ticked.used ∧
      s.tickRunning p before =
        (s.boost.setTable (yieldTick (countTick s.boost.ptable p) p)).resume p before) := by
  obtain ⟨hsetup, -⟩ := boost_standing s
  have hcount := countTick_standing s.boost.ptable p p
  rw [if_pos rfl] at hcount
  have hused : ((countTick s.boost.ptable p).proc p).timeQuantumUsed =
      (s.boost.ptable.standing p).ticked.used := congrArg Standing.used hcount.2
  have hquantum : getTimeQuantum (countTick s.boost.ptable p) p =
      quantumOf s.ptable (s.boost.ptable.standing p) := by
    have hset := hcount.1.trans hsetup
    have hshare : ((countTick s.boost.ptable p).proc p).cpuShare =
        (s.boost.ptable.standing p).cpuShare := congrArg Standing.cpuShare hcount.2
    have hlevel : ((countTick s.boost.ptable p).proc p).levelOfMLFQ =
        (s.boost.ptable.standing p).level := congrArg Standing.level hcount.2
    unfold getTimeQuantum quantumOf
    rw [hshare, hlevel,
      show (countTick s.boost.ptable p).strideTimeQuantum = s.ptable.strideTimeQuantum from
        congrArg Setup.strideTimeQuantum hset,
      show (countTick s.boost.ptable p).mlfqTimeQuantum = s.ptable.mlfqTimeQuantum from
        congrArg Setup.mlfqTimeQuantum hset]
  unfold tickRunning
  simp only [hused, hquantum]
  split
  · next hge => exact .inr ⟨hge, rfl⟩
  · next hlt => exact .inl ⟨by omega, rfl⟩

/-! ## One turn of the for loop -/

/-- The choice of a queue, when the stride queue has shares and members: the
selector is counted up, or the last choice stands. -/
theorem chooseQueue_cases (hsum : s.ptable.sumCpuShare ≠ 0) (hsize : s.ptable.strideQueueSize ≠ 0)
    (h : s.chooseQueue = .ok s') :
    s.choosingStrideOrMLFQ = false ∧ s' = s ∨
      s.choosingStrideOrMLFQ = true ∧ ∃ b : Bool,
        s' = { s with queueSelector := (s.queueSelector + 1) % 100, strideIsSelected := b } ∧
        (b = true ↔ (s.queueSelector + 1) % 100 < (s.ptable.sumCpuShare / 10).toInt) := by
  unfold chooseQueue at h
  rw [if_neg hsum] at h
  split at h
  · next hc =>
    obtain ⟨⟨m, b⟩, hm, h⟩ := bind_eq_ok.mp h
    obtain ⟨rfl, hb⟩ := Machine.selectStrideOrMLFQ_eq hsize hm
    cases h
    exact .inr ⟨hc, b, rfl, hb⟩
  · next hc =>
    cases h
    exact .inl ⟨by simpa using hc, rfl⟩

/-- What the second part of the loop body does at entry `i`. -/
inductive RunStep (s : Sched) (i : Slot) (s' : Sched) : Prop where
  /-- The stride queue is chosen, and `p` runs. -/
  | stride {p : Slot} {before : Nat} (hchosen : s.strideIsSelected = true)
      (hplace : s'.place = .running p before)
      (hstanding : ∀ q, s'.ptable.standing q =
        if q = p then (s.ptable.standing p).switched else s.ptable.standing q)
      (hselected : s'.strideIsSelected = true)
  /-- The stride queue is chosen, and has nobody to run. -/
  | none (hchosen : s.strideIsSelected = true) (hplace : s'.place = .scan (i + 1))
      (hstanding : s'.ptable.standing = s.ptable.standing)
      (hselected : s'.strideIsSelected = false) (hchoosing : s'.choosingStrideOrMLFQ = false)
  /-- The MLFQ is chosen, and runs the process of the entry. -/
  | mlfq {before : Nat} (hchosen : s.strideIsSelected = false) (hel : Eligible s.ptable i)
      (hplace : s'.place = .running i before)
      (hstanding : ∀ q, s'.ptable.standing q =
        if q = i then (s.ptable.standing i).switched else s.ptable.standing q)
      (hselected : s'.strideIsSelected = false)
  /-- The MLFQ is chosen, and goes on to the next entry. -/
  | skip (hchosen : s.strideIsSelected = false) (hel : ¬ Eligible s.ptable i)
      (hs' : s' = { s with choosingStrideOrMLFQ := false, place := .scan (i + 1) })

theorem runStep_of_runChosen {i : Slot} (h : s.runChosen i = .ok s') :
    s'.ptable.setup = s.ptable.setup ∧ s'.queueSelector = s.queueSelector ∧ RunStep s i s' := by
  unfold runChosen at h
  split at h
  · next hchosen =>
    obtain ⟨⟨m, o⟩, hm, h⟩ := bind_eq_ok.mp h
    obtain ⟨hsetup, hselector, hstanding⟩ := Machine.runStride_standing hm
    cases o with
    | none =>
      cases h
      exact ⟨hsetup, hselector, .none hchosen rfl hstanding rfl rfl⟩
    | some p =>
      cases h
      exact ⟨hsetup, hselector, .stride hchosen rfl hstanding hchosen⟩
  · next hchosen =>
    have hchosen : s.strideIsSelected = false := by simpa using hchosen
    split at h
    · next hel =>
      cases h
      refine ⟨rfl, rfl, .mlfq hchosen hel rfl (fun q => ?_) hchosen⟩
      exact Machine.switchTo_standing (s.setTable (lowerLevel s.ptable i)).toMachine i q
    · next hel =>
      cases h
      exact ⟨rfl, rfl, .skip hchosen hel rfl⟩

theorem endScan_standing (s : Sched) :
    s.endScan.ptable.standing = s.ptable.standing ∧ s.endScan.ptable.setup = s.ptable.setup ∧
      s.endScan.queueSelector = s.queueSelector ∧
      s.endScan.choosingStrideOrMLFQ = s.choosingStrideOrMLFQ ∧
      s.endScan.strideIsSelected = s.strideIsSelected ∧
      (s.endScan.place = .released ∨ s.endScan.place = .scan 0) := by
  unfold endScan
  simp only
  split
  · split
    · exact ⟨rfl, rfl, rfl, rfl, rfl, .inr rfl⟩
    · exact ⟨rfl, rfl, rfl, rfl, rfl, .inl rfl⟩
  · split
    · exact ⟨rfl, rfl, rfl, rfl, rfl, .inr rfl⟩
    · exact ⟨rfl, rfl, rfl, rfl, rfl, .inl rfl⟩

/-! ## Levels and quanta in every reachable state -/

/-- The levels are those of the MLFQ, and the time quanta those of `pinit`. -/
structure Paced (s : Sched) : Prop where
  level : ∀ p, (s.ptable.standing p).level ≤ NMLFQ - 1
  quanta : s.ptable.mlfqTimeQuantum = PTable.pinit.mlfqTimeQuantum
  strideQuantum : s.ptable.strideTimeQuantum = 1

section

variable (h : s.Paced)
include h

theorem Paced.of_table (hsetup : s'.ptable.setup = s.ptable.setup)
    (hlevel : ∀ p, (s'.ptable.standing p).level ≤ NMLFQ - 1) : s'.Paced :=
  ⟨hlevel, (congrArg Setup.mlfqTimeQuantum hsetup).trans h.quanta,
    (congrArg Setup.strideTimeQuantum hsetup).trans h.strideQuantum⟩

theorem Paced.of_same (hsetup : s'.ptable.setup = s.ptable.setup)
    (hstanding : s'.ptable.standing = s.ptable.standing) : s'.Paced :=
  h.of_table hsetup fun p => by
    rw [hstanding]
    exact h.level p

theorem Paced.boost : s.boost.Paced := by
  obtain ⟨hsetup, -, hsame | hboosted⟩ := boost_standing s
  · exact h.of_same hsetup hsame
  · refine h.of_table hsetup fun p => ?_
    rw [hboosted]
    exact Nat.zero_le _

theorem Paced.tickRunning (p : Slot) (before : Nat) : (s.tickRunning p before).Paced := by
  have hcount := fun q => countTick_standing s.boost.ptable p q
  have hticked : ∀ q, ((countTick s.boost.ptable p).standing q).level ≤ NMLFQ - 1 := by
    intro q
    rw [(hcount q).2]
    split
    · exact h.boost.level p
    · exact h.boost.level q
  rcases tickRunning_cases s p before with ⟨-, heq⟩ | ⟨-, heq⟩
  · rw [heq]
    exact h.boost.of_table (hcount p).1 hticked
  rw [heq]
  refine h.boost.of_table ?_ fun q => ?_
  · rw [resume_ptable]
    exact (hcount p).1
  · rw [resume_ptable]
    refine (congrArg Standing.level (yieldTick_standing _ p q)).trans_le ?_
    split
    · have hp := hticked p
      simp only [Standing.yielded]
      split
      · omega
      · exact hp
    · exact hticked q

theorem Paced.scan {i : Nat} (hs : s.scan i = .ok s') : s'.Paced := by
  unfold Sched.scan at hs
  split at hs
  · obtain ⟨s1, h1, hs⟩ := bind_eq_ok.mp hs
    have hs1 : s1.Paced := by
      rcases chooseQueue_ptable h1 with ht | ht
      · exact h.of_same (by rw [ht]) (by rw [ht])
      · exact ⟨fun p => by rw [ht]; exact h.level p, by rw [ht]; exact h.quanta,
          by rw [ht]; exact h.strideQuantum⟩
    obtain ⟨hsetup, -, hstep⟩ := runStep_of_runChosen hs
    have hswitched : ∀ {p : Slot}, (∀ q, s'.ptable.standing q =
        if q = p then (s1.ptable.standing p).switched else s1.ptable.standing q) → s'.Paced := by
      intro p hstanding
      refine hs1.of_table hsetup fun q => ?_
      rw [hstanding]
      split
      · exact hs1.level p
      · exact hs1.level q
    cases hstep with
    | stride _ _ hstanding _ => exact hswitched hstanding
    | none _ _ hstanding _ _ => exact hs1.of_same hsetup hstanding
    | mlfq _ _ _ hstanding _ => exact hswitched hstanding
    | skip _ _ hs' => exact hs1.of_same hsetup (by rw [hs']; rfl)
  · cases hs
    obtain ⟨hstanding, hsetup, -⟩ := endScan_standing s
    exact h.of_same hsetup hstanding

/-- An event of the running process keeps the levels within the MLFQ. -/
theorem Paced.process {p : Slot} {before : Nat} {e : Kernel.Event}
    (hs : s.process p before e = some s') : s'.Paced := by
  unfold Sched.process at hs
  split at hs
  · next hacts =>
    obtain ⟨k, hk, rfl⟩ := Option.map_eq_some_iff.mp hs
    have hlevel : ∀ q, (k.ptable.standing q).level ≤ NMLFQ - 1 := by
      intro q
      by_cases hstays : Kernel.Stays e
      · rcases (Kernel.keep_of_next hstays hk q).counters with hsame | ⟨hzero, -⟩
        · exact hsame.1.trans_le (h.level q)
        · exact hzero.1.trans_le (Nat.zero_le _)
      · cases e with
        | yield r =>
          obtain ⟨-, hok⟩ := Kernel.next_eq_some.mp hk
          cases hok
          have hyield := s.ptable.setProc_standing r q fun x =>
            { x with state := .runnable, timeQuantumUsed := 0 }
          refine (congrArg Standing.level hyield).trans_le ?_
          split
          · exact h.level r
          · exact h.level q
        | dispatch r => exact hacts.elim
        | sleep _ _ => exact absurd trivial hstays
        | wakeup _ => exact absurd trivial hstays
        | files _ _ => exact absurd trivial hstays
        | call _ _ => exact absurd trivial hstays
    have hclock := Kernel.clock_of_next hk
    have hquanta := (congrArg Clock.mlfqTimeQuantum hclock).trans h.quanta
    have hstride := (congrArg Clock.strideTimeQuantum hclock).trans h.strideQuantum
    simp only
    split
    · exact ⟨hlevel, hquanta, hstride⟩
    · exact ⟨by rw [resume_ptable]; exact hlevel, by rw [resume_ptable]; exact hquanta,
        by rw [resume_ptable]; exact hstride⟩
  · contradiction

theorem Paced.wakeup1 (chan : Chan) : Paced { s with kernel := s.kernel.wakeup1 chan } := by
  refine h.of_table rfl fun p => ?_
  have hlevel : ((s.kernel.wakeup1 chan).ptable.standing p).level =
      (s.ptable.standing p).level := by
    rcases wakeup1_standing s.kernel chan p with hsame | ⟨-, hwoken⟩
    · exact congrArg Standing.level hsame
    · rw [hwoken]
      rfl
  exact hlevel.trans_le (h.level p)

theorem Paced.next {a : Act} (hs : s.next a = some s') : s'.Paced := by
  cases a with
  | acquire =>
    simp only [Sched.next] at hs
    split at hs
    · cases hs
      exact h.of_same rfl rfl
    · contradiction
  | scan =>
    simp only [Sched.next] at hs
    split at hs
    · exact h.scan (Kernel.eq_ok_of_toOption hs)
    · contradiction
  | process e =>
    simp only [Sched.next] at hs
    split at hs
    · exact h.process hs
    · contradiction
  | tick =>
    simp only [Sched.next] at hs
    split at hs
    · cases hs
      exact h.tickRunning _ _
    · cases hs
      exact h.boost
    · contradiction
  | interrupt chan =>
    simp only [Sched.next] at hs
    split at hs
    · contradiction
    · cases hs
      exact (h.wakeup1 chan).boost

end

theorem paced_of_started (h : Started s) : s.Paced := by
  obtain ⟨k, hk, rfl⟩ := h
  obtain ⟨hzero, hclock⟩ := Kernel.started_counters hk
  exact ⟨fun q => (hzero q).1.trans_le (Nat.zero_le _), congrArg Clock.mlfqTimeQuantum hclock,
    congrArg Clock.strideTimeQuantum hclock⟩

/-- **Run**: the levels and quanta stay what they are. -/
theorem paced_of_reachable (h : s.ReachableBy fun _ _ => True) : s.Paced :=
  h.inv Paced (fun _ => paced_of_started) fun _ _ _ hs _ hn => hs.next hn

end Sched

end Xv6
