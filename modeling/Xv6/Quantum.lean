import Xv6.Mlfq

/-!
# Xv6.Quantum

The counters of the MLFQ along whole runs: `level_of_MLFQ` and
`time_quantum_used` of every process and `MLFQ_tick_used` of the table.

`Quanta` is the kernel with the steps of `trap()`, `priority_boost()` and `sched()`
that write them, on any number of CPUs whose traps come one at a time, and with
the ticks each process has really had since it was switched in or boosted.
-/

namespace Xv6

open Lib Function Sched

variable {c p : Slot}

/-! ## The counters of an entry -/

/-- What the time quanta depend on in an entry. -/
structure Gauge where
  live : Bool
  running : Bool
  level : Nat
  used : Nat

def Proc.gauge (x : Proc) : Gauge where
  live := decide (x.state.settled = .runnable)
  running := decide (x.state = .running)
  level := x.levelOfMLFQ
  used := x.timeQuantumUsed

namespace Gauge

/-- The counters of an entry nobody has used. -/
def Zero (g : Gauge) : Prop := g.level = 0 ∧ g.used = 0

/-- A new entry has the counters at zero and does not run. -/
def New (g : Gauge) : Prop := g.Zero ∧ g.running = false

/-- `b` has the counters of `a`. -/
def Same (a b : Gauge) : Prop := b.level = a.level ∧ b.used = a.used

/-- The counters of a process that has used its time quantum and yields. -/
def demoted (g : Gauge) : Gauge where
  live := true
  running := false
  level := if g.level < NMLFQ - 1 then g.level + 1 else g.level
  used := 0

/-- From `a` to `b` in a call that takes no entry: the counters are reset only
with the entry, and nobody starts to run. -/
structure Ebbs (a b : Gauge) : Prop where
  counters : a.Same b ∨ b.Zero ∧ b.live = false
  live : b.live = true → a.live = true
  running : b.running = true → a.running = true

theorem Ebbs.refl (a : Gauge) : a.Ebbs a := ⟨.inl ⟨rfl, rfl⟩, id, id⟩

theorem Ebbs.trans {a b c : Gauge} (hab : a.Ebbs b) (hbc : b.Ebbs c) : a.Ebbs c where
  counters := by
    rcases hbc.counters with ⟨hl, hu⟩ | hzero
    · refine hab.counters.imp (fun h => ⟨hl.trans h.1, hu.trans h.2⟩) fun h => ?_
      have hdead : c.live = false := by
        cases hc : c.live with
        | false => rfl
        | true => simpa [h.2] using hbc.live hc
      exact ⟨⟨hl.trans h.1.1, hu.trans h.1.2⟩, hdead⟩
    · exact .inr hzero
  live := hab.live ∘ hbc.live
  running := hab.running ∘ hbc.running

/-- The process stops, and does not come to life. -/
theorem Ebbs.of_same {a b : Gauge} (h : a.Same b) (hrun : b.running = false)
    (hlive : b.live = false ∨ a.live = true) : a.Ebbs b where
  counters := .inl h
  live hb := hlive.resolve_left (by simp [hb])
  running hb := by simp [hrun] at hb

/-- From `a` to `b` in any call: a process that lives on keeps its counters. -/
structure Kept (a b : Gauge) : Prop where
  counters : a.Same b ∨ b.Zero ∧ ¬ (a.live = true ∧ b.live = true)
  running : b.running = true → a.running = true

theorem Ebbs.kept {a b : Gauge} (h : a.Ebbs b) : a.Kept b where
  counters := h.counters.imp_right fun h => ⟨h.1, fun hlive => by simp [h.2] at hlive⟩
  running := h.running

theorem Kept.same {a b : Gauge} (h : a.Kept b) (ha : a.live = true) (hb : b.live = true) :
    a.Same b :=
  h.counters.resolve_right fun hr => hr.2 ⟨ha, hb⟩

end Gauge

theorem Proc.live_of_running {x : Proc} (h : x.gauge.running = true) : x.gauge.live = true := by
  simp only [Proc.gauge, decide_eq_true_eq] at h ⊢
  rw [h]
  rfl

namespace Kernel

variable {s s' : Kernel}

/-- Every entry ebbs. -/
def Ebb (s s' : Kernel) : Prop := ∀ q, (s.proc q).gauge.Ebbs (s'.proc q).gauge

theorem Ebb.refl (s : Kernel) : Ebb s s := fun _ => .refl _

theorem Ebb.trans {s₁ : Kernel} (h1 : Ebb s s₁) (h2 : Ebb s₁ s') : Ebb s s' :=
  fun q => (h1 q).trans (h2 q)

/-! ## Calls that take no entry -/

theorem coarse_gauge : Coarse Proc.gauge where
  files x st of wd hw := by
    simp only [Proc.gauge, Gauge.mk.injEq, and_true, hw.settled, true_and]
    rcases hw with rfl | ⟨hx, rfl⟩
    · rfl
    · simp [hx]
  memory _ _ _ _ _ := rfl

theorem SamePart.ebb (h : SamePart Proc.gauge s s') : Ebb s s' := fun q => by
  rw [h.entry q]
  exact .refl _

theorem ebb_upd (s : Kernel) (p : Slot) {g : Proc → Proc}
    (hg : (s.proc p).gauge.Ebbs (g (s.proc p)).gauge) : Ebb s (s.upd p g) := fun q => by
  by_cases hq : q = p
  · subst hq
    rw [upd_proc_same]
    exact hg
  · rw [upd_proc_of_ne s g hq]
    exact .refl _

theorem FilesOnly.ebb (h : FilesOnly p s s') : Ebb s s' :=
  (h.samePart coarse_gauge.files).ebb

theorem SharesOnly.ebb (h : SharesOnly s s') : Ebb s s' := fun q => by
  rw [h.view (f := Proc.gauge) (fun _ _ _ _ _ => rfl) q]
  exact .refl _

theorem ebb_sleepOn (hc : (s.proc c).state = .running) (chan : Chan) : Ebb s (s.sleepOn c chan) :=
  ebb_upd s c (.of_same ⟨rfl, rfl⟩ rfl (.inr (by simp [Proc.gauge, hc, ProcState.settled])))

theorem ebb_kill (s : Kernel) (pid : Int) : Ebb s (s.kill pid).1 := by
  unfold kill
  split
  · refine ebb_upd s _ ⟨.inl ⟨rfl, rfl⟩, ?_, ?_⟩
    · simp only [Proc.gauge, decide_eq_true_eq]
      split
      · next hx => simp [hx, ProcState.settled]
      · exact id
    · simp only [Proc.gauge, decide_eq_true_eq]
      split
      · simp
      · exact id
  · exact .refl s

theorem Died.ebb (h : Died p s s') : Ebb s s' := by
  obtain ⟨s₁, hm, rfl⟩ := h
  have hminor : Ebb s s₁ := fun q => by
    obtain ⟨pr, qu, n, v, ft, ic, pp, fr, j, rfl, hall⟩ := hm
    obtain ⟨st, of, wd, tr, he, hw, -⟩ := hall q
    have hgauge : (pr q).gauge = (s.proc q).gauge := by
      rw [he]
      exact coarse_gauge.files (s.proc q) st (s.proc q).ofile (s.proc q).cwd hw
    show (s.proc q).gauge.Ebbs (pr q).gauge
    rw [hgauge]
    exact .refl _
  exact hminor.trans (ebb_upd s₁ p (.of_same ⟨rfl, rfl⟩ rfl (.inl rfl)))

theorem ebb_clearProc {pid : Int} (h : s.clearProc p = .ok (s', pid)) : Ebb s s' := by
  obtain ⟨ref, free, calls, rfl⟩ := clearProc_eq h
  refine ebb_upd _ p ⟨.inr ⟨⟨rfl, rfl⟩, rfl⟩, ?_, ?_⟩
  · simp [Proc.gauge, Proc.cleared, ProcState.settled]
  · simp [Proc.gauge, Proc.cleared]

theorem ebb_removeThreadStack (h : s.removeThreadStack p = .ok s') : Ebb s s' :=
  (removeThreadStack_samePart coarse_gauge.memory h).ebb

theorem ebb_threadJoin {thread : Int} {r : Scan} (hc : (s.proc c).state = .running ∨ r ≠ .asleep)
    (h : s.threadJoin c thread = .ok (s', r)) : Ebb s s' := by
  rcases threadJoin_cases h with ⟨p, s₁, pid, -, -, -, h1, h2, -⟩ | ⟨rfl, -⟩ | ⟨rfl, hr⟩
  · exact (ebb_removeThreadStack h1).trans (ebb_clearProc h2)
  · exact .refl _
  · exact ebb_sleepOn (hc.resolve_right (not_not.mpr hr)) _

theorem ebb_wait {r : Scan} (hc : (s.proc c).state = .running)
    (h : s.wait c = .ok (s', r)) : Ebb s s' := by
  rcases wait_cases h with ⟨p, pid, -, -, h2⟩ | rfl | ⟨chan, rfl⟩
  · exact ebb_clearProc h2
  · exact .refl _
  · exact ebb_sleepOn hc chan

theorem ebb_exit (h : s.exit c = .ok s') : Ebb s s' :=
  exit_keeps (P := Ebb s) (fun hd hk => hk.trans hd.ebb)
    (fun hr hk => hk.trans (ebb_removeThreadStack hr)) (fun hr hk => hk.trans (ebb_clearProc hr))
    (fun k hk => hk.trans (ebb_upd k c (.of_same ⟨rfl, rfl⟩ rfl (.inl rfl)))) h (.refl s)

/-! ## New entries -/

theorem blank_new : Blank Proc.gauge Gauge.New where
  embryo _ _ := ⟨⟨rfl, rfl⟩, rfl⟩
  state _ _ hst hx := ⟨hx.1, decide_eq_false hst⟩
  filled _ _ _ _ _ _ _ _ _ hx := hx

/-- Every entry is kept. -/
def Keep (s s' : Kernel) : Prop := ∀ q, (s.proc q).gauge.Kept (s'.proc q).gauge

theorem Ebb.keep (h : Ebb s s') : Keep s s' := fun q => (h q).kept

theorem NewAt.keep {np : Slot} (h : NewAt Proc.gauge Gauge.New s np s')
    (hfree : s.freeSlot = some np) : Keep s s' := fun q => by
  by_cases hq : q = np
  · subst hq
    have hdead : (s.proc q).gauge.live = false := by
      simp [Proc.gauge, unused_of_freeSlot hfree, ProcState.settled]
    exact ⟨.inr ⟨h.new.1, fun hlive => by simp [hdead] at hlive⟩,
      fun hr => by simp [h.new.2] at hr⟩
  · rw [h.other q hq]
    exact (Gauge.Ebbs.refl _).kept

theorem keep_fork {r : Int} (h : s.fork c = .ok (s', r)) : Keep s s' := by
  rcases fork_newAt coarse_gauge blank_new h with ⟨-, rfl⟩ | ⟨-, np, hfree, hnew⟩
  · exact (Ebb.refl _).keep
  · exact hnew.keep hfree

theorem keep_threadCreate {r : Int} (h : s.threadCreate c = .ok (s', r)) : Keep s s' := by
  rcases threadCreate_newAt coarse_gauge blank_new h with
    ⟨-, rfl⟩ | ⟨np, hfree, hnew | ⟨s₁, hnew, hshare⟩⟩
  · exact (Ebb.refl _).keep
  · exact hnew.keep hfree
  · have hsame : ∀ q, (s'.proc q).gauge = (s₁.proc q).gauge :=
      (sharesOnly_shareWithThread hshare).view fun _ _ _ _ _ => rfl
    intro q
    rw [hsame q]
    exact hnew.keep hfree q

/-- A system call keeps the counters of whoever lives on. -/
theorem keep_syscall {op : Syscall} (hc : (s.proc c).state = .running)
    (h : s.syscall c op = .ok s') : Keep s s' := by
  cases op with
  | fork =>
    obtain ⟨r, h⟩ := map_fst_eq_ok h
    exact keep_fork h
  | exec file =>
    obtain ⟨r, h⟩ := map_fst_eq_ok h
    exact (exec_samePart coarse_gauge.memory h).ebb.keep
  | sbrk n =>
    obtain ⟨r, h⟩ := map_fst_eq_ok h
    exact (growproc_samePart coarse_gauge.memory h).ebb.keep
  | setCpuShare required =>
    obtain ⟨r, h⟩ := map_fst_eq_ok h
    exact (sharesOnly_setCpuShare h).ebb.keep
  | threadCreate =>
    obtain ⟨r, h⟩ := map_fst_eq_ok h
    exact keep_threadCreate h
  | threadExit retval => exact (died_threadExit h).2.ebb.keep
  | threadJoin thread =>
    obtain ⟨r, h⟩ := map_fst_eq_ok h
    exact (ebb_threadJoin (.inl hc) h).keep
  | exit => exact (ebb_exit h).keep
  | wait =>
    obtain ⟨r, h⟩ := map_fst_eq_ok h
    exact (ebb_wait hc h).keep
  | kill pid =>
    cases h
    exact (ebb_kill s pid).keep

/-- The events in which no process is switched in or out. -/
def Stays : Event → Prop
  | .dispatch _ | .yield _ => False
  | .sleep _ _ | .wakeup _ | .files _ _ | .call _ _ => True

instance : DecidablePred Stays
  | .dispatch _ | .yield _ => inferInstanceAs (Decidable False)
  | .sleep _ _ | .wakeup _ | .files _ _ | .call _ _ => inferInstanceAs (Decidable True)

/-- **Such an event** keeps the counters of whoever lives on. -/
theorem keep_of_next {e : Event} (he : Stays e) (h : s.next e = some s') : Keep s s' := by
  obtain ⟨hen, h⟩ := next_eq_some.mp h
  cases e with
  | dispatch p => exact he.elim
  | yield p => exact he.elim
  | sleep p chan =>
    cases h
    exact (ebb_sleepOn hen chan).keep
  | wakeup chan =>
    cases h
    exact (filesOnly_wakeup1 s.initproc s chan).ebb.keep
  | files p f =>
    cases h
    have hfiles : SamePart Proc.gauge s (s.upd p fun x => { x with ofile := f.ofile, cwd := f.cwd }) :=
      samePart_upd s p rfl
    exact (hfiles.trans (.of_ptable rfl rfl)).ebb.keep
  | call c op => exact keep_syscall hen h

/-- At the start the counters are at zero, and the clock is that of `pinit`. -/
theorem started_counters (h : Started s) :
    (∀ q, (s.proc q).gauge.Zero) ∧ s.clock = PTable.pinit.clock := by
  have hblank : Blank Proc.gauge Gauge.Zero :=
    ⟨fun _ _ => ⟨rfl, rfl⟩, fun _ _ _ hx => hx, fun _ _ _ _ _ _ _ _ _ hx => hx⟩
  obtain ⟨free, junk, p, hnew⟩ := started_newAt coarse_gauge hblank (fun _ hx => hx) h
  constructor
  · intro q
    by_cases hq : q = p
    · exact hq ▸ hnew.new
    · rw [hnew.other q hq]
      exact ⟨rfl, rfl⟩
  · rw [clock, hnew.rest]
    rfl

end Kernel

/-! ## The machine -/

/-- The machine with the ticks of its processes. -/
structure Quanta extends Machine where
  /-- The timer ticks of each process since it was last switched in or boosted. -/
  ticks : Slot → Nat

namespace Quanta

/-- The process table. -/
def ptable (s : Quanta) : PTable := s.kernel.ptable

/-- Replace the process table. -/
def setTable (s : Quanta) (t : PTable) : Quanta :=
  { s with kernel := { s.kernel with ptable := t } }

/-- `p` is switched in. -/
def switchIn (s : Quanta) (p : Slot) : Quanta where
  toMachine := s.toMachine.switchTo p
  ticks := update s.ticks p 0

/-- A turn of the loop of `scheduler()` in which it chooses a queue, and runs a
process of the stride queue if it chooses that. -/
def turn (s : Quanta) : Except Panic Quanta :=
  if s.ptable.sumCpuShare = 0 then .ok s
  else do
    let (m, strideIsSelected) ← s.toMachine.selectStrideOrMLFQ
    if strideIsSelected then
      match ← m.runStride with
      | (m, some p) => return { toMachine := m, ticks := update s.ticks p 0 }
      | (m, none) => return { s with toMachine := m }
    else return { s with toMachine := m }

/-- The check for a priority boost in `trap()`. -/
def boost (s : Quanta) : Quanta :=
  if s.ptable.mlfqTickUsed ≥ 100 then
    { s.setTable (priorityBoost s.ptable) with ticks := fun _ => 0 }
  else s

/-- What `trap()` does to the process `p` in a timer interrupt, after the check
for a priority boost. -/
def tick (s : Quanta) (p : Slot) : Quanta :=
  let t := countTick s.ptable p
  let s := { s with ticks := update s.ticks p (s.ticks p + 1) }
  if (t.proc p).timeQuantumUsed ≥ getTimeQuantum t p then s.setTable (yieldTick t p)
  else s.setTable t

/-- What happens. -/
inductive Act where
  /-- A system call, going to sleep, or a `wakeup`. -/
  | event (e : Kernel.Event)
  /-- `scheduler()` chooses a queue, and runs a process of the stride queue. -/
  | turn
  /-- `scheduler()` runs the process `p` of the MLFQ.  Which one it takes does
  not matter here. -/
  | run (p : Slot)
  /-- `p` calls `yield`. -/
  | yield (p : Slot)
  /-- A timer interrupt while `p` runs. -/
  | timer (p : Slot)
  /-- Another trap, or a timer interrupt on a CPU that runs no process. -/
  | trap

/-- The state after an act, if it can happen and the kernel does not panic. -/
def next (s : Quanta) : Act → Option Quanta
  | .event e =>
    if Kernel.Stays e then (s.kernel.next e).map fun k => { s with kernel := k } else none
  | .turn => s.turn.toOption
  | .run p =>
    if (s.kernel.proc p).state = .runnable ∧ (s.kernel.proc p).cpuShare = 0 then
      some (s.switchIn p)
    else none
  | .yield p =>
    if (s.kernel.proc p).state = .running then
      some { s with kernel := s.kernel.upd p fun x => { x with state := .runnable } }
    else none
  | .timer p => if (s.kernel.proc p).state = .running then some (s.boost.tick p) else none
  | .trap => some s.boost

/-- The first process has just started. -/
def Started (s : Quanta) : Prop := s.toMachine.Started ∧ s.ticks = fun _ => 0

/-- Reachable by any acts. -/
abbrev Reachable (s : Quanta) : Prop := Reach Started next (fun _ _ => True) s

/-! ## The invariant -/

/-- The counters of `p`. -/
def gauge (s : Quanta) (p : Slot) : Gauge := (s.kernel.proc p).gauge

/-- The counters are within their bounds, and of a process that runs
`time_quantum_used` is the number of ticks it has had. -/
structure Metered (s : Quanta) : Prop where
  level : ∀ p, (s.gauge p).level ≤ NMLFQ - 1
  used : ∀ p, (s.gauge p).used < s.ptable.mlfqTimeQuantum (s.gauge p).level
  tickUsed : s.ptable.mlfqTickUsed ≤ 100
  quanta : s.ptable.mlfqTimeQuantum = PTable.pinit.mlfqTimeQuantum
  strideQuantum : s.ptable.strideTimeQuantum = 1
  ticks : ∀ p, (s.gauge p).running = true → s.ticks p = (s.gauge p).used

theorem quantum_pos {t : PTable} (h : t.mlfqTimeQuantum = PTable.pinit.mlfqTimeQuantum)
    {level : Nat}
    (hl : level ≤ NMLFQ - 1) : 5 ≤ t.mlfqTimeQuantum level := by
  have hlt : level < NMLFQ := by simp [NMLFQ] at hl ⊢; omega
  have hpow : 0 < 2 ^ level := by positivity
  simp only [h, PTable.pinit, if_pos hlt]
  omega

variable {s s' : Quanta}

theorem clock_eq (h : s'.kernel.clock = s.kernel.clock) :
    s'.ptable.mlfqTimeQuantum = s.ptable.mlfqTimeQuantum ∧
      s'.ptable.mlfqTickUsed = s.ptable.mlfqTickUsed ∧
      s'.ptable.strideTimeQuantum = s.ptable.strideTimeQuantum :=
  ⟨congrArg Clock.mlfqTimeQuantum h, congrArg Clock.mlfqTickUsed h,
    congrArg Clock.strideTimeQuantum h⟩

/-- `s` and `s'` do not differ in the counters, the clock and the ticks. -/
structure SameMeter (s s' : Quanta) : Prop where
  gauge : s'.gauge = s.gauge
  clock : s'.kernel.clock = s.kernel.clock
  ticks : s'.ticks = s.ticks

theorem SameMeter.metered (h : SameMeter s s') (hs : s.Metered) : s'.Metered := by
  obtain ⟨hquanta, htick, hstride⟩ := clock_eq h.clock
  refine ⟨?_, ?_, htick ▸ hs.tickUsed, hquanta.trans hs.quanta, hstride.trans hs.strideQuantum, ?_⟩
  · rw [h.gauge]
    exact hs.level
  · rw [h.gauge, hquanta]
    exact hs.used
  · rw [h.gauge, h.ticks]
    exact hs.ticks

/-! ## What an act does to the counters -/

/-- The acts in which `trap()` gets to the check for a priority boost. -/
def Act.Traps : Act → Prop
  | .timer _ | .trap => True
  | .event _ | .turn | .run _ | .yield _ => False

/-- What an act does. -/
inductive Step (s : Quanta) : Act → Quanta → Prop where
  /-- Nobody is switched in, and whoever lives on keeps its counters. -/
  | keep {a : Act} {s' : Quanta} (ha : ¬ a.Traps) (hkept : ∀ q, (s.gauge q).Kept (s'.gauge q))
      (hclock : s'.kernel.clock = s.kernel.clock) (hticks : s'.ticks = s.ticks) : Step s a s'
  | switch {a : Act} {s₁ : Quanta} {p : Slot} (ha : ¬ a.Traps) (hsame : SameMeter s s₁) :
      Step s a (s₁.switchIn p)
  | timer {p : Slot} (hp : (s.gauge p).running = true) : Step s (.timer p) (s.boost.tick p)
  | trap : Step s .trap s.boost

theorem SameMeter.kept (h : SameMeter s s') (q : Slot) : (s.gauge q).Kept (s'.gauge q) := by
  rw [h.gauge]
  exact (Gauge.Ebbs.refl _).kept

/-- The search in the stride queue touches pass values and the queue only. -/
theorem findIdxOfStrideToRun_meter {t t' : PTable} {i : Nat}
    (h : t.findIdxOfStrideToRun = .ok (t', i)) :
    (∀ q, (t'.proc q).gauge = (t.proc q).gauge) ∧ t'.clock = t.clock := by
  obtain ⟨⟨k, hk⟩, -⟩ := PTable.findIdxOfStrideToRun_eq_ok h
  rcases PTable.search_cases hk with ⟨-, rfl⟩ | ⟨p, j, -, -, -, hsift⟩
  · exact ⟨fun _ => rfl, rfl⟩
  obtain ⟨queue, rfl⟩ := PTable.strideQueueHeapifyDown_eq hsift
  refine ⟨fun q => ?_, rfl⟩
  show ((t.charge p).proc q).gauge = (t.proc q).gauge
  by_cases hq : q = p
  · subst hq
    simp [PTable.charge, Proc.gauge]
  · rw [PTable.charge, PTable.setProc_proc_of_ne t _ hq]

/-- A run of the stride queue is a search and, if it finds `p`, a switch to `p`. -/
theorem runStride_eq {m m' : Machine} {o : Option Slot} (h : m.runStride = .ok (m', o)) :
    ∃ t i, m.kernel.ptable.findIdxOfStrideToRun = .ok (t, i) ∧
      match o with
      | some p => m' = { m with kernel := { m.kernel with ptable := t } }.switchTo p
      | none => m' = { m with kernel := { m.kernel with ptable := t } } := by
  obtain ⟨⟨t, i⟩, h1, h⟩ := bind_eq_ok.mp h
  refine ⟨t, i, h1, ?_⟩
  simp only at h
  split at h
  · obtain ⟨p, -, h⟩ := bind_eq_ok.mp h
    cases h
    rfl
  · cases h
    rfl

theorem step_of_turn (h : s.turn = .ok s') : Step s .turn s' := by
  have hsame : ∀ {s₁ : Quanta}, SameMeter s s₁ → Step s .turn s₁ := fun h1 =>
    .keep (by simp [Act.Traps]) h1.kept h1.clock h1.ticks
  unfold turn at h
  split at h
  · cases h
    exact hsame ⟨rfl, rfl, rfl⟩
  obtain ⟨⟨m, b⟩, hm, h⟩ := bind_eq_ok.mp h
  have hselect : SameMeter s { s with toMachine := m } := by
    rcases Machine.selectStrideOrMLFQ_cases hm with hk | ⟨-, -, hk⟩
    · exact ⟨by unfold gauge; rw [hk], congrArg Kernel.clock hk, rfl⟩
    refine ⟨?_, ?_, rfl⟩
    · unfold gauge
      rw [hk]
      rfl
    · rw [hk]
      rfl
  simp only at h
  split at h
  · obtain ⟨⟨m', o⟩, hrun, h⟩ := bind_eq_ok.mp h
    obtain ⟨t, i, hfind, ho⟩ := runStride_eq hrun
    obtain ⟨hg, hc⟩ := findIdxOfStrideToRun_meter hfind
    have hsearch : SameMeter s
        { s with toMachine := { m with kernel := { m.kernel with ptable := t } } } :=
      ⟨(funext hg).trans hselect.gauge, hc.trans hselect.clock, rfl⟩
    cases o with
    | none =>
      cases h
      cases ho
      exact hsame hsearch
    | some p =>
      cases h
      cases ho
      exact .switch (by simp [Act.Traps]) hsearch
  · cases h
    exact hsame hselect

variable {a : Act}

/-- **Every act** is one of these. -/
theorem step_of_next (h : s.next a = some s') : Step s a s' := by
  cases a with
  | event e =>
    simp only [next] at h
    split at h
    · next he =>
      obtain ⟨k, hk, rfl⟩ := Option.map_eq_some_iff.mp h
      exact .keep (by simp [Act.Traps]) (Kernel.keep_of_next he hk) (Kernel.clock_of_next hk) rfl
    · contradiction
  | turn => exact step_of_turn (Kernel.eq_ok_of_toOption h)
  | run p =>
    simp only [next] at h
    split at h
    · cases h
      exact .switch (by simp [Act.Traps]) ⟨rfl, rfl, rfl⟩
    · contradiction
  | yield p =>
    simp only [next] at h
    split at h
    · next hp =>
      cases h
      have hebb := Kernel.ebb_upd s.kernel p (g := fun x => { x with state := .runnable })
        (.of_same ⟨rfl, rfl⟩ rfl (.inr (by simp [Proc.gauge, hp, ProcState.settled])))
      exact .keep (by simp [Act.Traps]) hebb.keep rfl rfl
    · contradiction
  | timer p =>
    simp only [next] at h
    split at h
    · next hp =>
      cases h
      exact .timer (by simp [gauge, Proc.gauge, hp])
    · contradiction
  | trap =>
    cases h
    exact .trap

/-! ## Boosts and ticks -/

theorem boost_of_lt (h : s.ptable.mlfqTickUsed < 100) : s.boost = s := by
  rw [boost, if_neg (by omega)]

theorem boost_of_ge (h : s.ptable.mlfqTickUsed ≥ 100) :
    s.boost = { s.setTable (priorityBoost s.ptable) with ticks := fun _ => 0 } := by
  rw [boost, if_pos h]

theorem boost_gauge (h : s.ptable.mlfqTickUsed ≥ 100) (p : Slot) :
    s.boost.gauge p = { s.gauge p with level := 0, used := 0 } := by
  rw [boost_of_ge h]
  rfl

theorem Metered.boost (hs : s.Metered) : s.boost.Metered ∧ s.boost.ptable.mlfqTickUsed < 100 := by
  by_cases h : s.ptable.mlfqTickUsed ≥ 100
  · have hpos : ∀ level ≤ NMLFQ - 1, 5 ≤ s.ptable.mlfqTimeQuantum level :=
      fun _ hl => quantum_pos hs.quanta hl
    refine ⟨⟨fun p => ?_, fun p => ?_, ?_, ?_, ?_, fun p _ => ?_⟩, ?_⟩
    · simp [boost_gauge h]
    · have hzero := hpos 0 (by simp)
      rw [boost_gauge h, boost_of_ge h]
      show 0 < s.ptable.mlfqTimeQuantum 0
      omega
    · rw [boost_of_ge h]
      exact Nat.zero_le _
    · rw [boost_of_ge h]
      exact hs.quanta
    · rw [boost_of_ge h]
      exact hs.strideQuantum
    · rw [boost_gauge h, boost_of_ge h]
    · rw [boost_of_ge h]
      show 0 < 100
      omega
  · rw [boost_of_lt (by omega)]
    exact ⟨hs, by omega⟩

/-- The entry of a process after a tick was counted. -/
def ticked (x : Proc) : Proc :=
  { x with tickUsed := x.tickUsed + 1, timeQuantumUsed := x.timeQuantumUsed + 1 }

theorem countTick_proc (t : PTable) (p : Slot) :
    (countTick t p).proc = (t.setProc p ticked).proc := by
  unfold countTick
  simp only
  split <;> rfl

theorem countTick_clock (t : PTable) (p : Slot) :
    (countTick t p).mlfqTimeQuantum = t.mlfqTimeQuantum ∧
      (countTick t p).strideTimeQuantum = t.strideTimeQuantum ∧
      (countTick t p).mlfqTickUsed ≤ t.mlfqTickUsed + 1 := by
  unfold countTick
  simp only
  split
  · exact ⟨rfl, rfl, le_rfl⟩
  · exact ⟨rfl, rfl, Nat.le_succ _⟩

theorem countTick_getTimeQuantum (t : PTable) (p : Slot) :
    getTimeQuantum (countTick t p) p = getTimeQuantum t p := by
  obtain ⟨hquanta, hstride, -⟩ := countTick_clock t p
  simp only [getTimeQuantum, hquanta, hstride, countTick_proc, PTable.setProc_proc_same,
    ticked]

/-- What a tick does to the counters of the running process. -/
theorem tick_gauge (s : Quanta) (p : Slot) :
    (s.tick p).gauge = update s.gauge p
      (if getTimeQuantum s.ptable p ≤ (s.gauge p).used + 1 then (s.gauge p).demoted
        else { s.gauge p with used := (s.gauge p).used + 1 }) := by
  have hused : ((countTick s.ptable p).proc p).timeQuantumUsed = (s.gauge p).used + 1 := by
    rw [countTick_proc, PTable.setProc_proc_same]
    rfl
  have hcount : (fun q => ((countTick s.ptable p).proc q).gauge) =
      update s.gauge p { s.gauge p with used := (s.gauge p).used + 1 } := by
    rw [countTick_proc]
    exact Kernel.upd_view s.kernel p ticked
  unfold tick
  simp only [hused, countTick_getTimeQuantum]
  by_cases hfull : getTimeQuantum s.ptable p ≤ (s.gauge p).used + 1
  · rw [if_pos hfull, if_pos hfull]
    refine (Kernel.upd_view { s.kernel with ptable := countTick s.ptable p } p _).trans ?_
    refine (congrArg (update · p _) hcount).trans ?_
    rw [update_idem]
    show update s.gauge p ((countTick s.ptable p).proc p).gauge.demoted = _
    rw [countTick_proc, PTable.setProc_proc_same]
    rfl
  · rw [if_neg hfull, if_neg hfull]
    exact hcount

theorem tick_clock (s : Quanta) (p : Slot) :
    (s.tick p).ptable.mlfqTimeQuantum = s.ptable.mlfqTimeQuantum ∧
      (s.tick p).ptable.strideTimeQuantum = s.ptable.strideTimeQuantum ∧
      (s.tick p).ptable.mlfqTickUsed ≤ s.ptable.mlfqTickUsed + 1 := by
  unfold tick
  simp only
  split
  · exact countTick_clock s.ptable p
  · exact countTick_clock s.ptable p

theorem tick_ticks (s : Quanta) (p : Slot) :
    (s.tick p).ticks = update s.ticks p (s.ticks p + 1) := by
  unfold tick
  simp only
  split <;> rfl

/-- A process in the stride queue has the quantum of that queue. -/
theorem getTimeQuantum_le (hs : s.Metered) (p : Slot) :
    getTimeQuantum s.ptable p ≤ s.ptable.mlfqTimeQuantum (s.gauge p).level := by
  unfold getTimeQuantum
  split
  · have hpos := quantum_pos hs.quanta (hs.level p)
    rw [hs.strideQuantum]
    omega
  · exact le_rfl

theorem demoted_level_le {g : Gauge} (h : g.level ≤ NMLFQ - 1) : g.demoted.level ≤ NMLFQ - 1 := by
  simp only [Gauge.demoted]
  split <;> omega

theorem Metered.set (hs : s.Metered) {g : Gauge} {n : Nat}
    (hgauge : s'.gauge = update s.gauge p g) (hticks : s'.ticks = update s.ticks p n)
    (hquanta : s'.ptable.mlfqTimeQuantum = s.ptable.mlfqTimeQuantum)
    (hstride : s'.ptable.strideTimeQuantum = s.ptable.strideTimeQuantum)
    (htick : s'.ptable.mlfqTickUsed ≤ 100) (hlevel : g.level ≤ NMLFQ - 1)
    (hused : g.used < s.ptable.mlfqTimeQuantum g.level) (hrun : g.running = true → n = g.used) :
    s'.Metered := by
  refine ⟨?_, ?_, htick, hquanta.trans hs.quanta, hstride.trans hs.strideQuantum, fun q hq => ?_⟩
  · rw [hgauge]
    exact (forall_update_iff s.gauge fun _ g => g.level ≤ NMLFQ - 1).mpr ⟨hlevel,
      fun q _ => hs.level q⟩
  · rw [hgauge, hquanta]
    exact (forall_update_iff s.gauge fun _ g => g.used < s.ptable.mlfqTimeQuantum g.level).mpr
      ⟨hused, fun q _ => hs.used q⟩
  · rw [hgauge] at hq ⊢
    rw [hticks]
    by_cases hqp : q = p
    · subst hqp
      rw [update_self] at hq ⊢
      rw [update_self, hrun hq]
    · rw [update_of_ne hqp] at hq ⊢
      rw [update_of_ne hqp, hs.ticks q hq]

theorem Metered.tick (hs : s.Metered) (hlt : s.ptable.mlfqTickUsed < 100)
    (hp : (s.gauge p).running = true) : (s.tick p).Metered := by
  obtain ⟨hquanta, hstride, htick⟩ := tick_clock s p
  have hgauge := tick_gauge s p
  split at hgauge
  · have hlevel := demoted_level_le (hs.level p)
    exact hs.set hgauge (tick_ticks s p) hquanta hstride (by omega) hlevel
      (Nat.lt_of_lt_of_le (by simp [Gauge.demoted]) (quantum_pos hs.quanta hlevel)) (by simp [Gauge.demoted])
  · next hfull =>
    -- the quantum is not used up, and it is at most that of the level
    exact hs.set hgauge (tick_ticks s p) hquanta hstride (by omega) (hs.level p)
      (Nat.lt_of_lt_of_le (Nat.lt_of_not_le hfull) (getTimeQuantum_le hs p))
      fun _ => congrArg (· + 1) (hs.ticks p hp)

/-! ## Runs -/

theorem Metered.keep (hs : s.Metered) (hkept : ∀ q, (s.gauge q).Kept (s'.gauge q))
    (hclock : s'.kernel.clock = s.kernel.clock) (hticks : s'.ticks = s.ticks) : s'.Metered := by
  obtain ⟨hquanta, htick, hstride⟩ := clock_eq hclock
  refine ⟨fun q => ?_, fun q => ?_, htick ▸ hs.tickUsed, hquanta.trans hs.quanta,
    hstride.trans hs.strideQuantum, fun q hrun => ?_⟩
  · rcases (hkept q).counters with hsame | ⟨hzero, -⟩
    · exact hsame.1 ▸ hs.level q
    · simp [hzero.1]
  · rw [hquanta]
    rcases (hkept q).counters with hsame | ⟨hzero, -⟩
    · rw [hsame.1, hsame.2]
      exact hs.used q
    · rw [hzero.1, hzero.2]
      exact Nat.lt_of_lt_of_le (by simp) (quantum_pos hs.quanta (Nat.zero_le _))
  · have hrun0 := (hkept q).running hrun
    have hsame := (hkept q).same (Proc.live_of_running hrun0) (Proc.live_of_running hrun)
    rw [hticks, hs.ticks q hrun0, hsame.2]

theorem switchIn_gauge (s : Quanta) (p : Slot) :
    (s.switchIn p).gauge =
      update s.gauge p { s.gauge p with live := true, running := true, used := 0 } := by
  exact Kernel.upd_view s.kernel p fun x => { x with state := .running, timeQuantumUsed := 0 }

theorem Metered.switchIn (hs : s.Metered) (p : Slot) : (s.switchIn p).Metered :=
  hs.set (switchIn_gauge s p) rfl rfl rfl hs.tickUsed (hs.level p)
    (Nat.lt_of_lt_of_le (by simp) (quantum_pos hs.quanta (hs.level p))) fun _ => rfl

theorem boost_running (s : Quanta) (p : Slot) :
    (s.boost.gauge p).running = (s.gauge p).running := by
  unfold boost
  split <;> rfl

/-- **Step**: every act keeps the counters within their bounds. -/
theorem Metered.next (hs : s.Metered) (h : s.next a = some s') : s'.Metered := by
  cases step_of_next h with
  | keep _ hkept hclock hticks => exact hs.keep hkept hclock hticks
  | switch _ hsame => exact (hsame.metered hs).switchIn _
  | timer hp => exact hs.boost.1.tick hs.boost.2 ((boost_running s _).trans hp)
  | trap => exact hs.boost.1

theorem started_metered (h : s.Started) : s.Metered := by
  obtain ⟨⟨hk, -⟩, hticks⟩ := h
  obtain ⟨hzero, hclock⟩ := Kernel.started_counters hk
  have hzero : ∀ q, (s.gauge q).Zero := hzero
  have hclock : s.ptable.clock = PTable.pinit.clock := hclock
  refine ⟨fun q => by simp [(hzero q).1], fun q => ?_, ?_, congrArg Clock.mlfqTimeQuantum hclock,
    congrArg Clock.strideTimeQuantum hclock, fun q _ => ?_⟩
  · rw [(hzero q).1, (hzero q).2]
    exact Nat.lt_of_lt_of_le (by simp)
      (quantum_pos (congrArg Clock.mlfqTimeQuantum hclock) (Nat.zero_le _))
  · rw [show s.ptable.mlfqTickUsed = 0 from congrArg Clock.mlfqTickUsed hclock]
    exact Nat.zero_le _
  · rw [hticks, (hzero q).2]

/-- **Run**: the counters are within their bounds in every reachable state. -/
theorem metered_of_reachable (h : s.Reachable) : s.Metered :=
  h.inv Metered (fun _ => started_metered) fun _ _ _ hs _ hn => hs.next hn

/-! ## Moving between the levels -/

/-- `priority_boost` is called in an act. -/
def Boosts (s : Quanta) (a : Act) : Prop := a.Traps ∧ s.ptable.mlfqTickUsed ≥ 100

/-- How the levels change in an act: a process of the MLFQ moves down one
level, after a tick that is the last one of its quantum since it was switched in
or boosted; a process that lives on moves up in a boost only; and a boost puts
every process back to level 0, where only a process of the stride queue that
runs moves down again in the same trap. -/
structure Orderly (s : Quanta) (a : Act) (s' : Quanta) : Prop where
  down : ∀ p, (s.kernel.proc p).cpuShare = 0 → (s.gauge p).level < (s'.gauge p).level →
    a = .timer p ∧ (s'.gauge p).level = (s.gauge p).level + 1 ∧
      s'.ticks p = s.ptable.mlfqTimeQuantum (s.gauge p).level
  up : ∀ p, (s.gauge p).live = true → (s'.gauge p).live = true →
    (s'.gauge p).level < (s.gauge p).level → s.Boosts a
  boost : s.Boosts a → ∀ p, (s.boost.gauge p).level = 0 ∧
    ((s'.gauge p).level = 0 ∨ a = .timer p ∧ (s.kernel.proc p).cpuShare ≠ 0)

theorem not_boosts (ha : ¬ a.Traps) : ¬ s.Boosts a := fun h => ha h.1

theorem orderly_keep (ha : ¬ a.Traps)
    (hkept : ∀ q, (s.gauge q).Kept (s'.gauge q)) : s.Orderly a s' where
  down p _ hlt := by
    rcases (hkept p).counters with hsame | ⟨hzero, -⟩
    · rw [hsame.1] at hlt
      omega
    · rw [hzero.1] at hlt
      omega
  up p hlive hlive' hlt := by
    rw [((hkept p).same hlive hlive').1] at hlt
    omega
  boost hb := (not_boosts ha hb).elim

theorem orderly_switch {s₁ : Quanta} (ha : ¬ a.Traps) (hsame : SameMeter s s₁)
    (p : Slot) : s.Orderly a (s₁.switchIn p) := by
  have hlevel : ∀ q, ((s₁.switchIn p).gauge q).level = (s.gauge q).level := fun q => by
    rw [switchIn_gauge, hsame.gauge]
    by_cases hq : q = p
    · subst hq
      rw [update_self]
    · rw [update_of_ne hq]
  refine ⟨fun q _ hlt => ?_, fun q _ _ hlt => ?_, fun hb => (not_boosts ha hb).elim⟩
  · rw [hlevel] at hlt
    omega
  · rw [hlevel] at hlt
    omega

/-- A trap that does not count a tick changes no level but in a boost. -/
theorem boost_level_le (s : Quanta) (p : Slot) : (s.boost.gauge p).level ≤ (s.gauge p).level := by
  unfold boost
  split
  · exact Nat.zero_le _
  · exact le_rfl

theorem boosts_of_level_lt (h : (s.boost.gauge p).level < (s.gauge p).level) :
    s.ptable.mlfqTickUsed ≥ 100 := by
  by_contra hlt
  rw [boost_of_lt (by omega)] at h
  omega

theorem orderly_trap (s : Quanta) : s.Orderly .trap s.boost where
  down p _ hlt := by
    have hle := boost_level_le s p
    omega
  up _ _ _ hlt := ⟨trivial, boosts_of_level_lt hlt⟩
  boost hb p := by simp [boost_gauge hb.2]

/-- A tick moves the running process down if it is the last one of its quantum,
and nobody else. -/
theorem tick_level (s : Quanta) (p q : Slot) : ((s.tick p).gauge q).level = (s.gauge q).level ∨
    q = p ∧ getTimeQuantum s.ptable p ≤ (s.gauge p).used + 1 ∧
      ((s.tick p).gauge q).level = (s.gauge q).level + 1 := by
  rw [tick_gauge]
  by_cases hq : q = p
  · subst hq
    rw [update_self]
    split
    · next hfull =>
      by_cases hlast : (s.gauge q).level < NMLFQ - 1
      · exact .inr ⟨rfl, hfull, if_pos hlast⟩
      · exact .inl (if_neg hlast)
    · exact .inl rfl
  · rw [update_of_ne hq]
    exact .inl rfl

theorem getTimeQuantum_mlfq (h : (s.kernel.proc p).cpuShare = 0) :
    getTimeQuantum s.ptable p = s.ptable.mlfqTimeQuantum (s.gauge p).level :=
  if_neg (not_not.mpr h)

/-- A process of the MLFQ that has just been boosted has its quantum before it. -/
theorem tick_level_of_boost (hs : s.Metered) (hb : s.ptable.mlfqTickUsed ≥ 100)
    (hp : (s.kernel.proc p).cpuShare = 0) : ((s.boost.tick p).gauge p).level = 0 := by
  have hshare : (s.boost.kernel.proc p).cpuShare = 0 := by
    rw [boost_of_ge hb]
    exact hp
  have hgauge := boost_gauge hb p
  have hpos := quantum_pos hs.boost.1.quanta (hs.boost.1.level p)
  rcases tick_level s.boost p p with hsame | ⟨-, hfull, -⟩
  · rw [hsame, hgauge]
  rw [getTimeQuantum_mlfq hshare, hgauge] at hfull
  rw [hgauge] at hpos
  simp only at hfull hpos
  omega

theorem Metered.orderly_timer (hs : s.Metered)
    (hp : (s.gauge p).running = true) : s.Orderly (.timer p) (s.boost.tick p) where
  down q hshare hlt := by
    rcases tick_level s.boost p q with hsame | ⟨rfl, hfull, hlevel⟩
    · have hle := boost_level_le s q
      omega
    by_cases hb : s.ptable.mlfqTickUsed ≥ 100
    · rw [tick_level_of_boost hs hb hshare] at hlt
      omega
    rw [boost_of_lt (by omega)] at hfull hlevel ⊢
    have hused := hs.used q
    rw [getTimeQuantum_mlfq hshare] at hfull
    refine ⟨rfl, hlevel, ?_⟩
    rw [tick_ticks, update_self, hs.ticks q hp]
    omega
  up q _ _ hlt := by
    refine ⟨trivial, boosts_of_level_lt (p := q) ?_⟩
    rcases tick_level s.boost p q with hsame | ⟨-, -, hlevel⟩
    · omega
    · omega
  boost hb q := by
    refine ⟨by simp [boost_gauge hb.2], ?_⟩
    rcases tick_level s.boost p q with hsame | ⟨rfl, -, -⟩
    · rw [hsame, boost_gauge hb.2]
      exact .inl rfl
    · by_cases hshare : (s.kernel.proc q).cpuShare = 0
      · exact .inl (tick_level_of_boost hs hb.2 hshare)
      · exact .inr ⟨rfl, hshare⟩

theorem Metered.orderly (hs : s.Metered) (h : s.next a = some s') : s.Orderly a s' := by
  cases step_of_next h with
  | keep ha hkept _ _ => exact orderly_keep ha hkept
  | switch ha hsame => exact orderly_switch ha hsame _
  | timer hp => exact hs.orderly_timer hp
  | trap => exact orderly_trap s

/-- **The counters of the MLFQ** in every reachable state, and how the levels
change in whatever happens next. -/
theorem mlfq_counters {s : Quanta} (h : s.Reachable) :
    (∀ p, (s.kernel.proc p).levelOfMLFQ ≤ NMLFQ - 1) ∧
    (∀ p, (s.kernel.proc p).cpuShare = 0 → (s.kernel.proc p).timeQuantumUsed <
      s.ptable.mlfqTimeQuantum (s.kernel.proc p).levelOfMLFQ) ∧
    s.ptable.mlfqTickUsed ≤ 100 ∧
    ∀ a s', s.next a = some s' → s.Orderly a s' := by
  have hs := metered_of_reachable h
  exact ⟨hs.level, fun p _ => hs.used p, hs.tickUsed, fun _ _ hn => hs.orderly hn⟩

/-- The first process with the pages in `free`. -/
def boot (free : List Frame) : Option Quanta :=
  (Kernel.start free (fun _ => false) Kernel.smallProgram).toOption.map fun k =>
    { kernel := k, queueSelector := -1, ticks := fun _ => 0 }

theorem started_boot {free : List Frame} (h : boot free = some s) : s.Started := by
  obtain ⟨k, hk, rfl⟩ := Option.map_eq_some_iff.mp h
  exact ⟨⟨⟨_, _, _, Kernel.eq_ok_of_toOption hk⟩, rfl⟩, rfl⟩

/-- Init has used four ticks on level 0; with the fifth it moves down. -/
theorem mlfq_counters_fifthTick : ∃ s s' : Quanta, s.Reachable ∧
    (s.kernel.proc 0).timeQuantumUsed = 4 ∧ s.next (.timer 0) = some s' ∧
    (s.gauge 0).level = 0 ∧ (s'.gauge 0).level = 1 ∧
    s'.ticks 0 = s.ptable.mlfqTimeQuantum 0 := by
  have hrun : ((boot (List.range' 1 400)).bind fun s =>
      runFrom next s (List.replicate 4 (.timer 0))).any (fun s =>
        ((s.kernel.proc 0).timeQuantumUsed = 4 ∧ (s.kernel.proc 0).cpuShare = 0 ∧
          (s.gauge 0).level = 0 ∧ (s.next (.timer 0)).any fun s' => (s'.gauge 0).level = 1 : Bool)) =
      true := by decide +kernel
  obtain ⟨s, hs, hP⟩ := (Option.any_eq_true _ _).mp hrun
  obtain ⟨s0, h0, h1⟩ := Option.bind_eq_some_iff.mp hs
  have hreach : s.Reachable := (Reach.start (started_boot h0)).runFrom (fun _ _ _ => trivial) h1
  obtain ⟨hused, hshare, hlevel, hnext⟩ := of_decide_eq_true hP
  obtain ⟨s', hs', hlevel'⟩ := (Option.any_eq_true _ _).mp hnext
  have hlevel' : (s'.gauge 0).level = 1 := of_decide_eq_true hlevel'
  have hdown := ((mlfq_counters hreach).2.2.2 _ _ hs').down 0 hshare (by omega)
  exact ⟨s, s', hreach, hused, hs', hlevel, hlevel', hlevel ▸ hdown.2.2⟩

end Quanta
end Xv6
