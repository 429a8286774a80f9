import Xv6.Stride.Queue
import Xv6.Book.Step

/-!
# Xv6.Stride.Lane

The kernel as the stride scheduler sees it: of every entry whether it is in
use, whose it is and its share, stride and pass value; and the stride queue
around the entries.  `LaneStep` says what a step of the kernel does to these.
-/

namespace Xv6

open Lib

variable {ok : Bool} {r : Int} {s s' s1 : Kernel} {m : Option Slot} {c cur np p : Slot}

/-- What the stride scheduler knows of an entry.  Like the book it does not
tell waiting, sleeping and running processes apart. -/
structure Lane where
  state : ProcState
  pid : Int
  tid : Int
  kstack : Option Frame
  cpuShare : Int32
  originalCpuShare : Int32
  stride : Int32
  strideCount : Int32

def Proc.lane (x : Proc) : Lane where
  state := x.state.settled
  pid := x.pid
  tid := x.tid
  kstack := x.kstack
  cpuShare := x.cpuShare
  originalCpuShare := x.originalCpuShare
  stride := x.stride
  strideCount := x.strideCount

/-- An entry that has never had a share. -/
structure Lane.Fresh (e : Lane) : Prop where
  cpuShare : e.cpuShare = 0
  stride : e.stride = 0
  strideCount : e.strideCount = 0

/-- An entry after `clear_proc`. -/
def Lane.cleared : Lane where
  state := .unused
  pid := 0
  tid := 0
  kstack := none
  cpuShare := 0
  originalCpuShare := 0
  stride := 0
  strideCount := 0

/-- An entry in another state. -/
def Lane.withState (e : Lane) (st : ProcState) : Lane := { e with state := st }

theorem Lane.fresh_cleared : Lane.cleared.Fresh := ⟨rfl, rfl, rfl⟩

namespace Kernel

/-- `p` is a process that is not ending: `SLEEPING`, `RUNNABLE` or `RUNNING`. -/
def Active (s : Kernel) (p : Slot) : Prop := (s.proc p).state.settled = .runnable

instance (s : Kernel) (p : Slot) : Decidable (s.Active p) := inferInstanceAs (Decidable (_ = _))

/-- Nothing the stride scheduler sees has changed. -/
abbrev SameLanes (s s' : Kernel) : Prop := SamePart Proc.lane s s'

theorem SamePart.tid (h : SameLanes s s') (p : Slot) : (s'.proc p).tid = (s.proc p).tid :=
  congrArg Lane.tid (h.entry p)

theorem SamePart.pid (h : SameLanes s s') (p : Slot) : (s'.proc p).pid = (s.proc p).pid :=
  congrArg Lane.pid (h.entry p)

/-- Of what the stride scheduler sees, only the entry `p` has changed. -/
structure LaneAt (s : Kernel) (p : Slot) (e : Lane) (s' : Kernel) : Prop where
  same : (s'.proc p).lane = e
  other : ∀ q, q ≠ p → (s'.proc q).lane = (s.proc q).lane
  rest : s'.ptable = { s.ptable with proc := s'.ptable.proc }
  junk : s'.junk = s.junk

theorem LaneAt.then_same {e : Lane} (h : LaneAt s p e s1)
    (h' : SameLanes s1 s') : LaneAt s p e s' where
  same := (h'.entry p).trans h.same
  other q hq := (h'.entry q).trans (h.other q hq)
  rest := by rw [h'.rest, h.rest]
  junk := h'.junk.trans h.junk

theorem laneAt_of_same {e : Lane} (h : SameLanes s s1)
    (h' : LaneAt s1 p e s') : LaneAt s p e s' where
  same := h'.same
  other q hq := (h'.other q hq).trans (h.entry q)
  rest := by rw [h'.rest, h.rest]
  junk := h'.junk.trans h.junk

theorem laneAt_upd (s : Kernel) (p : Slot) (g : Proc → Proc) :
    LaneAt s p (g (s.proc p)).lane (s.upd p g) where
  same := by simp
  other q hq := by rw [upd_proc_of_ne s g hq]
  rest := rfl
  junk := rfl

/-! ## Calls that change nothing here -/

theorem ignoresMemory_lane : IgnoresMemory Proc.lane := fun _ _ _ _ _ => rfl

theorem FilesOnly.sameLanes (h : FilesOnly p s s') : SameLanes s s' :=
  h.samePart fun x st of wd hw => by simp only [Proc.lane, hw.settled]

theorem sameLanes_wakeup1 (s : Kernel) (chan : Chan) : SameLanes s (s.wakeup1 chan) :=
  (filesOnly_wakeup1 s.initproc s chan).sameLanes

theorem sameLanes_passChildren (p : Slot) (s : Kernel) : SameLanes s (s.passChildren p) := by
  have hparent : SameLanes s (s.reparent p) := ⟨fun _ => rfl, rfl, rfl⟩
  exact hparent.trans (filesOnly_passChildren p s).sameLanes

theorem sameLanes_sleepOn (s : Kernel) (c : Slot) (chan : Chan) (hc : (s.proc c).state = .running) :
    SameLanes s (s.sleepOn c chan) :=
  samePart_upd s c (by simp [Proc.lane, hc, ProcState.settled])

theorem sameLanes_kill (s : Kernel) (pid : Int) : SameLanes s (s.kill pid).1 := by
  unfold kill
  split
  · refine samePart_upd s _ ?_
    simp only [Proc.lane, Lane.mk.injEq, and_true]
    split
    · next h => simp [h, ProcState.settled]
    · rfl
  · exact .refl _ s

theorem sameLanes_setFiles (s : Kernel) (p : Slot) (f : FilesAfter) :
    SameLanes s (s.setFiles p f) := by
  have hu : SameLanes s (s.upd p fun x => { x with ofile := f.ofile, cwd := f.cwd }) :=
    samePart_upd s p rfl
  exact hu.trans (.of_ptable rfl rfl)

/-! ## New entries -/

/-- Of what the stride scheduler sees, only the entry `p` has changed, and it
has no share. -/
def FreshAt (s : Kernel) (p : Slot) (s' : Kernel) : Prop := ∃ e : Lane, e.Fresh ∧ LaneAt s p e s'

theorem coarse_lane : Coarse Proc.lane where
  files x st of wd hw := by simp only [Proc.lane, hw.settled]
  memory := ignoresMemory_lane

theorem blank_fresh : Blank Proc.lane Lane.Fresh where
  embryo _ _ := ⟨rfl, rfl, rfl⟩
  state _ _ _ hx := ⟨hx.cpuShare, hx.stride, hx.strideCount⟩
  filled _ _ _ _ _ _ _ _ _ hx := ⟨hx.cpuShare, hx.stride, hx.strideCount⟩

theorem NewAt.freshAt (h : NewAt Proc.lane Lane.Fresh s p s') : FreshAt s p s' :=
  ⟨_, h.new, rfl, h.other, h.rest, h.junk⟩

/-- `fork` leaves the table alone, or takes the first free entry. -/
theorem fork_lanes (h : s.fork c = .ok (s', r)) :
    ((s.proc c).tid ≠ 0 ∨ s.freeSlot = none) ∧ s' = s ∨
      (s.proc c).tid = 0 ∧ ∃ np, s.freeSlot = some np ∧ FreshAt s np s' := by
  rcases fork_newAt coarse_lane blank_fresh h with hsame | ⟨ht, np, hfree, hnew⟩
  · exact .inl hsame
  · exact .inr ⟨ht, np, hfree, hnew.freshAt⟩

/-- `thread_create` by `c` up to the division of the share: the new thread is
in the entry `np`. -/
structure NewThread (s : Kernel) (c np : Slot) (s' : Kernel) : Prop where
  fresh : FreshAt s np s'
  pid : (s'.proc np).pid = (s.proc c).pid
  state : (s'.proc np).state = .runnable
  count : (s.proc c).tid = 0 → (s'.proc c).numOfThreads = (s.proc c).numOfThreads + 1

theorem threadEntry_tid_of_ne (hne : c ≠ np) :
    ((s.threadEntry c np).proc c).tid = (s.proc c).tid := by
  simp [threadEntry, proc, upd, PTable.setProc_proc_of_ne _ _ hne]

theorem ThreadMade.pid (h : ThreadMade s c np ok s')
    (hne : c ≠ np) : (s'.proc np).pid = (s.proc c).pid := by
  obtain ⟨s1, i, s2, h1, h2, h3⟩ := h.made
  have hlane := (newAt_allocproc blank_fresh h1).2.other c hne
  have hentry : ((s1.threadEntry c np).proc np).pid = (s1.proc c).pid := by
    simp [threadEntry, proc, upd]
  have hmem :=
    (filesOnly_dupAll c np h2).sameLanes.trans (threadStack_samePart ignoresMemory_lane h3)
  exact (hmem.pid np).trans (hentry.trans (congrArg Lane.pid hlane))

/-- Up to its stack a new thread changes nothing of the caller that the count
of threads depends on. -/
theorem ThreadMade.caller (h : ThreadMade s c np ok s') (hne : c ≠ np) :
    (s'.proc c).tid = (s.proc c).tid ∧ s'.tally.entry c = s.tally.entry c := by
  obtain ⟨s1, i, s2, h1, h2, h3⟩ := h.made
  have hlane := (newAt_allocproc blank_fresh h1).2.other c hne
  have hmem :=
    (filesOnly_dupAll c np h2).sameLanes.trans (threadStack_samePart ignoresMemory_lane h3)
  constructor
  · exact (hmem.tid c).trans ((threadEntry_tid_of_ne hne).trans (congrArg Lane.tid hlane))
  · rw [(threadStack_tally h3).2, (filesOnly_dupAll c np h2).tally]
    refine (congrFun (congrArg Tally.entry (threadEntry_tally s1 c np)) c).trans ?_
    rw [allocproc_some_tally h1]
    exact Tally.set_entry_of_ne _ _ hne

/-- A caller that is not a thread counts the new thread itself. -/
theorem ThreadMade.count {s3 : Kernel} (h : ThreadMade s c np ok s3) (hne : c ≠ np)
    (ht : (s.proc c).tid = 0) (hcount : s3.countThread c = .ok s') :
    (s'.proc c).numOfThreads = (s.proc c).numOfThreads + 1 := by
  obtain ⟨htid, hold⟩ := h.caller hne
  obtain ⟨m, hm, htally⟩ := countThread_tally hcount
  have hmc : c = m := by simpa [counterOf, htid.trans ht] using hm
  have hnum : s'.tally.entry c = (s3.tally.add m 1).entry c := by rw [htally]
  rw [← hmc, Tally.add, Tally.set_entry_same, hold] at hnum
  exact congrArg ThreadCount.num hnum

/-- `thread_create` takes the first free entry, and at its end divides the
share of the caller. -/
theorem threadCreate_lanes (hc : (s.proc c).state ≠ .unused) (h : s.threadCreate c = .ok (s', r)) :
    s.freeSlot = none ∧ s' = s ∨ ∃ np, s.freeSlot = some np ∧
      (FreshAt s np s' ∨ ∃ s1, NewThread s c np s1 ∧ s1.shareWithThread c np = .ok s') := by
  rcases threadCreate_paths h with hnone | ⟨np, hmade⟩ | ⟨np, s3, s4, hmade, hcount, hshare⟩
  · rcases newAt_allocproc_none blank_fresh hnone with hsame | ⟨np, hfree, hnew⟩
    · exact .inl hsame
    · exact .inr ⟨np, hfree, .inl hnew.freshAt⟩
  · obtain ⟨hfree, hnew⟩ := hmade.newAt coarse_lane blank_fresh
    exact .inr ⟨np, hfree, .inl hnew.freshAt⟩
  · obtain ⟨hfree, hnew⟩ := hmade.newAt coarse_lane blank_fresh
    have hne : c ≠ np := fun hcn => hc (hcn ▸ unused_of_freeSlot hfree)
    have hcounted := countThread_samePart ignoresMemory_lane hcount
    have hrunnable := (hnew.then_same hcounted).upd (fun x => { x with state := .runnable })
      (blank_fresh.state _ .runnable (by decide))
    refine .inr ⟨np, hfree, .inr ⟨_, ⟨hrunnable.freshAt, ?_, by simp, fun ht => ?_⟩, hshare⟩⟩
    · rw [upd_proc_same]
      exact (hcounted.pid np).trans (hmade.pid hne)
    · rw [upd_proc_of_ne _ _ hne]
      exact hmade.count hne ht hcount

/-! ## Ending and collecting -/

theorem laneAt_clearProc {pid : Int}
    (h : s.clearProc p = .ok (s', pid)) : (s.proc p).kstack ≠ none ∧ LaneAt s p .cleared s' := by
  constructor
  · obtain ⟨s1, h1, -⟩ := bind_eq_ok.mp h
    obtain ⟨f, hf, -⟩ := kfreeKstack_eq h1
    simp [hf]
  · obtain ⟨ref, free, calls, rfl⟩ := clearProc_eq h
    have hu := laneAt_upd s p fun x => Proc.cleared { x with kstack := none }
    exact hu.then_same (.of_ptable rfl rfl)

/-- `p` leaves the stride queue with `cur` running, and becomes a zombie. -/
def Leaves (s : Kernel) (cur p : Slot) (s' : Kernel) : Prop :=
  ∃ s1 s2, SameLanes s s1 ∧ s1.leaveStride cur p = .ok s2 ∧
    LaneAt s2 p ((s.proc p).lane.withState .zombie) s'

theorem leaveStride_proc (h : s.leaveStride cur p = .ok s') : s'.proc = s.proc := by
  obtain ⟨queue, size, sum, junk, rfl⟩ := leaveStride_eq h
  rfl

theorem laneAt_zombie (h : SameLanes s s1) :
    LaneAt s p ((s.proc p).lane.withState .zombie)
      (s1.upd p fun x => { x with state := .zombie }) := by
  have hu := laneAt_upd s1 p fun x => { x with state := .zombie }
  have he : (s1.proc p).lane.withState .zombie = (s.proc p).lane.withState .zombie :=
    congrArg (Lane.withState · .zombie) (h.entry p)
  exact he ▸ laneAt_of_same h hu

theorem leaves_of_leaveStride {s2 : Kernel} (h1 : SameLanes s s1)
    (h2 : s1.leaveStride cur p = .ok s2) (chan : Chan) :
    Leaves s cur p (((s2.wakeup1 chan).passChildren p).upd p fun x => { x with state := .zombie }) := by
  have hrest := (sameLanes_wakeup1 s2 chan).trans (sameLanes_passChildren p _)
  have hlane : (s2.proc p).lane = (s.proc p).lane := by
    rw [leaveStride_proc h2]
    exact h1.entry p
  exact ⟨s1, s2, h1, h2, hlane ▸ laneAt_zombie hrest⟩

theorem leaves_commonExit (h : s.commonExit cur p = .ok s') : Leaves s cur p s' := by
  obtain ⟨s1, h1, h⟩ := bind_eq_ok.mp h
  obtain ⟨s2, h2, h⟩ := bind_eq_ok.mp h
  cases h
  exact leaves_of_leaveStride (filesOnly_closeAll p h1).sameLanes h2 _

theorem leaves_threadExit {retval : Nat}
    (h : s.threadExit c retval = .ok s') : Leaves s c c s' := by
  unfold threadExit at h
  split at h
  · contradiction
  obtain ⟨s1, h1, h⟩ := bind_eq_ok.mp h
  obtain ⟨s2, h2, h⟩ := bind_eq_ok.mp h
  cases h
  have hret : SameLanes s1 (s1.upd c fun x => { x with threadReturn := retval }) :=
    samePart_upd s1 c rfl
  exact leaves_of_leaveStride ((filesOnly_closeAll c h1).sameLanes.trans hret) h2 _

theorem Leaves.laneAt (h : Leaves s cur p s')
    (hp : (s.proc p).cpuShare = 0) : LaneAt s p ((s.proc p).lane.withState .zombie) s' := by
  obtain ⟨s1, s2, h1, h2, h3⟩ := h
  have hshare : (s1.proc p).cpuShare = 0 := (congrArg Lane.cpuShare (h1.entry p)).trans hp
  unfold leaveStride at h2
  rw [if_neg (not_not.mpr hshare)] at h2
  cases h2
  exact laneAt_of_same h1 h3

/-- One part of `exit()` by `c`, with `m` the process that a thread takes for
the master thread. -/
inductive ExitStep (c : Slot) (m : Option Slot) (s : Kernel) : Kernel → Prop where
  | same {s' : Kernel} (h : SameLanes s s') : ExitStep c m s s'
  | leaves {p : Slot} {s' : Kernel}
      (hp : p = c ∨ p ≠ c ∧ (s.proc p).pid = (s.proc c).pid ∧ (s.proc p).tid ≠ 0 ∨ m = some p)
      (h : Leaves s c p s') : ExitStep c m s s'
  | clears {p : Slot} {s' : Kernel} (hp : p ≠ c) (hz : (s.proc p).state = .zombie)
      (hk : (s.proc p).kstack ≠ none) (h : LaneAt s p .cleared s') : ExitStep c m s s'
  | unused {s' : Kernel} (hz : (s.proc c).state = .zombie)
      (h : LaneAt s c ((s.proc c).lane.withState .unused) s') : ExitStep c m s s'

theorem settled_eq_zombie {st : ProcState} : st.settled = .zombie ↔ st = .zombie := by
  cases st <;> simp [ProcState.settled]

theorem SamePart.zombie (h : SameLanes s s') (hp : (s.proc p).state = .zombie) :
    (s'.proc p).state = .zombie := by
  have hst : (s'.proc p).state.settled = (s.proc p).state.settled := congrArg Lane.state (h.entry p)
  rw [hp] at hst
  exact settled_eq_zombie.mp hst

theorem Leaves.of_ne {q : Slot} (h : Leaves s cur p s') (hq : q ≠ p) :
    (s'.proc q).lane = (s.proc q).lane := by
  obtain ⟨s1, s2, h1, h2, h3⟩ := h
  rw [h3.other q hq, leaveStride_proc h2, h1.entry q]

theorem Leaves.zombie (h : Leaves s cur p s') : (s'.proc p).state = .zombie := by
  obtain ⟨s1, s2, h1, h2, h3⟩ := h
  have hst : (s'.proc p).state.settled = .zombie := congrArg Lane.state h3.same
  exact settled_eq_zombie.mp hst

/-- The process that `exit()` takes for the master thread of the caller. -/
def exitMaster (s : Kernel) (c : Slot) : Option Slot :=
  if (s.proc c).tid = 0 then none else (s.proc c).parent

/-- A zombie is cleared, its thread stack before that. -/
theorem ExitStep.reap {pid : Int} (hp : p ≠ c)
    (hz : (s.proc p).state = .zombie) (h1 : s.removeThreadStack p = .ok s1)
    (h : s1.clearProc p = .ok (s', pid)) : Relation.ReflTransGen (ExitStep c m) s s' := by
  have hstack := removeThreadStack_samePart ignoresMemory_lane h1
  obtain ⟨hk, hclear⟩ := laneAt_clearProc h
  exact .tail (.single (.same hstack)) (.clears hp (hstack.zombie hz) hk hclear)

theorem exitSteps_exitMasterThread (hc : (s.proc c).tid = 0) (h : exitMasterThread c s p = .ok s') :
    Relation.ReflTransGen (ExitStep c m) s s' ∧ (s'.proc c).tid = 0 := by
  rcases exitMasterThread_cases h with rfl | ⟨hpid, htid, s1, r, h1, h2⟩
  · exact ⟨.refl, hc⟩
  have hpc : p ≠ c := fun hpc => htid (hpc ▸ hc)
  have hleaves := leaves_commonExit h1
  have hstep : ExitStep c m s s1 := .leaves (.inr (.inl ⟨hpc, hpid, htid⟩)) hleaves
  have hc1 : (s1.proc c).tid = 0 := (congrArg Lane.tid (hleaves.of_ne hpc.symm)).trans hc
  rcases threadJoin_cases h2 with
    ⟨q, s2, pid, -, hqtid, hz, hstack, hclear, -⟩ | ⟨rfl, -⟩ | ⟨-, hr⟩
  · have hqc : q ≠ c := by
      rintro rfl
      exact htid (hqtid.symm.trans hc1)
    refine ⟨(Relation.ReflTransGen.single hstep).trans (ExitStep.reap hqc hz hstack hclear), ?_⟩
    have hother := (laneAt_clearProc hclear).2.other c hqc.symm
    exact (congrArg Lane.tid hother).trans
      (((removeThreadStack_samePart ignoresMemory_lane hstack).tid c).trans hc1)
  · exact ⟨.single hstep, hc1⟩
  · contradiction

theorem exitSteps_exitOtherThread (h : exitOtherThread c s p = .ok s') :
    Relation.ReflTransGen (ExitStep c m) s s' := by
  rcases exitOtherThread_cases h with rfl | ⟨hpid, htid, hpc, s1, s2, pid, h1, h2, h3⟩
  · exact .refl
  have hstack := removeThreadStack_samePart ignoresMemory_lane h1
  have hleaves := leaves_commonExit h2
  have hpid1 : (s1.proc p).pid = (s1.proc c).pid := by
    rw [hstack.pid p, hstack.pid c]
    exact hpid
  have htid1 : (s1.proc p).tid ≠ 0 := by
    rw [hstack.tid p]
    exact htid
  obtain ⟨hk, hclear⟩ := laneAt_clearProc h3
  exact .tail (.tail (.single (.same hstack)) (.leaves (.inr (.inl ⟨hpc, hpid1, htid1⟩)) hleaves))
    (.clears hpc hleaves.zombie hk hclear)

theorem exitSteps_of_exit (h : s.exit c = .ok s') :
    Relation.ReflTransGen (ExitStep c (s.exitMaster c)) s s' := by
  obtain ⟨-, ⟨-, hself⟩ | ⟨htid, s1, h1, hself⟩ | ⟨htid, m, s1, s2, s3, s4, hm, h1, h2, h3, h4, rfl⟩⟩ :=
    exit_cases h
  · exact .single (.leaves (.inl rfl) (leaves_commonExit hself))
  · have hloop := forEach_inv
      (fun k => Relation.ReflTransGen (ExitStep c (s.exitMaster c)) s k ∧ (k.proc c).tid = 0)
      (fun p _ a b ha hb => by
        obtain ⟨hsteps, hc⟩ := exitSteps_exitMasterThread ha.2 hb
        exact ⟨ha.1.trans hsteps, hc⟩) h1 ⟨.refl, htid⟩
    exact .tail hloop.1 (.leaves (.inl rfl) (leaves_commonExit hself))
  · have hloop := forEach_inv (Relation.ReflTransGen (ExitStep c (s.exitMaster c)) s)
      (fun p _ a b ha hb => ha.trans (exitSteps_exitOtherThread hb)) h1 .refl
    have hmaster : s.exitMaster c = some m := by rw [exitMaster, if_neg htid, hm]
    have hself := leaves_commonExit h4
    have hlast := laneAt_upd s4 c fun x => { x with state := .unused }
    have hs2 := hloop.tail (.leaves (.inr (.inr hmaster)) (leaves_commonExit h2))
    have hs3 := hs2.tail (.same (removeThreadStack_samePart ignoresMemory_lane h3))
    have hs4 := hs3.tail (.leaves (.inl rfl) hself)
    exact hs4.tail (.unused hself.zombie hlast)

/-! ## Steps of the kernel -/

/-- The entry that `allocproc` takes in a step. -/
def allocates (s : Kernel) : Event → Option Slot
  | .call c .fork => if (s.proc c).tid = 0 then s.freeSlot else none
  | .call _ .threadCreate => s.freeSlot
  | _ => none

theorem not_active_of_allocates {e : Event} (h : s.allocates e = some p) : ¬ s.Active p := by
  have hunused : (s.proc p).state = .unused := by
    unfold allocates at h
    split at h
    · split at h
      · exact unused_of_freeSlot h
      · contradiction
    · exact unused_of_freeSlot h
    · contradiction
  rw [Active, hunused]
  decide

/-- What a step of the kernel does to the lanes. -/
inductive LaneStep (s : Kernel) : Event → Kernel → Prop where
  | quiet {e : Event} {s' : Kernel} (hnew : s.allocates e = none) (h : SameLanes s s') :
      LaneStep s e s'
  | alloc {e : Event} {s' : Kernel} {np : Slot} (hnew : s.allocates e = some np)
      (h : FreshAt s np s') : LaneStep s e s'
  | divide {c np : Slot} {s1 s' : Kernel} (hnew : s.freeSlot = some np) (h : NewThread s c np s1)
      (hshare : s1.shareWithThread c np = .ok s') : LaneStep s (.call c .threadCreate) s'
  | setCpuShare {c : Slot} {required : Int32} {s' : Kernel} {r : Int}
      (h : s.sysSetCpuShare c required = .ok (s', r)) : LaneStep s (.call c (.setCpuShare required)) s'
  | threadExit {c : Slot} {retval : Nat} {s' : Kernel} (h : Leaves s c c s') :
      LaneStep s (.call c (.threadExit retval)) s'
  | collect {e : Event} {p : Slot} {s' : Kernel} (hnew : s.allocates e = none)
      (hz : (s.proc p).state = .zombie) (hk : (s.proc p).kstack ≠ none)
      (h : LaneAt s p .cleared s') : LaneStep s e s'
  | exit {c : Slot} {s' : Kernel}
      (h : Relation.ReflTransGen (ExitStep c (s.exitMaster c)) s s') : LaneStep s (.call c .exit) s'

theorem laneStep_threadCreate (hc : (s.proc c).state = .running)
    (h : s.threadCreate c = .ok (s', r)) : LaneStep s (.call c .threadCreate) s' := by
  rcases threadCreate_lanes (by simp [hc]) h with ⟨hnone, rfl⟩ | ⟨np, hfree, hnew | ⟨s1, hnew, hshare⟩⟩
  · exact .quiet hnone (.refl _ _)
  · exact .alloc hfree hnew
  · exact .divide hfree hnew hshare

theorem laneStep_fork (h : s.fork c = .ok (s', r)) : LaneStep s (.call c .fork) s' := by
  rcases fork_lanes h with ⟨hnone, rfl⟩ | ⟨ht, np, hfree, hnew⟩
  · refine .quiet ?_ (.refl _ _)
    simp only [allocates, ite_eq_right_iff]
    exact fun ht => hnone.resolve_left (not_not.mpr ht)
  · have hslot : s.allocates (.call c .fork) = some np := by simp only [allocates, if_pos ht, hfree]
    exact .alloc hslot hnew

theorem laneStep_threadJoin {thread : Int} {r : Scan} (hc : (s.proc c).state = .running)
    (h : s.threadJoin c thread = .ok (s', r)) : LaneStep s (.call c (.threadJoin thread)) s' := by
  rcases threadJoin_cases h with ⟨p, s1, pid, -, -, hz, h1, h2, -⟩ | ⟨rfl, -⟩ | ⟨rfl, -⟩
  · have hstack := removeThreadStack_samePart ignoresMemory_lane h1
    obtain ⟨hk, hclear⟩ := laneAt_clearProc h2
    rw [show (s1.proc p).kstack = (s.proc p).kstack from congrArg Lane.kstack (hstack.entry p)] at hk
    exact .collect rfl hz hk (laneAt_of_same hstack hclear)
  · exact .quiet rfl (.refl _ _)
  · exact .quiet rfl (sameLanes_sleepOn s c _ hc)

theorem laneStep_wait {r : Scan} (hc : (s.proc c).state = .running)
    (h : s.wait c = .ok (s', r)) : LaneStep s (.call c .wait) s' := by
  rcases wait_cases h with ⟨p, pid, -, hz, h2⟩ | rfl | ⟨chan, rfl⟩
  · obtain ⟨hk, hclear⟩ := laneAt_clearProc h2
    exact .collect rfl hz hk hclear
  · exact .quiet rfl (.refl _ _)
  · exact .quiet rfl (sameLanes_sleepOn s c _ hc)

theorem laneStep_syscall {op : Syscall} (hc : (s.proc c).state = .running)
    (h : s.syscall c op = .ok s') : LaneStep s (.call c op) s' := by
  cases op with
  | fork =>
    obtain ⟨r, h⟩ := map_fst_eq_ok h
    exact laneStep_fork h
  | exec file =>
    obtain ⟨r, h⟩ := map_fst_eq_ok h
    exact .quiet rfl (exec_samePart ignoresMemory_lane h)
  | sbrk n =>
    obtain ⟨r, h⟩ := map_fst_eq_ok h
    exact .quiet rfl (growproc_samePart ignoresMemory_lane h)
  | setCpuShare required =>
    obtain ⟨r, h⟩ := map_fst_eq_ok h
    exact .setCpuShare h
  | threadCreate =>
    obtain ⟨r, h⟩ := map_fst_eq_ok h
    exact laneStep_threadCreate hc h
  | threadExit retval => exact .threadExit (leaves_threadExit h)
  | threadJoin thread =>
    obtain ⟨r, h⟩ := map_fst_eq_ok h
    exact laneStep_threadJoin hc h
  | exit => exact .exit (exitSteps_of_exit h)
  | wait =>
    obtain ⟨r, h⟩ := map_fst_eq_ok h
    exact laneStep_wait hc h
  | kill pid =>
    cases h
    exact .quiet rfl (sameLanes_kill s pid)

/-- **Every step** is one of these. -/
theorem laneStep_of_next {e : Event} (h : s.next e = some s') : LaneStep s e s' := by
  obtain ⟨hen, h⟩ := next_eq_some.mp h
  cases e with
  | dispatch p =>
    cases h
    have hp : (s.proc p).state = .runnable := hen
    exact .quiet rfl (samePart_upd s p (by simp [Proc.lane, hp, ProcState.settled]))
  | yield p =>
    cases h
    have hp : (s.proc p).state = .running := hen
    exact .quiet rfl (samePart_upd s p (by simp [Proc.lane, hp, ProcState.settled]))
  | sleep p chan =>
    cases h
    exact .quiet rfl (sameLanes_sleepOn s p chan hen)
  | wakeup chan =>
    cases h
    exact .quiet rfl (sameLanes_wakeup1 s chan)
  | files p f =>
    cases h
    exact .quiet rfl (sameLanes_setFiles s p f)
  | call c op => exact laneStep_syscall hen h

/-! ## Boot -/

theorem started_freshAt (h : Started s) :
    ∃ free junk p, FreshAt { atBoot free with junk := junk } p s := by
  obtain ⟨free, junk, p, hnew⟩ := started_newAt coarse_lane blank_fresh
    (fun _ hx => ⟨hx.cpuShare, hx.stride, hx.strideCount⟩) h
  exact ⟨free, junk, p, hnew.freshAt⟩

theorem started_fresh (h : Started s) (q : Slot) : (s.proc q).lane.Fresh := by
  obtain ⟨free, junk, p, e, he, hat⟩ := started_freshAt h
  by_cases hq : q = p
  · subst hq
    exact hat.same ▸ he
  · rw [hat.other q hq]
    exact ⟨rfl, rfl, rfl⟩

theorem started_queue (h : Started s) :
    s.ptable.strideQueue = (fun _ => none) ∧ s.ptable.strideQueueSize = 0 ∧
      s.ptable.sumCpuShare = 0 := by
  obtain ⟨free, junk, p, e, he, hat⟩ := started_freshAt h
  rw [hat.rest]
  exact ⟨rfl, rfl, rfl⟩

end Kernel
end Xv6
