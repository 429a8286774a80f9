import Xv6.Stride.Lane
import Xv6.Stride.Shares
import Xv6.Stride.Turn

/-!
# Xv6.Mlfq

The priority rule of the MLFQ, along runs of `scheduler()` on one CPU: whom it
dispatches from the MLFQ has no waiting process on a higher level (a smaller
`level_of_MLFQ`).

The code keeps a bound, `queue_level_at_most`, and runs the first waiting process
of the table within it.  That is the right one as long as the bound is *tight* or
all who wait are on one level.  Neither is kept: a new outer turn starts from the
loosest bound, a scan that found nobody raises it although somebody may have become
`RUNNABLE` behind it, and a process may become `RUNNABLE` above it.
-/

namespace Xv6

open Lib

variable {t t' : PTable} {s s' : Sched} {c p : Slot}

/-! ## Kernel events and the clock -/

/-- What the table keeps for the MLFQ outside the entries: the bound, the time
quanta and the ticks used since the last boost. -/
structure Clock where
  queueLevelAtMost : Nat
  mlfqTimeQuantum : Nat → Nat
  mlfqTickUsed : Nat
  strideTimeQuantum : Nat

namespace PTable

def clock (t : PTable) : Clock where
  queueLevelAtMost := t.queueLevelAtMost
  mlfqTimeQuantum := t.mlfqTimeQuantum
  mlfqTickUsed := t.mlfqTickUsed
  strideTimeQuantum := t.strideTimeQuantum

theorem strideQueuePush_clock (t : PTable) (p : Slot) : (t.strideQueuePush p).clock = t.clock := by
  unfold strideQueuePush
  cases t.strideQueue 1 with
  | none => rfl
  | some r => rfl

theorem granted_clock (t : PTable) (p : Slot) (required original : Int32) :
    (t.granted p required original).clock = t.clock := by
  unfold granted
  simp only
  split
  · exact strideQueuePush_clock _ p
  · rfl

end PTable

namespace Kernel

def clock (s : Kernel) : Clock := s.ptable.clock

theorem clock_of_rest {s s' : Kernel} (h : s'.ptable = { s.ptable with proc := s'.ptable.proc }) :
    s'.clock = s.clock := by
  rw [clock, h]
  rfl

theorem Leaves.clock_eq {s s' : Kernel} {cur : Slot} (h : Leaves s cur p s') :
    s'.clock = s.clock := by
  obtain ⟨s1, s2, h1, h2, h3⟩ := h
  obtain ⟨queue, size, sum, junk, hs2⟩ := leaveStride_eq h2
  have hqueue : s2.clock = s1.clock := by rw [hs2]; rfl
  exact (clock_of_rest h3.rest).trans (hqueue.trans (clock_of_rest h1.rest))

theorem ExitStep.clock_eq {m : Option Slot} {s s' : Kernel} (h : ExitStep c m s s') :
    s'.clock = s.clock := by
  cases h with
  | same h => exact clock_of_rest h.rest
  | leaves _ h => exact h.clock_eq
  | clears _ _ _ h => exact clock_of_rest h.rest
  | unused _ h => exact clock_of_rest h.rest

theorem GrantStep.clock_eq {s s' : Kernel} (h : GrantStep c s s') : s'.clock = s.clock := by
  cases h with
  | grant => exact PTable.granted_clock ..

theorem clock_of_steps {r : Kernel → Kernel → Prop} (hr : ∀ s s', r s s' → s'.clock = s.clock)
    {s s' : Kernel} (h : Relation.ReflTransGen r s s') : s'.clock = s.clock := by
  induction h with
  | refl => rfl
  | tail _ hstep ih => exact (hr _ _ hstep).trans ih

theorem clock_shareWithThread {s s' : Kernel} {np : Slot}
    (h : s.shareWithThread c np = .ok s') : s'.clock = s.clock := by
  rcases shareWithThread_eq h with ⟨-, rfl⟩ | ⟨-, -, -, hs'⟩
  · rfl
  · obtain ⟨pr, hpr⟩ := foldl_shareThread_rest c (s.dividedShare c) slots (s.grantThread c np)
    rw [hs', hpr]
    exact PTable.granted_clock ..

theorem clock_of_next {s s' : Kernel} {e : Event} (h : s.next e = some s') :
    s'.clock = s.clock := by
  cases laneStep_of_next h with
  | quiet _ h => exact clock_of_rest h.rest
  | alloc _ h =>
    obtain ⟨_, -, h⟩ := h
    exact clock_of_rest h.rest
  | divide _ hnew hshare =>
    obtain ⟨_, -, hnew⟩ := hnew.fresh
    exact (clock_shareWithThread hshare).trans (clock_of_rest hnew.rest)
  | setCpuShare h =>
    exact clock_of_steps (fun _ _ => GrantStep.clock_eq) (grants_of_setCpuShare h)
  | threadExit h => exact h.clock_eq
  | collect _ _ _ h => exact clock_of_rest h.rest
  | exit h => exact clock_of_steps (fun _ _ => ExitStep.clock_eq) h

end Kernel

/-! ## Who waits -/

namespace PTable

/-- `p` waits in the MLFQ. -/
def Waits (t : PTable) (p : Slot) : Prop := (t.proc p).state = .runnable ∧ (t.proc p).cpuShare = 0

instance (t : PTable) : DecidablePred t.Waits := fun _ => inferInstanceAs (Decidable (_ ∧ _))

/-- The MLFQ level of `p`. -/
def level (t : PTable) (p : Slot) : Nat := (t.proc p).levelOfMLFQ

/-- Nobody waits on a level above the bound. -/
def Tight (t : PTable) : Prop := ∀ p, t.Waits p → t.queueLevelAtMost ≤ t.level p

instance (t : PTable) : Decidable t.Tight := inferInstanceAs (Decidable (∀ _, _))

/-- All who wait are on one level. -/
def OneLevel (t : PTable) : Prop := ∀ p q, t.Waits p → t.Waits q → t.level p = t.level q

instance (t : PTable) : Decidable t.OneLevel := inferInstanceAs (Decidable (∀ _ _, _))

/-- Whom the bound lets run first has nobody waiting above it. -/
def Fits (t : PTable) : Prop := t.Tight ∨ t.OneLevel

/-- `p` waits in `t'`, and did not in `t` or was on another level. -/
def Arrives (t t' : PTable) (p : Slot) : Prop :=
  t'.Waits p ∧ ¬ (t.Waits p ∧ t'.level p = t.level p)

instance (t t' : PTable) : DecidablePred (t.Arrives t') :=
  fun _ => inferInstanceAs (Decidable (_ ∧ _))

theorem Waits.of_not_arrives (hp : t'.Waits p) (h : ¬ t.Arrives t' p) :
    t.Waits p ∧ t'.level p = t.level p :=
  not_not.mp fun hn => h ⟨hp, hn⟩

theorem OneLevel.of_no_arrival (h : t.OneLevel) (hn : ∀ p, ¬ t.Arrives t' p) : t'.OneLevel := by
  intro p q hp hq
  obtain ⟨hp0, hpl⟩ := hp.of_not_arrives (hn p)
  obtain ⟨hq0, hql⟩ := hq.of_not_arrives (hn q)
  rw [hpl, hql]
  exact h p q hp0 hq0

/-- Those who arrive are not above the bound, which does not get looser. -/
theorem Tight.of_arrivals (h : t.Tight) (hb : t'.queueLevelAtMost ≤ t.queueLevelAtMost)
    (ha : ∀ p, t.Arrives t' p → t.queueLevelAtMost ≤ t'.level p) : t'.Tight := by
  intro p hp
  by_cases harr : t.Arrives t' p
  · exact hb.trans (ha p harr)
  · obtain ⟨hp0, hpl⟩ := hp.of_not_arrives harr
    rw [hpl]
    exact hb.trans (h p hp0)

theorem Fits.of_no_arrival (h : t.Fits)
    (hb : t'.queueLevelAtMost ≤ t.queueLevelAtMost) (hn : ∀ p, ¬ t.Arrives t' p) : t'.Fits := by
  rcases h with htight | hone
  · exact .inl (htight.of_arrivals hb fun p hp => absurd hp (hn p))
  · exact .inr (hone.of_no_arrival hn)

theorem Fits.level_le (h : t.Fits) {q : Slot} (hp : Sched.Eligible t p)
    (hq : t.Waits q) : t.level p ≤ t.level q := by
  rcases h with htight | hone
  · exact hp.2.2.trans (htight q hq)
  · exact (hone p q ⟨hp.1, hp.2.1⟩ hq).le

/-- Charging a process and rearranging the queue change nothing for the MLFQ. -/
theorem findLoop_mlfq {k : Nat} (h : t.findLoop (t.strideQueueSize.toNat + 1) 1 = .ok (t', k)) :
    t'.queueLevelAtMost = t.queueLevelAtMost ∧ ∀ p, ¬ t.Arrives t' p := by
  have hsame : ∀ {t1 : PTable} {c : Slot}, t1 = t.charge c → ∀ p, t1.Waits p →
      t.Waits p ∧ t1.level p = t.level p := by
    intro t1 c ht1 p hp
    subst ht1
    by_cases hpc : p = c
    · subst hpc
      simpa [Waits, level, charge] using hp
    · have he : (t.charge c).proc p = t.proc p := setProc_proc_of_ne _ _ hpc
      rw [Waits, he] at hp
      exact ⟨hp, congrArg Proc.levelOfMLFQ he⟩
  rcases search_cases h with ⟨-, rfl⟩ | ⟨c, i, -, -, -, hsift⟩
  · exact ⟨rfl, fun p hp => hp.2 ⟨hp.1, rfl⟩⟩
  · obtain ⟨queue, rfl⟩ := strideQueueHeapifyDown_eq hsift
    exact ⟨rfl, fun p hp => hp.2 (hsame rfl p hp.1)⟩

theorem not_arrives_switchTo (t : PTable) (p q : Slot) :
    ¬ t.Arrives (t.setProc p fun x => { x with state := .running, timeQuantumUsed := 0 }) q := by
  rintro ⟨hq, hn⟩
  by_cases hqp : q = p
  · subst hqp
    simp [Waits] at hq
  · have he :=
      setProc_proc_of_ne t (fun x => { x with state := .running, timeQuantumUsed := 0 }) hqp
    rw [Waits, he] at hq
    exact hn ⟨hq, congrArg Proc.levelOfMLFQ he⟩

end PTable

/-! ## The condition -/

/-- The table scan has passed the last entry. -/
def Place.AtEnd : Place → Prop
  | .scan i => NPROC ≤ i
  | _ => False

instance : DecidablePred Place.AtEnd
  | .scan _ => inferInstanceAs (Decidable (_ ≤ _))
  | .released | .running _ _ => inferInstanceAs (Decidable False)

/-- `p` has been switched to. -/
def Place.Runs (p : Slot) : Place → Prop
  | .running q _ => q = p
  | _ => False

instance (p : Slot) : DecidablePred (Place.Runs p)
  | .running _ _ => inferInstanceAs (Decidable (_ = _))
  | .released | .scan _ => inferInstanceAs (Decidable False)

namespace Sched

/-- The step from `s` to `s'` brings nobody into the MLFQ above the bound:
afterwards all who wait are on one level, or the bound was tight and those who
arrive are on a level within it. -/
def ArrivesBelow (s s' : Sched) : Prop :=
  s'.ptable.OneLevel ∨ ∀ p, s.ptable.Arrives s'.ptable p →
    s.ptable.Tight ∧ s.ptable.queueLevelAtMost ≤ s'.ptable.level p

instance (s s' : Sched) : Decidable (s.ArrivesBelow s') := inferInstanceAs (Decidable (_ ∨ _))

/-- The table scan ends here and raises the bound for another one. -/
def RaisesBound (s : Sched) : Prop :=
  s.place.AtEnd ∧ s.ptable.minOfRunProcLevel = NMLFQ - 1 ∧ s.ptable.queueLevelAtMost + 1 < NMLFQ

instance (s : Sched) : Decidable s.RaisesBound := inferInstanceAs (Decidable (_ ∧ _))

/-- The acts after which the bound still fits those who wait. -/
def Orderly (s : Sched) : Act → Prop
  | .acquire => s.ptable.OneLevel
  | .scan => s.RaisesBound → s.ptable.OneLevel ∨
      ∀ p, s.ptable.Waits p → s.ptable.queueLevelAtMost < s.ptable.level p
  | a => s.place ≠ .released → ∀ s', s.next a = some s' → s.ArrivesBelow s'

instance (s : Sched) : DecidablePred s.Orderly
  | .acquire => inferInstanceAs (Decidable s.ptable.OneLevel)
  | .scan => inferInstanceAs (Decidable (_ → _ ∨ ∀ _, _))
  | .process _ | .tick | .interrupt _ => inferInstanceAs (Decidable (_ ≠ _ → ∀ _, _ = _ → _))

/-- Before the first table scan of an outer turn the bound means nothing. -/
def BoundFits (s : Sched) : Prop := s.place = .released ∨ s.ptable.Fits

/-! ## Steps -/

theorem chooseQueue_ptable (h : s.chooseQueue = .ok s') :
    s'.ptable = s.ptable ∨ s'.ptable = { s.ptable with sumCpuShare := 0 } := by
  unfold chooseQueue at h
  split at h
  · cases h
    exact .inl rfl
  split at h
  · obtain ⟨⟨m, b⟩, h1, h⟩ := bind_eq_ok.mp h
    cases h
    rcases Machine.selectStrideOrMLFQ_cases h1 with hk | ⟨-, -, hk⟩
    · exact .inl (congrArg Kernel.ptable hk)
    · exact .inr (congrArg Kernel.ptable hk)
  · cases h
    exact .inl rfl

theorem chooseQueue_mlfq (h : s.chooseQueue = .ok s') :
    s'.ptable.queueLevelAtMost = s.ptable.queueLevelAtMost ∧ ∀ p, ¬ s.ptable.Arrives s'.ptable p := by
  rcases chooseQueue_ptable h with he | he <;> rw [he] <;> exact ⟨rfl, fun p hp => hp.2 ⟨hp.1, rfl⟩⟩

theorem runStride_mlfq {m : Machine} {r : Machine × Option Slot} (h : m.runStride = .ok r)
    (hfits : m.kernel.ptable.Fits) : r.1.kernel.ptable.Fits := by
  obtain ⟨t, k, ht, hr⟩ := Machine.runStride_cases h
  obtain ⟨hb, hn⟩ := PTable.findLoop_mlfq ht
  have hsearch : t.Fits := hfits.of_no_arrival hb.le hn
  rcases hr with hr | ⟨i, p, -, -, hr⟩
  · rw [hr]
    exact hsearch
  · rw [hr]
    exact hsearch.of_no_arrival le_rfl (t.not_arrives_switchTo p)

theorem runChosen_dispatch {i : Slot} (h : s.runChosen i = .ok s')
    (hp : s'.place.Runs p) (hsel : s'.strideIsSelected = false) :
    p = i ∧ Eligible s.ptable i ∧ s' = (s.setTable (lowerLevel s.ptable i)).switchTo i := by
  unfold runChosen at h
  split at h
  · next hstride =>
    obtain ⟨⟨m, o⟩, -, h⟩ := bind_eq_ok.mp h
    cases o with
    | none =>
      cases h
      cases hp
    | some q =>
      cases h
      rw [hstride] at hsel
      contradiction
  · split at h
    · next hel =>
      cases h
      exact ⟨hp.symm, hel, rfl⟩
    · cases h
      cases hp

theorem not_runs_endScan (s : Sched) (p : Slot) : ¬ s.endScan.place.Runs p := by
  unfold endScan
  simp only
  generalize (if s.ptable.minOfRunProcLevel = NMLFQ - 1 then _ else s.ptable) = t
  split
  · exact id
  · exact id

/-- A turn of the loop that ends in a dispatch from the MLFQ. -/
theorem scan_dispatch (h : s.next .scan = some s')
    (hp : s'.place.Runs p) (hsel : s'.strideIsSelected = false) :
    ∃ s1, s.place ≠ .released ∧ s.chooseQueue = .ok s1 ∧ Eligible s1.ptable p ∧
      s' = (s1.setTable (lowerLevel s1.ptable p)).switchTo p := by
  simp only [next] at h
  split at h
  · next i hplace =>
    have hok := Kernel.eq_ok_of_toOption h
    unfold scan at hok
    split at hok
    · obtain ⟨s1, h1, hok⟩ := bind_eq_ok.mp hok
      obtain ⟨rfl, hel, hs'⟩ := runChosen_dispatch hok hp hsel
      exact ⟨s1, by simp [hplace], h1, hel, hs'⟩
    · cases hok
      exact absurd hp (not_runs_endScan s p)
  · contradiction

/-- Dispatching `p` from the MLFQ makes the bound its level. -/
theorem fits_dispatch (h : t.Fits) (p : Slot) :
    ((lowerLevel t p).setProc p fun x => { x with state := .running, timeQuantumUsed := 0 }).Fits :=
  PTable.Fits.of_no_arrival h (min_le_right _ _) (t.not_arrives_switchTo p)

theorem runChosen_fits {i : Slot} (h : s.runChosen i = .ok s')
    (hfits : s.ptable.Fits) : s'.ptable.Fits := by
  unfold runChosen at h
  split at h
  · obtain ⟨⟨m, o⟩, h1, h⟩ := bind_eq_ok.mp h
    have hm := runStride_mlfq h1 hfits
    cases o with
    | none =>
      cases h
      exact hm
    | some q =>
      cases h
      exact hm
  · split at h
    · cases h
      exact fits_dispatch hfits i
    · cases h
      exact hfits

theorem endScan_boundFits (hfits : s.ptable.Fits)
    (hg : s.ptable.minOfRunProcLevel = NMLFQ - 1 → s.ptable.queueLevelAtMost + 1 < NMLFQ →
      s.ptable.OneLevel ∨ ∀ p, s.ptable.Waits p → s.ptable.queueLevelAtMost < s.ptable.level p) :
    s.endScan.BoundFits := by
  unfold endScan
  simp only
  split
  · next hmin =>
    split
    · next hlevel =>
      rcases hg hmin hlevel with hone | hall
      · exact .inr (.inr hone)
      · exact .inr (.inl hall)
    · exact .inl rfl
  · split
    · exact .inr hfits
    · exact .inl rfl

theorem scan_boundFits {i : Nat} (h : s.scan i = .ok s') (hfits : s.ptable.Fits)
    (hplace : s.place = .scan i) (hg : s.Orderly .scan) : s'.BoundFits := by
  unfold scan at h
  split at h
  · obtain ⟨s1, h1, h⟩ := bind_eq_ok.mp h
    obtain ⟨hb, hn⟩ := chooseQueue_mlfq h1
    exact .inr (runChosen_fits h (hfits.of_no_arrival hb.le hn))
  · next hi =>
    cases h
    refine endScan_boundFits hfits fun hmin hlevel => ?_
    exact hg ⟨by rw [hplace]; exact not_lt.mp hi, hmin, hlevel⟩

/-- A step that brings nobody in above the bound. -/
theorem ArrivesBelow.fits (h : s.ArrivesBelow s')
    (hb : s'.ptable.queueLevelAtMost = s.ptable.queueLevelAtMost) (hfits : s.ptable.Fits) :
    s'.ptable.Fits := by
  rcases h with hone | hall
  · exact .inr hone
  · by_cases htight : s.ptable.Tight
    · exact .inl (htight.of_arrivals hb.le fun p hp => (hall p hp).2)
    · exact hfits.of_no_arrival hb.le fun p hp => htight (hall p hp).1

@[simp] theorem resume_ptable (s : Sched) (p : Slot) (before : Nat) :
    (s.resume p before).ptable = s.ptable := by
  unfold resume
  simp only
  split
  · rfl
  · split
    · rfl
    · rfl

theorem boost_bound (s : Sched) : s.boost.ptable.queueLevelAtMost = s.ptable.queueLevelAtMost := by
  unfold boost
  split
  · rfl
  · rfl

theorem boost_place (s : Sched) : s.boost.place = s.place := by
  unfold boost
  split
  · rfl
  · rfl

theorem countTick_bound (t : PTable) (p : Slot) :
    (countTick t p).queueLevelAtMost = t.queueLevelAtMost := by
  unfold countTick
  simp only
  split
  · rfl
  · rfl

theorem tickRunning_bound (s : Sched) (p : Slot) (before : Nat) :
    (s.tickRunning p before).ptable.queueLevelAtMost = s.ptable.queueLevelAtMost := by
  have ht := (countTick_bound s.boost.ptable p).trans s.boost_bound
  unfold tickRunning
  simp only
  split
  · rw [resume_ptable]
    exact ht
  · exact ht

theorem process_bound {before : Nat} {e : Kernel.Event} (h : s.process p before e = some s') :
    s'.ptable.queueLevelAtMost = s.ptable.queueLevelAtMost := by
  unfold process at h
  split at h
  · obtain ⟨k, hk, rfl⟩ := Option.map_eq_some_iff.mp h
    have hb : k.ptable.queueLevelAtMost = s.ptable.queueLevelAtMost :=
      congrArg Clock.queueLevelAtMost (Kernel.clock_of_next hk)
    simp only
    split
    · exact hb
    · rw [resume_ptable]
      exact hb
  · contradiction

/-- **Step**: an orderly act keeps a bound that fits. -/
theorem BoundFits.next {a : Act} (hs : s.BoundFits) (hg : s.Orderly a)
    (h : s.next a = some s') : s'.BoundFits := by
  -- a step of a process or an interrupt while a process runs
  have hrun : s'.ptable.queueLevelAtMost = s.ptable.queueLevelAtMost → s.place ≠ .released →
      s.ArrivesBelow s' → s'.BoundFits := fun hb hplace harr =>
    .inr (harr.fits hb (hs.resolve_left hplace))
  cases a with
  | acquire =>
    simp only [Sched.next] at h
    split at h
    · cases h
      exact .inr (.inr hg)
    · contradiction
  | scan =>
    simp only [Sched.next] at h
    split at h
    · next i hplace =>
      have hfits : s.ptable.Fits := hs.resolve_left (by simp [hplace])
      exact scan_boundFits (Kernel.eq_ok_of_toOption h) hfits hplace hg
    · contradiction
  | process e =>
    have hn := h
    simp only [Sched.next] at h
    split at h
    · next p before hplace =>
      exact hrun (process_bound h) (by simp [hplace]) (hg (by simp [hplace]) s' hn)
    · contradiction
  | tick =>
    have hn := h
    simp only [Sched.next] at h
    split at h
    · next p before hplace =>
      have harr := hg (by simp [hplace]) s' hn
      cases h
      exact hrun (tickRunning_bound s p before) (by simp [hplace]) harr
    · next hplace =>
      cases h
      exact .inl ((boost_place s).trans hplace)
    · contradiction
  | interrupt chan =>
    have hn := h
    simp only [Sched.next] at h
    split at h
    · contradiction
    cases h
    by_cases hplace : s.place = .released
    · exact .inl ((boost_place _).trans hplace)
    · exact hrun (boost_bound _) hplace (hg hplace _ hn)

theorem started_boundFits (h : Started s) : s.BoundFits := by
  obtain ⟨k, hk, rfl⟩ := h
  obtain ⟨free, junk, p, e, -, hat⟩ := Kernel.started_freshAt hk
  -- only the first process is in use
  have honly : ∀ q, (boot k).ptable.Waits q → q = p := by
    intro q hq
    by_contra hne
    have hrun : (k.proc q).state = .runnable := hq.1
    have hlane : (k.proc q).state.settled = .unused := congrArg Lane.state (hat.other q hne)
    rw [hrun] at hlane
    contradiction
  refine .inr (.inr fun q r hq hr => ?_)
  rw [honly q hq, honly r hr]

theorem boundFits_of_orderly (h : s.ReachableBy Orderly) : s.BoundFits :=
  h.inv BoundFits (fun _ => started_boundFits) fun _ _ _ hs hg hn => hs.next hg hn

/-! ## The priority rule -/

/-- The MLFQ has dispatched `p`, and `q` waits on a level above that of `p`. -/
def Overtakes (s : Sched) (p q : Slot) : Prop :=
  s.place.Runs p ∧ s.strideIsSelected = false ∧ s.ptable.Waits q ∧
    s.ptable.level q < s.ptable.level p

instance (s : Sched) (p q : Slot) : Decidable (s.Overtakes p q) :=
  inferInstanceAs (Decidable (_ ∧ _))

/-- **Priority**: in a run of orderly acts, nobody waits on a level above that
of a process the MLFQ dispatches. -/
theorem not_overtakes_of_orderly {s s' : Sched} (h : s.ReachableBy Orderly)
    (hscan : s.next .scan = some s') (p q : Slot) : ¬ s'.Overtakes p q := by
  rintro ⟨hp, hsel, hq, hlt⟩
  obtain ⟨s1, hplace, h1, hel, hs'⟩ := scan_dispatch hscan hp hsel
  obtain ⟨hb, hn⟩ := chooseQueue_mlfq h1
  have hfits : s.ptable.Fits := (boundFits_of_orderly h).resolve_left hplace
  have hfits1 : s1.ptable.Fits := hfits.of_no_arrival hb.le hn
  have hlevel : ∀ r, s'.ptable.level r = s1.ptable.level r := by
    intro r
    by_cases hr : r = p
    · subst hr
      simp [hs', PTable.level, ptable, switchTo, Machine.switchTo, setTable, lowerLevel, Kernel.upd]
    · simp [hs', PTable.level, ptable, switchTo, Machine.switchTo, setTable, lowerLevel, Kernel.upd,
        PTable.setProc_proc_of_ne _ _ hr]
  have hwaits : s1.ptable.Waits q := by
    rw [hs'] at hq
    exact (hq.of_not_arrives (s1.ptable.not_arrives_switchTo p q)).1
  rw [hlevel, hlevel] at hlt
  exact absurd (hfits1.level_le hel hwaits) (not_le.mpr hlt)

/-! ## Runs -/

theorem exists_reachableBy (guard : Sched → Act → Prop) [∀ s a, Decidable (guard s a)]
    {P : Sched → Prop} [DecidablePred P] (free : List Frame) (junk : Nat → Bool)
    (file : Kernel.ExecFile) (acts : List Act)
    (h : ((Kernel.start free junk file).toOption.bind fun k =>
      runFrom (guarded next guard) (boot k) acts).any (fun s => P s) = true) :
    ∃ s, ReachableBy guard s ∧ P s :=
  Reach.exists_of_boot
    (fun k hk => ⟨k, ⟨free, junk, file, Kernel.eq_ok_of_toOption hk⟩, rfl⟩) acts h

/-- The first process creates a child, and uses up its time quantum. -/
def demoted : List Act := .process (.call 0 .fork) :: List.replicate 5 .tick

/-- The child, on level 0, is dispatched before its parent, on level 1. -/
theorem not_overtakes_child : ∃ s s' : Sched, s.ReachableBy Orderly ∧ s.next .scan = some s' ∧
    s'.place.Runs 1 ∧ s'.ptable.Waits 0 ∧ ¬ s'.Overtakes 1 0 := by
  obtain ⟨s, hs, s', hn, hr, hw⟩ := exists_reachableBy Orderly
    (P := fun s => ∃ s', s.next .scan = some s' ∧ s'.place.Runs 1 ∧ s'.ptable.Waits 0)
    (List.range' 1 400) (fun _ => false) Kernel.smallProgram demoted (by decide +kernel)
  exact ⟨s, s', hs, hn, hr, hw, not_overtakes_of_orderly hs hn 1 0⟩

/-- Two children, in entries 1 and 2.  The first process and the first child
use up their time quanta and go down to level 1; the second child sleeps.  The
table scans raise the bound to level 1 and dispatch the first process.  Then
the second child wakes up, and the first process yields. -/
def wokenAbove : List Act :=
  List.flatten
    [[.process (.call 0 .fork), .process (.call 0 .fork)],
      List.replicate 5 .tick, [.scan], List.replicate 5 .tick, [.scan],
      [.process (.sleep 2 (.addr 7))], List.replicate 128 .scan,
      [.interrupt (.addr 7), .process (.yield 0)]]

/-- The first child is dispatched from level 1, while the second waits on
level 0. -/
theorem exists_overtakes : ∃ s s' : Sched, s.ReachableBy (fun _ _ => True) ∧
    s.next .scan = some s' ∧ s'.Overtakes 1 2 := by
  obtain ⟨s, hs, s', hn, ho⟩ := exists_reachableBy (fun _ _ => True)
    (P := fun s => ∃ s', s.next .scan = some s' ∧ s'.Overtakes 1 2)
    (List.range' 1 400) (fun _ => false) Kernel.smallProgram wokenAbove (by decide +kernel)
  exact ⟨s, s', hs, hn, ho⟩

end Sched
end Xv6
