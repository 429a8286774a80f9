import Xv6.Stride.Fair
import Xv6.Stride.Lane
import Xv6.Stride.Shares
import Xv6.Stride.Turn

/-!
# Xv6.Stride.Pass

Pass values: the 32-bit `stride_count` of a process against the exact sum of
its charges, along runs of the kernel with stride selections.

A `Ledger` is the machine with the exact pass values as a ghost.  As long as no
charge takes an exact value past the largest `int`, the two agree.  Nothing in the
code keeps the values below that.
-/

namespace Xv6

open Lib Function Kernel

variable {sel : Int} {k s s' : Kernel} {e : Kernel.Event} {m : Machine} {n : Nat} {c np p : Slot}

/-- The machine with the exact pass value of every entry. -/
structure Ledger extends Machine where
  total : Slot → Int

namespace Ledger

/-! ## Exact pass values -/

/-- The exact pass value that `p` takes over from the root of the queue.  A
root that is `p` itself is a stale pointer. -/
def rootTotal (l : Ledger) (p : Slot) : Int :=
  match l.kernel.ptable.strideQueue 1 with
  | some r => if r = p then 0 else l.total r
  | none => 0

/-- The call that lets processes enter the queue. -/
def IsSetCpuShare : Kernel.Event → Prop
  | .call _ (.setCpuShare _) => True
  | _ => False

instance : DecidablePred IsSetCpuShare := fun e => by
  unfold IsSetCpuShare
  split
  · exact instDecidableTrue
  · exact instDecidableFalse

/-- The exact pass value of `p` after an event that leads to `k`: a new entry
starts from zero, or from the root if it shares in a group's share; an entry
that is given up has none; and a process that gets its first share starts
from the root. -/
def totalAfter (l : Ledger) (e : Kernel.Event) (k : Kernel) (p : Slot) : Int :=
  if l.kernel.allocates e = some p then
    if (k.proc p).cpuShare = 0 then 0 else l.rootTotal p
  else if (l.kernel.proc p).kstack ≠ none ∧ (k.proc p).kstack = none then 0
  else if IsSetCpuShare e ∧ (l.kernel.proc p).cpuShare = 0 ∧ (k.proc p).cpuShare ≠ 0 then
    l.rootTotal p
  else l.total p

/-- The exact pass values after a turn: the charge is added. -/
def totalAfterTurn (l : Ledger) : Slot → Int :=
  match l.toMachine.charged with
  | some p => update l.total p (l.total p + (l.kernel.proc p).stride.toInt)
  | none => l.total

/-- The state after a move. -/
def next (l : Ledger) (mv : Machine.Move) : Option Ledger :=
  (l.toMachine.next mv).map fun m =>
    { toMachine := m
      total := match mv with
        | .event e => l.totalAfter e m.kernel
        | .turn => l.totalAfterTurn }

/-- The first process has just started. -/
def Started (l : Ledger) : Prop := l.toMachine.Started ∧ l.total = fun _ => 0

/-- Reachable by moves that all meet `guard`. -/
abbrev ReachableBy (guard : Ledger → Machine.Move → Prop) (l : Ledger) : Prop :=
  Reach Started next guard l

/-- The charge that a turn makes takes no exact pass value past the largest
`int`. -/
def ChargeFits (l : Ledger) : Machine.Move → Prop
  | .event _ => True
  | .turn => ∀ p, l.toMachine.charged = some p →
      l.total p + (l.kernel.proc p).stride.toInt < 2 ^ 31

instance (l : Ledger) : DecidablePred l.ChargeFits
  | .event _ => inferInstanceAs (Decidable True)
  | .turn => inferInstanceAs (Decidable (∀ _, _ → _))

end Ledger

/-! ## One entry -/

/-- The entry has the exact pass value `v`, and charges and pass values as
`set_cpu_share` leaves them. -/
structure Lane.Holds (e : Lane) (v : Int) : Prop where
  count : e.strideCount.toInt = v
  nonneg : 0 ≤ v
  stride : 0 ≤ e.stride.toInt
  fresh : e.cpuShare = 0 → e.Fresh

theorem Lane.Fresh.holds {e : Lane} (h : e.Fresh) : e.Holds 0 where
  count := by rw [h.strideCount]; rfl
  nonneg := le_rfl
  stride := by rw [h.stride]; decide
  fresh _ := h

/-- `b` has the shares and the kernel stack of `a`, and is not revived. -/
structure Lane.Kept (a b : Lane) : Prop where
  cpuShare : b.cpuShare = a.cpuShare
  stride : b.stride = a.stride
  strideCount : b.strideCount = a.strideCount
  kstack : b.kstack = a.kstack
  alive : b.state = .runnable → a.state = .runnable

theorem Lane.Kept.refl (a : Lane) : a.Kept a := ⟨rfl, rfl, rfl, rfl, id⟩

theorem Lane.Kept.holds {a b : Lane} {v : Int} (hk : a.Kept b) (h : a.Holds v) : b.Holds v where
  count := by rw [hk.strideCount, h.count]
  nonneg := h.nonneg
  stride := by rw [hk.stride]; exact h.stride
  fresh hb := by
    have ha := h.fresh (hk.cpuShare ▸ hb)
    exact ⟨hb, hk.stride.trans ha.stride, hk.strideCount.trans ha.strideCount⟩

/-- The process in the entry is gone. -/
structure Lane.Dropped (a b : Lane) : Prop where
  before : a.kstack ≠ none
  after : b.kstack = none
  fresh : b.Fresh
  dead : b.state ≠ .runnable

/-- The entry keeps its shares, or its process is gone. -/
def Lane.KeptOrDropped (a b : Lane) : Prop := a.Kept b ∨ a.Dropped b

theorem Lane.KeptOrDropped.trans {a b c : Lane} (hab : a.KeptOrDropped b)
    (hbc : b.KeptOrDropped c) : a.KeptOrDropped c := by
  rcases hab with hab | hab <;> rcases hbc with hbc | hbc
  · exact .inl ⟨hbc.cpuShare.trans hab.cpuShare, hbc.stride.trans hab.stride,
      hbc.strideCount.trans hab.strideCount, hbc.kstack.trans hab.kstack,
      fun h => hab.alive (hbc.alive h)⟩
  · exact .inr ⟨hab.kstack ▸ hbc.before, hbc.after, hbc.fresh, hbc.dead⟩
  · refine .inr ⟨hab.before, hbc.kstack.trans hab.after, ?_, fun h => hab.dead (hbc.alive h)⟩
    exact ⟨hbc.cpuShare.trans hab.fresh.cpuShare, hbc.stride.trans hab.fresh.stride,
      hbc.strideCount.trans hab.fresh.strideCount⟩
  · exact absurd hab.after hbc.before

namespace Kernel

/-! ## Steps that grant nothing -/

theorem SamePart.kept (h : SameLanes s s') (q : Slot) : (s.proc q).lane.Kept (s'.proc q).lane :=
  h.entry q ▸ .refl _

theorem LaneAt.kept {st : ProcState} (hst : st ≠ .runnable)
    (h : LaneAt s p ((s.proc p).lane.withState st) s') (q : Slot) :
    (s.proc q).lane.Kept (s'.proc q).lane := by
  by_cases hq : q = p
  · subst hq
    rw [h.same]
    exact ⟨rfl, rfl, rfl, rfl, fun h => absurd h hst⟩
  · rw [h.other q hq]
    exact .refl _

theorem Leaves.kept {cur : Slot} (h : Leaves s cur p s') (q : Slot) :
    (s.proc q).lane.Kept (s'.proc q).lane := by
  obtain ⟨s1, s2, h1, h2, h3⟩ := h
  have hlane : (s2.proc p).lane = (s.proc p).lane := by
    rw [leaveStride_proc h2]
    exact h1.entry p
  rw [← hlane] at h3
  have hq := h3.kept (by decide) q
  rwa [leaveStride_proc h2, h1.entry q] at hq

/-- An entry that is cleared is dropped, and the others are kept. -/
theorem LaneAt.keptOrDropped (hk : (s.proc p).kstack ≠ none) (h : LaneAt s p .cleared s')
    (q : Slot) : (s.proc q).lane.KeptOrDropped (s'.proc q).lane := by
  by_cases hq : q = p
  · subst hq
    rw [h.same]
    exact .inr ⟨hk, rfl, Lane.fresh_cleared, by decide⟩
  · rw [h.other q hq]
    exact .inl (.refl _)

theorem ExitStep.keptOrDropped {m : Option Slot} (h : ExitStep c m s s') (q : Slot) :
    (s.proc q).lane.KeptOrDropped (s'.proc q).lane := by
  cases h with
  | same h => exact .inl (h.kept q)
  | leaves _ h => exact .inl (h.kept q)
  | clears _ _ hk h => exact h.keptOrDropped hk q
  | unused _ h => exact .inl (h.kept (by decide) q)

theorem keptOrDropped_of_exit {m : Option Slot} (h : Relation.ReflTransGen (ExitStep c m) s s')
    (q : Slot) : (s.proc q).lane.KeptOrDropped (s'.proc q).lane := by
  induction h with
  | refl => exact .inl (.refl _)
  | tail _ hstep ih => exact ih.trans (hstep.keptOrDropped q)

/-! ## Grants -/

/-- The pass value that a new member takes over. -/
def rootCount (s : Kernel) : Int32 :=
  match s.ptable.strideQueue 1 with
  | some r => (s.proc r).strideCount
  | none => 0

/-- A process without a share takes over the pass value of the root also when
the queue is empty. -/
theorem entryPass_eq_rootCount (hp : (s.proc p).strideCount = 0) :
    s.ptable.entryPass p = s.rootCount := by
  unfold PTable.entryPass rootCount
  cases s.ptable.strideQueue 1 with
  | none => exact hp
  | some r => rfl

/-- What grants by `set_cpu_share` from `s` have come to in `k`: an entry is
as it was, or has a share, with the pass value of the root if that is its
first one; and the root has kept its pass value. -/
structure Joining (s k : Kernel) : Prop where
  kstack : ∀ p, (k.proc p).kstack = (s.proc p).kstack
  state : ∀ p, (k.proc p).state = (s.proc p).state
  entry : ∀ p, (k.proc p).lane = (s.proc p).lane ∨
    ShareInRange (k.proc p).cpuShare ∧ (k.proc p).stride = NSTRIDE / (k.proc p).cpuShare ∧
      (k.proc p).strideCount =
        if (s.proc p).cpuShare = 0 then s.rootCount else (s.proc p).strideCount
  root : k.rootCount = s.rootCount

theorem Joining.refl (s : Kernel) : Joining s s :=
  ⟨fun _ => rfl, fun _ => rfl, fun _ => .inl rfl, rfl⟩

theorem Joining.grant {k' : Kernel} (hs : ∀ p, (s.proc p).cpuShare = 0 →
    (s.proc p).strideCount = 0) (h : Joining s k) (hg : GrantStep c k k') : Joining s k' := by
  cases hg with
  | @grant p required original hp hrange hsum hroom =>
    have hsame := grant_proc_same k p required original
    have hother : ∀ {q}, q ≠ p → (k.grant p required original).proc q = k.proc q :=
      grant_proc_of_ne k required original
    have hkstack : ∀ q, ((k.grant p required original).proc q).kstack = (s.proc q).kstack := by
      intro q
      obtain ⟨_, _, _, _, he⟩ := grant_proc k p q required original
      rw [he]
      exact h.kstack q
    have hstate : ∀ q, ((k.grant p required original).proc q).state = (s.proc q).state := by
      intro q
      obtain ⟨_, _, _, _, he⟩ := grant_proc k p q required original
      rw [he]
      exact h.state q
    by_cases hnew : (k.proc p).cpuShare = 0
    · -- the first share of `p`, which enters the queue at the root
      have hold : (k.proc p).lane = (s.proc p).lane := by
        rcases h.entry p with hold | ⟨hr, -⟩
        · exact hold
        · exact absurd hnew hr.ne_zero
      have hzero : (s.proc p).cpuShare = 0 := (congrArg Lane.cpuShare hold).symm.trans hnew
      have hcount : (k.proc p).strideCount = 0 :=
        (congrArg Lane.strideCount hold).trans (hs p hzero)
      rw [if_pos hnew, entryPass_eq_rootCount hcount, h.root] at hsame
      refine ⟨hkstack, hstate, fun q => ?_, ?_⟩
      · by_cases hq : q = p
        · subst hq
          rw [hsame, if_pos hzero]
          exact .inr ⟨hrange, rfl, rfl⟩
        · rw [hother hq]
          exact h.entry q
      · have hroot : (k.grant p required original).ptable.strideQueue 1 = some p :=
          PTable.granted_root required original hnew (hroom hnew).1 (hroom hnew).2
        rw [rootCount, hroot]
        simp only [hsame]
    · -- another share for a member
      rw [if_neg hnew] at hsame
      refine ⟨hkstack, hstate, fun q => ?_, ?_⟩
      · by_cases hq : q = p
        · subst hq
          rw [hsame]
          refine .inr ⟨hrange, rfl, ?_⟩
          rcases h.entry q with hold | ⟨-, -, hcount⟩
          · have hshare : (k.proc q).cpuShare = (s.proc q).cpuShare :=
              congrArg Lane.cpuShare hold
            rw [if_neg (hshare ▸ hnew)]
            exact congrArg Lane.strideCount hold
          · exact hcount
        · rw [hother hq]
          exact h.entry q
      · rw [← h.root]
        unfold rootCount
        rw [(grant_queue_of_share required original hnew).1]
        cases k.ptable.strideQueue 1 with
        | none => rfl
        | some r =>
          by_cases hr : r = p
          · subst hr
            simp only [hsame]
          · simp only [hother hr]

theorem joining_of_grants (hs : ∀ p, (s.proc p).cpuShare = 0 → (s.proc p).strideCount = 0)
    (h : Relation.ReflTransGen (GrantStep c) s s') : Joining s s' := by
  induction h with
  | refl => exact .refl s
  | tail _ hstep ih => exact ih.grant hs hstep

/-- A new thread of a process with a share, and the rest of the table: the
thread enters the queue at the root, and nobody else's pass value changes. -/
theorem divide_cases {s1 : Kernel} (hnp : FreshAt s np s1) (h : s1.shareWithThread c np = .ok s') :
    FreshAt s np s' ∨
      (∀ q, q ≠ np → (s'.proc q).lane = (s.proc q).lane ∨
        ShareInRange (s'.proc q).cpuShare ∧ (s'.proc q).stride = NSTRIDE / (s'.proc q).cpuShare ∧
          (s'.proc q).strideCount = (s.proc q).strideCount ∧
          (s'.proc q).kstack = (s.proc q).kstack ∧
          (s'.proc q).state.settled = (s.proc q).state.settled) ∧
      ShareInRange (s'.proc np).cpuShare ∧ (s'.proc np).stride = NSTRIDE / (s'.proc np).cpuShare ∧
      (s'.proc np).strideCount = s1.rootCount := by
  rcases shareWithThread_eq h with ⟨-, rfl⟩ | ⟨-, hrange, -, hs'⟩
  · exact .inl hnp
  obtain ⟨e, he, hat⟩ := hnp
  have hfresh : (s1.proc np).lane.Fresh := hat.same ▸ he
  refine .inr ⟨fun q hq => ?_, ?_⟩
  · rw [hs', foldl_shareThread, grantThread_proc_of_ne s1 hq]
    have hlane := hat.other q hq
    split
    · exact .inr ⟨hrange, rfl, congrArg Lane.strideCount hlane, congrArg Lane.kstack hlane,
        congrArg Lane.state hlane⟩
    · exact .inl hlane
  · have hsame := grantThread_proc_same s1 c np
    have hzero : (s1.proc np).cpuShare = 0 := hfresh.cpuShare
    have hpass := entryPass_eq_rootCount (s := s1) (p := np) hfresh.strideCount
    rw [if_pos hzero, hpass] at hsame
    rw [hs', foldl_shareThread, hsame]
    split
    · exact ⟨hrange, rfl, rfl⟩
    · exact ⟨hrange, rfl, rfl⟩

end Kernel

namespace Ledger

/-! ## Steps -/

/-- The 32-bit pass values are the exact ones. -/
def Exact (l : Ledger) : Prop := ∀ p, (l.kernel.proc p).lane.Holds (l.total p)

/-- What the exact value and the lane of an entry do in a step. -/
structure Moves (l : Ledger) (k : Kernel) (v : Int) (p : Slot) : Prop where
  holds : (k.proc p).lane.Holds v
  mono : l.kernel.Active p → k.Active p → l.total p ≤ v

variable {l : Ledger}

theorem Exact.rootTotal_eq (h : l.Exact) (hp : (l.kernel.proc p).strideCount = 0) :
    l.rootTotal p = l.kernel.rootCount.toInt := by
  unfold rootTotal rootCount
  cases hroot : l.kernel.ptable.strideQueue 1 with
  | none => rfl
  | some r =>
    simp only
    split
    · next hr =>
      subst hr
      rw [hp]
      rfl
    · exact (h r).count.symm

theorem Exact.rootTotal_nonneg (h : l.Exact) (p : Slot) : 0 ≤ l.rootTotal p := by
  unfold rootTotal
  split
  · split
    · exact le_rfl
    · exact (h _).nonneg
  · exact le_rfl

/-- Entries that are kept keep their exact value, and the others have none. -/
theorem Exact.keptOrDropped (h : l.Exact) (hnew : l.kernel.allocates e ≠ some p)
    (hp : (l.kernel.proc p).lane.KeptOrDropped (k.proc p).lane) :
    l.Moves k (l.totalAfter e k p) p := by
  unfold totalAfter
  rw [if_neg hnew]
  rcases hp with hkept | hdropped
  · have hstack : (k.proc p).kstack = (l.kernel.proc p).kstack := hkept.kstack
    have hshare : (k.proc p).cpuShare = (l.kernel.proc p).cpuShare := hkept.cpuShare
    rw [if_neg (fun hs => hs.1 (hstack ▸ hs.2)), if_neg (fun hs => hs.2.2 (hshare.trans hs.2.1))]
    exact ⟨hkept.holds (h p), fun _ _ => le_rfl⟩
  · rw [if_pos ⟨hdropped.before, hdropped.after⟩]
    exact ⟨hdropped.fresh.holds, fun _ hk => absurd hk hdropped.dead⟩

theorem Exact.alloc (hnew : l.kernel.allocates e = some p) (hdead : ¬ l.kernel.Active p)
    (hp : (k.proc p).lane.Fresh) : l.Moves k (l.totalAfter e k p) p := by
  have hzero : (k.proc p).cpuShare = 0 := hp.cpuShare
  unfold totalAfter
  rw [if_pos hnew, if_pos hzero]
  exact ⟨hp.holds, fun hl => absurd hl hdead⟩

/-- A step that takes an entry and grants nothing. -/
theorem Exact.freshAt (h : l.Exact) (hnew : l.kernel.allocates e = some np)
    (hf : Kernel.FreshAt l.kernel np k) (p : Slot) : l.Moves k (l.totalAfter e k p) p := by
  obtain ⟨le, hfresh, hat⟩ := hf
  by_cases hp : p = np
  · subst hp
    exact Exact.alloc hnew (not_active_of_allocates hnew) (hat.same ▸ hfresh)
  refine h.keptOrDropped ?_ (.inl ?_)
  · rw [hnew]
    exact fun he => hp (Option.some.inj he).symm
  · rw [hat.other p hp]
    exact .refl _

/-- A grant leaves an entry that holds the exact value in its `stride_count`. -/
theorem holds_of_granted {x : Proc} {v : Int} (hshare : ShareInRange x.cpuShare)
    (hstride : x.stride = NSTRIDE / x.cpuShare) (hcount : x.strideCount.toInt = v) (hv : 0 ≤ v) :
    x.lane.Holds v where
  count := hcount
  nonneg := hv
  stride := by
    have heq : x.lane.stride = NSTRIDE / x.cpuShare := hstride
    rw [heq]
    exact hshare.stride_nonneg
  fresh hzero := absurd hzero hshare.ne_zero

/-- A new thread that shares in the share of its group. -/
theorem Exact.divide (h : l.Exact) {s1 : Kernel} (hnew : l.kernel.freeSlot = some np)
    (hf : Kernel.FreshAt l.kernel np s1) (hshare : s1.shareWithThread c np = .ok k) (p : Slot) :
    l.Moves k (l.totalAfter (.call c .threadCreate) k p) p := by
  have halloc : l.kernel.allocates (.call c .threadCreate) = some np := hnew
  rcases divide_cases hf hshare with hfresh | ⟨hother, hrange, hstride, hcount⟩
  · exact h.freshAt halloc hfresh p
  by_cases hp : p = np
  · subst hp
    have hroot : s1.rootCount.toInt = l.rootTotal p := by
      obtain ⟨le, hfresh, hat⟩ := hf
      have hqueue : s1.ptable.strideQueue = l.kernel.ptable.strideQueue := by rw [hat.rest]
      unfold rootCount rootTotal
      rw [hqueue]
      cases l.kernel.ptable.strideQueue 1 with
      | none => rfl
      | some r =>
        simp only
        split
        · next hr =>
          subst hr
          have hzero : (s1.proc r).lane.strideCount = 0 := hat.same ▸ hfresh.strideCount
          exact congrArg Int32.toInt hzero
        · next hr =>
          have hlane := congrArg Lane.strideCount (hat.other r hr)
          exact (congrArg Int32.toInt hlane).trans (h r).count
    unfold totalAfter
    rw [if_pos halloc, if_neg hrange.ne_zero]
    refine ⟨holds_of_granted hrange hstride (hcount ▸ hroot) (h.rootTotal_nonneg p), ?_⟩
    exact fun hl => absurd hl (not_active_of_allocates halloc)
  · have hne : l.kernel.allocates (.call c .threadCreate) ≠ some p := by
      rw [halloc]
      exact fun he => hp (Option.some.inj he).symm
    rcases hother p hp with hlane | ⟨hr, hs, hcnt, hstack, -⟩
    · exact h.keptOrDropped hne (.inl (hlane ▸ .refl _))
    unfold totalAfter
    rw [if_neg hne, if_neg (fun hs => hs.1 (hstack ▸ hs.2)), if_neg (fun hs => hs.1)]
    have hv : (k.proc p).strideCount.toInt = l.total p := by
      rw [hcnt]
      exact (h p).count
    exact ⟨holds_of_granted hr hs hv (h p).nonneg, fun _ _ => le_rfl⟩

theorem Exact.setCpuShare (h : l.Exact) {required : Int32} {r : Int}
    (hk : l.kernel.sysSetCpuShare c required = .ok (k, r)) (p : Slot) :
    l.Moves k (l.totalAfter (.call c (.setCpuShare required)) k p) p := by
  have hzero : ∀ q, (l.kernel.proc q).cpuShare = 0 → (l.kernel.proc q).strideCount = 0 :=
    fun q hq => ((h q).fresh hq).strideCount
  have hj := joining_of_grants hzero (grants_of_setCpuShare hk)
  rcases hj.entry p with hlane | ⟨hrange, hstride, hcount⟩
  · exact h.keptOrDropped (by simp [allocates]) (.inl (hlane ▸ .refl _))
  unfold totalAfter
  rw [if_neg (by simp [allocates]), if_neg (fun hs => hs.1 (hj.kstack p ▸ hs.2))]
  by_cases hp : (l.kernel.proc p).cpuShare = 0
  · rw [if_pos hp] at hcount
    rw [if_pos ⟨trivial, hp, hrange.ne_zero⟩]
    have hv := h.rootTotal_eq (hzero p hp)
    refine ⟨holds_of_granted hrange hstride (by rw [hcount, hv]) (h.rootTotal_nonneg p), ?_⟩
    have hold : l.total p = 0 := by
      rw [← (h p).count]
      exact congrArg Int32.toInt (hzero p hp)
    intro _ _
    rw [hold]
    exact h.rootTotal_nonneg p
  · rw [if_neg hp] at hcount
    rw [if_neg (fun hs => hp hs.2.1)]
    have hv : (k.proc p).strideCount.toInt = l.total p := by
      rw [hcount]
      exact (h p).count
    exact ⟨holds_of_granted hrange hstride hv (h p).nonneg, fun _ _ => le_rfl⟩

/-- **An event** keeps the pass values exact. -/
theorem Exact.event (h : l.Exact) (hk : l.kernel.next e = some k) (p : Slot) :
    l.Moves k (l.totalAfter e k p) p := by
  have hnone : ∀ {e}, l.kernel.allocates e = none → l.kernel.allocates e ≠ some p := by
    intro e he
    rw [he]
    simp
  cases laneStep_of_next hk with
  | quiet hnew hs => exact h.keptOrDropped (hnone hnew) (.inl (hs.kept p))
  | alloc hnew hf => exact h.freshAt hnew hf p
  | divide hnew hf hshare => exact h.divide hnew hf.fresh hshare p
  | setCpuShare hset => exact h.setCpuShare hset p
  | threadExit hl => exact h.keptOrDropped (hnone rfl) (.inl (hl.kept p))
  | collect hnew _ hstack hat => exact h.keptOrDropped (hnone hnew) (hat.keptOrDropped hstack p)
  | exit hs => exact h.keptOrDropped (hnone rfl) (keptOrDropped_of_exit hs p)

/-- The search of a selection: the charge is exact because it fits. -/
theorem Exact.search (h : l.Exact) (hfits : l.ChargeFits .turn) {t : PTable} {k : Nat}
    (hc : l.toMachine.charged = l.kernel.ptable.charged)
    (ht : l.kernel.ptable.findLoop (l.kernel.ptable.strideQueueSize.toNat + 1) 1 = .ok (t, k))
    (p : Slot) : (t.proc p).lane.Holds (l.totalAfterTurn p) ∧ l.total p ≤ l.totalAfterTurn p := by
  rcases PTable.search_cases ht with ⟨hnone, rfl⟩ | ⟨r, i, hr, -, -, hsift⟩
  · rw [totalAfterTurn, hc, hnone]
    exact ⟨h p, le_rfl⟩
  obtain ⟨q, rfl⟩ := PTable.strideQueueHeapifyDown_eq hsift
  have htotal : l.totalAfterTurn =
      update l.total r (l.total r + (l.kernel.proc r).stride.toInt) := by
    rw [totalAfterTurn, hc, hr]
  rw [htotal]
  by_cases hp : p = r
  · subst hp
    have hpos : 0 ≤ (l.kernel.proc p).stride.toInt := (h p).stride
    have hexact := (h p).count
    have hlt := hfits p (hc.trans hr)
    simp only [update_self]
    refine ⟨?_, by simpa using hpos⟩
    have hproc : (l.kernel.ptable.charge p).proc p =
        { l.kernel.proc p with
          strideCount := (l.kernel.proc p).strideCount + (l.kernel.proc p).stride } :=
      PTable.setProc_proc_same ..
    rw [hproc]
    constructor
    case count =>
      rw [← hexact] at hlt ⊢
      exact PTable.toInt_add_of_lt hpos hlt
    case nonneg => exact add_nonneg (h p).nonneg hpos
    case stride => exact hpos
    case fresh =>
      intro hzero
      have hf := (h p).fresh hzero
      have hcount : (l.kernel.proc p).strideCount = 0 := hf.strideCount
      have hstride : (l.kernel.proc p).stride = 0 := hf.stride
      exact ⟨hzero, hstride, by simp only [Proc.lane, hcount, hstride, Int32.add_zero]⟩
  · have hproc : (l.kernel.ptable.charge r).proc p = l.kernel.proc p :=
      PTable.setProc_proc_of_ne _ _ hp
    rw [hproc, update_of_ne hp]
    exact ⟨h p, le_rfl⟩

/-- **A turn** keeps the pass values exact when its charge fits. -/
theorem Exact.turn (h : l.Exact) (hfits : l.ChargeFits .turn) (hm : l.toMachine.turn = .ok m)
    (p : Slot) : l.Moves m.kernel (l.totalAfterTurn p) p := by
  have hidle : l.toMachine.charged = none → l.totalAfterTurn = l.total := by
    intro hc
    rw [totalAfterTurn, hc]
  cases Machine.turnStep_of_turn hm with
  | idle hc hk =>
    rw [hk, hidle hc]
    exact ⟨h p, fun _ _ => le_rfl⟩
  | reset hc _ hk =>
    rw [hk, hidle hc]
    exact ⟨h p, fun _ _ => le_rfl⟩
  | search hc ht hk =>
    obtain ⟨hholds, hle⟩ := h.search hfits hc ht p
    rw [hk]
    exact ⟨hholds, fun _ _ => hle⟩
  | @run t _ _ q hc ht _ _ hk =>
    obtain ⟨hholds, hle⟩ := h.search hfits hc ht p
    rw [hk]
    refine ⟨?_, fun _ _ => hle⟩
    by_cases hp : p = q
    · subst hp
      rw [upd_proc_same]
      exact ⟨hholds.count, hholds.nonneg, hholds.stride, fun hz =>
        ⟨hz, (hholds.fresh hz).stride, (hholds.fresh hz).strideCount⟩⟩
    · rw [upd_proc_of_ne _ _ hp]
      exact hholds

theorem Exact.step {l' : Ledger} {mv : Machine.Move} (h : l.Exact) (hfits : l.ChargeFits mv)
    (hn : l.next mv = some l') (p : Slot) : l.Moves l'.kernel (l'.total p) p := by
  obtain ⟨m, hm, rfl⟩ := Option.map_eq_some_iff.mp hn
  cases mv with
  | event e =>
    obtain ⟨k, hk, rfl⟩ := Option.map_eq_some_iff.mp hm
    exact h.event hk p
  | turn => exact h.turn hfits (eq_ok_of_toOption hm) p

theorem exact_of_started (h : l.Started) : l.Exact := by
  obtain ⟨⟨hs, -⟩, htotal⟩ := h
  intro p
  rw [htotal]
  exact (started_fresh hs p).holds

/-- The 32-bit pass values are exact in every state that is reached by charges
that fit. -/
theorem exact_of_reachable (h : ReachableBy ChargeFits l) : l.Exact :=
  h.inv Exact (fun _ => exact_of_started) fun _ _ _ hl hg hn p => (hl.step hg hn p).holds

/-- **Pass values**, as long as no charge takes an exact value past the largest
`int`: the comparisons of `stride_count`s are those of the exact values, and
no process that stays loses any of its `stride_count`. -/
theorem passes_agree_of_chargeFits {l : Ledger} (h : ReachableBy ChargeFits l) :
    (∀ p q, (l.kernel.proc p).strideCount < (l.kernel.proc q).strideCount ↔
      l.total p < l.total q) ∧
    ∀ mv l', l.ChargeFits mv → l.next mv = some l' →
      ∀ p, l.kernel.Active p → l'.kernel.Active p →
        (l.kernel.proc p).strideCount ≤ (l'.kernel.proc p).strideCount := by
  have hl := exact_of_reachable h
  constructor
  · intro p q
    rw [Int32.lt_iff_toInt_lt, ← (hl p).count, ← (hl q).count]
    rfl
  · intro mv l' hfits hn p hp hp'
    have hmoves := hl.step hfits hn p
    have hle := hmoves.mono hp hp'
    rw [← (hl p).count, ← hmoves.holds.count] at hle
    exact Int32.le_iff_toInt_le.mpr hle

/-- Init takes a share, leaves the CPU and is charged once. -/
theorem exists_chargeFits :
    ∃ l, ReachableBy ChargeFits l ∧ l.total 0 = 10000 ∧ l.kernel.ptable.strideQueueSize = 1 := by
  have hrun : ((start (List.range' 1 400) (fun _ => false) smallProgram).toOption.bind
      fun k => runFrom (guarded next ChargeFits)
        { kernel := k, queueSelector := -1, total := fun _ => 0 }
        [.event (.call 0 (.setCpuShare 1)), .event (.yield 0), .turn]).any
      (fun l => l.total 0 = 10000 ∧ l.kernel.ptable.strideQueueSize = 1) = true := by
    decide +kernel
  obtain ⟨l, hl, hP⟩ := (Option.any_eq_true _ _).mp hrun
  obtain ⟨k, hk, hl⟩ := Option.bind_eq_some_iff.mp hl
  have hstart : Started { kernel := k, queueSelector := -1, total := fun _ => 0 } :=
    ⟨⟨⟨_, _, _, eq_ok_of_toOption hk⟩, rfl⟩, rfl⟩
  exact ⟨l, (Reach.start hstart).runGuarded hl, of_decide_eq_true hP⟩

theorem passes_agree_charged : ∃ l : Ledger, ReachableBy ChargeFits l ∧ l.total 0 = 10000 ∧
    ∀ p q, (l.kernel.proc p).strideCount < (l.kernel.proc q).strideCount ↔
      l.total p < l.total q := by
  obtain ⟨l, hl, htotal, -⟩ := exists_chargeFits
  exact ⟨l, hl, htotal, (passes_agree_of_chargeFits hl).1⟩

end Ledger

namespace Machine

/-! ## A run that wraps around -/

/-- One process, in entry 0, has the smallest share there is and has been
charged `n` times. -/
structure Solo (n : Nat) (st : ProcState) (sel : Int) (m : Machine) : Prop where
  lock : m.kernel.threadLock = false
  sum : m.kernel.ptable.sumCpuShare = 10
  size : m.kernel.ptable.strideQueueSize = 1
  root : m.kernel.ptable.strideQueue 1 = some 0
  leaf : m.kernel.ptable.strideQueue 2 = none
  state : (m.kernel.proc 0).state = st
  stride : (m.kernel.proc 0).stride = 10000
  count : (m.kernel.proc 0).strideCount = Int32.ofInt (10000 * n)
  selector : m.queueSelector = sel

/-- A selection from a queue of one charges that one. -/
theorem findIdxOfStrideToRun_solo {t : PTable} (hsize : t.strideQueueSize = 1)
    (hroot : t.strideQueue 1 = some p) (hleaf : t.strideQueue 2 = none)
    (hrun : (t.proc p).state = .runnable) : t.findIdxOfStrideToRun = .ok (t.charge p, 1) := by
  have hloop : PTable.heapifyDownLoop (t.charge p) (some p) NPROC t.strideQueue 1 =
      .ok (t.strideQueue, 1) := by
    simp only [PTable.heapifyDownLoop, one_mul, hleaf]
    split <;> rfl
  have hsift : (t.charge p).strideQueueHeapifyDown 1 = .ok (t.charge p) := by
    simp only [PTable.strideQueueHeapifyDown, PTable.charge_strideQueue, hroot, hloop, ok_bind,
      pure_eq_ok]
    rw [← hroot, update_eq_self]
    rfl
  have hfound : t.findLoop (t.strideQueueSize.toNat + 1) 1 = .ok (t.charge p, 1) :=
    PTable.findLoop_found t _ 1 p (by rw [hsize]; rfl) hroot hrun hsift
  rw [PTable.findIdxOfStrideToRun, hfound, ok_bind]
  simp only [PTable.charge_strideQueueSize, hsize]
  rw [if_neg (by decide)]
  rfl

/-- One turn in a hundred charges the process and runs it. -/
theorem Solo.charge (h : Solo n .runnable sel m)
    (hsel : (sel + 1) % 100 = 0) : ∃ m', m.turn = .ok m' ∧ Solo (n + 1) .running 0 m' := by
  have hten : ((10 : Int32) / 10).toInt = 1 := by decide
  have hfind := findIdxOfStrideToRun_solo h.size h.root h.leaf h.state
  have hselect : m.selectStrideOrMLFQ = .ok ({ m with queueSelector := 0 }, true) := by
    simp only [selectStrideOrMLFQ, acquireThreadLock, h.lock, h.selector, hsel, h.sum, hten,
      h.size]
    rw [if_neg (by simp), ok_bind, if_pos (by decide), if_neg (by decide)]
    rfl
  refine ⟨switchTo { m with
    queueSelector := 0
    kernel := { m.kernel with ptable := m.kernel.ptable.charge 0 } } 0, ?_, ?_⟩
  · have hsum : ¬ m.kernel.ptable.sumCpuShare = 0 := by
      rw [h.sum]
      decide
    rw [turn, if_neg hsum, hselect, ok_bind]
    simp only [if_true, runStride, hfind, ok_bind, PTable.charge_strideQueueSize, h.size,
      PTable.charge_strideQueue, h.root, PTable.deref]
    rfl
  · constructor
    case lock => exact h.lock
    case sum => exact h.sum
    case size => exact h.size
    case root => exact h.root
    case leaf => exact h.leaf
    case state => rfl
    case stride => exact h.stride
    case count =>
      show (m.kernel.proc 0).strideCount + (m.kernel.proc 0).stride = _
      have hadd : (10000 : Int) * ((n + 1 : Nat) : Int) = 10000 * n + 10000 := by
        push_cast
        ring
      rw [h.count, h.stride, hadd, Int32.ofInt_add]
      rfl
    case selector => rfl

theorem Solo.idle (h : Solo n .runnable sel m)
    (h0 : 0 ≤ sel) (h1 : sel < 99) : ∃ m', m.turn = .ok m' ∧ Solo n .runnable (sel + 1) m' := by
  have hmod : (sel + 1) % 100 = sel + 1 := Int.emod_eq_of_lt (by omega) (by omega)
  have hten : ((10 : Int32) / 10).toInt = 1 := by decide
  refine ⟨{ m with queueSelector := sel + 1 }, ?_, ?_⟩
  · simp only [turn, h.sum, selectStrideOrMLFQ, acquireThreadLock, h.lock, h.selector, hmod,
      hten]
    rw [if_neg (by decide), if_neg (by simp), ok_bind, if_neg (by omega)]
    rfl
  · exact { h with selector := rfl }

theorem Solo.yield (h : Solo n .running sel m) :
    ∃ m', m.next (.event (.yield 0)) = some m' ∧ Solo n .runnable sel m' := by
  have hnext : m.kernel.next (.yield 0) = some (m.kernel.upd 0 fun x =>
      { x with state := .runnable, timeQuantumUsed := 0 }) :=
    next_eq_some.mpr ⟨h.state, rfl⟩
  refine ⟨_, by rw [next, hnext]; rfl, ?_⟩
  constructor
  case lock => exact h.lock
  case sum => exact h.sum
  case size => exact h.size
  case root => exact h.root
  case leaf => exact h.leaf
  case state => simp
  case stride => simpa using h.stride
  case count => simpa using h.count
  case selector => exact h.selector

theorem Solo.idles {d : Nat} (h : Solo n .runnable 0 m) (hm : ReachableBy (fun _ _ => True) m)
    (hd : d ≤ 99) : ∃ m', ReachableBy (fun _ _ => True) m' ∧ Solo n .runnable d m' := by
  induction d with
  | zero => exact ⟨m, hm, h⟩
  | succ d ih =>
    obtain ⟨m1, hm1, h1⟩ := ih (by omega)
    obtain ⟨m2, hturn, h2⟩ := h1.idle (by omega) (by omega)
    have hnext : m1.next .turn = some m2 := by
      rw [next, hturn]
      rfl
    refine ⟨m2, .step hm1 trivial hnext, ?_⟩
    push_cast
    exact h2

/-- Any number of charges is reached. -/
theorem exists_solo {m0 : Machine} (hm0 : ReachableBy (fun _ _ => True) m0)
    (h0 : Solo 0 .runnable (-1) m0) (n : Nat) :
    ∃ m sel, ReachableBy (fun _ _ => True) m ∧ (sel + 1) % 100 = 0 ∧ Solo n .runnable sel m := by
  induction n with
  | zero => exact ⟨m0, -1, hm0, rfl, h0⟩
  | succ n ih =>
    obtain ⟨m, sel, hm, hsel, h⟩ := ih
    obtain ⟨m1, hturn, h1⟩ := h.charge hsel
    have hnext : m.next .turn = some m1 := by
      rw [next, hturn]
      rfl
    obtain ⟨m2, hyield, h2⟩ := h1.yield
    obtain ⟨m3, hm3, h3⟩ := h2.idles (d := 99) (.step (.step hm trivial hnext) trivial hyield)
      le_rfl
    exact ⟨m3, 99, hm3, rfl, h3⟩

/-- Init takes the smallest share and leaves the CPU. -/
theorem exists_solo_start : ∃ m, ReachableBy (fun _ _ => True) m ∧ Solo 0 .runnable (-1) m := by
  obtain ⟨k, hk, h1, h2, h3, h4, h5, h6, h7, h8⟩ := exists_reachableBy (fun _ _ => True)
    (P := fun k => k.threadLock = false ∧ k.ptable.sumCpuShare = 10 ∧
      k.ptable.strideQueueSize = 1 ∧ k.ptable.strideQueue 1 = some 0 ∧
      k.ptable.strideQueue 2 = none ∧ (k.proc 0).state = .runnable ∧
      (k.proc 0).stride = 10000 ∧ (k.proc 0).strideCount = 0)
    (List.range' 1 400) (fun _ => false) smallProgram
    [.call 0 (.setCpuShare 1), .yield 0] (fun _ _ _ => trivial) (by decide +kernel)
  exact ⟨_, reachableBy_of_kernel (fun _ _ h => h) hk, h1, h2, h3, h4, h5, h6, h7, h8, rfl⟩

end Machine

namespace Ledger

theorem exists_reachable (h : m.ReachableBy fun _ _ => True) :
    ∃ l : Ledger, ReachableBy (fun _ _ => True) l ∧ l.toMachine = m := by
  induction h with
  | @start m hs => exact ⟨{ toMachine := m, total := fun _ => 0 }, .start ⟨hs, rfl⟩, rfl⟩
  | step _ _ hn ih =>
    obtain ⟨l, hl, rfl⟩ := ih
    exact ⟨_, .step hl trivial (by rw [next, hn]; rfl), rfl⟩

/-- After 214748 charges of 10000 another one makes the `stride_count` of the
only member negative. -/
theorem not_passes_agree_wrapped :
    ∃ l l' : Ledger, ReachableBy (fun _ _ => True) l ∧ l.next .turn = some l' ∧
      ∃ p, l.kernel.ptable.InQueue p ∧ l'.kernel.ptable.InQueue p ∧
        l.kernel.Active p ∧ l'.kernel.Active p ∧
        (l'.kernel.proc p).strideCount < (l.kernel.proc p).strideCount := by
  obtain ⟨m0, hm0, h0⟩ := Machine.exists_solo_start
  obtain ⟨m, sel, hm, hsel, h⟩ := Machine.exists_solo hm0 h0 214748
  obtain ⟨m', hturn, h'⟩ := h.charge hsel
  obtain ⟨l, hl, rfl⟩ := exists_reachable hm
  have hnext : l.toMachine.next .turn = some m' := by
    rw [Machine.next, hturn]
    rfl
  refine ⟨l, _, hl, by rw [next, hnext]; rfl, 0, ?_, ?_, ?_, ?_, ?_⟩
  · exact ⟨1, le_rfl, by rw [h.size]; rfl, h.root⟩
  · exact ⟨1, le_rfl, by rw [h'.size]; rfl, h'.root⟩
  · rw [Kernel.Active, h.state]
    rfl
  · rw [Kernel.Active, h'.state]
    rfl
  · rw [h.count, h'.count]
    decide

end Ledger
end Xv6
