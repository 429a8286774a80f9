import Xv6.Stride.Shares

/-!
# Xv6.Stride.Divide

`set_cpu_share` by a process with threads.

The share is divided among the master thread and its threads, but only the
master's part is checked before anything changes.  The threads get theirs one
after another, each with a check of its own, and a thread that does not fit
stops the kernel.
-/

namespace Xv6

open Lib Function List

namespace Kernel

variable {s s' : Kernel} {c p q : Slot} {required share : Int32}

/-! ## One grant -/

/-- `p` can get the share: the sum stays within bounds, and if `p` is new the queue has
room. -/
def Grantable (s : Kernel) (p : Slot) (share : Int32) : Prop :=
  s.sumWith p share ≤ MAX_CPU_SHARE ∧ ((s.proc p).cpuShare = 0 → s.QueueRoom)

variable {original : Int32}

/-- The push succeeds when there is room, and then the share is granted. -/
theorem pushIfNew_ok (h : (s.proc p).cpuShare = 0 → s.QueueRoom) :
    (s.upd p fun x =>
      { x with
        cpuShare := share
        originalCpuShare := original
        stride := NSTRIDE / share }).pushIfNew p (decide ((s.proc p).cpuShare = 0)) =
      .ok { s with ptable := s.ptable.granted p share original } := by
  unfold pushIfNew PTable.granted
  by_cases hp : (s.ptable.proc p).cpuShare = 0
  · have hnew : decide ((s.proc p).cpuShare = 0) = true := decide_eq_true hp
    have hroom : 0 ≤ s.ptable.strideQueueSize ∧ s.ptable.strideQueueSize < NPROC := h hp
    rw [if_pos hnew, if_pos hp, strideQueuePush]
    exact if_pos hroom
  · have hold : ¬ decide ((s.proc p).cpuShare = 0) = true := fun h' => hp (of_decide_eq_true h')
    rw [if_neg hold, if_neg hp]
    rfl

theorem inQueue_grant (h : (s.proc p).cpuShare = 0 → s.QueueRoom) (q : Slot) :
    (s.grant p share original).ptable.InQueue q ↔
      s.ptable.InQueue q ∨ q = p ∧ (s.proc p).cpuShare = 0 := by
  by_cases hp : (s.proc p).cpuShare = 0
  · obtain ⟨hpos, -⟩ := h hp
    have hsize : s.ptable.strideQueueSize = (s.ptable.strideQueueSize.toNat : Int) := by omega
    generalize hn : s.ptable.strideQueueSize.toNat = n at hsize
    obtain ⟨queue, hpush, hr⟩ := PTable.strideQueuePush_rearranged
      ({ s.ptable with sumCpuShare := s.sumWith p share }.setProc p fun x =>
        { x with cpuShare := share, originalCpuShare := original, stride := NSTRIDE / share })
      p (n := n) hsize
    have hgrant : (s.grant p share original).ptable =
        PTable.strideQueuePush ({ s.ptable with sumCpuShare := s.sumWith p share }.setProc p fun x =>
          { x with cpuShare := share, originalCpuShare := original, stride := NSTRIDE / share }) p := by
      simp only [grant, PTable.granted]
      exact if_pos hp
    rw [hgrant, hpush, PTable.InQueue, PTable.InQueue, hsize]
    simp only [hp, and_true]
    -- the entries are those of the queue with `p` at its end
    constructor
    · rintro ⟨i, h1, h2, hi⟩
      obtain ⟨j, hj, heq⟩ := hr.exists_of_new (i := i) (by omega)
      rw [heq] at hi
      by_cases hjn : j = n + 1
      · rw [hjn, update_self, Option.some.injEq] at hi
        exact .inr hi.symm
      · rw [update_of_ne hjn] at hi
        exact .inl ⟨j, hj.1, by omega, hi⟩
    · rintro (⟨j, h1, h2, hj⟩ | rfl)
      · obtain ⟨i, hi, heq⟩ := hr.exists_of_old (i := j) (by omega)
        rw [update_of_ne (by omega)] at heq
        exact ⟨i, hi.1, by omega, heq.trans hj⟩
      · obtain ⟨i, hi, heq⟩ := hr.exists_of_old (i := n + 1) (by omega)
        rw [update_self] at heq
        exact ⟨i, hi.1, by omega, heq⟩
  · obtain ⟨hqueue, hsize⟩ := grant_queue_of_share share original hp
    rw [PTable.InQueue, PTable.InQueue, hqueue, hsize]
    simp only [hp, and_false, or_false]

theorem size_grant (s : Kernel) (p : Slot) (share original : Int32) :
    (s.grant p share original).ptable.strideQueueSize =
      if (s.proc p).cpuShare = 0 then s.ptable.strideQueueSize + 1 else s.ptable.strideQueueSize := by
  by_cases hp : (s.proc p).cpuShare = 0
  · have hp' : (s.ptable.proc p).cpuShare = 0 := hp
    simp only [grant, PTable.granted, hp, hp', if_true, PTable.strideQueuePush]
    split <;> rfl
  · rw [if_neg hp]
    exact (grant_queue_of_share share original hp).2

theorem sum_grant (s : Kernel) (p : Slot) (share original : Int32) :
    (s.grant p share original).ptable.sumCpuShare = s.sumWith p share :=
  PTable.granted_sumCpuShare _ p share original

theorem cpuShare_grant (s : Kernel) (p q : Slot) (share original : Int32) :
    ((s.grant p share original).proc q).cpuShare =
      if q = p then share else (s.proc q).cpuShare := by
  by_cases hq : q = p
  · rw [if_pos hq, hq, grant_proc_same]
  · rw [if_neg hq, grant_proc_of_ne s share original hq]

/-! ## The threads one after another -/

/-- The processes in `ps` can get the share one after another, starting with the given sum
and size of the queue. -/
def Admits (s : Kernel) (share : Int32) : Int32 → Int → List Slot → Prop
  | _, _, [] => True
  | sum, size, p :: ps =>
    sum - (s.proc p).cpuShare + share ≤ MAX_CPU_SHARE ∧
      ((s.proc p).cpuShare = 0 → 0 ≤ size ∧ size < NPROC) ∧
      s.Admits share (sum - (s.proc p).cpuShare + share)
        (if (s.proc p).cpuShare = 0 then size + 1 else size) ps

variable {ps : List Slot}

theorem admits_congr {sum : Int32} {size : Int}
    (h : ∀ p ∈ ps, (s'.proc p).cpuShare = (s.proc p).cpuShare) :
    s'.Admits share sum size ps ↔ s.Admits share sum size ps := by
  induction ps generalizing sum size with
  | nil => exact Iff.rfl
  | cons p ps ih =>
    unfold Admits
    rw [h p mem_cons_self, ih fun q hq => h q (mem_cons_of_mem p hq)]

/-- The first one can get it, and then the others can. -/
theorem admits_cons (original : Int32) (hp : p ∉ ps) :
    s.Admits share s.ptable.sumCpuShare s.ptable.strideQueueSize (p :: ps) ↔
      s.Grantable p share ∧
        (s.grant p share original).Admits share (s.grant p share original).ptable.sumCpuShare
          (s.grant p share original).ptable.strideQueueSize ps := by
  have hcongr : ∀ q ∈ ps, ((s.grant p share original).proc q).cpuShare = (s.proc q).cpuShare :=
    fun q hq => by
      have hne : q ≠ p := fun h => hp (h ▸ hq)
      rw [cpuShare_grant, if_neg hne]
  rw [admits_congr hcongr, sum_grant, size_grant, Admits, Grantable, and_assoc]
  rfl

/-- The processes in `ps` have the share, and those that had none are in the queue. -/
structure Divided (share : Int32) (ps : List Slot) (s s' : Kernel) : Prop where
  cpuShare : ∀ p, (s'.proc p).cpuShare = if p ∈ ps then share else (s.proc p).cpuShare
  inQueue : ∀ p, s'.ptable.InQueue p ↔
    s.ptable.InQueue p ∨ p ∈ ps ∧ (s.proc p).cpuShare = 0
  sum : s.ptable.sumCpuShare ≤ MAX_CPU_SHARE → s'.ptable.sumCpuShare ≤ MAX_CPU_SHARE

theorem Divided.nil (share : Int32) (s : Kernel) : Divided share [] s s :=
  ⟨fun p => by simp, fun p => by simp, id⟩

theorem Divided.cons (hp : p ∉ ps) (hg : s.Grantable p share)
    (h : Divided share ps (s.grant p share original) s') : Divided share (p :: ps) s s' where
  cpuShare q := by
    rw [h.cpuShare, cpuShare_grant]
    by_cases hq : q = p
    · subst hq
      simp [hp]
    · simp [hq]
  inQueue q := by
    rw [h.inQueue, inQueue_grant hg.2, cpuShare_grant]
    by_cases hq : q = p
    · subst hq
      simp [hp]
    · simp [hq]
  sum _ := h.sum (by rw [sum_grant]; exact hg.1)

/-- `t` is a thread of the process of `c`. -/
def ThreadOf (s : Kernel) (c t : Slot) : Prop :=
  (s.proc t).pid = (s.proc c).pid ∧ (s.proc t).tid ≠ 0

instance (s : Kernel) (c t : Slot) : Decidable (s.ThreadOf c t) :=
  inferInstanceAs (Decidable (_ ∧ _))

theorem threadOf_grant (s : Kernel) (p : Slot) (share original : Int32) (c t : Slot) :
    (s.grant p share original).ThreadOf c t ↔ s.ThreadOf c t := by
  obtain ⟨_, _, _, _, ht⟩ := grant_proc s p t share original
  obtain ⟨_, _, _, _, hc⟩ := grant_proc s p c share original
  rw [ThreadOf, ThreadOf, ht, hc]

theorem setCpuShareThread_ok {t : Slot} (hrange : ShareInRange share) (ht : s.ThreadOf c t)
    (hg : s.Grantable t share) : setCpuShareThread c share s t =
      .ok (s.grant t share (s.proc c).originalCpuShare) := by
  have hother : s.setCpuShareOtherThreads c share t =
      .ok (s.grant t share (s.proc c).originalCpuShare, 0) := by
    unfold setCpuShareOtherThreads
    rw [if_neg (not_not.mpr (show MIN_CPU_SHARE ≤ share ∧ share ≤ MAX_CPU_SHARE from hrange))]
    have hsum : ¬ s.ptable.sumCpuShare - (s.proc t).cpuShare + share > MAX_CPU_SHARE :=
      Int32.not_lt.mpr hg.1
    simp only
    rw [if_neg hsum]
    exact bind_eq_ok.mpr ⟨_, pushIfNew_ok (s :=
      { s with ptable := { s.ptable with sumCpuShare := s.sumWith t share } }) hg.2, rfl⟩
  obtain ⟨hpid, htid⟩ := ht
  rw [setCpuShareThread, if_pos ⟨hpid, htid⟩, hother]
  rfl

/-- A thread that cannot get it stops the kernel. -/
theorem setCpuShareThread_error {t : Slot} (ht : s.ThreadOf c t)
    (hg : ¬ s.Grantable t share) : ∃ e, setCpuShareThread c share s t = .error e := by
  cases h : setCpuShareThread c share s t with
  | error e => exact ⟨e, rfl⟩
  | ok s' =>
    obtain ⟨hpid, htid⟩ := ht
    rw [setCpuShareThread, if_pos ⟨hpid, htid⟩] at h
    obtain ⟨⟨s1, r⟩, h1, h⟩ := bind_eq_ok.mp h
    split at h
    · next hr =>
      cases hr
      obtain ⟨-, hsum, hroom, -⟩ := setCpuShareOtherThreads_eq h1
      exact absurd ⟨hsum, hroom⟩ hg
    · contradiction

theorem divide_loop (hrange : ShareInRange share) {l : List Slot} (hl : l.Nodup) :
    (s.Admits share s.ptable.sumCpuShare s.ptable.strideQueueSize (l.filter (s.ThreadOf c ·)) ∧
      ∃ s', forEach (setCpuShareThread c share) l s = .ok s' ∧
        Divided share (l.filter (s.ThreadOf c ·)) s s') ∨
    (¬ s.Admits share s.ptable.sumCpuShare s.ptable.strideQueueSize (l.filter (s.ThreadOf c ·)) ∧
      ∃ e, forEach (setCpuShareThread c share) l s = .error e) := by
  induction l generalizing s with
  | nil => exact .inl ⟨trivial, s, rfl, Divided.nil share s⟩
  | cons t l ih =>
    obtain ⟨htl, hl⟩ := nodup_cons.mp hl
    by_cases ht : s.ThreadOf c t
    · have hfilter : (t :: l).filter (s.ThreadOf c ·) = t :: l.filter (s.ThreadOf c ·) := by
        rw [filter_cons, if_pos (by simpa using ht)]
      have hnew : t ∉ l.filter (s.ThreadOf c ·) := fun h => htl (mem_filter.mp h).1
      have hadmits := @admits_cons s t share _ (s.proc c).originalCpuShare hnew
      rw [hfilter, hadmits]
      by_cases hg : s.Grantable t share
      · have hstep := setCpuShareThread_ok hrange ht hg
        have hsame : l.filter ((s.grant t share (s.proc c).originalCpuShare).ThreadOf c ·) =
            l.filter (s.ThreadOf c ·) := by
          refine filter_congr fun q _ => ?_
          rw [decide_eq_decide]
          exact threadOf_grant s t share _ c q
        have hrest := ih (s := s.grant t share (s.proc c).originalCpuShare) hl
        rw [hsame] at hrest
        rcases hrest with ⟨hrest, s', hok, hdiv⟩ | ⟨hrest, e, herr⟩
        · refine .inl ⟨⟨hg, hrest⟩, s', ?_, hdiv.cons hnew hg⟩
          rw [forEach_cons, hstep, ok_bind, hok]
        · refine .inr ⟨fun h => hrest h.2, e, ?_⟩
          rw [forEach_cons, hstep, ok_bind, herr]
      · obtain ⟨e, he⟩ := setCpuShareThread_error ht hg
        exact .inr ⟨fun h => hg h.1, e, by rw [forEach_cons, he, error_bind]⟩
    · have hfilter : (t :: l).filter (s.ThreadOf c ·) = l.filter (s.ThreadOf c ·) := by
        rw [filter_cons, if_neg (by simpa using ht)]
      have hstep : setCpuShareThread c share s t = .ok s := if_neg ht
      rw [hfilter, forEach_cons, hstep, ok_bind]
      exact ih hl

/-! ## The whole call -/

/-- The threads of the process of `c`. -/
def threads (s : Kernel) (c : Slot) : List Slot := slots.filter (s.ThreadOf c ·)

/-- The part of each member when `required` is divided among `c` and its threads. -/
def evenShare (s : Kernel) (c : Slot) (required : Int32) : Int32 :=
  required / Int32.ofNat ((s.threads c).length + 1)

/-- `set_cpu_share` returns -1 and leaves the shares and the queue alone, or returns 0 and
divides the share among `c` and its threads, which are all in the queue. -/
def AllOrNothing (s : Kernel) (c : Slot) (required : Int32) : Prop :=
  ∃ s' r, s.setCpuShare c required = .ok (s', r) ∧
    ((r = -1 ∧ s'.ptable.proc = s.ptable.proc ∧ s'.ptable.strideQueue = s.ptable.strideQueue ∧
        s'.ptable.strideQueueSize = s.ptable.strideQueueSize ∧
        s'.ptable.sumCpuShare = s.ptable.sumCpuShare) ∨
      (r = 0 ∧ (∀ p ∈ c :: s.threads c, (s'.proc p).cpuShare = s.evenShare c required ∧
          s'.ptable.InQueue p) ∧ s'.ptable.sumCpuShare ≤ MAX_CPU_SHARE))

/-- The part that `c` takes for itself is out of range or too much. -/
def Refused (s : Kernel) (c : Slot) (required : Int32) : Prop :=
  ¬ ShareInRange (ownShare (s.proc c) required) ∨
    MAX_CPU_SHARE < s.sumWith c (ownShare (s.proc c) required)

/-- The threads are counted, `c` and all its threads can get their parts one after another,
and those that have a share already are in the queue. -/
structure Divisible (s : Kernel) (c : Slot) (required : Int32) : Prop where
  counted : ownShare (s.proc c) required = s.evenShare c required
  admits : s.Admits (s.evenShare c required) s.ptable.sumCpuShare s.ptable.strideQueueSize
    (c :: s.threads c)
  queued : ∀ p ∈ c :: s.threads c, (s.proc p).cpuShare ≠ 0 → s.ptable.InQueue p

theorem admitted_of_not_refused (href : ¬ s.Refused c required) :
    (MIN_CPU_SHARE ≤ ownShare (s.proc c) required ∧ ownShare (s.proc c) required ≤ MAX_CPU_SHARE) ∧
      ¬ s.ptable.sumCpuShare - (s.proc c).cpuShare + ownShare (s.proc c) required > MAX_CPU_SHARE :=
  ⟨not_not.mp (not_or.mp href).1, (not_or.mp href).2⟩

theorem setCpuShare_granted (htrap : ¬ DivisionTraps (s.proc c) required)
    (href : ¬ s.Refused c required)
    (hroom : (s.proc c).cpuShare = 0 → s.QueueRoom) :
    s.setCpuShare c required =
      (if (s.proc c).tid = 0 ∧ (s.proc c).numOfThreads ≠ 0 then do
        let s ← forEach (setCpuShareThread c (ownShare (s.proc c) required)) slots
          (s.grant c (ownShare (s.proc c) required) (ownShare (s.proc c) required))
        return (s, 0)
      else return (s.grant c (ownShare (s.proc c) required) (ownShare (s.proc c) required), 0)) := by
  obtain ⟨hrange, hsum⟩ := admitted_of_not_refused href
  have hpush := @pushIfNew_ok
    { s with ptable := { s.ptable with sumCpuShare := s.sumWith c (ownShare (s.proc c) required) } }
    c (ownShare (s.proc c) required) (ownShare (s.proc c) required) hroom
  have hself := grant_proc_same s c (ownShare (s.proc c) required) (ownShare (s.proc c) required)
  unfold setCpuShare
  rw [if_neg htrap]
  simp only
  rw [if_neg (not_not.mpr hrange), if_neg hsum]
  refine (congrArg (· >>= _) hpush).trans ?_
  rw [ok_bind]
  have hkeep : ((s.grant c (ownShare (s.proc c) required) (ownShare (s.proc c) required)).proc c).tid =
        (s.proc c).tid ∧
      ((s.grant c (ownShare (s.proc c) required)
        (ownShare (s.proc c) required)).proc c).numOfThreads = (s.proc c).numOfThreads := by
    rw [hself]
    exact ⟨rfl, rfl⟩
  rw [← hkeep.1, ← hkeep.2]
  rfl

theorem setCpuShare_refused (htrap : ¬ DivisionTraps (s.proc c) required)
    (href : s.Refused c required) : s.setCpuShare c required = .ok (s, -1) := by
  unfold setCpuShare
  rw [if_neg htrap]
  simp only
  by_cases hrange : MIN_CPU_SHARE ≤ ownShare (s.proc c) required ∧
      ownShare (s.proc c) required ≤ MAX_CPU_SHARE
  · have hsum : s.ptable.sumCpuShare - (s.proc c).cpuShare + ownShare (s.proc c) required >
        MAX_CPU_SHARE := by
      cases href with
      | inl h => exact absurd hrange h
      | inr h => exact h
    rw [if_neg (not_not.mpr hrange), if_pos hsum]
  · rw [if_pos hrange]

/-- A call that changes something has given `c` its part. -/
theorem setCpuShare_ok {r : Int} (href : ¬ s.Refused c required)
    (h : s.setCpuShare c required = .ok (s', r)) : (s.proc c).cpuShare = 0 → s.QueueRoom := by
  obtain ⟨hrange, hsum⟩ := admitted_of_not_refused href
  unfold setCpuShare at h
  split at h
  · contradiction
  simp only at h
  rw [if_neg (not_not.mpr hrange), if_neg hsum] at h
  obtain ⟨s1, h1, -⟩ := bind_eq_ok.mp h
  exact (granted_of_pushIfNew (s := { s with
    ptable := { s.ptable with sumCpuShare := s.sumWith c (ownShare (s.proc c) required) } }) h1).2

/-- With a thread the parts are smaller than the whole. -/
theorem evenShare_ne (hn : s.threads c ≠ []) (hrange : ShareInRange required) :
    s.evenShare c required ≠ required := by
  have hlen : 1 ≤ (s.threads c).length := length_pos_of_ne_nil hn
  have hle : (s.threads c).length ≤ NPROC := by
    refine (length_filter_le _ _).trans ?_
    simp [slots]
  obtain ⟨hlo, hhi⟩ := hrange.toInt
  intro heq
  have hdiv := congrArg Int32.toInt heq
  have hcount : (Int32.ofNat ((s.threads c).length + 1)).toInt = (s.threads c).length + 1 := by
    rw [Int32.toInt_ofNat_of_lt (by simp only [NPROC] at hle; omega)]
    push_cast
    rfl
  have hne : Int32.ofNat ((s.threads c).length + 1) ≠ -1 := by
    intro h
    have := congrArg Int32.toInt h
    rw [hcount] at this
    have hneg : (-1 : Int32).toInt = -1 := by decide
    omega
  rw [evenShare, Int32.toInt_div_of_ne_right _ _ hne, hcount,
    Int.tdiv_eq_ediv_of_nonneg (by omega)] at hdiv
  have hlt : required.toInt / ((s.threads c).length + 1) < required.toInt :=
    Int.ediv_lt_self_of_pos_of_ne_one (by omega) (by omega)
  omega

section

variable (htrap : ¬ DivisionTraps (s.proc c) required) (href : ¬ s.Refused c required)

include htrap href

/-- A master thread whose threads are not counted takes the whole share for itself. -/
theorem not_allOrNothing_of_uncounted (hn : s.threads c ≠ []) (hnum : (s.proc c).numOfThreads = 0) :
    ¬ s.AllOrNothing c required ∧ ¬ s.Divisible c required := by
  have hown : ownShare (s.proc c) required = required := if_neg fun h => h.2 hnum
  have hrange : ShareInRange required := by
    have hrange := not_not.mp (not_or.mp href).1
    rwa [hown] at hrange
  refine ⟨?_, fun h => evenShare_ne hn hrange (h.counted.symm.trans hown)⟩
  rintro ⟨s', r, hok, hcase⟩
  rw [setCpuShare_granted htrap href (setCpuShare_ok href hok), if_neg fun h => h.2 hnum] at hok
  cases hok
  rcases hcase with ⟨hr, -⟩ | ⟨-, hall, -⟩
  · contradiction
  · have hshare := (hall c mem_cons_self).1
    rw [cpuShare_grant, if_pos rfl, hown] at hshare
    exact evenShare_ne hn hrange hshare.symm

/-- A call that gets past the check of the master's part completes when the threads can all get
theirs. -/
theorem setCpuShare_divides (hc : (s.proc c).tid = 0)
    (hroom : (s.proc c).cpuShare = 0 → s.QueueRoom)
    (hnum : (s.proc c).numOfThreads ≠ 0) :
    (s.Admits (ownShare (s.proc c) required) s.ptable.sumCpuShare s.ptable.strideQueueSize
        (c :: s.threads c) ∧ ∃ s', s.setCpuShare c required = .ok (s', 0) ∧
      Divided (ownShare (s.proc c) required) (c :: s.threads c) s s' ∧
      s'.ptable.sumCpuShare ≤ MAX_CPU_SHARE) ∨
    (¬ s.Admits (ownShare (s.proc c) required) s.ptable.sumCpuShare s.ptable.strideQueueSize
        (c :: s.threads c) ∧ ∃ e, s.setCpuShare c required = .error e) := by
  have hrange : ShareInRange (ownShare (s.proc c) required) := not_not.mp (not_or.mp href).1
  have hsum : s.sumWith c (ownShare (s.proc c) required) ≤ MAX_CPU_SHARE :=
    Int32.not_lt.mp (not_or.mp href).2
  rw [setCpuShare_granted htrap href hroom, if_pos ⟨hc, hnum⟩]
  generalize ownShare (s.proc c) required = own at *
  have hself : c ∉ s.threads c := fun h => by
    have hthread : s.ThreadOf c c := by simpa using (mem_filter.mp h).2
    exact hthread.2 hc
  have hsame : slots.filter ((s.grant c own own).ThreadOf c ·) = s.threads c := by
    refine filter_congr fun q _ => ?_
    rw [decide_eq_decide]
    exact threadOf_grant s c own own c q
  have hslots : slots.Nodup := nodup_finRange NPROC
  have hloop := divide_loop (c := c) (s := s.grant c own own) hrange hslots
  rw [hsame] at hloop
  rw [admits_cons own hself]
  rcases hloop with ⟨hrest, s', hok, hdiv⟩ | ⟨hrest, e, herr⟩
  · refine .inl ⟨⟨⟨hsum, hroom⟩, hrest⟩, s', by rw [hok]; rfl, hdiv.cons hself ⟨hsum, hroom⟩,
      hdiv.sum ?_⟩
    rw [sum_grant]
    exact hsum
  · exact .inr ⟨fun h => hrest h.2, e, by rw [herr]; rfl⟩

/-- A call that divides the share is all or nothing when every member can get its part. -/
theorem allOrNothing_iff_divisible (hc : (s.proc c).tid = 0)
    (hroom : (s.proc c).cpuShare = 0 → s.QueueRoom) (hnum : (s.proc c).numOfThreads ≠ 0) :
    s.AllOrNothing c required ↔ s.Divisible c required := by
  rcases setCpuShare_divides htrap href hc hroom hnum with
    ⟨hadmits, s', hcall, hdiv, hsum⟩ | ⟨hadmits, e, hcall⟩
  · constructor
    · rintro ⟨s'', r, hok, hcase⟩
      rw [hcall] at hok
      cases hok
      rcases hcase with ⟨hr, -⟩ | ⟨-, hall, -⟩
      · contradiction
      have hcounted : ownShare (s.proc c) required = s.evenShare c required := by
        have hshare := (hall c mem_cons_self).1
        rwa [hdiv.cpuShare, if_pos mem_cons_self] at hshare
      refine ⟨hcounted, hcounted ▸ hadmits, fun p hp hshare => ?_⟩
      rcases (hdiv.inQueue p).mp (hall p hp).2 with hin | ⟨-, hzero⟩
      · exact hin
      · exact absurd hzero hshare
    · intro h
      refine ⟨s', 0, hcall, .inr ⟨rfl, fun p hp => ⟨?_, ?_⟩, hsum⟩⟩
      · rw [hdiv.cpuShare, if_pos hp, h.counted]
      · rw [hdiv.inQueue]
        by_cases hzero : (s.proc p).cpuShare = 0
        · exact .inr ⟨hp, hzero⟩
        · exact .inl (h.queued p hp hzero)
  · refine iff_of_false ?_ fun h => hadmits (h.counted ▸ h.admits)
    rintro ⟨s', r, hok, -⟩
    rw [hcall] at hok
    contradiction

end

/-- **`set_cpu_share` by a master thread with threads is all or nothing exactly when it is
refused or every member can get its part.** -/
theorem allOrNothing_iff (s : Kernel) (c : Slot) (required : Int32) (hc : (s.proc c).tid = 0)
    (hn : s.threads c ≠ []) : s.AllOrNothing c required ↔
      ¬ DivisionTraps (s.proc c) required ∧ (s.Refused c required ∨ s.Divisible c required) := by
  by_cases htrap : DivisionTraps (s.proc c) required
  · have herr : s.setCpuShare c required = .error .trap := if_pos htrap
    refine iff_of_false ?_ fun h => h.1 htrap
    rintro ⟨s', r, hok, -⟩
    rw [herr] at hok
    contradiction
  · rw [and_iff_right htrap]
    by_cases href : s.Refused c required
    · exact iff_of_true ⟨s, -1, setCpuShare_refused htrap href, .inl ⟨rfl, rfl, rfl, rfl, rfl⟩⟩
        (.inl href)
    rw [or_iff_right href]
    by_cases hnum : (s.proc c).numOfThreads = 0
    · obtain ⟨hcall, hdiv⟩ := not_allOrNothing_of_uncounted htrap href hn hnum
      exact iff_of_false hcall hdiv
    by_cases hroom : (s.proc c).cpuShare = 0 → s.QueueRoom
    · exact allOrNothing_iff_divisible htrap href hc hroom hnum
    · refine iff_of_false ?_ fun h => hroom h.admits.2.1
      rintro ⟨s', r, hok, -⟩
      exact hroom (setCpuShare_ok href hok)

instance decidableAdmits (s : Kernel) (share : Int32) :
    ∀ sum size ps, Decidable (s.Admits share sum size ps)
  | _, _, [] => inferInstanceAs (Decidable True)
  | sum, size, p :: ps =>
    have := decidableAdmits s share (sum - (s.proc p).cpuShare + share)
      (if (s.proc p).cpuShare = 0 then size + 1 else size) ps
    inferInstanceAs (Decidable (_ ∧ _ ∧ _))

/-- The process in entry 1 has a thread; nobody has a share yet. -/
theorem allOrNothing_threaded : ∃ s : Kernel, s.Reachable ∧ (s.proc 1).tid = 0 ∧
    s.threads 1 = [2] ∧ s.AllOrNothing 1 200 := by
  obtain ⟨s, hr, htid, hthreads, hnum, hshare, hadmits⟩ := exists_reachableBy (fun _ _ => True)
    (P := fun s => (s.proc 1).tid = 0 ∧ s.threads 1 = [2] ∧ (s.proc 1).numOfThreads = 1 ∧
      ((s.proc 1).cpuShare = 0 ∧ (s.proc 2).cpuShare = 0) ∧
      s.Admits 100 s.ptable.sumCpuShare s.ptable.strideQueueSize [1, 2])
    (range' 1 400) (fun _ => false) smallProgram threaded
    (fun _ _ _ => trivial) (by decide +kernel)
  have heven : s.evenShare 1 200 = 100 := by
    rw [evenShare, hthreads]
    decide
  refine ⟨s, hr, htid, hthreads, (allOrNothing_iff s 1 200 htid (by rw [hthreads]; decide)).mpr
    ⟨fun h => absurd h.2 (by rw [hnum]; decide), .inr ⟨?_, ?_, ?_⟩⟩⟩
  · rw [heven, ownShare, if_pos ⟨htid, by rw [hnum]; decide⟩, hnum]
    decide
  · rw [heven, hthreads]
    exact hadmits
  · intro p hp hne
    rw [hthreads] at hp
    simp only [mem_cons, not_mem_nil, or_false] at hp
    rcases hp with rfl | rfl
    · exact absurd hshare.1 hne
    · exact absurd hshare.2 hne

/-- Init has a share of 700.  The process in entry 1 and its thread ask for 200 together:
the master's part still fits, the thread's does not. -/
theorem setCpuShare_thread_panics : ∃ s : Kernel, s.Reachable ∧ (s.proc 1).state = .running ∧
    (s.proc 1).tid = 0 ∧ s.threads 1 = [2] ∧ s.ptable.sumCpuShare = 700 ∧
    s.setCpuShare 1 200 = .error .setCpuShareThreads ∧ ¬ s.AllOrNothing 1 200 := by
  obtain ⟨s, hr, hrun, htid, hthreads, hsum, hcall⟩ := exists_reachableBy (fun _ _ => True)
    (P := fun s => (s.proc 1).state = .running ∧ (s.proc 1).tid = 0 ∧ s.threads 1 = [2] ∧
      s.ptable.sumCpuShare = 700 ∧
      (s.setCpuShare 1 200).map (fun _ => ()) = .error .setCpuShareThreads)
    (range' 1 400) (fun _ => false) smallProgram (threaded ++ [.call 0 (.setCpuShare 70)])
    (fun _ _ _ => trivial) (by decide +kernel)
  have hpanic : s.setCpuShare 1 200 = .error .setCpuShareThreads := by
    cases hcase : s.setCpuShare 1 200 with
    | error e =>
      rw [hcase] at hcall
      exact congrArg Except.error (Except.error.inj hcall)
    | ok r =>
      rw [hcase] at hcall
      contradiction
  refine ⟨s, hr, hrun, htid, hthreads, hsum, hpanic, ?_⟩
  rintro ⟨s', r, hok, -⟩
  rw [hpanic] at hok
  contradiction

end Kernel
end Xv6
