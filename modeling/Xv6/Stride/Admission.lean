import Xv6.Panics
import Xv6.Stride.Divide
import Xv6.Stride.Lane

/-!
# Xv6.Stride.Admission

Who gets into the stride queue, and with which share.

`sys_set_cpu_share` multiplies the percentage by ten in 32 bits and checks the
product only.  `thread_create` divides the share that the process asked for by
the number of its threads, and stops the kernel when nothing is left.
-/

namespace Xv6

open Lib Function

/-! ## Once in the queue -/

namespace PTable

/-- `p` is in the stride queue exactly once. -/
def InQueueOnce (t : PTable) (p : Slot) : Prop :=
  ∃! i : Nat, (1 ≤ i ∧ (i : Int) ≤ t.strideQueueSize) ∧ t.strideQueue i = some p

variable {t : PTable} {p : Slot} {n : Nat}

theorem inQueueOnce_iff (hsize : t.strideQueueSize = n) :
    t.InQueueOnce p ↔ ∃! i : Nat, (1 ≤ i ∧ i ≤ n) ∧ t.strideQueue i = some p := by
  simp only [InQueueOnce, hsize, Int.ofNat_le]

/-- Inserting a process that is in the queue already makes it two. -/
theorem strideQueuePush_once_iff (hsize : t.strideQueueSize = n) :
    (t.strideQueuePush p).InQueueOnce p ↔ ¬ t.InQueue p := by
  obtain ⟨q, hpush, hr⟩ := strideQueuePush_rearranged t p hsize
  have hlast : update t.strideQueue (n + 1) (some p) (n + 1) = some p :=
    update_self ..
  rw [hpush, inQueueOnce_iff rfl]
  constructor
  · rintro honce ⟨i, h1, h2, hi⟩
    have hle : i ≤ n := by omega
    obtain ⟨j, -, hunique⟩ := hr.existsUnique honce
    have hold : update t.strideQueue (n + 1) (some p) i = some p := by
      rw [update_of_ne (by omega), hi]
    have hj := hunique i ⟨⟨h1, by omega⟩, hold⟩
    have hj' := hunique (n + 1) ⟨⟨by omega, le_rfl⟩, hlast⟩
    omega
  · intro hout
    refine hr.symm.existsUnique ⟨n + 1, ⟨⟨by omega, le_rfl⟩, hlast⟩, fun j ⟨hj, hjp⟩ => ?_⟩
    by_contra hne
    rw [update_of_ne hne] at hjp
    exact hout ⟨j, hj.1, by omega, hjp⟩

end PTable

namespace Kernel

variable {s s' : Kernel} {c : Slot} {r required : Int32}

/-! ## A process without threads -/

/-- `sys_set_cpu_share(r)` by `c` has led to `s'` and given `c` the share it
asked for. -/
structure Admitted (s : Kernel) (c : Slot) (r : Int32) (s' : Kernel) : Prop where
  percent : 1 ≤ r.toInt ∧ r.toInt ≤ 80
  share : (s'.proc c).cpuShare.toInt = 10 * r.toInt
  stride : (s'.proc c).stride.toInt = NSTRIDE.toInt / (10 * r.toInt)
  once : s'.ptable.InQueueOnce c
  sum : s'.ptable.sumCpuShare.toInt =
    s.ptable.sumCpuShare.toInt + (10 * r.toInt - (s.proc c).cpuShare.toInt)
  bound : s'.ptable.sumCpuShare ≤ MAX_CPU_SHARE

/-- `sys_set_cpu_share(r)` by `c` returns -1 and changes nothing, or returns 0
and gives `c` the share. -/
def Admission (s : Kernel) (c : Slot) (r : Int32) : Prop :=
  ∃ s' ret, s.sysSetCpuShare c r = .ok (s', ret) ∧
    (ret = -1 ∧ s' = s ∨ ret = 0 ∧ s.Admitted c r s')

/-- What has to hold for the share `10 * r` that `c` is going to get: the
percentage is one, it is not divided, the new sum fits without overflow, and `c`
is in the queue exactly if it has a share. -/
structure Admissible (s : Kernel) (c : Slot) (r : Int32) : Prop where
  percent : 1 ≤ r.toInt ∧ r.toInt ≤ 80
  undivided : ownShare (s.proc c) (r * 10) = r * 10
  sum : -2 ^ 31 ≤ s.ptable.sumCpuShare.toInt + (10 * r.toInt - (s.proc c).cpuShare.toInt) ∧
    s.ptable.sumCpuShare.toInt + (10 * r.toInt - (s.proc c).cpuShare.toInt) ≤ 800
  new : (s.proc c).cpuShare = 0 → s.QueueRoom ∧ ¬ s.ptable.InQueue c
  old : (s.proc c).cpuShare ≠ 0 → s.ptable.InQueueOnce c

theorem toInt_tenfold (h : 1 ≤ r.toInt ∧ r.toInt ≤ 80) : (r * 10).toInt = 10 * r.toInt := by
  rw [Int32.toInt_mul, show (10 : Int32).toInt = 10 from rfl,
    Int.bmod_eq_of_le (by omega) (by omega)]
  omega

theorem setCpuShare_threadless (hn : s.threads c = []) (htrap : ¬ DivisionTraps (s.proc c) required)
    (href : ¬ s.Refused c required) (hroom : (s.proc c).cpuShare = 0 → s.QueueRoom) :
    s.setCpuShare c required =
      .ok (s.grant c (ownShare (s.proc c) required) (ownShare (s.proc c) required), 0) := by
  rw [setCpuShare_granted htrap href hroom]
  have hnone : ∀ t ∈ slots, ¬ s.ThreadOf c t := fun t ht hthread => by
    have hmem : t ∈ s.threads c := List.mem_filter.mpr ⟨ht, by simpa using hthread⟩
    simp [hn] at hmem
  have hloop : forEach (setCpuShareThread c (ownShare (s.proc c) required)) slots
      (s.grant c (ownShare (s.proc c) required) (ownShare (s.proc c) required)) =
      .ok (s.grant c (ownShare (s.proc c) required) (ownShare (s.proc c) required)) := by
    refine forEach_of_idle fun t ht => if_neg fun hthread => hnone t ht ?_
    exact (threadOf_grant s c _ _ c t).mp hthread
  split
  · rw [hloop]
    rfl
  · rfl

theorem toInt_sumWith {p : Slot}
    (hlo : -2 ^ 31 ≤ s.ptable.sumCpuShare.toInt + (required.toInt - (s.proc p).cpuShare.toInt))
    (hhi : s.ptable.sumCpuShare.toInt + (required.toInt - (s.proc p).cpuShare.toInt) ≤ 800) :
    (s.sumWith p required).toInt =
      s.ptable.sumCpuShare.toInt + (required.toInt - (s.proc p).cpuShare.toInt) := by
  rw [sumWith, Int32.toInt_add, Int32.toInt_sub, Int.bmod_add_bmod,
    Int.bmod_eq_of_le (by omega) (by omega)]
  omega

/-- The granted process is in the queue once if it was there exactly when it had
a share. -/
theorem grant_once_iff (hroom : (s.proc c).cpuShare = 0 → s.QueueRoom) (original : Int32) :
    (s.grant c required original).ptable.InQueueOnce c ↔
      ((s.proc c).cpuShare = 0 → ¬ s.ptable.InQueue c) ∧
        ((s.proc c).cpuShare ≠ 0 → s.ptable.InQueueOnce c) := by
  by_cases hc : (s.proc c).cpuShare = 0
  · obtain ⟨n, hsize⟩ := Int.eq_ofNat_of_zero_le (hroom hc).1
    -- the share and the sum are written before the push
    have hpush := PTable.strideQueuePush_once_iff (p := c)
      (t := { s.ptable with sumCpuShare := s.sumWith c required }.setProc c fun x =>
        { x with cpuShare := required, originalCpuShare := original, stride := NSTRIDE / required })
      (n := n) hsize
    have hgrant : (s.grant c required original).ptable.InQueueOnce c ↔ ¬ s.ptable.InQueue c := by
      rw [grant, PTable.granted, if_pos (show (s.ptable.proc c).cpuShare = 0 from hc)]
      exact hpush
    simp only [hgrant, hc, forall_const, ne_eq, not_true_eq_false, false_implies, and_true]
  · obtain ⟨hqueue, hsize⟩ := grant_queue_of_share required original hc
    simp only [PTable.InQueueOnce, hqueue, hsize, hc, false_implies, true_and, ne_eq,
      not_false_eq_true, forall_const]

theorem toInt_stride (h : ShareInRange required) :
    (NSTRIDE / required).toInt = NSTRIDE.toInt / required.toInt := by
  have hne : required ≠ -1 := by
    rintro rfl
    exact absurd h.1 (by decide)
  rw [Int32.toInt_div_of_ne_right _ _ hne]
  exact Int.tdiv_eq_ediv_of_nonneg (by decide)

/-- A grant is what was asked for exactly in the admissible cases. -/
theorem admitted_grant_iff (href : ¬ s.Refused c (r * 10))
    (hroom : (s.proc c).cpuShare = 0 → s.QueueRoom) :
    s.Admitted c r (s.grant c (ownShare (s.proc c) (r * 10)) (ownShare (s.proc c) (r * 10))) ↔
      s.Admissible c r := by
  have hrange : ShareInRange (ownShare (s.proc c) (r * 10)) := not_not.mp (not_or.mp href).1
  have hsum : s.sumWith c (ownShare (s.proc c) (r * 10)) ≤ MAX_CPU_SHARE :=
    Int32.not_lt.mp (not_or.mp href).2
  generalize hown : ownShare (s.proc c) (r * 10) = own at hrange hsum ⊢
  constructor
  · intro h
    have hshare := h.share
    rw [cpuShare_grant, if_pos rfl] at hshare
    have hbound := Int32.le_iff_toInt_le.mp hsum
    have hnew := h.sum
    rw [sum_grant] at hnew
    obtain ⟨hout, honce⟩ := (grant_once_iff hroom own).mp h.once
    refine ⟨h.percent, ?_, ⟨?_, ?_⟩, fun hc => ⟨hroom hc, hout hc⟩, honce⟩
    · rw [hown]
      exact Int32.toInt_inj.mp (hshare.trans (toInt_tenfold h.percent).symm)
    · rw [← hnew]
      exact Int32.le_toInt _
    · rw [← hnew]
      exact hbound
  · intro h
    have hten : own.toInt = 10 * r.toInt := by
      rw [← hown, h.undivided, toInt_tenfold h.percent]
    refine ⟨h.percent, ?_, ?_, ?_, ?_, ?_⟩
    · rw [cpuShare_grant, if_pos rfl, hten]
    · rw [grant_proc_same, ← hten]
      exact toInt_stride hrange
    · exact (grant_once_iff hroom own).mpr ⟨fun hc => (h.new hc).2, h.old⟩
    · rw [sum_grant, ← hten]
      exact toInt_sumWith (by rw [hten]; exact h.sum.1) (by rw [hten]; exact h.sum.2)
    · rw [sum_grant]
      exact hsum

/-- **`sys_set_cpu_share` of a process without threads** does what it should
exactly when it is refused or the share is admissible. -/
theorem admission_iff (s : Kernel) (c : Slot) (r : Int32) (hn : s.threads c = []) :
    s.Admission c r ↔
      ¬ DivisionTraps (s.proc c) (r * 10) ∧ (s.Refused c (r * 10) ∨ s.Admissible c r) := by
  unfold Admission sysSetCpuShare
  by_cases htrap : DivisionTraps (s.proc c) (r * 10)
  · have herr : s.setCpuShare c (r * 10) = .error .trap := if_pos htrap
    refine iff_of_false ?_ fun h => h.1 htrap
    rintro ⟨s', ret, hok, -⟩
    rw [herr] at hok
    contradiction
  · rw [and_iff_right htrap]
    by_cases href : s.Refused c (r * 10)
    · exact iff_of_true ⟨s, -1, setCpuShare_refused htrap href, .inl ⟨rfl, rfl⟩⟩ (.inl href)
    rw [or_iff_right href]
    by_cases hroom : (s.proc c).cpuShare = 0 → s.QueueRoom
    · rw [← admitted_grant_iff href hroom, setCpuShare_threadless hn htrap href hroom]
      constructor
      · rintro ⟨s', ret, hok, ⟨rfl, -⟩ | ⟨-, h⟩⟩
        · simp at hok
        · cases hok
          exact h
      · exact fun h => ⟨_, 0, rfl, .inr ⟨rfl, h⟩⟩
    · refine iff_of_false ?_ fun h => hroom fun hz => (h.new hz).1
      rintro ⟨s', ret, hok, -⟩
      exact hroom (setCpuShare_ok href hok)

/-- A new process asks for half of the time. -/
theorem admission_forked : ∃ s : Kernel, s.Reachable ∧ (s.proc 1).tid = 0 ∧ s.threads 1 = [] ∧
    s.Admission 1 50 := by
  obtain ⟨s, hr, htid, hthreads, hnum, hshare, hsum, hroom, hout⟩ :=
    exists_reachableBy (fun _ _ => True)
      (P := fun s => (s.proc 1).tid = 0 ∧ s.threads 1 = [] ∧ (s.proc 1).numOfThreads = 0 ∧
        (s.proc 1).cpuShare = 0 ∧ s.ptable.sumCpuShare = 0 ∧
        (0 ≤ s.ptable.strideQueueSize ∧ s.ptable.strideQueueSize < NPROC) ∧ ¬ s.ptable.InQueue 1)
      (List.range' 1 400) (fun _ => false) smallProgram forked
      (fun _ _ _ => trivial) (by decide +kernel)
  refine ⟨s, hr, htid, hthreads, (admission_iff s 1 50 hthreads).mpr
    ⟨fun h => absurd h.2 (by rw [hnum]; decide), .inr ⟨by decide, if_neg fun h => h.2 hnum, ?_, ?_, ?_⟩⟩⟩
  · rw [hsum, hshare]
    decide
  · exact fun _ => ⟨hroom, hout⟩
  · exact fun h => absurd hshare h

/-- 429496730 percent come to a share of 4. -/
theorem not_admission_overflow : ∃ s : Kernel, s.Reachable ∧ (s.proc 1).tid = 0 ∧
    s.threads 1 = [] ∧ (∃ s', s.sysSetCpuShare 1 429496730 = .ok (s', 0) ∧
      (s'.proc 1).cpuShare = 4) ∧ ¬ s.Admission 1 429496730 := by
  obtain ⟨s, hr, htid, hthreads, hcall⟩ := exists_reachableBy (fun _ _ => True)
    (P := fun s => (s.proc 1).tid = 0 ∧ s.threads 1 = [] ∧
      (s.sysSetCpuShare 1 429496730).toOption.any fun a =>
        a.2 = 0 ∧ (a.1.proc 1).cpuShare = 4)
    (List.range' 1 400) (fun _ => false) smallProgram forked
    (fun _ _ _ => trivial) (by decide +kernel)
  obtain ⟨⟨s', ret⟩, hok, rfl, hfour⟩ := exists_eq_ok hcall
  refine ⟨s, hr, htid, hthreads, ⟨s', hok, hfour⟩, ?_⟩
  rintro ⟨s'', ret, hok', ⟨rfl, -⟩ | ⟨-, h⟩⟩
  · rw [hok] at hok'
    cases hok'
  · exact absurd h.percent.2 (by decide)

/-! ## Sharing with a new thread -/

/-- What `thread_create` by `c` divides by: one more than `num_of_threads`,
which it may just have counted up. -/
def shareDivisor (s : Kernel) (c : Slot) : Int :=
  (s.proc c).numOfThreads + if s.counterOf c = some c then 2 else 1

/-- `share_per_thread` in `thread_create` by `c` -/
def sharePerThread (s : Kernel) (c : Slot) : Int32 :=
  (s.proc c).originalCpuShare / Int32.ofInt (s.shareDivisor c)

/-- The share of `c` can be divided once more: not by zero, with a share for
everybody, and without the panic at the end of `thread_create`. -/
structure DividesShare (s : Kernel) (c : Slot) : Prop where
  divisor : s.shareDivisor c ≠ 0
  least : MIN_CPU_SHARE ≤ s.sharePerThread c
  runs : Avoids .threadCreateStride (s.threadCreate c)

theorem avoids_shareWithThread_of_range (np : Slot) (h : ShareInRange (s.dividedShare c)) :
    Avoids .threadCreateStride (s.shareWithThread c np) := by
  unfold shareWithThread
  split
  · split
    · exact avoids_error (by decide)
    have hset : s.setCpuShareInThreadCreate (s.dividedShare c) np c =
        (do let s ← (s.upd np fun x =>
              { x with
                cpuShare := s.dividedShare c
                originalCpuShare := (s.proc c).originalCpuShare
                stride := NSTRIDE / s.dividedShare c }).pushIfNew np
                  (decide ((s.proc np).cpuShare = 0))
            return (s, 0)) := if_neg (not_not.mpr h)
    show Avoids _ (s.setCpuShareInThreadCreate (s.dividedShare c) np c >>= _)
    rw [hset, bind_assoc]
    exact (avoids_pushIfNew (by decide) ..).returns
  · exact avoids_ok

/-- The panic of `thread_create` comes from the division at its end. -/
theorem avoids_threadCreate_of_made
    (h : ∀ np s3 s4, ThreadMade s c np true s3 → s3.countThread c = .ok s4 →
      ShareInRange ((s4.upd np fun x => { x with state := .runnable }).dividedShare c)) :
    Avoids .threadCreateStride (s.threadCreate c) := by
  refine ⟨fun herr => ?_⟩
  unfold threadCreate at herr
  split at herr
  · contradiction
  next s1 np hs1 =>
  obtain ⟨-, -, herr⟩ := (avoids_acquireThreadLock (by decide) _).bind_eq_error herr
  split at herr
  · cases herr
  next i _ =>
  obtain ⟨s2, h2, herr⟩ := (avoids_dupAll (by decide) (by decide) _ c np).bind_eq_error herr
  obtain ⟨⟨s3, ok⟩, h3, herr⟩ :=
    (avoids_threadStack (by decide) (by decide) s2 c np).bind_eq_error herr
  cases ok with
  | false => contradiction
  | true =>
    obtain ⟨s4, h4, herr⟩ := (avoids_countThread (by decide) s3 c).bind_eq_error herr
    have hrange := h np s3 s4 ⟨s1, i, s2, hs1, h2, h3⟩ h4
    exact (avoids_shareWithThread_of_range np hrange).returns.ne_error herr

/-- The caller at the end of `thread_create`, with the threads counted. -/
theorem ThreadMade.dividedShare {np : Slot} {s3 s4 : Kernel} (hc : (s.proc c).state ≠ .unused)
    (hmade : ThreadMade s c np true s3) (hcount : s3.countThread c = .ok s4) :
    (s4.upd np fun x => { x with state := .runnable }).dividedShare c = s.sharePerThread c := by
  obtain ⟨hfree, hnew⟩ := hmade.newAt
    (f := fun x => (x.tid, x.parent, x.originalCpuShare)) (Q := fun _ => True)
    ⟨fun _ _ _ _ _ => rfl, fun _ _ _ _ _ => rfl⟩
    ⟨fun _ _ => trivial, fun _ _ _ _ => trivial, fun _ _ _ _ _ _ _ _ _ _ => trivial⟩
  have hne : c ≠ np := by
    rintro rfl
    exact hc (unused_of_freeSlot hfree)
  have hentry := hnew.other c hne
  simp only [Prod.mk.injEq] at hentry
  obtain ⟨htid, hparent, horig⟩ := hentry
  have hnum : (s3.proc c).numOfThreads = (s.proc c).numOfThreads := by
    obtain ⟨s1, i, s2, h1, h2, h3⟩ := hmade.made
    have ht : s3.tally.entry c = s.tally.entry c := by
      rw [(threadStack_tally h3).2, (filesOnly_dupAll c np h2).tally]
      refine (congrFun (congrArg Tally.entry (threadEntry_tally s1 c np)) c).trans ?_
      rw [allocproc_some_tally h1]
      exact Tally.set_entry_of_ne _ _ hne
    exact congrArg ThreadCount.num ht
  obtain ⟨m, hm, ht⟩ := countThread_tally hcount
  have hcounter : s.counterOf c = some m := by
    rwa [counterOf, htid, hparent] at hm
  have hcounted : (s4.proc c).numOfThreads + 1 = s.shareDivisor c := by
    have hn : (s4.proc c).numOfThreads = ((s3.tally.add m 1).entry c).num :=
      congrArg (fun t => (t.entry c).num) ht
    rw [shareDivisor, hcounter, hn]
    by_cases hmc : m = c
    · subst hmc
      rw [if_pos rfl, Tally.add, Tally.set_entry_same]
      show (s3.proc m).numOfThreads + 1 + 1 = _
      omega
    · rw [if_neg fun h => hmc (Option.some.inj h), Tally.add,
        Tally.set_entry_of_ne _ _ (Ne.symm hmc)]
      show (s3.proc c).numOfThreads + 1 = _
      omega
  have horig4 : (s4.proc c).originalCpuShare = (s3.proc c).originalCpuShare :=
    (countThread_samePart (f := fun x => x.originalCpuShare) (fun _ _ _ _ _ => rfl) hcount).entry c
  rw [Kernel.dividedShare, upd_proc_of_ne s4 _ hne, hcounted, horig4, horig]
  rfl

/-- A whole share divides among as many as it has parts. -/
theorem one_le_ediv_iff {a n : Int} (ha : 1 ≤ a) : (n ≠ 0 ∧ 1 ≤ a / n) ↔ 1 ≤ n ∧ n ≤ a := by
  constructor
  · rintro ⟨-, hq⟩
    have hpos : 1 ≤ n := by
      by_contra hneg
      have hle : a / n ≤ 0 := Int.ediv_nonpos_of_nonneg_of_nonpos (by omega) (by omega)
      omega
    have hmul := (Int.le_ediv_iff_mul_le (by omega)).mp hq
    omega
  · rintro ⟨hpos, hle⟩
    exact ⟨by omega, (Int.le_ediv_iff_mul_le (by omega)).mpr (by omega)⟩

theorem toInt_sharePerThread (horig : ShareInRange (s.proc c).originalCpuShare)
    (hlo : -2 ^ 31 ≤ s.shareDivisor c) (hhi : s.shareDivisor c < 2 ^ 31) :
    (s.sharePerThread c).toInt = (s.proc c).originalCpuShare.toInt / s.shareDivisor c := by
  have hmin : (s.proc c).originalCpuShare ≠ Int32.minValue := by
    intro h
    rw [h] at horig
    exact absurd horig.1 (by decide)
  have hdivisor : (Int32.ofInt (s.shareDivisor c)).toInt = s.shareDivisor c :=
    Int32.toInt_ofInt_of_le (by omega) (by omega)
  rw [sharePerThread, Int32.toInt_div_of_ne_left _ _ hmin, hdivisor]
  exact Int.tdiv_eq_ediv_of_nonneg (by have := horig.toInt.1; omega)

/-- **A share can be divided once more** exactly while there are not more
threads than the share has parts.  `num_of_threads` is an `int`. -/
theorem dividesShare_iff (s : Kernel) (c : Slot) (hc : (s.proc c).state = .running)
    (horig : ShareInRange (s.proc c).originalCpuShare) (hlo : -2 ^ 31 ≤ s.shareDivisor c)
    (hhi : s.shareDivisor c < 2 ^ 31) :
    s.DividesShare c ↔
      1 ≤ s.shareDivisor c ∧ s.shareDivisor c ≤ (s.proc c).originalCpuShare.toInt := by
  have hlive : (s.proc c).state ≠ .unused := by simp [hc]
  have hshare := toInt_sharePerThread horig hlo hhi
  obtain ⟨hpos, hmax⟩ := horig.toInt
  have hiff := one_le_ediv_iff (n := s.shareDivisor c) hpos
  rw [← hshare] at hiff
  constructor
  · intro h
    exact hiff.mp ⟨h.divisor, Int32.le_iff_toInt_le.mp h.least⟩
  · intro h
    obtain ⟨hne, hone⟩ := hiff.mpr h
    have hrange : ShareInRange (s.sharePerThread c) := by
      refine ⟨Int32.le_iff_toInt_le.mpr hone, Int32.le_iff_toInt_le.mpr ?_⟩
      have hnonneg : 0 ≤ (s.proc c).originalCpuShare.toInt := by omega
      rw [hshare]
      exact (Int.ediv_le_self _ hnonneg).trans hmax
    refine ⟨hne, hrange.1, avoids_threadCreate_of_made fun np s3 s4 hmade hcount => ?_⟩
    rw [hmade.dividedShare hlive hcount]
    exact hrange

/-- Without threads a share of one percent can be divided. -/
theorem dividesShare_onePercent : ∃ s : Kernel, s.Reachable ∧ (s.proc 1).originalCpuShare = 10 ∧
    (s.proc 1).cpuShare ≠ 0 ∧ s.DividesShare 1 := by
  obtain ⟨s, hr, hrun, horig, hshare, hdiv⟩ := exists_reachableBy (fun _ _ => True)
    (P := fun s => (s.proc 1).state = .running ∧ (s.proc 1).originalCpuShare = 10 ∧
      (s.proc 1).cpuShare ≠ 0 ∧ s.shareDivisor 1 = 2)
    (List.range' 1 400) (fun _ => false) smallProgram (forked ++ [.call 1 (.setCpuShare 1)])
    (fun _ _ _ => trivial) (by decide +kernel)
  refine ⟨s, hr, horig, hshare, (dividesShare_iff s 1 hrun ?_ ?_ ?_).mpr ?_⟩
  · rw [horig]
    exact ⟨by decide, by decide⟩
  · rw [hdiv]
    decide
  · rw [hdiv]
    decide
  · rw [hdiv, horig]
    decide

/-- The process in entry 1 has a share of one percent and nine threads. -/
def tenMembers : List Event :=
  forked ++ .call 1 (.setCpuShare 1) :: List.replicate 9 (.call 1 .threadCreate)

/-- The tenth thread leaves nothing to anybody. -/
theorem threadCreate_panics_tenMembers : ∃ s : Kernel, s.Reachable ∧
    (s.proc 1).state = .running ∧ (s.proc 1).originalCpuShare = 10 ∧ (s.proc 1).cpuShare ≠ 0 ∧
    (s.threadCreate 1).map (fun _ => ()) = .error .threadCreateStride ∧ ¬ s.DividesShare 1 := by
  obtain ⟨s, hr, hrun, horig, hshare, hpanic⟩ := exists_reachableBy (fun _ _ => True)
    (P := fun s => (s.proc 1).state = .running ∧ (s.proc 1).originalCpuShare = 10 ∧
      (s.proc 1).cpuShare ≠ 0 ∧
      (s.threadCreate 1).map (fun _ => ()) = .error .threadCreateStride)
    (List.range' 1 400) (fun _ => false) smallProgram tenMembers
    (fun _ _ _ => trivial) (by decide +kernel)
  refine ⟨s, hr, hrun, horig, hshare, hpanic, fun h => h.runs.ne_error ?_⟩
  cases hx : s.threadCreate 1 with
  | error e =>
    rw [hx] at hpanic
    cases hpanic
    rfl
  | ok a =>
    rw [hx] at hpanic
    contradiction

end Kernel
end Xv6
