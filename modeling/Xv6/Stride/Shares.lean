import Xv6.View
import Xv6.Stride.Queue

/-!
# Xv6.Stride.Shares

What `set_cpu_share` and the end of `thread_create` do to the shares and to
the stride queue: a sequence of single grants, each to one process, which
enters the queue with its first share.
-/

namespace Xv6

open Lib

variable {required : Int32} {s s' : Kernel} {t : PTable} {c p q : Slot}

/-- The shares that can be asked for. -/
def ShareInRange (required : Int32) : Prop := MIN_CPU_SHARE ≤ required ∧ required ≤ MAX_CPU_SHARE

theorem ShareInRange.toInt (h : ShareInRange required) :
    1 ≤ required.toInt ∧ required.toInt ≤ 800 :=
  ⟨Int32.le_iff_toInt_le.mp h.1, Int32.le_iff_toInt_le.mp h.2⟩

theorem ShareInRange.ne_zero (h : ShareInRange required) : required ≠ 0 := by
  rintro rfl
  exact absurd h.1 (by decide)

theorem ShareInRange.stride_nonneg (h : ShareInRange required) :
    0 ≤ (NSTRIDE / required).toInt := by
  have hpos := h.toInt.1
  have hne : required ≠ -1 := by
    rintro rfl
    exact absurd h.1 (by decide)
  rw [Int32.toInt_div_of_ne_right _ _ hne]
  exact Int.tdiv_nonneg (by decide) (by omega)

namespace PTable

/-! ## One grant -/

/-- `p` gets the share `required`, and enters the queue if it had none. -/
def granted (t : PTable) (p : Slot) (required original : Int32) : PTable :=
  let t' := t.setProc p fun x =>
    { x with cpuShare := required, originalCpuShare := original, stride := NSTRIDE / required }
  if (t.proc p).cpuShare = 0 then t'.strideQueuePush p else t'

/-- The pass value with which `p` enters the queue. -/
def entryPass (t : PTable) (p : Slot) : Int32 :=
  match t.strideQueue 1 with
  | some r => (t.proc r).strideCount
  | none => (t.proc p).strideCount

theorem strideQueuePush_proc (t : PTable) (p : Slot) :
    (t.strideQueuePush p).proc =
      (t.setProc p fun x => { x with strideCount := t.entryPass p }).proc := by
  unfold strideQueuePush entryPass
  cases t.strideQueue 1 with
  | none => simp [setProc]
  | some r => rfl

theorem strideQueuePush_sumCpuShare (t : PTable) (p : Slot) :
    (t.strideQueuePush p).sumCpuShare = t.sumCpuShare := by
  unfold strideQueuePush
  cases t.strideQueue 1 with
  | none => rfl
  | some r => rfl

theorem granted_proc_of_ne (t : PTable) (required original : Int32) (hq : q ≠ p) :
    (t.granted p required original).proc q = t.proc q := by
  unfold granted
  split
  · rw [strideQueuePush_proc, setProc_proc_of_ne _ _ hq, setProc_proc_of_ne _ _ hq]
  · rw [setProc_proc_of_ne _ _ hq]

theorem granted_proc_same (t : PTable) (p : Slot) (required original : Int32) :
    (t.granted p required original).proc p =
      { t.proc p with
        cpuShare := required
        originalCpuShare := original
        stride := NSTRIDE / required
        strideCount := if (t.proc p).cpuShare = 0 then t.entryPass p else (t.proc p).strideCount } := by
  unfold granted
  split
  · rw [strideQueuePush_proc]
    unfold entryPass
    cases hroot : t.strideQueue 1 with
    | none => simp [hroot]
    | some r =>
      by_cases hr : r = p
      · subst hr; simp [hroot]
      · simp [hroot, setProc_proc_of_ne _ _ hr]
  · simp

@[simp] theorem granted_sumCpuShare (t : PTable) (p : Slot) (required original : Int32) :
    (t.granted p required original).sumCpuShare = t.sumCpuShare := by
  unfold granted
  split
  · exact strideQueuePush_sumCpuShare _ p
  · rfl

theorem granted_root (required original : Int32)
    (hp : (t.proc p).cpuShare = 0) (h0 : 0 ≤ t.strideQueueSize) (h1 : t.strideQueueSize < NPROC) :
    (t.granted p required original).strideQueue 1 = some p := by
  rw [granted, if_pos hp]
  exact strideQueuePush_root p h0 h1

theorem Queued.granted_new {n : Nat} (h : t.Queued n) (required original : Int32)
    (hp : (t.proc p).cpuShare = 0) (hout : ¬ t.InQueue p) :
    (t.granted p required original).Queued (n + 1) ∧
      ∀ q, (t.granted p required original).InQueue q ↔ t.InQueue q ∨ q = p := by
  rw [granted, if_pos hp]
  have hset : (t.setProc p fun x =>
      { x with
        cpuShare := required
        originalCpuShare := original
        stride := NSTRIDE / required }).Queued n := h.of_rearranged rfl (Rearranged.refl n _)
  exact hset.push hout

theorem Queued.granted_old {n : Nat} (h : t.Queued n) (required original : Int32)
    (hp : (t.proc p).cpuShare ≠ 0) :
    (t.granted p required original).Queued n ∧
      ∀ q, (t.granted p required original).InQueue q ↔ t.InQueue q := by
  rw [granted, if_neg hp]
  exact ⟨h.of_rearranged rfl (Rearranged.refl n _), fun _ => Iff.rfl⟩

end PTable

namespace Kernel

/-! ## The calls -/

/-- The change of a share, as all three functions of the source do it. -/
theorem granted_of_pushIfNew {original : Int32} (h : (s.upd p fun x =>
      { x with
        cpuShare := required
        originalCpuShare := original
        stride := NSTRIDE / required }).pushIfNew p (decide ((s.proc p).cpuShare = 0)) = .ok s') :
    s' = { s with ptable := s.ptable.granted p required original } ∧
      ((s.proc p).cpuShare = 0 → 0 ≤ s.ptable.strideQueueSize ∧ s.ptable.strideQueueSize < NPROC) := by
  unfold pushIfNew at h
  unfold PTable.granted
  by_cases hp : (s.ptable.proc p).cpuShare = 0
  · have hnew : decide ((s.proc p).cpuShare = 0) = true := decide_eq_true hp
    rw [if_pos hnew] at h
    unfold strideQueuePush at h
    split at h
    · next hroom =>
      cases h
      rw [if_pos hp]
      exact ⟨rfl, fun _ => hroom⟩
    · contradiction
  · have hnew : ¬ decide ((s.proc p).cpuShare = 0) = true := fun h' => hp (of_decide_eq_true h')
    rw [if_neg hnew] at h
    cases h
    rw [if_neg hp]
    exact ⟨rfl, fun h => absurd h hp⟩

/-- The sum when `p` gets the share `required`. -/
def sumWith (s : Kernel) (p : Slot) (required : Int32) : Int32 :=
  s.ptable.sumCpuShare - (s.proc p).cpuShare + required

/-- `p` gets the share `required`, with the sum adjusted. -/
def grant (s : Kernel) (p : Slot) (required original : Int32) : Kernel :=
  { s with
    ptable := { s.ptable with sumCpuShare := s.sumWith p required }.granted p required original }

/-- The queue has room for another member. -/
def QueueRoom (s : Kernel) : Prop :=
  0 ≤ s.ptable.strideQueueSize ∧ s.ptable.strideQueueSize < NPROC

/-- One grant of `set_cpu_share` by `c`: to the caller or to a thread of its
process. -/
inductive GrantStep (c : Slot) (s : Kernel) : Kernel → Prop where
  | grant {p : Slot} {required original : Int32}
      (hp : p = c ∨ (s.proc p).pid = (s.proc c).pid ∧ (s.proc p).tid ≠ 0)
      (hrange : ShareInRange required) (hsum : s.sumWith p required ≤ MAX_CPU_SHARE)
      (hroom : (s.proc p).cpuShare = 0 → s.QueueRoom) :
      GrantStep c s (s.grant p required original)

theorem setCpuShareOtherThreads_eq {t : Slot}
    (h : s.setCpuShareOtherThreads c required t = .ok (s', 0)) :
    ShareInRange required ∧ s.sumWith t required ≤ MAX_CPU_SHARE ∧
      ((s.proc t).cpuShare = 0 → s.QueueRoom) ∧
      s' = s.grant t required (s.proc c).originalCpuShare := by
  unfold setCpuShareOtherThreads at h
  simp only at h
  split at h
  · cases h
  next hrange =>
  split at h
  · cases h
  next hsum =>
  obtain ⟨s1, h1, h⟩ := bind_eq_ok.mp h
  cases h
  obtain ⟨heq, hroom⟩ := granted_of_pushIfNew (s :=
    { s with ptable := { s.ptable with sumCpuShare := s.sumWith t required } }) h1
  exact ⟨not_not.mp hrange, Int32.not_lt.mp hsum, hroom, heq⟩

theorem grantStep_setCpuShareThread {t : Slot} (h : setCpuShareThread c required s t = .ok s') :
    s' = s ∨ GrantStep c s s' := by
  unfold setCpuShareThread at h
  split at h
  · next ht =>
    obtain ⟨⟨s1, r⟩, h1, h⟩ := bind_eq_ok.mp h
    split at h
    · next hr =>
      cases h
      cases hr
      obtain ⟨hrange, hsum, hroom, rfl⟩ := setCpuShareOtherThreads_eq h1
      exact .inr (.grant (.inr ht) hrange hsum hroom)
    · contradiction
  · cases h
    exact .inl rfl

/-- **`set_cpu_share`** is a sequence of grants. -/
theorem grants_of_setCpuShare {r : Int}
    (h : s.setCpuShare c required = .ok (s', r)) : Relation.ReflTransGen (GrantStep c) s s' := by
  unfold setCpuShare at h
  simp only at h
  split at h
  · contradiction
  split at h
  · cases h
    exact .refl
  next hrange =>
  split at h
  · cases h
    exact .refl
  next hsum =>
  obtain ⟨s1, h1, h⟩ := bind_eq_ok.mp h
  obtain ⟨rfl, hroom⟩ := granted_of_pushIfNew (s :=
    { s with
      ptable := { s.ptable with
        sumCpuShare := s.sumWith c (ownShare (s.proc c) required) } }) h1
  have hself : GrantStep c s (s.grant c (ownShare (s.proc c) required)
      (ownShare (s.proc c) required)) :=
    .grant (.inl rfl) (not_not.mp hrange) (Int32.not_lt.mp hsum) hroom
  split at h
  · obtain ⟨s2, h2, h⟩ := bind_eq_ok.mp h
    cases h
    refine forEach_inv (Relation.ReflTransGen (GrantStep c) s)
      (fun t _ a b ha hb => ?_) h2 (.single hself)
    rcases grantStep_setCpuShareThread hb with rfl | hstep
    · exact ha
    · exact ha.tail hstep
  · cases h
    exact .single hself

theorem grant_proc_of_ne (s : Kernel) (required original : Int32) (hq : q ≠ p) :
    (s.grant p required original).proc q = s.proc q :=
  PTable.granted_proc_of_ne _ required original hq

theorem grant_proc_same (s : Kernel) (p : Slot) (required original : Int32) :
    (s.grant p required original).proc p =
      { s.proc p with
        cpuShare := required
        originalCpuShare := original
        stride := NSTRIDE / required
        strideCount :=
          if (s.proc p).cpuShare = 0 then s.ptable.entryPass p else (s.proc p).strideCount } :=
  PTable.granted_proc_same _ p required original

theorem grant_proc (s : Kernel) (p q : Slot) (required original : Int32) :
    ∃ share orig stride count, (s.grant p required original).proc q =
      { s.proc q with
        cpuShare := share, originalCpuShare := orig, stride := stride, strideCount := count } := by
  by_cases hq : q = p
  · subst hq
    exact ⟨_, _, _, _, grant_proc_same s q required original⟩
  · exact ⟨_, _, _, _, grant_proc_of_ne s required original hq⟩

theorem grant_queue_of_share (required original : Int32) (hp : (s.proc p).cpuShare ≠ 0) :
    (s.grant p required original).ptable.strideQueue = s.ptable.strideQueue ∧
      (s.grant p required original).ptable.strideQueueSize = s.ptable.strideQueueSize := by
  unfold grant PTable.granted
  rw [if_neg (show ¬ (s.ptable.proc p).cpuShare = 0 from hp)]
  exact ⟨rfl, rfl⟩

/-! ## The end of thread_create -/

/-- The share of every thread after `thread_create` by `c`, with the new thread
counted. -/
def dividedShare (s : Kernel) (c : Slot) : Int32 :=
  (s.proc c).originalCpuShare / Int32.ofInt ((s.proc c).numOfThreads + 1)

/-- The new thread `np` gets its part of the share of `c`; the sum stays. -/
def grantThread (s : Kernel) (c np : Slot) : Kernel :=
  { s with ptable := s.ptable.granted np (s.dividedShare c) (s.proc c).originalCpuShare }

theorem grantThread_proc_of_ne (s : Kernel) {np : Slot} (hq : q ≠ np) :
    (s.grantThread c np).proc q = s.proc q :=
  PTable.granted_proc_of_ne _ _ _ hq

theorem grantThread_proc_same (s : Kernel) (c np : Slot) :
    (s.grantThread c np).proc np =
      { s.proc np with
        cpuShare := s.dividedShare c
        originalCpuShare := (s.proc c).originalCpuShare
        stride := NSTRIDE / s.dividedShare c
        strideCount :=
          if (s.proc np).cpuShare = 0 then s.ptable.entryPass np else (s.proc np).strideCount } :=
  PTable.granted_proc_same _ np _ _

theorem grantThread_proc (s : Kernel) (c np q : Slot) :
    ∃ share orig stride count, (s.grantThread c np).proc q =
      { s.proc q with
        cpuShare := share, originalCpuShare := orig, stride := stride, strideCount := count } := by
  by_cases hq : q = np
  · subst hq
    exact ⟨_, _, _, _, grantThread_proc_same s c q⟩
  · exact ⟨_, _, _, _, grantThread_proc_of_ne s hq⟩

/-- The loop over the group changes the share and the stride of its members. -/
theorem foldl_shareThread (c : Slot) (share : Int32) (l : List Slot) (s : Kernel) (q : Slot) :
    (l.foldl (shareThread c share) s).proc q =
      if q ∈ l ∧ (s.proc q).pid = (s.proc c).pid then
        { s.proc q with cpuShare := share, stride := NSTRIDE / share }
      else s.proc q := by
  induction l generalizing s with
  | nil => simp
  | cons p l ih =>
    have hpid : ∀ q, ((shareThread c share s p).proc q).pid = (s.proc q).pid :=
      (sharesOnly_shareThread c share s p).view fun _ _ _ _ _ => rfl
    rw [List.foldl_cons, ih, hpid, hpid]
    by_cases hq : (s.proc q).pid = (s.proc c).pid
    · by_cases hqp : q = p
      · subst hqp
        simp [shareThread, hq]
      have hsame : (shareThread c share s p).proc q = s.proc q := by
        unfold shareThread
        split
        · exact upd_proc_of_ne s _ hqp
        · rfl
      simp [hqp, hsame]
    · have hsame : (shareThread c share s p).proc q = s.proc q := by
        unfold shareThread
        split
        · next hp => exact upd_proc_of_ne s _ fun hqp => hq (hqp ▸ hp)
        · rfl
      simp [hq, hsame]

theorem foldl_shareThread_rest (c : Slot) (share : Int32) (l : List Slot) (s : Kernel) :
    ∃ pr, l.foldl (shareThread c share) s = { s with ptable := { s.ptable with proc := pr } } := by
  induction l generalizing s with
  | nil => exact ⟨_, rfl⟩
  | cons p l ih =>
    obtain ⟨pr, hpr⟩ := ih (shareThread c share s p)
    refine ⟨pr, hpr.trans ?_⟩
    unfold shareThread
    split
    · rfl
    · rfl

/-- The end of `thread_create` by a process with a share: the new thread is
granted its part, and everybody else of the group gets as much. -/
theorem shareWithThread_eq {np : Slot} (h : s.shareWithThread c np = .ok s') :
    (s.proc c).cpuShare = 0 ∧ s' = s ∨
      (s.proc c).cpuShare ≠ 0 ∧ ShareInRange (s.dividedShare c) ∧
      ((s.proc np).cpuShare = 0 → s.QueueRoom) ∧
      s' = slots.foldl (shareThread c (s.dividedShare c)) (s.grantThread c np) := by
  unfold shareWithThread at h
  split at h
  · next hc =>
    split at h
    · contradiction
    obtain ⟨⟨s1, r⟩, h1, h⟩ := bind_eq_ok.mp h
    split at h
    · next hr =>
      cases hr
      simp only [pure_eq_ok, Except.ok.injEq] at h
      subst h
      unfold setCpuShareInThreadCreate at h1
      split at h1
      · cases h1
      next hrange =>
      obtain ⟨s2, h2, h1⟩ := bind_eq_ok.mp h1
      cases h1
      obtain ⟨rfl, hroom⟩ := granted_of_pushIfNew h2
      exact .inr ⟨hc, not_not.mp hrange, hroom, rfl⟩
    · contradiction
  · next hc =>
    cases h
    exact .inl ⟨not_not.mp hc, rfl⟩

end Kernel
end Xv6
