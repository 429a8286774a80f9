import Xv6.Exit

/-!
# Xv6.Effects

What the helpers of the system calls change, and what they leave alone.

Closing, copying and waking only touches open files, the free list and
sleeping processes (`FilesOnly`).  A process that ends also leaves the stride
queue and passes its children to init (`Minor`, `Died`).
-/

namespace Xv6

open Lib Function

variable {r : Int} {required : Int32} {s s' s1 s2 : Kernel} {c cur p : Slot}

/-- A sleeping process may have been woken. -/
def Woken (st st' : ProcState) : Prop := st' = st ∨ st = .sleeping ∧ st' = .runnable

theorem Woken.refl (st : ProcState) : Woken st st := .inl rfl

theorem Woken.trans {a b c : ProcState} (hab : Woken a b) (hbc : Woken b c) : Woken a c := by
  unfold Woken at *
  grind

namespace Kernel

/-! ## Open files -/

/-- `s'` differs from `s` in the open files and the current directory of `p`,
in the tables behind them, in the free list and in woken sleepers. -/
def FilesOnly (p : Slot) (s s' : Kernel) : Prop :=
  ∃ proc ftable icache pipes freelist,
    s' = { s with
      ptable := { s.ptable with proc := proc }
      ftable := ftable
      icache := icache
      pipes := pipes
      freelist := freelist } ∧
    ∀ q, ∃ st of wd,
      proc q = { s.proc q with state := st, ofile := of, cwd := wd } ∧
      Woken (s.proc q).state st ∧
      (q ≠ p → of = (s.proc q).ofile ∧ wd = (s.proc q).cwd)

theorem FilesOnly.refl (p : Slot) (s : Kernel) : FilesOnly p s s :=
  ⟨s.ptable.proc, s.ftable, s.icache, s.pipes, s.freelist, rfl,
    fun _ => ⟨_, _, _, rfl, .refl _, fun _ => ⟨rfl, rfl⟩⟩⟩

theorem FilesOnly.trans (h1 : FilesOnly p s s1) (h2 : FilesOnly p s1 s2) : FilesOnly p s s2 := by
  obtain ⟨pr1, ft1, ic1, pp1, fr1, rfl, hq1⟩ := h1
  obtain ⟨pr2, ft2, ic2, pp2, fr2, rfl, hq2⟩ := h2
  refine ⟨pr2, ft2, ic2, pp2, fr2, rfl, fun q => ?_⟩
  obtain ⟨st1, of1, wd1, h1, hw1, hf1⟩ := hq1 q
  obtain ⟨st2, of2, wd2, h2, hw2, hf2⟩ := hq2 q
  simp only [proc] at h2 hw2 hf2
  rw [h1] at h2 hw2 hf2
  refine ⟨st2, of2, wd2, h2, hw1.trans hw2, fun hne => ?_⟩
  rw [(hf2 hne).1, (hf2 hne).2]
  exact hf1 hne

theorem filesOnly_wakeup1 (p : Slot) (s : Kernel) (chan : Chan) :
    FilesOnly p s (s.wakeup1 chan) := by
  refine ⟨_, s.ftable, s.icache, s.pipes, s.freelist, rfl, fun q => ?_⟩
  by_cases h : (s.proc q).state = .sleeping ∧ (s.proc q).chan = chan
  · exact ⟨.runnable, _, _, by rw [if_pos h], .inr ⟨h.1, rfl⟩, fun _ => ⟨rfl, rfl⟩⟩
  · exact ⟨_, _, _, by rw [if_neg h], .refl _, fun _ => ⟨rfl, rfl⟩⟩

theorem filesOnly_upd (p : Slot) (s : Kernel) (of : Proc → Fin NOFILE → Option FileId)
    (wd : Proc → Option InodeId) :
    FilesOnly p s (s.upd p fun x => { x with ofile := of x, cwd := wd x }) := by
  refine ⟨_, s.ftable, s.icache, s.pipes, s.freelist, rfl, fun q => ?_⟩
  by_cases hq : q = p
  · subst hq
    exact ⟨_, _, _, update_self .., .refl _, fun hne => absurd rfl hne⟩
  · exact ⟨_, _, _, update_of_ne hq .., .refl _, fun _ => ⟨rfl, rfl⟩⟩

theorem filesOnly_tables (p : Slot) (s : Kernel) (ft : FileId → File) (ic : InodeId → Inode)
    (pp : Frame → Pipe) (fr : List Frame) :
    FilesOnly p s { s with ftable := ft, icache := ic, pipes := pp, freelist := fr } :=
  ⟨_, ft, ic, pp, fr, rfl, fun _ => ⟨_, _, _, rfl, .refl _, fun _ => ⟨rfl, rfl⟩⟩⟩

theorem filesOnly_pipeclose (p : Slot) (s : Kernel) (pi : Frame) (writable : Bool) :
    FilesOnly p s (s.pipeclose pi writable) := by
  unfold pipeclose
  have hopen : ∀ pp chan, FilesOnly p s (wakeup1 { s with pipes := pp } chan) := fun pp chan =>
    (filesOnly_tables p s s.ftable s.icache pp s.freelist).trans (filesOnly_wakeup1 p _ chan)
  cases writable with
  | true =>
    simp only [if_true]
    split
    · exact (hopen _ _).trans (filesOnly_tables p _ _ _ _ _)
    · exact hopen _ _
  | false =>
    simp only [Bool.false_eq_true, if_false]
    split
    · exact (hopen _ _).trans (filesOnly_tables p _ _ _ _ _)
    · exact hopen _ _

theorem filesOnly_iput (p : Slot) (s : Kernel) (ip : Option InodeId) :
    FilesOnly p s (s.iput ip) := by
  cases ip with
  | none => exact .refl p s
  | some ip => exact filesOnly_tables p s _ _ _ _

theorem filesOnly_idup (p : Slot) (s : Kernel) (ip : Option InodeId) :
    FilesOnly p s (s.idup ip) := by
  cases ip with
  | none => exact .refl p s
  | some ip => exact filesOnly_tables p s _ _ _ _

theorem filesOnly_fileclose (p : Slot) {f : FileId} (h : s.fileclose f = .ok s') :
    FilesOnly p s s' := by
  unfold fileclose at h
  simp only at h
  split at h
  · contradiction
  split at h
  · cases h
    exact filesOnly_tables p s _ _ _ _
  have hlast := filesOnly_tables p s (update s.ftable f
    { s.ftable f with ref := 0, kind := .none }) s.icache s.pipes s.freelist
  split at h
  · cases h
    exact hlast
  · cases h
    exact hlast.trans (filesOnly_pipeclose p _ _ _)
  · cases h
    exact (hlast.trans (filesOnly_iput p _ _)).trans (filesOnly_wakeup1 p _ _)

theorem filesOnly_filedup (p : Slot) {f : FileId} (h : s.filedup f = .ok s') :
    FilesOnly p s s' := by
  unfold filedup at h
  simp only at h
  split at h
  · contradiction
  · cases h
    exact filesOnly_tables p s _ _ _ _

theorem filesOnly_closeFd (p : Slot) {fd : Fin NOFILE}
    (h : closeFd p s fd = .ok s') : FilesOnly p s s' := by
  unfold closeFd at h
  split at h
  · cases h
    exact .refl p s
  obtain ⟨_, _, h⟩ := bind_eq_ok.mp h
  obtain ⟨s1, h1, h⟩ := bind_eq_ok.mp h
  cases h
  exact (filesOnly_fileclose p h1).trans (filesOnly_upd p s1 _ _)

theorem filesOnly_closeAll (p : Slot) (h : s.closeAll p = .ok s') : FilesOnly p s s' := by
  obtain ⟨s1, h1, h⟩ := bind_eq_ok.mp h
  cases h
  have hloop : FilesOnly p s s1 :=
    forEach_inv (FilesOnly p s) (fun _ _ _ _ ha hb => ha.trans (filesOnly_closeFd p hb)) h1
      (.refl p s)
  exact ((hloop.trans (filesOnly_iput p _ _)).trans (filesOnly_wakeup1 p _ _)).trans
    (filesOnly_upd p _ _ _)

theorem filesOnly_dupFd (c np : Slot) {fd : Fin NOFILE}
    (h : dupFd c np s fd = .ok s') : FilesOnly np s s' := by
  unfold dupFd at h
  split at h
  · cases h
    exact .refl np s
  obtain ⟨_, _, h⟩ := bind_eq_ok.mp h
  obtain ⟨s1, h1, h⟩ := bind_eq_ok.mp h
  cases h
  exact (filesOnly_filedup np h1).trans (filesOnly_upd np s1 _ _)

theorem filesOnly_dupAll (c np : Slot) (h : s.dupAll c np = .ok s') : FilesOnly np s s' := by
  obtain ⟨s1, h1, h⟩ := bind_eq_ok.mp h
  obtain ⟨_, _, h⟩ := bind_eq_ok.mp h
  cases h
  have hloop : FilesOnly np s s1 :=
    forEach_inv (FilesOnly np s) (fun _ _ _ _ ha hb => ha.trans (filesOnly_dupFd c np hb)) h1
      (.refl np s)
  exact (hloop.trans (filesOnly_idup np _ _)).trans (filesOnly_upd np _ _ _)

/-! ## CPU shares -/

/-- `s'` differs from `s` in the stride queue and in the fields of processes
that belong to it. -/
def SharesOnly (s s' : Kernel) : Prop :=
  ∃ ptable, s' = { s with ptable := ptable } ∧
    ∀ q, ∃ share original stride count,
      ptable.proc q =
        { s.proc q with
          cpuShare := share, originalCpuShare := original, stride := stride, strideCount := count }

theorem SharesOnly.refl (s : Kernel) : SharesOnly s s :=
  ⟨s.ptable, rfl, fun _ => ⟨_, _, _, _, rfl⟩⟩

theorem SharesOnly.trans (h1 : SharesOnly s s1) (h2 : SharesOnly s1 s2) : SharesOnly s s2 := by
  obtain ⟨t1, rfl, hq1⟩ := h1
  obtain ⟨t2, rfl, hq2⟩ := h2
  refine ⟨t2, rfl, fun q => ?_⟩
  obtain ⟨a1, b1, c1, d1, h1⟩ := hq1 q
  obtain ⟨a2, b2, c2, d2, h2⟩ := hq2 q
  simp only [proc] at h2
  rw [h1] at h2
  exact ⟨a2, b2, c2, d2, h2⟩

theorem sharesOnly_upd (s : Kernel) (p : Slot) {f : Proc → Proc}
    (hf : ∀ x, ∃ share original stride, f x =
      { x with cpuShare := share, originalCpuShare := original, stride := stride }) :
    SharesOnly s (s.upd p f) := by
  refine ⟨_, rfl, fun q => ?_⟩
  by_cases hq : q = p
  · subst hq
    obtain ⟨a, b, c, h⟩ := hf (s.proc q)
    exact ⟨a, b, c, _, (update_self ..).trans h⟩
  · exact ⟨_, _, _, _, update_of_ne hq ..⟩

theorem sharesOnly_sum (s : Kernel) (sum : Int32) :
    SharesOnly s { s with ptable := { s.ptable with sumCpuShare := sum } } :=
  ⟨_, rfl, fun _ => ⟨_, _, _, _, rfl⟩⟩

theorem sharesOnly_pushIfNew {isNew : Bool}
    (h : s.pushIfNew p isNew = .ok s') : SharesOnly s s' := by
  unfold pushIfNew strideQueuePush at h
  split at h
  · split at h
    · cases h
      refine ⟨_, rfl, fun q => ?_⟩
      unfold PTable.strideQueuePush
      split
      · by_cases hq : q = p
        · subst hq
          exact ⟨_, _, _, _, update_self ..⟩
        · exact ⟨_, _, _, _, update_of_ne hq ..⟩
      · exact ⟨_, _, _, _, rfl⟩
    · contradiction
  · cases h
    exact .refl s

theorem sharesOnly_setCpuShareInThreadCreate {m : Slot}
    (h : s.setCpuShareInThreadCreate required p m = .ok (s', r)) : SharesOnly s s' := by
  unfold setCpuShareInThreadCreate at h
  split at h
  · cases h
    exact .refl s
  · obtain ⟨s1, h1, h⟩ := bind_eq_ok.mp h
    cases h
    exact (sharesOnly_upd s p fun x => ⟨_, _, _, rfl⟩).trans (sharesOnly_pushIfNew h1)

theorem sharesOnly_setCpuShareOtherThreads {t : Slot}
    (h : s.setCpuShareOtherThreads c required t = .ok (s', r)) : SharesOnly s s' := by
  unfold setCpuShareOtherThreads at h
  simp only at h
  split at h
  · cases h
    exact .refl s
  split at h
  · cases h
    exact .refl s
  obtain ⟨s1, h1, h⟩ := bind_eq_ok.mp h
  cases h
  exact ((sharesOnly_sum s _).trans (sharesOnly_upd _ t fun x => ⟨_, _, _, rfl⟩)).trans
    (sharesOnly_pushIfNew h1)

theorem sharesOnly_setCpuShareThread {t : Slot} (h : setCpuShareThread c required s t = .ok s') :
    SharesOnly s s' := by
  unfold setCpuShareThread at h
  split at h
  · obtain ⟨⟨s1, r⟩, h1, h⟩ := bind_eq_ok.mp h
    split at h
    · next hr =>
      cases h
      cases hr
      exact sharesOnly_setCpuShareOtherThreads h1
    · contradiction
  · cases h
    exact .refl s

theorem sharesOnly_setCpuShare (h : s.setCpuShare c required = .ok (s', r)) : SharesOnly s s' := by
  unfold setCpuShare at h
  simp only at h
  split at h
  · contradiction
  split at h
  · cases h
    exact .refl s
  split at h
  · cases h
    exact .refl s
  obtain ⟨s1, h1, h⟩ := bind_eq_ok.mp h
  have hs1 : SharesOnly s s1 :=
    ((sharesOnly_sum s _).trans (sharesOnly_upd _ c fun x => ⟨_, _, _, rfl⟩)).trans
      (sharesOnly_pushIfNew h1)
  split at h
  · obtain ⟨s2, h2, h⟩ := bind_eq_ok.mp h
    cases h
    exact forEach_inv (SharesOnly s)
      (fun _ _ _ _ ha hb => ha.trans (sharesOnly_setCpuShareThread hb)) h2 hs1
  · cases h
    exact hs1

theorem sharesOnly_shareThread (c : Slot) (share : Int32) (s : Kernel) (p : Slot) :
    SharesOnly s (shareThread c share s p) := by
  unfold shareThread
  split
  · exact sharesOnly_upd s p fun x => ⟨_, _, _, rfl⟩
  · exact .refl s

theorem sharesOnly_shareWithThread {np : Slot}
    (h : s.shareWithThread c np = .ok s') : SharesOnly s s' := by
  unfold shareWithThread at h
  split at h
  · split at h
    · contradiction
    obtain ⟨⟨s1, r⟩, h1, h⟩ := bind_eq_ok.mp h
    split at h
    · next hr =>
      cases hr
      simp only [pure_eq_ok, Except.ok.injEq] at h
      subst h
      have hfold : ∀ (l : List Slot) (k : Kernel) (share : Int32),
          SharesOnly k (l.foldl (shareThread c share) k) := by
        intro l
        induction l with
        | nil => exact fun k _ => .refl k
        | cons p l ih =>
          exact fun k share => (sharesOnly_shareThread c share k p).trans (ih _ _)
      exact (sharesOnly_setCpuShareInThreadCreate h1).trans (hfold _ _ _)
    · contradiction
  · cases h
    exact .refl s

/-! ## Ending -/

/-- `s'` differs from `s` in the stride queue, in the open files, the current
directory and the return value of `p`, in the tables behind them, in the free
list and in woken sleepers. -/
def Minor (p : Slot) (s s' : Kernel) : Prop :=
  ∃ proc queue size sum ftable icache pipes freelist junk,
    s' = { s with
      ptable := { s.ptable with
        proc := proc, strideQueue := queue, strideQueueSize := size, sumCpuShare := sum }
      ftable := ftable
      icache := icache
      pipes := pipes
      freelist := freelist
      junk := junk } ∧
    ∀ q, ∃ st of wd tr,
      proc q = { s.proc q with state := st, ofile := of, cwd := wd, threadReturn := tr } ∧
      Woken (s.proc q).state st ∧
      (q ≠ p → of = (s.proc q).ofile ∧ wd = (s.proc q).cwd ∧ tr = (s.proc q).threadReturn)

theorem FilesOnly.minor (h : FilesOnly p s s') : Minor p s s' := by
  obtain ⟨pr, ft, ic, pp, fr, rfl, hq⟩ := h
  refine ⟨pr, _, _, _, ft, ic, pp, fr, _, rfl, fun q => ?_⟩
  obtain ⟨st, of, wd, h, hw, hf⟩ := hq q
  exact ⟨st, of, wd, _, h, hw, fun hne => ⟨(hf hne).1, (hf hne).2, rfl⟩⟩

theorem Minor.trans (h1 : Minor p s s1) (h2 : Minor p s1 s2) : Minor p s s2 := by
  obtain ⟨pr1, qu1, n1, v1, ft1, ic1, pp1, fr1, j1, rfl, hq1⟩ := h1
  obtain ⟨pr2, qu2, n2, v2, ft2, ic2, pp2, fr2, j2, rfl, hq2⟩ := h2
  refine ⟨pr2, qu2, n2, v2, ft2, ic2, pp2, fr2, j2, rfl, fun q => ?_⟩
  obtain ⟨st1, of1, wd1, tr1, h1, hw1, hf1⟩ := hq1 q
  obtain ⟨st2, of2, wd2, tr2, h2, hw2, hf2⟩ := hq2 q
  simp only [proc] at h2 hw2 hf2
  rw [h1] at h2 hw2 hf2
  refine ⟨st2, of2, wd2, tr2, h2, hw1.trans hw2, fun hne => ?_⟩
  rw [(hf2 hne).1, (hf2 hne).2.1, (hf2 hne).2.2]
  exact hf1 hne

theorem minor_threadReturn (p : Slot) (s : Kernel) (retval : Nat) :
    Minor p s (s.upd p fun x => { x with threadReturn := retval }) := by
  refine ⟨_, _, _, _, s.ftable, s.icache, s.pipes, s.freelist, s.junk, rfl, fun q => ?_⟩
  by_cases hq : q = p
  · subst hq
    exact ⟨_, _, _, _, update_self .., .refl _, fun hne => absurd rfl hne⟩
  · exact ⟨_, _, _, _, update_of_ne hq .., .refl _, fun _ => ⟨rfl, rfl, rfl⟩⟩

theorem leaveStride_eq (h : s.leaveStride cur p = .ok s') :
    ∃ queue size sum junk, s' = { s with
      ptable := { s.ptable with strideQueue := queue, strideQueueSize := size, sumCpuShare := sum }
      junk := junk } := by
  unfold leaveStride at h
  split at h
  · obtain ⟨_, _, h⟩ := bind_eq_ok.mp h
    obtain ⟨t, ht, h⟩ := bind_eq_ok.mp h
    obtain ⟨queue, size, sum, rfl⟩ := PTable.strideQueueDelete_eq ht
    cases h
    exact ⟨queue, size, sum, _, rfl⟩
  · cases h
    exact ⟨_, _, _, _, rfl⟩

theorem minor_leaveStride (h : s.leaveStride cur p = .ok s') (q : Slot) : Minor q s s' := by
  obtain ⟨queue, size, sum, junk, rfl⟩ := leaveStride_eq h
  exact ⟨_, queue, size, sum, _, _, _, _, junk, rfl,
    fun _ => ⟨_, _, _, _, rfl, .refl _, fun _ => ⟨rfl, rfl, rfl⟩⟩⟩

/-- The parent of a child of `parent` after `p` has ended. -/
def heir (initproc p : Slot) (parent : Option Slot) : Option Slot :=
  if parent = some p then some initproc else parent

/-- The children of `p` among `qs` belong to init. -/
def reparentIn (s : Kernel) (p : Slot) (qs : List Slot) : Kernel :=
  { s with
    ptable := { s.ptable with
      proc := fun q =>
        { s.proc q with
          parent := if q ∈ qs then heir s.initproc p (s.proc q).parent
            else (s.proc q).parent } } }

/-- All children of `p` belong to init. -/
def reparent (s : Kernel) (p : Slot) : Kernel := s.reparentIn p slots

theorem FilesOnly.reparentIn (h : FilesOnly p s s') (qs : List Slot) :
    FilesOnly p (s.reparentIn p qs) (s'.reparentIn p qs) := by
  obtain ⟨pr, ft, ic, pp, fr, rfl, hq⟩ := h
  refine ⟨_, ft, ic, pp, fr, rfl, fun q => ?_⟩
  obtain ⟨st, of, wd, h, hw, hf⟩ := hq q
  refine ⟨st, of, wd, ?_, hw, hf⟩
  simp only [proc, Kernel.reparentIn] at h ⊢
  rw [h]

theorem Minor.reparentIn (h : Minor p s s') (qs : List Slot) :
    Minor p (s.reparentIn p qs) (s'.reparentIn p qs) := by
  obtain ⟨pr, qu, n, v, ft, ic, pp, fr, j, rfl, hq⟩ := h
  refine ⟨_, qu, n, v, ft, ic, pp, fr, j, rfl, fun q => ?_⟩
  obtain ⟨st, of, wd, tr, h, hw, hf⟩ := hq q
  refine ⟨st, of, wd, tr, ?_, hw, hf⟩
  simp only [proc, Kernel.reparentIn] at h ⊢
  rw [h]

/-- One turn of the loop over the children, in front of the rest of it. -/
theorem filesOnly_passChild (p : Slot) (s : Kernel) (q : Slot) (qs : List Slot) :
    FilesOnly p (s.reparentIn p (q :: qs)) ((passChild p s q).reparentIn p qs) := by
  by_cases hq : (s.proc q).parent = some p
  · have hupd : (s.upd q fun x => { x with parent := some s.initproc }).reparentIn p qs =
        s.reparentIn p (q :: qs) := by
      simp only [Kernel.reparentIn, upd, PTable.setProc, Kernel.mk.injEq, PTable.mk.injEq,
        and_true]
      funext r
      by_cases hr : r = q
      · subst hr
        simp only [proc] at hq
        simp [proc, heir, hq]
      · simp [proc, hr]
    simp only [passChild, if_pos hq]
    rw [← hupd]
    split
    · exact (filesOnly_wakeup1 p _ _).reparentIn qs
    · exact .refl _ _
  · have hskip : s.reparentIn p (q :: qs) = s.reparentIn p qs := by
      simp only [Kernel.reparentIn, Kernel.mk.injEq, PTable.mk.injEq, and_true]
      funext r
      by_cases hr : r = q
      · subst hr
        simp [heir, hq]
      · simp [hr]
    simp only [passChild, if_neg hq, hskip]
    exact .refl _ _

theorem filesOnly_foldl_passChild (p : Slot) (qs : List Slot) (s : Kernel) :
    FilesOnly p (s.reparentIn p qs) (qs.foldl (passChild p) s) := by
  induction qs generalizing s with
  | nil =>
    have hnil : s.reparentIn p [] = s := by simp [Kernel.reparentIn, proc]
    rw [hnil]
    exact .refl p s
  | cons q qs ih => exact (filesOnly_passChild p s q qs).trans (ih _)

theorem filesOnly_passChildren (p : Slot) (s : Kernel) :
    FilesOnly p (s.reparent p) (s.passChildren p) :=
  filesOnly_foldl_passChild p slots s

/-- What `common_exit` and `thread_exit` come to: `p` is a zombie, its
children belong to init, and the rest is files, queue and sleepers. -/
def Died (p : Slot) (s s' : Kernel) : Prop :=
  ∃ s1, Minor p (s.reparent p) s1 ∧ s' = s1.upd p fun x => { x with state := .zombie }

theorem died_commonExit (h : s.commonExit cur p = .ok s') : Died p s s' := by
  obtain ⟨s1, h1, h⟩ := bind_eq_ok.mp h
  obtain ⟨s2, h2, h⟩ := bind_eq_ok.mp h
  cases h
  have hm : Minor p s (s2.wakeup1 (.ofPtr (s2.proc p).parent)) :=
    ((filesOnly_closeAll p h1).minor.trans (minor_leaveStride h2 p)).trans
      (filesOnly_wakeup1 p _ _).minor
  exact ⟨_, (hm.reparentIn slots).trans (filesOnly_passChildren p _).minor, rfl⟩

theorem died_threadExit {retval : Nat}
    (h : s.threadExit c retval = .ok s') : c ≠ s.initproc ∧ Died c s s' := by
  unfold threadExit at h
  split at h
  · contradiction
  next hne =>
  refine ⟨hne, ?_⟩
  obtain ⟨s1, h1, h⟩ := bind_eq_ok.mp h
  obtain ⟨s2, h2, h⟩ := bind_eq_ok.mp h
  cases h
  have hm : Minor c s (s2.wakeup1 (.ofPtr (s2.proc c).parent)) :=
    (((filesOnly_closeAll c h1).minor.trans (minor_threadReturn c s1 retval)).trans
      (minor_leaveStride h2 c)).trans (filesOnly_wakeup1 c _ _).minor
  exact ⟨_, (hm.reparentIn slots).trans (filesOnly_passChildren c _).minor, rfl⟩

/-! ## Giving up an entry -/

theorem freePgdir?_eq {g : Option PgdirId} (h : s.freePgdir? p g = .ok s') :
    ∃ free calls, s' = { s with freelist := free, freevmCalls := calls } := by
  cases g with
  | none => contradiction
  | some g =>
    obtain ⟨free, _, h⟩ := bind_eq_ok.mp h
    cases h
    exact ⟨free, _, rfl⟩

theorem kfreeKstack_eq (h : s.kfreeKstack p = .ok s') : ∃ f, (s.proc p).kstack = some f ∧
    s' = { s with freelist := f :: s.freelist }.upd p fun x => { x with kstack := none } := by
  unfold kfreeKstack at h
  split at h
  · contradiction
  · next f hf =>
    cases h
    exact ⟨f, hf, rfl⟩

/-- Dropping a reference changes counters, free pages and the record of calls. -/
theorem checkPgdirCounter_eq (h : s.checkPgdirCounterAndCallFreevm p = .ok s') :
    ∃ ref free calls, s' = { s with pgdirRef := ref, freelist := free, freevmCalls := calls } := by
  unfold checkPgdirCounterAndCallFreevm at h
  split at h
  · obtain ⟨free, calls, rfl⟩ := freePgdir?_eq h
    exact ⟨_, free, calls, rfl⟩
  split at h
  · obtain ⟨_, _, h⟩ := bind_eq_ok.mp h
    obtain ⟨free, calls, rfl⟩ := freePgdir?_eq h
    exact ⟨_, free, calls, rfl⟩
  · obtain ⟨_, _, h⟩ := bind_eq_ok.mp h
    cases h
    exact ⟨_, _, _, rfl⟩

theorem clearProc_eq {pid : Int} (h : s.clearProc p = .ok (s', pid)) :
    ∃ ref free calls, s' =
      { s with pgdirRef := ref, freelist := free, freevmCalls := calls }.upd p fun x =>
        Proc.cleared { x with kstack := none } := by
  obtain ⟨s1, h1, h⟩ := bind_eq_ok.mp h
  obtain ⟨s2, h2, h⟩ := bind_eq_ok.mp h
  cases h
  obtain ⟨ref, free, calls, rfl⟩ := checkPgdirCounter_eq h2
  obtain ⟨f, -, rfl⟩ := kfreeKstack_eq h1
  exact ⟨ref, free, calls, by simp [upd, PTable.setProc]⟩

theorem clearProc_entries {pid : Int} (h : s.clearProc p = .ok (s', pid)) :
    pid = (s.proc p).pid ∧ (s'.proc p).state = .unused ∧ ∀ q, q ≠ p → s'.proc q = s.proc q := by
  have hpid : pid = (s.proc p).pid := by
    obtain ⟨s1, -, h⟩ := bind_eq_ok.mp h
    obtain ⟨s2, -, h⟩ := bind_eq_ok.mp h
    cases h
    rfl
  obtain ⟨ref, free, calls, rfl⟩ := clearProc_eq h
  refine ⟨hpid, by simp [Proc.cleared], fun q hq => ?_⟩
  rw [upd_proc_of_ne _ _ hq]
  rfl

/-- `remove_thread_stack(p)` changes the size and the thread count of the
parent, and the memory. -/
theorem removeThreadStack_eq (h : s.removeThreadStack p = .ok s') :
    ∃ m pgdirs free, ∃ size : Nat → Nat, (s.proc p).parent = some m ∧ s' =
      { s with pgdirs := pgdirs, freelist := free }.upd m fun x =>
        { x with sz := size x.sz, numOfThreads := x.numOfThreads - 1 } := by
  obtain ⟨s1, h1, h⟩ := bind_eq_ok.mp h
  obtain ⟨_, _, h⟩ := bind_eq_ok.mp h
  unfold unmapThreadStack at h1
  split at h1
  · contradiction
  split at h1
  · split at h1
    · contradiction
    next g _ =>
    obtain ⟨⟨d, free, newsz⟩, _, h1⟩ := bind_eq_ok.mp h1
    simp only [lowerParentSz] at h1
    split at h1
    · contradiction
    next m hm =>
    cases h1
    have hparent : ((s.upd m fun x =>
        { x with sz := if newsz < x.sz then newsz else x.sz }).proc p).parent =
          some m := by
      refine Eq.trans ?_ hm
      by_cases hp : p = m
      · subst hp
        simp [proc, upd]
      · simp [proc, upd, PTable.setProc_proc_of_ne, hp]
    split at h
    · next hn => exact absurd (hn.symm.trans hparent) (by simp)
    next m' hm' =>
    have hmm : m' = m := Option.some.inj (hm'.symm.trans hparent)
    subst hmm
    cases h
    exact ⟨m', update s.pgdirs g d, free,
      fun z => if newsz < z then newsz else z, hm, by simp [upd, PTable.setProc]⟩
  · cases h1
    split at h
    · contradiction
    · next m hm =>
      cases h
      exact ⟨m, s.pgdirs, s.freelist, id, hm, rfl⟩

/-! ## Memory -/

theorem threadLock_of_acquire {u : Unit} (h : s.acquireThreadLock = .ok u) :
    s.threadLock = false := by
  unfold acquireThreadLock at h
  split at h
  · contradiction
  · next hfree => simpa using hfree

theorem forkFailed_eq (h : s.forkFailed p = .ok s') : ∃ free, s' =
    { s with freelist := free }.upd p fun x =>
      { x with pgdir := none, kstack := none, state := .unused } := by
  obtain ⟨s1, h1, h⟩ := bind_eq_ok.mp h
  cases h
  obtain ⟨f, -, rfl⟩ := kfreeKstack_eq h1
  exact ⟨f :: s.freelist, by simp [upd, PTable.setProc]⟩

theorem allocateNewPgdirIdx_eq (h : s.allocateNewPgdirIdx p = .ok s') :
    ∃ i, s.findZeroRef NPROC s.pgdirRefNextIdx = some i ∧ s' =
      { s with pgdirRefNextIdx := i + 1, pgdirRef := update s.pgdirRef i 1 }.upd p fun x =>
        { x with pgdirRefIdx := some i } := by
  obtain ⟨_, _, h⟩ := bind_eq_ok.mp h
  split at h
  · contradiction
  · next i hi =>
    cases h
    exact ⟨i, hi, rfl⟩

theorem execDropOld_eq {old : Option PgdirId} (h : s.execDropOld c old = .ok s') :
    ∃ ref free calls, s' = { s with pgdirRef := ref, freelist := free, freevmCalls := calls } := by
  unfold execDropOld at h
  split at h
  · obtain ⟨free, calls, rfl⟩ := freePgdir?_eq h
    exact ⟨_, free, calls, rfl⟩
  split at h
  · obtain ⟨_, _, h⟩ := bind_eq_ok.mp h
    obtain ⟨free, calls, rfl⟩ := freePgdir?_eq h
    exact ⟨_, free, calls, rfl⟩
  · cases h
    exact ⟨_, _, _, rfl⟩

theorem countThread_eq (h : s.countThread c = .ok s') :
    ∃ m, (if (s.proc c).tid = 0 then some c else (s.proc c).parent) = some m ∧
      s' = s.upd m fun x => { x with numOfThreads := x.numOfThreads + 1 } := by
  unfold countThread at h
  split at h
  · next ht =>
    cases h
    exact ⟨c, if_pos ht, rfl⟩
  · next ht =>
    split at h
    · contradiction
    · next m hm =>
      cases h
      exact ⟨m, (if_neg ht).trans hm, rfl⟩

theorem exec_eq {file : ExecFile} (h : s.exec c file = .ok (s', r)) :
    (∃ free, s' = { s with freelist := free }) ∨
      ∃ ref idx pgdirs next free calls pgdir sz i, s' =
        { s with
          pgdirRef := ref
          pgdirRefNextIdx := idx
          pgdirs := pgdirs
          nextPgdir := next
          freelist := free
          freevmCalls := calls }.upd c fun x =>
        { x with pgdir := pgdir, sz := sz, pgdirRefIdx := i } := by
  obtain ⟨⟨o, free⟩, -, h⟩ := bind_eq_ok.mp h
  cases o with
  | none =>
    cases h
    exact .inl ⟨free, rfl⟩
  | some img =>
    obtain ⟨s1, h1, h⟩ := bind_eq_ok.mp h
    obtain ⟨s2, h2, h⟩ := bind_eq_ok.mp h
    cases h
    obtain ⟨ref, free', calls, rfl⟩ := execDropOld_eq h1
    obtain ⟨i, -, rfl⟩ := allocateNewPgdirIdx_eq h2
    refine .inr ⟨update ref i 1, i + 1, update s.pgdirs s.nextPgdir img.1, s.nextPgdir + 1, free',
      calls, some s.nextPgdir, img.2, some i, ?_⟩
    simp [upd, newPgdir, PTable.setProc]

theorem growproc_eq {n : Int} (h : s.growproc c n = .ok (s', r)) :
    ∃ pgdirs free, ∃ size : Nat → Nat, s' =
      { s with pgdirs := pgdirs, freelist := free }.upd c fun x => { x with sz := size x.sz } := by
  have hsame : ∀ k : Kernel, k = k.upd c fun x => { x with sz := id x.sz } := fun k => by
    simp [upd, PTable.setProc]
  unfold growproc at h
  split at h
  · contradiction
  simp only [pure_eq_ok] at h
  repeat' split at h
  all_goals first
    | obtain ⟨_, -, h⟩ := bind_eq_ok.mp h
      split at h
      · cases h
        exact ⟨_, _, id, hsame _⟩
      · cases h
        exact ⟨_, _, fun _ => _, rfl⟩
    | cases h
      exact ⟨_, _, id, hsame s⟩

/-- The stack of a new thread; without memory for it the lock stays taken. -/
theorem threadStack_eq {np : Slot} {ok : Bool} (h : s.threadStack c np = .ok (s', ok)) :
    s.threadLock = false ∧ ∃ pgdirs free sz, ∃ size : Nat → Nat, s' =
      ({ s with pgdirs := pgdirs, freelist := free, threadLock := !ok }.upd np
        fun x => { x with sz := sz }).upd c fun x => { x with sz := size x.sz } := by
  obtain ⟨_, hlock, h⟩ := bind_eq_ok.mp h
  have hlock := threadLock_of_acquire hlock
  refine ⟨hlock, ?_⟩
  split at h
  · contradiction
  next g _ =>
  obtain ⟨⟨d, free, sz⟩, _, h⟩ := bind_eq_ok.mp h
  simp only at h
  split at h
  · cases h
    exact ⟨update s.pgdirs g d, free, sz, id, by simp [upd, PTable.setProc]⟩
  obtain ⟨d', _, h⟩ := bind_eq_ok.mp h
  cases h
  refine ⟨update (update s.pgdirs g d) g d', free, sz, fun _ => uint (sz + PGSIZE * (1024 - 2)), ?_⟩
  simp only [upd, Bool.not_true, ← hlock]

/-! ## Collecting -/

theorem mem_slots (p : Slot) : p ∈ slots := List.mem_finRange p

theorem scanEnd_cases (s : Kernel) (c : Slot) (havekids : Bool) (chan : Chan) :
    s.scanEnd c havekids chan = (s, .done (-1)) ∨
      s.scanEnd c havekids chan = (s.sleepOn c chan, .asleep) := by
  unfold scanEnd
  split
  · exact .inl rfl
  · exact .inr rfl

/-- A completed `thread_join` has collected one zombie, given up or gone to sleep. -/
theorem threadJoin_cases {thread : Int} {r : Scan} (h : s.threadJoin c thread = .ok (s', r)) :
    (∃ p s1 pid, (s.proc p).parent = some c ∧ (s.proc p).tid = thread ∧
      (s.proc p).state = .zombie ∧ s.removeThreadStack p = .ok s1 ∧
      s1.clearProc p = .ok (s', pid) ∧ r = .done 0) ∨
    s' = s ∧ r = .done (-1) ∨ s' = s.sleepOn c (.proc c) ∧ r = .asleep := by
  unfold threadJoin at h
  simp only at h
  split at h
  · next p hp =>
    have hp := List.find?_some hp
    simp only [decide_eq_true_eq] at hp
    obtain ⟨s1, h1, h⟩ := bind_eq_ok.mp h
    obtain ⟨⟨s2, pid⟩, h2, h⟩ := bind_eq_ok.mp h
    cases h
    exact .inl ⟨p, s1, pid, hp.1.1, hp.1.2, hp.2, h1, h2, rfl⟩
  · rcases scanEnd_cases s c (slots.any fun p =>
        decide ((s.proc p).parent = some c ∧ (s.proc p).tid = thread)) (.proc c) with he | he
    · rw [he] at h
      cases h
      exact .inr (.inl ⟨rfl, rfl⟩)
    · rw [he] at h
      cases h
      exact .inr (.inr ⟨rfl, rfl⟩)

/-- A completed scan of `wait` has collected one zombie, given up or gone to sleep. -/
theorem waitScan_cases {kid : Slot → Bool} {chan : Chan} {r : Scan}
    (h : s.waitScan c kid chan = .ok (s', r)) :
    (∃ p pid, kid p ∧ (s.proc p).state = .zombie ∧ s.clearProc p = .ok (s', pid)) ∨
    s' = s ∨ s' = s.sleepOn c chan := by
  unfold waitScan at h
  split at h
  · next p hp =>
    have hp := List.find?_some hp
    simp only [decide_eq_true_eq] at hp
    obtain ⟨⟨s1, pid⟩, h1, h⟩ := bind_eq_ok.mp h
    cases h
    exact .inl ⟨p, pid, hp.1, hp.2, h1⟩
  · rcases scanEnd_cases s c (slots.any kid) chan with he | he
    · rw [he] at h
      cases h
      exact .inr (.inl rfl)
    · rw [he] at h
      cases h
      exact .inr (.inr rfl)

/-- `wait()` collects a child that is no thread or a process that a thread has
forked, gives up or goes to sleep. -/
theorem wait_cases {r : Scan} (h : s.wait c = .ok (s', r)) :
    (∃ p pid, ((s.proc p).parent = some c ∧ (s.proc p).tid = 0 ∨
        (s.proc p).parent = (s.proc c).procForkedInThread) ∧
      (s.proc p).state = .zombie ∧ s.clearProc p = .ok (s', pid)) ∨
    s' = s ∨ ∃ chan, s' = s.sleepOn c chan := by
  unfold wait waitNormal waitThread at h
  split at h
  all_goals rcases waitScan_cases h with ⟨p, pid, hk, hz, hclear⟩ | h | h
  · exact .inl ⟨p, pid, .inl (of_decide_eq_true hk), hz, hclear⟩
  · exact .inr (.inl h)
  · exact .inr (.inr ⟨_, h⟩)
  · exact .inl ⟨p, pid, .inr (of_decide_eq_true hk), hz, hclear⟩
  · exact .inr (.inl h)
  · exact .inr (.inr ⟨_, h⟩)

/-! ## exit -/

/-- One turn of the master thread's loop skips the entry, or ends it and
joins it or something with its thread id. -/
theorem exitMasterThread_cases (h : exitMasterThread c s p = .ok s') :
    s' = s ∨ (s.proc p).pid = (s.proc c).pid ∧ (s.proc p).tid ≠ 0 ∧
      ∃ s1 r, s.commonExit c p = .ok s1 ∧
        s1.threadJoin c (s.proc p).tid = .ok (s', .done r) := by
  unfold exitMasterThread at h
  split at h
  · next hp =>
    obtain ⟨s1, h1, h⟩ := bind_eq_ok.mp h
    obtain ⟨⟨s2, r⟩, h2, h⟩ := bind_eq_ok.mp h
    cases r with
    | done r =>
      cases h
      exact .inr ⟨hp.1, hp.2, s1, r, h1, h2⟩
    | asleep => contradiction
  · cases h
    exact .inl rfl

/-- One turn of another thread's loop skips the entry, or ends and clears it. -/
theorem exitOtherThread_cases (h : exitOtherThread c s p = .ok s') :
    s' = s ∨ (s.proc p).pid = (s.proc c).pid ∧ (s.proc p).tid ≠ 0 ∧ p ≠ c ∧
      ∃ s1 s2 pid, s.removeThreadStack p = .ok s1 ∧ s1.commonExit c p = .ok s2 ∧
        s2.clearProc p = .ok (s', pid) := by
  unfold exitOtherThread at h
  split at h
  · next hp =>
    obtain ⟨s1, h1, h⟩ := bind_eq_ok.mp h
    obtain ⟨s2, h2, h⟩ := bind_eq_ok.mp h
    obtain ⟨⟨s3, pid⟩, h3, h⟩ := bind_eq_ok.mp h
    cases h
    exact .inr ⟨hp.1, hp.2.1, hp.2.2, s1, s2, pid, h1, h2, h3⟩
  · cases h
    exact .inl rfl

theorem exit_cases (h : s.exit c = .ok s') :
    c ≠ s.initproc ∧
    (((s.proc c).tid = 0 ∧ (s.proc c).numOfThreads = 0) ∧ s.commonExit c c = .ok s' ∨
     (s.proc c).tid = 0 ∧ (∃ s1, forEach (exitMasterThread c) slots s = .ok s1 ∧
        s1.commonExit c c = .ok s') ∨
     (s.proc c).tid ≠ 0 ∧ ∃ m s1 s2 s3 s4, (s.proc c).parent = some m ∧
        forEach (exitOtherThread c) slots s = .ok s1 ∧ s1.commonExit c m = .ok s2 ∧
        s2.removeThreadStack c = .ok s3 ∧ s3.commonExit c c = .ok s4 ∧
        s' = s4.upd c fun x => { x with state := .unused }) := by
  unfold exit at h
  split at h
  · contradiction
  next hc =>
  refine ⟨hc, ?_⟩
  split at h
  · next ht => exact .inl ⟨ht, h⟩
  split at h
  · next ht =>
    obtain ⟨s1, h1, h⟩ := bind_eq_ok.mp h
    exact .inr (.inl ⟨ht.1, s1, h1, h⟩)
  · split at h
    · next ht =>
      split at h
      · contradiction
      next m hm =>
      obtain ⟨s1, h1, h⟩ := bind_eq_ok.mp h
      obtain ⟨s2, h2, h⟩ := bind_eq_ok.mp h
      obtain ⟨s3, h3, h⟩ := bind_eq_ok.mp h
      obtain ⟨s4, h4, h⟩ := bind_eq_ok.mp h
      cases h
      exact .inr (.inr ⟨ht.1, m, s1, s2, s3, s4, hm, h1, h2, h3, h4, rfl⟩)
    · contradiction

section

variable {P : Kernel → Prop} (hdied : ∀ {s s' : Kernel} {p : Slot}, Died p s s' → P s → P s')
  (hstack : ∀ {s s' : Kernel} {p : Slot}, s.removeThreadStack p = .ok s' → P s → P s')
  (hclear : ∀ {s s' : Kernel} {p : Slot} {pid : Int}, s.clearProc p = .ok (s', pid) → P s → P s')
include hdied hstack hclear

/-- **Rule for `exit()`**: it keeps what its parts keep. -/
theorem exit_keeps (hunused : ∀ s, P s → P (s.upd c fun x => { x with state := .unused }))
    (h : s.exit c = .ok s') (hs : P s) : P s' := by
  have hmaster : ∀ p (k k' : Kernel), P k → exitMasterThread c k p = .ok k' → P k' := by
    intro p k k' hk hturn
    rcases exitMasterThread_cases hturn with rfl | ⟨-, -, k1, r, h1, h2⟩
    · exact hk
    have hk1 := hdied (died_commonExit h1) hk
    rcases threadJoin_cases h2 with ⟨q, k2, pid, -, -, -, h3, h4, -⟩ | ⟨rfl, -⟩ | ⟨-, hr⟩
    · exact hclear h4 (hstack h3 hk1)
    · exact hk1
    · contradiction
  have hother : ∀ p (k k' : Kernel), P k → exitOtherThread c k p = .ok k' → P k' := by
    intro p k k' hk hturn
    rcases exitOtherThread_cases hturn with rfl | ⟨-, -, -, k1, k2, pid, h1, h2, h3⟩
    · exact hk
    · exact hclear h3 (hdied (died_commonExit h2) (hstack h1 hk))
  obtain ⟨-, ⟨-, hself⟩ | ⟨-, s1, h1, hself⟩ | ⟨-, m, s1, s2, s3, s4, -, h1, h2, h3, h4, rfl⟩⟩ :=
    exit_cases h
  · exact hdied (died_commonExit hself) hs
  · exact hdied (died_commonExit hself) (forEach_inv P (fun p _ k k' => hmaster p k k') h1 hs)
  · have hloop := forEach_inv P (fun p _ k k' => hother p k k') h1 hs
    exact hunused s4 (hdied (died_commonExit h4) (hstack h3 (hdied (died_commonExit h2) hloop)))

end

/-- **Rule for `exit()` by a process `c`**: what holds throughout its loop, which ends
threads and joins them, holds when it ends itself. -/
theorem exit_process {I : Kernel → Prop}
    (hdie : ∀ {k k' : Kernel} {p : Slot}, I k → (k.proc p).pid = (k.proc c).pid →
      (k.proc p).tid ≠ 0 → k.commonExit c p = .ok k' → I k')
    (hjoin : ∀ {k k1 k' : Kernel} {p : Slot} {pid : Int}, I k → (k.proc p).parent = some c →
      (k.proc p).tid ≠ 0 → (k.proc p).state = .zombie → k.removeThreadStack p = .ok k1 →
      k1.clearProc p = .ok (k', pid) → I k')
    (htid : (s.proc c).tid = 0) (h : s.exit c = .ok s') (hs : I s) :
    c ≠ s.initproc ∧ ∃ k, I k ∧ k.commonExit c c = .ok s' := by
  have hturn : ∀ p (k k' : Kernel), I k → exitMasterThread c k p = .ok k' → I k' := by
    intro p k k' hk hturn
    rcases exitMasterThread_cases hturn with rfl | ⟨hpid, hp, k1, r, h1, h2⟩
    · exact hk
    have hk1 := hdie hk hpid hp h1
    rcases threadJoin_cases h2 with ⟨q, k2, pid, hq, ht, hz, h3, h4, -⟩ | ⟨rfl, -⟩ | ⟨-, hr⟩
    · exact hjoin hk1 hq (by rw [ht]; exact hp) hz h3 h4
    · exact hk1
    · contradiction
  obtain ⟨hinit, ⟨-, hself⟩ | ⟨-, s1, h1, hself⟩ | ⟨hthread, -⟩⟩ := exit_cases h
  · exact ⟨hinit, s, hs, hself⟩
  · exact ⟨hinit, s1, forEach_inv I (fun p _ k k' => hturn p k k') h1 hs, hself⟩
  · contradiction

end Kernel
end Xv6
