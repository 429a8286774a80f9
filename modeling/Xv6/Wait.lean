import Xv6.Threads.Unforked
import Xv6.Vm.Pages

/-!
# Xv6.Wait

What `wait()` and `kill()` tell their callers, in every state that the kernel
can reach.

A process waits for the entries whose parent it is and that are no threads; a thread
for those whose parent is its `proc_forked_in_thread`.  That pointer is null in every
thread, because `fork()` turns threads away, and so is the parent of init and of
every `UNUSED` entry.

`kill()` stops at the first entry with the process id, which all threads of a
process have in common.
-/

namespace Xv6

open Lib

namespace Kernel

variable {s s' : Kernel}

/-! ## wait -/

/-- `p` is a child process of `c`. -/
def ChildOf (s : Kernel) (c p : Slot) : Prop := (s.proc p).tid = 0 ∧ (s.proc p).parent = some c

instance (s : Kernel) (c : Slot) : DecidablePred (s.ChildOf c) :=
  fun _ => inferInstanceAs (Decidable (_ ∧ _))

/-- `p` has no parent, like init and an entry that nobody uses. -/
def Parentless (s : Kernel) (p : Slot) : Prop := (s.proc p).parent = none

instance (s : Kernel) : DecidablePred s.Parentless := fun _ => inferInstanceAs (Decidable (_ = _))

variable {c : Slot} {r : Scan}

section

variable {kid : Slot → Prop}

/-- `wait()` by `c` went from `s` to `s'` with the result `r`, and did what it
is for with the children `kid`. -/
structure Waits (s : Kernel) (c : Slot) (kid : Slot → Prop) (s' : Kernel) (r : Scan) : Prop where
  fails : r = .done (-1) ↔ (∀ p, ¬ kid p) ∨
    (s.proc c).killed ∧ ∀ p, kid p → (s.proc p).state ≠ .zombie
  collects : ∀ pid, r = .done pid → pid ≠ -1 → ∃ p, kid p ∧ (s.proc p).state = .zombie ∧
    (s.proc p).pid = pid ∧ (s'.proc p).state = .unused ∧ ∀ q, q ≠ p → s'.proc q = s.proc q
  sleeps : r = .asleep → (∃ p, kid p) ∧ ∀ p, kid p → (s.proc p).state ≠ .zombie
  unchanged : r = .done (-1) → ∀ q, s'.proc q = s.proc q

/-- `p` is the first entry with the property `P`. -/
def First (P : Slot → Prop) (p : Slot) : Prop := P p ∧ ∀ q < p, ¬ P q

theorem find?_slots {P : Slot → Prop} [DecidablePred P] {p : Slot} :
    slots.find? (fun q => P q) = some p ↔ First P p := by
  rw [List.find?_eq_some_iff_getElem]
  simp only [slots, List.getElem_finRange, List.length_finRange, decide_eq_true_eq]
  constructor
  · rintro ⟨hp, i, hi, rfl, hbefore⟩
    refine ⟨hp, fun q hq hPq => ?_⟩
    have hnot := hbefore q hq
    simp [hPq] at hnot
  · intro h
    refine ⟨h.1, p, p.isLt, rfl, fun j hj => ?_⟩
    have hnot := h.2 ⟨j, hj.trans p.isLt⟩ hj
    simpa using hnot

/-- **A scan that comes to an end does what `wait()` is for**, if the pid of the zombie
it has found is not the error value. -/
theorem waits_of_waitScan [DecidablePred kid] {chan : Chan}
    (hne : ∀ p, First (fun p => kid p ∧ (s.proc p).state = .zombie) p → (s.proc p).pid ≠ -1)
    (h : s.waitScan c (fun p => kid p) chan = .ok (s', r)) : s.Waits c kid s' r := by
  unfold waitScan at h
  split at h
  · next p hp =>
    have hpid := hne p (find?_slots.mp (by simpa only [decide_eq_true_eq] using hp))
    have hp := List.find?_some hp
    simp only [decide_eq_true_eq] at hp
    obtain ⟨⟨s1, pid⟩, hclear, h⟩ := bind_eq_ok.mp h
    cases h
    obtain ⟨rfl, hunused, hother⟩ := clearProc_entries hclear
    refine ⟨⟨fun h => ?_, fun h => ?_⟩, fun pid h _ => ?_, fun h => ?_,
      fun h => absurd (Scan.done.inj h) hpid⟩
    · exact absurd (Scan.done.inj h) hpid
    · rcases h with hnone | ⟨-, hz⟩
      · exact absurd hp.1 (hnone p)
      · exact absurd hp.2 (hz p hp.1)
    · exact ⟨p, hp.1, hp.2, Scan.done.inj h, hunused, hother⟩
    · contradiction
  · next hnone =>
    have hz : ∀ p, kid p → (s.proc p).state ≠ .zombie := fun p hk hz => by
      have hnot := List.find?_eq_none.mp hnone p (mem_slots p)
      simp [hk, hz] at hnot
    have hany : (slots.any fun p => decide (kid p)) = false ↔ ∀ p, ¬ kid p := by
      simp [List.any_eq_false, mem_slots]
    rw [Except.ok.injEq, scanEnd] at h
    split at h
    · next hend =>
      cases h
      refine ⟨⟨fun _ => ?_, fun _ => rfl⟩, fun pid h hne => ?_, fun h => ?_, fun _ _ => rfl⟩
      · exact hend.imp hany.mp fun hk => ⟨hk, hz⟩
      · exact absurd (Scan.done.inj h).symm hne
      · contradiction
    · next hend =>
      cases h
      obtain ⟨hkids, hkilled⟩ := not_or.mp hend
      refine ⟨⟨fun h => ?_, fun h => ?_⟩, fun pid h => ?_, fun _ => ⟨?_, hz⟩, fun h => nomatch h⟩
      · contradiction
      · exact (hend (h.imp hany.mpr And.left)).elim
      · contradiction
      · by_contra hno
        exact hkids (hany.mpr (not_exists.mp hno))

/-- A scan that has found a zombie returns its pid and has cleared it. -/
theorem waitScan_collects [DecidablePred kid] {chan : Chan} {p : Slot}
    (hp : First (fun p => kid p ∧ (s.proc p).state = .zombie) p)
    (h : s.waitScan c (fun p => kid p) chan = .ok (s', r)) :
    r = .done (s.proc p).pid ∧ (s'.proc p).state = .unused := by
  have hfind := find?_slots.mpr hp
  rw [waitScan] at h
  simp only [decide_eq_true_eq, hfind] at h
  obtain ⟨⟨s1, pid⟩, hclear, h⟩ := bind_eq_ok.mp h
  cases h
  obtain ⟨rfl, hunused, -⟩ := clearProc_entries hclear
  exact ⟨rfl, hunused⟩

/-- `clear_proc(p)` does not stop the kernel: there is a kernel stack, `thread_lock` is free
if the page directory is counted, and the page directory that is freed if `p` is its last
user is there and maps no null page. -/
structure Clearable (s : Kernel) (p : Slot) : Prop where
  kstack : (s.proc p).kstack ≠ none
  lock : (s.proc p).pgdirRefIdx ≠ none → s.threadLock = false
  pgdir : (∀ i, (s.proc p).pgdirRefIdx = some i → s.pgdirRef i ≤ 1) →
    ∃ g, (s.proc p).pgdir = some g ∧ ∀ n < 2 ^ 19, ∀ e, (s.pgdirs g).pte n = some e → e.frame ≠ 0

theorem freePgdir?_ok_iff (s : Kernel) (p : Slot) (o : Option PgdirId) :
    (∃ s', s.freePgdir? p o = .ok s') ↔
      ∃ g, o = some g ∧ ∀ n < 2 ^ 19, ∀ e, (s.pgdirs g).pte n = some e → e.frame ≠ 0 := by
  cases o with
  | none => simp [freePgdir?]
  | some g =>
    simp only [Option.some.injEq, exists_eq_left', ← freevm_ok_iff _ s.freelist]
    constructor
    · rintro ⟨s', h⟩
      obtain ⟨free, hfree, -⟩ := bind_eq_ok.mp h
      exact ⟨free, hfree⟩
    · rintro ⟨free, hfree⟩
      exact ⟨_, by rw [freePgdir?, freePgdir, hfree]; rfl⟩

/-- The page directory of `p` can be given up. -/
theorem checkPgdirCounterAndCallFreevm_ok_iff (s : Kernel) (p : Slot) :
    (∃ s', s.checkPgdirCounterAndCallFreevm p = .ok s') ↔
      ((s.proc p).pgdirRefIdx ≠ none → s.threadLock = false) ∧
      ((∀ i, (s.proc p).pgdirRefIdx = some i → s.pgdirRef i ≤ 1) → ∃ g, (s.proc p).pgdir = some g ∧
        ∀ n < 2 ^ 19, ∀ e, (s.pgdirs g).pte n = some e → e.frame ≠ 0) := by
  unfold checkPgdirCounterAndCallFreevm
  cases hidx : (s.proc p).pgdirRefIdx with
  | none => simp [freePgdir?_ok_iff]
  | some i =>
    by_cases hlock : s.threadLock = true
    · have hacquire : s.acquireThreadLock = .error .acquire := if_pos hlock
      by_cases hle : s.pgdirRef i ≤ 1 <;> simp [hle, hacquire, hlock]
    · have hacquire : s.acquireThreadLock = .ok () := if_neg hlock
      by_cases hle : s.pgdirRef i ≤ 1
      · simp only [if_pos hle, hacquire, ok_bind]
        refine (freePgdir?_ok_iff _ p (s.proc p).pgdir).trans ?_
        simp [hle, hlock]
      · simp [hle, hacquire, hlock]

theorem clearProc_ok_iff (s : Kernel) (p : Slot) :
    (∃ r, s.clearProc p = .ok r) ↔ s.Clearable p := by
  unfold clearProc kfreeKstack
  cases hk : (s.proc p).kstack with
  | none => exact iff_of_false (fun ⟨r, h⟩ => nomatch h) fun h => h.kstack hk
  | some f =>
    have hcheck := checkPgdirCounterAndCallFreevm_ok_iff
      { s.upd p fun x => { x with kstack := none } with freelist := f :: s.freelist } p
    have hself : (Kernel.proc { s.upd p fun x => { x with kstack := none } with
        freelist := f :: s.freelist } p) = { s.proc p with kstack := none } :=
      upd_proc_same s p fun x => { x with kstack := none }
    rw [hself] at hcheck
    constructor
    · rintro ⟨r, h⟩
      obtain ⟨s0, h0, h⟩ := bind_eq_ok.mp h
      cases h0
      obtain ⟨s1, h1, -⟩ := bind_eq_ok.mp h
      obtain ⟨hlock, hpgdir⟩ := hcheck.mp ⟨s1, h1⟩
      exact ⟨by simp [hk], hlock, hpgdir⟩
    · intro h
      obtain ⟨s1, h1⟩ := hcheck.mpr ⟨h.lock, h.pgdir⟩
      exact ⟨_, bind_eq_ok.mpr ⟨_, rfl, bind_eq_ok.mpr ⟨s1, h1, rfl⟩⟩⟩

/-- A scan comes to an end unless `clear_proc` of the zombie it has found stops
the kernel. -/
theorem waitScan_ends_iff (s : Kernel) (c : Slot) (kid : Slot → Prop) [DecidablePred kid]
    (chan : Chan) :
    (∃ s' r, s.waitScan c (fun p => kid p) chan = .ok (s', r)) ↔
      ∀ p, First (fun p => kid p ∧ (s.proc p).state = .zombie) p → s.Clearable p := by
  simp only [← clearProc_ok_iff]
  unfold waitScan
  split
  · next p hp =>
    simp only [decide_eq_true_eq] at hp
    have hfirst := find?_slots.mp hp
    constructor
    · rintro ⟨s', r, h⟩ q hq
      obtain ⟨a, hclear, -⟩ := bind_eq_ok.mp h
      have hqp : some q = some p := (find?_slots.mpr hq).symm.trans hp
      cases hqp
      exact ⟨a, hclear⟩
    · intro h
      obtain ⟨⟨s1, pid⟩, hclear⟩ := h p hfirst
      exact ⟨s1, .done pid, by rw [hclear]; rfl⟩
  · next hnone =>
    refine ⟨fun _ p hp => ?_, fun _ => ⟨_, _, rfl⟩⟩
    have hnot := List.find?_eq_none.mp hnone p (mem_slots p)
    simp [hp.1.1, hp.1.2] at hnot

end

/-- `wait()` by `c` comes to the end of its scan and treats the child processes
of `c` as it should. -/
def WaitContract (s : Kernel) (c : Slot) : Prop :=
  ∃ s' r, s.wait c = .ok (s', r) ∧ s.Waits c (s.ChildOf c) s' r

/-- A thread gets the right answer if no zombie is without parent, no child is a
zombie, and being without children and there being no entry without parent come
to the same, or it has been killed. -/
def ThreadWaits (s : Kernel) (c : Slot) : Prop :=
  (∀ p, s.Parentless p → (s.proc p).state ≠ .zombie) ∧
    (∀ p, s.ChildOf c p → (s.proc p).state ≠ .zombie) ∧
    ((s.proc c).killed ∨ ((∃ p, s.ChildOf c p) ↔ ∃ p, s.Parentless p))

/-- A thread that got the answer for its children and for the entries without
parent at once. -/
theorem Waits.threadWaits (hnull : s.Waits c s.Parentless s' r)
    (hchild : s.Waits c (s.ChildOf c) s' r) : s.ThreadWaits c := by
  have hz : ∀ p, s.Parentless p → (s.proc p).state ≠ .zombie := by
    intro p hp hzp
    have hnot : r ≠ .done (-1) := fun h => by
      rcases hnull.fails.mp h with hno | ⟨-, hz⟩
      · exact hno p hp
      · exact hz p hp hzp
    cases r with
    | asleep => exact (hnull.sleeps rfl).2 p hp hzp
    | done pid =>
      -- the entry collected has a parent, and has none
      have hpid : pid ≠ -1 := fun h => hnot (h ▸ rfl)
      obtain ⟨q, hq, hqz, -, -, hqother⟩ := hnull.collects pid rfl hpid
      obtain ⟨q', hq', hqz', -, hunused, -⟩ := hchild.collects pid rfl hpid
      have hne : q' ≠ q := fun h => by
        have hsome := hq'.2
        rw [h, hq] at hsome
        contradiction
      rw [hqother q' hne, hqz'] at hunused
      contradiction
  have hzc : ∀ p, s.ChildOf c p → (s.proc p).state ≠ .zombie := by
    intro p hp hzp
    have hnot : r ≠ .done (-1) := fun h => by
      rcases hchild.fails.mp h with hno | ⟨-, hz⟩
      · exact hno p hp
      · exact hz p hp hzp
    cases r with
    | asleep => exact (hchild.sleeps rfl).2 p hp hzp
    | done pid =>
      obtain ⟨q, hq, hqz, -⟩ := hnull.collects pid rfl fun h => hnot (h ▸ rfl)
      exact hz q hq hqz
  refine ⟨hz, hzc, ?_⟩
  by_cases hk : (s.proc c).killed = true
  · exact .inl hk
  have hsame := hnull.fails.symm.trans hchild.fails
  simp only [hk, false_and, or_false, Bool.false_eq_true] at hsame
  refine .inr ?_
  simpa only [not_forall, not_not] using not_congr hsame.symm

/-- The answer for the entries without parent is right for the children. -/
theorem ThreadWaits.waits (h : s.ThreadWaits c)
    (hnull : s.Waits c s.Parentless s' r) : s.Waits c (s.ChildOf c) s' r := by
  obtain ⟨hz, hzc, hsame⟩ := h
  have hnone : (s.proc c).killed ∨ ((∀ p, ¬ s.ChildOf c p) ↔ ∀ p, ¬ s.Parentless p) :=
    hsame.imp_right fun h => by simpa only [not_exists] using not_congr h
  have hfails : r = .done (-1) ↔ (∀ p, ¬ s.ChildOf c p) ∨ (s.proc c).killed ∧
      ∀ p, s.ChildOf c p → (s.proc p).state ≠ .zombie := by
    rw [hnull.fails]
    rcases hnone with hk | hk
    · exact ⟨fun _ => .inr ⟨hk, hzc⟩, fun _ => .inr ⟨hk, hz⟩⟩
    · exact or_congr hk.symm (and_congr_right fun _ => ⟨fun _ => hzc, fun _ => hz⟩)
  refine ⟨hfails, fun pid hpid hne => ?_, fun hr => ?_, hnull.unchanged⟩
  · obtain ⟨p, hp, hzp, -⟩ := hnull.collects pid hpid hne
    exact absurd hzp (hz p hp)
  · refine ⟨?_, hzc⟩
    by_contra hno
    have hdone := hfails.mpr (.inl (not_exists.mp hno))
    rw [hr] at hdone
    contradiction

/-- **`wait()` keeps its contract** for a process if the zombie it finds can be cleared and its
pid is not the error value, and for a thread only if `ThreadWaits`. -/
theorem waitContract_iff {s : Kernel} (hforked : ∀ p, (s.proc p).procForkedInThread = none)
    (c : Slot) :
    s.WaitContract c ↔
      if (s.proc c).tid = 0 then
        ∀ p, First (fun p => s.ChildOf c p ∧ (s.proc p).state = .zombie) p →
          s.Clearable p ∧ (s.proc p).pid ≠ -1
      else s.ThreadWaits c := by
  by_cases htid : (s.proc c).tid = 0
  · have hscan : s.wait c = s.waitScan c (fun p => s.ChildOf c p) (.proc c) := by
      rw [wait, if_pos htid, waitNormal]
      congr 1
      funext p
      exact decide_eq_decide.mpr and_comm
    have hends := waitScan_ends_iff s c (s.ChildOf c) (.proc c)
    rw [if_pos htid]
    constructor
    · rintro ⟨s', r, h, hw⟩ p hp
      rw [hscan] at h
      refine ⟨hends.mp ⟨s', r, h⟩ p hp, fun hpid => ?_⟩
      rw [(waitScan_collects hp h).1, hpid] at hw
      rcases hw.fails.mp rfl with hno | ⟨-, hz⟩
      · exact hno p hp.1.1
      · exact hz p hp.1.1 hp.1.2
    · intro hall
      obtain ⟨s', r, h⟩ := hends.mpr fun p hp => (hall p hp).1
      exact ⟨s', r, hscan.trans h, waits_of_waitScan (fun p hp => (hall p hp).2) h⟩
  · have hscan : s.wait c = s.waitScan c (fun p => s.Parentless p) (.ofPtr none) := by
      rw [wait, if_neg htid, waitThread, hforked c]
      rfl
    rw [if_neg htid]
    constructor
    · rintro ⟨s', r, h, hw⟩
      rw [hscan] at h
      refine (waits_of_waitScan (fun p hp hpid => ?_) h).threadWaits hw
      -- then -1 is returned with the entry cleared
      obtain ⟨rfl, hunused⟩ := waitScan_collects hp h
      rw [hw.unchanged (congrArg Scan.done hpid) p, hp.1.2] at hunused
      contradiction
    · intro h
      have hnone : ∀ p, ¬ First (fun p => s.Parentless p ∧ (s.proc p).state = .zombie) p :=
        fun p hp => h.1 p hp.1.1 hp.1.2
      obtain ⟨s', r, hend⟩ := (waitScan_ends_iff s c s.Parentless (.ofPtr none)).mpr
        fun p hp => absurd hp (hnone p)
      exact ⟨s', r, hscan.trans hend,
        h.waits (waits_of_waitScan (fun p hp => absurd hp (hnone p)) hend)⟩

/-- The child in entry 1 has ended, and init waits. -/
theorem waitContract_forked :
    ∃ s : Kernel, s.Reachable ∧ s.ChildOf 0 1 ∧ (s.proc 1).state = .zombie ∧ s.WaitContract 0 := by
  obtain ⟨s, hr, htid, hchild, hz, hclear, hpid, honly⟩ := exists_reachableBy (fun _ _ => True)
    (P := fun s => (s.proc 0).tid = 0 ∧ s.ChildOf 0 1 ∧ (s.proc 1).state = .zombie ∧
      (s.clearProc 1).toOption.isSome ∧ (s.proc 1).pid = 2 ∧ ∀ p, s.ChildOf 0 p → p = 1)
    (List.range' 1 400) (fun _ => false) smallProgram (forked ++ [.call 1 .exit])
    (fun _ _ _ => trivial) (by decide +kernel)
  refine ⟨s, hr, hchild, hz, (waitContract_iff (unforked_of_reachable hr) 0).mpr ?_⟩
  rw [if_pos htid]
  intro p hp
  obtain rfl := honly p hp.1.1
  obtain ⟨r, hclear⟩ := Option.isSome_iff_exists.mp hclear
  exact ⟨(clearProc_ok_iff s 1).mp ⟨r, eq_ok_of_toOption hclear⟩, by rw [hpid]; decide⟩

/-- The thread in entry 2 has no child and goes to sleep. -/
theorem not_waitContract_threaded :
    ∃ s : Kernel, s.Reachable ∧ (s.proc 2).state = .running ∧ (s.proc 2).tid ≠ 0 ∧
      (∀ p, ¬ s.ChildOf 2 p) ∧ (∃ s', s.wait 2 = .ok (s', .asleep)) ∧ ¬ s.WaitContract 2 := by
  obtain ⟨s, hr, hrun, htid, hno, hsleep⟩ := exists_reachableBy (fun _ _ => True)
    (P := fun s => (s.proc 2).state = .running ∧ (s.proc 2).tid ≠ 0 ∧ (∀ p, ¬ s.ChildOf 2 p) ∧
      (s.wait 2).toOption.any fun a => a.2 = .asleep)
    (List.range' 1 400) (fun _ => false) smallProgram threaded
    (fun _ _ _ => trivial) (by decide +kernel)
  obtain ⟨⟨s', r⟩, hwait, rfl⟩ := exists_eq_ok hsleep
  refine ⟨s, hr, hrun, htid, hno, ⟨s', hwait⟩, ?_⟩
  rintro ⟨s'', r, h, hw⟩
  rw [hwait] at h
  cases h
  obtain ⟨p, hp⟩ := (hw.sleeps rfl).1
  exact hno p hp

/-! ## kill -/

/-- `kill(pid)` that returns 0 leaves an entry with that process id that runs or
is about to and is marked as killed, and it returns 0 if the process id is in
use. -/
def KillReaches (s : Kernel) (pid : Int) : Prop :=
  ((s.kill pid).2 = 0 → ∃ q, ((s.kill pid).1.proc q).pid = pid ∧
    (((s.kill pid).1.proc q).state = .runnable ∨ ((s.kill pid).1.proc q).state = .running) ∧
    ((s.kill pid).1.proc q).killed) ∧
  ((∃ q, (s.proc q).pid = pid ∧ s.Live q) → (s.kill pid).2 = 0)

/-- What `kill` writes into the entry it finds. -/
def Proc.kill (x : Proc) : Proc :=
  { x with
    killed := true
    state := if x.state = .sleeping then .runnable else x.state }

theorem kill_cases (s : Kernel) (pid : Int) :
    (∃ p, First (fun p => (s.proc p).pid = pid) p ∧ s.kill pid = (s.upd p Proc.kill, 0)) ∨
      (∀ p, (s.proc p).pid ≠ pid) ∧ s.kill pid = (s, -1) := by
  unfold kill
  split
  · next p hp => exact .inl ⟨p, find?_slots.mp hp, rfl⟩
  · next hnone =>
    refine .inr ⟨fun p hp => ?_, rfl⟩
    simpa [hp] using List.find?_eq_none.mp hnone p (mem_slots p)

/-- **`kill()` reaches a member that runs** if the first entry with the process
id can run, or one that can has been killed before. -/
theorem killReaches_iff (s : Kernel) (pid : Int) :
    s.KillReaches pid ↔ ∀ p, First (fun p => (s.proc p).pid = pid) p →
      ((s.proc p).state = .sleeping ∨ (s.proc p).state = .runnable ∨ (s.proc p).state = .running) ∨
      ∃ q, (s.proc q).pid = pid ∧
        ((s.proc q).state = .runnable ∨ (s.proc q).state = .running) ∧ (s.proc q).killed := by
  rcases kill_cases s pid with ⟨p, hp, hkill⟩ | ⟨hnone, hkill⟩
  · have hfirst : ∀ q, First (fun p => (s.proc p).pid = pid) q → q = p := fun q hq =>
      Option.some.inj ((find?_slots.mpr hq).symm.trans (find?_slots.mpr hp))
    simp only [KillReaches, hkill, implies_true, and_true, forall_const]
    constructor
    · rintro ⟨q, hq, hstate, hkilled⟩ p' hp'
      rw [hfirst p' hp']
      by_cases hqp : q = p
      · rw [hqp, upd_proc_same] at hstate
        refine .inl ?_
        simp only [Proc.kill] at hstate
        split at hstate
        · next hs => exact .inl hs
        · exact .inr hstate
      · rw [upd_proc_of_ne s Proc.kill hqp] at hq hstate hkilled
        exact .inr ⟨q, hq, hstate, hkilled⟩
    · intro h
      rcases h p hp with hstate | ⟨q, hq, hstate, hkilled⟩
      · refine ⟨p, ?_⟩
        rw [upd_proc_same]
        refine ⟨hp.1, ?_, rfl⟩
        rcases hstate with hs | hs | hs <;> simp [Proc.kill, hs]
      · by_cases hqp : q = p
        · subst hqp
          refine ⟨q, ?_⟩
          rw [upd_proc_same]
          refine ⟨hq, ?_, rfl⟩
          rcases hstate with hs | hs <;> simp [Proc.kill, hs]
        · refine ⟨q, ?_⟩
          rw [upd_proc_of_ne s Proc.kill hqp]
          exact ⟨hq, hstate, hkilled⟩
  · simp only [KillReaches, hkill]
    refine ⟨fun _ p hp => absurd hp.1 (hnone p), fun _ => ⟨fun h => absurd h (by decide), ?_⟩⟩
    rintro ⟨q, hq, -⟩
    exact absurd hq (hnone q)

/-- The process with id 3, in entry 2, gets entry 1 for a thread, which ends
and is not joined. -/
def threadBelow : List Event :=
  [.call 0 .fork, .call 0 .fork, .dispatch 1, .call 1 .exit, .call 0 .wait, .dispatch 2,
    .call 2 .threadCreate, .dispatch 1, .call 1 (.threadExit 0)]

/-- `kill(3)` marks the zombie and returns 0, and the process runs on. -/
theorem not_killReaches_threadBelow :
    ∃ s : Kernel, s.Reachable ∧ (s.proc 2).pid = 3 ∧ (s.proc 2).state = .running ∧
      (s.proc 2).tid = 0 ∧ (s.kill 3).2 = 0 ∧ ¬ s.KillReaches 3 := by
  obtain ⟨s, hr, hpid, hrun, htid, hzero, hnot⟩ := exists_reachableBy (fun _ _ => True)
    (P := fun s => (s.proc 2).pid = 3 ∧ (s.proc 2).state = .running ∧ (s.proc 2).tid = 0 ∧
      (s.kill 3).2 = 0 ∧ ∀ q, ((s.kill 3).1.proc q).pid = 3 →
        ((s.kill 3).1.proc q).state = .zombie ∨ ((s.kill 3).1.proc q).killed = false)
    (List.range' 1 400) (fun _ => false) smallProgram threadBelow
    (fun _ _ _ => trivial) (by decide +kernel)
  refine ⟨s, hr, hpid, hrun, htid, hzero, fun h => ?_⟩
  obtain ⟨q, hq, hstate, hkilled⟩ := h.1 hzero
  rcases hnot q hq with hz | hk
  · simp [hz] at hstate
  · simp [hk] at hkilled

end Kernel
end Xv6
