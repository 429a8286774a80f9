import Xv6.Exit
import Xv6.Vm.Spec

/-!
# Xv6.Panics

Which panics a call cannot end in.

Running out of page directory counters, mapping a page that is in use, the
wrong case of `exit`, a file without references and a thread without a share
have one cause each; everything that does not call it avoids them.
-/

namespace Xv6

open Lib

/-- The panics with a single cause. -/
def Panic.SingleCause (e : Panic) : Prop :=
  e ∈ [.pgdirRefFull, .remap, .exitWrongCase, .fileclose, .filedup, .threadCreateStride]

instance : DecidablePred Panic.SingleCause := fun _ => inferInstanceAs (Decidable (_ ∈ _))

/-- The panics of `fileclose` and `filedup`. -/
def Panic.OfFiles (e : Panic) : Prop := e = .fileclose ∨ e = .filedup

instance : DecidablePred Panic.OfFiles := fun _ => inferInstanceAs (Decidable (_ ∨ _))

theorem Panic.OfFiles.ne {e e' : Panic} (he : e.OfFiles) (h : ¬ e'.OfFiles) : e ≠ e' :=
  fun heq => h (heq ▸ he)

/-! ## Memory -/

section

variable {e : Panic} (he : e.SingleCause)
include he

theorem avoids_other {α : Type} {e' : Panic} (h : ¬ e'.SingleCause) :
    Avoids e (.error e' : Except Panic α) :=
  avoids_error fun heq => h (heq ▸ he)

theorem avoids_deallocuvmLoop (oldsz fuel : Nat) (d : PgDir) (free : List Frame) (a : Nat) :
    Avoids e (deallocuvmLoop oldsz fuel d free a) := by
  induction fuel generalizing d free a with
  | zero => exact avoids_ok
  | succ fuel ih =>
    unfold deallocuvmLoop
    split
    · split
      · exact ih ..
      split
      · exact ih ..
      · split
        · exact avoids_other he (by decide)
        · exact ih ..
    · exact avoids_ok

theorem avoids_deallocuvm (d : PgDir) (free : List Frame) (oldsz newsz : Nat) :
    Avoids e (deallocuvm d free oldsz newsz) := by
  unfold deallocuvm
  split
  · exact avoids_ok
  · exact (avoids_deallocuvmLoop he ..).returns

theorem avoids_freevm (d : PgDir) (free : List Frame) : Avoids e (freevm d free) :=
  (avoids_deallocuvm he ..).returns

theorem avoids_clearpteu (d : PgDir) (uva : Nat) : Avoids e (clearpteu d uva) := by
  unfold clearpteu
  split
  · exact avoids_ok
  · exact avoids_other he (by decide)

end

/-! ## The stride queue -/

namespace PTable

section

variable {e : Panic} (he : e.SingleCause)
include he

theorem avoids_strideCountOf (t : PTable) (a : Option Slot) : Avoids e (t.strideCountOf a) := by
  cases a with
  | none => exact avoids_other he (by decide)
  | some p => exact avoids_ok

theorem avoids_heapifyDownLoop (t : PTable) (p : Option Slot) (fuel : Nat) (q : Nat → Option Slot)
    (i : Nat) : Avoids e (heapifyDownLoop t p fuel q i) := by
  induction fuel generalizing q i with
  | zero => exact avoids_ok
  | succ fuel ih =>
    unfold heapifyDownLoop
    split
    · split
      · refine (avoids_strideCountOf he t p).bind fun _ => ?_
        split
        · exact ih ..
        · exact avoids_ok
      · refine (avoids_strideCountOf he t p).bind fun _ => ?_
        split <;> exact avoids_ok
      · exact avoids_ok
    · exact avoids_ok

theorem avoids_heapifyRemoved (t : PTable) (i : Nat) (junk : Bool) :
    Avoids e (t.heapifyRemoved i junk) := by
  refine Avoids.bind ?_ fun up => ?_
  · unfold heapifyUpFlag
    split
    · exact avoids_ok
    split
    · exact (avoids_strideCountOf he ..).bind fun _ =>
        (avoids_strideCountOf he ..).returns
    · exact avoids_ok
  · split
    · exact avoids_ok
    · split
      · exact (avoids_heapifyDownLoop he ..).returns
      · exact avoids_ok

theorem avoids_strideQueueDelete (t : PTable) (cur p : Slot) (junk : Bool) :
    Avoids e (t.strideQueueDelete cur p junk) := by
  unfold strideQueueDelete
  dsimp only
  split
  · exact avoids_other he (by decide)
  · split
    · exact avoids_other he (by decide)
    · exact avoids_heapifyRemoved he ..

end

end PTable

/-! ## Calls that touch no counter and map no page -/

namespace Kernel

section

variable {e : Panic} (he : e.SingleCause) (s : Kernel)
include he

theorem avoids_acquireThreadLock : Avoids e s.acquireThreadLock := by
  unfold acquireThreadLock
  split
  · exact avoids_other he (by decide)
  · exact avoids_ok

theorem avoids_kfreeKstack (p : Slot) : Avoids e (s.kfreeKstack p) := by
  unfold kfreeKstack
  split
  · exact avoids_other he (by decide)
  · exact avoids_ok

theorem avoids_forkFailed (np : Slot) : Avoids e (s.forkFailed np) :=
  (avoids_kfreeKstack he _ np).returns

theorem avoids_leaveStride (cur p : Slot) : Avoids e (s.leaveStride cur p) := by
  unfold leaveStride
  split
  · exact (avoids_acquireThreadLock he s).bind fun _ =>
      (PTable.avoids_strideQueueDelete he ..).returns
  · exact avoids_ok

theorem avoids_freePgdir? (p : Slot) (g : Option PgdirId) :
    Avoids e (s.freePgdir? p g) := by
  cases g with
  | none => exact avoids_other he (by decide)
  | some g => exact (avoids_freevm he ..).returns

theorem avoids_execDropOld (c : Slot) (old : Option PgdirId) :
    Avoids e (s.execDropOld c old) := by
  unfold execDropOld
  split
  · exact avoids_freePgdir? he ..
  · split
    · exact (avoids_acquireThreadLock he s).bind fun _ => avoids_freePgdir? he ..
    · exact avoids_ok

theorem avoids_checkPgdirCounter (p : Slot) :
    Avoids e (s.checkPgdirCounterAndCallFreevm p) := by
  unfold checkPgdirCounterAndCallFreevm
  split
  · exact avoids_freePgdir? he ..
  · split
    · exact (avoids_acquireThreadLock he s).bind fun _ => avoids_freePgdir? he ..
    · exact (avoids_acquireThreadLock he s).returns

theorem avoids_clearProc (p : Slot) : Avoids e (s.clearProc p) :=
  (avoids_kfreeKstack he s p).bind fun s =>
    (avoids_checkPgdirCounter he s p).returns

theorem avoids_unmapThreadStack (p : Slot) : Avoids e (s.unmapThreadStack p) := by
  unfold unmapThreadStack
  split
  · exact avoids_other he (by decide)
  split
  · split
    · exact avoids_other he (by decide)
    refine (avoids_deallocuvm he ..).bind fun _ => ?_
    unfold lowerParentSz
    dsimp only
    split
    · exact avoids_other he (by decide)
    · exact avoids_ok
  · exact avoids_ok

theorem avoids_removeThreadStack (p : Slot) : Avoids e (s.removeThreadStack p) := by
  refine (avoids_unmapThreadStack he s p).bind fun s => ?_
  refine (avoids_acquireThreadLock he s).bind fun _ => ?_
  split
  · exact avoids_other he (by decide)
  · exact avoids_ok

theorem avoids_threadJoin (c : Slot) (thread : Int) :
    Avoids e (s.threadJoin c thread) := by
  unfold threadJoin
  dsimp only
  split
  · exact (avoids_removeThreadStack he s _).bind fun s =>
      (avoids_clearProc he s _).returns
  · exact avoids_ok

theorem avoids_pushIfNew (p : Slot) (isNew : Bool) : Avoids e (s.pushIfNew p isNew) := by
  unfold pushIfNew strideQueuePush
  split
  · split
    · exact avoids_ok
    · exact avoids_other he (by decide)
  · exact avoids_ok

theorem avoids_countThread (c : Slot) : Avoids e (s.countThread c) := by
  unfold countThread
  split
  · exact avoids_ok
  · split
    · exact avoids_other he (by decide)
    · exact avoids_ok

end

/-! ## Calls that close and copy files -/

section

variable {e : Panic} (he : e.SingleCause) (hf : ¬ e.OfFiles)
include he hf

theorem avoids_dupFd (c np : Slot) (s : Kernel) (fd : Fin NOFILE) : Avoids e (dupFd c np s fd) := by
  unfold dupFd
  split
  · exact avoids_ok
  refine (avoids_acquireThreadLock he s).bind fun _ => Avoids.bind ?_ fun _ => avoids_ok
  unfold filedup
  dsimp only
  split
  · exact avoids_error fun heq => hf (heq ▸ .inr rfl)
  · exact avoids_ok

theorem avoids_dupAll (s : Kernel) (c np : Slot) : Avoids e (s.dupAll c np) :=
  (avoids_forEach (avoids_dupFd he hf c np) _ s).bind fun s =>
    (avoids_acquireThreadLock he s).returns

theorem avoids_closeFd (p : Slot) (s : Kernel) (fd : Fin NOFILE) : Avoids e (closeFd p s fd) := by
  unfold closeFd
  split
  · exact avoids_ok
  refine (avoids_acquireThreadLock he s).bind fun _ => Avoids.bind ?_ fun _ => avoids_ok
  unfold fileclose
  dsimp only
  split
  · exact avoids_error fun heq => hf (heq ▸ .inl rfl)
  · split
    · exact avoids_ok
    · split <;> exact avoids_ok

theorem avoids_closeAll (s : Kernel) (p : Slot) : Avoids e (s.closeAll p) :=
  (avoids_forEach (avoids_closeFd he hf p) _ s).returns

theorem avoids_commonExit (s : Kernel) (cur p : Slot) : Avoids e (s.commonExit cur p) :=
  (avoids_closeAll he hf s p).bind fun _ => (avoids_leaveStride he ..).returns

theorem avoids_exitMasterThread (c : Slot) (s : Kernel) (p : Slot) :
    Avoids e (exitMasterThread c s p) := by
  unfold exitMasterThread
  split
  · refine (avoids_commonExit he hf s c p).bind fun s => ?_
    refine (avoids_threadJoin he s c _).bind fun r => ?_
    split
    · exact avoids_ok
    · exact avoids_other he (by decide)
  · exact avoids_ok

theorem avoids_exitOtherThread (c : Slot) (s : Kernel) (p : Slot) :
    Avoids e (exitOtherThread c s p) := by
  unfold exitOtherThread
  split
  · exact (avoids_removeThreadStack he s p).bind fun s =>
      (avoids_commonExit he hf s c p).bind fun s => (avoids_clearProc he s p).returns
  · exact avoids_ok

end

/-- The wrong case of `exit` is a thread with threads. -/
theorem avoids_exit {s : Kernel} {c : Slot}
    (h : (s.proc c).tid ≠ 0 → (s.proc c).numOfThreads = 0) : Avoids .exitWrongCase (s.exit c) := by
  have he : Panic.exitWrongCase.SingleCause := by decide
  have hf : ¬ Panic.exitWrongCase.OfFiles := by decide
  unfold exit
  split
  · exact avoids_error (by decide)
  split
  · exact avoids_commonExit he hf ..
  split
  · exact (avoids_forEach (avoids_exitMasterThread he hf c) slots s).bind fun _ =>
      avoids_commonExit he hf ..
  split
  · split
    · exact avoids_error (by decide)
    · exact (avoids_forEach (avoids_exitOtherThread he hf c) slots s).bind fun _ =>
        (avoids_commonExit he hf ..).bind fun _ => (avoids_removeThreadStack he ..).bind fun _ =>
          (avoids_commonExit he hf ..).returns
  · next h1 h2 h3 =>
    -- one of the three cases applies
    by_cases ht : (s.proc c).tid = 0
    · by_cases hn : (s.proc c).numOfThreads = 0
      · exact absurd ⟨ht, hn⟩ h1
      · exact absurd ⟨ht, hn⟩ h2
    · exact absurd ⟨ht, h ht⟩ h3

end Kernel

/-! ## Mapping and copying memory -/

theorem avoids_mappages {e : Panic} (hmap : e ≠ .remap) (d : PgDir) (free : List Frame) (a : Nat)
    (pte : Pte) : Avoids e (mappages d free a pte) := by
  unfold mappages
  split
  · split
    · exact avoids_error hmap.symm
    · exact avoids_ok
  · split <;> exact avoids_ok

section

variable {e : Panic} (he : e.SingleCause) (hmap : e ≠ .remap)
include he hmap

theorem avoids_allocuvmLoop (oldsz newsz fuel : Nat) (d : PgDir) (free : List Frame) (a : Nat) :
    Avoids e (allocuvmLoop oldsz newsz fuel d free a) := by
  induction fuel generalizing d free a with
  | zero => exact avoids_ok
  | succ fuel ih =>
    unfold allocuvmLoop
    split
    · split
      · exact (avoids_deallocuvm he ..).returns
      refine (avoids_mappages hmap ..).bind fun r => ?_
      cases r with
      | none => exact (avoids_deallocuvm he ..).returns
      | some r => exact ih ..
    · exact avoids_ok

theorem avoids_allocuvm (d : PgDir) (free : List Frame) (oldsz newsz : Nat) :
    Avoids e (allocuvm d free oldsz newsz) := by
  unfold allocuvm
  split
  · exact avoids_ok
  · split
    · exact avoids_ok
    · exact avoids_allocuvmLoop he hmap ..

theorem avoids_copyuvmLoop (src : PgDir) (sz fuel : Nat) (d : PgDir) (free : List Frame) (i : Nat) :
    Avoids e (copyuvmLoop src sz fuel d free i) := by
  induction fuel generalizing d free i with
  | zero => exact avoids_ok
  | succ fuel ih =>
    unfold copyuvmLoop
    split
    · split
      · exact avoids_other he (by decide)
      split
      · exact avoids_other he (by decide)
      split
      · exact avoids_ok
      refine (avoids_mappages hmap ..).bind fun r => ?_
      cases r with
      | none => exact avoids_ok
      | some r => exact ih ..
    · exact avoids_ok

theorem avoids_copyuvm (src : PgDir) (sz : Nat) (free : List Frame) :
    Avoids e (copyuvm src sz free) := by
  unfold copyuvm
  split
  · exact avoids_ok
  refine (avoids_copyuvmLoop he hmap ..).bind fun r => ?_
  obtain ⟨r, d, free⟩ := r
  cases r with
  | none => exact (avoids_freevm he ..).returns
  | some d => exact avoids_ok

end

namespace Kernel

section

variable {e : Panic} (he : e.SingleCause) (hmap : e ≠ .remap)
include he hmap

theorem avoids_execLoad (phs : List ProgHdr) (d : PgDir) (free : List Frame) (sz : Nat) :
    Avoids e (execLoad phs d free sz) := by
  induction phs generalizing d free sz with
  | nil => exact avoids_ok
  | cons ph phs ih =>
    unfold execLoad
    split
    · exact avoids_ok
    split
    · exact ih ..
    split
    · exact avoids_ok
    split
    · exact avoids_ok
    refine (avoids_allocuvm he hmap ..).bind fun r => ?_
    obtain ⟨d, free, sz⟩ := r
    dsimp only
    split
    · exact avoids_ok
    split
    · exact avoids_ok
    split
    · exact avoids_ok
    · exact ih ..

theorem avoids_execImage (file : ExecFile) (free : List Frame) :
    Avoids e (execImage file free) := by
  unfold execImage
  split
  · exact avoids_ok
  split
  · exact avoids_ok
  refine (avoids_execLoad he hmap ..).bind fun r => ?_
  obtain ⟨r, d, free⟩ := r
  cases r with
  | none => exact (avoids_freevm he ..).returns
  | some sz =>
    refine (avoids_allocuvm he hmap ..).bind fun r => ?_
    obtain ⟨d, free, sz⟩ := r
    dsimp only
    split
    · exact (avoids_freevm he ..).returns
    refine (avoids_clearpteu he ..).bind fun d => ?_
    split
    · exact (avoids_freevm he ..).returns
    · exact avoids_ok

theorem avoids_threadStack (s : Kernel) (c np : Slot) : Avoids e (s.threadStack c np) := by
  refine (avoids_acquireThreadLock he s).bind fun _ => ?_
  split
  · exact avoids_other he (by decide)
  refine (avoids_allocuvm he hmap ..).bind fun r => ?_
  obtain ⟨d, free, r⟩ := r
  dsimp only
  split
  · exact avoids_ok
  · exact (avoids_clearpteu he ..).returns

end

end Kernel
end Xv6
