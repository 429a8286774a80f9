import Xv6.PgdirRef
import Xv6.Panics

/-!
# Xv6.PgdirRef.Leak

No address space is lost: a counter that is not zero has a user, and a page
directory without users has been freed.

Two calls lose one: `exec` by a process that shares its address space does not
count the old counter down, nor does `exit` by a thread for its own entry.
-/

namespace Xv6

open Lib

variable {i : Fin NPROC} {s : Kernel} {c np p : Slot}

namespace Book

/-! ## The invariant -/

/-- The page directory `g` is in use or freed. -/
def Accounted (b : Book) (g : PgdirId) : Prop :=
  (∃ p, b.Live p ∧ (b.entry p).pgdir = some g) ∨ ∃ call ∈ b.freevmCalls, call.pgdir = g

/-- Nothing has leaked: counters are exact, every page directory made so far
is in use or freed, and free entries are no threads. -/
structure Tight (b : Book) : Prop where
  counted : Counted b fun _ => 0
  accounted : ∀ g < b.nextPgdir, b.Accounted g
  unused_tid : ∀ p, ¬ b.Live p → (b.entry p).tid = 0

/-- What happens to one entry concerns at most its own page directory. -/
theorem Accounted.set {b b' : Book} {e : Entry} {g : PgdirId} (h : b.Accounted g)
    (hentry : b'.entry = (b.set p e).entry) (hcalls : ∀ call ∈ b.freevmCalls, call ∈ b'.freevmCalls)
    (hp : b.Live p → (b.entry p).pgdir = some g → b'.Accounted g) : b'.Accounted g := by
  rcases h with ⟨q, hq, hg⟩ | ⟨call, hcall, hg⟩
  · by_cases hqp : q = p
    · subst hqp
      exact hp hq hg
    refine .inl ⟨q, ?_, ?_⟩
    · rw [Live, hentry, set_entry_of_ne b e hqp]
      exact hq
    · rw [hentry, set_entry_of_ne b e hqp]
      exact hg
  · exact .inr ⟨call, hcalls call hcall, hg⟩

theorem Counted.exists_other {b : Book} (h : Counted b fun _ => 0) (hgt : ¬ b.pgdirRef i ≤ 1) :
    ∃ q, q ≠ p ∧ b.Live q ∧ (b.entry q).idx = some i := by
  have hcard : 1 < (b.users i).card := by
    have hc := h.count i
    rw [Int8.le_iff_toInt_le, Int8.toInt_one] at hgt
    omega
  obtain ⟨q, hq, hqp⟩ := Finset.exists_mem_ne hcard p
  exact ⟨q, hqp, mem_users.mp hq⟩

theorem mem_freevmCalls_dropRef {b : Book} {g : PgdirId}
    (hi : (b.entry p).idx = some i) (hle : b.pgdirRef i ≤ 1) (hg : (b.entry p).pgdir = some g) :
    ∃ call ∈ (b.dropRef p).freevmCalls, call.pgdir = g := by
  rw [dropRef_last hi hle, hg]
  exact ⟨_, List.mem_cons_self, rfl⟩

theorem freevmCalls_freevm_subset (b : Book) (p : Slot) (g : Option PgdirId) :
    ∀ call ∈ b.freevmCalls, call ∈ (b.freevm p g).freevmCalls := by
  intro call hcall
  cases g with
  | none => exact hcall
  | some g => exact List.mem_cons_of_mem _ hcall

theorem freevmCalls_dropRef_subset (b : Book) (p : Slot) :
    ∀ call ∈ b.freevmCalls, call ∈ (b.dropRef p).freevmCalls := by
  intro call hcall
  cases hi : (b.entry p).idx with
  | none =>
    rw [dropRef_none hi]
    exact freevmCalls_freevm_subset b p _ call hcall
  | some i =>
    by_cases hle : b.pgdirRef i ≤ 1
    · rw [dropRef_last hi hle]
      exact freevmCalls_freevm_subset _ p _ call hcall
    · rw [dropRef_shared hi hle]
      exact hcall

namespace Tight

variable {b : Book}

/-! ## What the calls do -/

theorem startBook (p : Slot) (i : Fin NPROC) : (Kernel.startBook p i).Tight := by
  refine ⟨Counted.startBook p i, ?_, ?_⟩
  · intro g hg
    -- initcode's page directory is freed, the first program's is in use
    rcases Nat.le_one_iff_eq_zero_or_eq_one.mp (Nat.le_of_lt_succ hg) with rfl | rfl
    · exact .inr ⟨_, List.mem_cons_self, rfl⟩
    · exact .inl ⟨p, (live_startBook p i p).mpr rfl, by simp [Kernel.startBook]⟩
  · intro q hq
    rw [live_startBook] at hq
    simp [Kernel.startBook, hq, Proc.zero, Proc.entry]

section

variable (h : b.Tight)
include h

theorem retract {g : Option PgdirId} (hnp : ¬ b.Live np) : (b.retract np g).Tight := by
  refine ⟨h.counted.retract hnp, ?_, ?_⟩
  · intro g' hg'
    exact (h.accounted g' hg').set rfl (fun _ hc => hc) fun hl => absurd hl hnp
  · intro p hp
    by_cases hpn : p = np
    · simp [Book.retract, hpn]
    · simp only [Live, Book.retract, set_entry_of_ne b _ hpn] at hp ⊢
      exact h.unused_tid p hp

theorem spawn (hnp : ¬ b.Live np) (hi : b.pgdirRef i = 0) : (b.spawn c np i).Tight := by
  refine ⟨h.counted.spawn hnp hi, ?_, ?_⟩
  · intro g hg
    by_cases hlt : g < b.nextPgdir
    · exact (h.accounted g hlt).set rfl (fun _ hc => hc) fun hl => absurd hl hnp
    · have hgn : g = b.nextPgdir := Nat.le_antisymm (Nat.le_of_lt_succ hg) (not_lt.mp hlt)
      exact .inl ⟨np, by simp [Live, Book.spawn], by simp [Book.spawn, hgn]⟩
  · intro p hp
    by_cases hpn : p = np
    · simp [Book.spawn, hpn]
    · simp only [Live, Book.spawn, set_entry_of_ne b _ hpn] at hp ⊢
      exact h.unused_tid p hp

theorem share {st : ProcState} {tid : Int} (hc : b.Live c) (hnp : ¬ b.Live np)
    (hi : (b.entry c).idx = some i) (hst : st ≠ .unused) : (b.share c np i st tid).Tight := by
  refine ⟨h.counted.share hc hnp hi hst ?_, ?_, ?_⟩
  · have hcount := h.counted.count i
    have hcard := Finset.card_le_univ (b.users i)
    rw [Fintype.card_fin] at hcard
    simp only [NPROC] at hcard
    omega
  · intro g hg
    exact (h.accounted g hg).set rfl (fun _ hc => hc) fun hl => absurd hl hnp
  · intro p hp
    by_cases hpn : p = np
    · simp [Live, Book.share, hpn, hst] at hp
    · simp only [Live, Book.share, set_entry_of_ne b _ hpn] at hp ⊢
      exact h.unused_tid p hp

theorem die (hp : b.Live p) : (b.die p).Tight := by
  refine ⟨h.counted.die hp, ?_, ?_⟩
  · intro g hg
    rcases h.accounted g hg with ⟨q, hq, hqg⟩ | hfreed
    · exact .inl ⟨q, (live_die hp q).mpr hq, hqg⟩
    · exact .inr hfreed
  · intro q hq
    exact h.unused_tid q fun hl => hq ((live_die hp q).mpr hl)

/-- Collecting a process frees its page directory or leaves it to others. -/
theorem collect (hp : b.Live p) : ((b.dropRef p).clear p).Tight := by
  obtain ⟨ref, calls, hd⟩ := dropRef_eq b p
  obtain ⟨e, htid, hentry⟩ : ∃ e : Entry, e.tid = 0 ∧
      ((b.dropRef p).clear p).entry = (b.set p e).entry := ⟨_, rfl, by rw [hd]; rfl⟩
  refine ⟨h.counted.collect hp, ?_, ?_⟩
  · intro g hg
    rw [hd] at hg
    refine (h.accounted g hg).set hentry (freevmCalls_dropRef_subset b p) fun _ hpg => ?_
    obtain ⟨i, hi⟩ := h.counted.idx_some p hp
    by_cases hle : b.pgdirRef i ≤ 1
    · exact .inr (mem_freevmCalls_dropRef hi hle hpg)
    obtain ⟨q, hqp, hq, hqi⟩ := h.counted.exists_other (p := p) hle
    have hqg := (h.counted.same q p hq hp).mp (hqi.trans hi.symm)
    refine .inl ⟨q, ?_, ?_⟩
    · rw [Live, hentry, set_entry_of_ne b _ hqp]
      exact hq
    · rw [hentry, set_entry_of_ne b _ hqp]
      exact hqg.trans hpg
  · intro q hq
    by_cases hqp : q = p
    · rw [hentry, hqp, set_entry_same]
      exact htid
    · simp only [Live, hentry, set_entry_of_ne b _ hqp] at hq ⊢
      exact h.unused_tid q hq

/-- A process that alone uses its counter frees its old page directory in `exec`. -/
theorem image (hc : b.Live c)
    (halone : ∀ q, q ≠ c → b.Live q → (b.entry q).pgdir ≠ (b.entry c).pgdir)
    (hi : ((b.newImage c).dropOld c (b.entry c).pgdir).pgdirRef i = 0) :
    (((b.newImage c).dropOld c (b.entry c).pgdir).giveIdx c i).Tight := by
  obtain ⟨k, hk⟩ := h.counted.idx_some c hc
  obtain ⟨g, hg, -⟩ := h.counted.pgdir_lt c hc
  have hle : b.pgdirRef k ≤ 1 := by
    by_contra hgt
    obtain ⟨q, hqc, hq, hqk⟩ := h.counted.exists_other (p := c) hgt
    exact halone q hqc hq ((h.counted.same q c hq hc).mp (hqk.trans hk.symm))
  have hidx : ((b.newImage c).entry c).idx = some k := by simp [newImage, hk]
  obtain ⟨call, hcall, hcalls⟩ : ∃ call : FreevmCall, call.pgdir = g ∧
      ((b.newImage c).dropOld c (b.entry c).pgdir).freevmCalls = call :: b.freevmCalls :=
    ⟨_, rfl, by rw [dropOld_last hidx hle, hg]; rfl⟩
  have hcounted := h.counted.image hc (h.counted.dropOld_count_last hc hk hle) hi
  obtain ⟨ref, calls, hd⟩ := dropOld_eq (b.newImage c) c (b.entry c).pgdir
  rw [hd] at hcalls hcounted ⊢
  have hcalls : calls = call :: b.freevmCalls := hcalls
  subst hcalls
  have hentry : (giveIdx { b.newImage c with pgdirRef := ref, freevmCalls := call :: b.freevmCalls }
      c i).entry = (b.set c { b.entry c with pgdir := some b.nextPgdir, idx := some i }).entry := by
    simp [giveIdx, newImage, Book.set]
  refine ⟨hcounted, ?_, ?_⟩
  · intro g' hg'
    by_cases hlt : g' < b.nextPgdir
    · refine (h.accounted g' hlt).set hentry ?_ fun _ hcg => .inr ?_
      · exact fun _ hcall' => List.mem_cons_of_mem _ hcall'
      · exact ⟨call, List.mem_cons_self, hcall.trans (Option.some.inj (hg.symm.trans hcg))⟩
    · have hgn : g' = b.nextPgdir := Nat.le_antisymm (Nat.le_of_lt_succ hg') (not_lt.mp hlt)
      refine .inl ⟨c, ?_, ?_⟩
      · rw [Live, hentry, set_entry_same]
        exact hc
      · rw [hentry, set_entry_same, hgn]
  · intro q hq
    by_cases hqc : q = c
    · rw [hqc, Live, hentry, set_entry_same] at hq
      exact absurd hc hq
    · rw [Live, hentry, set_entry_of_ne b _ hqc] at hq
      rw [hentry, set_entry_of_ne b _ hqc]
      exact h.unused_tid q hq

/-- While an entry is free, or its user is not the only one of its counter,
some counter is zero. -/
theorem exists_zero (hp : ∀ i, (b.entry p).idx = some i → b.Live p → ¬ b.pgdirRef i ≤ 1) :
    ∃ i, b.pgdirRef i = 0 := by
  by_contra hnone
  -- otherwise every counter has a user other than `p`: 64 users among 63 entries
  have huser : ∀ i, ∃ q, q ≠ p ∧ (b.entry q).idx = some i := by
    intro i
    have hpos : 0 < (b.users i).card := by
      have hc := h.counted.count i
      have hne : (b.pgdirRef i).toInt ≠ 0 := fun h0 =>
        hnone ⟨i, Int8.toInt_inj.mp (h0.trans Int8.toInt_zero.symm)⟩
      omega
    obtain ⟨q, hq⟩ := Finset.card_pos.mp hpos
    rw [mem_users] at hq
    by_cases hqp : q = p
    · subst hqp
      obtain ⟨r, hr, -, hri⟩ := h.counted.exists_other (p := q) (hp i hq.2 hq.1)
      exact ⟨r, hr, hri⟩
    · exact ⟨q, hqp, hq.2⟩
  choose user hne hidx using huser
  have hinj : Function.Injective user := fun i j hij =>
    Option.some.inj ((hidx i).symm.trans ((congrArg (fun q => (b.entry q).idx) hij).trans (hidx j)))
  obtain ⟨i, hi⟩ := Finite.surjective_of_injective hinj p
  exact hne i hi

end

end Tight
end Book

namespace Kernel

/-! ## Runs -/

/-- `exec` is called by a process that shares its address space with nobody,
and `exit` by a process, not by a thread. -/
def KeepsCount (s : Kernel) : Event → Prop
  | .call c (.exec _) => ∀ q, q ≠ c → s.Live q → (s.proc q).pgdir ≠ (s.proc c).pgdir
  | .call c .exit => (s.proc c).tid = 0
  | _ => True

/-- What holds throughout the loop of `exit` in the master thread `c`. -/
structure ExitTight (c : Slot) (s : Kernel) : Prop where
  tight : s.book.Tight
  caller_live : s.book.Live c
  caller_tid : (s.book.entry c).tid = 0

section

variable {s s1 s' : Kernel} (hs : ExitTight c s) (htid : (s.proc p).tid ≠ 0)
include hs htid

theorem ExitTight.commonExit (h : s.commonExit c p = .ok s') : ExitTight c s' := by
  have hlive : s.book.Live p := by
    by_contra hp
    exact htid (hs.tight.unused_tid p hp)
  have hb := (died_commonExit h).book
  refine ⟨?_, ?_, ?_⟩
  · rw [hb]
    exact hs.tight.die hlive
  · rw [hb]
    exact (Book.live_die hlive c).mpr hs.caller_live
  · rw [hb]
    exact hs.caller_tid

theorem ExitTight.join {n : Int} (hz : (s.proc p).state = .zombie)
    (h1 : s.removeThreadStack p = .ok s1) (h2 : s1.clearProc p = .ok (s', n)) : ExitTight c s' := by
  have hb : s'.book = (s.book.dropRef p).clear p := by
    rw [clearProc_book h2, removeThreadStack_book h1]
  have hpc : c ≠ p := by
    rintro rfl
    exact htid hs.caller_tid
  have hcol := Book.collect_entry_of_ne s.book hpc
  refine ⟨?_, ?_, ?_⟩
  · rw [hb]
    exact hs.tight.collect (live_book_zombie hz)
  · rw [hb, Book.Live, hcol]
    exact hs.caller_live
  · rw [hb, hcol]
    exact hs.caller_tid

end

theorem tight_exit {s' : Kernel} (hc : (s.proc c).state = .running)
    (htid : (s.proc c).tid = 0) (h : s.exit c = .ok s') (ht : s.book.Tight) : s'.book.Tight := by
  obtain ⟨-, k, hk, hend⟩ := exit_process (I := ExitTight c)
    (fun hk _ hp hd => hk.commonExit hp hd) (fun hk _ hp hz h1 h2 => hk.join hp hz h1 h2) htid h
    ⟨ht, live_book_running hc, htid⟩
  rw [(died_commonExit hend).book]
  exact hk.tight.die hk.caller_live

/-- **The counters stay exact** while nobody execs out of a shared address
space and no thread exits. -/
theorem tight_of_reachable (h : ReachableBy KeepsCount s) : s.book.Tight := by
  refine h.inv (fun s => s.book.Tight) ?_ ?_
  · intro s hs
    obtain ⟨p, i, hb⟩ := started_book hs
    rw [hb]
    exact .startBook p i
  · intro s e s' ht hg hn
    cases step_of_next hn with
    | quiet hb | sbrk hb =>
      rw [hb]
      exact ht
    | retract hnp hb =>
      rw [hb]
      exact ht.retract (not_live_book hnp)
    | fork hc hnp hi hb =>
      rw [hb]
      exact ht.spawn (not_live_book hnp) hi
    | exec hc hi hb =>
      rw [hb]
      exact ht.image (live_book_running hc)
        (fun q hq hlive => hg q hq ((live_book s q).mp hlive)) hi
    | @threadCreate _ c np i g d free free' top ok hc hnp hi hb =>
      rw [hb]
      refine ht.share (live_book_running hc) (not_live_book hnp) hi ?_
      cases ok <;> decide
    | threadExit hc hinit hb =>
      rw [hb]
      exact ht.die (live_book_running hc)
    | threadJoin hz hb | wait hz hb =>
      rw [hb]
      exact ht.collect (live_book_zombie hz)
    | exit hc h => exact tight_exit hc hg h ht

/-! ## The counters do not run out

`allocate_new_pgdir_idx` panics in `fork` and in `exec` only when every counter
is in use; everything else in the two fails in other ways.
-/

/-- The search of `allocate_new_pgdir_idx` looks at every counter. -/
theorem findZeroRef_none {n : Nat} (h : s.findZeroRef n i = none) :
    ∀ k < n, s.pgdirRef (i + Fin.ofNat NPROC k) ≠ 0 := by
  induction n generalizing i with
  | zero => exact fun k hk => absurd hk (Nat.not_lt_zero k)
  | succ n ih =>
    rw [findZeroRef] at h
    split at h
    · contradiction
    next h0 =>
    intro k hk
    cases k with
    | zero => simpa using h0
    | succ k =>
      have hstep : i + Fin.ofNat NPROC (k + 1) = i + 1 + Fin.ofNat NPROC k := by
        rw [add_assoc]
        congr 1
        ext
        simp [Fin.ofNat, Fin.val_add, add_comm]
      rw [hstep]
      exact ih h k (Nat.lt_of_succ_lt_succ hk)

/-- `allocate_new_pgdir_idx` panics when all counters are in use. -/
theorem allocateNewPgdirIdx_full (h : s.allocateNewPgdirIdx p = .error .pgdirRefFull)
    (j : Fin NPROC) : s.pgdirRef j ≠ 0 := by
  rcases bind_eq_error.mp h with h | ⟨_, _, h⟩
  · exact absurd h (avoids_acquireThreadLock (by decide) s).ne_error
  cases hz : s.findZeroRef NPROC s.pgdirRefNextIdx with
  | none =>
    have hj := findZeroRef_none hz (j - s.pgdirRefNextIdx).val (Fin.isLt _)
    simpa using hj
  | some i =>
    rw [hz] at h
    contradiction

theorem forkChild_full {d : PgDir}
    (h : s.forkChild c np d = .error .pgdirRefFull) (j : Fin NPROC) : s.pgdirRef j ≠ 0 := by
  rcases bind_eq_error.mp h with h | ⟨s1, -, h⟩
  · exact allocateNewPgdirIdx_full h j
  · rcases bind_eq_error.mp h with h | ⟨_, -, h⟩
    · exact absurd h (avoids_dupAll (by decide) (by decide) ..).ne_error
    · contradiction

/-- `fork` runs out of counters only when all are in use and an entry is not. -/
theorem fork_full (h : s.fork c = .error .pgdirRefFull) :
    (∃ np, (s.proc np).state = .unused) ∧ ∀ j, s.pgdirRef j ≠ 0 := by
  unfold fork at h
  split at h
  · contradiction
  split at h
  · contradiction
  next s1 np hs1 =>
    obtain ⟨hnp, -, f, free, -, heq⟩ := allocproc_some hs1
    have href : s1.pgdirRef = s.pgdirRef := by
      rw [heq]
      rfl
    split at h
    · exact absurd h (avoids_error (by decide)).ne_error
    rcases bind_eq_error.mp h with h | ⟨⟨r, free'⟩, -, h⟩
    · exact absurd h (avoids_copyuvm (by decide) (by decide) ..).ne_error
    cases r with
    | none =>
      rcases bind_eq_error.mp h with h | ⟨_, -, h⟩
      · exact absurd h (avoids_forkFailed (by decide) ..).ne_error
      · contradiction
    | some d =>
      rcases bind_eq_error.mp h with h | ⟨_, -, h⟩
      · exact ⟨⟨np, hnp⟩, fun j => href ▸ forkChild_full h j⟩
      · contradiction

/-- `exec` runs out of counters only when all are in use after it has dealt
with the old page directory. -/
theorem exec_full {file : ExecFile} (h : s.exec c file = .error .pgdirRefFull) (j : Fin NPROC) :
    ((s.book.newImage c).dropOld c (s.proc c).pgdir).pgdirRef j ≠ 0 := by
  rcases bind_eq_error.mp h with h | ⟨⟨r, free⟩, -, h⟩
  · exact absurd h (avoids_execImage (by decide) (by decide) ..).ne_error
  cases r with
  | none => contradiction
  | some r =>
    rcases bind_eq_error.mp h with h | ⟨s2, h2, h⟩
    · exact absurd h (avoids_execDropOld (by decide) ..).ne_error
    rcases bind_eq_error.mp h with h | ⟨_, -, h⟩
    · have hb := execDropOld_book h2
      have hnew : ∀ k : Kernel, k = { s.newPgdir r.1 with freelist := free } →
          (k.upd c fun x => { x with pgdir := some s.nextPgdir, sz := r.2 }).book =
            s.book.newImage c := by
        rintro k rfl
        exact upd_book _ _ _
      rw [hnew _ rfl] at hb
      rw [← hb]
      exact allocateNewPgdirIdx_full h j
    · contradiction

/-! ## The result -/

/-- No address space is lost: a counter in use has a user, a page directory
without a user has been freed, and no call runs out of counters. -/
structure NoLeak (s : Kernel) : Prop where
  counter_used : ∀ i, s.pgdirRef i ≠ 0 → ∃ p, s.Live p ∧ (s.proc p).pgdirRefIdx = some i
  unused_freed : ∀ g < s.nextPgdir, (∀ p, s.Live p → (s.proc p).pgdir ≠ some g) →
    ∃ call ∈ s.freevmCalls, call.pgdir = g
  fork_counter : ∀ c, s.fork c ≠ .error .pgdirRefFull
  exec_counter : ∀ c file, (s.proc c).state = .running → s.exec c file ≠ .error .pgdirRefFull

theorem exec_ne_full (ht : s.book.Tight) (hc : (s.proc c).state = .running)
    (file : ExecFile) : s.exec c file ≠ .error .pgdirRefFull := by
  intro h
  have hlive := live_book_running hc
  obtain ⟨k, hk⟩ := ht.counted.idx_some c hlive
  have hidx : ((s.book.newImage c).entry c).idx = some k := by
    rw [Book.newImage, Book.set_entry_same]
    exact hk
  have hfull := exec_full h
  by_cases hle : s.book.pgdirRef k ≤ 1
  · -- the last user sets its old counter to zero
    have h0 := hfull k
    obtain ⟨calls, hcalls⟩ := Book.freevm_eq
      { s.book.newImage c with pgdirRef := Function.update s.book.pgdirRef k 0 } c (s.proc c).pgdir
    rw [Book.dropOld_last hidx hle] at h0
    simp only [show (s.book.newImage c).pgdirRef = s.book.pgdirRef from rfl, hcalls,
      Function.update_self] at h0
    contradiction
  · rw [Book.dropOld_shared hidx hle] at hfull
    obtain ⟨i, hi⟩ := ht.exists_zero (p := c) fun i hi _ => by
      rw [hk, Option.some.injEq] at hi
      exact hi ▸ hle
    exact hfull i hi

/-- **No address space is lost** in any run in which `exec` is called only by
processes that share their address space with nobody, and `exit` only by
processes. -/
theorem noLeak_of_keepsCount {s : Kernel} (h : ReachableBy KeepsCount s) : s.NoLeak := by
  have ht := tight_of_reachable h
  constructor
  · intro i hi
    by_contra hnone
    have hempty : s.book.users i = ∅ := by
      rw [Finset.eq_empty_iff_forall_notMem]
      intro p hp
      rw [Book.mem_users] at hp
      exact hnone ⟨p, (live_book s p).mp hp.1, hp.2⟩
    have hc := ht.counted.count i
    rw [hempty, Finset.card_empty] at hc
    exact hi (Int8.toInt_inj.mp (hc.trans Int8.toInt_zero.symm))
  · intro g hg hno
    rcases ht.accounted g hg with ⟨p, hp, hpg⟩ | hfreed
    · exact absurd hpg (hno p ((live_book s p).mp hp))
    · exact hfreed
  · intro c hfull
    obtain ⟨⟨np, hnp⟩, hall⟩ := fork_full hfull
    obtain ⟨i, hi⟩ := ht.exists_zero (p := np) fun _ _ hl => absurd hl (not_live_book hnp)
    exact hall i hi
  · exact fun c file hc => exec_ne_full ht hc file

/-- The process in entry 1 creates a thread in entry 2, which exits and is joined. -/
def joined : List Event := threaded ++ [.call 2 (.threadExit 0), .call 1 (.threadJoin 1)]

theorem noLeak_joined :
    ∃ s : Kernel, ReachableBy KeepsCount s ∧ (s.proc 2).state = .unused ∧ s.pgdirRef 1 = 1 ∧
      s.NoLeak := by
  obtain ⟨s, hr, hs⟩ := exists_reachableBy KeepsCount
    (P := fun s => (s.proc 2).state = .unused ∧ s.pgdirRef 1 = 1)
    (List.range' 1 400) (fun _ => false) smallProgram joined
    (by simp [joined, threaded, forked, KeepsCount]) (by decide +kernel)
  exact ⟨s, hr, hs.1, hs.2, noLeak_of_keepsCount hr⟩

/-- The same, but the process calls `exec` while it has the thread. -/
def execShared : List Event :=
  threaded ++ [.call 1 (.exec smallProgram), .call 2 (.threadExit 0), .call 1 (.threadJoin 1)]

/-- `exec` by a process with a thread: after the thread is gone too, nobody
uses the old counter, which is still one. -/
theorem not_noLeak_execShared :
    ∃ s : Kernel, s.Reachable ∧ s.pgdirRef 1 = 1 ∧
      (∀ p, (s.proc p).pgdirRefIdx = some 1 → ¬ s.Live p) ∧ ¬ s.NoLeak := by
  obtain ⟨s, hr, href, hnone⟩ := exists_reachableBy (fun _ _ => True)
    (P := fun s => s.pgdirRef 1 = 1 ∧ ∀ p, (s.proc p).pgdirRefIdx = some 1 → ¬ s.Live p)
    (List.range' 1 600) (fun _ => false) smallProgram execShared
    (fun _ _ _ => trivial) (by decide +kernel)
  refine ⟨s, hr, href, hnone, fun hl => ?_⟩
  obtain ⟨p, hp, hidx⟩ := hl.counter_used 1 (by rw [href]; decide)
  exact hnone p hidx hp

end Kernel
end Xv6
