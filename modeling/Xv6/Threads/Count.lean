import Xv6.Threads.Family
import Xv6.Vm.Enough
import Xv6.Panics

/-!
# Xv6.Threads.Count

`num_of_threads` of a process is the number of its threads, and a thread has
none, as long as threads are created by processes, nobody calls
`thread_join(0)`, and processes end with `exit`.
-/

namespace Xv6

open Lib

namespace Kernel

variable {k k' s s' : Kernel} {c init p : Slot}

/-- Threads are created by processes only; a process leaves by `exit`, or by
`thread_exit` when it has no threads, and a thread by `thread_exit`;
`thread_join` is not called with the thread id of a process. -/
def OneLevel (s : Kernel) : Event → Prop
  | .call c .threadCreate => (s.proc c).tid = 0
  | .call c (.threadExit _) => (s.proc c).tid = 0 → (s.proc c).numOfThreads = 0
  | .call _ (.threadJoin thread) => thread ≠ 0
  | .call c .exit => (s.proc c).tid = 0
  | _ => True

instance (s : Kernel) : DecidablePred s.OneLevel
  | .call _ .threadCreate | .call _ .exit => inferInstanceAs (Decidable (_ = _))
  | .call _ (.threadExit _) => inferInstanceAs (Decidable (_ → _))
  | .call _ (.threadJoin _) => inferInstanceAs (Decidable (_ ≠ _))
  | .dispatch _ | .yield _ | .sleep _ _ | .wakeup _ | .files _ _ | .call _ .fork
  | .call _ (.exec _) | .call _ (.sbrk _) | .call _ (.setCpuShare _) | .call _ .wait
  | .call _ (.kill _) => inferInstanceAs (Decidable True)

/-! ## exit -/

theorem threadJoin_collects {thread : Int} {r : Scan}
    (hp : (s.proc p).parent = some c) (ht : (s.proc p).tid = thread)
    (hz : (s.proc p).state = .zombie) (h : s.threadJoin c thread = .ok (s', r)) :
    ∃ q s1 pid, (s.proc q).parent = some c ∧ (s.proc q).tid = thread ∧
      (s.proc q).state = .zombie ∧ s.removeThreadStack q = .ok s1 ∧
      s1.clearProc q = .ok (s', pid) := by
  unfold threadJoin at h
  simp only at h
  split at h
  · next q hq =>
    have hq := List.find?_some hq
    simp only [decide_eq_true_eq] at hq
    obtain ⟨s1, h₁, h⟩ := bind_eq_ok.mp h
    obtain ⟨⟨s2, pid⟩, h₂, h⟩ := bind_eq_ok.mp h
    cases h
    exact ⟨q, s1, pid, hq.1.1, hq.1.2, hq.2, h₁, h₂⟩
  · next hnone =>
    have hnot := List.find?_eq_none.mp hnone p (mem_slots p)
    simp [hp, ht, hz] at hnot

theorem zombie_of_book (h : (s.book.entry p).state = .zombie) : (s.proc p).state = .zombie := by
  simp only [book_entry, Proc.entry] at h
  cases hs : (s.proc p).state <;> simp [hs, ProcState.settled] at h ⊢

/-- What holds throughout the loop of `exit` in the process `c`. -/
structure ExitFamily (c init : Slot) (k : Kernel) : Prop where
  tallied : k.book.Tallied k.tally
  state : (k.book.entry c).state = .runnable
  tid : (k.book.entry c).tid = 0
  initproc : k.book.initproc = init

/-- The entry `y` is not a thread of `c`. -/
def NotThreadOf (c : Slot) (k : Kernel) (y : Slot) : Prop :=
  ¬ (k.book.Thread y ∧ (k.book.entry y).parent = some c)

section

variable (hk : ExitFamily c init k)
include hk

theorem ExitFamily.commonExit
    (hp : k.book.Thread p) (h : k.commonExit c p = .ok k') : ExitFamily c init k' := by
  have hd := died_commonExit h
  have hkin := hk.tallied.kin
  have hpc : c ≠ p := by
    rintro rfl
    exact hp.1 hk.tid
  refine ⟨?_, ?_, ?_, ?_⟩
  · rw [hd.book, hd.tally]
    exact hk.tallied.die (hkin.live_of_tid hp.1) (hkin.ne_init_of_tid hp.1) hp.2
      (hk.tallied.thread_childless hp.1)
  all_goals rw [hd.book]
  · simpa [Book.die, hpc] using hk.state
  · exact hk.tid
  · exact hk.initproc

theorem ExitFamily.join {k1 : Kernel} {pid : Int}
    (htid : (k.proc p).tid ≠ 0) (hz : (k.proc p).state = .zombie) (hp : (k.proc p).parent = some c)
    (h₁ : k.removeThreadStack p = .ok k1) (h₂ : k1.clearProc p = .ok (k', pid)) :
    ExitFamily c init k' ∧ k'.book = (k.book.dropRef p).clear p := by
  have hb : k'.book = (k.book.dropRef p).clear p := by
    rw [clearProc_book h₂, removeThreadStack_book h₁]
  have hpc : c ≠ p := by
    rintro rfl
    exact htid hk.tid
  have hec : k'.book.entry c = k.book.entry c := by
    rw [hb]
    exact Book.collect_entry_of_ne k.book hpc
  obtain ⟨ref, calls, hd⟩ := Book.dropRef_eq k.book p
  refine ⟨⟨?_, ?_, ?_, ?_⟩, hb⟩
  · rw [hb, (threadJoin_tally hp h₁ h₂).1]
    exact hk.tallied.join (state_book_zombie hz) htid hp
  · rw [hec]
    exact hk.state
  · rw [hec]
    exact hk.tid
  · rw [hb, hd]
    exact hk.initproc

/-- A turn of the loop at an entry with the pid of `c`: it is a thread of `c`,
which ends and is joined. -/
theorem ExitFamily.turn_thread (hpid : (k.proc p).pid = (k.proc c).pid)
    (htid : (k.proc p).tid ≠ 0) (h : exitMasterThread c k p = .ok k') :
    ExitFamily c init k' ∧ k'.book = ((k.book.die p).dropRef p).clear p := by
  rw [Kernel.exitMasterThread, if_pos ⟨hpid, htid⟩] at h
  obtain ⟨k1, h₁, h⟩ := bind_eq_ok.mp h
  obtain ⟨⟨k2, r⟩, h₂, h⟩ := bind_eq_ok.mp h
  have hk2 : k2 = k' := by
    cases r with
    | done r =>
      cases h
      rfl
    | asleep => contradiction
  subst hk2
  have hd := died_commonExit h₁
  have hz : (k1.proc p).state = .zombie := by
    refine zombie_of_book ?_
    rw [hd.book]
    simp [Book.die]
  have hid : (k1.proc p).tid = (k.proc p).tid := by
    have he := congrArg Entry.tid (congrFun (congrArg Book.entry hd.book) p)
    exact he
  have hparent : (k1.proc p).parent = some c := by
    have hpc : c ≠ p := by
      rintro rfl
      exact htid hk.tid
    have hown : (k.proc p).parent = some c :=
      hk.tallied.kin.owner p c htid hk.state hk.tid hpid
    have he := congrArg Entry.parent (congrFun (congrArg Book.entry hd.book) p)
    refine he.trans ?_
    simp [Book.die, heir, Proc.entry, hown, hpc]
  obtain ⟨q, k3, pid, hq, htq, hzq, h3, h4⟩ := threadJoin_collects hparent hid hz h₂
  have hemb : (k.book.entry p).state ≠ .embryo := by
    -- the failed `thread_create` still holds `thread_lock`, so nothing can be joined
    intro hemb
    have hlock : k.tally.lock = true := hk.tallied.embryo p hemb
    rw [← hd.tally] at hlock
    have hfree : k1.tally.lock = false := (threadJoin_tally hq h3 h4).2
    rw [hlock] at hfree
    contradiction
  have hk1 := hk.commonExit ⟨htid, hemb⟩ h₁
  have hqp : q = p := by
    refine (hk1.tallied.kin.tid_inj p q ?_ ?_).symm
    · exact fun h0 => htid (hid.symm.trans h0)
    · exact hid.trans htq.symm
  subst hqp
  rw [← hd.book]
  exact hk1.join (by rw [hid]; exact htid) hz hparent h3 h4

/-- One turn of the loop: afterwards `p` is no thread of `c`, and nothing else
has become one. -/
theorem ExitFamily.turn (hc : c ≠ init) (h : exitMasterThread c k p = .ok k') :
    ExitFamily c init k' ∧ NotThreadOf c k' p ∧ ∀ y, NotThreadOf c k y → NotThreadOf c k' y := by
  by_cases hcond : (k.proc p).pid = (k.proc c).pid ∧ (k.proc p).tid ≠ 0
  · obtain ⟨hk', hb⟩ := hk.turn_thread hcond.1 hcond.2 h
    have hp : NotThreadOf c k' p := by
      intro ht
      refine ht.1.1 ?_
      rw [hb, Book.clear, Book.set_entry_same]
    refine ⟨hk', hp, fun y hy ht => ?_⟩
    have hyp : y ≠ p := by
      rintro rfl
      exact hp ht
    have he : k'.book.entry y = (k.book.die p).entry y := by
      rw [hb]
      exact Book.collect_entry_of_ne _ hyp
    rw [Book.Thread, he] at ht
    have hst : ((k.book.die p).entry y).state = (k.book.entry y).state := by
      simp [Book.die, hyp]
    refine hy ⟨⟨ht.1.1, hst ▸ ht.1.2⟩, ?_⟩
    rcases Book.Kin.parent_die ht.2 with ⟨-, hci⟩ | ⟨hyc, -⟩
    · exact absurd (hci.trans hk.initproc) hc
    · exact hyc
  · rw [Kernel.exitMasterThread, if_neg hcond] at h
    cases h
    refine ⟨hk, fun ht => hcond ⟨?_, ht.1.1⟩, fun y hy => hy⟩
    exact hk.tallied.kin.thread_pid p c ht.1 ht.2

end

theorem tallied_exit (hc : (s.proc c).state = .running) (htid : (s.proc c).tid = 0)
    (h : s.exit c = .ok s') (hs : s.book.Tallied s.tally) : s'.book.Tallied s'.tally := by
  have hstate := state_book_running hc
  have hend : ∀ {k : Kernel}, ExitFamily c s.initproc k → c ≠ s.initproc →
      (∀ q, k.book.Thread q → (k.book.entry q).parent ≠ some c) → k.commonExit c c = .ok s' →
      s'.book.Tallied s'.tally := by
    intro k hk hinit hchildren h
    have hd := died_commonExit h
    rw [hd.book, hd.tally]
    refine hk.tallied.die (Book.live_of_runnable hk.state) ?_ ?_ hchildren
    · rw [hk.initproc]
      exact hinit
    · rw [hk.state]
      simp
  have hs0 : ExitFamily c s.initproc s := ⟨hs, hstate, htid, rfl⟩
  obtain ⟨hinit, ⟨⟨-, hnum⟩, h⟩ | ⟨-, s1, h₁, h⟩ | ⟨htid', -⟩⟩ := exit_cases h
  · exact hend hs0 hinit (hs.threadless (Book.live_of_runnable hstate) hnum) h
  · obtain ⟨hs1, hnone⟩ := forEach_inv_all (ExitFamily c s.initproc) (NotThreadOf c)
      (fun _ _ _ hk hturn => hk.turn hinit hturn) h₁ hs0
    exact hend hs1 hinit (fun q hq hp => hnone q (mem_slots q) ⟨hq, hp⟩) h
  · contradiction

/-! ## Steps -/

theorem tallied_next {e : Event} (hs : s.book.Tallied s.tally)
    (hg : s.OneLevel e) (hn : s.next e = some s') : s'.book.Tallied s'.tally := by
  cases step_of_next hn with
  | quiet hb hl ht =>
    rw [hb, ht]
    exact hs
  | retract hnp hb hl ht =>
    rw [hb, ht]
    exact hs.retract (not_live_book hnp)
  | fork hc hnp hi hb htid ht =>
    rw [hb, ht]
    refine hs.set_child (not_live_book hnp) ?_ rfl (.inl rfl) rfl id (by simp)
    exact hs.kin.set_child (not_live_book hnp) (state_book_running hc) htid rfl rfl rfl rfl
      (.inl rfl) (.inl ⟨rfl, rfl, rfl⟩)
  | @exec _ c file i d sz free' hc hi hb ht =>
    rw [hb, ht]
    exact hs.image c _ i
  | sbrk hb ht =>
    rw [hb, ht]
    exact hs
  | @threadCreate _ c np i g d free free' top ok hc hnp hi hb hcount =>
    rcases hcount with ⟨rfl, ht⟩ | ⟨rfl, hfree, m, hm, ht⟩
    · rw [hb, ht]
      refine hs.set_child (not_live_book hnp) ?_ rfl (.inr rfl) rfl (fun _ => rfl) fun _ => rfl
      exact hs.kin.set_child (not_live_book hnp) (state_book_running hc) hg rfl rfl rfl rfl
        (.inr rfl) (.inr ⟨rfl, rfl, rfl⟩)
    · have hmc : m = c := by
        have htc : (s.proc c).tid = 0 := hg
        rw [counterOf, if_pos htc, Option.some.injEq] at hm
        exact hm.symm
      subst hmc
      have hkin := hs.kin.nextTid_pos
      rw [hb, ht]
      refine hs.set_thread (not_live_book hnp) (live_book_running hc) ?_ rfl ?_ rfl rfl rfl ?_
      · exact hs.kin.set_child (not_live_book hnp) (state_book_running hc) hg rfl rfl rfl rfl
          (.inl rfl) (.inr ⟨rfl, rfl, rfl⟩)
      · exact hkin.ne'
      · intro hlock
        exact absurd (hfree.symm.trans hlock) (by decide)
  | @threadExit _ c retval hc hinit hb hl ht =>
    rw [hb, ht]
    have hlive := live_book_running hc
    refine hs.die hlive hinit (by rw [state_book_running hc]; simp) ?_
    by_cases htid : (s.proc c).tid = 0
    · exact hs.threadless hlive (hg htid)
    · exact hs.thread_childless htid
  | threadJoin hz hb hc hparent htid ht =>
    rw [hb, ht]
    exact hs.join (state_book_zombie hz) (by rw [book_entry, Proc.entry, htid]; exact hg) hparent
  | @wait _ c p hz hb hc hkid ht =>
    rw [hb, ht]
    refine hs.collect (state_book_zombie hz) ?_
    rcases hkid with ⟨-, htid⟩ | hkid
    · exact htid
    -- no thread has forked, and only init has no parent
    have hz' := state_book_zombie hz
    obtain ⟨m, hm, -⟩ := hs.kin.parent p (live_book_zombie hz)
      (hs.kin.tree.ne_init_of_zombie hz')
    have hnone : (s.proc c).procForkedInThread = none := hs.forkedIn c
    have hm : (s.proc p).parent = some m := hm
    rw [hkid, hnone] at hm
    contradiction
  | exit hc h => exact tallied_exit hc hg h hs

/-- **The counters are right** in every state reached by such steps. -/
theorem tallied_of_reachable (h : ReachableBy OneLevel s) : s.book.Tallied s.tally := by
  refine h.inv (fun s => s.book.Tallied s.tally) ?_ fun _ _ _ hs hg hn => tallied_next hs hg hn
  intro s hs
  obtain ⟨p, i, hb⟩ := started_book hs
  rw [hb, started_tally hs]
  refine ⟨.startBook p i, fun m _ => ?_, fun _ => rfl, fun q hq => ?_⟩
  · have hnone : (startBook p i).threadsOf m = ∅ := by
      rw [Finset.eq_empty_iff_forall_notMem]
      intro q hq
      have htid := (Book.mem_threadsOf.mp hq).1.1
      by_cases hqp : q = p
      · simp [startBook, hqp] at htid
      · simp [startBook, hqp, Proc.zero, Proc.entry] at htid
    rw [hnone]
    rfl
  · by_cases hqp : q = p
    · simp [startBook, hqp] at hq
    · simp [startBook, hqp, Proc.zero, Proc.entry, ProcState.settled] at hq

/-! ## Enough memory for a thread -/

theorem filedup_freelist {f : FileId} (h : s.filedup f = .ok s') : s'.freelist = s.freelist := by
  unfold filedup at h
  simp only at h
  split at h
  · contradiction
  · cases h
    rfl

theorem dupAll_freelist {np : Slot} (h : s.dupAll c np = .ok s') : s'.freelist = s.freelist := by
  obtain ⟨s1, h₁, h⟩ := bind_eq_ok.mp h
  obtain ⟨_, _, h⟩ := bind_eq_ok.mp h
  cases h
  have hloop : s1.freelist = s.freelist := by
    refine forEach_inv (fun k => k.freelist = s.freelist) (fun fd _ k k' hk hturn => ?_) h₁ rfl
    unfold dupFd at hturn
    split at hturn
    · cases hturn
      exact hk
    obtain ⟨_, _, hturn⟩ := bind_eq_ok.mp hturn
    obtain ⟨k1, hk1, hturn⟩ := bind_eq_ok.mp hturn
    cases hturn
    exact (filedup_freelist hk1).trans hk
  refine Eq.trans ?_ hloop
  unfold idup
  split <;> rfl

/-- There are a page for the kernel stack, two for the user stack and two for
page tables, and room for the user stack below the kernel. -/
def RoomForThread (s : Kernel) (c : Slot) : Prop :=
  5 ≤ s.freelist.length ∧ pgRoundUp (s.proc c).sz + 2 * PGSIZE < KERNBASE

instance (s : Kernel) (c : Slot) : Decidable (s.RoomForThread c) :=
  inferInstanceAs (Decidable (_ ∧ _))

/-- With enough memory `thread_create` gives back `thread_lock`. -/
theorem threadStack_enough {np : Slot} {ok : Bool}
    (hfree : 4 ≤ s.freelist.length) (hroom : pgRoundUp (s.proc c).sz + 2 * PGSIZE < KERNBASE)
    (h : s.threadStack c np = .ok (s', ok)) : ok = true := by
  obtain ⟨g, d, free, r, -, halloc, hstack⟩ := threadStack_layout h
  have hnew : uint (pgRoundUp (s.proc c).sz + 2 * PGSIZE) =
      pgRoundUp (s.proc c).sz + 2 * PGSIZE := by
    simp only [uint, KERNBASE] at hroom ⊢
    exact Nat.mod_eq_of_lt (by omega)
  rw [hnew] at halloc
  have hround : pgRoundUp (pgRoundUp (s.proc c).sz) = pgRoundUp (s.proc c).sz := by
    simp only [pgRoundUp, uint, PGSIZE, KERNBASE] at hroom ⊢
    omega
  have hr := allocuvm_enough (m := 2) hroom (Nat.le_add_right _ _) hfree
    (by rw [hround]) halloc
  rcases hstack with ⟨h0, -⟩ | ⟨-, hok, -⟩
  · simp only [PGSIZE] at hr
    omega
  · exact hok

theorem threadCreate_enough {r : Int} (hc : (s.proc c).state = .running) (hroom : s.RoomForThread c)
    (h : s.threadCreate c = .ok (s', r)) : s'.threadLock = s.threadLock := by
  rcases threadCreate_stages h with hnone | ⟨s1, np, i, s2, s3, ok, h₁, -, h₂, h3, h⟩
  · rcases allocproc_none hnone with ⟨-, rfl⟩ | ⟨-, np, -, -, rfl⟩
    · rfl
    · rfl
  · obtain ⟨hnp, -, f, free, hf, heq⟩ := allocproc_some h₁
    have hne : c ≠ np := by
      rintro rfl
      exact absurd (hc.symm.trans hnp) (by simp)
    have hfiles := filesOnly_dupAll c np h₂
    have hlock : s2.threadLock = s.threadLock := by
      refine (congrArg Tally.lock hfiles.tally).trans ?_
      rw [heq]
      rfl
    have hok : ok = true := by
      refine threadStack_enough ?_ ?_ h3
      · rw [dupAll_freelist h₂]
        have hlen := hroom.1
        rw [hf, List.length_cons] at hlen
        rw [heq]
        exact Nat.le_of_succ_le_succ hlen
      · have hsz : (s2.proc c).sz = (s.proc c).sz := by
          refine (congrFun (congrArg Layout.sz hfiles.layout) c).trans ?_
          rw [heq]
          simp [threadEntry, proc, upd, PTable.setProc_proc_of_ne, hne]
        rw [hsz]
        exact hroom.2
    subst hok
    obtain ⟨-, s4, h4, h5⟩ := h
    obtain ⟨hfree, ht3⟩ := threadStack_tally h3
    obtain ⟨m, -, ht4⟩ := countThread_tally h4
    have hs5 : s'.threadLock = s4.threadLock :=
      congrArg Tally.lock (sharesOnly_shareWithThread h5).tally
    have hs4 : s4.threadLock = s3.threadLock := congrArg Tally.lock ht4
    have hs3 : s3.threadLock = false := congrArg Tally.lock ht3
    rw [hs5, hs4, hs3, ← hlock, hfree]

theorem exit_lock (h : s.exit c = .ok s') : s'.threadLock = s.threadLock := by
  refine exit_keeps (P := fun k => k.threadLock = s.threadLock) (fun hd hk => ?_) (fun hr hk => ?_)
    (fun hr hk => ?_) (fun _ => id) h rfl
  · exact (congrArg Tally.lock hd.tally).trans hk
  · obtain ⟨m, -, ht, -⟩ := removeThreadStack_tally hr
    exact (congrArg Tally.lock ht).trans hk
  · exact (congrArg Tally.lock (clearProc_tally hr)).trans hk

/-! ## The result -/

/-- `thread_create` is not called by `c` without the memory for a thread. -/
def ThreadRoom (s : Kernel) : Event → Prop
  | .call c .threadCreate => s.RoomForThread c
  | _ => True

instance (s : Kernel) : DecidablePred s.ThreadRoom
  | .call _ .threadCreate => inferInstanceAs (Decidable (RoomForThread _ _))
  | .dispatch _ | .yield _ | .sleep _ _ | .wakeup _ | .files _ _ | .call _ .fork
  | .call _ (.exec _) | .call _ (.sbrk _) | .call _ (.setCpuShare _) | .call _ (.threadExit _)
  | .call _ (.threadJoin _) | .call _ .exit | .call _ .wait | .call _ (.kill _) =>
    inferInstanceAs (Decidable True)

/-- The counters of process and thread ids, of type `int`, can be counted up. -/
def IdsLeft (s : Kernel) : Prop := s.nextpid < 2 ^ 31 - 1 ∧ s.nextThreadId < 2 ^ 31 - 1

instance (s : Kernel) : Decidable s.IdsLeft := inferInstanceAs (Decidable (_ ∧ _))

/-- Threads have one level, `thread_create` does not run out of memory, and the
counters of ids have not wrapped. -/
def CountsThreads (s : Kernel) (e : Event) : Prop := s.OneLevel e ∧ s.ThreadRoom e ∧ s.IdsLeft

instance (s : Kernel) (e : Event) : Decidable (s.CountsThreads e) :=
  inferInstanceAs (Decidable (_ ∧ _))

theorem unlocked_next {e : Event} (hs : s.threadLock = false)
    (hg : s.CountsThreads e) (hn : s.next e = some s') : s'.threadLock = false := by
  have hlock : ∀ {k : Kernel} {t : Tally}, k.tally = t → t.lock = false → k.threadLock = false :=
    fun hk ht => (congrArg Tally.lock hk).trans ht
  cases step_of_next hn with
  | quiet hb hl ht => exact hlock ht hs
  | retract hnp hb hl ht => exact hlock ht hs
  | fork hc hnp hi hb htid ht => exact hlock ht hs
  | exec hc hi hb ht => exact hlock ht hs
  | sbrk hb ht => exact hlock ht hs
  | threadCreate hc hnp hi hb hcount =>
    rcases hcount with ⟨-, ht⟩ | ⟨-, -, m, -, ht⟩
    · obtain ⟨-, heff⟩ := next_eq_some.mp hn
      obtain ⟨r, h⟩ := map_fst_eq_ok heff
      rw [threadCreate_enough hc hg.2.1 h]
      exact hs
    · exact hlock ht rfl
  | threadExit hc hinit hb hl ht => exact hlock ht hs
  | threadJoin hz hb hc hparent htid ht => exact hlock ht hs
  | wait hz hb hc hkid ht => exact hlock ht hs
  | exit hc h =>
    rw [exit_lock h]
    exact hs

/-- The entries in use that have the pid of `m` and are threads. -/
def groupThreads (s : Kernel) (m : Slot) : Finset Slot :=
  Finset.univ.filter fun q => s.Live q ∧ (s.proc q).pid = (s.proc m).pid ∧ (s.proc q).tid ≠ 0

/-- Every process counts its threads, and no thread counts any. -/
def ThreadsCounted (s : Kernel) : Prop :=
  (∀ m, s.Live m → (s.proc m).tid = 0 → (s.proc m).numOfThreads = (s.groupThreads m).card) ∧
  ∀ q, (s.proc q).tid ≠ 0 → (s.proc q).numOfThreads = 0

/-- The threads in the group of a process are those it has created. -/
theorem groupThreads_eq (hs : s.book.Tallied s.tally) (hlock : s.threadLock = false) {m : Slot}
    (hm : s.Live m) (htid : (s.proc m).tid = 0) : s.groupThreads m = s.book.threadsOf m := by
  have hthread : ∀ q, (s.proc q).tid ≠ 0 → s.book.Thread q := by
    refine fun q hq => ⟨hq, fun hemb => ?_⟩
    exact absurd (hlock.symm.trans (hs.embryo q hemb)) (by decide)
  ext q
  rw [Book.mem_threadsOf, groupThreads, Finset.mem_filter]
  constructor
  · intro hq
    obtain ⟨-, hlive, hpid, htq⟩ := hq
    have hq := hthread q htq
    obtain ⟨m', hm', hms, hmt⟩ := hs.kin.parent q ((live_book s q).mpr hlive)
      (hs.kin.ne_init_of_tid htq)
    have hmm : m' = m := by
      refine hs.kin.process_pid m' m (Book.live_of_runnable hms)
        ((live_book s m).mpr hm) hmt htid ?_
      rw [← hs.kin.thread_pid q m' hq hm']
      exact hpid
    exact ⟨hq, hmm ▸ hm'⟩
  · intro hq
    refine ⟨Finset.mem_univ q, (live_book s q).mp (hs.kin.live_of_tid hq.1.1), ?_, hq.1.1⟩
    exact hs.kin.thread_pid q m hq.1 hq.2

/-- **Thread counting.**  Every process counts its threads, no thread counts
any, and `exit` never ends in its wrong case, in every run in which processes
create the threads and have the memory for it, leave by `exit` or without
threads, nobody joins thread 0, and the counters of ids do not wrap. -/
theorem threadsCounted_of_countsThreads {s : Kernel} (h : ReachableBy CountsThreads s) :
    s.ThreadsCounted ∧ ∀ c, s.exit c ≠ .error .exitWrongCase := by
  have hinv : s.book.Tallied s.tally ∧ s.threadLock = false := by
    refine h.inv (fun s => s.book.Tallied s.tally ∧ s.threadLock = false) ?_ ?_
    · exact fun s hs => ⟨tallied_of_reachable (.start hs), congrArg Tally.lock (started_tally hs)⟩
    · exact fun s e s' hs hg hn => ⟨tallied_next hs.1 hg.1 hn, unlocked_next hs.2 hg hn⟩
  obtain ⟨hs, hlock⟩ := hinv
  have hzero : ∀ q, (s.proc q).tid ≠ 0 → (s.proc q).numOfThreads = 0 := by
    intro q hq
    have hnum := hs.num q (hs.kin.live_of_tid hq)
    have hnone : s.book.threadsOf q = ∅ := by
      rw [Finset.eq_empty_iff_forall_notMem]
      intro r hr
      obtain ⟨hr, hp⟩ := Book.mem_threadsOf.mp hr
      exact hs.thread_childless hq r hr hp
    rw [hnone] at hnum
    exact hnum
  refine ⟨⟨fun m hm htid => ?_, hzero⟩, fun c => (avoids_exit (hzero c)).ne_error⟩
  rw [groupThreads_eq hs hlock hm htid]
  exact hs.num m ((live_book s m).mpr hm)

/-- The process in entry 1 creates two threads; the first one ends and is joined. -/
def joinedOne : List Event :=
  forked ++ [.call 1 .threadCreate, .call 1 .threadCreate, .dispatch 2,
    .call 2 (.threadExit 7), .call 1 (.threadJoin 1)]

theorem threadsCounted_joinedOne :
    ∃ s : Kernel, ReachableBy CountsThreads s ∧ (s.proc 1).numOfThreads = 1 ∧ s.ThreadsCounted := by
  obtain ⟨s, hr, hnum⟩ := exists_reachableBy_guarded CountsThreads
    (P := fun s => (s.proc 1).numOfThreads = 1)
    (List.range' 1 400) (fun _ => false) smallProgram joinedOne (by decide +kernel)
  exact ⟨s, hr, hnum, (threadsCounted_of_countsThreads hr).1⟩

/-- The thread in entry 2 creates a thread, in entry 3, and joins it. -/
def joinedNested : List Event :=
  threaded ++ [.call 2 .threadCreate, .dispatch 3, .call 3 (.threadExit 0),
    .call 2 (.threadJoin 2)]

/-- The creation was counted in the process, the join in the thread: `exit` by
the thread, which has -1 threads now, ends in the wrong case. -/
theorem not_threadsCounted_joinedNested :
    ∃ s : Kernel, s.Reachable ∧ (s.proc 1).numOfThreads = 2 ∧ (s.proc 2).tid = 1 ∧
      (s.proc 2).numOfThreads = -1 ∧ s.exit 2 = .error .exitWrongCase ∧ ¬ s.ThreadsCounted := by
  obtain ⟨s, hr, h1, ht, h2, hx⟩ := exists_reachableBy (fun _ _ => True)
    (P := fun s => (s.proc 1).numOfThreads = 2 ∧ (s.proc 2).tid = 1 ∧
      (s.proc 2).numOfThreads = -1 ∧ 2 ≠ s.initproc)
    (List.range' 1 400) (fun _ => false) smallProgram joinedNested
    (fun _ _ _ => trivial) (by decide +kernel)
  refine ⟨s, hr, h1, ht, h2, ?_, fun hc => ?_⟩
  · unfold exit
    rw [if_neg hx, if_neg (by simp [ht]), if_neg (by simp [ht]), if_neg (by simp [h2])]
  · have h0 := hc.2 2 (by simp [ht])
    rw [h2] at h0
    contradiction

end Kernel
end Xv6
