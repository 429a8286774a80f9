import Xv6.Book.Step
import Xv6.Vm.Enough
import Xv6.Stride.Queue

/-!
# Xv6.Clean

Recycled process table entries: an `UNUSED` entry has no pid, no `killed`
flag, no kernel stack and no files.

`clear_proc` resets an entry whose files were closed before it became a zombie.
The other ways to `UNUSED` (a thread that calls `exit`, `fork` and `thread_create`
without memory) leave the pid behind, and `kill(0)` marks an `UNUSED` entry.
-/

namespace Xv6

open Lib Function

variable {pid r : Int} {k k' s s' s1 : Kernel} {c np p : Slot}

/-- The part of an entry that has to be reset between two processes. -/
structure Husk where
  state : ProcState
  pid : Int
  tid : Int
  killed : Bool
  kstack : Option Frame
  ofile : Fin NOFILE → Option FileId
  cwd : Option InodeId
  cpuShare : Int32

/-- The husk of an entry.  Like the book it does not tell waiting, sleeping
and running processes apart. -/
def Proc.husk (x : Proc) : Husk where
  state := x.state.settled
  pid := x.pid
  tid := x.tid
  killed := x.killed
  kstack := x.kstack
  ofile := x.ofile
  cwd := x.cwd
  cpuShare := x.cpuShare

/-- Other files. -/
def Husk.withFiles (h : Husk) (of : Fin NOFILE → Option FileId) (wd : Option InodeId) : Husk :=
  { h with ofile := of, cwd := wd }

/-- The husk of a process that has ended. -/
def Husk.ended (h : Husk) : Husk :=
  { h with state := .zombie, ofile := fun _ => none, cwd := none }

/-- The husk of an entry after `clear_proc`. -/
def Husk.cleared (h : Husk) : Husk :=
  { h with state := .unused, pid := 0, tid := 0, killed := false, kstack := none, cpuShare := 0 }

/-- No open files and no current directory. -/
def Husk.NoFiles (h : Husk) : Prop := h.ofile = (fun _ => none) ∧ h.cwd = none

/-- An entry as it should be: reset when it is `UNUSED`, without files when it
is a zombie, with a pid when it is in use, and not in the stride queue. -/
structure Husk.Tidy (h : Husk) : Prop where
  unused : h.state = .unused → h.pid = 0 ∧ h.killed = false ∧ h.kstack = none ∧ h.NoFiles
  zombie : h.state = .zombie → h.NoFiles
  pid_pos : h.state ≠ .unused → 0 < h.pid
  share : h.cpuShare = 0

theorem Husk.Tidy.files {h : Husk} (ht : h.Tidy) (hs : h.state = .runnable)
    (of : Fin NOFILE → Option FileId) (wd : Option InodeId) : (h.withFiles of wd).Tidy where
  unused hu := by simp [Husk.withFiles, hs] at hu
  zombie hz := by simp [Husk.withFiles, hs] at hz
  pid_pos := ht.pid_pos
  share := ht.share

theorem Husk.Tidy.ended {h : Husk} (ht : h.Tidy) (hs : h.state ≠ .unused) : h.ended.Tidy where
  unused hu := by simp [Husk.ended] at hu
  zombie _ := ⟨rfl, rfl⟩
  pid_pos _ := ht.pid_pos hs
  share := ht.share

theorem Husk.Tidy.cleared {h : Husk} (ht : h.Tidy) (hz : h.state = .zombie) : h.cleared.Tidy where
  unused _ := ⟨rfl, rfl, rfl, ht.zombie hz⟩
  zombie hz := by simp [Husk.cleared] at hz
  pid_pos hu := absurd rfl hu
  share := rfl

/-- A new process or thread: in use, with a pid and without a share. -/
structure Husk.Fresh (h : Husk) (pid : Int) : Prop where
  state : h.state = .runnable ∨ h.state = .embryo
  pid : h.pid = pid
  share : h.cpuShare = 0

theorem Husk.Fresh.tidy {h : Husk} (hf : h.Fresh pid) (hpid : 0 < pid) : h.Tidy where
  unused hu := by rcases hf.state with hs | hs <;> simp [hs] at hu
  zombie hz := by rcases hf.state with hs | hs <;> simp [hs] at hz
  pid_pos _ := hf.pid ▸ hpid
  share := hf.share

theorem Husk.Fresh.files {h : Husk} (hf : h.Fresh pid)
    (of : Fin NOFILE → Option FileId) (wd : Option InodeId) : (h.withFiles of wd).Fresh pid where
  state := hf.state
  pid := hf.pid
  share := hf.share

/-- The husks of all entries, with the next pid and the size of the stride
queue. -/
structure Husks where
  entry : Slot → Husk
  nextpid : Int
  size : Int

/-- Replace one husk. -/
def Husks.set (h : Husks) (p : Slot) (e : Husk) : Husks :=
  { h with entry := update h.entry p e }

@[simp] theorem Husks.set_entry_same (h : Husks) (p : Slot) (e : Husk) : (h.set p e).entry p = e :=
  update_self ..

theorem Husks.set_entry_of_ne (h : Husks) {q : Slot} (e : Husk) (hq : q ≠ p) :
    (h.set p e).entry q = h.entry q :=
  update_of_ne hq ..

theorem Husks.set_set (h : Husks) (p : Slot) (e e' : Husk) : (h.set p e).set p e' = h.set p e' := by
  simp [Husks.set]

/-- Nothing is left behind in any entry, and no process has a share. -/
structure Husks.Tidy (h : Husks) : Prop where
  entry : ∀ p, (h.entry p).Tidy
  nextpid : 0 < h.nextpid
  size : h.size = 0

theorem Husks.Tidy.set {h : Husks} (ht : h.Tidy) (p : Slot) {e : Husk} (he : e.Tidy) :
    (h.set p e).Tidy where
  entry q := by
    by_cases hq : q = p
    · rw [hq, Husks.set_entry_same]
      exact he
    · rw [Husks.set_entry_of_ne h e hq]
      exact ht.entry q
  nextpid := ht.nextpid
  size := ht.size

namespace Kernel

/-- The husks of a kernel state. -/
def husks (s : Kernel) : Husks where
  entry p := (s.proc p).husk
  nextpid := s.nextpid
  size := s.ptable.strideQueueSize

@[simp] theorem husks_entry (s : Kernel) (p : Slot) : s.husks.entry p = (s.proc p).husk := rfl

theorem husks_congr (hentry : ∀ q, (s'.proc q).husk = (s.proc q).husk)
    (hpid : s'.nextpid = s.nextpid)
    (hsize : s'.ptable.strideQueueSize = s.ptable.strideQueueSize) : s'.husks = s.husks := by
  simp only [husks, Husks.mk.injEq]
  exact ⟨funext hentry, hpid, hsize⟩

theorem upd_husks (s : Kernel) (p : Slot) (g : Proc → Proc) :
    (s.upd p g).husks = s.husks.set p (g (s.proc p)).husk := by
  simp only [husks, Husks.set, upd_view]
  rfl

theorem upd_husks_eq (s : Kernel) (p : Slot) {g : Proc → Proc}
    (hg : (g (s.proc p)).husk = (s.proc p).husk) : (s.upd p g).husks = s.husks :=
  husks_congr (upd_view_eq s p hg) rfl rfl

/-! ## Files -/

theorem FilesOnly.husks_rest (h : FilesOnly p s s') :
    s'.nextpid = s.nextpid ∧ s'.ptable.strideQueueSize = s.ptable.strideQueueSize := by
  obtain ⟨pr, ft, ic, pp, fr, rfl, -⟩ := h
  exact ⟨rfl, rfl⟩

theorem FilesOnly.husk_of_ne {q : Slot} (h : FilesOnly p s s') (hq : q ≠ p) :
    (s'.proc q).husk = (s.proc q).husk := by
  obtain ⟨pr, ft, ic, pp, fr, rfl, hall⟩ := h
  obtain ⟨st, of, wd, he, hw, hf⟩ := hall q
  obtain ⟨rfl, rfl⟩ := hf hq
  simp only [proc] at he hw ⊢
  rw [he]
  simp only [Proc.husk, hw.settled]

theorem FilesOnly.husks (h : FilesOnly p s s') :
    ∃ of wd, s'.husks = s.husks.set p ((s.proc p).husk.withFiles of wd) := by
  have hp : ∃ of wd, (s'.proc p).husk = (s.proc p).husk.withFiles of wd := by
    obtain ⟨pr, ft, ic, pp, fr, rfl, hall⟩ := h
    obtain ⟨st, of, wd, he, hw, -⟩ := hall p
    refine ⟨of, wd, ?_⟩
    simp only [proc] at he hw ⊢
    rw [he]
    simp only [Proc.husk, Husk.withFiles, hw.settled]
  obtain ⟨of, wd, hp⟩ := hp
  refine ⟨of, wd, ?_⟩
  simp only [Kernel.husks, Husks.set, Husks.mk.injEq]
  refine ⟨?_, h.husks_rest⟩
  funext q
  by_cases hq : q = p
  · rw [hq, update_self, hp]
  · rw [update_of_ne hq, h.husk_of_ne hq]

/-- What changes the files of no process in particular changes none. -/
theorem husks_of_filesOnly (h : ∀ p, FilesOnly p s s') : s'.husks = s.husks := by
  refine husks_congr (fun q => ?_) (h 0).husks_rest.1 (h 0).husks_rest.2
  obtain ⟨p, hp⟩ := exists_ne q
  exact (h p).husk_of_ne hp.symm

theorem wakeup1_husks (s : Kernel) (chan : Chan) : (s.wakeup1 chan).husks = s.husks :=
  husks_of_filesOnly fun p => filesOnly_wakeup1 p s chan

theorem passChild_husks (p : Slot) (s : Kernel) (r : Slot) : (passChild p s r).husks = s.husks := by
  unfold passChild
  split
  · have hparent : (s.upd r fun x => { x with parent := some s.initproc }).husks = s.husks :=
      upd_husks_eq s r rfl
    simp only
    split
    · rw [wakeup1_husks, hparent]
    · exact hparent
  · rfl

theorem passChildren_husks (p : Slot) (s : Kernel) : (s.passChildren p).husks = s.husks := by
  have hfold : ∀ (l : List Slot) (k : Kernel), (l.foldl (passChild p) k).husks = k.husks := by
    intro l
    induction l with
    | nil => exact fun _ => rfl
    | cons r l ih => exact fun k => (ih _).trans (passChild_husks p k r)
  exact hfold slots s

/-- Closing a descriptor leaves the others as they are. -/
theorem closeFd_ofile {fd : Fin NOFILE} (h : closeFd p s fd = .ok s') :
    (s'.proc p).ofile = update (s.proc p).ofile fd none := by
  unfold closeFd at h
  split at h
  · next hnone =>
    cases h
    rw [← hnone, update_eq_self]
  · obtain ⟨_, _, h⟩ := bind_eq_ok.mp h
    obtain ⟨s1, h1, h⟩ := bind_eq_ok.mp h
    cases h
    have hhusk := husks_of_filesOnly fun p => filesOnly_fileclose p h1
    have hof : (s1.proc p).ofile = (s.proc p).ofile :=
      congrArg Husk.ofile (congrFun (congrArg Husks.entry hhusk) p)
    simp [hof]

/-- A process that has closed everything has no files. -/
theorem closeAll_husks (h : s.closeAll p = .ok s') :
    s'.husks = s.husks.set p ((s.proc p).husk.withFiles (fun _ => none) none) := by
  obtain ⟨of, wd, hfiles⟩ := (filesOnly_closeAll p h).husks
  have hentry : (s'.proc p).husk = (s.proc p).husk.withFiles of wd := by
    rw [← husks_entry, hfiles, Husks.set_entry_same]
  obtain ⟨s1, h1, h⟩ := bind_eq_ok.mp h
  obtain ⟨-, hclosed⟩ := forEach_inv_all (fun _ => True)
    (fun (k : Kernel) (fd : Fin NOFILE) => (k.proc p).ofile fd = none)
    (fun fd k k' _ hturn => by
      rw [closeFd_ofile hturn]
      refine ⟨trivial, update_self .., fun y hy => ?_⟩
      by_cases hyfd : y = fd
      · rw [hyfd, update_self]
      · rw [update_of_ne hyfd]
        exact hy) h1 trivial
  cases h
  have hend : ((s1.iput (s1.proc p).cwd).endOp).husks = s1.husks :=
    husks_of_filesOnly fun p => (filesOnly_iput p s1 _).trans (filesOnly_wakeup1 p _ _)
  have hof : of = fun _ => none := by
    funext fd
    have h2 := congrArg Husk.ofile (congrFun (congrArg Husks.entry hend) p)
    have h3 := congrArg Husk.ofile hentry
    simp only [Proc.husk, Husk.withFiles, upd_proc_same] at h3
    rw [← h3]
    exact (congrFun h2 fd).trans (hclosed fd (List.mem_finRange fd))
  have hwd : wd = none := by
    have h3 := congrArg Husk.cwd hentry
    simp only [Proc.husk, Husk.withFiles, upd_proc_same] at h3
    exact h3.symm
  rw [hfiles, hof, hwd]

/-! ## Ending and collecting -/

theorem upd_zombie_husks
    (h : k.husks = s.husks.set p ((s.proc p).husk.withFiles (fun _ => none) none)) :
    (k.upd p fun x => { x with state := .zombie }).husks = s.husks.set p (s.proc p).husk.ended := by
  have hp : (k.proc p).husk = (s.proc p).husk.withFiles (fun _ => none) none := by
    rw [← husks_entry, h, Husks.set_entry_same]
  rw [upd_husks, h, Husks.set_set]
  congr 1
  exact congrArg (fun e => { e with state := .zombie }) hp

theorem zombie_husks (chan : Chan)
    (h : s1.husks = s.husks.set p ((s.proc p).husk.withFiles (fun _ => none) none)) :
    (((s1.wakeup1 chan).passChildren p).upd p fun x => { x with state := .zombie }).husks =
      s.husks.set p (s.proc p).husk.ended := by
  apply upd_zombie_husks
  rw [passChildren_husks, wakeup1_husks, h]

theorem commonExit_husks {cur : Slot} (hshare : (s.proc p).cpuShare = 0)
    (h : s.commonExit cur p = .ok s') : s'.husks = s.husks.set p (s.proc p).husk.ended := by
  obtain ⟨s1, h1, h⟩ := bind_eq_ok.mp h
  obtain ⟨s2, h2, h⟩ := bind_eq_ok.mp h
  have hs1 := closeAll_husks h1
  have hshare1 : (s1.proc p).cpuShare = 0 := by
    have he := congrArg Husk.cpuShare (congrFun (congrArg Husks.entry hs1) p)
    rw [Husks.set_entry_same] at he
    exact he.trans hshare
  rw [leaveStride, if_neg (by simp [hshare1])] at h2
  cases h2
  cases h
  exact zombie_husks _ hs1

theorem threadExit_husks {retval : Nat} (hshare : (s.proc c).cpuShare = 0)
    (h : s.threadExit c retval = .ok s') : s'.husks = s.husks.set c (s.proc c).husk.ended := by
  unfold threadExit at h
  split at h
  · contradiction
  obtain ⟨s1, h1, h⟩ := bind_eq_ok.mp h
  obtain ⟨s2, h2, h⟩ := bind_eq_ok.mp h
  have hs1 : (s1.upd c fun x => { x with threadReturn := retval }).husks = _ :=
    (upd_husks_eq s1 c rfl).trans (closeAll_husks h1)
  have hshare1 : ((s1.upd c fun x => { x with threadReturn := retval }).proc c).cpuShare = 0 := by
    have he := congrArg Husk.cpuShare (congrFun (congrArg Husks.entry hs1) c)
    rw [Husks.set_entry_same] at he
    exact he.trans hshare
  rw [leaveStride, if_neg (by simpa using hshare1)] at h2
  cases h2
  cases h
  exact zombie_husks _ hs1

theorem clearProc_husks (h : s.clearProc p = .ok (s', pid)) :
    s'.husks = s.husks.set p (s.proc p).husk.cleared := by
  obtain ⟨ref, free, calls, rfl⟩ := clearProc_eq h
  exact upd_husks _ p _

/-! ## Calls that reset nothing -/

theorem ignoresMemory_husk : IgnoresMemory Proc.husk := fun _ _ _ _ _ => rfl

theorem SamePart.husks (h : SamePart Proc.husk s s') : s'.husks = s.husks :=
  husks_congr h.entry (congrArg (fun g => g.2.1) h.globals)
    (by rw [h.rest])

theorem sleepOn_husks (s : Kernel) (c : Slot) (chan : Chan) (hc : (s.proc c).state = .running) :
    (s.sleepOn c chan).husks = s.husks :=
  upd_husks_eq s c (by simp [Proc.husk, hc, ProcState.settled])

/-! ## New entries -/

/-- The entry `np` is new, with the given pid. -/
def Spawned (s : Kernel) (np : Slot) (pid : Int) (s' : Kernel) : Prop :=
  ∃ e : Husk, e.Fresh pid ∧ s'.husks = { s.husks.set np e with nextpid := s.nextpid + 1 }

theorem Spawned.entry (h : Spawned s np pid s') : (s'.proc np).husk.Fresh pid := by
  obtain ⟨e, he, hs'⟩ := h
  rw [← husks_entry, hs']
  simpa [Husks.set] using he

variable {e : Husk}

section

variable (h : Spawned s np pid s1)
include h

theorem Spawned.of_husks (hs' : s'.husks = s1.husks) : Spawned s np pid s' := by
  obtain ⟨e, he, hs1⟩ := h
  exact ⟨e, he, hs'.trans hs1⟩

theorem Spawned.set {pid' : Int} (he : e.Fresh pid')
    (hs' : s'.husks = s1.husks.set np e) : Spawned s np pid' s' := by
  obtain ⟨e1, -, hs1⟩ := h
  refine ⟨e, he, ?_⟩
  rw [hs', hs1]
  simp [Husks.set]

theorem Spawned.files (hf : FilesOnly np s1 s') : Spawned s np pid s' := by
  obtain ⟨of, wd, hs'⟩ := hf.husks
  exact h.set (h.entry.files of wd) hs'

theorem Spawned.runnable : Spawned s np pid (s1.upd np fun x => { x with state := .runnable }) := by
  have hu := upd_husks s1 np fun x => { x with state := .runnable }
  refine h.set ?_ hu
  exact ⟨.inl rfl, h.entry.pid, h.entry.share⟩

end

theorem allocproc_spawned (h : s.allocproc = (s', some np)) : Spawned s np s.nextpid s' := by
  obtain ⟨-, -, f, free, -, rfl⟩ := allocproc_some h
  refine ⟨_, ?_, upd_husks _ np _⟩
  exact ⟨.inr rfl, rfl, rfl⟩

theorem forkChild_spawned {d : PgDir}
    (hs1 : Spawned s np pid s1) (h : s1.forkChild c np d = .ok s') : Spawned s np pid s' := by
  obtain ⟨s2, h2, h⟩ := bind_eq_ok.mp h
  obtain ⟨s3, h3, h⟩ := bind_eq_ok.mp h
  cases h
  have hs2 : Spawned s np pid s2 := by
    refine hs1.of_husks ((allocateNewPgdirIdx_samePart ignoresMemory_husk h2).husks.trans ?_)
    exact upd_husks_eq _ np rfl
  exact (hs2.files (filesOnly_dupAll c np h3)).runnable

/-- There is memory for a kernel stack, a page directory and a copy of the
caller's pages. -/
def RoomForFork (s : Kernel) (c : Slot) : Prop :=
  2 + kernTables + 2 * ((s.proc c).sz / PGSIZE + 1) ≤ s.freelist.length

instance (s : Kernel) (c : Slot) : Decidable (s.RoomForFork c) :=
  inferInstanceAs (Decidable (_ ≤ _))

theorem allocproc_none_of_room (hfree : s.freelist ≠ [])
    (h : s.allocproc = (s', none)) : s' = s := by
  rcases allocproc_none h with ⟨-, rfl⟩ | ⟨hnil, -⟩
  · rfl
  · exact absurd hnil hfree

theorem fork_spawned (hc : (s.proc c).state = .running) (hroom : s.RoomForFork c)
    (h : s.fork c = .ok (s', r)) : s' = s ∨ ∃ np, Spawned s np s.nextpid s' := by
  have hfree : s.freelist ≠ [] := by
    intro hnil
    unfold RoomForFork at hroom
    rw [hnil] at hroom
    simp at hroom
  rcases fork_paths h with ⟨-, rfl⟩ | ⟨-, hnone | ⟨s1, np, g, o, free, hs1, -, hcopy, h⟩⟩
  · exact .inl rfl
  · exact .inl (allocproc_none_of_room hfree hnone)
  · have hsp := allocproc_spawned hs1
    obtain ⟨hnp, -, f, free0, hf, heq⟩ := allocproc_some hs1
    have hne : c ≠ np := by
      rintro rfl
      exact absurd (hc.symm.trans hnp) (by simp)
    cases o with
    | none =>
      have hsz : (s1.proc c).sz = (s.proc c).sz := by
        rw [heq]
        simp [proc, upd, PTable.setProc_proc_of_ne, hne]
      have hlen : s.freelist.length = s1.freelist.length + 1 := by
        rw [heq, hf]
        rfl
      have hsome := copyuvm_enough (m := (s.proc c).sz / PGSIZE + 1)
        (by unfold RoomForFork at hroom; omega)
        (by rw [hsz]; simp only [PGSIZE]; omega) hcopy
      contradiction
    | some d => exact .inr ⟨np, forkChild_spawned (hsp.of_husks (by rfl)) h⟩

theorem threadEntry_spawned (h : Spawned s np pid s1) :
    Spawned s np (s1.proc c).pid (s1.threadEntry c np) := by
  rw [threadEntry_eq]
  refine h.set ?_ (upd_husks _ np _)
  exact ⟨h.entry.state, rfl, h.entry.share⟩

/-- `thread_create` with a free page, by a process without a share. -/
theorem threadCreate_spawned (hc : (s.proc c).state = .running) (hshare : (s.proc c).cpuShare = 0)
    (hfree : s.freelist ≠ []) (h : s.threadCreate c = .ok (s', r)) :
    s' = s ∨ ∃ np, Spawned s np (s.proc c).pid s' := by
  rcases threadCreate_stages h with hnone | ⟨s1, np, i, s2, s3, ok, h1, -, h2, h3, h⟩
  · exact .inl (allocproc_none_of_room hfree hnone)
  obtain ⟨hnp, -, -⟩ := allocproc_some h1
  have hne : c ≠ np := by
    rintro rfl
    exact absurd (hc.symm.trans hnp) (by simp)
  have hsp := allocproc_spawned h1
  -- the caller's husk stays what it was
  have hcaller : ∀ {k : Kernel} {pid : Int}, Spawned s np pid k →
      (k.proc c).husk = (s.proc c).husk := by
    rintro k pid ⟨e, -, hk⟩
    rw [← husks_entry, hk]
    exact Husks.set_entry_of_ne _ _ hne
  have hpid : (s1.proc c).pid = (s.proc c).pid := congrArg Husk.pid (hcaller hsp)
  have hsp1 := threadEntry_spawned (c := c) hsp
  rw [hpid] at hsp1
  have hsp3 : Spawned s np (s.proc c).pid s3 :=
    ((hsp1.of_husks (by rfl)).files (filesOnly_dupAll c np h2)).of_husks
      (threadStack_samePart ignoresMemory_husk h3).husks
  cases ok with
  | false =>
    cases h
    exact .inr ⟨np, hsp3⟩
  | true =>
    obtain ⟨-, s4, h4, h5⟩ := h
    have hsp4 := (hsp3.of_husks (countThread_samePart ignoresMemory_husk h4).husks).runnable
    have hshare4 := congrArg Husk.cpuShare (hcaller hsp4)
    rw [shareWithThread, if_neg] at h5
    · cases h5
      exact .inr ⟨np, hsp4⟩
    · exact not_not.mpr (hshare4.trans hshare)

theorem Spawned.tidy (h : Spawned s np pid s')
    (hs : s.husks.Tidy) (hpid : 0 < pid) : s'.husks.Tidy := by
  obtain ⟨e, he, hs'⟩ := h
  have hset := hs.set np (he.tidy hpid)
  rw [hs']
  exact ⟨hset.entry, Int.add_pos hs.nextpid one_pos, hset.size⟩

/-! ## Steps -/

/-- Nobody calls `kill(0)`, `exit` is called by processes and not by threads,
`fork` and `thread_create` find the memory they need, and no process asks for
a CPU share. -/
def KeepsClean (s : Kernel) : Event → Prop
  | .call c .fork => s.RoomForFork c
  | .call _ .threadCreate => s.freelist ≠ []
  | .call _ (.setCpuShare _) => False
  | .call c .exit => (s.proc c).tid = 0
  | .call _ (.kill pid) => pid ≠ 0
  | _ => True

instance (s : Kernel) : DecidablePred s.KeepsClean
  | .call c .fork => inferInstanceAs (Decidable (s.RoomForFork c))
  | .call _ .threadCreate => inferInstanceAs (Decidable (_ ≠ _))
  | .call _ (.setCpuShare _) => inferInstanceAs (Decidable False)
  | .call _ .exit => inferInstanceAs (Decidable (_ = _))
  | .call _ (.kill _) => inferInstanceAs (Decidable (_ ≠ _))
  | .dispatch _ | .yield _ | .sleep _ _ | .wakeup _ | .files _ _ | .call _ (.exec _)
  | .call _ (.sbrk _) | .call _ (.threadExit _) | .call _ (.threadJoin _) | .call _ .wait =>
    inferInstanceAs (Decidable True)

theorem tidy_ended (hs : s.husks.Tidy) (hp : (s.proc p).husk.state ≠ .unused)
    (h : s'.husks = s.husks.set p (s.proc p).husk.ended) : s'.husks.Tidy := by
  rw [h]
  exact hs.set p ((hs.entry p).ended hp)

theorem tidy_clearProc (hs : s.husks.Tidy)
    (hz : (s.proc p).state = .zombie) (h : s.clearProc p = .ok (s', pid)) : s'.husks.Tidy := by
  rw [clearProc_husks h]
  refine hs.set p ((hs.entry p).cleared ?_)
  simp [Proc.husk, hz, ProcState.settled]

/-- What holds throughout the loop of `exit` in the process `c`, whose own entry
does not change. -/
structure ExitTidy (c : Slot) (e : Husk) (k : Kernel) : Prop where
  tidy : k.husks.Tidy
  own : (k.proc c).husk = e

section

variable (he : e.state = .runnable) (hk : ExitTidy c e k)
include he hk

theorem ExitTidy.commonExit (htid : e.tid = 0) (hpid : (k.proc p).pid = (k.proc c).pid)
    (hptid : (k.proc p).tid ≠ 0) (h : k.commonExit c p = .ok k') : ExitTidy c e k' := by
  have hpc : c ≠ p := by
    rintro rfl
    exact hptid ((congrArg Husk.tid hk.own).trans htid)
  have hcpid : 0 < (k.proc c).pid := by
    refine (hk.tidy.entry c).pid_pos ?_
    rw [husks_entry, hk.own, he]
    simp
  have hp : (k.proc p).husk.state ≠ .unused := by
    intro hu
    have h0 : (k.proc p).pid = 0 := ((hk.tidy.entry p).unused hu).1
    omega
  have hhusks := commonExit_husks (hk.tidy.entry p).share h
  refine ⟨tidy_ended hk.tidy hp hhusks, ?_⟩
  rw [← husks_entry, hhusks, Husks.set_entry_of_ne _ _ hpc]
  exact hk.own

theorem ExitTidy.join {k1 : Kernel} (hz : (k.proc p).state = .zombie)
    (h1 : k.removeThreadStack p = .ok k1)
    (h2 : k1.clearProc p = .ok (k', pid)) : ExitTidy c e k' := by
  have hhusks := (removeThreadStack_samePart ignoresMemory_husk h1).husks
  have hz1 : (k1.proc p).husk.state = .zombie := by
    rw [← husks_entry, hhusks]
    simp [Proc.husk, hz, ProcState.settled]
  have hpc : c ≠ p := by
    rintro rfl
    rw [← husks_entry, hhusks, husks_entry, hk.own, he] at hz1
    contradiction
  have ht1 : k1.husks.Tidy := by
    rw [hhusks]
    exact hk.tidy
  refine ⟨?_, ?_⟩
  · rw [clearProc_husks h2]
    exact ht1.set p ((ht1.entry p).cleared hz1)
  · rw [← husks_entry, clearProc_husks h2, Husks.set_entry_of_ne _ _ hpc, hhusks]
    exact hk.own

end

theorem tidy_exit (hs : s.husks.Tidy) (hc : (s.proc c).state = .running) (htid : (s.proc c).tid = 0)
    (h : s.exit c = .ok s') : s'.husks.Tidy := by
  have hstate : (s.proc c).husk.state = .runnable := by simp [Proc.husk, hc, ProcState.settled]
  obtain ⟨-, k, hk, hend⟩ := exit_process (I := ExitTidy c (s.proc c).husk)
    (fun hk hpid hp hd => hk.commonExit hstate htid hpid hp hd)
    (fun hk _ _ hz h1 h2 => hk.join hstate hz h1 h2) htid h ⟨hs, rfl⟩
  refine tidy_ended hk.tidy ?_ (commonExit_husks (hk.tidy.entry c).share hend)
  rw [hk.own, hstate]
  simp

/-- `kill` of a pid that is not 0 finds a process in use. -/
theorem tidy_kill (hs : s.husks.Tidy) (hpid : pid ≠ 0) : (s.kill pid).1.husks.Tidy := by
  unfold kill
  split
  · next p hp =>
    have hp : (s.proc p).pid = pid := by simpa using List.find?_some hp
    rw [upd_husks]
    have hne : (s.proc p).husk.state ≠ .unused := fun hu =>
      hpid (hp.symm.trans ((hs.entry p).unused hu).1)
    have hset : (if (s.proc p).state = .sleeping then .runnable else (s.proc p).state).settled =
        (s.proc p).state.settled := by
      split
      · next h => simp [h, ProcState.settled]
      · rfl
    refine hs.set p ⟨fun hu => ?_, fun hz => ?_, fun _ => (hs.entry p).pid_pos hne,
      (hs.entry p).share⟩
    · exact absurd (hset.symm.trans hu) hne
    · exact (hs.entry p).zombie (hset.symm.trans hz)
  · exact hs

theorem tidy_next {e : Event} (hs : s.husks.Tidy) (hg : s.KeepsClean e)
    (hn : s.next e = some s') : s'.husks.Tidy := by
  obtain ⟨hen, heff⟩ := next_eq_some.mp hn
  cases e with
  | dispatch p =>
    cases heff
    have hp : (s.proc p).state = .runnable := hen
    rw [upd_husks_eq s p (by simp [Proc.husk, hp, ProcState.settled])]
    exact hs
  | yield p =>
    cases heff
    have hp : (s.proc p).state = .running := hen
    rw [upd_husks_eq s p (by simp [Proc.husk, hp, ProcState.settled])]
    exact hs
  | sleep p chan =>
    cases heff
    rw [sleepOn_husks s p chan hen]
    exact hs
  | wakeup chan =>
    cases heff
    rw [wakeup1_husks]
    exact hs
  | files p f =>
    cases heff
    have hp : (s.proc p).state = .running := hen
    have hu := upd_husks s p fun x => { x with ofile := f.ofile, cwd := f.cwd }
    have hset := hs.set p ((hs.entry p).files (by simp [Proc.husk, hp, ProcState.settled])
      f.ofile f.cwd)
    exact hu ▸ hset
  | call c op =>
    have hc : (s.proc c).state = .running := hen
    have hlive : (s.proc c).husk.state ≠ .unused := by simp [Proc.husk, hc, ProcState.settled]
    cases op with
    | fork =>
      obtain ⟨r, h⟩ := map_fst_eq_ok heff
      rcases fork_spawned hc hg h with rfl | ⟨np, hsp⟩
      · exact hs
      · exact hsp.tidy hs hs.nextpid
    | exec file =>
      obtain ⟨r, h⟩ := map_fst_eq_ok heff
      rw [(exec_samePart ignoresMemory_husk h).husks]
      exact hs
    | sbrk n =>
      obtain ⟨r, h⟩ := map_fst_eq_ok heff
      rw [(growproc_samePart ignoresMemory_husk h).husks]
      exact hs
    | setCpuShare required => exact hg.elim
    | threadCreate =>
      obtain ⟨r, h⟩ := map_fst_eq_ok heff
      rcases threadCreate_spawned hc (hs.entry c).share hg h with rfl | ⟨np, hsp⟩
      · exact hs
      · exact hsp.tidy hs ((hs.entry c).pid_pos hlive)
    | threadExit retval =>
      exact tidy_ended hs hlive (threadExit_husks (hs.entry c).share heff)
    | threadJoin thread =>
      obtain ⟨r, h⟩ := map_fst_eq_ok heff
      rcases threadJoin_cases h with ⟨p, s1, pid, -, -, hz, h1, h2, -⟩ | ⟨rfl, -⟩ | ⟨rfl, -⟩
      · have hhusks := (removeThreadStack_samePart ignoresMemory_husk h1).husks
        refine tidy_clearProc (hhusks ▸ hs) ?_ h2
        have hstate := removeThreadStack_samePart (f := Proc.state) (fun _ _ _ _ _ => rfl) h1
        exact (hstate.entry p).trans hz
      · exact hs
      · rw [sleepOn_husks s c _ hc]
        exact hs
    | exit => exact tidy_exit hs hc hg heff
    | wait =>
      obtain ⟨r, h⟩ := map_fst_eq_ok heff
      rcases wait_cases h with ⟨p, pid, -, hz, h1⟩ | rfl | ⟨chan, rfl⟩
      · exact tidy_clearProc hs hz h1
      · exact hs
      · rw [sleepOn_husks s c chan hc]
        exact hs
    | kill pid =>
      cases heff
      exact tidy_kill hs hg

/-! ## Start -/

theorem tidy_atBoot (free : List Frame) (junk : Nat → Bool) :
    { atBoot free with junk := junk }.husks.Tidy where
  entry _ := ⟨fun _ => ⟨rfl, rfl, rfl, rfl, rfl⟩, fun hz => by contradiction,
    fun hu => absurd rfl hu, rfl⟩
  nextpid := one_pos
  size := rfl

theorem userinit_spawned (h : s.userinit = .ok s') :
    ∃ np, Spawned s np s.nextpid s' ∧ s'.initproc = np ∧ (s'.proc np).state = .runnable := by
  obtain ⟨s1, p, d, free, hs1, rfl⟩ := userinit_eq h
  have hsp := allocproc_spawned hs1
  refine ⟨p, hsp.set ?_ (upd_husks _ p _), rfl, by simp⟩
  exact ⟨.inl rfl, hsp.entry.pid, hsp.entry.share⟩

theorem tidy_started (h : Started s) : s.husks.Tidy := by
  obtain ⟨free, junk, file, h⟩ := h
  obtain ⟨s1, h1, h2⟩ := start_eq_ok h
  obtain ⟨np, hsp, hinit, hstate⟩ := userinit_spawned h1
  rw [(exec_samePart ignoresMemory_husk h2).husks, upd_husks_eq]
  · exact hsp.tidy (tidy_atBoot free junk) one_pos
  · rw [hinit]
    simp [Proc.husk, hstate, ProcState.settled]

theorem tidy_of_reachable (h : ReachableBy KeepsClean s) : s.husks.Tidy :=
  h.inv (fun s => s.husks.Tidy) (fun _ hs => tidy_started hs)
    fun _ _ _ hs hg hn => tidy_next hs hg hn

/-! ## Recycled entries -/

/-- No pid, no `killed` flag, no kernel stack, no open files, no current
directory, and not in the stride queue. -/
structure CleanSlot (s : Kernel) (p : Slot) : Prop where
  pid : (s.proc p).pid = 0
  killed : (s.proc p).killed = false
  kstack : (s.proc p).kstack = none
  ofile : ∀ fd, (s.proc p).ofile fd = none
  cwd : (s.proc p).cwd = none
  queue : ¬ s.ptable.InQueue p

/-- **Recycled entries are clean**: every `UNUSED` entry is, and so a process
or thread that `allocproc` returns has no `killed` flag and no files. -/
theorem clean_of_keepsClean {s : Kernel} (h : ReachableBy KeepsClean s) :
    (∀ p, (s.proc p).state = .unused → s.CleanSlot p) ∧
      ∀ s' np, s.allocproc = (s', some np) →
        (s'.proc np).killed = false ∧ (∀ fd, (s'.proc np).ofile fd = none) ∧
          (s'.proc np).cwd = none := by
  have ht := tidy_of_reachable h
  have hclean : ∀ p, (s.proc p).state = .unused → s.CleanSlot p := by
    intro p hp
    obtain ⟨hpid, hkilled, hkstack, hof, hcwd⟩ :=
      (ht.entry p).unused (by simp [Proc.husk, hp, ProcState.settled])
    refine ⟨hpid, hkilled, hkstack, fun fd => congrFun hof fd, hcwd, ?_⟩
    rintro ⟨i, h1, h2, -⟩
    have hsize : s.ptable.strideQueueSize = 0 := ht.size
    omega
  refine ⟨hclean, fun s' np halloc => ?_⟩
  obtain ⟨hnp, -, f, free, -, rfl⟩ := allocproc_some halloc
  have hold := hclean np hnp
  rw [upd_proc_same]
  exact ⟨hold.killed, hold.ofile, hold.cwd⟩

/-- A process is forked, exits and is collected: the entry is `UNUSED` and clean. -/
theorem clean_collected : ∃ s, ReachableBy KeepsClean s ∧ (s.proc 1).state = .unused ∧
    s.nextpid = 3 ∧ s.CleanSlot 1 := by
  obtain ⟨s, hs, hp, hpid⟩ := exists_reachableBy_guarded KeepsClean
    (P := fun s => (s.proc 1).state = .unused ∧ s.nextpid = 3) (List.range' 1 400)
    (fun _ => false) smallProgram (forked ++ [.call 1 .exit, .call 0 .wait]) (by decide +kernel)
  exact ⟨s, hs, hp, hpid, (clean_of_keepsClean hs).1 1 hp⟩

/-- Init calls `kill(0)`: an `UNUSED` entry is marked as killed, and the next
process to be forked inherits the flag. -/
theorem not_clean_killed :
    (∃ s, Reachable s ∧ (s.proc 1).state = .unused ∧ (s.proc 1).killed = true) ∧
      ∃ s, Reachable s ∧ (s.proc 1).state = .runnable ∧ (s.proc 1).killed = true := by
  constructor
  · exact exists_reachableBy (fun _ _ => True)
      (P := fun s => (s.proc 1).state = .unused ∧ (s.proc 1).killed = true) (List.range' 1 400)
      (fun _ => false) smallProgram [.call 0 (.kill 0)] (fun _ _ _ => trivial) (by decide +kernel)
  · exact exists_reachableBy (fun _ _ => True)
      (P := fun s => (s.proc 1).state = .runnable ∧ (s.proc 1).killed = true) (List.range' 1 400)
      (fun _ => false) smallProgram [.call 0 (.kill 0), .call 0 .fork] (fun _ _ _ => trivial)
      (by decide +kernel)

end Kernel
end Xv6
