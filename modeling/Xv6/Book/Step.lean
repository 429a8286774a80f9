import Xv6.Book.Calls

/-!
# Xv6.Book.Step

What a step of the system can do to the book, to the layout and to the thread
counters, and the book it starts with.
-/

namespace Xv6

open Lib Function

namespace Kernel

/-! ## Steps -/

/-- The new thread `np` of `c` is counted when its stack was made.  Otherwise
`thread_lock` stays held. -/
def Enrolled (s : Kernel) (c np : Slot) (ok : Bool) (s' : Kernel) : Prop :=
  ok = false ∧
    s'.tally = { s.tally.set np .zero with nextTid := s.nextThreadId + 1, lock := true } ∨
  ok = true ∧ s.threadLock = false ∧ ∃ m, s.counterOf c = some m ∧
    s'.tally = { (s.tally.set np .zero).add m 1 with nextTid := s.nextThreadId + 1, lock := false }

/-- What a step of the kernel can do to the book, to the layout and to the
counters.  `exit` is left to its own lemmas: it is a sequence of smaller
changes. -/
inductive Step (s : Kernel) : Event → Kernel → Prop where
  | quiet {e : Event} {s' : Kernel} (hb : s'.book = s.book) (hl : s'.layout = s.layout)
      (ht : s'.tally = s.tally) : Step s e s'
  | retract {e : Event} {s' : Kernel} {np : Slot} {g : Option PgdirId}
      (hnp : (s.proc np).state = .unused) (hb : s'.book = s.book.retract np g)
      (hl : s'.layout = s.layout) (ht : s'.tally = s.tally.set np .zero) : Step s e s'
  | fork {s' : Kernel} {c np : Slot} {i : Fin NPROC} {g : PgdirId} {d : PgDir}
      {free free' : List Frame} (hc : (s.proc c).state = .running)
      (hnp : (s.proc np).state = .unused) (hi : s.pgdirRef i = 0)
      (hb : s'.book = s.book.spawn c np i) (htid : (s.proc c).tid = 0)
      (ht : s'.tally = s.tally.set np .zero) (hg : (s.proc c).pgdir = some g)
      (hcopy : copyuvm (s.pgdirs g) (s.proc c).sz free = .ok (some d, free'))
      (hl : s'.layout =
        { sz := update s.layout.sz np (s.proc c).sz
          pgdirs := update s.pgdirs s.nextPgdir d }) : Step s (.call c .fork) s'
  | exec {s' : Kernel} {c : Slot} {file : ExecFile} {i : Fin NPROC} {d : PgDir} {sz : Nat}
      {free' : List Frame} (hc : (s.proc c).state = .running)
      (hi : ((s.book.newImage c).dropOld c (s.proc c).pgdir).pgdirRef i = 0)
      (hb : s'.book = ((s.book.newImage c).dropOld c (s.proc c).pgdir).giveIdx c i)
      (ht : s'.tally = s.tally) (himg : execImage file s.freelist = .ok (some (d, sz), free'))
      (hl : s'.layout =
        { sz := update s.layout.sz c sz
          pgdirs := update s.pgdirs s.nextPgdir d }) : Step s (.call c (.exec file)) s'
  | sbrk {s' : Kernel} {c : Slot} {n : Int32} {g : PgdirId} {d : PgDir} {free : List Frame}
      {r : Nat} (hb : s'.book = s.book) (ht : s'.tally = s.tally)
      (hc : (s.proc c).state = .running) (hg : (s.proc c).pgdir = some g)
      (hmem : 0 < n.toInt ∧ allocuvm (s.pgdirs g) s.freelist (s.proc c).sz
          (((s.proc c).sz + n.toInt) % 2 ^ 32).toNat = .ok (d, free, r) ∨
        n.toInt < 0 ∧ deallocuvm (s.pgdirs g) s.freelist (s.proc c).sz
          (((s.proc c).sz + n.toInt) % 2 ^ 32).toNat = .ok (d, free, r))
      (hl : s'.layout =
        { sz := if r = 0 then s.layout.sz else update s.layout.sz c r
          pgdirs := update s.pgdirs g d }) : Step s (.call c (.sbrk n)) s'
  | threadCreate {s' : Kernel} {c np : Slot} {i : Fin NPROC} {g : PgdirId} {d : PgDir}
      {free free' : List Frame} {top : Nat} {ok : Bool} (hc : (s.proc c).state = .running)
      (hnp : (s.proc np).state = .unused) (hi : (s.proc c).pgdirRefIdx = some i)
      (hb : s'.book = s.book.share c np i (if ok then .runnable else .embryo) s.nextThreadId)
      (hcount : Enrolled s c np ok s') (hg : (s.proc c).pgdir = some g)
      (halloc : allocuvm (s.pgdirs g) free (pgRoundUp (s.proc c).sz)
        (uint (pgRoundUp (s.proc c).sz + 2 * PGSIZE)) = .ok (d, free', top))
      (hstack : Stacked s c np g d top ok s') : Step s (.call c .threadCreate) s'
  | threadExit {s' : Kernel} {c : Slot} {retval : Nat} (hc : (s.proc c).state = .running)
      (hinit : c ≠ s.initproc) (hb : s'.book = s.book.die c) (hl : s'.layout = s.layout)
      (ht : s'.tally = s.tally) : Step s (.call c (.threadExit retval)) s'
  | threadJoin {s1 s' : Kernel} {c p : Slot} {thread : Int} (hz : (s.proc p).state = .zombie)
      (hb : s'.book = (s.book.dropRef p).clear p) (hc : (s.proc c).state = .running)
      (hparent : (s.proc p).parent = some c) (htid : (s.proc p).tid = thread)
      (ht : s'.tally = (s.tally.add c (-1)).set p .zero)
      (hstack : s.removeThreadStack p = .ok s1) (hl : s'.layout = s1.layout) :
      Step s (.call c (.threadJoin thread)) s'
  | wait {s' : Kernel} {c p : Slot} (hz : (s.proc p).state = .zombie)
      (hb : s'.book = (s.book.dropRef p).clear p) (hc : (s.proc c).state = .running)
      (hkid : (s.proc p).parent = some c ∧ (s.proc p).tid = 0 ∨
        (s.proc p).parent = (s.proc c).procForkedInThread)
      (ht : s'.tally = s.tally.set p .zero) (hl : s'.layout = s.layout) : Step s (.call c .wait) s'
  | exit {s' : Kernel} {c : Slot} (hc : (s.proc c).state = .running) (h : s.exit c = .ok s') :
      Step s (.call c .exit) s'

/-! ## The calls -/

section

variable {s s' : Kernel} {c : Slot} {r : Int}

/-- `allocproc` has found no entry, or had no stack for the one it found. -/
theorem allocproc_none_step {e : Event} (h : s.allocproc = (s', none)) : Step s e s' := by
  have hl := allocproc_layout h
  rcases allocproc_none h with ⟨-, rfl⟩ | ⟨-, np, hnp, -, rfl⟩
  · exact .quiet rfl hl rfl
  · exact .retract hnp (retract_book hnp) hl (upd_tally _ np _)

theorem sleepOn_step {op : Syscall} (hc : (s.proc c).state = .running) (chan : Chan) :
    Step s (.call c op) (s.sleepOn c chan) :=
  .quiet (sleepOn_book s c chan hc) (sleepOn_layout s c chan) (sleepOn_tally s c chan)

variable (hc : (s.proc c).state = .running)
include hc

theorem fork_step (h : s.fork c = .ok (s', r)) : Step s (.call c .fork) s' := by
  rcases fork_paths h with ⟨-, rfl⟩ | ⟨htid, hnone | ⟨s1, np, g, o, free, hs1, hg, hcopy, h⟩⟩
  · exact .quiet rfl rfl rfl
  · exact allocproc_none_step hnone
  · obtain ⟨hnp, hb1⟩ := allocproc_some_book hs1
    have hl1 := allocproc_layout hs1
    have hl : { s1 with freelist := free }.layout = s.layout := hl1
    have ht1 := allocproc_some_tally hs1
    have ht : { s1 with freelist := free }.tally = s.tally.set np .zero := ht1
    cases o with
    | none =>
      exact .retract hnp (fork_failed_book hs1 h) ((forkFailed_layout h).trans hl)
        ((forkFailed_tally h).trans ht)
    | some d =>
      have hnext : s1.nextPgdir = s.nextPgdir := congrArg Book.nextPgdir hb1
      have hdirs : s1.pgdirs = s.pgdirs := congrArg Layout.pgdirs hl
      have hsz : (s1.proc c).sz = (s.proc c).sz := congrFun (congrArg Layout.sz hl) c
      have hpg : (s1.proc c).pgdir = (s.proc c).pgdir := by
        have hne : c ≠ np := by
          rintro rfl
          exact absurd (hc.symm.trans hnp) (by simp)
        have he := congrArg Entry.pgdir (congrFun (congrArg Book.entry hb1) c)
        rw [Book.embryo, Book.set_entry_of_ne _ _ hne] at he
        exact he
      obtain ⟨i, hi, hb⟩ := fork_child_book hs1 h
      rw [hdirs, hsz] at hcopy
      refine .fork hc hnp hi hb htid ((forkChild_tally h).trans ht) (hpg.symm.trans hg) hcopy ?_
      rw [forkChild_layout h, hl]
      simp only [Layout.mk.injEq]
      exact ⟨by rw [← hsz]; rfl, by rw [← hdirs, ← hnext]⟩

theorem growproc_step {n : Int32} (h : s.growproc c n.toInt = .ok (s', r)) :
    Step s (.call c (.sbrk n)) s' := by
  have ht := growproc_tally h
  unfold growproc at h
  simp only at h
  split at h
  · contradiction
  next g hg =>
  split at h
  · next hn =>
    obtain ⟨⟨d, free, top⟩, h1, h⟩ := bind_eq_ok.mp h
    obtain ⟨hb, hl⟩ := grown_of_eq h
    exact .sbrk hb ht hc hg (.inl ⟨hn, h1⟩) hl
  · split at h
    · next hn =>
      obtain ⟨⟨d, free, top⟩, h1, h⟩ := bind_eq_ok.mp h
      obtain ⟨hb, hl⟩ := grown_of_eq h
      exact .sbrk hb ht hc hg (.inr ⟨hn, h1⟩) hl
    · cases h
      exact .quiet rfl rfl rfl

theorem threadCreate_step (h : s.threadCreate c = .ok (s', r)) :
    Step s (.call c .threadCreate) s' := by
  rcases threadCreate_stages h with hnone | ⟨s1, np, i, s2, s3, ok, h1, hi, h2, h3, h⟩
  · exact allocproc_none_step hnone
  · obtain ⟨hne, hnp, hidx, hb2⟩ := threadMade_book (by simp [hc]) h1 hi h2
    have hl1 := allocproc_layout h1
    have ht1 := allocproc_some_tally h1
    have htid : s1.nextThreadId = s.nextThreadId := congrArg Tally.nextTid ht1
    have hl2 : s2.layout =
        { s.layout with sz := update s.layout.sz np (s.proc c).sz } := by
      refine ((filesOnly_dupAll c np h2).layout.trans (threadEntry_layout s1 c np)).trans ?_
      rw [hl1, show (s1.proc c).sz = (s.proc c).sz from congrFun (congrArg Layout.sz hl1) c]
    have ht2 : s2.tally = { s.tally.set np .zero with nextTid := s.nextThreadId + 1 } := by
      refine ((filesOnly_dupAll c np h2).tally.trans (threadEntry_tally s1 c np)).trans ?_
      rw [ht1, htid]
    have hb3 := (threadStack_book h3).trans hb2
    rw [htid] at hb3
    obtain ⟨hfree, ht3⟩ := threadStack_tally h3
    have hfree : s.threadLock = false := (congrArg Tally.lock ht2).symm.trans hfree
    rw [ht2] at ht3
    obtain ⟨g, d, free', top, hg, halloc, hst⟩ := threadStack_layout h3
    have hpg : (s.proc c).pgdir = some g := by
      have he := congrArg Entry.pgdir (congrFun (congrArg Book.entry hb2) np)
      rw [Book.share, Book.set_entry_same] at he
      exact he.symm.trans hg
    have hsz : (s2.proc c).sz = (s.proc c).sz := by
      have he := congrFun (congrArg Layout.sz hl2) c
      exact he.trans (update_of_ne hne ..)
    have hdirs : s2.pgdirs = s.pgdirs := congrArg Layout.pgdirs hl2
    rw [hdirs, hsz] at halloc
    have hst := hst.of_layout hl2
    cases ok with
    | false =>
      cases h
      refine .threadCreate hc hnp hidx ?_ (.inl ⟨rfl, ht3⟩) hpg halloc hst
      exact hb3
    | true =>
      obtain ⟨-, s4, h4, h⟩ := h
      obtain ⟨m, hm, ht4⟩ := countThread_tally h4
      refine .threadCreate hc hnp hidx ?_ (.inr ⟨rfl, hfree, m, ?_, ?_⟩) hpg halloc (hst.congr ?_)
      · exact threadRun_book hb3 h4 h
      · -- the caller's entry is the one it was
        have he : s3.book.entry c = s.book.entry c := by
          rw [hb3]
          exact Book.set_entry_of_ne _ _ hne
        have htc : (s3.proc c).tid = (s.proc c).tid := congrArg Entry.tid he
        have hpc : (s3.proc c).parent = (s.proc c).parent := congrArg Entry.parent he
        rw [counterOf, htc, hpc] at hm
        exact hm
      · rw [(sharesOnly_shareWithThread h).tally, upd_tally_eq s4 np (by rfl), ht4, ht3]
        rfl
      · rw [(sharesOnly_shareWithThread h).layout, upd_layout_eq s4 np (by rfl),
          countThread_layout h4]

theorem threadJoin_step {thread : Int} {r : Scan} (h : s.threadJoin c thread = .ok (s', r)) :
    Step s (.call c (.threadJoin thread)) s' := by
  rcases threadJoin_cases h with ⟨p, s1, pid, hp, htid, hz, h1, h2, -⟩ | ⟨rfl, -⟩ | ⟨rfl, -⟩
  · have hb : s'.book = (s.book.dropRef p).clear p := by
      rw [clearProc_book h2, removeThreadStack_book h1]
    exact .threadJoin hz hb hc hp htid (threadJoin_tally hp h1 h2).1 h1 (clearProc_layout h2)
  · exact .quiet rfl rfl rfl
  · exact sleepOn_step hc _

theorem wait_step {r : Scan} (h : s.wait c = .ok (s', r)) : Step s (.call c .wait) s' := by
  rcases wait_cases h with ⟨p, pid, hkid, hz, h1⟩ | rfl | ⟨chan, rfl⟩
  · exact .wait hz (clearProc_book h1) hc hkid (clearProc_tally h1) (clearProc_layout h1)
  · exact .quiet rfl rfl rfl
  · exact sleepOn_step hc chan

end

theorem setFiles_book (s : Kernel) (p : Slot) (f : FilesAfter) :
    (s.setFiles p f).book = s.book := by
  have hu := upd_book_eq s p (f := fun x => { x with ofile := f.ofile, cwd := f.cwd }) rfl
  exact hu

theorem setFiles_layout (s : Kernel) (p : Slot) (f : FilesAfter) :
    (s.setFiles p f).layout = s.layout := by
  have hu := upd_layout_eq s p (f := fun x => { x with ofile := f.ofile, cwd := f.cwd }) rfl
  exact hu

theorem map_fst_eq_ok {α : Type} {x : Except Panic (Kernel × α)} {s' : Kernel}
    (h : Prod.fst <$> x = .ok s') : ∃ a, x = .ok (s', a) := by
  cases x with
  | error e => contradiction
  | ok r =>
    cases h
    exact ⟨r.2, rfl⟩

variable {s : Kernel} {e : Event}

/-- **Every step is one of these.** -/
theorem step_of_next {s' : Kernel} (h : s.next e = some s') : Step s e s' := by
  obtain ⟨hen, heff⟩ := next_eq_some.mp h
  cases e with
  | dispatch p =>
    cases heff
    have hp : (s.proc p).state = .runnable := hen
    exact .quiet (upd_book_eq s p (by simp [Proc.entry, hp, ProcState.settled]))
      (upd_layout_eq s p rfl) (upd_tally_eq s p rfl)
  | yield p =>
    cases heff
    have hp : (s.proc p).state = .running := hen
    exact .quiet (upd_book_eq s p (by simp [Proc.entry, hp, ProcState.settled]))
      (upd_layout_eq s p rfl) (upd_tally_eq s p rfl)
  | sleep p chan =>
    cases heff
    exact .quiet (sleepOn_book s p chan hen) (sleepOn_layout s p chan) (sleepOn_tally s p chan)
  | wakeup chan =>
    cases heff
    have hw := filesOnly_wakeup1 s.initproc s chan
    exact .quiet hw.book hw.layout hw.tally
  | files p f =>
    cases heff
    exact .quiet (setFiles_book s p f) (setFiles_layout s p f) (setFiles_tally s p f)
  | call c op =>
    have hc : (s.proc c).state = .running := hen
    cases op with
    | fork =>
      obtain ⟨r, h⟩ := map_fst_eq_ok heff
      exact fork_step hc h
    | exec file =>
      obtain ⟨r, h⟩ := map_fst_eq_ok heff
      rcases exec_cases h with ⟨hb, hl, -⟩ | ⟨i, d, sz, free', hi, hb, himg, hl⟩
      · exact .quiet hb hl (exec_tally h)
      · exact .exec hc hi hb (exec_tally h) himg hl
    | sbrk n =>
      obtain ⟨r, h⟩ := map_fst_eq_ok heff
      exact growproc_step hc h
    | setCpuShare required =>
      obtain ⟨r, h⟩ := map_fst_eq_ok heff
      have hs := sharesOnly_setCpuShare h
      exact .quiet hs.book hs.layout hs.tally
    | threadCreate =>
      obtain ⟨r, h⟩ := map_fst_eq_ok heff
      exact threadCreate_step hc h
    | threadExit retval =>
      obtain ⟨hinit, hd⟩ := died_threadExit heff
      exact .threadExit hc hinit hd.book hd.layout hd.tally
    | threadJoin thread =>
      obtain ⟨r, h⟩ := map_fst_eq_ok heff
      exact threadJoin_step hc h
    | exit => exact .exit hc heff
    | wait =>
      obtain ⟨r, h⟩ := map_fst_eq_ok heff
      exact wait_step hc h
    | kill pid =>
      cases heff
      exact .quiet (kill_book s pid) (kill_layout s pid) (kill_tally s pid)

/-! ## The start -/

/-- The book when the first process, in entry `p` and with counter `i`, has
started its program: initcode's page directory 0 is gone. -/
def startBook (p : Slot) (i : Fin NPROC) : Book where
  entry q :=
    if q = p then
      { state := .runnable, pid := 1, tid := 0, parent := none, pgdir := some 1, idx := some i }
    else Proc.zero.entry
  initproc := p
  nextpid := 2
  pgdirRef := update (fun _ => 0) i 1
  nextPgdir := 2
  freevmCalls := [{ pgdir := 0, others := [] }]

variable {free : List Frame} {junk : Nat → Bool}

theorem userinit_book (h : { atBoot free with junk := junk }.userinit = .ok s) :
    ∃ p, s.book =
      { entry := fun q =>
          if q = p then
            { state := .runnable, pid := 1, tid := 0, parent := none, pgdir := some 0, idx := none }
          else Proc.zero.entry
        initproc := p
        nextpid := 2
        pgdirRef := fun _ => 0
        nextPgdir := 1
        freevmCalls := [] } := by
  obtain ⟨s1, p, d, free', hs1, rfl⟩ := userinit_eq h
  obtain ⟨-, -, f, rest, -, rfl⟩ := allocproc_some hs1
  refine ⟨p, ?_⟩
  simp only [book, upd, newPgdir, Book.mk.injEq, atBoot, and_true, true_and]
  refine ⟨?_, rfl⟩
  funext q
  by_cases hq : q = p
  · subst hq
    simp [proc, Proc.entry, Proc.embryo, ProcState.settled, PTable.pinit, Proc.zero]
  · simp [proc, hq, PTable.setProc_proc_of_ne, PTable.pinit]

/-- **The system starts with this book**, and with the memory of a new program
for the first process. -/
theorem start_cases {file : ExecFile} (h : start free junk file = .ok s) :
    ∃ p i s1 free' d sz, { atBoot free with junk := junk }.userinit = .ok s1 ∧
      s.book = startBook p i ∧ execImage file s1.freelist = .ok (some (d, sz), free') ∧
      (s.proc p).sz = sz ∧ s.pgdirs 1 = d := by
  obtain ⟨s1, h1, h2⟩ := start_eq_ok h
  obtain ⟨p, hb1⟩ := userinit_book h1
  have hp : s1.initproc = p := congrArg Book.initproc hb1
  have hb : (s1.upd s1.initproc fun x => { x with state := .running }).book = s1.book := by
    rw [upd_state_book, hp, hb1]
    simp only [Book.set, Book.mk.injEq, and_true]
    funext q
    by_cases hq : q = p
    · subst hq
      simp [ProcState.settled]
    · simp [hq]
  rcases exec_cases h2 with ⟨-, -, hr⟩ | ⟨i, d, sz, free', -, hb2, himg, hl2⟩
  · contradiction
  have hnext : (s1.upd s1.initproc fun x => { x with state := .running }).nextPgdir = 1 :=
    congrArg Book.nextPgdir (hb.trans hb1)
  have hsz : (s.proc p).sz = sz := by
    have hz := congrFun (congrArg Layout.sz hl2) p
    simpa only [layout_sz, hp, update_self] using hz
  have hdir : s.pgdirs 1 = d := by
    have hz := congrFun (congrArg Layout.pgdirs hl2) 1
    simpa only [layout_pgdirs, hnext, update_self] using hz
  refine ⟨p, i, s1, free', d, sz, h1, ?_, himg, hsz, hdir⟩
  have hpg : ((s1.upd s1.initproc fun x => { x with state := .running }).proc
      s1.initproc).pgdir = some 0 := by
    have he := congrArg Entry.pgdir (congrFun (congrArg Book.entry (hb.trans hb1)) s1.initproc)
    simpa [hp, Proc.entry] using he
  rw [hb2, hpg, hb, hb1, hp, Book.dropOld_none (by simp [Book.newImage])]
  have hothers : ∀ b : Book, (∀ q, q ≠ p → (b.entry q).state = .unused) →
      b.otherUsers p 0 = [] := by
    intro b hq
    simp only [Book.otherUsers, List.filter_eq_nil_iff, decide_eq_true_eq]
    rintro q - ⟨hne, hlive, -⟩
    exact hlive (hq q hne)
  simp only [Book.freevm, Book.giveIdx, Book.newImage, Book.set, startBook, Book.mk.injEq]
  refine ⟨?_, trivial, trivial, trivial, trivial, ?_⟩
  · funext q
    by_cases hq : q = p
    · subst hq
      simp
    · simp [hq]
  · rw [hothers]
    intro q hq
    simp [hq, Proc.zero, Proc.entry, ProcState.settled]

theorem started_book (h : Started s) : ∃ p i, s.book = startBook p i := by
  obtain ⟨free, junk, file, h⟩ := h
  obtain ⟨p, i, _, _, _, _, -, hb, -⟩ := start_cases h
  exact ⟨p, i, hb⟩

end Kernel
end Xv6
