import Xv6.Layout
import Xv6.Threads.Tally

/-!
# Xv6.Book.Calls

What the parts of the system calls do to the book and to the layout.  There is
nothing here about `exit`: it is made of the helpers of `Xv6.Book`.
-/

namespace Xv6

open Lib Function

namespace Kernel

variable {ok : Bool} {r : Int} {s s' : Kernel} {d : PgDir} {g : PgdirId} {c np : Slot}

/-! ## CPU shares and sizes -/

theorem SharesOnly.book (h : SharesOnly s s') : s'.book = s.book := by
  obtain ⟨t, rfl, hq⟩ := h
  simp only [Kernel.book, Book.mk.injEq, and_true]
  funext q
  obtain ⟨a, b, c, d, h⟩ := hq q
  simp only [proc] at h ⊢
  rw [h]
  rfl

/-- What `growproc` makes of the return value `r` of `allocuvm` or
`deallocuvm` and the directory `d` they leave. -/
theorem grown_of_eq {free : List Frame} {r : Nat} {ret : Int} (h : (if r = 0 then
        (pure ({ s with pgdirs := update s.pgdirs g d, freelist := free }, -1) :
          Except Panic (Kernel × Int))
      else pure ({ s with pgdirs := update s.pgdirs g d, freelist := free }.upd c
        fun x => { x with sz := r }, 0)) = .ok (s', ret)) :
    s'.book = s.book ∧
      s'.layout =
        { sz := if r = 0 then s.layout.sz else update s.layout.sz c r
          pgdirs := update s.pgdirs g d } := by
  split at h
  · next hr =>
    cases h
    exact ⟨rfl, by rw [if_pos hr]; rfl⟩
  · next hr =>
    cases h
    refine ⟨upd_book_eq _ c rfl, ?_⟩
    rw [if_neg hr, upd_layout]
    rfl

theorem kill_layout (s : Kernel) (pid : Int) : (s.kill pid).1.layout = s.layout := by
  unfold kill
  split
  · exact upd_layout_eq s _ rfl
  · rfl

theorem kill_book (s : Kernel) (pid : Int) : (s.kill pid).1.book = s.book := by
  unfold kill
  split
  · next p _ =>
    refine upd_book_eq s p ?_
    simp only [Proc.entry]
    split
    · next hs => simp [hs, ProcState.settled]
    · rfl
  · rfl

/-! ## New entries -/

theorem allocproc_some_book (h : s.allocproc = (s', some np)) :
    (s.proc np).state = .unused ∧ s'.book = s.book.embryo np := by
  obtain ⟨hnp, -, f, free, -, rfl⟩ := allocproc_some h
  exact ⟨hnp, upd_book _ np _⟩

theorem retract_book (hnp : (s.proc np).state = .unused) :
    ({ s with nextpid := s.nextpid + 1 }.upd np fun x =>
      { Proc.embryo x s.nextpid with kstack := none, state := .unused }).book =
        s.book.retract np (s.proc np).pgdir := by
  refine (upd_book _ np _).trans ?_
  simp only [proc] at hnp
  simp [Book.retract, Book.set, Proc.entry, Proc.embryo, ProcState.settled, hnp, book, proc]

theorem forkFailed_book (h : s.forkFailed np = .ok s') :
    s'.book = s.book.set np { s.book.entry np with state := .unused, pgdir := none } := by
  obtain ⟨free, rfl⟩ := forkFailed_eq h
  exact upd_book _ np _

theorem forkChild_book (h : s.forkChild c np d = .ok s') :
    ∃ i, s.pgdirRef i = 0 ∧ s'.book =
      { s.book.set np
          { s.book.entry np with
            state := .runnable
            parent := some c
            pgdir := some s.nextPgdir
            idx := some i } with
        pgdirRef := update s.pgdirRef i 1
        nextPgdir := s.nextPgdir + 1 } := by
  obtain ⟨s2, h2, h⟩ := bind_eq_ok.mp h
  obtain ⟨s3, h3, h⟩ := bind_eq_ok.mp h
  cases h
  obtain ⟨i, hi, hb2⟩ := allocateNewPgdirIdx_book h2
  refine ⟨i, hi, ?_⟩
  rw [upd_state_book, (filesOnly_dupAll c np h3).book, hb2, upd_book]
  simp only [Book.giveIdx, Book.set, update_self, update_idem]
  rfl

theorem forkFailed_layout (h : s.forkFailed np = .ok s') : s'.layout = s.layout := by
  obtain ⟨free, rfl⟩ := forkFailed_eq h
  exact upd_layout_eq _ np rfl

theorem forkChild_layout (h : s.forkChild c np d = .ok s') :
    s'.layout =
      { sz := update s.layout.sz np (s.proc c).sz
        pgdirs := update s.pgdirs s.nextPgdir d } := by
  obtain ⟨s2, h2, h⟩ := bind_eq_ok.mp h
  obtain ⟨s3, h3, h⟩ := bind_eq_ok.mp h
  cases h
  have hu : (s3.upd np fun x => { x with state := .runnable }).layout = s3.layout :=
    upd_layout_eq s3 np rfl
  rw [hu, (filesOnly_dupAll c np h3).layout, allocateNewPgdirIdx_layout h2, upd_layout]
  rfl

variable {s1 : Kernel} {free : List Frame}

theorem fork_failed_book (h1 : s.allocproc = (s1, some np))
    (h : { s1 with freelist := free }.forkFailed np = .ok s') :
    s'.book = s.book.retract np none := by
  obtain ⟨hnp, hb1⟩ := allocproc_some_book h1
  have hb : { s1 with freelist := free }.book = s.book.embryo np := hb1
  rw [forkFailed_book h, hb]
  simp [Book.embryo, Book.retract, Book.set, Proc.entry, hnp, ProcState.settled]

theorem fork_child_book (h1 : s.allocproc = (s1, some np))
    (h : { s1 with freelist := free }.forkChild c np d = .ok s') :
    ∃ i, s.pgdirRef i = 0 ∧ s'.book = s.book.spawn c np i := by
  obtain ⟨-, hb1⟩ := allocproc_some_book h1
  have href : s1.pgdirRef = s.pgdirRef := congrArg Book.pgdirRef hb1
  have hnext : s1.nextPgdir = s.nextPgdir := congrArg Book.nextPgdir hb1
  have hb : { s1 with freelist := free }.book = s.book.embryo np := hb1
  obtain ⟨i, hi, hb2⟩ := forkChild_book h
  refine ⟨i, href ▸ hi, ?_⟩
  rw [hb2, hb]
  simp [Book.embryo, Book.spawn, Book.set, href, hnext]

/-- What a completed `exec` does: nothing, or a new page directory with a new
counter for `c`. -/
theorem exec_cases {file : ExecFile} (h : s.exec c file = .ok (s', r)) :
    s'.book = s.book ∧ s'.layout = s.layout ∧ r = -1 ∨
    ∃ i d sz free', ((s.book.newImage c).dropOld c (s.proc c).pgdir).pgdirRef i = 0 ∧
      s'.book = ((s.book.newImage c).dropOld c (s.proc c).pgdir).giveIdx c i ∧
      execImage file s.freelist = .ok (some (d, sz), free') ∧
      s'.layout =
        { sz := update s.layout.sz c sz
          pgdirs := update s.pgdirs s.nextPgdir d } := by
  obtain ⟨⟨o, free⟩, himg, h⟩ := bind_eq_ok.mp h
  cases o with
  | none =>
    cases h
    exact .inl ⟨rfl, rfl, rfl⟩
  | some img =>
    obtain ⟨d, sz⟩ := img
    obtain ⟨s1, h1, h⟩ := bind_eq_ok.mp h
    obtain ⟨s2, h2, h⟩ := bind_eq_ok.mp h
    cases h
    have hb1 := execDropOld_book h1
    have hnew : ({ s.newPgdir d with freelist := free }.upd c fun x =>
        { x with pgdir := some s.nextPgdir, sz := sz }).book = s.book.newImage c := upd_book _ _ _
    rw [hnew] at hb1
    obtain ⟨i, hi, hb2⟩ := allocateNewPgdirIdx_book h2
    rw [hb1] at hb2
    refine .inr ⟨i, d, sz, free, ?_, hb2, himg, ?_⟩
    · rw [← hb1]
      exact hi
    · rw [allocateNewPgdirIdx_layout h2]
      obtain ⟨ref, free', calls, rfl⟩ := execDropOld_eq h1
      exact upd_layout { s.newPgdir d with freelist := free } c fun x =>
        { x with pgdir := some s.nextPgdir, sz := sz }

theorem threadStack_book (h : s.threadStack c np = .ok (s', ok)) : s'.book = s.book := by
  obtain ⟨-, pgdirs, free, sz, size, rfl⟩ := threadStack_eq h
  exact (upd_book_eq _ c rfl).trans (upd_book_eq _ np rfl)

theorem countThread_book (h : s.countThread c = .ok s') : s'.book = s.book := by
  obtain ⟨m, -, rfl⟩ := countThread_eq h
  exact upd_book_eq s m rfl

theorem threadEntry_book (s : Kernel) (c np : Slot) :
    (s.threadEntry c np).book =
      s.book.set np
        { s.book.entry np with
          pid := (s.proc c).pid
          tid := s.nextThreadId
          parent := some c
          pgdir := (s.proc c).pgdir
          idx := (s.proc c).pgdirRefIdx } := by
  rw [threadEntry_eq]
  exact upd_book _ np _

theorem threadEntry_layout (s : Kernel) (c np : Slot) :
    (s.threadEntry c np).layout =
      { s.layout with sz := update s.layout.sz np (s.proc c).sz } := by
  rw [threadEntry_eq]
  exact upd_layout _ np _

/-- The stack of the new thread `np` is made from what `allocuvm` leaves: the
directory `d` and the return value `r`. -/
def Stacked (s : Kernel) (c np : Slot) (g : PgdirId) (d : PgDir) (r : Nat) (ok : Bool)
    (s' : Kernel) : Prop :=
  r = 0 ∧ ok = false ∧
    s'.layout =
      { sz := update s.layout.sz np 0, pgdirs := update s.pgdirs g d } ∨
  r ≠ 0 ∧ ok = true ∧ ∃ d', clearpteu d (r - 2 * PGSIZE) = .ok d' ∧
    s'.layout =
      { sz := update (update s.layout.sz np r) c
          (uint (r + PGSIZE * (1024 - 2)))
        pgdirs := update s.pgdirs g d' }

theorem Stacked.congr {s'' : Kernel} {r : Nat} (h : Stacked s c np g d r ok s')
    (hl : s''.layout = s'.layout) : Stacked s c np g d r ok s'' := by
  unfold Stacked at *
  rw [hl]
  exact h

/-- The size the new entry had before does not matter. -/
theorem Stacked.of_layout {s1 : Kernel} {r z : Nat} (h : Stacked s1 c np g d r ok s')
    (hl : s1.layout = { s.layout with sz := update s.layout.sz np z }) :
    Stacked s c np g d r ok s' := by
  have hdirs : s1.pgdirs = s.pgdirs := congrArg Layout.pgdirs hl
  unfold Stacked at *
  rw [hl, hdirs] at h
  simp only [update_idem] at h
  exact h

theorem threadStack_layout (h : s.threadStack c np = .ok (s', ok)) :
    ∃ g d free r, (s.proc np).pgdir = some g ∧
      allocuvm (s.pgdirs g) s.freelist (pgRoundUp (s.proc c).sz)
        (uint (pgRoundUp (s.proc c).sz + 2 * PGSIZE)) = .ok (d, free, r) ∧
      Stacked s c np g d r ok s' := by
  obtain ⟨_, _, h⟩ := bind_eq_ok.mp h
  split at h
  · contradiction
  next g hg =>
  obtain ⟨⟨d, free, r⟩, h1, h⟩ := bind_eq_ok.mp h
  refine ⟨g, d, free, r, hg, h1, ?_⟩
  simp only at h
  split at h
  · next hr =>
    cases h
    refine .inl ⟨hr, rfl, ?_⟩
    subst hr
    exact upd_layout { s with pgdirs := update s.pgdirs g d, freelist := free }
      np fun x => { x with sz := 0 }
  · next hr =>
    obtain ⟨d', h2, h⟩ := bind_eq_ok.mp h
    cases h
    have hd : (update s.pgdirs g d) g = d := update_self ..
    refine .inr ⟨hr, rfl, d', ?_, ?_⟩
    · rw [← hd]
      exact h2
    · have hu := upd_layout
        { s with pgdirs := update s.pgdirs g d, freelist := free } np
          fun x => { x with sz := r }
      rw [upd_layout]
      simp only [Layout.mk.injEq]
      refine ⟨congrArg (fun z => update z c _) (congrArg Layout.sz hu), ?_⟩
      exact update_idem ..

/-- `thread_create` up to the files of the new thread, in the book. -/
theorem threadMade_book {s2 : Kernel} {i : Fin NPROC} (hc : (s.proc c).state ≠ .unused)
    (h1 : s.allocproc = (s1, some np))
    (hi : ((s1.threadEntry c np).proc np).pgdirRefIdx = some i)
    (h2 : { s1.threadEntry c np with
      pgdirRef := update (s1.threadEntry c np).pgdirRef i
        ((s1.threadEntry c np).pgdirRef i + 1) }.dupAll c np = .ok s2) :
    c ≠ np ∧ (s.proc np).state = .unused ∧ (s.proc c).pgdirRefIdx = some i ∧
      s2.book = s.book.share c np i .embryo s1.nextThreadId := by
  obtain ⟨hnp, hb1⟩ := allocproc_some_book h1
  have hne : c ≠ np := by
    rintro rfl
    exact hc hnp
  have hec : (s1.proc c).entry = (s.proc c).entry := by
    have he := congrFun (congrArg Book.entry hb1) c
    exact he.trans (Book.set_entry_of_ne s.book _ hne)
  have hix : (s1.proc c).pgdirRefIdx = (s.proc c).pgdirRefIdx := congrArg Entry.idx hec
  have hpid : (s1.proc c).pid = (s.proc c).pid := congrArg Entry.pid hec
  have hpg : (s1.proc c).pgdir = (s.proc c).pgdir := congrArg Entry.pgdir hec
  have href : s1.pgdirRef = s.pgdirRef := congrArg Book.pgdirRef hb1
  have hb2 := threadEntry_book s1 c np
  have hidx : (s.proc c).pgdirRefIdx = some i := by
    have he := congrArg Entry.idx (congrFun (congrArg Book.entry hb2) np)
    rw [Book.set_entry_same] at he
    exact hix ▸ he.symm.trans hi
  refine ⟨hne, hnp, hidx, (filesOnly_dupAll c np h2).book.trans ?_⟩
  refine (congrArg (fun b => { b with
    pgdirRef := update s1.pgdirRef i (s1.pgdirRef i + 1) }) hb2).trans ?_
  rw [hb1, hpid, hpg, hix, hidx, href]
  simp [Book.embryo, Book.share, Book.set, Proc.entry]

theorem threadRun_book {s3 s4 : Kernel} {i : Fin NPROC} {tid : Int}
    (hb : s3.book = s.book.share c np i .embryo tid) (h4 : s3.countThread c = .ok s4)
    (h : (s4.upd np fun x => { x with state := .runnable }).shareWithThread c np = .ok s') :
    s'.book = s.book.share c np i .runnable tid := by
  rw [(sharesOnly_shareWithThread h).book, upd_state_book, countThread_book h4, hb]
  simp [Book.share, Book.set, ProcState.settled]

end Kernel
end Xv6
