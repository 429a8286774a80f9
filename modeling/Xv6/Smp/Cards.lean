import Xv6.Book.Step
import Xv6.Smp
import Xv6.Stride.Turn

/-!
# Xv6.Smp.Cards

What one step of a process on a CPU does to the process table, as far as
running, sleeping, ending and joining are concerned.

The *card* of an entry is its state, thread id, parent, channel, return value
and kernel stack.  Any step may wake sleepers.
-/

namespace Xv6

open Lib

/-- What the rules for running, sleeping and ending see of an entry. -/
structure Card where
  state : ProcState
  tid : Int
  parent : Option Slot
  chan : Chan
  threadReturn : Nat
  kstack : Option Frame

/-- The card of an entry. -/
def Proc.card (x : Proc) : Card where
  state := x.state
  tid := x.tid
  parent := x.parent
  chan := x.chan
  threadReturn := x.threadReturn
  kstack := x.kstack

/-- The card with another state. -/
def Card.withState (e : Card) (st : ProcState) : Card := { e with state := st }

/-- The card with another parent. -/
def Card.withParent (e : Card) (p : Option Slot) : Card := { e with parent := p }

/-- The card of an entry after `clear_proc`. -/
def Card.cleared (e : Card) : Card :=
  { e with state := .unused, tid := 0, parent := none, threadReturn := 0, kstack := none }

/-- The entry may have been woken. -/
def Card.Wakes (a b : Card) : Prop := ∃ st, Woken a.state st ∧ b = a.withState st

theorem Card.Wakes.refl (a : Card) : a.Wakes a := ⟨a.state, .refl _, rfl⟩

theorem Card.Wakes.trans {a b c : Card} (hab : a.Wakes b) (hbc : b.Wakes c) : a.Wakes c := by
  obtain ⟨st, hst, rfl⟩ := hab
  obtain ⟨st', hst', rfl⟩ := hbc
  exact ⟨st', hst.trans hst', rfl⟩

theorem Card.Wakes.eq {a b : Card} (h : a.Wakes b) (ha : a.state ≠ .sleeping) : b = a := by
  obtain ⟨st, hst | ⟨hs, -⟩, rfl⟩ := h
  · rw [hst]
    rfl
  · exact absurd hs ha

theorem Card.Wakes.eq_of_sleeping {a b : Card} (h : a.Wakes b) (hb : b.state = .sleeping) :
    b = a := by
  obtain ⟨st, hst | ⟨-, hs⟩, rfl⟩ := h
  · rw [hst]
    rfl
  · subst hs
    contradiction

theorem Card.Wakes.tid {a b : Card} (h : a.Wakes b) : b.tid = a.tid := by
  obtain ⟨_, -, rfl⟩ := h
  rfl

theorem Card.Wakes.withParent {a b : Card} (h : a.Wakes b) (p : Option Slot) :
    (a.withParent p).Wakes (b.withParent p) := by
  obtain ⟨st, hst, rfl⟩ := h
  exact ⟨st, hst, rfl⟩

theorem Card.Wakes.chan {a b : Card} (h : a.Wakes b) : b.chan = a.chan := by
  obtain ⟨_, -, rfl⟩ := h
  rfl

theorem Card.Wakes.threadReturn {a b : Card} (h : a.Wakes b) : b.threadReturn = a.threadReturn := by
  obtain ⟨_, -, rfl⟩ := h
  rfl

theorem Card.Wakes.parent {a b : Card} (h : a.Wakes b) : b.parent = a.parent := by
  obtain ⟨_, -, rfl⟩ := h
  rfl

namespace Kernel

variable {s s1 s' : Kernel} {c p : Slot}

/-! ## Steps that touch no card -/

/-- Nothing has happened to the cards but wakeups. -/
structure Awake (s s' : Kernel) : Prop where
  card : ∀ q, (s.proc q).card.Wakes (s'.proc q).card
  initproc : s'.initproc = s.initproc
  nextThreadId : s'.nextThreadId = s.nextThreadId

theorem Awake.refl (s : Kernel) : Awake s s := ⟨fun _ => .refl _, rfl, rfl⟩

theorem Awake.trans (h1 : Awake s s1) (h2 : Awake s1 s') : Awake s s' where
  card q := (h1.card q).trans (h2.card q)
  initproc := h2.initproc.trans h1.initproc
  nextThreadId := h2.nextThreadId.trans h1.nextThreadId

theorem ignoresMemory_card : IgnoresMemory Proc.card := fun _ _ _ _ _ => rfl

theorem SamePart.awake (h : SamePart Proc.card s s') : Awake s s' where
  card q := h.entry q ▸ .refl _
  initproc := congrArg (fun g => g.1) h.globals
  nextThreadId := congrArg (fun g => g.2.2.1) h.globals

theorem FilesOnly.awake (h : FilesOnly p s s') : Awake s s' := by
  obtain ⟨pr, ft, ic, pp, fr, rfl, hall⟩ := h
  refine ⟨fun q => ?_, rfl, rfl⟩
  obtain ⟨st, of, wd, he, hw, -⟩ := hall q
  simp only [proc] at he hw ⊢
  rw [he]
  exact ⟨st, hw, rfl⟩

theorem SharesOnly.card (h : SharesOnly s s') (q : Slot) : (s'.proc q).card = (s.proc q).card := by
  obtain ⟨t, rfl, hall⟩ := h
  obtain ⟨a, b, c, d, he⟩ := hall q
  simp only [proc] at he ⊢
  rw [he]
  rfl

theorem SharesOnly.awake (h : SharesOnly s s') : Awake s s' := by
  refine ⟨fun q => h.card q ▸ .refl _, ?_, ?_⟩
  · obtain ⟨t, rfl, -⟩ := h
    rfl
  · obtain ⟨t, rfl, -⟩ := h
    rfl

theorem awake_wakeup1 (s : Kernel) (chan : Chan) : Awake s (s.wakeup1 chan) :=
  (filesOnly_wakeup1 s.initproc s chan).awake

theorem awake_setFiles (s : Kernel) (c : Slot) (f : FilesAfter) : Awake s (s.setFiles c f) := by
  have hu : SamePart Proc.card s (s.upd c fun x => { x with ofile := f.ofile, cwd := f.cwd }) :=
    samePart_upd s c rfl
  have hs : SamePart Proc.card s (s.setFiles c f) := hu.trans (.of_ptable rfl rfl)
  exact hs.awake

theorem awake_kill (s : Kernel) (pid : Int) : Awake s (s.kill pid).1 := by
  unfold kill
  split
  · next p _ =>
    refine ⟨fun q => ?_, rfl, rfl⟩
    by_cases hq : q = p
    · subst hq
      simp only [upd_proc_same]
      split
      · next hs => exact ⟨.runnable, .inr ⟨hs, rfl⟩, rfl⟩
      · exact .refl _
    · rw [upd_proc_of_ne s _ hq]
      exact .refl _
  · exact .refl s

/-! ## Steps that touch one card -/

/-- The entry `p` has the card `e` now; otherwise there were only wakeups. -/
structure CardAt (s : Kernel) (p : Slot) (e : Card) (s' : Kernel) : Prop where
  same : (s'.proc p).card = e
  other : ∀ q, q ≠ p → (s.proc q).card.Wakes (s'.proc q).card
  initproc : s'.initproc = s.initproc

variable {g : Proc → Proc} {e : Card}

theorem cardAt_upd (he : (g (s1.proc p)).card = e) (hproc : s1.proc = s.proc)
    (hi : s1.initproc = s.initproc) : CardAt s p e (s1.upd p g) where
  same := by simpa using he
  other q hq := by
    rw [upd_proc_of_ne s1 g hq, hproc]
    exact .refl _
  initproc := hi

theorem CardAt.of_awake (h1 : Awake s s1) (h : CardAt s1 p e s') : CardAt s p e s' where
  same := h.same
  other q hq := (h1.card q).trans (h.other q hq)
  initproc := h.initproc.trans h1.initproc

theorem Awake.cardAt (h : Awake s s') (hp : (s.proc p).state ≠ .sleeping) :
    CardAt s p (s.proc p).card s' where
  same := (h.card p).eq hp
  other q _ := h.card q
  initproc := h.initproc

theorem CardAt.upd {f : Card → Card} (hg : ∀ x, (g x).card = f x.card)
    (h : CardAt s p e s1) : CardAt s p (f e) (s1.upd p g) where
  same := by rw [upd_proc_same, hg, h.same]
  other q hq := by
    rw [upd_proc_of_ne s1 g hq]
    exact h.other q hq
  initproc := h.initproc

/-- A selection charges pass values and rearranges the queue. -/
theorem sharesOnly_search {t : PTable} {i : Nat}
    (h : s.ptable.findIdxOfStrideToRun = .ok (t, i)) : SharesOnly s { s with ptable := t } := by
  obtain ⟨⟨k, hk⟩, -⟩ := PTable.findIdxOfStrideToRun_eq_ok h
  rcases PTable.search_cases hk with ⟨-, rfl⟩ | ⟨r, j, -, -, -, hsift⟩
  · exact .refl s
  obtain ⟨q, rfl⟩ := PTable.strideQueueHeapifyDown_eq hsift
  refine ⟨_, rfl, fun p => ?_⟩
  by_cases hp : p = r
  · subst hp
    exact ⟨_, _, _, _, Function.update_self ..⟩
  · exact ⟨_, _, _, _, Function.update_of_ne hp ..⟩

/-- What a turn of the scheduler that looks in the stride queue does. -/
theorem strideTurn_cases {o : Option Slot} (h : s.strideTurn = .ok (s', o)) :
    o = none ∧ Awake s s' ∨
      ∃ p, o = some p ∧ CardAt s p ((s.proc p).card.withState .running) s' ∧
        s'.nextThreadId = s.nextThreadId ∧
        (s.ptable.ReadyBelow → (s.proc p).state = .runnable) := by
  obtain ⟨⟨m, b⟩, h1, hrun⟩ := bind_eq_ok.mp h
  have hselect := Machine.selectStrideOrMLFQ_cases h1
  cases b with
  | false =>
    cases hrun
    refine .inl ⟨rfl, ?_⟩
    rcases hselect with hk | ⟨-, -, hk⟩
    · rw [hk]
      exact .refl s
    · rw [hk]
      exact (sharesOnly_sum s 0).awake
  | true =>
    have hk : m.kernel = s := by
      rcases hselect with hk | ⟨hb, -⟩
      · exact hk
      · contradiction
    subst hk
    obtain ⟨⟨m', o'⟩, h2, hrun⟩ := bind_eq_ok.mp hrun
    cases hrun
    obtain ⟨⟨t, i⟩, h3, h4⟩ := bind_eq_ok.mp h2
    have hshares := sharesOnly_search h3
    simp only at h4
    split at h4
    · next hin =>
      obtain ⟨p, hp, h4⟩ := bind_eq_ok.mp h4
      cases h4
      refine .inr ⟨p, rfl, ?_, rfl, fun hready => hready.taken h3 hin (PTable.deref_eq_ok.mp hp)⟩
      have hcard := hshares.card p
      refine .of_awake hshares.awake (cardAt_upd ?_ rfl rfl)
      exact congrArg (Card.withState · .running) hcard
    · cases h4
      exact .inl ⟨rfl, hshares.awake⟩

theorem CardAt.then_awake (h : CardAt s p e s1) (he : e.state ≠ .sleeping)
    (h' : Awake s1 s') : CardAt s p e s' where
  same := by
    have hp := h'.card p
    rw [h.same] at hp
    exact hp.eq he
  other q hq := (h.other q hq).trans (h'.card q)
  initproc := h'.initproc.trans h.initproc

theorem cardAt_clearProc {pid : Int} (h : s.clearProc p = .ok (s', pid)) :
    CardAt s p (s.proc p).card.cleared s' ∧ s'.nextThreadId = s.nextThreadId := by
  obtain ⟨ref, free, calls, rfl⟩ := clearProc_eq h
  exact ⟨cardAt_upd rfl rfl rfl, rfl⟩

variable {np : Slot}

theorem cardAt_allocproc (h : s.allocproc = (s', some np)) :
    (s.proc np).state = .unused ∧ ∃ e, CardAt s np e s' ∧ e.state = .embryo ∧ e.tid = 0 ∧
      s'.nextThreadId = s.nextThreadId := by
  obtain ⟨hnp, -, f, free, -, rfl⟩ := allocproc_some h
  exact ⟨hnp, _, cardAt_upd rfl rfl rfl, rfl, rfl, rfl⟩

theorem cardAt_allocproc_none (h : s.allocproc = (s', none)) :
    s' = s ∨ ∃ np e, (s.proc np).state = .unused ∧ CardAt s np e s' ∧ e.state = .unused ∧
      e.tid = 0 ∧ s'.nextThreadId = s.nextThreadId := by
  rcases allocproc_none h with ⟨-, rfl⟩ | ⟨-, np, hnp, -, rfl⟩
  · exact .inl rfl
  · exact .inr ⟨np, _, hnp, cardAt_upd rfl rfl rfl, rfl, rfl, rfl⟩

theorem cardAt_forkFailed (h : s.forkFailed np = .ok s') :
    ∃ e, CardAt s np e s' ∧ e.state = .unused ∧ e.tid = (s.proc np).tid ∧
      s'.nextThreadId = s.nextThreadId := by
  obtain ⟨free, rfl⟩ := forkFailed_eq h
  exact ⟨_, cardAt_upd rfl rfl rfl, rfl, rfl, rfl⟩

/-- `fork` up to its last critical section, for an entry in preparation. -/
theorem cardAt_dressChild {d : PgDir} (hnp : (s.proc np).state = .embryo)
    (h : s.dressChild c np d = .ok s') :
    ∃ e, CardAt s np e s' ∧ e.state = .embryo ∧ e.tid = (s.proc np).tid ∧
      s'.nextThreadId = s.nextThreadId := by
  obtain ⟨s1, h1, h⟩ := bind_eq_ok.mp h
  have hnew : SamePart Proc.card s (s.newPgdir d) := .of_ptable rfl rfl
  have hentry := (hnew.awake.cardAt (p := np) (by simp [hnp])).upd
    (g := fun x =>
      { x with
        pgdir := some s.nextPgdir
        sz := ((s.newPgdir d).proc c).sz
        parent := some c }) (f := (Card.withParent · (some c))) fun _ => rfl
  have hrest := (allocateNewPgdirIdx_samePart ignoresMemory_card h1).awake.trans
    (filesOnly_dupAll c np h).awake
  have hstate : ((s.proc np).card.withParent (some c)).state = .embryo := hnp
  exact ⟨_, hentry.then_awake (by simp [hstate]) hrest, hstate, rfl, hrest.nextThreadId⟩

theorem cardAt_fillChild {ok : Bool} (hnp : (s.proc np).state = .embryo)
    (h : s.fillChild c np = .ok (s', ok)) :
    ∃ e, CardAt s np e s' ∧ e.tid = (s.proc np).tid ∧ s'.nextThreadId = s.nextThreadId ∧
      e.state = if ok then .embryo else .unused := by
  unfold fillChild at h
  split at h
  · contradiction
  obtain ⟨⟨o, free⟩, -, h⟩ := bind_eq_ok.mp h
  have hfree : SamePart Proc.card s { s with freelist := free } := .of_ptable rfl rfl
  cases o with
  | none =>
    obtain ⟨s1, h1, h⟩ := bind_eq_ok.mp h
    cases h
    obtain ⟨e, hat, hst, htid, hn⟩ := cardAt_forkFailed h1
    exact ⟨e, hat.of_awake hfree.awake, htid, hn, hst⟩
  | some d =>
    obtain ⟨s1, h1, h⟩ := bind_eq_ok.mp h
    cases h
    obtain ⟨e, hat, hst, htid, hn⟩ :=
      cardAt_dressChild (s := { s with freelist := free }) hnp h1
    exact ⟨e, hat.of_awake hfree.awake, htid, hn, hst⟩

/-- `thread_create` between its critical sections. -/
theorem cardAt_fillThread {ok : Bool} (hnp : (s.proc np).state = .embryo)
    (h : s.fillThread c np = .ok (s', ok)) :
    ∃ e, CardAt s np e s' ∧ e.tid = s.nextThreadId ∧ s'.nextThreadId = s.nextThreadId + 1 ∧
      e.state = .embryo := by
  have hentry : ∃ e, CardAt s np e (s.threadEntry c np) ∧ e.tid = s.nextThreadId ∧
      e.state = .embryo := by
    rw [threadEntry_eq]
    exact ⟨_, cardAt_upd rfl rfl rfl, rfl, hnp⟩
  obtain ⟨e, hat, htid, hst⟩ := hentry
  have hrest : Awake (s.threadEntry c np) s' := by
    obtain ⟨-, -, h⟩ := bind_eq_ok.mp h
    split at h
    · contradiction
    next i _ =>
    obtain ⟨s1, h1, h⟩ := bind_eq_ok.mp h
    obtain ⟨⟨s2, ok'⟩, h2, h⟩ := bind_eq_ok.mp h
    have hcount : SamePart Proc.card (s.threadEntry c np) { s.threadEntry c np with
        pgdirRef := Function.update (s.threadEntry c np).pgdirRef i
          ((s.threadEntry c np).pgdirRef i + 1) } := .of_ptable rfl rfl
    have hstack := (hcount.awake.trans (filesOnly_dupAll c np h1).awake).trans
      (threadStack_samePart ignoresMemory_card h2).awake
    cases ok' with
    | false =>
      cases h
      exact hstack
    | true =>
      obtain ⟨s3, h3, h⟩ := bind_eq_ok.mp h
      cases h
      exact hstack.trans (countThread_samePart ignoresMemory_card h3).awake
  exact ⟨e, hat.then_awake (by simp [hst]) hrest, htid, hrest.nextThreadId, hst⟩

/-! ## Ending -/

/-- `c` has become a zombie with the return value `v`, and its children belong
to init.  Whoever slept on the parent has been woken, and if a child was a
zombie, whoever slept on init. -/
structure Buried (s : Kernel) (c : Slot) (v : Nat) (s' : Kernel) : Prop where
  state : (s'.proc c).state = .zombie
  tid : (s'.proc c).tid = (s.proc c).tid
  threadReturn : (s'.proc c).threadReturn = v
  other : ∀ q, q ≠ c →
    ((s.proc q).card.withParent (heir s.initproc c (s.proc q).parent)).Wakes (s'.proc q).card
  woken : ∀ q, (s'.proc q).state = .sleeping → (s.proc q).chan ≠ .ofPtr (s.proc c).parent
  kids : ∀ z q, (s.proc z).parent = some c → (s.proc z).state = .zombie →
    (s'.proc q).state = .sleeping → (s.proc q).chan ≠ .proc s.initproc
  initproc : s'.initproc = s.initproc
  nextThreadId : s'.nextThreadId = s.nextThreadId

theorem reparentIn_card (s : Kernel) (p : Slot) (qs : List Slot) (q : Slot) :
    ((s.reparentIn p qs).proc q).card = (s.proc q).card.withParent
      (if q ∈ qs then heir s.initproc p (s.proc q).parent else (s.proc q).parent) := rfl

theorem chan_ne_of_wakeup1 {chan : Chan} {q : Slot}
    (h : ((s.wakeup1 chan).proc q).state = .sleeping) : (s.proc q).chan ≠ chan := by
  intro hchan
  by_cases hst : (s.proc q).state = .sleeping
  · have hq : ((s.wakeup1 chan).proc q).state = .runnable := by
      simp [wakeup1, proc] at hst hchan ⊢
      simp [hst, hchan]
    rw [hq] at h
    contradiction
  · have hcard := ((awake_wakeup1 s chan).card q).eq hst
    exact hst ((congrArg Card.state hcard).symm.trans h)

/-- Passing on a zombie wakes whoever sleeps on init. -/
theorem chan_ne_of_passChildren {z q : Slot} (hz : (s.proc z).parent = some p)
    (hst : (s.proc z).state = .zombie) (hq : ((s.passChildren p).proc q).state = .sleeping) :
    (s.proc q).chan ≠ .proc s.initproc := by
  obtain ⟨l, l', hsplit⟩ := List.append_of_mem (mem_slots z)
  have hmem : z ∉ l := by
    have hnodup : (l ++ z :: l').Nodup := hsplit ▸ List.nodup_finRange NPROC
    exact fun hl => (List.nodup_append.mp hnodup).2.2 z hl z List.mem_cons_self rfl
  have hloop : s.passChildren p =
      l'.foldl (passChild p) (passChild p (l.foldl (passChild p) s) z) := by
    rw [passChildren, hsplit, List.foldl_append, List.foldl_cons]
  -- the loop up to `z`, which changes nothing for `z`
  have hbefore := (filesOnly_foldl_passChild p l s).awake
  generalize l.foldl (passChild p) s = k at hbefore hloop
  have hcard : (k.proc z).card = (s.proc z).card := by
    have hwake := hbefore.card z
    rw [reparentIn_card, if_neg hmem] at hwake
    exact hwake.eq (by simp [Proc.card, Card.withParent, hst])
  have hparent : (k.proc z).parent = some p := (congrArg Card.parent hcard).trans hz
  have hzombie : (k.proc z).state = .zombie := (congrArg Card.state hcard).trans hst
  -- the turn for `z`
  have hturn : passChild p k z =
      (k.upd z fun x => { x with parent := some k.initproc }).wakeup1 (.proc k.initproc) := by
    unfold passChild
    simp only [if_pos hparent, upd_proc_same, if_pos hzombie]
    rfl
  -- the rest of the loop
  have hafter := (filesOnly_foldl_passChild p l' (passChild p k z)).awake
  rw [← hloop] at hafter
  generalize s.passChildren p = k' at hq hafter
  have hq1 : ((passChild p k z).proc q).state = .sleeping := by
    have he := congrArg Card.state ((hafter.card q).eq_of_sleeping hq)
    exact he.symm.trans hq
  rw [hturn] at hq1
  have hchan : (k.proc q).chan = (s.proc q).chan := (hbefore.card q).chan
  have hinit : k.initproc = s.initproc := hbefore.initproc
  rw [← hchan, ← hinit, ← upd_view_eq (f := Proc.chan) k z
    (g := fun x => { x with parent := some k.initproc }) rfl q]
  exact chan_ne_of_wakeup1 hq1

theorem leaveStride_awake {cur : Slot} (h : s.leaveStride cur p = .ok s') :
    s'.proc = s.proc ∧ Awake s s' := by
  obtain ⟨queue, size, sum, junk, rfl⟩ := leaveStride_eq h
  exact ⟨rfl, fun _ => .refl _, rfl, rfl⟩

/-- `wakeup1` on the parent of `c` and passing on the children of `c`. -/
theorem passChildren_wakeup1 (hproc : s1.proc = s.proc) (h1 : Awake s s1)
    (hs' : s' = (s1.wakeup1 (.ofPtr (s.proc c).parent)).passChildren c) :
    (∀ q, ((s.proc q).card.withParent (heir s.initproc c (s.proc q).parent)).Wakes
      (s'.proc q).card) ∧
    (∀ q, (s'.proc q).state = .sleeping → (s.proc q).chan ≠ .ofPtr (s.proc c).parent) ∧
    (∀ z q, (s.proc z).parent = some c → (s.proc z).state = .zombie →
      (s'.proc q).state = .sleeping → (s.proc q).chan ≠ .proc s.initproc) ∧
    s'.initproc = s.initproc ∧ s'.nextThreadId = s.nextThreadId := by
  have hpass := (filesOnly_passChildren c (s1.wakeup1 (.ofPtr (s.proc c).parent))).awake
  have hkids : ∀ z q, ((s1.wakeup1 (.ofPtr (s.proc c).parent)).proc z).parent = some c →
      ((s1.wakeup1 (.ofPtr (s.proc c).parent)).proc z).state = .zombie →
      (s'.proc q).state = .sleeping → ((s1.wakeup1 (.ofPtr (s.proc c).parent)).proc q).chan ≠
        .proc (s1.wakeup1 (.ofPtr (s.proc c).parent)).initproc := by
    rw [hs']
    exact fun z q => chan_ne_of_passChildren
  have hsleep : ∀ q, ((s1.wakeup1 (.ofPtr (s.proc c).parent)).proc q).state = .sleeping →
      (s.proc q).chan ≠ .ofPtr (s.proc c).parent := by
    intro q hq
    have hne := chan_ne_of_wakeup1 hq
    rwa [hproc] at hne
  rw [← hs'] at hpass
  have hwake := h1.trans (awake_wakeup1 s1 (.ofPtr (s.proc c).parent))
  generalize s1.wakeup1 (.ofPtr (s.proc c).parent) = k at hpass hkids hsleep hwake
  have hcard : ∀ q, ((k.proc q).card.withParent (heir s.initproc c (s.proc q).parent)).Wakes
      (s'.proc q).card := by
    intro q
    have hq := hpass.card q
    have hparent : (k.proc q).parent = (s.proc q).parent := (hwake.card q).parent
    rwa [reparent, reparentIn_card, if_pos (mem_slots q), hparent, hwake.initproc] at hq
  refine ⟨fun q => ((hwake.card q).withParent _).trans (hcard q), fun q hq => ?_,
    fun z q hz hst hq => ?_, hpass.initproc.trans hwake.initproc,
    hpass.nextThreadId.trans hwake.nextThreadId⟩
  · have hstate : (s'.proc q).state = (k.proc q).state :=
      congrArg Card.state ((hcard q).eq_of_sleeping hq)
    exact hsleep q (hstate.symm.trans hq)
  · have hz' : (k.proc z).card = (s.proc z).card := (hwake.card z).eq (by simp [Proc.card, hst])
    have hchan : (k.proc q).chan = (s.proc q).chan := (hwake.card q).chan
    rw [← hchan, ← hwake.initproc]
    exact hkids z q ((congrArg Card.parent hz').trans hz) ((congrArg Card.state hz').trans hst) hq

theorem buried_bury (h : s.bury c c = .ok s') : Buried s c (s.proc c).threadReturn s' := by
  obtain ⟨s1, h1, h⟩ := bind_eq_ok.mp h
  obtain ⟨hproc, hleave⟩ := leaveStride_awake h1
  simp only [hproc, pure_eq_ok, Except.ok.injEq] at h
  obtain ⟨hcard, hwoken, hkids, hinit, hthread⟩ := passChildren_wakeup1 hproc hleave rfl
  generalize (s1.wakeup1 (.ofPtr (s.proc c).parent)).passChildren c = k at h hcard hwoken hkids hinit hthread
  subst h
  -- the only sleepers are others, who are as before
  have hsleeper : ∀ q, ((k.upd c fun x => { x with state := .zombie }).proc q).state = .sleeping →
      (k.proc q).state = .sleeping := by
    intro q hq
    by_cases hqc : q = c
    · subst hqc
      simp at hq
    · rwa [upd_proc_of_ne k _ hqc] at hq
  refine ⟨by simp, ?_, ?_, fun q hq => ?_, fun q hq => hwoken q (hsleeper q hq),
    fun z q hz hst hq => hkids z q hz hst (hsleeper q hq), hinit, hthread⟩
  · rw [upd_proc_same]
    exact (hcard c).tid
  · rw [upd_proc_same]
    exact (hcard c).threadReturn
  · rw [upd_proc_of_ne k _ hq]
    exact hcard q

theorem buried_threadBury {v : Nat} (h : s.threadBury c v = .ok s') : Buried s c v s' := by
  have hb := buried_bury h
  have hreturn : ((s.upd c fun x => { x with threadReturn := v }).proc c).threadReturn = v := by simp
  have hparent : ((s.upd c fun x => { x with threadReturn := v }).proc c).parent =
      (s.proc c).parent := by simp
  have hchan : ∀ q, ((s.upd c fun x => { x with threadReturn := v }).proc q).chan =
      (s.proc q).chan := upd_view_eq (f := Proc.chan) s c rfl
  refine ⟨hb.state, hb.tid.trans ?_, hb.threadReturn.trans hreturn, fun q hq => ?_, fun q hq => ?_,
    fun z q hz hst hq => ?_, hb.initproc, hb.nextThreadId⟩
  · simp
  · have hq' := hb.other q hq
    rwa [upd_proc_of_ne s _ hq] at hq'
  · have hw := hb.woken q hq
    rwa [hchan, hparent] at hw
  · have hz' := upd_view_eq (f := fun x => (x.parent, x.state)) s c
      (g := fun x => { x with threadReturn := v }) rfl z
    have hk := hb.kids z q ((congrArg Prod.fst hz').trans hz) ((congrArg Prod.snd hz').trans hst) hq
    rwa [hchan] at hk

/-! ## Joining -/

theorem threadJoin_section {t : Int} {r : Scan} (h : s.threadJoin c t = .ok (s', r)) :
    (∃ p, (s.proc p).state = .zombie ∧ (s.proc p).tid = t ∧ (s.proc p).parent = some c ∧
      s.joinRetval c t = some (s.proc p).threadReturn ∧ CardAt s p (s.proc p).card.cleared s' ∧
      s'.nextThreadId = s.nextThreadId ∧ r = .done 0) ∨
    s.joinRetval c t = none ∧ (s' = s ∧ r = .done (-1) ∨ s' = s.sleepOn c (.proc c) ∧ r = .asleep ∧
      ∃ z, (s.proc z).parent = some c ∧ (s.proc z).tid = t) := by
  unfold threadJoin at h
  unfold joinRetval
  simp only at h
  split at h
  · next p hp =>
    have hkid := List.find?_some hp
    simp only [decide_eq_true_eq] at hkid
    obtain ⟨s1, h1, h⟩ := bind_eq_ok.mp h
    obtain ⟨⟨s2, pid⟩, h2, h⟩ := bind_eq_ok.mp h
    cases h
    have hstack := removeThreadStack_samePart ignoresMemory_card h1
    obtain ⟨hclear, hthread⟩ := cardAt_clearProc h2
    rw [hstack.entry p] at hclear
    exact .inl ⟨p, hkid.2, hkid.1.2, hkid.1.1, by rw [hp]; rfl, hclear.of_awake hstack.awake,
      hthread.trans hstack.awake.nextThreadId, rfl⟩
  · next hnone =>
    refine .inr ⟨by rw [hnone]; rfl, ?_⟩
    unfold scanEnd at h
    split at h
    · cases h
      exact .inl ⟨rfl, rfl⟩
    next hkids =>
    cases h
    obtain ⟨hkids, -⟩ := not_or.mp hkids
    obtain ⟨z, -, hz⟩ := List.any_eq_true.mp ((Bool.not_eq_false _).mp hkids)
    exact .inr ⟨rfl, rfl, z, of_decide_eq_true hz⟩

/-- A scan that found nothing: no child with that thread id is a zombie. -/
theorem not_zombie_of_joinRetval {t : Int} (h : s.joinRetval c t = none) {q : Slot}
    (hparent : (s.proc q).parent = some c) (htid : (s.proc q).tid = t) :
    (s.proc q).state ≠ .zombie := by
  intro hz
  unfold joinRetval at h
  have hfind := List.find?_eq_none.mp (Option.map_eq_none_iff.mp h) q (mem_slots q)
  simp [hparent, htid, hz] at hfind

end Kernel
end Xv6
