import Xv6.Book.Step
import Xv6.Book.Tree

/-!
# Xv6.Threads.Family

Processes and their threads while every thread is created by a process: the
parent of a thread is the process it belongs to, and `num_of_threads` of a
process is the number of its threads.

When a thread creates a thread, `thread_create` counts in the parent of the
creator, and `thread_join` counts down in the creator.
-/

namespace Xv6

open Lib Function

namespace Book

variable {e : Entry} {c m np p q : Slot}

/-! ## Parents -/

/-- The entry `q` is a thread that was created successfully. -/
def Thread (b : Book) (q : Slot) : Prop := (b.entry q).tid ≠ 0 ∧ (b.entry q).state ≠ .embryo

instance (b : Book) (q : Slot) : Decidable (b.Thread q) := inferInstanceAs (Decidable (_ ∧ _))

/-- The invariant of parents and identifiers, with `nextTid` the next thread id. -/
structure Kin (b : Book) (nextTid : Int) : Prop where
  tree : b.Tree
  nextTid_pos : 0 < nextTid
  unused_tid : ∀ p, ¬ b.Live p → (b.entry p).tid = 0
  pid_lt : ∀ p, b.Live p → (b.entry p).pid < b.nextpid
  process_pid : ∀ p q, b.Live p → b.Live q → (b.entry p).tid = 0 → (b.entry q).tid = 0 →
    (b.entry p).pid = (b.entry q).pid → p = q
  tid_lt : ∀ p, (b.entry p).tid < nextTid
  tid_inj : ∀ p q, (b.entry p).tid ≠ 0 → (b.entry p).tid = (b.entry q).tid → p = q
  parent : ∀ p, b.Live p → p ≠ b.initproc → ∃ m, (b.entry p).parent = some m ∧
    (b.entry m).state = .runnable ∧ (b.entry m).tid = 0
  thread_pid : ∀ q m, b.Thread q → (b.entry q).parent = some m →
    (b.entry q).pid = (b.entry m).pid
  owner : ∀ q c, (b.entry q).tid ≠ 0 → (b.entry c).state = .runnable → (b.entry c).tid = 0 →
    (b.entry q).pid = (b.entry c).pid → (b.entry q).parent = some c

theorem live_of_runnable {b : Book} (h : (b.entry p).state = .runnable) : b.Live p := by
  simp [Live, h]

namespace Kin

variable {b b' : Book} {n n' : Int}

theorem live_of_tid (h : b.Kin n) (hq : (b.entry q).tid ≠ 0) : b.Live q := fun hu =>
  hq (h.unused_tid q (not_not.mpr hu))

theorem ne_init_of_tid (h : b.Kin n) (hq : (b.entry q).tid ≠ 0) : q ≠ b.initproc := by
  rintro rfl
  exact hq h.tree.init_tid

/-- The invariant does not depend on page directories and counters. -/
theorem congr (h : b.Kin n) (hinit : b'.initproc = b.initproc) (hnext : b'.nextpid = b.nextpid)
    (he : ∀ q, (b'.entry q).state = (b.entry q).state ∧ (b'.entry q).pid = (b.entry q).pid ∧
      (b'.entry q).tid = (b.entry q).tid ∧ (b'.entry q).parent = (b.entry q).parent) :
    b'.Kin n := by
  have hlive : ∀ q, b'.Live q ↔ b.Live q := fun q => by rw [Live, Live, (he q).1]
  obtain ⟨htree, hpos, hunused, hpid, hproc, hlt, hinj, hparent, hthread, howner⟩ := h
  refine ⟨htree.congr hinit hnext he, hpos, ?_, ?_, ?_, ?_, ?_, ?_, ?_, ?_⟩
  all_goals grind [Thread]

/-- A new child of the process `c`: a process of its own or a thread of `c`. -/
theorem set_child (h : b.Kin n) (hnp : ¬ b.Live np)
    (hc : (b.entry c).state = .runnable) (htc : (b.entry c).tid = 0)
    (hentry : b'.entry = update b.entry np e) (hinit : b'.initproc = b.initproc)
    (hnext : b'.nextpid = b.nextpid + 1) (hparent : e.parent = some c)
    (hst : e.state = .runnable ∨ e.state = .embryo)
    (hid : e.tid = 0 ∧ e.pid = b.nextpid ∧ n' = n ∨
      e.tid = n ∧ e.pid = (b.entry c).pid ∧ n' = n + 1) : b'.Kin n' := by
  have hlive := live_of_runnable hc
  have hcn : c ≠ np := by
    rintro rfl
    exact hnp hlive
  have htree : b'.Tree := by
    refine h.tree.set_child hnp hc hentry hinit hnext hparent hst ?_ ?_
    · rcases hid with ⟨-, hp, -⟩ | ⟨-, hp, -⟩
      · rw [hp]
        exact h.tree.nextpid_pos
      · rw [hp]
        exact h.tree.pid_pos c hlive
    · intro ht
      rcases hid with ⟨ht', -⟩ | ⟨-, hp, -⟩
      · exact absurd ht' ht
      · exact hp
  have hsame : ∀ q, q ≠ np → b'.entry q = b.entry q := fun q hq => by
    rw [hentry, update_of_ne hq]
  have hnew : b'.entry np = e := by rw [hentry, update_self]
  have hnpinit := h.tree.ne_init_of_unused hnp
  have hchildless := h.tree.childless np hnpinit (.inl hnp)
  obtain ⟨-, hpos, hunused, hpid, hproc, hlt, hinj, hpar, hthread, howner⟩ := h
  refine ⟨htree, ?_, ?_, ?_, ?_, ?_, ?_, ?_, ?_, ?_⟩
  · grind
  · grind [Live]
  · grind [Live]
  · grind [Live]
  · grind [Live]
  · grind [Live]
  · intro p hp hpi
    by_cases hpn : p = np
    · exact ⟨c, by rw [hpn, hnew, hparent], by rw [hsame c hcn, hc], by rw [hsame c hcn, htc]⟩
    obtain ⟨m, hm, hms, hmt⟩ := hpar p (by grind [Live]) (hinit ▸ hpi)
    have hmn : m ≠ np := by
      rintro rfl
      exact hchildless p hm
    exact ⟨m, by rw [hsame p hpn, hm], by rw [hsame m hmn, hms], by rw [hsame m hmn, hmt]⟩
  · grind [Live, Thread]
  · grind [Live]

theorem vacate (h : b.Kin n) (hne : p ≠ b.initproc) (hchildless : ∀ q, (b.entry q).parent ≠ some p)
    (hv : b.Vacates p b') : b'.Kin n := by
  have htree := h.tree.vacate hne hchildless hv
  obtain ⟨hsame, hst, htid, -, hinit, hnext⟩ := hv
  obtain ⟨-, hpos, hunused, hpid, hproc, hlt, hinj, hpar, hthread, howner⟩ := h
  refine ⟨htree, hpos, ?_, ?_, ?_, ?_, ?_, ?_, ?_, ?_⟩
  · grind [Live]
  · grind [Live]
  · grind [Live]
  · grind [Live]
  · grind [Live]
  · intro q hq hqi
    have hqp : q ≠ p := by
      rintro rfl
      exact hq hst
    obtain ⟨m, hm, hms, hmt⟩ := hpar q (by grind [Live]) (hinit ▸ hqi)
    have hmp : m ≠ p := by
      rintro rfl
      exact hchildless q hm
    exact ⟨m, by rw [hsame q hqp, hm], by rw [hsame m hmp, hms], by rw [hsame m hmp, hmt]⟩
  · grind [Thread]
  · grind

theorem retract (h : b.Kin n) {g : Option PgdirId} (hnp : ¬ b.Live np) :
    (b.retract np g).Kin n := by
  have hne := h.tree.ne_init_of_unused hnp
  exact h.vacate hne (h.tree.childless np hne (.inl hnp)) (vacates_retract hnp)

theorem collect (h : b.Kin n) (hz : (b.entry p).state = .zombie) :
    ((b.dropRef p).clear p).Kin n := by
  have hne := h.tree.ne_init_of_zombie hz
  exact h.vacate hne (h.tree.childless p hne (.inr hz)) (vacates_collect b p)

/-- The parent after the end of a process `p` without threads. -/
theorem parent_die (h : ((b.die p).entry q).parent = some m) :
    (b.entry q).parent = some p ∧ m = b.initproc ∨
      (b.entry q).parent = some m ∧ m ≠ p := by
  simp only [Book.die, Kernel.heir] at h
  split at h
  · next hp => exact .inl ⟨hp, (Option.some.inj h).symm⟩
  next hp =>
  refine .inr ⟨h, ?_⟩
  rintro rfl
  exact hp h

theorem die (h : b.Kin n) (hp : b.Live p) (hinit : p ≠ b.initproc)
    (hemb : (b.entry p).state ≠ .embryo)
    (hchildren : ∀ q, b.Thread q → (b.entry q).parent ≠ some p) : (b.die p).Kin n := by
  have htree := h.tree.die hinit (h.tree.pid_pos p hp)
  have hlive := live_die hp
  have hst : ∀ q, q ≠ p → ((b.die p).entry q).state = (b.entry q).state := fun q hq => by
    simp [Book.die, hq]
  have hthread : ∀ q, (b.die p).Thread q → b.Thread q := fun q hq => by
    by_cases hqp : q = p
    · exact ⟨hq.1, hqp ▸ hemb⟩
    · exact ⟨hq.1, by rw [← hst q hqp]; exact hq.2⟩
  obtain ⟨hold, hpos, hunused, hpid, hproc, hlt, hinj, hpar, hpid', howner⟩ := h
  refine ⟨htree, hpos, ?_, ?_, ?_, hlt, hinj, ?_, ?_, ?_⟩
  · exact fun q hq => hunused q fun hl => hq ((hlive q).mpr hl)
  · exact fun q hq => hpid q ((hlive q).mp hq)
  · exact fun q r hq hr => hproc q r ((hlive q).mp hq) ((hlive r).mp hr)
  · intro q hq hqi
    obtain ⟨m, hm, hms, hmt⟩ := hpar q ((hlive q).mp hq) hqi
    by_cases hmp : m = p
    · refine ⟨b.initproc, ?_, ?_, hold.init_tid⟩
      · simp [Book.die, Kernel.heir, hm, hmp]
      · rw [hst _ hinit.symm]
        exact hold.init_state
    · refine ⟨m, ?_, ?_, hmt⟩
      · simp [Book.die, Kernel.heir, hm, hmp]
      · rw [hst m hmp]
        exact hms
  · intro q m hq hm
    rcases parent_die hm with ⟨hqp, -⟩ | ⟨hqm, -⟩
    · exact absurd hqp (hchildren q (hthread q hq))
    · exact hpid' q m (hthread q hq) hqm
  · intro q c hq hc htc hqc
    have hcp : c ≠ p := by
      rintro rfl
      simp [Book.die] at hc
    rw [hst c hcp] at hc
    have hown := howner q c hq hc htc hqc
    simp [Book.die, Kernel.heir, hown, hcp]

theorem image (h : b.Kin n) (c : Slot) (old : Option PgdirId) (i : Fin NPROC) :
    (((b.newImage c).dropOld c old).giveIdx c i).Kin n := by
  obtain ⟨ref, calls, hd⟩ := dropOld_eq (b.newImage c) c old
  rw [hd]
  refine h.congr rfl rfl fun q => ?_
  by_cases hq : q = c
  · subst hq
    simp [giveIdx, newImage]
  · simp [giveIdx, newImage, set, hq]

theorem startBook (p : Slot) (i : Fin NPROC) : (Kernel.startBook p i).Kin 1 := by
  have hentry : ∀ q, (Kernel.startBook p i).entry q =
      if q = p then
        { state := .runnable, pid := 1, tid := 0, parent := none, pgdir := some 1, idx := some i }
      else Proc.zero.entry := fun _ => rfl
  have hinit : (Kernel.startBook p i).initproc = p := rfl
  have hnext : (Kernel.startBook p i).nextpid = 2 := rfl
  have hzero : Proc.zero.entry.state = .unused ∧ Proc.zero.entry.tid = 0 ∧
      Proc.zero.entry.parent = none := ⟨rfl, rfl, rfl⟩
  refine ⟨.startBook p i, by decide, ?_, ?_, ?_, ?_, ?_, ?_, ?_, ?_⟩
  all_goals grind [Live, Thread]

end Kin

/-! ## Counting -/

/-- The threads with parent `m`. -/
def threadsOf (b : Book) (m : Slot) : Finset Slot :=
  Finset.univ.filter fun q => b.Thread q ∧ (b.entry q).parent = some m

theorem mem_threadsOf {b : Book} :
    q ∈ b.threadsOf m ↔ b.Thread q ∧ (b.entry q).parent = some m := by
  simp [threadsOf]

/-- The invariant of the counters. -/
structure Tallied (b : Book) (t : Tally) : Prop where
  kin : b.Kin t.nextTid
  num : ∀ m, b.Live m → (t.entry m).num = (b.threadsOf m).card
  forkedIn : ∀ p, (t.entry p).forkedIn = none
  embryo : ∀ p, (b.entry p).state = .embryo → t.lock = true

namespace Tallied

variable {b b' : Book} {t t' : Tally}

section

variable (h : b.Tallied t)
include h

theorem threadless (hm : b.Live m) (h0 : (t.entry m).num = 0) :
    ∀ q, b.Thread q → (b.entry q).parent ≠ some m := by
  intro q hq hp
  have hcard : (b.threadsOf m).card = 0 := by
    have hn := h.num m hm
    omega
  rw [Finset.card_eq_zero] at hcard
  exact Finset.notMem_empty q (hcard ▸ mem_threadsOf.mpr ⟨hq, hp⟩)

theorem thread_childless (hm : (b.entry m).tid ≠ 0) :
    ∀ q, b.Thread q → (b.entry q).parent ≠ some m := by
  intro q hq hp
  obtain ⟨m', hm', -, ht⟩ := h.kin.parent q (h.kin.live_of_tid hq.1) (h.kin.ne_init_of_tid hq.1)
  rw [hp, Option.some.injEq] at hm'
  exact hm (hm' ▸ ht)

theorem threadsOf_unused (hm : ¬ b.Live m) : b.threadsOf m = ∅ := by
  rw [Finset.eq_empty_iff_forall_notMem]
  intro q hq
  exact h.kin.tree.childless m (h.kin.tree.ne_init_of_unused hm) (.inl hm) q (mem_threadsOf.mp hq).2

/-- A change after which the threads and the counters of the entries in use are
the same; a new entry starts with none. -/
theorem of_same (hkin : b'.Kin t'.nextTid)
    (hthread : ∀ q, b'.Thread q ↔ b.Thread q)
    (hparent : ∀ q, b.Thread q → (b'.entry q).parent = (b.entry q).parent)
    (hentry : ∀ m, t'.entry m = t.entry m ∧ (b'.Live m → b.Live m) ∨
      t'.entry m = .zero ∧ (b'.Live m → ¬ b.Live m))
    (hembryo : ∀ p, (b'.entry p).state = .embryo → t'.lock = true) : b'.Tallied t' where
  kin := hkin
  num m hm := by
    have hset : b'.threadsOf m = b.threadsOf m := by
      ext q
      rw [mem_threadsOf, mem_threadsOf, hthread q]
      refine and_congr_right fun hq => ?_
      rw [hparent q hq]
    rw [hset]
    rcases hentry m with ⟨he, hlive⟩ | ⟨he, hnew⟩
    · rw [he]
      exact h.num m (hlive hm)
    · rw [he, h.threadsOf_unused (hnew hm)]
      rfl
  forkedIn p := by
    rcases hentry p with ⟨he, -⟩ | ⟨he, -⟩
    · rw [he]
      exact h.forkedIn p
    · rw [he]
      rfl
  embryo := hembryo

theorem image (c : Slot) (old : Option PgdirId) (i : Fin NPROC) :
    (((b.newImage c).dropOld c old).giveIdx c i).Tallied t := by
  have hkin := h.kin.image c old i
  obtain ⟨ref, calls, hd⟩ := dropOld_eq (b.newImage c) c old
  rw [hd] at hkin ⊢
  have he : ∀ q, (({ b.newImage c with pgdirRef := ref, freevmCalls := calls }.giveIdx c i).entry
      q) = { b.entry q with
        pgdir := if q = c then some b.nextPgdir else (b.entry q).pgdir
        idx := if q = c then some i else (b.entry q).idx } := by
    intro q
    by_cases hq : q = c
    · subst hq
      simp [giveIdx, newImage]
    · simp [giveIdx, newImage, set, hq]
  refine h.of_same hkin (fun q => ?_) (fun q _ => ?_) (fun m => .inl ⟨rfl, ?_⟩) fun p hp => ?_
  · rw [Thread, he, Thread]
  · rw [he]
  · rw [Live, he]
    exact id
  · rw [he] at hp
    exact h.embryo p hp

theorem vacate (htid : (b.entry p).tid = 0) (hkin : b'.Kin t.nextTid) (hv : b.Vacates p b') :
    b'.Tallied (t.set p .zero) := by
  refine h.of_same hkin (fun q => ?_) (fun q hq => ?_) (fun m => ?_) fun q hq => ?_
  · by_cases hqp : q = p
    · simp [hqp, Thread, hv.tid, htid]
    · rw [Thread, hv.same q hqp, Thread]
  · rw [hv.same q]
    rintro rfl
    exact hq.1 htid
  · by_cases hm : m = p
    · subst hm
      exact .inr ⟨Tally.set_entry_same t m _, fun hl => absurd hv.state hl⟩
    · refine .inl ⟨Tally.set_entry_of_ne t _ hm, ?_⟩
      rw [Live, hv.same m hm]
      exact id
  · refine h.embryo q ?_
    rw [← hv.same q]
    · exact hq
    · rintro rfl
      rw [hv.state] at hq
      contradiction

theorem retract {g : Option PgdirId} (hnp : ¬ b.Live np) :
    (b.retract np g).Tallied (t.set np .zero) :=
  h.vacate (h.kin.unused_tid np hnp) (h.kin.retract hnp) (vacates_retract hnp)

theorem collect (hz : (b.entry p).state = .zombie)
    (htid : (b.entry p).tid = 0) : ((b.dropRef p).clear p).Tallied (t.set p .zero) :=
  h.vacate htid (h.kin.collect hz) (vacates_collect b p)

/-- A new entry that is no thread: a process, or a thread without a stack. -/
theorem set_child (hnp : ¬ b.Live np) (hkin : b'.Kin t'.nextTid)
    (hentry : b'.entry = update b.entry np e) (he : e.tid = 0 ∨ e.state = .embryo)
    (ht : t'.entry = (t.set np .zero).entry) (hlock : t.lock = true → t'.lock = true)
    (hembryo : e.state = .embryo → t'.lock = true) : b'.Tallied t' := by
  have htid := h.kin.unused_tid np hnp
  have hsame : ∀ q, q ≠ np → b'.entry q = b.entry q := fun q hq => by
    rw [hentry, update_of_ne hq]
  have hnew : b'.entry np = e := by rw [hentry, update_self]
  refine h.of_same hkin (fun q => ?_) (fun q hq => ?_) (fun m => ?_) fun p hp => ?_
  · by_cases hq : q = np
    · subst hq
      simp only [Thread, hnew, htid]
      grind
    · rw [Thread, hsame q hq, Thread]
  · rw [hsame q]
    rintro rfl
    exact hq.1 htid
  · rw [ht]
    by_cases hm : m = np
    · subst hm
      exact .inr ⟨Tally.set_entry_same t m _, fun _ => hnp⟩
    · refine .inl ⟨Tally.set_entry_of_ne t _ hm, ?_⟩
      rw [Live, hsame m hm]
      exact id
  · by_cases hpn : p = np
    · subst hpn
      exact hembryo (hnew ▸ hp)
    · exact hlock (h.embryo p (hsame p hpn ▸ hp))

theorem set_thread (hnp : ¬ b.Live np) (hc : b.Live c) (hkin : b'.Kin t'.nextTid)
    (hentry : b'.entry = update b.entry np e) (htid : e.tid ≠ 0) (hst : e.state = .runnable)
    (hparent : e.parent = some c) (ht : t'.entry = ((t.set np .zero).add c 1).entry)
    (hlock : t.lock = true → t'.lock = true) : b'.Tallied t' := by
  have hcn : c ≠ np := by
    rintro rfl
    exact hnp hc
  have hunused := h.kin.unused_tid np hnp
  have hsame : ∀ q, q ≠ np → b'.entry q = b.entry q := fun q hq => by
    rw [hentry, update_of_ne hq]
  have hnew : b'.entry np = e := by rw [hentry, update_self]
  have hthread : ∀ q, b'.Thread q ↔ q = np ∨ b.Thread q := by
    intro q
    by_cases hq : q = np
    · subst hq
      simp [Thread, hnew, htid, hst]
    · simp [Thread, hsame q hq, hq]
  have hnotin : ∀ m, np ∉ b.threadsOf m := fun m hm => (mem_threadsOf.mp hm).1.1 hunused
  have hset : ∀ m, b'.threadsOf m = if m = c then insert np (b.threadsOf c) else b.threadsOf m := by
    intro m
    ext q
    by_cases hq : q = np
    · subst hq
      have hm : q ∈ b'.threadsOf m ↔ m = c := by
        rw [mem_threadsOf, hthread, hnew, hparent]
        simp [eq_comm]
      rw [hm]
      split
      · next hmc => simp [hmc]
      · next hmc => simp [hmc, hnotin m]
    · rw [mem_threadsOf, hthread, hsame q hq]
      split
      · next hmc => simp [hq, mem_threadsOf, hmc]
      · simp [hq, mem_threadsOf]
  refine ⟨hkin, fun m hm => ?_, fun p => ?_, fun p hp => ?_⟩
  · rw [hset m, ht]
    by_cases hmc : m = c
    · subst hmc
      rw [if_pos rfl, Finset.card_insert_of_notMem (hnotin m)]
      have hn := h.num m hc
      simp only [Tally.add, Tally.set_entry_same, Tally.set_entry_of_ne t _ hcn]
      omega
    · rw [if_neg hmc, Tally.add, Tally.set_entry_of_ne _ _ hmc]
      by_cases hmn : m = np
      · subst hmn
        rw [Tally.set_entry_same, h.threadsOf_unused hnp]
        rfl
      · rw [Tally.set_entry_of_ne _ _ hmn]
        exact h.num m (by rw [Live, ← hsame m hmn]; exact hm)
  · rw [ht]
    by_cases hpc : p = c
    · subst hpc
      simp only [Tally.add, Tally.set_entry_same, Tally.set_entry_of_ne t _ hcn]
      exact h.forkedIn p
    · rw [Tally.add, Tally.set_entry_of_ne _ _ hpc]
      by_cases hpn : p = np
      · subst hpn
        rw [Tally.set_entry_same]
        rfl
      · rw [Tally.set_entry_of_ne _ _ hpn]
        exact h.forkedIn p
  · by_cases hpn : p = np
    · rw [hpn, hnew, hst] at hp
      contradiction
    · exact hlock (h.embryo p (hsame p hpn ▸ hp))

theorem die (hp : b.Live p) (hinit : p ≠ b.initproc) (hemb : (b.entry p).state ≠ .embryo)
    (hchildren : ∀ q, b.Thread q → (b.entry q).parent ≠ some p) : (b.die p).Tallied t := by
  refine h.of_same (h.kin.die hp hinit hemb hchildren) (fun q => ?_) (fun q hq => ?_) (fun m => ?_)
    fun q hq => ?_
  · by_cases hqp : q = p
    · simp [hqp, Thread, Book.die, hemb]
    · simp [Thread, Book.die, hqp]
  · simp [Book.die, Kernel.heir, hchildren q hq]
  · exact .inl ⟨rfl, (live_die hp m).mp⟩
  · refine h.embryo q ?_
    by_cases hqp : q = p
    · simp [hqp, Book.die] at hq
    · simpa [Book.die, hqp] using hq

/-- A thread of the process `c` that has ended is joined. -/
theorem join (hz : (b.entry p).state = .zombie)
    (htid : (b.entry p).tid ≠ 0) (hparent : (b.entry p).parent = some c) :
    ((b.dropRef p).clear p).Tallied ((t.add c (-1)).set p .zero) := by
  have hpc : c ≠ p := by
    rintro rfl
    exact h.kin.tree.childless c (h.kin.tree.ne_init_of_zombie hz) (.inr hz) c hparent
  have hthread : b.Thread p := ⟨htid, by simp [hz]⟩
  have hv := vacates_collect b p
  have hset : ∀ m, ((b.dropRef p).clear p).threadsOf m = (b.threadsOf m).erase p := by
    intro m
    ext q
    rw [Finset.mem_erase, mem_threadsOf, mem_threadsOf]
    by_cases hqp : q = p
    · simp [hqp, Thread, hv.tid]
    · simp [Thread, hv.same q hqp, hqp]
  refine ⟨h.kin.collect hz, fun m hm => ?_, fun q => ?_, fun q hq => ?_⟩
  · have hmp : m ≠ p := by
      rintro rfl
      exact hm hv.state
    have hlive : b.Live m := by
      rw [Live, ← hv.same m hmp]
      exact hm
    have hn := h.num m hlive
    rw [hset m, Tally.set_entry_of_ne _ _ hmp]
    by_cases hmc : m = c
    · subst hmc
      have hmem : p ∈ b.threadsOf m := mem_threadsOf.mpr ⟨hthread, hparent⟩
      have hpos := Finset.card_pos.mpr ⟨p, hmem⟩
      rw [Finset.card_erase_of_mem hmem]
      simp only [Tally.add, Tally.set_entry_same]
      omega
    · rw [Tally.add, Tally.set_entry_of_ne _ _ hmc, Finset.erase_eq_of_notMem]
      · exact hn
      · intro hmem
        have hpar := (mem_threadsOf.mp hmem).2
        rw [hparent, Option.some.injEq] at hpar
        exact hmc hpar.symm
  · by_cases hqp : q = p
    · subst hqp
      rw [Tally.set_entry_same]
      rfl
    · rw [Tally.set_entry_of_ne _ _ hqp]
      by_cases hqc : q = c
      · subst hqc
        rw [Tally.add, Tally.set_entry_same]
        exact h.forkedIn q
      · rw [Tally.add, Tally.set_entry_of_ne _ _ hqc]
        exact h.forkedIn q
  · refine h.embryo q ?_
    rw [← hv.same q]
    · exact hq
    · rintro rfl
      rw [hv.state] at hq
      contradiction

end

end Tallied
end Book
end Xv6
