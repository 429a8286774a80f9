import Xv6.Smp.Current
import Xv6.Book.Step

/-!
# Xv6.Smp.Join

`thread_exit` and `thread_join` on several CPUs, with every critical section of
`ptable.lock` a step of its own.

A history is kept next to the machine: the values with which each thread has
called `thread_exit`, and those with which a `thread_join` on it returned 0.
-/

namespace Xv6

open Lib Function

/-! ## What a step does to another entry -/

/-- What a step of `c` may do to the card of another entry, with the next
thread id `n` before and `n'` after. -/
inductive Card.Touched (c : Slot) (n n' : Int) (a b : Card) : Prop where
  /-- It may be woken or made ready, and an orphan has a new parent. -/
  | kept (htid : b.tid = a.tid) (hchan : b.chan = a.chan) (hret : b.threadReturn = a.threadReturn)
      (hparent : a.parent ≠ some c → b.parent = a.parent)
      (hstate : b.state = a.state ∨
        b.state = .runnable ∧ (a.state = .sleeping ∨ a.state = .embryo))
  /-- It is taken, filled or given back. -/
  | made (ha : a.state = .unused ∨ a.state = .embryo) (htid : a.tid = 0) (htid' : b.tid = 0)
      (hb : b.state = .unused ∨ b.state = .embryo)
  /-- It gets the next thread id. -/
  | named (ha : a.state = .embryo) (htid : a.tid = 0) (htid' : b.tid = n) (hn : n' = n + 1)
      (hb : b.state = .embryo)
  | cleared (ha : a.state = .zombie) (htid' : b.tid = 0) (hb : b.state = .unused)

theorem Card.Wakes.touched {a b : Card} (h : a.Wakes b) (c : Slot) (n n' : Int) :
    a.Touched c n n' b := by
  refine .kept h.tid h.chan h.threadReturn (fun _ => h.parent) ?_
  obtain ⟨st, hst, rfl⟩ := h
  rcases hst with rfl | ⟨ha, rfl⟩
  · exact .inl rfl
  · exact .inr ⟨rfl, .inl ha⟩

namespace Kernel

variable {s k : Kernel} {c : Slot} {l l' : List Instr}

/-- What the rules for ids assume about the table and the calls. -/
structure Named (s : Kernel) (todo : Slot → List Instr) : Prop where
  pos : 0 < s.nextThreadId
  lt : ∀ q, (s.proc q).tid < s.nextThreadId
  inj : ∀ q q', (s.proc q).tid ≠ 0 → (s.proc q).tid = (s.proc q').tid → q = q'
  unused : ∀ q, (s.proc q).state = .unused → (s.proc q).tid = 0
  filling : ∀ d np, todo d = [.fillChild np] ∨ todo d = [.fillThread np] → (s.proc np).tid = 0
  idle : ∀ q, (s.proc q).state = .unused ∨ (s.proc q).state = .embryo ∨
    (s.proc q).state = .zombie → todo q = []
  die : ∀ q, .die ∈ todo q → (s.proc q).tid = 0

/-- What a step of `c` starts from. -/
structure Steady (s : Kernel) (c : Slot) (l : List Instr) : Prop where
  running : (s.proc c).state = .running
  embryo : ∀ np, makes l = some np → (s.proc np).state = .embryo
  filling : ∀ np, l = [.fillChild np] ∨ l = [.fillThread np] → (s.proc np).tid = 0
  unused : ∀ q, (s.proc q).state = .unused → (s.proc q).tid = 0

theorem makes_fill {np : Slot} (hl : l = [.fillChild np] ∨ l = [.fillThread np]) :
    makes l = some np := by
  rcases hl with rfl | rfl <;> rfl

theorem Section.touched (h : Section c s l k l') (hs : Steady s c l) {q : Slot} (hq : q ≠ c) :
    (s.proc q).card.Touched c s.nextThreadId k.nextThreadId (k.proc q).card := by
  have hsame : k.proc q = s.proc q → (s.proc q).card.Touched c s.nextThreadId k.nextThreadId
      (k.proc q).card := fun he => he ▸ (Card.Wakes.refl _).touched ..
  cases h with
  | quiet h => exact (h.card q).touched ..
  | exits => exact hsame rfl
  | yields => exact hsame (upd_proc_of_ne s _ hq)
  | sleeps => exact hsame (upd_proc_of_ne s _ hq)
  | fails => exact hsame rfl
  | @allocs np e _ _ hnp h htid hk hl =>
    by_cases hqp : q = np
    · subst hqp
      rw [h.same]
      exact .made (.inl hnp) (hs.unused q hnp) htid (hl.symm.imp And.left And.left)
    · exact (h.other q hqp).touched ..
  | @fills np e _ _ _ hl h htid hl' =>
    by_cases hqp : q = np
    · subst hqp
      have hemb := hs.embryo q (makes_fill hl)
      have hzero := hs.filling q hl
      rw [h.same]
      rcases htid with ⟨htid, -⟩ | ⟨hst, htid, hk⟩
      · exact .made (.inr hemb) hzero (htid.trans hzero) (hl'.symm.imp And.left And.left)
      · exact .named hemb hzero htid hk hst
    · exact (h.other q hqp).touched ..
  | @readies np _ hl =>
    by_cases hqp : q = np
    · subst hqp
      have hemb := hs.embryo q rfl
      have hcard : ((s.ready q).proc q).card = (s.proc q).card.withState .runnable := by
        simp [ready, Proc.card, Card.withState]
      rw [hcard]
      exact .kept rfl rfl rfl (fun _ => rfl) (.inr ⟨rfl, .inr hemb⟩)
    · exact hsame (upd_proc_of_ne s _ hqp)
  | @clears p _ _ hz h hk hl =>
    by_cases hqp : q = p
    · subst hqp
      rw [h.same]
      exact .cleared hz rfl rfl
    · exact (h.other q hqp).touched ..
  | buries h hl =>
    obtain ⟨st, hst, hcard⟩ := h.other q hq
    rw [hcard]
    refine .kept rfl rfl rfl (fun hp => ?_) ?_
    · exact if_neg hp
    · rcases hst with hst | ⟨hold, hst⟩
      · exact .inl hst
      · exact .inr ⟨hst, .inl hold⟩

/-- What a step of `c` does to its own entry. -/
inductive OwnStep (c : Slot) (s : Kernel) (l : List Instr) (k : Kernel) (l' : List Instr) :
    Prop where
  | lives (htid : (k.proc c).tid = (s.proc c).tid) (hparent : (k.proc c).parent = (s.proc c).parent)
      (hstate : (k.proc c).state = .running ∨ (k.proc c).state = .runnable)
  | sleeps (chan : Chan) (hk : k = s.sleepOn c chan) (hl' : l' = l)
      (hl : ∀ t m, l = .join t :: m → chan = .proc c ∧ s.joinRetval c t = none ∧
        ∃ z, (s.proc z).parent = some c ∧ (s.proc z).tid = t)
  | ends (v : Nat) (h : Buried s c v k) (hl : l = [.die] ∨ l = [.threadDie v]) (hl' : l' = [])

theorem OwnStep.tid (h : OwnStep c s l k l') : (k.proc c).tid = (s.proc c).tid := by
  cases h with
  | lives htid => exact htid
  | sleeps chan hk => simp [hk, sleepOn]
  | ends v h => exact h.tid

/-- Who has not ended is not a zombie, and keeps its parent. -/
theorem OwnStep.lives_or_ends (h : OwnStep c s l k l') :
    ((k.proc c).parent = (s.proc c).parent ∧ (k.proc c).state ≠ .unused ∧
      (k.proc c).state ≠ .embryo ∧ (k.proc c).state ≠ .zombie) ∨
    ∃ v, Buried s c v k ∧ (l = [.die] ∨ l = [.threadDie v]) ∧ l' = [] := by
  cases h with
  | lives _ hparent hstate => exact .inl ⟨hparent, by rcases hstate with hst | hst <;> simp [hst]⟩
  | sleeps chan hk => exact .inl (by simp [hk, sleepOn])
  | ends v h hl hl' => exact .inr ⟨v, h, hl, hl'⟩

section

variable (h : Section c s l k l')
include h

theorem Section.own (hs : Steady s c l) : OwnStep c s l k l' := by
  have hrun := hs.running
  have hne : ∀ {p : Slot} {st : ProcState}, (s.proc p).state = st → st ≠ .running → c ≠ p := by
    rintro p st rfl hst rfl
    exact hst hrun
  -- a step that leaves the own card as it is
  have hcard : (k.proc c).card = (s.proc c).card → OwnStep c s l k l' := fun he =>
    .lives (congrArg Card.tid he) (congrArg Card.parent he)
      (.inl ((congrArg Card.state he).trans hrun))
  have hwake : (s.proc c).card.Wakes (k.proc c).card → OwnStep c s l k l' :=
    fun hw => hcard (hw.eq (by simp [Proc.card, hrun]))
  cases h with
  | quiet h => exact hwake (h.card c)
  | exits => exact hcard rfl
  | yields => exact .lives (by simp) (by simp) (by simp)
  | sleeps _ hl => exact .sleeps _ rfl rfl hl
  | fails => exact hcard rfl
  | allocs hnp h => exact hwake (h.other c (hne hnp (by decide)))
  | fills hl h => exact hwake (h.other c (hne (hs.embryo _ (makes_fill hl)) (by decide)))
  | readies hl =>
    have hother := upd_proc_of_ne s (fun x => { x with state := .runnable })
      (hne (hs.embryo _ rfl) (by decide))
    exact hcard (congrArg Proc.card hother)
  | clears hz h => exact hwake (h.other c (hne hz (by decide)))
  | buries h hl => exact .ends _ h hl rfl

/-- The thread ids after a step: one entry may get the next one, and some may
be cleared. -/
theorem Section.tids (hs : Steady s c l) :
    k.nextThreadId = s.nextThreadId ∧
        (∀ q, (k.proc q).tid = (s.proc q).tid ∨ (k.proc q).tid = 0) ∨
      ∃ np, Kernel.makes l = some np ∧ k.nextThreadId = s.nextThreadId + 1 ∧
        (k.proc np).tid = s.nextThreadId ∧ ∀ q, q ≠ np → (k.proc q).tid = (s.proc q).tid := by
  by_cases hn : k.nextThreadId = s.nextThreadId
  · refine .inl ⟨hn, fun q => ?_⟩
    by_cases hq : q = c
    · rw [hq]
      exact .inl (h.own hs).tid
    cases h.touched hs hq with
    | kept htid => exact .inl htid
    | made _ _ htid => exact .inr htid
    | named _ _ _ hnext => omega
    | cleared _ htid => exact .inr htid
  · refine .inr ?_
    cases h with
    | quiet h => exact absurd h.nextThreadId hn
    | exits => exact absurd rfl hn
    | yields => exact absurd rfl hn
    | sleeps => exact absurd rfl hn
    | fails => exact absurd rfl hn
    | allocs _ _ _ hk => exact absurd hk hn
    | @fills np e _ _ _ hl h htid =>
      rcases htid with ⟨-, hk⟩ | ⟨-, htid, hk⟩
      · exact absurd hk hn
      · exact ⟨np, makes_fill hl, hk, (congrArg Card.tid h.same).trans htid,
          fun q hq => (h.other q hq).tid⟩
    | readies => exact absurd rfl hn
    | clears _ _ hk => exact absurd hk hn
    | buries h => exact absurd h.nextThreadId hn

theorem Section.next_le (hs : Steady s c l) : s.nextThreadId ≤ k.nextThreadId := by
  rcases h.tids hs with ⟨hn, -⟩ | ⟨-, -, hn, -⟩ <;> omega

/-- Only an entry that has just been taken is to be filled. -/
theorem Section.filling (hs : Steady s c l) {np : Slot}
    (hl' : l' = [.fillChild np] ∨ l' = [.fillThread np]) : (k.proc np).tid = 0 := by
  have hmakes := makes_fill hl'
  cases h with
  | quiet _ _ hnone =>
    rw [hnone] at hmakes
    contradiction
  | exits => contradiction
  | yields =>
    have htid := upd_view_eq (f := Proc.tid) s c
      (g := fun x => { x with state := .runnable, timeQuantumUsed := 0 }) rfl np
    exact htid.trans (hs.filling np hl')
  | sleeps hnone =>
    rw [hnone] at hmakes
    contradiction
  | fails => contradiction
  | allocs hunused h htid _ hl =>
    rcases hl with ⟨-, rfl | rfl⟩ | ⟨-, rfl⟩
    · cases hmakes
      exact (congrArg Card.tid h.same).trans htid
    · cases hmakes
      exact (congrArg Card.tid h.same).trans htid
    · contradiction
  | fills hl h htid hl'' => rcases hl'' with ⟨-, rfl | rfl | rfl⟩ | ⟨-, rfl⟩ <;> simp at hl'
  | readies hl => rcases hl with rfl | rfl <;> contradiction
  | clears => contradiction
  | buries => contradiction

/-- Only processes that are no threads end in `exit`. -/
theorem Section.die (hdie : .die ∈ l') : .die ∈ l ∨ (s.proc c).tid = 0 := by
  cases h with
  | quiet _ _ _ hd => exact hd hdie
  | exits => simp at hdie
  | yields => exact .inl hdie
  | sleeps => exact .inl hdie
  | fails => simp at hdie
  | allocs _ _ _ _ hl => rcases hl with ⟨-, rfl | rfl⟩ | ⟨-, rfl⟩ <;> simp at hdie
  | fills _ _ _ hl' => rcases hl' with ⟨-, rfl | rfl | rfl⟩ | ⟨-, rfl⟩ <;> simp at hdie
  | readies hl => rcases hl with rfl | rfl <;> simp at hdie
  | clears => simp at hdie
  | buries => simp at hdie

end

/-! ## Ids -/

section

variable {todo : Slot → List Instr}

theorem Named.steady (hs : Named s todo) (hrun : (s.proc c).state = .running)
    (hembryo : ∀ np, makes (todo c) = some np → (s.proc np).state = .embryo) :
    Steady s c (todo c) :=
  ⟨hrun, hembryo, hs.filling c, hs.unused⟩

/-- The ids stay different and below the next one. -/
theorem Named.tids (hs : Named s todo) (hc : Steady s c (todo c)) (h : Section c s (todo c) k l') :
    0 < k.nextThreadId ∧ (∀ q, (k.proc q).tid < k.nextThreadId) ∧
      ∀ q q', (k.proc q).tid ≠ 0 → (k.proc q).tid = (k.proc q').tid → q = q' := by
  have hpos := hs.pos
  rcases h.tids hc with ⟨hn, htid⟩ | ⟨np, -, hn, hnp, htid⟩
  · refine ⟨hn ▸ hpos, fun q => ?_, fun q q' hq heq => ?_⟩
    · have hlt := hs.lt q
      rcases htid q with hq | hq <;> omega
    · have hold : (s.proc q).tid = (k.proc q).tid := ((htid q).resolve_right hq).symm
      have hold' : (s.proc q').tid = (k.proc q').tid :=
        ((htid q').resolve_right (heq ▸ hq)).symm
      exact hs.inj q q' (hold ▸ hq) (hold.trans (heq.trans hold'.symm))
  · refine ⟨by omega, fun q => ?_, fun q q' hq heq => ?_⟩
    · by_cases hqp : q = np
      · rw [hqp, hnp, hn]
        omega
      · rw [htid q hqp, hn]
        have hlt := hs.lt q
        omega
    · have hlt := hs.lt q
      have hlt' := hs.lt q'
      by_cases hqp : q = np <;> by_cases hqp' : q' = np
      · rw [hqp, hqp']
      · rw [hqp, hnp, htid q' hqp'] at heq
        omega
      · rw [hqp', hnp, htid q hqp] at heq
        omega
      · rw [htid q hqp] at hq heq
        rw [htid q' hqp'] at heq
        exact hs.inj q q' hq heq

/-- **Step**: the ids after a step of `c`. -/
theorem Named.step (hs : Named s todo) (hc : Steady s c (todo c))
    (hembryo : ∀ d np, makes (todo d) = some np → (s.proc np).state = .embryo)
    (hapart : ∀ d np, makes (todo d) = some np → makes (todo c) = some np → d = c)
    (h : Section c s (todo c) k l') : Named k (update todo c l') := by
  have hother : ∀ d, d ≠ c → update todo c l' d = todo d := fun d hd =>
    update_of_ne hd ..
  have hself : update todo c l' c = l' := update_self ..
  -- an id stays zero, but for the entry that `c` is filling
  have hzero : ∀ q, makes (todo c) ≠ some q → (s.proc q).tid = 0 → (k.proc q).tid = 0 := by
    intro q hq hold
    rcases h.tids hc with ⟨-, htid⟩ | ⟨np, hnp, -, -, htid⟩
    · exact (htid q).elim (fun he => he.trans hold) id
    · exact (htid q fun he => hq (he ▸ hnp)).trans hold
  obtain ⟨hpos, hlt, hinj⟩ := hs.tids hc h
  refine ⟨hpos, hlt, hinj, fun q hq => ?_, fun d np hnp => ?_, fun q hq => ?_, fun q hq => ?_⟩
  · by_cases hqc : q = c
    · subst hqc
      rcases (h.own hc).lives_or_ends with ⟨-, hunused, -⟩ | ⟨v, hb, -⟩
      · exact absurd hq hunused
      · rw [hb.state] at hq
        contradiction
    · cases h.touched hc hqc with
      | kept htid _ _ _ hstate =>
        rcases hstate with hstate | ⟨hstate, -⟩
        · exact htid.trans (hs.unused q (hstate.symm.trans hq))
        · exact absurd (hstate.symm.trans hq) (by decide)
      | made _ _ htid => exact htid
      | named _ _ _ _ hb => exact absurd (hb.symm.trans hq) (by decide)
      | cleared _ htid => exact htid
  · by_cases hd : d = c
    · rw [hd, hself] at hnp
      exact h.filling hc hnp
    · rw [hother d hd] at hnp
      exact hzero np (fun hm => hd (hapart d np (makes_fill hnp) hm)) (hs.filling d np hnp)
  · by_cases hqc : q = c
    · subst hqc
      rw [hself]
      rcases (h.own hc).lives_or_ends with ⟨-, hunused, hembryo, hzombie⟩ | ⟨v, -, -, hl'⟩
      · simp [hunused, hembryo, hzombie] at hq
      · exact hl'
    · rw [hother q hqc]
      refine hs.idle q ?_
      cases h.touched hc hqc with
      | kept _ _ _ _ hstate =>
        rcases hstate with hstate | ⟨hstate, -⟩
        · have hst : (k.proc q).state = (s.proc q).state := hstate
          rwa [hst] at hq
        · have hst : (k.proc q).state = .runnable := hstate
          simp [hst] at hq
      | made ha => exact ha.imp_right .inl
      | named ha => exact .inr (.inl ha)
      | cleared ha => exact .inr (.inr ha)
  · by_cases hqc : q = c
    · subst hqc
      rw [hself] at hq
      rw [(h.own hc).tid]
      exact (h.die hq).elim (hs.die q) id
    · rw [hother q hqc] at hq
      refine hzero q (fun hm => ?_) (hs.die q hq)
      rw [hs.idle q (.inr (.inl (hembryo c q hm)))] at hq
      simp at hq

/-! ## Sleepers -/

/-- Who sleeps inside `thread_join(t)` sleeps on its own channel, and has the
thread `t` for a child, which has not ended. -/
def Waiting (s : Kernel) (todo : Slot → List Instr) : Prop :=
  ∀ q t m, t ≠ 0 → todo q = .join t :: m → (s.proc q).state = .sleeping →
    (s.proc q).chan = .proc q ∧
      ∃ z, (s.proc z).tid = t ∧ (s.proc z).parent = some q ∧ (s.proc z).state ≠ .zombie

/-- **Step**: nobody sleeps through the end of the thread. -/
theorem Waiting.step (hw : Waiting s todo) (hc : Steady s c (todo c))
    (h : Section c s (todo c) k l') : Waiting k (update todo c l') := by
  intro q t m ht hq hsleep
  by_cases hqc : q = c
  · -- the scan before has found a thread that had not ended
    subst hqc
    rw [update_self] at hq
    cases h.own hc with
    | lives _ _ hstate => simp [hsleep] at hstate
    | sleeps chan hk hl' hl =>
      obtain ⟨rfl, hnone, z, hparent, htid⟩ := hl t m (hl'.symm.trans hq)
      have hz := not_zombie_of_joinRetval hnone hparent htid
      subst hk
      have hentry := upd_view_eq (f := fun x => (x.tid, x.parent)) s q
        (g := fun x => { x with chan := .proc q, state := .sleeping }) rfl z
      refine ⟨by simp [sleepOn], z, (congrArg Prod.fst hentry).trans htid,
        (congrArg Prod.snd hentry).trans hparent, ?_⟩
      by_cases hzq : z = q
      · simp [hzq, sleepOn]
      · rw [sleepOn, upd_proc_of_ne s _ hzq]
        exact hz
    | ends v hb =>
      rw [hb.state] at hsleep
      contradiction
  · rw [update_of_ne hqc] at hq
    -- a sleeper has not been touched
    have hold : (s.proc q).state = .sleeping ∧ (k.proc q).chan = (s.proc q).chan := by
      have hst : (k.proc q).card.state = .sleeping := hsleep
      cases h.touched hc hqc with
      | kept _ hchan _ _ hstate =>
        rcases hstate with hstate | ⟨hstate, -⟩
        · exact ⟨hstate.symm.trans hst, hchan⟩
        · exact absurd (hstate.symm.trans hst) (by decide)
      | made _ _ _ hb => rcases hb with hb | hb <;> exact absurd (hb.symm.trans hst) (by decide)
      | named _ _ _ _ hb => exact absurd (hb.symm.trans hst) (by decide)
      | cleared _ _ hb => exact absurd (hb.symm.trans hst) (by decide)
    obtain ⟨hchan, z, htid, hparent, hz⟩ := hw q t m ht hq hold.1
    refine ⟨hold.2.trans hchan, z, ?_⟩
    by_cases hzc : z = c
    · subst hzc
      rcases (h.own hc).lives_or_ends with ⟨hp, -, -, hzombie⟩ | ⟨v, hb, -⟩
      · exact ⟨(h.own hc).tid.trans htid, hp.trans hparent, hzombie⟩
      -- the end of the thread wakes its parent
      have hwoken := hb.woken q hsleep
      rw [hparent] at hwoken
      exact absurd hchan hwoken
    · cases h.touched hc hzc with
      | kept htid' _ _ hp hstate =>
        have hother : (s.proc z).card.parent ≠ some c := fun he => by
          have hqc' : some q = some c := hparent.symm.trans he
          exact hqc (Option.some.inj hqc')
        refine ⟨htid'.trans htid, (hp hother).trans hparent, ?_⟩
        intro hzk
        rcases hstate with hstate | ⟨hstate, -⟩
        · exact hz (hstate.symm.trans hzk)
        · exact absurd (hstate.symm.trans hzk) (by decide)
      | made _ hzero => exact absurd (htid.symm.trans hzero) ht
      | named _ hzero => exact absurd (htid.symm.trans hzero) ht
      | cleared hzombie => exact absurd hzombie hz

/-! ## The history -/

/-- What has been passed to `thread_exit` by each thread, and what a
`thread_join` on it that returned 0 has brought back. -/
structure History where
  called : Int → List Nat
  joined : Int → List Nat

namespace History

/-- The thread `t` has called `thread_exit(v)`. -/
def call (h : History) (t : Int) (v : Nat) : History :=
  { h with called := update h.called t (h.called t ++ [v]) }

/-- A `thread_join(t)` has ended, and has found `r`. -/
def join (h : History) (t : Int) (r : Option Nat) : History :=
  { h with joined := update h.joined t (h.joined t ++ r.toList) }

/-- The history after a step of `c` in state `s`, with `l` to do before and
`l'` after: it has entered `thread_exit`, or left `thread_join` with what its
last scan found. -/
def record (h : History) (s : Kernel) (c : Slot) : List Instr → List Instr → History
  | [], .close _ :: .threadDie v :: _ => h.call (s.proc c).tid v
  | .join t :: l, l' => if l' = l then h.join t (s.joinRetval c t) else h
  | _, _ => h

@[simp] theorem join_none (h : History) (t : Int) : h.join t none = h := by simp [join]

theorem record_same (h : History) (s : Kernel) (c : Slot) (l : List Instr) :
    h.record s c l l = h := by
  cases l with
  | nil => rfl
  | cons x m => cases x <;> simp [record]

end History

/-- What a step of `c` adds to the history. -/
inductive Report (c : Slot) (s : Kernel) (l : List Instr) (k : Kernel) (l' : List Instr)
    (h : History) : History → Prop where
  | silent (hthread : ∀ v, .threadDie v ∈ l' ↔ .threadDie v ∈ l) : Report c s l k l' h h
  | exits (v : Nat) (hl : l = []) (hk : k = s) (hl' : l' = [.close c, .threadDie v]) :
      Report c s l k l' h (h.call (s.proc c).tid v)
  | joins (p : Slot) (hz : (s.proc p).state = .zombie)
      (hp : (k.proc p).card = (s.proc p).card.cleared)
      (hl : l = [.join (s.proc p).tid]) (hl' : l' = []) :
      Report c s l k l' h (h.join (s.proc p).tid (some (s.proc p).threadReturn))
  | ends (hk : (k.proc c).state = .zombie) : Report c s l k l' h h

theorem Section.report (hsec : Section c s l k l') (h : History) :
    Report c s l k l' h (h.record s c l l') := by
  cases hsec with
  | quiet _ hl _ _ hthread =>
    have hsame : h.record s c l l' = h := by
      unfold History.record
      split
      · have hnew := (hthread _).mp (List.mem_cons_of_mem _ List.mem_cons_self)
        contradiction
      · exact absurd rfl (hl _ _)
      · rfl
    rw [hsame]
    exact .silent hthread
  | exits => exact .exits _ rfl rfl rfl
  | yields =>
    rw [h.record_same]
    exact .silent fun _ => .rfl
  | sleeps =>
    rw [h.record_same]
    exact .silent fun _ => .rfl
  | @fails t hnone =>
    have hsame : h.record s c [.join t] [] = h := by simp [History.record, hnone]
    rw [hsame]
    exact .silent (by simp)
  | allocs _ _ _ _ hl => rcases hl with ⟨-, rfl | rfl⟩ | ⟨-, rfl⟩ <;> exact .silent (by simp)
  | fills hl _ _ hl' =>
    rcases hl with rfl | rfl <;> rcases hl' with ⟨-, rfl | rfl | rfl⟩ | ⟨-, rfl⟩ <;>
      exact .silent (by simp)
  | readies hl => rcases hl with rfl | rfl <;> exact .silent (by simp)
  | @clears p _ _ hz hat _ hl =>
    rcases hl with rfl | ⟨rfl, -, hret⟩
    · exact .silent (by simp)
    have hjoin : h.record s c [.join (s.proc p).tid] [] =
        h.join (s.proc p).tid (some (s.proc p).threadReturn) := by
      simp [History.record, hret]
    rw [hjoin]
    exact .joins p hz hat.same rfl rfl
  | buries hb hl => rcases hl with rfl | rfl <;> exact .ends hb.state

/-- The history is right about the calls of `thread_exit`: a thread has made
one if it is on its way out or a zombie, and then with its return value. -/
structure History.Called (h : History) (s : Kernel) (todo : Slot → List Instr) : Prop where
  leaving : ∀ q v, (s.proc q).tid ≠ 0 → .threadDie v ∈ todo q → h.called (s.proc q).tid = [v]
  zombie : ∀ q, (s.proc q).tid ≠ 0 → (s.proc q).state = .zombie →
    h.called (s.proc q).tid = [(s.proc q).threadReturn]
  living : ∀ q, (s.proc q).tid ≠ 0 → (s.proc q).state ≠ .zombie → (∀ v, .threadDie v ∉ todo q) →
    h.called (s.proc q).tid = []
  fresh : ∀ t, s.nextThreadId ≤ t → h.called t = []

/-- The history is right about the joins: none of a thread that is still in the
table, and one at most of the others, with what the thread has passed. -/
structure History.Joined (h : History) (s : Kernel) : Prop where
  present : ∀ q, (s.proc q).tid ≠ 0 → h.joined (s.proc q).tid = []
  gone : ∀ t, t ≠ 0 → h.joined t = [] ∨ ∃ r, h.joined t = [r] ∧ h.called t = [r]
  fresh : ∀ t, s.nextThreadId ≤ t → h.joined t = []

theorem History.Called.keep {h h' : History} (hh : h.Called s todo) (hs : Named s todo)
    (hc : Steady s c (todo c)) (hsec : Section c s (todo c) k l') (hcalled : h'.called = h.called)
    (hthread : (k.proc c).state ≠ .zombie → ∀ v, .threadDie v ∈ l' ↔ .threadDie v ∈ todo c) :
    h'.Called k (update todo c l') := by
  have hother : ∀ d, d ≠ c → update todo c l' d = todo d := fun d hd =>
    update_of_ne hd ..
  have hself : update todo c l' c = l' := update_self ..
  have hown := (hsec.own hc).tid
  have hrun : (s.proc c).state ≠ .zombie := by simp [hc.running]
  -- another entry with an id has kept it, or has just got it
  have htouched : ∀ q, q ≠ c → (k.proc q).tid ≠ 0 →
      (k.proc q).tid = (s.proc q).tid ∧ (k.proc q).threadReturn = (s.proc q).threadReturn ∧
        ((k.proc q).state = .zombie ↔ (s.proc q).state = .zombie) ∨
      s.nextThreadId ≤ (k.proc q).tid ∧ (k.proc q).state ≠ .zombie ∧ todo q = [] := by
    intro q hq htid
    cases hsec.touched hc hq with
    | kept htid' _ hret _ hstate =>
      refine .inl ⟨htid', hret, ?_⟩
      simp only [Proc.card] at hstate
      rcases hstate with hst | ⟨hst, hold | hold⟩ <;> simp [*]
    | made _ _ hzero => exact absurd hzero htid
    | named ha _ htid' _ hb =>
      simp only [Proc.card] at htid' hb
      exact .inr ⟨htid'.ge, by simp [hb], hs.idle q (.inr (.inl ha))⟩
    | cleared _ hzero => exact absurd hzero htid
  -- the end of `c` itself
  have hends : (k.proc c).tid ≠ 0 → (k.proc c).state = .zombie →
      .threadDie (k.proc c).threadReturn ∈ todo c ∧ l' = [] := by
    intro htid hz
    rcases (hsec.own hc).lives_or_ends with ⟨-, -, -, hzombie⟩ | ⟨v, hb, hl, hl'⟩
    · exact absurd hz hzombie
    · rcases hl with hl | hl
      · exact absurd (hown.trans (hs.die c (by simp [hl]))) htid
      · exact ⟨by simp [hl, hb.threadReturn], hl'⟩
  refine ⟨fun q v htid hv => ?_, fun q htid hz => ?_, fun q htid hz hv => ?_, fun t ht => ?_⟩
  · rw [hcalled]
    by_cases hqc : q = c
    · subst hqc
      rw [hself] at hv
      have hz : (k.proc q).state ≠ .zombie := fun hz => by simp [(hends htid hz).2] at hv
      rw [hown] at htid ⊢
      exact hh.leaving q v htid ((hthread hz v).mp hv)
    · rw [hother q hqc] at hv
      rcases htouched q hqc htid with ⟨he, -⟩ | ⟨-, -, hnil⟩
      · rw [he] at htid ⊢
        exact hh.leaving q v htid hv
      · simp [hnil] at hv
  · rw [hcalled]
    by_cases hqc : q = c
    · subst hqc
      obtain ⟨hv, -⟩ := hends htid hz
      rw [hown] at htid ⊢
      exact hh.leaving q _ htid hv
    · rcases htouched q hqc htid with ⟨he, hret, hst⟩ | ⟨-, hst, -⟩
      · rw [he] at htid ⊢
        rw [hret]
        exact hh.zombie q htid (hst.mp hz)
      · exact absurd hz hst
  · rw [hcalled]
    by_cases hqc : q = c
    · subst hqc
      rw [hself] at hv
      rw [hown] at htid ⊢
      exact hh.living q htid hrun fun v hmem => hv v ((hthread hz v).mpr hmem)
    · rw [hother q hqc] at hv
      rcases htouched q hqc htid with ⟨he, -, hst⟩ | ⟨hn, -⟩
      · rw [he] at htid ⊢
        exact hh.living q htid (mt hst.mpr hz) hv
      · exact hh.fresh _ hn
  · rw [hcalled]
    exact hh.fresh t ((hsec.next_le hc).trans ht)

theorem History.Called.call {h : History} (hh : h.Called s todo) (hs : Named s todo)
    (hrun : (s.proc c).state = .running) (hnil : todo c = []) (v : Nat) :
    (h.call (s.proc c).tid v).Called s (update todo c [.close c, .threadDie v]) := by
  have hold : (s.proc c).tid ≠ 0 → h.called (s.proc c).tid = [] := fun htid =>
    hh.living c htid (by simp [hrun]) (by simp [hnil])
  have hself : (h.call (s.proc c).tid v).called (s.proc c).tid = h.called (s.proc c).tid ++ [v] :=
    update_self ..
  have hother : ∀ t, t ≠ (s.proc c).tid → (h.call (s.proc c).tid v).called t = h.called t :=
    fun t ht => update_of_ne ht ..
  -- the other threads have other ids
  have hne : ∀ q, q ≠ c → (s.proc q).tid ≠ 0 → (s.proc q).tid ≠ (s.proc c).tid :=
    fun q hq htid he => hq (hs.inj q c htid he)
  refine ⟨fun q w htid hw => ?_, fun q htid hz => ?_, fun q htid hz hw => ?_, fun t ht => ?_⟩
  · by_cases hqc : q = c
    · subst hqc
      rw [hself, hold htid]
      simp at hw
      simp [hw]
    · rw [update_of_ne hqc] at hw
      rw [hother _ (hne q hqc htid)]
      exact hh.leaving q w htid hw
  · have hqc : q ≠ c := by
      rintro rfl
      simp [hrun] at hz
    rw [hother _ (hne q hqc htid)]
    exact hh.zombie q htid hz
  · have hqc : q ≠ c := by
      rintro rfl
      simpa using hw v
    rw [update_of_ne hqc] at hw
    rw [hother _ (hne q hqc htid)]
    exact hh.living q htid hz hw
  · have hlt := hs.lt c
    rw [hother t (by omega)]
    exact hh.fresh t ht

theorem History.Joined.keep {h h' : History} (hh : h.Joined s) (hc : Steady s c (todo c))
    (hsec : Section c s (todo c) k l') (hjoined : h'.joined = h.joined)
    (hcalled : ∀ t, t ≠ 0 → h.joined t ≠ [] → h'.called t = h.called t) : h'.Joined k := by
  refine ⟨fun q htid => ?_, fun t ht => ?_, fun t ht => ?_⟩
  · rw [hjoined]
    rcases hsec.tids hc with ⟨-, hall⟩ | ⟨np, -, -, hnp, hall⟩
    · have hold := (hall q).resolve_right htid
      rw [hold] at htid ⊢
      exact hh.present q htid
    · by_cases hq : q = np
      · rw [hq]
        exact hh.fresh _ hnp.ge
      · rw [hall q hq] at htid ⊢
        exact hh.present q htid
  · rw [hjoined]
    rcases hh.gone t ht with hnil | ⟨r, hr, hcall⟩
    · exact .inl hnil
    · exact .inr ⟨r, hr, (hcalled t ht (by simp [hr])).trans hcall⟩
  · rw [hjoined]
    exact hh.fresh t ((hsec.next_le hc).trans ht)

/-- A `thread_join` returns 0 with what the thread has passed. -/
theorem History.Joined.join {h : History} (hh : h.Joined k) {t : Int} {r : Nat}
    (hgone : ∀ q, (k.proc q).tid ≠ 0 → (k.proc q).tid ≠ t) (hlt : t < k.nextThreadId)
    (hnil : t ≠ 0 → h.joined t = [] ∧ h.called t = [r]) : (h.join t (some r)).Joined k := by
  have hself : (h.join t (some r)).joined t = h.joined t ++ [r] := update_self ..
  have hother : ∀ u, u ≠ t → (h.join t (some r)).joined u = h.joined u :=
    fun u hu => update_of_ne hu ..
  refine ⟨fun q htid => ?_, fun u hu => ?_, fun u hu => ?_⟩
  · rw [hother _ (hgone q htid)]
    exact hh.present q htid
  · by_cases hut : u = t
    · subst hut
      obtain ⟨hjoined, hcalled⟩ := hnil hu
      exact .inr ⟨r, by rw [hself, hjoined]; rfl, hcalled⟩
    · rw [hother u hut]
      exact hh.gone u hu
  · rw [hother u (by omega)]
    exact hh.fresh u hu

/-- **Step**: the history stays right. -/
theorem History.step {h : History} (hcall : h.Called s todo) (hjoin : h.Joined s)
    (hs : Named s todo) (hc : Steady s c (todo c)) (hsec : Section c s (todo c) k l') :
    (h.record s c (todo c) l').Called k (update todo c l') ∧
      (h.record s c (todo c) l').Joined k := by
  have hreport := hsec.report h
  generalize h.record s c (todo c) l' = h' at hreport
  cases hreport with
  | silent hthread =>
    exact ⟨hcall.keep hs hc hsec rfl fun _ => hthread, hjoin.keep hc hsec rfl fun _ _ _ => rfl⟩
  | exits v hl hk hl' =>
    subst hk hl'
    refine ⟨hcall.call hs hc.running hl v, hjoin.keep hc hsec rfl fun t ht hjoined => ?_⟩
    -- the thread is still in the table
    have hne : t ≠ (k.proc c).tid := by
      rintro rfl
      exact hjoined (hjoin.present c ht)
    exact update_of_ne hne ..
  | joins p hz hp hl hl' =>
    have hkeep : (h.join (s.proc p).tid (some (s.proc p).threadReturn)).Called k _ :=
      hcall.keep hs hc hsec rfl fun _ v => by simp [hl, hl']
    refine ⟨hkeep, (hjoin.keep hc hsec rfl fun _ _ _ => rfl).join (fun q hq he => ?_)
      ((hs.lt p).trans_le (hsec.next_le hc))
      fun htid => ⟨hjoin.present p htid, hcall.zombie p htid hz⟩⟩
    rcases hsec.tids hc with ⟨-, hall⟩ | ⟨np, hmakes, -⟩
    · have hold := (hall q).resolve_right hq
      have hqp := hs.inj q p (hold ▸ hq) (hold.symm.trans he)
      exact hq (hqp ▸ congrArg Card.tid hp)
    · rw [hl] at hmakes
      contradiction
  | ends hz =>
    exact ⟨hcall.keep hs hc hsec rfl fun hne => absurd hz hne,
      hjoin.keep hc hsec rfl fun _ _ _ => rfl⟩

/-! ## Scheduling and wakeups -/

/-- Entries have been woken or scheduled, and nothing else. -/
structure Calm (s k : Kernel) : Prop where
  next : k.nextThreadId = s.nextThreadId
  tid : ∀ q, (k.proc q).tid = (s.proc q).tid
  parent : ∀ q, (k.proc q).parent = (s.proc q).parent
  chan : ∀ q, (k.proc q).chan = (s.proc q).chan
  threadReturn : ∀ q, (k.proc q).threadReturn = (s.proc q).threadReturn
  state : ∀ q, (k.proc q).state = (s.proc q).state ∨
    (s.proc q).state = .sleeping ∧ (k.proc q).state = .runnable ∨
    (s.proc q).state = .runnable ∧ (k.proc q).state = .running

/-- The entry may have been woken or scheduled. -/
def Card.Stirs (a b : Card) : Prop :=
  ∃ st, (Woken a.state st ∨ a.state = .runnable ∧ st = .running) ∧ b = a.withState st

theorem calm_of_stirs (hnext : k.nextThreadId = s.nextThreadId)
    (h : ∀ q, Card.Stirs (s.proc q).card (k.proc q).card) : Calm s k := by
  choose st hst he using h
  refine ⟨hnext, fun q => congrArg Card.tid (he q), fun q => congrArg Card.parent (he q),
    fun q => congrArg Card.chan (he q), fun q => congrArg Card.threadReturn (he q), fun q => ?_⟩
  have hstate : (k.proc q).state = st q := congrArg Card.state (he q)
  rw [hstate]
  exact or_assoc.mp (hst q)

theorem Awake.calm (h : Awake s k) : Calm s k := by
  refine calm_of_stirs h.nextThreadId fun q => ?_
  obtain ⟨st, hst, he⟩ := h.card q
  exact ⟨st, .inl hst, he⟩

theorem calm_schedule {p : Slot} (hp : (s.proc p).state = .runnable)
    (hk : CardAt s p ((s.proc p).card.withState .running) k)
    (hnext : k.nextThreadId = s.nextThreadId) : Calm s k := by
  refine calm_of_stirs hnext fun q => ?_
  by_cases hq : q = p
  · subst hq
    exact ⟨.running, .inr ⟨hp, rfl⟩, hk.same⟩
  · obtain ⟨st, hst, he⟩ := hk.other q hq
    exact ⟨st, .inl hst, he⟩

namespace Calm

theorem state_iff (h : Calm s k) {st : ProcState} (hst : st = .unused ∨ st = .embryo ∨ st = .zombie)
    (q : Slot) : (k.proc q).state = st ↔ (s.proc q).state = st := by
  rcases h.state q with hq | ⟨ha, hb⟩ | ⟨ha, hb⟩
  · rw [hq]
  · rw [ha, hb]
    rcases hst with rfl | rfl | rfl <;> simp
  · rw [ha, hb]
    rcases hst with rfl | rfl | rfl <;> simp

theorem sleeping (h : Calm s k) {q : Slot} (hq : (k.proc q).state = .sleeping) :
    (s.proc q).state = .sleeping := by
  rcases h.state q with hst | ⟨-, hb⟩ | ⟨-, hb⟩
  · exact hst.symm.trans hq
  · simp [hb] at hq
  · simp [hb] at hq

theorem named (h : Calm s k) (hs : Named s todo) : Named k todo where
  pos := h.next ▸ hs.pos
  lt q := by
    rw [h.tid, h.next]
    exact hs.lt q
  inj q q' := by
    rw [h.tid, h.tid]
    exact hs.inj q q'
  unused q := by
    rw [h.tid, h.state_iff (.inl rfl)]
    exact hs.unused q
  filling d np := by
    rw [h.tid]
    exact hs.filling d np
  idle q := by
    rw [h.state_iff (.inl rfl), h.state_iff (.inr (.inl rfl)), h.state_iff (.inr (.inr rfl))]
    exact hs.idle q
  die q := by
    rw [h.tid]
    exact hs.die q

theorem waiting (h : Calm s k) (hw : Waiting s todo) : Waiting k todo := by
  intro q t m ht hq hsleep
  obtain ⟨hchan, z, htid, hparent, hz⟩ := hw q t m ht hq (h.sleeping hsleep)
  refine ⟨(h.chan q).trans hchan, z, (h.tid z).trans htid, (h.parent z).trans hparent, ?_⟩
  rwa [Ne, h.state_iff (.inr (.inr rfl))]

theorem called {h : History} (hk : Calm s k) (hh : h.Called s todo) : h.Called k todo where
  leaving q v := by
    rw [hk.tid]
    exact hh.leaving q v
  zombie q := by
    rw [hk.tid, hk.state_iff (.inr (.inr rfl)), hk.threadReturn]
    exact hh.zombie q
  living q := by
    rw [hk.tid, Ne, Ne, hk.state_iff (.inr (.inr rfl))]
    exact hh.living q
  fresh t := by
    rw [hk.next]
    exact hh.fresh t

theorem joined {h : History} (hk : Calm s k) (hh : h.Joined s) : h.Joined k where
  present q := by
    rw [hk.tid]
    exact hh.present q
  gone := hh.gone
  fresh t := by
    rw [hk.next]
    exact hh.fresh t

end Calm

end

end Kernel

namespace Smp

/-! ## Runs with their history -/

/-- The machine with the history of its run. -/
structure Recorded where
  machine : Smp
  history : Kernel.History

namespace Recorded

/-- The history after an act: the current process of a CPU may have entered
`thread_exit` or left `thread_join`. -/
def note (r : Recorded) (a : Act) (s' : Smp) : Kernel.History :=
  match a.cpu.bind r.machine.cpu with
  | none => r.history
  | some c => r.history.record r.machine.kernel c (r.machine.todo c) (s'.todo c)

/-- An act of the machine, recorded. -/
def next (r : Recorded) (a : Act) : Option Recorded :=
  (r.machine.next a).map fun s' => ⟨s', r.note a s'⟩

/-- The first process has just started, and nothing has happened. -/
def Started (r : Recorded) : Prop :=
  r.machine.Started ∧ r.history = ⟨fun _ => [], fun _ => []⟩

/-- Reachable by acts that all meet `guard`. -/
abbrev ReachableBy (guard : Recorded → Act → Prop) (r : Recorded) : Prop :=
  Reach Started next guard r

/-- The act is orderly, and the thread ids have not run out. -/
def Orderly (r : Recorded) (a : Act) : Prop :=
  r.machine.Orderly a ∧ r.machine.kernel.nextThreadId < 2 ^ 31 - 1

/-- What holds in all runs. -/
structure Right (r : Recorded) : Prop where
  placed : r.machine.Placed
  named : Kernel.Named r.machine.kernel r.machine.todo
  waiting : Kernel.Waiting r.machine.kernel r.machine.todo
  called : r.history.Called r.machine.kernel r.machine.todo
  joined : r.history.Joined r.machine.kernel

variable {r : Recorded} {a : Act}

/-- Nothing is recorded when nobody runs on the CPU. -/
theorem note_idle {s' : Smp} (h : a.cpu.bind r.machine.cpu = none) : r.note a s' = r.history := by
  unfold note
  rw [h]

theorem Right.calm {s' : Smp} (hr : r.Right) (hplaced : s'.Placed)
    (htodo : s'.todo = r.machine.todo) (h : Kernel.Calm r.machine.kernel s'.kernel) :
    Right ⟨s', r.history⟩ := by
  refine ⟨hplaced, ?_, ?_, ?_, h.joined hr.joined⟩
  all_goals rw [htodo]
  · exact h.named hr.named
  · exact h.waiting hr.waiting
  · exact h.called hr.called

theorem right_of_move {s' : Smp} (hr : r.Right) (h : r.machine.Move a s') :
    Right ⟨s', r.note a s'⟩ := by
  have hplaced := hr.placed.next h
  cases h with
  | schedule ha hi hp hk hnext =>
    rw [note_idle (by rw [ha]; exact hi)]
    exact hr.calm hplaced rfl (Kernel.calm_schedule hp hk hnext)
  | idle ha hk =>
    rw [note_idle ha]
    exact hr.calm hplaced rfl hk.calm
  | @acts i c k l ha hi hsec hl =>
    have hsteady := hr.named.steady (hr.placed.running i c hi) (hr.placed.embryo c)
    have hself : (r.machine.after i c k l).todo c = l := update_self ..
    have hnote : r.note a (r.machine.after i c k l) =
        r.history.record r.machine.kernel c (r.machine.todo c) l := by
      simp [note, ha, hi, hself]
    rw [hnote]
    obtain ⟨hcalled, hjoined⟩ := Kernel.History.step hr.called hr.joined hr.named hsteady hsec
    exact ⟨hplaced, hr.named.step hsteady hr.placed.embryo
      (fun d np hd hc => hr.placed.apart d c np hd hc) hsec, hr.waiting.step hsteady hsec,
      hcalled, hjoined⟩

theorem started_right (h : r.Started) : r.Right := by
  obtain ⟨s, hist⟩ := r
  obtain ⟨⟨k, hk, rfl⟩, rfl⟩ := h
  have htid : ∀ q, (k.proc q).tid = 0 := by
    intro q
    obtain ⟨p, i, hb⟩ := Kernel.started_book hk
    have hentry : (k.proc q).tid = ((Kernel.startBook p i).entry q).tid :=
      congrArg (fun b => (b.entry q).tid) hb
    rw [hentry]
    by_cases hq : q = p <;> simp [Kernel.startBook, hq, Proc.zero, Proc.entry]
  have hnext : k.nextThreadId = 1 := congrArg Tally.nextTid (Kernel.started_tally hk)
  refine ⟨started_placed ⟨k, hk, rfl⟩, ⟨?_, fun q => ?_, fun q _ hq => absurd (htid q) hq,
    fun q _ => htid q, fun _ np _ => htid np, fun _ _ => rfl, fun q _ => htid q⟩, fun q t m _ hq => ?_,
    ⟨fun q _ hq => absurd (htid q) hq, fun q hq => absurd (htid q) hq,
      fun q hq => absurd (htid q) hq, fun _ _ => rfl⟩, ⟨fun _ _ => rfl, fun _ _ => .inl rfl,
      fun _ _ => rfl⟩⟩
  · rw [boot, hnext]
    exact one_pos
  · rw [boot, hnext, htid]
    exact one_pos
  · contradiction

theorem right_of_orderly (h : r.ReachableBy Orderly) : r.Right := by
  refine h.inv Right (fun _ => started_right) fun r a r' hr hg hn => ?_
  obtain ⟨s', hs', rfl⟩ := Option.map_eq_some_iff.mp hn
  exact right_of_move hr (move_of_next hr.placed hg.1 hs')

/-! ## The protocol -/

/-- The join protocol, for every thread `t`. -/
structure JoinProtocol (r : Recorded) : Prop where
  /-- `thread_join(t)` has returned 0 only after `t` called `thread_exit`, and
  with the value `t` passed. -/
  exited : ∀ t v, t ≠ 0 → v ∈ r.history.joined t → r.history.called t = [v]
  /-- At most one `thread_join(t)` has returned 0. -/
  once : ∀ t, t ≠ 0 → (r.history.joined t).length ≤ 1
  /-- When one returns 0, the slot of `t` is `UNUSED` afterwards. -/
  cleared : ∀ a r', r.next a = some r' → ∀ t, t ≠ 0 → r'.history.joined t ≠ r.history.joined t →
    ∃ z, (r.machine.kernel.proc z).tid = t ∧
      (r.machine.kernel.proc z).state = .zombie ∧ (r'.machine.kernel.proc z).state = .unused
  /-- Nobody sleeps inside `thread_join(t)` while `t` is a zombie. -/
  awake : ∀ t q l z, t ≠ 0 → r.machine.todo q = .join t :: l →
    (r.machine.kernel.proc q).state = .sleeping → (r.machine.kernel.proc z).tid = t →
      (r.machine.kernel.proc z).state ≠ .zombie

/-- The start of `exit()` is no end of a `thread_join`. -/
theorem record_beginExit {h : Kernel.History} {s k : Kernel} {c : Slot} {l : List Kernel.Instr}
    (hl : s.beginExit c = .ok l) : h.record k c [] l = h := by
  unfold Kernel.beginExit at hl
  split at hl
  · contradiction
  split at hl
  · cases hl
    rfl
  split at hl
  · cases hl
    rfl
  split at hl
  · split at hl
    · contradiction
    · cases hl
      rfl
  · contradiction

/-- An act in which a `thread_join` returns 0 is one that the rules of `Move`
cover: neither a call of `exit()` nor a look into the stride queue. -/
theorem orderly_of_joined {r' : Recorded} (hn : r.next a = some r')
    (hjoined : r'.history ≠ r.history) : r.machine.Orderly a := by
  obtain ⟨s', hs', rfl⟩ := Option.map_eq_some_iff.mp hn
  cases a with
  | call i op =>
    cases op with
    | exit =>
      obtain ⟨c, hi, hacts⟩ := acts_of_next rfl (by simp) hs'
      simp only [acts] at hacts
      split at hacts
      · next hnil =>
        obtain ⟨⟨k, l⟩, hk, rfl⟩ := Option.map_eq_some_iff.mp hacts
        obtain ⟨l', hl, hk⟩ := bind_eq_ok.mp (Kernel.eq_ok_of_toOption hk)
        cases hk
        refine absurd ?_ hjoined
        have hself : (r.machine.after i c r.machine.kernel l).todo c = l := update_self ..
        simp only [note, Act.cpu, Option.bind_some, hi, hself, hnil]
        exact record_beginExit hl
      · contradiction
    | fork | exec | sbrk | setCpuShare | threadCreate | threadExit | threadJoin | wait | kill =>
      trivial
  | stride i =>
    simp only [Smp.next] at hs'
    split at hs'
    · next hi => exact absurd (note_idle (a := .stride i) hi) hjoined
    · contradiction
  | schedule | yield | sleep | wakeup | files | step => trivial

theorem cleared_of_joined {r' : Recorded} (hr : r.Right) (hn : r.next a = some r') {t : Int}
    (hjoined : r'.history.joined t ≠ r.history.joined t) :
    ∃ z, (r.machine.kernel.proc z).tid = t ∧ (r.machine.kernel.proc z).state = .zombie ∧
      (r'.machine.kernel.proc z).state = .unused := by
  have hg := orderly_of_joined hn fun hh => hjoined (by rw [hh])
  obtain ⟨s', hs', rfl⟩ := Option.map_eq_some_iff.mp hn
  cases move_of_next hr.placed hg hs' with
  | schedule ha hi => exact absurd (by rw [note_idle (by rw [ha]; exact hi)]) hjoined
  | idle ha => exact absurd (by rw [note_idle ha]) hjoined
  | @acts i c k l ha hi hsec hl =>
    have hself : (r.machine.after i c k l).todo c = l := update_self ..
    have hreport := hsec.report r.history
    simp only [note, ha, Option.bind_some, hi, hself] at hjoined
    generalize r.history.record r.machine.kernel c (r.machine.todo c) l = h' at hreport hjoined
    cases hreport with
    | silent => exact absurd rfl hjoined
    | exits v => exact absurd rfl hjoined
    | joins p hz hp =>
      have htid : (r.machine.kernel.proc p).tid = t := by
        by_contra hne
        exact hjoined (update_of_ne (Ne.symm hne) ..)
      exact ⟨p, htid, hz, congrArg Card.state hp⟩
    | ends => exact absurd rfl hjoined

/-- **The join protocol** holds in every run of orderly acts. -/
theorem joinProtocol_of_orderly {r : Recorded} (h : r.ReachableBy Orderly) : r.JoinProtocol := by
  have hr := right_of_orderly h
  refine ⟨fun t v ht hv => ?_, fun t ht => ?_, fun a r' hn t _ hj => cleared_of_joined hr hn hj,
    fun t q l z ht hq hsleep hz => ?_⟩
  · rcases hr.joined.gone t ht with hnil | ⟨w, hw, hcalled⟩
    · simp [hnil] at hv
    · rw [hw, List.mem_singleton] at hv
      rw [hv]
      exact hcalled
  · rcases hr.joined.gone t ht with hnil | ⟨w, hw, -⟩
    · simp [hnil]
    · simp [hw]
  · obtain ⟨-, z', hz', -, hne⟩ := hr.waiting q t l ht hq hsleep
    have hsame := hr.named.inj z z' (hz ▸ ht) (hz.trans hz'.symm)
    rwa [hsame]

/-- The first process has started with an empty history. -/
def boot (k : Kernel) : Recorded := ⟨Smp.boot k, ⟨fun _ => [], fun _ => []⟩⟩

instance (r : Recorded) (a : Act) : Decidable (r.Orderly a) := inferInstanceAs (Decidable (_ ∧ _))

theorem exists_reachableBy (guard : Recorded → Act → Prop) [∀ r a, Decidable (guard r a)]
    {P : Recorded → Prop} [DecidablePred P] (free : List Frame) (junk : Nat → Bool)
    (file : Kernel.ExecFile) (acts : List Act)
    (h : ((Kernel.start free junk file).toOption.bind fun k =>
      runFrom (guarded next guard) (boot k) acts).any (fun r => P r) = true) :
    ∃ r, ReachableBy guard r ∧ P r :=
  Reach.exists_of_boot
    (fun k hk => ⟨⟨k, ⟨free, junk, file, Kernel.eq_ok_of_toOption hk⟩, rfl⟩, rfl⟩) acts h

/-- The process in entry 1 creates the thread in entry 2, with id 1. -/
def threaded : List Act := forked ++ [.call 1 .threadCreate, .step 1, .step 1, .step 1]

/-- The process joins the thread before the thread calls `thread_exit(7)`. -/
def joinedEarly : List Act :=
  List.flatten
    [threaded, [.schedule 2 2, .call 1 (.threadJoin 1), .step 1],
      [.call 2 (.threadExit 7), .step 2, .step 2], [.schedule 1 1, .step 1]]

/-- The process slept, has been woken, and returns with the 7. -/
theorem joinProtocol_joinedEarly : ∃ r : Recorded, r.ReachableBy Orderly ∧
    r.history.joined 1 = [7] ∧ r.history.called 1 = [7] ∧
    (r.machine.kernel.proc 2).state = .unused ∧ r.JoinProtocol := by
  obtain ⟨r, hr, hjoined, hcalled, hunused⟩ := exists_reachableBy Orderly
    (P := fun r => r.history.joined 1 = [7] ∧ r.history.called 1 = [7] ∧
      (r.machine.kernel.proc 2).state = .unused)
    (List.range' 1 400) (fun _ => false) Kernel.smallProgram joinedEarly (by decide +kernel)
  exact ⟨r, hr, hjoined, hcalled, hunused, joinProtocol_of_orderly hr⟩

/-- The process calls `exit()`, which makes the thread a zombie and joins it. -/
def joinedByExit : List Act := threaded ++ .call 1 .exit :: List.replicate 6 (.step 1)

/-- A `thread_join` returns 0 though the thread has not called `thread_exit`. -/
theorem not_joinProtocol_joinedByExit : ∃ r : Recorded, r.ReachableBy (fun _ _ => True) ∧
    r.history.joined 1 = [0] ∧ r.history.called 1 = [] ∧
    (r.machine.kernel.proc 2).state = .unused ∧ ¬ r.JoinProtocol := by
  obtain ⟨r, hr, hjoined, hcalled, hunused⟩ := exists_reachableBy (fun _ _ => True)
    (P := fun r => r.history.joined 1 = [0] ∧ r.history.called 1 = [] ∧
      (r.machine.kernel.proc 2).state = .unused)
    (List.range' 1 400) (fun _ => false) Kernel.smallProgram joinedByExit (by decide +kernel)
  refine ⟨r, hr, hjoined, hcalled, hunused, fun hprotocol => ?_⟩
  have hexited := hprotocol.exited 1 0 (by decide) (by simp [hjoined])
  rw [hcalled] at hexited
  contradiction

end Recorded
end Smp
end Xv6
