import Xv6.Smp.Section

/-!
# Xv6.Smp.Current

The current processes of the CPUs: nobody is torn down while a CPU runs it, as
long as `exit()` is called by processes without threads only and the stride queue
gives nobody to two CPUs.

When a process with threads calls `exit()`, or a thread does, a thread that another
CPU runs at that moment becomes an unused entry under the feet of that CPU.
`scheduler()` does not look at the state of the process it takes from the stride
queue, which may be running on another CPU.
-/

namespace Xv6

open Lib Function Kernel

theorem Card.Wakes.same {a b : Card} (h : a.Wakes b) (ha : a.state = .running ∨ a.state = .embryo) :
    b.state = a.state ∧ b.kstack = a.kstack := by
  have hne : a.state ≠ .sleeping := by rcases ha with ha | ha <;> simp [ha]
  rw [h.eq hne]
  exact ⟨rfl, rfl⟩

namespace Kernel

variable {s k : Kernel} {c : Slot} {l l' : List Instr}

/-! ## One step of a process -/

/-- A step of `c` does nothing to another process that runs, nor to an entry
that another process is filling. -/
theorem Section.same (h : Section c s l k l')
    (hmakes : ∀ np, makes l = some np → (s.proc np).state = .embryo) {q : Slot} (hq : q ≠ c)
    (hst : (s.proc q).state = .running ∨ (s.proc q).state = .embryo ∧ makes l ≠ some q) :
    (k.proc q).state = (s.proc q).state ∧ (k.proc q).kstack = (s.proc q).kstack := by
  have hstate : (s.proc q).state = .running ∨ (s.proc q).state = .embryo := hst.imp_right And.left
  -- the entry that `c` is filling is another one
  have hfill : ∀ np, makes l = some np → q ≠ np := by
    rintro np hnp rfl
    rcases hst with hrun | ⟨-, hne⟩
    · rw [hmakes q hnp] at hrun
      contradiction
    · exact hne hnp
  have hne : ∀ {p : Slot} {st : ProcState}, (s.proc p).state = st → st ≠ .running →
      st ≠ .embryo → q ≠ p := by
    rintro p st rfl hrun hemb rfl
    exact hstate.elim hrun hemb
  cases h with
  | quiet h => exact (h.card q).same hstate
  | exits => exact ⟨rfl, rfl⟩
  | yields => rw [upd_proc_of_ne s _ hq]; exact ⟨rfl, rfl⟩
  | sleeps => rw [sleepOn, upd_proc_of_ne s _ hq]; exact ⟨rfl, rfl⟩
  | fails => exact ⟨rfl, rfl⟩
  | allocs hnp h => exact (h.other q (hne hnp (by decide) (by decide))).same hstate
  | fills hl h =>
    refine (h.other q (hfill _ ?_)).same hstate
    rcases hl with rfl | rfl <;> rfl
  | readies => rw [ready, upd_proc_of_ne s _ (hfill _ rfl)]; exact ⟨rfl, rfl⟩
  | clears hz h => exact (h.other q (hne hz (by decide) (by decide))).same hstate
  | buries h => exact (h.other q hq).same hstate

/-- The entry that `c` is filling afterwards is in preparation, and was so or
was not in use. -/
theorem Section.makes (h : Section c s l k l')
    (hmakes : ∀ np, makes l = some np → (s.proc np).state = .embryo)
    (hc : (s.proc c).state = .running) {np : Slot} (hnp : Kernel.makes l' = some np) :
    (k.proc np).state = .embryo ∧ (Kernel.makes l = some np ∨ (s.proc np).state = .unused) := by
  cases h with
  | quiet _ _ hnone =>
    rw [hnone] at hnp
    contradiction
  | exits => contradiction
  | yields =>
    have hemb := hmakes np hnp
    have hne : np ≠ c := by
      rintro rfl
      rw [hemb] at hc
      contradiction
    rw [upd_proc_of_ne s _ hne]
    exact ⟨hemb, .inl hnp⟩
  | sleeps hnone =>
    rw [hnone] at hnp
    contradiction
  | fails => contradiction
  | allocs hunused h _ _ hl =>
    rcases hl with ⟨hst, rfl | rfl⟩ | ⟨-, rfl⟩
    · cases hnp
      exact ⟨(congrArg Card.state h.same).trans hst, .inr hunused⟩
    · cases hnp
      exact ⟨(congrArg Card.state h.same).trans hst, .inr hunused⟩
    · contradiction
  | fills hl h _ hl' =>
    have hold : ∀ {np' : Slot}, (l = [.fillChild np'] ∨ l = [.fillThread np']) →
        Kernel.makes l = some np' := by
      rintro np' (rfl | rfl) <;> rfl
    rcases hl' with ⟨hst, rfl | rfl | rfl⟩ | ⟨-, rfl⟩
    · contradiction
    · cases hnp
      exact ⟨(congrArg Card.state h.same).trans hst, .inl (hold hl)⟩
    · cases hnp
      exact ⟨(congrArg Card.state h.same).trans hst, .inl (hold hl)⟩
    · contradiction
  | readies hl =>
    rcases hl with rfl | rfl <;> contradiction
  | clears => contradiction
  | buries => contradiction

end Kernel

namespace Smp

/-! ## Acts -/

/-- `exit()` is called by a process without threads, and in the stride queue
there are only `RUNNABLE` processes directly below a `RUNNABLE` one when a
scheduler looks there. -/
def Orderly (s : Smp) : Act → Prop
  | .call i .exit => ∀ c, s.cpu i = some c →
      (s.kernel.proc c).tid = 0 ∧ (s.kernel.proc c).numOfThreads = 0
  | .stride _ => s.kernel.ptable.ReadyBelow
  | _ => True

/-- Every CPU has a current process of its own, which is `RUNNING`, and every
process in a call is doing something that concerns itself and the entry it is
filling. -/
structure Placed (s : Smp) : Prop where
  running : ∀ i p, s.cpu i = some p → (s.kernel.proc p).state = .running
  once : ∀ i j p, s.cpu i = some p → s.cpu j = some p → i = j
  calls : ∀ c, Kernel.Calls c (s.todo c)
  embryo : ∀ c np, makes (s.todo c) = some np → (s.kernel.proc np).state = .embryo
  apart : ∀ c d np, makes (s.todo c) = some np → makes (s.todo d) = some np → c = d

/-- What an act is. -/
inductive Move (s : Smp) (a : Act) : Smp → Prop where
  /-- The scheduler of an idle CPU switches to `p`. -/
  | schedule {i : Cpu} {p : Slot} {k : Kernel} (ha : a.cpu = some i) (hi : s.cpu i = none)
      (hp : (s.kernel.proc p).state = .runnable)
      (hk : CardAt s.kernel p ((s.kernel.proc p).card.withState .running) k)
      (hnext : k.nextThreadId = s.kernel.nextThreadId) :
      Move s a { s with kernel := k, cpu := update s.cpu i (some p) }
  /-- An interrupt, or a scheduler that finds nobody. -/
  | idle {k : Kernel} (ha : a.cpu.bind s.cpu = none) (hk : Awake s.kernel k) :
      Move s a { s with kernel := k }
  | acts {i : Cpu} {c : Slot} {k : Kernel} {l : List Kernel.Instr} (ha : a.cpu = some i)
      (hi : s.cpu i = some c) (h : Kernel.Section c s.kernel (s.todo c) k l)
      (hl : Kernel.Calls c l) : Move s a (s.after i c k l)

variable {l : List Kernel.Instr}

theorem makes_of_maySleep (h : MaySleep l) : makes l = none := by
  cases l with
  | nil => rfl
  | cons x m => cases x <;> first | rfl | exact h.elim

variable {s s' : Smp} {a : Act} {i : Cpu} {c : Slot}

theorem move_of_acts (hs : s.Placed) (hg : s.Orderly a) (ha : a.cpu = some i)
    (hi : s.cpu i = some c) (h : s.acts i c a = some s') : s.Move a s' := by
  cases a with
  | yield j =>
    obtain ⟨k, hk, rfl⟩ := Option.map_eq_some_iff.mp h
    obtain ⟨-, hk⟩ := next_eq_some.mp hk
    cases hk
    exact .acts ha hi .yields (hs.calls c)
  | sleep j chan =>
    simp only [acts] at h
    split at h
    · next hmay =>
      obtain ⟨k, hk, rfl⟩ := Option.map_eq_some_iff.mp h
      obtain ⟨-, hk⟩ := next_eq_some.mp hk
      cases hk
      refine .acts ha hi (.sleeps (makes_of_maySleep hmay) fun t m hl => ?_) (hs.calls c)
      rw [hl] at hmay
      exact hmay.elim
    · contradiction
  | files j f =>
    simp only [acts] at h
    split at h
    · next hnil =>
      obtain ⟨k, hk, rfl⟩ := Option.map_eq_some_iff.mp h
      obtain ⟨-, hk⟩ := next_eq_some.mp hk
      cases hk
      refine .acts ha hi ?_ .none
      rw [hnil]
      exact .quiet (awake_setFiles _ c f) (by simp) rfl (by simp) (by simp)
    · contradiction
  | call j op =>
    simp only [acts] at h
    split at h
    · next hnil =>
      obtain ⟨⟨k, l⟩, hk, rfl⟩ := Option.map_eq_some_iff.mp h
      have hexit : op = .exit →
          (s.kernel.proc c).tid = 0 ∧ (s.kernel.proc c).numOfThreads = 0 := by
        rintro rfl
        cases ha
        exact hg c hi
      obtain ⟨hsec, hl⟩ := section_of_call hexit (eq_ok_of_toOption hk)
      refine .acts ha hi ?_ hl
      rw [hnil]
      exact hsec
    · contradiction
  | step j =>
    simp only [acts] at h
    split at h
    · contradiction
    next x l hx =>
    obtain ⟨⟨k, m⟩, hk, rfl⟩ := Option.map_eq_some_iff.mp h
    have hcalls := hs.calls c
    have hembryo := hs.embryo c
    rw [hx] at hcalls hembryo
    obtain ⟨hsec, hl⟩ := section_of_run hcalls hembryo (eq_ok_of_toOption hk)
    refine .acts ha hi ?_ hl
    rw [hx]
    exact hsec
  | schedule j p => contradiction
  | stride j => contradiction
  | wakeup chan => contradiction

/-- All acts but those of a scheduler and a wakeup are taken by the current process
of a CPU. -/
theorem acts_of_next (ha : a.cpu = some i) (hsched : (∀ p, a ≠ .schedule i p) ∧ a ≠ .stride i)
    (h : s.next a = some s') : ∃ c, s.cpu i = some c ∧ s.acts i c a = some s' := by
  cases a with
  | schedule j p =>
    cases ha
    exact absurd rfl (hsched.1 p)
  | stride j =>
    cases ha
    exact absurd rfl hsched.2
  | wakeup chan => cases ha
  | yield _ | sleep _ _ | files _ _ | call _ _ | step _ =>
    cases ha
    simp only [next] at h
    split at h
    · contradiction
    next c hi =>
    split at h
    · exact ⟨c, hi, h⟩
    · contradiction

/-- **Every act** of a run is one of these. -/
theorem move_of_next (hs : s.Placed) (hg : s.Orderly a) (h : s.next a = some s') : s.Move a s' := by
  -- an act of the current process of a CPU
  have hcurrent : ∀ i, a.cpu = some i → ((∀ p, a ≠ .schedule i p) ∧ a ≠ .stride i) →
      s.Move a s' := by
    intro i ha hsched
    obtain ⟨c, hi, h⟩ := acts_of_next ha hsched h
    exact move_of_acts hs hg ha hi h
  cases a with
  | schedule i p =>
    simp only [next] at h
    split at h
    · next hi =>
      obtain ⟨k, hk, rfl⟩ := Option.map_eq_some_iff.mp h
      obtain ⟨hp, hk⟩ := next_eq_some.mp hk
      cases hk
      exact .schedule rfl hi.1 hp (cardAt_upd rfl rfl rfl) rfl
    · contradiction
  | stride i =>
    simp only [next] at h
    split at h
    · next hi =>
      obtain ⟨⟨k, o⟩, hk, rfl⟩ := Option.map_eq_some_iff.mp h
      rcases strideTurn_cases (eq_ok_of_toOption hk) with
        ⟨rfl, hawake⟩ | ⟨p, rfl, hcard, hnext, hp⟩
      · have hsame : update s.cpu i none = s.cpu := by rw [← hi, update_eq_self]
        rw [hsame]
        exact .idle hi hawake
      · exact .schedule rfl hi (hp hg) hcard hnext
    · contradiction
  | wakeup chan =>
    cases h
    exact .idle rfl (awake_wakeup1 s.kernel chan)
  | yield i => exact hcurrent i rfl (by simp)
  | sleep i chan => exact hcurrent i rfl (by simp)
  | files i f => exact hcurrent i rfl (by simp)
  | call i op => exact hcurrent i rfl (by simp)
  | step i => exact hcurrent i rfl (by simp)

/-! ## Runs -/

/-- The CPUs other than the one on which `a` happens keep their current process:
it is `RUNNING` and has its kernel stack. -/
def Spares (s : Smp) (a : Act) (s' : Smp) : Prop :=
  ∀ j p, a.cpu ≠ some j → s.cpu j = some p →
    (s'.kernel.proc p).state = .running ∧ (s'.kernel.proc p).kstack = (s.kernel.proc p).kstack

theorem Placed.ne_of_ne (hs : s.Placed) {j : Cpu} {p : Slot} (hi : s.cpu i = some c)
    (hj : s.cpu j = some p) (hij : j ≠ i) : p ≠ c := by
  rintro rfl
  exact hij (hs.once j i p hj hi)

/-- **Step**: nobody else's current process is touched. -/
theorem Placed.spares (hs : s.Placed) (h : s.Move a s') : s.Spares a s' := by
  intro j p ha hj
  have hrun := hs.running j p hj
  cases h with
  | schedule _ _ hp hk =>
    have hne : p ≠ _ := fun hpp => by
      rw [hpp, hp] at hrun
      contradiction
    have hsame := (hk.other p hne).same (.inl hrun)
    exact ⟨hsame.1.trans hrun, hsame.2⟩
  | idle _ hk =>
    have hsame := (hk.card p).same (.inl hrun)
    exact ⟨hsame.1.trans hrun, hsame.2⟩
  | acts hcpu hi h hl =>
    have hij : j ≠ _ := fun hji => ha (hji ▸ hcpu)
    obtain ⟨hstate, hstack⟩ := h.same (hs.embryo _) (hs.ne_of_ne hi hj hij) (.inl hrun)
    exact ⟨hstate.trans hrun, hstack⟩

variable {k : Kernel}

/-- The current processes after a step of `c` on CPU `i`. -/
theorem Placed.cpu_after (hs : s.Placed) {j : Cpu} {p : Slot} (hi : s.cpu i = some c)
    (hj : (s.after i c k l).cpu j = some p) :
    s.cpu j = some p ∧ (p = c → (k.proc c).state = .running) := by
  unfold after at hj
  simp only at hj
  split at hj
  · next hrun => exact ⟨hj, fun _ => hrun⟩
  by_cases hji : j = i
  · subst hji
    simp at hj
  · rw [update_of_ne hji] at hj
    exact ⟨hj, fun hpc => absurd hpc (hs.ne_of_ne hi hj hji)⟩

theorem Placed.after (hs : s.Placed) (hi : s.cpu i = some c)
    (h : Kernel.Section c s.kernel (s.todo c) k l)
    (hl : Kernel.Calls c l) : (s.after i c k l).Placed := by
  have hc := hs.running i c hi
  have htodo : ∀ d, d ≠ c → (s.after i c k l).todo d = s.todo d := fun d hd =>
    update_of_ne hd ..
  have hself : (s.after i c k l).todo c = l := update_self ..
  -- an entry that another process is filling
  have hother : ∀ d np, d ≠ c → makes (s.todo d) = some np →
      (k.proc np).state = .embryo ∧ makes l ≠ some np := by
    intro d np hd hnp
    have hemb := hs.embryo d np hnp
    have hnpc : np ≠ c := by
      rintro rfl
      rw [hemb] at hc
      contradiction
    have hmakes : makes (s.todo c) ≠ some np := fun hm => hd (hs.apart d c np hnp hm)
    refine ⟨(h.same (hs.embryo c) hnpc (.inr ⟨hemb, hmakes⟩)).1.trans hemb, fun hm => ?_⟩
    rcases (h.makes (hs.embryo c) hc hm).2 with hold | hunused
    · exact hmakes hold
    · rw [hemb] at hunused
      contradiction
  refine ⟨fun j p hj => ?_, fun j j' p hj hj' => ?_, fun d => ?_, fun d np hnp => ?_,
    fun d d' np hnp hnp' => ?_⟩
  · obtain ⟨hold, hrun⟩ := hs.cpu_after hi hj
    by_cases hpc : p = c
    · rw [hpc]
      exact hrun hpc
    · exact (h.same (hs.embryo c) hpc (.inl (hs.running j p hold))).1.trans (hs.running j p hold)
  · exact hs.once j j' p (hs.cpu_after hi hj).1 (hs.cpu_after hi hj').1
  · by_cases hd : d = c
    · rw [hd, hself]
      exact hl
    · rw [htodo d hd]
      exact hs.calls d
  · by_cases hd : d = c
    · rw [hd, hself] at hnp
      exact (h.makes (hs.embryo c) hc hnp).1
    · rw [htodo d hd] at hnp
      exact (hother d np hd hnp).1
  · by_cases hd : d = c <;> by_cases hd' : d' = c
    · rw [hd, hd']
    · rw [hd, hself] at hnp
      rw [htodo d' hd'] at hnp'
      exact absurd hnp (hother d' np hd' hnp').2
    · rw [hd', hself] at hnp'
      rw [htodo d hd] at hnp
      exact absurd hnp' (hother d np hd hnp).2
    · rw [htodo d hd] at hnp
      rw [htodo d' hd'] at hnp'
      exact hs.apart d d' np hnp hnp'

theorem Placed.schedule (hs : s.Placed) {p : Slot} (hp : (s.kernel.proc p).state = .runnable)
    (hk : CardAt s.kernel p ((s.kernel.proc p).card.withState .running) k) :
    Placed { s with kernel := k, cpu := update s.cpu i (some p) } := by
  have hstate : ∀ q, (s.kernel.proc q).state = .running ∨ (s.kernel.proc q).state = .embryo →
      (k.proc q).state = (s.kernel.proc q).state := by
    intro q hq
    have hqp : q ≠ p := by
      rintro rfl
      simp [hp] at hq
    exact ((hk.other q hqp).same hq).1
  -- the other CPUs run somebody else
  have hcpu : ∀ j q, update s.cpu i (some p) j = some q →
      j = i ∧ q = p ∨ j ≠ i ∧ s.cpu j = some q ∧ q ≠ p := by
    intro j q hj
    by_cases hji : j = i
    · subst hji
      rw [update_self, Option.some.injEq] at hj
      exact .inl ⟨rfl, hj.symm⟩
    · rw [update_of_ne hji] at hj
      refine .inr ⟨hji, hj, fun hqp => ?_⟩
      have hrun := hs.running j q hj
      rw [hqp, hp] at hrun
      contradiction
  refine ⟨fun j q hj => ?_, fun j j' q hj hj' => ?_, hs.calls, fun c np hnp => ?_, hs.apart⟩
  · rcases hcpu j q hj with ⟨-, rfl⟩ | ⟨-, hj, -⟩
    · exact congrArg Card.state hk.same
    · have hrun := hs.running j q hj
      exact (hstate q (.inl hrun)).trans hrun
  · rcases hcpu j q hj with ⟨hji, hqp⟩ | ⟨-, hj, hne⟩ <;>
      rcases hcpu j' q hj' with ⟨hji', hqp'⟩ | ⟨-, hj', hne'⟩
    · exact hji.trans hji'.symm
    · exact absurd hqp hne'
    · exact absurd hqp' hne
    · exact hs.once j j' q hj hj'
  · have hemb := hs.embryo c np hnp
    exact (hstate np (.inr hemb)).trans hemb

/-- **Step**: every CPU still has a current process of its own. -/
theorem Placed.next (hs : s.Placed) (h : s.Move a s') : s'.Placed := by
  cases h with
  | schedule _ _ hp hk => exact hs.schedule hp hk
  | idle _ hw =>
    refine ⟨fun j p hj => ?_, hs.once, hs.calls, fun c np hnp => ?_, hs.apart⟩
    · have hrun := hs.running j p hj
      exact ((hw.card p).same (.inl hrun)).1.trans hrun
    · have hemb := hs.embryo c np hnp
      exact ((hw.card np).same (.inr hemb)).1.trans hemb
  | acts _ hi h hl => exact hs.after hi h hl

theorem started_running (h : k.Started) : (k.proc k.initproc).state = .running := by
  obtain ⟨free, junk, file, h⟩ := h
  obtain ⟨s1, h1, h2⟩ := start_eq_ok h
  have hexec := exec_samePart (f := Proc.state) (fun _ _ _ _ _ => rfl) h2
  have hinit : k.initproc = s1.initproc := congrArg (fun g => g.1) hexec.globals
  rw [hinit]
  exact (hexec.entry s1.initproc).trans (by simp)

theorem started_placed (h : s.Started) : s.Placed := by
  obtain ⟨k, hk, rfl⟩ := h
  have hcpu : ∀ j p, (boot k).cpu j = some p → j = 0 ∧ p = k.initproc := by
    intro j p hj
    by_cases hj0 : j = 0
    · subst hj0
      simp only [boot, update_self, Option.some.injEq] at hj
      exact ⟨rfl, hj.symm⟩
    · simp only [boot, update_of_ne hj0] at hj
      contradiction
  refine ⟨fun j p hj => ?_, fun i j p hi hj => ?_, fun c => .none, fun c np hnp => ?_,
    fun c d np hnp _ => ?_⟩
  · obtain ⟨-, rfl⟩ := hcpu j p hj
    exact started_running hk
  · exact (hcpu i p hi).1.trans (hcpu j p hj).1.symm
  · contradiction
  · contradiction

theorem placed_of_orderly (h : s.ReachableBy Orderly) : s.Placed :=
  h.inv Placed (fun _ => started_placed) fun _ _ _ hs hg hn => hs.next (move_of_next hs hg hn)

/-- **No teardown under a CPU**: as long as the acts are orderly, none touches the
current process of another CPU. -/
theorem spares_of_orderly {s s' : Smp} {a : Act} (h : s.ReachableBy Orderly)
    (hg : s.Orderly a) (hn : s.next a = some s') : s.Spares a s' := by
  have hs := placed_of_orderly h
  exact hs.spares (move_of_next hs hg hn)

/-! ## Concrete runs -/

instance (s : Smp) : DecidablePred s.Orderly
  | .call _ .exit => inferInstanceAs (Decidable (∀ _, _ = _ → _))
  | .stride _ => inferInstanceAs (Decidable s.kernel.ptable.ReadyBelow)
  | .call _ .fork | .call _ (.exec _) | .call _ (.sbrk _) | .call _ (.setCpuShare _)
  | .call _ .threadCreate | .call _ (.threadExit _) | .call _ (.threadJoin _) | .call _ .wait
  | .call _ (.kill _) | .schedule _ _ | .yield _ | .sleep _ _ | .wakeup _ | .files _ _ | .step _ =>
    inferInstanceAs (Decidable True)

instance (s : Smp) (a : Act) (s' : Smp) : Decidable (s.Spares a s') :=
  inferInstanceAs (Decidable (∀ _ _, _ → _ → _))

theorem exists_reachableBy (guard : Smp → Act → Prop) [∀ s a, Decidable (guard s a)]
    {P : Smp → Prop} [DecidablePred P] (free : List Frame) (junk : Nat → Bool)
    (file : Kernel.ExecFile) (acts : List Act)
    (h : ((start free junk file).toOption.bind fun k =>
      runFrom (guarded next guard) (boot k) acts).any (fun s => P s) = true) :
    ∃ s, ReachableBy guard s ∧ P s :=
  Reach.exists_of_boot
    (fun k hk => ⟨k, ⟨free, junk, file, eq_ok_of_toOption hk⟩, rfl⟩) acts h

/-- Init forks a process into entry 1, which runs on the second CPU. -/
def forked : List Act := [.call 0 .fork, .step 0, .step 0, .schedule 1 1]

/-- The process in entry 1 gets a CPU share, yields and is taken from the stride
queue.  Then it calls `exit()`, up to its last critical section. -/
def leaving : List Act :=
  forked ++ [.call 1 (.setCpuShare 30), .yield 1, .stride 1, .call 1 .exit, .step 1]

/-- A process that ends on the second CPU leaves the first CPU alone. -/
theorem spares_leaving : ∃ s s' : Smp, s.ReachableBy Orderly ∧ s.next (.step 1) = some s' ∧
    s.cpu 0 = some 0 ∧ (s'.kernel.proc 1).state = .zombie ∧ s.Spares (.step 1) s' := by
  obtain ⟨s, hs, s', hn, hcpu, hz⟩ := exists_reachableBy Orderly
    (P := fun s => ∃ s', s.next (.step 1) = some s' ∧ s.cpu 0 = some 0 ∧
      (s'.kernel.proc 1).state = .zombie)
    (List.range' 1 400) (fun _ => false) smallProgram leaving (by decide +kernel)
  exact ⟨s, s', hs, hn, hcpu, hz, spares_of_orderly hs trivial hn⟩

/-- The process in entry 1 creates a thread in entry 2, which runs on the third
CPU.  Then it calls `exit()`, and its loop comes to the thread. -/
def threadedExit : List Act :=
  List.flatten
    [forked, [.call 1 .threadCreate, .step 1, .step 1, .step 1, .schedule 2 2, .call 1 .exit],
      List.replicate 4 (.step 1)]

/-- The next step of `exit()` makes the thread a zombie while the third CPU
runs it. -/
theorem not_spares_threadedExit : ∃ s s' : Smp, s.ReachableBy (fun _ _ => True) ∧
    s.next (.step 1) = some s' ∧ s.cpu 2 = some 2 ∧ (s.kernel.proc 2).state = .running ∧
    (s'.kernel.proc 2).state = .zombie ∧ ¬ s.Spares (.step 1) s' := by
  obtain ⟨s, hs, s', hn, hcpu, hrun, hz, hspares⟩ := exists_reachableBy (fun _ _ => True)
    (P := fun s => ∃ s', s.next (.step 1) = some s' ∧ s.cpu 2 = some 2 ∧
      (s.kernel.proc 2).state = .running ∧ (s'.kernel.proc 2).state = .zombie ∧
      ¬ s.Spares (.step 1) s')
    (List.range' 1 400) (fun _ => false) smallProgram threadedExit (by decide +kernel)
  exact ⟨s, s', hs, hn, hcpu, hrun, hz, hspares⟩

end Smp
end Xv6
