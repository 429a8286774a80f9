import Xv6.Smp

/-!
# Xv6.Spinlock

Spin locks and the nesting of `pushcli` and `popcli` (`spinlock.c`), for any
interleaving of the CPUs between two accesses to a lock.
-/

namespace Xv6

open Lib Function

variable {L : Type}

/-- `struct spinlock` -/
structure Spinlock where
  locked : Bool
  cpu : Option Cpu

/-- The access to `lk` that a CPU comes to next. -/
inductive LockCall (L : Type) where
  | none
  /-- `lk->locked` in `holding`, called by `release` or by `acquire` -/
  | tests (release : Bool) (lk : L)
  /-- `lk->cpu == cpu` in `holding` -/
  | compares (release : Bool) (lk : L)
  /-- `xchg(&lk->locked, 1)` -/
  | spins (lk : L)
  /-- `lk->cpu = cpu` -/
  | records (lk : L)
  /-- `lk->cpu = 0` -/
  | clears (lk : L)
  /-- `movl $0, lk->locked`, then `popcli` -/
  | unlocks (lk : L)
  deriving DecidableEq

/-- The interrupt flag of a CPU, its `struct cpu`, and a record of the run: the locks it has, the
calls of `pushcli` it has not undone, and the flag it is to have when it has no locks. -/
structure Core (L : Type) where
  flIf : Bool
  ncli : Int
  intena : Bool
  call : LockCall L
  held : List L
  pushed : Nat
  want : Bool

namespace Core

def pushcli (c : Core L) : Core L :=
  { c with flIf := false, intena := if c.ncli = 0 then c.flIf else c.intena, ncli := c.ncli + 1 }

/-- `popcli()`; `none` is a panic -/
def popcli (c : Core L) : Option (Core L) :=
  if c.flIf then none
  else if c.ncli - 1 < 0 then none
  else some { c with ncli := c.ncli - 1, flIf := decide (c.ncli - 1 = 0) && c.intena }

theorem popcli_eq {c c' : Core L} (h : c.popcli = some c') :
    c' = { c with ncli := c.ncli - 1, flIf := decide (c.ncli - 1 = 0) && c.intena } := by
  unfold popcli at h
  split_ifs at h
  exact (Option.some.inj h).symm

end Core

structure Locks (L : Type) where
  lock : L → Spinlock
  core : Cpu → Core L

namespace Locks

inductive Act (L : Type) where
  | pushcli (i : Cpu)
  | popcli (i : Cpu)
  | acquire (i : Cpu) (lk : L)
  | release (i : Cpu) (lk : L)
  /-- the CPU makes its next access -/
  | step (i : Cpu)
  /-- `cli`, `sti`, an interrupt or the return from one -/
  | flag (i : Cpu) (b : Bool)
  /-- `sched()` restores `cpu->intena` -/
  | sched (i : Cpu) (b : Bool)

def set (s : Locks L) (i : Cpu) (c : Core L) : Locks L := { s with core := update s.core i c }

section

variable [DecidableEq L]

/-- The CPU stores `x` to the lock and goes on as `c`. -/
def store (s : Locks L) (i : Cpu) (lk : L) (x : Spinlock) (c : Core L) : Locks L :=
  { lock := update s.lock lk x, core := update s.core i c }

/-- One access; `none` is a panic -/
def advance (s : Locks L) (i : Cpu) : Option (Locks L) :=
  let c := s.core i
  match c.call with
  | .none => none
  | .tests release lk =>
    if (s.lock lk).locked then some (s.set i { c with call := .compares release lk })
    else if release then none
    else some (s.set i { c with call := .spins lk })
  | .compares release lk =>
    if (s.lock lk).cpu = some i then
      if release then some (s.set i { c with call := .clears lk }) else none
    else if release then none
    else some (s.set i { c with call := .spins lk })
  | .spins lk =>
    if (s.lock lk).locked then some s
    else some (s.store i lk { s.lock lk with locked := true }
      { c with call := .records lk, held := lk :: c.held })
  | .records lk => some (s.store i lk { s.lock lk with cpu := some i } { c with call := .none })
  | .clears lk => some (s.store i lk { s.lock lk with cpu := none } { c with call := .unlocks lk })
  | .unlocks lk =>
    c.popcli.map fun c => s.store i lk { s.lock lk with locked := false }
      { c with call := .none, held := c.held.erase lk }

/-- Between two calls of `acquire` and `release`. -/
def between (s : Locks L) (i : Cpu) (f : Core L → Option (Core L)) : Option (Locks L) :=
  if (s.core i).call = .none then (f (s.core i)).map (s.set i) else none

def next (s : Locks L) : Act L → Option (Locks L)
  | .step i => s.advance i
  | .pushcli i => s.between i fun c => some { c.pushcli with pushed := c.pushed + 1 }
  | .popcli i => s.between i fun c => c.popcli.map fun c => { c with pushed := c.pushed - 1 }
  | .acquire i lk => s.between i fun c => some { c.pushcli with call := .tests false lk }
  | .release i lk => s.between i fun c => some { c with call := .tests true lk }
  | .flag i b => s.between i fun c => some { c with flIf := b, want := b }
  | .sched i b => s.between i fun c =>
    if c.ncli = 1 then some { c with intena := b, want := b } else none

/-- `popcli` undoes a call of `pushcli`, and the flag is changed by other code at depth zero. -/
def Matched (s : Locks L) : Act L → Prop
  | .popcli i => 0 < (s.core i).pushed
  | .flag i _ => (s.core i).ncli = 0
  | _ => True

/-- After `initlock` of every lock. -/
structure Started (s : Locks L) : Prop where
  lock : ∀ lk, s.lock lk = ⟨false, none⟩
  core : ∀ i, ∃ b intena, s.core i = ⟨b, 0, intena, .none, [], 0, b⟩

abbrev Reachable : Locks L → Prop := Reach Started next Matched

end

end Locks

/-- The CPU has called `pushcli` for a lock that it does not have. -/
def LockCall.entering : LockCall L → Nat
  | .tests false _ | .compares false _ | .spins _ => 1
  | _ => 0

/-- What holds of a CPU: interrupts are on where they are wanted and nothing is nested. -/
structure Core.Nested (c : Core L) : Prop where
  depth : c.ncli = c.pushed + c.held.length + c.call.entering
  flag : c.flIf = (decide (c.ncli = 0) && c.want)
  intena : c.ncli ≠ 0 → c.intena = c.want

namespace Core.Nested

variable {c c' : Core L} {call : LockCall L} {held : List L} {n : Nat}

/-- The CPU goes on in its call, with as many calls of `pushcli`. -/
theorem goOn (h : c.Nested) (he : call.entering = c.call.entering) :
    Core.Nested { c with call := call } :=
  ⟨by rw [he]; exact h.depth, h.flag, h.intena⟩

/-- `pushcli()` for one more reason. -/
theorem push (h : c.Nested) (hn : n + call.entering = c.pushed + c.call.entering + 1) :
    Core.Nested { c.pushcli with pushed := n, call := call } := by
  obtain ⟨hdepth, hflag, hint⟩ := h
  refine ⟨?_, ?_, fun _ => ?_⟩
  · simp only [Core.pushcli]
    omega
  · have hne : c.ncli + 1 ≠ 0 := by omega
    simp [Core.pushcli, hne]
  · simp only [Core.pushcli]
    split
    · next hzero => simp [hflag, hzero]
    · next hne => exact hint hne

/-- `popcli()` for one reason less. -/
theorem pop (h : c.Nested) (hpop : c.popcli = some c') (hn : n + held.length + call.entering + 1 =
    c.pushed + c.held.length + c.call.entering) :
    Core.Nested { c' with pushed := n, call := call, held := held } := by
  obtain ⟨hdepth, hflag, hint⟩ := h
  obtain rfl := Core.popcli_eq hpop
  have hne : c.ncli ≠ 0 := by omega
  refine ⟨?_, ?_, fun _ => hint hne⟩
  · simp only
    omega
  · simp only [hint hne]

end Core.Nested

namespace Locks

/-- How the lock `lk`, with the contents `x` and the owner `w`, stands with the CPU `i`. -/
structure Stands (w : Option Cpu) (x : Spinlock) (i : Cpu) (c : Core L) (lk : L) : Prop where
  held : lk ∈ c.held ↔ w = some i
  cpu : x.cpu = some i ↔ w = some i ∧ c.call ≠ .records lk ∧ c.call ≠ .unlocks lk
  inside : c.call = .records lk ∨ c.call = .clears lk ∨ c.call = .unlocks lk → w = some i
  spins : c.call = .spins lk → w ≠ some i

/-- The locks are owned as `o` says. -/
structure Owned (o : L → Option Cpu) (s : Locks L) : Prop where
  locked : ∀ lk, (s.lock lk).locked = (o lk).isSome
  stands : ∀ i lk, Stands (o lk) (s.lock lk) i (s.core i) lk
  nodup : ∀ i, (s.core i).held.Nodup
  nested : ∀ i, (s.core i).Nested

variable {s s' : Locks L} {i : Cpu} {a : Act L} {o : L → Option Cpu} {w w' : Option Cpu}
  {x x' : Spinlock} {c c' : Core L} {lk : L}

/-- The CPU goes on to a place outside the stores to `lk`, or to the first of `release`. -/
theorem Stands.goOn (h : Stands w x i c lk) (hheld : lk ∈ c'.held ↔ lk ∈ c.held)
    (hbefore : c.call ≠ .records lk ∧ c.call ≠ .unlocks lk)
    (hafter : c'.call ≠ .records lk ∧ c'.call ≠ .unlocks lk)
    (hclears : c'.call = .clears lk → w = some i) (hspins : c'.call = .spins lk → w ≠ some i) :
    Stands w x i c' lk where
  held := hheld.trans h.held
  cpu := h.cpu.trans (and_congr_right fun _ => iff_of_true hbefore hafter)
  inside hc := by
    rcases hc with hc | hc | hc
    · exact absurd hc hafter.1
    · exact hclears hc
    · exact absurd hc hafter.2
  spins := hspins

/-- The lock is another CPU's business, before and after. -/
theorem Stands.apart (h : Stands w x i c lk) (hw : w ≠ some i) (hw' : w' ≠ some i)
    (hx : x'.cpu ≠ some i) : Stands w' x' i c lk where
  held := h.held.trans (iff_of_false hw hw')
  cpu := iff_of_false hx fun hc => hw' hc.1
  inside hc := absurd (h.inside hc) hw
  spins _ := hw'

theorem Started.owned (h : s.Started) : s.Owned fun _ => none := by
  obtain ⟨hlock, hcore⟩ := h
  have hc : ∀ i, (s.core i).held = [] ∧ (s.core i).call = .none ∧ (s.core i).Nested := by
    intro i
    obtain ⟨b, intena, hi⟩ := hcore i
    simp [hi, LockCall.entering, Core.Nested.mk]
  refine ⟨fun lk => by simp [hlock], fun i lk => ?_, fun i => by simp [(hc i).1],
    fun i => (hc i).2.2⟩
  obtain ⟨hheld, hcall, -⟩ := hc i
  constructor <;> simp [hlock, hheld, hcall]

section

variable (h : s.Owned o)
include h

/-- The CPU `i` goes on as `c`, and stores nothing. -/
theorem Owned.set (hown : ∀ lk, Stands (o lk) (s.lock lk) i c lk)
    (hheld : c.held = (s.core i).held) (hn : c.Nested) : (s.set i c).Owned o where
  locked := h.locked
  stands := (forall_update_iff s.core fun j c => ∀ lk, Stands (o lk) (s.lock lk) j c lk).mpr
    ⟨hown, fun j _ => h.stands j⟩
  nodup := (forall_update_iff s.core fun _ c => c.held.Nodup).mpr
    ⟨hheld ▸ h.nodup i, fun j _ => h.nodup j⟩
  nested := (forall_update_iff s.core fun _ c => c.Nested).mpr ⟨hn, fun j _ => h.nested j⟩

/-- The CPU goes on from one access in its call to the next, between which no lock changes. -/
theorem Owned.look {call : LockCall L}
    (hbefore : ∀ lk, (s.core i).call ≠ .records lk ∧ (s.core i).call ≠ .unlocks lk)
    (hafter : ∀ lk, call ≠ .records lk ∧ call ≠ .unlocks lk)
    (hclears : ∀ lk, call = .clears lk → o lk = some i)
    (hspins : ∀ lk, call = .spins lk → o lk ≠ some i)
    (he : call.entering = (s.core i).call.entering) :
    ∃ o', (s.set i { s.core i with call := call }).Owned o' :=
  ⟨o, h.set (fun lk => (h.stands i lk).goOn .rfl (hbefore lk) (hafter lk) (hclears lk) (hspins lk))
    rfl ((h.nested i).goOn he)⟩

variable [DecidableEq L]

/-- The CPU `i` stores `x` to the lock `lk`, which then has the owner `w`, and goes on as `c`. -/
theorem Owned.store (hx : x.locked = w.isSome) (hhere : Stands w x i c lk)
    (hrest : ∀ l, l ≠ lk → Stands (o l) (s.lock l) i c l)
    (hother : ∀ j, j ≠ i → Stands w x j (s.core j) lk) (hd : c.held.Nodup) (hn : c.Nested) :
    (s.store i lk x c).Owned (update o lk w) where
  locked l := by
    by_cases hl : l = lk
    · simpa [Locks.store, hl] using hx
    · simpa [Locks.store, hl] using h.locked l
  stands j l := by
    by_cases hj : j = i <;> by_cases hl : l = lk
    · simpa [Locks.store, hj, hl] using hhere
    · simpa [Locks.store, hj, hl] using hrest l hl
    · simpa [Locks.store, hj, hl] using hother j hj
    · simpa [Locks.store, hj, hl] using h.stands j l
  nodup := (forall_update_iff s.core fun _ c => c.held.Nodup).mpr ⟨hd, fun j _ => h.nodup j⟩
  nested := (forall_update_iff s.core fun _ c => c.Nested).mpr ⟨hn, fun j _ => h.nested j⟩

/-- **Step**: one access to a lock.  The owner changes at `xchg` and at the last store. -/
theorem Owned.advance (hn : s.advance i = some s') : ∃ o', s'.Owned o' := by
  have hi := h.nested i
  have hd := h.nodup i
  have hat := h.stands i
  unfold Locks.advance at hn
  cases hcall : (s.core i).call with
  | none => simp [hcall] at hn
  | tests release lk =>
    simp only [hcall] at hn
    split_ifs at hn with hlocked hrelease <;> cases hn
    · refine h.look (by simp [hcall]) (by simp) (by simp) (by simp) ?_
      cases release <;> simp [hcall, LockCall.entering]
    · have hfree : o lk ≠ some i := fun ho => by simp [h.locked, ho] at hlocked
      exact h.look (by simp [hcall]) (by simp) (by simp) (by simpa using hfree)
        (by simp [hcall, hrelease, LockCall.entering])
  | compares release lk =>
    simp only [hcall] at hn
    split_ifs at hn with hmine hrelease hrelease <;> cases hn
    · exact h.look (by simp [hcall]) (by simp) (by simpa using ((hat lk).cpu.mp hmine).1) (by simp)
        (by simp [hcall, hrelease, LockCall.entering])
    · have hother : o lk ≠ some i := fun ho => hmine ((hat lk).cpu.mpr ⟨ho, by simp [hcall]⟩)
      exact h.look (by simp [hcall]) (by simp) (by simp) (by simpa using hother)
        (by simp [hcall, hrelease, LockCall.entering])
  | spins lk =>
    simp only [hcall] at hn
    split_ifs at hn with hlocked <;> cases hn
    · exact ⟨o, h⟩
    have hnone : o lk = none := by simpa [h.locked] using hlocked
    have hcpu : ∀ j, (s.lock lk).cpu ≠ some j := fun j hj => by
      simpa [hnone] using ((h.stands j lk).cpu.mp hj).1
    have hnot : lk ∉ (s.core i).held := by simp [(hat lk).held, hnone]
    refine ⟨_, h.store (w := some i) rfl ⟨by simp, by simp [hcpu], fun _ => rfl, by simp⟩
      (fun l hl => (hat l).goOn (by simp [hl]) (by simp [hcall]) (by simp [hl.symm]) (by simp)
        (by simp))
      (fun j hj => (h.stands j lk).apart (by simp [hnone]) (by simpa using hj.symm) (hcpu j))
      (List.nodup_cons.mpr ⟨hnot, hd⟩) ⟨?_, hi.flag, hi.intena⟩⟩
    have hdepth := hi.depth
    simp only [hcall, LockCall.entering, List.length_cons] at hdepth ⊢
    omega
  | records lk =>
    simp only [hcall] at hn
    cases hn
    have hmine := (hat lk).inside (.inl hcall)
    refine ⟨_, h.store (w := some i) (by simp [h.locked, hmine])
      ⟨by simp [(hat lk).held, hmine], by simp, by simp, by simp⟩
      (fun l hl => (hat l).goOn .rfl (by simp [hcall, hl.symm]) (by simp) (by simp) (by simp))
      (fun j hj => (h.stands j lk).apart (by simpa [hmine] using hj.symm) (by simpa using hj.symm)
        (by simpa using hj.symm)) hd (hi.goOn (by simp [hcall, LockCall.entering]))⟩
  | clears lk =>
    simp only [hcall] at hn
    cases hn
    have hmine := (hat lk).inside (.inr (.inl hcall))
    refine ⟨_, h.store (w := some i) (by simp [h.locked, hmine])
      ⟨by simp [(hat lk).held, hmine], by simp, fun _ => rfl, by simp⟩
      (fun l hl => (hat l).goOn .rfl (by simp [hcall]) (by simp [hl.symm]) (by simp) (by simp))
      (fun j hj => (h.stands j lk).apart (by simpa [hmine] using hj.symm) (by simpa using hj.symm)
        (by simp)) hd (hi.goOn (by simp [hcall, LockCall.entering]))⟩
  | unlocks lk =>
    have hmine := (hat lk).inside (.inr (.inr hcall))
    have hlength := List.length_erase_add_one ((hat lk).held.mpr hmine)
    simp only [hcall] at hn
    obtain ⟨c, hpop, rfl⟩ := Option.map_eq_some_iff.mp hn
    have heq := Core.popcli_eq hpop
    have hheld : c.held = (s.core i).held := by rw [heq]
    have hpushed : c.pushed = (s.core i).pushed := by rw [heq]
    have hcpu : (s.lock lk).cpu ≠ some i := fun hi => ((hat lk).cpu.mp hi).2.2 hcall
    refine ⟨_, h.store (w := none) rfl
      ⟨by simp [hheld, hd.not_mem_erase], by simp [hcpu], by simp, by simp⟩
      (fun l hl => (hat l).goOn (by simp [hheld, List.mem_erase_of_ne hl]) (by simp [hcall, hl.symm])
        (by simp) (by simp) (by simp))
      (fun j hj => (h.stands j lk).apart (by simpa [hmine] using hj.symm) (by simp) fun hc => ?_)
      (hheld ▸ hd.erase lk) (hi.pop hpop ?_)⟩
    · have hj' := ((h.stands j lk).cpu.mp hc).1
      exact hj (Option.some.inj (hj'.symm.trans hmine))
    · simp only [hheld, hpushed, hcall, LockCall.entering]
      omega

end

variable [DecidableEq L]

/-- A CPU between two calls does something that is none of the stores. -/
theorem Owned.between {f : Core L → Option (Core L)} (h : s.Owned o)
    (hf : ∀ c, (s.core i).call = .none → f (s.core i) = some c → c.held = (s.core i).held ∧
      (c.call = .none ∨ ∃ release lk, c.call = .tests release lk) ∧ c.Nested)
    (hn : s.between i f = some s') : ∃ o', s'.Owned o' := by
  obtain ⟨hidle, hn⟩ := Option.ite_none_right_eq_some.mp hn
  obtain ⟨c, hc, rfl⟩ := Option.map_eq_some_iff.mp hn
  obtain ⟨hheld, hcall, hnested⟩ := hf c hidle hc
  refine ⟨o, h.set (fun lk => (h.stands i lk).goOn (by rw [hheld]) (by simp [hidle]) ?_ ?_ ?_)
    hheld hnested⟩
  all_goals rcases hcall with hcall | ⟨release, lk, hcall⟩ <;> simp [hcall]

/-- **Step**: the owners after an act. -/
theorem Owned.next (h : s.Owned o) (hg : s.Matched a) (hn : s.next a = some s') :
    ∃ o', s'.Owned o' := by
  unfold Locks.next at hn
  cases a with
  | step i => exact h.advance hn
  | pushcli i =>
    refine h.between (fun c hidle hc => ?_) hn
    cases hc
    exact ⟨rfl, .inl hidle, (h.nested i).push (by simp [Core.pushcli, hidle]; omega)⟩
  | popcli i =>
    refine h.between (fun c hidle hc => ?_) hn
    obtain ⟨c, hpop, rfl⟩ := Option.map_eq_some_iff.mp hc
    have hpos : 0 < (s.core i).pushed := hg
    have heq := Core.popcli_eq hpop
    refine ⟨by rw [heq], .inl (by rw [heq]; exact hidle), (h.nested i).pop hpop ?_⟩
    simp only [heq]
    omega
  | acquire i lk =>
    refine h.between (fun c hidle hc => ?_) hn
    cases hc
    exact ⟨rfl, .inr ⟨false, lk, rfl⟩, (h.nested i).push (by simp [Core.pushcli, hidle, LockCall.entering])⟩
  | release i lk =>
    refine h.between (fun c hidle hc => ?_) hn
    cases hc
    exact ⟨rfl, .inr ⟨true, lk, rfl⟩, (h.nested i).goOn (by rw [hidle]; rfl)⟩
  | flag i b =>
    have ⟨hdepth, hflag, hint⟩ := h.nested i
    refine h.between (fun c hidle hc => ?_) hn
    cases hc
    have hzero : (s.core i).ncli = 0 := hg
    exact ⟨rfl, .inl hidle, hdepth, by simp [hzero], fun hne => absurd hzero hne⟩
  | sched i b =>
    have ⟨hdepth, hflag, hint⟩ := h.nested i
    refine h.between (fun c hidle hc => ?_) hn
    obtain ⟨hone, hc⟩ := Option.ite_none_right_eq_some.mp hc
    cases hc
    exact ⟨rfl, .inl hidle, hdepth, by rw [hflag]; simp [hone], fun _ => rfl⟩

theorem owned_of_reachable (h : s.Reachable) : ∃ o, s.Owned o :=
  h.inv (fun s => ∃ o, s.Owned o) (fun _ hs => ⟨_, hs.owned⟩) fun _ _ _ ⟨_, hs⟩ hg hn => hs.next hg hn

/-- **Mutual exclusion**: two CPUs never have the same lock.  `acquire` comes to its loop only for
a lock that the CPU does not have, `release` to its stores only for one that it has, and neither
panics for another reason. -/
theorem exclusive_of_reachable (h : s.Reachable) :
    (∀ i j lk, lk ∈ (s.core i).held → lk ∈ (s.core j).held → i = j) ∧
      ∀ i c, s.core i = c → (∀ lk, c.call = .spins lk → lk ∉ c.held) ∧
        (∀ lk, c.call = .clears lk → lk ∈ c.held) ∧
        (s.advance i = none → c.call = .none ∨ ∃ lk, c.call = .compares false lk ∧ lk ∈ c.held ∨
          (c.call = .tests true lk ∨ c.call = .compares true lk) ∧ lk ∉ c.held) := by
  obtain ⟨o, hl, hst, hd, hnest⟩ := owned_of_reachable h
  have hh := fun i lk => (hst i lk).held
  have hcpu := fun i lk => (hst i lk).cpu
  refine ⟨by grind, ?_⟩
  rintro i _ rfl
  refine ⟨fun lk hc => ?_, fun lk hc => ?_, fun hnone => ?_⟩
  · rw [hh]
    exact (hst i lk).spins hc
  · rw [hh]
    exact (hst i lk).inside (.inr (.inl hc))
  have ⟨hdepth, hflag, _⟩ := hnest i
  -- with a lock to give back, `popcli` finds `ncli` positive and interrupts off
  have hpos : ∀ lk, (s.core i).call = .unlocks lk → 0 < (s.core i).held.length := fun lk hc =>
    List.length_pos_of_mem ((hh i lk).mpr ((hst i lk).inside (.inr (.inr hc))))
  cases hcall : (s.core i).call <;> simp only [Locks.advance, hcall, Core.popcli] at hnone <;> grind

/-- CPU 0 has the lock, and CPU 1 spins. -/
theorem exists_contended : ∃ s : Locks Unit, s.Reachable ∧ () ∈ (s.core 0).held ∧
    (s.core 1).call = .spins () ∧ (s.core 0).want = true := by
  have hstart : Started ⟨fun _ : Unit => ⟨false, none⟩,
      fun _ => ⟨true, 0, false, .none, [], 0, true⟩⟩ := ⟨fun _ => rfl, fun _ => ⟨_, _, rfl⟩⟩
  have hmatched : ∀ a ∈ ([.acquire 0 (), .step 0, .step 0, .step 0, .acquire 1 (), .step 1, .step 1] :
      List (Act Unit)), ∀ s : Locks Unit, s.Matched a := by
    simp [Matched]
  exact ⟨_, (Reach.start hstart).runFrom hmatched rfl, by decide⟩

theorem exclusive_contended : ∃ s : Locks Unit, s.Reachable ∧ () ∈ (s.core 0).held ∧
    (s.core 1).call = .spins () ∧ () ∉ (s.core 1).held := by
  obtain ⟨s, hs, h0, h1, -⟩ := exists_contended
  exact ⟨s, hs, h0, h1, ((exclusive_of_reachable hs).2 1 _ rfl).1 () h1⟩

/-- **Interrupts** are off while a CPU has a lock, is about to get one or is inside `pushcli`, and
when all of that is undone they are what they are to be. -/
theorem interrupts_of_reachable (h : s.Reachable) (i : Cpu) :
    (s.core i).flIf = (decide ((s.core i).pushed = 0 ∧ (s.core i).held = [] ∧
      (s.core i).call.entering = 0) && (s.core i).want) := by
  obtain ⟨o, ho⟩ := owned_of_reachable h
  have ⟨hdepth, hflag, _⟩ := ho.nested i
  have hzero : (s.core i).ncli = 0 ↔ (s.core i).pushed = 0 ∧ (s.core i).held = [] ∧
      (s.core i).call.entering = 0 := by
    rw [hdepth, ← List.length_eq_zero_iff]
    omega
  rw [hflag, decide_eq_decide.mpr hzero]

theorem interrupts_contended : ∃ s : Locks Unit, s.Reachable ∧ () ∈ (s.core 0).held ∧
    (s.core 0).want = true ∧ (s.core 0).flIf = false := by
  obtain ⟨s, hs, h0, -, hw⟩ := exists_contended
  refine ⟨s, hs, h0, hw, ?_⟩
  simp [interrupts_of_reachable hs 0, List.ne_nil_of_mem h0]

end Locks
end Xv6
