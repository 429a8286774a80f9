import Xv6.Log

/-!
# Xv6.Log.Isolation

What an act can do to the log, and that commits are isolated: while one runs
nobody is between `begin_op` and `end_op`, so that a commit holds all the writes
of every operation of which it holds any.
-/

namespace Xv6
namespace Log

open Lib Function

variable {s s' : Log} {p id b : Nat} {data : Bytes}

/-! ## What an act can do -/

/-- The acts and their effects. -/
inductive Move (s : Log) : Act → Log → Prop where
  | waits (p : Nat) : s.pc p = .idle → Move s (.beginOp p) s
  | begins (p : Nat) : s.recovery = none → s.pc p = .idle → s.committing = false →
      (s.lh.length : Int) + (s.outstanding + 1) * MAXOPBLOCKS ≤ LOGSIZE →
      Move s (.beginOp p) (s.begun p)
  | checks (p id b : Nat) (data : Bytes) : s.recovery = none → s.pc p = .op id →
      s.lh.length < LOGSIZE → (s.lh.length : Int) < s.size - 1 →
      Move s (.logWrite p b data) (s.setPc p (.logging id b data))
  | logs (p id b : Nat) (data : Bytes) : s.recovery = none → s.pc p = .logging id b data →
      Move s (.logSection p) (s.logSection p id b data)
  | leaves (p id : Nat) : s.pc p = .op id → s.outstanding - 1 ≠ 0 → Move s (.endOp p) (s.left p)
  | closes (p id : Nat) : s.recovery = none → s.pc p = .op id → s.committing = false →
      s.outstanding - 1 = 0 → Move s (.endOp p) (s.closed p)
  | commits (p : Nat) (c : CommitPc) : s.recovery = none → s.pc p = .commit c →
      Move s (.commit p) (s.commitStep p c)
  | loads (b : Nat) : Move s (.load b) { s with bufs := s.bufs.load b }
  | evicts (b : Nat) : Move s (.evict b) { s with bufs := s.bufs.evict b }
  | crashes : Move s .crash s.crash
  | recovers (r : RecoverPc) : s.recovery = some r → Move s .recover (s.recoverStep r)

variable {a : Act}

theorem outcome_of_next (h : s.next a = some s') : s.outcome a = some (.ok s') := by
  obtain ⟨r, hr, hs'⟩ := Option.bind_eq_some_iff.mp h
  cases r with
  | error e => contradiction
  | ok t =>
    cases hs'
    exact hr

theorem move_of_next (h : s.next a = some s') : s.Move a s' := by
  have ho := outcome_of_next h
  cases a with
  | load b => cases ho; exact .loads b
  | evict b => cases ho; exact .evicts b
  | crash => cases ho; exact .crashes
  | recover =>
    obtain ⟨r, hr, hs'⟩ := Option.map_eq_some_iff.mp ho
    cases hs'
    exact .recovers r hr
  | beginOp p =>
    obtain ⟨hrec, ho⟩ := Option.ite_none_right_eq_some.mp ho
    simp only [stepProc] at ho
    split at ho <;> cases ho
    next hpc =>
    unfold beginOp
    split
    · exact .waits p hpc
    next hc =>
    split
    · exact .waits p hpc
    · next hroom => exact .begins p hrec hpc (by simpa using hc) (not_lt.mp hroom)
  | logWrite p b data =>
    obtain ⟨hrec, ho⟩ := Option.ite_none_right_eq_some.mp ho
    simp only [stepProc] at ho
    split at ho
    · next id hpc =>
      rw [Option.some.injEq, logWrite] at ho
      split at ho
      · contradiction
      next hroom =>
      split at ho
      · contradiction
      · cases ho
        exact .checks p id b data hrec hpc (by omega) (by omega)
    · contradiction
  | logSection p =>
    obtain ⟨hrec, ho⟩ := Option.ite_none_right_eq_some.mp ho
    simp only [stepProc] at ho
    split at ho <;> cases ho
    next id b data hpc => exact .logs p id b data hrec hpc
  | endOp p =>
    obtain ⟨hrec, ho⟩ := Option.ite_none_right_eq_some.mp ho
    simp only [stepProc] at ho
    split at ho
    · next id hpc =>
      rw [Option.some.injEq, endOp] at ho
      split at ho
      · contradiction
      next hc =>
      split at ho
      · next hlast => cases ho; exact .closes p id hrec hpc (by simpa using hc) hlast
      · next hlast => cases ho; exact .leaves p id hpc hlast
    · contradiction
  | commit p =>
    obtain ⟨hrec, ho⟩ := Option.ite_none_right_eq_some.mp ho
    simp only [stepProc] at ho
    split at ho <;> cases ho
    next c hpc => exact .commits p c hrec hpc

theorem panic_of_outcome {e : LogPanic} (h : s.outcome a = some (.error e)) :
    s.recovery = none ∧ ((∃ p id b data, s.pc p = .op id ∧ s.logWrite p id b data = .error e) ∨
      ∃ p id, s.pc p = .op id ∧ s.endOp p = .error e) := by
  cases a with
  | load b => simp [outcome] at h
  | evict b => simp [outcome] at h
  | crash => simp [outcome] at h
  | recover => simp [outcome] at h
  | beginOp p =>
    simp only [outcome, stepProc, Option.ite_none_right_eq_some] at h
    split at h <;> simp at h
  | logSection p =>
    simp only [outcome, stepProc, Option.ite_none_right_eq_some] at h
    split at h <;> simp at h
  | commit p =>
    simp only [outcome, stepProc, Option.ite_none_right_eq_some] at h
    split at h <;> simp at h
  | logWrite p b data =>
    simp only [outcome, stepProc, Option.ite_none_right_eq_some] at h
    obtain ⟨hrec, h⟩ := h
    split at h
    · next id hpc => exact ⟨hrec, .inl ⟨p, id, b, data, hpc, Option.some.inj h⟩⟩
    · contradiction
  | endOp p =>
    simp only [outcome, stepProc, Option.ite_none_right_eq_some] at h
    obtain ⟨hrec, h⟩ := h
    split at h
    · next id hpc => exact ⟨hrec, .inr ⟨p, id, hpc, Option.some.inj h⟩⟩
    · contradiction

/-! ## Who is where -/

theorem opOf_op (hpc : s.pc p = .op id) : opOf (s.pc p) = some id := by
  rw [hpc]
  rfl

theorem opOf_logging (hpc : s.pc p = .logging id b data) : opOf (s.pc p) = some id := by
  rw [hpc]
  rfl

/-- The operations are counted, and only one process commits, while there are
none. -/
structure Isolated (s : Log) : Prop where
  ops : ∃ ops : Finset Nat, (∀ p, p ∈ ops ↔ (opOf (s.pc p)).isSome) ∧ s.outstanding = ops.card
  quiet : s.committing = false → ∀ p c, s.pc p ≠ .commit c
  alone : s.committing = true → s.outstanding = 0 ∧ ∃! p, ∃ c, s.pc p = .commit c

variable {c d : CommitPc} {pc : LogPc}

section

variable (h : s.Isolated)
include h

theorem Isolated.no_op (hc : s.committing = true) (p : Nat) : opOf (s.pc p) = none := by
  obtain ⟨ops, hops, hcard⟩ := h.ops
  have hempty : ops = ∅ := by
    rw [← Finset.card_eq_zero]
    have hzero := (h.alone hc).1
    omega
  have hp := hops p
  simpa [hempty] using hp

theorem Isolated.committing (hp : s.pc p = .commit c) : s.committing = true := by
  cases hc : s.committing with
  | false => exact absurd hp (h.quiet hc p c)
  | true => rfl

/-- Only the process that commits can be found in `commit()`. -/
theorem Isolated.eq_of_commit {q : Nat} (hp : s.pc p = .commit c)
    (hq : s.pc q = .commit d) : q = p := by
  obtain ⟨r, -, huniq⟩ := (h.alone (h.committing hp)).2
  exact (huniq q ⟨d, hq⟩).trans (huniq p ⟨c, hp⟩).symm

theorem Isolated.not_committing (hp : opOf (s.pc p) = some id) : s.committing = false := by
  cases hc : s.committing with
  | false => rfl
  | true =>
    rw [h.no_op hc p] at hp
    contradiction

theorem Isolated.outstanding_pos (hp : opOf (s.pc p) = some id) : 1 ≤ s.outstanding := by
  obtain ⟨ops, hops, hcard⟩ := h.ops
  have hmem : p ∈ ops := (hops p).mpr (by simp [hp])
  have hpos := Finset.card_pos.mpr ⟨p, hmem⟩
  omega

theorem Isolated.keep (hid : opOf (s.pc p) = some id)
    (hpc : opOf pc = some id) : (s.setPc p pc).Isolated := by
  have hc := h.not_committing hid
  obtain ⟨ops, hops, hcard⟩ := h.ops
  refine ⟨⟨ops, fun q => ?_, hcard⟩, fun _ q c hq => ?_, fun hc' => ?_⟩
  · by_cases hq : q = p
    · subst hq
      simp [setPc, hops, hid, hpc]
    · simp [setPc, update_of_ne hq, hops]
  · by_cases hqp : q = p
    · subst hqp
      simp only [setPc, update_self] at hq
      simp [hq, opOf] at hpc
    · simp only [setPc, update_of_ne hqp] at hq
      exact h.quiet hc q c hq
  · exact absurd (hc.symm.trans hc') (by simp)

theorem Isolated.congr (ho : s'.outstanding = s.outstanding)
    (hc : s'.committing = s.committing) (hpc : s'.pc = s.pc) : s'.Isolated := by
  refine ⟨?_, ?_, ?_⟩
  · rw [ho, hpc]; exact h.ops
  · rw [hc, hpc]; exact h.quiet
  · rw [hc, ho, hpc]; exact h.alone

theorem Isolated.begun (hpc : s.pc p = .idle) (hc : s.committing = false) :
    (s.begun p).Isolated := by
  obtain ⟨ops, hops, hcard⟩ := h.ops
  have hmem : p ∉ ops := fun hp => by simpa [hpc, opOf] using (hops p).mp hp
  refine ⟨⟨insert p ops, fun q => ?_, ?_⟩, fun _ q c hq => ?_, fun hc' => ?_⟩
  · by_cases hq : q = p
    · subst hq
      simp [Log.begun, opOf]
    · simp [Log.begun, hq, hops]
  · rw [Finset.card_insert_of_notMem hmem, Log.begun, hcard]
    push_cast
    rfl
  · by_cases hqp : q = p
    · subst hqp
      simp [Log.begun] at hq
    · simp only [Log.begun, update_of_ne hqp] at hq
      exact h.quiet hc q c hq
  · exact absurd (hc.symm.trans hc') (by simp)

/-- The operations that are left when `p` has ended its own. -/
theorem Isolated.erase (hpc : s.pc p = .op id) (hnone : opOf pc = none) :
    ∃ ops : Finset Nat, (∀ q, q ∈ ops ↔ (opOf (update s.pc p pc q)).isSome) ∧
      s.outstanding - 1 = ops.card := by
  obtain ⟨ops, hops, hcard⟩ := h.ops
  have hmem : p ∈ ops := (hops p).mpr (by simp [hpc, opOf])
  refine ⟨ops.erase p, fun q => ?_, ?_⟩
  · by_cases hq : q = p
    · subst hq
      simp [hnone]
    · simp [hq, hops]
  · have hpos := Finset.card_pos.mpr ⟨p, hmem⟩
    rw [Finset.card_erase_of_mem hmem, hcard]
    omega

theorem Isolated.left (hpc : s.pc p = .op id) : (s.left p).Isolated := by
  have hc : s.committing = false := h.not_committing (opOf_op hpc)
  refine ⟨h.erase hpc rfl, fun _ q c hq => ?_, fun hc' => ?_⟩
  · by_cases hqp : q = p
    · subst hqp
      simp [Log.left] at hq
    · simp only [Log.left, update_of_ne hqp] at hq
      exact h.quiet hc q c hq
  · exact absurd (hc.symm.trans hc') (by simp)

theorem Isolated.closed (hpc : s.pc p = .op id) (hc : s.committing = false)
    (hlast : s.outstanding - 1 = 0) : (s.closed p).Isolated := by
  refine ⟨h.erase hpc rfl, fun hc' => absurd hc' (by simp [Log.closed]),
    fun _ => ⟨hlast, p, ?_, ?_⟩⟩
  · simp [Log.closed]
  · rintro q ⟨c, hq⟩
    by_contra hqp
    simp only [Log.closed, update_of_ne hqp] at hq
    exact h.quiet hc q c hq

/-- The process that commits moves on in `commit()`. -/
theorem Isolated.setCommit (hpc : s.pc p = .commit c) : (s.setPc p (.commit d)).Isolated := by
  have hc := h.committing hpc
  obtain ⟨ops, hops, hcard⟩ := h.ops
  refine ⟨⟨ops, fun q => ?_, hcard⟩, fun hc' => ?_, fun _ => ⟨(h.alone hc).1, p, ?_, ?_⟩⟩
  · by_cases hq : q = p
    · subst hq
      simp [setPc, hops, hpc, opOf]
    · simp [setPc, update_of_ne hq, hops]
  · exact absurd (hc.symm.trans hc') (by simp)
  · simp [setPc]
  · rintro q ⟨e, hq⟩
    by_contra hqp
    simp only [setPc, update_of_ne hqp] at hq
    exact hqp (h.eq_of_commit hpc hq)

theorem Isolated.commitStep (hpc : s.pc p = .commit c) : (s.commitStep p c).Isolated := by
  cases c with
  | writeLog tail => exact (h.setCommit hpc).congr rfl rfl rfl
  | writeHead => exact (h.setCommit hpc).congr rfl rfl rfl
  | installTrans tail => exact (h.setCommit hpc).congr rfl rfl rfl
  | eraseHead => exact (h.setCommit hpc).congr rfl rfl rfl
  | finish =>
    have hc := h.committing hpc
    obtain ⟨ops, hops, hcard⟩ := h.ops
    refine ⟨⟨ops, fun q => ?_, hcard⟩, fun _ q c hq => ?_, fun hc' => ?_⟩
    · by_cases hq : q = p
      · subst hq
        simp [Log.commitStep, setPc, hops, hpc, opOf]
      · simp [Log.commitStep, setPc, update_of_ne hq, hops]
    · by_cases hqp : q = p
      · subst hqp
        simp [Log.commitStep, setPc] at hq
      · simp only [Log.commitStep, setPc, update_of_ne hqp] at hq
        exact hqp (h.eq_of_commit hpc hq)
    · simp [Log.commitStep] at hc'

end

theorem Isolated.idle (ho : s.outstanding = 0) (hc : s.committing = false)
    (hpc : ∀ p, s.pc p = .idle) : s.Isolated :=
  ⟨⟨∅, fun p => by simp [hpc, opOf], by simp [ho]⟩, fun _ p c hp => by simp [hpc] at hp,
    fun hc' => absurd (hc.symm.trans hc') (by simp)⟩

/-- **Step**: the operations stay counted, and commits alone. -/
theorem Isolated.next (h : s.Isolated) (hm : s.Move a s') : s'.Isolated := by
  cases hm with
  | waits => exact h
  | begins p _ hpc hc => exact h.begun hpc hc
  | checks p id b data _ hpc => exact h.keep (opOf_op hpc) rfl
  | logs p id b data _ hpc =>
    have hkeep : (s.setPc p (.op id)).Isolated := h.keep (opOf_logging hpc) rfl
    exact hkeep.congr rfl rfl rfl
  | leaves p id hpc => exact h.left hpc
  | closes p id _ hpc hc hlast => exact h.closed hpc hc hlast
  | commits p c _ hpc => exact h.commitStep hpc
  | loads b => exact h.congr rfl rfl rfl
  | evicts b => exact h.congr rfl rfl rfl
  | crashes => exact .idle rfl rfl fun _ => rfl
  | recovers r => cases r <;> exact h.congr rfl rfl rfl

variable {guard : Log → Act → Prop}

theorem isolated_of_reachable (h : s.ReachableBy guard) : s.Isolated :=
  h.inv Isolated (fun _ hs => .idle hs.outstanding hs.committing hs.pc)
    fun _ _ _ hi _ hn => hi.next (move_of_next hn)

/-! ## What a commit holds -/

/-- Nothing of an operation is missing in the transaction it writes to, nor in
a commit. -/
structure Whole (s : Log) : Prop where
  young : ∀ p id, opOf (s.pc p) = some id → id < s.history.nextOp
  old : ∀ x ∈ s.history.written, x.1 < s.history.nextOp
  current : ∀ p id, opOf (s.pc p) = some id → ∀ b, (id, b) ∈ s.history.written →
    (id, b) ∈ s.history.txn
  txn_written : ∀ x ∈ s.history.txn, x ∈ s.history.written
  txn_whole : ∀ o b b', (o, b) ∈ s.history.txn → (o, b') ∈ s.history.written →
    (o, b') ∈ s.history.txn
  txn_blocks : s.recovery = none → ∀ b, b ∈ s.lh ↔ ∃ o, (o, b) ∈ s.history.txn
  commit_written : ∀ c ∈ s.history.commits, ∀ x ∈ c.2, x ∈ s.history.written
  commit_whole : ∀ c ∈ s.history.commits, ∀ o b b', (o, b) ∈ c.2 → (o, b') ∈ s.history.written →
    (o, b') ∈ c.2
  commit_blocks : ∀ c ∈ s.history.commits, ∀ b, b ∈ c.1 ↔ ∃ o, (o, b) ∈ c.2
  ended : ∀ c ∈ s.history.commits, ∀ x ∈ c.2, ∀ p, opOf (s.pc p) ≠ some x.1

@[simp] theorem mem_record {lh : List Nat} {b c : Nat} : c ∈ record lh b ↔ c = b ∨ c ∈ lh := by
  unfold record
  split
  · next hb =>
    constructor
    · exact Or.inr
    · rintro (rfl | hc)
      · exact hb
      · exact hc
  · simp [or_comm]

/-- The processes are in no other operations than before, and nothing is
written. -/
theorem Whole.fewer (h : s.Whole) (hpc : ∀ p id, opOf (s'.pc p) = some id → opOf (s.pc p) = some id)
    (hlh : s'.lh = s.lh) (hrec : s'.recovery = s.recovery)
    (hnext : s'.history.nextOp = s.history.nextOp)
    (hw : s'.history.written = s.history.written) (ht : s'.history.txn = s.history.txn)
    (hc : s'.history.commits = s.history.commits) : s'.Whole := by
  refine ⟨fun p id hp => ?_, ?_, fun p id hp b hb => ?_, ?_, ?_, ?_, ?_, ?_, ?_, ?_⟩
  · rw [hnext]; exact h.young p id (hpc p id hp)
  · rw [hw, hnext]; exact h.old
  · rw [hw] at hb
    rw [ht]
    exact h.current p id (hpc p id hp) b hb
  · rw [ht, hw]; exact h.txn_written
  · rw [ht, hw]; exact h.txn_whole
  · rw [hrec, hlh, ht]; exact h.txn_blocks
  · rw [hc, hw]; exact h.commit_written
  · rw [hc, hw]; exact h.commit_whole
  · rw [hc]; exact h.commit_blocks
  · rw [hc]
    exact fun c hc x hx p hp => h.ended c hc x hx p (hpc p x.1 hp)

/-- Moving process `p` to a place within its operation, or out of it. -/
theorem opOf_update (pc : LogPc) (hpc : ∀ id, opOf pc = some id → opOf (s.pc p) = some id)
    (q id : Nat) (hq : opOf (update s.pc p pc q) = some id) : opOf (s.pc q) = some id := by
  by_cases hqp : q = p
  · subst hqp
    rw [update_self] at hq
    exact hpc id hq
  · rwa [update_of_ne hqp] at hq

theorem Whole.begun (h : s.Whole) : (s.begun p).Whole := by
  have hlt : ∀ {x : Nat}, x < s.history.nextOp → x < s.history.nextOp + 1 := fun hx => by omega
  -- the new operation has not written anything
  have hfresh : ∀ b, (s.history.nextOp, b) ∉ s.history.written := fun b hb =>
    lt_irrefl _ (h.old _ hb)
  have hcases : ∀ q id, opOf ((s.begun p).pc q) = some id →
      id = s.history.nextOp ∨ opOf (s.pc q) = some id := by
    intro q id hq
    by_cases hqp : q = p
    · subst hqp
      simp only [Log.begun, update_self, opOf, Option.some.injEq] at hq
      exact .inl hq.symm
    · simp only [Log.begun, update_of_ne hqp] at hq
      exact .inr hq
  refine ⟨fun q id hq => ?_, fun x hx => hlt (h.old x hx), fun q id hq b hb => ?_, h.txn_written,
    h.txn_whole, h.txn_blocks, h.commit_written, h.commit_whole, h.commit_blocks,
    fun c hc x hx q hq => ?_⟩
  · rcases hcases q id hq with rfl | hq
    · exact Nat.lt_succ_self _
    · exact hlt (h.young q id hq)
  · rcases hcases q id hq with rfl | hq
    · exact absurd hb (hfresh b)
    · exact h.current q id hq b hb
  · rcases hcases q x.1 hq with hx' | hq
    · exact hfresh x.2 (hx' ▸ h.commit_written c hc x hx)
    · exact h.ended c hc x hx q hq

theorem Whole.logSection (h : s.Whole) (hrec : s.recovery = none)
    (hpc : s.pc p = .logging id b data) : (s.logSection p id b data).Whole := by
  have hid := opOf_logging hpc
  have hops : ∀ q i, opOf ((s.logSection p id b data).pc q) = some i → opOf (s.pc q) = some i :=
    opOf_update (.op id) fun i hi => by rw [hid]; exact hi
  refine ⟨fun q i hq => h.young q i (hops q i hq), ?_, fun q i hq c hc => ?_, ?_, ?_, fun _ c => ?_,
    ?_, ?_, h.commit_blocks, fun c hc x hx q hq => h.ended c hc x hx q (hops q x.1 hq)⟩
  · simp only [Log.logSection, List.mem_cons, forall_eq_or_imp]
    exact ⟨h.young p id hid, h.old⟩
  · simp only [Log.logSection, List.mem_cons] at hc ⊢
    exact hc.imp_right (h.current q i (hops q i hq) c)
  · simp only [Log.logSection, List.mem_cons]
    exact fun x hx => hx.imp_right (h.txn_written x)
  · simp only [Log.logSection, List.mem_cons, Prod.mk.injEq]
    intro o c c' hc hc'
    refine hc'.imp_right fun hold => ?_
    rcases hc with ⟨rfl, -⟩ | hc
    · exact h.current p o hid c' hold
    · exact h.txn_whole o c c' hc hold
  · simp only [Log.logSection, List.mem_cons, Prod.mk.injEq, mem_record, h.txn_blocks hrec c]
    constructor
    · rintro (rfl | ⟨o, ho⟩)
      · exact ⟨id, .inl ⟨rfl, rfl⟩⟩
      · exact ⟨o, .inr ho⟩
    · rintro ⟨o, ⟨-, rfl⟩ | ho⟩
      · exact .inl rfl
      · exact .inr ⟨o, ho⟩
  · exact fun c hc x hx => List.mem_cons_of_mem _ (h.commit_written c hc x hx)
  · simp only [Log.logSection, List.mem_cons, Prod.mk.injEq]
    rintro c hc o e e' he (⟨rfl, rfl⟩ | he')
    · exact absurd hid (h.ended c hc _ he p)
    · exact h.commit_whole c hc o e e' he he'

/-- The commit point: the transaction becomes a commit. -/
theorem Whole.writeHead (h : s.Whole) (hi : s.Isolated) (hrec : s.recovery = none)
    (hpc : s.pc p = .commit .writeHead) : (s.commitStep p .writeHead).Whole := by
  have hnone : ∀ q, opOf (s.pc q) = none := hi.no_op (hi.committing hpc)
  have hops : ∀ q id, opOf ((s.commitStep p .writeHead).pc q) ≠ some id := by
    intro q id hq
    have hq' := opOf_update (.commit (.installTrans 0)) (by simp [opOf]) q id hq
    simp [hnone q] at hq'
  refine ⟨fun q id hq => absurd hq (hops q id), h.old, fun q id hq => absurd hq (hops q id),
    h.txn_written, h.txn_whole, h.txn_blocks, ?_, ?_, ?_, fun c _ x _ q => hops q x.1⟩
  · simp only [Log.commitStep, List.mem_cons, forall_eq_or_imp]
    exact ⟨h.txn_written, h.commit_written⟩
  · simp only [Log.commitStep, List.mem_cons, forall_eq_or_imp]
    exact ⟨h.txn_whole, h.commit_whole⟩
  · simp only [Log.commitStep, List.mem_cons, forall_eq_or_imp]
    exact ⟨h.txn_blocks hrec, h.commit_blocks⟩

/-- The log is empty, and nobody is in an operation. -/
theorem Whole.emptied (h : s.Whole) (hops : ∀ q id, opOf (s'.pc q) ≠ some id)
    (hlh : s'.recovery = none → s'.lh = []) (hnext : s'.history.nextOp = s.history.nextOp)
    (hw : s'.history.written = s.history.written) (ht : s'.history.txn = [])
    (hc : s'.history.commits = s.history.commits) : s'.Whole := by
  refine ⟨fun q id hq => absurd hq (hops q id), ?_, fun q id hq => absurd hq (hops q id), ?_, ?_,
    fun hrec b => ?_, ?_, ?_, ?_, fun c _ x _ q => hops q x.1⟩
  · rw [hw, hnext]; exact h.old
  · simp [ht]
  · simp [ht]
  · simp [ht, hlh hrec]
  · rw [hc, hw]; exact h.commit_written
  · rw [hc, hw]; exact h.commit_whole
  · rw [hc]; exact h.commit_blocks

theorem Whole.commitStep (h : s.Whole) (hi : s.Isolated) (hrec : s.recovery = none)
    (hpc : s.pc p = .commit c) : (s.commitStep p c).Whole := by
  cases c with
  | writeLog tail => exact h.fewer (opOf_update _ (by simp [opOf])) rfl rfl rfl rfl rfl rfl
  | writeHead => exact h.writeHead hi hrec hpc
  | installTrans tail => exact h.fewer (opOf_update _ (by simp [opOf])) rfl rfl rfl rfl rfl rfl
  | eraseHead =>
    refine h.emptied (fun q id hq => ?_) (fun _ => rfl) rfl rfl rfl rfl
    have hq' := opOf_update (.commit .finish) (by simp [opOf]) q id hq
    simp [hi.no_op (hi.committing hpc) q] at hq'
  | finish => exact h.fewer (opOf_update _ (by simp [opOf])) rfl rfl rfl rfl rfl rfl

/-- Nothing runs during the recovery, and no transaction is open. -/
structure Down (s : Log) : Prop where
  idle : s.recovery ≠ none → ∀ p, s.pc p = .idle
  txn : s.recovery ≠ none → s.history.txn = []

theorem Whole.recoverStep (h : s.Whole) (hd : s.Down) {r : RecoverPc} (hr : s.recovery = some r) :
    (s.recoverStep r).Whole := by
  have hrec : s.recovery ≠ none := by simp [hr]
  have hops : ∀ q id, opOf (s.pc q) ≠ some id := by simp [hd.idle hrec, opOf]
  cases r with
  | readHead => exact h.emptied hops (by simp [Log.recoverStep]) rfl rfl (hd.txn hrec) rfl
  | installTrans tail => exact h.emptied hops (by simp [Log.recoverStep]) rfl rfl (hd.txn hrec) rfl
  | eraseHead => exact h.emptied hops (fun _ => rfl) rfl rfl (hd.txn hrec) rfl

theorem Down.up (hrec : s.recovery = none) : s.Down :=
  ⟨fun h => absurd hrec h, fun h => absurd hrec h⟩

theorem Down.next (h : s.Down) (hm : s.Move a s') : s'.Down := by
  cases hm with
  | waits => exact h
  | begins p hrec => exact .up hrec
  | checks p id b data hrec => exact .up hrec
  | logs p id b data hrec => exact .up hrec
  | leaves p id hpc =>
    refine .up (not_not.mp fun hrec => ?_)
    simp [h.idle hrec] at hpc
  | closes p id hrec => exact .up hrec
  | commits p c hrec => cases c <;> exact .up hrec
  | loads b => exact ⟨h.idle, h.txn⟩
  | evicts b => exact ⟨h.idle, h.txn⟩
  | crashes => exact ⟨fun _ _ => rfl, fun _ => rfl⟩
  | recovers r hr =>
    have hrec : s.recovery ≠ none := by simp [hr]
    cases r <;> exact ⟨fun _ => h.idle hrec, fun _ => h.txn hrec⟩

/-- **Step**: no operation is torn apart. -/
theorem Whole.next (h : s.Whole) (hi : s.Isolated) (hd : s.Down) (hm : s.Move a s') : s'.Whole := by
  cases hm with
  | waits => exact h
  | begins p => exact h.begun
  | checks p id b data hrec hpc =>
    refine h.fewer (opOf_update _ fun i hi => ?_) rfl rfl rfl rfl rfl rfl
    rw [hpc]
    exact hi
  | logs p id b data hrec hpc => exact h.logSection hrec hpc
  | leaves p id => exact h.fewer (opOf_update _ (by simp [opOf])) rfl rfl rfl rfl rfl rfl
  | closes p id => exact h.fewer (opOf_update _ (by simp [opOf])) rfl rfl rfl rfl rfl rfl
  | commits p c hrec hpc => exact h.commitStep hi hrec hpc
  | loads b => exact h.fewer (fun _ _ => id) rfl rfl rfl rfl rfl rfl
  | evicts b => exact h.fewer (fun _ _ => id) rfl rfl rfl rfl rfl rfl
  | crashes => exact h.emptied (by simp [Log.crash, opOf]) (by simp [Log.crash]) rfl rfl rfl rfl
  | recovers r hr => exact h.recoverStep hd hr

theorem started_whole (h : s.Started) : s.Whole := by
  have hops : ∀ p id, opOf (s.pc p) ≠ some id := by simp [h.pc, opOf]
  refine ⟨fun p id hp => absurd hp (hops p id), ?_,
    fun p id hp => absurd hp (hops p id), ?_, ?_, ?_,
    ?_, ?_, ?_, fun c _ x _ p => hops p x.1⟩
  · simp [h.written]
  · simp [h.txn]
  · simp [h.txn]
  · simp [h.lh, h.txn]
  · simp [h.commits]
  · simp [h.commits]
  · simp [h.commits]

theorem whole_of_reachable (h : s.ReachableBy guard) : s.Whole := by
  have hall : s.Isolated ∧ s.Down ∧ s.Whole := by
    refine h.inv (fun s => s.Isolated ∧ s.Down ∧ s.Whole) (fun s hs => ?_) fun s a s' hs _ hn => ?_
    · exact ⟨.idle hs.outstanding hs.committing hs.pc, .up hs.recovery, started_whole hs⟩
    · have hm := move_of_next hn
      exact ⟨hs.1.next hm, hs.2.1.next hm, hs.2.2.next hs.1 hs.2.1 hm⟩
  exact hall.2.2

/-! ## Isolation -/

/-- In a state with the operations counted, the only panic left is that of a
full log. -/
theorem Isolated.outcome_ne (h : s.Isolated) (a : Act) {e : LogPanic} (he : e ≠ .tooBig) :
    s.outcome a ≠ some (.error e) := by
  intro ho
  rcases (panic_of_outcome ho).2 with ⟨p, id, b, data, hpc, hlog⟩ | ⟨p, id, hpc, hend⟩
  · have hpos := h.outstanding_pos (opOf_op hpc)
    rw [logWrite, if_neg (not_lt.mpr hpos)] at hlog
    split at hlog
    · cases hlog
      exact he rfl
    · contradiction
  · have hc := h.not_committing (opOf_op hpc)
    simp only [endOp, hc, Bool.false_eq_true, if_false] at hend
    split at hend <;> contradiction

/-- **Commit isolation**: `outstanding` counts the operations; while a commit
runs there are none, one process is in it and `log_write` does not change the
header; the two panics are out of reach; and a commit that holds a write of an
operation holds all of them. -/
theorem commit_isolation (h : s.Reachable) :
    (∃ ops : Finset Nat, (∀ p, p ∈ ops ↔ (opOf (s.pc p)).isSome) ∧ s.outstanding = ops.card) ∧
    (s.committing = true → s.outstanding = 0 ∧ ∃! p, ∃ c, s.pc p = .commit c) ∧
    (s.committing = true → ∀ p s', s.next (.logSection p) = some s' → s'.lh = s.lh) ∧
    (∀ a, s.outcome a ≠ some (.error .committing) ∧ s.outcome a ≠ some (.error .outsideOfTrans)) ∧
    ∀ c ∈ s.history.commits, ∀ o b b', (o, b) ∈ c.2 → (o, b') ∈ s.history.written →
      (o, b') ∈ c.2 ∧ b' ∈ c.1 := by
  have hi := isolated_of_reachable h
  have hw := whole_of_reachable h
  refine ⟨hi.ops, hi.alone, fun hc p s' hn => ?_, fun a => ⟨?_, ?_⟩, fun c hc o b b' hb hb' => ?_⟩
  · cases move_of_next hn with
    | logs p id b data _ hpc =>
      have hnone := hi.no_op hc p
      simp [hpc, opOf] at hnone
  · exact hi.outcome_ne a (by simp)
  · exact hi.outcome_ne a (by simp)
  · have hmem := hw.commit_whole c hc o b b' hb hb'
    exact ⟨hmem, (hw.commit_blocks c hc b').mpr ⟨o, hmem⟩⟩

/-! ## A concrete run -/

/-- The log of a new image, with `size` blocks from block 2 on. -/
def fresh (size : Nat) : Log where
  start := 2
  size := size
  outstanding := 0
  committing := false
  lh := []
  bufs := { disk := fun _ _ => 0, cache := fun _ => none, dirty := fun _ => false }
  pc := fun _ => .idle
  recovery := none
  history :=
    { nextOp := 0, written := [], txn := [], commits := [], pre := fun _ _ => 0,
      target := fun _ _ => 0, committed := false }

theorem started_fresh (size : Nat) : (fresh size).Started where
  outstanding := rfl
  committing := rfl
  lh := rfl
  head := by rfl
  cache _ := rfl
  dirty _ := rfl
  pc _ := rfl
  recovery := rfl
  written := rfl
  txn := rfl
  commits := rfl
  pre := rfl
  committed := rfl

/-- Two operations at once, with two writes of the first around one of the
second, and the steps of the commit up to its `write_head`. -/
def twoOps : List Act :=
  [.beginOp 0, .beginOp 1, .logWrite 0 40 (fun _ => 1), .logSection 0, .logWrite 1 50 (fun _ => 2),
    .logSection 1, .endOp 1, .logWrite 0 41 (fun _ => 3), .logSection 0, .endOp 0, .commit 0,
    .commit 0, .commit 0, .commit 0]

/-- The commit of the two operations holds their three blocks. -/
theorem commit_isolation_twoOps : ∃ s : Log, s.Reachable ∧ s.committing = true ∧ s.outstanding = 0 ∧
    ∃ c ∈ s.history.commits, c.1 = [40, 50, 41] ∧
      ∀ b, (0, b) ∈ s.history.written → (0, b) ∈ c.2 ∧ b ∈ c.1 := by
  have hstart : (fresh 30).Reachable := .start (started_fresh 30)
  obtain ⟨s, hs, hc, c, hmem, hlh, hop⟩ := hstart.exists_of_run
    (P := fun s => s.committing = true ∧ ∃ c ∈ s.history.commits, c.1 = [40, 50, 41] ∧ (0, 40) ∈ c.2)
    twoOps (by decide +kernel)
  have h := commit_isolation hs
  exact ⟨s, hs, hc, (h.2.1 hc).1, c, hmem, hlh, fun b hb => h.2.2.2.2 c hmem 0 40 b hop hb⟩

end Log
end Xv6
