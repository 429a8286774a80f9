import Xv6.Log.Isolation

/-!
# Xv6.Log.Admission

The room in the log.  `begin_op` reserves `MAXOPBLOCKS` of `LOGSIZE` blocks for
every operation, but `log_write` gives up one block before that: it needs
`log.lh.n < log.size - 1`, and `mkfs` makes `log.size` equal to `LOGSIZE`.  Three
operations that use what they may are admitted together and do not fit.
-/

namespace Xv6
namespace Log

open Lib Function Finset

variable {s s' : Log} {p id b : Nat} {data : Bytes}

/-! ## Reservations -/

/-- The blocks that operation `id` has logged. -/
def blocksOf (s : Log) (id : Nat) : Finset Nat :=
  ((s.history.written.filter fun x => x.1 = id).map Prod.snd).toFinset

/-- The blocks that the operation of process `p` has logged. -/
def blocks (s : Log) (p : Nat) : Finset Nat := ((opOf (s.pc p)).map s.blocksOf).getD ∅

/-- What the operation of process `p` may still log. -/
def reserve (s : Log) (p : Nat) : Nat := MAXOPBLOCKS - (s.blocks p).card

/-- An operation logs at most `MAXOPBLOCKS` distinct blocks. -/
def Keeps (s : Log) : Act → Prop
  | .logWrite p b _ => (insert b (s.blocks p)).card ≤ MAXOPBLOCKS
  | _ => True

/-- `begin_op` waits, or the reservations leave the last block of the log, and
one more, alone. -/
def Spaced (s : Log) : Act → Prop
  | .beginOp _ =>
    s.committing = true ∨ (s.lh.length : Int) + (s.outstanding + 1) * MAXOPBLOCKS > LOGSIZE ∨
      (s.lh.length : Int) + (s.outstanding + 1) * MAXOPBLOCKS < s.size - 1
  | _ => True

instance (s : Log) : DecidablePred s.Keeps
  | .logWrite _ _ _ => inferInstanceAs (Decidable (_ ≤ _))
  | .beginOp _ | .logSection _ | .endOp _ | .commit _ | .load _ | .evict _ | .crash | .recover =>
    inferInstanceAs (Decidable True)

instance (s : Log) : DecidablePred s.Spaced
  | .beginOp _ => inferInstanceAs (Decidable (_ ∨ _))
  | .logWrite _ _ _ | .logSection _ | .endOp _ | .commit _ | .load _ | .evict _ | .crash | .recover =>
    inferInstanceAs (Decidable True)

theorem mem_blocksOf : b ∈ s.blocksOf id ↔ (id, b) ∈ s.history.written := by
  simp [blocksOf]

theorem blocks_of_op (h : opOf (s.pc p) = some id) : s.blocks p = s.blocksOf id := by
  simp [blocks, h]

theorem blocksOf_logSection (i : Nat) : (s.logSection p id b data).blocksOf i =
    if i = id then insert b (s.blocksOf id) else s.blocksOf i := by
  ext c
  split
  · next hi =>
    subst hi
    simp [mem_blocksOf, logSection]
  · next hi => simp [mem_blocksOf, logSection, hi]

/-! ## The reservations stay within the log -/

/-- The log and what the operations may still add to it fit, with room for one
block more, and every operation keeps to its reservation. -/
structure Ample (s : Log) : Prop where
  fits : ∃ ops : Finset Nat, (∀ p, p ∈ ops ↔ (opOf (s.pc p)).isSome) ∧
    s.outstanding = ops.card ∧
    (s.recovery = none → s.lh.length + ∑ p ∈ ops, s.reserve p + 2 ≤ LOGSIZE)
  keeps : ∀ p id b data, s.pc p = .logging id b data →
    (insert b (s.blocksOf id)).card ≤ MAXOPBLOCKS
  apart : ∀ p q id, opOf (s.pc p) = some id → opOf (s.pc q) = some id → p = q

/-- The writes are the same, and so are the operations of the processes. -/
theorem reserve_congr (hw : s'.history.written = s.history.written)
    (hp : opOf (s'.pc p) = opOf (s.pc p)) : s'.reserve p = s.reserve p := by
  have hblocks : s'.blocksOf = s.blocksOf := by
    funext id
    simp [blocksOf, hw]
  simp [reserve, blocks, hp, hblocks]

theorem reserve_le : s.reserve p ≤ MAXOPBLOCKS := Nat.sub_le ..

/-- A step that logs nothing, keeps the operations and does not add to the
header. -/
theorem Ample.keep (h : s.Ample) (ho : s'.outstanding = s.outstanding)
    (hw : s'.history.written = s.history.written) (hlh : s'.lh.length ≤ s.lh.length)
    (hrec : s.recovery = none) (hops : ∀ q, opOf (s'.pc q) = opOf (s.pc q))
    (hk : ∀ q id b data, s'.pc q = .logging id b data →
      s.pc q = .logging id b data ∨ (insert b (s.blocksOf id)).card ≤ MAXOPBLOCKS) : s'.Ample := by
  obtain ⟨ops, hmem, hcard, hfits⟩ := h.fits
  have hsum : ∑ q ∈ ops, s'.reserve q = ∑ q ∈ ops, s.reserve q :=
    sum_congr rfl fun q _ => reserve_congr hw (hops q)
  have hblocks : s'.blocksOf = s.blocksOf := by
    funext id
    simp [blocksOf, hw]
  refine ⟨⟨ops, fun q => by rw [hops, hmem], by rw [ho, hcard], fun _ => ?_⟩, ?_, ?_⟩
  · have hroom := hfits hrec
    omega
  · intro q id b data hq
    rw [hblocks]
    exact (hk q id b data hq).elim (h.keeps q id b data) fun hle => hle
  · intro q r id hq hr
    rw [hops] at hq hr
    exact h.apart q r id hq hr

theorem Ample.begun (h : s.Ample) (hw : s.Whole) (hpc : s.pc p = .idle)
    (hroom : (s.lh.length : Int) + (s.outstanding + 1) * MAXOPBLOCKS < LOGSIZE - 1) :
    (s.begun p).Ample := by
  obtain ⟨ops, hmem, hcard, -⟩ := h.fits
  have hnot : p ∉ ops := fun hp => by simpa [hpc, opOf] using (hmem p).mp hp
  have hother : ∀ q ∈ ops, (s.begun p).reserve q = s.reserve q := fun q hq => by
    have hqp : q ≠ p := fun heq => hnot (heq ▸ hq)
    exact reserve_congr rfl (by simp [Log.begun, update_of_ne hqp])
  refine ⟨⟨insert p ops, fun q => ?_, ?_, fun _ => ?_⟩, ?_, ?_⟩
  · by_cases hq : q = p
    · subst hq
      simp [Log.begun, opOf]
    · simp [Log.begun, hq, hmem]
  · rw [card_insert_of_notMem hnot, Log.begun, hcard]
    push_cast
    rfl
  · have hrest : ∑ q ∈ ops, (s.begun p).reserve q = ∑ q ∈ ops, s.reserve q :=
      sum_congr rfl hother
    rw [sum_insert hnot, hrest]
    have hsum : ∑ q ∈ ops, s.reserve q ≤ ops.card * MAXOPBLOCKS :=
      sum_le_card_nsmul ops _ _ fun q _ => reserve_le
    have hnew : (s.begun p).reserve p ≤ MAXOPBLOCKS := reserve_le
    have hlen : (s.begun p).lh.length = s.lh.length := rfl
    simp only [MAXOPBLOCKS, LOGSIZE] at *
    omega
  · intro q id b data hq
    by_cases hqp : q = p
    · subst hqp
      simp [Log.begun] at hq
    · simp only [Log.begun, update_of_ne hqp] at hq
      exact h.keeps q id b data hq
  · intro q r id hq hr
    -- the number of the new operation is new
    have hyoung : ∀ q, q ≠ p → opOf ((s.begun p).pc q) = some id → id ≠ s.history.nextOp := by
      intro q hqp hq heq
      simp only [Log.begun, update_of_ne hqp] at hq
      exact lt_irrefl _ (heq ▸ hw.young q id hq)
    have hself : opOf ((s.begun p).pc p) = some s.history.nextOp := by simp [Log.begun, opOf]
    by_cases hqp : q = p <;> by_cases hrp : r = p
    · rw [hqp, hrp]
    · subst hqp
      exact absurd (Option.some.inj (hq.symm.trans hself)) (hyoung r hrp hr)
    · subst hrp
      exact absurd (Option.some.inj (hr.symm.trans hself)) (hyoung q hqp hq)
    · simp only [Log.begun, update_of_ne hqp] at hq
      simp only [Log.begun, update_of_ne hrp] at hr
      exact h.apart q r id hq hr

/-- A block that is new in the log is new to its operation. -/
theorem length_record_add_card (hw : s.Whole) (hrec : s.recovery = none)
    (hpc : opOf (s.pc p) = some id) :
    (record s.lh b).length + (s.blocksOf id).card ≤
      s.lh.length + (insert b (s.blocksOf id)).card := by
  unfold record
  split
  · have hle := card_le_card (subset_insert b (s.blocksOf id))
    omega
  next hb =>
  have hnew : b ∉ s.blocksOf id := fun hmem =>
    hb ((hw.txn_blocks hrec b).mpr ⟨id, hw.current p id hpc b (mem_blocksOf.mp hmem)⟩)
  rw [card_insert_of_notMem hnew, List.length_append, List.length_singleton]
  omega

theorem Ample.logSection (h : s.Ample) (hw : s.Whole) (hrec : s.recovery = none)
    (hpc : s.pc p = .logging id b data) : (s.logSection p id b data).Ample := by
  have hid := opOf_logging hpc
  have hops : ∀ q, opOf ((s.logSection p id b data).pc q) = opOf (s.pc q) := by
    intro q
    by_cases hq : q = p
    · subst hq
      simp [Log.logSection, opOf, hpc]
    · simp [Log.logSection, update_of_ne hq]
  -- the other operations have other numbers
  have hother : ∀ q, q ≠ p → (s.logSection p id b data).blocks q = s.blocks q := by
    intro q hq
    rw [blocks, blocks, hops]
    cases hi : opOf (s.pc q) with
    | none => rfl
    | some i =>
      have hne : i ≠ id := fun heq => hq (h.apart q p id (heq ▸ hi) hid)
      simp [blocksOf_logSection, hne]
  obtain ⟨ops, hmem, hcard, hfits⟩ := h.fits
  have hp : p ∈ ops := (hmem p).mpr (by simp [hid])
  refine ⟨⟨ops, fun q => by rw [hops, hmem], hcard, fun _ => ?_⟩, ?_, ?_⟩
  · have hroom := hfits hrec
    have hrest : ∑ q ∈ ops.erase p, (s.logSection p id b data).reserve q =
        ∑ q ∈ ops.erase p, s.reserve q :=
      sum_congr rfl fun q hq => by rw [reserve, hother q (ne_of_mem_erase hq), reserve]
    have hown : (s.logSection p id b data).blocks p = insert b (s.blocksOf id) := by
      rw [blocks_of_op ((hops p).trans hid), blocksOf_logSection, if_pos rfl]
    have hkeep := h.keeps p id b data hpc
    have hlen := length_record_add_card (b := b) hw hrec hid
    have hlh : (s.logSection p id b data).lh = record s.lh b := rfl
    rw [← add_sum_erase ops _ hp, reserve, hown, hrest, hlh]
    rw [← add_sum_erase ops _ hp, reserve, blocks_of_op hid] at hroom
    omega
  · intro q i c data' hq
    by_cases hqp : q = p
    · subst hqp
      simp [Log.logSection] at hq
    simp only [Log.logSection, update_of_ne hqp] at hq
    have hne : i ≠ id := fun heq => hqp (h.apart q p id (by rw [hq, heq]; rfl) hid)
    rw [blocksOf_logSection, if_neg hne]
    exact h.keeps q i c data' hq
  · intro q r i hq hr
    rw [hops] at hq hr
    exact h.apart q r i hq hr

/-- Process `p` has left its operation, and nothing else has changed. -/
theorem Ample.leave (h : s.Ample) (hrec : s.recovery = none) {pc : LogPc}
    (hpc : s.pc p = .op id) (hnone : opOf pc = none) (hs' : s'.pc = update s.pc p pc)
    (ho : s'.outstanding = s.outstanding - 1) (hlh : s'.lh = s.lh)
    (hw : s'.history.written = s.history.written) : s'.Ample := by
  obtain ⟨ops, hmem, hcard, hfits⟩ := h.fits
  have hp : p ∈ ops := (hmem p).mpr (by simp [hpc, opOf])
  have hops : ∀ q i, opOf (s'.pc q) = some i → q ≠ p ∧ opOf (s.pc q) = some i := by
    intro q i hq
    rw [hs'] at hq
    by_cases hqp : q = p
    · subst hqp
      simp [hnone] at hq
    · rw [update_of_ne hqp] at hq
      exact ⟨hqp, hq⟩
  refine ⟨⟨ops.erase p, fun q => ?_, ?_, fun _ => ?_⟩, ?_, ?_⟩
  · by_cases hq : q = p
    · subst hq
      simp [hs', hnone]
    · simp [hs', hq, hmem]
  · have hpos := card_pos.mpr ⟨p, hp⟩
    rw [card_erase_of_mem hp, ho, hcard]
    omega
  · have hroom := hfits hrec
    have hrest : ∑ q ∈ ops.erase p, s'.reserve q = ∑ q ∈ ops.erase p, s.reserve q :=
      sum_congr rfl fun q hq =>
        reserve_congr hw (by rw [hs', update_of_ne (ne_of_mem_erase hq)])
    rw [← add_sum_erase ops _ hp] at hroom
    rw [hrest, hlh]
    omega
  · intro q i c data hq
    have hqp := (hops q i (by rw [hq]; rfl)).1
    rw [hs', update_of_ne hqp] at hq
    have hblocks : s'.blocksOf i = s.blocksOf i := by simp [blocksOf, hw]
    rw [hblocks]
    exact h.keeps q i c data hq
  · intro q r i hq hr
    exact h.apart q r i (hops q i hq).2 (hops r i hr).2

/-- Nobody is in an operation, and the log is empty. -/
theorem Ample.empty (ho : s.outstanding = 0) (hops : ∀ q, opOf (s.pc q) = none)
    (hlh : s.recovery = none → s.lh = []) : s.Ample := by
  refine ⟨⟨∅, fun q => by simp [hops], by simp [ho], fun hrec => ?_⟩, ?_, ?_⟩
  · rw [hlh hrec, sum_empty]
    decide
  · intro q id b data hq
    have hq' := hops q
    simp [hq, opOf] at hq'
  · intro q r id hq
    simp [hops] at hq

theorem Ample.commitStep (h : s.Ample) (hi : s.Isolated) (hrec : s.recovery = none) {c : CommitPc}
    (hpc : s.pc p = .commit c) : (s.commitStep p c).Ample := by
  have hnone := hi.no_op (hi.committing hpc)
  have hzero := (hi.alone (hi.committing hpc)).1
  have hset : ∀ {pc : LogPc}, opOf pc = none → ∀ q, opOf (update s.pc p pc q) = none := by
    intro pc hn q
    by_cases hq : q = p
    · subst hq
      simpa using hn
    · rw [update_of_ne hq]
      exact hnone q
  have hkeep : ∀ s' : Log, s'.outstanding = s.outstanding → s'.history.written = s.history.written →
      s'.lh = s.lh → (∀ q, opOf (s'.pc q) = none) → s'.Ample := fun s' ho hw hlh hn =>
    h.keep ho hw (by rw [hlh]) hrec (fun q => by rw [hn, hnone]) fun q id b data hq => by
      have hq' := hn q
      simp [hq, opOf] at hq'
  cases c with
  | writeLog tail => exact hkeep _ rfl rfl rfl (hset rfl)
  | writeHead => exact hkeep _ rfl rfl rfl (hset rfl)
  | installTrans tail => exact hkeep _ rfl rfl rfl (hset rfl)
  | eraseHead => exact .empty hzero (hset rfl) fun _ => rfl
  | finish => exact hkeep _ rfl rfl rfl (hset rfl)

/-- **Step**: the reservations stay within the log. -/
theorem Ample.next {a : Act} (h : s.Ample) (hi : s.Isolated) (hd : s.Down) (hw : s.Whole)
    (hsize : s.size = LOGSIZE) (hk : s.Keeps a) (hsp : s.Spaced a) (hm : s.Move a s') :
    s'.Ample := by
  cases hm with
  | waits => exact h
  | begins p hrec hpc hc hroom =>
    refine h.begun hw hpc ?_
    rcases hsp with hc' | hfull | hlt
    · exact absurd (hc.symm.trans hc') (by simp)
    · exact absurd hroom (not_le.mpr hfull)
    · rw [hsize] at hlt
      exact hlt
  | checks p id b data hrec hpc =>
    have hid := opOf_op hpc
    refine h.keep rfl rfl le_rfl hrec (fun q => ?_) fun q i c data' hq => ?_
    · by_cases hq : q = p
      · subst hq
        simp [setPc, opOf, hpc]
      · simp [setPc, update_of_ne hq]
    · by_cases hqp : q = p
      · subst hqp
        simp only [setPc, update_self, LogPc.logging.injEq] at hq
        obtain ⟨rfl, rfl, -⟩ := hq
        rw [Keeps, blocks_of_op hid] at hk
        exact .inr hk
      · simp only [setPc, update_of_ne hqp] at hq
        exact .inl hq
  | logs p id b data hrec hpc => exact h.logSection hw hrec hpc
  | leaves p id hpc =>
    have hrec : s.recovery = none := not_not.mp fun hrec => by simp [hd.idle hrec] at hpc
    exact h.leave hrec hpc rfl rfl rfl rfl rfl
  | closes p id hrec hpc => exact h.leave hrec hpc rfl rfl rfl rfl rfl
  | commits p c hrec hpc => exact h.commitStep hi hrec hpc
  | loads b =>
    obtain ⟨ops, hmem, hcard, hfits⟩ := h.fits
    exact ⟨⟨ops, hmem, hcard, hfits⟩, h.keeps, h.apart⟩
  | evicts b =>
    obtain ⟨ops, hmem, hcard, hfits⟩ := h.fits
    exact ⟨⟨ops, hmem, hcard, hfits⟩, h.keeps, h.apart⟩
  | crashes => exact .empty rfl (fun _ => rfl) (by simp [Log.crash])
  | recovers r hr =>
    have hrec : s.recovery ≠ none := by simp [hr]
    have hops : ∀ q, opOf (s.pc q) = none := fun q => by rw [hd.idle hrec q]; rfl
    have hzero : s.outstanding = 0 := by
      obtain ⟨ops, hmem, hcard, -⟩ := h.fits
      have hempty : ops = ∅ := eq_empty_of_forall_notMem fun q hq => by
        simpa [hops] using (hmem q).mp hq
      simp [hcard, hempty]
    cases r with
    | readHead => exact .empty hzero hops (by simp [Log.recoverStep])
    | installTrans tail => exact .empty hzero hops (by simp [Log.recoverStep])
    | eraseHead => exact .empty hzero hops fun _ => rfl

/-! ## The check of `log_write` -/

theorem Move.size_eq {a : Act} (hm : s.Move a s') : s'.size = s.size := by
  cases hm with
  | commits p c => cases c <;> rfl
  | recovers r => cases r <;> rfl
  | _ => rfl

/-- With room to spare, the check of `log_write` for the size of the transaction
does not fail. -/
theorem Ample.outcome_ne (h : s.Ample) (hsize : s.size = LOGSIZE) (a : Act) :
    s.outcome a ≠ some (.error .tooBig) := by
  intro ho
  obtain ⟨hrec, hpanic⟩ := panic_of_outcome ho
  obtain ⟨ops, -, -, hfits⟩ := h.fits
  have hroom := hfits hrec
  have hlt : ¬ (s.lh.length ≥ LOGSIZE ∨ (s.lh.length : Int) ≥ s.size - 1) := by
    rw [hsize]
    omega
  rcases hpanic with ⟨p, id, b, data, -, hlog⟩ | ⟨p, id, -, hend⟩
  · rw [logWrite, if_neg hlt] at hlog
    split at hlog <;> cases hlog
  unfold endOp at hend
  split at hend
  · cases hend
  · split at hend <;> contradiction

/-- **Admission**: in a log of the size `mkfs` gives it, as long as every
operation keeps to `MAXOPBLOCKS` blocks and `begin_op` admits it only when the
reservations stay below `log.size - 1`, no `log_write` finds the transaction too
big. -/
theorem logWrite_admitted (h : s.ReachableBy fun s a => s.Keeps a ∧ s.Spaced a)
    (hsize : s.size = LOGSIZE) (a : Act) : s.outcome a ≠ some (.error .tooBig) := by
  have hall : s.Isolated ∧ s.Down ∧ s.Whole ∧ (s.size = LOGSIZE → s.Ample) := by
    refine h.inv (fun s => s.Isolated ∧ s.Down ∧ s.Whole ∧ (s.size = LOGSIZE → s.Ample))
      (fun s hs => ?_) fun s a s' hs hg hn => ?_
    · exact ⟨.idle hs.outstanding hs.committing hs.pc, .up hs.recovery, started_whole hs,
        fun _ => .empty hs.outstanding (fun q => by rw [hs.pc]; rfl) fun _ => hs.lh⟩
    · have hm := move_of_next hn
      refine ⟨hs.1.next hm, hs.2.1.next hm, hs.2.2.1.next hs.1 hs.2.1 hm, fun hsize' => ?_⟩
      have hsz := hm.size_eq.symm.trans hsize'
      exact (hs.2.2.2 hsz).next hs.1 hs.2.1 hs.2.2.1 hsz hg.1 hg.2 hm
  exact (hall.2.2.2 hsize).outcome_ne hsize a

/-! ## Concrete runs -/

/-- Process `p` logs `n` blocks from block `b` on. -/
def logsBlocks (p b n : Nat) : List Act :=
  (List.range n).flatMap fun i => [.logWrite p (b + i) fun _ => 0, .logSection p]

/-- Two operations that log ten blocks each. -/
def twoFull : List Act :=
  List.flatten [[.beginOp 0, .beginOp 1], logsBlocks 0 100 10, logsBlocks 1 110 10]

/-- They fit. -/
theorem logWrite_admitted_twoFull : ∃ s : Log, (s.ReachableBy fun s a => s.Keeps a ∧ s.Spaced a) ∧
    s.size = LOGSIZE ∧ s.lh.length = 20 ∧ ∀ a, s.outcome a ≠ some (.error .tooBig) := by
  have hstart : (fresh LOGSIZE).ReachableBy fun s a => s.Keeps a ∧ s.Spaced a :=
    .start (started_fresh LOGSIZE)
  obtain ⟨s, hs, hsize, hlen⟩ := hstart.exists_of_run
    (P := fun s => s.size = LOGSIZE ∧ s.lh.length = 20) twoFull (by decide +kernel)
  exact ⟨s, hs, hsize, hlen, logWrite_admitted hs hsize⟩

/-- The panic that an act ends in. -/
def panicOf (s : Log) (a : Act) : Option LogPanic :=
  (s.outcome a).bind fun
    | .error e => some e
    | .ok _ => none

theorem outcome_of_panicOf {a : Act} {e : LogPanic} (h : s.panicOf a = some e) :
    s.outcome a = some (.error e) := by
  obtain ⟨r, hr, he⟩ := Option.bind_eq_some_iff.mp h
  cases r with
  | error e' => cases he; exact hr
  | ok s' => contradiction

/-- Three operations, of which two have logged ten blocks and one nine. -/
def threeFull : List Act :=
  List.flatten
    [[.beginOp 0, .beginOp 1, .beginOp 2], logsBlocks 0 100 10, logsBlocks 1 110 10,
      logsBlocks 2 120 9]

/-- `begin_op` admits all three, and the tenth block of the third is too much,
as is any block that is in the log already. -/
theorem logWrite_tooBig_threeFull : ∃ s : Log, s.ReachableBy Keeps ∧ s.size = LOGSIZE ∧
    s.Keeps (.logWrite 2 129 fun _ => 0) ∧
    s.outcome (.logWrite 2 129 fun _ => 0) = some (.error .tooBig) ∧ 120 ∈ s.lh ∧
    s.outcome (.logWrite 2 120 fun _ => 0) = some (.error .tooBig) := by
  have hstart : (fresh LOGSIZE).ReachableBy Keeps := .start (started_fresh LOGSIZE)
  obtain ⟨s, hs, hsize, hkeeps, hnew, hmem, hold⟩ := hstart.exists_of_run
    (P := fun s => s.size = LOGSIZE ∧ s.Keeps (.logWrite 2 129 fun _ => 0) ∧
      s.panicOf (.logWrite 2 129 fun _ => 0) = some .tooBig ∧ 120 ∈ s.lh ∧
      s.panicOf (.logWrite 2 120 fun _ => 0) = some .tooBig) threeFull (by decide +kernel)
  exact ⟨s, hs, hsize, hkeeps, outcome_of_panicOf hnew, hmem, outcome_of_panicOf hold⟩

end Log
end Xv6
