import Xv6.Log.Isolation

/-!
# Xv6.Log.Atomic

Transactions are atomic with respect to crashes: whenever the machine stops, and
however often the recovery is interrupted, the blocks outside the log end up all
as before the transaction, or all as it wants them if its `write_head` was done.

What carries the argument is the disk alone: before `write_head` the header on
the disk is empty; after it the log says all that the transaction wants, and
installing it again does no harm.
-/

namespace Xv6

open Lib Function List

variable {bufs : Buffers} {l lh : List Nat}

/-! ## The header block -/

/-- Writing block numbers from entry `k` on leaves what is below. -/
theorem getLE_foldl_of_below (lh : List Nat) (k : Nat) (b : Bytes) {off : Nat}
    (hoff : off + 4 ≤ 4 + 4 * k) :
    getLE ((lh.zipIdx k).foldl (fun b x => putLE b (4 + 4 * x.2) 4 x.1) b) off 4 = getLE b off 4 := by
  induction lh generalizing k b with
  | nil => rfl
  | cons x xs ih =>
    rw [zipIdx_cons, foldl_cons, ih (k + 1) _ (by omega)]
    exact getLE_putLE_of_disjoint b x (.inl hoff)

theorem getLE_foldl (lh : List Nat) (k : Nat) (b : Bytes) (hlt : ∀ x ∈ lh, x < 2 ^ 32) {i : Nat}
    (hi : i < lh.length) :
    getLE ((lh.zipIdx k).foldl (fun b x => putLE b (4 + 4 * x.2) 4 x.1) b) (4 + 4 * (k + i)) 4 =
      lh[i] := by
  induction lh generalizing k b i with
  | nil => simp at hi
  | cons x xs ih =>
    rw [zipIdx_cons, foldl_cons]
    cases i with
    | zero =>
      rw [getLE_foldl_of_below xs (k + 1) _ (by omega)]
      exact getLE_putLE_of_lt b _ (hlt x mem_cons_self)
    | succ i =>
      have hrest := ih (k + 1) (putLE b (4 + 4 * k) 4 x)
        (fun y hy => hlt y (mem_cons_of_mem x hy)) (Nat.lt_of_succ_lt_succ hi)
      rw [show k + (i + 1) = k + 1 + i by omega]
      exact hrest

theorem decodeHead_encodeHead (old : Bytes) (hlt : ∀ x ∈ lh, x < 2 ^ 32)
    (hlen : lh.length < 2 ^ 32) : decodeHead (encodeHead old lh) = lh := by
  have hn : getLE (encodeHead old lh) 0 4 = lh.length := by
    rw [encodeHead, getLE_foldl_of_below lh 0 _ (by omega)]
    exact getLE_putLE_of_lt old 0 hlen
  refine ext_getElem (by simp [decodeHead, hn]) fun i h1 h2 => ?_
  have hi := getLE_foldl lh 0 (putLE old 0 4 lh.length) hlt h2
  simpa [decodeHead, encodeHead] using hi

/-! ## Buffers -/

namespace Buffers

variable {s : Buffers} {b c : Nat} {data : Bytes}

/-- Clean buffers hold what is on the disk. -/
def Coherent (s : Buffers) : Prop := ∀ b, s.dirty b = false → s.bread b = s.disk b

@[simp] theorem load_bread : (s.load b).bread c = s.bread c := by
  by_cases h : c = b
  · subst h
    simp [load, bread]
  · simp [load, bread, update_of_ne h]

theorem bwrite_bread : (s.bwrite b data).bread c = if c = b then data else s.bread c := by
  by_cases h : c = b
  · subst h
    simp [bwrite, bread]
  · simp [bwrite, bread, h]

theorem bwrite_disk : (s.bwrite b data).disk c = if c = b then data else s.disk c := by
  simp [bwrite, update_apply]

theorem bwrite_dirty : (s.bwrite b data).dirty c = if c = b then false else s.dirty c := by
  simp [bwrite, update_apply]

theorem pin_bread : (s.pin b data).bread c = if c = b then data else s.bread c := by
  by_cases h : c = b
  · subst h
    simp [pin, bread]
  · simp [pin, bread, h]

theorem pin_dirty : (s.pin b data).dirty c = if c = b then true else s.dirty c := by
  simp [pin, update_apply]

@[simp] theorem evict_disk : (s.evict b).disk = s.disk := by
  unfold evict
  split <;> rfl

@[simp] theorem evict_dirty : (s.evict b).dirty = s.dirty := by
  unfold evict
  split <;> rfl

theorem Coherent.evict_bread (h : s.Coherent) : (s.evict b).bread c = s.bread c := by
  unfold evict
  split
  · rfl
  next hd =>
  by_cases hc : c = b
  · subst hc
    rw [h c (by simpa using hd)]
    simp [bread]
  · simp [bread, update_of_ne hc]

theorem Coherent.load (h : s.Coherent) : (s.load b).Coherent := by
  intro c hc
  rw [load_bread]
  exact h c hc

theorem Coherent.evict (h : s.Coherent) : (s.evict b).Coherent := by
  intro c hc
  rw [h.evict_bread, evict_disk]
  exact h c (by simpa using hc)

theorem Coherent.bwrite (h : s.Coherent) : (s.bwrite b data).Coherent := by
  intro c hc
  rw [bwrite_dirty] at hc
  rw [bwrite_bread, bwrite_disk]
  split
  · rfl
  · next hcb => exact h c (by simpa [hcb] using hc)

theorem Coherent.pin (h : s.Coherent) : (s.pin b data).Coherent := by
  intro c hc
  rw [pin_dirty] at hc
  split at hc
  · contradiction
  · next hcb =>
    rw [pin_bread, if_neg hcb]
    exact h c hc

theorem coherent_restart : s.restart.Coherent := fun _ _ => rfl

end Buffers

/-! ## The disk in the course of a transaction -/

/-- What the disk writes of the log are about. -/
structure Redo where
  start : Nat
  size : Nat
  lh : List Nat
  bufs : Buffers
  pre : Nat → Bytes
  target : Nat → Bytes
  committed : Bool

namespace Redo

variable {r : Redo} {b k tail : Nat} {data : Bytes}

/-- A block outside the log. -/
def Home (r : Redo) (b : Nat) : Prop := b ≠ r.start ∧ (b < r.start ∨ r.start + r.size ≤ b)

/-- A header whose blocks have their home outside the log, and fit into it. -/
structure Valid (r : Redo) (lh : List Nat) : Prop where
  home : ∀ b ∈ lh, r.Home b
  small : ∀ b ∈ lh, b < 2 ^ 32
  room : lh ≠ [] → lh.length < r.size
  short : lh.length ≤ LOGSIZE

/-- The log on the disk is empty, and the other blocks are as in `image`. -/
structure Shows (r : Redo) (image : Nat → Bytes) : Prop where
  head : decodeHead (r.bufs.disk r.start) = []
  home : ∀ b, r.Home b → r.bufs.disk b = image b

/-- The log on the disk holds the transaction, and its blocks are installed but
for those from entry `k` on. -/
structure Holds (r : Redo) (lh : List Nat) (k : Nat) : Prop where
  head : decodeHead (r.bufs.disk r.start) = lh
  valid : r.Valid lh
  blocks : ∀ i (hi : i < lh.length), r.bufs.disk (r.start + i + 1) = r.target lh[i]
  home : ∀ b, r.Home b → b ∉ lh.drop k → r.bufs.disk b = r.target b

/-- What holds of the disk at any time. -/
inductive Durable (r : Redo) : Prop where
  | before : r.committed = false → r.Shows r.pre → Durable r
  | logged (lh : List Nat) : r.committed = true → r.Holds lh 0 → Durable r
  | after : r.committed = true → r.Shows r.target → Durable r

/-- Operations go on. -/
structure Running (r : Redo) : Prop where
  committed : r.committed = false
  shows : r.Shows r.pre
  valid : r.Valid r.lh
  pinned : ∀ b, r.bufs.dirty b = true → b ∈ r.lh

/-- The operations have ended, and `k` blocks are in the log. -/
structure Prepared (r : Redo) (k : Nat) : Prop where
  running : r.Running
  buffers : ∀ b ∈ r.lh, r.bufs.bread b = r.target b
  others : ∀ b, r.Home b → b ∉ r.lh → r.pre b = r.target b
  blocks : ∀ i (hi : i < r.lh.length), i < k → r.bufs.disk (r.start + i + 1) = r.target r.lh[i]

/-- What holds at each step of `commit()`. -/
inductive AtCommit (r : Redo) : CommitPc → Prop where
  | writeLog (tail : Nat) : tail < r.lh.length → r.Prepared tail → AtCommit r (.writeLog tail)
  | writeHead : 0 < r.lh.length → r.Prepared r.lh.length → AtCommit r .writeHead
  | installTrans (tail : Nat) : tail < r.lh.length → r.committed = true → r.Holds r.lh tail →
      (∀ b, r.bufs.dirty b = true → b ∈ r.lh.drop tail) → AtCommit r (.installTrans tail)
  | eraseHead : r.committed = true → r.Holds r.lh r.lh.length →
      (∀ b, r.bufs.dirty b = false) → AtCommit r .eraseHead
  | finish : r.lh = [] → r.Shows (if r.committed then r.target else r.pre) →
      (∀ b, r.bufs.dirty b = false) → AtCommit r .finish

/-- What holds at each step of `recover_from_log()`. -/
inductive AtRecover (r : Redo) : RecoverPc → Prop where
  | readHead : r.Durable → AtRecover r .readHead
  | installTrans (tail : Nat) : tail < r.lh.length → r.committed = true → r.Holds r.lh tail →
      AtRecover r (.installTrans tail)
  | eraseHead : r.Durable →
      (∀ b, r.Home b → r.bufs.disk b = (if r.committed then r.target else r.pre) b) →
      AtRecover r .eraseHead

/-! ### A crash at any point -/

theorem Holds.mono (h : r.Holds r.lh k) : r.Holds r.lh 0 :=
  ⟨h.head, h.valid, h.blocks, fun b hb hn => h.home b hb fun hk => hn (mem_of_mem_drop hk)⟩

theorem Shows.durable (h : r.Shows (if r.committed then r.target else r.pre)) : r.Durable := by
  cases hc : r.committed with
  | false => exact .before hc (by simpa [hc] using h)
  | true => exact .after hc (by simpa [hc] using h)

theorem AtCommit.durable {c : CommitPc} (h : r.AtCommit c) : r.Durable := by
  cases h with
  | writeLog tail _ h => exact .before h.running.committed h.running.shows
  | writeHead _ h => exact .before h.running.committed h.running.shows
  | installTrans tail _ hc h => exact .logged r.lh hc h.mono
  | eraseHead hc h => exact .logged r.lh hc h.mono
  | finish _ h => exact h.durable

theorem AtRecover.durable {p : RecoverPc} (h : r.AtRecover p) : r.Durable := by
  cases h with
  | readHead h => exact h
  | installTrans tail _ hc h => exact .logged r.lh hc h.mono
  | eraseHead h => exact h

/-! ### Reading and recycling buffers -/

/-- Buffers with the same disk, the same contents and the same pins. -/
structure SameBufs (r : Redo) (bufs : Buffers) : Prop where
  disk : bufs.disk = r.bufs.disk
  bread : ∀ b, bufs.bread b = r.bufs.bread b
  dirty : bufs.dirty = r.bufs.dirty

variable {image : Nat → Bytes}

theorem Shows.same (h : r.Shows image)
    (hb : bufs.disk = r.bufs.disk) : ({ r with bufs := bufs, lh := l } : Redo).Shows image :=
  ⟨by rw [hb]; exact h.head, by rw [hb]; exact h.home⟩

theorem Holds.same (h : r.Holds lh k)
    (hb : bufs.disk = r.bufs.disk) : ({ r with bufs := bufs, lh := l } : Redo).Holds lh k := by
  refine ⟨?_, ⟨h.valid.home, h.valid.small, h.valid.room, h.valid.short⟩, ?_, ?_⟩
  · rw [hb]; exact h.head
  · rw [hb]; exact h.blocks
  · rw [hb]; exact h.home

theorem Durable.same (h : r.Durable)
    (hb : bufs.disk = r.bufs.disk) : ({ r with bufs := bufs, lh := l } : Redo).Durable := by
  cases h with
  | before hc h => exact .before hc (h.same hb)
  | logged lh hc h => exact .logged lh hc (h.same hb)
  | after hc h => exact .after hc (h.same hb)

theorem Running.same (h : r.Running) (hb : r.SameBufs bufs) :
    ({ r with bufs := bufs } : Redo).Running :=
  ⟨h.committed, h.shows.same hb.disk, ⟨h.valid.home, h.valid.small, h.valid.room, h.valid.short⟩,
    by rw [hb.dirty]; exact h.pinned⟩

theorem Prepared.same (h : r.Prepared k) (hb : r.SameBufs bufs) :
    ({ r with bufs := bufs } : Redo).Prepared k :=
  ⟨h.running.same hb, fun b hmem => (hb.bread b).trans (h.buffers b hmem), h.others,
    by rw [hb.disk]; exact h.blocks⟩

theorem AtCommit.same {c : CommitPc} (h : r.AtCommit c) (hb : r.SameBufs bufs) :
    ({ r with bufs := bufs } : Redo).AtCommit c := by
  cases h with
  | writeLog tail hlt h => exact .writeLog tail hlt (h.same hb)
  | writeHead hpos h => exact .writeHead hpos (h.same hb)
  | installTrans tail hlt hc h hd =>
    exact .installTrans tail hlt hc (h.same hb.disk) (by rw [hb.dirty]; exact hd)
  | eraseHead hc h hd => exact .eraseHead hc (h.same hb.disk) (by rw [hb.dirty]; exact hd)
  | finish hlh h hd => exact .finish hlh (h.same hb.disk) (by rw [hb.dirty]; exact hd)

theorem AtRecover.same {p : RecoverPc} (h : r.AtRecover p) (hb : r.SameBufs bufs) :
    ({ r with bufs := bufs } : Redo).AtRecover p := by
  cases h with
  | readHead h => exact .readHead (h.same hb.disk)
  | installTrans tail hlt hc h => exact .installTrans tail hlt hc (h.same hb.disk)
  | eraseHead h hhome => exact .eraseHead (h.same hb.disk) (by rw [hb.disk]; exact hhome)

/-! ### Writing a block -/

/-- Buffers after `bwrite` of block `b`. -/
structure Writes (r : Redo) (bufs : Buffers) (b : Nat) (data : Bytes) : Prop where
  disk : ∀ c, bufs.disk c = if c = b then data else r.bufs.disk c
  bread : ∀ c, bufs.bread c = if c = b then data else r.bufs.bread c
  dirty : ∀ c, bufs.dirty c = if c = b then false else r.bufs.dirty c

theorem writes_bwrite (h : r.SameBufs bufs) : r.Writes (bufs.bwrite b data) b data :=
  ⟨fun c => by rw [Buffers.bwrite_disk, h.disk], fun c => by rw [Buffers.bwrite_bread, h.bread],
    fun c => by rw [Buffers.bwrite_dirty, h.dirty]⟩

theorem Writes.clean (h : r.Writes bufs b data) (hd : ∀ c, r.bufs.dirty c = true → c = b ∨ c ∈ lh)
    (c : Nat) (hc : bufs.dirty c = true) : c ∈ lh := by
  rw [h.dirty] at hc
  split at hc
  · contradiction
  · next hne => exact (hd c hc).resolve_left hne

theorem Writes.all_clean (h : r.Writes bufs b data)
    (hd : ∀ c, r.bufs.dirty c = false) (c : Nat) : bufs.dirty c = false := by
  rw [h.dirty]
  split
  · rfl
  · exact hd c

theorem Valid.home_ne (h : r.Valid lh) {i : Nat} (hi : i < lh.length)
    (hb : r.Home b) : b ≠ r.start + i + 1 := by
  have hroom := h.room (ne_nil_of_length_pos (by omega))
  have hout := hb.2
  omega

theorem Prepared.writeLog (h : r.Prepared tail) (hlt : tail < r.lh.length)
    (hw : r.Writes bufs (r.start + tail + 1) (r.target r.lh[tail])) :
    ({ r with bufs := bufs } : Redo).Prepared (tail + 1) := by
  have hne : ∀ {c}, r.Home c → c ≠ r.start + tail + 1 := h.running.valid.home_ne hlt
  have hvalid := h.running.valid
  refine ⟨⟨h.running.committed, ⟨?_, fun c hc => ?_⟩,
    ⟨hvalid.home, hvalid.small, hvalid.room, hvalid.short⟩, ?_⟩, fun c hc => ?_, h.others, ?_⟩
  · have hstart : r.start ≠ r.start + tail + 1 := by omega
    rw [hw.disk, if_neg hstart]
    exact h.running.shows.head
  · rw [hw.disk, if_neg (hne hc)]
    exact h.running.shows.home c hc
  · exact hw.clean fun c hc => .inr (h.running.pinned c hc)
  · rw [hw.bread, if_neg (hne (hvalid.home c hc))]
    exact h.buffers c hc
  · intro i hi hik
    rw [hw.disk]
    by_cases hit : i = tail
    · subst hit
      rw [if_pos rfl]
    · rw [if_neg (by simpa using hit)]
      exact h.blocks i hi (by omega)

/-- The first `write_head()`: the transaction is committed. -/
theorem Prepared.writeHead (h : r.Prepared r.lh.length) {old : Bytes}
    (hw : r.Writes bufs r.start (encodeHead old r.lh)) :
    ({ r with bufs := bufs, committed := true } : Redo).Holds r.lh 0 := by
  have hvalid := h.running.valid
  have hlen : r.lh.length < 2 ^ 32 := lt_of_le_of_lt hvalid.short (by decide)
  refine ⟨?_, ⟨hvalid.home, hvalid.small, hvalid.room, hvalid.short⟩, fun i hi => ?_,
    fun c hc hn => ?_⟩
  · rw [hw.disk, if_pos rfl]
    exact decodeHead_encodeHead old hvalid.small hlen
  · have hstart : r.start + i + 1 ≠ r.start := by omega
    rw [hw.disk, if_neg hstart]
    exact h.blocks i hi hi
  · rw [hw.disk, if_neg hc.1]
    exact (h.running.shows.home c hc).trans (h.others c hc hn)

theorem Holds.install (h : r.Holds r.lh tail) (hlt : tail < r.lh.length)
    (hw : r.Writes bufs r.lh[tail] (r.target r.lh[tail])) :
    ({ r with bufs := bufs } : Redo).Holds r.lh (tail + 1) := by
  have hhome := h.valid.home r.lh[tail] (getElem_mem hlt)
  refine ⟨?_, ⟨h.valid.home, h.valid.small, h.valid.room, h.valid.short⟩, fun i hi => ?_,
    fun c hc hn => ?_⟩
  · rw [hw.disk, if_neg (Ne.symm hhome.1)]
    exact h.head
  · rw [hw.disk, if_neg (Ne.symm (h.valid.home_ne hi hhome))]
    exact h.blocks i hi
  · rw [hw.disk]
    split
    · next heq => rw [heq]
    next hne =>
    refine h.home c hc fun hmem => ?_
    rw [drop_eq_getElem_cons hlt, mem_cons] at hmem
    exact hmem.elim hne hn

theorem shows_erase {old : Bytes}
    (h : ∀ c, r.Home c → r.bufs.disk c = image c) (hw : r.Writes bufs r.start (encodeHead old [])) :
    ({ r with bufs := bufs, lh := [] } : Redo).Shows image := by
  refine ⟨?_, fun c hc => ?_⟩
  · rw [hw.disk, if_pos rfl]
    exact decodeHead_encodeHead old (by simp) (by simp)
  · rw [hw.disk, if_neg hc.1]
    exact h c hc

theorem valid_nil : r.Valid [] := ⟨by simp, by simp, by simp, by simp⟩

end Redo

/-! ## Runs -/

namespace Log

variable {s s' : Log} {p id b : Nat} {data : Bytes}

/-- What the disk writes of the log are about. -/
def redo (s : Log) : Redo where
  start := s.start
  size := s.size
  lh := s.lh
  bufs := s.bufs
  pre := s.history.pre
  target := s.history.target
  committed := s.history.committed

/-- A block outside the log. -/
def Home (s : Log) (b : Nat) : Prop := s.redo.Home b

/-- The block that a process in `log_write` is about to record. -/
def pending : LogPc → Option Nat
  | .logging _ b _ => some b
  | .idle | .op _ | .commit _ => none

/-- The logged blocks are outside the log, and there are at most `log.size - 1`
of them. -/
def Fits (s : Log) : Act → Prop
  | .logSection p =>
    ∀ b ∈ pending (s.pc p),
      s.Home b ∧ b < 2 ^ 32 ∧ (record s.lh b).length < s.size ∧ (record s.lh b).length ≤ LOGSIZE
  | _ => True

/-- The disk is where the log needs it, whoever runs. -/
structure Atomic (s : Log) : Prop where
  coherent : s.bufs.Coherent
  running : s.recovery = none → s.committing = false → s.redo.Running
  commit : ∀ p c, s.pc p = .commit c → s.redo.AtCommit c
  recover : ∀ r, s.recovery = some r → s.redo.AtRecover r ∧ ∀ b, s.bufs.dirty b = false

theorem Atomic.durable (h : s.Atomic) (hi : s.Isolated) : s.redo.Durable := by
  cases hr : s.recovery with
  | some r => exact (h.recover r hr).1.durable
  | none =>
    cases hc : s.committing with
    | false =>
      have hrun := h.running hr hc
      exact .before hrun.committed hrun.shows
    | true =>
      obtain ⟨p, ⟨c, hp⟩, -⟩ := (hi.alone hc).2
      exact (h.commit p c hp).durable

/-! ### One step -/

theorem sameBufs_load {a b : Nat} : s.redo.SameBufs ((s.bufs.load a).load b) :=
  ⟨rfl, fun c => by simp [redo], rfl⟩

variable {tail : Nat}

theorem home_eq (h : tail < s.lh.length) : s.home tail = s.lh[tail] := by
  simp [home, h]

theorem writes_writeLogBufs (h : tail < s.lh.length) :
    s.redo.Writes (s.writeLogBufs tail) (s.start + tail + 1) (s.bufs.bread s.lh[tail]) := by
  simp only [writeLogBufs, home_eq h, Buffers.load_bread]
  exact Redo.writes_bwrite sameBufs_load

theorem writes_installBufs (h : tail < s.lh.length) :
    s.redo.Writes (s.installBufs tail) s.lh[tail] (s.bufs.bread (s.start + tail + 1)) := by
  simp only [installBufs, home_eq h, Buffers.load_bread]
  exact Redo.writes_bwrite sameBufs_load

theorem writes_writeHeadBufs (lh : List Nat) :
    s.redo.Writes (s.writeHeadBufs lh) s.start (encodeHead (s.bufs.bread s.start) lh) :=
  Redo.writes_bwrite ⟨rfl, fun _ => rfl, rfl⟩

/-- A log block is read as it was written: it is never pinned. -/
theorem bread_logBlock (hco : s.bufs.Coherent) (hd : ∀ b, s.bufs.dirty b = true → b ∈ s.lh)
    (h : s.redo.Holds s.lh k) (hlt : tail < s.lh.length) :
    s.bufs.bread (s.start + tail + 1) = s.history.target s.lh[tail] := by
  have hclean : s.bufs.dirty (s.start + tail + 1) = false := by
    cases hdirty : s.bufs.dirty (s.start + tail + 1) with
    | false => rfl
    | true => exact absurd rfl (h.valid.home_ne hlt (h.valid.home _ (hd _ hdirty)))
  rw [hco _ hclean]
  exact h.blocks tail hlt

/-- The step of `install_trans()`, in a commit or in the recovery. -/
theorem holds_install (hco : s.bufs.Coherent) (hd : ∀ b, s.bufs.dirty b = true → b ∈ s.lh)
    (h : s.redo.Holds s.lh tail) (hlt : tail < s.lh.length) :
    ({ s.redo with bufs := s.installBufs tail } : Redo).Holds s.lh (tail + 1) := by
  have hw := writes_installBufs hlt
  rw [bread_logBlock hco hd h hlt] at hw
  exact h.install hlt hw

theorem coherent_installBufs (hco : s.bufs.Coherent) : (s.installBufs tail).Coherent :=
  hco.load.load.bwrite

/-- **Step of a commit**. -/
theorem atCommit_commitStep {c : CommitPc} (hco : s.bufs.Coherent) (h : s.redo.AtCommit c)
    (hc : c ≠ .finish) :
    ∃ d, (s.commitStep p c).pc = update s.pc p (.commit d) ∧
      (s.commitStep p c).bufs.Coherent ∧ (s.commitStep p c).redo.AtCommit d := by
  cases h with
  | writeLog tail hlt h =>
    replace hlt : tail < s.lh.length := hlt
    have hw := writes_writeLogBufs hlt
    have hbuf : s.bufs.bread s.lh[tail] = s.history.target s.lh[tail] :=
      h.buffers _ (getElem_mem hlt)
    rw [hbuf] at hw
    have hnext := h.writeLog hlt hw
    refine ⟨_, rfl, hco.load.load.bwrite, ?_⟩
    split
    · next hmore => exact .writeLog (tail + 1) hmore hnext
    next hmore =>
    have hlast : tail + 1 = s.lh.length := by omega
    rw [hlast] at hnext
    have hpos : 0 < s.lh.length := by omega
    exact .writeHead hpos hnext
  | writeHead hpos h =>
    have hw := writes_writeHeadBufs (s := s) s.lh
    refine ⟨_, rfl, hco.bwrite, .installTrans 0 hpos rfl (h.writeHead hw) ?_⟩
    exact hw.clean fun c hc => .inr (h.running.pinned c hc)
  | installTrans tail hlt hcom h hd =>
    replace hlt : tail < s.lh.length := hlt
    have hnext := holds_install hco (fun b hb => mem_of_mem_drop (hd b hb)) h hlt
    have hpins : ∀ b, (s.installBufs tail).dirty b = true → b ∈ s.lh.drop (tail + 1) :=
      (writes_installBufs hlt).clean fun b hb => by
        have hmem : b ∈ s.lh.drop tail := hd b hb
        rwa [drop_eq_getElem_cons hlt, mem_cons] at hmem
    refine ⟨_, rfl, coherent_installBufs hco, ?_⟩
    split
    · next hmore => exact .installTrans (tail + 1) hmore hcom hnext hpins
    next hmore =>
    have hlast : tail + 1 = s.lh.length := by omega
    rw [hlast] at hnext hpins
    refine .eraseHead hcom hnext fun b => ?_
    cases hb : (s.installBufs tail).dirty b with
    | false => exact hb
    | true => simpa using hpins b hb
  | eraseHead hcom h hd =>
    have hw := writes_writeHeadBufs (s := s) []
    have hhome : ∀ b, s.redo.Home b → s.bufs.disk b = s.history.target b := fun b hb =>
      h.home b hb (by simp)
    refine ⟨_, rfl, hco.bwrite, .finish rfl ?_ (hw.all_clean hd)⟩
    rw [show (if (s.commitStep p .eraseHead).redo.committed then
      (s.commitStep p .eraseHead).redo.target else (s.commitStep p .eraseHead).redo.pre) =
        s.history.target from if_pos hcom]
    exact Redo.shows_erase hhome hw
  | finish => exact absurd rfl hc

/-- The end of a commit: the next transaction starts from the disk as it is. -/
theorem running_finish (h : s.redo.AtCommit .finish) : (s.commitStep p .finish).redo.Running := by
  cases h with
  | finish hlh h hd =>
    refine ⟨rfl, ⟨h.head, fun _ _ => rfl⟩, ?_, fun b hb => ?_⟩
    · have hlh' : s.lh = [] := hlh
      simp only [redo, commitStep, setPc, hlh']
      exact Redo.valid_nil
    · have hb' : s.bufs.dirty b = true := hb
      rw [show s.bufs.dirty b = false from hd b] at hb'
      contradiction

variable {r : RecoverPc}

/-- `read_head()`, which finds what the transaction left. -/
theorem atRecover_readHead (hco : s.bufs.Coherent) (hd : ∀ b, s.bufs.dirty b = false)
    (h : s.redo.Durable) (hr : (s.recoverStep .readHead).recovery = some r) :
    (s.recoverStep .readHead).redo.AtRecover r := by
  have hdur : (s.recoverStep .readHead).redo.Durable := h.same rfl
  have hread : s.bufs.bread s.start = s.bufs.disk s.start := hco _ (hd _)
  simp only [recoverStep, Option.some.injEq] at hr
  subst hr
  cases h with
  | before hcom h =>
    have hhead : decodeHead (s.bufs.bread s.start) = [] := by rw [hread]; exact h.head
    rw [hhead, if_neg (by simp)]
    refine .eraseHead hdur fun b hb => (h.home b hb).trans ?_
    rw [show (s.recoverStep .readHead).redo.committed = false from hcom]
    rfl
  | logged lh hcom h =>
    have hhead : decodeHead (s.bufs.bread s.start) = lh := by rw [hread]; exact h.head
    have hholds : (s.recoverStep .readHead).redo.Holds lh 0 := h.same rfl
    rw [hhead]
    split
    · next hpos =>
      have hlh : (s.recoverStep .readHead).redo.lh = lh := hhead
      exact .installTrans 0 (hlh ▸ hpos) hcom (hlh.symm ▸ hholds)
    · next hpos =>
      have hnil : lh = [] := eq_nil_of_length_eq_zero (by omega)
      refine .eraseHead hdur fun b hb => (h.home b hb (by simp [hnil])).trans ?_
      rw [show (s.recoverStep .readHead).redo.committed = true from hcom]
      rfl
  | after hcom h =>
    have hhead : decodeHead (s.bufs.bread s.start) = [] := by rw [hread]; exact h.head
    rw [hhead, if_neg (by simp)]
    refine .eraseHead hdur fun b hb => (h.home b hb).trans ?_
    rw [show (s.recoverStep .readHead).redo.committed = true from hcom]
    rfl

/-- **Step of the recovery**. -/
theorem atRecover_recoverStep (hco : s.bufs.Coherent) (h : s.redo.AtRecover r)
    (hd : ∀ b, s.bufs.dirty b = false) :
    (s.recoverStep r).bufs.Coherent ∧ (∀ b, (s.recoverStep r).bufs.dirty b = false) ∧
      (∀ r', (s.recoverStep r).recovery = some r' → (s.recoverStep r).redo.AtRecover r') ∧
      ((s.recoverStep r).recovery = none → (s.recoverStep r).redo.Running) := by
  cases h with
  | readHead h =>
    exact ⟨hco.load, hd, fun r' hr' => atRecover_readHead hco hd h hr', by simp [recoverStep]⟩
  | installTrans tail hlt hcom h =>
    replace hlt : tail < s.lh.length := hlt
    have hnext := holds_install hco (fun b hb => by simp [hd b] at hb) h hlt
    refine ⟨coherent_installBufs hco, (writes_installBufs hlt).all_clean hd, fun r' hr' => ?_,
      by simp [recoverStep]⟩
    simp only [recoverStep, Option.some.injEq] at hr'
    subst hr'
    split
    · next hmore => exact .installTrans (tail + 1) hmore hcom hnext
    next hmore =>
    have hlast : tail + 1 = s.lh.length := by omega
    rw [hlast] at hnext
    refine .eraseHead (.logged s.lh hcom ⟨hnext.head, hnext.valid, hnext.blocks, ?_⟩) ?_
    · exact fun b hb hn => hnext.home b hb (by simp)
    · intro b hb
      rw [show (s.recoverStep (.installTrans tail)).redo.committed = true from hcom]
      exact hnext.home b hb (by simp)
  | eraseHead h hhome =>
    have hw := writes_writeHeadBufs (s := s) []
    have hshows := Redo.shows_erase hhome hw
    refine ⟨hco.bwrite, hw.all_clean hd, by simp [recoverStep], fun _ => ?_⟩
    refine ⟨rfl, ⟨hshows.head, fun _ _ => rfl⟩, Redo.valid_nil, fun b hb => ?_⟩
    rw [show (s.recoverStep .eraseHead).redo.bufs.dirty b = false from hw.all_clean hd b] at hb
    contradiction

/-! ### Every act -/

/-- An act that leaves the disk and the commit alone. -/
theorem Atomic.keep (h : s.Atomic) (hredo : s'.redo = s.redo) (hrec : s'.recovery = s.recovery)
    (hc : s'.committing = s.committing)
    (hpc : ∀ q c, s'.pc q = .commit c → s.pc q = .commit c) : s'.Atomic := by
  have hbufs : s'.bufs = s.bufs := congrArg Redo.bufs hredo
  refine ⟨?_, ?_, fun q c hq => ?_, ?_⟩
  · rw [hbufs]; exact h.coherent
  · rw [hredo, hrec, hc]; exact h.running
  · rw [hredo]; exact h.commit q c (hpc q c hq)
  · rw [hredo, hrec, hbufs]; exact h.recover

theorem Atomic.same (h : s.Atomic) (hco : bufs.Coherent)
    (hb : s.redo.SameBufs bufs) : ({ s with bufs := bufs } : Log).Atomic := by
  refine ⟨hco, fun hr hc => (h.running hr hc).same hb, fun p c hp => (h.commit p c hp).same hb,
    fun r hr => ⟨(h.recover r hr).1.same hb, fun b => ?_⟩⟩
  rw [hb.dirty]
  exact (h.recover r hr).2 b

/-- A move of process `p` to a place outside `commit()`. -/
theorem commit_of_update {pc : LogPc} (hpc : ∀ c, pc ≠ .commit c) (q : Nat) (c : CommitPc)
    (hq : update s.pc p pc q = .commit c) : s.pc q = .commit c := by
  by_cases hqp : q = p
  · subst hqp
    rw [update_self] at hq
    exact absurd hq (hpc c)
  · rwa [update_of_ne hqp] at hq

theorem Atomic.logSection (h : s.Atomic) (hi : s.Isolated) (hrec : s.recovery = none)
    (hpc : s.pc p = .logging id b data) (hfits : s.Fits (.logSection p)) :
    (s.logSection p id b data).Atomic := by
  have hc := hi.not_committing (opOf_logging hpc)
  have hrun := h.running hrec hc
  obtain ⟨hhome, hsmall, hroom, hshort⟩ := hfits b (by rw [hpc]; rfl)
  refine ⟨h.coherent.pin, fun _ _ => ?_, fun q c hq => ?_, fun r hr => ?_⟩
  · refine ⟨hrun.committed, ⟨hrun.shows.head, hrun.shows.home⟩, ⟨fun d hd => ?_, fun d hd => ?_,
      fun _ => hroom, hshort⟩, fun d hd => ?_⟩
    · rcases mem_record.mp hd with rfl | hd
      · exact hhome
      · exact hrun.valid.home d hd
    · rcases mem_record.mp hd with rfl | hd
      · exact hsmall
      · exact hrun.valid.small d hd
    · refine mem_record.mpr ?_
      have hdirty : (s.bufs.pin b data).dirty d = true := hd
      rw [Buffers.pin_dirty] at hdirty
      split at hdirty
      · next heq => exact .inl heq
      · exact .inr (hrun.pinned d hdirty)
  · exact absurd (commit_of_update (by simp) q c hq) (hi.quiet hc q c)
  · simp [Log.logSection, hrec] at hr

theorem Atomic.closed (h : s.Atomic) (hi : s.Isolated) (hrec : s.recovery = none)
    (hc : s.committing = false) : (s.closed p).Atomic := by
  have hrun := h.running hrec hc
  have hat : (s.closed p).redo.AtCommit (commitStart s.lh) := by
    unfold commitStart
    split
    · next hpos =>
      refine .writeLog 0 hpos ⟨⟨hrun.committed, ⟨hrun.shows.head, hrun.shows.home⟩,
        ⟨hrun.valid.home, hrun.valid.small, hrun.valid.room, hrun.valid.short⟩, hrun.pinned⟩,
        fun d hd => ?_, fun d hd hn => ?_, fun i _ hi => absurd hi (by omega)⟩
      · exact (if_pos hd).symm
      · exact (hrun.shows.home d hd).symm.trans (if_neg hn).symm
    · next hpos =>
      have hnil : s.lh = [] := eq_nil_of_length_eq_zero (by omega)
      refine .finish hnil ?_ fun d => ?_
      · rw [show (s.closed p).redo.committed = false from hrun.committed]
        exact ⟨hrun.shows.head, hrun.shows.home⟩
      · cases hd : s.bufs.dirty d with
        | false => exact hd
        | true =>
          have hmem : d ∈ s.lh := hrun.pinned d hd
          simp [hnil] at hmem
  refine ⟨h.coherent, fun _ hc' => ?_, fun q c hq => ?_, fun r hr => ?_⟩
  · simp [Log.closed] at hc'
  · by_cases hqp : q = p
    · subst hqp
      simp only [Log.closed, update_self, LogPc.commit.injEq] at hq
      rw [← hq]
      exact hat
    · simp only [Log.closed, update_of_ne hqp] at hq
      exact absurd hq (hi.quiet hc q c)
  · simp [Log.closed, hrec] at hr

theorem Atomic.commitStep (h : s.Atomic) (hi : s.Isolated) (hrec : s.recovery = none)
    {c : CommitPc} (hpc : s.pc p = .commit c) : (s.commitStep p c).Atomic := by
  have hat := h.commit p c hpc
  have hrec' : (s.commitStep p c).recovery = none := by cases c <;> exact hrec
  have hnone : ∀ r, (s.commitStep p c).recovery ≠ some r := by simp [hrec']
  by_cases hc : c = .finish
  · subst hc
    refine ⟨h.coherent, fun _ _ => running_finish hat, fun q d hq => ?_,
      fun r hr => absurd hr (hnone r)⟩
    by_cases hqp : q = p
    · subst hqp
      simp [Log.commitStep, setPc] at hq
    · simp only [Log.commitStep, setPc, update_of_ne hqp] at hq
      exact absurd (hi.eq_of_commit hpc hq) hqp
  · obtain ⟨d, hpc', hco, hat'⟩ := atCommit_commitStep (p := p) h.coherent hat hc
    have hcom : (s.commitStep p c).committing = true := by
      cases c with
      | finish => exact absurd rfl hc
      | _ => exact hi.committing hpc
    refine ⟨hco, fun _ hc' => ?_, fun q e hq => ?_, fun r hr => absurd hr (hnone r)⟩
    · exact absurd (hcom.symm.trans hc') (by simp)
    · rw [hpc'] at hq
      by_cases hqp : q = p
      · subst hqp
        simp only [update_self, LogPc.commit.injEq] at hq
        rw [← hq]
        exact hat'
      · rw [update_of_ne hqp] at hq
        exact absurd (hi.eq_of_commit hpc hq) hqp

theorem Atomic.recoverStep (h : s.Atomic) (hd : s.Down) (hr : s.recovery = some r) :
    (s.recoverStep r).Atomic := by
  have hrec := h.recover r hr
  obtain ⟨hco, hclean, hat, hrun⟩ := atRecover_recoverStep h.coherent hrec.1 hrec.2
  refine ⟨hco, fun hn _ => hrun hn, fun q c hq => ?_, fun r' hr' => ⟨hat r' hr', hclean⟩⟩
  have hidle : (s.recoverStep r).pc q = .idle := by
    cases r <;> exact hd.idle (by simp [hr]) q
  simp [hidle] at hq

/-- **Step**: the disk stays where the log needs it. -/
theorem Atomic.next {a : Act} (h : s.Atomic) (hi : s.Isolated) (hd : s.Down) (hf : s.Fits a)
    (hm : s.Move a s') : s'.Atomic := by
  cases hm with
  | waits => exact h
  | begins p => exact h.keep rfl rfl rfl (commit_of_update (by simp))
  | checks p id b data => exact h.keep rfl rfl rfl (commit_of_update (by simp))
  | logs p id b data hrec hpc => exact h.logSection hi hrec hpc hf
  | leaves p id => exact h.keep rfl rfl rfl (commit_of_update (by simp))
  | closes p id hrec hpc hc => exact h.closed hi hrec hc
  | commits p c hrec hpc => exact h.commitStep hi hrec hpc
  | loads b => exact h.same h.coherent.load ⟨rfl, fun c => by simp [redo], rfl⟩
  | evicts b =>
    exact h.same h.coherent.evict
      ⟨Buffers.evict_disk, fun c => h.coherent.evict_bread, Buffers.evict_dirty⟩
  | crashes =>
    refine ⟨Buffers.coherent_restart, fun hr => ?_, fun q c hq => ?_, fun r hr => ?_⟩
    · simp [Log.crash] at hr
    · simp [Log.crash] at hq
    · simp only [Log.crash, Option.some.injEq] at hr
      subst hr
      exact ⟨.readHead ((h.durable hi).same rfl), fun _ => rfl⟩
  | recovers r hr => exact h.recoverStep hd hr

theorem started_atomic (h : s.Started) : s.Atomic := by
  refine ⟨fun b _ => ?_, fun _ _ => ⟨h.committed, ⟨h.head, fun b _ => ?_⟩, ?_, fun b hb => ?_⟩,
    fun p c hp => ?_, fun r hr => ?_⟩
  · simp [Buffers.bread, h.cache]
  · simp [redo, h.pre]
  · simp only [redo, h.lh]
    exact Redo.valid_nil
  · simp [redo, h.dirty] at hb
  · simp [h.pc] at hp
  · simp [h.recovery] at hr

/-! ## Atomicity -/

theorem next_recover (h : s.recovery = some r) : s.next .recover = some (s.recoverStep r) := by
  simp [Log.next, outcome, h, Except.toOption]

/-- The recovery comes to an end if it is not interrupted. -/
theorem recovery_ends_of_erase (h : s.recovery = some .eraseHead) :
    ∃ k s', runFrom Log.next s (replicate k .recover) = some s' ∧ s'.recovery = none := by
  refine ⟨1, s.recoverStep .eraseHead, ?_, rfl⟩
  simp [runFrom, next_recover h]

theorem recovery_ends_of_step (h : s.recovery = some r)
    (hk : ∃ k s', runFrom Log.next (s.recoverStep r) (replicate k .recover) = some s' ∧
      s'.recovery = none) :
    ∃ k s', runFrom Log.next s (replicate k .recover) = some s' ∧ s'.recovery = none := by
  obtain ⟨k, s', hrun, hs'⟩ := hk
  refine ⟨k + 1, s', ?_, hs'⟩
  rw [replicate_succ, runFrom, next_recover h, Option.bind_some]
  exact hrun

/-- The loop of `install_trans()` has a turn for every entry of the header. -/
theorem recovery_ends_of_install (n : Nat) : ∀ (s : Log) (tail : Nat),
    s.recovery = some (.installTrans tail) → s.lh.length ≤ tail + n →
    ∃ k s', runFrom Log.next s (replicate k .recover) = some s' ∧ s'.recovery = none := by
  induction n with
  | zero =>
    intro s tail h hlen
    refine recovery_ends_of_step h (recovery_ends_of_erase ?_)
    rw [recoverStep, if_neg (by omega)]
  | succ n ih =>
    intro s tail h hlen
    refine recovery_ends_of_step h ?_
    by_cases hmore : tail + 1 < s.lh.length
    · refine ih _ (tail + 1) ?_ ?_
      · rw [recoverStep, if_pos hmore]
      · have hlh : (s.recoverStep (.installTrans tail)).lh = s.lh := rfl
        rw [hlh]
        omega
    · refine recovery_ends_of_erase ?_
      rw [recoverStep, if_neg hmore]

theorem recovery_ends (s : Log) :
    ∃ k s', runFrom Log.next s.crash (replicate k .recover) = some s' ∧ s'.recovery = none := by
  refine recovery_ends_of_step (r := .readHead) rfl ?_
  by_cases hpos : (decodeHead (s.crash.bufs.bread s.crash.start)).length > 0
  · refine recovery_ends_of_install _ _ 0 ?_ (Nat.le_add_left _ _)
    rw [recoverStep, if_pos hpos]
  · refine recovery_ends_of_erase ?_
    rw [recoverStep, if_neg hpos]

/-- What the disk comes to: the target of a committed transaction, and otherwise
what was before it. -/
def outlook (s : Log) (b : Nat) : Bytes :=
  if s.history.committed then s.history.target b else s.history.pre b

/-- A crash or a step of the recovery does not change what the disk comes to. -/
theorem Atomic.outlook_next {a : Act} (h : s.Atomic) (ha : a = .crash ∨ a = .recover)
    (hn : s.next a = some s') (hb : s.Home b) : s'.outlook b = s.outlook b ∧ s'.Home b := by
  rcases ha with rfl | rfl
  · cases move_of_next hn with
    | crashes => exact ⟨rfl, hb⟩
  cases move_of_next hn with
  | recovers r hr =>
    cases r with
    | readHead => exact ⟨rfl, hb⟩
    | installTrans tail => exact ⟨rfl, hb⟩
    | eraseHead =>
      refine ⟨?_, hb⟩
      cases (h.recover _ hr).1 with
      | eraseHead _ hhome =>
        have hne : b ≠ s.start := hb.1
        have hkeep : (s.writeHeadBufs []).disk b = s.bufs.disk b := by
          rw [(writes_writeHeadBufs []).disk, if_neg hne]
          rfl
        exact hkeep.trans ((hhome b hb).trans (by rw [ite_apply]; rfl))

theorem atomic_of_reachable (h : s.ReachableBy Fits) : s.Isolated ∧ s.Down ∧ s.Atomic := by
  refine h.inv (fun s => s.Isolated ∧ s.Down ∧ s.Atomic) (fun s hs => ?_) fun s a s' hs hf hn => ?_
  · exact ⟨.idle hs.outstanding hs.committing hs.pc, .up hs.recovery, started_atomic hs⟩
  · have hm := move_of_next hn
    exact ⟨hs.1.next hm, hs.2.1.next hm, hs.2.2.next hs.1 hs.2.1 hf hm⟩

/-- The recovery has run to its end: the disk is what it comes to. -/
theorem Atomic.disk_eq_outlook (h : s.Atomic) (hc : s.committing = false)
    (hr : s.recovery = none) (hb : s.Home b) : s.bufs.disk b = s.outlook b := by
  have hrun := h.running hr hc
  have hcom : s.history.committed = false := hrun.committed
  rw [outlook, hcom]
  exact hrun.shows.home b hb

/-- After any number of crashes and steps of the recovery, the disk comes to
what it came to at first. -/
theorem disk_of_crashes (h : s.ReachableBy Fits) (hb : s.Home b) {acts : List Act}
    (hacts : ∀ a ∈ acts, a = .crash ∨ a = .recover) (hc : s.committing = false)
    (hrun : runFrom Log.next s acts = some s') (hr : s'.recovery = none) :
    s'.bufs.disk b = s.outlook b := by
  induction acts generalizing s with
  | nil =>
    rw [runFrom, Option.some.injEq] at hrun
    subst hrun
    exact (atomic_of_reachable h).2.2.disk_eq_outlook hc hr hb
  | cons a acts ih =>
    obtain ⟨s1, hn, hrest⟩ := Option.bind_eq_some_iff.mp hrun
    have ha := hacts a mem_cons_self
    have hf : s.Fits a := by rcases ha with rfl | rfl <;> trivial
    obtain ⟨hout, hhome⟩ := (atomic_of_reachable h).2.2.outlook_next ha hn hb
    have hc1 : s1.committing = false := by
      cases move_of_next hn with
      | crashes => rfl
      | recovers r => cases r <;> exact hc
      | _ => simp at ha
    rw [← hout]
    exact ih (.step h hf hn) hhome (fun a ha => hacts a (mem_cons_of_mem _ ha)) hc1 hrest

/-- **Crash atomicity**: no block reaches its home before `write_head`; if the
machine stops at any time, then after any number of interrupted recoveries and
a complete one the blocks outside the log are all as the buffers were at the
commit, if `write_head` was done, and all as before the transaction if not; and
a recovery that is not interrupted does complete. -/
theorem crash_atomicity (h : s.ReachableBy Fits) :
    (s.history.committed = false → ∀ b, s.Home b → s.bufs.disk b = s.history.pre b) ∧
    (∀ acts s', (∀ a ∈ acts, a = .crash ∨ a = .recover) →
      runFrom Log.next s.crash acts = some s' → s'.recovery = none → ∀ b, s.Home b →
        s'.bufs.disk b = if s.history.committed then s.history.target b else s.history.pre b) ∧
    ∃ k s', runFrom Log.next s.crash (replicate k .recover) = some s' ∧
      s'.recovery = none := by
  obtain ⟨hi, -, hat⟩ := atomic_of_reachable h
  have hcrash : s.crash.ReachableBy Fits := .step h (a := .crash) trivial rfl
  refine ⟨fun hcom b hb => ?_, fun acts s' hacts hrun hr b hb => ?_, recovery_ends s⟩
  · cases hat.durable hi with
    | before _ hshows => exact hshows.home b hb
    | logged lh hcom' => exact absurd (hcom.symm.trans hcom') (by simp)
    | after hcom' => exact absurd (hcom.symm.trans hcom') (by simp)
  · have hdisk : s'.bufs.disk b = s.crash.outlook b := disk_of_crashes hcrash hb hacts rfl hrun hr
    exact hdisk

/-! ## A concrete run -/

instance (s : Log) (b : Nat) : Decidable (s.Home b) := inferInstanceAs (Decidable (_ ∧ _))

instance (s : Log) : DecidablePred s.Fits
  | .logSection _ => inferInstanceAs (Decidable (∀ _ ∈ _, _))
  | .beginOp _ | .logWrite _ _ _ | .endOp _ | .commit _ | .load _ | .evict _ | .crash | .recover =>
    inferInstanceAs (Decidable True)

/-- A transaction of two blocks, up to its `write_head`. -/
def twoBlocks : List Act :=
  [.beginOp 0, .logWrite 0 40 (fun _ => 1), .logSection 0, .logWrite 0 41 (fun _ => 2),
    .logSection 0, .endOp 0, .commit 0, .commit 0, .commit 0]

/-- The recovery installs the two blocks, though it is interrupted after the
first one. -/
theorem crash_atomicity_twoBlocks : ∃ s : Log, s.ReachableBy Fits ∧ s.history.committed = true ∧
    s.bufs.disk 40 0 = 0 ∧ ∃ s',
      runFrom Log.next s.crash [.recover, .recover, .crash, .recover, .recover, .recover, .recover] =
        some s' ∧ s'.recovery = none ∧ s'.bufs.disk 40 0 = 1 ∧ s'.bufs.disk 41 0 = 2 := by
  have hstart : (fresh 30).ReachableBy Fits := .start (started_fresh 30)
  obtain ⟨s, hs, hcom, hold, h40, h41, hhome40, hhome41, hend⟩ := hstart.exists_of_run
    (P := fun s => s.history.committed = true ∧ s.bufs.disk 40 0 = 0 ∧ s.history.target 40 0 = 1 ∧
      s.history.target 41 0 = 2 ∧ s.Home 40 ∧ s.Home 41 ∧
      (runFrom Log.next s.crash
        [.recover, .recover, .crash, .recover, .recover, .recover, .recover]).any
          (fun s' => s'.recovery = none) = true) twoBlocks (by decide +kernel)
  obtain ⟨s', hrun, hr⟩ := (Option.any_eq_true _ _).mp hend
  have hr' : s'.recovery = none := of_decide_eq_true hr
  have h := (crash_atomicity hs).2.1 _ s' (by simp) hrun hr'
  refine ⟨s, hs, hcom, hold, s', hrun, hr', ?_, ?_⟩
  · rw [h 40 hhome40, hcom]
    exact h40
  · rw [h 41 hhome41, hcom]
    exact h41

end Log
end Xv6
