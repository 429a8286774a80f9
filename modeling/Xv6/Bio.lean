import Xv6.Lib.DRing
import Xv6.Lib.Run
import Xv6.Param

/-!
# Xv6.Bio

The buffer cache (`bio.c`), with the disk requests of `ide.c` and the part of
`log_write` that concerns a buffer.

A stretch with `bcache.lock` held is one step, as are taking and giving up the sleep
lock of a buffer and the completion of a disk request, which never fails.  The cache is
coherent as long as who changes a buffer calls `bwrite` or `log_write` before `brelse`,
as `bio.c` and `log.c` ask.
-/

namespace Xv6.Bio

open Lib Function List

abbrev NBUF : Nat := MAXOPBLOCKS * 3

variable {α : Type}

/-- `struct buf`; `lock` is the process that holds the sleep lock. -/
structure Buf (α : Type) where
  /-- `B_VALID` -/
  valid : Bool
  /-- `B_DIRTY` -/
  dirty : Bool
  dev : Nat
  blockno : Nat
  lock : Option Nat
  refcnt : Nat
  data : α

/-- A place in the list of buffers: a buffer, or `&bcache.head`. -/
abbrev Node := Option (Fin NBUF)

/-- `bcache` -/
structure Bcache (α : Type) where
  buf : Fin NBUF → Buf α
  next : Node → Node
  prev : Node → Node

namespace Bcache

/-- `binit()`: each buffer is put in behind the head. -/
def binit (buf : Fin NBUF → Buf α) : Bcache α :=
  let links := (finRange NBUF).foldl (fun links b => pushFront links.1 links.2 none (some b))
    (fun _ => none, fun _ => none)
  { buf, next := links.1, prev := links.2 }

/-- A loop over the list ends at the head or at a buffer that passes. -/
def Ends (pass : Fin NBUF → Prop) : Node → Prop
  | none => True
  | some b => pass b

instance (pass : Fin NBUF → Prop) [DecidablePred pass] : DecidablePred (Ends pass)
  | none => inferInstanceAs (Decidable True)
  | some b => inferInstanceAs (Decidable (pass b))

/-- `b->dev == dev && b->blockno == blockno` -/
def Caches (c : Bcache α) (dev blockno : Nat) (b : Fin NBUF) : Prop :=
  (c.buf b).dev = dev ∧ (c.buf b).blockno = blockno

/-- `b->refcnt == 0 && (b->flags & B_DIRTY) == 0` -/
def Unused (c : Bcache α) (b : Fin NBUF) : Prop := (c.buf b).refcnt = 0 ∧ (c.buf b).dirty = false

instance (c : Bcache α) (dev blockno : Nat) : DecidablePred (c.Caches dev blockno) :=
  fun _ => inferInstanceAs (Decidable (_ ∧ _))

instance (c : Bcache α) : DecidablePred c.Unused := fun _ => inferInstanceAs (Decidable (_ ∧ _))

/-- The buffer `b` is changed. -/
def upd (c : Bcache α) (b : Fin NBUF) (f : Buf α → Buf α) : Bcache α :=
  { c with buf := update c.buf b (f (c.buf b)) }

/-- `bget(dev, blockno)` up to `acquiresleep`; `none` is the panic -/
def bget (c : Bcache α) (dev blockno : Nat) : Option (Bcache α × Fin NBUF) :=
  match walk c.next (Ends (c.Caches dev blockno)) (NBUF + 1) none (c.next none) with
  | none => none
  | some (_, some b) => some (c.upd b fun x => { x with refcnt := x.refcnt + 1 }, b)
  | some (_, none) =>
    match walk c.prev (Ends c.Unused) (NBUF + 1) none (c.prev none) with
    | none => none
    | some (_, none) => none
    | some (_, some b) =>
      some (c.upd b fun x =>
        { x with dev := dev, blockno := blockno, valid := false, dirty := false, refcnt := 1 }, b)

/-- `brelse(b)` after `releasesleep` -/
def brelse (c : Bcache α) (b : Fin NBUF) : Bcache α :=
  let c := c.upd b fun x => { x with refcnt := x.refcnt - 1 }
  if (c.buf b).refcnt = 0 then
    let links := unlink c.next c.prev (some b)
    let links := pushFront links.1 links.2 none (some b)
    { c with next := links.1, prev := links.2 }
  else c

end Bcache

/-! ## Processes -/

/-- The call a process is in. -/
inductive Call where
  | idle
  /-- `bread(dev, blockno)` has chosen `b` and waits for its lock -/
  | locking (b : Fin NBUF) (blockno : Nat)
  /-- `bread(dev, blockno)` has the lock of `b` -/
  | reading (b : Fin NBUF) (blockno : Nat)
  /-- `bwrite(b)` waits for the disk -/
  | writing (b : Fin NBUF)
  /-- `brelse(b)` has released the lock of `b` -/
  | releasing (b : Fin NBUF)
  deriving DecidableEq, Repr

/-- The cache, the disk and the processes.  The rest is a record of the run: the processes
that have a reference to each buffer, the data most recently stored for each block, and
whether a buffer's data has been changed since it was last written or logged. -/
structure Run (α : Type) where
  cache : Bcache α
  disk : Nat → α
  call : Nat → Call
  refs : Fin NBUF → List Nat
  latest : Nat → α
  changed : Fin NBUF → Bool

namespace Run

/-- The buffer `b`. -/
abbrev buf (s : Run α) (b : Fin NBUF) : Buf α := s.cache.buf b

/-- The buffer `b` is changed, and process `p` goes on to `c`. -/
def upd (s : Run α) (b : Fin NBUF) (f : Buf α → Buf α) (p : Nat) (c : Call) : Run α :=
  { s with cache := s.cache.upd b f, call := update s.call p c }

/-- `ideintr()` for a request of `p` for `b` -/
def ideintr (s : Run α) (p : Nat) (b : Fin NBUF) : Run α :=
  if (s.buf b).dirty then
    { s.upd b (fun x => { x with valid := true, dirty := false }) p .idle with
      disk := update s.disk (s.buf b).blockno (s.buf b).data
      changed := update s.changed b false }
  else
    s.upd b (fun x => { x with data := s.disk x.blockno, valid := true, dirty := false }) p .idle

inductive Act (α : Type) where
  /-- `bread` is called for a block of `ROOTDEV` -/
  | bget (p : Nat) (blockno : Nat)
  | acquiresleep (p : Nat)
  /-- `bread` returns, with a disk request if need be -/
  | bread (p : Nat)
  /-- the process changes the data of a buffer it holds -/
  | store (p : Nat) (b : Fin NBUF) (x : α)
  | bwrite (p : Nat) (b : Fin NBUF)
  /-- the request of `bwrite` is done -/
  | written (p : Nat)
  | logWrite (p : Nat) (b : Fin NBUF)
  | brelse (p : Nat) (b : Fin NBUF)
  /-- `brelse` gives up the reference -/
  | unref (p : Nat)

/-- Process `p` holds `b` and is in no call. -/
def Holds (s : Run α) (p : Nat) (b : Fin NBUF) : Prop := (s.buf b).lock = some p ∧ s.call p = .idle

instance (s : Run α) (p : Nat) (b : Fin NBUF) : Decidable (s.Holds p b) :=
  inferInstanceAs (Decidable (_ ∧ _))

def next (s : Run α) : Act α → Option (Run α)
  | .bget p blockno =>
    if s.call p = .idle then
      match s.cache.bget ROOTDEV blockno with
      | none => none
      | some (cache, b) =>
        some { s with
          cache
          call := update s.call p (.locking b blockno)
          refs := update s.refs b (p :: s.refs b) }
    else none
  | .acquiresleep p =>
    match s.call p with
    | .locking b blockno =>
      if (s.buf b).lock = none then
        some (s.upd b (fun x => { x with lock := some p }) p (.reading b blockno))
      else none
    | _ => none
  | .bread p =>
    match s.call p with
    | .reading b _ =>
      if (s.buf b).valid then some (s.upd b id p .idle)
      else if (s.buf b).blockno < FSSIZE then some (s.ideintr p b)
      else none
    | _ => none
  | .store p b x =>
    if s.Holds p b then
      some { s.upd b (fun y => { y with data := x }) p .idle with
        latest := update s.latest (s.buf b).blockno x
        changed := update s.changed b true }
    else none
  | .bwrite p b =>
    if s.Holds p b then some (s.upd b (fun x => { x with dirty := true }) p (.writing b)) else none
  | .written p =>
    match s.call p with
    | .writing b => if (s.buf b).blockno < FSSIZE then some (s.ideintr p b) else none
    | _ => none
  | .logWrite p b =>
    if s.Holds p b then
      some { s.upd b (fun x => { x with dirty := true }) p .idle with
        changed := update s.changed b false }
    else none
  | .brelse p b =>
    if s.Holds p b then
      some (s.upd b (fun x => { x with lock := none }) p (.releasing b))
    else none
  | .unref p =>
    match s.call p with
    | .releasing b =>
      some { s with
        cache := s.cache.brelse b
        call := update s.call p .idle
        refs := update s.refs b ((s.refs b).erase p) }
    | _ => none

/-- After `binit`: no buffer is in use. -/
structure Started (s : Run α) : Prop where
  cache : ∃ buf, s.cache = Bcache.binit buf
  buf : ∀ b, (s.buf b).valid = false ∧ (s.buf b).dirty = false ∧ (s.buf b).dev = 0 ∧
    (s.buf b).lock = none ∧ (s.buf b).refcnt = 0
  call : ∀ p, s.call p = .idle
  refs : ∀ b, s.refs b = []
  latest : s.latest = s.disk
  changed : ∀ b, s.changed b = false

/-- The states reached by steps that meet a condition. -/
abbrev ReachableBy (guard : Run α → Act α → Prop) : Run α → Prop := Reach Started next guard

/-- Who has changed a buffer has called `bwrite` or `log_write` before `brelse`. -/
def Saves (s : Run α) : Act α → Prop
  | .brelse _ b => s.changed b = false
  | _ => True

instance (s : Run α) : (a : Act α) → Decidable (s.Saves a)
  | .brelse _ b => inferInstanceAs (Decidable (s.changed b = false))
  | .bget .. | .acquiresleep _ | .bread _ | .store .. | .bwrite .. | .written _ | .logWrite ..
  | .unref _ => .isTrue trivial

end Run

/-! ## The invariant -/

/-- The call has a reference to `b` that is not the holder's. -/
def Call.Waits (b : Fin NBUF) : Call → Prop
  | .locking b' _ => b' = b
  | .releasing b' => b' = b
  | _ => False

instance (b : Fin NBUF) : DecidablePred (Call.Waits b)
  | .locking b' _ => inferInstanceAs (Decidable (b' = b))
  | .releasing b' => inferInstanceAs (Decidable (b' = b))
  | .idle => inferInstanceAs (Decidable False)
  | .reading _ _ => inferInstanceAs (Decidable False)
  | .writing _ => inferInstanceAs (Decidable False)

/-- The call is about no buffer but `b`. -/
def Call.About (b : Fin NBUF) : Call → Prop
  | .idle => True
  | .locking b' _ => b' = b
  | .reading b' _ => b' = b
  | .writing b' => b' = b
  | .releasing b' => b' = b

theorem Call.About.not_waits {c : Call} {b b' : Fin NBUF} (h : c.About b) (hne : b' ≠ b) :
    ¬ c.Waits b' := by
  cases c <;> simp_all [About, Waits, eq_comm]

theorem Call.About.not_reading {c : Call} {b b' : Fin NBUF} (h : c.About b) (hne : b' ≠ b)
    (n : Nat) :
    c ≠ .reading b' n := by
  rintro rfl
  exact hne h

namespace Run

/-- What holds of a buffer in every state. -/
structure Sound (s : Run α) (b : Fin NBUF) : Prop where
  dev : (s.buf b).valid = true ∨ 0 < (s.buf b).refcnt → (s.buf b).dev = ROOTDEV
  dirty : (s.buf b).dirty = true → (s.buf b).valid = true
  refcnt : (s.buf b).refcnt = (s.refs b).length
  /-- a process has the references that its lock and its call account for -/
  count : ∀ p, (s.refs b).count p =
    (if (s.buf b).lock = some p then 1 else 0) + if (s.call p).Waits b then 1 else 0
  changed : s.changed b = true → (s.buf b).valid = true ∧ (s.buf b).lock ≠ none
  data : (s.buf b).valid = true → (s.buf b).data = s.latest (s.buf b).blockno
  held : ∀ p, (s.buf b).lock = some p → (∀ n, s.call p ≠ .reading b n) → (s.buf b).valid = true

/-- What holds of a process in every state. -/
def Engaged (s : Run α) (p : Nat) : Prop :=
  match s.call p with
  | .idle => True
  | .locking b n => (s.buf b).blockno = n
  | .reading b n => (s.buf b).blockno = n ∧ (s.buf b).lock = some p
  | .writing b => (s.buf b).dirty = true ∧ (s.buf b).lock = some p
  | .releasing _ => True

/-- Every buffer is in the list, once. -/
def Listed (c : Bcache α) : Prop :=
  ∃ l : List (Fin NBUF), l.Nodup ∧ (∀ b, b ∈ l) ∧ DRing c.next c.prev none (none :: l.map some)

theorem Listed.upd {c : Bcache α} (h : Listed c) (b : Fin NBUF) (f : Buf α → Buf α) :
    Listed (c.upd b f) := h

variable {l : List (Fin NBUF)}

theorem nodup_nodes (h : l.Nodup) : ((none : Node) :: l.map some).Nodup := by
  refine nodup_cons.mpr ⟨by simp, h.map (Option.some_injective _)⟩

/-- A loop over all buffers, in either direction, ends at one that passes, or at the head if
there is none. -/
theorem walk_buffers {step : Node → Node} (hnodup : l.Nodup) (hall : ∀ b, b ∈ l)
    (hring : Ring step none (none :: l.map some)) (pass : Fin NBUF → Prop) [DecidablePred pass] :
    ∃ before x, walk step (Bcache.Ends pass) (NBUF + 1) none (step none) = some (before, x) ∧
      match x with
      | none => ∀ b, ¬ pass b
      | some b => pass b := by
  have hhead : Bcache.Ends pass none := trivial
  obtain ⟨P, x, Q, before, _, htest, _, halone, hwalk⟩ :=
    hring.walk_behind (nodup_nodes hnodup) mem_cons_self hhead
  have hlen : (none :: l.map some : List Node).length = NBUF + 1 := by
    have hperm : l.Perm (finRange NBUF) :=
      (perm_ext_iff_of_nodup hnodup (nodup_finRange NBUF)).mpr fun b => by simp [hall b]
    rw [length_cons, length_map, hperm.length_eq, length_finRange]
  rw [hlen] at hwalk
  refine ⟨before, x, hwalk, ?_⟩
  cases x with
  | none =>
    intro b hb
    have hmem : some b ∈ (none :: l.map some : List Node) := by simp [hall b]
    exact absurd (halone rfl (some b) hmem hb) (Option.some_ne_none b)
  | some b => exact htest

/-- **What `bget` does**: it finds the block, or recycles an unused buffer, or panics if there
is none. -/
theorem Listed.bget {c : Bcache α} (h : Listed c) (dev n : Nat) :
    (∃ b, c.Caches dev n b ∧
        c.bget dev n = some (c.upd b fun x => { x with refcnt := x.refcnt + 1 }, b)) ∨
      (∀ b, ¬ c.Caches dev n b) ∧
        ((∃ b, c.Unused b ∧ c.bget dev n = some (c.upd b fun x =>
            { x with dev := dev, blockno := n, valid := false, dirty := false, refcnt := 1 }, b)) ∨
          (∀ b, ¬ c.Unused b) ∧ c.bget dev n = none) := by
  obtain ⟨l, hnodup, hall, hring⟩ := h
  obtain ⟨before, x, hwalk, hx⟩ := walk_buffers hnodup hall hring.ring (c.Caches dev n)
  unfold Bcache.bget
  cases x with
  | some b =>
    simp only [hwalk]
    exact .inl ⟨b, hx, rfl⟩
  | none =>
    have hback : Ring c.prev none (none :: l.reverse.map some) := by
      rw [map_reverse]
      exact hring.reverse
    obtain ⟨before', y, hwalk', hy⟩ := walk_buffers (nodup_reverse.mpr hnodup)
      (fun b => mem_reverse.mpr (hall b)) hback c.Unused
    simp only [hwalk, hwalk']
    refine .inr ⟨hx, ?_⟩
    cases y with
    | some b => exact .inl ⟨b, hy, rfl⟩
    | none => exact .inr ⟨hy, rfl⟩

theorem Listed.brelse {c : Bcache α} (h : Listed c) (b : Fin NBUF) : Listed (c.brelse b) := by
  unfold Bcache.brelse
  simp only
  split
  · obtain ⟨l, hnodup, hall, hring⟩ := h
    obtain ⟨A, B, rfl⟩ := append_of_mem (hall b)
    have hnodup' := nodup_middle.mp hnodup
    obtain ⟨hb, hrest⟩ := nodup_cons.mp hnodup'
    have hlist : (none :: (A ++ b :: B).map some : List Node) =
        (none :: A.map some) ++ some b :: B.map some := by simp
    have hnodes := nodup_nodes hnodup
    rw [hlist] at hring hnodes
    have hout := hring.unlink hnodes (Option.some_ne_none b)
    have hlist' : ((none :: A.map some) ++ B.map some : List Node) =
        none :: (A ++ B).map some := by simp
    rw [hlist'] at hout
    refine ⟨b :: (A ++ B), hnodup', fun c => ?_, ?_⟩
    · have hc := hall c
      simp only [mem_append, mem_cons] at hc ⊢
      tauto
    · exact hout.pushFront (nodup_nodes hrest) (by simpa using hb)
  · exact h

theorem brelse_buf (c : Bcache α) (b : Fin NBUF) :
    (c.brelse b).buf = (c.upd b fun x => { x with refcnt := x.refcnt - 1 }).buf := by
  unfold Bcache.brelse
  simp only
  split <;> rfl

/-- The loop of `binit` puts the buffers in one by one. -/
theorem dRing_binit {links : (Node → Node) × (Node → Node)} {bs : List (Fin NBUF)}
    (h : DRing links.1 links.2 none (none :: l.map some)) (hnodup : (bs.reverse ++ l).Nodup) :
    DRing (bs.foldl (fun links b => pushFront links.1 links.2 none (some b)) links).1
      (bs.foldl (fun links b => pushFront links.1 links.2 none (some b)) links).2
      none (none :: (bs.reverse ++ l).map some) := by
  induction bs generalizing links l with
  | nil => exact h
  | cons b bs ih =>
    have hlist : (b :: bs).reverse ++ l = bs.reverse ++ (b :: l) := by simp
    rw [hlist] at hnodup ⊢
    obtain ⟨hb, hl⟩ := nodup_cons.mp (nodup_append.mp hnodup).2.1
    exact ih (h.pushFront (nodup_nodes hl) (by simpa using hb)) hnodup

theorem listed_binit (buf : Fin NBUF → Buf α) : Listed (Bcache.binit buf) := by
  have hnodup : ((finRange NBUF).reverse ++ []).Nodup := by
    rw [append_nil, nodup_reverse]
    exact nodup_finRange NBUF
  have hempty : DRing (fun _ : Node => none) (fun _ => none) none
      (none :: ([] : List (Fin NBUF)).map some) := dRing_singleton none
  exact ⟨_, hnodup, fun b => by simp, dRing_binit hempty hnodup⟩

structure Inv (s : Run α) : Prop where
  listed : Listed s.cache
  unique : ∀ b c, (s.buf b).dev = ROOTDEV → (s.buf c).dev = ROOTDEV →
    (s.buf b).blockno = (s.buf c).blockno → b = c
  sound : ∀ b, Sound s b
  engaged : ∀ p, Engaged s p
  /-- a block whose data is not on the disk is in a buffer that will be written -/
  disk : ∀ n, s.disk n = s.latest n ∨
    ∃ b, (s.buf b).dev = ROOTDEV ∧ (s.buf b).blockno = n ∧
      ((s.buf b).dirty = true ∨ s.changed b = true)

/-- A step of process `p` on the buffer `b`. -/
structure Near (s s' : Run α) (p : Nat) (b : Fin NBUF) : Prop where
  buf : ∀ c, c ≠ b → s'.buf c = s.buf c
  refs : ∀ c, c ≠ b → s'.refs c = s.refs c
  changed : ∀ c, c ≠ b → s'.changed c = s.changed c
  call : ∀ q, q ≠ p → s'.call q = s.call q
  before : (s.call p).About b
  after : (s'.call p).About b
  latest : ∀ n, s'.latest n = s.latest n ∨ (s.buf b).dev = ROOTDEV ∧ n = (s.buf b).blockno
  /-- what another process waits for or holds it keeps -/
  keeps : ∀ q, q ≠ p → ((s.buf b).lock = some q ∨ (s.call q).Waits b) →
    (s'.buf b).blockno = (s.buf b).blockno ∧
      ((s.buf b).lock = some q → (s'.buf b).lock = some q ∧ (s'.buf b).dirty = (s.buf b).dirty)

variable {s s' : Run α} {p : Nat} {b : Fin NBUF}

theorem Inv.sound_other (h : Inv s) (hn : Near s s' p b) {c : Fin NBUF} (hc : c ≠ b) :
    Sound s' c := by
  have hs := h.sound c
  exact {
    dev := by rw [hn.buf c hc]; exact hs.dev
    dirty := by rw [hn.buf c hc]; exact hs.dirty
    refcnt := by rw [hn.buf c hc, hn.refs c hc]; exact hs.refcnt
    count := fun q => by
      rw [hn.buf c hc, hn.refs c hc, hs.count q]
      by_cases hq : q = p
      · rw [hq, if_neg (hn.before.not_waits hc), if_neg (hn.after.not_waits hc)]
      · rw [hn.call q hq]
    changed := by rw [hn.buf c hc, hn.changed c hc]; exact hs.changed
    data := fun hv => by
      rw [hn.buf c hc] at hv ⊢
      rcases hn.latest (s.buf c).blockno with heq | ⟨hdev, heq⟩
      · rw [heq]
        exact hs.data hv
      · exact absurd (h.unique c b (hs.dev (.inl hv)) hdev heq) hc
    held := fun q hlock hread => by
      rw [hn.buf c hc] at hlock ⊢
      refine hs.held q hlock fun n => ?_
      by_cases hq : q = p
      · rw [hq]
        exact hn.before.not_reading hc n
      · rw [← hn.call q hq]
        exact hread n }

theorem Inv.engaged_other (h : Inv s) (hn : Near s s' p b) {q : Nat} (hq : q ≠ p) :
    Engaged s' q := by
  have hs := h.engaged q
  have hkeep := hn.keeps q hq
  have hbuf := hn.buf
  unfold Engaged at hs ⊢
  rw [hn.call q hq]
  cases hcall : s.call q with
  | idle => trivial
  | releasing c => trivial
  | locking c n =>
    simp only [hcall] at hs hkeep ⊢
    by_cases hc : c = b
    · subst hc
      exact (hkeep (.inr rfl)).1.trans hs
    · rw [hbuf c hc]
      exact hs
  | reading c n =>
    simp only [hcall] at hs hkeep ⊢
    by_cases hc : c = b
    · subst hc
      obtain ⟨hblock, hlock⟩ := hkeep (.inl hs.2)
      exact ⟨hblock.trans hs.1, (hlock hs.2).1⟩
    · rw [hbuf c hc]
      exact hs
  | writing c =>
    simp only [hcall] at hs hkeep ⊢
    by_cases hc : c = b
    · subst hc
      obtain ⟨_, hlock⟩ := hkeep (.inl hs.2)
      exact ⟨(hlock hs.2).2.trans hs.1, (hlock hs.2).1⟩
    · rw [hbuf c hc]
      exact hs

/-- A step keeps the invariant if it does so for the process and the buffer it is about. -/
theorem Inv.of_near (h : Inv s) (hn : Near s s' p b) (hlisted : Listed s'.cache)
    (hnew : ∀ c, c ≠ b → (s'.buf b).dev = ROOTDEV → (s.buf c).dev = ROOTDEV →
      (s.buf c).blockno ≠ (s'.buf b).blockno)
    (hsound : Sound s' b) (hengaged : Engaged s' p)
    (hdisk : ∀ n, s'.disk n = s'.latest n ∨
      ∃ b, (s'.buf b).dev = ROOTDEV ∧ (s'.buf b).blockno = n ∧
        ((s'.buf b).dirty = true ∨ s'.changed b = true)) : Inv s' where
  listed := hlisted
  unique c d hc hd heq := by
    by_cases hcb : c = b
    · by_cases hdb : d = b
      · rw [hcb, hdb]
      · subst hcb
        rw [hn.buf d hdb] at hd heq
        exact absurd heq.symm (hnew d hdb hc hd)
    · rw [hn.buf c hcb] at hc heq
      by_cases hdb : d = b
      · subst hdb
        exact absurd heq (hnew c hcb hd hc)
      · rw [hn.buf d hdb] at hd heq
        exact h.unique c d hc hd heq
  sound c := by
    by_cases hc : c = b
    · rw [hc]
      exact hsound
    · exact h.sound_other hn hc
  engaged q := by
    by_cases hq : q = p
    · rw [hq]
      exact hengaged
    · exact h.engaged_other hn hq
  disk := hdisk

/-! ## Steps on a buffer -/

/-- An update of the buffer `b` by `p`, with what it does to the disk and to the record. -/
def edit (s : Run α) (b : Fin NBUF) (f : Buf α → Buf α) (p : Nat) (c : Call) (disk latest : Nat → α)
    (changed : Bool) : Run α :=
  { s.upd b f p c with disk, latest, changed := update s.changed b changed }

section
variable (s : Run α) (b : Fin NBUF) (f : Buf α → Buf α) (p : Nat) (c : Call) (disk latest : Nat → α)
  (changed : Bool)

@[simp]
theorem edit_buf_self : (s.edit b f p c disk latest changed).buf b = f (s.buf b) :=
  update_self ..

@[simp]
theorem edit_call_self : (s.edit b f p c disk latest changed).call p = c := update_self ..

@[simp]
theorem edit_changed_self : (s.edit b f p c disk latest changed).changed b = changed :=
  update_self ..

@[simp]
theorem edit_refs : (s.edit b f p c disk latest changed).refs = s.refs := rfl

@[simp]
theorem edit_latest : (s.edit b f p c disk latest changed).latest = latest := rfl

variable {b p}

theorem edit_buf_of_ne {b' : Fin NBUF} (h : b' ≠ b) :
    (s.edit b f p c disk latest changed).buf b' = s.buf b' :=
  update_of_ne h ..

theorem edit_call_of_ne {q : Nat} (h : q ≠ p) :
    (s.edit b f p c disk latest changed).call q = s.call q :=
  update_of_ne h ..

end

variable {c : Call} {f : Buf α → Buf α} {changed : Bool}

/-- **An update of one buffer** that leaves its block alone keeps the invariant if what is said of
the buffer and of the process still holds. -/
theorem Inv.edit (h : Inv s) {disk latest : Nat → α}
    (hdev : (f (s.buf b)).dev = (s.buf b).dev) (hblock : (f (s.buf b)).blockno = (s.buf b).blockno)
    (hbefore : (s.call p).About b) (hafter : c.About b)
    (hkeeps : ∀ q, q ≠ p → (s.buf b).lock = some q →
      (f (s.buf b)).lock = some q ∧ (f (s.buf b)).dirty = (s.buf b).dirty)
    (hlatest : ∀ n, latest n = s.latest n ∨ (s.buf b).dev = ROOTDEV ∧ n = (s.buf b).blockno)
    (hsound : Sound (s.edit b f p c disk latest changed) b)
    (hengaged : Engaged (s.edit b f p c disk latest changed) p)
    (hdisk : ∀ n, (n = (s.buf b).blockno → (s.buf b).dev = ROOTDEV →
        disk n ≠ latest n → (f (s.buf b)).dirty = true ∨ changed = true) ∧
      ((n ≠ (s.buf b).blockno ∨ (s.buf b).dev ≠ ROOTDEV) →
        disk n = s.disk n ∧ latest n = s.latest n)) :
    Inv (s.edit b f p c disk latest changed) := by
  have hself := edit_buf_self s b f p c disk latest changed
  have hother : ∀ c', c' ≠ b → (s.edit b f p c disk latest changed).buf c' = s.buf c' :=
    fun c' hc => edit_buf_of_ne s f c disk latest changed hc
  refine h.of_near (p := p) (b := b) ?_ h.listed (fun c' hc hd hd' heq => ?_) hsound hengaged
    fun n => ?_
  · exact {
      buf := hother
      refs := fun _ _ => rfl
      changed := fun c' hc => update_of_ne hc ..
      call := fun q hq => update_of_ne hq ..
      before := hbefore
      after := by rwa [edit_call_self]
      latest := hlatest
      keeps := fun q hq _ => by
        rw [hself]
        exact ⟨hblock, hkeeps q hq⟩ }
  · rw [hself, hdev] at hd
    rw [hself, hblock] at heq
    exact hc (h.unique c' b hd' hd heq)
  · by_cases hn : n = (s.buf b).blockno ∧ (s.buf b).dev = ROOTDEV
    · by_cases heq : disk n = latest n
      · exact .inl heq
      · refine .inr ⟨b, ?_⟩
        rw [hself, edit_changed_self]
        exact ⟨hdev.trans hn.2, hblock.trans hn.1.symm, (hdisk n).1 hn.1 hn.2 heq⟩
    · obtain ⟨hd, hl⟩ := (hdisk n).2 (not_and_or.mp hn)
      rcases h.disk n with heq | ⟨c', hdev', hblock', hpend⟩
      · exact .inl (hd.trans (heq.trans hl.symm))
      have hc : c' ≠ b := by
        rintro rfl
        exact hn ⟨hblock'.symm, hdev'⟩
      refine .inr ⟨c', ?_⟩
      have hchanged : (s.edit b f p c disk latest changed).changed c' = s.changed c' :=
        update_of_ne hc ..
      rw [hother c' hc, hchanged]
      exact ⟨hdev', hblock', hpend⟩

theorem upd_eq_edit (s : Run α) (b : Fin NBUF) (f : Buf α → Buf α) (p : Nat) (c : Call) :
    s.upd b f p c = s.edit b f p c s.disk s.latest (s.changed b) := by
  simp [Run.edit, upd]

/-- A buffer to which a process has a reference is one of the device. -/
theorem Sound.referenced (h : Sound s b) (hp : (s.buf b).lock = some p ∨ (s.call p).Waits b) :
    0 < (s.buf b).refcnt ∧ (s.buf b).dev = ROOTDEV := by
  have hcount := h.count p
  have hle := count_le_length (a := p) (l := s.refs b)
  have hpos : 0 < (s.buf b).refcnt := by
    rw [h.refcnt]
    rcases hp with hlock | hwaits
    · rw [if_pos hlock] at hcount
      omega
    · rw [if_pos hwaits] at hcount
      omega
  exact ⟨hpos, h.dev (.inr hpos)⟩

/-- **A step of the holder** that leaves the buffer valid with the latest data. -/
theorem Inv.hold (h : Inv s) {disk latest : Nat → α}
    (hlock : (s.buf b).lock = some p) (hbefore : (s.call p).About b) (hwaits : ¬ (s.call p).Waits b)
    (hc : c = .idle ∨ c = .writing b ∧ (f (s.buf b)).dirty = true)
    (hkept : (f (s.buf b)).dev = (s.buf b).dev ∧ (f (s.buf b)).blockno = (s.buf b).blockno ∧
      (f (s.buf b)).refcnt = (s.buf b).refcnt ∧ (f (s.buf b)).lock = (s.buf b).lock)
    (hvalid : (f (s.buf b)).valid = true)
    (hdata : (f (s.buf b)).data = latest (s.buf b).blockno)
    (hlatest : ∀ n, n ≠ (s.buf b).blockno → disk n = s.disk n ∧ latest n = s.latest n)
    (hdisk : disk (s.buf b).blockno = latest (s.buf b).blockno ∨
      (f (s.buf b)).dirty = true ∨ changed = true) :
    Inv (s.edit b f p c disk latest changed) := by
  obtain ⟨hdev, hblock, hrefcnt, hsame⟩ := hkept
  have hs := h.sound b
  have hroot := (hs.referenced (.inl hlock)).2
  have hself := edit_buf_self s b f p c disk latest changed
  have hcall := edit_call_self s b f p c disk latest changed
  have hafter : c.About b ∧ ¬ c.Waits b := by
    rcases hc with rfl | ⟨rfl, _⟩
    · exact ⟨trivial, id⟩
    · exact ⟨rfl, id⟩
  refine h.edit hdev hblock hbefore hafter.1 (fun q hq hl => ?_) (fun n => ?_) ?_ ?_ fun n => ?_
  · rw [hlock] at hl
    exact absurd (Option.some.inj hl).symm hq
  · by_cases hn : n = (s.buf b).blockno
    · exact .inr ⟨hroot, hn⟩
    · exact .inl (hlatest n hn).2
  · exact {
      dev := by rw [hself, hdev]; exact fun _ => hroot
      dirty := by rw [hself]; exact fun _ => hvalid
      refcnt := by rw [hself, hrefcnt]; exact hs.refcnt
      count := fun q => by
        rw [hself, hsame]
        refine (hs.count q).trans ?_
        by_cases hq : q = p
        · rw [hq, hcall, if_neg hwaits, if_neg hafter.2]
        · rw [edit_call_of_ne s f c disk latest changed hq]
      changed := fun _ => by rw [hself, hsame, hlock]; exact ⟨hvalid, by simp⟩
      data := fun _ => by rw [hself, hblock]; exact hdata
      held := fun _ _ _ => by rw [hself]; exact hvalid }
  · unfold Engaged
    rw [hcall]
    rcases hc with rfl | ⟨rfl, hdirty⟩
    · trivial
    · show (Run.buf _ b).dirty = true ∧ (Run.buf _ b).lock = some p
      rw [hself, hsame]
      exact ⟨hdirty, hlock⟩
  · refine ⟨fun hn _ hne => ?_, fun hn => hlatest n (hn.resolve_right (not_not.mpr hroot))⟩
    rw [hn] at hne
    exact hdisk.resolve_left hne

/-- The data of a buffer's block is on the disk or will be written. -/
theorem Inv.pending (h : Inv s) (hdev : (s.buf b).dev = ROOTDEV) :
    s.disk (s.buf b).blockno = s.latest (s.buf b).blockno ∨
      (s.buf b).dirty = true ∨ s.changed b = true := by
  rcases h.disk (s.buf b).blockno with heq | ⟨c, hdev', hblock, hpend⟩
  · exact .inl heq
  · rw [h.unique c b hdev' hdev hblock] at hpend
    exact .inr hpend

variable {n : Nat}

theorem Inv.reading (h : Inv s) (hcall : s.call p = .reading b n) :
    (s.buf b).blockno = n ∧ (s.buf b).lock = some p := by
  have he := h.engaged p
  rwa [Engaged, hcall] at he

theorem Sound.unchanged (h : Sound s b) (hfree : (s.buf b).lock = none) : s.changed b = false := by
  by_contra hne
  exact (h.changed (by simpa using hne)).2 hfree

theorem Inv.acquiresleep (h : Inv s) (hcall : s.call p = .locking b n)
    (hfree : (s.buf b).lock = none) :
    Inv (s.upd b (fun x => { x with lock := some p }) p (.reading b n)) := by
  have hs := h.sound b
  have hwaits : (s.call p).Waits b := hcall ▸ rfl
  have hroot := hs.referenced (.inr hwaits)
  have hblock : (s.buf b).blockno = n := by
    have he := h.engaged p
    rwa [Engaged, hcall] at he
  have hchanged := hs.unchanged hfree
  rw [upd_eq_edit]
  refine h.edit rfl rfl (hcall ▸ rfl) rfl (fun q _ hl => ?_) (fun _ => .inl rfl) ?_ ?_ fun m => ?_
  · rw [hfree] at hl
    contradiction
  · constructor
    case count =>
      intro q
      refine (hs.count q).trans ?_
      by_cases hq : q = p
      · rw [hq, edit_call_self, edit_buf_self, if_pos hwaits, hfree]
        simp [Call.Waits]
      · rw [edit_call_of_ne _ _ _ _ _ _ hq, edit_buf_self, hfree]
        simp [Ne.symm hq]
    case held =>
      intro q hl hread
      rw [edit_buf_self, Option.some.injEq] at hl
      exact absurd (edit_call_self ..) (hl ▸ hread n)
    all_goals simp [hchanged, hroot.2, hs.refcnt]
    · exact hs.dirty
    · exact hs.data
  · simp [Engaged, hblock]
  · refine ⟨fun hm hd hne => ?_, fun _ => ⟨rfl, rfl⟩⟩
    exact (h.pending hd).resolve_left (hm ▸ hne)

theorem Inv.releasesleep (h : Inv s) (hholds : s.Holds p b) (hchanged : s.changed b = false) :
    Inv (s.upd b (fun x => { x with lock := none }) p (.releasing b)) := by
  obtain ⟨hlock, hidle⟩ := hholds
  have hs := h.sound b
  have hroot := hs.referenced (.inl hlock)
  rw [upd_eq_edit]
  refine h.edit rfl rfl (hidle ▸ trivial) rfl (fun q hq hl => ?_)
    (fun _ => .inl rfl) ?_ ?_ fun m => ?_
  · rw [hlock] at hl
    exact absurd (Option.some.inj hl).symm hq
  · constructor
    case count =>
      intro q
      refine (hs.count q).trans ?_
      by_cases hq : q = p
      · rw [hq, edit_call_self, edit_buf_self, hidle, hlock]
        simp [Call.Waits]
      · rw [edit_call_of_ne _ _ _ _ _ _ hq, edit_buf_self, hlock]
        simp [Ne.symm hq]
    all_goals simp [hchanged, hroot.2, hs.refcnt]
    · exact hs.dirty
    · exact hs.data
  · simp [Engaged]
  · refine ⟨fun hm hd hne => ?_, fun _ => ⟨rfl, rfl⟩⟩
    exact (h.pending hd).resolve_left (hm ▸ hne)

/-- A buffer without references is not locked, and no process is about to lock it. -/
theorem Sound.unreferenced (h : Sound s b) (hzero : (s.buf b).refcnt = 0) :
    s.refs b = [] ∧ (s.buf b).lock = none ∧ ∀ q, ¬ (s.call q).Waits b := by
  refine ⟨length_eq_zero_iff.mp (h.refcnt.symm.trans hzero), ?_, fun q hq => ?_⟩
  · cases hlock : (s.buf b).lock with
    | none => rfl
    | some q =>
      have hpos := (h.referenced (.inl hlock)).1
      omega
  · have hpos := (h.referenced (.inr hq)).1
    omega

/-- Process `p` goes on to `c` with the references to `b` changed. -/
def rewire (s : Run α) (cache : Bcache α) (b : Fin NBUF) (p : Nat) (c : Call) (refs : List Nat) :
    Run α :=
  { s with cache, call := update s.call p c, refs := update s.refs b refs }

variable {cache : Bcache α} {y : Buf α} {refs : List Nat}

section

variable (h : Inv s)
include h

/-- **A change of references** keeps the invariant if what is said of the buffer and of the
process still holds. -/
theorem Inv.rewire
    (hcache : cache.buf = update s.cache.buf b y) (hlisted : Listed cache)
    (hbefore : (s.call p).About b) (hafter : c.About b) (hlock : y.lock = (s.buf b).lock)
    (hkeeps : (s.buf b).refcnt = 0 ∧ (s.buf b).dirty = false ∨
      y.dev = (s.buf b).dev ∧ y.blockno = (s.buf b).blockno ∧ y.dirty = (s.buf b).dirty)
    (hnew : ∀ c', c' ≠ b → y.dev = ROOTDEV → (s.buf c').dev = ROOTDEV →
      (s.buf c').blockno ≠ y.blockno)
    (hsound : Sound (s.rewire cache b p c refs) b)
    (hengaged : Engaged (s.rewire cache b p c refs) p) : Inv (s.rewire cache b p c refs) := by
  have hself : (s.rewire cache b p c refs).buf b = y :=
    (congrFun hcache b).trans (update_self ..)
  have hother : ∀ c', c' ≠ b → (s.rewire cache b p c refs).buf c' = s.buf c' :=
    fun c' hc => (congrFun hcache c').trans (update_of_ne hc ..)
  have hs := h.sound b
  refine h.of_near (p := p) (b := b) ?_ hlisted (by rwa [hself]) hsound hengaged fun n => ?_
  · exact {
      buf := hother
      refs := fun c' hc => update_of_ne hc ..
      changed := fun _ _ => rfl
      call := fun q hq => update_of_ne hq ..
      before := hbefore
      after := by
        show (update s.call p c p).About b
        rwa [update_self]
      latest := fun _ => .inl rfl
      keeps := fun q _ href => by
        rw [hself, hlock]
        rcases hkeeps with ⟨hzero, _⟩ | ⟨_, hblock, hdirty⟩
        · have hpos := (hs.referenced href).1
          omega
        · exact ⟨hblock, fun hq => ⟨hq, hdirty⟩⟩ }
  · rcases h.disk n with heq | ⟨c', hdev, hblock, hpend⟩
    · exact .inl heq
    refine .inr ⟨c', ?_⟩
    by_cases hc : c' = b
    · subst hc
      rw [hself]
      rcases hkeeps with ⟨hzero, hclean⟩ | ⟨hdev', hblock', hdirty'⟩
      · have hfree := (hs.unreferenced hzero).2.1
        rcases hpend with hdirty | hchanged
        · rw [hclean] at hdirty
          contradiction
        · exact absurd hfree (hs.changed hchanged).2
      · rw [hdev', hblock', hdirty']
        exact ⟨hdev, hblock, hpend⟩
    · rw [hother c' hc]
      exact ⟨hdev, hblock, hpend⟩

theorem Inv.recount
    (hcache : cache.buf =
      update s.cache.buf b { s.buf b with refcnt := refs.length })
    (hlisted : Listed cache) (hdev : (s.buf b).dev = ROOTDEV) (hbefore : (s.call p).About b)
    (hafter : c.About b) (hnot : ∀ n, s.call p ≠ .reading b n)
    (hcount : ∀ q, refs.count q = (if (s.buf b).lock = some q then 1 else 0) +
      if (if q = p then c else s.call q).Waits b then 1 else 0)
    (hengaged : Engaged (s.rewire cache b p c refs) p) : Inv (s.rewire cache b p c refs) := by
  have hs := h.sound b
  have hself : (s.rewire cache b p c refs).buf b = { s.buf b with refcnt := refs.length } :=
    (congrFun hcache b).trans (update_self ..)
  have hrefs : (s.rewire cache b p c refs).refs b = refs := update_self ..
  have hcall : ∀ q, (s.rewire cache b p c refs).call q = if q = p then c else s.call q :=
    fun q => update_apply ..
  refine h.rewire hcache hlisted hbefore hafter rfl (.inr ⟨rfl, rfl, rfl⟩)
    (fun c' hc hd hd' heq => hc (h.unique c' b hd' hd heq)) ?_ hengaged
  exact {
    dev := by rw [hself]; exact fun _ => hdev
    dirty := by rw [hself]; exact hs.dirty
    refcnt := by rw [hself, hrefs]
    count := fun q => by rw [hself, hrefs, hcall]; exact hcount q
    changed := by rw [hself]; exact hs.changed
    data := by rw [hself]; exact hs.data
    held := fun q hlock hread => by
      rw [hself] at hlock ⊢
      refine hs.held q hlock fun n => ?_
      have hq := hread n
      rw [hcall] at hq
      by_cases hqp : q = p
      · rw [hqp]
        exact hnot n
      · rwa [if_neg hqp] at hq }

theorem Inv.bget_hit (hidle : s.call p = .idle) (hb : s.cache.Caches ROOTDEV n b) :
    Inv (s.rewire (s.cache.upd b fun x => { x with refcnt := x.refcnt + 1 }) b p (.locking b n)
      (p :: s.refs b)) := by
  have hs := h.sound b
  refine h.recount ?_ (h.listed.upd b _) hb.1 (hidle ▸ trivial) rfl (by simp [hidle])
    (fun q => ?_) ?_
  · rw [length_cons, ← hs.refcnt]
    rfl
  · by_cases hq : q = p
    · simp [hq, hs.count p, hidle, Call.Waits]
    · simp [hq, hs.count q, Ne.symm hq]
  · simp [Engaged, Run.buf, Run.rewire, Bcache.upd, hb.2]

theorem Inv.unref (hcall : s.call p = .releasing b) :
    Inv (s.rewire (s.cache.brelse b) b p .idle ((s.refs b).erase p)) := by
  have hs := h.sound b
  have hwaits : (s.call p).Waits b := hcall ▸ rfl
  have hmem : p ∈ s.refs b := by
    have hcount := hs.count p
    rw [if_pos hwaits] at hcount
    exact count_pos_iff.mp (by omega)
  refine h.recount ?_ (h.listed.brelse b) (hs.referenced (.inr hwaits)).2 (hcall ▸ rfl) trivial
    (by simp [hcall]) (fun q => ?_) ?_
  · rw [length_erase_of_mem hmem, ← hs.refcnt]
    exact brelse_buf s.cache b
  · by_cases hq : q = p
    · have hcount := hs.count p
      rw [if_pos hwaits] at hcount
      rw [hq, count_erase_self, if_pos rfl]
      simp [hcount, Call.Waits]
    · rw [count_erase_of_ne hq, if_neg hq]
      exact hs.count q
  · simp [Engaged, Run.rewire]

theorem Inv.bget_recycle (hidle : s.call p = .idle)
    (hnone : ∀ c, ¬ s.cache.Caches ROOTDEV n c) (hb : s.cache.Unused b) :
    Inv (s.rewire (s.cache.upd b fun x =>
        { x with dev := ROOTDEV, blockno := n, valid := false, dirty := false, refcnt := 1 }) b p
      (.locking b n) (p :: s.refs b)) := by
  have hs := h.sound b
  obtain ⟨hrefs, hlock, hwaits⟩ := hs.unreferenced hb.1
  have hchanged := hs.unchanged hlock
  refine h.rewire rfl (h.listed.upd b _) (hidle ▸ trivial) rfl rfl (.inl hb)
    (fun c _ _ hd heq => hnone c ⟨hd, heq⟩) ?_ ?_
  · constructor
    case count =>
      intro q
      by_cases hq : q = p
      · simp [Run.buf, Run.rewire, Bcache.upd, hq, hrefs, hlock, Call.Waits]
      · have hcall : (update s.call p (.locking b n)) q = s.call q :=
          update_of_ne hq ..
        simp [Run.buf, Run.rewire, Bcache.upd, Ne.symm hq, hrefs, hlock, hcall, hwaits q]
    all_goals simp [Run.buf, Run.rewire, Bcache.upd, hrefs, hlock, hchanged]
  · simp [Engaged, Run.buf, Run.rewire, Bcache.upd]

theorem Inv.bread (hcall : s.call p = .reading b n) :
    ((s.buf b).valid = true → Inv (s.upd b id p .idle)) ∧
      ((s.buf b).valid = false → Inv (s.ideintr p b)) := by
  have hs := h.sound b
  have hlock := (h.reading hcall).2
  have hdev := (hs.referenced (.inl hlock)).2
  have hbefore : (s.call p).About b := hcall ▸ rfl
  have hwaits : ¬ (s.call p).Waits b := by simp [hcall, Call.Waits]
  constructor
  · intro hvalid
    rw [upd_eq_edit]
    exact h.hold hlock hbefore hwaits (.inl rfl) ⟨rfl, rfl, rfl, rfl⟩ hvalid (hs.data hvalid)
      (fun _ _ => ⟨rfl, rfl⟩) (h.pending hdev)
  · intro hvalid
    have hclean : (s.buf b).dirty = false := by
      by_contra hne
      rw [hs.dirty (by simpa using hne)] at hvalid
      contradiction
    have hsame : s.disk (s.buf b).blockno = s.latest (s.buf b).blockno := by
      rcases h.pending hdev with heq | hdirty | hchanged
      · exact heq
      · rw [hclean] at hdirty
        contradiction
      · rw [(hs.changed hchanged).1] at hvalid
        contradiction
    rw [Run.ideintr, if_neg (by simp [hclean]), upd_eq_edit]
    exact h.hold hlock hbefore hwaits (.inl rfl) ⟨rfl, rfl, rfl, rfl⟩ rfl hsame
      (fun _ _ => ⟨rfl, rfl⟩) (.inl hsame)

/-- A process changes the data of a buffer it holds. -/
theorem Inv.store (hholds : s.Holds p b) (x : α) :
    Inv { s.upd b (fun y => { y with data := x }) p .idle with
      latest := update s.latest (s.buf b).blockno x
      changed := update s.changed b true } := by
  obtain ⟨hlock, hidle⟩ := hholds
  have hvalid := (h.sound b).held p hlock (by simp [hidle])
  exact h.hold hlock (hidle ▸ trivial) (by simp [hidle, Call.Waits]) (.inl rfl)
    ⟨rfl, rfl, rfl, rfl⟩ hvalid (by rw [update_self])
    (fun n hn => ⟨rfl, update_of_ne hn ..⟩) (.inr (.inr rfl))

/-- `bwrite` marks the buffer dirty and starts the request. -/
theorem Inv.bwrite (hholds : s.Holds p b) :
    Inv (s.upd b (fun x => { x with dirty := true }) p (.writing b)) := by
  obtain ⟨hlock, hidle⟩ := hholds
  have hvalid := (h.sound b).held p hlock (by simp [hidle])
  rw [upd_eq_edit]
  exact h.hold hlock (hidle ▸ trivial) (by simp [hidle, Call.Waits]) (.inr ⟨rfl, rfl⟩)
    ⟨rfl, rfl, rfl, rfl⟩ hvalid ((h.sound b).data hvalid) (fun _ _ => ⟨rfl, rfl⟩) (.inr (.inl rfl))

theorem Inv.written (hcall : s.call p = .writing b) : Inv (s.ideintr p b) := by
  obtain ⟨hdirty, hlock⟩ : (s.buf b).dirty = true ∧ (s.buf b).lock = some p := by
    have he := h.engaged p
    rwa [Engaged, hcall] at he
  have hs := h.sound b
  have hdata := hs.data (hs.dirty hdirty)
  rw [Run.ideintr, if_pos hdirty]
  exact h.hold hlock (hcall ▸ rfl) (by simp [hcall, Call.Waits]) (.inl rfl) ⟨rfl, rfl, rfl, rfl⟩ rfl
    hdata (fun n hn => ⟨update_of_ne hn .., rfl⟩)
    (.inl ((update_self ..).trans hdata))

theorem Inv.logWrite (hholds : s.Holds p b) :
    Inv { s.upd b (fun x => { x with dirty := true }) p .idle with
      changed := update s.changed b false } := by
  obtain ⟨hlock, hidle⟩ := hholds
  have hvalid := (h.sound b).held p hlock (by simp [hidle])
  exact h.hold hlock (hidle ▸ trivial) (by simp [hidle, Call.Waits]) (.inl rfl)
    ⟨rfl, rfl, rfl, rfl⟩ hvalid ((h.sound b).data hvalid) (fun _ _ => ⟨rfl, rfl⟩) (.inr (.inl rfl))

end

/-! ## Runs -/

theorem Started.inv (h : Started s) : Inv s where
  listed := by
    obtain ⟨buf, hbuf⟩ := h.cache
    rw [hbuf]
    exact listed_binit buf
  unique b c hb := by
    rw [(h.buf b).2.2.1] at hb
    contradiction
  sound b := by
    obtain ⟨hvalid, hdirty, hdev, hlock, hrefcnt⟩ := h.buf b
    constructor <;> simp [hvalid, hdirty, hlock, hrefcnt, h.refs, h.call, h.changed, Call.Waits]
  engaged p := by simp [Engaged, h.call]
  disk n := .inl (by rw [h.latest])

/-- A buffer that is referenced or dirty stays with its block. -/
def Keeps (s s' : Run α) : Prop :=
  ∀ c, 0 < (s.buf c).refcnt ∨ (s.buf c).dirty = true →
    (s'.buf c).dev = (s.buf c).dev ∧ (s'.buf c).blockno = (s.buf c).blockno

theorem keeps_of_update (hbuf : s'.cache.buf = update s.cache.buf b y)
    (hy : s.cache.Unused b ∨ y.dev = (s.buf b).dev ∧ y.blockno = (s.buf b).blockno) :
    Keeps s s' := by
  intro c hc
  show (s'.cache.buf c).dev = _ ∧ (s'.cache.buf c).blockno = _
  rw [hbuf]
  by_cases hcb : c = b
  · subst hcb
    rw [update_self]
    refine hy.resolve_left fun hunused => ?_
    rcases hc with hpos | hdirty
    · exact absurd hunused.1 hpos.ne'
    · rw [hunused.2] at hdirty
      contradiction
  · rw [update_of_ne hcb]
    exact ⟨rfl, rfl⟩

theorem keeps_ideintr (s : Run α) (p : Nat) (b : Fin NBUF) : Keeps s (s.ideintr p b) := by
  unfold Run.ideintr
  split
  · exact keeps_of_update rfl (.inr ⟨rfl, rfl⟩)
  · exact keeps_of_update rfl (.inr ⟨rfl, rfl⟩)

/-- **Every step** that saves what was changed keeps the invariant, and every step the
blocks of the buffers in use. -/
theorem Inv.next (h : Inv s) {a : Act α} (hnext : s.next a = some s') :
    (s.Saves a → Inv s') ∧ Keeps s s' := by
  cases a with
  | bget p n =>
    obtain ⟨hidle, hnext⟩ := Option.ite_none_right_eq_some.mp hnext
    rcases h.listed.bget ROOTDEV n with ⟨b, hb, hget⟩ | ⟨hnone, ⟨b, hb, hget⟩ | ⟨_, hget⟩⟩
    · rw [hget] at hnext
      cases hnext
      exact ⟨fun _ => h.bget_hit hidle hb, keeps_of_update rfl (.inr ⟨rfl, rfl⟩)⟩
    · rw [hget] at hnext
      cases hnext
      exact ⟨fun _ => h.bget_recycle hidle hnone hb, keeps_of_update rfl (.inl hb)⟩
    · rw [hget] at hnext
      contradiction
  | acquiresleep p =>
    simp only [Run.next] at hnext
    split at hnext
    · next b n hcall =>
      obtain ⟨hfree, ⟨⟩⟩ := Option.ite_none_right_eq_some.mp hnext
      exact ⟨fun _ => h.acquiresleep hcall hfree, keeps_of_update rfl (.inr ⟨rfl, rfl⟩)⟩
    · contradiction
  | bread p =>
    simp only [Run.next] at hnext
    split at hnext
    · next b n hcall =>
      split at hnext
      · next hvalid =>
        cases hnext
        exact ⟨fun _ => (h.bread hcall).1 hvalid, keeps_of_update rfl (.inr ⟨rfl, rfl⟩)⟩
      · next hvalid =>
        obtain ⟨-, ⟨⟩⟩ := Option.ite_none_right_eq_some.mp hnext
        exact ⟨fun _ => (h.bread hcall).2 (by simpa using hvalid), keeps_ideintr s p b⟩
    · contradiction
  | store p b x =>
    obtain ⟨hholds, ⟨⟩⟩ := Option.ite_none_right_eq_some.mp hnext
    exact ⟨fun _ => h.store hholds x, keeps_of_update rfl (.inr ⟨rfl, rfl⟩)⟩
  | bwrite p b =>
    obtain ⟨hholds, ⟨⟩⟩ := Option.ite_none_right_eq_some.mp hnext
    exact ⟨fun _ => h.bwrite hholds, keeps_of_update rfl (.inr ⟨rfl, rfl⟩)⟩
  | written p =>
    simp only [Run.next] at hnext
    split at hnext
    · next b hcall =>
      obtain ⟨-, ⟨⟩⟩ := Option.ite_none_right_eq_some.mp hnext
      exact ⟨fun _ => h.written hcall, keeps_ideintr s p b⟩
    · contradiction
  | logWrite p b =>
    obtain ⟨hholds, ⟨⟩⟩ := Option.ite_none_right_eq_some.mp hnext
    exact ⟨fun _ => h.logWrite hholds, keeps_of_update rfl (.inr ⟨rfl, rfl⟩)⟩
  | brelse p b =>
    obtain ⟨hholds, ⟨⟩⟩ := Option.ite_none_right_eq_some.mp hnext
    exact ⟨h.releasesleep hholds, keeps_of_update rfl (.inr ⟨rfl, rfl⟩)⟩
  | unref p =>
    simp only [Run.next] at hnext
    split at hnext
    · next b hcall =>
      cases hnext
      exact ⟨fun _ => h.unref hcall, keeps_of_update (brelse_buf s.cache b) (.inr ⟨rfl, rfl⟩)⟩
    · contradiction

/-- The buffer is in use. -/
def InUse (s : Run α) (b : Fin NBUF) : Prop :=
  (s.buf b).valid = true ∨ (s.buf b).dirty = true ∨ 0 < (s.buf b).refcnt

/-- The cache is coherent: each buffer is in the list once, a block is in one buffer at most, and
`bread` returns the block asked for with the data most recently stored for it. -/
structure Coherent (s : Run α) : Prop where
  listed : Listed s.cache
  unique : ∀ b c, s.InUse b → s.InUse c → (s.buf b).dev = (s.buf c).dev →
    (s.buf b).blockno = (s.buf c).blockno → b = c
  bread : ∀ p b n s', s.call p = .reading b n → s.next (.bread p) = some s' →
    s'.call p = .idle ∧ (s'.buf b).lock = some p ∧ (s'.buf b).dev = ROOTDEV ∧
      (s'.buf b).blockno = n ∧ (s'.buf b).data = s'.latest n
  held : ∀ p b, s.Holds p b → (s.buf b).data = s.latest (s.buf b).blockno

theorem Inv.inUse (h : Inv s) (hb : s.InUse b) : (s.buf b).dev = ROOTDEV := by
  have hs := h.sound b
  rcases hb with hvalid | hdirty | hpos
  · exact hs.dev (.inl hvalid)
  · exact hs.dev (.inl (hs.dirty hdirty))
  · exact hs.dev (.inr hpos)

theorem ideintr_self (s : Run α) (p : Nat) (b : Fin NBUF) :
    (s.ideintr p b).call p = .idle ∧ ((s.ideintr p b).buf b).lock = (s.buf b).lock ∧
      ((s.ideintr p b).buf b).blockno = (s.buf b).blockno := by
  unfold ideintr
  split <;> simp [Run.buf, upd, Bcache.upd]

theorem Inv.bread_returns (h : Inv s) (hcall : s.call p = .reading b n)
    (hnext : s.next (.bread p) = some s') :
    s'.call p = .idle ∧ (s'.buf b).lock = some p ∧ (s'.buf b).dev = ROOTDEV ∧
      (s'.buf b).blockno = n ∧ (s'.buf b).data = s'.latest n := by
  have h' := (h.next hnext).1 trivial
  obtain ⟨hblock, hlock⟩ := h.reading hcall
  obtain ⟨hidle', hlock', hblock'⟩ :
      s'.call p = .idle ∧ (s'.buf b).lock = some p ∧ (s'.buf b).blockno = n := by
    simp only [Run.next, hcall] at hnext
    split at hnext
    · cases hnext
      rw [upd_eq_edit, edit_buf_self, edit_call_self]
      exact ⟨rfl, hlock, hblock⟩
    · obtain ⟨-, ⟨⟩⟩ := Option.ite_none_right_eq_some.mp hnext
      obtain ⟨hcall', hlock', hblock'⟩ := ideintr_self s p b
      exact ⟨hcall', hlock'.trans hlock, hblock'.trans hblock⟩
  have hs' := h'.sound b
  have hdata := hs'.data (hs'.held p hlock' (by simp [hidle']))
  rw [hblock'] at hdata
  exact ⟨hidle', hlock', (hs'.referenced (.inl hlock')).2, hblock', hdata⟩

theorem inv_of_reachable (hreach : s.ReachableBy Saves) : Inv s :=
  hreach.inv Inv (fun _ => Started.inv) fun _ _ _ h hg hnext => (h.next hnext).1 hg

/-- **The buffer cache is coherent** in every state of a run that saves what it changes, and a
buffer that is referenced or dirty is never given to another block. -/
theorem coherent_of_reachable (hreach : s.ReachableBy Saves) :
    Coherent s ∧ ∀ a s', s.next a = some s' → Keeps s s' := by
  have h := inv_of_reachable hreach
  refine ⟨⟨h.listed, fun b c hb hc _ heq => ?_, fun p b n s' => h.bread_returns, fun p b hholds => ?_⟩,
    fun a s' hnext => (h.next hnext).2⟩
  · exact h.unique b c (h.inUse hb) (h.inUse hc) heq
  · obtain ⟨hlock, hidle⟩ := hholds
    exact (h.sound b).data ((h.sound b).held p hlock (by simp [hidle]))

/-- The cache after `binit`, with a disk of zeros. -/
def boot : Run Nat where
  cache := Bcache.binit fun _ => ⟨false, false, 0, 0, none, 0, 0⟩
  disk _ := 0
  call _ := .idle
  refs _ := []
  latest _ := 0
  changed _ := false

theorem started_boot : Started boot where
  cache := ⟨_, rfl⟩
  buf _ := ⟨rfl, rfl, rfl, rfl, rfl⟩
  call _ := rfl
  refs _ := rfl
  latest := rfl
  changed _ := rfl

/-- One process logs new data for block 7, another reads it. -/
theorem coherent_of_reachable_logged :
    ∃ s : Run Nat, s.call 1 = .idle ∧ s.latest 7 = 5 ∧ s.disk 7 = 0 ∧ Coherent s := by
  obtain ⟨s, hreach, hidle, hlatest, hdisk⟩ :
      ∃ s : Run Nat, s.ReachableBy Saves ∧ s.call 1 = .idle ∧ s.latest 7 = 5 ∧ s.disk 7 = 0 :=
    Reach.exists_of_run (.start started_boot)
      [.bget 0 7, .acquiresleep 0, .bread 0, .bget 1 7, .store 0 0 5, .logWrite 0 0, .brelse 0 0,
        .acquiresleep 1, .unref 0, .bread 1]
      (by decide +kernel)
  exact ⟨s, hidle, hlatest, hdisk, (coherent_of_reachable hreach).1⟩

/-- Other processes have all buffers but one.  The process 0 changes block 7 and releases the
buffer, which is then used for block 8 and again for block 7. -/
def lostChange : List (Act Nat) :=
  (List.range 29).map (fun i => .bget (i + 1) (100 + i)) ++
    [.bget 0 7, .acquiresleep 0, .bread 0, .store 0 29 5, .brelse 0 29, .unref 0,
      .bget 0 8, .acquiresleep 0, .bread 0, .brelse 0 29, .unref 0, .bget 0 7, .acquiresleep 0]

/-- The second `bread` of block 7 returns what is on the disk. -/
theorem not_coherent_lostChange :
    ∃ s : Run Nat, s.ReachableBy (fun _ _ => True) ∧ ¬ Coherent s := by
  obtain ⟨s, hreach, hcall, hread⟩ :
      ∃ s : Run Nat, s.ReachableBy (fun _ _ => True) ∧ s.call 0 = .reading 29 7 ∧
        (s.next (.bread 0)).any (fun s' => (s'.buf 29).data ≠ s'.latest 7) = true :=
    Reach.exists_of_run (.start started_boot) lostChange (by decide +kernel)
  obtain ⟨s', hnext, hne⟩ := (Option.any_eq_true _ _).mp hread
  exact ⟨s, hreach, fun h => of_decide_eq_true hne (h.bread 0 29 7 s' hcall hnext).2.2.2.2⟩

/-- **When `bget` panics**, in a run that saves what it changes: the block is in no buffer, and
every buffer is dirty, locked, or about to be locked or released by some process. -/
theorem bget_panics_iff (hreach : s.ReachableBy Saves) {p : Nat} (hidle : s.call p = .idle)
    (n : Nat) :
    s.next (.bget p n) = none ↔ (∀ b, ¬ s.cache.Caches ROOTDEV n b) ∧
      ∀ b, (s.buf b).dirty = true ∨ ∃ q, (s.buf b).lock = some q ∨ (s.call q).Waits b := by
  have h := inv_of_reachable hreach
  have hused : ∀ b, ¬ s.cache.Unused b ↔
      (s.buf b).dirty = true ∨ ∃ q, (s.buf b).lock = some q ∨ (s.call q).Waits b := by
    intro b
    have hzero : (s.buf b).refcnt = 0 ↔ ∀ q, (s.refs b).count q = 0 := by
      simp [(h.sound b).refcnt, eq_nil_iff_forall_not_mem, count_eq_zero]
    simp only [Bcache.Unused, hzero, (h.sound b).count]
    grind
  simp only [← hused, Run.next, hidle]
  rcases h.listed.bget ROOTDEV n with ⟨b, hb, heq⟩ | ⟨hnone, ⟨b, hb, heq⟩ | ⟨hb, heq⟩⟩ <;> grind

/-- Thirty processes wait for the locks of thirty buffers; the next call panics. -/
theorem bget_panics_thirty : ∃ s : Run Nat, s.ReachableBy Saves ∧ s.call 30 = .idle ∧
    s.next (.bget 30 130) = none := by
  obtain ⟨s, hreach, hidle, hnone, hall⟩ :
      ∃ s : Run Nat, s.ReachableBy Saves ∧ s.call 30 = .idle ∧
        (∀ b, ¬ s.cache.Caches ROOTDEV 130 b) ∧ ∀ b, ∃ q < 30, (s.call q).Waits b :=
    Reach.exists_of_run (.start started_boot)
      ((List.range 30).map fun i => .bget i (100 + i)) (by decide +kernel)
  refine ⟨s, hreach, hidle, (bget_panics_iff hreach hidle 130).mpr ⟨hnone, fun b => .inr ?_⟩⟩
  obtain ⟨q, -, hq⟩ := hall b
  exact ⟨q, .inr hq⟩

end Run
end Xv6.Bio
