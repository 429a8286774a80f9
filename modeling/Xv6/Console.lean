import Xv6.Lib.Ring
import Xv6.Lib.Run

/-!
# Xv6.Console

Console input (`console.c`): the characters an interrupt brings are edited into
lines, and readers take the lines from the same ring.

`cons.lock` is held through a call of `consoleintr`, and through a stretch of
`consoleread` up to its return or to a call of `sleep`: each of these is one step.
The echo and the process listing of `^P` are not modelled.
-/

namespace Xv6.Console

open Lib Function List

abbrev INPUT_BUF : Nat := 128

/-- `C(x)`, Control-x -/
def C (x : Char) : UInt8 := UInt8.ofNat (x.toNat - '@'.toNat)

/-- `'\n'` -/
abbrev newline : UInt8 := 10

/-- `'\r'` -/
abbrev carriageReturn : UInt8 := 13

/-- `'\x7f'` -/
abbrev delete : UInt8 := 127

/-- `input` -/
structure Input where
  buf : Nat → UInt8
  /-- Read index -/
  r : UInt32
  /-- Write index -/
  w : UInt32
  /-- Edit index -/
  e : UInt32

namespace Input

/-! ## With the lock held -/

/-- The loop of `^U`, at most `n` times -/
def killLine : Nat → Input → Input
  | 0, i => i
  | n + 1, i =>
    if i.e ≠ i.w ∧ i.buf ((i.e - 1).toNat % INPUT_BUF) ≠ newline then
      killLine n { i with e := i.e - 1 }
    else i

/-- One character in `consoleintr`, and whether it wakes the readers -/
def intr (i : Input) (c : UInt8) : Input × Bool :=
  if c = C 'P' then (i, false)
  else if c = C 'U' then (killLine (i.e - i.w).toNat i, false)
  else if c = C 'H' ∨ c = delete then
    if i.e ≠ i.w then ({ i with e := i.e - 1 }, false) else (i, false)
  else if c ≠ 0 ∧ i.e - i.r < UInt32.ofNat INPUT_BUF then
    let c := if c = carriageReturn then newline else c
    let i := { i with
      buf := update i.buf (i.e.toNat % INPUT_BUF) c
      e := i.e + 1 }
    if c = newline ∨ c = C 'D' ∨ i.e = i.r + UInt32.ofNat INPUT_BUF then
      ({ i with w := i.e }, true)
    else (i, false)
  else (i, false)

/-- `consoleintr` on the characters that `getc` returns -/
def consoleintr : List UInt8 → Input → Input × Bool
  | [], i => (i, false)
  | c :: cs, i =>
    let one := i.intr c
    let rest := consoleintr cs one.1
    (rest.1, one.2 || rest.2)

/-- How `consoleread` comes to release the lock. -/
inductive ReadEnd where
  /-- it returns the number of bytes it has copied; `eof` where it consumed a `^D` -/
  | returns (eof : Bool)
  /-- it returns -1 -/
  | fails
  | sleeps
  deriving DecidableEq, Repr

/-- The loop of `consoleread` with `n` bytes left, until the lock is released: the input, the
bytes copied, and how it ends. -/
def consoleread (killed : Bool) (target : Nat) : Nat → Input → Input × List UInt8 × ReadEnd
  | 0, i => (i, [], .returns false)
  | n + 1, i =>
    if i.r = i.w then
      if killed then (i, [], .fails) else (i, [], .sleeps)
    else
      let c := i.buf (i.r.toNat % INPUT_BUF)
      let i := { i with r := i.r + 1 }
      if c = C 'D' then
        -- save ^D for next time, to make sure the caller gets a 0-byte result
        if n + 1 < target then ({ i with r := i.r - 1 }, [], .returns false)
        else (i, [], .returns true)
      else if c = newline then (i, [c], .returns false)
      else
        let rest := consoleread killed target n i
        (rest.1, c :: rest.2.1, rest.2.2)

/-- The cells from one index up to another. -/
def cells (i : Input) (lo hi : UInt32) : List UInt8 :=
  (range (hi - lo).toNat).map fun j => i.buf ((lo.toNat + j) % INPUT_BUF)

end Input

/-! ## The line discipline

What the input is for, without indices: the bytes committed so far and the line
being edited. -/

/-- The committed bytes, from the first on, and the line being edited. -/
structure Lines where
  committed : List UInt8
  line : List UInt8

/-- The bytes that take up room in the input, when `taken` bytes have been read. -/
def Lines.size (l : Lines) (taken : Nat) : Nat := l.committed.length - taken + l.line.length

/-- A character typed. A line is committed by a newline, by `^D`, or when there is no room
left; without room a character is lost. -/
def Lines.type (taken : Nat) (l : Lines) (c : UInt8) : Lines :=
  if c = C 'P' then l
  else if c = C 'U' then { l with line := [] }
  else if c = C 'H' ∨ c = delete then { l with line := l.line.dropLast }
  else if c = 0 ∨ l.size taken = INPUT_BUF then l
  else
    let c := if c = carriageReturn then newline else c
    if c = newline ∨ c = C 'D' ∨ l.size taken + 1 = INPUT_BUF then
      { committed := l.committed ++ (l.line ++ [c]), line := [] }
    else { l with line := l.line ++ [c] }

theorem Lines.committed_type (taken : Nat) (l : Lines) (c : UInt8) :
    l.committed <+: (l.type taken c).committed := by
  have hrefl : l.committed <+: l.committed := prefix_refl _
  unfold Lines.type
  simp only
  split_ifs <;> first | exact hrefl | exact prefix_append _ _

/-- The input holds the lines from the first byte that has not been taken. -/
structure Input.Holds (i : Input) (l : Lines) (taken : Nat) : Prop where
  ring : RingHolds INPUT_BUF i.buf (l.committed ++ l.line) taken
  le : taken ≤ l.committed.length
  r : i.r = UInt32.ofNat taken
  w : i.w = UInt32.ofNat l.committed.length
  e : i.e = UInt32.ofNat (l.committed ++ l.line).length
  line : ∀ c ∈ l.line, c ≠ newline

namespace Input.Holds

variable {i : Input} {l : Lines} {taken : Nat}

section

variable (h : i.Holds l taken)
include h

theorem size_le : l.size taken ≤ INPUT_BUF := by
  have hroom := h.ring.room
  have hle := h.le
  rw [length_append] at hroom
  unfold Lines.size
  omega

theorem size : (i.e - i.r).toNat = l.size taken := by
  have hsize := h.size_le
  have hle := h.le
  unfold Lines.size at *
  rw [h.e, h.r, toNat_ofNat_sub h.ring.le, length_append]
  · omega
  · rw [length_append]
    simp only [INPUT_BUF] at hsize
    omega

theorem unread_size : (i.w - i.r).toNat = l.committed.length - taken := by
  have hsize := h.size_le
  unfold Lines.size at hsize
  rw [h.w, h.r]
  refine toNat_ofNat_sub h.le ?_
  simp only [INPUT_BUF] at hsize
  omega

theorem line_size : (i.e - i.w).toNat = l.line.length := by
  have hsize := h.size_le
  unfold Lines.size at hsize
  simp only [INPUT_BUF] at hsize
  rw [h.e, h.w, length_append, toNat_ofNat_sub (by omega) (by omega)]
  omega

theorem r_eq_w_iff : i.r = i.w ↔ taken = l.committed.length := by
  have hsize := h.size_le
  unfold Lines.size at hsize
  simp only [INPUT_BUF] at hsize
  rw [h.r, h.w]
  exact ofNat_eq_iff h.le (by omega)

theorem e_eq_w_iff : i.e = i.w ↔ l.line = [] := by
  have hsize := h.size_le
  unfold Lines.size at hsize
  simp only [INPUT_BUF] at hsize
  rw [h.e, h.w, eq_comm, ofNat_eq_iff (by simp) (by simp; omega)]
  simp

/-- The cells of a stretch of the bytes that are held. -/
theorem cells_eq {a b : Nat} (ha : taken ≤ a) (hab : a ≤ b)
    (hb : b ≤ (l.committed ++ l.line).length) :
    i.cells (UInt32.ofNat a) (UInt32.ofNat b) =
      ((l.committed ++ l.line).drop a).take (b - a) := by
  have hroom := h.ring.room
  simp only [INPUT_BUF] at hroom
  rw [Input.cells, toNat_ofNat_sub hab (by omega), h.ring.slice_eq ha (by omega)]
  refine map_congr_left fun j _ => ?_
  rw [← Nat.mod_add_mod, toNat_ofNat_mod (by decide), Nat.mod_add_mod]

/-- The unread bytes are the committed ones that have not been taken. -/
theorem unread : i.cells i.r i.w = l.committed.drop taken := by
  rw [h.r, h.w, h.cells_eq le_rfl h.le (by simp), drop_append_of_le_length h.le]
  exact take_left' (by simp)

theorem edited : i.cells i.w i.e = l.line := by
  rw [h.w, h.e, h.cells_eq h.le (by simp) le_rfl, drop_left]
  simp

end

/-! ### Editing -/

section

variable (h : i.Holds l taken)
include h

/-- `input.e--`, with a line that is not empty -/
theorem erase (hline : l.line ≠ []) :
    Input.Holds { i with e := i.e - 1 } { l with line := l.line.dropLast } taken := by
  have hle := h.le
  have hpos : 0 < l.line.length := length_pos_iff.mpr hline
  have hlt : taken < (l.committed ++ l.line).length := by
    rw [length_append]
    omega
  have hpred := ofNat_pred (Nat.zero_lt_of_lt hlt)
  have hdrop := h.ring.dropLast hlt
  rw [dropLast_append_of_ne_nil hline] at hdrop
  exact {
    ring := hdrop
    le := h.le
    r := h.r
    w := h.w
    e := by
      rw [← dropLast_append_of_ne_nil hline, length_dropLast, ← hpred, h.e]
    line := fun c hc => h.line c (dropLast_subset _ hc) }

/-- The character before the edit index is the last of the line, so it is no newline. -/
theorem last_ne_newline (hline : l.line ≠ []) : i.buf ((i.e - 1).toNat % INPUT_BUF) ≠ newline := by
  have hle := h.le
  have hpos : 0 < l.line.length := length_pos_iff.mpr hline
  have hlen : (l.committed ++ l.line).length = l.committed.length + l.line.length :=
    length_append
  have hcell := h.ring.cell ((l.committed ++ l.line).length - 1) (by omega) (by omega)
  rw [getElem?_append_right (by omega), ← toNat_ofNat_mod (by decide) (_ - 1),
    ← ofNat_pred (by omega), ← h.e] at hcell
  exact h.line _ (mem_of_getElem? hcell)

theorem killLine {n : Nat} (hn : l.line.length ≤ n) :
    (i.killLine n).Holds { l with line := [] } taken := by
  induction n generalizing i l with
  | zero =>
    have hnil : l.line = [] := length_eq_zero_iff.mp (Nat.le_zero.mp hn)
    have hsame : { l with line := [] } = l := by rw [← hnil]
    rw [hsame]
    exact h
  | succ n ih =>
    rw [Input.killLine]
    by_cases hline : l.line = []
    · rw [if_neg fun hgo => hgo.1 (h.e_eq_w_iff.mpr hline)]
      have hsame : { l with line := [] } = l := by rw [← hline]
      rw [hsame]
      exact h
    · rw [if_pos ⟨mt h.e_eq_w_iff.mp hline, h.last_ne_newline hline⟩]
      have hshort : l.line.dropLast.length ≤ n := by
        rw [length_dropLast]
        omega
      have hrest := ih (h.erase hline) hshort
      exact hrest

/-- `input.buf[input.e++ % INPUT_BUF] = c`, with room -/
theorem store (hroom : l.size taken < INPUT_BUF) (c : UInt8) :
    RingHolds INPUT_BUF (update i.buf (i.e.toNat % INPUT_BUF) c)
        (l.committed ++ (l.line ++ [c])) taken ∧
      i.e + 1 = UInt32.ofNat (l.committed ++ (l.line ++ [c])).length := by
  have hle := h.le
  unfold Lines.size at hroom
  have hlt : (l.committed ++ l.line).length < taken + INPUT_BUF := by
    rw [length_append]
    omega
  constructor
  · have hpush := h.ring.push hlt c
    rwa [← toNat_ofNat_mod (by decide) (l.committed ++ l.line).length, ← h.e,
      append_assoc] at hpush
  · rw [h.e, ofNat_succ, ← append_assoc, ← concat_eq_append, length_concat]

/-- A character of an interrupt is a character typed. -/
theorem intr (c : UInt8) : (i.intr c).1.Holds (l.type taken c) taken := by
  unfold Input.intr Lines.type
  by_cases hP : c = C 'P'
  · rw [if_pos hP, if_pos hP]
    exact h
  rw [if_neg hP, if_neg hP]
  by_cases hU : c = C 'U'
  · rw [if_pos hU, if_pos hU]
    exact h.killLine h.line_size.ge
  rw [if_neg hU, if_neg hU]
  by_cases hH : c = C 'H' ∨ c = delete
  · rw [if_pos hH, if_pos hH]
    by_cases hline : l.line = []
    · rw [if_neg (not_not.mpr (h.e_eq_w_iff.mpr hline)), hline, dropLast_nil, ← hline]
      exact h
    · rw [if_pos (mt h.e_eq_w_iff.mp hline)]
      exact h.erase hline
  rw [if_neg hH, if_neg hH]
  have hroom : i.e - i.r < UInt32.ofNat INPUT_BUF ↔ l.size taken ≠ INPUT_BUF := by
    have hsize := h.size_le
    rw [UInt32.lt_iff_toNat_lt, h.size, UInt32.toNat_ofNat']
    simp only [INPUT_BUF] at *
    omega
  by_cases hskip : c = 0 ∨ l.size taken = INPUT_BUF
  · rw [if_pos hskip, if_neg fun hgo => hskip.elim hgo.1 (hroom.mp hgo.2)]
    exact h
  obtain ⟨hzero, hfull⟩ := not_or.mp hskip
  rw [if_neg hskip, if_pos ⟨hzero, hroom.mpr hfull⟩]
  simp only
  generalize (if c = carriageReturn then newline else c) = c'
  obtain ⟨hring, he⟩ := h.store (lt_of_le_of_ne h.size_le hfull) c'
  have hlast : i.e + 1 = i.r + UInt32.ofNat INPUT_BUF ↔ l.size taken + 1 = INPUT_BUF := by
    have hroom := hring.room
    have hle := h.le
    have hlen : (l.committed ++ (l.line ++ [c'])).length =
        l.committed.length + l.line.length + 1 := by
      rw [length_append, length_append, length_singleton, Nat.add_assoc]
    rw [he, h.r, ← UInt32.ofNat_add, ofNat_eq_iff hroom (by simp only [INPUT_BUF]; omega), hlen,
      Lines.size]
    omega
  simp only [hlast]
  by_cases hcommit : c' = newline ∨ c' = C 'D' ∨ l.size taken + 1 = INPUT_BUF
  · rw [if_pos hcommit, if_pos hcommit]
    exact {
      ring := by
        rw [append_nil]
        exact hring
      le := by
        rw [length_append]
        exact h.le.trans (Nat.le_add_right ..)
      r := h.r
      w := he
      e := by
        rw [append_nil]
        exact he
      line := by simp }
  · rw [if_neg hcommit, if_neg hcommit]
    have hline : ∀ b ∈ l.line ++ [c'], b ≠ newline := by
      intro b hb
      rcases mem_append.mp hb with hb | hb
      · exact h.line b hb
      · rw [mem_singleton.mp hb]
        exact fun hnl => hcommit (.inl hnl)
    exact ⟨hring, h.le, h.r, h.w, he, hline⟩

theorem consoleintr (cs : List UInt8) :
    (i.consoleintr cs).1.Holds (cs.foldl (Lines.type taken) l) taken := by
  induction cs generalizing i l with
  | nil => exact h
  | cons c cs ih => exact ih (h.intr c)

end

/-! ### Reading -/

/-- `input.buf[input.r % INPUT_BUF]` is the next committed byte. -/
theorem next (h : i.Holds l taken) (hne : i.r ≠ i.w) :
    l.committed[taken]? = some (i.buf (i.r.toNat % INPUT_BUF)) ∧
      Input.Holds { i with r := i.r + 1 } l (taken + 1) := by
  have hlt : taken < l.committed.length := lt_of_le_of_ne h.le (mt h.r_eq_w_iff.mpr hne)
  have hlen : taken < (l.committed ++ l.line).length := by
    rw [length_append]
    omega
  obtain ⟨hcell, hpop⟩ := h.ring.pop hlen
  rw [getElem?_append_left hlt, ← toNat_ofNat_mod (by decide) taken, ← h.r] at hcell
  exact ⟨hcell, hpop, hlt, by rw [← ofNat_succ, ← h.r], h.w, h.e, h.line⟩

end Input.Holds

/-- What a stretch of `consoleread` does: it takes the next committed bytes, copies them but
for a `^D`, and takes a `^D` only if the call has copied nothing. -/
structure Reads (l : Lines) (taken target n : Nat) (r : Input × List UInt8 × Input.ReadEnd)
    (took : List UInt8) : Prop where
  holds : r.1.Holds l (taken + took.length)
  slice : (l.committed.drop taken).take took.length = took
  copied : r.2.1 = took.filter (· ≠ C 'D')
  len : r.2.1.length ≤ n
  eof : r.2.2 = .returns true → took = [C 'D'] ∧ n = target
  bytes : r.2.2 ≠ .returns true → C 'D' ∉ took
  sleeps : r.2.2 = .sleeps → r.2.1.length < n

variable {l : Lines} {taken target n : Nat} {r : Input × List UInt8 × Input.ReadEnd}
  {took : List UInt8}

/-- A stretch that consumes no `^D` copies all it takes. -/
theorem Reads.copied_eq (h : Reads l taken target n r took) (hend : r.2.2 ≠ .returns true) :
    r.2.1 = took := by
  rw [h.copied, filter_eq_self]
  intro c hc
  have hne : c ≠ C 'D' := fun heq => h.bytes hend (heq ▸ hc)
  simpa using hne

theorem Reads.nothing {i : Input} (h : i.Holds l taken)
    {how : Input.ReadEnd} (heof : how ≠ .returns true) (hsleeps : how = .sleeps → 0 < n) :
    Reads l taken target n (i, [], how) [] :=
  ⟨h, rfl, rfl, Nat.zero_le n, fun hend => absurd hend heof, fun _ => not_mem_nil, hsleeps⟩

/-- The next committed byte, copied, and then a stretch. -/
theorem Reads.cons {c : UInt8} (h : Reads l (taken + 1) target n r took)
    (hnext : l.committed[taken]? = some c) (hc : c ≠ C 'D') (hn : n ≠ target) :
    Reads l taken target (n + 1) (r.1, c :: r.2.1, r.2.2) (c :: took) where
  holds := by
    rw [length_cons, Nat.add_comm _ 1, ← Nat.add_assoc]
    exact h.holds
  slice := by
    obtain ⟨hlt, hget⟩ := List.getElem?_eq_some_iff.mp hnext
    rw [drop_eq_getElem_cons hlt, length_cons, take_succ_cons, h.slice, hget]
  copied := by simp [hc, h.copied]
  len := Nat.succ_le_succ h.len
  eof hend := absurd (h.eof hend).2 hn
  bytes hend := by simp [h.bytes hend, Ne.symm hc]
  sleeps hend := Nat.succ_lt_succ (h.sleeps hend)

theorem Input.Holds.consoleread {i : Input} (h : i.Holds l taken) (killed : Bool)
    (hn : n ≤ target) :
    ∃ took, Reads l taken target n (Input.consoleread killed target n i) took := by
  induction n generalizing i taken with
  | zero => exact ⟨[], .nothing h (by decide) (by simp)⟩
  | succ n ih =>
    rw [Input.consoleread]
    by_cases hempty : i.r = i.w
    · rw [if_pos hempty]
      refine ⟨[], ?_⟩
      split
      · exact .nothing h (by decide) (by simp)
      · exact .nothing h (by decide) (by simp)
    · rw [if_neg hempty]
      obtain ⟨hnext, hholds⟩ := h.next hempty
      simp only
      generalize i.buf (i.r.toNat % INPUT_BUF) = c at hnext ⊢
      by_cases hD : c = C 'D'
      · rw [if_pos hD]
        by_cases hsome : n + 1 < target
        · rw [if_pos hsome, UInt32.add_sub_cancel]
          exact ⟨[], .nothing h (by decide) (by simp)⟩
        rw [if_neg hsome]
        subst hD
        obtain ⟨hlt, hget⟩ := List.getElem?_eq_some_iff.mp hnext
        refine ⟨[C 'D'], hholds, ?_, by simp, by simp, fun _ => ⟨rfl, by omega⟩, by simp, by simp⟩
        rw [drop_eq_getElem_cons hlt, hget]
        rfl
      · rw [if_neg hD]
        have hne : n ≠ target := by omega
        by_cases hnl : c = newline
        · rw [if_pos hnl]
          exact ⟨[c], .cons (.nothing hholds (by decide) (by simp)) hnext hD hne⟩
        · rw [if_neg hnl]
          obtain ⟨took, hrest⟩ := ih hholds (by omega)
          exact ⟨c :: took, hrest.cons hnext hD hne⟩

/-! ## Readers and interrupts -/

/-- A call of `consoleread` in progress: its `target`, the bytes `n` it still wants, and what
it has copied. -/
structure Task where
  target : Nat
  n : Nat
  got : List UInt8

/-- A call of `consoleread` that has returned: what it has copied, whether it consumed a `^D`,
and its result. -/
structure Call where
  got : List UInt8
  eof : Bool
  result : Int
  deriving DecidableEq, Repr

/-- The console and the processes that read it; `asleep` are those `SLEEPING` on
`&input.r`.  The rest is a record of the run: the lines typed, the bytes taken from the input,
the bytes copied to readers, and the calls that have returned. -/
structure Run where
  input : Input
  task : Nat → Option Task
  asleep : Nat → Bool
  killed : Nat → Bool
  lines : Lines
  taken : List UInt8
  delivered : List UInt8
  calls : List Call

namespace Run

/-- An interrupt that brings the characters `cs`. -/
def interrupt (s : Run) (cs : List UInt8) : Run :=
  let r := s.input.consoleintr cs
  { s with
    input := r.1
    asleep := if r.2 then fun _ => false else s.asleep
    lines := cs.foldl (Lines.type s.taken.length) s.lines }

/-- Process `p` has the lock in `consoleread`. -/
def readOn (s : Run) (p : Nat) (t : Task) : Run :=
  let r := Input.consoleread (s.killed p) t.target t.n s.input
  let got := t.got ++ r.2.1
  let n := t.n - r.2.1.length
  let s := { s with
    input := r.1
    taken := s.taken ++ r.2.1
    delivered := s.delivered ++ r.2.1 }
  match r.2.2 with
  | .returns eof =>
    { s with
      task := update s.task p none
      taken := if eof then s.taken ++ [C 'D'] else s.taken
      calls := s.calls ++ [{ got, eof, result := t.target - n }] }
  | .fails =>
    { s with
      task := update s.task p none
      calls := s.calls ++ [{ got, eof := false, result := -1 }] }
  | .sleeps =>
    { s with
      task := update s.task p (some { target := t.target, n, got })
      asleep := update s.asleep p true }

inductive Act where
  /-- `consoleintr` -/
  | interrupt (cs : List UInt8)
  /-- process `p` calls `consoleread` for `n` bytes -/
  | read (p : Nat) (n : Int)
  /-- process `p`, which is not asleep, acquires the lock again -/
  | resume (p : Nat)
  /-- `kill` of process `p`; it is `late` where it comes after the last test of `killed`
  and before `sleep` has made the process `SLEEPING` -/
  | kill (p : Nat) (late : Bool)

def next (s : Run) : Act → Option Run
  | .interrupt cs => some (s.interrupt cs)
  | .read p n =>
    if s.task p = none then some (s.readOn p { target := n.toNat, n := n.toNat, got := [] })
    else none
  | .resume p =>
    match s.task p with
    | none => none
    | some t => if s.asleep p = false then some (s.readOn p t) else none
  | .kill p late =>
    some { s with
      killed := update s.killed p true
      asleep := if late then s.asleep else update s.asleep p false }

/-- The console as it boots. -/
structure Started (s : Run) : Prop where
  r : s.input.r = 0
  w : s.input.w = 0
  e : s.input.e = 0
  task : ∀ p, s.task p = none
  lines : s.lines = ⟨[], []⟩
  taken : s.taken = []
  delivered : s.delivered = []
  calls : s.calls = []

abbrev Reachable : Run → Prop := Reach Started next fun _ _ => True

/-! ## What readers get -/

/-- The console keeps to the line discipline. -/
structure Disciplined (s : Run) : Prop where
  window : (s.input.w - s.input.r).toNat ≤ (s.input.e - s.input.r).toNat ∧
    (s.input.e - s.input.r).toNat ≤ INPUT_BUF
  /-- what was committed has been taken or is unread in the input -/
  order : s.lines.committed = s.taken ++ s.input.cells s.input.r s.input.w
  editing : s.lines.line = s.input.cells s.input.w s.input.e
  /-- readers get what is taken but for the `^D`s -/
  delivered : s.delivered = s.taken.filter (· ≠ C 'D')
  /-- each `^D` taken ended a call, which returned no byte -/
  eofs : s.taken.count (C 'D') = s.calls.countP (·.eof)
  eof : ∀ c ∈ s.calls, c.eof = true → c.got = [] ∧ c.result = 0
  results : ∀ c ∈ s.calls, c.result = -1 ∨ c.result = c.got.length
  /-- a call that finds a `^D` first consumes it -/
  first : (s.input.cells s.input.r s.input.w).head? = some (C 'D') → ∀ p (n : Nat), 0 < n →
    (s.readOn p { target := n, n := n, got := [] }).calls =
      s.calls ++ [{ got := [], eof := true, result := 0 }]

/-- The input stands where the record of the run says. -/
structure Kept (s : Run) : Prop where
  holds : s.input.Holds s.lines s.taken.length
  taken : s.lines.committed.take s.taken.length = s.taken
  delivered : s.delivered = s.taken.filter (· ≠ C 'D')

/-- The calls that have returned and those in progress. -/
structure Settled (s : Run) : Prop where
  eofs : s.taken.count (C 'D') = s.calls.countP (·.eof)
  eof : ∀ c ∈ s.calls, c.eof = true → c.got = [] ∧ c.result = 0
  results : ∀ c ∈ s.calls, c.result = -1 ∨ c.result = c.got.length
  tasks : ∀ p t, s.task p = some t → t.n + t.got.length = t.target

variable {s s' : Run} {p : Nat} {t : Task}

theorem Started.kept (h : Started s) : Kept s where
  holds := by
    rw [h.lines, h.taken]
    exact ⟨ringHolds_nil _ _, le_rfl, h.r, h.w, h.e, by simp⟩
  taken := by rw [h.lines, h.taken, take_nil]
  delivered := by rw [h.delivered, h.taken, filter_nil]

theorem Started.settled (h : Started s) : Settled s where
  eofs := by rw [h.taken, h.calls, count_nil, countP_nil]
  eof := by simp [h.calls]
  results := by simp [h.calls]
  tasks := by simp [h.task]

theorem committed_foldl (taken : Nat) (cs : List UInt8) (l : Lines) :
    l.committed <+: (cs.foldl (Lines.type taken) l).committed := by
  induction cs generalizing l with
  | nil => exact prefix_refl _
  | cons c cs ih => exact (l.committed_type taken c).trans (ih _)

theorem Kept.interrupt (h : Kept s) (cs : List UInt8) : Kept (s.interrupt cs) where
  holds := h.holds.consoleintr cs
  taken := by
    obtain ⟨more, hmore⟩ := committed_foldl s.taken.length cs s.lines
    show ((cs.foldl (Lines.type s.taken.length) s.lines).committed).take s.taken.length = s.taken
    rw [← hmore, take_append_of_le_length h.holds.le, h.taken]
  delivered := h.delivered

theorem readOn_input (s : Run) (p : Nat) (t : Task) :
    (s.readOn p t).input = (Input.consoleread (s.killed p) t.target t.n s.input).1 := by
  simp only [readOn]
  split <;> rfl

theorem readOn_lines (s : Run) (p : Nat) (t : Task) : (s.readOn p t).lines = s.lines := by
  simp only [readOn]
  split <;> rfl

theorem readOn_delivered (s : Run) (p : Nat) (t : Task) :
    (s.readOn p t).delivered =
      s.delivered ++ (Input.consoleread (s.killed p) t.target t.n s.input).2.1 := by
  simp only [readOn]
  split <;> rfl

/-- The bytes taken in a stretch of `consoleread` are those copied, and a `^D` at its end. -/
theorem readOn_taken {took : List UInt8}
    (hr : Reads s.lines s.taken.length t.target t.n
      (Input.consoleread (s.killed p) t.target t.n s.input) took) :
    (s.readOn p t).taken = s.taken ++ took := by
  have hall := hr.copied_eq
  simp only [readOn]
  split
  · next eof hend =>
    cases eof with
    | true =>
      have htook := (hr.eof hend).1
      have hnone : (Input.consoleread (s.killed p) t.target t.n s.input).2.1 = [] := by
        rw [hr.copied, htook]
        rfl
      simp [hnone, htook]
    | false => exact congrArg (s.taken ++ ·) (hall (by simp [hend]))
  · next hend => exact congrArg (s.taken ++ ·) (hall (by simp [hend]))
  · next hend => exact congrArg (s.taken ++ ·) (hall (by simp [hend]))

theorem Kept.readOn (h : Kept s) (ht : t.n ≤ t.target) : Kept (s.readOn p t) := by
  obtain ⟨took, hr⟩ := h.holds.consoleread (s.killed p) ht
  have htaken := readOn_taken hr
  exact {
    holds := by
      rw [readOn_input, readOn_lines, htaken, length_append]
      exact hr.holds
    taken := by rw [readOn_lines, htaken, length_append, take_add, h.taken, hr.slice]
    delivered := by
      rw [readOn_delivered, htaken, filter_append, h.delivered, hr.copied] }

theorem Settled.returned (h : Settled s) {c : Call} {took : List UInt8}
    (hcalls : s'.calls = s.calls ++ [c]) (htaken : s'.taken = s.taken ++ took)
    (htask : s'.task = update s.task p none) (hcount : took.count (C 'D') = if c.eof then 1 else 0)
    (heof : c.eof = true → c.got = [] ∧ c.result = 0)
    (hresult : c.result = -1 ∨ c.result = c.got.length) : Settled s' where
  eofs := by simp [hcalls, htaken, h.eofs, hcount, countP_cons]
  eof b hb := by
    rw [hcalls] at hb
    rcases mem_append.mp hb with hb | hb
    · exact h.eof b hb
    · rw [mem_singleton.mp hb]
      exact heof
  results b hb := by
    rw [hcalls] at hb
    rcases mem_append.mp hb with hb | hb
    · exact h.results b hb
    · rw [mem_singleton.mp hb]
      exact hresult
  tasks q u hq := by
    rw [htask] at hq
    by_cases hqp : q = p
    · rw [hqp, update_self] at hq
      contradiction
    · rw [update_of_ne hqp] at hq
      exact h.tasks q u hq

theorem Settled.readOn (h : Settled s) (hk : Kept s) (ht : t.n + t.got.length = t.target) :
    Settled (s.readOn p t) := by
  obtain ⟨took, hr⟩ := hk.holds.consoleread (s.killed p) (by omega : t.n ≤ t.target)
  have htaken := readOn_taken hr
  have hlen := hr.len
  have hcount : (Input.consoleread (s.killed p) t.target t.n s.input).2.2 ≠ .returns true →
      took.count (C 'D') = 0 := fun hend => count_eq_zero.mpr (hr.bytes hend)
  have hresult : (t.target : Int) -
      ((t.n - (Input.consoleread (s.killed p) t.target t.n s.input).2.1.length : Nat) : Int) =
        ((t.got ++ (Input.consoleread (s.killed p) t.target t.n s.input).2.1).length : Int) := by
    rw [length_append]
    omega
  simp only [Run.readOn] at htaken ⊢
  split at htaken
  · next eof hend =>
    cases eof with
    | true =>
      obtain ⟨htook, hfirst⟩ := hr.eof hend
      have hnone : (Input.consoleread (s.killed p) t.target t.n s.input).2.1 = [] := by
        rw [hr.copied, htook]
        rfl
      have hgot : t.got = [] := length_eq_zero_iff.mp (by omega)
      refine h.returned rfl htaken rfl (by simp [htook]) (fun _ => ⟨?_, hresult.trans ?_⟩)
        (.inr hresult)
      · simp only [hnone, hgot, append_nil]
      · simp only [hnone, hgot, append_nil, length_nil, Nat.cast_zero]
    | false => exact h.returned rfl htaken rfl (hcount (by simp [hend])) (by simp) (.inr hresult)
  · next hend => exact h.returned rfl htaken rfl (hcount (by simp [hend])) (by simp) (.inl rfl)
  · next hend =>
    refine ⟨?_, h.eof, h.results, fun q u hq => ?_⟩
    · rw [htaken, count_append, hcount (by simp [hend])]
      exact h.eofs
    · by_cases hqp : q = p
      · simp only [hqp, update_self, Option.some.injEq] at hq
        subst hq
        simp only [length_append]
        omega
      · simp only [update_of_ne hqp] at hq
        exact h.tasks q u hq

/-- A step is an interrupt, a stretch of a call, or a kill. -/
theorem next_cases {a : Act} (hnext : s.next a = some s') :
    (∃ cs, s' = s.interrupt cs) ∨
      (∃ p t, s' = s.readOn p t ∧ (t.n = t.target ∧ t.got = [] ∨ s.task p = some t)) ∨
      ∃ killed asleep, s' = { s with killed, asleep } := by
  cases a with
  | interrupt cs =>
    cases hnext
    exact .inl ⟨cs, rfl⟩
  | read p n =>
    simp only [next] at hnext
    split at hnext
    · cases hnext
      exact .inr (.inl ⟨p, _, rfl, .inl ⟨rfl, rfl⟩⟩)
    · contradiction
  | resume p =>
    simp only [next] at hnext
    split at hnext
    · contradiction
    next t ht =>
    split at hnext
    · cases hnext
      exact .inr (.inl ⟨p, t, rfl, .inr ht⟩)
    · contradiction
  | kill p late =>
    cases hnext
    exact .inr (.inr ⟨_, _, rfl⟩)

theorem Settled.next (h : Settled s) (hk : Kept s) {a : Act} (hnext : s.next a = some s') :
    Kept s' ∧ Settled s' := by
  rcases next_cases hnext with ⟨cs, rfl⟩ | ⟨p, t, rfl, ht⟩ | ⟨killed, asleep, rfl⟩
  · exact ⟨hk.interrupt cs, h.eofs, h.eof, h.results, h.tasks⟩
  · have hn : t.n + t.got.length = t.target := by
      rcases ht with ⟨hn, hgot⟩ | ht
      · rw [hn, hgot]
        rfl
      · exact h.tasks p t ht
    exact ⟨hk.readOn (by omega), h.readOn hk hn⟩
  · exact ⟨⟨hk.holds, hk.taken, hk.delivered⟩, h.eofs, h.eof, h.results, h.tasks⟩

/-- A call that finds a `^D` first consumes it and returns no byte. -/
theorem Kept.first (h : Kept s) (hfirst : (s.input.cells s.input.r s.input.w).head? = some (C 'D'))
    (p : Nat) {n : Nat} (hn : 0 < n) : (s.readOn p { target := n, n := n, got := [] }).calls =
      s.calls ++ [{ got := [], eof := true, result := 0 }] := by
  obtain ⟨m, rfl⟩ : ∃ m, n = m + 1 := ⟨n - 1, by omega⟩
  rw [h.holds.unread, head?_drop] at hfirst
  have hne : s.input.r ≠ s.input.w := by
    intro heq
    rw [h.holds.r_eq_w_iff.mp heq, getElem?_eq_none le_rfl] at hfirst
    contradiction
  have hcell := (h.holds.next hne).1
  rw [hfirst, Option.some.injEq] at hcell
  simp only [Run.readOn, Input.consoleread, if_neg hne, ← hcell]
  simp

theorem Settled.disciplined (h : Settled s) (hk : Kept s) : Disciplined s where
  window := by
    have hsize := hk.holds.size_le
    rw [hk.holds.size, hk.holds.unread_size]
    exact ⟨Nat.le_add_right .., hsize⟩
  order := by
    rw [hk.holds.unread]
    conv_lhs => rw [← take_append_drop s.taken.length s.lines.committed, hk.taken]
  editing := hk.holds.edited.symm
  delivered := hk.delivered
  eofs := h.eofs
  eof := h.eof
  results := h.results
  first hD p _ hn := hk.first hD p hn

/-- **The line discipline**: whatever characters come and whoever reads, the indices stay in
order and within the buffer, readers are given what was committed in its order, and a
`^D` taken is a read that returns no byte.  What is committed is never taken back. -/
theorem disciplined_of_reachable (h : Reachable s) :
    Disciplined s ∧ ∀ a s', s.next a = some s' → s.lines.committed <+: s'.lines.committed := by
  have hinv : Kept s ∧ Settled s :=
    h.inv (fun s => Kept s ∧ Settled s) (fun _ hs => ⟨hs.kept, hs.settled⟩)
      fun _ _ _ hs _ hnext => hs.2.next hs.1 hnext
  refine ⟨hinv.2.disciplined hinv.1, fun a s' hnext => ?_⟩
  rcases next_cases hnext with ⟨cs, rfl⟩ | ⟨p, t, rfl, _⟩ | ⟨killed, asleep, rfl⟩
  · exact committed_foldl s.taken.length cs s.lines
  · rw [readOn_lines]
  · exact prefix_refl _

/-- The console as it boots, with no reader. -/
def boot : Run where
  input := { buf := fun _ => 0, r := 0, w := 0, e := 0 }
  task _ := none
  asleep _ := false
  killed _ := false
  lines := ⟨[], []⟩
  taken := []
  delivered := []
  calls := []

theorem started_boot : Started boot := ⟨rfl, rfl, rfl, fun _ => rfl, rfl, rfl, rfl, rfl⟩

/-- `ax^Hb^M^D` for two readers: the first gets the edited line, the second no byte. -/
theorem disciplined_of_reachable_line :
    ∃ s, s.delivered = [97, 98, newline] ∧
      s.calls = [⟨[97, 98, newline], false, 3⟩, ⟨[], true, 0⟩] ∧ Disciplined s := by
  obtain ⟨s, hreach, hdelivered, hcalls⟩ : ∃ s, Reachable s ∧ s.delivered = [97, 98, newline] ∧
      s.calls = [⟨[97, 98, newline], false, 3⟩, ⟨[], true, 0⟩] :=
    Reach.exists_of_run (.start started_boot)
      [.read 0 10, .interrupt [97, 120, C 'H', 98, carriageReturn, C 'D'], .resume 0, .read 1 5]
      (by decide +kernel)
  exact ⟨s, hdelivered, hcalls, (disciplined_of_reachable hreach).1⟩

end Run
end Xv6.Console
