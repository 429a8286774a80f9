import Mathlib

/-!
# Xv6.ProjShell

The shell of the first project (`proj_shell/shell.c`): how `parseAndExecute` cuts
a line into statements and words, and what it passes to `execvp`.

`calloc` returns zeroed memory; what `realloc` appends is unspecified, and is an
argument of the functions that call it.
-/

namespace Xv6.ProjShell

open List

/-- The bytes of a C string, without the `NUL`. -/
abbrev Str := List UInt8

/-- `' '` -/
abbrev SPACE : UInt8 := 32

/-- `';'` -/
abbrev SEMICOLON : UInt8 := 59

/-- `"quit"` -/
abbrev QUIT : Str := [113, 117, 105, 116]

/-! ## Tokens -/

/-- `strtok(s, d)`: the next token and what follows it. -/
def strtok (d : UInt8) (s : Str) : Option (Str × Str) :=
  match s.dropWhile (· == d) with
  | [] => none
  | c :: s => some (c :: s.takeWhile (· != d), (s.dropWhile (· != d)).tail)

theorem length_lt_of_strtok {d : UInt8} {s t rest : Str} (h : strtok d s = some (t, rest)) :
    rest.length < s.length := by
  have hle := (dropWhile_suffix (l := s) (· == d)).length_le
  unfold strtok at h
  split at h
  · contradiction
  next c s' hs =>
  cases h
  have := (dropWhile_suffix (l := s') (· != d)).length_le
  rw [hs, length_cons] at hle
  rw [length_tail]
  omega

/-- The tokens of `strtok` up to the `NULL`. -/
def tokens (d : UInt8) (s : Str) : List Str :=
  match _h : strtok d s with
  | none => []
  | some (t, rest) => t :: tokens d rest
  termination_by s.length
  decreasing_by exact length_lt_of_strtok _h

/-- The parts of `s` between the bytes `d`, without the empty ones. -/
def parts (d : UInt8) (s : Str) : List Str := (s.splitOn d).filter (· ≠ [])

theorem parts_dropWhile (d : UInt8) (s : Str) : parts d (s.dropWhile (· == d)) = parts d s := by
  induction s with
  | nil => rfl
  | cons c s ih =>
    by_cases hc : c = d
    · simp_all [parts, splitOn, splitOnP_cons_eq_if_modifyHead]
    · simp [hc]

theorem parts_cons {d c : UInt8} (hc : c ≠ d) (s : Str) : parts d (c :: s) =
    (c :: s.takeWhile (· != d)) :: parts d (s.dropWhile (· != d)).tail := by
  have hword : ∀ x ∈ c :: s.takeWhile (· != d), (x == d) = false := by
    intro x hx
    rcases mem_cons.mp hx with rfl | hx
    · simpa using hc
    · simpa using mem_takeWhile_imp hx
  conv_lhs => rw [← s.takeWhile_append_dropWhile (p := (· != d)), ← cons_append]
  cases hrest : s.dropWhile (· != d) with
  | nil => simp [parts, splitOn, splitOnP_eq_singleton hword]
  | cons x rest =>
    have hx : (x == d) = true := by
      have := head?_dropWhile_not (· != d) s
      simpa [hrest] using this
    rw [parts, splitOn, splitOnP_append_cons_of_forall_mem hword x hx]
    simp [parts, splitOn]

/-- **`strtok` yields the non-empty parts.** -/
theorem tokens_eq (d : UInt8) (s : Str) : tokens d s = parts d s := by
  fun_induction tokens d s with
  | case1 s h =>
    rw [← parts_dropWhile]
    unfold strtok at h
    split at h
    · next hs => simp [hs, parts]
    · contradiction
  | case2 s t rest h ih =>
    rw [ih, ← parts_dropWhile d s]
    unfold strtok at h
    split at h
    · contradiction
    next c s' hs =>
    cases h
    have hc : c ≠ d := by
      have := head?_dropWhile_not (· == d) s
      simpa [hs] using this
    rw [hs, parts_cons hc]

/-! ## Growing arrays -/

/-- An array of pointers, `none` for `NULL`, of which the first `idx` are set. -/
structure Args where
  slots : List (Option Str)
  idx : Nat

variable (junk : Nat → Nat → Option Str)

/-- `realloc(slots, n * sizeof(char*))`, where `junk n` is what the memory of `n` slots holds. -/
def realloc (slots : List (Option Str)) (n : Nat) : List (Option Str) :=
  slots ++ (range' slots.length (n - slots.length)).map (junk n)

/-- A further token is added. -/
def Args.add (a : Args) (token : Str) : Args :=
  let slots :=
    if a.slots.length = a.idx then realloc junk a.slots (a.slots.length * 2) else a.slots
  { slots := slots.set a.idx (some token), idx := a.idx + 1 }

/-- The tokens of a string in an array, which starts with one slot. -/
def collect (d : UInt8) (s : Str) : Option Args :=
  match tokens d s with
  | [] => none
  | first :: rest => some (rest.foldl (Args.add junk) { slots := [some first], idx := 1 })

/-- The words `ws` are in the array, whose length is the next power of two; the rest of it is
what the last `realloc` left there. -/
def Filled (ws : List Str) (a : Args) : Prop :=
  a.idx = ws.length ∧ ∃ j, 2 ^ j < 2 * ws.length ∧ ws.length ≤ 2 ^ j ∧
    a.slots = ws.map some ++ (range' ws.length (2 ^ j - ws.length)).map (junk (2 ^ j))

variable {junk}

variable {ws : List Str}

theorem set_next {n : Nat} (hn : 0 < n) (f : Nat → Option Str) (token : Str) :
    (ws.map some ++ (range' ws.length n).map f).set ws.length (some token) =
      (ws ++ [token]).map some ++ (range' (ws.length + 1) (n - 1)).map f := by
  obtain ⟨n, rfl⟩ := Nat.exists_eq_add_of_lt hn
  simp [range'_succ]

theorem Filled.room {a : Args} (h : Filled junk ws a) :
    ∃ j, 2 ^ j < 2 * (ws.length + 1) ∧ ws.length < 2 ^ j ∧
      (if a.slots.length = a.idx then realloc junk a.slots (a.slots.length * 2) else a.slots) =
        ws.map some ++ (range' ws.length (2 ^ j - ws.length)).map (junk (2 ^ j)) := by
  obtain ⟨hidx, j, hlt, hle, hslots⟩ := h
  have hlen : a.slots.length = 2 ^ j := by simp [hslots, hle]
  rw [hidx, hlen]
  by_cases hfull : 2 ^ j = ws.length
  · refine ⟨j + 1, by omega, by omega, ?_⟩
    rw [if_pos hfull, realloc, hlen, hslots, hfull, Nat.pow_succ, hfull]
    simp
  · exact ⟨j, by omega, by omega, by rw [if_neg hfull, hslots]⟩

theorem Filled.add {a : Args} (h : Filled junk ws a) (token : Str) :
    Filled junk (ws ++ [token]) (a.add junk token) := by
  obtain ⟨j, hlt, hle, hslots⟩ := h.room
  have hlen : (ws ++ [token]).length = ws.length + 1 := by simp
  refine ⟨by simp [Args.add, h.1], j, by omega, by omega, ?_⟩
  simp only [Args.add, hlen]
  rw [hslots, h.1, set_next (by omega), Nat.sub_sub]

/-- **The array holds the parts of the string**, if there are any. -/
theorem collect_filled (junk : Nat → Nat → Option Str) (d : UInt8) (s : Str) :
    (collect junk d s = none ∧ parts d s = []) ∨
      ∃ a, collect junk d s = some a ∧ parts d s ≠ [] ∧ Filled junk (parts d s) a := by
  have hfold : ∀ (rest ws : List Str) (a : Args), Filled junk ws a →
      Filled junk (ws ++ rest) (rest.foldl (Args.add junk) a) := by
    intro rest
    induction rest with
    | nil => intro ws a h; simpa using h
    | cons t rest ih => intro ws a h; simpa using ih _ _ (h.add t)
  rw [collect, tokens_eq]
  cases parts d s with
  | nil => exact .inl ⟨rfl, rfl⟩
  | cons first rest =>
    exact .inr ⟨_, rfl, by simp, hfold rest [first] _ ⟨rfl, 0, by simp, by simp, by simp⟩⟩

/-- The array for `execvp`, of the words of a statement. -/
def optionArgs (junk : Nat → Nat → Option Str) (statement : Str) : Option Args :=
  collect junk SPACE (statement.dropWhile (· == SPACE))

theorem optionArgs_filled (junk : Nat → Nat → Option Str) (statement : Str) :
    (optionArgs junk statement = none ∧ parts SPACE statement = []) ∨
      ∃ a, optionArgs junk statement = some a ∧ parts SPACE statement ≠ [] ∧
        Filled junk (parts SPACE statement) a := by
  rw [← parts_dropWhile]
  exact collect_filled junk SPACE _

/-- The words and then a `NULL`, all in the memory of the array. -/
def Terminated (ws : List Str) (slots : List (Option Str)) : Prop :=
  ∃ rest, slots = ws.map some ++ none :: rest

/-- A filled array has a `NULL` behind its words exactly when there is room for one and `realloc`
left one there. -/
theorem Filled.terminated_iff {a : Args} (h : Filled junk ws a) :
    Terminated ws a.slots ↔ ∃ j, 2 ^ j < ws.length ∧ ws.length < 2 ^ (j + 1) ∧
      junk (2 ^ (j + 1)) ws.length = none := by
  obtain ⟨-, j, hlt, hle, hslots⟩ := h
  have hroom : Terminated ws a.slots ↔ ws.length < 2 ^ j ∧ junk (2 ^ j) ws.length = none := by
    simp only [Terminated, hslots, append_cancel_left_eq]
    cases hn : 2 ^ j - ws.length with
    | zero => simp; omega
    | succ n => simp [range'_succ]; omega
  rw [hroom]
  constructor
  · rintro ⟨hk, hnull⟩
    cases j with
    | zero =>
      rw [pow_zero] at hk hlt
      omega
    | succ j => exact ⟨j, by omega, hk, hnull⟩
  · rintro ⟨i, hi, hk, hnull⟩
    have h1 : i < j := (Nat.pow_lt_pow_iff_right (by decide)).mp (hi.trans_le hle)
    have h2 : j < i + 2 :=
      (Nat.pow_lt_pow_iff_right (by decide)).mp (hlt.trans (by rw [pow_succ]; omega))
    obtain rfl : j = i + 1 := by omega
    exact ⟨hk, hnull⟩

/-- **The argument vector ends with a `NULL` only by chance**: the number of words is not a power
of two, and what `realloc` left behind the last word is a `NULL`. -/
theorem argv_terminated_iff (junk : Nat → Nat → Option Str) (statement : Str) :
    (∃ args, optionArgs junk statement = some args ∧
        Terminated (parts SPACE statement) args.slots) ↔
      ∃ j, 2 ^ j < (parts SPACE statement).length ∧ (parts SPACE statement).length < 2 ^ (j + 1) ∧
        junk (2 ^ (j + 1)) (parts SPACE statement).length = none := by
  rcases optionArgs_filled junk statement with ⟨hnone, hparts⟩ | ⟨args, hsome, -, hfilled⟩
  · simp [hnone, hparts]
  · simp [hsome, hfilled.terminated_iff]

/-- `ls` alone: the only slot holds the word. -/
theorem not_terminated_oneWord :
    (∀ junk, optionArgs junk [108, 115] = some { slots := [some [108, 115]], idx := 1 }) ∧
      ¬ Terminated [[108, 115]] [some [108, 115]] := by
  have hparts : parts SPACE [108, 115] = [[108, 115]] := by decide
  exact ⟨by simp [optionArgs, collect, tokens_eq, parts_dropWhile, hparts], by simp [Terminated]⟩

/-! ## Statements -/

/-- What the shell has started: the arrays passed to `execvp`, in order. -/
structure Shell where
  children : List Args
  numberOfChildProcesses : Nat

/-- The loop over the statements, where `fork` says which calls of `fork` succeed. -/
def runStatements (junk : Nat → Nat → Option Str) (fork : Nat → Bool) :
    List Str → Shell → Shell
  | [], sh => sh
  | statement :: rest, sh =>
    match optionArgs junk statement with
    -- `return`, also when further statements follow
    | none => sh
    | some args =>
      -- `exit(0)`
      if args.slots.head? = some (some QUIT) then sh
      else if fork (statement :: rest).length then
        runStatements junk fork rest
          { children := sh.children ++ [args],
            numberOfChildProcesses := sh.numberOfChildProcesses + 1 }
      else runStatements junk fork rest sh

/-- `parseAndExecute(inputString, numberOfChildProcesses)` -/
def parseAndExecute (junk : Nat → Nat → Option Str) (fork : Nat → Bool) (inputString : Str) :
    Shell :=
  match collect junk SEMICOLON inputString with
  | none => { children := [], numberOfChildProcesses := 0 }
  | some args => runStatements junk fork ((args.slots.take args.idx).filterMap id)
      { children := [], numberOfChildProcesses := 0 }

/-- The statement has a character that is not a space. -/
def hasText (statement : Str) : Bool := statement.any (· != SPACE)

/-- The program word of the statement is `quit`. -/
def isQuit (statement : Str) : Bool := (parts SPACE statement).head? = some QUIT

theorem parts_eq_nil_iff {statement : Str} :
    parts SPACE statement = [] ↔ hasText statement = false := by
  rw [← parts_dropWhile]
  cases h : statement.dropWhile (· == SPACE) with
  | nil => simpa [parts, hasText] using h
  | cons c s =>
    have hc : c ≠ SPACE := by
      have := head?_dropWhile_not (· == SPACE) statement
      simpa [h] using this
    have hmem : c ∈ statement := (dropWhile_suffix _).subset (h ▸ mem_cons_self)
    simp [parts_cons hc, hasText]
    exact ⟨c, hmem, hc⟩

/-- The array of a statement with a word in it begins with its program word. -/
theorem optionArgs_cases (junk : Nat → Nat → Option Str) (statement : Str) :
    optionArgs junk statement = none ∧ hasText statement = false ∨
      ∃ args, optionArgs junk statement = some args ∧ hasText statement = true ∧
        (args.slots.head? = some (some QUIT) ↔ isQuit statement = true) := by
  rcases optionArgs_filled junk statement with ⟨hnone, hparts⟩ | ⟨args, hsome, hne, -, j, -, -, hslots⟩
  · exact .inl ⟨hnone, parts_eq_nil_iff.mp hparts⟩
  refine .inr ⟨args, hsome, ?_, ?_⟩
  · simpa [parts_eq_nil_iff] using hne
  · obtain ⟨w, ws, hws⟩ := exists_cons_of_ne_nil hne
    simp [isQuit, hslots, hws]

/-- The statements that the loop reaches: those before the first `quit` and before the first that
is blank. -/
def reached (statements : List Str) : List Str :=
  (statements.takeWhile (!isQuit ·)).takeWhile hasText

theorem runStatements_eq (junk : Nat → Nat → Option Str) (statements : List Str) (sh : Shell) :
    (runStatements junk (fun _ => true) statements sh).children.map some =
        sh.children.map some ++ (reached statements).map (optionArgs junk) ∧
      (runStatements junk (fun _ => true) statements sh).numberOfChildProcesses =
        sh.numberOfChildProcesses + (reached statements).length := by
  induction statements generalizing sh with
  | nil => simp [runStatements, reached]
  | cons statement rest ih =>
    rcases optionArgs_cases junk statement with ⟨hnone, htext⟩ | ⟨args, hsome, htext, hquit⟩
    · have hblank : reached (statement :: rest) = [] := by
        unfold reached
        by_cases hq : isQuit statement <;> simp [hq, htext]
      simp [runStatements, hnone, hblank]
    · by_cases hq : isQuit statement
      · simp [runStatements, hsome, hquit, hq, reached]
      obtain ⟨hchildren, hnumber⟩ := ih
        { children := sh.children ++ [args],
          numberOfChildProcesses := sh.numberOfChildProcesses + 1 }
      simp [runStatements, hsome, hquit, hq, htext, reached] at hchildren hnumber ⊢
      exact ⟨hchildren, by omega⟩

/-- The statements with text are those the loop reaches and those behind. -/
theorem filter_hasText (statements : List Str) :
    (statements.takeWhile (!isQuit ·)).filter hasText = reached statements ++
      ((statements.takeWhile (!isQuit ·)).dropWhile hasText).filter hasText := by
  conv_lhs => rw [← (statements.takeWhile (!isQuit ·)).takeWhile_append_dropWhile (p := hasText)]
  rw [filter_append, reached, filter_eq_self.mpr fun _ => mem_takeWhile_imp]

theorem parseAndExecute_eq (junk : Nat → Nat → Option Str) (line : Str) :
    parseAndExecute junk (fun _ => true) line = runStatements junk (fun _ => true)
      (parts SEMICOLON line) { children := [], numberOfChildProcesses := 0 } := by
  unfold parseAndExecute
  rcases collect_filled junk SEMICOLON line with
    ⟨hnone, hparts⟩ | ⟨args, hsome, -, hidx, j, -, -, hslots⟩
  · simp [hnone, hparts, runStatements]
  · simp [hsome, hidx, hslots]

/-- **`parseAndExecute` starts every statement exactly when no blank one stands before another
one.**  Up to the first `quit` a child is started for each statement with a character that is
not a space, and counted, exactly when behind the first blank statement all are blank. -/
theorem parseAndExecute_iff (junk : Nat → Nat → Option Str) (line : Str) :
    ((parseAndExecute junk (fun _ => true) line).children.map some =
        (((parts SEMICOLON line).takeWhile (!isQuit ·)).filter hasText).map (optionArgs junk) ∧
      (parseAndExecute junk (fun _ => true) line).numberOfChildProcesses =
        (parseAndExecute junk (fun _ => true) line).children.length) ↔
      ∀ statement ∈ ((parts SEMICOLON line).takeWhile (!isQuit ·)).dropWhile hasText,
        hasText statement = false := by
  obtain ⟨hchildren, hnumber⟩ := runStatements_eq junk (parts SEMICOLON line)
    { children := [], numberOfChildProcesses := 0 }
  rw [← parseAndExecute_eq] at hchildren hnumber
  have hlength := congrArg length hchildren
  simp only [map_nil, nil_append, length_map, zero_add] at hchildren hnumber hlength
  rw [hchildren, filter_hasText, map_append, self_eq_append_right, hnumber, hlength]
  simp

/-- `a; ;b`: the blank statement ends the loop, and `b` is not started. -/
theorem parseAndExecute_loses_statement :
    (∀ junk, (parseAndExecute junk (fun _ => true) [97, 59, 32, 59, 98]).numberOfChildProcesses = 1) ∧
      ((parts SEMICOLON [97, 59, 32, 59, 98]).takeWhile (!isQuit ·)).filter hasText =
        [[97], [98]] := by
  have hreached : reached (parts SEMICOLON [97, 59, 32, 59, 98]) = [[97]] := by decide
  refine ⟨fun junk => ?_, by decide⟩
  rw [parseAndExecute_eq, (runStatements_eq _ _ _).2, hreached]
  rfl

end Xv6.ProjShell
