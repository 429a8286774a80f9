import Mathlib

/-!
# Xv6.Grep

The user program `grep` (`grep.c`): its pattern matcher, and the loop that reads
the input piece by piece.

A C string is the list of its bytes before the `NUL`; the end of the list is
where the code reads the `NUL`.
-/

namespace Xv6.Grep

open List

/-- The bytes of a C string, without the `NUL`. -/
abbrev Str := List UInt8

/-- `'*'` -/
abbrev STAR : UInt8 := 42

/-- `'.'` -/
abbrev DOT : UInt8 := 46

/-- `'$'` -/
abbrev DOLLAR : UInt8 := 36

/-- `'^'` -/
abbrev CARET : UInt8 := 94

/-- `'\n'` -/
abbrev NL : UInt8 := 10

/-! ## The matcher -/

/-- `matchstar(c, re, text)`, where `here` is `matchhere(re, ·)` -/
def matchstar (here : Str → Bool) (c : UInt8) : Str → Bool
  | [] => here []
  | t :: text => here (t :: text) || (t == c || c == DOT) && matchstar here c text

/-- The last test of `matchhere`: one character, and `here` behind it. -/
def matchone (here : Str → Bool) (c : UInt8) : Str → Bool
  | [] => false
  | t :: text => (c == DOT || c == t) && here text

/-- `matchhere(re, text)` -/
def matchhere : Str → Str → Bool
  | [], _ => true
  | [c], text => if c = DOLLAR then text.isEmpty else matchone (fun _ => true) c text
  | c :: d :: re, text =>
    if d = STAR then matchstar (matchhere re) c text else matchone (matchhere (d :: re)) c text

/-- The loop of `match`: `matchhere` at every place of the text. -/
def matchany (re : Str) : Str → Bool
  | [] => matchhere re []
  | t :: text => matchhere re (t :: text) || matchany re text

/-- `match(re, text)` -/
def grepMatch (re text : Str) : Bool :=
  if re.head? = some CARET then matchhere re.tail text else matchany re text

/-! ## The language of a pattern -/

/-- The items of a pattern: one character, a repeated character, the end of the text. -/
inductive Item where
  | one (c : UInt8)
  | star (c : UInt8)
  | eol
  deriving DecidableEq

/-- The pattern read from left to right. -/
def items : Str → List Item
  | [] => []
  | [c] => if c = DOLLAR then [.eol] else [.one c]
  | c :: d :: re => if d = STAR then .star c :: items re else .one c :: items (d :: re)

/-- The characters that `c` stands for in a pattern. -/
def Accepts (c t : UInt8) : Prop := c = DOT ∨ c = t

/-- The words an item stands for. -/
def Item.language : Item → Language UInt8
  | .one c => {w | ∃ t, w = [t] ∧ Accepts c t}
  | .star c => {w | ∀ t ∈ w, Accepts c t}
  | .eol => 1

/-- The words a pattern stands for. -/
def language (re : Str) : Language UInt8 := ((items re).map Item.language).prod

/-- The pattern behind a leading `^`. -/
def unanchored (re : Str) : Str := if re.head? = some CARET then re.tail else re

/-- At the start of the text there is a word of the pattern, up to the end if the pattern asks
for it. -/
def Begins (re text : Str) : Prop :=
  ∃ w rest, text = w ++ rest ∧ w ∈ language re ∧ (.eol ∈ items re → rest = [])

variable {here : Str → Bool} {c : UInt8} {text : Str}

theorem matchone_iff : matchone here c text = true ↔
    ∃ t rest, text = t :: rest ∧ Accepts c t ∧ here rest = true := by
  cases text <;> simp [matchone, Accepts]

theorem matchstar_iff :
    matchstar here c text = true ↔
      ∃ v rest, text = v ++ rest ∧ (∀ t ∈ v, Accepts c t) ∧ here rest = true := by
  induction text with
  | nil => simp [matchstar]
  | cons t text ih =>
    simp only [matchstar, Bool.or_eq_true, Bool.and_eq_true, beq_iff_eq, ih]
    constructor
    · rintro (h | ⟨hc, v, rest, rfl, hv, h⟩)
      · exact ⟨[], _, rfl, by simp, h⟩
      · have ht : Accepts c t := hc.symm.imp id Eq.symm
        exact ⟨t :: v, rest, rfl, by simpa using ⟨ht, hv⟩, h⟩
    · rintro ⟨v, rest, heq, hv, h⟩
      cases v with
      | nil => exact .inl (heq ▸ h)
      | cons t' v =>
        obtain ⟨rfl, rfl⟩ := cons.inj heq
        have hc := (hv t (by simp)).symm.imp Eq.symm id
        exact .inr ⟨hc, v, rest, rfl, fun x hx => hv x (by simp [hx]), h⟩

theorem begins_cons {re : Str} (re' : Str) (i : Item) (hi : i ≠ .eol)
    (h : items re = i :: items re') :
    Begins re text ↔ ∃ v rest, text = v ++ rest ∧ v ∈ i.language ∧ Begins re' rest := by
  simp only [Begins, language, h, map_cons, prod_cons, Language.mem_mul, mem_cons,
    hi.symm, false_or]
  constructor
  · rintro ⟨_, rest, rfl, ⟨v, hv, w, hw, rfl⟩, hrest⟩
    exact ⟨v, w ++ rest, by simp, hv, w, rest, rfl, hw, hrest⟩
  · rintro ⟨v, _, rfl, hv, w, rest, rfl, hw, hrest⟩
    exact ⟨v ++ w, rest, by simp, ⟨v, hv, w, hw, rfl⟩, hrest⟩

theorem begins_nil (text : Str) : Begins [] text :=
  ⟨[], text, rfl, by simp [language, items], by simp [items]⟩

/-- `matchhere` finds the words of the pattern that begin where it stands. -/
theorem matchhere_iff (re text : Str) : matchhere re text = true ↔ Begins re text := by
  have hone : ∀ {c : UInt8} {v : Str}, v ∈ (Item.one c).language ↔ ∃ t, v = [t] ∧ Accepts c t :=
    Iff.rfl
  have hstar : ∀ {c : UInt8} {v : Str}, v ∈ (Item.star c).language ↔ ∀ t ∈ v, Accepts c t :=
    Iff.rfl
  -- the pattern is taken apart as `items` takes it apart
  induction re using items.induct generalizing text with
  | case1 => simp [matchhere, begins_nil]
  | case2 => simp [matchhere, Begins, language, items, Item.language]
  | case3 c hc =>
    rw [begins_cons [] (.one c) (by simp) (by simp [items, hc])]
    simp [matchhere, hc, matchone_iff, hone, begins_nil]
  | case4 c re ih =>
    rw [begins_cons re (.star c) (by simp) (by simp [items])]
    simp [matchhere, matchstar_iff, hstar, ih]
  | case5 c d re hd ih =>
    rw [begins_cons (d :: re) (.one c) (by simp) (by simp [items, hd])]
    simp only [matchhere, hd, if_false, matchone_iff, hone, ih]
    constructor
    · rintro ⟨t, rest, rfl, hc, h⟩
      exact ⟨[t], rest, rfl, ⟨t, rfl, hc⟩, h⟩
    · rintro ⟨_, rest, rfl, ⟨t, rfl, hc⟩, h⟩
      exact ⟨t, rest, rfl, hc, h⟩

/-- The loop of `match` tries every suffix of the text. -/
theorem matchany_iff {re : Str} :
    matchany re text = true ↔ ∃ before here, text = before ++ here ∧ Begins re here := by
  induction text with
  | nil => simp [matchany, matchhere_iff]
  | cons t text ih =>
    simp only [matchany, Bool.or_eq_true, matchhere_iff, ih]
    constructor
    · rintro (h | ⟨before, here, rfl, h⟩)
      · exact ⟨[], _, rfl, h⟩
      · exact ⟨t :: before, here, rfl, h⟩
    · rintro ⟨before, here, heq, h⟩
      cases before with
      | nil => exact .inl (heq ▸ h)
      | cons t' before => exact .inr ⟨before, here, (cons.inj heq).2, h⟩

/-- **The matcher decides its language**: `match` returns 1 exactly when the text holds a word
of the pattern, at its start if the pattern begins with `^` and up to its end if the last item
is `$`. -/
theorem grepMatch_iff (re text : Str) :
    grepMatch re text = true ↔ ∃ before w rest, text = before ++ w ++ rest ∧
      (re.head? = some CARET → before = []) ∧ w ∈ language (unanchored re) ∧
      (.eol ∈ items (unanchored re) → rest = []) := by
  unfold grepMatch unanchored
  by_cases hre : re.head? = some CARET
  · simp [hre, matchhere_iff, Begins]
  simp only [hre, if_false, matchany_iff, Begins, false_implies, true_and]
  constructor
  · rintro ⟨before, _, rfl, w, rest, rfl, h⟩
    exact ⟨before, w, rest, by simp, h⟩
  · rintro ⟨before, w, rest, rfl, h⟩
    exact ⟨before, w ++ rest, by simp, w, rest, rfl, h⟩

/-- `^a*$` and a text that ends before the pattern does. -/
example : grepMatch [94, 97, 42, 36] [97, 97] ∧ ¬ grepMatch [94, 97, 42, 36] [97, 98] := by decide

/-! ## The loop over the input -/

/-- The inner loop, where `line` is what `strchr` has passed since `p`: what is written, and
what is left behind `p` when no newline follows. -/
def grepLines (pattern : Str) : Str → List UInt8 → List UInt8 × List UInt8
  | line, [] => ([], line)
  | line, b :: bs =>
    if b = NL then
      let (out, p) := grepLines pattern [] bs
      ((if grepMatch pattern line then line ++ [NL] else []) ++ out, p)
    else if b = 0 then ([], line ++ b :: bs)
    else grepLines pattern (line ++ [b]) bs

/-- `grep(pattern, fd)`: what is written when the calls of `read` return `pieces`, with `kept`
in the buffer. -/
def grep (pattern : Str) : List (List UInt8) → List UInt8 → List UInt8
  | [], _ => []
  | piece :: pieces, kept =>
    let (out, p) := grepLines pattern [] (kept ++ piece)
    -- `p == buf` when no newline was found, and the buffer is emptied
    out ++ grep pattern pieces (if p.length = (kept ++ piece).length then [] else p)

/-- Bytes of one line. -/
def OneLine (l : List UInt8) : Prop := NL ∉ l ∧ 0 ∉ l

section Loop

variable {pattern : Str} {line bs cs kept : List UInt8}

theorem grepLines_line (h : OneLine bs) :
    grepLines pattern line (bs ++ cs) = grepLines pattern (line ++ bs) cs := by
  induction bs generalizing line with
  | nil => simp
  | cons b bs ih =>
    simp only [OneLine, mem_cons, not_or] at h
    simp [grepLines, Ne.symm h.1.1, Ne.symm h.2.1, ih ⟨h.1.2, h.2.2⟩]

theorem grepLines_partial (h : OneLine bs) : grepLines pattern line bs = ([], line ++ bs) := by
  have : grepLines pattern line (bs ++ []) = _ := grepLines_line h
  simpa [grepLines] using this

theorem grepLines_append (h : 0 ∉ bs) : grepLines pattern line (bs ++ cs) =
    ((grepLines pattern line bs).1 ++ (grepLines pattern (grepLines pattern line bs).2 cs).1,
      (grepLines pattern (grepLines pattern line bs).2 cs).2) := by
  induction bs generalizing line with
  | nil => simp [grepLines]
  | cons b bs ih =>
    simp only [mem_cons, not_or] at h
    by_cases hb : b = NL
    · simp [grepLines, hb, ih h.2]
    · simp [grepLines, hb, Ne.symm h.1, ih h.2]

theorem grepLines_left (h : 0 ∉ bs) (hcs : OneLine cs) :
    (grepLines pattern line (bs ++ NL :: cs)).2 = cs := by
  simp [grepLines_append h, grepLines, grepLines_partial hcs]

theorem exists_last_line (h : NL ∈ bs) (h0 : 0 ∉ bs) :
    ∃ as cs, bs = as ++ NL :: cs ∧ 0 ∉ as ∧ OneLine cs := by
  induction bs with
  | nil => simp at h
  | cons b bs ih =>
    simp only [mem_cons, not_or] at h h0
    by_cases hbs : NL ∈ bs
    · obtain ⟨as, cs, rfl, has, hcs⟩ := ih hbs h0.2
      exact ⟨b :: as, cs, rfl, by simp [h0.1, has], hcs⟩
    · exact ⟨[], bs, by simp [h.resolve_right hbs], by simp, hbs, h0.2⟩

theorem grepMatch_nil (text : Str) : grepMatch [] text = true := by
  cases text <;> simp [grepMatch, matchany, matchhere]

/-- Every line is written with the empty pattern, and no byte is lost. -/
theorem grepLines_length (line : List UInt8) (h : 0 ∉ bs) :
    (grepLines [] line bs).1.length + (grepLines [] line bs).2.length =
      line.length + bs.length := by
  induction bs generalizing line with
  | nil => simp [grepLines]
  | cons b bs ih =>
    simp only [mem_cons, not_or] at h
    by_cases hb : b = NL
    · have hrest := ih [] h.2
      simp [grepLines, hb, grepMatch_nil] at hrest ⊢
      omega
    · have hrest := ih (line ++ [b]) h.2
      simp [grepLines, hb, Ne.symm h.1] at hrest ⊢
      omega

/-- A piece with a newline is written line by line, and its last bytes are kept. -/
theorem grep_cons (pattern : Str) {piece : List UInt8} (pieces : List (List UInt8))
    (hkept : OneLine kept) (h : NL ∈ piece) (h0 : 0 ∉ piece) :
    OneLine (grepLines pattern kept piece).2 ∧
      grep pattern (piece :: pieces) kept = (grepLines pattern kept piece).1 ++
        grep pattern pieces (grepLines pattern kept piece).2 := by
  obtain ⟨as, cs, rfl, has, hcs⟩ := exists_last_line h h0
  have hleft : (grepLines pattern kept (as ++ NL :: cs)).2 = cs := grepLines_left has hcs
  refine ⟨by rwa [hleft], ?_⟩
  simp only [grep, grepLines_line hkept, nil_append, hleft]
  rw [if_neg (by simp; omega)]

/-- A piece without one is lost, with what was kept. -/
theorem grep_lost {piece : List UInt8} {pieces : List (List UInt8)} (hkept : OneLine kept)
    (h : OneLine piece) : grep pattern (piece :: pieces) kept = grep pattern pieces [] := by
  simp [grep, grepLines_line hkept, grepLines_partial h]

variable {pieces : List (List UInt8)}

/-- Pieces with a newline each are read as one text. -/
theorem grep_eq (hkept : OneLine kept) (h : ∀ p ∈ pieces, NL ∈ p) (h0 : ∀ p ∈ pieces, 0 ∉ p) :
    grep pattern pieces kept = (grepLines pattern kept pieces.flatten).1 := by
  induction pieces generalizing kept with
  | nil => simp [grep, grepLines]
  | cons piece pieces ih =>
    simp only [forall_mem_cons] at h h0
    obtain ⟨hleft, hcons⟩ := grep_cons pattern pieces hkept h.1 h0.1
    rw [hcons, ih hleft h.2 h0.2, flatten_cons, grepLines_append h0.1]

/-- With the empty pattern all is written only if no piece is lost. -/
theorem grep_length (hkept : OneLine kept) (hne : ∀ p ∈ pieces, p ≠ []) (h0 : ∀ p ∈ pieces, 0 ∉ p) :
    (grep [] pieces kept).length ≤ kept.length + pieces.flatten.length ∧
      (kept.length + pieces.flatten.length ≤ (grep [] pieces kept).length →
        ∀ p ∈ pieces, NL ∈ p) := by
  induction pieces generalizing kept with
  | nil => simp [grep]
  | cons piece pieces ih =>
    simp only [forall_mem_cons] at hne h0 ⊢
    simp only [flatten_cons, length_append]
    by_cases h : NL ∈ piece
    · obtain ⟨hleft, hcons⟩ := grep_cons [] pieces hkept h h0.1
      have hlen := grepLines_length kept h0.1
      obtain ⟨hle, hall⟩ := ih hleft hne.2 h0.2
      rw [hcons, length_append]
      exact ⟨by omega, fun hfull => ⟨h, hall (by omega)⟩⟩
    · have hpos := length_pos_iff.mpr hne.1
      have hle := (@ih [] (by simp [OneLine]) hne.2 h0.2).1
      rw [length_nil] at hle
      rw [grep_lost hkept ⟨h, h0.1⟩]
      exact ⟨by omega, fun hfull => by omega⟩

theorem grepLines_lines {lines : List Str} (h : ∀ l ∈ lines, OneLine l) :
    grepLines pattern [] (lines.flatMap (· ++ [NL])) =
      ((lines.filter (grepMatch pattern)).flatMap (· ++ [NL]), []) := by
  induction lines with
  | nil => simp [grepLines]
  | cons l lines ih =>
    simp only [forall_mem_cons] at h
    rw [flatMap_cons, append_assoc, grepLines_line h.1]
    by_cases hl : grepMatch pattern l
    · simp [grepLines, ih h.2, hl]
    · simp [grepLines, ih h.2, hl]

end Loop

/-- **`grep` prints the matching lines, for every pattern, exactly when every `read` returns a
newline.** -/
theorem grep_prints_iff {lines : List Str} (hlines : ∀ l ∈ lines, OneLine l)
    {pieces : List (List UInt8)} (hne : ∀ p ∈ pieces, p ≠ [])
    (hsplit : pieces.flatten = lines.flatMap (· ++ [NL])) :
    (∀ pattern, grep pattern pieces [] =
        (lines.filter (grepMatch pattern)).flatMap (· ++ [NL])) ↔ ∀ p ∈ pieces, NL ∈ p := by
  have h0 : ∀ p ∈ pieces, 0 ∉ p := by
    intro p hp hmem
    have hflat := mem_flatten_of_mem hp hmem
    simp only [hsplit, mem_flatMap, mem_append] at hflat
    obtain ⟨l, hl, hzero | hzero⟩ := hflat
    · exact (hlines l hl).2 hzero
    · exact absurd (mem_singleton.mp hzero) (by decide)
  have hnil : OneLine [] := by simp [OneLine]
  constructor
  · intro hall
    refine (grep_length hnil hne h0).2 ?_
    have hevery : lines.filter (grepMatch []) = lines := by simp [grepMatch_nil]
    rw [hall, hevery, hsplit, length_nil, Nat.zero_add]
  · intro hnl pattern
    rw [grep_eq hnil hnl h0, hsplit, grepLines_lines hlines]

theorem grep_prints_twoPieces : (∀ p ∈ [[97, NL, 98], [NL]], p ≠ []) ∧
    ∀ pattern, grep pattern [[97, NL, 98], [NL]] [] =
      ([[97], [98]].filter (grepMatch pattern)).flatMap (· ++ [NL]) := by
  have hne : ∀ p ∈ [[97, NL, 98], [NL]], p ≠ [] := by decide
  exact ⟨hne, (grep_prints_iff (by unfold OneLine; decide) hne rfl).mpr (by decide)⟩

/-- `ab` arrives in two pieces, and `a` is not found in it. -/
theorem grep_loses_piece : [[97], [98, NL]].flatten = [[97, 98]].flatMap (· ++ [NL]) ∧
    grepMatch [97] [97, 98] = true ∧ grep [97] [[97], [98, NL]] [] = [] := by
  decide

end Xv6.Grep
