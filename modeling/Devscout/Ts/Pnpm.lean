/-
# Devscout.Ts.Pnpm -- reading `pnpm-workspace.yaml`

The reader looks for one `packages` list in a file that is otherwise none of its business. It
goes line by line and keeps five things: whether it has met the list, whether the list is
still open, the patterns, the documents begun and whether anything was said before them. Each
value of the list is cut out of its line by byte offsets, and so are the quotes around it.

A cut that is out of range, or inside a character, ends the program. The reader is therefore
given three outcomes, and the question is which files lead to the third.
-/

import Devscout.Lib.Text

namespace Devscout.Ts

open Lib Lib.Text

/-! ## The reader -/

/-- Why the reader stops early: it refuses the file over a field, or the program panics. -/
inductive Halt
  | refused (field : Str)
  | panicked
  deriving DecidableEq

def packagesField : Str := ['p', 'a', 'c', 'k', 'a', 'g', 'e', 's']
def documentField : Str := ['d', 'o', 'c', 'u', 'm', 'e', 'n', 't']

/-- A slice of a text: out of range, or not between characters, it panics. -/
def orPanic (s : Option Str) : Except Halt Str := s.elim (.error .panicked) .ok

/-- A value begins and ends with this quote. -/
def quotedBy (quote : Char) (value : Str) : Bool :=
  value.head? = some quote && value.getLast? = some quote

/-- One quote is both ends. -/
example : quotedBy '\'' ['\''] = true := by decide +kernel

/-- A value of `scalar` without its quotes. -/
def unquote (value : Str) : Except Halt Str :=
  if quotedBy '"' value || quotedBy '\'' value then orPanic (slice 1 (utf8Len value - 1) value)
  else .ok value

/-- `scalar`. -/
def scalar (value : Str) : Except Halt Str :=
  if value.isEmpty || value.head? ∈ [some '!', some '&', some '*', some '|', some '>'] then
    .error (.refused packagesField)
  else do
    let unquoted ← unquote value
    if unquoted.isEmpty then .error (.refused packagesField) else .ok unquoted

/-- The values of a list in brackets, one after the other. -/
def scalars : List Str → Except Halt (List Str)
  | [] => .ok []
  | value :: values => do
      let pattern ← scalar (trim value)
      let patterns ← scalars values
      .ok (pattern :: patterns)

/-- What `parse_pnpm` keeps from line to line. -/
structure Reading where
  found : Bool
  inPackages : Bool
  patterns : List Str
  document : Nat
  seenContent : Bool
  deriving DecidableEq

/-- The body of `parse_pnpm`'s loop. -/
def readLine (s : Reading) (line : Str) : Except Halt Reading :=
  if (line.takeWhile isWhitespace).any (· = '\t') then .error (.refused documentField)
  else
    let trimmed := trim line
    if trimmed.isEmpty || trimmed.head? = some '#' then .ok s
    else if trimmed = ['-', '-', '-'] then
      let s := { s with document := s.document + 1 }
      if s.document > 1 || s.seenContent then .error (.refused documentField) else .ok s
    else
      let s := { s with seenContent := true }
      match (packagesField ++ [':']).isPrefixOf? line with
      | some rest =>
          if s.found then .error (.refused packagesField)
          else
            let s := { s with found := true, inPackages := true }
            let tail := trim rest
            if tail.isEmpty then .ok s
            else if !(tail.head? = some '[') || !(tail.getLast? = some ']') then
              .error (.refused packagesField)
            else do
              let body ← orPanic (slice 1 (utf8Len tail - 1) tail)
              let patterns ← scalars (body.splitOn ',')
              .ok { s with patterns := s.patterns ++ patterns, inPackages := false }
      | none =>
          if s.inPackages && ['-', ' '].isPrefixOf trimmed then do
            let value ← orPanic (sliceFrom 2 trimmed)
            let pattern ← scalar (trim value)
            .ok { s with patterns := s.patterns ++ [pattern] }
          else if !(line.head? = some ' ') then .ok { s with inPackages := false }
          else if s.inPackages then .error (.refused packagesField)
          else .ok s

def beginning : Reading := ⟨false, false, [], 0, false⟩

/-- `parse_pnpm`. -/
def parsePnpm (text : Str) : Except Halt (List Str) := do
  let s ← (lines text).foldlM readLine beginning
  .ok s.patterns

/-! ## The values -/

/-- A quote and nothing else. -/
def LoneQuote (value : Str) : Prop := value = ['"'] ∨ value = ['\'']

/-- A value the reader refuses: an empty one, a quoted empty one, or one that YAML gives
another meaning. -/
def Refusable (value : Str) : Prop :=
  value = [] ∨ value.head? ∈ [some '!', some '&', some '*', some '|', some '>'] ∨
    value = ['"', '"'] ∨ value = ['\'', '\'']

/-- A value that is a pattern. -/
def Fine (value : Str) : Prop := ¬Refusable value ∧ ¬LoneQuote value

theorem quotedBy_iff {quote : Char} {value : Str} :
    quotedBy quote value = true ↔ value = [quote] ∨ ∃ mid, value = quote :: (mid ++ [quote]) := by
  rw [quotedBy]
  cases value with
  | nil => simp
  | cons c rest =>
      rcases List.eq_nil_or_concat rest with rfl | ⟨mid, last, rfl⟩
      · simp
      · simp [List.getLast?_cons]

/-- What the quotes come down to: a lone one panics, a pair is taken off. -/
theorem slice_quoted {quote : Char} (hquote : quote.utf8Size = 1) {value : Str}
    (h : quotedBy quote value = true) :
    orPanic (slice 1 (utf8Len value - 1) value) =
      if value = [quote] then .error .panicked else .ok value.tail.dropLast := by
  rcases quotedBy_iff.mp h with rfl | ⟨mid, rfl⟩
  · -- the one byte is both quotes, and the cut would run from 1 to 0
    have hlen : utf8Len [quote] - 1 = 0 := by simp [utf8Len, hquote]
    rw [if_pos rfl, hlen]
    rfl
  · rw [slice_inner hquote hquote, if_neg (by simp)]
    simp [orPanic]

/-- A value without its quotes. -/
def unquoted (value : Str) : Str :=
  if quotedBy '"' value || quotedBy '\'' value then value.tail.dropLast else value

theorem unquoted_eq_nil_iff {value : Str} :
    unquoted value = [] ↔ value = [] ∨ LoneQuote value ∨ value = ['"', '"'] ∨ value = ['\'', '\''] := by
  rw [unquoted, LoneQuote]
  by_cases hq : quotedBy '"' value || quotedBy '\'' value
  · rw [if_pos hq]
    rw [Bool.or_eq_true, quotedBy_iff, quotedBy_iff] at hq
    rcases hq with (rfl | ⟨mid, rfl⟩) | (rfl | ⟨mid, rfl⟩) <;> simp
  · rw [if_neg hq]
    rw [Bool.or_eq_true, quotedBy_iff, quotedBy_iff] at hq
    constructor
    · exact .inl
    · rintro (h | (rfl | rfl) | rfl | rfl)
      · exact h
      all_goals exact absurd (by simp) hq

theorem unquote_eq {value : Str} (hlone : ¬LoneQuote value) : unquote value = .ok (unquoted value) := by
  rw [LoneQuote, not_or] at hlone
  rw [unquote, unquoted]
  by_cases hdouble : quotedBy '"' value
  · rw [slice_quoted (by decide) hdouble, if_neg hlone.1]
    simp [hdouble]
  · by_cases hsingle : quotedBy '\'' value
    · rw [slice_quoted (by decide) hsingle, if_neg hlone.2]
      simp [hsingle]
    · simp [hdouble, hsingle]

theorem scalar_lone {value : Str} (h : LoneQuote value) : scalar value = .error .panicked := by
  rcases h with rfl | rfl <;> decide

theorem refusable_of_not_fine {value : Str} (h : ¬Fine value) (hlone : ¬LoneQuote value) :
    Refusable value := by
  by_contra hno
  exact h ⟨hno, hlone⟩

theorem scalar_refusable {value : Str} (h : Refusable value) :
    scalar value = .error (.refused packagesField) := by
  rw [scalar]
  by_cases hfirst : value.isEmpty || value.head? ∈ [some '!', some '&', some '*', some '|', some '>']
  · rw [if_pos hfirst]
  · rw [if_neg hfirst]
    have hpair : value = ['"', '"'] ∨ value = ['\'', '\''] := by
      simp only [Bool.or_eq_true, List.isEmpty_iff, decide_eq_true_eq, not_or] at hfirst
      rcases h with h | h | h
      · exact absurd h hfirst.1
      · exact absurd h hfirst.2
      · exact h
    rcases hpair with rfl | rfl <;> decide

theorem scalar_fine {value : Str} (h : Fine value) : scalar value = .ok (unquoted value) := by
  obtain ⟨hrefuse, hlone⟩ := h
  have hfirst : ¬(value.isEmpty || value.head? ∈ [some '!', some '&', some '*', some '|', some '>']) := by
    simp only [Bool.or_eq_true, List.isEmpty_iff, decide_eq_true_eq]
    rintro (h | h)
    · exact hrefuse (.inl h)
    · exact hrefuse (.inr (.inl h))
  have hsome : ¬(unquoted value).isEmpty := by
    rw [List.isEmpty_iff, unquoted_eq_nil_iff]
    -- what is empty without its quotes is one of the values that are no patterns
    rintro (h | h | h)
    · exact hrefuse (.inl h)
    · exact hlone h
    · exact hrefuse (.inr (.inr h))
  rw [scalar, if_neg hfirst, unquote_eq hlone]
  exact if_neg hsome

/-! ## A list of values -/

/-- The first value that is not a pattern is a lone quote. -/
def LoneFirst (values : List Str) : Prop :=
  ∃ before quote after, values = before ++ quote :: after ∧ (∀ v ∈ before, Fine v) ∧ LoneQuote quote

theorem loneFirst_cons {value : Str} {values : List Str} (h : Fine value) :
    LoneFirst (value :: values) ↔ LoneFirst values := by
  constructor
  · rintro ⟨before, quote, after, heq, hbefore, hquote⟩
    cases before with
    | nil =>
        cases heq
        exact absurd hquote h.2
    | cons first before =>
        cases heq
        exact ⟨before, quote, after, rfl, fun v hv => hbefore v (List.mem_cons_of_mem _ hv), hquote⟩
  · rintro ⟨before, quote, after, rfl, hbefore, hquote⟩
    exact ⟨value :: before, quote, after, rfl, List.forall_mem_cons.mpr ⟨h, hbefore⟩, hquote⟩

theorem loneFirst_cons_of_not_fine {value : Str} {values : List Str} (h : ¬Fine value) :
    LoneFirst (value :: values) ↔ LoneQuote value := by
  constructor
  · rintro ⟨before, quote, after, heq, hbefore, hquote⟩
    cases before with
    | nil =>
        obtain ⟨rfl, -⟩ := List.cons.inj heq
        exact hquote
    | cons first before =>
        obtain ⟨rfl, -⟩ := List.cons.inj heq
        exact absurd (hbefore _ List.mem_cons_self) h
  · intro hlone
    exact ⟨[], value, values, rfl, by simp, hlone⟩

/-- Values are read when all are patterns; otherwise the first that is not decides. -/
theorem scalars_cases (values : List Str) :
    (∀ v ∈ values.map trim, Fine v) ∧ (∃ patterns, scalars values = .ok patterns) ∨
      LoneFirst (values.map trim) ∧ scalars values = .error .panicked ∨
        ¬(∀ v ∈ values.map trim, Fine v) ∧ ¬LoneFirst (values.map trim) ∧
          scalars values = .error (.refused packagesField) := by
  induction values with
  | nil => exact .inl ⟨by simp, [], rfl⟩
  | cons value values ih =>
      rw [List.map_cons, List.forall_mem_cons]
      by_cases hfine : Fine (trim value)
      · rw [loneFirst_cons hfine]
        -- a pattern leaves the outcome to the values after it
        have hstep : scalars (value :: values) =
            (scalars values).map (unquoted (trim value) :: ·) := by
          rw [scalars, scalar_fine hfine]
          cases scalars values <;> rfl
        rw [hstep]
        rcases ih with ⟨hall, patterns, h⟩ | ⟨hlone, h⟩ | ⟨hall, hlone, h⟩
        · exact .inl ⟨⟨hfine, hall⟩, _, by rw [h]; rfl⟩
        · exact .inr (.inl ⟨hlone, by rw [h]; rfl⟩)
        · exact .inr (.inr ⟨fun hboth => hall hboth.2, hlone, by rw [h]; rfl⟩)
      · -- any other value decides by itself
        rw [loneFirst_cons_of_not_fine hfine]
        by_cases hlone : LoneQuote (trim value)
        · refine .inr (.inl ⟨hlone, ?_⟩)
          rw [scalars, scalar_lone hlone]
          rfl
        · refine .inr (.inr ⟨fun hboth => hfine hboth.1, hlone, ?_⟩)
          rw [scalars, scalar_refusable (refusable_of_not_fine hfine hlone)]
          rfl

/-! ## What a line says -/

/-- What a line says on its own. -/
inductive Kind
  /-- Its indentation has a tab. -/
  | tabbed
  /-- It is empty, or a comment. -/
  | blank
  /-- `---`. -/
  | marker
  /-- `packages:` and what follows. -/
  | head (tail : Str)
  /-- `- ` and a value. -/
  | item (value : Str)
  | other (indented : Bool)

def kind (line : Str) : Kind :=
  if (line.takeWhile isWhitespace).any (· = '\t') then .tabbed
  else if (trim line).isEmpty || (trim line).head? = some '#' then .blank
  else if trim line = ['-', '-', '-'] then .marker
  else
    match (packagesField ++ [':']).isPrefixOf? line with
    | some rest => .head (trim rest)
    | none =>
        if ['-', ' '].isPrefixOf (trim line) then
          .item (trim ((trim line).drop 2))
        else .other (line.head? = some ' ')

/-- The values between brackets. -/
def bracketed (tail : Str) : Option (List Str) :=
  if tail.head? = some '[' ∧ tail.getLast? = some ']' then some (tail.tail.dropLast.splitOn ',')
  else none

/-- What a line of each kind does. -/
def Kind.read (s : Reading) : Kind → Except Halt Reading
  | .tabbed => .error (.refused documentField)
  | .blank => .ok s
  | .marker =>
      if s.document > 0 || s.seenContent then .error (.refused documentField)
      else .ok { s with document := s.document + 1 }
  | .head tail =>
      if s.found then .error (.refused packagesField)
      else if tail = [] then .ok { s with found := true, inPackages := true, seenContent := true }
      else
        match bracketed tail with
        | none => .error (.refused packagesField)
        | some values => (scalars values).map fun patterns =>
            { s with found := true, inPackages := false, seenContent := true,
                     patterns := s.patterns ++ patterns }
  | .item value =>
      if s.inPackages then
        (scalar value).map fun pattern =>
          { s with seenContent := true, patterns := s.patterns ++ [pattern] }
      else .ok { s with seenContent := true }
  | .other indented =>
      if indented && s.inPackages then .error (.refused packagesField)
      else .ok { s with seenContent := true, inPackages := indented && s.inPackages }

theorem bracketed_eq_none_iff {tail : Str} :
    bracketed tail = none ↔
      ((!decide (tail.head? = some '[')) || !decide (tail.getLast? = some ']')) = true := by
  rw [bracketed, ite_eq_right_iff]
  simp [Decidable.imp_iff_not_or]

/-- The brackets of a list are one byte each, and two. -/
theorem slice_bracketed {tail : Str} {values : List Str} (h : bracketed tail = some values) :
    slice 1 (utf8Len tail - 1) tail = some tail.tail.dropLast ∧
      values = tail.tail.dropLast.splitOn ',' := by
  rw [bracketed] at h
  split at h
  · next hends =>
      cases h
      refine ⟨?_, rfl⟩
      cases tail with
      | nil => cases hends.1
      | cons c rest =>
          rcases List.eq_nil_or_concat rest with rfl | ⟨mid, last, rfl⟩
          · -- one character cannot be both brackets
            obtain ⟨h1, h2⟩ := hends
            cases h1
            cases h2
          · obtain ⟨h1, h2⟩ := hends
            obtain rfl : c = '[' := by simpa using h1
            obtain rfl : last = ']' := by simpa [List.getLast?_cons] using h2
            rw [List.concat_eq_append, slice_inner (by decide) (by decide)]
            simp
  · cases h

/-- After `- ` the slice is what follows. -/
theorem sliceFrom_item {trimmed : Str} (h : ['-', ' '].isPrefixOf trimmed = true) :
    sliceFrom 2 trimmed = some (trimmed.drop 2) := by
  obtain ⟨rest, rfl⟩ := List.isPrefixOf_iff_prefix.mp h
  exact sliceFrom_append ['-', ' '] rest

/-- **A line is read as its kind.** -/
theorem readLine_eq (s : Reading) (line : Str) : readLine s line = (kind line).read s := by
  rw [readLine, kind]
  by_cases htab : (line.takeWhile isWhitespace).any (· = '\t')
  · rw [if_pos htab, if_pos htab, Kind.read]
  rw [if_neg htab, if_neg htab]
  by_cases hblank : (trim line).isEmpty || (trim line).head? = some '#'
  · rw [if_pos hblank, if_pos hblank, Kind.read]
  rw [if_neg hblank, if_neg hblank]
  by_cases hmarker : trim line = ['-', '-', '-']
  · rw [if_pos hmarker, if_pos hmarker, Kind.read]
    simp
  rw [if_neg hmarker, if_neg hmarker]
  cases (packagesField ++ [':']).isPrefixOf? line with
  | some rest =>
      simp only [Kind.read]
      by_cases hfound : s.found
      · rw [if_pos hfound, if_pos hfound]
      rw [if_neg hfound, if_neg hfound]
      by_cases hnil : trim rest = []
      · rw [if_pos hnil, if_pos (List.isEmpty_iff.mpr hnil)]
      rw [if_neg hnil, if_neg (mt List.isEmpty_iff.mp hnil)]
      cases hb : bracketed (trim rest) with
      | none => rw [if_pos (bracketed_eq_none_iff.mp hb)]
      | some values =>
          -- the cut between the brackets is in range, so nothing panics here
          obtain ⟨hslice, rfl⟩ := slice_bracketed hb
          rw [if_neg (mt bracketed_eq_none_iff.mpr (by rw [hb]; simp)), hslice]
          show (scalars _).bind _ = (scalars _).map _
          cases scalars ((trim rest).tail.dropLast.splitOn ',') <;> rfl
  | none =>
      by_cases hitem : ['-', ' '].isPrefixOf (trim line)
      · rw [if_pos hitem, sliceFrom_item hitem]
        simp only [Kind.read]
        by_cases hin : s.inPackages
        · have hboth : (s.inPackages && ['-', ' '].isPrefixOf (trim line)) = true := by simp [hin, hitem]
          rw [if_pos hboth, if_pos hin]
          show (scalar _).bind _ = (scalar _).map _
          cases scalar (trim ((trim line).drop 2)) <;> rfl
        · -- the code falls through to its next branches, which both leave a closed list closed
          have hnot : ¬(s.inPackages && ['-', ' '].isPrefixOf (trim line)) = true := by simp [hin]
          rw [if_neg hnot, if_neg hin]
          cases s
          simp_all
      · rw [if_neg hitem]
        simp only [Kind.read]
        by_cases hspace : line.head? = some ' '
        · simp [hspace, hitem]
        · simp [hspace, hitem]

/-! ## Files the reader accepts -/

/-- Lines that leave the list as it is. -/
def Kind.Passes : Kind → Prop
  | .blank | .marker | .item _ => True
  | _ => False

/-- After these lines the list is open. -/
def Open (lines : List Kind) : Prop :=
  ∃ before after, lines = before ++ .head [] :: after ∧ ∀ k ∈ after, k.Passes

/-- The `packages` list has begun. -/
def Begun (lines : List Kind) : Prop := ∃ tail, .head tail ∈ lines

/-- A line in order after these: a document begins before anything else is said, there is one
list, its values are patterns, and nothing else is indented below it. -/
def InOrder (before : List Kind) : Kind → Prop
  | .tabbed => False
  | .blank => True
  | .marker => ∀ k ∈ before, k = .blank
  | .head tail => ¬Begun before ∧
      (tail = [] ∨ ∃ values, bracketed tail = some values ∧ ∀ v ∈ values.map trim, Fine v)
  | .item value => Open before → Fine value
  | .other indented => indented = true → ¬Open before

/-- A line whose first value that is no pattern is a lone quote. -/
def Chokes (before : List Kind) : Kind → Prop
  | .head tail => ¬Begun before ∧ ∃ values, bracketed tail = some values ∧ LoneFirst (values.map trim)
  | .item value => Open before ∧ LoneQuote value
  | _ => False

/-- Every line is in order after the ones before it. -/
def AllInOrder (before : List Kind) : List Kind → Prop
  | [] => True
  | k :: lines => InOrder before k ∧ AllInOrder (before ++ [k]) lines

/-! ## The reader's state -/

/-- What the state tells of the lines read. -/
structure Tells (lines : List Kind) (s : Reading) : Prop where
  found : s.found = true ↔ Begun lines
  inPackages : s.inPackages = true ↔ Open lines
  quiet : s.document = 0 ∧ s.seenContent = false ↔ ∀ k ∈ lines, k = .blank

theorem open_concat {lines : List Kind} {k : Kind} :
    Open (lines ++ [k]) ↔ k = .head [] ∨ k.Passes ∧ Open lines := by
  constructor
  · rintro ⟨before, after, heq, hafter⟩
    -- the line that opened the list is the last one, or stands before it
    rcases List.eq_nil_or_concat after with rfl | ⟨after, last, rfl⟩
    · obtain ⟨-, hk⟩ := List.append_inj' heq rfl
      exact .inl (List.cons.inj hk).1
    · have hsnoc : lines ++ [k] = (before ++ .head [] :: after) ++ [last] := by simpa using heq
      obtain ⟨rfl, hk⟩ := List.append_inj' hsnoc rfl
      obtain ⟨rfl, -⟩ := List.cons.inj hk
      refine .inr ⟨hafter k (by simp), before, after, rfl, fun k' hk' => hafter k' (by simp [hk'])⟩
  · rintro (rfl | ⟨hk, before, after, rfl, hafter⟩)
    · exact ⟨lines, [], rfl, by simp⟩
    · refine ⟨before, after ++ [k], by simp, ?_⟩
      simpa [or_imp, forall_and] using ⟨hafter, hk⟩

theorem begun_concat {lines : List Kind} {k : Kind} :
    Begun (lines ++ [k]) ↔ Begun lines ∨ ∃ tail, k = .head tail := by
  simp [Begun, exists_or, eq_comm]

theorem tells_nil : Tells [] beginning where
  found := by simp [Begun, beginning]
  inPackages := by simp [Open, beginning]
  quiet := by simp [beginning]

/-- A line is in order and read, or chokes the reader, or is refused. -/
def Judged (lines : List Kind) (s : Reading) (k : Kind) : Prop :=
  InOrder lines k ∧ ¬Chokes lines k ∧ (∃ s', k.read s = .ok s' ∧ Tells (lines ++ [k]) s') ∨
    Chokes lines k ∧ k.read s = .error .panicked ∨
      ¬InOrder lines k ∧ ¬Chokes lines k ∧ ∃ field, k.read s = .error (.refused field)

section Judged

variable {lines : List Kind} {s : Reading}

theorem judged_marker (h : Tells lines s) : Judged lines s .marker := by
  rw [Judged, Kind.read]
  by_cases hquiet : s.document = 0 ∧ s.seenContent = false
  · refine .inl ⟨h.quiet.mp hquiet, id, _, if_neg (by simp [hquiet]), ?_, ?_, ?_⟩
    · simp [begun_concat, h.found]
    · simp [open_concat, Kind.Passes, h.inPackages]
    · simp [or_imp, forall_and]
  · refine .inr (.inr ⟨mt h.quiet.mpr hquiet, id, documentField, if_pos ?_⟩)
    by_contra hno
    exact hquiet (by simpa [Nat.pos_iff_ne_zero] using hno)

/-- A line that says something leaves a state in which something was said. -/
theorem tells_concat {k : Kind} {s' : Reading} (hf : s'.found = true ↔ Begun (lines ++ [k]))
    (hi : s'.inPackages = true ↔ Open (lines ++ [k])) (hc : s'.seenContent = true) (hk : k ≠ .blank) :
    Tells (lines ++ [k]) s' where
  found := hf
  inPackages := hi
  quiet := by simp [or_imp, forall_and, hc, hk]

theorem judged_head (h : Tells lines s) (tail : Str) : Judged lines s (.head tail) := by
  rw [Judged, Kind.read]
  by_cases hfound : s.found
  · -- a second list is refused before its values are looked at
    have hbegun : Begun lines := h.found.mp hfound
    exact .inr (.inr ⟨fun hin => hin.1 hbegun, fun hin => hin.1 hbegun, packagesField, if_pos hfound⟩)
  rw [if_neg hfound]
  have hnew : ¬Begun lines := mt h.found.mpr hfound
  have hbegun : Begun (lines ++ [.head tail]) := begun_concat.mpr (.inr ⟨tail, rfl⟩)
  have hopen : Open (lines ++ [.head tail]) ↔ tail = [] := by simp [open_concat, Kind.Passes]
  by_cases hnil : tail = []
  · have hno : ¬Chokes lines (.head tail) := by
      rintro ⟨-, values, hb, -⟩
      rw [hnil] at hb
      cases hb
    refine .inl ⟨⟨hnew, .inl hnil⟩, hno, _, if_pos hnil, ?_⟩
    exact tells_concat (by simp [hbegun]) (by rw [hopen]; simp [hnil]) rfl (by simp)
  rw [if_neg hnil]
  cases hb : bracketed tail with
  | none => exact .inr (.inr ⟨by simp [InOrder, hnil, hb], by simp [Chokes, hb], packagesField, rfl⟩)
  | some values =>
      have hfine : InOrder lines (.head tail) ↔ ∀ v ∈ values.map trim, Fine v := by
        simp [InOrder, hnew, hnil, hb]
      have hlone : Chokes lines (.head tail) ↔ LoneFirst (values.map trim) := by
        simp [Chokes, hnew, hb]
      rw [hfine, hlone]
      rcases scalars_cases values with ⟨hall, patterns, hread⟩ | ⟨hfirst, hread⟩ | ⟨hall, hfirst, hread⟩
      · -- a list in brackets is over with its line
        refine .inl ⟨hall, ?_, _, congrArg (Except.map _) hread, ?_⟩
        · rintro ⟨xs, quote, ys, heq, -, hquote⟩
          exact (hall quote (by rw [heq]; simp)).2 hquote
        · exact tells_concat (by simp [hbegun]) (by simp [hopen, hnil]) rfl (by simp)
      · exact .inr (.inl ⟨hfirst, congrArg (Except.map _) hread⟩)
      · exact .inr (.inr ⟨hall, hfirst, packagesField, congrArg (Except.map _) hread⟩)

theorem judged_item (h : Tells lines s) (value : Str) : Judged lines s (.item value) := by
  have hbegun : s.found = true ↔ Begun (lines ++ [.item value]) := by simp [begun_concat, h.found]
  have hopen : s.inPackages = true ↔ Open (lines ++ [.item value]) := by
    simp [open_concat, Kind.Passes, h.inPackages]
  rw [Judged, Kind.read]
  by_cases hin : s.inPackages
  · have hopened : Open lines := h.inPackages.mp hin
    rw [if_pos hin]
    by_cases hfine : Fine value
    · rw [scalar_fine hfine]
      refine .inl ⟨fun _ => hfine, fun hc => hfine.2 hc.2, _, rfl, ?_⟩
      exact tells_concat hbegun hopen rfl (by simp)
    · by_cases hlone : LoneQuote value
      · rw [scalar_lone hlone]
        exact .inr (.inl ⟨⟨hopened, hlone⟩, rfl⟩)
      · rw [scalar_refusable (refusable_of_not_fine hfine hlone)]
        exact .inr (.inr ⟨fun hi => hfine (hi hopened), fun hc => hlone hc.2, _, rfl⟩)
  · -- outside the list the value of an item is never looked at
    have hclosed : ¬Open lines := mt h.inPackages.mpr hin
    rw [if_neg hin]
    refine .inl ⟨fun ho => absurd ho hclosed, fun hc => hclosed hc.1, _, rfl, ?_⟩
    exact tells_concat hbegun hopen rfl (by simp)

theorem judged_other (h : Tells lines s) (indented : Bool) : Judged lines s (.other indented) := by
  rw [Judged, Kind.read]
  by_cases hin : (indented && s.inPackages) = true
  · rw [if_pos hin]
    rw [Bool.and_eq_true] at hin
    exact .inr (.inr ⟨fun hi => hi hin.1 (h.inPackages.mp hin.2), id, packagesField, rfl⟩)
  · rw [if_neg hin]
    refine .inl ⟨fun hi ho => hin ?_, id, _, rfl, ?_⟩
    · rw [hi, h.inPackages.mpr ho]
      rfl
    · refine tells_concat (by simp [begun_concat, h.found]) ?_ rfl (by simp)
      simpa [open_concat, Kind.Passes] using hin

/-- Every line is judged by the lines before it alone. -/
theorem judged_of_tells (h : Tells lines s) (k : Kind) : Judged lines s k := by
  cases k with
  | tabbed => exact .inr (.inr ⟨id, id, documentField, rfl⟩)
  | blank =>
      refine .inl ⟨trivial, id, s, rfl, ?_, ?_, ?_⟩
      · simp [begun_concat, h.found]
      · simp [open_concat, Kind.Passes, h.inPackages]
      · simpa [or_imp, forall_and] using h.quiet
  | marker => exact judged_marker h
  | head tail => exact judged_head h tail
  | item value => exact judged_item h value
  | other indented => exact judged_other h indented

end Judged

/-! ## Runs -/

/-- Of the lines `lines` after `before`, one chokes the reader that all lines before it are in
order to reach. -/
def ChokesIn (before lines : List Kind) : Prop :=
  ∃ xs k ys, lines = xs ++ k :: ys ∧ AllInOrder before xs ∧ Chokes (before ++ xs) k

theorem chokesIn_cons {before lines : List Kind} {k : Kind} :
    ChokesIn before (k :: lines) ↔
      Chokes before k ∨ InOrder before k ∧ ChokesIn (before ++ [k]) lines := by
  constructor
  · rintro ⟨xs, k', ys, heq, hxs, hk'⟩
    cases xs with
    | nil =>
        obtain ⟨rfl, -⟩ := List.cons.inj heq
        exact .inl (by simpa using hk')
    | cons x xs =>
        obtain ⟨rfl, rfl⟩ := List.cons.inj heq
        exact .inr ⟨hxs.1, xs, k', ys, rfl, hxs.2, by simpa using hk'⟩
  · rintro (hk | ⟨hk, xs, k', ys, rfl, hxs, hk'⟩)
    · exact ⟨[], k, lines, rfl, trivial, by simpa using hk⟩
    · exact ⟨k :: xs, k', ys, rfl, ⟨hk, hxs⟩, by simpa using hk'⟩

/-- The reader panics on the first line that is not in order, or not at all. -/
theorem run_panics_iff {before lines : List Kind} {s : Reading} (h : Tells before s) :
    lines.foldlM Kind.read s = .error .panicked ↔ ChokesIn before lines := by
  -- over the lines; what carries it is that the state tells of the lines before
  induction lines generalizing before s with
  | nil =>
      refine iff_of_false (fun hpanic => nomatch hpanic) ?_
      rintro ⟨xs, k, ys, heq, -⟩
      simp at heq
  | cons k lines ih =>
      rw [chokesIn_cons, List.foldlM_cons]
      rcases judged_of_tells h k with
        ⟨hin, hno, s', hread, hs'⟩ | ⟨hchoke, hread⟩ | ⟨hin, hno, field, hread⟩
      · rw [hread]
        show lines.foldlM Kind.read s' = _ ↔ _
        rw [ih hs']
        simp [hin, hno]
      · rw [hread]
        exact iff_of_true rfl (.inl hchoke)
      · rw [hread]
        refine iff_of_false (fun hpanic => nomatch hpanic) ?_
        rintro (hchoke | ⟨hin', -⟩)
        · exact hno hchoke
        · exact hin hin'

/-- Files in which the reader gets to a lone quote where it expects a value. -/
def LoneQuoteReached (text : Str) : Prop := ChokesIn [] ((lines text).map kind)

/-- **When reading panics.** For every text the reader returns patterns or refuses, and never
panics, unless it gets to a lone quote where it expects a value. -/
theorem parsePnpm_returns_iff (text : Str) :
    parsePnpm text ≠ .error .panicked ↔ ¬LoneQuoteReached text := by
  rw [LoneQuoteReached, ← run_panics_iff tells_nil, List.foldlM_map]
  refine not_congr ?_
  have hstep : (fun s line => Kind.read s (kind line)) = readLine := by
    funext s line
    exact (readLine_eq s line).symm
  rw [hstep, parsePnpm]
  cases (lines text).foldlM readLine beginning with
  | ok s => exact iff_of_false (fun h => nomatch h) fun h => nomatch h
  | error halt =>
      show Except.error halt = _ ↔ _
      simp

/-- A list with one item, a quote that nothing closes. -/
theorem lone_quote_panics :
    ¬∀ text, parsePnpm text ≠ .error .panicked := by
  intro h
  refine h (packagesField ++ [':', '\n', '-', ' ', '"']) ?_
  decide

end Devscout.Ts
