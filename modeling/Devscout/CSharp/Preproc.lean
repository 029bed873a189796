/-
# Devscout.CSharp.Preproc -- the conditional-compilation pre-pass

Before a C# file is parsed, every inactive line and every conditional directive line
is overwritten with spaces, byte for byte. The pre-pass reads the file line by line
with three things in hand: the symbols defined so far, a stack of frames, one for
each open `#if` group, and the lexical state in which the next active line begins.
-/

import Devscout.Lib.Text

namespace Devscout.Preproc

open Lib

/-- The byte of an ASCII character. -/
def byte (c : Char) : UInt8 := c.toUInt8

def bytesOf (s : String) : Bytes := s.toList.map byte

def isBlank (b : UInt8) : Bool := b == byte ' ' || b == byte '\t'

/-! ## Lines -/

/-- One line: its bytes, its terminator, and whether it is the file's first. -/
structure SourceLine where
  bytes : Bytes
  terminator : Bytes
  first : Bool
  deriving DecidableEq

/-- Lines from a partly read one on, its bytes read so far reversed. -/
def linesFrom (first : Bool) (read : Bytes) : Bytes → List SourceLine
  | [] => [⟨read.reverse, [], first⟩]
  | 0x0D :: 0x0A :: rest =>
      ⟨read.reverse, [0x0D, 0x0A], first⟩ :: if rest.isEmpty then [] else linesFrom false [] rest
  | b :: rest =>
      if b == 0x0A || b == 0x0D then
        ⟨read.reverse, [b], first⟩ :: if rest.isEmpty then [] else linesFrom false [] rest
      else linesFrom first (b :: read) rest

/-- `line_spans`: split on `\n`, `\r\n` or a lone `\r`. -/
def lineSpans (source : Bytes) : List SourceLine := linesFrom true [] source

/-- A line as it is written out: as it was, or blanked. -/
def renderLine (line : SourceLine) (kept : Bool) : Bytes :=
  (if kept then line.bytes else line.bytes.map fun _ => byte ' ') ++ line.terminator

/-! ## Directives -/

def isAsciiIdentStart (b : UInt8) : Bool :=
  (byte 'a' ≤ b && b ≤ byte 'z') || (byte 'A' ≤ b && b ≤ byte 'Z') || b == byte '_'

def isAsciiIdentContinue (b : UInt8) : Bool :=
  isAsciiIdentStart b || (byte '0' ≤ b && b ≤ byte '9')

/-- The identifier a text begins with, possibly empty, and what follows it. -/
def takeIdent (bytes : Bytes) : Bytes × Bytes :=
  match bytes with
  | [] => ([], [])
  | b :: rest =>
      if isAsciiIdentStart b then
        (b :: rest.takeWhile isAsciiIdentContinue, rest.dropWhile isAsciiIdentContinue)
      else ([], bytes)

example : takeIdent [byte 'a', byte '1', byte ' '] = ([byte 'a', byte '1'], [byte ' ']) := by decide +kernel

structure DirectiveLine where
  keyword : Bytes
  rest : Bytes
  deriving DecidableEq

def byteOrderMark : Bytes := [0xEF, 0xBB, 0xBF]

/-- `parse_directive`: the first byte that is no blank is `#`. -/
def parseDirective (line : Bytes) (isFirstLine : Bool) : Option DirectiveLine :=
  let start := if isFirstLine && byteOrderMark.isPrefixOf line then line.drop 3 else line
  match start.dropWhile isBlank with
  | [] => none
  | b :: rest =>
      if b == byte '#' then
        let ident := takeIdent (rest.dropWhile isBlank)
        some ⟨ident.1, ident.2⟩
      else none

/-- The keywords that open, divide or close a group. -/
inductive GroupKeyword where
  | if_
  | elif
  | else_
  | endif
  deriving DecidableEq

inductive SymbolKeyword where
  | define
  | undef
  deriving DecidableEq

/-- A directive's keyword, as far as the pre-pass tells them apart. -/
inductive Keyword where
  | group (k : GroupKeyword)
  | symbol (k : SymbolKeyword)
  | other
  deriving DecidableEq

def keywordOf (keyword : Bytes) : Keyword :=
  if keyword = bytesOf "if" then .group .if_
  else if keyword = bytesOf "elif" then .group .elif
  else if keyword = bytesOf "else" then .group .else_
  else if keyword = bytesOf "endif" then .group .endif
  else if keyword = bytesOf "define" then .symbol .define
  else if keyword = bytesOf "undef" then .symbol .undef
  else .other

/-- `is_conditional_keyword`. -/
def isConditionalKeyword (keyword : Bytes) : Bool := keywordOf keyword != .other

/-! ## Conditions -/

abbrev Symbols := List Bytes

def Symbols.insert (symbols : Symbols) (s : Bytes) : Symbols :=
  if symbols.contains s then symbols else s :: symbols

def Symbols.remove (symbols : Symbols) (s : Bytes) : Symbols := symbols.filter (· != s)

/-- `parse_symbol_ident`. -/
def parseSymbolIdent (rest : Bytes) : Option Bytes :=
  let ident := (takeIdent (rest.dropWhile isBlank)).1
  if ident.isEmpty then none else some ident

/-- `strip_comment`: what stands before the first `//`. -/
def stripComment : Bytes → Bytes
  | [] => []
  | b :: rest => if b == byte '/' && rest.head? == some (byte '/') then [] else b :: stripComment rest

inductive Tok where
  | ident (name : Bytes)
  | true_
  | false_
  | not
  | andAnd
  | orOr
  | eqEq
  | notEq
  | lParen
  | rParen
  deriving DecidableEq

def isCondIdentStart (b : UInt8) : Bool := isAsciiIdentStart b || 0x80 ≤ b

def isCondIdentContinue (b : UInt8) : Bool := isAsciiIdentContinue b || 0x80 ≤ b

def identTok (text : Bytes) : Tok :=
  if text = bytesOf "true" then .true_ else if text = bytesOf "false" then .false_ else .ident text

/-- The first token of a text and what follows it; blanks are no token. -/
def nextTok : Bytes → Option (Option Tok × Bytes)
  | [] => none
  | b :: rest =>
      if isBlank b then some (none, rest)
      else if b == byte '(' then some (some .lParen, rest)
      else if b == byte ')' then some (some .rParen, rest)
      else if b == byte '!' then
        if rest.head? == some (byte '=') then some (some .notEq, rest.drop 1)
        else some (some .not, rest)
      else if b == byte '&' && rest.head? == some (byte '&') then some (some .andAnd, rest.drop 1)
      else if b == byte '|' && rest.head? == some (byte '|') then some (some .orOr, rest.drop 1)
      else if b == byte '=' && rest.head? == some (byte '=') then some (some .eqEq, rest.drop 1)
      else if isCondIdentStart b then
        let text := b :: rest.takeWhile isCondIdentContinue
        if Text.isUtf8 text then some (some (identTok text), rest.dropWhile isCondIdentContinue)
        else none
      else none

theorem nextTok_length {bytes rest : Bytes} {tok : Option Tok}
    (h : nextTok bytes = some (tok, rest)) : rest.length < bytes.length := by
  cases bytes with
  | nil => cases h
  | cons b bs =>
      have hdrop : ∀ n, (bs.drop n).length < (b :: bs).length := by
        intro n
        simp only [List.length_drop, List.length_cons]
        omega
      have hwhile : (bs.dropWhile isCondIdentContinue).length < (b :: bs).length :=
        Nat.lt_succ_of_le (List.dropWhile_sublist _).length_le
      simp only [nextTok] at h
      repeat' split at h
      all_goals cases h
      all_goals first
        | exact hdrop 0
        | exact hdrop 1
        | exact hwhile

/-- `tokenize`. -/
def tokenize (input : Bytes) : Option (List Tok) :=
  match input with
  | [] => some []
  | b :: bs =>
      match h : nextTok (b :: bs) with
      | none => none
      | some (tok, rest) => (tokenize rest).map fun toks => tok.toList ++ toks
termination_by input.length
decreasing_by exact nextTok_length h

/-- A parsed truth value and the tokens left, fewer than there were. -/
abbrev Parsed (toks : List Tok) := Option (Bool × { rest : List Tok // rest.length < toks.length })

/-- The same with possibly nothing consumed. -/
abbrev Chained (toks : List Tok) := Option (Bool × { rest : List Tok // rest.length ≤ toks.length })

mutual

def parseOr (symbols : Symbols) (toks : List Tok) : Parsed toks :=
  match parseAnd symbols toks with
  | none => none
  | some (v, ⟨rest, h⟩) =>
      match orChain symbols v rest with
      | none => none
      | some (v, ⟨rest', h'⟩) => some (v, ⟨rest', lt_of_le_of_lt h' h⟩)
termination_by (toks.length, 5)

def orChain (symbols : Symbols) (v : Bool) (toks : List Tok) : Chained toks :=
  match toks with
  | .orOr :: ts =>
      match parseAnd symbols ts with
      | none => none
      | some (w, ⟨rest, h⟩) =>
          match orChain symbols (w || v) rest with
          | none => none
          | some (v, ⟨rest', h'⟩) =>
              some (v, ⟨rest', by simp only [List.length_cons]; omega⟩)
  | ts => some (v, ⟨ts, le_rfl⟩)
termination_by (toks.length, 0)

def parseAnd (symbols : Symbols) (toks : List Tok) : Parsed toks :=
  match parseEq symbols toks with
  | none => none
  | some (v, ⟨rest, h⟩) =>
      match andChain symbols v rest with
      | none => none
      | some (v, ⟨rest', h'⟩) => some (v, ⟨rest', lt_of_le_of_lt h' h⟩)
termination_by (toks.length, 4)

def andChain (symbols : Symbols) (v : Bool) (toks : List Tok) : Chained toks :=
  match toks with
  | .andAnd :: ts =>
      match parseEq symbols ts with
      | none => none
      | some (w, ⟨rest, h⟩) =>
          match andChain symbols (w && v) rest with
          | none => none
          | some (v, ⟨rest', h'⟩) =>
              some (v, ⟨rest', by simp only [List.length_cons]; omega⟩)
  | ts => some (v, ⟨ts, le_rfl⟩)
termination_by (toks.length, 0)

def parseEq (symbols : Symbols) (toks : List Tok) : Parsed toks :=
  match parseUnary symbols toks with
  | none => none
  | some (v, ⟨rest, h⟩) =>
      match eqChain symbols v rest with
      | none => none
      | some (v, ⟨rest', h'⟩) => some (v, ⟨rest', lt_of_le_of_lt h' h⟩)
termination_by (toks.length, 3)

def eqChain (symbols : Symbols) (v : Bool) (toks : List Tok) : Chained toks :=
  match toks with
  | .eqEq :: ts =>
      match parseUnary symbols ts with
      | none => none
      | some (w, ⟨rest, h⟩) =>
          match eqChain symbols (v == w) rest with
          | none => none
          | some (v, ⟨rest', h'⟩) =>
              some (v, ⟨rest', by simp only [List.length_cons]; omega⟩)
  | .notEq :: ts =>
      match parseUnary symbols ts with
      | none => none
      | some (w, ⟨rest, h⟩) =>
          match eqChain symbols (v != w) rest with
          | none => none
          | some (v, ⟨rest', h'⟩) =>
              some (v, ⟨rest', by simp only [List.length_cons]; omega⟩)
  | ts => some (v, ⟨ts, le_rfl⟩)
termination_by (toks.length, 0)

def parseUnary (symbols : Symbols) (toks : List Tok) : Parsed toks :=
  match toks with
  | .not :: ts =>
      match parseUnary symbols ts with
      | none => none
      | some (v, ⟨rest, h⟩) => some (!v, ⟨rest, Nat.lt_succ_of_lt h⟩)
  | ts => parsePrimary symbols ts
termination_by (toks.length, 2)

def parsePrimary (symbols : Symbols) (toks : List Tok) : Parsed toks :=
  match toks with
  | .lParen :: ts =>
      match parseOr symbols ts with
      | some (v, ⟨.rParen :: rest, h⟩) =>
          some (v, ⟨rest, by simp only [List.length_cons] at h ⊢; omega⟩)
      | _ => none
  | .true_ :: ts => some (true, ⟨ts, Nat.lt_succ_self _⟩)
  | .false_ :: ts => some (false, ⟨ts, Nat.lt_succ_self _⟩)
  | .ident name :: ts => some (symbols.contains name, ⟨ts, Nat.lt_succ_self _⟩)
  | _ => none
termination_by (toks.length, 1)

end

/-- `eval`: the truth of a condition, or none when it is malformed. -/
def eval (condition : Bytes) (symbols : Symbols) : Option Bool :=
  match tokenize condition with
  | none => none
  | some toks =>
      if toks.isEmpty then none
      else
        match parseOr symbols toks with
        | some (v, ⟨[], _⟩) => some v
        | _ => none

/-- What a directive line's condition comes to; a malformed one is false. -/
def holds (symbols : Symbols) (rest : Bytes) : Bool := (eval (stripComment rest) symbols).getD false

/-! ## The frame stack -/

structure Frame where
  parentActive : Bool
  taken : Bool
  active : Bool
  deriving DecidableEq

/-- `current_active`. -/
def currentActive (stack : List Frame) : Bool := (stack.head?.map Frame.active).getD true

/-- `process_conditional`, the frames: the innermost group first. -/
def processGroup (keyword : GroupKeyword) (rest : Bytes) (symbols : Symbols) (stack : List Frame) :
    List Frame :=
  match keyword, stack with
  | .if_, stack =>
      let parent := currentActive stack
      let v := parent && holds symbols rest
      ⟨parent, v, v⟩ :: stack
  | .elif, top :: below =>
      if !top.parentActive || top.taken then { top with active := false } :: below
      else
        let v := holds symbols rest
        { top with taken := v, active := v } :: below
  | .else_, top :: below => { top with active := top.parentActive && !top.taken, taken := true } :: below
  | .endif, _ :: below => below
  | _, [] => []

/-- `process_conditional`, the symbols. -/
def processSymbol (keyword : SymbolKeyword) (rest : Bytes) (symbols : Symbols)
    (stack : List Frame) : Symbols :=
  if currentActive stack then
    match parseSymbolIdent rest with
    | none => symbols
    | some s =>
        match keyword with
        | .define => symbols.insert s
        | .undef => symbols.remove s
  else symbols

/-! ## The lexical tracker -/

inductive LexState where
  | code
  | blockComment
  | verbatimString
  | rawString (quotes : Nat)
  deriving DecidableEq

/-- How many bytes a run of quotes has. -/
def quoteRun (after : Bytes) : Nat := (after.takeWhile (· == byte '"')).length

/-- Bytes up to and with the closing delimiter of a string or character literal, a
backslash taking the byte after it along. -/
def literalEnd (delim : UInt8) : Bytes → Nat
  | [] => 0
  | b :: rest =>
      if b == byte '\\' then
        match rest with
        | [] => 1
        | _ :: rest => 2 + literalEnd delim rest
      else if b == delim then 1
      else 1 + literalEnd delim rest

/-- The offset just past the first `*/`. -/
def commentEnd : Bytes → Option Nat
  | [] => none
  | b :: rest =>
      if b == byte '*' && rest.head? == some (byte '/') then some 2
      else (commentEnd rest).map (· + 1)

/-- The offset just past the quote that closes a verbatim string; a doubled one
does not. -/
def verbatimEnd : Bytes → Option Nat
  | [] => none
  | b :: rest =>
      if b == byte '"' then
        match rest with
        | c :: rest => if c == byte '"' then (verbatimEnd rest).map (· + 2) else some 1
        | [] => some 1
      else (verbatimEnd rest).map (· + 1)

/-- The offset just past the first run of at least `quotes` quotes, `run` quotes of the
current run being read. -/
def rawEnd (quotes run : Nat) : Bytes → Option Nat
  | [] => if run ≠ 0 ∧ quotes ≤ run then some 0 else none
  | b :: rest =>
      if b == byte '"' then (rawEnd quotes (run + 1) rest).map (· + 1)
      else if run ≠ 0 ∧ quotes ≤ run then some 0
      else (rawEnd quotes 0 rest).map (· + 1)

/-- Whether the quote that follows `before`, read backwards, opens a verbatim string. -/
def isVerbatimAt (before : Bytes) : Bool :=
  match before with
  | [] => false
  | b :: rest =>
      b == byte '@' ||
        match rest with
        | [] => false
        | a :: _ => (a == byte '$' && b == byte '@') || (a == byte '@' && b == byte '$')

/-- One turn of the tracker in code: the state after it, and how far it moved. -/
def scanCode (before after : Bytes) : LexState × Nat :=
  match after with
  | [] => (.code, 0)
  | b :: rest =>
      if b == byte '/' && rest.head? == some (byte '/') then (.code, after.length)
      else if b == byte '/' && rest.head? == some (byte '*') then (.blockComment, 2)
      else if b == byte '"' then
        if isVerbatimAt before then (.verbatimString, 1)
        else if 3 ≤ quoteRun after then (.rawString (quoteRun after), quoteRun after)
        else (.code, 1 + literalEnd (byte '"') rest)
      else if b == byte '\'' then (.code, 1 + literalEnd (byte '\'') rest)
      else (.code, 1)

/-- One turn of the tracker. -/
def scanTurn (state : LexState) (before after : Bytes) : LexState × Nat :=
  let ended := fun (e : Option Nat) =>
    match e with
    | some n => (LexState.code, n)
    | none => (state, after.length)
  match state with
  | .code => scanCode before after
  | .blockComment => ended (commentEnd after)
  | .verbatimString => ended (verbatimEnd after)
  | .rawString quotes => ended (rawEnd quotes 0 after)

/-- Turns until the line is read; every turn reads a byte, so its length is enough. -/
def scanTurns : Nat → LexState → Bytes → Bytes → LexState
  | 0, state, _, _ => state
  | turns + 1, state, before, after =>
      if after.isEmpty then state
      else
        let turn := scanTurn state before after
        scanTurns turns turn.1 ((after.take turn.2).reverse ++ before) (after.drop turn.2)

/-- `scan_line`. -/
def scanLine (state : LexState) (line : Bytes) : LexState := scanTurns line.length state [] line

/-! ## The pass -/

structure Tracker where
  symbols : Symbols
  stack : List Frame
  state : LexState
  deriving DecidableEq

/-- The directive a line is taken for: in an active region only where code begins. -/
def directiveAt (active : Bool) (state : LexState) (line : SourceLine) : Option DirectiveLine :=
  if active && state != .code then none else parseDirective line.bytes line.first

/-- One line: the tracker after it, and whether the line is kept. -/
def step (t : Tracker) (line : SourceLine) : Tracker × Bool :=
  let active := currentActive t.stack
  match directiveAt active t.state line with
  | some d =>
      match keywordOf d.keyword with
      | .group k => ({ t with stack := processGroup k d.rest t.symbols t.stack }, false)
      | .symbol k => ({ t with symbols := processSymbol k d.rest t.symbols t.stack }, false)
      | .other => (t, active)
  | none => if active then ({ t with state := scanLine t.state line.bytes }, true) else (t, false)

/-- Which lines are kept. -/
def keptLines : Tracker → List SourceLine → List Bool
  | _, [] => []
  | t, line :: rest => (step t line).2 :: keptLines (step t line).1 rest

/-- `strip_inactive_with`. -/
def stripInactiveWith (source : Bytes) (predefined : List Bytes) : Bytes :=
  let lines := lineSpans source
  (List.zipWith renderLine lines (keptLines ⟨predefined, [], .code⟩ lines)).flatten

end Devscout.Preproc
