/-
# Devscout.Transport.Settings -- reading the settings files of a project

The reader takes JSON with comments and trailing commas and keeps what a configuration key
can lead to: strings, and objects with their entries as they are written. Arrays, numbers and
the three words are read and forgotten. A key is looked up part by part, each part as the
whole name of one entry; two entries of one name make the value unreadable.

Every method takes the text at the cursor and answers the text left over. The loops that
call each other are bounded by the length of the text, which no call reaches.
-/

import Devscout.Lib.Text

namespace Devscout.Transport

open Lib Text

inductive Json where
  | str (s : Str)
  | object (entries : List (Str × Json))
  | other

inductive Found where
  | missing
  | text (s : Str)
  | unreadable
  deriving DecidableEq

/-! ## Comments and white space -/

/-- Where `skip` is: outside of comments, behind a slash, in a line comment, or in a block
comment with the last character a star or not. -/
inductive Skipping where
  | outside
  | slash
  | line
  | block (star : Bool)

/-- `skip` and `block_comment`: the text behind white space and comments. -/
def skipFrom : Skipping → Str → Option Str
  | .outside, [] => some []
  | .outside, c :: cs =>
      if isWhitespace c then skipFrom .outside cs
      else if c = '/' then skipFrom .slash cs
      else some (c :: cs)
  | .slash, [] => none
  | .slash, c :: cs =>
      if c = '/' then skipFrom .line cs
      else if c = '*' then skipFrom (.block false) cs
      else none
  | .line, [] => some []
  | .line, c :: cs => if c = '\n' then skipFrom .outside cs else skipFrom .line cs
  | .block _, [] => none
  | .block star, c :: cs =>
      if star ∧ c = '/' then skipFrom .outside cs else skipFrom (.block (c = '*')) cs

def skip (s : Str) : Option Str := skipFrom .outside s

/-! ## Strings -/

def toDigit16 (c : Char) : Option Nat :=
  if '0' ≤ c ∧ c ≤ '9' then some (c.toNat - 48)
  else if 'a' ≤ c ∧ c ≤ 'f' then some (c.toNat - 87)
  else if 'A' ≤ c ∧ c ≤ 'F' then some (c.toNat - 55)
  else none

def hex4From : Nat → Nat → Str → Option (Nat × Str)
  | 0, unit, s => some (unit, s)
  | _ + 1, _, [] => none
  | n + 1, unit, c :: cs => (toDigit16 c).bind fun d => hex4From n (unit * 16 + d) cs

def hex4 (s : Str) : Option (Nat × Str) := hex4From 4 0 s

/-- `char::from_u32`. -/
def fromU32 (n : Nat) : Option Char := if n.isValidChar then some (Char.ofNat n) else none

/-- The escapes of one letter. -/
def shortEscape (c : Char) : Option Char :=
  if c = 'n' then some '\n'
  else if c = 't' then some '\t'
  else if c = 'r' then some '\r'
  else if c = 'b' then some (Char.ofNat 8)
  else if c = 'f' then some (Char.ofNat 12)
  else if c = '"' ∨ c = '\\' ∨ c = '/' then some c
  else none

/-- A code unit, and the low half behind a high one. -/
def unicodeEscape (s : Str) : Option (Char × Str) := do
  let (unit, s) ← hex4 s
  if ¬ (0xD800 ≤ unit ∧ unit < 0xDC00) then
    let c ← fromU32 unit
    some (c, s)
  else
    match s with
    | '\\' :: 'u' :: s =>
        let (low, s) ← hex4 s
        if 0xDC00 ≤ low ∧ low < 0xE000 then
          let c ← fromU32 (0x10000 + (unit - 0xD800) * 0x400 + (low - 0xDC00))
          some (c, s)
        else none
    | _ => none

/-- What stands behind a backslash. -/
def escape : Str → Option (Char × Str)
  | [] => none
  | c :: cs => if c = 'u' then unicodeEscape cs else (shortEscape c).map fun e => (e, cs)

/-- The characters up to the closing quote. -/
def stringFrom : Nat → Str → Option (Str × Str)
  | 0, _ => none
  | _ + 1, [] => none
  | n + 1, c :: cs =>
      if c = '"' then some ([], cs)
      else if c = '\\' then do
        let (e, s) ← escape cs
        let (out, s) ← stringFrom n s
        some (e :: out, s)
      else if c < ' ' then none
      else (stringFrom n cs).map fun r => (c :: r.1, r.2)

def string (s : Str) : Option (Str × Str) :=
  match s with
  | '"' :: cs => stringFrom s.length cs
  | _ => none

/-! ## Scalars -/

def isAsciiDigit (c : Char) : Bool := '0' ≤ c && c ≤ '9'

def isTokenChar (c : Char) : Bool :=
  isAsciiDigit c || ('a' ≤ c && c ≤ 'z') || ('A' ≤ c && c ≤ 'Z') || c ∈ ['+', '-', '.']

/-- The text without the leading character, when it is one of these. -/
def stripAny (cs : List Char) : Str → Str
  | [] => []
  | c :: s => if c ∈ cs then s else c :: s

/-- How many digits a text begins with, and what follows them. -/
def digits (s : Str) : Nat × Str := ((s.takeWhile isAsciiDigit).length, s.dropWhile isAsciiDigit)

/-- The digits behind an exponent's letter and sign. -/
def exponentEnds (rest : Str) : Bool :=
  match rest with
  | [] => true
  | c :: exponent =>
      if c = 'e' ∨ c = 'E' then
        let (n, rest) := digits (stripAny ['+', '-'] exponent)
        n ≠ 0 && rest.isEmpty
      else false

/-- `is_number`. -/
def isNumber (token : Str) : Bool :=
  let (n, rest) := digits (stripAny ['-'] token)
  if n = 0 ∨ (1 < n ∧ (token.dropWhile (· = '-')).head? = some '0') then false
  else
    match rest with
    | '.' :: fraction =>
        let (n, rest) := digits fraction
        n ≠ 0 && exponentEnds rest
    | rest => exponentEnds rest

/-- A word or a number; any other token makes the file unreadable. -/
def scalar (s : Str) : Option (Json × Str) :=
  let token := s.takeWhile isTokenChar
  if token ∈ ["true".toList, "false".toList, "null".toList] ∨ isNumber token then
    some (.other, s.dropWhile isTokenChar)
  else none

/-! ## Values -/

/-- The character that has to come next. -/
def expect (c : Char) : Str → Option Str
  | [] => none
  | d :: s => if d = c then some s else none

/-- One turn of the loop of `object`, up to what stands behind the value. -/
def entry (value : Str → Option (Json × Str)) (s : Str) : Option ((Str × Json) × Str) := do
  let (key, s) ← string s
  let s ← skip s
  let s ← expect ':' s
  let (v, s) ← value s
  let s ← skip s
  some ((key, v), s)

/-- One turn of the loop of `array`. -/
def item (value : Str → Option (Json × Str)) (s : Str) : Option Str := do
  let (_, s) ← value s
  skip s

mutual

def value : Nat → Str → Option (Json × Str)
  | 0, _ => none
  | n + 1, s => (skip s).bind fun s =>
      match s with
      | [] => none
      | '\x7b' :: cs => (entries n cs).map fun r => (.object r.1, r.2)
      | '[' :: cs => (items n cs).map fun s => (.other, s)
      | '"' :: cs => (string ('"' :: cs)).map fun r => (.str r.1, r.2)
      | s => scalar s

/-- The entries up to the closing brace. -/
def entries : Nat → Str → Option (List (Str × Json) × Str)
  | 0, _ => none
  | n + 1, s => (skip s).bind fun s =>
      if s.head? = some '\x7d' then some ([], s.tail)
      else (entry (value n) s).bind fun r =>
        match r.2 with
        | ',' :: s => (entries n s).map fun rs => (r.1 :: rs.1, rs.2)
        | '\x7d' :: s => some ([r.1], s)
        | _ => none

/-- What is left behind the closing bracket. -/
def items : Nat → Str → Option Str
  | 0, _ => none
  | n + 1, s => (skip s).bind fun s =>
      if s.head? = some ']' then some s.tail
      else (item (value n) s).bind fun s =>
        match s with
        | ',' :: s => items n s
        | ']' :: s => some s
        | _ => none

end

def BOM : Char := Char.ofNat 0xFEFF

def parse (text : Str) : Option Json := do
  let text := stripAny [BOM] text
  let (json, s) ← value (text.length + 1) text
  let s ← skip s
  if s = [] then some json else none

/-! ## Looking a key up -/

/-- `eq_ignore_ascii_case`. -/
def eqIgnoreAsciiCase (a b : Str) : Bool := a.map Char.toLower == b.map Char.toLower

def lookupParts : Json → List Str → Found
  | .str s, [] => .text s
  | _, [] => .unreadable
  | .object entries, part :: parts =>
      match entries.filter fun e => eqIgnoreAsciiCase e.1 part with
      | [] => .missing
      | [e] => lookupParts e.2 parts
      | _ => .unreadable
  | _, _ :: _ => .missing

def lookup (json : Json) (key : Str) : Found := lookupParts json (key.splitOn ':')

example : (parse "\x7b\"a\": \x7b\"B\": \"x\",\x7d,\x7d".toList).map (lookup · "A:b".toList) =
    some (.text ['x']) := by decide +kernel

end Devscout.Transport
