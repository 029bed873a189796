/-
# Devscout.Template.Markup -- the markup half of the template scan

One pass over the bytes of a template turns it into events: start tags with their
attributes, end tags, the interpolations of the text between them, and gaps. The scanner
moves one cursor, which is a byte offset and a line, and takes its slices of the text by
offset; a slice out of range or inside a character ends the process, and so does a range of
bytes whose ends are the wrong way round. Every such access is checked here, and a checked
function answers `none` where it fails or where its loop has not ended in time.

The source keeps the lines of what it reads. Here each line is kept together with the
offset it was told at.
-/

import Devscout.Lib.Utf8

namespace Devscout.Template

open Lib

/-! ## Events -/

/-- A byte offset, and the line the scanner is on there. -/
structure Place where
  i : Nat
  line : Nat
  deriving DecidableEq

inductive GapReason where
  | controlFlowBlock
  | unparsedExpression
  deriving DecidableEq

/-- One attribute as written, with the place of its name, and its value with the place that the
value starts at. A bare attribute has no value. -/
structure Attr where
  name : Str
  place : Place
  value : Option (Str × Place)
  deriving DecidableEq

inductive Event where
  /-- A start tag; `closes` for a self-closing or void element. -/
  | open_ (tag : Str) (attrs : List Attr) (closes : Bool)
  | close (tag : Str)
  /-- The expression between the braces, with the place it starts at. -/
  | interp (expr : Str) (place : Place)
  | gap (place : Place) (reason : GapReason)
  deriving DecidableEq

def VOID_ELEMENTS : List Str :=
  ["area".toList, "base".toList, "br".toList, "col".toList, "embed".toList, "hr".toList, "img".toList,
    "input".toList, "link".toList, "meta".toList, "param".toList, "source".toList, "track".toList,
    "wbr".toList]

def RAW_TEXT_ELEMENTS : List Str := ["script".toList, "style".toList]

/-- The keywords that open a built-in control flow block after an `@`. -/
def BLOCK_KEYWORDS : List Str :=
  ["if".toList, "else".toList, "for".toList, "empty".toList, "switch".toList, "case".toList,
    "default".toList, "defer".toList, "placeholder".toList, "loading".toList, "error".toList, "let".toList]

/-! ## Bytes -/

/-- The byte of a character below `0x80`. -/
def ascii (c : Char) : UInt8 := c.toUInt8

def isAlpha (b : UInt8) : Bool :=
  (ascii 'a' ≤ b && b ≤ ascii 'z') || (ascii 'A' ≤ b && b ≤ ascii 'Z')

def isDigit (b : UInt8) : Bool := ascii '0' ≤ b && b ≤ ascii '9'

/-- `is_ascii_whitespace`. -/
def isSpace (b : UInt8) : Bool := b ∈ [0x20, 0x09, 0x0A, 0x0C, 0x0D]

/-- `is_name_char`. -/
def isNameChar (b : UInt8) : Bool :=
  isAlpha b || isDigit b || b ∈ [ascii '-', ascii '_', ascii ':', ascii '.']

/-- `newlines`. -/
def newlines (bytes : Bytes) : Nat := bytes.countP (· == 0x0A)

def lowerByte (b : UInt8) : UInt8 := if ascii 'A' ≤ b && b ≤ ascii 'Z' then b + 0x20 else b

/-- A window equals the needle, whatever the case of their letters. -/
def startsWith : Bytes → Bytes → Bool
  | [], _ => true
  | _ :: _, [] => false
  | n :: ns, b :: bs => lowerByte n == lowerByte b && startsWith ns bs

def findIn (needle : Bytes) : Bytes → Option Nat
  | [] => none
  | b :: bs => if startsWith needle (b :: bs) then some 0 else (findIn needle bs).map (· + 1)

/-- `find`: where the needle stands at or after an offset. -/
def find (bytes : Bytes) (from_ : Nat) (needle : Bytes) : Option Nat :=
  (findIn needle (bytes.drop from_)).map (from_ + ·)

/-- `while i < n && p(bytes[i]) { i += 1 }`, with `n - i` turns left. -/
def skipWhile (p : UInt8 → Bool) (bytes : Bytes) : Nat → Nat → Nat
  | 0, i => i
  | left + 1, i => if bytes[i]?.any p then skipWhile p bytes left (i + 1) else i

/-! ## The runs of text -/

/-- The lines of a range of bytes; `none` when its ends are the wrong way round. -/
def newlinesIn (bytes : Bytes) (start stop : Nat) : Option Nat :=
  if start ≤ stop ∧ stop ≤ bytes.length then some (newlines ((bytes.take stop).drop start)) else none

/-- `interpolations`, from offset `i` on; `base` is where the text starts in the template. -/
def interpolationsFrom (text : Str) (base : Nat) :
    Nat → Nat → Nat → Option (List (Except Place (Str × Place)))
  | 0, _, _ => none
  | turns + 1, i, line =>
      let bytes := Utf8.encode text
      match find bytes i [ascii '\x7b', ascii '\x7b'] with
      | none => some []
      | some open_ => do
          let line := line + (← newlinesIn bytes i open_)
          match find bytes (open_ + 2) [ascii '\x7d', ascii '\x7d'] with
          | none => some [.error ⟨base + open_, line⟩]
          | some close => do
              let expr ← Text.slice (open_ + 2) close text
              let after ← newlinesIn bytes open_ close
              let rest ← interpolationsFrom text base turns (close + 2) (line + after)
              some (.ok (expr, ⟨base + (open_ + 2), line⟩) :: rest)

/-- `interpolations`: what stands between double braces in a text that starts at `first`, or where
an opening that never closes stands; the scan stops there. -/
def interpolations (text : Str) (first : Place) : Option (List (Except Place (Str × Place))) :=
  interpolationsFrom text first.i ((Utf8.encode text).length + 1) 0 first.line

/-- `block_lines`, from offset `i` on; `last` is the line of the last block. -/
def blockLinesFrom (text : Str) (base : Nat) : Nat → Nat → Nat → Option Nat → Option (List Place)
  | 0, _, _, _ => some []
  | left + 1, i, line, last =>
      let bytes := Utf8.encode text
      let c := bytes[i]?.getD 0
      if c == 0x0A then blockLinesFrom text base left (i + 1) (line + 1) last
      else if c != ascii '@' || (decide (0 < i) && bytes[i - 1]?.any isNameChar) then
        blockLinesFrom text base left (i + 1) line last
      else do
        let wordEnd := skipWhile isAlpha bytes (bytes.length - (i + 1)) (i + 1)
        let word ← Text.slice (i + 1) wordEnd text
        let opens := BLOCK_KEYWORDS.contains word &&
          bytes[wordEnd]?.all fun b => isSpace b || b ∈ [ascii '(', ascii '\x7b', ascii ';']
        if opens && last != some line then do
          let rest ← blockLinesFrom text base left (i + 1) line (some line)
          some (⟨base + i, line⟩ :: rest)
        else blockLinesFrom text base left (i + 1) line last

/-- `block_lines`: the lines on which an `@` and a block keyword open a block. -/
def blockLines (text : Str) (first : Place) : Option (List Place) :=
  blockLinesFrom text first.i (Utf8.encode text).length 0 first.line none

def pieceEvent : Except Place (Str × Place) → Event
  | .ok (expr, place) => .interp expr place
  | .error place => .gap place .unparsedExpression

/-! ## The scanner -/

section Scanner

variable (text : Str)

/-- `text_events`. -/
def textEvents (start : Place) (stop : Nat) : Option (List Event) :=
  if stop ≤ start.i then some []
  else do
    let run ← Text.slice start.i stop text
    let blocks ← blockLines run start
    let pieces ← interpolations run start
    some (blocks.map (.gap · .controlFlowBlock) ++ pieces.map pieceEvent)

/-- The bytes the scanner reads. -/
abbrev bytesOf : Bytes := Utf8.encode text

/-- `peek`. -/
def peek_ (i ahead : Nat) : UInt8 := (bytesOf text)[i + ahead]?.getD 0

/-- `starts_markup`: a `<` that opens a tag, an end tag, a comment or a declaration. -/
def startsMarkup (i : Nat) : Bool :=
  isAlpha (peek_ text i 1) || peek_ text i 1 ∈ [ascii '!', ascii '?'] ||
    (peek_ text i 1 == ascii '/' && isAlpha (peek_ text i 2))

/-- The loop of `run` up to the next markup. -/
def nextMarkup : Nat → Place → Place
  | 0, p => p
  | left + 1, p =>
      if (bytesOf text)[p.i]? = some (ascii '<') ∧ startsMarkup text p.i = true then p
      else nextMarkup left ⟨p.i + 1, p.line + if (bytesOf text)[p.i]? = some 0x0A then 1 else 0⟩

/-- `advance_to`: moves the cursor, counting the newlines it passes. -/
def advanceTo (p : Place) (to_ : Nat) : Option Place := do
  let to_ := min to_ (bytesOf text).length
  let passed ← newlinesIn (bytesOf text) p.i to_
  some ⟨to_, p.line + passed⟩

/-- `name`: the name at an offset, and where it ends. -/
def name_ (i : Nat) : Option (Str × Nat) :=
  let stop := skipWhile isNameChar (bytesOf text) ((bytesOf text).length - i) i
  (Text.slice i stop text).map (·, stop)

/-- `skip_space`. -/
def skipSpace : Nat → Place → Place
  | 0, p => p
  | left + 1, p =>
      if (bytesOf text)[p.i]?.any isSpace then
        skipSpace left ⟨p.i + 1, p.line + if (bytesOf text)[p.i]? = some 0x0A then 1 else 0⟩
      else p

/-- Where the name of an attribute ends. -/
def endsAttrName (i : Nat) (c : UInt8) : Bool :=
  isSpace c || c == ascii '=' || c == ascii '>' || (c == ascii '/' && peek_ text i 1 == ascii '>')

def attrNameEnd : Nat → Nat → Nat
  | 0, i => i
  | left + 1, i => if (bytesOf text)[i]?.any (!endsAttrName text i ·) then attrNameEnd left (i + 1) else i

inductive AttrResult where
  | read (a : Attr) (p : Place)
  /-- A quoted value that never closes, and where it starts. -/
  | unclosed (p : Place)

/-- All that is left from a place on. -/
def left (p : Place) : Nat := (bytesOf text).length - p.i

/-- The value of an attribute, from behind its `=` on. -/
def attrValue (name : Str) (place : Place) (p : Place) : Option AttrResult :=
  let v := skipSpace text (left text p) p
  let quote := peek_ text v.i 0
  if quote == ascii '"' || quote == ascii '\'' then
    match find (bytesOf text) (v.i + 1) [quote] with
    | none => some (.unclosed v)
    | some stop => do
        let value ← Text.slice (v.i + 1) stop text
        let after ← advanceTo text v (stop + 1)
        some (.read ⟨name, place, some (value, ⟨v.i + 1, v.line⟩)⟩ after)
  else do
    let stop := skipWhile (fun b => !isSpace b && b != ascii '>') (bytesOf text) (left text v) v.i
    let value ← Text.slice v.i stop text
    some (.read ⟨name, place, some (value, v)⟩ ⟨stop, v.line⟩)

/-- `attr`: one attribute at the cursor. -/
def attr (p : Place) : Option AttrResult := do
  let stop := attrNameEnd text (left text p) p.i
  let stop := if stop = p.i then p.i + 1 else stop
  let name ← Text.slice p.i stop text
  let q := skipSpace text (left text ⟨stop, p.line⟩) ⟨stop, p.line⟩
  if peek_ text q.i 0 == ascii '=' then attrValue text name p ⟨q.i + 1, q.line⟩
  else some (.read ⟨name, p, none⟩ q)

inductive TagResult where
  | ended (attrs : List Attr) (closes : Bool) (p : Place)
  | unclosed (p : Place)

def TagResult.cons (a : Attr) : TagResult → TagResult
  | .ended attrs closes p => .ended (a :: attrs) closes p
  | .unclosed p => .unclosed p

/-- The loop of `start_tag`. -/
def attrsFrom : Nat → Bool → Place → Option TagResult
  | 0, _, _ => none
  | turns + 1, closes, p =>
      let p := skipSpace text (left text p) p
      let c := peek_ text p.i 0
      if c == 0 then some (.ended [] closes p)
      else if c == ascii '>' then some (.ended [] closes ⟨p.i + 1, p.line⟩)
      else if c == ascii '/' then
        if peek_ text p.i 1 == ascii '>' then some (.ended [] true ⟨p.i + 2, p.line⟩)
        else attrsFrom turns closes ⟨p.i + 1, p.line⟩
      else do
        match ← attr text p with
        | .read a q => do
            let rest ← attrsFrom turns closes q
            some (rest.cons a)
        | .unclosed q => some (.unclosed q)

/-- What one construct of markup gives: its events, where it ends, and whether the scan goes on. -/
structure Markup where
  events : List Event
  place : Place
  goesOn : Bool

def lowerName (tag : Str) : Str := tag.map Char.toLower

/-- `start_tag`, at its `<`. -/
def startTag (p : Place) : Option Markup := do
  let (tag, stop) ← name_ text (p.i + 1)
  let lower := lowerName tag
  let result ← attrsFrom text ((bytesOf text).length + 1) (VOID_ELEMENTS.contains lower) ⟨stop, p.line⟩
  match result with
  | .unclosed q => some ⟨[.gap q .unparsedExpression], q, false⟩
  | .ended attrs closes q =>
      if !closes && RAW_TEXT_ELEMENTS.contains lower then do
        let close := Utf8.encode ("</".toList ++ lower)
        let after ← advanceTo text q ((find (bytesOf text) q.i close).getD (bytesOf text).length)
        some ⟨[.open_ tag attrs closes], after, true⟩
      else some ⟨[.open_ tag attrs closes], q, true⟩

/-- `markup`: one construct at the cursor. -/
def markup (p : Place) : Option Markup :=
  let past := fun (found : Option Nat) (n : Nat) => (found.map (· + n)).getD (bytesOf text).length
  if (ascii '<' :: [ascii '!', ascii '-', ascii '-']).isPrefixOf ((bytesOf text).drop p.i) then do
    let after ← advanceTo text p
      (past (find (bytesOf text) (p.i + 4) [ascii '-', ascii '-', ascii '>']) 3)
    some ⟨[], after, true⟩
  else if peek_ text p.i 1 ∈ [ascii '!', ascii '?'] then do
    let after ← advanceTo text p (past (find (bytesOf text) p.i [ascii '>']) 1)
    some ⟨[], after, true⟩
  else if peek_ text p.i 1 == ascii '/' then do
    let (tag, stop) ← name_ text (p.i + 2)
    let after ← advanceTo text ⟨stop, p.line⟩ (past (find (bytesOf text) stop [ascii '>']) 1)
    some ⟨[.close tag], after, true⟩
  else startTag text p

/-- A run of text or a construct of markup, with its range in the template. -/
structure Piece where
  isMarkup : Bool
  start : Nat
  stop : Nat
  events : List Event

/-- The pieces a scan took, and whether it stopped at a value that never closes. -/
structure Scan where
  pieces : List Piece
  stopped : Bool

def Scan.cons (piece : Piece) (s : Scan) : Scan := { s with pieces := piece :: s.pieces }

/-- The loop of `run`. -/
def runFrom : Nat → Place → Option Scan
  | 0, _ => none
  | turns + 1, start => do
      let p := nextMarkup text (left text start) start
      let events ← textEvents text start p.i
      if p.i < (bytesOf text).length then do
        let m ← markup text p
        let construct : Piece := ⟨true, p.i, m.place.i, m.events⟩
        if m.goesOn then do
          let rest ← runFrom turns m.place
          some ((rest.cons construct).cons ⟨false, start.i, p.i, events⟩)
        else some ⟨[⟨false, start.i, p.i, events⟩, construct], true⟩
      else some ⟨[⟨false, start.i, p.i, events⟩], false⟩

/-- `run`. -/
def scan (firstLine : Nat) : Option Scan := runFrom text ((bytesOf text).length + 1) ⟨0, firstLine⟩

/-- `events`. -/
def events (firstLine : Nat) : Option (List Event) :=
  (scan text firstLine).map fun s => s.pieces.flatMap Piece.events

end Scanner

end Devscout.Template
