/-
# Devscout.Template.Micro -- the microsyntax of structural directives

The value of a structural directive is a list of items split by `;` or `,`: a local bound
with `let`, a key with an expression, a key exported under a name, and as the first item an
expression of its own. The items are read by the expression parser, from the same tokens, so
they are steps over tokens as its methods are; what a step collects is a local that the
directive declares or a read of one of its expressions. A value outside the syntax is refused
whole.
-/

import Devscout.Template.Expr

namespace Devscout.Template

open Lib Lib.Grammar Step

/-- What one structural directive's value declares and reads. -/
structure Micro where
  locals : List String
  reads : List Read

inductive Part where
  | local_ (name : String)
  | read (r : Read)

def Part.local? : Part → Option String
  | .local_ name => some name
  | .read _ => none

def Part.read? : Part → Option Read
  | .local_ _ => none
  | .read r => some r

/-- The reads of an expression as parts of a directive. -/
def ofReads (f : Step Token Read) : Step Token Part := fun ts =>
  (f ts).map fun r => (r.1, r.2.map .read)

/-- An identifier that declares a local. -/
def localOf (t : Token) : Option (List Part) :=
  match t.tok with
  | .ident name => some [.local_ name]
  | _ => none

def wordOf (word : String) (t : Token) : Option (List Read) :=
  if t.tok = .ident word then some [] else none

def eatWord (word : String) : Step Token Part := ofReads (next (wordOf word))

def eatPunct (p : String) : Step Token Part := ofReads (expectPunct p)

/-- An identifier that is neither a local nor a read. -/
def eatIdent : Step Token Part := ofReads (next nameOf)

def notAtEnd (ts : List Token) : Bool := !ts.isEmpty

/-- The expressions of a directive: no assignments. -/
def expression : Step Token Part := ofReads (nested false MAX_DEPTH).pipe

/-- `export_as`: an optional `as v` after an item. -/
def exportAs : Step Token Part :=
  whenever (peek (wordOf "as")) ((eatWord "as").andThen (next localOf))

/-- `let x` or `let x = key`. -/
def letItem : Step Token Part :=
  (eatWord "let").andThen ((next localOf).andThen
    (whenever (peek (punctOf "=")) ((eatPunct "=").andThen eatIdent)))

/-- `expr as v`, the first item only. -/
def firstItem : Step Token Part := expression.andThen exportAs

/-- `key as v`, or `key: expr` with an optional colon. -/
def keyItem : Step Token Part :=
  eatIdent.andThen (choose (peek (wordOf "as")) exportAs
    ((whenever (peek (punctOf ":")) (eatPunct ":")).andThen (expression.andThen exportAs)))

def item (first : Bool) : Step Token Part :=
  choose (peek (wordOf "let")) letItem (if first then firstItem else keyItem)

def separators : Step Token Part :=
  loop (peek (opOf [";", ","])) (ofReads (next (opOf [";", ","])))

/-- A turn of the loop: separators, and an item unless the tokens end. -/
def itemTurn (first : Bool) : Step Token Part :=
  separators.andThen (whenever notAtEnd (item first))

/-- All items: the first turn is the one that may be an expression. -/
def items : Step Token Part := (itemTurn true).andThen (loop notAtEnd (itemTurn false))

/-- `parse_micro`, over the tokens of the value. -/
def parseMicro (toks : List Token) : Option Micro :=
  (items toks).map fun r => ⟨r.2.filterMap Part.local?, r.2.filterMap Part.read?⟩

/-- The locals in scope of `item of items; index as i; let e = even`. -/
example :
    (parseMicro ([.ident "let", .ident "item", .ident "of", .ident "items", .punct ";", .ident "index",
      .ident "as", .ident "i", .punct ",", .ident "let", .ident "e", .punct "=", .ident "even"].map
        fun t => ⟨t, 1⟩)).map (fun m => (m.locals, m.reads)) =
      some (["item", "i", "e"], [("items", 1)]) := by
  decide +kernel

end Devscout.Template
