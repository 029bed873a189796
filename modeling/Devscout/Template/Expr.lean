/-
# Devscout.Template.Expr -- reading template expressions

The parser of template expressions over one token list. It builds no tree: what it keeps
is every root identifier with its line, in the order the tokens have them. A property
name, a pipe name and an object key are no reads; a shorthand key and the member right
after `this.` are.

A method takes the tokens at the cursor and answers the tokens left over and the reads it
pushed, or refuses. The depth counter of the source is the number of levels still free:
`nested n` are the methods `pipe` and `unary` where `n` more may be entered, and every
other method is written over the nested ones it calls.
-/

import Devscout.Lib.Grammar

namespace Devscout.Template

open Lib Lib.Grammar Step

inductive Tok where
  | ident (name : String)
  | literal
  | punct (p : String)
  deriving DecidableEq

structure Token where
  tok : Tok
  line : Nat
  deriving DecidableEq

/-- One root identifier an expression reads, with the line it sits on. -/
abbrev Read := String × Nat

def BINARY_OPS : List String :=
  ["===", "!==", "??", "==", "!=", "<=", ">=", "&&", "||", "**", "+", "-", "*", "/", "%", "<", ">"]

def ASSIGN_OPS : List String :=
  ["=", "+=", "-=", "*=", "/=", "%=", "**=", "&&=", "||=", "??="]

/-- Names that are never a component member, whatever the component declares. -/
def NOT_READS : List String := ["true", "false", "null", "undefined", "this", "$any"]

def MAX_DEPTH : Nat := 64

def read (name : String) (line : Nat) : List Read :=
  if name ∈ NOT_READS then [] else [(name, line)]

/-! ## What a token is read as -/

def punctOf (p : String) (t : Token) : Option (List Read) :=
  if t.tok = .punct p then some [] else none

def opOf (ops : List String) (t : Token) : Option (List Read) :=
  match t.tok with
  | .punct p => if p ∈ ops then some [] else none
  | _ => none

/-- An identifier that is no read. -/
def nameOf (t : Token) : Option (List Read) :=
  match t.tok with
  | .ident _ => some []
  | _ => none

/-- An identifier at a root position. -/
def rootOf (t : Token) : Option (List Read) :=
  match t.tok with
  | .ident name => some (read name t.line)
  | _ => none

def literalOf (t : Token) : Option (List Read) :=
  match t.tok with
  | .literal => some []
  | _ => none

def thisOf (t : Token) : Option (List Read) :=
  match t.tok with
  | .ident name => if name = "this" then some [] else none
  | _ => none

/-- A primary identifier other than `this`. -/
def primaryOf (t : Token) : Option (List Read) :=
  match t.tok with
  | .ident name => if name = "this" then none else some (read name t.line)
  | _ => none

/-- The operators in front of an operand, words among them. -/
def prefixOf (t : Token) : Option (List Read) :=
  match t.tok with
  | .punct p => if p ∈ ["!", "-", "+"] then some [] else none
  | .ident name => if name ∈ ["typeof", "void"] then some [] else none
  | .literal => none

/-- The next token can be read so. -/
def peek (emit : Token → Option (List Read)) (ts : List Token) : Bool :=
  ts.head?.any fun t => (emit t).isSome

/-! ## The methods -/

/-- The two methods that enter a level. -/
structure Nested where
  pipe : Step Token Read
  unary : Step Token Read

section Methods

variable (allowAssign : Bool) (inner : Nested)

def expectPunct (p : String) : Step Token Read := next (punctOf p)

/-- Comma-separated expressions up to `close`, which is consumed. -/
def list (close : String) : Step Token Read :=
  choose (peek (punctOf close)) (expectPunct close)
    (inner.pipe.andThen ((loop (peek (punctOf ",")) ((expectPunct ",").andThen inner.pipe)).andThen
      (expectPunct close)))

/-- `key: value`, or a shorthand key, which is a read. -/
def entry : Step Token Read
  | ⟨.ident key, line⟩ :: us =>
      if peek (punctOf ":") us then (expectPunct ":").andThen inner.pipe us
      else some (us, read key line)
  | ⟨.literal, _⟩ :: us => (expectPunct ":").andThen inner.pipe us
  | _ => none

/-- A comma that does not just end the object. -/
def commaGoesOn (ts : List Token) : Bool :=
  peek (punctOf ",") ts && !peek (punctOf "\x7d") (ts.drop 1)

/-- The entries of an object up to its brace; a last comma is allowed. -/
def object : Step Token Read :=
  choose (peek (punctOf "\x7d")) (expectPunct "\x7d")
    ((entry inner).andThen ((loop commaGoesOn ((expectPunct ",").andThen (entry inner))).andThen
      ((whenever (peek (punctOf ",")) (expectPunct ",")).andThen (expectPunct "\x7d"))))

/-- A dot with a name behind it. -/
def dottedName (ts : List Token) : Bool := peek (opOf [".", "?."]) ts && peek nameOf (ts.drop 1)

/-- `this.x` reads `x`: the member after `this.` is the root of the chain. -/
def thisMember : Step Token Read :=
  whenever dottedName ((next (opOf [".", "?."])).andThen (next rootOf))

def primary : Step Token Read
  | ⟨.ident name, line⟩ :: us =>
      if name = "this" then thisMember us else some (us, read name line)
  | ⟨.literal, _⟩ :: us => some (us, [])
  | ⟨.punct p, _⟩ :: us =>
      if p = "(" then inner.pipe.andThen (expectPunct ")") us
      else if p = "[" then list inner "]" us
      else if p = "\x7b" then object inner us
      else none
  | [] => none

/-- What may stand after `?.`: a name, or a bracket that the next turn takes. -/
def afterQuestionDot : Step Token Read :=
  choose (peek nameOf) (next nameOf) (check (peek (opOf ["[", "("])))

/-- One turn of the loop of `postfix`. -/
def postfixOp : Step Token Read
  | ⟨.punct p, _⟩ :: us =>
      if p = "." then next nameOf us
      else if p = "?." then afterQuestionDot us
      else if p = "[" then inner.pipe.andThen (expectPunct "]") us
      else if p = "(" then list inner ")" us
      else if p = "!" then some (us, [])
      else none
  | _ => none

def postfixChain : Step Token Read :=
  (primary inner).andThen (loop (peek (opOf [".", "?.", "[", "(", "!"])) (postfixOp inner))

def unary : Step Token Read :=
  choose (peek prefixOf) ((next prefixOf).andThen inner.unary) (postfixChain inner)

def binary : Step Token Read :=
  inner.unary.andThen
    (loop (peek (opOf BINARY_OPS)) ((next (opOf BINARY_OPS)).andThen inner.unary))

def conditional : Step Token Read :=
  (binary inner).andThen (whenever (peek (punctOf "?"))
    ((expectPunct "?").andThen (inner.pipe.andThen ((expectPunct ":").andThen inner.pipe))))

/-- The operators an assignment may use: none where assignments are not allowed. -/
def assignOps : List String := if allowAssign then ASSIGN_OPS else []

/-- A loop rather than right recursion, so a chain of assignments costs no depth. -/
def assign : Step Token Read :=
  (conditional inner).andThen
    (loop (peek (opOf (assignOps allowAssign)))
      ((next (opOf (assignOps allowAssign))).andThen (conditional inner)))

/-- One expression with its pipes: `value | name:arg:arg`. A pipe name is not a read; each
argument is. -/
def pipe : Step Token Read :=
  (assign allowAssign inner).andThen
    (loop (peek (punctOf "|"))
      ((expectPunct "|").andThen ((next nameOf).andThen
        (loop (peek (punctOf ":")) ((expectPunct ":").andThen (assign allowAssign inner))))))

end Methods

/-- The methods with so many levels free: `enter` refuses where none is. -/
def nested (allowAssign : Bool) : Nat → Nested
  | 0 => ⟨fail, fail⟩
  | left + 1 => ⟨pipe allowAssign (nested allowAssign left), unary (nested allowAssign left)⟩

/-! ## The entry points -/

/-- All tokens have to be used. -/
def complete (r : List Token × List Read) : Option (List Read) :=
  if r.1 = [] then some r.2 else none

/-- The reads of a property binding or an interpolation: one expression that uses every
token. -/
def parseBinding (toks : List Token) : Option (List Read) :=
  if toks = [] then some [] else ((nested false MAX_DEPTH).pipe toks).bind complete

/-- An empty statement, or an expression up to a `;` or the end. -/
def statement : Step Token Read :=
  choose (peek (punctOf ";")) (expectPunct ";")
    ((nested true MAX_DEPTH).pipe.andThen
      (choose (fun ts => !ts.isEmpty) (expectPunct ";") (check List.isEmpty)))

/-- The reads of an event binding: statements split by `;`, where an assignment is allowed
and its target is a read too. -/
def parseAction (toks : List Token) : Option (List Read) :=
  (loop (fun ts => !ts.isEmpty) statement toks).bind complete

/-! ## The grammar

The expressions as rules. Whether a part can go on is asked of the next tokens; the
readings of the tokens say which positions are roots. -/

/-- The names of the rules. -/
inductive Rule where
  | pipe
  | assign
  | conditional
  | binary
  | unary
  | postfix_
  | primary
  | list (close : String)
  | object
  deriving DecidableEq

abbrev Phrase := Gram Token Read Rule

def punct (p : String) : Phrase := .token (punctOf p)
def op (ops : List String) : Phrase := .token (opOf ops)
def name : Phrase := .token nameOf
def root : Phrase := .token rootOf
def literal : Phrase := .token literalOf

/-- Part of an object: a keyed value, or a shorthand key. -/
def entryPhrase : Phrase :=
  name * (punct ":" * .ref .pipe) + root * .ahead (fun ts => !peek (punctOf ":") ts) +
    literal * (punct ":" * .ref .pipe)

/-- What an operand may be followed by, again and again. -/
def postfixPhrase : Phrase :=
  punct "." * name +
  punct "?." * (name + .ahead (peek (opOf ["[", "("]))) +
  punct "[" * (.ref .pipe * punct "]") +
  punct "(" * .ref (.list ")") +
  punct "!"

/-- The rules. -/
def rules (allowAssign : Bool) : Rule → Phrase
  | .pipe =>
      .ref .assign * .star (peek (punctOf "|"))
        (punct "|" * (name * .star (peek (punctOf ":")) (punct ":" * .ref .assign)))
  | .assign =>
      .ref .conditional * .star (peek (opOf (assignOps allowAssign)))
        (op (assignOps allowAssign) * .ref .conditional)
  | .conditional =>
      .ref .binary * .opt (peek (punctOf "?"))
        (punct "?" * (.ref .pipe * (punct ":" * .ref .pipe)))
  | .binary =>
      .ref .unary * .star (peek (opOf BINARY_OPS)) (op BINARY_OPS * .ref .unary)
  | .unary =>
      .token prefixOf * .ref .unary +
        .ahead (fun ts => !peek prefixOf ts) * .ref .postfix_
  | .postfix_ =>
      .ref .primary * .star (peek (opOf [".", "?.", "[", "(", "!"])) postfixPhrase
  | .primary =>
      .token primaryOf +
      .token thisOf * (op [".", "?."] * root + .ahead (fun ts => !dottedName ts)) +
      literal +
      punct "(" * (.ref .pipe * punct ")") +
      punct "[" * .ref (.list "]") +
      punct "\x7b" * .ref .object
  | .list close =>
      punct close +
        .ref .pipe * (.star (peek (punctOf ",")) (punct "," * .ref .pipe) * punct close)
  | .object =>
      punct "\x7d" +
        entryPhrase * (.star commaGoesOn (punct "," * entryPhrase) *
          (.opt (peek (punctOf ",")) (punct ",") * punct "\x7d"))

/-- `pipe` and `unary` are the nesting levels. -/
def template (allowAssign : Bool) : Grammar Token Read Rule where
  rule := rules allowAssign
  deep
    | .pipe | .unary => true
    | _ => false

/-- A binding derives from the grammar: it is empty, or one expression. -/
def Binding (greedy : Bool) (toks : List Token) (reads : List Read) : Prop :=
  toks = [] ∧ reads = [] ∨ Derives (template false) greedy MAX_DEPTH (.ref .pipe) toks [] reads

/-- The statements of an action. -/
def statementPhrase : Phrase :=
  punct ";" + .ref .pipe * (punct ";" + .ahead List.isEmpty)

/-- An action derives from the grammar. -/
def Action (greedy : Bool) (toks : List Token) (reads : List Read) : Prop :=
  Derives (template true) greedy MAX_DEPTH (.star (fun ts => !ts.isEmpty) statementPhrase)
    toks [] reads

end Devscout.Template
