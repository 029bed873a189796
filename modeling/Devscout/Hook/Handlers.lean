/-
# Devscout.Hook.Handlers -- the read hook and the bash hook

A hook runs after a tool call and gets its payload: which file or command, for which
session and agent, and what the tool answered. It either leaves the answer alone, adds a
note to it, or replaces it by a one-line stub when the agent already has the text.

The read hook stubs on two grounds: the path was last seen with this digest, or some
other path brought the same content. The bash hook stubs when the command last printed
this digest. Everything else records the digest and lets the answer through. An error
anywhere ends in no output at all, except in the content store, whose failures fall
through to the fresh record.
-/

import Devscout.Hook.Stores
import Devscout.Manifest
import Devscout.Semantic.Layer
import Mathlib

namespace Devscout.Hook

open Lib Semantic

/-- What the platform computes: the digest of bytes, and numbers read as doubles. -/
structure Platform where
  sha256Hex : Bytes → Str
  sha256Hex_ne_nil : ∀ bytes, sha256Hex bytes ≠ []
  lt : Number → Number → Bool
  toI64 : Str → Int
  nonzero : Str → Bool

/-- The answers of the file system, of git and of the offer at one invocation, and the
fates of its store operations. A root is a directory whatever path led to it; the path it
was reached by this time is its text. -/
structure World (Root : Type) where
  findScoutRoot : Str → Option Root
  relPath : Root → Str → Str
  toStringLossy : Root → Str
  currentDir : Str
  contentDbPath : Str
  gitHead : Root → Option Str
  readManifest : Root → Except Str (Option Value)
  refreshNeeded : Root → Bool
  writeRefreshNeeded : Root → Except Str Unit
  offer : Root → Str → Str → Str → Value → Option Str
  fates : List Fate

/-! ## Reading the payload -/

/-- A field of an object. -/
def field (v : Value) (key : String) : Option Value := v.get key.toList

def strField (v : Value) (key : String) : Option Str := (field v key).bind Value.asStr

def sessionIdOf (input : Value) : Str := (strField input "session_id").getD "unknown".toList

def agentScope (input : Value) : Str := (strField input "agent_id").getD []

/-- `jval_f64`: any number reads as a double. -/
def jvalF64 : Value → Option Number
  | .number n => some n
  | _ => none

def jvalI64 (platform : Platform) : Value → Option Int
  | .number (.int n) => some n
  | .number (.other text) => some (platform.toI64 text)
  | _ => none

def jvalTruthy (platform : Platform) : Option Value → Bool
  | none | some .null => false
  | some (.bool b) => b
  | some (.number (.int n)) => n != 0
  | some (.number (.other text)) => platform.nonzero text
  | some (.string s) => !s.isEmpty
  | some (.array _) | some (.object _) => true

/-- The field, with the default for a missing one and for null. -/
def nullishOr (v : Value) (key : String) (default : Value) : Value :=
  match field v key with
  | none | some .null => default
  | some w => w

/-- `text.as_bytes()`. -/
def asBytes (text : Str) : Bytes := text.flatMap String.utf8EncodeChar

def countLines (text : Str) : Int :=
  if text = [] then 0
  else
    let trimmed := if text.getLast? = some '\n' then text.dropLast else text
    (trimmed.splitOn '\n').length

def shortSha (hex : Str) : Str := hex.take 8

/-- The text of a tool response: of its file, else its own. -/
def extractText (toolResponse : Option Value) : Option Str := do
  let tr ← toolResponse
  (((field tr "file").bind (strField · "content"))).or (strField tr "text")

/-- The read covered a part of the file only. -/
def isPartialRead (platform : Platform) (input : Value) : Bool :=
  let offset := ((field input "tool_input").bind (field · "offset")).bind jvalF64
  let file := (field input "tool_response").bind (field · "file")
  let numLines := (file.bind (field · "numLines")).bind jvalF64
  let totalLines := (file.bind (field · "totalLines")).bind jvalF64
  if offset.any (platform.lt (.int 1)) then true
  else
    match numLines, totalLines with
    | some m, some n => platform.lt m n
    | _, _ => false

/-! ## Answers -/

def object (fields : List (String × Value)) : Value :=
  .object (fields.map fun e => (e.1.toList, e.2))

def string (s : String) : Value := .string s.toList

/-- `{ hookSpecificOutput: { hookEventName: "PostToolUse", <field>: value } }`. -/
def envelope (key : String) (value : Value) : Value :=
  object [("hookSpecificOutput", object [("hookEventName", string "PostToolUse"), (key, value)])]

/-- The envelope of a stub mirrors the file object of the answer, when it has one. -/
def stubEnvelope (stubText : Str) (origFile : Option Value) (filePath : Str) (lines : Int) : Value :=
  match origFile with
  | none | some .null =>
      envelope "updatedToolOutput" (object [("type", string "text"), ("text", .string stubText)])
  | some file =>
      envelope "updatedToolOutput" (object
        [("type", string "text"),
         ("file", object
           [("filePath", nullishOr file "filePath" (.string filePath)),
            ("content", .string stubText),
            ("numLines", .number (.int 1)),
            ("startLine", nullishOr file "startLine" (.number (.int 1))),
            ("totalLines", nullishOr file "totalLines" (.number (.int lines)))])])

/-- The original response with its `stdout` overridden where it stands. -/
def mirrorWithStdout (resp : Value) (stubText : Str) : Value :=
  match resp with
  | .object entries =>
      .object (entries.map fun e =>
        if e.1 = "stdout".toList then (e.1, .string stubText) else e)
  | other => other

/-- An output that replaces what the tool answered. -/
def IsStub (output : Option Value) : Prop :=
  ((output.bind (field · "hookSpecificOutput")).bind (field · "updatedToolOutput")).isSome

instance (output : Option Value) : Decidable (IsStub output) :=
  inferInstanceAs (Decidable (_ = true))

def linesAndSha (lines : Int) (hash : Str) : Str :=
  (toString lines).toList ++ " lines, sha ".toList ++ shortSha hash

def unchangedStub (lines : Int) (hash : Str) : Str :=
  "[devscout: unchanged since first read this session — ".toList ++ linesAndSha lines hash ++
    ". Full content already in context.]".toList

def contentStub (relPath : Str) (lines : Int) (hash : Str) : Str :=
  "[devscout: identical content already read this session as ".toList ++ relPath ++
    " — ".toList ++ linesAndSha lines hash ++ ". Full content already in context.]".toList

def bashStub (lines : Int) (hash : Str) : Str :=
  "[devscout: identical output already in context this session — ".toList ++
    linesAndSha lines hash ++ ".]".toList

def additionalContext (text : Str) : Value := envelope "additionalContext" (.string text)

def manifestStale : Value :=
  additionalContext
    "[devscout: manifest stale — HEAD moved since last map. Run 'devscout map --refresh'.]".toList

/-! ## The read hook -/

section Read

variable {Root : Type} (platform : Platform) (w : World Root)

/-- The manifest names a head and it is not this one. -/
def headMoved (head : Option Str) (manifest : Value) : Bool :=
  let built := manifest.get builtAtHeadKey
  jvalTruthy platform built &&
    !(match head, built with
      | some h, some (.string s) => h == s
      | _, _ => false)

/-- The offer of a symbol, unless a refresh is due. -/
def offerAnswer (root : Root) (filePath rel : Str) (input : Value) : Option Value :=
  if w.refreshNeeded root then none
  else
    (w.gitHead root).bind fun head =>
      (w.offer root filePath rel head input).map additionalContext

/-- What a read of a slice is answered: nothing when the manifest is stale. -/
def partialAnswer (root : Root) (filePath rel : Str) (input : Value) : Except Str (Option Value) := do
  match ← w.readManifest root with
  | some m =>
      if headMoved platform (w.gitHead root) m then pure none
      else pure (offerAnswer w root filePath rel input)
  | none => pure (offerAnswer w root filePath rel input)

/-- What a fresh read is answered: a note, once, when the manifest is stale. -/
def freshAnswer (root : Root) (filePath rel : Str) (input : Value) : Except Str (Option Value) := do
  match ← w.readManifest root with
  | some m =>
      if headMoved platform (w.gitHead root) m && !w.refreshNeeded root then do
        w.writeRefreshNeeded root
        pure (some manifestStale)
      else pure (offerAnswer w root filePath rel input)
  | none => pure (offerAnswer w root filePath rel input)

/-- The content store's word on a digest. Every failure in here is no stub. -/
def contentDedup (key : RowKey) (hash root rel : Str) (size : Nat) (lines : Int) :
    StoreM Root (Option Str) :=
  Faulty.orElse (do
    openStore
    match ← lookupContent w.contentDbPath { key with item := hash } with
    | some hit =>
        if hit.root = root ∧ hit.relPath = rel then pure none
        else do
          bumpContentStub w.contentDbPath { key with item := hash }
          pure (some (contentStub hit.relPath lines hash))
    | none => do
        recordContent w.contentDbPath { key with item := hash } ⟨root, rel, size, lines, 0⟩
        pure none) none

variable [DecidableEq Root]

/-- A read of a slice. -/
def handlePartialRead (root : Root) (filePath : Str) (key : RowKey) (text : Str) (input : Value) :
    StoreM Root (Option Value) := do
  openStore
  recordSpend root key (Text.utf8Len text)
  Faulty.lift (partialAnswer platform w root filePath key.item input)

/-- A read of the whole file. -/
def handleWholeRead (root : Root) (filePath : Str) (key : RowKey) (text : Str) (input : Value) :
    StoreM Root (Option Value) := do
  let hash := platform.sha256Hex (asBytes text)
  let size := Text.utf8Len text
  let origFile := (field input "tool_response").bind (field · "file")
  let lines := (((origFile.bind (field · "numLines")).bind (jvalI64 platform))).getD (countLines text)
  openStore
  let prior ← lookupRead root key
  if prior.map ReadRow.sha256 = some hash then do
    bumpStub root key
    pure (some (stubEnvelope (unchangedStub lines hash) origFile filePath lines))
  else do
    let crossStub ← contentDedup w key hash (w.toStringLossy root) key.item size lines
    match crossStub with
    | some stubText => do
        recordFresh root ⟨key, hash, size, lines, false⟩
        pure (some (stubEnvelope stubText origFile filePath lines))
    | none => do
        recordFresh root ⟨key, hash, size, lines, true⟩
        Faulty.lift (freshAnswer platform w root filePath key.item input)

def handleRead (input : Value) : StoreM Root (Option Value) :=
  match (field input "tool_input").bind (strField · "file_path"),
      extractText (field input "tool_response") with
  | some filePath, some text =>
      match w.findScoutRoot filePath with
      | none => pure none
      | some root =>
          let key : RowKey := ⟨sessionIdOf input, agentScope input, w.relPath root filePath⟩
          if isPartialRead platform input then handlePartialRead platform w root filePath key text input
          else handleWholeRead platform w root filePath key text input
  | _, _ => pure none

end Read

/-! ## Commands that read a file -/

def trim (s : Str) : Str :=
  ((s.dropWhile isUnicodeWhitespace).reverse.dropWhile isUnicodeWhitespace).reverse

/-- At least one white space off the front. -/
def skipWs1 (s : Str) : Option Str :=
  let trimmed := s.dropWhile isUnicodeWhitespace
  if trimmed.length = s.length then none else some trimmed

/-- The command without a leading `rtk ` or `rtk proxy `. -/
def normalizeCommand (command : Str) : Str :=
  let trimmed := trim command
  match (trimmed.dropPrefix? "rtk".toList).bind skipWs1 with
  | none => trimmed
  | some afterRtk => ((afterRtk.dropPrefix? "proxy".toList).bind skipWs1).getD afterRtk

/-- `<ref>:<path>`, neither side empty, no white space anywhere. -/
def splitRefPath (s : Str) : Option (Str × Str) :=
  if s.isEmpty || s.any isUnicodeWhitespace then none
  else
    match s.dropWhile (· ≠ ':') with
    | [] => none
    | _ :: p =>
        let r := s.takeWhile (· ≠ ':')
        if r.isEmpty || p.isEmpty then none else some (r, p)

/-- `git [-C <dir>] show <ref>:<path>`. -/
def matchGitShow (command : Str) : Option (Option Str × Str × Str) := do
  let rest ← command.dropPrefix? "git ".toList
  match rest.dropPrefix? "-C ".toList with
  | some afterC =>
      let dir := afterC.takeWhile (· ≠ ' ')
      match afterC.dropWhile (· ≠ ' ') with
      | [] => none
      | _ :: tail =>
          if dir.isEmpty then none
          else do
            let afterShow ← tail.dropPrefix? "show ".toList
            let rp ← splitRefPath afterShow
            pure (some dir, rp)
  | none => do
      let afterShow ← rest.dropPrefix? "show ".toList
      let rp ← splitRefPath afterShow
      pure (none, rp)

def matchCat (command : Str) : Option Str := do
  let rest ← command.dropPrefix? "cat ".toList
  if rest.isEmpty || rest.any isUnicodeWhitespace then none else some rest

def hasForbiddenChars (s : Str) : Bool :=
  s.any fun c => ['*', '?', '[', ']', '|', '&', ';', '<', '>'].contains c

/-- `read <token>...`: what follows the first token is not looked at. -/
def matchRtkRead (command : Str) : Option Str := do
  let rest ← command.dropPrefix? "read ".toList
  let token := rest.takeWhile fun c => !isUnicodeWhitespace c
  if token.isEmpty then none else some token

def isAbsolute (path : Str) : Bool := path.head? == some '/'

/-- `Path::join`. -/
def joinPath (base target : Str) : Str :=
  if isAbsolute target || base.isEmpty then target
  else if base.getLast? = some '/' then base ++ target
  else base ++ '/' :: target

def resolveAgainst (currentDir base target : Str) : Str :=
  if isAbsolute target then target
  else if isAbsolute base then joinPath base target
  else joinPath (joinPath currentDir base) target

/-- Where a path named in a command points. -/
def anchorOf (currentDir : Str) (cwd : Option Str) (path : Str) : Option Str :=
  if hasForbiddenChars path then none
  else some (resolveAgainst currentDir (cwd.getD ".".toList) path)

/-- The file a command reads, if it is one of the known forms. -/
def classifyBash (currentDir command : Str) (cwd : Option Str) : Option Str :=
  match matchGitShow command with
  | some (some dir, _, gitPath) =>
      some (joinPath (resolveAgainst currentDir (cwd.getD ".".toList) dir) gitPath)
  | some (none, _, gitPath) => some (joinPath (cwd.getD ".".toList) gitPath)
  | none =>
      ((matchCat command).bind (anchorOf currentDir cwd)).or
        ((matchRtkRead command).bind (anchorOf currentDir cwd))

/-! ## The bash hook -/

def minStdoutBytes : Nat := 256

def isTrue : Option Value → Bool
  | some (.bool true) => true
  | _ => false

/-- The output is not one to be remembered: interrupted, an image, with complaints, or too
short to be worth it. -/
def passedOver (resp : Value) (stdout : Str) : Bool :=
  isTrue (field resp "interrupted") || isTrue (field resp "isImage") ||
    (strField resp "stderr").any (fun stderr => !(trim stderr).isEmpty) ||
    decide (Text.utf8Len stdout < minStdoutBytes)

section Bash

variable {Root : Type} [DecidableEq Root] (platform : Platform) (w : World Root)

/-- A command whose output is remembered. -/
def handleCommand (root : Root) (key : RowKey) (resp : Value) (stdout : Str) :
    StoreM Root (Option Value) := do
  let hash := platform.sha256Hex (asBytes stdout)
  let lines := countLines stdout
  openStore
  let prior ← lookupBash root key
  if prior.map BashRow.sha256 = some hash then do
    bumpBashStub root key
    pure (some (envelope "updatedToolOutput" (mirrorWithStdout resp (bashStub lines hash))))
  else do
    recordBashFresh root key hash (Text.utf8Len stdout) lines
    pure none

def handleBash (input : Value) : StoreM Root (Option Value) :=
  let resp := field input "tool_response"
  match (field input "tool_input").bind (strField · "command"), resp,
      resp.bind (strField · "stdout") with
  | some command, some resp, some stdout =>
      if passedOver resp stdout then pure none
      else
        let normalized := normalizeCommand command
        match (classifyBash w.currentDir normalized (strField input "cwd")).bind w.findScoutRoot with
        | none => pure none
        | some root =>
            handleCommand platform root ⟨sessionIdOf input, agentScope input, normalized⟩ resp stdout
  | _, _, _ => pure none

end Bash

example : normalizeCommand "rtk proxy git status ".toList = "git status".toList := by decide +kernel

example : classifyBash "/w".toList "git -C repo show HEAD:src/a.ts".toList (some "/here".toList) =
    some "/here/repo/src/a.ts".toList := by decide +kernel

end Devscout.Hook
