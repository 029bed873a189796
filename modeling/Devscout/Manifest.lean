/-
# Devscout.Manifest -- manifest values

The manifest is schema-agnostic JSON: objects keep their fields in document
order and nothing stops a document from repeating a key. Field access takes the
first match; collecting the entries into an index keeps the last one.
-/

import Devscout.Lib.Text

namespace Devscout

open Lib

/-- A JSON number: one that reads as an `i64`, or any other as its text. -/
inductive Number where
  | int (n : Int)
  | other (text : Str)
  deriving DecidableEq

inductive Value where
  | null
  | bool (b : Bool)
  | number (n : Number)
  | string (s : Str)
  | array (items : List Value)
  | object (fields : List (Str × Value))

namespace Value

def asObject : Value → Option (List (Str × Value))
  | object fields => some fields
  | _ => none

def asStr : Value → Option Str
  | string s => some s
  | _ => none

/-- The value at `key`; nothing when the key is missing or this is no object. -/
def get (v : Value) (key : Str) : Option Value := do
  let fields ← v.asObject
  fields.lookup key

end Value

def sourceKey : Str := "source".toList
def mtimeKey : Str := "mtime".toList
def purposeKey : Str := "purpose".toList
def entriesKey : Str := "entries".toList
def builtAtHeadKey : Str := "built_at_head".toList
def scopedDirsKey : Str := "scoped_dirs".toList
def heuristicSource : Str := "heuristic".toList
def agentSource : Str := "agent".toList
def astSource : Str := "ast".toList
def astNoneSource : Str := "ast-none".toList

/-- The cache key an entry carries in its `mtime` field. -/
def entryCacheKey (entry : Value) : Option Int :=
  match entry.get mtimeKey with
  | some (.number (.int n)) => some n
  | _ => none

/-- An entry's `source`, `heuristic` when it has none. -/
def entrySource (entry : Value) : Str :=
  ((entry.get sourceKey).bind Value.asStr).getD heuristicSource

/-- A reused entry with its `source` made explicit: overwritten where it stands,
or appended. -/
def withEnsuredSource (entry : Value) : Value :=
  let fields := entry.asObject.getD []
  let source := Value.string (entrySource entry)
  let out := fields.map fun e => if e.1 = sourceKey then (e.1, source) else e
  .object (if fields.any (·.1 == sourceKey) then out else out ++ [(sourceKey, source)])

/-- The scope of a run: explicit directories, else the registry entry's, else the
whole root. -/
def scopeFor (registry : Except Str (Option (List Str))) (explicit : Option (List Str)) :
    Except Str (List Str) :=
  match explicit with
  | some (d :: ds) => .ok (d :: ds)
  | _ => do
      match ← registry with
      | some (d :: ds) => pure (d :: ds)
      | _ => pure [['.']]

end Devscout
