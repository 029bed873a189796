/-
# Devscout.Dispatch -- the per-language half of a map run

Which files are graph sources, how one file is reparsed, what counts as its best
manifest source, and how the reparsed files fold into purposes and fragments.
-/

import Devscout.Engine
import Devscout.Freshness.Relevance

namespace Devscout

open Lib Lib.Text

variable {F : Facts} (E : Engine F)

def hasExt (ext rel : Str) : Bool := ext.isSuffixOf rel

def isCsharp (rel : Str) : Bool := hasExt ".cs".toList rel
def isTemplate (rel : Str) : Bool := hasExt ".html".toList rel

def isMarkup (rel : Str) : Bool :=
  hasExt ".xaml".toList rel || hasExt ".resw".toList rel || hasExt ".resx".toList rel

/-- The grammar of the text from the last `.` on. -/
def tsGrammarFor (rel : Str) : Option TsGrammar :=
  let ext := extensionOf rel
  if ext = ".ts".toList ∨ ext = ".mts".toList ∨ ext = ".cts".toList then some .typescript
  else if ext = ".tsx".toList then some .tsx
  else if ext = ".js".toList ∨ ext = ".jsx".toList ∨ ext = ".mjs".toList ∨ ext = ".cjs".toList then
    some .javascript
  else none

def isTsJs (rel : Str) : Bool := (tsGrammarFor rel).isSome
def isRust (rel : Str) : Bool := extensionOf rel == ".rs".toList

/-- The files that contribute a graph fragment. -/
def isGraphSource (rel : Str) : Bool :=
  isCsharp rel || isMarkup rel || isTsJs rel || isRust rel || isTemplate rel

/-- Whether an entry's source is already the best this run could produce. -/
def carriesBestSource (entry : Value) (rel : Str) : Bool :=
  let source := entrySource entry
  if source = agentSource then true
  else if isTsJs rel || isRust rel then source == astSource || source == astNoneSource
  else source == if isCsharp rel then astSource else heuristicSource

/-- The source of a file whose parse yielded no purpose. -/
def fallbackSource (rel : Str) : Str :=
  if isTsJs rel || isRust rel then astNoneSource else heuristicSource

/-- One reparsed file: its purpose, when the language has one, and its fragment. -/
structure ParsedFile (F : Facts) where
  rel : Str
  purpose : Option Str
  fragment : AnyFragment F

/-- `reparse`: a file is dispatched to one language, in this order. -/
def reparse (rel text : Str) : Option (ParsedFile F) :=
  if isCsharp rel then
    let extraction := E.extract text
    some ⟨rel, extraction.1, .cs extraction.2⟩
  else if isMarkup rel then some ⟨rel, none, .cs (E.markupFragmentText rel text)⟩
  else if isRust rel then
    let rs := E.extractRsFile text
    some ⟨rel, rs.1, .rs rs.2⟩
  else if isTemplate rel then some ⟨rel, none, .html (E.scanTemplate text)⟩
  else
    match tsGrammarFor rel with
    | none => none
    | some grammar => (E.extractTsFile text grammar).map fun ts => ⟨rel, ts.1, .ts ts.2⟩

theorem reparse_rel {rel text : Str} {parsed : ParsedFile F} (h : reparse E rel text = some parsed) :
    parsed.rel = rel := by
  simp only [reparse] at h
  repeat' split at h
  all_goals simp only [Option.some.injEq, reduceCtorEq, Option.map_eq_some_iff] at h
  all_goals first
    | exact h ▸ rfl
    | (obtain ⟨_, _, rfl⟩ := h; rfl)

/-- `fold`: the purposes and the fresh fragments, by path. -/
def foldParsed (parsed : List (ParsedFile F)) :
    OrderedMap Str Str × OrderedMap Str (AnyFragment F) :=
  (OrderedMap.empty.insertAll (parsed.filterMap fun p => p.purpose.map (p.rel, ·)),
    OrderedMap.empty.insertAll (parsed.map fun p => (p.rel, p.fragment)))

end Devscout
