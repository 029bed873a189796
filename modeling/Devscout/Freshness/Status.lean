/-
# Devscout.Freshness.Status -- the two Git readers

`git status` answers which paths changed inside some pathspecs, `git ls-files`
which untracked paths are ignored there. Both readers fail closed: an answer they
cannot use is an error, never an empty set.
-/

import Devscout.Store
import Devscout.Freshness.Relevance

namespace Devscout

open Lib Lib.Text Lib.Files

variable {F : Facts} (E : Engine F)

/-- The most status records a query accepts. -/
def STATUS_ENTRY_CAP : Nat := 5000

inductive StatusError where
  | gitUnavailable
  | budgetExceeded
  deriving DecidableEq

/-- `git_status_paths`: the reported paths as a set, or why there is none. -/
def gitStatusPaths (fs : Dir) (git : GitState) (root : Root) (pathspecs : List Str)
    (cap : Option Nat) : Except StatusError (List Str) :=
  match E.gitStatus fs git root pathspecs with
  | none => .error .gitUnavailable
  | some records =>
      match cap with
      | none => .ok records.dedup
      | some cap => if cap < records.length then .error .budgetExceeded else .ok records.dedup

/-- A relative path whose every component is a real name. -/
def isRepoRelative (rel : Str) : Bool :=
  !rel.isEmpty && rel.head? != some '/' &&
    (splitSlash rel).all fun part => !part.isEmpty && !isHere part && !isUp part

example : isRepoRelative ['a', '/', 'b'] = true ∧ isRepoRelative ['a', '/', '.', '.'] = false ∧
    isRepoRelative ['/', 'a'] = false := by decide +kernel

def ignoreUnreadable : Str := "ignore query failed: unreadable output".toList
def ignoreFailed : Str := "ignore query failed: git could not answer".toList

/-- One record of the ignore query: a trailing `/` marks a directory. -/
def parseIgnored (records : List Str) (ign : Ignored) : Except Str Ignored :=
  match records with
  | [] => .ok ign
  | record :: rest =>
      let dir := record.getLast? == some '/'
      let rel := if dir then record.dropLast else record
      if !isRepoRelative rel then .error ignoreUnreadable
      else if dir then parseIgnored rest { ign with dirs := ign.dirs ++ [rel] }
      else parseIgnored rest { ign with files := ign.files ++ [rel] }

/-- `Ignored::for_scope`: without a `.git` entry nothing is ignored and nothing is
asked. -/
def ignoredForScope (fs : Dir) (git : GitState) (root : Root) (scope : List Str) :
    Except Str Ignored :=
  if !exists? fs (root.comps ++ [".git".toList]) then .ok Ignored.empty
  else
    match E.gitIgnored fs git root (scopePathspecs scope ++ configPathspecs scope) with
    | none => .error ignoreFailed
    | some records => parseIgnored records Ignored.empty

end Devscout
