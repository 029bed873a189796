/-
# Devscout.Resolve.Scope -- what a name may mean in one file

Each file has its using directives, grouped by the namespace block that declares them,
and its aliases. The global ones of its project come first, a local alias goes over a
global one of the same name. With a project model a file also knows which definitions
its project can reference at all.
-/

import Devscout.Resolve.Index
import Mathlib

namespace Devscout.Resolve

open Lib

/-- What the resolver asks a project model: the project owning a file, which projects
another can reference, which ones are test projects. -/
structure Projects where
  unitOfFile : Str → Option Nat
  reachable : Nat → Nat → Bool
  isTest : Nat → Bool

structure FileUsings where
  all : List Str := []
  /-- Sorted, each text once. -/
  byLevel : OrderedMap Str (List Str) := .empty
  reach : Option (List Bool) := none

structure FileContext where
  usings : FileUsings
  aliases : OrderedMap Str Str

abbrev Contexts := OrderedMap Str FileContext

namespace FileUsings

/-- `insert`. -/
def insert (usings : FileUsings) (level text : Str) : FileUsings :=
  let here := (usings.byLevel.get? level).getD []
  { usings with
    all := unionNew usings.all [text]
    byLevel := usings.byLevel.insert level
      (if text ∈ here then here else List.orderedInsert (· ≤ ·) text here) }

/-- `at_level`. -/
def atLevel (usings : FileUsings) (level : Str) : List Str := (usings.byLevel.get? level).getD []

/-- `reaches`: everything, without a reach. -/
def reaches (usings : FileUsings) (idx : Nat) : Bool :=
  match usings.reach with
  | none => true
  | some reach => reach.getD idx true

end FileUsings

/-! ## Global directives -/

structure GlobalUsings where
  texts : List Str := []
  aliases : OrderedMap Str Str := .empty

namespace GlobalUsings

/-- One directive; the first global alias of a name stands. -/
def add (globals : GlobalUsings) : FragUsing → GlobalUsings
  | .alias name target true =>
      { globals with
        aliases := if (globals.aliases.get? name).isNone then globals.aliases.insert name target
          else globals.aliases }
  | .plain text true _ => { globals with texts := unionNew globals.texts [text] }
  | _ => globals

/-- The pool of the directives of some files. -/
def ofFragments (fragments : Fragments) : GlobalUsings :=
  (fragments.flatMap fun f => f.2.usings).foldl add {}

end GlobalUsings

/-- The pool a file is seeded with: its own project's, or everything when no project
owns it. -/
def seedFor (fragments : Fragments) (projects : Option Projects) (file : Str) : GlobalUsings :=
  match projects with
  | none => .ofFragments fragments
  | some projects =>
      match projects.unitOfFile file with
      | none => .ofFragments fragments
      | some unit => .ofFragments (fragments.filter fun f => projects.unitOfFile f.1 == some unit)

/-! ## Contexts -/

/-- One directive of a file itself. -/
def FileContext.add (ctx : FileContext) : FragUsing → FileContext
  | .alias name target _ => { ctx with aliases := ctx.aliases.insert name target }
  | .plain text _ namespace_ => { ctx with usings := ctx.usings.insert namespace_ text }

def fileContext (seed : GlobalUsings) (fragment : Fragment) : FileContext :=
  fragment.usings.foldl FileContext.add
    ⟨seed.texts.foldl (fun usings text => usings.insert [] text) {}, seed.aliases⟩

/-- The units a definition is declared in; none when a file of it has no owner. -/
def declaringUnits (projects : Projects) (def_ : Def) : Option (List Nat) :=
  (def_.file :: def_.alsoIn.map AlsoIn.file).mapM projects.unitOfFile

/-- `attach_reach`, for one file. -/
def attachReach (projects : Option Projects) (index : DefIndex) (file : Str)
    (ctx : FileContext) : FileContext :=
  match projects with
  | none => ctx
  | some projects =>
      match projects.unitOfFile file with
      | none => ctx
      | some site =>
          let reach := index.defs.map fun row =>
            match declaringUnits projects row.def_ with
            | none => true
            | some units => units.any (projects.reachable site)
          { ctx with usings := { ctx.usings with reach := some reach } }

/-- `build_file_contexts`, with the reach attached. -/
def buildFileContexts (fragments : Fragments) (projects : Option Projects) (index : DefIndex) :
    Contexts :=
  fragments.foldl (fun contexts f =>
    contexts.insert f.1
      (attachReach projects index f.1 (fileContext (seedFor fragments projects f.1) f.2))) .empty

/-- `namespace_encloses`. -/
def namespaceEncloses (outer inner : Str) : Bool := (outer ++ ['.']).isPrefixOf inner

/-- `score_candidate`. -/
def scoreCandidate (defNamespace refNamespace : Str) (usings : FileUsings) : Nat :=
  if defNamespace = refNamespace then 3
  else if defNamespace ∈ usings.all then 2
  else 1

/-- `Admission::admits`. -/
def admits (projects : Option Projects) (index : DefIndex) (siteUnit : Option Nat)
    (candidate : Nat) : Bool :=
  match projects with
  | none => true
  | some projects =>
      match siteUnit, projects.unitOfFile (index.def_ candidate).file with
      | some site, some cand =>
          projects.reachable site cand && !(projects.isTest cand && !projects.isTest site)
      | _, _ => true

end Devscout.Resolve
