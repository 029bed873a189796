/-
# Devscout.Query.Coverage -- what `tests` and `impact` answer

The tests of a definition are the files that refer to it and that something vouches for: a
test in them, their project, or their name. A message that a test file publishes to the
definition is a possible route and stands apart. Where nothing tests it, the answer names the
test files whose own name matches, and what these refer to instead.

The blast radius is ranked by a score over the arcs of the walk. The score is a parameter
here: all that counts is that it is read off the walk.
-/

import Devscout.Query.Seeds
import Devscout.Query.Guesses

namespace Devscout.Query

open Lib
open Resolve (HeuristicTier)

namespace Answers

/-! ## Test files -/

inductive TestVia where
  | attribute
  | project
  | path
  deriving DecidableEq

section Vouched

variable (a : Artifact)

/-- `test_defs_by_file`: the definitions of a file that carry tests. -/
def testDefsOf (file : Str) : List Str :=
  (a.defs.filter fun d => !d.testMethods.isEmpty &&
    (d.file == file || d.alsoIn.any fun s => s.file == file)).map DefRow.id

/-- `test_via`: the most specific vouch. -/
def testVia (file : Str) : Option TestVia :=
  if !(testDefsOf a file).isEmpty then some .attribute
  else if a.unitIsTest file then some .project
  else if isTestPath file then some .path
  else none

end Vouched

/-! ## The rows -/

structure TestRow where
  file : Str
  testDefs : List Str
  lines : List Nat
  refCount : Nat
  heuristic : Bool
  tier : Option HeuristicTier
  via : TestVia
  deriving DecidableEq

/-- One reference of a row. -/
def TestRow.note (row : TestRow) (r : EdgeRow) : TestRow :=
  { row with
    tier := if r.edge.tierOf == some .ext then rowTier row.heuristic true else row.tier
    lines := row.lines ++ [r.edge.loc.2]
    refCount := row.refCount + 1 }

/-- `collect_test_rows`: a row for every file vouched for, in the order they are first seen. -/
def collectTestRows (a : Artifact) (refs : List EdgeRow) (heuristic : Bool) : List TestRow :=
  let rows := refs.foldl (fun (rows : OrderedMap Str TestRow) r =>
    match testVia a r.edge.loc.1 with
    | none => rows
    | some via =>
        let fresh : TestRow := ⟨r.edge.loc.1, testDefsOf a r.edge.loc.1, [], 0, heuristic,
          rowTier heuristic false, via⟩
        rows.upsert r.edge.loc.1 (fresh.note r) (·.note r)) .empty
  rows.entries.map fun e => { e.2 with lines := e.2.lines.insertionSort (· ≤ ·) }

/-! ## Name hints -/

def nameHintReferenceCap : Nat := 5

structure NameHintRow where
  file : Str
  references : List Str
  referenceTotal : Nat
  deriving DecidableEq

/-- `normalize`; `lowerChar` is the lower case of a character. -/
def normalize (lowerChar : Char → Str) (s : Str) : Str :=
  (s.filter fun c => c ∉ ['-', '_', '.']).flatMap lowerChar

/-- `stem`: a file's name without its extension. -/
def stem (file : Str) : Option Str :=
  let segment := ((Text.splitSlash file).getLast?).getD []
  match Text.rsplit '.' segment with
  | some (before, _) => if before.isEmpty then none else some before
  | none => none

/-- `stem_matches`. -/
def stemMatches (lowerChar : Char → Str) (name file : Str) : Bool :=
  match stem file with
  | none => false
  | some stem =>
      ["tests".toList, "test".toList, "spec".toList].any fun affix =>
        normalize lowerChar stem == normalize lowerChar name ++ affix

/-- `edge_targets`. -/
def edgeTargets : Edge → List Str
  | .inherits _ _ toDef _ _ => [toDef]
  | .usesType _ _ toDef _ _ => [toDef]
  | .usesMember _ _ toDef _ _ _ => [toDef]
  | .implements _ _ toDef _ => [toDef]
  | .overrides _ _ toDef _ => [toDef]
  | .call _ _ toDef _ => [toDef]
  | .jsxUse _ _ toDef _ => [toDef]
  | .dispatch _ _ toDef _ => [toDef]
  | .import_ _ _ _ boundDefs => boundDefs
  | _ => []

section Hints

variable (index : QueryIndex) (lowerChar : Char → Str)

/-- `is_production_target`. -/
def isProductionTarget (to_ : Str) : Bool :=
  (findRow index to_).any fun d => (testVia index.artifact d.file).isNone

/-- `candidate_files`, in path order. -/
def candidateFiles : List Str :=
  ((index.artifact.defs.flatMap fun d => d.file :: d.alsoIn.map DefSite.file) ++
    index.outboundByFile.map (·.1) ++ index.heuristicOutboundByFile.map (·.1)).eraseDups.insertionSort
      (· ≤ ·)

/-- `name_hint_row`: what the file refers to, most often first. -/
def nameHintRow (file : Str) : NameHintRow :=
  let targets := [Slot.inherits, .usesType, .usesMember, .implements, .overrides, .call, .jsxUse,
      .dispatch, .import_].flatMap fun slot =>
    (index.outboundByFile.at file slot).flatMap fun r =>
      (edgeTargets r.edge).filter (isProductionTarget index)
  let ranked := (targets.eraseDups.map fun t => (t, targets.count t)).insertionSort
    fun a b => b.2 < a.2 ∨ (a.2 = b.2 ∧ a.1 ≤ b.1)
  ⟨file, (ranked.map Prod.fst).take nameHintReferenceCap, targets.eraseDups.length⟩

/-- `name_hint_rows`. -/
def nameHintRows (id : Str) : List NameHintRow :=
  match findRow index id with
  | none => []
  | some d =>
      ((candidateFiles index).filter fun file => !(defFiles index id).contains file &&
        stemMatches lowerChar d.name file && (testVia index.artifact file).isSome).map
          (nameHintRow index)

end Hints

/-! ## The answer -/

structure TestsModel where
  query : Str
  symbol : Str
  defFiles : List Str
  rows : List TestRow
  testFileCount : Nat
  refCount : Nat
  heuristicFileCount : Nat
  heuristicRefCount : Nat
  bus : Table BusHopRow
  nameHint : List NameHintRow
  deriving DecidableEq

inductive TestsResult where
  | resolved (m : TestsModel)
  | ambiguous (ids : List Str)
  | memberAmbiguous (candidates : List MemberCandidate)
  | notFound
  deriving DecidableEq

section Tests

variable (index : QueryIndex) (env : Surroundings) (lowerChar : Char → Str)

/-- `test_bus_rows`: the routes into the definition that a test file publishes. -/
def testBusRows (id : Str) : Table BusHopRow :=
  let rows := (symbolBusRows index id none).rows.filter fun r =>
    r.inward && (testVia index.artifact r.file).isSome
  ⟨rows.length, rows.length - 50, rows.take 50⟩

/-- `tests_model_for_id`. -/
def testsModelForId (id query : Str) : TestsModel :=
  let precise := collectTestRows index.artifact
    (inboundSlots.flatMap (inboundOf index id index.inbound)) false
  let heuristic := collectTestRows index.artifact
    (guessedSlots.flatMap (inboundOf index id index.heuristicInbound)) true
  let bus := testBusRows index id
  { query := query
    symbol := id
    defFiles := defFiles index id
    rows := precise ++ heuristic
    testFileCount := precise.length
    refCount := (precise.map TestRow.refCount).sum
    heuristicFileCount := heuristic.length
    heuristicRefCount := (heuristic.map TestRow.refCount).sum
    bus := bus
    nameHint :=
      if (precise ++ heuristic).isEmpty && bus.total == 0 then nameHintRows index lowerChar id
      else [] }

/-- `build_tests_model`. -/
def buildTestsModel (query : Str) : TestsResult :=
  match resolveSymbol index.artifact.defs env.lower query with
  | .resolved id => .resolved (testsModelForId index lowerChar id query)
  | .ambiguous ids => .ambiguous ids
  | .notFound =>
      match resolveMemberSeed index.artifact query with
      | .resolved id => .resolved (testsModelForId index lowerChar id query)
      | .ambiguous candidates => .memberAmbiguous candidates
      | .notFound =>
          match resolveLocalSymbol index.artifact.defs env.lower query with
          | .resolved id => .resolved (testsModelForId index lowerChar id query)
          | .ambiguous ids => .ambiguous ids
          | .notFound => .notFound

end Tests

/-! ## The blast radius -/

/-- The rows of the walk with the gap against the manifest. -/
structure ImpactAnswer where
  kind : SeedKind
  model : ImpactModel
  manifestGap : Nat

inductive ImpactResult where
  | resolved (answer : ImpactAnswer)
  | ambiguous (kind : SeedKind) (ids : List Str)
  | memberAmbiguous (candidates : List MemberCandidate)
  | notFound (kind : SeedKind)

section Impact

variable (index : QueryIndex) (env : Surroundings)

/-- `build_impact_model`; `before` says which of two rows comes first, going by the walk. -/
def buildImpactModel (before : ImpactWalkResult → ImpactRow → ImpactRow → Bool) (arg : Str)
    (hops cap : Nat) (settings : Settings) : ImpactResult :=
  match resolveImpactSeed index.artifact env.lower arg with
  | .resolved kind ids =>
      .resolved ⟨kind, impactModelForSeed index.reach ids hops cap settings
        (before (impactWalk index.reach ids hops settings)), index.flaggedFiles.length⟩
  | .ambiguous kind ids => .ambiguous kind ids
  | .notFound kind => .notFound kind
  | .memberAmbiguous candidates => .memberAmbiguous candidates

end Impact

end Answers

end Devscout.Query
