/-
# Devscout.MapCmd -- one run of `map`

A run first observes: the scope, the prior record, Git's head and status, the
ignore set, the walk, the prior manifest, the fragments index, every walked file
once, the discovered models, the lane decision, the graph on disk and the
sidecars. From these it decides what to write. It then writes, the in-progress
marker first and the record that certifies the run last.

Each observation of another party's data is one atomic look, so that edits, other
runs and queries may fall between any two of them. The files are read in an order
of the scheduler's choosing, because the reads run in parallel.
-/

import Devscout.Dispatch
import Devscout.Freshness.Status
import Devscout.Graph.Rebuild

namespace Devscout

open Lib Lib.Text Lib.Files Lib.Atomic

variable {F : Facts} (E : Engine F)

/-- In which order a number of parallel reads take place. -/
structure Schedule where
  order : Nat → List Nat
  perm : ∀ n, (order n).Perm (List.range n)

/-- Front to back. -/
def Schedule.inOrder : Schedule := ⟨List.range, fun _ => List.Perm.refl _⟩

/-- One invocation of `map`: the command line and this run's generation token. -/
structure MapArgs where
  scopeDirs : List Str
  noSemantic : Bool
  token : Str
  schedule : Schedule

/-- One walked file's plan, from one read. -/
structure PlanEntry (F : Facts) where
  rel : Str
  cacheKey : Int
  digest : Option Str
  priorEntry : Option Value
  reusable : Bool
  heuristic : Str
  parsed : Option (ParsedFile F)

/-- Whether a prior entry answers for a file of content key `key`. -/
def isReusable (graphIndex : OrderedMap Str Int) (prior : Option Value) (rel : Str) (key : Int) :
    Bool :=
  let fragmentOk := !isGraphSource rel || graphIndex.get? rel == some key
  match prior with
  | some entry => entryCacheKey entry == some key && carriesBestSource entry rel && fragmentOk
  | none => false

/-- `plan_entry`, from the bytes the read returned. -/
def planEntry (graphIndex : OrderedMap Str Int) (priorIndex : OrderedMap Str Value) (rel : Str)
    (read : Option Bytes) : PlanEntry F :=
  let priorEntry := priorIndex.get? rel
  match read with
  | none => ⟨rel, 0, none, priorEntry, false, [], none⟩
  | some bytes =>
      let key := E.cacheKey bytes
      let text := fromUtf8Lossy bytes
      let reusable := isReusable graphIndex priorEntry rel key
      { rel := rel
        cacheKey := key
        digest := some (E.sha256Hex bytes)
        priorEntry := priorEntry
        reusable := reusable
        heuristic := E.defaultPurpose text
        parsed := if reusable then none else reparse E rel text }

/-- The value of a file's manifest entry. -/
def entryValue (purposes : OrderedMap Str Str) (p : PlanEntry F) : Value :=
  match p.reusable, p.priorEntry with
  | true, some prior => withEnsuredSource prior
  | _, _ =>
      match purposes.get? p.rel with
      | some sig => .object [(purposeKey, .string sig), (mtimeKey, .number (.int p.cacheKey)),
          (sourceKey, .string astSource)]
      | none => .object [(purposeKey, .string p.heuristic), (mtimeKey, .number (.int p.cacheKey)),
          (sourceKey, .string (fallbackSource p.rel))]

/-- The scoped merge: this run's entries in walk order, then every prior entry
outside the scope as it was. -/
def mergedEntries (scope : List Str) (prior : List (Str × Value)) (purposes : OrderedMap Str Str)
    (plan : List (PlanEntry F)) : List (Str × Value) :=
  plan.map (fun p => (p.rel, entryValue purposes p)) ++
    prior.filter fun e => !isWithinScope e.1 scope

/-- The terms of the summary line. -/
structure MapCounts where
  scopedFileCount : Nat
  totalManifestEntries : Nat
  mergedOutOfScope : Nat
  preserved : Nat
  downgraded : Nat
  added : Nat
  removed : Nat
  parsedAst : Nat
  deriving DecidableEq

/-- An entry's own `source`, no default put in. -/
def writtenSource (entry : Value) : Option Str := (entry.get sourceKey).bind Value.asStr

def mapCounts (scope : List Str) (prior : List (Str × Value)) (purposes : OrderedMap Str Str)
    (plan : List (PlanEntry F)) : MapCounts :=
  let own := plan.map fun p => (p.rel, entryValue purposes p)
  let outside := prior.filter fun e => !isWithinScope e.1 scope
  { scopedFileCount := own.length
    totalManifestEntries := (own ++ outside).length
    mergedOutOfScope := outside.length
    preserved := plan.countP fun p =>
      p.reusable && (p.priorEntry.bind fun e => writtenSource (withEnsuredSource e)) == some agentSource
    downgraded := plan.countP fun p =>
      !p.reusable && p.priorEntry.any fun e => entrySource e == agentSource
    added := plan.countP fun p => !p.reusable && p.priorEntry.isNone
    removed := prior.countP fun e => isWithinScope e.1 scope && !(own.map Prod.fst).contains e.1
    parsedAst := own.countP fun e => writtenSource e.2 == some astSource }

def manifestValue (head : Option Str) (scope : List Str) (entries : List (Str × Value)) : Value :=
  .object [(builtAtHeadKey, (head.map Value.string).getD .null),
    (scopedDirsKey, .array (scope.map Value.string)), (entriesKey, .object entries)]

def graphFilesOf (plan : List (PlanEntry F)) : List GraphFile :=
  (plan.filter fun p => isGraphSource p.rel).map fun p => ⟨p.rel, p.cacheKey⟩

/-- `map_pathspecs`. -/
def mapPathspecs (scope priorConfigInputs : List Str) : List Str :=
  scopePathspecs scope ++ configPathspecs scope ++ priorConfigInputs.map (literalMagic ++ ·)

/-- Whether the prior run's manifest and graph are this worktree's own. -/
def priorIsMine (owner : Option Str) (priorRecord : Option Record) : Bool :=
  match owner, priorRecord with
  | some owner, some record => record.owner == owner
  | none, none => true
  | _, _ => false

/-- A tree without an owner has the runs that left no record. -/
example : priorIsMine (some ['w']) none = false ∧ priorIsMine none none = true := by decide +kernel

def RecordState.certified : RecordState → Option Record
  | .published record => some record
  | _ => none

/-- Every entry of a manifest; one without an `entries` object has none. -/
def manifestEntries (manifest : Option Value) : List (Str × Value) :=
  ((manifest.bind fun m => m.get entriesKey).bind Value.asObject).getD []

/-- What a run observed and decided before its first write. -/
structure Plan (F : Facts) where
  scope : List Str
  pathspecs : List Str
  head0 : Option Str
  status0 : Option (List Str)
  ignored : Ignored
  files : List Str
  priorEntries : List (Str × Value)
  graphIndex : OrderedMap Str Int
  plan : List (PlanEntry F)
  entries : List (Str × Value)
  counts : MapCounts
  digests : OrderedMap Str Str
  freshFragments : OrderedMap Str (AnyFragment F)
  models : Models F
  configDigests : ConfigDigests
  graphTrusted : Bool
  changed : Bool

def Plan.graphFiles (p : Plan F) : List GraphFile := graphFilesOf p.plan

/-- Read every walked file, in the scheduler's order, into plan entries in walk
order. -/
def readPlan (schedule : Schedule) (root : Root) (graphIndex : OrderedMap Str Int)
    (priorIndex : OrderedMap Str Value) (files : List Str) : MapProg F (List (PlanEntry F)) := do
  let order := schedule.order files.length
  let entries ← Prog.readEach .sourceFile
    (fun i (w : World F) =>
      let rel := files.getD i []
      planEntry E graphIndex priorIndex rel (readFile w.fs.dir (root.join rel))) order
  pure ((List.range files.length).filterMap fun i => (order.zip entries).lookup i)

/-- The observing half of `map_repo`. -/
def planRun (wt : Worktree) (args : MapArgs) : MapProg F (Plan F) := do
  let root := wt.root
  let scope ← Prog.readOr .registry fun w =>
    scopeFor (w.registry root) (if args.scopeDirs.isEmpty then none else some args.scopeDirs)
  let priorRecord ← Prog.read .record fun w => w.store.readRecord.certified
  let priorMine := priorIsMine wt.owner priorRecord
  let priorConfigInputs :=
    if priorMine then (priorRecord.map fun r => r.configInputs.keys).getD [] else []
  let pathspecs := mapPathspecs scope priorConfigInputs
  let head0 ← Prog.read .head fun w => E.gitHead w.fs.dir (w.git root) root
  let status0 ← Prog.read .status0 fun w =>
    (gitStatusPaths E w.fs.dir (w.git root) root pathspecs none).toOption
  let ignored ← Prog.readOr .ignored fun w => ignoredForScope E w.fs.dir (w.git root) root scope
  let files ← Prog.readOr .walk fun w => listSourceFiles w.fs.dir root scope ignored
  let priorManifest ← Prog.read .manifest fun w => w.store.manifest.map Stamped.content
  let priorEntries := if priorMine then manifestEntries priorManifest else []
  let priorIndex := OrderedMap.empty.insertAll priorEntries
  let graphIndex ← Prog.read .fragmentsIndex fun w => w.store.readFragmentsIndex wt.owner
  let plan ← readPlan E args.schedule root graphIndex priorIndex files
  let folded := foldParsed (plan.filterMap PlanEntry.parsed)
  let entries := mergedEntries scope priorEntries folded.1 plan
  let digests := OrderedMap.empty.insertAll
    (plan.filterMap fun p => p.digest.map fun digest => (p.rel, digest))
  let graphFiles := graphFilesOf plan
  let (model, modelDigests) ← Prog.readOr .projects fun w =>
    discoverProjects E w.fs.dir root scope ignored .empty
  let lane ← Prog.read .lane fun w =>
    decideLane E w.fs.dir (w.git root) root w.compilerFacts args.noSemantic
  let rsFiles := (graphFiles.map GraphFile.rel).filter isRust
  let (crates, configDigests) ← Prog.readOr .crates fun w =>
    discoverCrates E w.fs.dir root scope ignored rsFiles modelDigests
  let graphOnDisk ← Prog.read .graphOnDisk fun w => w.store.graphIdentity
  let graphTrusted := priorMine &&
    (priorRecord.map fun r => decide (r.artifacts.graph = graphOnDisk)).getD true
  let transport ← Prog.read .transportInputs fun w => discoverTransport E w.fs.dir root model files
  let unitsDiffer ← Prog.read .unitsSidecar fun w =>
    unitsSidecarDiffers (w.store.units.map Stamped.content) model
  let cratesDiffer ← Prog.read .cratesSidecar fun w =>
    cratesSidecarDiffers (w.store.crates.map Stamped.content) crates
  let transportDiffers ← Prog.read .transportSidecar fun w =>
    transportSidecarDiffers (w.store.transport.map Stamped.content) transport
  let changed := !graphTrusted || indexIsStale graphIndex graphFiles || unitsDiffer ||
    cratesDiffer || transportDiffers || lane.forcesRebuild
  pure
    { scope, pathspecs, head0, status0, ignored, files, priorEntries, graphIndex, plan, entries
      counts := mapCounts scope priorEntries folded.1 plan
      digests
      freshFragments := folded.2
      models := ⟨model, lane, crates, transport⟩
      configDigests, graphTrusted, changed }

/-- What a completed run reports: its plan, with the scope and the counts, and the
outcome of the rebuild. -/
structure MapReport (F : Facts) where
  plan : Plan F
  outcome : RebuildOutcome F

/-- `MapSession::mark_in_progress`: a root with no owner instead clears whatever
certification it finds. -/
def markInProgress (owner : Option Str) : MapProg F Unit :=
  match owner with
  | some owner => Prog.write (.record (.marker owner))
  | none => do
      Prog.write .removeRecord
      Prog.write .removeDigests

/-- T0 union T2 over the relevant paths; unknown when either read failed. -/
def dirtyAtMap (scope : List Str) (status0 status2 : Option (List Str)) : Option (List Str) :=
  match status0, status2 with
  | some t0, some t2 => some (((t0 ++ t2).filter (isRelevant · scope)).dedup)
  | _, _ => none

/-- `MapSession::publish`: sample both artifacts, then write the record. -/
def publish (owner token : Str) (p : Plan F) (dirty : Option (List Str)) : MapProg F Unit := do
  let graph ← Prog.read .sampleGraph fun w => w.store.graphIdentity
  let manifest ← Prog.read .sampleManifest fun w => w.store.manifestIdentity
  Prog.write (.record (.published
    { owner := owner
      generation := token
      indexedHead := p.head0
      scope := p.scope
      fileCount := p.entries.length
      dirtyAtMap := dirty
      configInputs := p.configDigests
      artifacts := ⟨graph, manifest⟩ }))

/-- The writing half of `map_repo`. -/
def commitRun (wt : Worktree) (args : MapArgs) (p : Plan F) : MapProg F (MapReport F) := do
  markInProgress wt.owner
  Prog.write (.manifest (manifestValue p.head0 p.scope p.entries))
  let outcome ← rebuildGraph E wt p.graphFiles p.freshFragments p.changed p.models
  let status2 ← Prog.read .status2 fun w =>
    (gitStatusPaths E w.fs.dir (w.git wt.root) wt.root p.pathspecs none).toOption
  let dirty := dirtyAtMap p.scope p.status0 status2
  match wt.owner with
  | none => pure ⟨p, outcome⟩
  | some owner => do
      Prog.write (.digests ⟨args.token, p.digests⟩)
      publish owner args.token p dirty
      pure ⟨p, outcome⟩

/-- `map_repo`. -/
def mapRepo (wt : Worktree) (args : MapArgs) : MapProg F (MapReport F) := do
  let plan ← planRun E wt args
  commitRun E wt args plan

end Devscout
