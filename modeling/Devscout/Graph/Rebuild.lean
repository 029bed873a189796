/-
# Devscout.Graph.Rebuild -- the cache-then-resolve-then-write cycle

When nothing changed and the graph on disk is of the current schema the rebuild
answers without opening it. Otherwise it takes each graph file's fragment from the
cache, when the cached entry is of the same content key, or from this run's fresh
extractions, resolves them, and writes the graph, the sidecars and the two
fragment caches in that order.
-/

import Devscout.Store
import Devscout.Project
import Devscout.Lane

namespace Devscout

open Lib Lib.Files Lib.Atomic

variable {F : Facts}

/-- One file that contributes a graph fragment, with its content key. -/
structure GraphFile where
  rel : Str
  mtime : Int
  deriving DecidableEq

inductive RebuildOutcome (F : Facts) where
  | notRebuilt
  | rebuilt (graph : Graph F)

/-- `index_is_stale`: any key mismatch, or a differing file count. -/
def indexIsStale (index : OrderedMap Str Int) (graphFiles : List GraphFile) : Bool :=
  graphFiles.any (fun f => index.get? f.rel != some f.mtime) || index.size != graphFiles.length

/-- The fragment handed to the resolvers for one graph file. -/
def fragmentFor (cache : OrderedMap Str (FragmentCacheEntry F))
    (fresh : OrderedMap Str (AnyFragment F)) (f : GraphFile) : Option (AnyFragment F) :=
  match cache.get? f.rel with
  | some entry => if entry.mtime = f.mtime then some entry.fragment else fresh.get? f.rel
  | none => fresh.get? f.rel

/-- Every graph file that has a fragment, in walk order. -/
def mergeFragments (cache : OrderedMap Str (FragmentCacheEntry F))
    (fresh : OrderedMap Str (AnyFragment F)) (graphFiles : List GraphFile) :
    List (Str × FragmentCacheEntry F) :=
  graphFiles.filterMap fun f =>
    (fragmentFor cache fresh f).map fun fragment => (f.rel, ⟨f.mtime, fragment⟩)

/-- The merged fragments split by the resolver that reads them. -/
structure Merged (F : Facts) where
  cs : List (Str × F.Fragment)
  ts : List (Str × F.TsFragment)
  rs : List (Str × F.RsFragment)
  html : List (Str × F.HtmlFragment)

def Merged.push (m : Merged F) (rel : Str) : AnyFragment F → Merged F
  | .cs f => { m with cs := m.cs ++ [(rel, f)] }
  | .ts f => { m with ts := m.ts ++ [(rel, f)] }
  | .rs f => { m with rs := m.rs ++ [(rel, f)] }
  | .html f => { m with html := m.html ++ [(rel, f)] }

def splitMerged (fragments : List (Str × AnyFragment F)) : Merged F :=
  fragments.foldl (fun m e => m.push e.1 e.2) ⟨[], [], [], []⟩

/-- The models a rebuild is handed beside the fragments. -/
structure Models (F : Facts) where
  model : Option ProjectModel
  lane : LaneDecision F
  crates : Option RustCrates
  transport : TransportInputs

/-- What resolution reads off the disk itself. -/
structure ResolverReads (F : Facts) where
  head : Option Str
  ts : Option F.TsResolution
  texts : List (Str × Option Bytes)

section Resolve

variable (E : Engine F)

/-- `extend_graph` reads the TypeScript settings only when a TypeScript fragment is
there. -/
def readTsFor (fs : Dir) (root : Root) (m : Merged F) : Option F.TsResolution :=
  if m.ts.isEmpty then none else some (E.readTsResolution fs root (m.ts.map Prod.fst))

/-- The files transport assembly opens: the C# sources and the settings files. -/
def transportFiles (m : Merged F) (inputs : TransportInputs) : List Str :=
  m.cs.map Prod.fst ++ inputs.units.flatMap fun u => u.settings.map SettingsFile.file

def readTexts (fs : Dir) (root : Root) (files : List Str) : List (Str × Option Bytes) :=
  files.map fun f => (f, readFile fs (root.join f))

def anySite (m : Merged F) : Bool := m.cs.any fun f => E.hasTransportSite f.2

/-- The resolution stages, in the order they run. -/
def resolveAll (m : Merged F) (models : Models F) (reads : ResolverReads F) : Graph F :=
  let body := E.resolveGraph m.cs m.ts reads.ts models.model models.lane.layer
  let body := E.appendTemplates m.ts m.html body
  let body := recordLane E models.lane body
  let body := E.appendRust m.rs body
  let body := E.appendRustEdges m.rs models.crates body
  { schemaVersion := GRAPH_SCHEMA_VERSION
    builtAtHead := reads.head
    body := body
    transport :=
      if anySite E m then E.assemble reads.texts m.cs body models.model models.transport else [] }

/-- The writes of a rebuild, in order. -/
def rebuildOps (owner : Option Str) (merged : List (Str × FragmentCacheEntry F)) (graph : Graph F)
    (models : Models F) : List (WriteOp F) :=
  let m := splitMerged (merged.map fun e => (e.1, e.2.fragment))
  let newCache : OrderedMap Str (FragmentCacheEntry F) := OrderedMap.empty.insertAll merged
  [.graph graph,
    .transport (if anySite E m then some models.transport else none),
    .units (models.model.map graphUnits),
    .crates models.crates,
    .cache ⟨owner, newCache⟩,
    .index ⟨owner, newCache.mapValues FragmentCacheEntry.mtime⟩]

/-- Writes, one after the other. -/
def writeAll (ops : List (WriteOp F)) : MapProg F Unit :=
  ops.foldr (fun op rest => .put op rest) (.ret ())

/-- The rebuild itself: cache, resolve, write. -/
def rebuildNow (wt : Worktree) (graphFiles : List GraphFile)
    (fresh : OrderedMap Str (AnyFragment F)) (models : Models F) : MapProg F (RebuildOutcome F) := do
  let cache ← Prog.read .fragmentsCache fun w => w.store.readFragmentsCache wt.owner
  let merged := mergeFragments cache fresh graphFiles
  let m := splitMerged (merged.map fun e => (e.1, e.2.fragment))
  let ts ← Prog.read .tsResolution fun w => readTsFor E w.fs.dir wt.root m
  let head ← Prog.read .builtAtHead fun w => E.gitHead w.fs.dir (w.git wt.root) wt.root
  let texts ← Prog.read .transportTexts fun w =>
    readTexts w.fs.dir wt.root (transportFiles m models.transport)
  let graph := resolveAll E m models ⟨head, ts, texts⟩
  writeAll (rebuildOps E wt.owner merged graph models)
  pure (.rebuilt graph)

/-- `rebuild_graph_with_crates`. -/
def rebuildGraph (wt : Worktree) (graphFiles : List GraphFile)
    (fresh : OrderedMap Str (AnyFragment F)) (changed : Bool) (models : Models F) :
    MapProg F (RebuildOutcome F) :=
  if changed then rebuildNow E wt graphFiles fresh models
  else do
    let current ← Prog.read .graphPresent fun w => w.store.graphIsCurrent
    if current then pure .notRebuilt else rebuildNow E wt graphFiles fresh models

end Resolve

end Devscout
