/-
# Devscout.Store -- the state directory and what one run may do to it

The state directory of a repository holds nine files, shared by all its
worktrees: the freshness record, the digest table, the manifest, the graph, three
staleness sidecars, the fragments cache and the fragments index. Each is replaced
whole, by an atomic rename that installs a file identity, or removed. The world a
run observes is that directory together with the file system, Git's own state of
each worktree, the registry and the compiler-facts artifact.
-/

import Devscout.Engine
import Devscout.Lib.Atomic
import Devscout.Lib.Slot

namespace Devscout

open Lib Lib.Files Lib.Atomic

/-- What the file system reports about one artifact file. -/
structure ArtifactIdentity where
  len : Nat
  modifiedNs : Nat
  dev : Option Nat
  ino : Option Nat
  deriving DecidableEq

/-- A file of the state directory. -/
abbrev StateFile (α : Type) := Stamped ArtifactIdentity α

/-! ## The freshness record -/

/-- The two artifacts a published generation certifies. -/
structure Artifacts where
  graph : Option ArtifactIdentity
  manifest : Option ArtifactIdentity
  deriving DecidableEq

structure Record where
  owner : Str
  generation : Str
  indexedHead : Option Str
  scope : List Str
  fileCount : Nat
  /-- Absent when the run could not establish it. -/
  dirtyAtMap : Option (List Str)
  configInputs : OrderedMap Str Str
  artifacts : Artifacts

/-- What the record file holds. -/
inductive RecordFile where
  | marker (owner : Str)
  | published (record : Record)
  /-- Another format or version, or bytes that do not parse. -/
  | other

/-- `RecordState`: what a read of the record file answers. -/
inductive RecordState where
  | missing
  | inProgress (owner : Str)
  | published (record : Record)
  | uncertifiable

structure DigestTable where
  generation : Str
  files : OrderedMap Str Str

/-! ## The graph and the fragment caches -/

def GRAPH_SCHEMA_VERSION : Nat := 3

structure Graph (F : Facts) where
  schemaVersion : Nat
  builtAtHead : Option Str
  body : F.Body
  transport : List F.TransportFact

structure FragmentCacheEntry (F : Facts) where
  mtime : Int
  fragment : AnyFragment F

/-- A cache file: its entries and the worktree that wrote them. -/
structure OwnerStamped (V : Type) where
  owner : Option Str
  entries : OrderedMap Str V

/-! ## The state directory -/

structure Store (F : Facts) where
  /-- How many renames were ever performed here. -/
  renames : Nat
  record : Option (StateFile RecordFile)
  digests : Option (StateFile DigestTable)
  manifest : Option (StateFile Value)
  graph : Option (StateFile (Graph F))
  transport : Option (StateFile TransportInputs)
  units : Option (StateFile (List GraphUnit))
  crates : Option (StateFile RustCrates)
  cache : Option (StateFile (OwnerStamped (FragmentCacheEntry F)))
  index : Option (StateFile (OwnerStamped Int))

def Store.empty {F : Facts} : Store F := ⟨0, none, none, none, none, none, none, none, none, none⟩

/-- One replacement or removal of one file. A sidecar's `none` removes it. -/
inductive WriteOp (F : Facts) where
  | record (file : RecordFile)
  | removeRecord
  | removeDigests
  | digests (table : DigestTable)
  | manifest (value : Value)
  | graph (graph : Graph F)
  | transport (inputs : Option TransportInputs)
  | units (units : Option (List GraphUnit))
  | crates (crates : Option RustCrates)
  | cache (entries : OwnerStamped (FragmentCacheEntry F))
  | index (entries : OwnerStamped Int)

/-- The file identity each rename of a directory installs. -/
abbrev Supply := Nat → ArtifactIdentity

/-- A clock that ticks at every rename. -/
def tickingSupply : Supply := fun n => ⟨0, n, none, none⟩

theorem tickingSupply_injective : Function.Injective tickingSupply :=
  fun _ _ h => congrArg ArtifactIdentity.modifiedNs h

section Apply

variable {F : Facts} (ident : Supply)

/-- The file the next rename installs. -/
def Store.fresh {α : Type} (s : Store F) (a : α) : Option (StateFile α) := some ⟨ident s.renames, a⟩

def Store.apply (s : Store F) : WriteOp F → Store F
  | .record file => { s with renames := s.renames + 1, record := s.fresh ident file }
  | .removeRecord => { s with record := none }
  | .removeDigests => { s with digests := none }
  | .digests table => { s with renames := s.renames + 1, digests := s.fresh ident table }
  | .manifest value => { s with renames := s.renames + 1, manifest := s.fresh ident value }
  | .graph graph => { s with renames := s.renames + 1, graph := s.fresh ident graph }
  | .transport (some inputs) =>
      { s with renames := s.renames + 1, transport := s.fresh ident inputs }
  | .transport none => { s with transport := none }
  | .units (some units) => { s with renames := s.renames + 1, units := s.fresh ident units }
  | .units none => { s with units := none }
  | .crates (some crates) => { s with renames := s.renames + 1, crates := s.fresh ident crates }
  | .crates none => { s with crates := none }
  | .cache entries => { s with renames := s.renames + 1, cache := s.fresh ident entries }
  | .index entries => { s with renames := s.renames + 1, index := s.fresh ident entries }

theorem Store.renames_le_apply (s : Store F) (op : WriteOp F) :
    s.renames ≤ (s.apply ident op).renames := by
  cases op with
  | transport inputs => cases inputs <;> simp [Store.apply]
  | units units => cases units <;> simp [Store.apply]
  | crates crates => cases crates <;> simp [Store.apply]
  | _ => simp [Store.apply]

/-- A write leaves a slot alone or renames a file into it. -/
def Written {α : Type} (slot : Store F → Option (StateFile α)) (s : Store F) (op : WriteOp F) :
    Prop :=
  slot (s.apply ident op) = slot s ∨
    ∃ a, slot (s.apply ident op) = s.fresh ident a ∧ (s.apply ident op).renames = s.renames + 1

theorem written_graph (s : Store F) (op : WriteOp F) : Written ident Store.graph s op := by
  cases op with
  | graph graph => exact Or.inr ⟨graph, rfl, rfl⟩
  | transport inputs => cases inputs <;> exact Or.inl rfl
  | units units => cases units <;> exact Or.inl rfl
  | crates crates => cases crates <;> exact Or.inl rfl
  | _ => exact Or.inl rfl

theorem written_manifest (s : Store F) (op : WriteOp F) : Written ident Store.manifest s op := by
  cases op with
  | manifest value => exact Or.inr ⟨value, rfl, rfl⟩
  | transport inputs => cases inputs <;> exact Or.inl rfl
  | units units => cases units <;> exact Or.inl rfl
  | crates crates => cases crates <;> exact Or.inl rfl
  | _ => exact Or.inl rfl

variable {ident} {α : Type} {slot : Store F → Option (StateFile α)} {s : Store F} {op : WriteOp F}

theorem Written.replaced (h : Written ident slot s op) :
    Replaced ident s.renames (slot s) (slot (s.apply ident op)) := by
  rcases h with heq | ⟨a, heq, -⟩
  · exact Or.inl heq
  · rw [heq]
    exact Replaced.rename ident le_rfl _ a

theorem Written.dated (h : Written ident slot s op) (hdated : Dated ident s.renames (slot s)) :
    Dated ident (s.apply ident op).renames (slot (s.apply ident op)) := by
  rcases h with heq | ⟨a, heq, hrenames⟩
  · rw [heq]
    exact hdated.mono (s.renames_le_apply ident op)
  · rw [heq, hrenames]
    exact Dated.rename ident _ a

end Apply

/-! ## Reading it -/

section Read

variable {F : Facts} (s : Store F)

/-- `read_record`: a published record missing a required field certifies nothing. -/
def Store.readRecord : RecordState :=
  match s.record with
  | none => .missing
  | some file =>
      match file.content with
      | .marker owner => .inProgress owner
      | .published record => if record.dirtyAtMap.isSome then .published record else .uncertifiable
      | .other => .uncertifiable

/-- `ArtifactIdentity::of` the graph. -/
def Store.graphIdentity : Option ArtifactIdentity := s.graph.map Stamped.ident

def Store.manifestIdentity : Option ArtifactIdentity := s.manifest.map Stamped.ident

/-- Entries another worktree wrote read as none. -/
def ownEntries {V : Type} (owner : Option Str) (file : Option (StateFile (OwnerStamped V))) :
    OrderedMap Str V :=
  match file with
  | none => .empty
  | some file => if file.content.owner = owner then file.content.entries else .empty

/-- `read_fragments_cache`, from the worktree `owner`. -/
def Store.readFragmentsCache (owner : Option Str) : OrderedMap Str (FragmentCacheEntry F) :=
  ownEntries owner s.cache

/-- `read_fragments_index`, from the worktree `owner`. -/
def Store.readFragmentsIndex (owner : Option Str) : OrderedMap Str Int := ownEntries owner s.index

/-- `graph_schema_is_current`, a missing graph included. -/
def Store.graphIsCurrent : Bool :=
  match s.graph with
  | some file => file.content.schemaVersion == GRAPH_SCHEMA_VERSION
  | none => false

end Read

/-! ## The world -/

/-- A checkout: its root and the Git administrative directory that names it. -/
structure Worktree where
  root : Root
  owner : Option Str
  deriving DecidableEq

structure World (F : Facts) where
  fs : FileTree
  git : Root → GitState
  registry : Root → Except Str (Option (List Str))
  compilerFacts : Option F.CompilerFacts
  store : Store F

/-- A tree that was never mapped, with no Git around it. -/
def World.ofTree {F : Facts} (fs : FileTree) : World F where
  fs := fs
  git := fun _ => ⟨none, [], fun _ _ => false⟩
  registry := fun _ => .ok none
  compilerFacts := none
  store := Store.empty

/-- One write of a run, in the world. -/
def World.apply {F : Facts} (ident : Supply) (op : WriteOp F) (w : World F) : World F :=
  { w with store := w.store.apply ident op }

/-- The observations a run and a query make, by what they read. -/
inductive Look where
  | registry
  | record
  | head
  | status0
  | ignored
  | walk
  | manifest
  | fragmentsIndex
  | sourceFile
  | projects
  | lane
  | crates
  | graphOnDisk
  | transportInputs
  | unitsSidecar
  | cratesSidecar
  | transportSidecar
  | graphPresent
  | fragmentsCache
  | builtAtHead
  | tsResolution
  | transportTexts
  | status2
  | sampleGraph
  | sampleManifest
  | beginRecord
  | queryGraph
  | queryManifest
  | queryHead
  | queryStatus
  | digestsBefore
  | digestsText
  | digestsAfter
  | candidateSize
  | candidate
  | endRecord
  | endGraph
  | endManifest
  deriving DecidableEq

abbrev MapProg (F : Facts) (α : Type) := Prog (World F) Look (WriteOp F) α

end Devscout
