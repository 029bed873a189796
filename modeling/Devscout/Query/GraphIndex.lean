/-
# Devscout.Query.GraphIndex -- the index a query reads

A graph is its definitions and its edges. Loading an index files every edge where a query
will look for it: under the definition it names, under the file it starts in, or under an
injected type. Which edges are filed at all is the caller's choice, made here once: guesses,
dispatch edges and bus hops can each be left out. A table is kept as what was pushed to it,
in order; reading a key's list out of it is reading the pushes under that key.
-/

import Devscout.Resolve.Edge

namespace Devscout.Query

open Lib
open Resolve (HeuristicTier)

/-! ## The graph -/

structure Def where
  id : Str
  name : Str
  kind : Str
  file : Str
  alsoIn : List Str
  testMethods : List Str
  deriving DecidableEq

inductive Edge where
  | inherits (fromFile : Str) (fromLine : Nat) (toDef toFile : Str) (heuristic : Bool)
  | usesType (fromFile : Str) (fromLine : Nat) (toDef toFile : Str) (heuristic : Bool)
  | usesMember (fromFile : Str) (fromLine : Nat) (toDef toFile : Str) (heuristic : Bool)
      (tier : Option HeuristicTier)
  | imports (fromFile : Str) (fromLine : Nat)
  | ambiguous (origin fromFile : Str) (fromLine : Nat) (candidates : List Str)
  | ctorDi (fromFile : Str) (fromLine : Nat) (iface : Str) (toDef : Option Str)
  | import_ (fromFile : Str) (fromLine : Nat) (toFile : Str) (boundDefs : List Str)
  | call (fromFile : Str) (fromLine : Nat) (toDef toFile : Str)
  | jsxUse (fromFile : Str) (fromLine : Nat) (toDef toFile : Str)
  | dispatch (fromFile : Str) (fromLine : Nat) (toDef toFile : Str)
  | implements (fromFile : Str) (fromLine : Nat) (toDef toFile : Str)
  | overrides (fromFile : Str) (fromLine : Nat) (toDef toFile : Str)
  | busHop (fromFile : Str) (fromLine : Nat) (message toDef toFile : Str)
  deriving DecidableEq

namespace Edge

/-- `edge_loc`. -/
def loc : Edge → Str × Nat
  | inherits fromFile fromLine _ _ _ => (fromFile, fromLine)
  | usesType fromFile fromLine _ _ _ => (fromFile, fromLine)
  | usesMember fromFile fromLine _ _ _ _ => (fromFile, fromLine)
  | imports fromFile fromLine => (fromFile, fromLine)
  | ambiguous _ fromFile fromLine _ => (fromFile, fromLine)
  | ctorDi fromFile fromLine _ _ => (fromFile, fromLine)
  | import_ fromFile fromLine _ _ => (fromFile, fromLine)
  | call fromFile fromLine _ _ => (fromFile, fromLine)
  | jsxUse fromFile fromLine _ _ => (fromFile, fromLine)
  | dispatch fromFile fromLine _ _ => (fromFile, fromLine)
  | implements fromFile fromLine _ _ => (fromFile, fromLine)
  | overrides fromFile fromLine _ _ => (fromFile, fromLine)
  | busHop fromFile fromLine _ _ _ => (fromFile, fromLine)

/-- `tier`. -/
def tierOf : Edge → Option HeuristicTier
  | usesMember _ _ _ _ _ tier => tier
  | _ => none

end Edge

/-- A graph; `unitIsTest` is what its project model answers about a file. -/
structure Graph where
  defs : List Def
  edges : List Edge
  unitIsTest : Str → Bool

/-- What the caller wants in the index. -/
structure IndexOptions where
  includeGuesses : Bool
  includeDispatch : Bool
  includeBus : Bool

/-! ## Filing the edges -/

/-- The lists an entry of the index keeps. -/
inductive Slot where
  | inherits
  | usesType
  | usesMember
  | implements
  | overrides
  | busHop
  | call
  | jsxUse
  | dispatch
  | import_
  | imports
  deriving DecidableEq

/-- What filing one edge pushes, table by table. -/
structure Pushes where
  inbound : List (Str × Slot) := []
  outboundByFile : List (Str × Slot) := []
  heuristicInbound : List (Str × Slot) := []
  ambiguousByCandidate : List Str := []
  ctorDiByTo : List Str := []
  ctorDiSites : List (Str × Str × Nat) := []
  hubReferrers : List (Str × Str) := []

/-- `admits`: whether a guess earns a place at all. -/
def admits (opts : IndexOptions) (e : Edge) : Bool :=
  opts.includeGuesses || e.tierOf == some .ext

/-- A file that another file refers to. -/
def noteReferrer (fromFile toFile : Str) : List (Str × Str) :=
  if toFile ≠ [] ∧ fromFile ≠ [] ∧ toFile ≠ fromFile then [(toFile, fromFile)] else []

/-- A reference the resolver may have guessed; it counts for the hub brake either way. -/
def recordReference (opts : IndexOptions) (slot : Slot) (fromFile toDef toFile : Str)
    (heuristic : Bool) (e : Edge) : Pushes :=
  if heuristic then
    { hubReferrers := noteReferrer fromFile toFile
      heuristicInbound := if admits opts e then [(toDef, slot)] else [] }
  else
    { hubReferrers := noteReferrer fromFile toFile
      outboundByFile := [(fromFile, slot)]
      inbound := [(toDef, slot)] }

/-- `record_dispatch_edge`, after `note_dispatch_files`. -/
def recordDispatchEdge (opts : IndexOptions) (slot : Slot) (fromFile toDef toFile : Str) : Pushes :=
  if opts.includeDispatch then
    { hubReferrers := noteReferrer fromFile toFile
      outboundByFile := [(fromFile, slot)]
      inbound := [(toDef, slot)] }
  else { hubReferrers := noteReferrer fromFile toFile }

/-- `record_ts_edge`, then `note_dispatch_files`. -/
def recordTsEdge (slot : Slot) (fromFile toFile : Str) (targets : List Str) : Pushes :=
  { hubReferrers := noteReferrer fromFile toFile
    outboundByFile := [(fromFile, slot)]
    inbound := targets.map (·, slot) }

/-- One turn of the loop over the edges. -/
def record (opts : IndexOptions) (e : Edge) : Pushes :=
  match e with
  | .imports fromFile _ => { outboundByFile := [(fromFile, .imports)] }
  | .ambiguous _ _ _ candidates => { ambiguousByCandidate := candidates }
  | .inherits fromFile _ toDef toFile heuristic =>
      recordReference opts .inherits fromFile toDef toFile heuristic e
  | .usesType fromFile _ toDef toFile heuristic =>
      recordReference opts .usesType fromFile toDef toFile heuristic e
  | .usesMember fromFile _ toDef toFile heuristic _ =>
      recordReference opts .usesMember fromFile toDef toFile heuristic e
  | .implements fromFile _ toDef toFile => recordDispatchEdge opts .implements fromFile toDef toFile
  | .overrides fromFile _ toDef toFile => recordDispatchEdge opts .overrides fromFile toDef toFile
  | .ctorDi fromFile fromLine iface toDef =>
      { ctorDiSites := [(iface, fromFile, fromLine)]
        ctorDiByTo := toDef.toList }
  | .import_ fromFile _ toFile boundDefs =>
      if boundDefs.isEmpty then {} else recordTsEdge .import_ fromFile toFile boundDefs
  | .call fromFile _ toDef toFile => recordTsEdge .call fromFile toFile [toDef]
  | .jsxUse fromFile _ toDef toFile => recordTsEdge .jsxUse fromFile toFile [toDef]
  | .dispatch fromFile _ toDef toFile => recordTsEdge .dispatch fromFile toFile [toDef]
  | .busHop fromFile _ _ toDef toFile =>
      if opts.includeBus then
        { hubReferrers := noteReferrer fromFile toFile
          outboundByFile := [(fromFile, .busHop)]
          inbound := [(toDef, .busHop)] }
      else {}

/-- A table whose entries keep a list for each slot. -/
abbrev SlotTable := List (Str × Slot × Edge)

/-- A table whose entries are lists. -/
abbrev EdgeTable := List (Str × Edge)

structure GraphIndex where
  graph : Graph
  inbound : SlotTable
  outboundByFile : SlotTable
  heuristicInbound : SlotTable
  ambiguousByCandidate : EdgeTable
  ctorDiByTo : EdgeTable
  ctorDiSites : List (Str × Str × Nat)
  hubReferrers : List (Str × Str)

def fileSlots (edges : List Edge) (pushed : Edge → List (Str × Slot)) : SlotTable :=
  edges.flatMap fun e => (pushed e).map fun k => (k.1, k.2, e)

def fileEdges (edges : List Edge) (pushed : Edge → List Str) : EdgeTable :=
  edges.flatMap fun e => (pushed e).map (·, e)

/-- `load_graph_index_with`. -/
def loadGraphIndexWith (graph : Graph) (opts : IndexOptions) : GraphIndex where
  graph := graph
  inbound := fileSlots graph.edges fun e => (record opts e).inbound
  outboundByFile := fileSlots graph.edges fun e => (record opts e).outboundByFile
  heuristicInbound := fileSlots graph.edges fun e => (record opts e).heuristicInbound
  ambiguousByCandidate := fileEdges graph.edges fun e => (record opts e).ambiguousByCandidate
  ctorDiByTo := fileEdges graph.edges fun e => (record opts e).ctorDiByTo
  ctorDiSites := graph.edges.flatMap fun e => (record opts e).ctorDiSites
  hubReferrers := graph.edges.flatMap fun e => (record opts e).hubReferrers

/-! ## Reading the index -/

/-- Whether a key has an entry. -/
def SlotTable.has (table : SlotTable) (key : Str) : Bool := table.any (·.1 == key)

/-- A list of the entry under a key. -/
def SlotTable.at (table : SlotTable) (key : Str) (slot : Slot) : List Edge :=
  (table.filter fun row => row.1 == key && row.2.1 == slot).map (·.2.2)

def EdgeTable.at (table : EdgeTable) (key : Str) : List Edge :=
  (table.filter (·.1 == key)).map (·.2)

namespace GraphIndex

variable (index : GraphIndex)

/-- `def`: the last definition filed under an id. -/
def findDef (id : Str) : Option Def := index.graph.defs.reverse.find? (·.id == id)

/-- `def_files`. -/
def defFiles (id : Str) : List Str :=
  match index.findDef id with
  | none => []
  | some d => (d.file :: d.alsoIn).eraseDups

/-- `by_file`. -/
def byFile (file : Str) : List Def :=
  index.graph.defs.filter fun d => d.file == file || d.alsoIn.contains file

/-- `ctor_di_fanin`: the distinct constructor sites that inject a type. -/
def ctorDiFanin (iface : Str) : Nat :=
  ((index.ctorDiSites.filter (·.1 == iface)).map (·.2)).eraseDups.length

/-- `hub_indegree`: the distinct other files that refer to a file. -/
def hubIndegree (file : Str) : Nat :=
  ((index.hubReferrers.filter (·.1 == file)).map (·.2)).eraseDups.length

/-- `inbound_walk_kinds`. -/
def inboundWalkKinds : List Slot :=
  [.inherits, .usesType, .usesMember, .implements, .overrides, .busHop, .call, .jsxUse, .dispatch,
    .import_]

/-- The definition an outbound `inherits` or `implements` edge names. -/
def baseOf : Edge → Option Str
  | .inherits _ _ toDef _ _ => some toDef
  | .implements _ _ toDef _ => some toDef
  | _ => none

/-- `implemented_interfaces`. -/
def implementedInterfaces (id : Str) : List Str :=
  ((index.defFiles id).flatMap fun file =>
    (SlotTable.at index.outboundByFile file .inherits ++ SlotTable.at index.outboundByFile file .implements).filterMap
      fun e => (baseOf e).filter fun base =>
        (index.findDef base).map (·.kind) == some "interface".toList).eraseDups

end GraphIndex

/-! ## What is filed where -/

/-- A precise reference of the graph to a definition, as far as the options admit it. -/
inductive Precise (opts : IndexOptions) (d : Str) : Edge → Prop
  | inherits (fromFile : Str) (fromLine : Nat) (toFile : Str) :
      Precise opts d (.inherits fromFile fromLine d toFile false)
  | usesType (fromFile : Str) (fromLine : Nat) (toFile : Str) :
      Precise opts d (.usesType fromFile fromLine d toFile false)
  | usesMember (fromFile : Str) (fromLine : Nat) (toFile : Str) (tier : Option HeuristicTier) :
      Precise opts d (.usesMember fromFile fromLine d toFile false tier)
  | implements (fromFile : Str) (fromLine : Nat) (toFile : Str) (h : opts.includeDispatch = true) :
      Precise opts d (.implements fromFile fromLine d toFile)
  | overrides (fromFile : Str) (fromLine : Nat) (toFile : Str) (h : opts.includeDispatch = true) :
      Precise opts d (.overrides fromFile fromLine d toFile)
  | busHop (fromFile : Str) (fromLine : Nat) (message toFile : Str) (h : opts.includeBus = true) :
      Precise opts d (.busHop fromFile fromLine message d toFile)
  | call (fromFile : Str) (fromLine : Nat) (toFile : Str) : Precise opts d (.call fromFile fromLine d toFile)
  | jsxUse (fromFile : Str) (fromLine : Nat) (toFile : Str) :
      Precise opts d (.jsxUse fromFile fromLine d toFile)
  | dispatch (fromFile : Str) (fromLine : Nat) (toFile : Str) :
      Precise opts d (.dispatch fromFile fromLine d toFile)
  | import_ (fromFile : Str) (fromLine : Nat) (toFile : Str) (boundDefs : List Str) (h : d ∈ boundDefs) :
      Precise opts d (.import_ fromFile fromLine toFile boundDefs)

/-- A guess at a reference to a definition, as far as the options admit it. -/
inductive Guessed (opts : IndexOptions) (d : Str) : Edge → Prop
  | inherits (fromFile : Str) (fromLine : Nat) (toFile : Str) (h : opts.includeGuesses = true) :
      Guessed opts d (.inherits fromFile fromLine d toFile true)
  | usesType (fromFile : Str) (fromLine : Nat) (toFile : Str) (h : opts.includeGuesses = true) :
      Guessed opts d (.usesType fromFile fromLine d toFile true)
  | usesMember (fromFile : Str) (fromLine : Nat) (toFile : Str) (tier : Option HeuristicTier)
      (h : opts.includeGuesses = true ∨ tier = some .ext) :
      Guessed opts d (.usesMember fromFile fromLine d toFile true tier)

/-- A reference to a type: the two kinds the interface hop follows. -/
inductive UsesPrecisely (d : Str) : Edge → Prop
  | usesType (fromFile : Str) (fromLine : Nat) (toFile : Str) :
      UsesPrecisely d (.usesType fromFile fromLine d toFile false)
  | usesMember (fromFile : Str) (fromLine : Nat) (toFile : Str) (tier : Option HeuristicTier) :
      UsesPrecisely d (.usesMember fromFile fromLine d toFile false tier)

section Filed

variable {graph : Graph} {opts : IndexOptions} {d : Str} {e : Edge} {slot : Slot}

theorem mem_fileSlots {edges : List Edge} {pushed : Edge → List (Str × Slot)} {key : Str} :
    e ∈ SlotTable.at (fileSlots edges pushed) key slot ↔ e ∈ edges ∧ (key, slot) ∈ pushed e := by
  unfold SlotTable.at fileSlots
  simp only [List.mem_map, List.mem_filter, List.mem_flatMap, Bool.and_eq_true, beq_iff_eq]
  constructor
  · rintro ⟨row, ⟨⟨e', he', k, hk, rfl⟩, rfl, rfl⟩, rfl⟩
    exact ⟨he', hk⟩
  · rintro ⟨he, hk⟩
    exact ⟨(key, slot, e), ⟨⟨e, he, (key, slot), hk, rfl⟩, rfl, rfl⟩, rfl⟩

theorem has_fileSlots {edges : List Edge} {pushed : Edge → List (Str × Slot)} {key : Str} :
    SlotTable.has (fileSlots edges pushed) key = true ↔
      ∃ e ∈ edges, ∃ slot, (key, slot) ∈ pushed e := by
  unfold SlotTable.has fileSlots
  simp only [List.any_eq_true, List.mem_flatMap, List.mem_map, beq_iff_eq]
  constructor
  · rintro ⟨row, ⟨e, he, k, hk, rfl⟩, rfl⟩
    exact ⟨e, he, k.2, hk⟩
  · rintro ⟨e, he, slot, hk⟩
    exact ⟨(key, slot, e), ⟨e, he, (key, slot), hk, rfl⟩, rfl⟩

theorem mem_fileEdges {edges : List Edge} {pushed : Edge → List Str} {key : Str} :
    e ∈ EdgeTable.at (fileEdges edges pushed) key ↔ e ∈ edges ∧ key ∈ pushed e := by
  unfold EdgeTable.at fileEdges
  simp only [List.mem_map, List.mem_filter, List.mem_flatMap, beq_iff_eq]
  constructor
  · rintro ⟨row, ⟨⟨e', he', k, hk, rfl⟩, rfl⟩, rfl⟩
    exact ⟨he', hk⟩
  · rintro ⟨he, hk⟩
    exact ⟨(key, e), ⟨⟨e, he, key, hk, rfl⟩, rfl⟩, rfl⟩

@[simp] theorem mem_recordReference_inbound {s slot : Slot} {fromFile toDef toFile : Str}
    {heuristic : Bool} :
    (d, slot) ∈ (recordReference opts s fromFile toDef toFile heuristic e).inbound ↔
      heuristic = false ∧ d = toDef ∧ slot = s := by
  unfold recordReference
  cases heuristic <;> simp

@[simp] theorem mem_recordReference_outbound {s slot : Slot} {file fromFile toDef toFile : Str}
    {heuristic : Bool} :
    (file, slot) ∈ (recordReference opts s fromFile toDef toFile heuristic e).outboundByFile ↔
      heuristic = false ∧ file = fromFile ∧ slot = s := by
  unfold recordReference
  cases heuristic <;> simp

@[simp] theorem mem_recordReference_heuristic {s slot : Slot} {fromFile toDef toFile : Str}
    {heuristic : Bool} :
    (d, slot) ∈ (recordReference opts s fromFile toDef toFile heuristic e).heuristicInbound ↔
      heuristic = true ∧ admits opts e = true ∧ d = toDef ∧ slot = s := by
  unfold recordReference
  cases heuristic with
  | false => simp
  | true => cases admits opts e <;> simp

@[simp] theorem mem_recordDispatchEdge_inbound {s slot : Slot} {fromFile toDef toFile : Str} :
    (d, slot) ∈ (recordDispatchEdge opts s fromFile toDef toFile).inbound ↔
      opts.includeDispatch = true ∧ d = toDef ∧ slot = s := by
  unfold recordDispatchEdge
  cases opts.includeDispatch <;> simp

@[simp] theorem mem_recordDispatchEdge_outbound {s slot : Slot} {file fromFile toDef toFile : Str} :
    (file, slot) ∈ (recordDispatchEdge opts s fromFile toDef toFile).outboundByFile ↔
      opts.includeDispatch = true ∧ file = fromFile ∧ slot = s := by
  unfold recordDispatchEdge
  cases opts.includeDispatch <;> simp

@[simp] theorem heuristicInbound_recordDispatchEdge {s : Slot} {fromFile toDef toFile : Str} :
    (recordDispatchEdge opts s fromFile toDef toFile).heuristicInbound = [] := by
  unfold recordDispatchEdge
  cases opts.includeDispatch <;> rfl

@[simp] theorem mem_recordTsEdge_inbound {s slot : Slot} {fromFile toFile : Str} {targets : List Str} :
    (d, slot) ∈ (recordTsEdge s fromFile toFile targets).inbound ↔ d ∈ targets ∧ slot = s := by
  simp [recordTsEdge, eq_comm]

@[simp] theorem mem_record_import {fromFile toFile : Str} {fromLine : Nat} {boundDefs : List Str} :
    (d, slot) ∈ (record opts (.import_ fromFile fromLine toFile boundDefs)).inbound ↔
      d ∈ boundDefs ∧ slot = .import_ := by
  unfold record
  cases boundDefs with
  | nil => simp
  | cons => exact mem_recordTsEdge_inbound

@[simp] theorem mem_record_busHop {fromFile message toDef toFile : Str} {fromLine : Nat} :
    (d, slot) ∈ (record opts (.busHop fromFile fromLine message toDef toFile)).inbound ↔
      opts.includeBus = true ∧ d = toDef ∧ slot = .busHop := by
  unfold record
  cases opts.includeBus <;> simp

/-- What filing an edge puts under a definition: the precise references to it. -/
theorem exists_inbound_iff : (∃ slot, (d, slot) ∈ (record opts e).inbound) ↔ Precise opts d e := by
  constructor
  · rintro ⟨slot, h⟩
    cases e with
    | inherits =>
        obtain ⟨rfl, rfl, -⟩ := mem_recordReference_inbound.mp h
        exact .inherits _ _ _
    | usesType =>
        obtain ⟨rfl, rfl, -⟩ := mem_recordReference_inbound.mp h
        exact .usesType _ _ _
    | usesMember =>
        obtain ⟨rfl, rfl, -⟩ := mem_recordReference_inbound.mp h
        exact .usesMember _ _ _ _
    -- these are recorded under no definition
    | imports => cases h
    | ambiguous => cases h
    | ctorDi => cases h
    | import_ => exact .import_ _ _ _ _ (mem_record_import.mp h).1
    | call =>
        rw [List.mem_singleton.mp (mem_recordTsEdge_inbound.mp h).1]
        exact .call _ _ _
    | jsxUse =>
        rw [List.mem_singleton.mp (mem_recordTsEdge_inbound.mp h).1]
        exact .jsxUse _ _ _
    | dispatch =>
        rw [List.mem_singleton.mp (mem_recordTsEdge_inbound.mp h).1]
        exact .dispatch _ _ _
    | implements =>
        obtain ⟨hopts, rfl, -⟩ := mem_recordDispatchEdge_inbound.mp h
        exact .implements _ _ _ hopts
    | overrides =>
        obtain ⟨hopts, rfl, -⟩ := mem_recordDispatchEdge_inbound.mp h
        exact .overrides _ _ _ hopts
    | busHop =>
        obtain ⟨hopts, rfl, -⟩ := mem_record_busHop.mp h
        exact .busHop _ _ _ _ hopts
  · intro h
    cases h with
    | inherits => exact ⟨.inherits, mem_recordReference_inbound.mpr ⟨rfl, rfl, rfl⟩⟩
    | usesType => exact ⟨.usesType, mem_recordReference_inbound.mpr ⟨rfl, rfl, rfl⟩⟩
    | usesMember => exact ⟨.usesMember, mem_recordReference_inbound.mpr ⟨rfl, rfl, rfl⟩⟩
    | implements _ _ _ h => exact ⟨.implements, mem_recordDispatchEdge_inbound.mpr ⟨h, rfl, rfl⟩⟩
    | overrides _ _ _ h => exact ⟨.overrides, mem_recordDispatchEdge_inbound.mpr ⟨h, rfl, rfl⟩⟩
    | busHop _ _ _ _ h => exact ⟨.busHop, mem_record_busHop.mpr ⟨h, rfl, rfl⟩⟩
    | call => exact ⟨.call, mem_recordTsEdge_inbound.mpr ⟨List.mem_singleton_self _, rfl⟩⟩
    | jsxUse => exact ⟨.jsxUse, mem_recordTsEdge_inbound.mpr ⟨List.mem_singleton_self _, rfl⟩⟩
    | dispatch => exact ⟨.dispatch, mem_recordTsEdge_inbound.mpr ⟨List.mem_singleton_self _, rfl⟩⟩
    | import_ _ _ _ _ h => exact ⟨.import_, mem_record_import.mpr ⟨h, rfl⟩⟩

/-- Nothing is put under a definition in a slot the walk does not cross. -/
theorem mem_inboundWalkKinds (h : (d, slot) ∈ (record opts e).inbound) :
    slot ∈ GraphIndex.inboundWalkKinds := by
  cases e with
  | inherits | usesType | usesMember =>
      rw [(mem_recordReference_inbound.mp h).2.2]
      decide
  | imports | ambiguous | ctorDi => cases h
  | call | jsxUse | dispatch =>
      rw [(mem_recordTsEdge_inbound.mp h).2]
      decide
  | implements | overrides =>
      rw [(mem_recordDispatchEdge_inbound.mp h).2.2]
      decide
  | import_ =>
      rw [(mem_record_import.mp h).2]
      decide
  | busHop =>
      rw [(mem_record_busHop.mp h).2.2]
      decide

theorem mem_inbound_iff : (∃ slot ∈ GraphIndex.inboundWalkKinds,
      e ∈ SlotTable.at (loadGraphIndexWith graph opts).inbound d slot) ↔
    e ∈ graph.edges ∧ Precise opts d e := by
  simp only [loadGraphIndexWith, mem_fileSlots]
  rw [← exists_inbound_iff]
  constructor
  · rintro ⟨slot, -, he, hpush⟩
    exact ⟨he, slot, hpush⟩
  · rintro ⟨he, slot, hpush⟩
    exact ⟨slot, mem_inboundWalkKinds hpush, he, hpush⟩

theorem has_inbound_iff : SlotTable.has (loadGraphIndexWith graph opts).inbound d = true ↔
    ∃ e ∈ graph.edges, Precise opts d e := by
  simp only [loadGraphIndexWith, has_fileSlots, exists_inbound_iff]

theorem UsesPrecisely.precise (h : UsesPrecisely d e) : Precise opts d e := by
  cases h with
  | usesType => exact .usesType _ _ _
  | usesMember => exact .usesMember _ _ _ _

/-- The lists of the interface hop. -/
theorem mem_uses_iff : (∃ slot ∈ [Slot.usesType, Slot.usesMember],
      e ∈ SlotTable.at (loadGraphIndexWith graph opts).inbound d slot) ↔
    e ∈ graph.edges ∧ UsesPrecisely d e := by
  simp only [loadGraphIndexWith, mem_fileSlots]
  constructor
  · rintro ⟨slot, hslot, he, hpush⟩
    refine ⟨he, ?_⟩
    -- every other kind has a slot of its own
    cases exists_inbound_iff.mp ⟨slot, hpush⟩ with
    | usesType => exact .usesType _ _ _
    | usesMember => exact .usesMember _ _ _ _
    | inherits =>
        rw [(mem_recordReference_inbound.mp hpush).2.2] at hslot
        exact absurd hslot (by decide)
    | implements | overrides =>
        rw [(mem_recordDispatchEdge_inbound.mp hpush).2.2] at hslot
        exact absurd hslot (by decide)
    | busHop =>
        rw [(mem_record_busHop.mp hpush).2.2] at hslot
        exact absurd hslot (by decide)
    | call | jsxUse | dispatch =>
        rw [(mem_recordTsEdge_inbound.mp hpush).2] at hslot
        exact absurd hslot (by decide)
    | import_ =>
        rw [(mem_record_import.mp hpush).2] at hslot
        exact absurd hslot (by decide)
  · rintro ⟨he, h⟩
    cases h with
    | usesType => exact ⟨.usesType, by decide, he, mem_recordReference_inbound.mpr ⟨rfl, rfl, rfl⟩⟩
    | usesMember => exact ⟨.usesMember, by decide, he, mem_recordReference_inbound.mpr ⟨rfl, rfl, rfl⟩⟩

theorem mem_heuristicInbound_iff : (∃ slot ∈ [Slot.inherits, Slot.usesType, Slot.usesMember],
      e ∈ SlotTable.at (loadGraphIndexWith graph opts).heuristicInbound d slot) ↔
    e ∈ graph.edges ∧ Guessed opts d e := by
  simp only [loadGraphIndexWith, mem_fileSlots]
  constructor
  · rintro ⟨slot, -, he, hpush⟩
    refine ⟨he, ?_⟩
    cases e with
    | inherits =>
        obtain ⟨rfl, hadmits, rfl, -⟩ := mem_recordReference_heuristic.mp hpush
        exact .inherits _ _ _ (by simpa [admits, Edge.tierOf] using hadmits)
    | usesType =>
        obtain ⟨rfl, hadmits, rfl, -⟩ := mem_recordReference_heuristic.mp hpush
        exact .usesType _ _ _ (by simpa [admits, Edge.tierOf] using hadmits)
    | usesMember =>
        obtain ⟨rfl, hadmits, rfl, -⟩ := mem_recordReference_heuristic.mp hpush
        exact .usesMember _ _ _ _ (by simpa [admits, Edge.tierOf] using hadmits)
    -- only references carry a tier
    | implements | overrides => simp [record] at hpush
    | imports | ambiguous | ctorDi | call | jsxUse | dispatch => cases hpush
    | import_ | busHop =>
        unfold record at hpush
        dsimp only at hpush
        split at hpush <;> cases hpush
  · rintro ⟨he, h⟩
    cases h with
    | inherits _ _ _ h =>
        exact ⟨.inherits, by decide, he, mem_recordReference_heuristic.mpr
          ⟨rfl, by simp [admits, h], rfl, rfl⟩⟩
    | usesType _ _ _ h =>
        exact ⟨.usesType, by decide, he, mem_recordReference_heuristic.mpr
          ⟨rfl, by simp [admits, h], rfl, rfl⟩⟩
    | usesMember _ _ _ tier h =>
        exact ⟨.usesMember, by decide, he, mem_recordReference_heuristic.mpr
          ⟨rfl, by simpa [admits, Edge.tierOf] using h, rfl, rfl⟩⟩

end Filed

end Devscout.Query
