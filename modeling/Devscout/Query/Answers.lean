/-
# Devscout.Query.Answers -- what `refs` and `read` answer

The index of an artifact has every table a query reads, each of them filled by what one edge
pushes. The answer about a definition lists the edges into it and, where asked, those out of
its files, each list ranked and capped; the ambiguous references and the routes of messages
stand apart. The answer about a member goes by the lines that its type's references start on,
because an edge names the type and seldom the member.

A row shows its line of source, so the answers depend on what the files of the repository
hold: that is the `Disk` they are read with.
-/

import Devscout.Query.Symbol
import Devscout.Lib.OrderedMap

namespace Devscout.Query

open Lib
open Resolve (HeuristicTier)

/-! ## The index -/

/-- An edge with what the answers show of it: the member it names, the text it was read from
(the target of an `imports`, the raw text of an ambiguous reference, the evidence of a bus
hop), and the number of candidates of an ambiguous one. -/
structure EdgeRow where
  edge : Edge
  member : Option Str := none
  text : Str := []
  candidateCount : Nat := 0
  deriving DecidableEq

structure GraphName where
  name : Str
  kind : Str
  owner : Str
  file : Str
  line : Nat
  deriving DecidableEq

/-- What is stored of a repository. -/
structure Artifact where
  defs : List DefRow
  names : List GraphName
  edges : List EdgeRow
  unitIsTest : Str → Bool

/-- The part of it that the walk reads. -/
def Artifact.graph (a : Artifact) : Graph where
  defs := a.defs.map DefRow.toDef
  edges := a.edges.map EdgeRow.edge
  unitIsTest := a.unitIsTest

/-- The files that filing an edge holds against the manifest. -/
def notedFiles (opts : IndexOptions) (e : Edge) : List Str :=
  match e with
  | .imports fromFile _ => [fromFile]
  | .ambiguous _ fromFile _ _ => [fromFile]
  | .inherits fromFile _ _ toFile _ => [fromFile, toFile]
  | .usesType fromFile _ _ toFile _ => [fromFile, toFile]
  | .usesMember fromFile _ _ toFile _ _ => [fromFile, toFile]
  -- before the option is asked
  | .implements fromFile _ _ toFile => [fromFile, toFile]
  | .overrides fromFile _ _ toFile => [fromFile, toFile]
  | .ctorDi .. => []
  | .import_ fromFile _ toFile boundDefs => if boundDefs.isEmpty then [] else [fromFile, toFile]
  | .call fromFile _ _ toFile => [fromFile, toFile]
  | .jsxUse fromFile _ _ toFile => [fromFile, toFile]
  | .dispatch fromFile _ _ toFile => [fromFile, toFile]
  | .busHop fromFile _ _ _ toFile => if opts.includeBus then [fromFile, toFile] else []

/-- Where a guess that is admitted starts. -/
def heuristicOutbound (opts : IndexOptions) (e : Edge) : List (Str × Slot) :=
  match e with
  | .inherits fromFile _ _ _ heuristic =>
      if heuristic && admits opts e then [(fromFile, .inherits)] else []
  | .usesType fromFile _ _ _ heuristic =>
      if heuristic && admits opts e then [(fromFile, .usesType)] else []
  | .usesMember fromFile _ _ _ heuristic _ =>
      if heuristic && admits opts e then [(fromFile, .usesMember)] else []
  | _ => []

def ambiguousFrom : Edge → List Str
  | .ambiguous _ fromFile _ _ => [fromFile]
  | _ => []

abbrev RowTable := List (Str × Slot × EdgeRow)

abbrev RowList := List (Str × EdgeRow)

def fileRows (edges : List EdgeRow) (pushed : Edge → List (Str × Slot)) : RowTable :=
  edges.flatMap fun e => (pushed e.edge).map fun k => (k.1, k.2, e)

def fileRowList (edges : List EdgeRow) (pushed : Edge → List Str) : RowList :=
  edges.flatMap fun e => (pushed e.edge).map (·, e)

def RowTable.at (table : RowTable) (key : Str) (slot : Slot) : List EdgeRow :=
  (table.filter fun row => row.1 == key && row.2.1 == slot).map (·.2.2)

def RowList.at (table : RowList) (key : Str) : List EdgeRow :=
  (table.filter (·.1 == key)).map (·.2)

/-- The whole index; `reach` is what the walk reads. -/
structure QueryIndex where
  artifact : Artifact
  reach : GraphIndex
  inbound : RowTable
  outboundByFile : RowTable
  heuristicInbound : RowTable
  heuristicOutboundByFile : RowTable
  ambiguousByCandidate : RowList
  ambiguousByFile : RowList
  flaggedFiles : List Str

/-- `note_file`: the files of the graph that the manifest, if there is one, does not list. -/
def flagged (manifest : Option (List Str)) (files : List Str) : List Str :=
  match manifest with
  | none => []
  | some paths => (files.filter fun f => !f.isEmpty && !paths.contains f).eraseDups

/-- `load_graph_index_with`. -/
def loadQueryIndex (a : Artifact) (manifest : Option (List Str)) (opts : IndexOptions) :
    QueryIndex where
  artifact := a
  reach := loadGraphIndexWith a.graph opts
  inbound := fileRows a.edges fun e => (record opts e).inbound
  outboundByFile := fileRows a.edges fun e => (record opts e).outboundByFile
  heuristicInbound := fileRows a.edges fun e => (record opts e).heuristicInbound
  heuristicOutboundByFile := fileRows a.edges (heuristicOutbound opts)
  ambiguousByCandidate := fileRowList a.edges fun e => (record opts e).ambiguousByCandidate
  ambiguousByFile := fileRowList a.edges ambiguousFrom
  flaggedFiles := flagged manifest
    (a.defs.flatMap (fun d => d.file :: d.alsoIn.map DefSite.file) ++
      a.edges.flatMap fun e => notedFiles opts e.edge)

/-! ## Sources -/

/-- The lines of a file of the repository, when it can be read. -/
abbrev Disk := Str → Option (List Str)

/-- `trim_source`. -/
def trimSource (s : Str) : Str :=
  let blank := fun c : Char => c ∈ [' ', '\t', '\r', '\n', '\x0b', '\x0c']
  (s.dropWhile blank).rdropWhile blank

example : trimSource [' ', 'a', ' ', 'b', '\t'] = ['a', ' ', 'b'] := by decide +kernel

def stripBom (s : Str) : Str := if s.head? = some '\ufeff' then s.tail else s

/-- `cached_line`. -/
def cachedLine (disk : Disk) (file : Str) (line : Nat) : Str :=
  match (disk file).bind fun lines => if line = 0 then none else lines[line - 1]? with
  | none => []
  | some raw => trimSource (if line = 1 then stripBom raw else raw)

def sourceMax : Nat := 120

/-- The UTF-16 units of a character. -/
def utf16Units (c : Char) : Nat := if 0x10000 ≤ c.toNat then 2 else 1

/-- The first units of a text; a pair that is cut in half leaves a replacement character. -/
def cutUnits : Nat → Str → Str
  | _, [] => []
  | n, c :: cs =>
      if utf16Units c ≤ n then c :: cutUnits (n - utf16Units c) cs
      else if n = 0 then [] else ['\ufffd']

/-- `clip_source`. -/
def clipSource (s : Str) : Str :=
  cutUnits sourceMax (s.map fun c => if c = '\t' then ' ' else c)

/-- `hit_source`. -/
def hitSource (disk : Disk) (file : Str) (line : Nat) : Str := clipSource (cachedLine disk file line)

/-- `is_word_byte`. -/
def isWordChar (c : Char) : Bool := c.isAlphanum || c == '_'

/-- `line_has_token`: the token stands in the line with no word character on either side. -/
def lineHasToken (line token : Str) : Bool :=
  !token.isEmpty && (List.range (line.length + 1)).any fun i =>
    token.isPrefixOf (line.drop i) && !(line.take i).getLast?.any isWordChar &&
      !(line.drop (i + token.length)).head?.any isWordChar

namespace Answers

/-! ## Tables -/

structure Table (R : Type) where
  total : Nat
  dropped : Nat
  rows : List R
  deriving DecidableEq

def Table.empty {R : Type} : Table R := ⟨0, 0, []⟩

/-- `cap_rows`, with no cap under `--all`. -/
def capRows {R : Type} (cap : Option Nat) (rows : List R) : List R :=
  match cap with
  | none => rows
  | some n => rows.take n

structure InboundRow where
  file : Str
  line : Nat
  heuristic : Bool
  tier : Option HeuristicTier
  source : Str
  occurrence : Option Nat := none
  deriving DecidableEq

structure OutboundRow where
  file : Str
  line : Nat
  toFile : Str
  to_ : Str
  heuristic : Bool
  tier : Option HeuristicTier
  source : Str
  occurrence : Option Nat := none
  deriving DecidableEq

structure ImportRow where
  file : Str
  line : Nat
  target : Str
  source : Str
  deriving DecidableEq

structure AmbiguousRow where
  file : Str
  line : Nat
  origin : Str
  raw : Str
  candidateCount : Nat
  deriving DecidableEq

/-- `assign_occurrence_indices`: a row that is not the only one of its kind has its place among
these. -/
def occurrenceIndices {R : Type} [DecidableEq R] (rows : List R) : List (Option Nat) :=
  rows.zipIdx.map fun (r, i) => if rows.count r < 2 then none else some ((rows.take i).count r)

def tagInboundRows (rows : List InboundRow) : List InboundRow :=
  List.zipWith (fun r k => { r with occurrence := k }) rows (occurrenceIndices rows)

def tagOutboundRows (rows : List OutboundRow) : List OutboundRow :=
  List.zipWith (fun r k => { r with occurrence := k }) rows (occurrenceIndices rows)

/-! ## The edges of a symbol -/

section Symbol

variable (index : QueryIndex) (id : Str)

def findRow : Option DefRow := candidateDef index.artifact.defs id

/-- `def_sites`. -/
def defSites : List DefSite :=
  match findRow index id with
  | none => []
  | some d => ⟨d.file, d.line⟩ :: d.alsoIn

/-- `def_files`. -/
def defFiles : List Str := ((defSites index id).map DefSite.file).eraseDups

/-- The members of an enum; nothing else has any. -/
def enumMembersOf : List DefRow :=
  if (findRow index id).map DefRow.kind = some "enum".toList then
    index.artifact.defs.filter fun d =>
      d.kind == "enum-member".toList && (id ++ ['.']).isPrefixOf d.id
  else []

/-- The inbound half of `symbol_refs`: an enum takes in the uses of its members. -/
def inboundOf (table : RowTable) (slot : Slot) : List EdgeRow :=
  table.at id slot ++
    if slot = .usesMember then (enumMembersOf index id).flatMap fun d => table.at d.id .usesMember
    else []

/-- The outbound half: what starts in a file of the definition. -/
def outboundOf (table : RowTable) (slot : Slot) : List EdgeRow :=
  (defFiles index id).flatMap fun file => table.at file slot

def ambiguousInbound : List EdgeRow := index.ambiguousByCandidate.at id

def ambiguousOutbound : List EdgeRow := (defFiles index id).flatMap index.ambiguousByFile.at

/-- The kinds that a guess can be of. -/
def guessedSlots : List Slot := [.inherits, .usesType, .usesMember]

end Symbol

/-! ## Inbound -/

structure Ranked where
  slot : Slot
  row : EdgeRow
  heuristic : Bool
  part : Nat := 0

def inboundSlots : List Slot :=
  [.inherits, .usesType, .usesMember, .implements, .overrides, .call, .jsxUse, .dispatch, .import_]

/-- Every inbound edge, kind by kind, the precise ones of a kind before its guesses. -/
def rankedInbound (index : QueryIndex) (id : Str) : List Ranked :=
  inboundSlots.flatMap fun slot =>
    (inboundOf index id index.inbound slot).map (⟨slot, ·, false, 0⟩) ++
      if slot ∈ guessedSlots then
        (inboundOf index id index.heuristicInbound slot).map (⟨slot, ·, true, 0⟩)
      else []

/-- Precise before guessed, the definition's own project before every other, then by place. -/
def rankLe (foreign : Ranked → Bool) (a b : Ranked) : Bool :=
  if a.heuristic ≠ b.heuristic then b.heuristic
  else if foreign a ≠ foreign b then foreign b
  else locLe a.row.edge b.row.edge

/-- An edge inside the definition itself. -/
def isSelfInbound (d : DefRow) (r : Ranked) : Bool :=
  decide (d.line ≤ d.endLine) && r.row.edge.loc.1 == d.file &&
    decide (d.line ≤ r.row.edge.loc.2 ∧ r.row.edge.loc.2 ≤ d.endLine)

def inboundRow (disk : Disk) (r : Ranked) : InboundRow where
  file := r.row.edge.loc.1
  line := r.row.edge.loc.2
  heuristic := r.heuristic
  tier := rowTier r.heuristic (r.row.edge.tierOf == some .ext)
  source := hitSource disk r.row.edge.loc.1 r.row.edge.loc.2

/-- The inbound tables: one ranking and one cap for all kinds. -/
def inboundTables (index : QueryIndex) (disk : Disk) (d : DefRow) (id : Str) (excludeSelf : Bool)
    (cap : Option Nat) (slot : Slot) : Table InboundRow :=
  let ranked := (rankedInbound index id).filter fun r => !(excludeSelf && isSelfInbound d r)
  let foreign := fun r : Ranked => projectOf r.row.edge.loc.1 != projectOf d.file
  let shown := capRows cap (ranked.insertionSort fun a b => rankLe foreign a b = true)
  let rows := tagInboundRows ((shown.filter (·.slot = slot)).map (inboundRow disk))
  let total := ranked.countP (·.slot = slot)
  ⟨total, total - rows.length, rows⟩

/-! ## Outbound -/

def outboundSlots : List Slot :=
  [.inherits, .usesType, .usesMember, .implements, .overrides, .imports, .call, .jsxUse, .dispatch]

/-- `push_ts_imports`: a row for every definition that an import binds. -/
def importParts (r : EdgeRow) : List Ranked :=
  match r.edge with
  | .import_ _ _ _ boundDefs => (List.range boundDefs.length).map (⟨.import_, r, false, ·⟩)
  | _ => []

def rankedOutbound (index : QueryIndex) (id : Str) : List Ranked :=
  (outboundSlots.flatMap fun slot =>
    (outboundOf index id index.outboundByFile slot).map (⟨slot, ·, false, 0⟩) ++
      if slot ∈ guessedSlots then
        (outboundOf index id index.heuristicOutboundByFile slot).map (⟨slot, ·, true, 0⟩)
      else []) ++
    (outboundOf index id index.outboundByFile .import_).flatMap importParts

/-- The file and the definition an outbound edge names. -/
def targetOf (r : Ranked) : Option (Str × Str) :=
  match r.row.edge with
  | .inherits _ _ toDef toFile _ => some (toFile, toDef)
  | .usesType _ _ toDef toFile _ => some (toFile, toDef)
  | .usesMember _ _ toDef toFile _ _ => some (toFile, toDef)
  | .implements _ _ toDef toFile => some (toFile, toDef)
  | .overrides _ _ toDef toFile => some (toFile, toDef)
  | .call _ _ toDef toFile => some (toFile, toDef)
  | .jsxUse _ _ toDef toFile => some (toFile, toDef)
  | .dispatch _ _ toDef toFile => some (toFile, toDef)
  | .import_ _ _ toFile boundDefs => (boundDefs[r.part]?).map (toFile, ·)
  | _ => none

/-- `outbound_foreign`: an `imports` edge names no file and is always foreign. -/
def outboundForeign (defProject : Str) (r : Ranked) : Bool :=
  r.slot == .imports || (targetOf r).any fun t => projectOf t.1 != defProject

def outboundRow (disk : Disk) (r : Ranked) : Option OutboundRow :=
  (targetOf r).map fun t =>
    { file := r.row.edge.loc.1
      line := r.row.edge.loc.2
      toFile := t.1
      to_ := t.2
      heuristic := r.heuristic
      tier := rowTier r.heuristic (r.row.edge.tierOf == some .ext)
      source := hitSource disk r.row.edge.loc.1 r.row.edge.loc.2 }

structure OutboundTables where
  kinds : Slot → Table OutboundRow
  imports : Table ImportRow

/-- `build_outbound_tables`. -/
def outboundTables (index : QueryIndex) (disk : Disk) (d : DefRow) (id : Str) (cap : Option Nat) :
    OutboundTables :=
  let ranked := rankedOutbound index id
  let shown := capRows cap
    (ranked.insertionSort fun a b => rankLe (outboundForeign (projectOf d.file)) a b = true)
  let total := fun slot : Slot => ranked.countP (·.slot = slot)
  { kinds := fun slot =>
      let rows := tagOutboundRows ((shown.filter (·.slot = slot)).filterMap (outboundRow disk))
      ⟨total slot, total slot - rows.length, rows⟩
    imports :=
      let rows := (shown.filter (·.slot = .imports)).map fun r =>
        (⟨r.row.edge.loc.1, r.row.edge.loc.2, r.row.text,
          hitSource disk r.row.edge.loc.1 r.row.edge.loc.2⟩ : ImportRow)
      ⟨total .imports, total .imports - rows.length, rows⟩ }

/-! ## Ambiguous references, routes, members -/

/-- `ambiguous_row`. -/
def ambiguousRow (r : EdgeRow) : Option AmbiguousRow :=
  match r.edge with
  | .ambiguous origin fromFile fromLine _ =>
      some ⟨fromFile, fromLine, origin, r.text, r.candidateCount⟩
  | _ => none

/-- `build_table`, over ambiguous edges. -/
def ambiguousTable (rows : List EdgeRow) (cap : Nat) : Table AmbiguousRow :=
  let sorted := rows.insertionSort fun a b => locLe a.edge b.edge = true
  ⟨sorted.length, sorted.length - cap, (sorted.take cap).filterMap ambiguousRow⟩

structure BusHopRow where
  file : Str
  line : Nat
  message : Str
  to_ : Str
  toFile : Str
  evidence : Str
  inward : Bool
  messageHandlers : Nat
  deriving DecidableEq

/-- `handlers_by_message`: the distinct handlers of a message. -/
def handlersOf (edges : List EdgeRow) (message : Str) : List Str :=
  (edges.filterMap fun r =>
    match r.edge with
    | .busHop _ _ m toDef _ => if m = message then some toDef else none
    | _ => none).eraseDups

/-- `bus_hop_row`. -/
def busHopRow (edges : List EdgeRow) (inward : Bool) (r : EdgeRow) : Option BusHopRow :=
  match r.edge with
  | .busHop fromFile fromLine message toDef toFile =>
      some ⟨fromFile, fromLine, message, toDef, toFile, r.text, inward,
        (handlersOf edges message).length⟩
  | _ => none

/-- `symbol_bus_rows`. -/
def symbolBusRows (index : QueryIndex) (id : Str) (cap : Option Nat) : Table BusHopRow :=
  let byPlace := fun rows : List EdgeRow => rows.insertionSort fun a b => locLe a.edge b.edge = true
  let rows :=
    (byPlace (index.inbound.at id .busHop)).filterMap (busHopRow index.artifact.edges true) ++
      (byPlace (outboundOf index id index.outboundByFile .busHop)).filterMap
        (busHopRow index.artifact.edges false)
  ⟨rows.length, rows.length - (capRows cap rows).length, capRows cap rows⟩

structure MemberRefs where
  total : Nat
  memberCount : Nat
  members : List (Str × Nat)
  dropped : Nat
  deriving DecidableEq

def memberNameCap : Nat := 5

/-- `enum_member_refs`: how many of an enum's uses name which member. -/
def enumMemberRefs (index : QueryIndex) (id : Str) : Option MemberRefs :=
  let members := (index.artifact.defs.filter fun d =>
      d.kind == "enum-member".toList && (id ++ ['.']).isPrefixOf d.id).filterMap fun d =>
    let count := (index.inbound.at d.id .usesMember).length +
      (index.heuristicInbound.at d.id .usesMember).length
    if count = 0 then none else some (d.name, count)
  let total := (members.map Prod.snd).sum
  if total = 0 then none
  else some ⟨total, members.length, members.take memberNameCap, members.length - memberNameCap⟩

/-! ## The answer about a type -/

structure RefsModel where
  query : Str
  id : Str
  kind : Str
  sites : List DefSite
  inbound : Slot → Table InboundRow
  outbound : Option OutboundTables
  ambiguousInbound : Table AmbiguousRow
  ambiguousOutbound : Table AmbiguousRow
  bus : Table BusHopRow
  manifestGap : Nat
  memberRefs : Option MemberRefs

/-- What the caller of `refs` asks for. -/
structure RefsOptions where
  out : Bool
  cap : Nat
  inboundCap : Nat
  outboundCap : Nat
  allOut : Bool
  excludeSelfInbound : Bool := false

/-- The answer about a definition that was resolved; an id that nothing carries stops it. -/
def refsModelFor (index : QueryIndex) (disk : Disk) (query id : Str) (o : RefsOptions) :
    Option RefsModel :=
  (findRow index id).map fun d =>
    { query := query
      id := id
      kind := d.kind
      sites := defSites index id
      inbound := inboundTables index disk d id o.excludeSelfInbound
        (if o.allOut then none else some o.inboundCap)
      outbound := if o.out then
          some (outboundTables index disk d id (if o.allOut then none else some o.outboundCap))
        else none
      ambiguousInbound := ambiguousTable (ambiguousInbound index id) o.cap
      ambiguousOutbound := ambiguousTable (ambiguousOutbound index id) o.cap
      bus := symbolBusRows index id (some o.cap)
      manifestGap := index.flaggedFiles.length
      memberRefs := if d.kind = "enum".toList then enumMemberRefs index id else none }

end Answers

end Devscout.Query
