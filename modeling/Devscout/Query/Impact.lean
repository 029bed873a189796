/-
# Devscout.Query.Impact -- the walk behind a blast radius

The walk starts from the definitions asked about and goes by hops. In a hop every definition
of the frontier touches files: those that refer to it, precisely or ambiguously or by a
guess, those a message it publishes reaches, and those that hold it through an interface.
Each file touched is recorded at the first hop that touches it, and unless it was only
guessed at, or is a hub, the definitions declared in it that were not seen before make up
the next frontier. Two brakes keep the walk from widening, and what they refuse is reported.
-/

import Devscout.Query.Hit
import Mathlib

namespace Devscout.Query

open Lib

/-! ## Hub files -/

/-- `to_lowercase`, as far as a pattern of ASCII letters can tell: two characters outside
ASCII have an ASCII letter in their lower case, every other one has none. -/
def toLowercase (s : Str) : Str :=
  s.flatMap fun c =>
    if c.toNat = 0x212A then ['k']
    else if c.toNat = 0x130 then ['i', Char.ofNat 0x307]
    else [c.toLower]

def infraBasenames : List Str := ["program.cs".toList, "startup.cs".toList]

def infraSuffixes : List Str :=
  ["serviceextensions.cs".toList, "servicecollectionextensions.cs".toList, "registration.cs".toList,
    "testbase.cs".toList, "testsbase.cs".toList, "basetest.cs".toList, "basetests.cs".toList,
    "basefixture.cs".toList]

def infraDir : Str := "dependencyresolution/".toList

def compositionRoot : Str := "compositionroot".toList

/-- What follows the first occurrence of a text. -/
def afterFirst (needle : Str) : Str → Option Str
  | [] => if needle.isEmpty then some [] else none
  | c :: cs =>
      if needle.isPrefixOf (c :: cs) then some ((c :: cs).drop needle.length) else afterFirst needle cs

/-- `is_infra_file`. -/
def isInfraFile (file : Str) : Bool :=
  let lower := toLowercase file
  let base := match Text.rsplit '/' lower with
    | some (_, base) => base
    | none => lower
  infraBasenames.contains base || infraSuffixes.any (·.isSuffixOf lower) ||
    infraDir.isPrefixOf lower || decide (('/' :: infraDir) <:+: lower) ||
    match afterFirst compositionRoot base with
    | some rest => ".cs".toList.isSuffixOf base && (rest.take (rest.length - 3)).all Char.isAlphanum
    | none => false

/-! ## Brakes -/

structure Settings where
  iface : Bool
  ifaceMaxFanin : Nat
  hubMaxIndegree : Nat

/-- `brake_fanin`: the fan-in of an injected type that is braked. -/
def brakeFanin (index : GraphIndex) (ifaceMaxFanin : Nat) (name : Str) : Option Nat :=
  if ifaceMaxFanin = 0 then none
  else if index.ctorDiFanin name ≤ ifaceMaxFanin then none
  else some (index.ctorDiFanin name)

def isHub (index : GraphIndex) (hubMaxIndegree : Nat) (file : Str) : Bool :=
  isInfraFile file || (decide (0 < hubMaxIndegree) && decide (hubMaxIndegree ≤ index.hubIndegree file))

/-! ## What a definition touches -/

section Touches

variable (index : GraphIndex) (settings : Settings) (d : Str) (origin : Option BusOrigin)

/-- A touch of a file that refers to the definition. -/
def referringTouch (file : Str) (note : Note) : Touch :=
  ⟨file, d, origin, note, (index.defFiles d).map (·, file)⟩

/-- The inbound edges, kind by kind. -/
def inboundTouches : List Touch :=
  GraphIndex.inboundWalkKinds.flatMap fun slot =>
    (SlotTable.at index.inbound d slot).map fun e =>
      referringTouch index d origin e.loc.1 (.kindEdge e.loc.2 e)

def ambiguousTouches : List Touch :=
  (EdgeTable.at index.ambiguousByCandidate d).map fun e =>
    referringTouch index d origin e.loc.1 (.ambiguous e.loc.2 e)

/-- The forward half of a bus hop: the handlers of what the definition's files publish. -/
def busTouches : List Touch :=
  (index.defFiles d).flatMap fun file =>
    (SlotTable.at index.outboundByFile file .busHop).filterMap fun e =>
      match e with
      | .busHop _ fromLine _ _ toFile => some ⟨toFile, d, origin, .kindEdge fromLine e, [(file, toFile)]⟩
      | _ => none

/-- The injections of the definition behind an interface that is not braked. -/
def ctorDiTouches : List Touch :=
  (EdgeTable.at index.ctorDiByTo d).filterMap fun e =>
    match e with
    | .ctorDi fromFile fromLine iface _ =>
        if (brakeFanin index settings.ifaceMaxFanin iface).isSome then none
        else some (referringTouch index d origin fromFile (.ctorDi fromLine iface))
    | _ => none

/-- The interface's name, its id when it has no definition. -/
def ifaceName (id : Str) : Str := ((index.findDef id).map (·.name)).getD id

/-- The interfaces of the definition that something refers to. -/
def referredInterfaces : List Str :=
  (index.implementedInterfaces d).filter fun iface => SlotTable.has index.inbound iface

/-- The references to those that are not braked. -/
def ifaceReferences : List (Str × Edge) :=
  (referredInterfaces index d).flatMap fun iface =>
    if (brakeFanin index settings.ifaceMaxFanin (ifaceName index iface)).isSome then []
    else
      [Slot.usesType, Slot.usesMember].flatMap fun slot =>
        (SlotTable.at index.inbound iface slot).map (ifaceName index iface, ·)

/-- The references at a site not seen before. -/
def freshSites : List (Str × Nat) → List (Str × Edge) → List (Str × Edge)
  | _, [] => []
  | seen, r :: rs =>
      if r.2.loc ∈ seen then freshSites seen rs else r :: freshSites (seen ++ [r.2.loc]) rs

/-- The sites of the injections that were followed. -/
def ctorDiSitesAt : List (Str × Nat) :=
  (ctorDiTouches index settings d origin).filterMap fun t =>
    match t.note with
    | .ctorDi line _ => some (t.file, line)
    | _ => none

def ifaceTouches : List Touch :=
  (freshSites (ctorDiSitesAt index settings d origin) (ifaceReferences index settings d)).map fun r =>
    referringTouch index d origin r.2.loc.1 (.iface r.2.loc.2 r.2 r.1)

/-- Guesses reach a file and add no arc. -/
def heuristicTouches : List Touch :=
  [Slot.inherits, Slot.usesType, Slot.usesMember].flatMap fun slot =>
    (SlotTable.at index.heuristicInbound d slot).map fun e =>
      ⟨e.loc.1, d, origin, .heuristic e.loc.2 e, []⟩

/-- Everything one definition of the frontier touches, in order. -/
def touches : List Touch :=
  inboundTouches index d origin ++ ambiguousTouches index d origin ++ busTouches index d origin ++
    (if settings.iface then
      ctorDiTouches index settings d origin ++ ifaceTouches index settings d origin
    else []) ++
    heuristicTouches index d origin

/-- The brakes that fire at one definition of the frontier. -/
def brakesAt : List (Str × Nat) :=
  if settings.iface then
    ((EdgeTable.at index.ctorDiByTo d).filterMap fun e =>
        match e with
        | .ctorDi _ _ iface _ => (brakeFanin index settings.ifaceMaxFanin iface).map (iface, ·)
        | _ => none) ++
      (referredInterfaces index d).filterMap fun iface =>
        (brakeFanin index settings.ifaceMaxFanin (ifaceName index iface)).map (ifaceName index iface, ·)
  else []

end Touches

/-! ## The walk -/

structure WalkState where
  visited : OrderedMap Str VisitedEntry
  frontier : List Str
  seenDefs : List Str
  defTaint : OrderedMap Str (Option BusOrigin)
  fwdAdj : List (Str × Str)
  braked : OrderedMap Str Nat
  brakedFiles : OrderedMap Str Nat

/-- An arc goes into the adjacency once. -/
def addAdj (adj : List (Str × Str)) (arc : Str × Str) : List (Str × Str) :=
  if arc ∈ adj then adj else adj ++ [arc]

section Walk

variable (index : GraphIndex) (settings : Settings) (seedFiles : List Str)

/-- The touches of a round, the frontier in order. -/
def roundTouches (w : WalkState) : List Touch :=
  w.frontier.flatMap fun d => touches index settings d ((w.defTaint.get? d).join)

/-- The hits of a round. -/
def roundHits (w : WalkState) : OrderedMap Str Hit :=
  OrderedMap.empty.gather Touch.file Hit.take {} (roundTouches index settings w)

/-- What a file declares opens up, with the taint of the file. -/
def openDef (h : Hit) (w : WalkState) (d : Def) : WalkState :=
  if d.id ∈ w.seenDefs then w
  else
    { w with
      seenDefs := w.seenDefs ++ [d.id]
      frontier := insertSeq w.frontier d.id
      defTaint := w.defTaint.insert d.id (if h.hasNonBusPath then none else h.busOrigin) }

/-- A file is recorded at the first hop that hits it. -/
def recordVisit (hop : Nat) (file : Str) (h : Hit) (w : WalkState) : WalkState :=
  if (w.visited.get? file).isSome ∨ file ∈ seedFiles then w
  else
    { w with
      visited := w.visited.insert file
        (buildVisitedEntry hop (isHub index settings.hubMaxIndegree file) h) }

/-- One file hit in the round: recorded, and then expanded, braked or left alone. -/
def settle (hop : Nat) (more : Bool) (w : WalkState) (hit : Str × Hit) : WalkState :=
  let w := recordVisit index settings seedFiles hop hit.1 hit.2 w
  if hit.2.onlyGuessed then w
  else if isHub index settings.hubMaxIndegree hit.1 then
    if more then { w with brakedFiles := w.brakedFiles.insert hit.1 (index.hubIndegree hit.1) } else w
  else (index.byFile hit.1).foldl (openDef hit.2) w

/-- One hop; `more` says that another one may follow. -/
def round (hop : Nat) (more : Bool) (w : WalkState) : WalkState :=
  (roundHits index settings w).entries.foldl (settle index settings seedFiles hop more)
    { w with
      frontier := []
      fwdAdj := ((roundTouches index settings w).flatMap Touch.arcs).foldl addAdj w.fwdAdj
      braked := w.braked.insertAll (w.frontier.flatMap (brakesAt index settings)) }

/-- The loop: `left` hops are left, `hop` is the next. -/
def rounds : Nat → Nat → WalkState → WalkState
  | 0, _, w => w
  | left + 1, hop, w =>
      if w.frontier.isEmpty then w
      else rounds left (hop + 1) (round index settings seedFiles hop (decide (0 < left)) w)

end Walk

structure BrakedIface where
  iface : Str
  fanin : Nat
  deriving DecidableEq

structure BrakedFile where
  file : Str
  indegree : Nat
  deriving DecidableEq

structure ImpactWalkResult where
  visited : OrderedMap Str VisitedEntry
  fwdAdj : List (Str × Str)
  seedFiles : List Str
  braked : List BrakedIface
  brakedFiles : List BrakedFile

/-- Widest first, then by name. -/
def widestFirst (a b : Str × Nat) : Prop := b.2 < a.2 ∨ (a.2 = b.2 ∧ a.1 ≤ b.1)

instance : DecidableRel widestFirst := fun a b => by
  unfold widestFirst
  infer_instance

/-- The seed's own files. -/
def seedFilesOf (index : GraphIndex) (seedIds : List Str) : List Str :=
  (seedIds.flatMap index.defFiles).eraseDups

def startState (seedIds : List Str) : WalkState where
  visited := OrderedMap.empty
  frontier := seedIds.eraseDups
  seenDefs := seedIds.eraseDups
  defTaint := OrderedMap.empty
  fwdAdj := []
  braked := OrderedMap.empty
  brakedFiles := OrderedMap.empty

/-- `impact_walk`. -/
def impactWalk (index : GraphIndex) (seedIds : List Str) (hops : Nat) (settings : Settings) :
    ImpactWalkResult :=
  let seedFiles := seedFilesOf index seedIds
  let w := rounds index settings seedFiles hops 1 (startState seedIds)
  { visited := w.visited
    fwdAdj := w.fwdAdj
    seedFiles := seedFiles
    braked := (w.braked.entries.insertionSort widestFirst).map fun e => ⟨e.1, e.2⟩
    brakedFiles := (w.brakedFiles.entries.insertionSort widestFirst).map fun e => ⟨e.1, e.2⟩ }

end Devscout.Query
