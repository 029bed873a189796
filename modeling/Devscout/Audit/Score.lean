/-
# Devscout.Audit.Score -- one pass from the inputs to the report

The report counts, and keeps a few tables of the largest counts. The edges are judged one by
one against the records on their line: an edge without a record there is wrong, one that a
record vouches for is right, and any other is wrong in one of two ways, by the records that
name its member if there are any and by all of the line if not. Recall goes the other way,
from the records to the edges on their line.
-/

import Devscout.Audit.Scoring

namespace Devscout.Audit

open Lib

/-! ## The report -/

/-- The counters of a tier. -/
structure TierStats where
  edges : Nat := 0
  tp : Nat := 0
  fp : Nat := 0
  fpNoSite : Nat := 0
  fpExternalSite : Nat := 0
  fpWrongTarget : Nat := 0
  structural : Nat := 0
  unjudged : Nat := 0
  deriving DecidableEq

/-- The ways to be wrong. -/
inductive FpClass where
  | noSite
  | external
  | wrongTarget
  deriving DecidableEq

def FpClass.key : FpClass → String
  | .noSite => "no-site"
  | .external => "external"
  | .wrongTarget => "wrong-target"

/-- A row about one false positive. -/
structure FpSite where
  file : Str
  line : Nat
  tier : String
  class_ : String
  member : Option Str
  bound : Str
  boundFile : Str
  expected : List Str
  structural : Bool
  deriving DecidableEq

/-- What the audit reports. A ratio is its two counts. -/
structure AuditReport where
  root : Str
  lane : Str
  oracleRecords : Nat
  oracleSites : Nat
  oracleExternalSites : Nat
  oracleAmbiguous : Nat
  oracleDropped : Nat
  unitsOk : Nat
  unitsFailed : Nat
  structuralMethod : String
  tiers : List (Tier × TierStats)
  recallDenominator : Nat
  recallPrecise : Nat
  recallPreciseExt : Nat
  recallAll : Nat
  byReceiver : List (String × Option (Nat × Nat))
  recallConditional : Nat
  recallBare : Nat
  silentCorrect : Nat
  silentLeak : Nat
  structuralImpossible : Nat
  structuralChecked : Nat
  fanout : List Nat
  unknownTargets : List (Str × Nat)
  topFp : List (Str × Nat)
  topMissed : List (Str × Nat)
  partialFileMismatch : Nat
  edgesOutsideUniverse : Nat
  fpSites : List FpSite
  deriving DecidableEq

/-! ## The indexes -/

section Indexes

variable (inp : Inputs)

def unitsMethod : Bool := !inp.units.isEmpty

/-- The records of files in the universe. -/
def keptRecords : List OracleRef := inp.records.filter fun r => inp.universe_.contains r.file

/-- With units, the edges of files in the universe. -/
def keptEdges : List EdgeRow := inp.edges.filter fun e => !unitsMethod inp || inp.universe_.contains e.fromFile

def graphDefsById : OrderedMap Str DefRow := OrderedMap.empty.insertAll (inp.graphDefs.map fun d => (d.id, d))

def recordsBySite (records : List OracleRef) : OrderedMap (Str × Nat) (List OracleRef) :=
  OrderedMap.empty.gather (fun r => (r.file, r.startLine)) (fun rs r => rs ++ [r]) [] records

def bySite : OrderedMap (Str × Nat) (List OracleRef) := recordsBySite (keptRecords inp)

def edgesBySite : OrderedMap (Str × Nat) (List EdgeRow) :=
  OrderedMap.empty.gather (fun e => (e.fromFile, e.fromLine)) (fun es e => es ++ [e]) [] (keptEdges inp)

def access : Str := "access".toList

def accessBySite : OrderedMap (Str × Nat) (List OracleRef) :=
  recordsBySite ((keptRecords inp).filter fun r => r.shape == access)

/-- Sites whose accesses are all external, with an edge or without one. -/
def silent (leak : Bool) : Nat :=
  (accessBySite inp).entries.countP fun e =>
    e.2.all OracleRef.external && ((edgesBySite inp).get? e.1).isSome == leak

/-- Whether a definition is a test, by the compiler's definitions before the graph's. -/
def testById : OrderedMap Str Bool :=
  OrderedMap.empty.insertAll ((inp.graphDefs ++ inp.oracleDefs).map fun d => (d.id, d.test))

def fileById : OrderedMap Str Str :=
  OrderedMap.empty.insertAll ((inp.graphDefs ++ inp.oracleDefs).map fun d => (d.id, d.file))

def testFiles : List Str :=
  ((testById inp).entries.filter Prod.snd).filterMap fun e => (fileById inp).get? e.1

/-- Whether an edge cannot be right, where that can be checked. -/
def structuralOf (e : EdgeRow) : Option Bool :=
  isStructural e (unitsMethod inp) (fileToUnit inp.units) (reach inp.units) (testById inp) (testFiles inp)

end Indexes

/-! ## The edges -/

/-- What an edge is found to be. A hit may declare its target in another file than the record. -/
inductive Verdict where
  | unjudged
  | hit (moved : Bool)
  | miss (class_ : FpClass) (evidence : List OracleRef)
  deriving DecidableEq

/-- A record that vouches for an edge on its line. -/
def vouches (e : EdgeRow) (r : OracleRef) : Bool :=
  !r.external && targetMatches r e.to_ && memberMatches e.member r.member

/-- The records that decide how an edge is wrong. -/
def evidenceFor (e : EdgeRow) (recs : List OracleRef) : List OracleRef :=
  let inScope := recs.filter fun r => memberMatches e.member r.member
  if inScope.isEmpty then recs else inScope

/-- One turn of the classification. -/
def judge (inp : Inputs) (e : EdgeRow) : Verdict :=
  if isUnjudgedDiscoveredEdge e inp.discoveredShapes then .unjudged
  else
    match (bySite inp).get? (e.fromFile, e.fromLine) with
    | none => .miss .noSite []
    | some recs =>
        match recs.find? (vouches e) with
        | some r => .hit (r.targetFile.any (· != e.toFile))
        | none =>
            let evidence := evidenceFor e recs
            .miss (if evidence.all OracleRef.external then .external else .wrongTarget) evidence

/-- `FpSite::new`. -/
def FpSite.new (e : EdgeRow) (class_ : FpClass) (evidence : List OracleRef) (structural : Bool) : FpSite :=
  { file := e.fromFile
    line := e.fromLine
    tier := e.tier.key
    class_ := class_.key
    member := e.member
    bound := e.to_
    boundFile := e.toFile
    expected := ((evidence.filter fun r => !r.external).filterMap OracleRef.target).foldl
      (fun expected t => if t ∈ expected then expected else expected ++ [t]) []
    structural := structural }

/-- The counters after an edge of the tier. -/
def TierStats.count (s : TierStats) (v : Verdict) (structural : Bool) : TierStats :=
  match v with
  | .unjudged => { s with edges := s.edges + 1, unjudged := s.unjudged + 1 }
  | .hit _ => { s with edges := s.edges + 1, tp := s.tp + 1 }
  | .miss class_ _ =>
      { s with
        edges := s.edges + 1
        fp := s.fp + 1
        fpNoSite := s.fpNoSite + if class_ = .noSite then 1 else 0
        fpExternalSite := s.fpExternalSite + if class_ = .external then 1 else 0
        fpWrongTarget := s.fpWrongTarget + if class_ = .wrongTarget then 1 else 0
        structural := s.structural + if structural then 1 else 0 }

/-- What the loop over the edges fills. A tier that no edge has is as good as absent. -/
structure Ledger where
  tiers : Tier → TierStats := fun _ => {}
  fpTargets : OrderedMap Str Nat := OrderedMap.empty
  mismatch : Nat := 0
  fpRows : List FpSite := []

/-- One turn of the loop over the edges. -/
def scoreEdge (inp : Inputs) (s : Ledger) (e : EdgeRow) : Ledger :=
  let structural := (structuralOf inp e).getD false
  let verdict := judge inp e
  let tiers := Function.update s.tiers e.tier ((s.tiers e.tier).count verdict structural)
  match verdict with
  | .unjudged => { s with tiers }
  | .hit moved => { s with tiers, mismatch := s.mismatch + if moved then 1 else 0 }
  | .miss class_ evidence =>
      { s with
        tiers
        fpTargets := s.fpTargets.tally [shortName e.to_]
        fpRows := if inp.collectFpSites then s.fpRows ++ [FpSite.new e class_ evidence structural] else s.fpRows }

def ledger (inp : Inputs) : Ledger := (keptEdges inp).foldl (scoreEdge inp) {}

def tiersOrdered (tiers : Tier → TierStats) : List (Tier × TierStats) :=
  (Tier.ORDER.filter fun t => 0 < (tiers t).edges).map fun t => (t, tiers t)

/-! ## Recall -/

section Recall

variable (inp : Inputs)

/-- `site_hit`. -/
def siteHit (tierOk : Tier → Bool) (r : OracleRef) : Bool :=
  ((edgesBySite inp).get? (r.file, r.startLine)).any fun es =>
    es.any fun e => tierOk e.tier && targetMatches r e.to_ && memberMatches e.member r.member

/-- The in-tree records of a shape whose target the graph knows. -/
def known (shape : Str) : List OracleRef :=
  (keptRecords inp).filter fun r => r.shape == shape && !r.external && targetKnown (graphDefsById inp) r

def dRecords : List OracleRef := known inp access

def isPrecise (t : Tier) : Bool := t == .precise || t == .semantic
def isPreciseExt (t : Tier) : Bool := t == .precise || t == .ext || t == .semantic
def anyTier (_ : Tier) : Bool := true

/-- How often each target was missed. -/
def missed : OrderedMap Str Nat :=
  OrderedMap.empty.tally (((dRecords inp).filter fun r => !siteHit inp anyTier r).filterMap OracleRef.target)

/-- Hits and records of a kind of receiver. -/
def receiver (kind : String) : Option (Nat × Nat) :=
  let subset := (dRecords inp).filter fun r => r.receiverKind == kind.toList
  if subset.isEmpty then none else some (subset.countP (siteHit inp anyTier), subset.length)

/-- The in-tree targets that the graph does not know, with their kinds. -/
def unknown : List (Str × Str) :=
  ((keptRecords inp).filter fun r => !r.external && !targetKnown (graphDefsById inp) r).filterMap fun r =>
    r.target.map fun t => (r.targetKind.getD "unknown".toList, t)

/-- The distinct unknown targets of each kind. -/
def unknownByKind : OrderedMap Str (List Str) :=
  OrderedMap.empty.gather Prod.fst (fun ts e => if e.2 ∈ ts then ts else ts ++ [e.2]) [] (unknown inp)

end Recall

/-! ## The tables -/

/-- A larger count comes first, then the smaller name. -/
def rowLe (a b : Str × Nat) : Prop := b.2 < a.2 ∨ a.2 = b.2 ∧ a.1 ≤ b.1

instance : DecidableRel rowLe := fun _ _ => inferInstanceAs (Decidable (_ ∨ _))

def sorted (rows : List (Str × Nat)) : List (Str × Nat) := rows.insertionSort rowLe

/-- How many sites have one, two, three, or more edges. -/
def fanoutOf (sites : OrderedMap (Str × Nat) Nat) : List Nat :=
  [sites.entries.countP fun e => e.2 == 1, sites.entries.countP fun e => e.2 == 2,
    sites.entries.countP fun e => e.2 == 3,
    sites.entries.countP fun e => e.2 != 1 && e.2 != 2 && e.2 != 3]

/-- `score`. -/
def score (inp : Inputs) : AuditReport :=
  let marks := (keptEdges inp).filterMap (structuralOf inp)
  { root := inp.root
    lane := inp.lane
    oracleRecords := (keptRecords inp).length
    oracleSites := (bySite inp).size
    oracleExternalSites := silent inp false + silent inp true
    oracleAmbiguous := (keptRecords inp).countP OracleRef.ambiguous
    oracleDropped := inp.records.countP fun r => !inp.universe_.contains r.file
    unitsOk := inp.units.countP fun u => u.status == "ok".toList
    unitsFailed := inp.units.length - inp.units.countP fun u => u.status == "ok".toList
    structuralMethod := if unitsMethod inp then "units" else "test-defs"
    tiers := tiersOrdered (ledger inp).tiers
    recallDenominator := (dRecords inp).length
    recallPrecise := (dRecords inp).countP (siteHit inp isPrecise)
    recallPreciseExt := (dRecords inp).countP (siteHit inp isPreciseExt)
    recallAll := (dRecords inp).countP (siteHit inp anyTier)
    byReceiver := ["ident", "qualified", "this", "base", "call"].map fun k => (k, receiver inp k)
    recallConditional := (known inp "conditional".toList).length
    recallBare := (known inp "bare".toList).length
    silentCorrect := silent inp false
    silentLeak := silent inp true
    structuralImpossible := marks.countP id
    structuralChecked := marks.length
    fanout := fanoutOf (OrderedMap.empty.tally ((keptEdges inp).map fun e => (e.fromFile, e.fromLine)))
    unknownTargets := sorted ((unknownByKind inp).mapValues List.length).entries
    topFp := (sorted (ledger inp).fpTargets.entries).take 20
    topMissed := (sorted (missed inp).entries).take 20
    partialFileMismatch := (ledger inp).mismatch
    edgesOutsideUniverse := inp.edges.countP fun e => !(!unitsMethod inp || inp.universe_.contains e.fromFile)
    fpSites := (ledger inp).fpRows }

end Devscout.Audit
