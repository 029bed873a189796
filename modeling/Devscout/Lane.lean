/-
# Devscout.Lane -- the enriched-lane decision of one run

Decided once, before resolution: the layer resolution may use, if any, and the
`stats.lane` record the run owes, if any. A record is due exactly when
`--no-semantic` is given or something sits at the compiler-facts path; a run that
owes one always rebuilds.
-/

import Devscout.Engine

namespace Devscout

open Lib Lib.Files

variable {F : Facts} (E : Engine F)

structure LaneDecision (F : Facts) where
  layer : Option (SemanticLayer F)
  record : Option LaneStats
  tally : Option CompilationTally

namespace LaneDecision

/-- Nothing applies and nothing is owed. -/
def idle : LaneDecision F := ⟨none, none, none⟩

def owed (record : LaneStats) : LaneDecision F := ⟨none, some record, none⟩

/-- The graph must be rebuilt so that its record is this run's. -/
def forcesRebuild (lane : LaneDecision F) : Bool := lane.record.isSome

end LaneDecision

def LaneStats.applied : LaneStats := ⟨.applied, none, none⟩

def LaneStats.notApplied (reason : LaneReason) (detail : Option Str) : LaneStats :=
  ⟨.notApplied reason, detail, none⟩

/-- `record_for`: the record a layer's freshness owes. -/
def laneRecordFor : LayerFreshness → LaneStats
  | .fresh => LaneStats.applied
  | .stale reason importTrigger =>
      LaneStats.notApplied (if importTrigger then .importsMoved else .staleArtifact) (some reason)

/-- `before_resolution`: no counted compilation is complete. -/
def beforeResolution (tally : CompilationTally) : Option LaneStats :=
  if 0 < tally.total ∧ tally.incomplete = tally.total then
    some { LaneStats.notApplied .noCompleteCompilation tally.detail with
      compilations := some (tally.total, tally.incomplete) }
  else none

/-- `after_resolution`: the settled record, and whether the statistics stay. -/
def afterResolution (tally : CompilationTally) (used : Nat) : LaneStats × Bool :=
  match beforeResolution tally with
  | some record => (record, false)
  | none =>
      let settled :=
        if used = 0 then (LaneStats.notApplied .nothingConfirmed tally.detail, false)
        else
          match tally.detail with
          | some detail => (⟨.partly, some detail, none⟩, true)
          | none => (LaneStats.applied, true)
      ({ settled.1 with compilations := some (tally.total, tally.incomplete) }, settled.2)

/-- `semantic::decide_lane`. -/
def decideLane (fs : Dir) (git : GitState) (root : Root) (artifact : Option F.CompilerFacts)
    (noSemantic : Bool) : LaneDecision F :=
  if noSemantic then .owed (LaneStats.notApplied .noSemantic none)
  else
    match artifact with
    | none => .idle
    | some bytes =>
        match E.loadLayer fs git root bytes with
        | none => .owed (LaneStats.notApplied .artifactUnreadable none)
        | some layer =>
            let record := laneRecordFor layer.freshness
            if record.state ≠ .applied then .owed record
            else
              match beforeResolution layer.tally with
              | some notApplied => .owed notApplied
              | none => ⟨some layer, some record, some layer.tally⟩

/-- `semantic::record_lane`: the record written into the resolved graph. -/
def recordLane (lane : LaneDecision F) (body : F.Body) : F.Body :=
  match lane.tally with
  | none => E.setLane lane.record body
  | some tally =>
      let settled := afterResolution tally (E.semanticUse body)
      let body := E.setLane (some settled.1) body
      if settled.2 then body else E.dropSemantic body

/-- A run that owes no record uses no layer. -/
theorem decideLane_idle {fs : Dir} {git : GitState} {root : Root}
    {artifact : Option F.CompilerFacts} {noSemantic : Bool}
    (h : (decideLane E fs git root artifact noSemantic).forcesRebuild = false) :
    decideLane E fs git root artifact noSemantic = .idle := by
  have howed : ∀ record : LaneStats, (LaneDecision.owed record : LaneDecision F).forcesRebuild ≠ false :=
    fun record => by simp [LaneDecision.owed, LaneDecision.forcesRebuild]
  simp only [decideLane] at h ⊢
  split at h
  · exact absurd h (howed _)
  · rename_i hsem
    rw [if_neg hsem]
    cases artifact with
    | none => rfl
    | some bytes =>
        dsimp only at h
        split at h
        · exact absurd h (howed _)
        · split at h
          · exact absurd h (howed _)
          · split at h
            · exact absurd h (howed _)
            · simp [LaneDecision.forcesRebuild] at h

end Devscout
