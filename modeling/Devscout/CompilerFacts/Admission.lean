/-
# Devscout.CompilerFacts.Admission -- what a candidate artifact is admitted on

A candidate compiler-facts artifact is admitted on its header alone: the identity and
negotiation fields, the compilations its embedded envelope names, and the compilation
each of its occurrence sites names. Everything else in it stays unread, and its bytes
are what is published. The checks run in a fixed order and the first that fails
refuses the candidate.
-/

import Devscout.Lib.Json

namespace Devscout.CompilerFacts

open Lib

/-- What the crates the admission path calls compute: the parse of a byte string, the
compact text of a value, and the hexadecimal SHA-256 digest of a text. -/
structure Crates where
  fromSlice : Bytes → Option Json
  toText : Json → Str
  sha256Hex : Str → Str

/-! ## The header -/

structure Profile where
  target : Str
  configuration : Str
  platform : Str
  deriving DecidableEq

structure IncompleteUnit where
  unit : Str
  reason : Str

inductive Coverage where
  | complete
  | incomplete (units : List IncompleteUnit)

/-- A compilation as an envelope entry or an occurrence site names it: its identity as
written, and its fingerprint when that is a string. -/
structure CompilationRef where
  identity : Json
  fingerprint : Option Str

structure CandidateHeader where
  contractVersion : Nat
  producerName : Str
  engineRevision : Str
  profile : Profile
  dependencyFingerprint : Str
  contextSchemaVersion : Nat
  contextFingerprintHeader : Option Str
  contextCompilations : Option (List CompilationRef)
  occurrenceSites : Option (List CompilationRef)
  occurrencesCapabilityProvided : Bool
  sourceHeadSha : Option Str
  completionTerminal : Bool
  unitsProcessed : List Str
  unitsMissing : List Str
  coverage : Coverage

def COMPILER_FACTS_FORMAT : Str := "compiler-facts".toList

def strArray (obj : Json) (key : String) : Option (List Str) := do
  (← obj.getArray key).mapM Json.asStr

def parseIncompleteUnit (item : Json) : Option IncompleteUnit := do
  some ⟨← item.getStr "unit", ← item.getStr "reason"⟩

def parseCoverage (root : Json) : Option Coverage := do
  let coverage ← root.getObject "coverage"
  let state ← coverage.getStr "state"
  if state = "complete".toList then some .complete
  else if state = "incomplete".toList then
    let units ← (← coverage.getArray "incompleteUnits").mapM parseIncompleteUnit
    if units.isEmpty then none else some (.incomplete units)
  else none

/-- The reference an object spells out; none without an `identity`. -/
def compilationRef (obj : Json) : Option CompilationRef := do
  some ⟨← obj.get "identity", obj.getStr "fingerprint"⟩

/-- The entries of the embedded envelope. -/
def envelopeEntries (root : Json) : Option (List Json) := do
  (← (← root.getObject "context").getObject "envelope").getArray "compilations"

/-- `parse_compilation_refs`: all entries or nothing. -/
def parseCompilationRefs (root : Json) : Option (List CompilationRef) := do
  (← envelopeEntries root).mapM compilationRef

/-- The occurrence sites as listed. -/
def listedSites (root : Json) : Option (List Json) := do
  (← root.getObject "occurrences").getArray "sites"

/-- The compilation a site names. -/
def siteCompilation (site : Json) : Option CompilationRef := do
  compilationRef (← site.getObject "compilation")

/-- `parse_occurrence_sites`: all sites or nothing. -/
def parseOccurrenceSites (root : Json) : Option (List CompilationRef) := do
  (← listedSites root).mapM siteCompilation

/-- Whether `capabilities.provided` names `occurrences`. -/
def declaresOccurrences (root : Json) : Bool :=
  match (root.getObject "capabilities").bind (·.getArray "provided") with
  | some provided => provided.any fun v => v.asStr == some "occurrences".toList
  | none => false

/-- `parse_header`; its only refusal is the malformed encoding. -/
def parseHeader (root : Json) : Option CandidateHeader := do
  guard (root.getStr "format" = some COMPILER_FACTS_FORMAT)
  let contractVersion ← root.getU64 "contractVersion"
  let _ ← root.getU64 "artifactSchemaVersion"
  let producer ← root.getObject "producer"
  let producerName ← producer.getStr "name"
  let engineRevision ← producer.getStr "engineRevision"
  let profile ← root.getObject "profile"
  let target ← profile.getStr "target"
  let configuration ← profile.getStr "configuration"
  let platform ← profile.getStr "platform"
  let dependencyFingerprint ← root.getStr "dependencyFingerprint"
  let context ← root.getObject "context"
  let contextSchemaVersion ← context.getU64 "schemaVersion"
  let completion ← root.getObject "completion"
  let completionTerminal ← completion.getBool "terminal"
  let units ← root.getObject "units"
  let unitsProcessed ← strArray units "processed"
  let unitsMissing ← strArray units "missing"
  let coverage ← parseCoverage root
  some
    { contractVersion, producerName, engineRevision
      profile := ⟨target, configuration, platform⟩
      dependencyFingerprint, contextSchemaVersion
      contextFingerprintHeader := context.getStr "contextFingerprint"
      contextCompilations := parseCompilationRefs root
      occurrenceSites := parseOccurrenceSites root
      occurrencesCapabilityProvided := declaresOccurrences root
      sourceHeadSha := (root.getObject "sourceSnapshot").bind (·.getStr "headSha")
      completionTerminal, unitsProcessed, unitsMissing, coverage }

/-! ## Admission -/

/-- Why a candidate is refused once its process ran. -/
inductive RefusalReason where
  | malformedEncoding
  | missingCompletionRecord
  | incoherentInventory
  | occurrenceCapabilityMismatch
  | occurrenceCompilationUnknown
  | occurrenceCompilationUnsupported
  | contractVersionMismatch
  | producerMismatch
  | engineRevisionMismatch
  | profileMismatch
  | dependencyFingerprintMismatch
  | contextEnvelopeVersionUnrecognised
  | contextFingerprintMismatch
  | sourceSnapshotMismatch
  deriving DecidableEq

structure AdmissionExpectations where
  contractVersion : Nat
  producerName : Str
  engineRevision : Str
  dependencyFingerprint : Str
  contextSchemaVersion : Nat
  profile : Profile
  headSha : Option Str

/-- A candidate that passed, its bytes as they came. -/
structure AdmittedFacts where
  header : CandidateHeader
  bytes : Bytes

def inventoryIsCoherent (header : CandidateHeader) : Bool :=
  !header.unitsProcessed.any fun unit => header.unitsMissing.contains unit

/-- One line of the summary's preimage. -/
def summaryLine (crates : Crates) (compilation : CompilationRef) : Str :=
  crates.toText compilation.identity ++
    Char.ofNat 0x1F :: compilation.fingerprint.getD "null".toList

/-- `context_summary::recompute`. -/
def recompute (crates : Crates) (compilations : List CompilationRef) : Str :=
  crates.sha256Hex (List.intercalate ['\n'] (compilations.map (summaryLine crates)))

/-- Without a header summary or a readable envelope nothing matches. -/
def contextSummaryMatches (crates : Crates) (header : CandidateHeader) : Bool :=
  match header.contextFingerprintHeader, header.contextCompilations with
  | some fingerprint, some compilations => fingerprint == recompute crates compilations
  | _, _ => false

/-- What the envelope says against the compilation one site names. -/
def siteRefusal (compilations : List CompilationRef) (site : CompilationRef) :
    Option RefusalReason :=
  match compilations.find? fun c => c.identity == site.identity with
  | none => some .occurrenceCompilationUnknown
  | some matched =>
      if matched.fingerprint.isNone then some .occurrenceCompilationUnsupported else none

def occurrenceSelfConsistency (header : CandidateHeader) : Option RefusalReason :=
  if header.occurrenceSites.isSome != header.occurrencesCapabilityProvided then
    some .occurrenceCapabilityMismatch
  else
    match header.occurrenceSites, header.contextCompilations with
    | some sites, some compilations => sites.findSome? (siteRefusal compilations)
    | _, _ => none

def identityCheck (crates : Crates) (header : CandidateHeader)
    (expected : AdmissionExpectations) : Option RefusalReason :=
  if header.contractVersion ≠ expected.contractVersion then some .contractVersionMismatch
  else if header.producerName ≠ expected.producerName then some .producerMismatch
  else if header.engineRevision ≠ expected.engineRevision then some .engineRevisionMismatch
  else if header.profile ≠ expected.profile then some .profileMismatch
  else if header.dependencyFingerprint ≠ expected.dependencyFingerprint then
    some .dependencyFingerprintMismatch
  else if header.contextSchemaVersion ≠ expected.contextSchemaVersion then
    some .contextEnvelopeVersionUnrecognised
  else if !contextSummaryMatches crates header then some .contextFingerprintMismatch
  else
    match expected.headSha with
    | some head =>
        if header.sourceHeadSha ≠ some head then some .sourceSnapshotMismatch else none
    | none => none

/-- `admit`. -/
def admitFacts (crates : Crates) (candidate : Bytes) (expected : AdmissionExpectations) :
    Except RefusalReason AdmittedFacts :=
  match (crates.fromSlice candidate).bind parseHeader with
  | none => .error .malformedEncoding
  | some header =>
      if !header.completionTerminal then .error .missingCompletionRecord
      else if !inventoryIsCoherent header then .error .incoherentInventory
      else
        match occurrenceSelfConsistency header with
        | some reason => .error reason
        | none =>
            match identityCheck crates header expected with
            | some reason => .error reason
            | none => .ok ⟨header, candidate⟩

/-! ## What an admission says -/

/-- The header repeats what the document says about compilations and occurrences. -/
theorem parseHeader_eq_some {root : Json} {header : CandidateHeader}
    (h : parseHeader root = some header) :
    header.contextCompilations = parseCompilationRefs root ∧
      header.occurrenceSites = parseOccurrenceSites root ∧
      header.occurrencesCapabilityProvided = declaresOccurrences root := by
  unfold parseHeader at h
  -- one read of a required field after the other
  iterate 19 obtain ⟨_, -, h⟩ := Option.bind_eq_some_iff.mp h
  cases h
  exact ⟨rfl, rfl, rfl⟩

/-- What the checks of an accepted candidate found. -/
theorem admit_eq_ok {crates : Crates} {candidate : Bytes} {expected : AdmissionExpectations}
    {facts : AdmittedFacts} (h : admitFacts crates candidate expected = .ok facts) :
    ∃ root, crates.fromSlice candidate = some root ∧ parseHeader root = some facts.header ∧
      occurrenceSelfConsistency facts.header = none ∧
      identityCheck crates facts.header expected = none ∧ facts.bytes = candidate := by
  unfold admitFacts at h
  split at h
  · cases h
  · rename_i header hheader
    obtain ⟨root, hroot, hparse⟩ := Option.bind_eq_some_iff.mp hheader
    split at h
    · cases h
    · split at h
      · cases h
      · split at h
        · cases h
        · rename_i hconsistent
          split at h
          · cases h
          · rename_i hidentity
            cases h
            exact ⟨root, hroot, hparse, hconsistent, hidentity, rfl⟩

/-- Consistent occurrences are there exactly when they are declared. -/
theorem occurrenceSites_isSome {header : CandidateHeader}
    (h : occurrenceSelfConsistency header = none) :
    header.occurrenceSites.isSome = header.occurrencesCapabilityProvided := by
  by_contra hne
  rw [occurrenceSelfConsistency, if_pos (bne_iff_ne.mpr hne)] at h
  cases h

end Devscout.CompilerFacts
