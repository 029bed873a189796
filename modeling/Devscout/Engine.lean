/-
# Devscout.Engine -- the parts of the pipeline the model takes as given

Extraction, resolution and the digest are functions this development does not
open: they are fields of an `Engine`, over fact types it never looks inside. What
is modelled is everything around them, which files are read, what is remembered
between runs, what is compared and what is written, so every result holds for any
engine. Git is reached through the three commands the program runs.
-/

import Devscout.Manifest
import Devscout.Walk
import Devscout.Lib.OrderedMap

namespace Devscout

open Lib Lib.Files

/-- The fact types the pipeline passes along unopened. -/
structure Facts where
  Fragment : Type
  TsFragment : Type
  RsFragment : Type
  HtmlFragment : Type
  /-- The occurrences an admitted compiler-facts artifact holds. -/
  Occurrences : Type
  /-- The bytes at the compiler-facts path. -/
  CompilerFacts : Type
  /-- Path aliases and module settings of the TypeScript resolver. -/
  TsResolution : Type
  /-- A graph apart from its version, its recorded head and its transport facts. -/
  Body : Type
  TransportFact : Type

/-- One file's graph fragment, tagged by the resolver that reads it. -/
inductive AnyFragment (F : Facts) where
  | cs (f : F.Fragment)
  | ts (f : F.TsFragment)
  | rs (f : F.RsFragment)
  | html (f : F.HtmlFragment)

inductive TsGrammar where
  | typescript
  | tsx
  | javascript
  deriving DecidableEq

/-! ## Discovered models -/

/-- One `.csproj` project. -/
structure ProjectUnit where
  id : Str
  name : Str
  dir : Str
  refs : List Str
  test : Bool
  deriving DecidableEq

/-- The discovered projects, sorted by `id`. -/
structure ProjectModel where
  units : List ProjectUnit
  deriving DecidableEq

/-- A unit as `graph.json` and the staleness sidecar persist it. -/
structure GraphUnit where
  id : Str
  name : Str
  refs : List Str
  test : Bool
  deriving DecidableEq

/-- What one scan of a project file finds. -/
structure CsprojFacts where
  projectRefs : List Str
  hasTestSdk : Bool
  isTestProject : Option Bool
  deriving DecidableEq

inductive RootKind where
  | lib
  | bin
  | test
  | example
  | bench
  | build
  deriving DecidableEq

structure CrateRoot where
  file : Str
  kind : RootKind
  deriving DecidableEq

structure RustPackage where
  dir : Str
  name : Str
  lib : Option Str
  roots : List CrateRoot
  deriving DecidableEq

abbrev RustCrates := List RustPackage

/-- One settings file and the digest of the bytes it held. -/
structure SettingsFile where
  file : Str
  digest : Str
  deriving DecidableEq

structure UnitInputs where
  unit : Str
  namespaces : List Str
  settings : List SettingsFile
  deriving DecidableEq

structure TransportInputs where
  units : List UnitInputs
  deriving DecidableEq

/-! ## The enriched lane -/

inductive LaneReason where
  | staleArtifact
  | importsMoved
  | artifactUnreadable
  | noSemantic
  | noCompleteCompilation
  | nothingConfirmed
  deriving DecidableEq

inductive LaneState where
  | applied
  | partly
  | notApplied (reason : LaneReason)
  deriving DecidableEq

structure CompilationTally where
  total : Nat
  incomplete : Nat
  detail : Option Str
  deriving DecidableEq

structure LaneStats where
  state : LaneState
  detail : Option Str
  compilations : Option (Nat × Nat)
  deriving DecidableEq

/-- Whether an artifact still describes this checkout. -/
inductive LayerFreshness where
  | fresh
  | stale (reason : Str) (importTrigger : Bool)
  deriving DecidableEq

structure SemanticLayer (F : Facts) where
  freshness : LayerFreshness
  occurrences : F.Occurrences
  tally : CompilationTally

/-! ## Git -/

/-- What Git answers from, besides the work tree: the commit `HEAD` resolves to,
the index, and the exclude rules as a test on a path and its being a directory. -/
structure GitState where
  head : Option Str
  index : List (Str × Bytes)
  excluded : Str → Bool → Bool

/-! ## The engine -/

structure Engine (F : Facts) where
  sha256Hex : Bytes → Str
  /-- The first eight bytes of a digest, as the content key. -/
  keyOfDigest : Str → Int
  defaultPurpose : Str → Str
  extract : Str → Option Str × F.Fragment
  markupFragmentText : Str → Str → F.Fragment
  extractRsFile : Str → Option Str × F.RsFragment
  scanTemplate : Str → F.HtmlFragment
  extractTsFile : Str → TsGrammar → Option (Option Str × F.TsFragment)
  hasTransportSite : F.Fragment → Bool
  scanCsproj : Str → CsprojFacts
  packageOf : Str → Str → List Str → Option RustPackage
  projectNamespaces : Str → List Str
  loadLayer : Dir → GitState → Root → F.CompilerFacts → Option (SemanticLayer F)
  readTsResolution : Dir → Root → List Str → F.TsResolution
  resolveGraph : List (Str × F.Fragment) → List (Str × F.TsFragment) → Option F.TsResolution →
    Option ProjectModel → Option (SemanticLayer F) → F.Body
  appendTemplates : List (Str × F.TsFragment) → List (Str × F.HtmlFragment) → F.Body → F.Body
  /-- Confirmed and discovered uses in the semantic statistics. -/
  semanticUse : F.Body → Nat
  setLane : Option LaneStats → F.Body → F.Body
  dropSemantic : F.Body → F.Body
  appendRust : List (Str × F.RsFragment) → F.Body → F.Body
  appendRustEdges : List (Str × F.RsFragment) → Option RustCrates → F.Body → F.Body
  /-- Transport facts, given the texts the assembly reads. -/
  assemble : List (Str × Option Bytes) → List (Str × F.Fragment) → F.Body →
    Option ProjectModel → TransportInputs → List F.TransportFact
  /-- `git rev-parse HEAD`. -/
  gitHead : Dir → GitState → Root → Option Str
  /-- The paths of the records of `git status --porcelain -z` over pathspecs. -/
  gitStatus : Dir → GitState → Root → List Str → Option (List Str)
  /-- The records of `git ls-files --others --ignored --directory -z`. -/
  gitIgnored : Dir → GitState → Root → List Str → Option (List Str)
  /-- The files of a commit. -/
  commitTree : Str → List (Str × Bytes)

namespace Engine

variable {F : Facts} (E : Engine F)

/-- The content key of a file's bytes. -/
def cacheKey (bytes : Bytes) : Int := E.keyOfDigest (E.sha256Hex bytes)

/-- The content key tells contents apart, and the key of an unread file from all
of them. -/
structure KeyInjective : Prop where
  inj : Function.Injective E.cacheKey
  ne_zero : ∀ bytes, E.cacheKey bytes ≠ 0

theorem KeyInjective.sha_injective {E : Engine F} (h : E.KeyInjective) :
    Function.Injective E.sha256Hex := by
  intro a b hab
  exact h.inj (congrArg E.keyOfDigest hab)

end Engine

/-! ## An engine over texts

Every law asked of an engine holds of this one, whose digest is the content, whose
fragments are the texts and whose graph keeps what resolution was given. -/

/-- What the resolvers were handed. -/
structure TextGraph where
  cs : List (Str × Str)
  ts : List (Str × Str)
  resolution : Option (Option Bytes)
  model : Option ProjectModel
  html : List (Str × Str)
  rs : List (Str × Str)
  crates : Option RustCrates
  lane : Option LaneStats
  deriving DecidableEq

def textFacts : Facts where
  Fragment := Str
  TsFragment := Str
  RsFragment := Str
  HtmlFragment := Str
  Occurrences := Unit
  CompilerFacts := Unit
  TsResolution := Option Bytes
  Body := TextGraph
  TransportFact := Unit

/-- A text as one number, its characters as digits above zero. -/
def textKey : Str → Nat
  | [] => 0
  | c :: cs => c.toNat + 1 + 1114113 * textKey cs

theorem textKey_injective : Function.Injective textKey := by
  have hlt : ∀ c : Char, c.toNat + 1 < 1114113 := fun c => by
    have hvalid := c.valid
    simp only [UInt32.isValidChar, Nat.isValidChar] at hvalid
    change c.val.toNat + 1 < _
    omega
  intro s
  induction s with
  | nil =>
      intro t ht
      cases t with
      | nil => rfl
      | cons c cs =>
          simp only [textKey] at ht
          omega
  | cons c cs ih =>
      intro t ht
      cases t with
      | nil =>
          simp only [textKey] at ht
          omega
      | cons d ds =>
          simp only [textKey] at ht
          have hc := hlt c
          have hd := hlt d
          have htail : textKey cs = textKey ds := by omega
          have hhead : c.toNat = d.toNat := by omega
          rw [ih htail, Char.toNat_inj.mp hhead]

def textDigest (bytes : Bytes) : Str := bytes.map Char.ofUInt8

theorem textDigest_injective : Function.Injective textDigest := by
  refine List.map_injective_iff.mpr fun a b hab => ?_
  have hsame : (Char.ofUInt8 a).toNat = (Char.ofUInt8 b).toNat := congrArg Char.toNat hab
  exact UInt8.toNat_inj.mp (by simpa [Char.ofUInt8, Char.toNat] using hsame)

def tsconfigJson : Str := "tsconfig.json".toList

def textEngine : Engine textFacts where
  sha256Hex := textDigest
  keyOfDigest := fun digest => textKey digest + 1
  defaultPurpose := id
  extract := fun text => (none, text)
  markupFragmentText := fun _ text => text
  extractRsFile := fun text => (none, text)
  scanTemplate := id
  extractTsFile := fun text _ => some (none, text)
  hasTransportSite := fun _ => false
  scanCsproj := fun _ => ⟨[], false, none⟩
  packageOf := fun _ _ _ => none
  projectNamespaces := fun _ => []
  loadLayer := fun _ _ _ _ => none
  readTsResolution := fun fs root _ => readFile fs (root.comps ++ [tsconfigJson])
  resolveGraph := fun cs ts resolution model _ => ⟨cs, ts, resolution, model, [], [], none, none⟩
  appendTemplates := fun _ html body => { body with html := html }
  semanticUse := fun _ => 0
  setLane := fun lane body => { body with lane := lane }
  dropSemantic := id
  appendRust := fun rs body => { body with rs := rs }
  appendRustEdges := fun _ crates body => { body with crates := crates }
  assemble := fun _ _ _ _ _ => []
  gitHead := fun _ git _ => git.head
  gitStatus := fun _ _ _ _ => some []
  gitIgnored := fun _ _ _ _ => some []
  commitTree := fun _ => []

theorem textEngine_keyInjective : textEngine.KeyInjective where
  inj := by
    intro a b hab
    have hkey : (textKey (textDigest a) : Int) + 1 = textKey (textDigest b) + 1 := hab
    exact textDigest_injective (textKey_injective (by omega))
  ne_zero := by
    intro bytes
    simp only [Engine.cacheKey, textEngine]
    omega

end Devscout
