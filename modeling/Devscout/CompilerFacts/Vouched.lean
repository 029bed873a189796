/-
# Devscout.CompilerFacts.Vouched -- what admission leaves unchecked for the resolver

Admission and the semantic layer both parse the same bytes, and they differ in temper.
The admission reader gives up on the whole list of sites at the first one it cannot
read; the layer passes over that site and keeps the rest. And admission looks a site's
compilation up by identity alone: the fingerprint the site repeats is parsed and never
compared. What the layer then reads is vouched for exactly when neither difference
shows.
-/

import Devscout.CompilerFacts.Admission
import Devscout.Semantic.Layer

namespace Devscout.CompilerFacts

open Lib Semantic

/-- The fingerprint a site repeats for its own compilation. -/
def carriedFingerprint (site : Json) : Option Str :=
  (site.getObject "compilation").bind (·.getStr "fingerprint")

/-- The compilations of the embedded envelope. -/
def envelopeCompilations (root : Json) : List CompilationRef :=
  (parseCompilationRefs root).getD []

/-- The sites the layer walks. -/
def sitesOf (root : Json) : List Json := (listedSites root).getD []

/-- What admission is taken to have established for the layer. -/
structure Vouched (root : Json) : Prop where
  /-- The compilation of each occurrence is listed under the fingerprint it carries. -/
  named : ∀ site ∈ sitesOf root, ∀ occ, parseOccurrence site = some occ →
    ∃ c ∈ envelopeCompilations root, (c.identity == occ.compilationIdentity) = true ∧
      c.fingerprint ≠ none ∧ c.fingerprint = carriedFingerprint site
  /-- Nothing is read that the artifact does not declare. -/
  declared : declaresOccurrences root = false → parseOccurrences root = []

/-- The comparison admission leaves out: the fingerprint a site repeats is among those
the envelope gives for that identity. -/
def RepeatsItsCompilation (root : Json) (site : Json) : Prop :=
  ∀ named, siteCompilation site = some named →
    ∃ fingerprint, named.fingerprint = some fingerprint ∧
      ∃ c ∈ envelopeCompilations root,
        (c.identity == named.identity) = true ∧ c.fingerprint = some fingerprint

/-- A site the layer can use: a file, the line of a name and a resolution. -/
def Readable (site : Json) : Prop :=
  (site.getStr "file").isSome ∧
    ((site.getObject "name").bind (·.getU64 "line")).isSome ∧ (site.getStr "resolution").isSome

/-- The documents on which the two readers agree. -/
structure ReadersAgree (root : Json) : Prop where
  repeated : declaresOccurrences root = true → ∀ site ∈ sitesOf root, Readable site →
    RepeatsItsCompilation root site
  unreadable : declaresOccurrences root = false → ∀ site ∈ sitesOf root, ¬Readable site

/-! ## What each reader sees of a site -/

theorem parseOccurrence_isSome_iff {site : Json} :
    (∃ occ, parseOccurrence site = some occ) ↔ Readable site := by
  unfold parseOccurrence Readable
  constructor
  · rintro ⟨occ, h⟩
    obtain ⟨file, hfile, h⟩ := Option.bind_eq_some_iff.mp h
    obtain ⟨name, hname, h⟩ := Option.bind_eq_some_iff.mp h
    obtain ⟨line, hline, h⟩ := Option.bind_eq_some_iff.mp h
    obtain ⟨resolution, hresolution, -⟩ := Option.bind_eq_some_iff.mp h
    exact ⟨by simp [hfile], by simp [hname, hline], by simp [hresolution]⟩
  · rintro ⟨hfile, hline, hresolution⟩
    obtain ⟨file, hfile⟩ := Option.isSome_iff_exists.mp hfile
    obtain ⟨line, hline⟩ := Option.isSome_iff_exists.mp hline
    obtain ⟨resolution, hresolution⟩ := Option.isSome_iff_exists.mp hresolution
    obtain ⟨name, hname, hline⟩ := Option.bind_eq_some_iff.mp hline
    simp [hfile, hname, hline, hresolution]

/-- The identity an occurrence carries is the one its site spells out. -/
theorem parseOccurrence_identity {site : Json} {occ : RawOccurrence}
    (h : parseOccurrence site = some occ) :
    occ.compilationIdentity =
      ((site.getObject "compilation").bind (·.get "identity")).getD .null := by
  unfold parseOccurrence at h
  iterate 4 obtain ⟨_, -, h⟩ := Option.bind_eq_some_iff.mp h
  cases h
  rfl

/-- Admission reads the same two fields. -/
theorem siteCompilation_eq_some {site : Json} {named : CompilationRef}
    (h : siteCompilation site = some named) :
    ((site.getObject "compilation").bind (·.get "identity")) = some named.identity ∧
      carriedFingerprint site = named.fingerprint := by
  unfold siteCompilation compilationRef at h
  obtain ⟨compilation, hcompilation, h⟩ := Option.bind_eq_some_iff.mp h
  obtain ⟨identity, hidentity, h⟩ := Option.bind_eq_some_iff.mp h
  cases h
  exact ⟨by simp [hcompilation, hidentity], by simp [carriedFingerprint, hcompilation]⟩

theorem parseOccurrences_eq_nil_iff {root : Json} :
    parseOccurrences root = [] ↔ ∀ site ∈ sitesOf root, ¬Readable site := by
  show (sitesOf root).filterMap parseOccurrence = [] ↔ _
  rw [List.filterMap_eq_nil_iff]
  refine forall₂_congr fun site _ => ?_
  rw [← parseOccurrence_isSome_iff, Option.eq_none_iff_forall_ne_some]
  simp

/-- A list read all or nothing has read each of its elements. -/
theorem exists_of_mapM_eq_some {α β : Type} {f : α → Option β} {xs : List α} {ys : List β}
    (h : xs.mapM f = some ys) {x : α} (hx : x ∈ xs) : ∃ y ∈ ys, f x = some y := by
  induction xs generalizing ys with
  | nil => cases hx
  | cons a xs ih =>
      rw [List.mapM_cons] at h
      obtain ⟨b, hb, h⟩ := Option.bind_eq_some_iff.mp h
      obtain ⟨bs, hbs, h⟩ := Option.bind_eq_some_iff.mp h
      cases h
      rcases List.mem_cons.mp hx with rfl | hx
      · exact ⟨b, List.mem_cons_self, hb⟩
      · obtain ⟨y, hy, hfx⟩ := ih hbs hx
        exact ⟨y, List.mem_cons_of_mem b hy, hfx⟩

/-- A list of sites the admission reader went through is the one the layer walks. -/
theorem siteCompilation_of_parsed {root : Json} {sites : List CompilationRef}
    (h : parseOccurrenceSites root = some sites) {site : Json} (hmem : site ∈ sitesOf root) :
    ∃ named ∈ sites, siteCompilation site = some named := by
  unfold parseOccurrenceSites at h
  obtain ⟨listed, hlisted, h⟩ := Option.bind_eq_some_iff.mp h
  have hsite : site ∈ listed := by simpa [sitesOf, hlisted] using hmem
  exact exists_of_mapM_eq_some h hsite

/-! ## The two readers -/

/-- **Vouched exactly when the readers agree**: for every candidate that was admitted,
whatever was expected of it. -/
theorem admitted_vouched_iff {crates : Crates} {candidate : Bytes}
    {expected : AdmissionExpectations} {facts : AdmittedFacts} {root : Json}
    (h : admitFacts crates candidate expected = .ok facts)
    (hroot : crates.fromSlice facts.bytes = some root) :
    Vouched root ↔ ReadersAgree root := by
  obtain ⟨parsed, hparsed, hheader, hconsistent, hidentity, hbytes⟩ := admit_eq_ok h
  obtain rfl : parsed = root := Option.some.inj (hparsed.symm.trans (hbytes ▸ hroot))
  obtain ⟨hcompilations, hsites, hprovided⟩ := parseHeader_eq_some hheader
  constructor
  · intro hvouched
    refine ⟨fun hdeclares site hsite hreadable named hnamed => ?_,
      fun hsilent => parseOccurrences_eq_nil_iff.mp (hvouched.declared hsilent)⟩
    obtain ⟨occ, hocc⟩ := parseOccurrence_isSome_iff.mpr hreadable
    obtain ⟨c, hc, hsame, hsome, hcarried⟩ := hvouched.named site hsite occ hocc
    obtain ⟨hid, hfp⟩ := siteCompilation_eq_some hnamed
    rw [parseOccurrence_identity hocc, hid] at hsame
    obtain ⟨fingerprint, hfingerprint⟩ := Option.ne_none_iff_exists'.mp hsome
    exact ⟨fingerprint, by rw [← hfp, ← hcarried, hfingerprint], c, hc, hsame, hfingerprint⟩
  · intro hagree
    refine ⟨fun site hsite occ hocc => ?_,
      fun hsilent => parseOccurrences_eq_nil_iff.mpr (hagree.unreadable hsilent)⟩
    have hreadable := parseOccurrence_isSome_iff.mp ⟨occ, hocc⟩
    cases hdeclares : declaresOccurrences parsed with
    | false => exact absurd hreadable (hagree.unreadable hdeclares site hsite)
    | true =>
        -- declared occurrences were all read, so this site names a compilation
        have hread : (parseOccurrenceSites parsed).isSome = true := by
          rw [← hsites, occurrenceSites_isSome hconsistent, hprovided, hdeclares]
        obtain ⟨sites, hparsedSites⟩ := Option.isSome_iff_exists.mp hread
        obtain ⟨named, -, hnamed⟩ := siteCompilation_of_parsed hparsedSites hsite
        obtain ⟨fingerprint, hfingerprint, c, hc, hsame, hsupported⟩ :=
          hagree.repeated hdeclares site hsite hreadable named hnamed
        obtain ⟨hid, hfp⟩ := siteCompilation_eq_some hnamed
        refine ⟨c, hc, ?_, by simp [hsupported], by rw [hsupported, hfp, hfingerprint]⟩
        rw [parseOccurrence_identity hocc, hid]
        exact hsame

/-! ## Three candidates

One compilation `App` with the fingerprint `aaaa`, one call `Render` in it at line 3 of
`Caller.cs`. -/

def appDigest : Str :=
  "58788b40387b561f93eb16aa7dd04071f0d7fa1558ce8d8ba614dd0ff7c8da56".toList

/-- The bytes of a candidate, by the lists of provided capabilities and of sites. -/
def candidateBytes (provided sites : String) : Bytes :=
  ("\x7b\"artifactSchemaVersion\":1,\"capabilities\":\x7b\"provided\":[" ++ provided ++
    "]\x7d,\"completion\":\x7b\"terminal\":true\x7d,\"context\":\x7b\"contextFingerprint\":\"" ++
    String.ofList appDigest ++ "\",\"envelope\":\x7b\"compilations\":[\x7b\"fingerprint\":\"aaaa\"," ++
    "\"identity\":\"App\"\x7d]\x7d,\"schemaVersion\":1\x7d,\"contractVersion\":1,\"coverage\":" ++
    "\x7b\"state\":\"complete\"\x7d,\"dependencyFingerprint\":\"dddd\",\"format\":" ++
    "\"compiler-facts\",\"occurrences\":\x7b\"sites\":[" ++ sites ++ "]\x7d,\"producer\":" ++
    "\x7b\"engineRevision\":\"2\",\"name\":\"scout-semantic\"\x7d,\"profile\":\x7b\"configuration\":" ++
    "\"Release\",\"platform\":\"any\",\"target\":\"net8.0\"\x7d,\"units\":\x7b\"missing\":[]," ++
    "\"processed\":[\"App\"]\x7d\x7d").toUTF8.toList

/-- A site's text, by the fingerprint it repeats. -/
def siteText (fingerprint : String) : String :=
  "\x7b\"compilation\":\x7b\"fingerprint\":\"" ++ fingerprint ++ "\",\"identity\":\"App\"\x7d," ++
    "\"file\":\"Caller.cs\",\"name\":\x7b\"line\":3\x7d,\"resolution\":\"confirmed\"\x7d"

def jsonText (s : String) : Json := .string s.toList

def jsonObject (fields : List (String × Json)) : Json :=
  .object (fields.map fun (key, value) => (key.toList, value))

def jsonInt (n : UInt64) : Json := .number (.posInt n)

/-- What `from_slice` makes of `candidateBytes`. -/
def candidateRoot (provided sites : List Json) : Json :=
  jsonObject [("artifactSchemaVersion", jsonInt 1), ("capabilities", jsonObject [("provided", .array provided)]),
    ("completion", jsonObject [("terminal", .bool true)]),
    ("context", jsonObject [("contextFingerprint", .string appDigest),
      ("envelope", jsonObject [("compilations",
        .array [jsonObject [("fingerprint", jsonText "aaaa"), ("identity", jsonText "App")]])]),
      ("schemaVersion", jsonInt 1)]),
    ("contractVersion", jsonInt 1), ("coverage", jsonObject [("state", jsonText "complete")]),
    ("dependencyFingerprint", jsonText "dddd"), ("format", jsonText "compiler-facts"),
    ("occurrences", jsonObject [("sites", .array sites)]),
    ("producer", jsonObject [("engineRevision", jsonText "2"), ("name", jsonText "scout-semantic")]),
    ("profile", jsonObject [("configuration", jsonText "Release"), ("platform", jsonText "any"),
      ("target", jsonText "net8.0")]),
    ("units", jsonObject [("missing", .array []), ("processed", .array [jsonText "App"])])]

def siteRoot (fingerprint : String) : Json :=
  jsonObject [("compilation", jsonObject [("fingerprint", jsonText fingerprint), ("identity", jsonText "App")]),
    ("file", jsonText "Caller.cs"), ("name", jsonObject [("line", jsonInt 3)]), ("resolution", jsonText "confirmed")]

/-- The crates on one candidate: its parse, and the digest of the one line of its
envelope's summary. -/
def cratesOn (bytes : Bytes) (root : Json) : Crates where
  fromSlice read := if read = bytes then some root else none
  toText _ := "\"App\"".toList
  sha256Hex text := if text = "\"App\"\x1faaaa".toList then appDigest else []

def sampleExpectations : AdmissionExpectations where
  contractVersion := 1
  producerName := "scout-semantic".toList
  engineRevision := "2".toList
  dependencyFingerprint := "dddd".toList
  contextSchemaVersion := 1
  profile := ⟨"net8.0".toList, "Release".toList, "any".toList⟩
  headSha := none

/-- Whatever the sites, a parse that the checks accept is admitted as it came. -/
theorem admit_candidate (bytes : Bytes) (root : Json) {header : CandidateHeader}
    (h : parseHeader root = some header) (hterminal : header.completionTerminal = true)
    (hinventory : inventoryIsCoherent header = true)
    (hconsistent : occurrenceSelfConsistency header = none)
    (hidentity : identityCheck (cratesOn bytes root) header sampleExpectations = none) :
    admitFacts (cratesOn bytes root) bytes sampleExpectations = .ok ⟨header, bytes⟩ := by
  unfold admitFacts
  rw [show (cratesOn bytes root).fromSlice bytes = some root from if_pos rfl, Option.bind_some, h]
  simp [hterminal, hinventory, hconsistent, hidentity]

/-- The declared occurrence with its compilation's fingerprint is vouched for. -/
theorem admitted_vouched_declared :
    Vouched (candidateRoot [jsonText "occurrences"] [siteRoot "aaaa"]) := by
  have hadmitted := admit_candidate (candidateBytes "\"occurrences\"" (siteText "aaaa"))
    (candidateRoot [jsonText "occurrences"] [siteRoot "aaaa"]) rfl rfl rfl rfl rfl
  refine (admitted_vouched_iff hadmitted (if_pos rfl)).mpr ⟨fun _ site hsite _ => ?_, ?_⟩
  · rw [List.mem_singleton.mp hsite]
    intro named hnamed
    have hread : siteCompilation (siteRoot "aaaa") = some ⟨jsonText "App", some "aaaa".toList⟩ := rfl
    obtain rfl := Option.some.inj (hread.symm.trans hnamed)
    exact ⟨_, rfl, _, List.mem_cons_self, by decide, rfl⟩
  · intro hsilent
    cases hsilent

/-- An undeclared occurrence next to a site that is no object, and a declared one under
a fingerprint its compilation does not have: both are admitted, and neither is vouched
for. -/
theorem unvouched_admitted :
    (∃ facts, admitFacts
        (cratesOn (candidateBytes "" (siteText "aaaa" ++ ",42"))
          (candidateRoot [] [siteRoot "aaaa", jsonInt 42]))
        (candidateBytes "" (siteText "aaaa" ++ ",42")) sampleExpectations = .ok facts ∧
      ¬Vouched (candidateRoot [] [siteRoot "aaaa", jsonInt 42])) ∧
    (∃ facts, admitFacts
        (cratesOn (candidateBytes "\"occurrences\"" (siteText "bbbb"))
          (candidateRoot [jsonText "occurrences"] [siteRoot "bbbb"]))
        (candidateBytes "\"occurrences\"" (siteText "bbbb")) sampleExpectations = .ok facts ∧
      ¬Vouched (candidateRoot [jsonText "occurrences"] [siteRoot "bbbb"])) := by
  refine ⟨⟨_, admit_candidate _ _ rfl rfl rfl rfl rfl, fun hvouched => ?_⟩,
    ⟨_, admit_candidate _ _ rfl rfl rfl rfl rfl, fun hvouched => ?_⟩⟩
  · have hnone := hvouched.declared rfl
    cases hnone
  · obtain ⟨c, hc, -, -, hcarried⟩ := hvouched.named (siteRoot "bbbb") List.mem_cons_self _ rfl
    rw [List.mem_singleton.mp hc] at hcarried
    cases hcarried

end Devscout.CompilerFacts
