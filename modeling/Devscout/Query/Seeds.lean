/-
# Devscout.Query.Seeds -- what each verb resolves a seed to

All verbs start from the ladder over types. What it does not know may still be a member, by
its own name or behind the type that declares it, and then a definition local to its file.
`refs` and `read` answer about the member itself, and refuse when two types that declare it
have references to show; `tests` and `impact` answer as the type that declares it, and refuse
when there are two. `impact` alone reads a seed that looks like a path as a file.
-/

import Devscout.Query.Answers

namespace Devscout.Query

open Lib

namespace Answers

/-! ## Members -/

def memberKinds : List Str :=
  ["method".toList, "property".toList, "field".toList, "event".toList, "enum-member".toList]

/-- `split_member_seed`: the member's name, and what stands before the last dot. -/
def splitMemberSeed (seed : Str) : Str × Option Str :=
  match Text.rsplit '.' seed with
  | some (qualifier, name) => (name, some qualifier)
  | none => (seed, none)

/-- `owner_matches_qualifier`. -/
def ownerMatchesQualifier (owner qualifier : Str) : Bool :=
  owner == qualifier || ('.' :: qualifier).isSuffixOf owner || ('#' :: qualifier).isSuffixOf owner

section Members

variable (a : Artifact)

/-- A row of the name index that declares the member in a type of the graph. -/
def declaresMember (name : Str) (n : GraphName) : Bool :=
  n.name == name && !n.owner.isEmpty && (byId a.defs n.owner).isSome && memberKinds.contains n.kind

/-- `qualified_member_owners`: the types that declare the member, each with its sites. -/
def qualifiedMemberOwners (name : Str) (qualifier : Option Str) : List (Str × List DefSite) :=
  let rows := a.names.filter fun n =>
    declaresMember a name n && qualifier.all (ownerMatchesQualifier n.owner)
  (rows.foldl (fun (owners : OrderedMap Str (List DefSite)) n =>
    owners.upsert n.owner [⟨n.file, n.line⟩] (· ++ [⟨n.file, n.line⟩])) .empty).entries

structure MemberCandidate where
  owner : Str
  name : Str
  file : Str
  line : Nat
  deriving DecidableEq

/-- `member_candidates`, each at the first site of its type. -/
def memberCandidates (owners : List (Str × List DefSite)) (name : Str) : List MemberCandidate :=
  owners.filterMap fun o => o.2.head?.map fun site => ⟨o.1, name, site.file, site.line⟩

inductive MemberSeedResolution where
  | resolved (id : Str)
  | ambiguous (candidates : List MemberCandidate)
  | notFound
  deriving DecidableEq

/-- `resolve_member_seed`. -/
def resolveMemberSeed (seed : Str) : MemberSeedResolution :=
  let (name, qualifier) := splitMemberSeed seed
  match qualifiedMemberOwners a name qualifier with
  | [] => .notFound
  | [o] => .resolved o.1
  | owners => .ambiguous (memberCandidates owners name)

end Members

/-! ## The answer about a member -/

section MemberRefs

variable (index : QueryIndex) (disk : Disk) (isScript : Str → Bool)

/-- The project of the file a type is declared in. -/
def ownerProject (owner : Str) : Str := projectOf ((findRow index owner).map DefRow.file |>.getD [])

/-- `verified_member_edges`: the uses of the type's members whose line holds the member's name,
and which, in a TypeScript file, name the member. -/
def verifiedMemberEdges (owner name : Str) : List Ranked :=
  let byMember := (findRow index owner).any fun d => isScript d.file
  let uses := (inboundOf index owner index.inbound .usesMember).map (⟨.usesMember, ·, false, 0⟩) ++
    (inboundOf index owner index.heuristicInbound .usesMember).map (⟨.usesMember, ·, true, 0⟩)
  let kept := uses.filter fun r : Ranked => !(byMember && r.row.member != some name) &&
    lineHasToken (cachedLine disk r.row.edge.loc.1 r.row.edge.loc.2) name
  kept.insertionSort fun a b =>
    rankLe (fun r => projectOf r.row.edge.loc.1 != ownerProject index owner) a b = true

/-- `member_dispatch_edges`: the implementations and overrides that name the member. -/
def memberDispatchEdges (owner name : Str) : List Ranked :=
  let hits := [Slot.implements, .overrides].flatMap fun slot =>
    ((inboundOf index owner index.inbound slot).filter fun r => r.member == some name).map
      (⟨slot, ·, false, 0⟩)
  hits.insertionSort fun a b : Ranked => locLe a.row.edge b.row.edge = true

/-- A type that declares the member, with what refers to it there. -/
structure MemberGroup where
  owner : Str
  sites : List DefSite
  kept : List Ranked
  hits : List Ranked

def MemberGroup.answers (g : MemberGroup) : Bool := !g.kept.isEmpty || !g.hits.isEmpty

def memberGroup (name : Str) (o : Str × List DefSite) : MemberGroup :=
  ⟨o.1, o.2, verifiedMemberEdges index disk isScript o.1 name, memberDispatchEdges index o.1 name⟩

/-- `member_group_model`; `budget` rows are left for the uses. -/
def memberGroupModel (seed name : Str) (budget : Nat) (g : MemberGroup) : RefsModel :=
  let rows := tagInboundRows ((g.kept.take budget).map (inboundRow disk))
  let hits := fun slot : Slot =>
    tagInboundRows ((g.hits.filter (·.slot = slot)).map (inboundRow disk))
  { query := seed
    id := g.owner ++ ['.'] ++ name
    kind := "member".toList
    sites := g.sites
    inbound := fun slot =>
      match slot with
      | .usesMember => ⟨g.kept.length, g.kept.length - rows.length, rows⟩
      | .implements => ⟨(hits .implements).length, 0, hits .implements⟩
      | .overrides => ⟨(hits .overrides).length, 0, hits .overrides⟩
      | _ => .empty
    outbound := none
    ambiguousInbound := .empty
    ambiguousOutbound := .empty
    bus := .empty
    manifestGap := index.flaggedFiles.length
    memberRefs := none }

inductive MemberRefsOutcome where
  | models (ms : List RefsModel)
  | ambiguous (candidates : List MemberCandidate)

/-- The models of some groups, which share one budget. -/
def memberModels (seed name : Str) : Nat → List MemberGroup → List RefsModel
  | _, [] => []
  | budget, g :: gs =>
      memberGroupModel index disk seed name budget g ::
        memberModels seed name (budget - min budget g.kept.length) gs

/-- `member_refs_from_owners`: where a type has references to show, those with none are left
out; two that remain are a refusal. -/
def memberRefsFromOwners (seed name : Str) (owners : List (Str × List DefSite)) (inboundCap : Nat) :
    Option MemberRefsOutcome :=
  if owners.isEmpty then none
  else
    let all := owners.map (memberGroup index disk isScript name)
    let groups := if all.any MemberGroup.answers then all.filter MemberGroup.answers else all
    if 1 < groups.length then
      some (.ambiguous (memberCandidates (groups.map fun g => (g.owner, g.sites)) name))
    else some (.models (memberModels index disk seed name inboundCap groups))

/-- `build_member_refs_models`. -/
def buildMemberRefsModels (seed : Str) (inboundCap : Nat) : Option MemberRefsOutcome :=
  let (name, qualifier) := splitMemberSeed seed
  memberRefsFromOwners index disk isScript seed name
    (qualifiedMemberOwners index.artifact name qualifier) inboundCap

end MemberRefs

/-! ## The verbs -/

inductive RefsResult where
  | resolved (m : RefsModel)
  | ambiguous (ids : List Str)
  | members (ms : List RefsModel)
  | memberAmbiguous (candidates : List MemberCandidate)
  | notFound

/-- What the verbs of an index are run with: the files, the lower case of a text, and which
files are TypeScript. -/
structure Surroundings where
  disk : Disk
  lower : Str → Str
  isScript : Str → Bool

section Verbs

variable (index : QueryIndex) (env : Surroundings)

/-- `build_refs_model_inner`; it stops where a resolved id is not carried. -/
def buildRefsModelInner (query : Str) (o : RefsOptions) : Option RefsResult :=
  match resolveSymbol index.artifact.defs env.lower query with
  | .resolved id => (refsModelFor index env.disk query id o).map .resolved
  | .ambiguous ids => some (.ambiguous ids)
  | .notFound =>
      match buildMemberRefsModels index env.disk env.isScript query o.inboundCap with
      | some (.models ms) => some (.members ms)
      | some (.ambiguous candidates) => some (.memberAmbiguous candidates)
      | none =>
          match resolveLocalSymbol index.artifact.defs env.lower query with
          | .resolved id => (refsModelFor index env.disk query id o).map .resolved
          | .ambiguous ids => some (.ambiguous ids)
          | .notFound => some .notFound

structure ReadSpan where
  file : Str
  startLine : Nat
  endLine : Nat
  source : List Str
  deriving DecidableEq

/-- `read_span`: the lines of the declaration, as far as the file has them. -/
def readSpan (disk : Disk) (sites : List DefSite) (endLine : Nat) : Option ReadSpan := do
  let site ← sites.head?
  if endLine < site.line then none
  let lines ← disk site.file
  if site.line < 1 ∨ lines.length < site.line then none
  let last := min endLine lines.length
  let first ← lines[site.line - 1]?
  let first := if site.line = 1 then stripBom first else first
  some ⟨site.file, site.line, last, first :: (lines.take last).drop site.line⟩

structure ReadModel where
  refs : RefsModel
  span : Option ReadSpan

inductive ReadResult where
  | resolved (m : ReadModel)
  | members (ms : List RefsModel)
  | ambiguous (ids : List Str)
  | memberAmbiguous (candidates : List MemberCandidate)
  | notFound

/-- `read_result_from_refs`. -/
def readResultFromRefs : RefsResult → ReadResult
  | .resolved m =>
      let endLine := ((findRow index m.id).map DefRow.endLine).getD 0
      .resolved ⟨m, if 0 < endLine then readSpan env.disk m.sites endLine else none⟩
  | .members ms => .members ms
  | .ambiguous ids => .ambiguous ids
  | .memberAmbiguous candidates => .memberAmbiguous candidates
  | .notFound => .notFound

/-- `build_read_model`, with the default caps. -/
def buildReadModel (query : Str) : Option ReadResult :=
  (buildRefsModelInner index env query
    { out := false, cap := 50, inboundCap := 30, outboundCap := 30, allOut := false
      excludeSelfInbound := true }).map (readResultFromRefs index env)

end Verbs

/-! ## The seed of the walk -/

inductive SeedKind where
  | file
  | symbol
  deriving DecidableEq

inductive SeedResolution where
  | resolved (kind : SeedKind) (ids : List Str)
  | ambiguous (kind : SeedKind) (ids : List Str)
  | notFound (kind : SeedKind)
  | memberAmbiguous (candidates : List MemberCandidate)
  deriving DecidableEq

/-- `looks_like_file_path`: a slash, or letters and digits alone behind the last dot. -/
def looksLikeFilePath (arg : Str) : Bool :=
  arg.contains '/' ||
    match Text.rsplit '.' arg with
    | some (_, ext) => !ext.isEmpty && ext.all Char.isAlphanum
    | none => false

section Seed

variable (a : Artifact) (lower : Str → Str)

/-- `by_file`: the ids of the definitions declared in a file. -/
def idsByFile (file : Str) : List Str :=
  (a.defs.filter fun d => d.file == file || d.alsoIn.any fun s => s.file == file).map DefRow.id

/-- `member_fallback`. -/
def memberFallback (arg : Str) (missed : SeedKind) : SeedResolution :=
  match resolveMemberSeed a arg with
  | .resolved id => .resolved .symbol [id]
  | .ambiguous candidates => .memberAmbiguous candidates
  | .notFound =>
      match resolveLocalSymbol a.defs lower arg with
      | .resolved id => .resolved .symbol [id]
      | .ambiguous ids => .ambiguous .symbol ids
      | .notFound => .notFound missed

/-- `resolve_impact_seed`. -/
def resolveImpactSeed (arg : Str) : SeedResolution :=
  if (byId a.defs arg).isSome then .resolved .symbol [arg]
  else if looksLikeFilePath arg then
    match idsByFile a arg with
    | [] => memberFallback a lower arg .file
    | ids => .resolved .file ids
  else
    match resolveSymbol a.defs lower arg with
    | .resolved id => .resolved .symbol [id]
    | .ambiguous ids => .ambiguous .symbol ids
    | .notFound => memberFallback a lower arg .symbol

end Seed

end Answers

end Devscout.Query
