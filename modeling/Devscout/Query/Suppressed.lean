/-
# Devscout.Query.Suppressed -- leaving a kind of edge out

The bus hops and the dispatch edges, that is `implements` and `overrides`, can each be left
out of an index. A bus hop that is left out is never looked at, so the answers are those of
the graph without it. A dispatch edge is looked at once before the option is asked: its two
files are held against the manifest, and the one is counted among the files that refer to the
other. So the tables are those of the graph without dispatch edges, and what can still tell
is the number of files that the manifest lacks, and the hub brake.
-/

import Devscout.Query.Coverage
import Devscout.Query.Recount

namespace Devscout.Query

open Lib

/-- The repository without the edges of a kind. -/
def Artifact.without (a : Artifact) (dropped : Edge → Bool) : Artifact :=
  { a with edges := a.edges.filter fun e => !dropped e.edge }

/-- The index with other edges behind it, other referrers and other flags, and with the tables
it has. -/
def QueryIndex.retold (y : QueryIndex) (edges : List EdgeRow) (referrers : List (Str × Str))
    (flaggedFiles : List Str) : QueryIndex :=
  { y with
    artifact := { y.artifact with edges := edges }
    reach := y.reach.recount (edges.map EdgeRow.edge) referrers
    flaggedFiles := flaggedFiles }

namespace Answers

/-! ## Options -/

/-- `IndexOptions::default`. -/
def defaultOptions : IndexOptions where
  includeGuesses := true
  includeDispatch := true
  includeBus := true

/-- `--no-dispatch`. -/
def noDispatch : IndexOptions := { defaultOptions with includeDispatch := false }

/-- `--no-bus`. -/
def noBus : IndexOptions := { defaultOptions with includeBus := false }

def isDispatchEdge : Edge → Bool
  | .implements .. => true
  | .overrides .. => true
  | _ => false

def isBusEdge : Edge → Bool
  | .busHop .. => true
  | _ => false

/-! ## Leaving out is removing -/

section Verbs

variable (env : Surroundings) (lowerChar : Char → Str)
  (before : ImpactWalkResult → ImpactRow → ImpactRow → Bool)

/-- Whatever is asked of them, two indexes answer the same. -/
structure SameAnswers (x y : QueryIndex) : Prop where
  refs : ∀ query o, buildRefsModelInner x env query o = buildRefsModelInner y env query o
  tests : ∀ query, buildTestsModel x env lowerChar query = buildTestsModel y env lowerChar query
  impact : ∀ arg hops cap settings, buildImpactModel x env before arg hops cap settings =
    buildImpactModel y env before arg hops cap settings

/-- Leaving out either kind is removing its edges. -/
structure SuppressingRemoves (a : Artifact) (manifest : Option (List Str)) : Prop where
  dispatch : SameAnswers env lowerChar before (loadQueryIndex a manifest noDispatch)
    (loadQueryIndex (a.without isDispatchEdge) manifest defaultOptions)
  bus : SameAnswers env lowerChar before (loadQueryIndex a manifest noBus)
    (loadQueryIndex (a.without isBusEdge) manifest defaultOptions)

end Verbs

section Condition

variable (a : Artifact)

/-- A file that refers to this one by dispatch edges only. -/
def HasDispatchReferrer (f : Str) : Prop :=
  ∃ g, (∃ e ∈ a.edges, isDispatchEdge e.edge = true ∧ (f, g) ∈ (record defaultOptions e.edge).hubReferrers) ∧
    ∀ e ∈ a.edges, isDispatchEdge e.edge = false → (f, g) ∉ (record defaultOptions e.edge).hubReferrers

/-- The files of the dispatch edges are in the manifest, or something else in the graph is in
them. -/
def DispatchListed (paths : List Str) : Prop :=
  ∀ e ∈ a.edges, isDispatchEdge e.edge = true → ∀ f ∈ notedFiles defaultOptions e.edge,
    f = [] ∨ f ∈ paths ∨ (∃ d ∈ a.defs, f = d.file ∨ f ∈ d.alsoIn.map DefSite.file) ∨
      ∃ e' ∈ a.edges, isDispatchEdge e'.edge = false ∧ f ∈ notedFiles defaultOptions e'.edge

/-- What dispatch edges add to the counts shows nowhere: the manifest lacks no more files with
them, no file that some file refers to by dispatch edges only is hit in earnest, and none that
they make a hub is recorded. -/
structure DispatchUnseen (manifest : Option (List Str)) : Prop where
  listed : a.defs ≠ [] → ∀ paths, manifest = some paths → DispatchListed a paths
  earnest : ∀ d ∈ a.defs, ∀ settings f,
    SolidTouch (a.without isDispatchEdge).graph defaultOptions settings d.id f →
      ¬ HasDispatchReferrer a f
  recorded : ∀ d ∈ a.defs, ∀ settings n f,
    ReachedIn (a.without isDispatchEdge).graph defaultOptions settings [d.id] n f →
    f ∉ (loadGraphIndexWith (a.without isDispatchEdge).graph defaultOptions).defFiles d.id →
    isHub (loadGraphIndexWith a.graph noDispatch) settings.hubMaxIndegree f = true →
      isHub (loadGraphIndexWith (a.without isDispatchEdge).graph defaultOptions)
        settings.hubMaxIndegree f = true

end Condition

/-! ## The tables -/

/-- The options leave out the edges of a kind and file the others as the options they are
compared with. -/
structure LeavesOut (opts opts' : IndexOptions) (dropped : Edge → Bool) : Prop where
  kept : ∀ e, dropped e = false →
    record opts e = record opts' e ∧ heuristicOutbound opts e = heuristicOutbound opts' e
  left : ∀ e, dropped e = true → record opts e = { hubReferrers := (record opts e).hubReferrers } ∧
    heuristicOutbound opts e = [] ∧ ambiguousFrom e = []

theorem leavesOut_dispatch : LeavesOut noDispatch defaultOptions isDispatchEdge where
  kept e h := by
    cases e with
    | implements | overrides => cases h
    | _ => exact ⟨rfl, rfl⟩
  left e h := by
    cases e with
    | implements | overrides => exact ⟨rfl, rfl, rfl⟩
    | _ => cases h

theorem leavesOut_bus : LeavesOut noBus defaultOptions isBusEdge where
  kept e h := by
    cases e with
    | busHop => cases h
    | _ => exact ⟨rfl, rfl⟩
  left e h := by
    cases e with
    | busHop => exact ⟨rfl, rfl, rfl⟩
    | _ => cases h

section Tables

variable {a : Artifact} {manifest : Option (List Str)} {opts opts' : IndexOptions}
  {dropped : Edge → Bool}

/-- Rows that push nothing may as well not be there. -/
theorem flatMap_without {β : Type} {g g' : EdgeRow → List β} (edges : List EdgeRow)
    (hkept : ∀ e, dropped e.edge = false → g e = g' e) (hleft : ∀ e, dropped e.edge = true → g e = []) :
    edges.flatMap g = (edges.filter fun e => !dropped e.edge).flatMap g' := by
  induction edges with
  | nil => rfl
  | cons e edges ih =>
      rw [List.flatMap_cons, ih]
      cases he : dropped e.edge with
      | true => rw [hleft e he, List.filter_cons_of_neg (by simp [he]), List.nil_append]
      | false => rw [hkept e he, List.filter_cons_of_pos (by simp [he]), List.flatMap_cons]

theorem fileRows_without {pushed pushed' : Edge → List (Str × Slot)}
    (hkept : ∀ e, dropped e = false → pushed e = pushed' e) (hleft : ∀ e, dropped e = true → pushed e = []) :
    fileRows a.edges pushed = fileRows (a.without dropped).edges pushed' :=
  flatMap_without a.edges (fun e he => by rw [hkept e.edge he]) fun e he => by rw [hleft e.edge he]; rfl

theorem fileRowList_without {pushed pushed' : Edge → List Str}
    (hkept : ∀ e, dropped e = false → pushed e = pushed' e) (hleft : ∀ e, dropped e = true → pushed e = []) :
    fileRowList a.edges pushed = fileRowList (a.without dropped).edges pushed' :=
  flatMap_without a.edges (fun e he => by rw [hkept e.edge he]) fun e he => by rw [hleft e.edge he]; rfl

/-- What the walk reads is filed in the same order. -/
theorem flatMap_graph_without {β : Type} {g g' : Edge → List β}
    (hkept : ∀ e, dropped e = false → g e = g' e) (hleft : ∀ e, dropped e = true → g e = []) :
    a.graph.edges.flatMap g = (a.without dropped).graph.edges.flatMap g' := by
  show (a.edges.map EdgeRow.edge).flatMap g = ((a.without dropped).edges.map EdgeRow.edge).flatMap g'
  rw [List.flatMap_map, List.flatMap_map]
  exact flatMap_without a.edges (fun e => hkept e.edge) fun e => hleft e.edge

theorem loadGraphIndexWith_without (h : LeavesOut opts opts' dropped) :
    loadGraphIndexWith a.graph opts = (loadGraphIndexWith (a.without dropped).graph opts').recount
      (a.edges.map EdgeRow.edge) (loadGraphIndexWith a.graph opts).hubReferrers := by
  have hfiled : ∀ {β γ : Type} (field : Pushes → List β) (row : Edge → β → γ),
      (∀ hubs, field { hubReferrers := hubs } = []) →
      (a.graph.edges.flatMap fun e => (field (record opts e)).map (row e)) =
        (a.without dropped).graph.edges.flatMap fun e => (field (record opts' e)).map (row e) := by
    intro β γ field row hnone
    refine flatMap_graph_without (fun e he => by rw [(h.kept e he).1]) fun e he => ?_
    rw [(h.left e he).1, hnone]
    rfl
  have hsites : (a.graph.edges.flatMap fun e => (record opts e).ctorDiSites) =
      (a.without dropped).graph.edges.flatMap fun e => (record opts' e).ctorDiSites := by
    have hmapped := hfiled Pushes.ctorDiSites (fun _ site => site) fun _ => rfl
    simpa only [List.map_id'] using hmapped
  unfold GraphIndex.recount loadGraphIndexWith
  dsimp only
  rw [hsites]
  unfold fileSlots fileEdges
  rw [hfiled Pushes.inbound (fun e k => (k.1, k.2, e)) fun _ => rfl,
    hfiled Pushes.outboundByFile (fun e k => (k.1, k.2, e)) fun _ => rfl,
    hfiled Pushes.heuristicInbound (fun e k => (k.1, k.2, e)) fun _ => rfl,
    hfiled Pushes.ambiguousByCandidate (fun e k => (k, e)) fun _ => rfl,
    hfiled Pushes.ctorDiByTo (fun e k => (k, e)) fun _ => rfl]
  rfl

/-- **The tables are those of the graph without the edges**; only the referrers and the flags
are the index's own. -/
theorem loadQueryIndex_without (h : LeavesOut opts opts' dropped) :
    loadQueryIndex a manifest opts = (loadQueryIndex (a.without dropped) manifest opts').retold a.edges
      (loadGraphIndexWith a.graph opts).hubReferrers (loadQueryIndex a manifest opts).flaggedFiles := by
  have hpushed : ∀ {β : Type} (field : Pushes → List β), (∀ hubs, field { hubReferrers := hubs } = []) →
      (∀ e, dropped e = false → field (record opts e) = field (record opts' e)) ∧
      ∀ e, dropped e = true → field (record opts e) = [] := by
    intro β field hnone
    refine ⟨fun e he => by rw [(h.kept e he).1], fun e he => ?_⟩
    rw [(h.left e he).1, hnone]
  have hin := hpushed Pushes.inbound fun _ => rfl
  have hout := hpushed Pushes.outboundByFile fun _ => rfl
  have hguess := hpushed Pushes.heuristicInbound fun _ => rfl
  have hamb := hpushed Pushes.ambiguousByCandidate fun _ => rfl
  unfold QueryIndex.retold
  conv_lhs => unfold loadQueryIndex
  rw [loadGraphIndexWith_without h, fileRows_without hin.1 hin.2, fileRows_without hout.1 hout.2,
    fileRows_without hguess.1 hguess.2,
    fileRows_without (fun e he => (h.kept e he).2) fun e he => (h.left e he).2.1,
    fileRowList_without hamb.1 hamb.2,
    fileRowList_without (fun _ _ => rfl) fun e he => (h.left e he).2.2]
  rfl

end Tables

/-! ## Seeds -/

section Seeds

variable {a : Artifact} {lower : Str → Str} {id : Str}

/-- Some definition carries the id. -/
def Carried (a : Artifact) (id : Str) : Prop := ∃ d ∈ a.defs, d.id = id

theorem carried_iff : (byId a.defs id).isSome ↔ Carried a id := by
  rw [byId_isSome_iff]
  constructor
  · rintro ⟨i, hlt, rfl⟩
    exact ⟨a.defs[i], List.getElem_mem hlt, (idAt_eq (List.getElem?_eq_getElem hlt)).symm⟩
  · rintro ⟨d, hd, rfl⟩
    obtain ⟨i, hi⟩ := List.mem_iff_getElem?.mp hd
    exact ⟨i, (List.getElem?_eq_some_iff.mp hi).1, idAt_eq hi⟩

/-- A type that declares a member is one of the graph. -/
theorem carried_of_mem_owners {name : Str} {qualifier : Option Str} {o : Str × List DefSite}
    (h : o ∈ qualifiedMemberOwners a name qualifier) : Carried a o.1 := by
  have hall : ∀ rows : List GraphName, (∀ n ∈ rows, Carried a n.owner) →
      ∀ owners : OrderedMap Str (List DefSite), (owners.All fun k _ => Carried a k) →
      (rows.foldl (fun (owners : OrderedMap Str (List DefSite)) n =>
        owners.upsert n.owner [⟨n.file, n.line⟩] (· ++ [⟨n.file, n.line⟩])) owners).All
          fun k _ => Carried a k := by
    intro rows
    induction rows with
    | nil => exact fun _ _ howners => howners
    | cons n rows ih =>
        intro hrows owners howners
        have hn := hrows n List.mem_cons_self
        exact ih (fun n' hn' => hrows n' (List.mem_cons_of_mem n hn')) _
          (howners.upsert hn fun _ _ => hn)
  refine hall _ (fun n hn => ?_) _ OrderedMap.All.nil o.1 o.2 (OrderedMap.get?_eq_some_of_mem h)
  have hdeclares := (List.mem_filter.mp hn).2
  unfold declaresMember at hdeclares
  simp only [Bool.and_eq_true] at hdeclares
  exact carried_iff.mp hdeclares.1.1.2

theorem carried_of_resolveMemberSeed {seed : Str} (h : resolveMemberSeed a seed = .resolved id) :
    Carried a id := by
  unfold resolveMemberSeed at h
  dsimp only at h
  split at h
  · cases h
  · rename_i o howners
    rw [← MemberSeedResolution.resolved.inj h]
    exact carried_of_mem_owners (by rw [howners]; exact List.mem_singleton_self o)
  · cases h

theorem carried_of_memberFallback {arg : Str} {missed kind : SeedKind} {ids : List Str}
    (h : memberFallback a lower arg missed = .resolved kind ids) : ids ≠ [] ∧ ∀ id ∈ ids, Carried a id := by
  have hone : ∀ {id : Str}, Carried a id → [id] ≠ [] ∧ ∀ id' ∈ [id], Carried a id' := fun hid =>
    ⟨List.cons_ne_nil _ _, fun id' hid' => by rwa [List.mem_singleton.mp hid']⟩
  unfold memberFallback at h
  cases hmember : resolveMemberSeed a arg with
  | resolved id =>
      simp only [hmember, SeedResolution.resolved.injEq] at h
      rw [← h.2]
      exact hone (carried_of_resolveMemberSeed hmember)
  | ambiguous candidates => simp [hmember] at h
  | notFound =>
      cases hlocal : resolveLocalSymbol a.defs lower arg with
      | resolved id =>
          simp only [hmember, hlocal, SeedResolution.resolved.injEq] at h
          rw [← h.2]
          exact hone (carried_iff.mp (byId_of_resolveLocalSymbol hlocal))
      | ambiguous ids => simp [hmember, hlocal] at h
      | notFound => simp [hmember, hlocal] at h

/-- The walk starts from definitions of the graph, and from one at least. -/
theorem carried_of_resolveImpactSeed {arg : Str} {kind : SeedKind} {ids : List Str}
    (h : resolveImpactSeed a lower arg = .resolved kind ids) : ids ≠ [] ∧ ∀ id ∈ ids, Carried a id := by
  have hone : ∀ {id : Str}, Carried a id → [id] ≠ [] ∧ ∀ id' ∈ [id], Carried a id' := fun hid =>
    ⟨List.cons_ne_nil _ _, fun id' hid' => by rwa [List.mem_singleton.mp hid']⟩
  unfold resolveImpactSeed at h
  by_cases hid : (byId a.defs arg).isSome
  · rw [if_pos hid] at h
    rw [← (SeedResolution.resolved.inj h).2]
    exact hone (carried_iff.mp hid)
  · rw [if_neg hid] at h
    split_ifs at h
    · split at h
      · exact carried_of_memberFallback h
      · rename_i hids
        rw [← (SeedResolution.resolved.inj h).2]
        refine ⟨hids, fun id hid => ?_⟩
        obtain ⟨d, hd, rfl⟩ := List.mem_map.mp hid
        exact ⟨d, (List.mem_filter.mp hd).1, rfl⟩
    · cases hsymbol : resolveSymbol a.defs lower arg with
      | resolved id =>
          simp only [hsymbol, SeedResolution.resolved.injEq] at h
          rw [← h.2]
          exact hone (carried_iff.mp (byId_of_resolveSymbol hsymbol))
      | ambiguous ids => simp [hsymbol] at h
      | notFound =>
          simp only [hsymbol] at h
          exact carried_of_memberFallback h

theorem Carried.defs_ne_nil (h : Carried a id) : a.defs ≠ [] := by
  obtain ⟨d, hd, -⟩ := h
  exact List.ne_nil_of_mem hd

end Seeds

/-! ## The answers -/

section Retold

variable {y : QueryIndex} {edges : List EdgeRow} {referrers : List (Str × Str)} {flaggedFiles : List Str}
  {env : Surroundings}

theorem refsModelFor_retold
    (hgap : y.artifact.defs ≠ [] → flaggedFiles.length = y.flaggedFiles.length)
    (hbus : ∀ id cap, symbolBusRows (y.retold edges referrers flaggedFiles) id cap = symbolBusRows y id cap)
    (disk : Disk) (query id : Str) (o : RefsOptions) :
    refsModelFor (y.retold edges referrers flaggedFiles) disk query id o =
      refsModelFor y disk query id o := by
  have hrow : findRow (y.retold edges referrers flaggedFiles) id = findRow y id := rfl
  unfold refsModelFor
  rw [hrow, hbus]
  cases hfound : findRow y id with
  | none => rfl
  | some d =>
  have hcarried : Carried y.artifact id := by
    refine carried_iff.mp (Option.isSome_iff_exists.mpr ?_)
    rw [findRow, candidateDef, Option.bind_eq_some_iff] at hfound
    obtain ⟨i, hi, -⟩ := hfound
    exact ⟨i, hi⟩
  exact congrArg (fun gap => some <| RefsModel.mk query id d.kind (defSites y id)
    (inboundTables y disk d id o.excludeSelfInbound (if o.allOut then none else some o.inboundCap))
    (if o.out then some (outboundTables y disk d id (if o.allOut then none else some o.outboundCap))
      else none)
    (ambiguousTable (ambiguousInbound y id) o.cap) (ambiguousTable (ambiguousOutbound y id) o.cap)
    (symbolBusRows y id (some o.cap)) gap
    (if d.kind = "enum".toList then enumMemberRefs y id else none)) (hgap hcarried.defs_ne_nil)

theorem memberModels_retold (hgap : flaggedFiles.length = y.flaggedFiles.length) (disk : Disk)
    (seed name : Str) (budget : Nat) (gs : List MemberGroup) :
    memberModels (y.retold edges referrers flaggedFiles) disk seed name budget gs =
      memberModels y disk seed name budget gs := by
  induction gs generalizing budget with
  | nil => rfl
  | cons g gs ih =>
      rw [memberModels, memberModels, ih]
      refine congrArg (· :: _) ?_
      unfold memberGroupModel
      dsimp only
      rw [← hgap]
      rfl

theorem buildMemberRefsModels_retold
    (hgap : y.artifact.defs ≠ [] → flaggedFiles.length = y.flaggedFiles.length) (disk : Disk)
    (isScript : Str → Bool) (seed : Str) (inboundCap : Nat) :
    buildMemberRefsModels (y.retold edges referrers flaggedFiles) disk isScript seed inboundCap =
      buildMemberRefsModels y disk isScript seed inboundCap := by
  have howners : qualifiedMemberOwners (y.retold edges referrers flaggedFiles).artifact =
      qualifiedMemberOwners y.artifact := rfl
  have hgroup : memberGroup (y.retold edges referrers flaggedFiles) = memberGroup y := rfl
  unfold buildMemberRefsModels memberRefsFromOwners
  dsimp only
  rw [howners, hgroup]
  by_cases hempty : (qualifiedMemberOwners y.artifact (splitMemberSeed seed).1
      (splitMemberSeed seed).2).isEmpty = true
  · rw [if_pos hempty, if_pos hempty]
  · obtain ⟨o, ho⟩ := List.exists_mem_of_ne_nil _ fun hnil => hempty (List.isEmpty_iff.mpr hnil)
    rw [memberModels_retold (hgap (carried_of_mem_owners ho).defs_ne_nil)]

theorem buildRefsModelInner_retold
    (hgap : y.artifact.defs ≠ [] → flaggedFiles.length = y.flaggedFiles.length)
    (hbus : ∀ id cap, symbolBusRows (y.retold edges referrers flaggedFiles) id cap = symbolBusRows y id cap)
    (query : Str) (o : RefsOptions) :
    buildRefsModelInner (y.retold edges referrers flaggedFiles) env query o =
      buildRefsModelInner y env query o := by
  unfold buildRefsModelInner
  simp only [refsModelFor_retold hgap hbus, buildMemberRefsModels_retold hgap]
  rfl

theorem testsModelForId_retold
    (hbus : ∀ id cap, symbolBusRows (y.retold edges referrers flaggedFiles) id cap = symbolBusRows y id cap)
    (lowerChar : Char → Str) (id query : Str) :
    testsModelForId (y.retold edges referrers flaggedFiles) lowerChar id query =
      testsModelForId y lowerChar id query := by
  unfold testsModelForId testBusRows
  rw [hbus]
  rfl

theorem buildTestsModel_retold
    (hbus : ∀ id cap, symbolBusRows (y.retold edges referrers flaggedFiles) id cap = symbolBusRows y id cap)
    (lowerChar : Char → Str) (query : Str) :
    buildTestsModel (y.retold edges referrers flaggedFiles) env lowerChar query =
      buildTestsModel y env lowerChar query := by
  unfold buildTestsModel
  simp only [testsModelForId_retold hbus]
  rfl

theorem impactModelForSeed_recount {x : GraphIndex} {gedges : List Edge} {seedIds : List Str}
    {hops : Nat} {settings : Settings}
    (hwalk : impactWalk (x.recount gedges referrers) seedIds hops settings =
      impactWalk x seedIds hops settings) (cap : Nat) (before : ImpactRow → ImpactRow → Bool) :
    impactModelForSeed (x.recount gedges referrers) seedIds hops cap settings before =
      impactModelForSeed x seedIds hops cap settings before := by
  unfold impactModelForSeed
  rw [hwalk]
  rfl

/-- Where no bus row is shown or all are told from the same edges, two answers differ in the
flags and in the walk alone. -/
theorem sameAnswers_retold {lowerChar : Char → Str}
    {before : ImpactWalkResult → ImpactRow → ImpactRow → Bool}
    (hgap : y.artifact.defs ≠ [] → flaggedFiles.length = y.flaggedFiles.length)
    (hbus : ∀ id cap, symbolBusRows (y.retold edges referrers flaggedFiles) id cap = symbolBusRows y id cap)
    (hwalk : ∀ arg kind ids hops settings, resolveImpactSeed y.artifact env.lower arg = .resolved kind ids →
      impactWalk (y.retold edges referrers flaggedFiles).reach ids hops settings =
        impactWalk y.reach ids hops settings) :
    SameAnswers env lowerChar before (y.retold edges referrers flaggedFiles) y where
  refs query o := buildRefsModelInner_retold hgap hbus query o
  tests query := buildTestsModel_retold hbus lowerChar query
  impact arg hops cap settings := by
    have hseed : resolveImpactSeed (y.retold edges referrers flaggedFiles).artifact env.lower arg =
        resolveImpactSeed y.artifact env.lower arg := rfl
    unfold buildImpactModel
    rw [hseed]
    cases hresolved : resolveImpactSeed y.artifact env.lower arg with
    | resolved kind ids =>
        have hsame := hwalk arg kind ids hops settings hresolved
        obtain ⟨hne, hcarried⟩ := carried_of_resolveImpactSeed hresolved
        obtain ⟨id, hid⟩ := List.exists_mem_of_ne_nil ids hne
        dsimp only
        rw [hsame, show (y.retold edges referrers flaggedFiles).flaggedFiles.length = _ from
          hgap (hcarried id hid).defs_ne_nil]
        show ImpactResult.resolved ⟨kind, impactModelForSeed (y.reach.recount _ referrers) _ _ _ _ _, _⟩ = _
        rw [impactModelForSeed_recount hsame]
    | ambiguous kind ids => rfl
    | notFound kind => rfl
    | memberAmbiguous candidates => rfl

end Retold

/-! ## What the dispatch edges count for -/

section Counts

/-- Of two lists, the one in the other, as many things are distinct only if they hold the same. -/
theorem length_eraseDups_eq_iff {xs ys : List Str} (hsub : ∀ s ∈ ys, s ∈ xs) :
    xs.eraseDups.length = ys.eraseDups.length ↔ ∀ s ∈ xs, s ∈ ys := by
  constructor
  · intro hlen s hs
    have hsubset : ys.eraseDups ⊆ xs.eraseDups := fun t ht =>
      List.mem_eraseDups.mpr (hsub t (List.mem_eraseDups.mp ht))
    have hperm := (List.subperm_of_subset (nodup_eraseDups ys) hsubset).perm_of_length_le hlen.le
    exact List.mem_eraseDups.mp (hperm.mem_iff.mpr (List.mem_eraseDups.mpr hs))
  · exact fun h => length_eraseDups_congr fun s => ⟨h s, hsub s⟩

theorem length_eraseDups_le {xs ys : List Str} (hsub : ∀ s ∈ ys, s ∈ xs) :
    ys.eraseDups.length ≤ xs.eraseDups.length :=
  (List.subperm_of_subset (nodup_eraseDups ys) fun t ht =>
    List.mem_eraseDups.mpr (hsub t (List.mem_eraseDups.mp ht))).length_le

variable {a : Artifact} {manifest : Option (List Str)} {f g : Str} {settings : Settings}

/-- The index that leaves dispatch edges out, as the walk reads it. -/
def leftOut (a : Artifact) : GraphIndex := loadGraphIndexWith a.graph noDispatch

/-- The index of the graph without them. -/
def removed (a : Artifact) : GraphIndex :=
  loadGraphIndexWith (a.without isDispatchEdge).graph defaultOptions

/-- Referrers are counted before the option is asked. -/
theorem mem_leftOut_referrers : (f, g) ∈ (leftOut a).hubReferrers ↔
    ∃ e ∈ a.edges, (f, g) ∈ (record defaultOptions e.edge).hubReferrers := by
  have hrecord : ∀ e, (record noDispatch e).hubReferrers = (record defaultOptions e).hubReferrers := by
    intro e
    cases e <;> rfl
  show (f, g) ∈ (a.edges.map EdgeRow.edge).flatMap _ ↔ _
  simp only [List.flatMap_map, List.mem_flatMap, hrecord]

theorem mem_removed_referrers : (f, g) ∈ (removed a).hubReferrers ↔
    ∃ e ∈ a.edges, isDispatchEdge e.edge = false ∧ (f, g) ∈ (record defaultOptions e.edge).hubReferrers := by
  show (f, g) ∈ ((a.without isDispatchEdge).edges.map EdgeRow.edge).flatMap _ ↔ _
  simp only [List.flatMap_map, List.mem_flatMap, Artifact.without, List.mem_filter, Bool.not_eq_eq_eq_not,
    Bool.not_true, and_assoc]

theorem mem_referrersOf {index : GraphIndex} :
    g ∈ (index.hubReferrers.filter (·.1 == f)).map (·.2) ↔ (f, g) ∈ index.hubReferrers := by
  simp only [List.mem_map, List.mem_filter, beq_iff_eq]
  constructor
  · rintro ⟨⟨f', g'⟩, ⟨hmem, rfl⟩, rfl⟩
    exact hmem
  · exact fun hmem => ⟨(f, g), ⟨hmem, rfl⟩, rfl⟩

theorem removed_referrers_subset : ∀ s ∈ ((removed a).hubReferrers.filter (·.1 == f)).map (·.2),
    s ∈ ((leftOut a).hubReferrers.filter (·.1 == f)).map (·.2) := by
  intro s hs
  obtain ⟨e, he, -, hnoted⟩ := mem_removed_referrers.mp (mem_referrersOf.mp hs)
  exact mem_referrersOf.mpr (mem_leftOut_referrers.mpr ⟨e, he, hnoted⟩)

/-- The count of a file is the same unless some file refers to it by dispatch edges only. -/
theorem hubIndegree_leftOut_iff :
    (leftOut a).hubIndegree f = (removed a).hubIndegree f ↔ ¬ HasDispatchReferrer a f := by
  refine (length_eraseDups_eq_iff removed_referrers_subset).trans ?_
  simp only [mem_referrersOf, mem_leftOut_referrers, mem_removed_referrers]
  constructor
  · rintro h ⟨s, ⟨e, he, -, hnoted⟩, honly⟩
    obtain ⟨e', he', hother, hnoted'⟩ := h s ⟨e, he, hnoted⟩
    exact honly e' he' hother hnoted'
  · rintro h s ⟨e, he, hnoted⟩
    by_contra hnone
    push Not at hnone
    refine h ⟨s, ⟨e, he, ?_, hnoted⟩, hnone⟩
    by_contra hother
    exact hnone e he (Bool.eq_false_iff.mpr hother) hnoted

theorem isHub_leftOut_of_removed {max : Nat} (h : isHub (removed a) max f = true) :
    isHub (leftOut a) max f = true := by
  have hle : (removed a).hubIndegree f ≤ (leftOut a).hubIndegree f :=
    length_eraseDups_le removed_referrers_subset
  unfold isHub at h ⊢
  simp only [Bool.or_eq_true, Bool.and_eq_true, decide_eq_true_eq] at h ⊢
  exact h.imp_right fun hcount => ⟨hcount.1, hcount.2.trans hle⟩

/-- The manifest lacks as many files unless a dispatch edge has one that nothing else has. -/
theorem flagged_leftOut_iff :
    (loadQueryIndex a manifest noDispatch).flaggedFiles.length =
        (loadQueryIndex (a.without isDispatchEdge) manifest defaultOptions).flaggedFiles.length ↔
      ∀ paths, manifest = some paths → DispatchListed a paths := by
  have hnoted : ∀ e, notedFiles noDispatch e = notedFiles defaultOptions e := by
    intro e
    cases e <;> rfl
  cases manifest with
  | none => simp [loadQueryIndex, flagged]
  | some paths =>
      simp only [Option.some.injEq, forall_eq']
      have hsub : ∀ s ∈ (((a.without isDispatchEdge).defs.flatMap (fun d => d.file :: d.alsoIn.map DefSite.file) ++
            (a.without isDispatchEdge).edges.flatMap fun e => notedFiles defaultOptions e.edge).filter
              fun f => !f.isEmpty && !paths.contains f),
          s ∈ ((a.defs.flatMap (fun d => d.file :: d.alsoIn.map DefSite.file) ++
            a.edges.flatMap fun e => notedFiles noDispatch e.edge).filter
              fun f => !f.isEmpty && !paths.contains f) := by
        intro s hs
        simp only [List.mem_filter, List.mem_append, List.mem_flatMap, Artifact.without] at hs ⊢
        refine ⟨hs.1.imp_right ?_, hs.2⟩
        rintro ⟨e, ⟨he, -⟩, hs⟩
        exact ⟨e, he, by rwa [hnoted]⟩
      refine (length_eraseDups_eq_iff hsub).trans ?_
      simp only [List.mem_filter, List.mem_append, List.mem_flatMap, Artifact.without, hnoted,
        Bool.and_eq_true, Bool.not_eq_true', List.isEmpty_eq_false_iff, List.contains_eq_mem,
        decide_eq_false_iff_not, List.mem_cons]
      constructor
      · intro h e he hdispatch s hs
        by_cases hempty : s = []
        · exact Or.inl hempty
        · by_cases hpath : s ∈ paths
          · exact Or.inr (Or.inl hpath)
          · rcases (h s ⟨Or.inr ⟨e, he, hs⟩, hempty, hpath⟩).1 with hdef | ⟨e', ⟨he', hother⟩, hs'⟩
            · exact Or.inr (Or.inr (Or.inl hdef))
            · exact Or.inr (Or.inr (Or.inr ⟨e', he', hother, hs'⟩))
      · rintro h s ⟨hdef | ⟨e, he, hs⟩, hlacking⟩
        · exact ⟨Or.inl hdef, hlacking⟩
        · refine ⟨?_, hlacking⟩
          cases hkind : isDispatchEdge e.edge with
          | false => exact Or.inr ⟨e, ⟨he, hkind⟩, hs⟩
          | true =>
              rcases h e he hkind s hs with hempty | hpath | hdef | ⟨e', he', hother, hs'⟩
              · exact absurd hempty hlacking.1
              · exact absurd hpath hlacking.2
              · exact Or.inl hdef
              · exact Or.inr ⟨e', ⟨he', hother⟩, hs'⟩

theorem leftOut_eq_recount : leftOut a =
    (removed a).recount (a.edges.map EdgeRow.edge) (leftOut a).hubReferrers :=
  loadGraphIndexWith_without leavesOut_dispatch

/-! ## What walks do not see -/

/-- Every definition that a walk goes on from is one of the graph. -/
theorem carried_of_chain {dropped : Edge → Bool} {opts : IndexOptions} {s d : Str} {n : Nat}
    (hs : Carried a s) (h : Chain (· = s) (Step (a.without dropped).graph opts settings) n d) :
    Carried a d := by
  cases h with
  | here h => rwa [h]
  | next _ hstep =>
      obtain ⟨-, -, -, x, hx, rfl, -⟩ := hstep
      obtain ⟨d, hd, rfl⟩ := List.mem_map.mp hx
      exact ⟨d, hd, rfl⟩

theorem countsAlike_of_unseen (h : DispatchUnseen a manifest) {seedIds : List Str} {hops m : Nat}
    (hseeds : ∀ id ∈ seedIds, Carried a id) {hit : Str × Hit}
    (hhit : hit ∈ (hitsAt (removed a) settings seedIds hops m).entries) :
    CountsAlike (removed a) (leftOut a) settings (seedFilesOf (removed a) seedIds) hit := by
  have hget := OrderedMap.get?_eq_some_of_mem hhit
  constructor
  · intro hseed
    obtain ⟨d, hlayer, htouch⟩ := exists_hitsAt_iff.mp ⟨hit.2, hget⟩
    obtain ⟨s, hs, hchain⟩ := hlayer.1.exists_start
    obtain ⟨x, hx, rfl⟩ := hseeds s hs
    have hreached : ReachedIn (a.without isDispatchEdge).graph defaultOptions settings [x.id] (m + 1) hit.1 :=
      ⟨m, rfl, d, hchain.mono (fun e he => by rw [he]; exact List.mem_singleton_self _) fun _ _ => id, htouch⟩
    have hfile : hit.1 ∉ (removed a).defFiles x.id := fun hmem =>
      hseed (List.mem_eraseDups.mpr (List.mem_flatMap.mpr ⟨x.id, hs, hmem⟩))
    rw [Bool.eq_iff_iff]
    exact ⟨h.recorded x hx settings (m + 1) hit.1 hreached hfile, isHub_leftOut_of_removed⟩
  · intro hsolid
    obtain ⟨d, hlayer, htouch⟩ := exists_solidHit_iff.mp ⟨hit.2, hget, hsolid⟩
    obtain ⟨s, hs, hchain⟩ := hlayer.1.exists_start
    obtain ⟨x, hx, rfl⟩ := carried_of_chain (hseeds s hs) hchain
    exact hubIndegree_leftOut_iff.mpr (h.earnest x hx settings hit.1 htouch)

theorem impactWalk_of_unseen (h : DispatchUnseen a manifest) {seedIds : List Str}
    (hseeds : ∀ id ∈ seedIds, Carried a id) (hops : Nat) :
    impactWalk (leftOut a) seedIds hops settings = impactWalk (removed a) seedIds hops settings := by
  rw [leftOut_eq_recount]
  refine impactWalk_recount fun m _ hit hhit => ?_
  rw [← leftOut_eq_recount]
  exact countsAlike_of_unseen h hseeds hhit

theorem symbolBusRows_congr {x y : QueryIndex} {id : Str} {cap : Option Nat}
    (hin : x.inbound.at id .busHop = y.inbound.at id .busHop)
    (hout : outboundOf x id x.outboundByFile .busHop = outboundOf y id y.outboundByFile .busHop)
    (hrow : busHopRow x.artifact.edges = busHopRow y.artifact.edges) :
    symbolBusRows x id cap = symbolBusRows y id cap := by
  unfold symbolBusRows
  rw [hin, hout, hrow]

theorem symbolBusRows_of_none {x : QueryIndex} {id : Str} {cap : Option Nat}
    (hin : x.inbound.at id .busHop = []) (hout : outboundOf x id x.outboundByFile .busHop = []) :
    symbolBusRows x id cap = ⟨0, 0 - (capRows cap ([] : List BusHopRow)).length, capRows cap []⟩ := by
  unfold symbolBusRows
  rw [hin, hout]
  rfl

/-- The bus rows are told from the bus hops, which are still there. -/
theorem symbolBusRows_dispatch {referrers : List (Str × Str)} {flaggedFiles : List Str} (id : Str)
    (cap : Option Nat) :
    symbolBusRows ((loadQueryIndex (a.without isDispatchEdge) manifest defaultOptions).retold a.edges
        referrers flaggedFiles) id cap =
      symbolBusRows (loadQueryIndex (a.without isDispatchEdge) manifest defaultOptions) id cap := by
  have hhandlers : handlersOf a.edges = handlersOf (a.without isDispatchEdge).edges := by
    funext message
    unfold handlersOf
    refine congrArg List.eraseDups ?_
    rw [List.filterMap_eq_flatMap_toList, List.filterMap_eq_flatMap_toList]
    refine @flatMap_without isDispatchEdge _ _ _ a.edges (fun _ _ => rfl) fun e hdispatch => ?_
    cases he : e.edge with
    | implements | overrides => rfl
    | _ =>
        rw [he] at hdispatch
        cases hdispatch
  have hrow : busHopRow a.edges = busHopRow (a.without isDispatchEdge).edges := by
    funext inward r
    unfold busHopRow
    rw [hhandlers]
  exact symbolBusRows_congr rfl rfl hrow

/-! ## Bus hops leave nothing -/

/-- Only a bus hop is filed as one. -/
theorem isBusEdge_of_inbound {opts : IndexOptions} {e : Edge} {id : Str}
    (h : (id, Slot.busHop) ∈ (record opts e).inbound) : isBusEdge e = true := by
  cases e with
  | busHop => rfl
  | inherits | usesType | usesMember => cases (mem_recordReference_inbound.mp h).2.2
  | imports | ambiguous | ctorDi => cases h
  | call | jsxUse | dispatch => cases (mem_recordTsEdge_inbound.mp h).2
  | implements | overrides => cases (mem_recordDispatchEdge_inbound.mp h).2.2
  | import_ => cases (mem_record_import.mp h).2

theorem isBusEdge_of_outbound {opts : IndexOptions} {e : Edge} {file : Str}
    (h : (file, Slot.busHop) ∈ (record opts e).outboundByFile) : isBusEdge e = true := by
  cases e with
  | busHop => rfl
  | inherits | usesType | usesMember => cases (mem_recordReference_outbound.mp h).2.2
  | imports => simp [record] at h
  | ambiguous | ctorDi => cases h
  | call | jsxUse | dispatch => simp [record, recordTsEdge] at h
  | implements | overrides => cases (mem_recordDispatchEdge_outbound.mp h).2.2
  | import_ =>
      unfold record at h
      dsimp only at h
      split_ifs at h
      · cases h
      · simp [recordTsEdge] at h

theorem symbolBusRows_bus {edges : List EdgeRow} {referrers : List (Str × Str)} {flaggedFiles : List Str}
    (id : Str) (cap : Option Nat) :
    symbolBusRows ((loadQueryIndex (a.without isBusEdge) manifest defaultOptions).retold edges
        referrers flaggedFiles) id cap =
      symbolBusRows (loadQueryIndex (a.without isBusEdge) manifest defaultOptions) id cap := by
  have hempty : ∀ (pushed : Edge → List (Str × Slot)) (key : Str),
      (∀ e, (key, Slot.busHop) ∈ pushed e → isBusEdge e = true) →
      RowTable.at (fileRows (a.without isBusEdge).edges pushed) key .busHop = [] := by
    intro pushed key hbus
    unfold RowTable.at fileRows
    rw [List.map_eq_nil_iff, List.filter_eq_nil_iff]
    intro row hrow hkey
    obtain ⟨e, he, k, hk, rfl⟩ : ∃ e ∈ (a.without isBusEdge).edges, ∃ k ∈ pushed e.edge, (k.1, k.2, e) = row := by
      obtain ⟨e, he, hrow⟩ := List.mem_flatMap.mp hrow
      obtain ⟨k, hk, heq⟩ := List.mem_map.mp hrow
      exact ⟨e, he, k, hk, heq⟩
    simp only [Bool.and_eq_true, beq_iff_eq] at hkey
    have hother := (List.mem_filter.mp he).2
    rw [hbus e.edge (by rw [← hkey.1, ← hkey.2]; exact hk)] at hother
    cases hother
  have hin : RowTable.at (loadQueryIndex (a.without isBusEdge) manifest defaultOptions).inbound id .busHop =
      [] := hempty _ id fun e => isBusEdge_of_inbound
  have hout : outboundOf (loadQueryIndex (a.without isBusEdge) manifest defaultOptions) id
      (loadQueryIndex (a.without isBusEdge) manifest defaultOptions).outboundByFile .busHop = [] :=
    List.flatMap_eq_nil_iff.mpr fun file _ => hempty _ file fun e => isBusEdge_of_outbound
  rw [symbolBusRows_of_none hin hout]
  exact symbolBusRows_of_none hin hout

end Counts

/-! ## When leaving out is removing -/

section Main

variable {a : Artifact} {manifest : Option (List Str)} {env : Surroundings} {lowerChar : Char → Str}
  {before : ImpactWalkResult → ImpactRow → ImpactRow → Bool} {settings : Settings} {f : Str}

/-- Bus hops are never looked at, so nothing of them is left. -/
theorem sameAnswers_bus : SameAnswers env lowerChar before (loadQueryIndex a manifest noBus)
    (loadQueryIndex (a.without isBusEdge) manifest defaultOptions) := by
  have hreferrers : (loadGraphIndexWith a.graph noBus).hubReferrers =
      (loadGraphIndexWith (a.without isBusEdge).graph defaultOptions).hubReferrers :=
    flatMap_graph_without (fun e he => by rw [(leavesOut_bus.kept e he).1]) fun e he => by
      cases e with
      | busHop => rfl
      | _ => cases he
  have hflagged : (loadQueryIndex a manifest noBus).flaggedFiles =
      (loadQueryIndex (a.without isBusEdge) manifest defaultOptions).flaggedFiles := by
    have hnoted : (a.edges.flatMap fun e => notedFiles noBus e.edge) =
        (a.without isBusEdge).edges.flatMap fun e => notedFiles defaultOptions e.edge := by
      refine flatMap_without a.edges (fun e hbus => ?_) fun e hbus => ?_
      · cases he : e.edge with
        | busHop =>
            rw [he] at hbus
            cases hbus
        | _ => rfl
      · cases he : e.edge with
        | busHop => rfl
        | _ =>
            rw [he] at hbus
            cases hbus
    show flagged manifest (_ ++ _) = flagged manifest (_ ++ _)
    rw [hnoted]
    rfl
  rw [loadQueryIndex_without leavesOut_bus]
  refine sameAnswers_retold (fun _ => congrArg List.length hflagged) symbolBusRows_bus ?_
  intro arg kind ids hops settings _
  refine impactWalk_recount fun m _ hit _ => ?_
  have hcount : ∀ f, (((loadQueryIndex (a.without isBusEdge) manifest defaultOptions).reach.recount
      (a.edges.map EdgeRow.edge) (loadGraphIndexWith a.graph noBus).hubReferrers)).hubIndegree f =
      (loadQueryIndex (a.without isBusEdge) manifest defaultOptions).reach.hubIndegree f := by
    intro f
    rw [hreferrers]
    rfl
  exact ⟨fun _ => isHub_congr (hcount hit.1), fun _ => hcount hit.1⟩

theorem sameAnswers_dispatch (h : DispatchUnseen a manifest) :
    SameAnswers env lowerChar before (loadQueryIndex a manifest noDispatch)
      (loadQueryIndex (a.without isDispatchEdge) manifest defaultOptions) := by
  have hgap : (loadQueryIndex (a.without isDispatchEdge) manifest defaultOptions).artifact.defs ≠ [] →
      (loadQueryIndex a manifest noDispatch).flaggedFiles.length =
        (loadQueryIndex (a.without isDispatchEdge) manifest defaultOptions).flaggedFiles.length :=
    fun hdefs => flagged_leftOut_iff.mpr (h.listed hdefs)
  rw [loadQueryIndex_without leavesOut_dispatch]
  refine sameAnswers_retold hgap symbolBusRows_dispatch ?_
  intro arg kind ids hops settings hresolved
  show impactWalk ((removed a).recount (a.edges.map EdgeRow.edge) (leftOut a).hubReferrers) _ _ _ = _
  rw [← leftOut_eq_recount]
  exact impactWalk_of_unseen h (carried_of_resolveImpactSeed hresolved).2 hops

/-! What the answers about an id give away. -/

theorem buildImpactModel_of_carried {z : QueryIndex} {id : Str} (h : Carried z.artifact id) (hops cap : Nat) :
    buildImpactModel z env before id hops cap settings =
      .resolved ⟨.symbol, impactModelForSeed z.reach [id] hops cap settings
        (before (impactWalk z.reach [id] hops settings)), z.flaggedFiles.length⟩ := by
  have hseed : resolveImpactSeed z.artifact env.lower id = .resolved .symbol [id] :=
    if_pos (carried_iff.mpr h)
  unfold buildImpactModel
  rw [hseed]

theorem impact_of_same {x y : QueryIndex} (h : SameAnswers env lowerChar before x y) {id : Str}
    (hx : Carried x.artifact id) (hy : Carried y.artifact id) (hops cap : Nat) (settings : Settings) :
    impactModelForSeed x.reach [id] hops cap settings (before (impactWalk x.reach [id] hops settings)) =
      impactModelForSeed y.reach [id] hops cap settings (before (impactWalk y.reach [id] hops settings)) ∧
    x.flaggedFiles.length = y.flaggedFiles.length := by
  have hsame := h.impact id hops cap settings
  rw [buildImpactModel_of_carried hx, buildImpactModel_of_carried hy] at hsame
  have hanswer := ImpactResult.resolved.inj hsame
  exact ⟨congrArg ImpactAnswer.model hanswer, congrArg ImpactAnswer.manifestGap hanswer⟩

theorem brakedFiles_impactModelForSeed (index : GraphIndex) (seedIds : List Str) (hops cap : Nat)
    (settings : Settings) (order : ImpactRow → ImpactRow → Bool) :
    (impactModelForSeed index seedIds hops cap settings order).brakedFiles =
      (impactWalk index seedIds hops settings).brakedFiles := rfl

theorem impact_leftOut
    (h : SameAnswers env lowerChar before (loadQueryIndex a manifest noDispatch)
      (loadQueryIndex (a.without isDispatchEdge) manifest defaultOptions)) {d : Str} (hd : Carried a d)
    (hops cap : Nat) (settings : Settings) :
    impactModelForSeed (leftOut a) [d] hops cap settings
        (before (impactWalk (leftOut a) [d] hops settings)) =
      impactModelForSeed (removed a) [d] hops cap settings
        (before (impactWalk (removed a) [d] hops settings)) :=
  (impact_of_same h hd hd hops cap settings).1

/-- The settings under which every file that another one refers to is a hub. -/
def leastHub (settings : Settings) : Settings := { settings with hubMaxIndegree := 1 }

/-- What an edge leads to does not depend on the hub brake. -/
theorem Refers.leastHub {graph : Graph} {opts : IndexOptions} {d : Str} {solid : Bool}
    {hop : Option BusOrigin} (h : Refers graph opts settings d f solid hop) :
    Refers graph opts (leastHub settings) d f solid hop := by
  cases h with
  | precise he h hfile => exact .precise he h hfile
  | ambiguous he h => exact .ambiguous he h
  | handles he hbus hfile => exact .handles he hbus hfile
  | injects he hiface hbrake => exact .injects he hiface hbrake
  | interface he h hfile hiface himpl hbrake => exact .interface he h hfile hiface himpl hbrake
  | guess he h hfile => exact .guess he h hfile

/-- A hub that is hit in earnest is reported with its count. -/
theorem hubIndegree_of_same
    (h : SameAnswers env lowerChar before (loadQueryIndex a manifest noDispatch)
      (loadQueryIndex (a.without isDispatchEdge) manifest defaultOptions)) {d : Str} (hd : Carried a d)
    (htouch : SolidTouch (a.without isDispatchEdge).graph defaultOptions settings d f) :
    (leftOut a).hubIndegree f = (removed a).hubIndegree f := by
  by_cases hzero : (leftOut a).hubIndegree f = 0
  · have hle : (removed a).hubIndegree f ≤ (leftOut a).hubIndegree f :=
      length_eraseDups_le removed_referrers_subset
    omega
  · -- two hops from the definition, under the least bound there is
    obtain ⟨hop, hrefers⟩ := htouch
    have hhit : ∃ hit, (hitsAt (removed a) (leastHub settings) [d] 2 0).get? f = some hit ∧
        hit.onlyGuessed = false := exists_solidHit_iff.mpr
      ⟨d, layer_zero.mpr (List.mem_singleton_self d), hop, Refers.leastHub hrefers⟩
    have hhits : hitsAt (leftOut a) (leastHub settings) [d] 2 0 =
        hitsAt (removed a) (leastHub settings) [d] 2 0 := by
      rw [leftOut_eq_recount]
      rfl
    have hhub : isHub (leftOut a) 1 f = true := by
      unfold isHub
      simp only [Bool.or_eq_true, Bool.and_eq_true, decide_eq_true_eq]
      exact Or.inr ⟨Nat.one_pos, Nat.one_le_iff_ne_zero.mpr hzero⟩
    have hreported : ∃ b ∈ (impactWalk (leftOut a) [d] 2 (leastHub settings)).brakedFiles, b.file = f :=
      exists_brakedFile_iff.mpr ⟨hhub, 0, Nat.one_lt_two, by rwa [hhits]⟩
    obtain ⟨b, hb, rfl⟩ := hreported
    have hreports := congrArg ImpactModel.brakedFiles (impact_leftOut h hd 2 0 (leastHub settings))
    rw [brakedFiles_impactModelForSeed, brakedFiles_impactModelForSeed] at hreports
    have hb' := hb
    rw [hreports] at hb'
    rw [← indegree_of_mem_brakedFiles hb, ← indegree_of_mem_brakedFiles hb']

/-- Every file of the walk has a row, and no other file has one. -/
theorem mem_rows_iff {index : GraphIndex} {seedIds : List Str} {hops : Nat}
    {order : ImpactRow → ImpactRow → Bool} {row : ImpactRow} {cap : Nat}
    (hcap : (impactWalk index seedIds hops settings).visited.entries.length ≤ cap) :
    row ∈ (impactModelForSeed index seedIds hops cap settings order).rows ↔
      ∃ v, (impactWalk index seedIds hops settings).visited.get? row.file = some v ∧
        impactRow index row.file v = row := by
  unfold impactModelForSeed
  dsimp only
  rw [List.take_of_length_le (by simpa using hcap), (List.perm_insertionSort _ _).mem_iff, List.mem_map]
  constructor
  · rintro ⟨e, he, rfl⟩
    exact ⟨e.2, OrderedMap.get?_eq_some_of_mem he, rfl⟩
  · rintro ⟨v, hv, heq⟩
    exact ⟨(row.file, v), OrderedMap.mem_of_get?_eq_some hv, heq⟩

/-- A row says whether its file is a hub. -/
theorem isHub_of_same
    (h : SameAnswers env lowerChar before (loadQueryIndex a manifest noDispatch)
      (loadQueryIndex (a.without isDispatchEdge) manifest defaultOptions)) {d : Str} {n : Nat}
    (hd : Carried a d)
    (hreached : ReachedIn (a.without isDispatchEdge).graph defaultOptions settings [d] n f)
    (hfile : f ∉ (removed a).defFiles d) :
    isHub (leftOut a) settings.hubMaxIndegree f = isHub (removed a) settings.hubMaxIndegree f := by
  have hseed : f ∉ seedFilesOf (removed a) [d] := by
    unfold seedFilesOf
    simpa using hfile
  obtain ⟨v, hv⟩ := exists_visited_iff.mpr ⟨hseed, n, le_rfl, hreached⟩
  -- a cap that neither walk reaches
  obtain ⟨cap, hcap, hcap'⟩ : ∃ cap,
      (impactWalk (leftOut a) [d] n settings).visited.entries.length ≤ cap ∧
      (impactWalk (removed a) [d] n settings).visited.entries.length ≤ cap :=
    ⟨_, Nat.le_add_right _ _, Nat.le_add_left _ _⟩
  have hrow : impactRow (removed a) f v ∈ (impactModelForSeed (removed a) [d] n cap settings
      (before (impactWalk (removed a) [d] n settings))).rows := (mem_rows_iff hcap').mpr ⟨v, hv, rfl⟩
  rw [← impact_leftOut h hd] at hrow
  obtain ⟨v', hv', heq⟩ := (mem_rows_iff hcap).mp hrow
  have hinfra : v'.infra = v.infra := congrArg ImpactRow.infra heq
  obtain ⟨-, m, -, -, hit, -, rfl⟩ := visited_impactWalk_iff.mp hv
  obtain ⟨-, m', -, -, hit', -, rfl⟩ := visited_impactWalk_iff.mp hv'
  exact hinfra

end Main

/-- **When leaving a kind of edge out is removing its edges.** For bus hops always. For
dispatch edges exactly when what they add to the counts of the index shows nowhere. -/
theorem suppressingRemoves_iff (env : Surroundings) (lowerChar : Char → Str)
    (before : ImpactWalkResult → ImpactRow → ImpactRow → Bool) (a : Artifact)
    (manifest : Option (List Str)) :
    SuppressingRemoves env lowerChar before a manifest ↔ DispatchUnseen a manifest := by
  constructor
  · rintro ⟨h, -⟩
    refine ⟨fun hdefs => ?_, fun d hd settings f htouch => ?_, fun d hd settings n f hreached hfile hhub => ?_⟩
    · obtain ⟨d, hd⟩ := List.exists_mem_of_ne_nil _ hdefs
      exact flagged_leftOut_iff.mp (impact_of_same h ⟨d, hd, rfl⟩ ⟨d, hd, rfl⟩ 0 0 ⟨true, 0, 0⟩).2
    · exact hubIndegree_leftOut_iff.mp (hubIndegree_of_same h ⟨d, hd, rfl⟩ htouch)
    · exact (isHub_of_same h ⟨d, hd, rfl⟩ hreached hfile).symm.trans hhub
  · exact fun h => ⟨sameAnswers_dispatch h, sameAnswers_bus⟩

/-! ## An interface that is only implemented -/

/-- The interface uses a type, and nothing but its implementation refers to the interface. -/
def implementedOnly : Artifact where
  defs :=
    [{ id := "Customer".toList, name := "Customer".toList, kind := "class".toList
       file := "customer.cs".toList, line := 1 },
      { id := "IOrder".toList, name := "IOrder".toList, kind := "interface".toList
        file := "iorder.cs".toList, line := 1 },
      { id := "Order".toList, name := "Order".toList, kind := "class".toList
        file := "order.cs".toList, line := 1 }]
  names := []
  edges :=
    [⟨.usesType "iorder.cs".toList 2 "Customer".toList "customer.cs".toList false, none, [], 0⟩,
      ⟨.implements "order.cs".toList 1 "IOrder".toList "iorder.cs".toList, none, [], 0⟩]
  unitIsTest _ := false

def bareSurroundings : Surroundings where
  disk _ := none
  lower := toLowercase
  isScript _ := false

def ImpactResult.reported : ImpactResult → List BrakedFile
  | .resolved answer => answer.model.brakedFiles
  | _ => []

/-- With the bound at one, the interface's file is a hub under `--no-dispatch`, and without the
edge it is none. -/
theorem implementedOnly_not_removed :
    ¬ SuppressingRemoves bareSurroundings (fun c => [c.toLower]) (fun _ _ _ => true) implementedOnly
      none := by
  intro h
  have hsame := congrArg ImpactResult.reported (h.dispatch.impact "Customer".toList 2 10 ⟨true, 8, 1⟩)
  revert hsame
  delta implementedOnly
  repeat rw [String.toList_ofList]
  decide +kernel

end Answers

end Devscout.Query
