/-
# Devscout.Query.Next -- the commands an answer suggests

An answer ends with the commands to run next, each a verb and its argument. A candidate is
kept only where the resolver of the suggested verb finds one target for it, so whatever is
suggested can be run: the verb answers about one definition, or about one member.
-/

import Devscout.Lib.Distinct
import Devscout.Query.Coverage

namespace Devscout.Query

open Lib

namespace Answers

/-! ## Suggestions -/

/-- A verb and its argument, as they are typed. -/
abbrev NextArgv := List Str

def argv (verb arg : Str) : NextArgv := [verb, arg]

section Filters

variable (a : Artifact) (lower : Str → Str)

/-- `symbol_target_resolves`: the ladder that `refs`, `read` and `tests` share. -/
def symbolTargetResolves (seed : Str) : Bool :=
  match resolveSymbol a.defs lower seed with
  | .resolved _ => true
  | .ambiguous _ => false
  | .notFound =>
      match resolveMemberSeed a seed with
      | .resolved _ => true
      | .ambiguous _ => false
      | .notFound =>
          match resolveLocalSymbol a.defs lower seed with
          | .resolved _ => true
          | _ => false

/-- `impact_target_resolves`. -/
def impactTargetResolves (seed : Str) : Bool :=
  match resolveImpactSeed a lower seed with
  | .resolved _ _ => true
  | _ => false

end Filters

/-- `reads_as_a_seed`: a verb takes an argument that starts with two dashes for a flag. -/
def readsAsASeed (argv : NextArgv) : Bool :=
  (argv.drop 1).all fun arg => !("--".toList.isPrefixOf arg)

/-- `dedup`. -/
def dedup (candidates : List NextArgv) : List NextArgv :=
  candidates.foldl (fun out c => if !readsAsASeed c || out.contains c then out else out ++ [c]) []

/-- `merge_suggestions`. -/
def mergeSuggestions (lists : List (List NextArgv)) : List NextArgv := dedup lists.flatten

section Suggest

variable (index : QueryIndex) (env : Surroundings)

/-- `refs_next`: the tests of the symbol, then the blast radius of its file. -/
def refsNext (model : RefsModel) : List NextArgv :=
  dedup
    ((if symbolTargetResolves index.artifact env.lower model.id then
        [argv "tests".toList model.id]
      else []) ++
      match model.sites.head? with
      | none => []
      | some site =>
          if impactTargetResolves index.artifact env.lower site.file then
            [argv "impact".toList site.file]
          else [])

/-- `tests_next`. -/
def testsNext (model : TestsModel) : List NextArgv :=
  match findRow index model.symbol with
  | none => []
  | some d =>
      if impactTargetResolves index.artifact env.lower d.file then
        dedup [argv "impact".toList d.file]
      else []

/-- `impact_next`: the references of the first symbol of the first row. -/
def impactNext (model : ImpactModel) : List NextArgv :=
  match model.rows.head?.bind ImpactRow.topSymbolId with
  | none => []
  | some id =>
      if symbolTargetResolves index.artifact env.lower id then dedup [argv "refs".toList id] else []

/-- `kind_rank`. -/
def kindRank (kind : Str) : Nat :=
  if memberKinds.contains kind then 1
  else if ["markup-class".toList, "markup-name".toList, "markup-binding".toList].contains kind then 2
  else if kind == "resource-key".toList then 3
  else 0

/-- `declared_def`: the definition that a row of the name index declares, by its site. -/
def declaredDef (name : GraphName) : Option DefRow :=
  (index.artifact.defs.filter fun d =>
    d.file == name.file || d.alsoIn.any fun s => s.file == name.file).find? fun d =>
      d.name == name.name && (d.line == name.line ||
        d.alsoIn.any fun s => s.file == name.file && s.line == name.line)

/-- `find_next`. -/
def findNext (name : GraphName) : List NextArgv :=
  if 1 < kindRank name.kind then []
  else
    match (if name.owner.isEmpty then (declaredDef index name).map DefRow.id else some name.owner) with
    | none => []
    | some id =>
        if symbolTargetResolves index.artifact env.lower id then dedup [argv "read".toList id] else []

/-! ## What running one means -/

/-- A list of suggestions that some answer makes. -/
inductive Emitted : List NextArgv → Prop
  | refs (model : RefsModel) : Emitted (refsNext index env model)
  | tests (model : TestsModel) : Emitted (testsNext index env model)
  | impact (model : ImpactModel) : Emitted (impactNext index env model)
  | find (name : GraphName) : Emitted (findNext index env name)
  | merged {lists : List (List NextArgv)} (h : ∀ l ∈ lists, Emitted l) :
      Emitted (mergeSuggestions lists)

/-- The verb answers about one definition or one member, whatever its other options are. -/
inductive Runs : NextArgv → Prop
  | tests {arg : Str}
      (h : ∀ lowerChar, ∃ m, buildTestsModel index env lowerChar arg = .resolved m) :
      Runs ["tests".toList, arg]
  | refs {arg : Str} (h : ∀ o, ∃ m, buildRefsModelInner index env arg o = some (.resolved m) ∨
      buildRefsModelInner index env arg o = some (.members [m])) : Runs ["refs".toList, arg]
  | read {arg : Str} (h : (∃ m, buildReadModel index env arg = some (.resolved m)) ∨
      ∃ m, buildReadModel index env arg = some (.members [m])) : Runs ["read".toList, arg]
  | impact {arg : Str} (h : ∀ before hops cap settings, ∃ answer,
      buildImpactModel index env before arg hops cap settings = .resolved answer) :
      Runs ["impact".toList, arg]

end Suggest

/-! ## Every suggestion runs -/

section Runs

variable {index : QueryIndex} {env : Surroundings} {seed : Str}

/-- A seed with one target has a definition, or one type that declares the member. -/
theorem symbolTargetResolves_cases (h : symbolTargetResolves index.artifact env.lower seed = true) :
    (∃ id, resolveSymbol index.artifact.defs env.lower seed = .resolved id) ∨
      resolveSymbol index.artifact.defs env.lower seed = .notFound ∧
        ((∃ id, resolveMemberSeed index.artifact seed = .resolved id) ∨
          resolveMemberSeed index.artifact seed = .notFound ∧
            ∃ id, resolveLocalSymbol index.artifact.defs env.lower seed = .resolved id) := by
  unfold symbolTargetResolves at h
  cases hsymbol : resolveSymbol index.artifact.defs env.lower seed with
  | resolved id => exact Or.inl ⟨id, rfl⟩
  | ambiguous ids => simp [hsymbol] at h
  | notFound =>
      refine Or.inr ⟨rfl, ?_⟩
      cases hmember : resolveMemberSeed index.artifact seed with
      | resolved id => exact Or.inl ⟨id, rfl⟩
      | ambiguous candidates => simp [hsymbol, hmember] at h
      | notFound =>
          refine Or.inr ⟨rfl, ?_⟩
          cases hlocal : resolveLocalSymbol index.artifact.defs env.lower seed with
          | resolved id => exact ⟨id, rfl⟩
          | ambiguous ids => simp [hsymbol, hmember, hlocal] at h
          | notFound => simp [hsymbol, hmember, hlocal] at h

theorem tests_of_resolves (h : symbolTargetResolves index.artifact env.lower seed = true)
    (lowerChar : Char → Str) : ∃ m, buildTestsModel index env lowerChar seed = .resolved m := by
  unfold buildTestsModel
  rcases symbolTargetResolves_cases h with ⟨id, hid⟩ | ⟨hnone, ⟨id, hid⟩ | ⟨hmember, id, hid⟩⟩
  · exact ⟨_, by rw [hid]⟩
  · exact ⟨_, by rw [hnone, hid]⟩
  · exact ⟨_, by rw [hnone, hmember, hid]⟩

theorem exists_refsModelFor {id : Str} (h : (byId index.artifact.defs id).isSome) (disk : Disk)
    (query : Str) (o : RefsOptions) : ∃ m, refsModelFor index disk query id o = some m := by
  obtain ⟨i, hi⟩ := Option.isSome_iff_exists.mp h
  have hrow : findRow index id = index.artifact.defs[i]? := by
    rw [findRow, candidateDef, hi, Option.bind_some]
  rw [refsModelFor, hrow, List.getElem?_eq_getElem (idAt_of_byId hi).1]
  exact ⟨_, rfl⟩

theorem length_memberModels (disk : Disk) (name : Str) (budget : Nat) (gs : List MemberGroup) :
    (memberModels index disk seed name budget gs).length = gs.length := by
  induction gs generalizing budget with
  | nil => rfl
  | cons g gs ih => rw [memberModels, List.length_cons, ih, List.length_cons]

/-- One type that declares the member is one group, whether or not anything refers to it. -/
theorem memberRefs_singleton (disk : Disk) (isScript : Str → Bool) (name : Str)
    (o : Str × List DefSite) (inboundCap : Nat) :
    ∃ m, memberRefsFromOwners index disk isScript seed name [o] inboundCap = some (.models [m]) := by
  unfold memberRefsFromOwners
  rw [if_neg (by simp)]
  dsimp only
  set g := memberGroup index disk isScript name o with hg
  have hgroups : (if ([o].map (memberGroup index disk isScript name)).any MemberGroup.answers = true
      then ([o].map (memberGroup index disk isScript name)).filter MemberGroup.answers
      else [o].map (memberGroup index disk isScript name)) = [g] := by
    rw [List.map_singleton, ← hg]
    cases hanswers : g.answers <;> simp [hanswers]
  rw [hgroups, if_neg (by simp)]
  exact ⟨_, rfl⟩

theorem refs_of_resolves (h : symbolTargetResolves index.artifact env.lower seed = true)
    (o : RefsOptions) : ∃ m, buildRefsModelInner index env seed o = some (.resolved m) ∨
      buildRefsModelInner index env seed o = some (.members [m]) := by
  unfold buildRefsModelInner
  rcases symbolTargetResolves_cases h with ⟨id, hid⟩ | ⟨hnone, hrest⟩
  · obtain ⟨m, hm⟩ := exists_refsModelFor (byId_of_resolveSymbol hid) env.disk seed o
    exact ⟨m, Or.inl (by rw [hid]; simp only [hm, Option.map_some])⟩
  · -- both ladders read the types that declare the member off the same list
    rcases howners : qualifiedMemberOwners index.artifact (splitMemberSeed seed).1
      (splitMemberSeed seed).2 with _ | ⟨o', _ | ⟨o'', rest⟩⟩
    · have hmember : resolveMemberSeed index.artifact seed = .notFound := by
        simp only [resolveMemberSeed, howners]
      obtain ⟨id, hid⟩ : ∃ id, resolveLocalSymbol index.artifact.defs env.lower seed = .resolved id := by
        rcases hrest with ⟨id, hid⟩ | ⟨-, hlocal⟩
        · rw [hmember] at hid
          cases hid
        · exact hlocal
      obtain ⟨m, hm⟩ := exists_refsModelFor (byId_of_resolveLocalSymbol hid) env.disk seed o
      refine ⟨m, Or.inl ?_⟩
      simp only [hnone, buildMemberRefsModels, howners, memberRefsFromOwners, List.isEmpty_nil, if_true,
        hid, hm, Option.map_some]
    · obtain ⟨m, hm⟩ := @memberRefs_singleton index seed env.disk env.isScript
        (splitMemberSeed seed).1 o' o.inboundCap
      refine ⟨m, Or.inr ?_⟩
      simp only [hnone, buildMemberRefsModels, howners, hm]
    · have hmember : ∃ candidates, resolveMemberSeed index.artifact seed = .ambiguous candidates :=
        ⟨memberCandidates (o' :: o'' :: rest) (splitMemberSeed seed).1,
          by simp only [resolveMemberSeed, howners]⟩
      obtain ⟨candidates, hmember⟩ := hmember
      rcases hrest with ⟨id, hid⟩ | ⟨hmiss, -⟩
      · rw [hmember] at hid
        cases hid
      · rw [hmember] at hmiss
        cases hmiss

theorem read_of_resolves (h : symbolTargetResolves index.artifact env.lower seed = true) :
    (∃ m, buildReadModel index env seed = some (.resolved m)) ∨
      ∃ m, buildReadModel index env seed = some (.members [m]) := by
  unfold buildReadModel
  obtain ⟨m, hm | hm⟩ := refs_of_resolves h
    { out := false, cap := 50, inboundCap := 30, outboundCap := 30, allOut := false
      excludeSelfInbound := true }
  · exact Or.inl ⟨_, by rw [hm]; rfl⟩
  · exact Or.inr ⟨m, by rw [hm]; rfl⟩

theorem impact_of_resolves (h : impactTargetResolves index.artifact env.lower seed = true)
    (before : ImpactWalkResult → ImpactRow → ImpactRow → Bool) (hops cap : Nat)
    (settings : Settings) :
    ∃ answer, buildImpactModel index env before seed hops cap settings = .resolved answer := by
  unfold impactTargetResolves at h
  unfold buildImpactModel
  cases hseed : resolveImpactSeed index.artifact env.lower seed with
  | resolved kind ids => exact ⟨_, rfl⟩
  | ambiguous kind ids => simp [hseed] at h
  | notFound kind => simp [hseed] at h
  | memberAmbiguous candidates => simp [hseed] at h

/-- What is kept was a candidate, and is kept once. -/
theorem dedup_spec (candidates : List NextArgv) :
    (dedup candidates).Nodup ∧ ∀ c ∈ dedup candidates, c ∈ candidates := by
  unfold dedup
  refine ⟨nodup_foldl_new (fun out c hnew hmem => ?_) List.nodup_nil, fun c hc => ?_⟩
  · exact hnew (by simp [hmem])
  · exact (mem_of_mem_foldl_new hc).resolve_left List.not_mem_nil

theorem runs_of_dedup {candidates : List NextArgv} (h : ∀ c ∈ candidates, Runs index env c) :
    (dedup candidates).Nodup ∧ ∀ c ∈ dedup candidates, Runs index env c :=
  ⟨(dedup_spec candidates).1, fun c hc => h c ((dedup_spec candidates).2 c hc)⟩

theorem runs_nil : ([] : List NextArgv).Nodup ∧ ∀ c ∈ ([] : List NextArgv), Runs index env c :=
  ⟨List.nodup_nil, fun _ h => absurd h List.not_mem_nil⟩

end Runs

/-- **Every suggestion runs.** Of what any answer suggests, and of what several suggest
together, no command is listed twice, and each names a verb that resolves its argument to one
definition or one member. -/
theorem emitted_runs (index : QueryIndex) (env : Surroundings) {list : List NextArgv}
    (h : Emitted index env list) : list.Nodup ∧ ∀ c ∈ list, Runs index env c := by
  induction h with
  | refs model =>
      refine runs_of_dedup fun c hc => ?_
      rcases List.mem_append.mp hc with hc | hc
      · split_ifs at hc with hresolves
        · rw [List.mem_singleton.mp hc]
          exact .tests (tests_of_resolves hresolves)
        · cases hc
      · split at hc
        · cases hc
        · split_ifs at hc with hresolves
          · rw [List.mem_singleton.mp hc]
            exact .impact (impact_of_resolves hresolves)
          · cases hc
  | tests model =>
      unfold testsNext
      split
      · exact runs_nil
      · split_ifs with hresolves
        · refine runs_of_dedup fun c hc => ?_
          rw [List.mem_singleton.mp hc]
          exact .impact (impact_of_resolves hresolves)
        · exact runs_nil
  | impact model =>
      unfold impactNext
      split
      · exact runs_nil
      · split_ifs with hresolves
        · refine runs_of_dedup fun c hc => ?_
          rw [List.mem_singleton.mp hc]
          exact .refs (refs_of_resolves hresolves)
        · exact runs_nil
  | find name =>
      unfold findNext
      by_cases hrank : 1 < kindRank name.kind
      · rw [if_pos hrank]
        exact runs_nil
      · rw [if_neg hrank]
        split
        · exact runs_nil
        · split_ifs with hresolves
          · refine runs_of_dedup fun c hc => ?_
            rw [List.mem_singleton.mp hc]
            exact .read (read_of_resolves hresolves)
          · exact runs_nil
  | merged _ ih =>
      refine runs_of_dedup fun c hc => ?_
      obtain ⟨l, hl, hcl⟩ := List.mem_flatten.mp hc
      exact (ih l hl).2 c hcl

/-! ## One class -/

def cartIndex : QueryIndex :=
  loadQueryIndex
    { defs := [{ id := "Shop.Cart".toList, name := "Cart".toList, kind := "class".toList
                 file := "cart.cs".toList, line := 3 }]
      names := [], edges := [], unitIsTest := fun _ => false }
    none { includeGuesses := false, includeDispatch := true, includeBus := true }

def cartSurroundings : Surroundings where
  disk _ := none
  lower := toLowercase
  isScript _ := false

def cartName : GraphName where
  name := "Cart".toList
  kind := "class".toList
  owner := []
  file := "cart.cs".toList
  line := 3

/-- The class is found, and `read` answers about it. -/
theorem findCart_runs :
    findNext cartIndex cartSurroundings cartName = [["read".toList, "Shop.Cart".toList]] ∧
      (findNext cartIndex cartSurroundings cartName).Nodup ∧
      ∀ c ∈ findNext cartIndex cartSurroundings cartName, Runs cartIndex cartSurroundings c :=
  ⟨by decide +kernel, emitted_runs cartIndex cartSurroundings (.find cartName)⟩

end Answers

end Devscout.Query
