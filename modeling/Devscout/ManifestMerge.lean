/-
# Devscout.ManifestMerge -- the scoped merge of the manifest

A scoped run replaces the entries of its scope and carries the others through.
The walk enumerates element by element, the carry-through asks a text predicate,
and neither looks at what the other produced: the result has one entry for each
path exactly when no path is listed twice and no listed path is a prior entry
the predicate places outside the scope.
-/

import Devscout.Freshness.ScopeAgreement
import Devscout.MapQuiet

namespace Devscout

open Lib Lib.Text Lib.Files Lib.Atomic

variable {F : Facts} (E : Engine F) {ident : Supply}

/-- Everything a scoped merge of a manifest owes: entries with different keys, one
for each walked file, then the prior entries outside the scope as they were, and
each graph file once. -/
structure ScopedMerge (scope files : List Str) (prior written : List (Str × Value))
    (graphFiles : List GraphFile) : Prop where
  uniqueKeys : (written.map Prod.fst).Nodup
  parts : ∃ own, written = own ++ prior.filter (fun e => !isWithinScope e.1 scope) ∧
    ∀ rel, rel ∈ own.map Prod.fst ↔ rel ∈ files
  graphFilesOnce : (graphFiles.map GraphFile.rel).Nodup

/-- A listed path that is a prior entry is one the scope predicate claims. -/
def PriorClaimed (fs : Dir) (root : Root) (ign : Ignored) (scope : List Str)
    (prior : List (Str × Value)) : Prop :=
  ∀ d ∈ scope, ∀ segs, Listed fs root SOURCE_EXT ign d segs →
    listedRel root d segs ∈ prior.map Prod.fst → isWithinScope (listedRel root d segs) scope = true

/-- The manifests among a run's writes. -/
def writtenManifests (ops : List (WriteOp F)) : List Value :=
  ops.filterMap fun
    | .manifest value => some value
    | _ => none

/-- The entries of this run are keyed by the walk. -/
theorem keys_mergedEntries (scope : List Str) (prior : List (Str × Value))
    (purposes : OrderedMap Str Str) (plan : List (PlanEntry F)) :
    (mergedEntries scope prior purposes plan).map Prod.fst =
      plan.map PlanEntry.rel ++ (prior.filter fun e => !isWithinScope e.1 scope).map Prod.fst := by
  simp [mergedEntries, Function.comp_def]

/-- Two lists of keys make one without repetition exactly when the first has none
and shares none with the second. -/
theorem nodup_carriedThrough {scope files : List Str} {prior : List (Str × Value)}
    (hprior : (prior.map Prod.fst).Nodup) :
    (files ++ (prior.filter fun e => !isWithinScope e.1 scope).map Prod.fst).Nodup ↔
      files.Nodup ∧ ∀ rel ∈ files, rel ∈ prior.map Prod.fst → isWithinScope rel scope = true := by
  have hcarried : ((prior.filter fun e => !isWithinScope e.1 scope).map Prod.fst).Nodup :=
    hprior.sublist (List.filter_sublist.map _)
  rw [List.nodup_append']
  constructor
  · rintro ⟨hfiles, -, hdisj⟩
    refine ⟨hfiles, fun rel hrel hmem => ?_⟩
    by_contra hout
    obtain ⟨e, he, rfl⟩ := List.mem_map.mp hmem
    exact hdisj hrel (List.mem_map_of_mem (List.mem_filter.mpr ⟨he, by simpa using hout⟩))
  · rintro ⟨hfiles, hclaimed⟩
    refine ⟨hfiles, hcarried, fun rel hrel hmem => ?_⟩
    obtain ⟨e, he, rfl⟩ := List.mem_map.mp hmem
    obtain ⟨hep, hout⟩ := List.mem_filter.mp he
    rw [hclaimed e.1 hrel (List.mem_map_of_mem hep)] at hout
    cases hout

section Planned

variable {E} {wt : Worktree} {args : MapArgs} {w : World F} {p : Plan F}

theorem Planned.plan_rels (h : Planned E wt args w p) : p.plan.map PlanEntry.rel = p.files := by
  rw [h.plan, List.map_map]
  refine List.map_id'' (fun rel => ?_) p.files
  simp only [Function.comp_apply, planEntry]
  split <;> rfl

theorem Planned.graphFiles_rels (h : Planned E wt args w p) :
    p.graphFiles.map GraphFile.rel = p.files.filter isGraphSource := by
  rw [← h.plan_rels, Plan.graphFiles, graphFilesOf, List.map_map, List.filter_map]
  rfl

end Planned

theorem entries_manifestValue (head : Option Str) (scope : List Str)
    (entries : List (Str × Value)) :
    manifestEntries (some (manifestValue head scope entries)) = entries := by
  have hhead : entriesKey ≠ builtAtHeadKey := by decide
  have hdirs : entriesKey ≠ scopedDirsKey := by decide
  have hget : (manifestValue head scope entries).get entriesKey = some (.object entries) := by
    simp only [manifestValue, Value.get, Value.asObject, Option.bind_eq_bind, Option.bind_some,
      OrderedMap.lookup_cons_ne hhead, OrderedMap.lookup_cons_ne hdirs, List.lookup_cons_self]
  simp only [manifestEntries, Option.bind_some, hget, Value.asObject, Option.getD_some]

/-- A quiet run writes one manifest. -/
theorem writtenManifests_commitOps (wt : Worktree) (token : Str) (p : Plan F) (w : World F) :
    writtenManifests (commitOps E ident wt token p w) =
      [manifestValue p.head0 p.scope p.entries] := by
  have hmark : writtenManifests (markOps wt.owner : List (WriteOp F)) = [] := by
    cases wt.owner <;> rfl
  have hpublish : ∀ s : Store F, writtenManifests (publishOps wt.owner token p s) = [] := by
    intro s
    cases wt.owner <;> rfl
  have hrebuild : writtenManifests (if rebuildsIn p w then
      rebuildOps E wt.owner (mergedIn wt p w) (graphIn E wt p w) p.models else []) = [] := by
    split <;> rfl
  simp only [writtenManifests] at hmark hpublish hrebuild ⊢
  simp only [commitOps, artifactOps, List.filterMap_append, List.filterMap_cons, hmark, hpublish,
    hrebuild, List.nil_append, List.append_nil]

/-- **The scoped merge, and when it fails.** A quiet run over its own prior manifest
writes one manifest; that manifest is the scoped merge exactly when no two listed
files share a path and every listed path that is a prior entry is in the scope. -/
theorem scopedMerge_iff (wt : Worktree) (args : MapArgs) (w : World F) {report : MapReport F}
    (hrun : (trace (World.apply ident) (mapRepo E wt args) w).2 = some report)
    (hmine : priorMineIn wt w = true)
    (hunique : ((manifestEntries (w.store.manifest.map Stamped.content)).map Prod.fst).Nodup)
    {scope : List Str} {ign : Ignored} {files : List Str}
    (hscope : scopeFor (w.registry wt.root)
      (if args.scopeDirs.isEmpty then none else some args.scopeDirs) = .ok scope)
    (hign : ignoredForScope E w.fs.dir (w.git wt.root) wt.root scope = .ok ign)
    (hfiles : listSourceFiles w.fs.dir wt.root scope ign = .ok files) :
    ∃ value, writtenManifests (trace (World.apply ident) (mapRepo E wt args) w).1 = [value] ∧
      (ScopedMerge scope files (manifestEntries (w.store.manifest.map Stamped.content))
          (manifestEntries (some value)) report.plan.graphFiles ↔
        ListedOnce w.fs.dir wt.root SOURCE_EXT ign scope ∧
          PriorClaimed w.fs.dir wt.root ign scope
            (manifestEntries (w.store.manifest.map Stamped.content))) := by
  rcases @trace_mapRepo _ E ident wt args w with hnone | ⟨p, hp, htrace⟩
  · simp [hnone] at hrun
  rw [htrace, Option.some.injEq] at hrun
  subst hrun
  -- the run read the same scope, ignores and files
  obtain rfl : p.scope = scope := Except.ok.inj (hp.scope.symm.trans hscope)
  obtain rfl : p.ignored = ign := Except.ok.inj (hp.ignored.symm.trans hign)
  obtain rfl : p.files = files := Except.ok.inj (hp.files.symm.trans hfiles)
  have hprior : p.priorEntries = manifestEntries (w.store.manifest.map Stamped.content) := by
    simpa [hmine] using hp.priorEntries
  refine ⟨_, by rw [htrace, writtenManifests_commitOps], ?_⟩
  rw [entries_manifestValue, ← hprior]
  rw [← hprior] at hunique
  -- a key stands twice when a file is listed twice, or listed and carried through
  have hkeys : (p.entries.map Prod.fst).Nodup ↔
      ListedOnce w.fs.dir wt.root SOURCE_EXT p.ignored p.scope ∧
        PriorClaimed w.fs.dir wt.root p.ignored p.scope p.priorEntries := by
    rw [hp.entries, keys_mergedEntries, hp.plan_rels, nodup_carriedThrough hunique,
      nodup_listFilesWithExt w.fs.wf hp.files]
    refine and_congr_right fun _ => ?_
    constructor
    · intro hall d hd segs hl
      exact hall _ ((mem_listFilesWithExt w.fs.wf hp.files).mpr ⟨d, hd, segs, hl, rfl⟩)
    · intro hall rel hrel
      obtain ⟨d, hd, segs, hl, rfl⟩ := (mem_listFilesWithExt w.fs.wf hp.files).mp hrel
      exact hall d hd segs hl
  constructor
  · exact fun hmerge => hkeys.mp hmerge.uniqueKeys
  · intro hcond
    refine ⟨hkeys.mpr hcond, ⟨_, by rw [hp.entries]; rfl, fun rel => ?_⟩, ?_⟩
    · rw [List.map_map, ← hp.plan_rels]
      rfl
    · rw [hp.graphFiles_rels]
      exact ((nodup_listFilesWithExt w.fs.wf hp.files).mpr hcond.1).filter _

/-! ## One scope that merges and one that does not -/

/-- `/r/src/a.cs` and `/r/src/sub/b.cs`. -/
def nestedTree : FileTree :=
  ⟨.sub "r".toList (.sub "src".toList (.file "a.cs".toList [] true
    (.sub "sub".toList (.file "b.cs".toList [] true .nil) .nil)) .nil) .nil, by decide⟩

def nestedWorktree : Worktree := ⟨sampleRoot, none⟩

/-- A run over the given scope directories. -/
def scopedArgs (dirs : List Str) : MapArgs := ⟨dirs, false, [], .inOrder⟩

def nestedRun (dirs : List Str) : List (WriteOp textFacts) × Option (MapReport textFacts) :=
  trace (World.apply tickingSupply) (mapRepo textEngine nestedWorktree (scopedArgs dirs))
    (World.ofTree nestedTree)

theorem nestedRun_src_returns : (nestedRun ["src".toList]).2.isSome = true := by decide

theorem scopedMerge_src :
    ∃ value, writtenManifests (nestedRun ["src".toList]).1 = [value] ∧
      (ScopedMerge ["src".toList] ["src/a.cs".toList, "src/sub/b.cs".toList] []
          (manifestEntries (some value))
          ((nestedRun ["src".toList]).2.get nestedRun_src_returns).plan.graphFiles ↔
        ListedOnce nestedTree.dir sampleRoot SOURCE_EXT Ignored.empty ["src".toList] ∧
          PriorClaimed nestedTree.dir sampleRoot Ignored.empty ["src".toList] []) :=
  scopedMerge_iff textEngine nestedWorktree (scopedArgs ["src".toList]) (World.ofTree nestedTree)
    (Option.some_get nestedRun_src_returns).symm (by decide) (by decide) (by decide) (by decide)
    (by decide)

/-- With a directory and one below it in the scope, the files of the inner one get
two entries each. -/
theorem overlapping_scope_repeats :
    (priorMineIn nestedWorktree (World.ofTree nestedTree : World textFacts) = true ∧
        manifestEntries ((World.ofTree nestedTree : World textFacts).store.manifest.map
          Stamped.content) = []) ∧
      (writtenManifests (nestedRun ["src".toList, "src/sub".toList]).1).map
          (fun value => (manifestEntries (some value)).map Prod.fst) =
        [["src/a.cs".toList, "src/sub/b.cs".toList, "src/sub/b.cs".toList]] ∧
      ∀ value ∈ writtenManifests (nestedRun ["src".toList, "src/sub".toList]).1,
        ∀ files graphFiles, ¬ScopedMerge ["src".toList, "src/sub".toList] files []
          (manifestEntries (some value)) graphFiles := by
  have hkeys : (writtenManifests (nestedRun ["src".toList, "src/sub".toList]).1).map
        (fun value => (manifestEntries (some value)).map Prod.fst) =
      [["src/a.cs".toList, "src/sub/b.cs".toList, "src/sub/b.cs".toList]] := by decide
  refine ⟨⟨by decide, by rfl⟩, hkeys, fun value hvalue files graphFiles hmerge => ?_⟩
  have hmem := List.mem_map_of_mem
    (f := fun value => (manifestEntries (some value)).map Prod.fst) hvalue
  rw [hkeys, List.mem_singleton] at hmem
  have hnodup := hmerge.uniqueKeys
  rw [hmem] at hnodup
  exact absurd hnodup (by decide)

end Devscout
