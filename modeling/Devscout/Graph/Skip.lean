/-
# Devscout.Graph.Skip -- when the graph on disk is still the right one

A run that finds nothing stale leaves the graph alone. Five of its tests compare
what it discovered with what the last rebuild left: the fragments index, the three
sidecars and the lane record. What no test looks at is collected in `Unwatched`: the
TypeScript settings, the lane of the last rebuild, and the order of the walk. When
both agree, the graph on disk is the one a rebuild would write, up to the recorded
head.
-/

import Devscout.Graph.ReuseRuns

namespace Devscout

open Lib Lib.Text Lib.Files Lib.Atomic

variable {F : Facts} (E : Engine F)

/-- Two graphs that differ at most in the head they record. -/
def Graph.SameApartFromHead (g g' : Graph F) : Prop :=
  g.schemaVersion = g'.schemaVersion ∧ g.body = g'.body ∧ g.transport = g'.transport

/-! ## The graph of the files as they are -/

def freshMerged (wt : Worktree) (p : Plan F) (w : World F) : Merged F :=
  splitMerged ((freshEntries E wt.root w.fs.dir p.files).map fun e => (e.1, e.2.fragment))

/-- What resolution makes of the current bytes of every walked graph source. -/
def freshGraph (wt : Worktree) (p : Plan F) (w : World F) : Graph F :=
  let m := freshMerged E wt p w
  resolveAll E m p.models
    { head := E.gitHead w.fs.dir (w.git wt.root) wt.root
      ts := readTsFor E w.fs.dir wt.root m
      texts := readTexts w.fs.dir wt.root (transportFiles m p.models.transport) }

/-! ## Same inputs, same graph -/

/-- The inputs the staleness tests compare are those of the last rebuild. -/
structure SameInputs (wt : Worktree) (l : LastGraph F) (p : Plan F) (w : World F) : Prop where
  merged : mergedIn wt l.plan l.world = freshEntries E wt.root w.fs.dir p.files
  model : l.plan.models.model = p.models.model
  crates : l.plan.models.crates = p.models.crates
  transport : anySite E (freshMerged E wt p w) = true →
    l.plan.models.transport = p.models.transport

/-- What no test looks at is as the last rebuild found it. -/
structure Unwatched (wt : Worktree) (l : LastGraph F) (p : Plan F) (w : World F) : Prop where
  lane : l.plan.models.lane.forcesRebuild = false
  resolution : readTsFor E l.world.fs.dir wt.root (freshMerged E wt p w) =
    readTsFor E w.fs.dir wt.root (freshMerged E wt p w)

/-- The graph sources come once each, in the order of the last rebuild's walk. -/
structure ListedAlike (l : LastGraph F) (p : Plan F) : Prop where
  once : (l.plan.files.filter isGraphSource).Nodup
  inOrder : (∀ rel ∈ p.files.filter isGraphSource, rel ∈ l.plan.files.filter isGraphSource) →
    (p.files.filter isGraphSource).Sublist (l.plan.files.filter isGraphSource)

variable {E}

theorem mem_splitMerged_cs {fragments : List (Str × AnyFragment F)} {rel : Str}
    (h : rel ∈ (splitMerged fragments).cs.map Prod.fst) : rel ∈ fragments.map Prod.fst := by
  have hpush : ∀ (es : List (Str × AnyFragment F)) (m : Merged F),
      rel ∈ (es.foldl (fun m e => m.push e.1 e.2) m).cs.map Prod.fst →
        rel ∈ m.cs.map Prod.fst ∨ rel ∈ es.map Prod.fst := by
    intro es
    induction es with
    | nil => exact fun m h => Or.inl h
    | cons e es ih =>
        intro m h
        rcases ih _ h with h | h
        · cases hf : e.2 with
          | cs f =>
              simp only [hf, Merged.push, List.map_append, List.mem_append] at h
              rcases h with h | h
              · exact Or.inl h
              · simp only [List.map_cons, List.map_nil, List.mem_singleton] at h
                exact Or.inr (by simp [h])
          | ts f => exact Or.inl (by simpa [hf, Merged.push] using h)
          | rs f => exact Or.inl (by simpa [hf, Merged.push] using h)
          | html f => exact Or.inl (by simpa [hf, Merged.push] using h)
        · exact Or.inr (List.mem_cons_of_mem _ h)
  rcases hpush fragments _ h with h | h
  · cases h
  · exact h

/-- A key other than that of an unread file is the key of the bytes there. -/
theorem read_of_currentKey (hkey : E.KeyInjective) {root : Root} {fs : Dir} {rel : Str}
    {bytes : Bytes} (h : currentKey E root fs rel = E.cacheKey bytes) :
    readFile fs (root.join rel) = some bytes := by
  rw [currentKey] at h
  cases hread : readFile fs (root.join rel) with
  | none =>
      rw [hread] at h
      exact absurd h.symm (hkey.ne_zero bytes)
  | some now =>
      rw [hread] at h
      rw [hkey.inj h]

theorem mem_freshEntries {root : Root} {fs : Dir} {files : List Str}
    {e : Str × FragmentCacheEntry F} (h : e ∈ freshEntries E root fs files) :
    ∃ bytes, readFile fs (root.join e.1) = some bytes ∧ e.2.mtime = E.cacheKey bytes := by
  obtain ⟨rel, -, hsome⟩ := List.mem_filterMap.mp h
  obtain ⟨fragment, hextracted, rfl⟩ := Option.map_eq_some_iff.mp hsome
  obtain ⟨bytes, hread, -⟩ := Option.bind_eq_some_iff.mp hextracted
  exact ⟨bytes, hread, by simp only [currentKey, hread]⟩

theorem mem_unitSettings {fs : Dir} {root : Root} {files : List Str} {dir : Str} {s : SettingsFile}
    (h : s ∈ unitSettings E fs root files dir) :
    ∃ bytes, readFile fs (root.join s.file) = some bytes ∧ E.sha256Hex bytes = s.digest := by
  obtain ⟨f, -, hf⟩ := List.mem_filterMap.mp ((List.mem_insertionSort _).mp h)
  obtain ⟨bytes, hread, rfl⟩ := Option.map_eq_some_iff.mp hf
  exact ⟨bytes, hread, rfl⟩

/-- A settings file in the inputs was read, and its digest is that of its bytes. -/
theorem mem_discoverTransport {fs : Dir} {root : Root} {model : Option ProjectModel}
    {files : List Str} {u : UnitInputs} (hu : u ∈ (discoverTransport E fs root model files).units)
    {s : SettingsFile} (hs : s ∈ u.settings) :
    ∃ bytes, readFile fs (root.join s.file) = some bytes ∧ E.sha256Hex bytes = s.digest := by
  cases model with
  | none => cases hu
  | some model =>
      obtain ⟨unit, -, rfl⟩ := List.mem_map.mp hu
      exact mem_unitSettings hs

section Planned

variable {wt : Worktree} {args₀ args : MapArgs} {l : LastGraph F} {w : World F} {p : Plan F}

theorem Planned.mtime_of_merged {w : World F} {p : Plan F} (h : Planned E wt args w p)
    {e : Str × FragmentCacheEntry F} (he : e ∈ mergedIn wt p w) :
    e.1 ∈ p.files.filter isGraphSource ∧ e.2.mtime = currentKey E wt.root w.fs.dir e.1 := by
  simp only [mergedIn, mergeFragments, h.graphFiles_eq, List.filterMap_map, List.mem_filterMap,
    Function.comp_apply, Option.map_eq_some_iff] at he
  obtain ⟨rel, hrel, fragment, -, rfl⟩ := he
  exact ⟨hrel, rfl⟩

/-- Every text transport assembly opens is the text the last rebuild opened. -/
theorem SameInputs.texts (h : SameInputs E wt l p w) (hkey : E.KeyInjective)
    (hl : Planned E wt args₀ l.world l.plan) (hp : Planned E wt args w p)
    (hsite : anySite E (freshMerged E wt p w) = true) :
    readTexts l.world.fs.dir wt.root (transportFiles (freshMerged E wt p w) p.models.transport) =
      readTexts w.fs.dir wt.root (transportFiles (freshMerged E wt p w) p.models.transport) := by
  refine List.map_congr_left fun f hf => ?_
  have hsame : readFile l.world.fs.dir (wt.root.join f) = readFile w.fs.dir (wt.root.join f) := by
    rcases List.mem_append.mp hf with hcs | hsettings
    · -- a C# source: its key is in the merged list on both sides
      obtain ⟨e, he, rfl⟩ := List.mem_map.mp (mem_splitMerged_cs hcs)
      obtain ⟨entry, hentry, rfl⟩ := List.mem_map.mp he
      obtain ⟨bytes, hread, hmtime⟩ := mem_freshEntries hentry
      have hthen := (hl.mtime_of_merged (h.merged ▸ hentry)).2
      rw [hread]
      exact read_of_currentKey hkey (hthen.symm.trans hmtime)
    · -- a settings file: its digest is in the inputs on both sides
      obtain ⟨u, hu, hf⟩ := List.mem_flatMap.mp hsettings
      obtain ⟨s, hs, rfl⟩ := List.mem_map.mp hf
      obtain ⟨then_, hthen, hdigest⟩ :=
        mem_discoverTransport (hl.transport ▸ h.transport hsite ▸ hu) hs
      obtain ⟨now, hnow, hdigest'⟩ := mem_discoverTransport (hp.transport ▸ hu) hs
      rw [hthen, hnow, hkey.sha_injective (hdigest.trans hdigest'.symm)]
  rw [hsame]

theorem Planned.lane_idle {w : World F} {p : Plan F} (h : Planned E wt args w p)
    (hlane : p.models.lane.forcesRebuild = false) : p.models.lane = .idle := by
  rw [h.lane] at hlane ⊢
  exact decideLane_idle E hlane

/-- **Same inputs, same graph.** -/
theorem SameInputs.graph (h : SameInputs E wt l p w) (hkey : E.KeyInjective)
    (hl : Planned E wt args₀ l.world l.plan) (hp : Planned E wt args w p)
    (hlane : p.models.lane.forcesRebuild = false) (hunwatched : Unwatched E wt l p w) :
    (graphIn E wt l.plan l.world).SameApartFromHead (freshGraph E wt p w) := by
  have hm : splitMerged ((mergedIn wt l.plan l.world).map fun e => (e.1, e.2.fragment)) =
      freshMerged E wt p w := by
    rw [h.merged, freshMerged]
  have hlanes : l.plan.models.lane = p.models.lane := by
    rw [hl.lane_idle hunwatched.lane, hp.lane_idle hlane]
  simp only [Graph.SameApartFromHead, graphIn, freshGraph, resolveAll, hm, hlanes, h.model, h.crates,
    hunwatched.resolution, true_and]
  cases hsite : anySite E (freshMerged E wt p w) with
  | false => rfl
  | true =>
      simp only [if_true]
      rw [h.transport hsite, h.texts hkey hl hp hsite]

end Planned

/-! ## What an unchanged run has checked -/

section Unchanged

variable {wt : Worktree} {args₀ args : MapArgs} {l : LastGraph F} {w : World F} {p : Plan F}

/-- The tests behind `changed`, all of them negative. -/
structure NothingStale (p : Plan F) (w : World F) : Prop where
  index : indexIsStale p.graphIndex p.graphFiles = false
  units : w.store.graphSide.units = p.models.model.map graphUnits
  crates : w.store.graphSide.crates = p.models.crates
  transport : ∀ old, w.store.graphSide.transport = some old → old = p.models.transport
  lane : p.models.lane.forcesRebuild = false

theorem Planned.nothingStale (h : Planned E wt args w p) (hchanged : p.changed = false) :
    NothingStale p w := by
  rw [h.changed] at hchanged
  simp only [Bool.or_eq_false_iff] at hchanged
  obtain ⟨⟨⟨⟨⟨-, hindex⟩, hunits⟩, hcrates⟩, htransport⟩, hlane⟩ := hchanged
  refine ⟨hindex, ?_, ?_, ?_, hlane⟩
  · simpa [unitsSidecarDiffers, Store.graphSide] using hunits
  · simpa [cratesSidecarDiffers, Store.graphSide] using hcrates
  · intro old hold
    have hfile : w.store.transport.map Stamped.content = some old := hold
    rw [hfile] at htransport
    simpa [transportSidecarDiffers] using htransport

/-- A sublist of a list without repetition is what a membership test leaves of it. -/
theorem filter_eq_of_sublist {α : Type} [DecidableEq α] {s l : List α} (h : s.Sublist l)
    (hl : l.Nodup) : l.filter (fun a => decide (a ∈ s)) = s := by
  induction h with
  | slnil => rfl
  | @cons r l a h ih =>
      obtain ⟨hnew, hnodup⟩ := List.nodup_cons.mp hl
      have hout : a ∉ r := fun hmem => hnew (h.subset hmem)
      rw [List.filter_cons_of_neg (by simpa using hout), ih hnodup]
  | @cons_cons r l a h ih =>
      obtain ⟨hnew, hnodup⟩ := List.nodup_cons.mp hl
      have hrest : l.filter (fun b => decide (b ∈ a :: r)) = l.filter fun b => decide (b ∈ r) := by
        refine List.filter_congr fun b hb => ?_
        have hne : b ≠ a := fun heq => hnew (heq ▸ hb)
        simp [hne]
      rw [List.filter_cons_of_pos (by simp), hrest, ih hnodup]

theorem eq_of_sublist_of_mem_iff {α : Type} [DecidableEq α] {l s t : List α} (hl : l.Nodup)
    (hs : s.Sublist l) (ht : t.Sublist l) (hiff : ∀ a, a ∈ s ↔ a ∈ t) : s = t := by
  rw [← filter_eq_of_sublist hs hl, ← filter_eq_of_sublist ht hl]
  simp only [hiff]

/-- The merged list comes in walk order. -/
theorem Planned.merged_sublist {w : World F} {p : Plan F} (h : Planned E wt args w p) :
    ((mergedIn wt p w).map Prod.fst).Sublist (p.files.filter isGraphSource) := by
  have hkeys : ∀ (cache : OrderedMap Str (FragmentCacheEntry F))
      (fresh : OrderedMap Str (AnyFragment F)) (graphFiles : List GraphFile),
      ((mergeFragments cache fresh graphFiles).map Prod.fst).Sublist
        (graphFiles.map GraphFile.rel) := by
    intro cache fresh graphFiles
    induction graphFiles with
    | nil => exact List.Sublist.slnil
    | cons f rest ih =>
        rw [mergeFragments, List.filterMap_cons]
        cases fragmentFor cache fresh f with
        | none => exact ih.cons _
        | some fragment => exact ih.cons_cons _
  have hrels : p.graphFiles.map GraphFile.rel = p.files.filter isGraphSource := by
    rw [h.graphFiles_eq, List.map_map]
    exact List.map_id _
  rw [← hrels]
  exact hkeys _ _ _

/-- **Nothing stale, same inputs**: over what a whole rebuild left, a run that finds
nothing stale reads the very inputs of that rebuild. -/
theorem sameInputs_of_nothingStale (hkey : E.KeyInjective) (hl : Planned E wt args₀ l.world l.plan)
    (htruthful : TruthfulCache E l.world.store) (hp : Planned E wt args w p)
    (hside : w.store.graphSide = rebuiltSide E wt l.plan l.world) (hstale : NothingStale p w)
    (hlisted : ListedAlike l p) : SameInputs E wt l p w := by
  have hthen := hl.merged_sublist
  have hnodup : ((mergedIn wt l.plan l.world).map Prod.fst).Nodup := hlisted.once.sublist hthen
  -- the index is the merged list, keys only
  have hindex : p.graphIndex.entries =
      (mergedIn wt l.plan l.world).map fun e => (e.1, e.2.mtime) := by
    rw [hp.graphIndex, readFragmentsIndex_eq, hside]
    simp only [rebuiltSide, entriesOf, if_true, OrderedMap.mapValues]
    rw [OrderedMap.entries_insertAll (by simpa using hnodup)]
    rfl
  obtain ⟨hmatch, hsize⟩ := Bool.or_eq_false_iff.mp hstale.index
  have hget : ∀ rel ∈ p.files.filter isGraphSource,
      p.graphIndex.get? rel = some (currentKey E wt.root w.fs.dir rel) := by
    intro rel hrel
    have hfile : (⟨rel, currentKey E wt.root w.fs.dir rel⟩ : GraphFile) ∈ p.graphFiles := by
      rw [hp.graphFiles_eq]
      exact List.mem_map_of_mem hrel
    simpa using List.any_eq_false.mp hmatch _ hfile
  have hindexed : ∀ rel key, p.graphIndex.get? rel = some key →
      ∃ e ∈ mergedIn wt l.plan l.world, e.1 = rel ∧ e.2.mtime = key := by
    intro rel key hkey'
    have hmem := OrderedMap.mem_of_get?_eq_some hkey'
    rw [hindex] at hmem
    obtain ⟨e, he, heq⟩ := List.mem_map.mp hmem
    cases heq
    exact ⟨e, he, rfl, rfl⟩
  -- so the walk lists just the merged files, and in their order
  have hnow : (p.files.filter isGraphSource).Sublist (l.plan.files.filter isGraphSource) := by
    refine hlisted.inOrder fun rel hrel => ?_
    obtain ⟨e, he, rfl, -⟩ := hindexed rel _ (hget rel hrel)
    exact hthen.subset (List.mem_map_of_mem he)
  have hsub : p.files.filter isGraphSource ⊆ (mergedIn wt l.plan l.world).map Prod.fst := by
    intro rel hrel
    obtain ⟨e, he, rfl, -⟩ := hindexed rel _ (hget rel hrel)
    exact List.mem_map_of_mem he
  have hlength : ((mergedIn wt l.plan l.world).map Prod.fst).length =
      (p.files.filter isGraphSource).length := by
    have hcount : p.graphIndex.entries.length = p.graphFiles.length := by
      simpa [OrderedMap.size] using hsize
    rw [hindex, hp.graphFiles_eq, List.length_map, List.length_map] at hcount
    rw [List.length_map, hcount]
  have hperm := (List.subperm_of_subset (hlisted.once.sublist hnow) hsub).perm_of_length_le
    hlength.le
  have hrels : (mergedIn wt l.plan l.world).map Prod.fst = p.files.filter isGraphSource :=
    eq_of_sublist_of_mem_iff hlisted.once hthen hnow fun a => hperm.symm.mem_iff
  -- and each of them still holds the bytes its fragment was extracted from
  have hentry : ∀ e ∈ mergedIn wt l.plan l.world,
      ((extracted E wt.root w.fs.dir e.1).map fun fragment =>
        (e.1, (⟨currentKey E wt.root w.fs.dir e.1, fragment⟩ : FragmentCacheEntry F))) = some e := by
    intro e he
    have hmtime : currentKey E wt.root w.fs.dir e.1 = e.2.mtime := by
      have hthis := hget e.1 (hrels ▸ List.mem_map_of_mem he)
      have hlast := OrderedMap.get?_eq_some_of_mem (m := p.graphIndex) (k := e.1) (v := e.2.mtime)
        (hindex ▸ List.mem_map_of_mem he)
      exact Option.some.inj (hthis.symm.trans hlast)
    obtain ⟨bytes, hbytes, hfragment⟩ := hl.mergedIn_truthful hkey htruthful he
    have hread := read_of_currentKey hkey (hmtime.trans hbytes.symm)
    rw [extracted, hread, Option.bind_some, hfragment, Option.map_some, hmtime]
  have hmerged : mergedIn wt l.plan l.world = freshEntries E wt.root w.fs.dir p.files := by
    rw [freshEntries, ← hrels, List.filterMap_map]
    exact ((List.filterMap_congr hentry).trans List.filterMap_some).symm
  refine ⟨hmerged, ?_, ?_, ?_⟩
  · have hunits : l.plan.models.model.map graphUnits = p.models.model.map graphUnits := by
      rw [← hstale.units, hside]
      rfl
    obtain ⟨d, hmodel, -⟩ := hl.discovered
    obtain ⟨d', hmodel', -⟩ := hp.discovered
    cases hthen : l.plan.models.model with
    | none =>
        rw [hthen] at hunits
        exact (Option.map_eq_none_iff.mp hunits.symm).symm
    | some model =>
        cases hnow : p.models.model with
        | none => simp [hthen, hnow] at hunits
        | some model' =>
            rw [hthen, hnow] at hunits
            rw [hthen] at hmodel
            rw [hnow] at hmodel'
            exact congrArg some (model_eq_of_graphUnits
              (fun u hu => unit_dir l.world.fs.wf hmodel hu)
              (fun u hu => unit_dir w.fs.wf hmodel' hu) (Option.some.inj hunits))
  · rw [← hstale.crates, hside]
    rfl
  · intro hsite
    refine hstale.transport _ ?_
    have hm : splitMerged ((mergedIn wt l.plan l.world).map fun e => (e.1, e.2.fragment)) =
        freshMerged E wt p w := by
      rw [hmerged, freshMerged]
    rw [hside, rebuiltSide, hm, if_pos hsite]

end Unchanged

end Devscout
