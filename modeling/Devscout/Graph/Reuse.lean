/-
# Devscout.Graph.Reuse -- reused fragments are fresh fragments

Reuse is decided from the manifest and the fragments index and served from the
fragments cache. Two facts about the state directory make that sound: the cache is
truthful, every entry is the extraction of some bytes of the entry's own key, and it
covers what will be reused, an entry for every file a run will not reparse. Then the
fragments a run hands to the resolvers are those of a fresh extraction of the bytes
it read.
-/

import Devscout.MapQuiet

namespace Devscout

open Lib Lib.Text Lib.Files Lib.Atomic

variable {F : Facts} (E : Engine F)

/-! ## A fresh extraction -/

/-- The fragment of a text at a path. -/
def fragmentOf (rel : Str) (bytes : Bytes) : Option (AnyFragment F) :=
  (reparse E rel (fromUtf8Lossy bytes)).map ParsedFile.fragment

/-- A file's current content key, zero when it cannot be read. -/
def currentKey (root : Root) (fs : Dir) (rel : Str) : Int :=
  match readFile fs (root.join rel) with
  | some bytes => E.cacheKey bytes
  | none => 0

/-- What a fresh extraction of the current bytes gives. -/
def extracted (root : Root) (fs : Dir) (rel : Str) : Option (AnyFragment F) :=
  (readFile fs (root.join rel)).bind (fragmentOf E rel)

/-- The fragments of the walked graph sources, all of them extracted now. -/
def freshEntries (root : Root) (fs : Dir) (files : List Str) : List (Str × FragmentCacheEntry F) :=
  (files.filter isGraphSource).filterMap fun rel =>
    (extracted E root fs rel).map fun fragment => (rel, ⟨currentKey E root fs rel, fragment⟩)

/-! ## The two facts -/

/-- Every cached fragment is the extraction of some bytes of its key. -/
def TruthfulCache (s : Store F) : Prop :=
  ∀ file, s.cache = some file → ∀ rel entry, file.content.entries.get? rel = some entry →
    ∃ bytes, E.cacheKey bytes = entry.mtime ∧ fragmentOf E rel bytes = some entry.fragment

/-- The prior manifest entries a run from this worktree would look up. -/
def priorIndexIn (wt : Worktree) (w : World F) : OrderedMap Str Value :=
  OrderedMap.empty.insertAll
    (if priorMineIn wt w then manifestEntries (w.store.manifest.map Stamped.content) else [])

/-- Every graph source a run would not reparse is in the cache, under its key. -/
def Covered (wt : Worktree) (w : World F) : Prop :=
  ∀ rel bytes, readFile w.fs.dir (wt.root.join rel) = some bytes → isGraphSource rel = true →
    isReusable (w.store.readFragmentsIndex wt.owner) ((priorIndexIn wt w).get? rel) rel
      (E.cacheKey bytes) = true →
    ∃ fragment,
      (w.store.readFragmentsCache wt.owner).get? rel = some ⟨E.cacheKey bytes, fragment⟩

variable {E}

theorem truthful_read {s : Store F} (h : TruthfulCache E s) {owner : Option Str} {rel : Str}
    {entry : FragmentCacheEntry F} (hget : (s.readFragmentsCache owner).get? rel = some entry) :
    ∃ bytes, E.cacheKey bytes = entry.mtime ∧ fragmentOf E rel bytes = some entry.fragment := by
  simp only [Store.readFragmentsCache, ownEntries] at hget
  split at hget
  · simp at hget
  · rename_i file hfile
    split at hget
    · exact h file hfile rel entry hget
    · simp at hget

/-! ## What the run hands over -/

section Planned

variable {wt : Worktree} {args : MapArgs} {w : World F} {p : Plan F}

theorem planEntry_rel (graphIndex : OrderedMap Str Int) (priorIndex : OrderedMap Str Value)
    (rel : Str) (read : Option Bytes) :
    (planEntry E graphIndex priorIndex rel read).rel = rel := by
  cases read <;> rfl

theorem planEntry_cacheKey (graphIndex : OrderedMap Str Int) (priorIndex : OrderedMap Str Value)
    (root : Root) (fs : Dir) (rel : Str) :
    (planEntry E graphIndex priorIndex rel (readFile fs (root.join rel))).cacheKey =
      currentKey E root fs rel := by
  rw [currentKey]
  cases readFile fs (root.join rel) <;> rfl

theorem Planned.priorIndex (h : Planned E wt args w p) :
    OrderedMap.empty.insertAll p.priorEntries = priorIndexIn wt w := by
  rw [h.priorEntries, priorIndexIn]

/-- The graph files of a plan, with the keys of their current bytes. -/
theorem Planned.graphFiles_eq (h : Planned E wt args w p) :
    p.graphFiles = (p.files.filter isGraphSource).map fun rel =>
      ⟨rel, currentKey E wt.root w.fs.dir rel⟩ := by
  simp only [Plan.graphFiles, graphFilesOf, h.plan, List.filter_map, List.map_map]
  have hsource : ((fun e : PlanEntry F => isGraphSource e.rel) ∘ fun rel =>
      planEntry E p.graphIndex (OrderedMap.empty.insertAll p.priorEntries) rel
        (readFile w.fs.dir (wt.root.join rel))) = isGraphSource := by
    funext rel
    simp [planEntry_rel]
  rw [hsource]
  refine List.map_congr_left fun rel _ => ?_
  simp [planEntry_rel, planEntry_cacheKey]

theorem planEntry_parsed_rel {graphIndex : OrderedMap Str Int} {priorIndex : OrderedMap Str Value}
    {rel : Str} {read : Option Bytes} {parsed : ParsedFile F}
    (h : (planEntry E graphIndex priorIndex rel read).parsed = some parsed) : parsed.rel = rel := by
  cases read with
  | none => simp [planEntry] at h
  | some bytes =>
      simp only [planEntry] at h
      split at h
      · simp at h
      · exact reparse_rel E h

/-- The fragment of a planned file: none when its entry answers for it. -/
theorem planEntry_parsed_fragment (graphIndex : OrderedMap Str Int)
    (priorIndex : OrderedMap Str Value) (rel : Str) (read : Option Bytes) :
    (planEntry E graphIndex priorIndex rel read).parsed.map ParsedFile.fragment =
      read.bind fun bytes =>
        if isReusable graphIndex (priorIndex.get? rel) rel (E.cacheKey bytes) then none
        else fragmentOf E rel bytes := by
  cases read with
  | none => rfl
  | some bytes =>
      simp only [planEntry, Option.bind_some]
      split <;> rfl

/-- A fragment parsed in this run is the extraction of the bytes read. -/
theorem Planned.freshFragments_get? (h : Planned E wt args w p) {rel : Str} (hrel : rel ∈ p.files) :
    p.freshFragments.get? rel = (readFile w.fs.dir (wt.root.join rel)).bind fun bytes =>
      if isReusable p.graphIndex ((priorIndexIn wt w).get? rel) rel (E.cacheKey bytes) then none
      else fragmentOf E rel bytes := by
  rw [h.freshFragments, foldParsed, h.plan, h.priorIndex,
    ← planEntry_parsed_fragment (E := E) p.graphIndex (priorIndexIn wt w)]
  refine OrderedMap.get?_insertAll_of_forall ?_ ?_
  · intro e he hkey
    obtain ⟨parsed, hparsed, rfl⟩ := List.mem_map.mp he
    obtain ⟨entry, hentry, hsome⟩ := List.mem_filterMap.mp hparsed
    obtain ⟨rel', -, rfl⟩ := List.mem_map.mp hentry
    have hrel' : parsed.rel = rel' := planEntry_parsed_rel hsome
    rw [← hkey, hrel', hsome]
    rfl
  · intro hsome
    obtain ⟨fragment, hfragment⟩ := Option.ne_none_iff_exists'.mp hsome
    obtain ⟨parsed, hparsed, -⟩ := Option.map_eq_some_iff.mp hfragment
    rw [List.map_map]
    refine List.mem_map.mpr ⟨parsed, ?_, planEntry_parsed_rel hparsed⟩
    exact List.mem_filterMap.mpr ⟨_, List.mem_map_of_mem hrel, hparsed⟩

/-- A cached entry under the current key was extracted from the current bytes. -/
theorem extracted_of_cached (hkey : E.KeyInjective) {s : Store F} (htruthful : TruthfulCache E s)
    {owner : Option Str} {root : Root} {fs : Dir} {rel : Str} {entry : FragmentCacheEntry F}
    (hget : (s.readFragmentsCache owner).get? rel = some entry)
    (hmtime : entry.mtime = currentKey E root fs rel) :
    extracted E root fs rel = some entry.fragment := by
  obtain ⟨old, hold, hfragment⟩ := truthful_read htruthful hget
  rw [hmtime, currentKey] at hold
  rw [extracted]
  cases hread : readFile fs (root.join rel) with
  | none =>
      rw [hread] at hold
      exact absurd hold (hkey.ne_zero old)
  | some bytes =>
      rw [hread] at hold
      rw [Option.bind_some, ← hkey.inj hold, hfragment]

/-- Whatever a run hands over for a file is the fresh fragment, if it hands over
any. -/
theorem Planned.extracted_of_fragmentFor (h : Planned E wt args w p) (hkey : E.KeyInjective)
    (htruthful : TruthfulCache E w.store) {rel : Str} (hrel : rel ∈ p.files)
    {fragment : AnyFragment F}
    (hfor : fragmentFor (w.store.readFragmentsCache wt.owner) p.freshFragments
      ⟨rel, currentKey E wt.root w.fs.dir rel⟩ = some fragment) :
    extracted E wt.root w.fs.dir rel = some fragment := by
  have hparsed : p.freshFragments.get? rel = some fragment →
      extracted E wt.root w.fs.dir rel = some fragment := by
    rw [h.freshFragments_get? hrel, extracted]
    cases readFile w.fs.dir (wt.root.join rel) with
    | none => exact id
    | some bytes =>
        simp only [Option.bind_some]
        split
        · intro hnone
          cases hnone
        · exact id
  simp only [fragmentFor] at hfor
  split at hfor
  · rename_i entry hget
    split at hfor
    · rename_i hmtime
      rw [extracted_of_cached hkey htruthful hget hmtime, hfor]
    · exact hparsed hfor
  · exact hparsed hfor

/-- One graph source: the cached fragment or the parsed one, it is the fresh one. -/
theorem Planned.fragmentFor_eq (h : Planned E wt args w p) (hkey : E.KeyInjective)
    (htruthful : TruthfulCache E w.store) (hcovered : Covered E wt w) {rel : Str}
    (hrel : rel ∈ p.files) (hsource : isGraphSource rel = true) :
    fragmentFor (w.store.readFragmentsCache wt.owner) p.freshFragments
      ⟨rel, currentKey E wt.root w.fs.dir rel⟩ = extracted E wt.root w.fs.dir rel := by
  -- a file not served from the cache was parsed in this run
  have hparsed : (∀ entry, (w.store.readFragmentsCache wt.owner).get? rel = some entry →
      entry.mtime ≠ currentKey E wt.root w.fs.dir rel) →
      p.freshFragments.get? rel = extracted E wt.root w.fs.dir rel := by
    intro hnone
    rw [h.freshFragments_get? hrel, extracted]
    cases hread : readFile w.fs.dir (wt.root.join rel) with
    | none => rfl
    | some bytes =>
        simp only [Option.bind_some]
        refine if_neg fun hreuse => ?_
        rw [h.graphIndex] at hreuse
        obtain ⟨fragment, hget⟩ := hcovered rel bytes hread hsource hreuse
        exact hnone _ hget (by simp only [currentKey, hread])
  simp only [fragmentFor]
  cases hget : (w.store.readFragmentsCache wt.owner).get? rel with
  | none => exact hparsed (by simp [hget])
  | some entry =>
      by_cases hmtime : entry.mtime = currentKey E wt.root w.fs.dir rel
      · simp [hmtime, extracted_of_cached hkey htruthful hget hmtime]
      · simpa [hmtime] using hparsed (by simpa [hget] using hmtime)

/-- Whatever the state of the cache file, as long as it is truthful, each entry a run
hands over is the extraction of bytes of its key. -/
theorem Planned.mergedIn_truthful (h : Planned E wt args w p) (hkey : E.KeyInjective)
    (htruthful : TruthfulCache E w.store) {e : Str × FragmentCacheEntry F}
    (he : e ∈ mergedIn wt p w) :
    ∃ bytes, E.cacheKey bytes = e.2.mtime ∧ fragmentOf E e.1 bytes = some e.2.fragment := by
  simp only [mergedIn, mergeFragments, h.graphFiles_eq, List.filterMap_map, List.mem_filterMap,
    Function.comp_apply, Option.map_eq_some_iff] at he
  obtain ⟨rel, hrel, fragment, hfor, rfl⟩ := he
  have hfresh := h.extracted_of_fragmentFor hkey htruthful (List.mem_filter.mp hrel).1 hfor
  obtain ⟨bytes, hread, hfragment⟩ := Option.bind_eq_some_iff.mp hfresh
  exact ⟨bytes, by simp only [currentKey, hread], hfragment⟩

/-- **Reuse is fresh extraction.** -/
theorem Planned.mergedIn_eq (h : Planned E wt args w p) (hkey : E.KeyInjective)
    (htruthful : TruthfulCache E w.store) (hcovered : Covered E wt w) :
    mergedIn wt p w = freshEntries E wt.root w.fs.dir p.files := by
  rw [mergedIn, mergeFragments, h.graphFiles_eq, List.filterMap_map, freshEntries]
  refine List.filterMap_congr fun rel hrel => ?_
  obtain ⟨hmem, hsource⟩ := List.mem_filter.mp hrel
  simp only [Function.comp_apply]
  rw [h.fragmentFor_eq hkey htruthful hcovered hmem hsource]

end Planned

end Devscout
