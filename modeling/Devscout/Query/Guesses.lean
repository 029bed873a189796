/-
# Devscout.Query.Guesses -- rows that are only guessed

A row of the answer is marked as a guess when every edge that reached its file was one. The
edges looked at are those of the round that first reached the file: what a later round finds
is not added. So the mark is right when no file is reached by a guess before it is reached
in earnest, and then the totals, which leave the marked rows out, are right too.
-/

import Devscout.Query.Reach

namespace Devscout.Query

open Lib

/-! ## Rows -/

/-- `test_via`: a file declares tests, lies in a test project, or is named as a test. -/
def isTestPath (file : Str) : Bool :=
  [".ts", ".tsx", ".mts", ".cts", ".js", ".jsx", ".mjs", ".cjs"].any (·.toList.isSuffixOf file) &&
    ([".spec.ts", ".spec.tsx", ".spec.mts", ".spec.cts", ".spec.js", ".spec.jsx", ".spec.mjs",
        ".spec.cjs", ".test.ts", ".test.tsx", ".test.mts", ".test.cts", ".test.js", ".test.jsx",
        ".test.mjs", ".test.cjs"].any (·.toList.isSuffixOf file) ||
      (Text.splitSlash file).dropLast.contains "__tests__".toList)

/-- `is_test_file`. -/
def isTestFile (index : GraphIndex) (file : Str) : Bool :=
  (index.byFile file).any (fun d => !d.testMethods.isEmpty) || index.graph.unitIsTest file ||
    isTestPath file

/-- `from_lines_of`: the lines of the kinds that reached the file. -/
def fromLinesOf (lines : KindLines) : List (Str × Nat) :=
  [("direct".toList, if lines.direct ≠ 0 then lines.direct else lines.directAmb),
    ("ctor-di".toList, lines.ctorDi), ("heuristic".toList, lines.heuristic),
    ("iface".toList, lines.iface), ("bus".toList, lines.bus)].filter (·.2 ≠ 0)

/-- `row_tier`. -/
def rowTier (heuristic extSeen : Bool) : Option Resolve.HeuristicTier :=
  if heuristic then some (if extSeen then .ext else .guess) else none

structure ImpactRow where
  file : Str
  hop : Nat
  viaCount : Nat
  ambiguousCount : Nat
  topSymbols : List Str
  topSymbolId : Option Str
  topSymbolsMore : Nat
  heuristicCount : Nat
  heuristic : Bool
  tier : Option Resolve.HeuristicTier
  ifaceVia : List Str
  fromLines : List (Str × Nat)
  infra : Bool
  why : Why
  busOnly : Bool
  busOrigin : Option BusOrigin
  deriving DecidableEq

/-- `impact_row`. -/
def impactRow (index : GraphIndex) (file : Str) (v : VisitedEntry) : ImpactRow :=
  let names := v.symbols.map fun id => ((index.findDef id).map (·.name)).getD id
  let heuristic := v.viaCount == 0 && v.ambiguousCount == 0
  { file := file
    hop := v.hop
    viaCount := v.viaCount
    ambiguousCount := v.ambiguousCount
    topSymbols := names.take 3
    topSymbolId := v.symbols.head?
    topSymbolsMore := names.length - 3
    heuristicCount := if heuristic then v.heuristicCount else 0
    heuristic := heuristic
    tier := rowTier heuristic (decide (0 < v.extCount))
    ifaceVia := v.ifaceVia
    fromLines := fromLinesOf v.lines
    infra := v.infra
    why := v.why
    busOnly := v.busOnly
    busOrigin := v.busOrigin }

structure ImpactModel where
  seedFiles : List Str
  hops : Nat
  totalAffected : Nat
  rows : List ImpactRow
  dropped : Nat
  heuristicAffected : Nat
  testsAffected : Nat
  braked : List BrakedIface
  brakedFiles : List BrakedFile

/-- `impact_model_for_seed`; `before` says which of two rows comes first. -/
def impactModelForSeed (index : GraphIndex) (seedIds : List Str) (hops cap : Nat) (settings : Settings)
    (before : ImpactRow → ImpactRow → Bool) : ImpactModel :=
  let walk := impactWalk index seedIds hops settings
  let rows := (walk.visited.entries.map fun e => impactRow index e.1 e.2).insertionSort
    fun a b => before a b = true
  let heuristicAffected := rows.countP (·.heuristic)
  { seedFiles := walk.seedFiles
    hops := hops
    totalAffected := rows.length - heuristicAffected
    rows := rows.take cap
    dropped := rows.length - cap
    heuristicAffected := heuristicAffected
    testsAffected := rows.countP fun r => !r.heuristic && isTestFile index r.file
    braked := walk.braked
    brakedFiles := walk.brakedFiles }

/-! ## Chains that end in earnest -/

section Solid

variable (graph : Graph) (opts : IndexOptions) (settings : Settings) (seedIds : List Str)

/-- A solid edge leads from a definition to a file. -/
def SolidTouch (d f : Str) : Prop := ∃ hop, Refers graph opts settings d f true hop

/-- A chain of `n` steps whose last one is no guess ends at the file. -/
def SolidIn (n : Nat) (f : Str) : Prop :=
  ∃ m, n = m + 1 ∧ Touched (· ∈ seedIds) (Step graph opts settings) (SolidTouch graph opts settings) m f

/-- What a row should say, and what the totals should add up to: a row is a guess when no
chain within the bound ends in earnest at its file, and every other file counts. -/
def GuessesExact (hops cap : Nat) (before : ImpactRow → ImpactRow → Bool) : Prop :=
  (∀ f v, (impactWalk (loadGraphIndexWith graph opts) seedIds hops settings).visited.get? f = some v →
    ((impactRow (loadGraphIndexWith graph opts) f v).heuristic = true ↔
      ¬ ∃ n ≤ hops, SolidIn graph opts settings seedIds n f)) ∧
  ∃ affected : List Str, affected.Nodup ∧
    (∀ f, f ∈ affected ↔ f ∉ seedFilesOf (loadGraphIndexWith graph opts) seedIds ∧
      ∃ n ≤ hops, SolidIn graph opts settings seedIds n f) ∧
    (impactModelForSeed (loadGraphIndexWith graph opts) seedIds hops cap settings before).totalAffected =
      affected.length ∧
    (impactModelForSeed (loadGraphIndexWith graph opts) seedIds hops cap settings before).testsAffected =
      affected.countP (isTestFile (loadGraphIndexWith graph opts))

/-- No file is guessed at before it is reached in earnest: where a chain within the bound
ends in earnest, one that is no longer than any chain does. -/
def EarnestFirst (hops : Nat) : Prop :=
  ∀ f, f ∉ seedFilesOf (loadGraphIndexWith graph opts) seedIds →
    (∃ n ≤ hops, SolidIn graph opts settings seedIds n f) →
    ∀ m, ReachedIn graph opts settings seedIds m f → ∃ n ≤ m, SolidIn graph opts settings seedIds n f

variable {graph opts settings seedIds} {hops n m : Nat} {f : Str}

theorem SolidIn.reachedIn (h : SolidIn graph opts settings seedIds n f) :
    ReachedIn graph opts settings seedIds n f := by
  obtain ⟨m, rfl, d, hd, hop, hrefers⟩ := h
  exact ⟨m, rfl, d, hd, true, hop, hrefers⟩

/-- A visited file's row is no guess exactly when a shortest chain ends in earnest. -/
theorem heuristic_iff {v : VisitedEntry}
    (hv : (impactWalk (loadGraphIndexWith graph opts) seedIds hops settings).visited.get? f = some v) :
    (impactRow (loadGraphIndexWith graph opts) f v).heuristic = false ↔
      SolidIn graph opts settings seedIds v.hop f := by
  have hfirst := (hop_of_visited hv).2
  obtain ⟨-, m, -, -, h, hhit, rfl⟩ := visited_impactWalk_iff.mp hv
  refine (not_onlyGuessed_iff hhit).trans ?_
  simp only [searched_walkAt.frontier_iff]
  show LayerTouches _ _ (SolidTouch graph opts settings) m f ↔ _
  constructor
  · exact fun hlayer => ⟨m, rfl, hlayer.touched⟩
  · rintro ⟨k, hk, hsolid⟩
    rw [← Nat.succ.inj hk] at hsolid
    refine (first_layerTouches_iff.mpr ⟨hsolid, fun j hlt hj => ?_⟩).1
    exact hfirst (j + 1) (Nat.succ_lt_succ hlt) (SolidIn.reachedIn ⟨j, rfl, hj⟩)

theorem earnestFirst_iff : EarnestFirst graph opts settings seedIds hops ↔
    ∀ f v, (impactWalk (loadGraphIndexWith graph opts) seedIds hops settings).visited.get? f = some v →
      ((impactRow (loadGraphIndexWith graph opts) f v).heuristic = true ↔
        ¬ ∃ n ≤ hops, SolidIn graph opts settings seedIds n f) := by
  constructor
  · intro hearnest f v hv
    obtain ⟨hseed, -⟩ := exists_visited_iff.mp ⟨v, hv⟩
    obtain ⟨hreached, hfirst⟩ := hop_of_visited hv
    rw [← not_iff_not, Bool.not_eq_true, heuristic_iff hv, not_not]
    constructor
    · intro hsolid
      obtain ⟨-, m, hlt, -, h, hhit, rfl⟩ := visited_impactWalk_iff.mp hv
      exact ⟨m + 1, hlt, hsolid⟩
    · intro hsolid
      -- the solid hop is no later than the row's, and the row's is the first
      obtain ⟨n, hle, hn⟩ := hearnest f hseed hsolid v.hop hreached
      rcases Nat.lt_or_eq_of_le hle with hlt | rfl
      · exact absurd hn.reachedIn (hfirst n hlt)
      · exact hn
  · intro hexact f hseed hsolid m hm
    obtain ⟨n, hle, hn⟩ := hsolid
    obtain ⟨v, hv⟩ := exists_visited_iff.mpr ⟨hseed, n, hle, hn.reachedIn⟩
    have hrow : (impactRow (loadGraphIndexWith graph opts) f v).heuristic = false := by
      rw [← Bool.not_eq_true, hexact f v hv, not_not]
      exact ⟨n, hle, hn⟩
    refine ⟨v.hop, ?_, (heuristic_iff hv).mp hrow⟩
    exact Nat.le_of_not_lt fun hlt => (hop_of_visited hv).2 m hlt hm

/-- The totals count the rows that are no guesses. -/
theorem totals_impactModelForSeed (index : GraphIndex) (seedIds : List Str) (hops cap : Nat)
    (settings : Settings) (before : ImpactRow → ImpactRow → Bool) :
    (impactModelForSeed index seedIds hops cap settings before).totalAffected =
      ((impactWalk index seedIds hops settings).visited.entries.filter
        fun e => !(impactRow index e.1 e.2).heuristic).length ∧
    (impactModelForSeed index seedIds hops cap settings before).testsAffected =
      ((impactWalk index seedIds hops settings).visited.entries.filter
        fun e => !(impactRow index e.1 e.2).heuristic).countP fun e => isTestFile index e.1 := by
  have hperm := List.perm_insertionSort (fun a b => before a b = true)
    ((impactWalk index seedIds hops settings).visited.entries.map fun e => impactRow index e.1 e.2)
  unfold impactModelForSeed
  dsimp only
  rw [hperm.length_eq, hperm.countP_eq, hperm.countP_eq, List.countP_map, List.countP_map]
  constructor
  · rw [List.length_map, List.length_eq_countP_add_countP (fun e => (impactRow index e.1 e.2).heuristic),
      ← List.countP_eq_length_filter]
    refine (Nat.add_sub_cancel_left ..).trans ?_
    simp
  · rw [List.countP_filter]
    refine List.countP_congr fun e _ => ?_
    simp [impactRow, and_comm]

/-- **When the marks are right.** The rows and the totals are exact if and only if no file is
guessed at before it is reached in earnest. -/
theorem guessesExact_iff (graph : Graph) (opts : IndexOptions) (settings : Settings)
    (seedIds : List Str) (hops cap : Nat) (before : ImpactRow → ImpactRow → Bool) :
    GuessesExact graph opts settings seedIds hops cap before ↔
      EarnestFirst graph opts settings seedIds hops := by
  rw [earnestFirst_iff]
  refine ⟨fun h => h.1, fun hexact => ⟨hexact, ?_⟩⟩
  obtain ⟨htotal, htests⟩ := totals_impactModelForSeed (loadGraphIndexWith graph opts) seedIds hops cap
    settings before
  have hmem : ∀ e ∈ (impactWalk (loadGraphIndexWith graph opts) seedIds hops settings).visited.entries,
      (impactWalk (loadGraphIndexWith graph opts) seedIds hops settings).visited.get? e.1 = some e.2 :=
    fun e he => OrderedMap.get?_eq_some_of_mem he
  -- the rows not marked as guesses are the files counted
  refine ⟨((impactWalk (loadGraphIndexWith graph opts) seedIds hops settings).visited.entries.filter
    fun e => !(impactRow (loadGraphIndexWith graph opts) e.1 e.2).heuristic).map Prod.fst, ?_, ?_, ?_, ?_⟩
  · exact (impactWalk _ seedIds hops settings).visited.nodup.sublist
      (List.Sublist.map _ List.filter_sublist)
  · intro f
    simp only [List.mem_map, List.mem_filter, Bool.not_eq_true']
    constructor
    · rintro ⟨e, ⟨he, hrow⟩, rfl⟩
      have hv := hmem e he
      refine ⟨(exists_visited_iff.mp ⟨_, hv⟩).1, ?_⟩
      by_contra hnone
      exact absurd ((hexact _ _ hv).mpr hnone) (by rw [hrow]; decide)
    · rintro ⟨hseed, n, hle, hsolid⟩
      obtain ⟨v, hv⟩ := exists_visited_iff.mpr ⟨hseed, n, hle, hsolid.reachedIn⟩
      refine ⟨(f, v), ⟨OrderedMap.mem_of_get?_eq_some hv, ?_⟩, rfl⟩
      rw [← Bool.not_eq_true, hexact f v hv, not_not]
      exact ⟨n, hle, hsolid⟩
  · rw [htotal, List.length_map]
  · rw [htests, List.countP_map]
    rfl

end Solid

/-! ## A guess that comes first -/

/-- `App` uses `Core` by a guess and `Shell`, which uses `Core`, in earnest. -/
def guessedEarly : Graph where
  defs := [⟨"Core".toList, "Core".toList, "class".toList, "core.cs".toList, [], []⟩,
    ⟨"Shell".toList, "Shell".toList, "class".toList, "shell.cs".toList, [], []⟩]
  edges := [.usesMember "app.cs".toList 4 "Core".toList "core.cs".toList true (some .guess),
    .usesType "app.cs".toList 5 "Shell".toList "shell.cs".toList false,
    .usesType "shell.cs".toList 3 "Core".toList "core.cs".toList false]
  unitIsTest := fun _ => false

/-- The row of `app.cs` stays a guess although a chain of two steps ends there in earnest. -/
theorem guessedEarly_not_exact :
    ¬ GuessesExact guessedEarly ⟨true, true, true⟩ ⟨true, 8, 34⟩ ["Core".toList] 2 50 fun _ _ => true := by
  rintro ⟨hrows, -⟩
  have hvisited : ((impactWalk (loadGraphIndexWith guessedEarly ⟨true, true, true⟩) ["Core".toList] 2
      ⟨true, 8, 34⟩).visited.get? "app.cs".toList).map
        (fun v => (impactRow (loadGraphIndexWith guessedEarly ⟨true, true, true⟩) "app.cs".toList v).heuristic) =
      some true := by decide +kernel
  obtain ⟨v, hv, hmarked⟩ := Option.map_eq_some_iff.mp hvisited
  refine (hrows _ v hv).mp hmarked ⟨2, le_rfl, 1, rfl, "Shell".toList, ?_, none, ?_⟩
  · refine .next (.here List.mem_cons_self) ⟨"shell.cs".toList, ⟨none, ?_⟩, by decide +kernel, ?_⟩
    · exact .precise (e := .usesType "shell.cs".toList 3 "Core".toList "core.cs".toList false)
        (by decide) (.usesType _ _ _) rfl
    · exact ⟨_, List.mem_cons_of_mem _ List.mem_cons_self, rfl, Or.inl rfl⟩
  · exact .precise (e := .usesType "app.cs".toList 5 "Shell".toList "shell.cs".toList false)
      (by decide) (.usesType _ _ _) rfl

end Devscout.Query
