/-
# Devscout.Freshness.Relevance -- which paths a change to can invalidate an index

The shape tests a freshness check filters changed paths with. An indexed path
lies in the scope, has no skipped directory component and a source extension; a
configuration input is a project file, a `Directory.Build.props` or a
`Cargo.toml` that model discovery reads. Both are string tests on `/`-joined
relative paths, written apart from the walk they are meant to agree with; the
lemmas here restate them over path segments, where the walk lives.
-/

import Devscout.Walk

namespace Devscout

open Lib Lib.Text Lib.Files

/-! ## The predicates -/

def isWithinScope (rel : Str) (scope : List Str) : Bool :=
  scope.any fun d => d == here || rel == d || (d ++ ['/']).isPrefixOf rel

/-- A directory is no prefix of names. -/
example : isWithinScope ['s', '/', 'a'] [['s']] = true ∧ isWithinScope ['s', 'a'] [['s']] = false := by
  decide +kernel

/-- The directory part of a relative path, empty at the root. -/
def dirOf (rel : Str) : Str :=
  match rsplit '/' rel with
  | some (dir, _) => dir
  | none => []

/-- The last segment of a relative path. -/
def nameOf (rel : Str) : Str :=
  match rsplit '/' rel with
  | some (_, name) => name
  | none => rel

def hasSkippedComponent (dir : Str) : Bool := (splitSlash dir).any isSkipDir

/-- Whether `rel` is a source file `map` would index inside `scope`. -/
def isIndexedPath (rel : Str) (scope : List Str) : Bool :=
  if rel.isEmpty || !isWithinScope rel scope then false
  else if hasSkippedComponent (dirOf rel) then false
  else SOURCE_EXT.contains (extensionOf (nameOf rel))

/-- The directories strictly between a scope directory and the root, the root
itself as the empty text. The source sorts and dedups the list; every use of it
is a membership test or one pathspec for each element. -/
def ancestorDirsOfScope (scope : List Str) : List Str :=
  ((scope.flatMap fun d => if d = here then [] else parents d ++ [[]]).insertionSort (· ≤ ·)).dedup

def cargoToml : Str := "Cargo.toml".toList
def directoryBuildProps : Str := "Directory.Build.props".toList
def csprojExt : Str := ".csproj".toList

/-- Whether `rel` is a configuration input model discovery reads. -/
def isConfigInput (rel : Str) (scope : List Str) : Bool :=
  let name := nameOf rel
  let dir := dirOf rel
  let inScope := isWithinScope rel scope && !hasSkippedComponent dir
  if name = cargoToml then inScope
  else if !(csprojExt.isSuffixOf name || name == directoryBuildProps) then false
  else inScope || (ancestorDirsOfScope scope).any (· == dir)

def isRelevant (rel : Str) (scope : List Str) : Bool :=
  isIndexedPath rel scope || isConfigInput rel scope

/-! ## Pathspecs -/

def literalMagic : Str := ":(literal)".toList
def globMagic : Str := ":(glob)".toList

/-- `status::scope_pathspecs`. -/
def scopePathspecs (scope : List Str) : List Str :=
  scope.map fun d => if d = here then here else literalMagic ++ d

/-- The pathspecs of the configuration inputs the ancestor scan reads. -/
def configPathspecs (scope : List Str) : List Str :=
  (ancestorDirsOfScope scope).flatMap fun dir =>
    let pre := if dir.isEmpty then [] else dir ++ ['/']
    [literalMagic ++ pre ++ directoryBuildProps, globMagic ++ pre ++ '*' :: csprojExt]

/-! ## The same tests over segments -/

/-- Some scope element is an ancestor of everything below `dir`. -/
def coveredBy (scope dir : List Str) : Prop :=
  ∃ e ∈ scope, e = here ∨ splitSlash e <+: dir

instance (scope dir : List Str) : Decidable (coveredBy scope dir) :=
  inferInstanceAs (Decidable (∃ e ∈ scope, _))

section Segments

variable {segs : List Str} (hnames : ∀ s ∈ segs, isName s = true) (hne : segs ≠ [])
include hnames hne

theorem isWithinScope_joinSlash {scope : List Str} :
    isWithinScope (joinSlash segs) scope = true ↔
      joinSlash segs ∈ scope ∨ coveredBy scope segs.dropLast := by
  have hslash : ∀ s ∈ segs, '/' ∉ s := fun s hs => isName_noSlash (hnames s hs)
  simp only [isWithinScope, List.any_eq_true, Bool.or_eq_true, beq_iff_eq, List.isPrefixOf_iff_prefix,
    dirPrefix_iff hslash hne, coveredBy]
  constructor
  · rintro ⟨d, hd, (rfl | rfl) | ⟨t, ht, hseg⟩⟩
    · exact Or.inr ⟨here, hd, Or.inl rfl⟩
    · exact Or.inl hd
    · refine Or.inr ⟨d, hd, Or.inr ?_⟩
      rw [hseg, List.dropLast_append_of_ne_nil ht]
      exact List.prefix_append _ _
  · rintro (hmem | ⟨d, hd, rfl | ⟨t, ht⟩⟩)
    · exact ⟨_, hmem, Or.inl (Or.inr rfl)⟩
    · exact ⟨here, hd, Or.inl (Or.inl rfl)⟩
    · refine ⟨d, hd, Or.inr ⟨t ++ [segs.getLast hne], by simp, ?_⟩⟩
      rw [← List.append_assoc, ht, List.dropLast_append_getLast]

theorem rsplit_joinSlash : rsplit '/' (joinSlash segs) =
    if segs.dropLast = [] then none
    else some (joinSlash segs.dropLast, segs.getLast hne) := by
  have hlast : '/' ∉ segs.getLast hne := isName_noSlash (hnames _ (List.getLast_mem hne))
  have hsplit : segs = segs.dropLast ++ [segs.getLast hne] :=
    (List.dropLast_append_getLast hne).symm
  split
  · rename_i hnil
    rw [hnil, List.nil_append] at hsplit
    rw [hsplit, joinSlash_singleton]
    exact rsplit_eq_none_iff.mpr hlast
  · rename_i hnil
    conv_lhs => rw [hsplit, joinSlash_append hnil (by simp), joinSlash_singleton]
    exact rsplit_append _ hlast

theorem dirOf_joinSlash : dirOf (joinSlash segs) = joinSlash segs.dropLast := by
  rw [dirOf, rsplit_joinSlash hnames hne]
  by_cases h : segs.dropLast = []
  · simp [h]
  · simp [h]

theorem nameOf_joinSlash : nameOf (joinSlash segs) = segs.getLastD [] := by
  have hlast : segs.getLastD [] = segs.getLast hne := by
    rw [List.getLastD_eq_getLast?, List.getLast?_eq_some_getLast hne]
    rfl
  rw [nameOf, rsplit_joinSlash hnames hne, hlast]
  by_cases h : segs.dropLast = []
  · have hsplit : segs = [segs.getLast hne] := by
      simpa [h] using (List.dropLast_append_getLast hne).symm
    rw [if_pos h]
    conv_lhs => rw [hsplit]
    simp
  · simp [h]

theorem hasSkippedComponent_joinSlash :
    hasSkippedComponent (joinSlash segs) = segs.any isSkipDir := by
  rw [hasSkippedComponent, splitSlash_joinSlash (fun s hs => isName_noSlash (hnames s hs)) hne]

end Segments

theorem hasSkippedComponent_nil : hasSkippedComponent [] = false := by decide

theorem hasSkippedComponent_dirOf {segs : List Str} (hnames : ∀ s ∈ segs, isName s = true)
    (hne : segs ≠ []) :
    hasSkippedComponent (dirOf (joinSlash segs)) = segs.dropLast.any isSkipDir := by
  rw [dirOf_joinSlash hnames hne]
  by_cases h : segs.dropLast = []
  · simp [h, hasSkippedComponent_nil]
  · exact hasSkippedComponent_joinSlash
      (fun s hs => hnames s (List.mem_of_mem_dropLast hs)) h

theorem joinSlash_ne_nil {segs : List Str} (hnames : ∀ s ∈ segs, isName s = true)
    (hne : segs ≠ []) : joinSlash segs ≠ [] := by
  obtain ⟨s, ss, rfl⟩ := List.exists_cons_of_ne_nil hne
  have hs : s ≠ [] := isName_ne_nil (hnames s List.mem_cons_self)
  by_cases hss : ss = []
  · simpa [hss] using hs
  · simp [joinSlash_cons hss]

/-- **Indexed paths, over segments.** -/
theorem isIndexedPath_joinSlash {segs scope : List Str} (hnames : ∀ s ∈ segs, isName s = true)
    (hne : segs ≠ []) :
    isIndexedPath (joinSlash segs) scope = true ↔
      (joinSlash segs ∈ scope ∨ coveredBy scope segs.dropLast) ∧
        (∀ s ∈ segs.dropLast, isSkipDir s = false) ∧
        extensionOf (segs.getLastD []) ∈ SOURCE_EXT := by
  have hempty : (joinSlash segs).isEmpty = false := by
    simpa using joinSlash_ne_nil hnames hne
  rw [← isWithinScope_joinSlash hnames hne, isIndexedPath, hempty,
    hasSkippedComponent_dirOf hnames hne, nameOf_joinSlash hnames hne]
  cases hscope : isWithinScope (joinSlash segs) scope
  · simp
  · cases hskip : segs.dropLast.any isSkipDir
    · simp only [List.any_eq_false, Bool.not_eq_true] at hskip
      simp only [Bool.not_true, Bool.or_self, Bool.false_eq_true, if_false, List.contains_eq_mem,
        decide_eq_true_eq, true_and]
      exact ⟨fun h => ⟨hskip, h⟩, And.right⟩
    · simp only [List.any_eq_true] at hskip
      obtain ⟨s, hs, hs'⟩ := hskip
      simp only [Bool.not_true, Bool.or_self, Bool.false_eq_true, if_false, if_true, true_and,
        false_iff, not_and]
      intro hall
      rw [hall s hs] at hs'
      cases hs'

end Devscout
