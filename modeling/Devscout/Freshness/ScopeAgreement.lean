/-
# Devscout.Freshness.ScopeAgreement -- the walk and the relevance predicate

Two definitions of "inside the scope" decide what is indexed and what a
freshness check looks at: the walk joins each scope element onto the root and
recurses, `isIndexedPath` compares text. For elements written as normalized
relative directories the two coincide. An element the walk resolves to another
spelling (`src/`, `./src`, an absolute path, a climb above the root) or one that
passes a skipped directory name lists files the predicate does not know.
-/

import Devscout.Freshness.Relevance
import Mathlib

namespace Devscout

open Lib Lib.Text Lib.Files

/-- `rel` names, from the root, a file the walk lists below it. -/
def RepoRelative (fs : Dir) (root : Root) (ign : Ignored) (scope : List Str) (rel : Str) : Prop :=
  ∃ d ∈ scope, ∃ segs below, Listed fs root SOURCE_EXT ign d segs ∧ below ≠ [] ∧
    normalize (scopeAbs root d ++ segs) = root.comps ++ below ∧ rel = joinSlash below

/-- `below` is a regular file of the repository that no record of the ignore set
covers, in a scope directory that exists, reached from it without a link. -/
structure InScopeFile (fs : Dir) (root : Root) (ign : Ignored) (scope below : List Str) : Prop where
  names : ∀ s ∈ below, isName s = true
  visible : ∀ p, p ≠ [] → p <+: below → ign.covers (joinSlash p) = false
  reached : ∃ d ∈ scope, ∃ start tail b r, stat fs (scopeAbs root d) = some (.dir start) ∧
    below = (if d = here then [] else splitSlash d) ++ tail ∧ start.at? tail = some (.file b r)

/-- The walk and the predicate agree on a scope, whatever the tree and the ignore
set are. -/
def ScopesAgree (root : Root) (scope : List Str) : Prop :=
  ∀ (fs : FileTree) (ign : Ignored) (files : List Str),
    listSourceFiles fs.dir root scope ign = .ok files →
      (∀ rel ∈ files, RepoRelative fs.dir root ign scope rel → isIndexedPath rel scope = true) ∧
        ∀ below, InScopeFile fs.dir root ign scope below →
          isIndexedPath (joinSlash below) scope = true → joinSlash below ∈ files

/-- Where an element leads, the predicate follows: below the root it passes no
skipped name and some element covers it as written, and from above the root the
walk either never reaches the repository or the scope is the whole of it. -/
def elementFollowed (root : Root) (scope : List Str) (d : Str) : Bool :=
  let n := normalize (scopeAbs root d)
  if root.comps.isPrefixOf n then
    (n.drop root.comps.length).all (!isSkipDir ·) && decide (coveredBy scope (n.drop root.comps.length))
  else if n.isPrefixOf root.comps then
    (root.comps.drop n.length).any isSkipDir || scope.contains here
  else true

def scopeFollowed (root : Root) (scope : List Str) : Bool := scope.all (elementFollowed root scope)

/-! ## What the walk lists is indexed -/

theorem elementFollowed_below {root : Root} {scope : List Str} {d : Str} {dir : List Str}
    (hn : normalize (scopeAbs root d) = root.comps ++ dir) :
    elementFollowed root scope d = true ↔
      (∀ s ∈ dir, isSkipDir s = false) ∧ coveredBy scope dir := by
  simp [elementFollowed, hn]

theorem elementFollowed_above {root : Root} {scope : List Str} {d : Str} {rest : List Str}
    (hne : rest ≠ []) (hn : root.comps = normalize (scopeAbs root d) ++ rest) :
    elementFollowed root scope d = true ↔ (∃ s ∈ rest, isSkipDir s = true) ∨ here ∈ scope := by
  have hlen : ¬root.comps <+: normalize (scopeAbs root d) := by
    intro h
    have := h.length_le
    rw [hn, List.length_append] at this
    exact hne (List.length_eq_zero_iff.mp (by omega))
  have hpre : normalize (scopeAbs root d) <+: root.comps := ⟨rest, hn.symm⟩
  simp only [elementFollowed, List.isPrefixOf_iff_prefix, hlen, hpre, if_true, if_false]
  rw [hn]
  simp

theorem Emitted.names {root : Root} {exts : List Str} {ign : Ignored} {dir : List Str}
    {start : Dir} (hwf : start.wf) {segs : List Str}
    (h : Emitted root exts ign dir start segs) : ∀ s ∈ segs, isName s = true := by
  obtain ⟨⟨b, r, hat⟩, -⟩ := h
  exact Dir.at?_names hwf hat

/-- A file listed through an element the predicate follows is indexed. -/
theorem isIndexedPath_of_listed {fs : FileTree} {root : Root} {ign : Ignored} {scope : List Str}
    {d : Str} (hnul : Char.ofNat 0 ∉ d) (hfollowed : elementFollowed root scope d = true)
    {segs below : List Str}
    (hlisted : Listed fs.dir root SOURCE_EXT ign d segs) (hbelow : below ≠ [])
    (hpath : normalize (scopeAbs root d ++ segs) = root.comps ++ below) :
    isIndexedPath (joinSlash below) scope = true := by
  obtain ⟨-, start, hstat, hemit⟩ := hlisted
  have hnames := hemit.names (stat_wf fs.wf hstat)
  have hsegs : segs ≠ [] := emitted_ne_nil hemit
  obtain ⟨-, hext, hskip, -⟩ := hemit
  rw [normalize_append_names _ hnames] at hpath
  rcases List.append_eq_append_iff.mp hpath with ⟨rest, hroot, rfl⟩ | ⟨dir, hn, rfl⟩
  · -- the walk came from above the root, or from the root itself
    have hbelowNames : ∀ s ∈ below, isName s = true := fun s hs => hnames s (by simp [hs])
    rw [List.dropLast_append_of_ne_nil hbelow] at hskip
    have hbelowSkip : ∀ s ∈ below.dropLast, isSkipDir s = false := fun s hs =>
      hskip s (by simp [hs])
    have hlast : (rest ++ below).getLastD [] = below.getLastD [] := by
      simp [List.getLastD_eq_getLast?, List.getLast?_append_of_ne_nil _ hbelow]
    have hcovered : coveredBy scope below.dropLast := by
      by_cases hrest : rest = []
      · subst hrest
        rw [List.append_nil] at hroot
        obtain ⟨-, e, he, hpre⟩ :=
          (elementFollowed_below (by simpa using hroot.symm : _ = root.comps ++ [])).mp hfollowed
        rcases hpre with rfl | hpre
        · exact ⟨here, he, Or.inl rfl⟩
        · exact absurd (List.prefix_nil.mp hpre) (splitSlash_ne_nil e)
      · rcases (elementFollowed_above hrest hroot).mp hfollowed with ⟨s, hs, hs'⟩ | hhere
        · rw [hskip s (by simp [hs])] at hs'
          cases hs'
        · exact ⟨here, hhere, Or.inl rfl⟩
    exact (isIndexedPath_joinSlash hbelowNames hbelow).mpr
      ⟨Or.inr hcovered, hbelowSkip, hlast ▸ hext⟩
  · -- the walk started below the root, in `dir`
    obtain ⟨hdirSkip, e, he, hpre⟩ := (elementFollowed_below hn).mp hfollowed
    have hdirNames : ∀ s ∈ dir, isName s = true := fun s hs =>
      normalize_scopeAbs_names root hnul s (hn ▸ by simp [hs])
    have hbelowNames : ∀ s ∈ dir ++ segs, isName s = true := fun s hs =>
      (List.mem_append.mp hs).elim (hdirNames s) (hnames s)
    have hlast : (dir ++ segs).getLastD [] = segs.getLastD [] := by
      simp [List.getLastD_eq_getLast?, List.getLast?_append_of_ne_nil _ hsegs]
    have hcovered : coveredBy scope (dir ++ segs).dropLast := by
      rw [List.dropLast_append_of_ne_nil hsegs]
      refine ⟨e, he, hpre.imp_right fun h => h.trans (List.prefix_append _ _)⟩
    refine (isIndexedPath_joinSlash hbelowNames hbelow).mpr ⟨Or.inr hcovered, ?_, hlast ▸ hext⟩
    rw [List.dropLast_append_of_ne_nil hsegs]
    exact fun s hs => (List.mem_append.mp hs).elim (hdirSkip s) (hskip s)

/-! ## What is indexed the walk lists -/

theorem scopeAbs_of_names (root : Root) {d : Str} (hd : d ≠ here)
    (hnames : ∀ s ∈ splitSlash d, isName s = true) :
    scopeAbs root d = root.comps ++ splitSlash d := by
  rw [scopeAbs, if_neg hd, root.join_of_names hnames]

/-- An indexed file of an existing scope directory is listed. -/
theorem mem_of_inScopeFile {fs : FileTree} {root : Root} {ign : Ignored} {scope files below : List Str}
    (hfiles : listSourceFiles fs.dir root scope ign = .ok files)
    (hfile : InScopeFile fs.dir root ign scope below)
    (hindexed : isIndexedPath (joinSlash below) scope = true) : joinSlash below ∈ files := by
  obtain ⟨hnames, hvisible, d, hd, start, tail, b, r, hstat, hbelow, hat⟩ := hfile
  have htail : tail ≠ [] := by
    rintro rfl
    simp at hat
  have hne : below ≠ [] := by simp [hbelow, htail]
  obtain ⟨-, hskip, hext⟩ := (isIndexedPath_joinSlash hnames hne).mp hindexed
  -- the scope directory's own part of the path, and where the walk starts from
  obtain ⟨own, hown, habs, hcov⟩ : ∃ own, below = own ++ tail ∧
      scopeAbs root d = root.comps ++ own ∧ (d = here ∨ ign.covers d = false) := by
    by_cases hhere : d = here
    · exact ⟨[], by simpa [hhere] using hbelow, by simp [scopeAbs, hhere], Or.inl hhere⟩
    · rw [if_neg hhere] at hbelow
      have hds : ∀ s ∈ splitSlash d, isName s = true := fun s hs => hnames s (by simp [hbelow, hs])
      refine ⟨splitSlash d, hbelow, scopeAbs_of_names root hhere hds, Or.inr ?_⟩
      have := hvisible (splitSlash d) (splitSlash_ne_nil d) ⟨tail, hbelow.symm⟩
      rwa [joinSlash_splitSlash] at this
  subst hown
  have hrel : ∀ p, p ≠ [] → p <+: tail →
      relPath root (scopeAbs root d ++ p) = joinSlash (own ++ p) := by
    intro p hp hpt
    rw [habs, List.append_assoc]
    refine relPath_join (by simp [hp]) fun s hs => hnames s ?_
    exact (List.prefix_append_right_inj own |>.mpr hpt).subset hs
  have hlast : (own ++ tail).getLastD [] = tail.getLastD [] := by
    simp [List.getLastD_eq_getLast?, List.getLast?_append_of_ne_nil _ htail]
  have hemit : Emitted root SOURCE_EXT ign (scopeAbs root d) start tail := by
    refine ⟨⟨b, r, hat⟩, hlast ▸ hext, ?_, ?_⟩
    · intro s hs
      refine hskip s ?_
      rw [List.dropLast_append_of_ne_nil htail]
      exact List.mem_append_right _ hs
    · intro p hp hpt
      rw [hrel p hp hpt]
      exact hvisible _ (by simp [hp]) (List.prefix_append_right_inj own |>.mpr hpt)
  refine (mem_listFilesWithExt fs.wf hfiles).mpr ⟨d, hd, tail, ⟨hcov, start, hstat, hemit⟩, ?_⟩
  rw [listedRel, hrel tail htail (List.prefix_refl _)]

/-! ## A tree that shows every disagreement -/

/-- Every component the root and the scope elements are written with. -/
def writtenComps (root : Root) (scope : List Str) : List Str :=
  root.comps ++ scope.flatMap splitSlash

/-- The name of a source file no component is called. -/
def freshLeaf (comps : List Str) : Str :=
  List.replicate (comps.map List.length).sum 'x' ++ '.' :: ['c', 's']

theorem freshLeaf_not_mem (comps : List Str) : freshLeaf comps ∉ comps := by
  intro h
  have hle : (freshLeaf comps).length ≤ (comps.map List.length).sum :=
    List.le_sum_of_mem (List.mem_map_of_mem h)
  simp [freshLeaf] at hle

theorem isName_freshLeaf (comps : List Str) : isName (freshLeaf comps) = true := by
  have hlen : 3 ≤ (freshLeaf comps).length := by simp [freshLeaf]
  have hne : ∀ t : Str, t.length < 3 → freshLeaf comps ≠ t := fun t ht h => by
    rw [h] at hlen
    omega
  simp only [isName, decide_eq_true_eq]
  refine ⟨hne _ (by simp), hne _ (by simp), hne _ (by simp), ?_, ?_⟩
  · simp [freshLeaf]
  · simp only [freshLeaf, List.mem_append, List.mem_replicate, not_or]
    exact ⟨fun h => absurd h.2 (by decide), by decide⟩

theorem extensionOf_freshLeaf (comps : List Str) : extensionOf (freshLeaf comps) ∈ SOURCE_EXT := by
  have h : rsplit '.' (freshLeaf comps) = some (List.replicate _ 'x', ['c', 's']) :=
    rsplit_append _ (by decide)
  rw [extensionOf, h]
  change ".cs".toList ∈ SOURCE_EXT
  decide

/-- The complete tree over everything the scope mentions. -/
def everyDir (root : Root) (scope : List Str) : FileTree where
  dir := Dir.complete (((writtenComps root scope).filter isName).dedup)
    (freshLeaf (writtenComps root scope)) (writtenComps root scope).length
  wf := Dir.wf_complete (isName_freshLeaf _)
    (fun h => freshLeaf_not_mem _ (List.mem_of_mem_filter (List.mem_dedup.mp h)))
    (List.nodup_dedup _)
    (fun _ hs => (List.mem_filter.mp (List.mem_dedup.mp hs)).2) _

section EveryDir

variable {root : Root} {scope : List Str} (hnul : ∀ d ∈ scope, Char.ofNat 0 ∉ d)

theorem splitSlash_sublist {d : Str} (hd : d ∈ scope) :
    (splitSlash d).Sublist (scope.flatMap splitSlash) := by
  obtain ⟨a, b, rfl⟩ := List.append_of_mem hd
  simp only [List.flatMap_append, List.flatMap_cons]
  exact (List.sublist_append_left _ _).trans (List.sublist_append_right _ _)

theorem scopeAbs_sublist {d : Str} (hd : d ∈ scope) :
    (scopeAbs root d).Sublist (writtenComps root scope) := by
  rw [scopeAbs, writtenComps]
  split
  · exact List.sublist_append_left _ _
  · rw [Root.join]
    split
    · exact (splitSlash_sublist hd).trans (List.sublist_append_right _ _)
    · exact List.Sublist.append_left (splitSlash_sublist hd) _

include hnul in
/-- Every scope element is a directory of that tree, the one it normalizes to. -/
theorem stat_everyDir {d : Str} (hd : d ∈ scope) :
    stat (everyDir root scope).dir (scopeAbs root d) =
      some (.dir (Dir.complete (((writtenComps root scope).filter isName).dedup)
        (freshLeaf (writtenComps root scope))
        ((writtenComps root scope).length - (normalize (scopeAbs root d)).length))) := by
  refine stat_complete ?_ ?_ (scopeAbs_sublist hd).length_le
  · exact fun h => freshLeaf_not_mem _ (List.mem_of_mem_filter (List.mem_dedup.mp h))
  · intro c hc
    by_cases hhere : isHere c = true
    · exact Or.inl hhere
    · by_cases hup : isUp c = true
      · exact Or.inr (Or.inl hup)
      · refine Or.inr (Or.inr (List.mem_dedup.mpr (List.mem_filter.mpr
          ⟨(scopeAbs_sublist hd).subset hc, ?_⟩)))
        rw [Bool.not_eq_true] at hhere hup
        rcases (List.mem_append.mp ((scopeAbs_sublist hd).subset hc)) with hroot | hds
        · exact root.names c hroot
        · obtain ⟨e, he, hce⟩ := List.mem_flatMap.mp hds
          exact isName_of_splitSlash (hnul e he) hce hhere hup

include hnul in
/-- Below every scope element the fresh file is listed, at any depth. -/
theorem listed_everyDir {d : Str} (hd : d ∈ scope) (segs : List Str)
    (hsegs : ∀ s ∈ segs, s ∈ root.comps) (hskip : ∀ s ∈ segs, isSkipDir s = false)
    (hlen : (normalize (scopeAbs root d)).length + segs.length ≤ (writtenComps root scope).length) :
    Listed (everyDir root scope).dir root SOURCE_EXT Ignored.empty d
      (segs ++ [freshLeaf (writtenComps root scope)]) := by
  refine ⟨Or.inr (Ignored.empty_covers d), _, stat_everyDir hnul hd, ?_, ?_, ?_, ?_⟩
  · refine ⟨[], true, Dir.at?_complete_leaf ?_ ?_ (by omega)⟩
    · exact fun h => freshLeaf_not_mem _ (List.mem_of_mem_filter (List.mem_dedup.mp h))
    · intro s hs
      exact List.mem_dedup.mpr (List.mem_filter.mpr
        ⟨List.mem_append_left _ (hsegs s hs), root.names s (hsegs s hs)⟩)
  · simpa [List.getLastD_eq_getLast?] using extensionOf_freshLeaf _
  · simpa using hskip
  · simp

variable (root scope) in
/-- In that tree the fresh file is indexed only through an element that covers
its directory. -/
theorem coveredBy_of_isIndexedPath (dir : List Str) (hdir : ∀ s ∈ dir, isName s = true)
    (h : isIndexedPath (joinSlash (dir ++ [freshLeaf (writtenComps root scope)])) scope = true) :
    (∀ s ∈ dir, isSkipDir s = false) ∧ coveredBy scope dir := by
  have hnames : ∀ s ∈ dir ++ [freshLeaf (writtenComps root scope)], isName s = true := by
    intro s hs
    rcases List.mem_append.mp hs with hs | hs
    · exact hdir s hs
    · rw [List.mem_singleton.mp hs]
      exact isName_freshLeaf _
  obtain ⟨hcov, hskip, -⟩ := (isIndexedPath_joinSlash hnames (by simp)).mp h
  rw [List.dropLast_concat] at hcov hskip
  refine ⟨hskip, hcov.resolve_left fun hmem => ?_⟩
  have hleaf : freshLeaf (writtenComps root scope) ∈
      splitSlash (joinSlash (dir ++ [freshLeaf (writtenComps root scope)])) := by
    rw [splitSlash_joinSlash (fun s hs => isName_noSlash (hnames s hs)) (by simp)]
    simp
  exact freshLeaf_not_mem (writtenComps root scope)
    (List.mem_append_right _ ((splitSlash_sublist hmem).subset hleaf))

end EveryDir

def sampleRoot : Root := ⟨["r".toList], by decide, by decide⟩

/-- `/r/src/a.cs`. -/
def sampleTree : FileTree :=
  ⟨.sub "r".toList (.sub "src".toList (.file "a.cs".toList [] true .nil) .nil) .nil, by decide⟩

end Devscout
