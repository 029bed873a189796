/-
# Devscout.ProjectScan -- which directories above the scope are scanned

A project file above a scope directory belongs to the model too, so discovery looks into every
directory between a scope directory and the root. It gets there by taking the last component
off a path until the root is left. That ends at the root only where the path was spelled below
it: a path that leads elsewhere is followed up to the root of the file system, and a `..` is
taken off like a name. `staysInside_iff` says exactly for which scopes the scan stays where the
repository is.
-/

import Devscout.Project

namespace Devscout

open Lib Lib.Text Lib.Files

/-! ## What was meant -/

/-- The strict ancestors of a directory up to and including the root, the nearest first; none
unless the directory lies under the root. -/
def strictAncestors (root dir : List Str) : List (List Str) :=
  if root <+: dir then (dir.drop root.length).inits.dropLast.reverse.map (root ++ ·) else []

/-- The path of a scope element, as its components are walked. -/
def scopePath (root : Root) (d : Str) : List Str := pathComps (scopeAbs root d)

/-- For every element the ancestors are those of the directory it names, and all directories that
are scanned lie in the repository. -/
def StaysInside (root : Root) (scope : List Str) : Prop :=
  (∀ d ∈ scope, ancestorsUpTo root.comps (scopePath root d) =
      strictAncestors root.comps (normalize (scopePath root d))) ∧
    ∀ d ∈ scope, ∀ dir ∈ ancestorsUpTo root.comps (scopePath root d), root.comps <+: normalize dir

/-- The path is spelled below the root without `..`, or it is that of the file system's root. -/
def SpelledBelow (root : Root) (d : Str) : Prop :=
  scopePath root d = [] ∨
    root.comps <+: scopePath root d ∧ ∀ c ∈ scopePath root d, isUp c = false

/-! ## Lengths -/

section Paths

variable {root path : List Str}

theorem isHere_of_mem_pathComps {c : Str} (h : c ∈ pathComps path) : isHere c = false := by
  rw [pathComps, List.mem_filter, Bool.not_eq_true'] at h
  exact h.2

theorem normalize_concat (path : List Str) (c : Str) : normalize (path ++ [c]) =
    if isHere c then normalize path
    else if isUp c then (normalize path).dropLast else normalize path ++ [c] := by
  rw [normalize, List.foldl_append]
  rfl

theorem normalize_plain (hhere : ∀ c ∈ path, isHere c = false) (hup : ∀ c ∈ path, isUp c = false) :
    normalize path = path := by
  induction path using List.reverseRecOn with
  | nil => rfl
  | append_singleton path c ih =>
      have hc : c ∈ path ++ [c] := List.mem_append_right path List.mem_cons_self
      rw [normalize_concat, hhere c hc, hup c hc, if_neg Bool.false_ne_true, if_neg Bool.false_ne_true,
        ih (fun d hd => hhere d (List.mem_append_left _ hd)) fun d hd => hup d (List.mem_append_left _ hd)]

/-- A `..` makes the path that is meant shorter than the one that is spelled. -/
theorem length_normalize_lt {c : Str} (hc : c ∈ path) (hup : isUp c = true) :
    (normalize path).length < path.length := by
  induction path using List.reverseRecOn with
  | nil => cases hc
  | append_singleton path d ih =>
      have hle : (normalize path).length ≤ path.length := length_normalize_le path
      rw [normalize_concat, List.length_append, List.length_singleton]
      split
      · omega
      · split
        · rw [List.length_dropLast]
          omega
        · rename_i hno
          rcases List.mem_append.mp hc with hmem | hmem
          · have hlt := ih hmem
            rw [List.length_append, List.length_singleton]
            omega
          · rw [List.mem_singleton.mp hmem] at hup
            exact absurd hup hno

theorem length_strictAncestors_le : (strictAncestors root path).length ≤ path.length - root.length := by
  rw [strictAncestors]
  split
  · rw [List.length_map, List.length_reverse, List.length_dropLast, List.length_inits, List.length_drop]
    omega
  · exact Nat.zero_le _

/-! ## The walk up -/

/-- Below the root the walk up yields the ancestors that are spelled. -/
theorem ancestorsUpTo_append (hroot : root ≠ []) (rest : List Str) :
    ancestorsUpTo root (root ++ rest) = rest.inits.dropLast.reverse.map (root ++ ·) := by
  induction rest using List.reverseRecOn with
  | nil =>
      obtain ⟨c, up, hup⟩ := List.exists_cons_of_ne_nil (List.reverse_ne_nil_iff.mpr hroot)
      have hself : (c :: up).reverse = root := by rw [← hup, List.reverse_reverse]
      rw [ancestorsUpTo, List.append_nil, hup, ancestorsFrom, if_pos hself]
      rfl
  | append_singleton rest c ih =>
      have hinits : (rest ++ [c]).inits.dropLast.reverse = rest :: rest.inits.dropLast.reverse := by
        have hlast : rest.inits = rest.inits.dropLast ++ [rest] := by
          rcases List.eq_nil_or_concat' rest with rfl | ⟨r, d, rfl⟩
          · rfl
          · rw [List.inits_append]
            simp
        rw [List.inits_append]
        show (rest.inits ++ [rest ++ [c]]).dropLast.reverse = _
        rw [List.dropLast_concat]
        nth_rewrite 1 [hlast]
        rw [List.reverse_append]
        rfl
      have hpath : (root ++ (rest ++ [c])).reverse = c :: (root ++ rest).reverse := by
        rw [← List.append_assoc, List.reverse_append]
        rfl
      have hne : (c :: (root ++ rest).reverse).reverse ≠ root := by
        rw [List.reverse_cons, List.reverse_reverse]
        intro h
        have hlen := congrArg List.length h
        simp only [List.length_append, List.length_singleton] at hlen
        omega
      rw [ancestorsUpTo, hpath, ancestorsFrom, if_neg hne, List.reverse_reverse, hinits, List.map_cons, ← ih]
      by_cases hrest : rest = []
      · subst hrest
        rw [if_pos (List.append_nil root), List.append_nil, ancestorsUpTo]
        obtain ⟨d, up, hup⟩ := List.exists_cons_of_ne_nil (List.reverse_ne_nil_iff.mpr hroot)
        have hself : (d :: up).reverse = root := by rw [← hup, List.reverse_reverse]
        rw [hup, ancestorsFrom, if_pos hself]
      · rw [if_neg fun h => hrest (List.append_right_eq_self.mp h), ancestorsUpTo]

/-- Elsewhere it goes on to the root of the file system. -/
theorem length_ancestorsUpTo (h : ¬root <+: path) : (ancestorsUpTo root path).length = path.length := by
  induction path using List.reverseRecOn with
  | nil => rfl
  | append_singleton path c ih =>
      have hself : (c :: path.reverse).reverse ≠ root := by
        rw [List.reverse_cons, List.reverse_reverse]
        intro heq
        exact h (by rw [heq])
      have hparent : path.reverse.reverse ≠ root := by
        rw [List.reverse_reverse]
        rintro rfl
        exact h (List.prefix_append path [c])
      have hrest : ¬root <+: path := fun hpre => h (hpre.trans (List.prefix_append path [c]))
      rw [ancestorsUpTo, List.reverse_append, List.reverse_singleton, List.singleton_append, ancestorsFrom,
        if_neg hself, if_neg hparent, List.length_cons, List.length_append, List.length_singleton]
      exact congrArg (· + 1) (ih hrest)

end Paths

/-! ## When the scan stays -/

section Stays

variable {root : Root} {d : Str}

theorem isHere_of_mem_scopePath {c : Str} (h : c ∈ scopePath root d) : isHere c = false :=
  isHere_of_mem_pathComps h

theorem length_root_pos (root : Root) : 0 < root.comps.length := List.length_pos_iff.mpr root.nonempty

/-- The walk up yields what was meant exactly for a path that is spelled below the root. -/
theorem ancestorsUpTo_eq_iff (root : Root) (d : Str) :
    ancestorsUpTo root.comps (scopePath root d) =
        strictAncestors root.comps (normalize (scopePath root d)) ↔ SpelledBelow root d := by
  have hshort : (strictAncestors root.comps (normalize (scopePath root d))).length ≤
      (normalize (scopePath root d)).length - root.comps.length := length_strictAncestors_le
  have hle : (normalize (scopePath root d)).length ≤ (scopePath root d).length := length_normalize_le _
  have hpos := length_root_pos root
  constructor
  · intro h
    have hlen := congrArg List.length h
    by_cases hpre : root.comps <+: scopePath root d
    · refine .inr ⟨hpre, fun c hc => ?_⟩
      by_contra hup
      rw [Bool.not_eq_false] at hup
      -- the spelling is longer than what it means, and so is the walk
      have hlt := length_normalize_lt hc hup
      obtain ⟨rest, hrest⟩ := hpre
      have hwalk : (ancestorsUpTo root.comps (scopePath root d)).length = rest.length := by
        rw [← hrest, ancestorsUpTo_append root.nonempty]
        simp
      have hpath : (scopePath root d).length = root.comps.length + rest.length := by
        rw [← hrest, List.length_append]
      have hne : 0 < rest.length := by
        rw [List.length_pos_iff]
        rintro rfl
        rw [List.append_nil] at hrest
        rw [← hrest] at hc
        have hname := root.names c hc
        rw [isName_not_up hname] at hup
        cases hup
      omega
    · have hwalk := length_ancestorsUpTo hpre
      exact .inl (List.length_eq_zero_iff.mp (by omega))
  · rintro (hnil | ⟨hpre, hup⟩)
    · have hno : ¬root.comps <+: [] := fun h => root.nonempty (List.prefix_nil.mp h)
      rw [hnil]
      exact (if_neg hno).symm
    · rw [normalize_plain (fun c hc => isHere_of_mem_scopePath hc) hup, strictAncestors, if_pos hpre]
      obtain ⟨rest, hrest⟩ := hpre
      rw [← hrest, ancestorsUpTo_append root.nonempty, List.drop_left]

/-- What was meant lies in the repository. -/
theorem below_of_mem_strictAncestors {path dir : List Str}
    (h : dir ∈ strictAncestors root.comps (normalize path)) : root.comps <+: normalize dir := by
  rw [strictAncestors] at h
  split at h
  · rename_i hpre
    obtain ⟨x, hx, rfl⟩ := List.mem_map.mp h
    have hinit : x <+: (normalize path).drop root.comps.length :=
      (List.mem_inits x _).mp (List.dropLast_subset _ (List.mem_reverse.mp hx))
    have hplain : ∀ c ∈ root.comps ++ x, isHere c = false ∧ isUp c = false := by
      intro c hc
      rcases List.mem_append.mp hc with hc | hc
      · exact ⟨isName_not_here (root.names c hc), isName_not_up (root.names c hc)⟩
      · exact (mem_normalize (List.mem_of_mem_drop (hinit.subset hc))).2
    rw [normalize_plain (fun c hc => (hplain c hc).1) fun c hc => (hplain c hc).2]
    exact List.prefix_append root.comps x
  · cases h

/-- **The scan stays inside the repository** exactly when every scope element is spelled below the
root without `..`, or names the root of the file system. -/
theorem staysInside_iff (root : Root) (scope : List Str) :
    StaysInside root scope ↔ ∀ d ∈ scope, SpelledBelow root d := by
  constructor
  · intro h d hd
    exact (ancestorsUpTo_eq_iff root d).mp (h.1 d hd)
  · intro h
    have hall : ∀ d ∈ scope, ancestorsUpTo root.comps (scopePath root d) =
        strictAncestors root.comps (normalize (scopePath root d)) := fun d hd =>
      (ancestorsUpTo_eq_iff root d).mpr (h d hd)
    refine ⟨hall, fun d hd dir hdir => ?_⟩
    rw [hall d hd] at hdir
    exact below_of_mem_strictAncestors hdir

/-- What the scan then finds lies directly in a directory of the repository. -/
theorem scanAncestorDirs_below {fs : Dir} {ign : Ignored} {scope : List Str} {path : List Str}
    (h : StaysInside root scope) (hpath : path ∈ scanAncestorDirs fs root ign scope) :
    ∃ dir name, path = dir ++ [name] ∧ root.comps <+: normalize dir := by
  obtain ⟨d, hd, hmem⟩ := List.mem_flatMap.mp hpath
  obtain ⟨dir, hdir, hscan⟩ := List.mem_flatMap.mp hmem
  unfold scanAncestorDir at hscan
  split at hscan
  · obtain ⟨name, -, rfl⟩ := List.mem_map.mp (List.mem_filter.mp hscan).1
    exact ⟨dir, name, rfl, h.2 d hd dir hdir⟩
  · cases hscan

end Stays

/-- A root of one directory. -/
def workRoot : Root := ⟨["repo".toList], by decide, by decide⟩

/-- A scope beside the root: the directory above the root is scanned. -/
theorem sibling_leaves : ¬StaysInside workRoot ["../other".toList] := by
  intro h
  have hmem : ["repo".toList, "..".toList] ∈ ancestorsUpTo workRoot.comps (scopePath workRoot "../other".toList) := by
    decide +kernel
  have hbelow := h.2 _ List.mem_cons_self _ hmem
  exact absurd hbelow (by decide +kernel)

end Devscout
