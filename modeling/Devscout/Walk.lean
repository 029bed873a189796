/-
# Devscout.Walk -- source enumeration under a scope

The walk of `map`: each scope directory in order, each directory's entries sorted
by name, subdirectories entered in place. Symbolic links met while listing are
neither followed nor emitted, the fixed names of `SKIP_DIRS` are never entered,
and a path Git ignores is skipped before it is read.

Paths are what the program handles: a scope element is text, joining it onto the
root keeps whatever `.`, `..` or empty components it carries, the operating
system resolves those, and `rel_path` normalizes them lexically before it cuts
the root off by byte length.
-/

import Devscout.Lib.Files
import Mathlib

namespace Devscout

open Lib Lib.Text Lib.Files

/-- Directory names skipped outright, at any depth. -/
def SKIP_DIRS : List Str :=
  ["node_modules".toList, ".git".toList, ".scout".toList, "bin".toList, "obj".toList,
    "dist".toList, "coverage".toList, ".next".toList, "target".toList]

/-- Extensions eligible for the index, with their dot. -/
def SOURCE_EXT : List Str :=
  [".ts".toList, ".tsx".toList, ".js".toList, ".jsx".toList, ".mts".toList, ".cts".toList,
    ".mjs".toList, ".cjs".toList, ".cs".toList, ".rs".toList, ".json".toList, ".md".toList,
    ".xaml".toList, ".resw".toList, ".resx".toList, ".html".toList]

/-- The scope element that means the whole root. -/
def here : Str := ['.']

/-- An absolute, normalized repository root below the file system's own. -/
structure Root where
  comps : List Str
  nonempty : comps ≠ []
  names : ∀ s ∈ comps, isName s = true
  deriving DecidableEq

/-! ## Paths -/

/-- `repo::normalize`: the lexical collapse of `.` and `..`, clamped at `/`. -/
def normalize (path : List Str) : List Str :=
  path.foldl
    (fun out c => if isHere c then out else if isUp c then out.dropLast else out ++ [c]) []

/-- An absolute path as text. -/
def absText (path : List Str) : Str := '/' :: joinSlash path

/-- `repo::rel_path`: both paths resolved, the root cut off by its byte length. -/
def relPath (root : Root) (path : List Str) : Str :=
  let rootS := absText (normalize root.comps)
  let absS := absText (normalize path)
  joinSlash (splitSlash ((sliceFrom (utf8Len rootS + 1) absS).getD []))

/-- `root.join(rel)`: an absolute `rel` replaces the root. -/
def Root.join (root : Root) (rel : Str) : List Str :=
  if rel.head? = some '/' then splitSlash rel else root.comps ++ splitSlash rel

/-- A scope element as the path the walk starts from. -/
def scopeAbs (root : Root) (d : Str) : List Str :=
  if d = here then root.comps else root.join d

theorem normalize_append_names (path : List Str) {segs : List Str}
    (hsegs : ∀ s ∈ segs, isName s = true) : normalize (path ++ segs) = normalize path ++ segs := by
  induction segs using List.reverseRecOn with
  | nil => simp
  | append_singleton segs s ih =>
      have hs := hsegs s (by simp)
      rw [← List.append_assoc, normalize, List.foldl_append, ← normalize,
        ih fun t ht => hsegs t (by simp [ht])]
      simp [isName_not_here hs, isName_not_up hs]

example : normalize [['a'], ['.', '.'], ['.', '.'], ['b']] = [['b']] := by decide +kernel

theorem normalize_names {segs : List Str} (hsegs : ∀ s ∈ segs, isName s = true) :
    normalize segs = segs := by
  simpa [normalize] using normalize_append_names [] hsegs

@[simp] theorem Root.normalize_comps (root : Root) : normalize root.comps = root.comps :=
  normalize_names root.names

theorem mem_normalize {path : List Str} {s : Str} (h : s ∈ normalize path) :
    s ∈ path ∧ isHere s = false ∧ isUp s = false := by
  induction path using List.reverseRecOn with
  | nil => simp [normalize] at h
  | append_singleton path c ih =>
      have hstep : normalize (path ++ [c]) =
          if isHere c then normalize path
          else if isUp c then (normalize path).dropLast else normalize path ++ [c] := by
        simp [normalize]
      have hold : s ∈ normalize path → s ∈ path ++ [c] ∧ isHere s = false ∧ isUp s = false :=
        fun hs => ⟨List.mem_append_left _ (ih hs).1, (ih hs).2⟩
      rw [hstep] at h
      by_cases hhere : isHere c
      · exact hold (by simpa [hhere] using h)
      · by_cases hup : isUp c
        · exact hold (List.mem_of_mem_dropLast (by simpa [hhere, hup] using h))
        · rcases List.mem_append.mp (show s ∈ normalize path ++ [c] by simpa [hhere, hup] using h)
            with hs | hs
          · exact hold hs
          · rw [List.mem_singleton.mp hs]
            exact ⟨by simp, by simpa using hhere, by simpa using hup⟩

theorem length_normalize_le (path : List Str) : (normalize path).length ≤ path.length := by
  induction path using List.reverseRecOn with
  | nil => simp [normalize]
  | append_singleton path c ih =>
      rw [normalize, List.foldl_append, ← normalize]
      simp only [List.foldl_cons, List.foldl_nil, List.length_append, List.length_singleton]
      split
      · omega
      · split
        · simp
          omega
        · simpa using ih

theorem isName_of_splitSlash {d s : Str} (hnul : Char.ofNat 0 ∉ d) (hs : s ∈ splitSlash d)
    (hhere : isHere s = false) (hup : isUp s = false) : isName s = true := by
  obtain ⟨hslash, hsub⟩ := mem_splitSlash hs
  simp only [isHere, isUp, decide_eq_false_iff_not, not_or] at hhere hup
  simp only [isName, decide_eq_true_eq]
  exact ⟨hhere.1, hhere.2, hup, hslash, fun h => hnul (hsub h)⟩

/-- What a scope element normalizes to is made of names. -/
theorem normalize_scopeAbs_names (root : Root) {d : Str} (hnul : Char.ofNat 0 ∉ d) :
    ∀ s ∈ normalize (scopeAbs root d), isName s = true := by
  intro s hs
  obtain ⟨hmem, hhere, hup⟩ := mem_normalize hs
  rw [scopeAbs] at hmem
  split at hmem
  · exact root.names s hmem
  · rw [Root.join] at hmem
    split at hmem
    · exact isName_of_splitSlash hnul hmem hhere hup
    · rcases List.mem_append.mp hmem with hroot | hd
      · exact root.names s hroot
      · exact isName_of_splitSlash hnul hd hhere hup

/-- An element of names is joined component by component. -/
theorem Root.join_of_names (root : Root) {d : Str} (h : ∀ s ∈ splitSlash d, isName s = true) :
    root.join d = root.comps ++ splitSlash d := by
  have hhead : d.head? ≠ some '/' := by
    intro hd
    obtain ⟨r, rfl⟩ := List.head?_eq_some_iff.mp hd
    have hsplit : splitSlash ([] ++ '/' :: r) = splitSlash [] ++ splitSlash r :=
      List.splitOn_append_cons_self [] r
    have hmem : ([] : Str) ∈ splitSlash ('/' :: r) := by
      rw [List.nil_append] at hsplit
      rw [hsplit]
      simp [splitSlash]
    exact isName_ne_nil (h [] hmem) rfl
  rw [Root.join, if_neg hhead]

/-- Below the root, `rel_path` is the path from the root. -/
theorem relPath_of_normalize {root : Root} {path segs : List Str} (hsegs : segs ≠ [])
    (h : normalize path = root.comps ++ segs) : relPath root path = joinSlash segs := by
  have hcut : absText (root.comps ++ segs) = (absText root.comps ++ ['/']) ++ joinSlash segs := by
    simp [absText, joinSlash_append root.nonempty hsegs]
  have hlen : utf8Len (absText root.comps) + 1 = utf8Len (absText root.comps ++ ['/']) := by
    simp [utf8Len]
    rfl
  rw [relPath, root.normalize_comps, h, hcut, hlen, sliceFrom_append]
  simp [joinSlash_splitSlash]

theorem relPath_join {root : Root} {segs : List Str} (hsegs : segs ≠ [])
    (hnames : ∀ s ∈ segs, isName s = true) :
    relPath root (root.comps ++ segs) = joinSlash segs :=
  relPath_of_normalize hsegs (by rw [normalize_append_names _ hnames, root.normalize_comps])

/-! ## The ignore set -/

/-- The untracked paths Git reports as ignored: directory and file records. -/
structure Ignored where
  dirs : List Str
  files : List Str
  deriving DecidableEq

namespace Ignored

/-- Nothing is ignored. -/
def empty : Ignored := ⟨[], []⟩

def isEmpty (ign : Ignored) : Bool := ign.dirs.isEmpty && ign.files.isEmpty

/-- A file record for exactly that path, or a directory record for it or for one
of its ancestors. -/
def covers (ign : Ignored) (rel : Str) : Bool :=
  ign.files.contains rel || ign.dirs.contains rel || (parents rel).any ign.dirs.contains

@[simp] theorem empty_covers (rel : Str) : Ignored.empty.covers rel = false := by
  simp [covers, empty]

theorem covers_of_isEmpty {ign : Ignored} (h : ign.isEmpty = true) (rel : Str) :
    ign.covers rel = false := by
  simp only [isEmpty, Bool.and_eq_true, List.isEmpty_iff] at h
  simp [covers, h.1, h.2]

end Ignored

/-- The empty-set fast path in front of `covers`. -/
def isIgnored (root : Root) (path : List Str) (ign : Ignored) : Bool :=
  !ign.isEmpty && ign.covers (relPath root path)

theorem isIgnored_eq (root : Root) (path : List Str) (ign : Ignored) :
    isIgnored root path ign = ign.covers (relPath root path) := by
  cases h : ign.isEmpty
  · simp [isIgnored, h]
  · simp [isIgnored, h, Ignored.covers_of_isEmpty h]

/-! ## The walk -/

def isSkipDir (name : Str) : Bool := SKIP_DIRS.contains name

/-- The text from the last `.` on, or nothing. -/
def extensionOf (name : Str) : Str :=
  match rsplit '.' name with
  | some (_, ext) => '.' :: ext
  | none => []

/-- What each entry emits, in one directory's listing order: a sorted visit of
the entries. -/
def inNameOrder (emitted : List (Str × List (List Str))) : List (List Str) :=
  (emitted.insertionSort fun a b => a.1 ≤ b.1).flatMap Prod.snd

/-- `walk_with`: the entry paths one directory contributes, entry by entry. -/
def walkWith (root : Root) (exts : List Str) (ign : Ignored) :
    List Str → Dir → List (Str × List (List Str))
  | _, .nil => []
  | dir, .file name _ _ rest =>
      let path := dir ++ [name]
      let own :=
        if exts.contains (extensionOf name) then if isIgnored root path ign then [] else [path]
        else []
      (name, own) :: walkWith root exts ign dir rest
  | dir, .link _ _ rest => walkWith root exts ign dir rest
  | dir, .sub name child rest =>
      let path := dir ++ [name]
      let own :=
        if isSkipDir name then []
        else if isIgnored root path ign then []
        else inNameOrder (walkWith root exts ign path child)
      (name, own) :: walkWith root exts ign dir rest

def notADirectory : Str := "not a directory".toList

/-- `list_files_with_ext`: the files under each scope directory, in walk order. -/
def listFilesWithExt (fs : Dir) (root : Root) (exts : List Str) (ign : Ignored) :
    List Str → Except Str (List Str)
  | [] => .ok []
  | d :: ds =>
      if d ≠ here ∧ ign.covers d then listFilesWithExt fs root exts ign ds
      else
        let abs := scopeAbs root d
        match stat fs abs with
        | none => listFilesWithExt fs root exts ign ds
        | some (.dir start) => do
            let out ← listFilesWithExt fs root exts ign ds
            pure ((inNameOrder (walkWith root exts ign abs start)).map (relPath root) ++ out)
        | some _ => .error notADirectory

/-- `list_source_files`. -/
def listSourceFiles (fs : Dir) (root : Root) (dirs : List Str) (ign : Ignored) :
    Except Str (List Str) :=
  listFilesWithExt fs root SOURCE_EXT ign dirs

/-! ## What the walk lists -/

theorem mem_inNameOrder {path : List Str} {emitted : List (Str × List (List Str))} :
    path ∈ inNameOrder emitted ↔ ∃ e ∈ emitted, path ∈ e.2 := by
  simp [inNameOrder, List.mem_flatMap, (List.perm_insertionSort _ emitted).mem_iff]

/-- The walk can go from `dir` down to `segs`: every directory on the way is
entered and nothing on the way is ignored. -/
def Enterable (root : Root) (ign : Ignored) (dir segs : List Str) : Prop :=
  (∀ s ∈ segs.dropLast, isSkipDir s = false) ∧
    ∀ p, p ≠ [] → p <+: segs → ign.covers (relPath root (dir ++ p)) = false

/-- The file `segs` names below `start`, as the walk from `dir` emits it. -/
def Emitted (root : Root) (exts : List Str) (ign : Ignored) (dir : List Str) (start : Dir)
    (segs : List Str) : Prop :=
  (∃ b r, start.at? segs = some (.file b r)) ∧ extensionOf (segs.getLastD []) ∈ exts ∧
    Enterable root ign dir segs

theorem emitted_ne_nil {root : Root} {exts : List Str} {ign : Ignored} {dir : List Str}
    {start : Dir} {segs : List Str} (h : Emitted root exts ign dir start segs) : segs ≠ [] := by
  rintro rfl
  obtain ⟨⟨b, r, hb⟩, -⟩ := h
  simp at hb

theorem emitted_singleton {root : Root} {exts : List Str} {ign : Ignored} {dir : List Str}
    {start : Dir} {s : Str} :
    Emitted root exts ign dir start [s] ↔
      (∃ b r, start.get? s = some (.file b r)) ∧ extensionOf s ∈ exts ∧
        ign.covers (relPath root (dir ++ [s])) = false := by
  have hpre : (∀ p, p ≠ [] → p <+: [s] → ign.covers (relPath root (dir ++ p)) = false) ↔
      ign.covers (relPath root (dir ++ [s])) = false := by
    constructor
    · exact fun h => h [s] (by simp) (List.prefix_refl _)
    · intro h p hne hp
      rcases List.prefix_cons_iff.mp hp with rfl | ⟨t, rfl, ht⟩
      · exact absurd rfl hne
      · rw [List.prefix_nil.mp ht]
        exact h
  simp [Emitted, Enterable, Dir.at?_singleton, hpre]

theorem emitted_cons {root : Root} {exts : List Str} {ign : Ignored} {dir : List Str}
    {start : Dir} {s : Str} {ss : List Str} (hss : ss ≠ []) :
    Emitted root exts ign dir start (s :: ss) ↔
      ∃ child, start.get? s = some (.dir child) ∧ isSkipDir s = false ∧
        ign.covers (relPath root (dir ++ [s])) = false ∧
        Emitted root exts ign (dir ++ [s]) child ss := by
  have hlast : (s :: ss).getLastD [] = ss.getLastD [] := by
    cases ss with
    | nil => exact absurd rfl hss
    | cons t ts => simp [List.getLastD]
  have hdrop : (s :: ss).dropLast = s :: ss.dropLast := by
    cases ss with
    | nil => exact absurd rfl hss
    | cons t ts => rfl
  constructor
  · rintro ⟨⟨b, r, hat⟩, hext, hskip, hign⟩
    simp only [Dir.at?] at hat
    cases hget : start.get? s with
    | none => simp [hget] at hat
    | some item =>
        cases item with
        | file b' r' => simp [hget, hss] at hat
        | link t => simp [hget, hss] at hat
        | dir child =>
            -- the directory itself is the one-segment prefix on the way
            refine ⟨child, rfl, hskip s (by simp [hdrop]), hign [s] (by simp) ?_,
              ⟨b, r, by simpa [hget] using hat⟩, hlast ▸ hext, ?_, ?_⟩
            · exact ⟨ss, rfl⟩
            · exact fun t ht => hskip t (by simp [hdrop, ht])
            · intro p hne hp
              have := hign (s :: p) (by simp) (List.cons_prefix_cons.mpr ⟨rfl, hp⟩)
              simpa using this
  · rintro ⟨child, hget, hskip, hign, ⟨b, r, hat⟩, hext, hskips, higns⟩
    refine ⟨⟨b, r, by simpa [Dir.at?, hget] using hat⟩, hlast ▸ hext, ?_, ?_⟩
    · rw [hdrop]
      exact List.forall_mem_cons.mpr ⟨hskip, hskips⟩
    · intro p hne hp
      -- a prefix is the directory, or goes on below it
      cases p with
      | nil => exact absurd rfl hne
      | cons t p =>
          obtain ⟨rfl, hpss⟩ := List.cons_prefix_cons.mp hp
          by_cases hnil : p = []
          · subst hnil
            exact hign
          · simpa using higns p hnil hpss

/-- One directory: an entry's own contribution, or one of the other entries'. -/
theorem emitted_of_get? {root : Root} {exts : List Str} {ign : Ignored} {dir : List Str}
    {d d' : Dir} {s : Str} {ss : List Str} (h : d.get? s = d'.get? s) :
    Emitted root exts ign dir d (s :: ss) ↔ Emitted root exts ign dir d' (s :: ss) := by
  simp only [Emitted, Dir.at?, h]

theorem not_emitted_of_not_mem {root : Root} {exts : List Str} {ign : Ignored} {dir : List Str}
    {d : Dir} {name : Str} (hname : name ∉ d.names) (ss : List Str) :
    ¬Emitted root exts ign dir d (name :: ss) := by
  rintro ⟨⟨b, r, hat⟩, -⟩
  cases hs : d.get? name with
  | none => simp [Dir.at?, hs] at hat
  | some item => exact hname (Dir.get?_mem_names hs)

/-- What a directory contributes: what its first entry does, and what the others do. -/
theorem exists_emitted_iff {root : Root} {exts : List Str} {ign : Ignored} {dir path : List Str}
    {d rest : Dir} {name : Str} (hname : name ∉ rest.names)
    (hget : ∀ s, name ≠ s → d.get? s = rest.get? s) :
    (∃ segs, path = dir ++ segs ∧ Emitted root exts ign dir d segs) ↔
      (∃ ss, path = dir ++ name :: ss ∧ Emitted root exts ign dir d (name :: ss)) ∨
        ∃ segs, path = dir ++ segs ∧ Emitted root exts ign dir rest segs := by
  constructor
  · rintro ⟨segs, rfl, hseg⟩
    obtain ⟨s, ss, rfl⟩ := List.exists_cons_of_ne_nil (emitted_ne_nil hseg)
    by_cases hs : name = s
    · subst hs
      exact Or.inl ⟨ss, rfl, hseg⟩
    · exact Or.inr ⟨s :: ss, rfl, (emitted_of_get? (hget s hs)).mp hseg⟩
  · rintro (⟨ss, rfl, hseg⟩ | ⟨segs, rfl, hseg⟩)
    · exact ⟨name :: ss, rfl, hseg⟩
    · obtain ⟨s, ss, rfl⟩ := List.exists_cons_of_ne_nil (emitted_ne_nil hseg)
      have hs : name ≠ s := by
        rintro rfl
        exact not_emitted_of_not_mem hname ss hseg
      exact ⟨s :: ss, rfl, (emitted_of_get? (hget s hs)).mpr hseg⟩

section FirstEntry

variable {root : Root} {exts : List Str} {ign : Ignored} {dir ss : List Str} {name : Str} {rest : Dir}

theorem emitted_file {bytes : Bytes} {readable : Bool} :
    Emitted root exts ign dir (.file name bytes readable rest) (name :: ss) ↔
      ss = [] ∧ extensionOf name ∈ exts ∧ ign.covers (relPath root (dir ++ [name])) = false := by
  by_cases hss : ss = []
  · subst hss
    rw [emitted_singleton]
    simp [Dir.get?]
  · rw [emitted_cons hss]
    simp [Dir.get?, hss]

theorem not_emitted_link {target : Str} :
    ¬Emitted root exts ign dir (.link name target rest) (name :: ss) := by
  rintro ⟨⟨b, r, hat⟩, -⟩
  by_cases hss : ss = [] <;> simp [Dir.at?, Dir.get?, hss] at hat

theorem emitted_sub {child : Dir} :
    Emitted root exts ign dir (.sub name child rest) (name :: ss) ↔
      isSkipDir name = false ∧ ign.covers (relPath root (dir ++ [name])) = false ∧
        Emitted root exts ign (dir ++ [name]) child ss := by
  by_cases hss : ss = []
  · subst hss
    refine iff_of_false ?_ fun h => absurd rfl (emitted_ne_nil h.2.2)
    rw [emitted_singleton]
    simp [Dir.get?]
  · rw [emitted_cons hss]
    simp [Dir.get?]

end FirstEntry

/-- **The walk lists exactly the emitted files**, each under the directory it
started from. -/
theorem mem_walkWith {root : Root} {exts : List Str} {ign : Ignored} {start : Dir}
    (hwf : start.wf) {dir path : List Str} :
    path ∈ inNameOrder (walkWith root exts ign dir start) ↔
      ∃ segs, path = dir ++ segs ∧ Emitted root exts ign dir start segs := by
  induction start generalizing dir path with
  | nil =>
      simp only [mem_inNameOrder, walkWith, List.not_mem_nil, false_and, exists_false, false_iff]
      rintro ⟨segs, -, ⟨⟨b, r, hat⟩, -⟩⟩
      cases segs <;> simp [Dir.at?, Dir.get?] at hat
  | file name bytes readable rest ih =>
      simp only [Dir.wf, Bool.and_eq_true, Bool.not_eq_true', List.contains_eq_mem,
        decide_eq_false_iff_not] at hwf
      rw [mem_inNameOrder, walkWith, List.exists_mem_cons_iff, ← mem_inNameOrder, ih hwf.2,
        exists_emitted_iff (d := .file name bytes readable rest) hwf.1.2
          (by simp +contextual [Dir.get?])]
      refine or_congr_left ?_
      simp only [emitted_file, isIgnored_eq]
      constructor
      · -- the file itself, when its extension is asked for and it is not ignored
        intro hown
        split at hown
        · split at hown
          · simp at hown
          · rename_i hext hign
            exact ⟨[], by simpa using hown, rfl, by simpa using hext, by simpa using hign⟩
        · simp at hown
      · rintro ⟨_, rfl, rfl, hext, hign⟩
        simp [hext, hign]
  | link name target rest ih =>
      simp only [Dir.wf, Bool.and_eq_true, Bool.not_eq_true', List.contains_eq_mem,
        decide_eq_false_iff_not] at hwf
      rw [walkWith, ih hwf.2, exists_emitted_iff (d := .link name target rest) hwf.1.2
          (by simp +contextual [Dir.get?])]
      refine (or_iff_right ?_).symm
      rintro ⟨ss, -, hseg⟩
      exact not_emitted_link hseg
  | sub name child rest ihchild ih =>
      simp only [Dir.wf, Bool.and_eq_true, Bool.not_eq_true', List.contains_eq_mem,
        decide_eq_false_iff_not] at hwf
      rw [mem_inNameOrder, walkWith, List.exists_mem_cons_iff, ← mem_inNameOrder, ih hwf.2,
        exists_emitted_iff (d := .sub name child rest) hwf.1.1.2
          (by simp +contextual [Dir.get?])]
      refine or_congr_left ?_
      simp only [emitted_sub, isIgnored_eq]
      constructor
      · intro hown
        split at hown
        · simp at hown
        · rename_i hskip
          split at hown
          · simp at hown
          · rename_i hign
            -- the directory is entered, and what it lists is listed below its name
            obtain ⟨ss, rfl, hseg⟩ := (ihchild hwf.1.2).mp hown
            exact ⟨ss, by simp, by simpa using hskip, by simpa using hign, hseg⟩
      · rintro ⟨ss, rfl, hskip, hign, hseg⟩
        simp only [hskip, hign, Bool.false_eq_true, if_false]
        exact (ihchild hwf.1.2).mpr ⟨ss, by simp, hseg⟩

theorem not_emitted_by_rest {root : Root} {exts : List Str} {ign : Ignored} {dir : List Str}
    {rest : Dir} {name : Str} (hwf : rest.wf) (hname : name ∉ rest.names) (ss : List Str) :
    dir ++ name :: ss ∉ (walkWith root exts ign dir rest).flatMap Prod.snd := by
  intro hmem
  obtain ⟨e, he, hpath⟩ := List.mem_flatMap.mp hmem
  obtain ⟨segs, heq, hseg⟩ := (mem_walkWith hwf).mp (mem_inNameOrder.mpr ⟨e, he, hpath⟩)
  rw [← List.append_cancel_left heq] at hseg
  exact not_emitted_of_not_mem hname ss hseg

theorem nodup_inNameOrder {emitted : List (Str × List (List Str))} :
    (inNameOrder emitted).Nodup ↔ (emitted.flatMap Prod.snd).Nodup :=
  ((List.perm_insertionSort _ emitted).flatMap_right _).nodup_iff

/-- No file is listed twice below one scope directory. -/
theorem nodup_walkWith {root : Root} {exts : List Str} {ign : Ignored} {start : Dir}
    (hwf : start.wf) (dir : List Str) :
    (inNameOrder (walkWith root exts ign dir start)).Nodup := by
  induction start generalizing dir with
  | nil => simp [nodup_inNameOrder, walkWith]
  | file name bytes readable rest ih =>
      simp only [Dir.wf, Bool.and_eq_true, Bool.not_eq_true', List.contains_eq_mem,
        decide_eq_false_iff_not] at hwf
      rw [nodup_inNameOrder, walkWith, List.flatMap_cons, List.nodup_append']
      refine ⟨?_, nodup_inNameOrder.mp (ih hwf.2 dir), ?_⟩
      · split
        · split <;> simp
        · simp
      · -- its own path and those of the rest begin with different names
        intro path hown hrest
        have hpath : path = dir ++ [name] := by
          split at hown
          · split at hown
            · simp at hown
            · simpa using hown
          · simp at hown
        exact not_emitted_by_rest hwf.2 hwf.1.2 [] (hpath ▸ hrest)
  | link name target rest ih =>
      simp only [Dir.wf, Bool.and_eq_true] at hwf
      exact ih hwf.2 dir
  | sub name child rest ihchild ih =>
      simp only [Dir.wf, Bool.and_eq_true, Bool.not_eq_true', List.contains_eq_mem,
        decide_eq_false_iff_not] at hwf
      rw [nodup_inNameOrder, walkWith, List.flatMap_cons, List.nodup_append']
      refine ⟨?_, nodup_inNameOrder.mp (ih hwf.2 dir), ?_⟩
      · split
        · simp
        · split
          · simp
          · exact ihchild hwf.1.2 _
      · intro path hown hrest
        have hpath : ∃ ss, path = dir ++ name :: ss := by
          split at hown
          · simp at hown
          · split at hown
            · simp at hown
            · obtain ⟨ss, rfl, -⟩ := (mem_walkWith hwf.1.2).mp hown
              exact ⟨ss, by simp⟩
        obtain ⟨ss, rfl⟩ := hpath
        exact not_emitted_by_rest hwf.2 hwf.1.1.2 ss hrest

/-- The file `segs` names below scope element `d`, as the walk lists it: the
element is not ignored, names a directory, and the walk emits the file there. -/
def Listed (fs : Dir) (root : Root) (exts : List Str) (ign : Ignored) (d : Str)
    (segs : List Str) : Prop :=
  (d = here ∨ ign.covers d = false) ∧
    ∃ start, stat fs (scopeAbs root d) = some (.dir start) ∧
      Emitted root exts ign (scopeAbs root d) start segs

/-- What a listed file is called. -/
def listedRel (root : Root) (d : Str) (segs : List Str) : Str :=
  relPath root (scopeAbs root d ++ segs)

theorem not_listed_of_covered {fs : Dir} {root : Root} {exts : List Str} {ign : Ignored} {d : Str}
    (h : d ≠ here ∧ ign.covers d = true) (segs : List Str) : ¬Listed fs root exts ign d segs := by
  rintro ⟨hd | hcov, -⟩
  · exact h.1 hd
  · simp [hcov] at h

theorem not_listed_of_absent {fs : Dir} {root : Root} {exts : List Str} {ign : Ignored} {d : Str}
    (h : stat fs (scopeAbs root d) = none) (segs : List Str) : ¬Listed fs root exts ign d segs := by
  rintro ⟨-, start, hstart, -⟩
  simp [h] at hstart

/-- **One scope element's share of a listing**: each file listed through it once,
before the share of the elements that follow. -/
theorem listFilesWithExt_cons {fs : Dir} {root : Root} {exts : List Str} {ign : Ignored} {d : Str}
    {ds files : List Str} (hwf : fs.wf)
    (h : listFilesWithExt fs root exts ign (d :: ds) = .ok files) :
    ∃ (own : List (List Str)) (out : List Str), files = own.map (relPath root) ++ out ∧
      listFilesWithExt fs root exts ign ds = .ok out ∧ own.Nodup ∧
      ∀ path, path ∈ own ↔ ∃ segs, path = scopeAbs root d ++ segs ∧ Listed fs root exts ign d segs := by
  have hnone : ∀ hnot : ∀ segs, ¬Listed fs root exts ign d segs, ∀ path : List Str,
      path ∈ ([] : List (List Str)) ↔
        ∃ segs, path = scopeAbs root d ++ segs ∧ Listed fs root exts ign d segs :=
    fun hnot path => ⟨nofun, fun ⟨segs, _, hl⟩ => absurd hl (hnot segs)⟩
  simp only [listFilesWithExt] at h
  split at h
  · rename_i hign
    exact ⟨[], files, rfl, h, List.nodup_nil, hnone (not_listed_of_covered hign)⟩
  · rename_i hign
    have hcov : d = here ∨ ign.covers d = false := by
      by_cases hd : d = here
      · exact Or.inl hd
      · exact Or.inr (by simpa [hd] using hign)
    -- a scope directory that does not exist is left out, anything but a directory fails
    cases hstat : stat fs (scopeAbs root d) with
    | none =>
        exact ⟨[], files, rfl, by simpa [hstat] using h, List.nodup_nil,
          hnone (not_listed_of_absent hstat)⟩
    | some item =>
        cases item with
        | file b r => simp [hstat] at h
        | link t => simp [hstat] at h
        | dir start =>
            cases hrest : listFilesWithExt fs root exts ign ds with
            | error e => simp [hstat, hrest, Bind.bind, Except.bind] at h
            | ok out =>
                simp only [hstat, hrest, Bind.bind, Except.bind, pure, Except.pure,
                  Except.ok.injEq] at h
                have hstartwf : start.wf := stat_wf hwf hstat
                refine ⟨_, out, h.symm, rfl, nodup_walkWith hstartwf _, fun path => ?_⟩
                rw [mem_walkWith hstartwf]
                constructor
                · rintro ⟨segs, rfl, hseg⟩
                  exact ⟨segs, rfl, hcov, start, hstat, hseg⟩
                · rintro ⟨segs, rfl, -, start', hstart', hseg⟩
                  rw [hstat, Option.some.injEq, Item.dir.injEq] at hstart'
                  exact ⟨segs, rfl, hstart' ▸ hseg⟩

theorem mem_listFilesWithExt {fs : Dir} {root : Root} {exts : List Str} {ign : Ignored}
    {ds files : List Str} (hwf : fs.wf) (h : listFilesWithExt fs root exts ign ds = .ok files)
    {rel : Str} :
    rel ∈ files ↔ ∃ d ∈ ds, ∃ segs, Listed fs root exts ign d segs ∧ rel = listedRel root d segs := by
  induction ds generalizing files with
  | nil =>
      simp only [listFilesWithExt, Except.ok.injEq] at h
      simp [← h]
  | cons d ds ih =>
      obtain ⟨own, out, rfl, hout, -, hown⟩ := listFilesWithExt_cons hwf h
      rw [List.exists_mem_cons_iff, List.mem_append, ih hout, List.mem_map]
      refine or_congr ?_ Iff.rfl
      constructor
      · rintro ⟨path, hpath, rfl⟩
        obtain ⟨segs, rfl, hl⟩ := (hown path).mp hpath
        exact ⟨segs, hl, rfl⟩
      · rintro ⟨segs, hl, rfl⟩
        exact ⟨_, (hown _).mpr ⟨segs, rfl, hl⟩, rfl⟩

/-- No two listed files, through one scope element or through two, get the same
relative path. -/
def ListedOnce (fs : Dir) (root : Root) (exts : List Str) (ign : Ignored) (scope : List Str) :
    Prop :=
  (∀ d ∈ scope, ∀ segs segs', Listed fs root exts ign d segs → Listed fs root exts ign d segs' →
      listedRel root d segs = listedRel root d segs' → segs = segs') ∧
    scope.Pairwise fun d e => ∀ segs segs', Listed fs root exts ign d segs →
      Listed fs root exts ign e segs' → listedRel root d segs ≠ listedRel root e segs'

/-- The walk repeats a path exactly when two listed files share it. -/
theorem nodup_listFilesWithExt {fs : Dir} {root : Root} {exts : List Str} {ign : Ignored}
    {ds files : List Str} (hwf : fs.wf) (h : listFilesWithExt fs root exts ign ds = .ok files) :
    files.Nodup ↔ ListedOnce fs root exts ign ds := by
  induction ds generalizing files with
  | nil =>
      simp only [listFilesWithExt, Except.ok.injEq] at h
      simp [← h, ListedOnce]
  | cons d ds ih =>
      obtain ⟨own, out, rfl, hout, hnodup, hown⟩ := listFilesWithExt_cons hwf h
      have hself : (own.map (relPath root)).Nodup ↔ ∀ segs segs', Listed fs root exts ign d segs →
          Listed fs root exts ign d segs' → listedRel root d segs = listedRel root d segs' →
          segs = segs' := by
        rw [List.nodup_map_iff_inj_on hnodup]
        constructor
        · intro hinj segs segs' hl hl' heq
          exact List.append_cancel_left
            (hinj _ ((hown _).mpr ⟨segs, rfl, hl⟩) _ ((hown _).mpr ⟨segs', rfl, hl'⟩) heq)
        · intro hinj p hp q hq heq
          obtain ⟨segs, rfl, hl⟩ := (hown p).mp hp
          obtain ⟨segs', rfl, hl'⟩ := (hown q).mp hq
          rw [hinj segs segs' hl hl' heq]
      have hcross : (own.map (relPath root)).Disjoint out ↔ ∀ e ∈ ds, ∀ segs segs',
          Listed fs root exts ign d segs → Listed fs root exts ign e segs' →
          listedRel root d segs ≠ listedRel root e segs' := by
        constructor
        · intro hdisj e he segs segs' hl hl' heq
          refine hdisj (List.mem_map_of_mem ((hown _).mpr ⟨segs, rfl, hl⟩)) ?_
          exact (mem_listFilesWithExt hwf hout).mpr ⟨e, he, segs', hl', heq⟩
        · intro hne rel hrel hout'
          obtain ⟨path, hpath, rfl⟩ := List.mem_map.mp hrel
          obtain ⟨segs, rfl, hl⟩ := (hown path).mp hpath
          obtain ⟨e, he, segs', hl', heq⟩ := (mem_listFilesWithExt hwf hout).mp hout'
          exact hne e he segs segs' hl hl' heq
      -- no repetition within one directory, none across two
      rw [List.nodup_append', hself, hcross, ih hout, ListedOnce, ListedOnce, List.forall_mem_cons,
        List.pairwise_cons]
      exact ⟨fun ⟨hs, ⟨hi, hp⟩, hc⟩ => ⟨⟨hs, hi⟩, hc, hp⟩, fun ⟨⟨hs, hi⟩, hc, hp⟩ => ⟨hs, ⟨hi, hp⟩, hc⟩⟩

/-- A listing fails only on a scope element that is there and no directory. -/
theorem listFilesWithExt_ok {fs : Dir} {root : Root} {exts : List Str} {ign : Ignored}
    {ds : List Str}
    (h : ∀ d ∈ ds, stat fs (scopeAbs root d) = none ∨ ∃ start, stat fs (scopeAbs root d) = some (.dir start)) :
    ∃ files, listFilesWithExt fs root exts ign ds = .ok files := by
  induction ds with
  | nil => exact ⟨[], rfl⟩
  | cons d ds ih =>
      obtain ⟨hd, hds⟩ := List.forall_mem_cons.mp h
      obtain ⟨files, hfiles⟩ := ih hds
      simp only [listFilesWithExt]
      split
      · exact ⟨files, hfiles⟩
      · rcases hd with hnone | ⟨start, hstart⟩
        · exact ⟨files, by simpa [hnone] using hfiles⟩
        · exact ⟨_, by simp only [hstart, hfiles, Bind.bind, Except.bind, pure, Except.pure]; rfl⟩

end Devscout
