/-
# Devscout.Ts.Workspaces -- the member directories of a workspace

A workspace declares its members by patterns over directories: `*` within one segment, `**`
for any number of whole segments, a leading `!` to take directories out again. Each pattern is
matched against the directory of every package below the workspace's own.

The language of a pattern is that of `Lib.Wildcard`, twice: a path pattern is a list of
segments with `**` as its wildcard, a segment a list of characters with `*`. The code decides
the outer language exactly. Of a segment it compares the first literal piece with the value's
beginning and the last one with its end, and never asks whether the last piece begins after
the pieces before it are over.
-/

import Devscout.Lib.Wildcard
import Mathlib

namespace Devscout.Ts

open Lib Lib.Text Lib.Wildcard

/-! ## Matching a path -/

/-- `segment`: a pattern's segment against a path's. -/
def segment (pattern value : Str) : Bool :=
  if pattern = ['*'] then true
  else
    let pieces := pattern.splitOn '*'
    if pieces.length = 1 then pattern = value
    else if !(pieces.headD []).isPrefixOf value || !(pieces.getLastD []).isSuffixOf value then false
    else (afterAll pieces.tail.dropLast (value.drop (pieces.headD []).length)).isSome

/-- `matches`: a pattern's segments against a path's. -/
def matches_ : List Str → List Str → Bool
  | [], b => b.isEmpty
  | first :: rest, b =>
      if first = ['*', '*'] then
        matches_ rest b ||
          match b with
          | [] => false
          | _ :: b => matches_ (first :: rest) b
      else
        match b with
        | [] => false
        | value :: b => segment first value && matches_ rest b
termination_by a b => a.length + b.length

/-- `glob`. -/
def glob (pattern path : Str) : Bool := matches_ (splitSlash pattern) (splitSlash path)

/-! ## The workspace's members -/

/-- `valid_pattern`. -/
def validPattern (pattern : Str) : Bool :=
  !pattern.isEmpty && !pattern.any fun c => c ∈ ['?', '[', ']', '\x7b', '\x7d']

structure Package where
  dir : Str
  name : Option Str
  deriving DecidableEq

/-- The packages by their directories. -/
structure Packages where
  rows : List Package
  distinct : (rows.map Package.dir).Nodup

structure RefusedConfig where
  file : Str
  field : Str
  deriving DecidableEq

/-- The patterns of one manifest, its file, and the field they stand under. -/
structure Declaration where
  patterns : List Str
  file : Str
  field : Str

structure Workspace where
  dir : Str
  members : Str → List Str
  refused : Bool

/-- What `build_root` has gathered. -/
structure Gathered where
  included : List Str
  excluded : List Str
  bad : Bool
  refused : List RefusedConfig

/-- A package's directory as seen from the workspace's. -/
def relative (dir package : Str) : Option Str :=
  if dir = [] then some package else (dir ++ ['/']).isPrefixOf? package

/-- A pattern without its `!`, and whether it had one. -/
def negation : Str → Bool × Str
  | '!' :: p => (true, p)
  | p => (false, p)

/-- A pattern without a leading `./` and without slashes at its end. -/
def clean (raw : Str) : Str := ((['.', '/'].isPrefixOf? raw).getD raw).rdropWhile (· = '/')

/-- The directories below the workspace's that a pattern matches. -/
def globbed (packages : Packages) (dir pattern : Str) : List Str :=
  (packages.rows.filter fun package => (relative dir package.dir).any (glob pattern)).map Package.dir

def readPattern (packages : Packages) (dir : Str) (g : Gathered) (pattern : Str) : Gathered :=
  let hits := globbed packages dir (clean (negation pattern).2)
  if (negation pattern).1 then { g with excluded := hits ++ g.excluded }
  else { g with included := hits ++ g.included }

def readDeclaration (packages : Packages) (dir : Str) (g : Gathered) (d : Declaration) : Gathered :=
  if d.patterns.any fun pattern => !validPattern pattern then
    { g with bad := true, refused := g.refused ++ [⟨d.file, d.field⟩] }
  else d.patterns.foldl (readPattern packages dir) g

/-- The directories of the packages of this name that are in and not out. -/
def Gathered.members (g : Gathered) (packages : Packages) (name : Str) : List Str :=
  ((packages.rows.filter fun package =>
      package.dir ∈ g.included ∧ package.dir ∉ g.excluded ∧ package.name = some name).map
    Package.dir).insertionSort (· ≤ ·)

/-- `build_root`: the workspace, and the refusals it adds. -/
def buildRoot (dir : Str) (declarations : List Declaration) (packages : Packages) :
    Workspace × List RefusedConfig :=
  let g := declarations.foldl (readDeclaration packages dir) ⟨[], [], false, []⟩
  (⟨dir, fun name => if g.bad then [] else g.members packages name, g.bad⟩, g.refused)

/-! ## The language -/

/-- The language of a pattern: `**` covers any number of whole segments, every other segment
one. In a segment `*` stands for some characters, and all else for itself. -/
def InLanguage (pattern path : Str) : Prop :=
  Covers ['*', '*'] (Matches '*') (splitSlash pattern) (splitSlash path)

/-- The last literal piece of a segment ends the value, and the pieces before it are found in
the value, but not in what stands before that last piece. -/
def Overlaps (pattern value : Str) : Prop :=
  ∃ body last before, pattern = body ++ '*' :: last ∧ '*' ∉ last ∧ value = before ++ last ∧
    Matches '*' (body ++ ['*']) value ∧ ¬Matches '*' (body ++ ['*']) before

/-- A path that is matched only where literal pieces of some segment overlap. -/
def OnlyByOverlap (pattern path : Str) : Prop :=
  Covers ['*', '*'] (fun p v => Matches '*' p v ∨ Overlaps p v) (splitSlash pattern) (splitSlash path) ∧
    ¬InLanguage pattern path

/-! ## What the code decides of a segment -/

/-- Without a wildcard, a segment is itself. -/
theorem segment_literal_iff {pattern value : Str} (hp : '*' ∉ pattern) :
    segment pattern value = true ↔ value = pattern := by
  have hne : pattern ≠ ['*'] := by
    rintro rfl
    exact hp List.mem_cons_self
  simp [segment, hne, List.splitOn_eq_singleton hp, eq_comm]

/-- With one: the pieces before the last are found, and the last one ends the value. -/
theorem segment_star_iff {body last value : Str} (hlast : '*' ∉ last) :
    segment (body ++ '*' :: last) value = true ↔
      Matches '*' (body ++ ['*']) value ∧ last <:+ value := by
  by_cases hstar : body ++ '*' :: last = ['*']
  · -- the code's own case for `*`
    obtain ⟨rfl, rfl⟩ : body = [] ∧ last = [] := by
      cases body with
      | nil => simpa using hstar
      | cons c body => simp at hstar
    have hall : Matches '*' ['*'] value := by
      simpa using Covers.many value (Covers.nil : Matches '*' [] [])
    simp [segment, hall]
  · have hsplit : (body ++ '*' :: last).splitOn '*' = body.splitOn '*' ++ [last] := by
      rw [List.splitOn_append_cons_self, List.splitOn_eq_singleton hlast]
    cases hbody : body.splitOn '*' with
    | nil => exact absurd hbody (List.splitOn_ne_nil _ _)
    | cons first pieces =>
        have hno := splitOn_no_many '*' body
        rw [hbody] at hno
        rw [eq_starred_of_splitOn hbody, matches_pieces_iff (hno _ List.mem_cons_self)
          fun p hp => hno p (List.mem_cons_of_mem _ hp)]
        rw [← eq_starred_of_splitOn hbody, segment, if_neg hstar, hsplit, hbody]
        have hlastD : (first :: pieces ++ [last]).getLastD [] = last := by
          rw [List.getLastD_eq_getLast?, List.getLast?_concat]
          rfl
        have htail : (first :: pieces ++ [last]).tail.dropLast = pieces := List.dropLast_concat
        have hlen : (first :: pieces ++ [last]).length ≠ 1 := by simp
        simp only [hlastD, htail, if_neg hlen]
        simp [and_assoc, and_comm, and_left_comm]

/-- **A segment is matched, or matched by an overlap.** -/
theorem segment_iff (pattern value : Str) :
    segment pattern value = true ↔ Matches '*' pattern value ∨ Overlaps pattern value := by
  cases hcut : rsplit '*' pattern with
  | none =>
      have hp : '*' ∉ pattern := rsplit_eq_none_iff.mp hcut
      rw [segment_literal_iff hp, matches_literal hp]
      refine (or_iff_left ?_).symm
      rintro ⟨body, last, before, rfl, -⟩
      exact hp (by simp)
  | some cut =>
      obtain ⟨body, last⟩ := cut
      obtain ⟨rfl, hlast⟩ := rsplit_eq_some hcut
      rw [segment_star_iff hlast, matches_last_iff hlast]
      constructor
      · rintro ⟨hbody, before, rfl⟩
        by_cases hbefore : Matches '*' (body ++ ['*']) before
        · exact .inl ⟨before, rfl, hbefore⟩
        · -- the pieces were found, but only by running into the last one
          exact .inr ⟨body, last, before, rfl, hlast, rfl, hbody, hbefore⟩
      · rintro (⟨before, rfl, hbefore⟩ | ⟨body', last', before, heq, hlast', rfl, hbody, -⟩)
        · refine ⟨?_, before, rfl⟩
          -- the wildcard at the end takes the last piece as well
          obtain ⟨a, u, rfl, ha, -⟩ := Covers.append_iff.mp hbefore
          refine Covers.append_iff.mpr ⟨a, u ++ last, List.append_assoc .., ha, ?_⟩
          simpa using Covers.many (u ++ last) (Covers.nil : Matches '*' [] [])
        · -- a pattern has one last wildcard, so the two cuts of it agree
          have hsame : some (body, last) = some (body', last') := by
            rw [← hcut, heq, rsplit_append body' hlast']
          cases hsame
          exact ⟨hbody, before, rfl⟩

/-! ## What the code decides -/

theorem matches_iff {one : Str → Str → Prop} (hone : ∀ p v, segment p v = true ↔ one p v)
    (a b : List Str) : matches_ a b = true ↔ Covers ['*', '*'] one a b := by
  fun_induction matches_ a b with
  | case1 b => rw [Covers.nil_iff, List.isEmpty_iff]
  | case2 rest b ih htail =>
      rw [Covers.many_iff, Bool.or_eq_true, ih]
      cases b with
      | nil => simp
      | cons t b => simp [htail]
  | case3 first rest hfirst => simp [Covers.one_iff hfirst]
  | case4 first rest hfirst value b ih =>
      rw [Covers.one_iff hfirst, Bool.and_eq_true, hone, ih]
      simp

/-- **The code's language.** A path is matched segment by segment, where a segment may be
matched by an overlap. -/
theorem glob_iff (pattern path : Str) :
    glob pattern path = true ↔
      Covers ['*', '*'] (fun p v => Matches '*' p v ∨ Overlaps p v)
        (splitSlash pattern) (splitSlash path) :=
  matches_iff segment_iff _ _

/-- Nothing of the language is missed. -/
theorem glob_of_inLanguage {pattern path : Str} (h : InLanguage pattern path) :
    glob pattern path = true :=
  (glob_iff pattern path).mpr (h.mono fun _ _ => .inl)

/-- **Exactly the language, overlaps apart.** The code agrees with a pattern's language on a
path unless the path is matched by overlapping literal pieces only. -/
theorem glob_exact_iff (pattern path : Str) :
    (glob pattern path = true ↔ InLanguage pattern path) ↔ ¬OnlyByOverlap pattern path := by
  constructor
  · intro h hover
    exact hover.2 (h.mp ((glob_iff pattern path).mpr hover.1))
  · intro h
    refine ⟨fun hglob => ?_, glob_of_inLanguage⟩
    by_contra hin
    exact h ⟨(glob_iff pattern path).mp hglob, hin⟩

/-- The one letter of the directory `a` serves as the beginning and the end of `a*a`. -/
theorem one_letter_overlaps :
    ¬∀ pattern path : Str, validPattern pattern = true →
      (glob pattern path = true ↔ InLanguage pattern path) := by
  intro h
  have hglob : glob ['a', '*', 'a'] ['a'] = true := by
    simp [glob, splitSlash, List.splitOn_cons_eq_if_modifyHead, matches_, segment, afterAll]
  have hin : InLanguage ['a', '*', 'a'] ['a'] := (h _ _ (by decide)).mp hglob
  have hsplit : splitSlash ['a', '*', 'a'] = [['a', '*', 'a']] ∧ splitSlash ['a'] = [['a']] := by
    simp [splitSlash, List.splitOn_cons_eq_if_modifyHead]
  rw [InLanguage, hsplit.1, hsplit.2, Covers.one_iff (by decide)] at hin
  obtain ⟨t, v, ht, hmatch, -⟩ := hin
  cases ht
  have hmatch : Matches '*' (['a'] ++ '*' :: ['a']) ['a'] := hmatch
  obtain ⟨before, hbefore, hrest⟩ := (matches_last_iff (by decide)).mp hmatch
  -- one letter leaves nothing before it, and `a` needs something there
  have hnil : before = [] := by
    have hlen := congrArg List.length hbefore
    simp only [List.length_append, List.length_cons, List.length_nil] at hlen
    exact List.length_eq_zero_iff.mp (by omega)
  rw [hnil] at hrest
  obtain ⟨_, _, hcons, -⟩ := (Covers.one_iff (by decide)).mp hrest
  cases hcons

/-! ## The members -/

/-- The directories taken in, or taken out. -/
def Gathered.side (g : Gathered) : Bool → List Str
  | true => g.excluded
  | false => g.included

variable {packages : Packages} {dir : Str}

theorem mem_globbed {pattern d : Str} :
    d ∈ globbed packages dir pattern ↔
      (∃ package ∈ packages.rows, package.dir = d) ∧
        ∃ rel, relative dir d = some rel ∧ glob pattern rel = true := by
  simp only [globbed, List.mem_map, List.mem_filter, Option.any_eq_true]
  constructor
  · rintro ⟨package, ⟨hmem, hrel⟩, rfl⟩
    exact ⟨⟨package, hmem, rfl⟩, hrel⟩
  · rintro ⟨⟨package, hmem, rfl⟩, hrel⟩
    exact ⟨package, ⟨hmem, hrel⟩, rfl⟩

/-- A pattern takes the directory in, or with `!` out. -/
def Takes (packages : Packages) (dir : Str) (negated : Bool) (d pattern : Str) : Prop :=
  (negation pattern).1 = negated ∧ d ∈ globbed packages dir (clean (negation pattern).2)

/-- Where no path is matched by an overlap only, the packages it takes are those whose directory,
seen from the workspace's, is in the pattern's language. -/
theorem takes_iff {negated : Bool} {d pattern : Str}
    (hover : ∀ rel, relative dir d = some rel → ¬OnlyByOverlap (clean (negation pattern).2) rel) :
    Takes packages dir negated d pattern ↔
      (negation pattern).1 = negated ∧ (∃ package ∈ packages.rows, package.dir = d) ∧
        ∃ rel, relative dir d = some rel ∧ InLanguage (clean (negation pattern).2) rel := by
  rw [Takes, mem_globbed]
  refine and_congr_right fun _ => and_congr_right fun _ => exists_congr fun rel => ?_
  refine and_congr_right fun hrel => ⟨fun hglob => ?_, glob_of_inLanguage⟩
  by_contra hin
  exact hover rel hrel ⟨(glob_iff _ _).mp hglob, hin⟩

theorem mem_side_readPattern {g : Gathered} {pattern d : Str} {negated : Bool} :
    d ∈ (readPattern packages dir g pattern).side negated ↔
      d ∈ g.side negated ∨ Takes packages dir negated d pattern := by
  rw [readPattern, Takes]
  cases (negation pattern).1 <;> cases negated <;> simp [Gathered.side, or_comm]

theorem mem_side_patterns {patterns : List Str} {g : Gathered} {d : Str} {negated : Bool} :
    d ∈ (patterns.foldl (readPattern packages dir) g).side negated ↔
      d ∈ g.side negated ∨ ∃ pattern ∈ patterns, Takes packages dir negated d pattern := by
  induction patterns generalizing g with
  | nil => simp
  | cons pattern patterns ih =>
      rw [List.foldl_cons, ih, mem_side_readPattern]
      simp [or_assoc]

theorem bad_patterns (patterns : List Str) (g : Gathered) :
    (patterns.foldl (readPattern packages dir) g).bad = g.bad := by
  induction patterns generalizing g with
  | nil => rfl
  | cons pattern patterns ih =>
      rw [List.foldl_cons, ih, readPattern]
      split <;> rfl

/-- Every pattern of a declaration is one the code accepts. -/
def Declaration.Accepted (d : Declaration) : Prop := ∀ pattern ∈ d.patterns, validPattern pattern = true

theorem any_invalid_iff (d : Declaration) :
    (d.patterns.any fun pattern => !validPattern pattern) = true ↔ ¬d.Accepted := by
  simp [Declaration.Accepted]

theorem bad_declarations (packages : Packages) (dir : Str) (declarations : List Declaration)
    (g : Gathered) :
    (declarations.foldl (readDeclaration packages dir) g).bad = true ↔
      g.bad = true ∨ ∃ d ∈ declarations, ¬d.Accepted := by
  induction declarations generalizing g with
  | nil => simp
  | cons d declarations ih =>
      rw [List.foldl_cons, ih, readDeclaration]
      by_cases hd : d.Accepted
      · rw [if_neg (mt (any_invalid_iff d).mp (not_not.mpr hd)), bad_patterns]
        simp [hd]
      · rw [if_pos ((any_invalid_iff d).mpr hd)]
        simp [hd]

theorem mem_side_declarations (packages : Packages) (dir : Str) {declarations : List Declaration}
    (hall : ∀ d ∈ declarations, d.Accepted) (g : Gathered) (d : Str) (negated : Bool) :
    d ∈ (declarations.foldl (readDeclaration packages dir) g).side negated ↔
      d ∈ g.side negated ∨
        ∃ row ∈ declarations, ∃ pattern ∈ row.patterns, Takes packages dir negated d pattern := by
  induction declarations generalizing g with
  | nil => simp
  | cons row declarations ih =>
      have hrow : row.Accepted := hall row List.mem_cons_self
      rw [List.foldl_cons, ih fun d hd => hall d (List.mem_cons_of_mem _ hd), readDeclaration,
        if_neg (mt (any_invalid_iff row).mp (not_not.mpr hrow)), mem_side_patterns]
      simp [or_assoc]

/-- **Who is a member.** In a workspace all of whose patterns are accepted, the directories of
this name that some pattern takes in and none takes out; in any other, nobody. -/
theorem mem_members_iff (dir : Str) (declarations : List Declaration) (packages : Packages)
    (name d : Str) :
    d ∈ (buildRoot dir declarations packages).1.members name ↔
      (∀ row ∈ declarations, row.Accepted) ∧ ⟨d, some name⟩ ∈ packages.rows ∧
        (∃ row ∈ declarations, ∃ pattern ∈ row.patterns, Takes packages dir false d pattern) ∧
        ¬∃ row ∈ declarations, ∃ pattern ∈ row.patterns, Takes packages dir true d pattern := by
  have hbad := bad_declarations packages dir declarations ⟨[], [], false, []⟩
  show d ∈ (if _ then _ else _ : List Str) ↔ _
  by_cases hall : ∀ row ∈ declarations, row.Accepted
  · rw [if_neg (by rw [hbad]; simpa using hall), Gathered.members, List.mem_insertionSort]
    -- both sides start empty, so all they hold was put there by patterns
    have hside (negated : Bool) :=
      (mem_side_declarations packages dir hall ⟨[], [], false, []⟩ d negated).trans
        (or_iff_right (by cases negated <;> exact List.not_mem_nil))
    rw [← hside false, ← hside true]
    simp only [List.mem_map, List.mem_filter, decide_eq_true_eq, Gathered.side]
    constructor
    · rintro ⟨⟨_, _⟩, ⟨hrow, hin, hout, rfl⟩, rfl⟩
      exact ⟨hall, hrow, hin, hout⟩
    · rintro ⟨-, hrow, hin, hout⟩
      exact ⟨_, ⟨hrow, hin, hout, rfl⟩, rfl⟩
  · rw [if_pos (hbad.mpr (by simpa using hall))]
    simp [hall]

end Devscout.Ts
