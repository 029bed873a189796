/-
# Devscout.Ts.Aliases -- the `paths` of a tsconfig chain

The nearest config of a chain that declares `paths` owns them. Each pattern becomes an
alias, exact or with one `*`, and all of them stand in one list, sorted by the length of
their prefix; the first that fits a specifier substitutes its targets. TypeScript asks
the exact pattern first and then the fitting one with the longest prefix. The list keeps
that order except where two patterns have one prefix: there the order of the document is
left, and an exact pattern has all of its own text for a prefix.
-/

import Devscout.Lib.Json
import Devscout.Lib.OrderedMap
import Devscout.Lib.Text
import Mathlib

namespace Devscout.Ts

open Lib Text

/-! ## Reading a chain -/

/-- What a config of a chain says, and the directory it stands in. -/
structure ChainLink where
  dir : Str
  baseUrl : Option Str
  paths : Option (OrderedMap Str Json)

structure AliasTarget where
  prefix_ : Option Str
  suffix : Str

structure Alias where
  exact_ : Option Str
  prefix_ : Str
  suffix : Str
  targets : List AliasTarget
  wildcard : Bool

structure TsPathAliases where
  aliases : List Alias
  baseUrlDir : Option Str

/-- One segment of a path; none climbs above the root. -/
def joinSegment (parts : List Str) (seg : Str) : Option (List Str) :=
  if seg.isEmpty ∨ seg = ['.'] then some parts
  else if seg = ['.', '.'] then if parts.isEmpty then none else some parts.dropLast
  else some (parts ++ [seg])

/-- `join_rel`. -/
def joinRel (base rest : Str) : Option Str :=
  (((base ++ '/' :: rest).splitOn '/').foldlM joinSegment []).map (List.intercalate ['/'])

/-- What stands before and after the first `*`. -/
def splitStar (text : Str) : Option (Str × Str) :=
  match text.dropWhile (· ≠ '*') with
  | [] => none
  | _ :: suffix => some (text.takeWhile (· ≠ '*'), suffix)

/-- A second `*` is a character like any other. -/
example : splitStar ['a', '*', 'b', '*'] = some (['a'], ['b', '*']) := by decide +kernel

/-- One target of a pattern, joined to the directory targets are relative to. -/
def aliasTarget (base : Option Str) (target : Str) : AliasTarget :=
  match splitStar target with
  | none => ⟨joinRel (base.getD []) target, []⟩
  | some (before, suffix) => ⟨some ((joinRel (base.getD []) before).getD []), suffix⟩

/-- A pattern with its targets. -/
abbrev PathsEntry := Str × List Str

/-- The alias of one pattern. -/
def aliasOf (base : Option Str) (entry : PathsEntry) : Alias :=
  match splitStar entry.1 with
  | none => ⟨some entry.1, entry.1, [], entry.2.map (aliasTarget base), false⟩
  | some (before, suffix) => ⟨none, before, suffix, entry.2.map (aliasTarget base), true⟩

/-- A pattern that is given an array, and the texts in it. -/
def readEntry (e : Str × Json) : Option PathsEntry :=
  e.2.asArray.map fun items => (e.1, items.filterMap Json.asStr)

def pathsEntries (paths : OrderedMap Str Json) : List PathsEntry := paths.entries.filterMap readEntry

/-- Longest prefix first, equal lengths by the prefix itself. -/
def aliasLe (a b : Alias) : Prop :=
  utf8Len b.prefix_ < utf8Len a.prefix_ ∨ utf8Len a.prefix_ = utf8Len b.prefix_ ∧ a.prefix_ ≤ b.prefix_

instance : DecidableRel aliasLe := fun a b => inferInstanceAs (Decidable
  (utf8Len b.prefix_ < utf8Len a.prefix_ ∨ utf8Len a.prefix_ = utf8Len b.prefix_ ∧ a.prefix_ ≤ b.prefix_))

/-- The directory of the nearest `baseUrl`. -/
def baseUrlDir (chain : List ChainLink) : Option Str :=
  (chain.find? fun c => c.baseUrl.isSome).bind fun c => joinRel c.dir (c.baseUrl.getD [])

/-- The directory a config's own targets are relative to. -/
def targetBase (chain : List ChainLink) (owner : ChainLink) : Option Str :=
  match owner.baseUrl with
  | some own => joinRel owner.dir own
  | none => (baseUrlDir chain).or (some owner.dir)

/-- The aliases of a chain, as they are written down. -/
def declaredAliases (chain : List ChainLink) : List Alias :=
  match chain.find? fun c => c.paths.isSome with
  | none => []
  | some owner =>
      ((owner.paths.map pathsEntries).getD []).map (aliasOf (targetBase chain owner))

/-- `aliases_from_chain`; the sort keeps equal prefixes in their order. -/
def aliasesFromChain (chain : List ChainLink) : TsPathAliases :=
  ⟨(declaredAliases chain).insertionSort aliasLe, baseUrlDir chain⟩

/-! ## Substituting -/

/-- One target, with what a `*` stood for. -/
def AliasTarget.substitute (mid : Str) (t : AliasTarget) : Option Str :=
  t.prefix_.bind fun p => joinRel p (mid ++ t.suffix)

/-- What the `*` of an alias stands for in a specifier: the prefix is stripped first, and
the suffix off what remains. -/
def Alias.middle (a : Alias) (spec : Str) : Option Str :=
  if a.prefix_.isPrefixOf spec ∧ a.suffix.isSuffixOf (spec.drop a.prefix_.length) then
    some ((spec.drop a.prefix_.length).take (spec.length - a.prefix_.length - a.suffix.length))
  else none

/-- The targets an alias substitutes for a specifier it fits. -/
def Alias.answer (spec : Str) (a : Alias) : Option (List (Option Str)) :=
  if a.wildcard then (a.middle spec).map fun mid => a.targets.map (AliasTarget.substitute mid)
  else if a.exact_ = some spec then some (a.targets.map AliasTarget.prefix_)
  else none

/-- `alias_targets`. -/
def aliasTargets (spec : Str) (aliases : List Alias) : List (Option Str) :=
  (aliases.findSome? (Alias.answer spec)).getD []

/-! ## The rule of precedence -/

/-- An exact pattern fits its own text, one with a `*` what begins with its prefix and ends
with its suffix, the two not overlapping. -/
def Alias.Fits (spec : Str) (a : Alias) : Prop :=
  if a.wildcard then ∃ mid, spec = a.prefix_ ++ (mid ++ a.suffix) else a.exact_ = some spec

/-- The pattern TypeScript goes by: the exact one, or else of those that fit the one with
the longest prefix. -/
inductive Picked (aliases : List Alias) (spec : Str) : Alias → Prop where
  | exactly {a : Alias} (mem : a ∈ aliases) (hexact : a.wildcard = false) (hfits : a.Fits spec) :
      Picked aliases spec a
  | longest {a : Alias} (mem : a ∈ aliases) (hfits : a.Fits spec)
      (hstar : ∀ b ∈ aliases, b.Fits spec → b.wildcard = true)
      (hlong : ∀ b ∈ aliases, b.Fits spec → b.prefix_ <+: a.prefix_) : Picked aliases spec a

/-- What a pattern substitutes for a specifier. -/
def Alias.substituted (spec : Str) (a : Alias) : List (Option Str) := (a.answer spec).getD []

/-- The same config, its patterns written in any order. -/
structure Rewritten (c c' : ChainLink) : Prop where
  dir : c.dir = c'.dir
  baseUrl : c.baseUrl = c'.baseUrl
  paths : Option.Rel (fun p p' => p.entries.Perm p'.entries) c.paths c'.paths

/-- **TypeScript's precedence.** In whatever order the patterns are written, the targets are
those of the pattern the rule picks, and none when it picks none. -/
def FollowsPrecedence (chain : List ChainLink) (spec : Str) : Prop :=
  ∀ chain', List.Forall₂ Rewritten chain chain' →
    (∀ a, Picked (declaredAliases chain) spec a →
      aliasTargets spec (aliasesFromChain chain').aliases = a.substituted spec) ∧
    ((∀ a, ¬Picked (declaredAliases chain) spec a) →
      aliasTargets spec (aliasesFromChain chain').aliases = [])

/-- A fitting pattern whose prefix no other fitting one exceeds. -/
def Leading (aliases : List Alias) (spec : Str) (a : Alias) : Prop :=
  a ∈ aliases ∧ a.Fits spec ∧ ∀ b ∈ aliases, b.Fits spec → b.prefix_ <+: a.prefix_

/-! ## What fits -/

theorem middle_eq_some_iff {a : Alias} {spec mid : Str} :
    a.middle spec = some mid ↔ spec = a.prefix_ ++ (mid ++ a.suffix) := by
  unfold Alias.middle
  constructor
  · intro h
    by_cases hends : a.prefix_.isPrefixOf spec ∧ a.suffix.isSuffixOf (spec.drop a.prefix_.length)
    · rw [if_pos hends] at h
      obtain ⟨rest, hrest⟩ := List.isPrefixOf_iff_prefix.mp hends.1
      obtain ⟨body, hbody⟩ := List.isSuffixOf_iff_suffix.mp hends.2
      rw [← hrest, List.drop_left] at hbody
      rw [← hrest, List.drop_left, ← hbody] at h
      have hcount : (a.prefix_ ++ (body ++ a.suffix)).length - a.prefix_.length - a.suffix.length =
          body.length := by
        rw [List.length_append, List.length_append]
        omega
      rw [hcount, List.take_left] at h
      rw [← hrest, ← hbody, Option.some.inj h]
    · rw [if_neg hends] at h
      cases h
  · rintro rfl
    have hcount : (a.prefix_ ++ (mid ++ a.suffix)).length - a.prefix_.length - a.suffix.length =
        mid.length := by
      rw [List.length_append, List.length_append]
      omega
    rw [List.drop_left, hcount, List.take_left, if_pos]
    exact ⟨List.isPrefixOf_iff_prefix.mpr (List.prefix_append _ _),
      List.isSuffixOf_iff_suffix.mpr (List.suffix_append _ _)⟩

theorem answer_isSome_iff {a : Alias} {spec : Str} : (a.answer spec).isSome ↔ a.Fits spec := by
  unfold Alias.answer Alias.Fits
  cases a.wildcard with
  | true =>
      rw [if_pos rfl, if_pos rfl, Option.isSome_map, Option.isSome_iff_exists]
      exact exists_congr fun mid => middle_eq_some_iff
  | false =>
      rw [if_neg Bool.false_ne_true, if_neg Bool.false_ne_true]
      by_cases hexact : a.exact_ = some spec <;> simp [hexact]

/-- An exact alias of a chain is its own prefix. -/
theorem exact_eq_prefix {chain : List ChainLink} {a : Alias} (h : a ∈ declaredAliases chain)
    (hexact : a.wildcard = false) : a.exact_ = some a.prefix_ := by
  unfold declaredAliases at h
  split at h
  · cases h
  · obtain ⟨entry, -, rfl⟩ := List.mem_map.mp h
    revert hexact
    unfold aliasOf
    split
    · intro _
      rfl
    · intro hexact
      cases hexact

/-- What fits has a prefix of the specifier; all of it, if it is exact. -/
theorem prefix_of_fits {chain : List ChainLink} {a : Alias} {spec : Str}
    (h : a ∈ declaredAliases chain) (hfits : a.Fits spec) : a.prefix_ <+: spec := by
  cases hwild : a.wildcard with
  | true =>
      rw [Alias.Fits, if_pos hwild] at hfits
      obtain ⟨mid, rfl⟩ := hfits
      exact List.prefix_append _ _
  | false =>
      rw [Alias.Fits, if_neg (by simp [hwild]), exact_eq_prefix h hwild] at hfits
      exact Option.some.inj hfits ▸ List.prefix_rfl

theorem prefix_of_exact {chain : List ChainLink} {a : Alias} {spec : Str}
    (h : a ∈ declaredAliases chain) (hfits : a.Fits spec) (hexact : a.wildcard = false) :
    a.prefix_ = spec := by
  rw [Alias.Fits, if_neg (by simp [hexact]), exact_eq_prefix h hexact] at hfits
  exact Option.some.inj hfits

/-! ## The sorted list -/

theorem utf8Len_append (p q : Str) : utf8Len (p ++ q) = utf8Len p + utf8Len q := by
  simp [utf8Len]

/-- Of two prefixes of one text the one with fewer bytes is a prefix of the other. -/
theorem prefix_of_utf8Len_le {p q spec : Str} (hp : p <+: spec) (hq : q <+: spec)
    (hle : utf8Len q ≤ utf8Len p) : q <+: p := by
  rcases List.prefix_or_prefix_of_prefix hp hq with hpq | hqp
  · obtain ⟨rest, rfl⟩ := hpq
    cases rest with
    | nil => rw [List.append_nil]
    | cons c rest =>
        have hpos := Char.utf8Size_pos c
        rw [utf8Len_append, utf8Len_cons] at hle
        omega
  · exact hqp

instance : Std.Total aliasLe where
  total a b := by
    unfold aliasLe
    rcases Nat.lt_trichotomy (utf8Len a.prefix_) (utf8Len b.prefix_) with hlt | heq | hgt
    · exact Or.inr (Or.inl hlt)
    · rcases le_total a.prefix_ b.prefix_ with hle | hle
      · exact Or.inl (Or.inr ⟨heq, hle⟩)
      · exact Or.inr (Or.inr ⟨heq.symm, hle⟩)
    · exact Or.inl (Or.inl hgt)

instance : IsTrans Alias aliasLe where
  trans a b c hab hbc := by
    unfold aliasLe at *
    rcases hab with hab | ⟨hab, hle⟩ <;> rcases hbc with hbc | ⟨hbc, hle'⟩
    · exact Or.inl (by omega)
    · exact Or.inl (by omega)
    · exact Or.inl (by omega)
    · exact Or.inr ⟨hab.trans hbc, hle.trans hle'⟩

/-- The first alias of the sorted list that fits is a leading one. -/
theorem leading_of_findSome? {chain : List ChainLink} {spec : Str} {aliases : List Alias}
    (hperm : (declaredAliases chain).Perm aliases) {targets : List (Option Str)}
    (h : (aliases.insertionSort aliasLe).findSome? (Alias.answer spec) = some targets) :
    ∃ a, Leading (declaredAliases chain) spec a ∧ a.answer spec = some targets := by
  obtain ⟨before, a, after, hsorted, ha, hbefore⟩ := List.findSome?_eq_some_iff.mp h
  have hmem : ∀ b, b ∈ declaredAliases chain ↔ b ∈ before ++ a :: after := fun b => by
    rw [hperm.mem_iff, ← hsorted, (List.perm_insertionSort aliasLe aliases).mem_iff]
  have hin : a ∈ declaredAliases chain :=
    (hmem a).mpr (List.mem_append_right _ List.mem_cons_self)
  have hfits : a.Fits spec := answer_isSome_iff.mp (by rw [ha]; rfl)
  refine ⟨a, ⟨hin, hfits, fun b hb hbfits => ?_⟩, ha⟩
  rcases List.mem_append.mp ((hmem b).mp hb) with hearly | hlate
  · have := answer_isSome_iff.mpr hbfits
    rw [hbefore b hearly] at this
    cases this
  · rcases List.mem_cons.mp hlate with rfl | hlate
    · exact List.prefix_rfl
    · have hpairwise := List.pairwise_insertionSort aliasLe aliases
      rw [hsorted, List.pairwise_append] at hpairwise
      have hle : aliasLe a b := List.rel_of_pairwise_cons hpairwise.2.1 hlate
      refine prefix_of_utf8Len_le (prefix_of_fits hin hfits) (prefix_of_fits hb hbfits) ?_
      rcases hle with hlt | heq
      · exact Nat.le_of_lt hlt
      · exact Nat.le_of_eq heq.1.symm

/-- Nothing that answers stands before an entry no such one precedes strictly. -/
theorem findSome?_orderedInsert {α β : Type} {r : α → α → Prop} [DecidableRel r] {f : α → Option β}
    {a : α} {l : List α} {x : β} (ha : f a = some x) (hbefore : ∀ b ∈ l, ¬r a b → f b = none) :
    (l.orderedInsert r a).findSome? f = some x := by
  induction l with
  | nil => simp [ha]
  | cons b l ih =>
      rw [List.orderedInsert_cons]
      by_cases hab : r a b
      · rw [if_pos hab, List.findSome?_cons, ha]
      · rw [if_neg hab, List.findSome?_cons, hbefore b List.mem_cons_self hab]
        exact ih fun c hc => hbefore c (List.mem_cons_of_mem b hc)

/-- A leading alias written first is the one that answers. -/
theorem aliasTargets_of_leading {chain : List ChainLink} {spec : Str} {a : Alias}
    {rest : List Alias} (hperm : (declaredAliases chain).Perm (a :: rest))
    (h : Leading (declaredAliases chain) spec a) :
    aliasTargets spec ((a :: rest).insertionSort aliasLe) = a.substituted spec := by
  obtain ⟨hin, hfits, hlong⟩ := h
  obtain ⟨targets, ha⟩ := Option.isSome_iff_exists.mp (answer_isSome_iff.mpr hfits)
  unfold aliasTargets Alias.substituted
  rw [ha, List.insertionSort_cons, findSome?_orderedInsert ha fun b hb hab => ?_]
  -- what is sorted before it has a longer prefix, and so does not fit
  have hbin : b ∈ declaredAliases chain := hperm.mem_iff.mpr
    (List.mem_cons_of_mem a ((List.perm_insertionSort aliasLe rest).mem_iff.mp hb))
  by_contra hanswer
  have hbfits : b.Fits spec := answer_isSome_iff.mp (Option.isSome_iff_ne_none.mpr hanswer)
  obtain ⟨more, hmore⟩ := hlong b hbin hbfits
  refine hab ?_
  unfold aliasLe
  rw [← hmore, utf8Len_append]
  cases more with
  | nil => exact Or.inr ⟨by simp [utf8Len], le_of_eq (List.append_nil _)⟩
  | cons c more =>
      have hpos := Char.utf8Size_pos c
      exact Or.inl (by rw [utf8Len_cons]; omega)

/-! ## When the rule is followed -/

/-- The first config a rewriting does not tell apart is rewritten itself. -/
theorem find?_rewritten {chain chain' : List ChainLink} (h : List.Forall₂ Rewritten chain chain')
    {p : ChainLink → Bool} (hp : ∀ c c', Rewritten c c' → p c = p c') :
    Option.Rel Rewritten (chain.find? p) (chain'.find? p) := by
  induction h with
  | nil => exact .none
  | cons hc _ ih =>
      rw [List.find?_cons, List.find?_cons, hp _ _ hc]
      split
      · exact .some hc
      · exact ih

theorem Rewritten.isSome_paths {c c' : ChainLink} (h : Rewritten c c') :
    c.paths.isSome = c'.paths.isSome := by
  have hpaths := h.paths
  generalize c.paths = p, c'.paths = p' at hpaths ⊢
  cases hpaths <;> rfl

theorem Rewritten.refl (c : ChainLink) : Rewritten c c := by
  refine ⟨rfl, rfl, ?_⟩
  cases c.paths with
  | none => exact .none
  | some p => exact .some (List.Perm.refl _)

theorem baseUrlDir_rewritten {chain chain' : List ChainLink}
    (h : List.Forall₂ Rewritten chain chain') : baseUrlDir chain = baseUrlDir chain' := by
  have hfound := find?_rewritten h (p := fun c => c.baseUrl.isSome) fun c c' hc => by rw [hc.baseUrl]
  unfold baseUrlDir
  generalize chain.find? _ = found, chain'.find? _ = found' at hfound ⊢
  cases hfound with
  | none => rfl
  | some hc => rw [Option.bind_some, Option.bind_some, hc.dir, hc.baseUrl]

/-- Patterns written in another order are the same aliases in another order. -/
theorem declaredAliases_perm {chain chain' : List ChainLink} (h : List.Forall₂ Rewritten chain chain') :
    (declaredAliases chain).Perm (declaredAliases chain') := by
  have hfound := find?_rewritten h (p := fun c => c.paths.isSome) fun _ _ => Rewritten.isSome_paths
  unfold declaredAliases
  generalize chain.find? _ = found, chain'.find? _ = found' at hfound ⊢
  cases hfound with
  | none => exact List.Perm.refl _
  | @some owner owner' howner =>
      have hbase : targetBase chain owner = targetBase chain' owner' := by
        unfold targetBase
        rw [howner.baseUrl, howner.dir, baseUrlDir_rewritten h]
      have hpaths := howner.paths
      dsimp only
      rw [hbase]
      generalize owner.paths = p, owner'.paths = p' at hpaths ⊢
      cases hpaths with
      | none => exact List.Perm.refl _
      | some hperm => exact (hperm.filterMap _).map _

/-- An alias of a chain can be written in front of the others. -/
theorem exists_written_first {chain : List ChainLink} {a : Alias} (h : a ∈ declaredAliases chain) :
    ∃ chain' rest, List.Forall₂ Rewritten chain chain' ∧ declaredAliases chain' = a :: rest := by
  unfold declaredAliases at h
  cases hfind : chain.find? fun c => c.paths.isSome with
  | none =>
      rw [hfind] at h
      cases h
  | some owner =>
      rw [hfind] at h
      obtain ⟨howns, before, after, hchain, hbefore⟩ := List.find?_eq_some_iff_append.mp hfind
      obtain ⟨paths, hpaths⟩ := Option.isSome_iff_exists.mp howns
      simp only [hpaths, Option.map_some, Option.getD_some] at h
      obtain ⟨entry, hentry, rfl⟩ := List.mem_map.mp h
      obtain ⟨e, he, hread⟩ := List.mem_filterMap.mp hentry
      obtain ⟨early, late, hsplit⟩ := List.append_of_mem he
      -- the document with that entry moved to the front
      have hmoved : paths.entries.Perm (e :: (early ++ late)) := hsplit ▸ List.perm_middle
      let paths' : OrderedMap Str Json :=
        ⟨e :: (early ++ late), ((hmoved.map Prod.fst).nodup_iff).mp paths.nodup⟩
      let owner' : ChainLink := { owner with paths := some paths' }
      have howner : Rewritten owner owner' := ⟨rfl, rfl, hpaths ▸ .some hmoved⟩
      have hrewritten : List.Forall₂ Rewritten chain (before ++ owner' :: after) := by
        rw [hchain]
        exact List.rel_append (List.forall₂_same.mpr fun c _ => .refl c)
          (.cons howner (List.forall₂_same.mpr fun c _ => .refl c))
      have hfind' : (before ++ owner' :: after).find? (fun c => c.paths.isSome) = some owner' :=
        List.find?_eq_some_iff_append.mpr ⟨rfl, before, after, rfl, hbefore⟩
      have hbase : targetBase (before ++ owner' :: after) owner' = targetBase chain owner := by
        unfold targetBase
        rw [baseUrlDir_rewritten hrewritten]
      refine ⟨before ++ owner' :: after,
        ((early ++ late).filterMap readEntry).map (aliasOf (targetBase chain owner)), hrewritten, ?_⟩
      unfold declaredAliases
      rw [hfind']
      dsimp only
      rw [hbase]
      simp only [owner', Option.map_some, Option.getD_some, pathsEntries, paths',
        List.filterMap_cons_some hread, List.map_cons]

/-- What the rule picks leads. -/
theorem Picked.leading {chain : List ChainLink} {spec : Str} {a : Alias}
    (h : Picked (declaredAliases chain) spec a) : Leading (declaredAliases chain) spec a := by
  cases h with
  | exactly mem hexact hfits =>
      refine ⟨mem, hfits, fun b hb hbfits => ?_⟩
      rw [prefix_of_exact mem hfits hexact]
      exact prefix_of_fits hb hbfits
  | longest mem hfits _ hlong => exact ⟨mem, hfits, hlong⟩

/-- Where one leads, one is picked. -/
theorem Leading.exists_picked {aliases : List Alias} {spec : Str} {a : Alias}
    (h : Leading aliases spec a) : ∃ b, Picked aliases spec b := by
  by_cases hexact : ∃ b ∈ aliases, b.Fits spec ∧ b.wildcard = false
  · obtain ⟨b, hb, hfits, hw⟩ := hexact
    exact ⟨b, .exactly hb hw hfits⟩
  · refine ⟨a, .longest h.1 h.2.1 (fun b hb hfits => ?_) h.2.2⟩
    by_contra hw
    exact hexact ⟨b, hb, hfits, by simpa using hw⟩

/-- **When the precedence of TypeScript is followed.** Exactly when the patterns that fit with
the longest prefix, if there are several, substitute the same targets. -/
theorem followsPrecedence_iff (chain : List ChainLink) (spec : Str) :
    FollowsPrecedence chain spec ↔
      ∀ a b, Leading (declaredAliases chain) spec a → Leading (declaredAliases chain) spec b →
        a.substituted spec = b.substituted spec := by
  constructor
  · intro h a b ha hb
    obtain ⟨p, hp⟩ := ha.exists_picked
    -- each of the two can be written first, and then it is the one that answers
    have hfirst : ∀ c, Leading (declaredAliases chain) spec c → c.substituted spec = p.substituted spec := by
      intro c hc
      obtain ⟨chain', rest, hrewritten, hwritten⟩ := exists_written_first hc.1
      have hperm := declaredAliases_perm hrewritten
      rw [hwritten] at hperm
      rw [← (h chain' hrewritten).1 p hp, aliasesFromChain, hwritten]
      exact (aliasTargets_of_leading hperm hc).symm
    rw [hfirst a ha, hfirst b hb]
  · intro h chain' hrewritten
    have hperm := declaredAliases_perm hrewritten
    constructor
    · intro a ha
      obtain ⟨targets, htargets⟩ := Option.isSome_iff_exists.mp
        (answer_isSome_iff.mpr ha.leading.2.1)
      cases hfind : ((declaredAliases chain').insertionSort aliasLe).findSome? (Alias.answer spec) with
      | none =>
          have hnone := List.findSome?_eq_none_iff.mp hfind a
            ((List.perm_insertionSort aliasLe _).mem_iff.mpr (hperm.mem_iff.mp ha.leading.1))
          rw [htargets] at hnone
          cases hnone
      | some found =>
          obtain ⟨b, hb, hanswer⟩ := leading_of_findSome? hperm hfind
          rw [aliasesFromChain, aliasTargets, hfind, h a b ha.leading hb, Alias.substituted, hanswer]
    · intro hnone
      cases hfind : ((declaredAliases chain').insertionSort aliasLe).findSome? (Alias.answer spec) with
      | none => rw [aliasesFromChain, aliasTargets, hfind, Option.getD_none]
      | some found =>
          obtain ⟨b, hb, -⟩ := leading_of_findSome? hperm hfind
          obtain ⟨p, hp⟩ := hb.exists_picked
          exact absurd hp (hnone p)

/-! ## A pattern with the text of another for its prefix -/

/-- `lib*` written before `lib`. -/
def starBeforeExact : List ChainLink :=
  [{ dir := []
     baseUrl := none
     paths := some
      { entries :=
          [("lib*".toList, .array [.string "vendor/lib*".toList]),
            ("lib".toList, .array [.string "src/lib/index".toList])]
        nodup := by decide } }]

theorem starBeforeExact_not_followed : ¬ ∀ chain spec, FollowsPrecedence chain spec := by
  intro h
  have hexact : Picked (declaredAliases starBeforeExact) "lib".toList
      (aliasOf (some []) ("lib".toList, ["src/lib/index".toList])) :=
    .exactly (List.mem_cons_of_mem _ List.mem_cons_self) rfl (by unfold Alias.Fits; rfl)
  have htargets := (h starBeforeExact "lib".toList starBeforeExact
    (List.forall₂_same.mpr fun c _ => .refl c)).1 _ hexact
  exact absurd htargets (by decide)

end Devscout.Ts
