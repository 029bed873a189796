/-
# Devscout.Resolve.Canonical -- one spelling for every type

Two argument lists are compared after each side's descriptor is rewritten to one identity in
that side's own file: an in-graph type to its definition, an alias without one to its target.
The target is first rendered the way descriptors are, every dotted name by its last segment,
and is then rewritten in the same file. A rendered target may so be the alias again, as it
is for an alias that has the name of the type it stands for.
-/

import Devscout.Lib.Expansion
import Devscout.Resolve.Calls

namespace Devscout.Resolve

open Lib Fuel Relation

/-! ## Names in descriptors -/

/-- `CLR_PRIMITIVES`. -/
def clrPrimitives : List (Str × Str) :=
  [("SByte", "sbyte"), ("Byte", "byte"), ("Int16", "short"), ("UInt16", "ushort"), ("Int32", "int"),
    ("UInt32", "uint"), ("Int64", "long"), ("UInt64", "ulong"), ("Single", "float"),
    ("Double", "double"), ("Decimal", "decimal"), ("Char", "char"), ("Boolean", "bool"),
    ("String", "string"), ("Object", "object")].map fun e => (e.1.toList, e.2.toList)

def systemDot : Str := "System.".toList

/-- `primitive_keyword`. -/
def primitiveKeyword (token : Str) : Option Str :=
  clrPrimitives.lookup (if systemDot.isPrefixOf token then token.drop systemDot.length else token)

/-- `is_name_char`. -/
def isNameChar (ch : Char) : Bool := ch.isAlphanum || ch == '_' || ch == '.'

/-- `is_array_suffix`. -/
def isArraySuffix (text : Str) : Bool := text.all fun ch => ch == '[' || ch == ']'

/-- `bare_head`. -/
def bareHead (head : Str) : Str := (head.splitOn '.').getLastD head

/-- `rewrite_names`, with the name under way. -/
def rewriteNamesFrom (rename : Str → Str) (token : Str) : Str → Str
  | [] => if token.isEmpty then [] else rename token
  | ch :: rest =>
      if isNameChar ch then rewriteNamesFrom rename (token ++ [ch]) rest
      else (if token.isEmpty then [] else rename token) ++ ch :: rewriteNamesFrom rename [] rest

/-- `canonical_primitives`. -/
def canonicalPrimitives (descriptor : Str) : Str :=
  rewriteNamesFrom (fun token => (primitiveKeyword token).getD token) [] descriptor

/-! ## Parts of a descriptor -/

/-- The loop of `split_descriptor`, after the opening bracket: the arguments so far and the
one under way. -/
def splitArguments : Nat → List Str → Str → Str → Option (List Str × Str)
  | _, _, _, [] => none
  | depth, arguments, current, ch :: rest =>
      if ch = '<' then splitArguments (depth + 1) arguments (current ++ [ch]) rest
      else if ch = '>' then
        if depth = 0 then none
        else if depth = 1 then
          if current.isEmpty then none else some (arguments ++ [current], rest)
        else splitArguments (depth - 1) arguments (current ++ [ch]) rest
      else if ch = ',' ∧ depth = 1 then
        if current.isEmpty then none else splitArguments depth (arguments ++ [current]) [] rest
      else splitArguments depth arguments (current ++ [ch]) rest

/-- `split_descriptor`: the head, its arguments and the array suffix. -/
def splitDescriptor (descriptor : Str) : Option (Str × List Str × Str) :=
  let opening := if '<' ∈ descriptor then '<' else '['
  let head := descriptor.takeWhile (· ≠ opening)
  let rest := descriptor.dropWhile (· ≠ opening)
  if head.isEmpty || !head.all isNameChar then none
  else
    match rest with
    | '<' :: inner =>
        match splitArguments 1 [] [] inner with
        | none => none
        | some (arguments, suffix) =>
            if isArraySuffix suffix then some (head, arguments, suffix) else none
    | _ => if isArraySuffix rest then some (head, [], rest) else none

/-! ## Alias targets -/

/-- A bare CLR name is the BCL type, or an in-graph type of that name. -/
inductive Reading where
  | keyword
  | inGraph
  deriving DecidableEq

/-- `flush_segment`. -/
def flushSegment (reading : Reading) (out token : Str) : Str :=
  if token.isEmpty then out
  else
    let qualifiedKeyword :=
      if reading = .inGraph ∧ systemDot.isPrefixOf token then primitiveKeyword token else none
    out ++ qualifiedKeyword.getD (bareHead token)

/-- `drop_last_segment`. The cut is one byte after the start of the last character that
belongs to no name, which is inside that character when it has more bytes: `truncate` panics
there. -/
def dropLastSegment (out : Str) : Option Str :=
  match (out.rdropWhile isNameChar).getLast? with
  | none => some []
  | some ch => if ch.toNat < 128 then some (out.rdropWhile isNameChar) else none

/-- The loop of `normalize_alias_target`; a colon right after a colon is skipped. None when
it panics. -/
def normalizeFrom (reading : Reading) : Str → Str → Bool → Str → Option Str
  | out, token, _, [] => some (flushSegment reading out token)
  | out, token, afterColon, ch :: rest =>
      if isNameChar ch then normalizeFrom reading out (token ++ [ch]) false rest
      else if ch = ':' then
        if afterColon then normalizeFrom reading out token true rest
        else do normalizeFrom reading (← dropLastSegment out) [] true rest
      else if Text.isWhitespace ch then normalizeFrom reading out token false rest
      else normalizeFrom reading (flushSegment reading out token ++ [ch]) [] false rest

/-- `normalize_alias_target`. -/
def normalizeAliasTarget (target : Str) (reading : Reading) : Option Str :=
  (normalizeFrom reading [] [] false target).map fun out =>
    match reading with
    | .keyword => canonicalPrimitives out
    | .inGraph => out

/-! ## Identities -/

/-- `Canon`. -/
inductive Canon where
  | placeholder
  | generic (head : Str) (arguments : List Canon) (suffix : Str)

mutual

/-- `same_as`. -/
def Canon.sameAs : Canon → Canon → Bool
  | .placeholder, _ => true
  | .generic _ _ _, .placeholder => true
  | .generic ah aa asuffix, .generic bh ba bsuffix =>
      ah == bh && asuffix == bsuffix && Canon.sameAll aa ba

def Canon.sameAll : List Canon → List Canon → Bool
  | [], [] => true
  | a :: as, b :: bs => a.sameAs b && Canon.sameAll as bs
  | _, _ => false

end

structure CompareContext where
  index : DefIndex
  contexts : Contexts
  sourceFile : Str
  paramFile : Str
  reference : FragRef
  ownerIdx : Nat
  reading : Reading

/-- Where the names of a descriptor are read. -/
structure TypeSite where
  file : Str
  ns : Str
  outer : List Str

/-- `scope`, for the argument. -/
def argumentSite (cx : CompareContext) : TypeSite where
  file := cx.sourceFile
  ns := cx.reference.namespace_.getD []
  outer := cx.reference.outerTypes

/-- `scope`, for the parameter. -/
def parameterSite (cx : CompareContext) : TypeSite where
  file := cx.paramFile
  ns := (cx.index.def_ cx.ownerIdx).namespace_
  outer := []

/-- `resolve_type`, with so many nested calls. -/
def resolveTypeCall (index : DefIndex) (contexts : Contexts) (bound : Nat) (site : TypeSite)
    (name : Str) : Option (Option Nat) :=
  match contexts.get? site.file with
  | none => some none
  | some ctx => do
      match ← resolveCall index contexts bound (typeProbe name site.ns site.outer) ctx site.ns with
      | .resolved found _ => some (some found)
      | _ => some none

section Canonical

variable (cx : CompareContext) (site : TypeSite)

def aliasOf (head : Str) : Option Str :=
  (cx.contexts.get? site.file).bind fun ctx => ctx.aliases.get? head

/-- The identity of a head that is neither in the graph nor an alias. -/
def externalCanon (head : Str) (arguments : List Canon) (suffix : Str) : Canon :=
  let named := Canon.generic ((primitiveKeyword head).getD head) arguments suffix
  if bareHead head = "Nullable".toList then
    match arguments, suffix with
    | [argument], [] => argument
    | _, _ => named
  else if bareHead head = "dynamic".toList then .generic "object".toList [] []
  else named

/-- `canonical`, with so many nested calls: none when they do not suffice, or when it
panics. -/
def canonicalCall : Nat → Str → Option (Option Canon)
  | 0, _ => none
  | bound + 1, descriptor =>
      let descriptor := Text.trim descriptor
      if descriptor = ['?'] ∨ descriptor = ['*'] then some (some .placeholder)
      else
        match splitDescriptor descriptor with
        | none => some none
        | some (head, arguments, suffix) => do
            match ← collectCalls (canonicalCall bound) arguments with
            | none => some none
            | some arguments =>
                match ← resolveTypeCall cx.index cx.contexts bound site head with
                | some idx => some (some (.generic ('@' :: (cx.index.def_ idx).id) arguments suffix))
                | none =>
                    match aliasOf cx site head with
                    | some target => canonicalCall bound (← normalizeAliasTarget target cx.reading)
                    | none => some (some (externalCanon head arguments suffix))

/-- **`canonical` finishes:** some bound on its nested calls suffices. -/
def CanonicalFinishes (descriptor : Str) : Prop :=
  ∃ bound, (canonicalCall cx site bound descriptor).isSome

/-- `canonically_equal`, with so many nested calls. -/
def canonicallyEqualCall (bound : Nat) (arg param : Str) : Option Bool := do
  let argument ← canonicalCall cx (argumentSite cx) bound arg
  let parameter ← canonicalCall cx (parameterSite cx) bound param
  match argument, parameter with
  | some a, some p => some (a.sameAs p)
  | _, _ => some false

/-! ## What a descriptor is read through -/

/-- The arguments of a descriptor. -/
def descriptorParts (descriptor : Str) : Option (List Str) :=
  let descriptor := Text.trim descriptor
  if descriptor = ['?'] ∨ descriptor = ['*'] then some []
  else (splitDescriptor descriptor).map fun split => split.2.1

/-- What is rewritten instead of a head: the rendered target of an alias that is no in-graph
type. -/
def headStandsFor (bound : Nat) (head : Str) : Option (Option Str) := do
  match ← resolveTypeCall cx.index cx.contexts bound site head with
  | some _ => some none
  | none =>
      match aliasOf cx site head with
      | some target => (normalizeAliasTarget target cx.reading).map some
      | none => some none

def descriptorStandsFor (bound : Nat) (descriptor : Str) : Option (Option Str) :=
  let descriptor := Text.trim descriptor
  if descriptor = ['?'] ∨ descriptor = ['*'] then some none
  else
    match splitDescriptor descriptor with
    | none => some none
    | some (head, _, _) => headStandsFor cx site bound head

end Canonical

theorem resolveTypeCall_stays {index : DefIndex} {contexts : Contexts} {bound bound' : Nat}
    (hle : bound ≤ bound') (site : TypeSite) (name : Str) :
    Stays (resolveTypeCall index contexts bound site name)
      (resolveTypeCall index contexts bound' site name) := by
  unfold resolveTypeCall
  split
  · exact .refl _
  · refine (resolveCall_stays hle _ _ _).bind fun res => ?_
    split <;> exact .refl _

theorem descriptorStandsFor_stays (cx : CompareContext) (site : TypeSite) {bound bound' : Nat}
    (descriptor : Str) (hle : bound ≤ bound') :
    Stays (descriptorStandsFor cx site bound descriptor)
      (descriptorStandsFor cx site bound' descriptor) := by
  unfold descriptorStandsFor
  dsimp only
  split
  · exact .refl _
  · split
    · exact .refl _
    · refine (resolveTypeCall_stays hle site _).bind fun found => ?_
      split
      · exact .refl _
      · split <;> exact .refl _

/-- Descriptors, read in one file. -/
def descriptors (cx : CompareContext) (site : TypeSite) : Expansion Str where
  parts := descriptorParts
  standsFor := descriptorStandsFor cx site
  stays := fun descriptor hle => descriptorStandsFor_stays cx site descriptor hle

/-- **`canonical` reads a descriptor through its arguments and its alias.** -/
theorem canonicalCall_isSome (cx : CompareContext) (site : TypeSite) (bound : Nat) (descriptor : Str) :
    (canonicalCall cx site bound descriptor).map Option.isSome =
      (descriptors cx site).read bound descriptor := by
  induction bound generalizing descriptor with
  | zero => rfl
  | succ bound ih =>
      have harguments : ∀ arguments, allCalls ((descriptors cx site).read bound) arguments =
          (collectCalls (canonicalCall cx site bound) arguments).map Option.isSome := by
        intro arguments
        rw [collectCalls_isSome]
        congr
        exact funext fun argument => (ih argument).symm
      rw [canonicalCall, Expansion.read]
      rw [show (descriptors cx site).parts descriptor = descriptorParts descriptor from rfl,
        show (descriptors cx site).standsFor bound descriptor =
          descriptorStandsFor cx site bound descriptor from rfl]
      unfold descriptorParts descriptorStandsFor
      dsimp only
      split
      · -- a placeholder has no parts and stands for nothing
        rfl
      · cases hsplit : splitDescriptor (Text.trim descriptor) with
        | none => rfl
        | some split =>
            obtain ⟨head, arguments, suffix⟩ := split
            dsimp only [Option.map_some]
            rw [harguments]
            cases collectCalls (canonicalCall cx site bound) arguments with
            | none => rfl
            | some collected =>
                cases collected with
                | none => rfl
                | some canons =>
                    dsimp only [Option.map_some, Option.isSome_some]
                    unfold headStandsFor
                    cases resolveTypeCall cx.index cx.contexts bound site head with
                    | none => rfl
                    | some found =>
                        cases found with
                        | some idx => rfl
                        | none =>
                            dsimp only [bind, Option.bind]
                            cases aliasOf cx site head with
                            | none => rfl
                            | some target =>
                                dsimp only
                                cases normalizeAliasTarget target cx.reading with
                                | none => rfl
                                | some normalized => exact ih normalized

/-! ## Finitely many descriptors -/

theorem splitArguments_pieces {depth : Nat} {arguments : List Str} {current rest : Str}
    {out : List Str} {suffix : Str}
    (h : splitArguments depth arguments current rest = some (out, suffix)) :
    ∀ argument ∈ out, argument ∈ arguments ∨ argument <:+: current ++ rest := by
  induction rest generalizing depth arguments current with
  | nil => cases h
  | cons ch rest ih =>
      have hnext : current ++ [ch] ++ rest = current ++ ch :: rest := by simp
      have hcurrent : current <:+: current ++ ch :: rest := (List.prefix_append _ _).isInfix
      have hrest : rest <:+: current ++ ch :: rest :=
        ((List.suffix_cons ch rest).trans (List.suffix_append _ _)).isInfix
      rw [splitArguments] at h
      split at h
      · exact hnext ▸ ih h
      · split at h
        · split at h
          · cases h
          · split at h
            · split at h
              · cases h
              · obtain ⟨rfl, -⟩ := Prod.mk.inj (Option.some.inj h)
                intro argument hargument
                rcases List.mem_append.mp hargument with hmem | hmem
                · exact .inl hmem
                · exact .inr (List.mem_singleton.mp hmem ▸ hcurrent)
            · exact hnext ▸ ih h
        · split at h
          · split at h
            · cases h
            · -- the argument under way is complete, and the next one begins after the comma
              intro argument hargument
              rcases ih h argument hargument with hmem | hpiece
              · rcases List.mem_append.mp hmem with hmem | hmem
                · exact .inl hmem
                · exact .inr (List.mem_singleton.mp hmem ▸ hcurrent)
              · exact .inr (hpiece.trans hrest)
          · exact hnext ▸ ih h

theorem splitDescriptor_pieces {descriptor head suffix : Str} {arguments : List Str}
    (h : splitDescriptor descriptor = some (head, arguments, suffix)) :
    ∀ argument ∈ arguments, argument <:+: descriptor := by
  unfold splitDescriptor at h
  dsimp only at h
  generalize (if '<' ∈ descriptor then '<' else '[') = opening at h
  split at h
  · cases h
  · split at h
    · rename_i inner hinner
      have hsuffix : inner <:+ descriptor := by
        refine (List.suffix_cons '<' inner).trans ?_
        rw [← hinner]
        exact List.dropWhile_suffix _
      split at h
      · cases h
      · rename_i out suffix' hout
        split at h
        · obtain ⟨rfl, -⟩ := Prod.mk.inj (Prod.mk.inj (Option.some.inj h)).2
          intro argument hargument
          rcases splitArguments_pieces hout argument hargument with hmem | hpiece
          · cases hmem
          · exact hpiece.trans hsuffix.isInfix
        · cases h
    · split at h
      · obtain ⟨rfl, -⟩ := Prod.mk.inj (Prod.mk.inj (Option.some.inj h)).2
        intro argument hargument
        cases hargument
      · cases h

theorem trim_piece (s : Str) : Text.trim s <:+: s :=
  (List.rdropWhile_prefix _ _).isInfix.trans (List.dropWhile_suffix _).isInfix

theorem descriptorParts_pieces {descriptor : Str} {parts : List Str}
    (h : descriptorParts descriptor = some parts) : ∀ part ∈ parts, part <:+: descriptor := by
  unfold descriptorParts at h
  dsimp only at h
  split at h
  · obtain rfl := Option.some.inj h
    intro part hpart
    cases hpart
  · obtain ⟨⟨head, arguments, suffix⟩, hsplit, rfl⟩ := Option.map_eq_some_iff.mp h
    exact fun part hpart => (splitDescriptor_pieces hsplit part hpart).trans (trim_piece descriptor)

section Finite

variable {cx : CompareContext} {site : TypeSite}

/-- What a descriptor stands for is a rendered alias target of the file. -/
theorem alias_of_follows {descriptor normalized : Str}
    (h : (descriptors cx site).Follows descriptor normalized) :
    ∃ head target, aliasOf cx site head = some target ∧
      normalizeAliasTarget target cx.reading = some normalized := by
  obtain ⟨bound, h⟩ := h
  replace h : descriptorStandsFor cx site bound descriptor = some (some normalized) := h
  unfold descriptorStandsFor at h
  dsimp only at h
  split at h
  · cases h
  · split at h
    · cases h
    · rename_i head arguments suffix _
      unfold headStandsFor at h
      obtain ⟨found, -, h⟩ := Option.bind_eq_some_iff.mp h
      split at h
      · cases h
      · split at h
        · rename_i target halias
          obtain ⟨_, hnormalized, heq⟩ := Option.map_eq_some_iff.mp h
          obtain rfl := Option.some.inj heq
          exact ⟨head, target, halias, hnormalized⟩
        · cases h

/-- The rendered alias targets of a file. -/
def renderedTargets (cx : CompareContext) (site : TypeSite) : List Str :=
  match cx.contexts.get? site.file with
  | none => []
  | some ctx => ctx.aliases.entries.filterMap fun e => normalizeAliasTarget e.2 cx.reading

theorem mem_renderedTargets {head target normalized : Str} (halias : aliasOf cx site head = some target)
    (h : normalizeAliasTarget target cx.reading = some normalized) :
    normalized ∈ renderedTargets cx site := by
  obtain ⟨ctx, hctx, hget⟩ := Option.bind_eq_some_iff.mp halias
  unfold renderedTargets
  rw [hctx]
  exact List.mem_filterMap.mpr ⟨(head, target), OrderedMap.mem_of_get?_eq_some hget, h⟩

/-- **A descriptor leads to pieces of itself and of the file's rendered targets.** -/
theorem leads_to_pieces {descriptor e : Str}
    (h : ReflTransGen (descriptors cx site).Leads descriptor e) :
    ∃ whole ∈ descriptor :: renderedTargets cx site, e <:+: whole := by
  induction h with
  | refl => exact ⟨descriptor, List.mem_cons_self, List.infix_rfl⟩
  | tail _ hleads ih =>
      obtain ⟨whole, hwhole, hpiece⟩ := ih
      obtain ⟨parts, hparts, hpart | hfollows⟩ := hleads
      · exact ⟨whole, hwhole, (descriptorParts_pieces hparts _ hpart).trans hpiece⟩
      · obtain ⟨head, target, halias, hnormalized⟩ := alias_of_follows hfollows
        exact ⟨_, List.mem_cons_of_mem _ (mem_renderedTargets halias hnormalized), List.infix_rfl⟩

end Finite

/-- Rewriting finishes exactly when nothing read on the way is read again below itself. -/
theorem canonicalFinishes_iff (cx : CompareContext) (site : TypeSite) (descriptor : Str) :
    CanonicalFinishes cx site descriptor ↔ (descriptors cx site).Ends descriptor := by
  have hreads : CanonicalFinishes cx site descriptor ↔ (descriptors cx site).Reads descriptor := by
    refine exists_congr fun bound => ?_
    rw [← canonicalCall_isSome, Option.isSome_map]
  have hpieces : ∀ e, ReflTransGen (descriptors cx site).Leads descriptor e →
      e ∈ (descriptor :: renderedTargets cx site).flatMap List.sublists := by
    intro e he
    obtain ⟨whole, hwhole, hpiece⟩ := leads_to_pieces he
    exact List.mem_flatMap.mpr ⟨whole, hwhole, List.mem_sublists.mpr hpiece.sublist⟩
  rw [hreads]
  exact Expansion.reads_iff_ends hpieces

/-! ## Rendering a target -/

/-- Belongs to no name, and is neither a colon nor white space. -/
def standsOut (ch : Char) : Bool := !isNameChar ch && ch != ':' && !Text.isWhitespace ch

/-- Before every colon the last character that stands out, if there is one, is ASCII. -/
def ColonsAfterAscii (target : Str) : Prop :=
  ∀ before after, target = before ++ ':' :: after →
    ∀ ch, (before.filter standsOut).getLast? = some ch → ch.toNat < 128

/-- The last character of what was written that belongs to no name. -/
def lastOutside (out : Str) : Option Char := (out.rdropWhile isNameChar).getLast?

theorem dropLastSegment_eq (out : Str) : dropLastSegment out =
    match lastOutside out with
    | none => some []
    | some ch => if ch.toNat < 128 then some (out.rdropWhile isNameChar) else none := rfl

theorem lastOutside_rdropWhile (out : Str) :
    lastOutside (out.rdropWhile isNameChar) = lastOutside out := by
  rw [lastOutside, List.rdropWhile_idempotent]
  rfl

theorem lastOutside_concat {out : Str} {ch : Char} (h : isNameChar ch = false) :
    lastOutside (out ++ [ch]) = some ch := by
  rw [lastOutside, List.rdropWhile_concat_neg _ _ _ (by rw [h]; decide), List.getLast?_concat]

theorem forall_before_colon {ch : Char} {rest : Str} {Q : Str → Prop} :
    (∀ before after, ch :: rest = before ++ ':' :: after → Q before) ↔
      (ch = ':' → Q []) ∧ ∀ before after, rest = before ++ ':' :: after → Q (ch :: before) := by
  constructor
  · intro h
    exact ⟨fun hch => h [] rest (by rw [hch]; rfl), fun before after hrest =>
      h (ch :: before) after (by rw [hrest]; rfl)⟩
  · rintro ⟨hfirst, hrest⟩ before after heq
    cases before with
    | nil => exact hfirst (List.cons.inj heq).1
    | cons b before =>
        obtain ⟨rfl, hsplit⟩ := List.cons.inj heq
        exact hrest before after hsplit

/-- The rest is rendered exactly when no colon follows a character outside ASCII; what was
written before counts where nothing in the rest stands out. -/
theorem normalizeFrom_isSome_iff (reading : Reading) (out token : Str) (afterColon : Bool) (rest : Str)
    (hcolon : afterColon = true → ∀ ch, lastOutside out = some ch → ch.toNat < 128) :
    (normalizeFrom reading out token afterColon rest).isSome ↔
      ∀ before after, rest = before ++ ':' :: after →
        ∀ ch, (before.filter standsOut).getLast?.or (lastOutside out) = some ch → ch.toNat < 128 := by
  induction rest generalizing out token afterColon with
  | nil => simp [normalizeFrom]
  | cons c rest ih =>
      rw [forall_before_colon, normalizeFrom]
      -- A character that does not stand out leaves what is last outside as it is.
      have hsame : standsOut c = false →
          ∀ before, ((c :: before).filter standsOut) = before.filter standsOut :=
        fun hc before => List.filter_cons_of_neg (by rw [hc]; decide)
      by_cases hname : isNameChar c = true
      · have hne : c ≠ ':' := by rintro rfl; revert hname; decide
        rw [if_pos hname, ih out (token ++ [c]) false (by simp)]
        simp only [hne, false_imp_iff, true_and, hsame (by simp [standsOut, hname])]
      · rw [if_neg hname]
        by_cases hcolon' : c = ':'
        · subst hcolon'
          rw [if_pos rfl]
          have hfirst : (∀ ch, lastOutside out = some ch → ch.toNat < 128) ↔
              (':' = ':' → ∀ ch, (([] : Str).filter standsOut).getLast?.or (lastOutside out) = some ch →
                ch.toNat < 128) := by simp
          rw [← hfirst]
          simp only [hsame (by decide)]
          split
          · -- skipped: the colon before it was reached with the same last character
            rename_i hafter
            rw [ih out token true fun _ => hcolon hafter]
            exact (and_iff_right (hcolon hafter)).symm
          · rw [dropLastSegment_eq]
            cases hlast : lastOutside out with
            | none =>
                have hnil : lastOutside [] = none := rfl
                dsimp only [bind, Option.bind]
                rw [ih [] [] true (by simp [hnil]), hnil]
                simp
            | some ch =>
                dsimp only
                split
                · rename_i hascii
                  dsimp only [bind, Option.bind]
                  rw [ih _ [] true (by rw [lastOutside_rdropWhile, hlast]; simpa using hascii),
                    lastOutside_rdropWhile, hlast]
                  simp [hascii]
                · rename_i hwide
                  simp [hwide]
        · rw [if_neg hcolon']
          split
          · rename_i hwhite
            rw [ih out token false (by simp)]
            simp only [hcolon', false_imp_iff, true_and, hsame (by simp [standsOut, hwhite])]
          · rename_i hwhite
            have hout : isNameChar c = false := by simpa using hname
            have hstands : standsOut c = true := by simp [standsOut, hout, hcolon', hwhite]
            rw [ih _ [] false (by simp), lastOutside_concat hout]
            simp only [hcolon', false_imp_iff, true_and, List.filter_cons_of_pos hstands,
              List.getLast?_cons, Option.or_some, Option.some_or]

/-- **A target is rendered exactly when every colon comes after ASCII.** -/
theorem normalizeAliasTarget_isSome_iff (target : Str) (reading : Reading) :
    (normalizeAliasTarget target reading).isSome ↔ ColonsAfterAscii target := by
  rw [normalizeAliasTarget, Option.isSome_map, normalizeFrom_isSome_iff _ _ _ _ _ (by simp)]
  simp [ColonsAfterAscii, lastOutside]

/-! ## What a head stands for -/

theorem resolveTypeCall_finishes_iff (index : DefIndex) (contexts : Contexts) (site : TypeSite)
    (head : Str) :
    (∃ bound, (resolveTypeCall index contexts bound site head).isSome) ↔
      ∀ ctx, contexts.get? site.file = some ctx →
        QualifiersEnd index ctx site.ns (typeProbe head site.ns site.outer) := by
  unfold resolveTypeCall
  cases hctx : contexts.get? site.file with
  | none => simp
  | some ctx =>
      have hres : ∀ bound, ((do
          match ← resolveCall index contexts bound (typeProbe head site.ns site.outer) ctx site.ns with
          | .resolved found _ => some (some found)
          | _ => some none : Option (Option Nat)).isSome) =
          (resolveCall index contexts bound (typeProbe head site.ns site.outer) ctx
            site.ns).isSome := by
        intro bound
        cases resolveCall index contexts bound (typeProbe head site.ns site.outer) ctx site.ns with
        | none => rfl
        | some res => cases res <;> rfl
      simp only [hres, Option.some.injEq, forall_eq']
      constructor
      · rintro ⟨bound, h⟩
        exact ⟨bound, qualifierAfter_none_of_isSome h⟩
      · rintro ⟨n, h⟩
        exact ⟨_, isSome_of_qualifierAfter_none h⟩

/-- **What a head stands for is found out** when its own resolution finishes and, if it is an
alias without an in-graph type, the target is rendered. -/
theorem settles_iff {cx : CompareContext} {site : TypeSite} {descriptor head suffix : Str}
    {arguments : List Str} (hplace : ¬ (Text.trim descriptor = ['?'] ∨ Text.trim descriptor = ['*']))
    (hsplit : splitDescriptor (Text.trim descriptor) = some (head, arguments, suffix)) :
    (descriptors cx site).Settles descriptor ↔
      (∃ bound, (resolveTypeCall cx.index cx.contexts bound site head).isSome) ∧
        ((∃ bound, resolveTypeCall cx.index cx.contexts bound site head = some none) →
          ∀ target, aliasOf cx site head = some target → ColonsAfterAscii target) := by
  have hstands : ∀ bound, (descriptors cx site).standsFor bound descriptor =
      headStandsFor cx site bound head := by
    intro bound
    show descriptorStandsFor cx site bound descriptor = _
    rw [descriptorStandsFor, if_neg hplace, hsplit]
  simp only [Expansion.Settles, hstands, headStandsFor]
  constructor
  · rintro ⟨bound, h⟩
    cases hfound : resolveTypeCall cx.index cx.contexts bound site head with
    | none => rw [hfound] at h; cases h
    | some found =>
        refine ⟨⟨bound, by rw [hfound]; rfl⟩, fun ⟨bound', hnone⟩ target halias => ?_⟩
        -- Under a larger bound both answers stand, so they are one.
        have hmax := resolveTypeCall_stays (Nat.le_max_left bound bound') site head found hfound
        rw [resolveTypeCall_stays (Nat.le_max_right bound bound') site head none hnone] at hmax
        obtain rfl := Option.some.inj hmax
        rw [hfound] at h
        dsimp only [bind, Option.bind] at h
        rw [halias] at h
        dsimp only at h
        rw [Option.isSome_map, normalizeAliasTarget_isSome_iff] at h
        exact h
  · rintro ⟨⟨bound, h⟩, htarget⟩
    refine ⟨bound, ?_⟩
    obtain ⟨found, hfound⟩ := Option.isSome_iff_exists.mp h
    rw [hfound]
    cases found with
    | some idx => rfl
    | none =>
        dsimp only [bind, Option.bind]
        cases halias : aliasOf cx site head with
        | none => rfl
        | some target =>
            dsimp only
            rw [Option.isSome_map, normalizeAliasTarget_isSome_iff]
            exact htarget ⟨bound, hfound⟩ target halias

/-! ## Canonicalisation -/

/-- `canonical` finishes on a descriptor, and every alias target of its file is rendered. -/
def Canonicalises (cx : CompareContext) (site : TypeSite) (descriptor : Str) : Prop :=
  CanonicalFinishes cx site descriptor ∧
    ∀ head target, aliasOf cx site head = some target → (normalizeAliasTarget target cx.reading).isSome

/-- **Canonicalisation finishes exactly when no descriptor read on the way is read again below
itself,** every head on the way is found out, and the colons of the file's alias targets come
after ASCII. -/
theorem canonicalises_iff (cx : CompareContext) (site : TypeSite) (descriptor : Str) :
    Canonicalises cx site descriptor ↔ (descriptors cx site).Ends descriptor ∧
      ∀ head target, aliasOf cx site head = some target → ColonsAfterAscii target := by
  rw [Canonicalises, canonicalFinishes_iff]
  simp only [normalizeAliasTarget_isSome_iff]

theorem canonicalCall_isSome_mono (cx : CompareContext) (site : TypeSite) {bound bound' : Nat}
    (hle : bound ≤ bound') {descriptor : Str} (h : (canonicalCall cx site bound descriptor).isSome) :
    (canonicalCall cx site bound' descriptor).isSome := by
  have hread : ∀ bound, (canonicalCall cx site bound descriptor).isSome =
      ((descriptors cx site).read bound descriptor).isSome := by
    intro bound
    rw [← canonicalCall_isSome, Option.isSome_map]
  rw [hread] at h ⊢
  exact (Expansion.read_stays hle descriptor).isSome h

/-- The comparison finishes when both of its sides do. -/
theorem canonicallyEqualCall_finishes_iff (cx : CompareContext) (arg param : Str) :
    (∃ bound, (canonicallyEqualCall cx bound arg param).isSome) ↔
      (descriptors cx (argumentSite cx)).Ends arg ∧ (descriptors cx (parameterSite cx)).Ends param := by
  rw [← canonicalFinishes_iff, ← canonicalFinishes_iff]
  have hboth : ∀ bound, (canonicallyEqualCall cx bound arg param).isSome ↔
      (canonicalCall cx (argumentSite cx) bound arg).isSome ∧
        (canonicalCall cx (parameterSite cx) bound param).isSome := by
    intro bound
    unfold canonicallyEqualCall
    cases canonicalCall cx (argumentSite cx) bound arg with
    | none => simp
    | some a =>
        cases canonicalCall cx (parameterSite cx) bound param with
        | none => simp
        | some p => cases a <;> cases p <;> simp
  constructor
  · rintro ⟨bound, h⟩
    exact ⟨⟨bound, ((hboth bound).mp h).1⟩, ⟨bound, ((hboth bound).mp h).2⟩⟩
  · rintro ⟨⟨m, hm⟩, ⟨n, hn⟩⟩
    exact ⟨max m n, (hboth _).mpr ⟨canonicalCall_isSome_mono cx _ (Nat.le_max_left m n) hm,
      canonicalCall_isSome_mono cx _ (Nat.le_max_right m n) hn⟩⟩

/-! ## An alias named like its target -/

/-- `using Task = System.Threading.Tasks.Task;`, beside a generic type of the tree. -/
def taskAlias : Fragments :=
  [("a.cs".toList,
    { defs := [{ classNamed "Envelope" "Envelope" 2 with typeParams := ["T".toList] }],
      usings := [.alias "Task".toList "System.Threading.Tasks.Task".toList false] })]

/-- An argument of that file against a parameter of the generic type's own. -/
def taskContext : CompareContext where
  index := buildDefIndex taskAlias
  contexts := buildFileContexts taskAlias none (buildDefIndex taskAlias)
  sourceFile := "a.cs".toList
  paramFile := "a.cs".toList
  reference := { kind := .usesMember, name := "Envelope".toList }
  ownerIdx := 0
  reading := .keyword

/-- The alias is rendered `Task` again, and nothing in the graph is called that. -/
theorem taskAlias_none (bound : Nat) :
    canonicalCall taskContext (argumentSite taskContext) bound "Task".toList = none := by
  induction bound with
  | zero => rfl
  | succ bound ih =>
      have hsplit : splitDescriptor (Text.trim "Task".toList) = some ("Task".toList, [], []) := by
        decide
      have halias : aliasOf taskContext (argumentSite taskContext) "Task".toList =
          some "System.Threading.Tasks.Task".toList := by decide +kernel
      have hrendered : normalizeAliasTarget "System.Threading.Tasks.Task".toList taskContext.reading =
          some "Task".toList := by decide
      rw [canonicalCall, if_neg (by decide), hsplit]
      dsimp only [collectCalls, bind, Option.bind]
      cases bound with
      | zero => rfl
      | succ bound =>
          have hfound : resolveTypeCall taskContext.index taskContext.contexts (bound + 1)
              (argumentSite taskContext) "Task".toList = some none := by rfl
          rw [hfound]
          dsimp only
          rw [halias]
          dsimp only
          rw [hrendered]
          exact ih

/-- `Envelope<Task>` is never rewritten. -/
theorem taskAlias_not_canonicalises : ¬ ∀ cx site descriptor, Canonicalises cx site descriptor := by
  intro hall
  obtain ⟨⟨bound, h⟩, -⟩ := hall taskContext (argumentSite taskContext) "Envelope<Task>".toList
  have hsplit : splitDescriptor (Text.trim "Envelope<Task>".toList) =
      some ("Envelope".toList, ["Task".toList], []) := by decide
  cases bound with
  | zero => cases h
  | succ bound =>
      rw [canonicalCall, if_neg (by decide), hsplit] at h
      dsimp only [collectCalls] at h
      rw [taskAlias_none] at h
      cases h

end Devscout.Resolve
