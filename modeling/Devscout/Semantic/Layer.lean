/-
# Devscout.Semantic.Layer -- compiler facts as the resolver reads them

The layer reads an admitted artifact a second time, for itself: the occurrence sites it
can use, each with the compilation it names, and what the envelope says about each
compilation. A reference asks it by file, line and member. Several records can share
that key: one call's argument count may single one out, and otherwise all of them
answer together.
-/

import Devscout.Lib.Json
import Devscout.Resolve.Index

namespace Devscout.Semantic

open Lib Resolve

/-! ## Reading the artifact -/

structure RawOccurrence where
  file : Str
  nameLine : Nat
  resolution : Str
  targetType : Option Str
  targetMember : Option Str
  compilationIdentity : Json
  targetOverloadSignature : Option Str

structure ImportRef where
  identity : Str
  hash : Str

structure RawCompilation where
  identity : Json
  state : Str
  reason : Str
  imports : List ImportRef

structure RawFacts where
  sourceHeadSha : Option Str
  sourceDirty : Bool
  compilations : List RawCompilation
  occurrences : List RawOccurrence

def parseImport (item : Json) : Option ImportRef := do
  some ⟨← item.getStr "identity", ← item.getStr "hash"⟩

def parseImports (entry : Json) : List ImportRef :=
  ((entry.getArray "imports").getD []).filterMap parseImport

def parseCompilation (entry : Json) : Option RawCompilation := do
  let identity ← entry.get "identity"
  let state ← entry.getStr "state"
  some ⟨identity, state, (entry.getStr "reason").getD [], parseImports entry⟩

/-- `parse_compilations`: an entry it cannot read is skipped. -/
def parseCompilations (root : Json) : List RawCompilation :=
  let entries := do (← (← root.getObject "context").getObject "envelope").getArray "compilations"
  (entries.getD []).filterMap parseCompilation

/-- One site; what a site has to have is a file, the line of its name and a resolution. -/
def parseOccurrence (site : Json) : Option RawOccurrence := do
  let file ← site.getStr "file"
  let nameLine ← (← site.getObject "name").getU64 "line"
  let resolution ← site.getStr "resolution"
  let target := site.getObject "target"
  some
    { file, nameLine, resolution
      targetType := target.bind (·.getStr "type")
      targetMember := target.bind (·.getStr "member")
      compilationIdentity :=
        ((site.getObject "compilation").bind (·.get "identity")).getD .null
      targetOverloadSignature := target.bind (·.getStr "overloadSignature") }

/-- `parse_occurrences`: a site it cannot read is skipped. -/
def parseOccurrences (root : Json) : List RawOccurrence :=
  let sites := do (← root.getObject "occurrences").getArray "sites"
  (sites.getD []).filterMap parseOccurrence

/-- `parse_raw`; a snapshot that does not say it is clean is dirty. -/
def parseRaw (fromSlice : Bytes → Option Json) (bytes : Bytes) : Option RawFacts := do
  let root ← fromSlice bytes
  some
    { sourceHeadSha := (root.getObject "sourceSnapshot").bind (·.getStr "headSha")
      sourceDirty := ((root.getObject "sourceSnapshot").bind (·.getBool "dirty")).getD true
      compilations := parseCompilations root
      occurrences := parseOccurrences root }

/-! ## Uncertainty -/

inductive Uncertainty where
  | confirmed
  | candidate
  | ambiguous
  | unresolved
  | unsupported
  | excluded
  | stale (reason : Str)
  | incomplete (reason : Str)
  deriving DecidableEq

/-- `from_resolution`. -/
def fromResolution (resolution : Str) : Uncertainty :=
  if resolution = "confirmed".toList then .confirmed
  else if resolution = "ambiguous".toList then .ambiguous
  else if resolution = "unresolved".toList then .unresolved
  else if resolution = "dynamic".toList then .unsupported
  else if resolution = "inaccessible".toList then .excluded
  else .candidate

/-- `from_compilation_state`: a complete compilation leaves the word to the occurrence. -/
def fromCompilationState (state reason : Str) : Option Uncertainty :=
  if state = "complete".toList then none
  else if state = "unsupported".toList then some .unsupported
  else some (.incomplete reason)

/-! ## The layer -/

inductive Freshness where
  | fresh
  | stale (reason : Str)

structure SemanticLayer where
  freshness : Freshness
  occurrences : List RawOccurrence
  compilations : List RawCompilation

/-- `load`, once the freshness of the artifact is known. -/
def SemanticLayer.ofRaw (freshness : Freshness) (raw : RawFacts) : SemanticLayer :=
  ⟨freshness, raw.occurrences, raw.compilations⟩

/-- The key a record is joined by: file, line, member. -/
abbrev SiteKey := Str × Nat × Str

def RawOccurrence.key (occ : RawOccurrence) : Option SiteKey :=
  occ.targetMember.map fun member => (occ.file, occ.nameLine, member)

/-- The records at a key, in the artifact's order. -/
def SemanticLayer.atSite (layer : SemanticLayer) (key : SiteKey) : List RawOccurrence :=
  layer.occurrences.filter fun occ => occ.key == some key

/-- `compilation_state`. -/
def SemanticLayer.compilationState (layer : SemanticLayer) (identity : Json) :
    Option (Str × Str) :=
  (layer.compilations.find? fun c => c.identity == identity).map fun c => (c.state, c.reason)

/-- How the characters of a parameter list count: brackets nest, a comma outside any
adds one. -/
def countParam (acc : Nat × Int) (ch : Char) : Nat × Int :=
  if ch = '<' ∨ ch = '(' ∨ ch = '[' then (acc.1, acc.2 + 1)
  else if ch = '>' ∨ ch = ')' ∨ ch = ']' then (acc.1, acc.2 - 1)
  else if ch = ',' ∧ acc.2 = 0 then (acc.1 + 1, acc.2)
  else acc

/-- The comma between angle brackets separates no parameters. -/
example : ['A', '<', 'B', ',', 'C', '>', ',', 'D'].foldl countParam (1, 0) = (2, 0) := by decide +kernel

/-- What stands before the first `)->`. -/
def beforeArrow : Str → Option Str
  | [] => none
  | c :: cs =>
      if ")->".toList.isPrefixOf (c :: cs) then some []
      else (beforeArrow cs).map (c :: ·)

/-- The characters `trim` takes off. -/
def isUnicodeWhitespace (c : Char) : Bool :=
  let n := c.toNat
  (0x09 ≤ n && n ≤ 0x0D) || n == 0x20 || n == 0x85 || n == 0xA0 || n == 0x1680 ||
    (0x2000 ≤ n && n ≤ 0x200A) || n == 0x2028 || n == 0x2029 || n == 0x202F || n == 0x205F ||
    n == 0x3000

/-- `overload_arg_count`. -/
def overloadArgCount (signature : Str) : Option Nat :=
  match signature with
  | '(' :: afterOpen =>
      (beforeArrow afterOpen).map fun params =>
        if params.all isUnicodeWhitespace then 0 else (params.foldl countParam (1, 0)).1
  | _ => none

/-! ## Translating an identity -/

/-- The segments of a display name: split at dots outside argument lists; the current
segment and the depth are carried along. -/
def splitSegments : Str → Str → Int → List Str
  | [], current, _ => if current.isEmpty then [] else [current]
  | c :: cs, current, depth =>
      if c = '<' then splitSegments cs (current ++ [c]) (depth + 1)
      else if c = '>' then splitSegments cs (current ++ [c]) (depth - 1)
      else if c = '.' ∧ depth = 0 then current :: splitSegments cs [] depth
      else splitSegments cs (current ++ [c]) depth

/-- `split_qualified_type`: each segment without its argument list. -/
def splitQualifiedType (raw : Str) : List Str :=
  (splitSegments raw [] 0).map fun seg => seg.takeWhile (· ≠ '<')

def joinDot (segs : List Str) : Str := List.intercalate ['.'] segs

/-- The nested type reached from a definition through the segments. -/
def walkNested (index : DefIndex) : Nat → List Str → Option Nat
  | cur, [] => some cur
  | cur, seg :: segs =>
      match index.qualifiedNameToDef.get? ((index.def_ cur).id ++ '+' :: seg) with
      | some next => walkNested index next segs
      | none => none

/-- `translate_type_id`: the shortest head that leads through all the segments. -/
def translateTypeId (raw : Str) (index : DefIndex) : Option Nat :=
  let segments := splitQualifiedType raw
  (List.range segments.length).findSome? fun k =>
    match index.qualifiedNameToDef.get? (joinDot (segments.take (k + 1))) with
    | some start => walkNested index start (segments.drop (k + 1))
    | none => none

structure SemanticTarget where
  toDefId : Str
  toFile : Str
  overloadSignature : Option Str
  deriving DecidableEq

/-- `resolve_target`: an enum's member is a definition of its own. -/
def resolveTarget (typeIdx : Nat) (member : Str) (overloadSignature : Option Str)
    (index : DefIndex) : SemanticTarget :=
  let def_ := index.def_ typeIdx
  let here : SemanticTarget := ⟨def_.id, def_.file, overloadSignature⟩
  if def_.kind = "enum".toList then
    match index.qualifiedNameToDef.get? (def_.id ++ '.' :: member) with
    | some memberIdx =>
        ⟨(index.def_ memberIdx).id, (index.def_ memberIdx).file, overloadSignature⟩
    | none => here
  else here

/-! ## The lookup -/

inductive LookupOutcome where
  | noFact
  | confirmed (target : SemanticTarget)
  | other (uncertainty : Uncertainty)
  | confirmedMany (targets : List SemanticTarget)

/-- Arity narrowing: one record left of several by the caller's argument count, or all
of them. -/
def narrowed (callerArgCount : Option Nat) (records : List RawOccurrence) : List RawOccurrence :=
  if records.length ≤ 1 then records
  else
    match callerArgCount with
    | none => records
    | some want =>
        let matching := records.filter fun occ =>
          occ.targetOverloadSignature.bind overloadArgCount == some want
        if matching.length = 1 then matching else records

/-- What one record's own compilation and resolution come to. -/
def SemanticLayer.uncertaintyOf (layer : SemanticLayer) (occ : RawOccurrence) : Uncertainty :=
  match layer.compilationState occ.compilationIdentity with
  | some (state, reason) =>
      (fromCompilationState state reason).getD (fromResolution occ.resolution)
  | none => fromResolution occ.resolution

/-- The target a record speaks for: a confirmed one, of a type in the graph. -/
def SemanticLayer.spoken (layer : SemanticLayer) (index : DefIndex) (member : Str)
    (occ : RawOccurrence) : Option SemanticTarget :=
  if layer.uncertaintyOf occ = .confirmed then
    (occ.targetType.bind fun raw => translateTypeId raw index).map fun typeIdx =>
      resolveTarget typeIdx member occ.targetOverloadSignature index
  else none

/-- What a record that speaks for nothing leaves. -/
def SemanticLayer.silence (layer : SemanticLayer) (occ : RawOccurrence) : Uncertainty :=
  if layer.uncertaintyOf occ = .confirmed then .candidate else layer.uncertaintyOf occ

/-- One record of the loop: the targets so far and the first uncertainty met. -/
def SemanticLayer.collect (layer : SemanticLayer) (index : DefIndex) (member : Str)
    (acc : List SemanticTarget × Option Uncertainty) (occ : RawOccurrence) :
    List SemanticTarget × Option Uncertainty :=
  match layer.spoken index member occ with
  | some target => (acc.1 ++ [target], acc.2)
  | none => (acc.1, acc.2.or (some (layer.silence occ)))

/-- `Vec::dedup`: of equal neighbours the first. -/
def dedup {α : Type} [DecidableEq α] : List α → List α
  | [] => []
  | a :: as =>
      match dedup as with
      | [] => [a]
      | b :: bs => if a = b then b :: bs else a :: b :: bs

/-- `lookup`. -/
def SemanticLayer.lookup (layer : SemanticLayer) (index : DefIndex) (file : Str) (line : Nat)
    (member : Str) (callerArgCount : Option Nat) : LookupOutcome :=
  match layer.freshness with
  | .stale reason => .other (.stale reason)
  | .fresh =>
      match layer.atSite (file, line, member) with
      | [] => .noFact
      | records =>
          let found := (narrowed callerArgCount records).foldl (layer.collect index member) ([], none)
          match dedup found.1 with
          | [] => (found.2.map LookupOutcome.other).getD .noFact
          | [target] => .confirmed target
          | targets => .confirmedMany targets

/-! ## What a lookup says -/

theorem dedup_nil_iff {α : Type} [DecidableEq α] {as : List α} : dedup as = [] ↔ as = [] := by
  cases as with
  | nil => simp [dedup]
  | cons a as =>
      simp only [dedup, reduceCtorEq, iff_false]
      split
      · exact List.cons_ne_nil _ _
      · split <;> exact List.cons_ne_nil _ _

/-- One entry is left of a list that repeats it. -/
theorem dedup_eq_singleton_iff {α : Type} [DecidableEq α] {as : List α} {a : α} :
    dedup as = [a] ↔ as ≠ [] ∧ ∀ b ∈ as, b = a := by
  induction as with
  | nil => simp [dedup]
  | cons b bs ih =>
      unfold dedup
      split
      · rename_i hnil
        rw [dedup_nil_iff] at hnil
        subst hnil
        simp
      · rename_i c cs hcons
        by_cases hbc : b = c
        · subst hbc
          rw [if_pos rfl, ← hcons, ih]
          have hne : bs ≠ [] := fun h => by simp [h, dedup] at hcons
          have hb : (∀ x ∈ bs, x = a) → b = a := by
            intro hall
            have hsingle : dedup bs = [a] := ih.mpr ⟨hne, hall⟩
            rw [hcons] at hsingle
            exact (List.cons.inj hsingle).1
          simp only [ne_eq, hne, not_false_eq_true, true_and, reduceCtorEq, List.mem_cons,
            forall_eq_or_imp]
          exact ⟨fun h => ⟨hb h, h⟩, fun h => h.2⟩
        · rw [if_neg hbc]
          simp only [List.cons.injEq, reduceCtorEq, and_false, ne_eq, not_false_eq_true, true_and,
            List.mem_cons, forall_eq_or_imp, false_iff, not_and]
          -- all of the rest would be the head, and then the head is not kept beside it
          intro hba hall
          have hne : bs ≠ [] := fun h => by simp [h, dedup] at hcons
          have hsingle : dedup bs = [a] := ih.mpr ⟨hne, hall⟩
          rw [hcons] at hsingle
          exact hbc (hba.trans (List.cons.inj hsingle).1.symm)

theorem dedup_filterMap_eq_singleton_iff {α β : Type} [DecidableEq β] {f : α → Option β} {as : List α}
    {b : β} : dedup (as.filterMap f) = [b] ↔
      (∃ a ∈ as, f a = some b) ∧ ∀ a ∈ as, ∀ c, f a = some c → c = b := by
  rw [dedup_eq_singleton_iff]
  constructor
  · rintro ⟨hne, hall⟩
    obtain ⟨c, hc⟩ := List.exists_mem_of_ne_nil _ hne
    obtain ⟨a, ha, hac⟩ := List.mem_filterMap.mp hc
    refine ⟨⟨a, ha, by rw [hac, hall c hc]⟩, fun a ha c hac => ?_⟩
    exact hall c (List.mem_filterMap.mpr ⟨a, ha, hac⟩)
  · rintro ⟨⟨a, ha, hab⟩, hall⟩
    refine ⟨List.ne_nil_of_mem (List.mem_filterMap.mpr ⟨a, ha, hab⟩), fun c hc => ?_⟩
    obtain ⟨a', ha', hac⟩ := List.mem_filterMap.mp hc
    exact hall a' ha' c hac

variable {layer : SemanticLayer} {index : DefIndex} {member : Str}

/-- The targets the loop collects are those the records speak for. -/
theorem collect_targets (records : List RawOccurrence)
    (acc : List SemanticTarget × Option Uncertainty) :
    (records.foldl (layer.collect index member) acc).1 =
      acc.1 ++ records.filterMap (layer.spoken index member) := by
  induction records generalizing acc with
  | nil => simp
  | cons occ records ih =>
      rw [List.foldl_cons, ih]
      unfold SemanticLayer.collect
      cases hspoken : layer.spoken index member occ with
      | none => simp [hspoken]
      | some target => simp [hspoken]

/-- **When a lookup confirms.** The artifact is fresh, some record left after narrowing
speaks, and all that speak name the one target. -/
theorem lookup_confirmed_iff {file : Str} {line : Nat} {callerArgCount : Option Nat}
    {target : SemanticTarget} :
    layer.lookup index file line member callerArgCount = .confirmed target ↔
      layer.freshness = .fresh ∧
        (∃ occ ∈ narrowed callerArgCount (layer.atSite (file, line, member)),
          layer.spoken index member occ = some target) ∧
        ∀ occ ∈ narrowed callerArgCount (layer.atSite (file, line, member)),
          ∀ t, layer.spoken index member occ = some t → t = target := by
  unfold SemanticLayer.lookup
  cases hfresh : layer.freshness with
  | stale reason => simp
  | fresh =>
      simp only [true_and]
      cases hrecords : layer.atSite (file, line, member) with
      | nil => simp [narrowed]
      | cons first rest =>
          simp only
          set records := narrowed callerArgCount (first :: rest) with hnarrowed
          rw [← dedup_filterMap_eq_singleton_iff, collect_targets, List.nil_append]
          -- no target, one, or several; only one is confirmed
          split
          · rename_i hnil
            rw [hnil]
            simp only [reduceCtorEq, iff_false]
            cases (records.foldl (layer.collect index member) ([], none)).2 <;> simp
          · rename_i t hone
            rw [hone]
            simp
          · rename_i targets hnil hone
            constructor
            · intro h
              cases h
            · intro h
              exact absurd h (hone target)

end Devscout.Semantic
