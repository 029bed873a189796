/-
# Devscout.Resolve.Ladder -- resolving one reference

A name resolves by an ordered list of steps, and the first that answers decides: an
alias, the enclosing types, then for a dotted name its exact path, its expanded alias,
the paths ending with it and the nested types it crosses, for a bare name the
namespaces around the site with the directives of each, and last the graph-wide unique
name. Several candidates of one step are an ambiguity; no candidate is external.

A nested type may be named bare inside a type that inherits from its owner, so the
last step walks base lists. The names in those lists resolve without a type stack, and
without one no nested type is visible: the walk never starts another.
-/

import Devscout.Resolve.Scope

namespace Devscout.Resolve

open Lib

inductive Via where
  | alias
  | nested
  | qualified
  | usings
  | namespace_
  | suffix
  | global
  deriving DecidableEq

inductive Resolution where
  | resolved (idx : Nat) (via : Via)
  | ambiguous (candidates : List Nat) (via : Via)
  | external
  deriving DecidableEq

/-- How a reference resolves in a file's context, at a namespace. -/
abbrev Resolver := FragRef → FileContext → Str → Resolution

/-! ## Probes -/

/-- `name_probe`. -/
def nameProbe (name namespace_ : Str) (outerTypes : List Str) : FragRef :=
  { kind := .usesType, name, namespace_ := some namespace_, outerTypes }

/-- `type_probe`: a dotted text keeps itself as its qualified form. -/
def typeProbe (raw namespace_ : Str) (outerTypes : List Str) : FragRef :=
  match Text.rsplit '.' raw with
  | some (_, name) =>
      { kind := .usesType, name, qualified := some raw, namespace_ := some namespace_, outerTypes }
  | none => nameProbe raw namespace_ outerTypes

/-- `extractor_vouches_instance`. -/
def extractorVouchesInstance (r : FragRef) : Bool :=
  r.receiverType.isSome || r.receiverLocal || r.receiverPropertyOwner.isSome ||
    r.receiverCallOwner.isSome

/-- `is_this_shaped_receiver`. -/
def isThisShapedReceiver (r : FragRef) : Bool :=
  match r.receiverType, r.outerTypes.getLast? with
  | some receiver, some outer => receiver == outer
  | _, _ => false

/-- `def_outer_types`. -/
def defOuterTypes (d : Def) : List Str :=
  let owned := d.namespace_ ++ ['.']
  let chain :=
    if d.namespace_.isEmpty then d.id
    else if owned.isPrefixOf d.id then d.id.drop owned.length
    else d.name
  chain.splitOn '+'

/-! ## Written paths -/

def joinDots (segs : List Str) : Str := List.intercalate ['.'] segs

def joinPlus (segs : List Str) : Str := List.intercalate ['+'] segs

/-- A name below a namespace; below the global one it stands for itself. -/
def under (namespace_ name : Str) : Str :=
  if namespace_.isEmpty then name else namespace_ ++ '.' :: name

/-- The namespaces around a site, innermost first, the global one last. -/
def namespacePrefixes (ns : Str) : List Str :=
  let segments := if ns.isEmpty then [] else ns.splitOn '.'
  (List.range (segments.length + 1)).reverse.map fun i => joinDots (segments.take i)

/-- What follows the first `::`. -/
def afterAliasQualifier : Str → Option Str
  | ':' :: ':' :: rest => some rest
  | _ :: rest => afterAliasQualifier rest
  | [] => none

/-- The characters outside any angle brackets, the brackets left out. -/
def outsideAngles : Nat → Str → Str
  | _, [] => []
  | depth, c :: cs =>
      if c = '<' then outsideAngles (depth + 1) cs
      else if c = '>' then outsideAngles (depth - 1) cs
      else if depth = 0 then c :: outsideAngles depth cs
      else outsideAngles depth cs

/-- `written_type_path`. -/
def writtenTypePath (qualified : Str) : Str :=
  let body := (afterAliasQualifier qualified).getD qualified
  if '<' ∈ body then outsideAngles 0 body else body

/-- The depth and the last opening bracket at depth zero, over some characters. -/
def angleStep (acc : Option (Nat × Option Nat)) (e : Char × Nat) : Option (Nat × Option Nat) :=
  acc.bind fun (depth, opened) =>
    if e.1 = '<' then some (depth + 1, if depth = 0 then some e.2 else opened)
    else if e.1 = '>' then if depth = 0 then none else some (depth - 1, opened)
    else some (depth, opened)

/-- The arguments seen so far of a list, and whether the one under way has any text. -/
structure ArgumentScan where
  angles : Nat
  parens : Nat
  squares : Nat
  count : Nat
  written : Bool

def argumentStep (acc : Option ArgumentScan) (c : Char) : Option ArgumentScan :=
  acc.bind fun scan =>
    if c = '<' then some { scan with angles := scan.angles + 1 }
    else if c = '>' then
      if scan.angles = 0 then none else some { scan with angles := scan.angles - 1 }
    else if c = '(' then some { scan with parens := scan.parens + 1 }
    else if c = ')' then
      if scan.parens = 0 then none else some { scan with parens := scan.parens - 1 }
    else if c = '[' then some { scan with squares := scan.squares + 1 }
    else if c = ']' then
      if scan.squares = 0 then none else some { scan with squares := scan.squares - 1 }
    else if c = ',' ∧ scan.angles = 0 ∧ scan.parens = 0 ∧ scan.squares = 0 then
      if scan.written then some { scan with count := scan.count + 1, written := false } else none
    else if c ∈ [' ', '\t', '\r', '\n'] then some scan
    else some { scan with written := true }

/-- `final_type_argument_list`: the path without the argument list of its last segment,
and how many arguments that list has. -/
def finalTypeArgumentList (qualified : Str) : Option (Str × Nat) := do
  guard (qualified.getLast? = some '>')
  let (depth, opened) ← qualified.zipIdx.foldl angleStep (some (0, none))
  guard (depth = 0)
  let opened ← opened
  let path := qualified.take opened
  guard (!path.isEmpty ∧ path.getLast? ≠ some '.' ∧
    path.all fun c => c ∉ ['<', '>', '(', ')', '[', ']', ':', ',', ' '])
  let scan ← ((qualified.drop (opened + 1)).dropLast).foldl argumentStep (some ⟨0, 0, 0, 1, false⟩)
  guard (scan.angles = 0 ∧ scan.parens = 0 ∧ scan.squares = 0 ∧ scan.written)
  some (path, scan.count)

/-- `def_path_ends_with`: an id read with `+` as `.` ends with the path at a segment. -/
def defPathEndsWith (id written : Str) : Bool :=
  let head := id.take (id.length - written.length)
  let tail := id.drop (id.length - written.length)
  decide (written.length ≤ id.length) &&
    (match head.getLast? with
      | none => true
      | some b => b == '.' || b == '+') &&
    (tail.zip written).all fun (a, b) => a == b || (a == '+' && b == '.')

/-! ## Bare names -/

section Bare

variable (index : DefIndex)

/-- `type_candidate`. -/
def typeCandidate (name : Str) : Option Nat → Option Nat
  | some arity => index.qualifiedNameAndArityToDef.get? (name, arity)
  | none => index.qualifiedNameToDef.get? name

/-- Definitions of a simple name with the wanted number of type parameters. -/
def simplePool (r : FragRef) : List Nat :=
  ((index.simpleNameToDefs.get? r.name).getD []).filter fun idx =>
    match r.typeArgCount with
    | none => true
    | some n => (index.lists idx).typeParams.length == n

/-- The id of the enclosing type `depth` levels deep. -/
def enclosingType (ns : Str) (outerTypes : List Str) (depth : Nat) : Str :=
  under ns (joinPlus (outerTypes.take depth))

/-- Step 0b: a type nested in one of the enclosing types, innermost first. -/
def nestedInEnclosing (r : FragRef) (ns : Str) : Option Nat :=
  (List.range r.outerTypes.length).reverse.findSome? fun i =>
    typeCandidate index (enclosingType ns r.outerTypes (i + 1) ++ '+' :: r.name) r.typeArgCount

/-- One directive read from every enclosing namespace, innermost first. -/
def importedBy (prefixes : List Str) (r : FragRef) (directive : Str) : Option Nat :=
  prefixes.findSome? fun pre =>
    typeCandidate index (under pre (directive ++ '.' :: r.name)) r.typeArgCount

/-- `imported_at_level`; two directives landing on one id count once. -/
def importedAtLevel (directives prefixes : List Str) (r : FragRef) : List Nat :=
  (directives.filterMap (importedBy index prefixes r)).foldl (fun acc idx =>
    if acc.any fun other => (index.def_ other).id == (index.def_ idx).id then acc
    else acc ++ [idx]) []

/-- Steps 2 and 3 at one level; no answer goes on to the next. -/
def resolveAtLevel (r : FragRef) (usings : FileUsings) (prefixes : List Str) (level : Str) :
    Option Resolution :=
  match (typeCandidate index (under level r.name) r.typeArgCount).filter usings.reaches with
  | some idx => some (.resolved idx .namespace_)
  | none =>
      match (importedAtLevel index (usings.atLevel level) prefixes r).filter usings.reaches with
      | [] => none
      | [idx] => some (.resolved idx .usings)
      | found => some (.ambiguous found .usings)

/-- `nested_candidate_visible_from_site`; `inherits` says whether one definition has
another in its base closure. -/
def nestedCandidateVisible (inherits : Nat → Nat → Bool) (r : FragRef) (ns : Str)
    (candidate : Nat) : Bool :=
  match Text.rsplit '+' (index.def_ candidate).id with
  | none => true
  | some (enclosing, _) =>
      match index.qualifiedNameToDef.get? enclosing with
      | none => false
      | some owner =>
          let site := (List.range r.outerTypes.length).reverse.findSome? fun i =>
            index.qualifiedNameToDef.get? (enclosingType ns r.outerTypes (i + 1))
          match site with
          | none => false
          | some site => inherits site owner

/-- Several, one or no candidate of a step. -/
def ofCandidates (via : Via) : List Nat → Option Resolution
  | [] => none
  | [idx] => some (.resolved idx via)
  | found => some (.ambiguous found via)

/-- The ladder of a bare name. -/
def resolveBare (inherits : Nat → Nat → Bool) : Resolver := fun r ctx ns =>
  match ctx.aliases.get? r.name with
  | some target =>
      match typeCandidate index target r.typeArgCount with
      | some idx => .resolved idx .alias
      | none => .external
  | none =>
      match nestedInEnclosing index r ns with
      | some idx => .resolved idx .nested
      | none =>
          let prefixes := namespacePrefixes ns
          match prefixes.findSome? (resolveAtLevel index r ctx.usings prefixes) with
          | some found => found
          | none =>
              (ofCandidates .global ((simplePool index r).filter
                (nestedCandidateVisible index inherits r ns))).getD .external

/-! ## Base lists -/

/-- `base_arity`. -/
def baseArity (idx : Nat) (base : Str) : Nat :=
  match (index.lists idx).baseGenericArgs.lookup base with
  | some args => args.length
  | none => 0

/-- `resolve_ref_by_arity`: first at the arity, where the name is shared. -/
def resolveRefByArity (resolve : Resolver) (probe : FragRef) (arity : Option Nat)
    (ctx : FileContext) (ns : Str) : Resolution :=
  match arity with
  | none => resolve probe ctx ns
  | some n =>
      let full := (ctx.aliases.get? probe.name).getD probe.name
      let simple := (full.splitOn '.').getLastD full
      let shared := decide (2 ≤ ((index.simpleNameToDefs.get? simple).getD []).length)
      if shared then
        match resolve { probe with typeArgCount := some n } ctx ns with
        | .external => resolve { probe with typeArgCount := none } ctx ns
        | exact => exact
      else resolve probe ctx ns

variable (contexts : Contexts)

/-- The definitions a definition's base list names, in the context that declares it. -/
def basesOf (cur : Nat) : List Nat :=
  match contexts.get? (index.def_ cur).file with
  | none => []
  | some ctx =>
      let ns := (index.def_ cur).namespace_
      (index.lists cur).bases.filterMap fun base =>
        -- a base probe carries no type stack, so nothing nested is visible to it
        match resolveRefByArity index (resolveBare index fun _ _ => false) (nameProbe base ns [])
            (some (baseArity index cur base)) ctx ns with
        | .resolved idx _ => some idx
        | _ => none

/-- The walk's stack and what it has seen, with some bases pushed. -/
def pushBases (acc : List Nat × List Nat) (bases : List Nat) : List Nat × List Nat :=
  bases.foldl (fun acc base =>
    if base ∈ acc.1 then acc else (base :: acc.1, base :: acc.2)) acc

/-- The loop of `inheritance_walk_find`. -/
def walkFrom (found : Nat → Bool) : Nat → List Nat → List Nat → Option Nat
  | 0, _, _ => none
  | _, _, [] => none
  | fuel + 1, seen, cur :: stack =>
      if found cur then some cur
      else
        let next := pushBases (seen, stack) (basesOf index contexts cur)
        walkFrom found fuel next.1 next.2

/-- `inheritance_walk_find`: every definition is pushed once at most. -/
def inheritanceWalkFind (start : Nat) (found : Nat → Bool) : Option Nat :=
  walkFrom index contexts found (index.defs.length + 1) [start] [start]

def inheritsFrom (start owner : Nat) : Bool :=
  (inheritanceWalkFind index contexts start (· == owner)).isSome

/-! ## Dotted names -/

/-- Step 1: the exact path under the namespaces around the site. -/
def resolveExact (r : FragRef) (qualified ns : Str) : Option Nat :=
  let arguments := finalTypeArgumentList qualified
  let stripped := (arguments.map Prod.fst).getD qualified
  let arity := match arguments with
    | some (_, count) => some ((r.typeArgCount.filter (1 ≤ ·)).getD count)
    | none => r.typeArgCount
  (namespacePrefixes ns).findSome? fun pre => typeCandidate index (under pre stripped) arity

/-- Step 1a: the path with an alias at its head expanded. -/
def expandAlias (ctx : FileContext) (written : Str) : Option Str :=
  match written.dropWhile (· ≠ '.') with
  | _ :: rest =>
      (ctx.aliases.get? (written.takeWhile (· ≠ '.'))).map fun target => target ++ '.' :: rest
  | [] => none

/-- The reference a dotted qualifier makes by itself. -/
def qualifierProbe (qualifier ns : Str) (outerTypes : List Str) : FragRef :=
  match Text.rsplit '.' qualifier with
  | some (_, tail) => { nameProbe tail ns outerTypes with qualified := some qualifier }
  | none => nameProbe qualifier ns outerTypes

/-- Step 1b: the definitions whose path ends with the written one, or else the nested
ones inherited by the type its qualifier names. -/
def suffixMatches (resolve : Resolver) (r : FragRef) (ctx : FileContext) (ns written : Str) :
    List Nat :=
  let pool := simplePool index r
  let ending := pool.filter fun idx => defPathEndsWith (index.def_ idx).id written
  if ending.isEmpty && pool.any fun idx => (index.def_ idx).id.contains '+' then
    match Text.rsplit '.' written with
    | none => []
    | some (qualifier, _) =>
        match resolve (qualifierProbe qualifier ns r.outerTypes) ctx ns with
        | .resolved qidx _ =>
            pool.filter fun idx =>
              match (Text.rsplit '+' (index.def_ idx).id).bind fun e =>
                  index.qualifiedNameToDef.get? e.1 with
              | some enclosing => inheritsFrom index contexts qidx enclosing
              | none => false
        | _ => []
  else ending

/-- The nested types along some segments; only the last one has the reference's arity. -/
def walkSegments (arity : Option Nat) : Nat → List Str → Option Nat
  | cur, [] => some cur
  | cur, [leaf] => typeCandidate index ((index.def_ cur).id ++ '+' :: leaf) arity
  | cur, seg :: segs =>
      match typeCandidate index ((index.def_ cur).id ++ '+' :: seg) none with
      | some next => walkSegments arity next segs
      | none => none

/-- Step 1.5: a path crossing from a type, found by a head of the path, into its nested
types. -/
def resolveCrossing (resolve : Resolver) (r : FragRef) (ctx : FileContext) (ns qualified : Str) :
    Option Nat :=
  let segs := qualified.splitOn '.'
  let leafKnown := (segs.getLast?.bind index.simpleNameToDefs.get?).isSome
  if leafKnown then
    (List.range (segs.length - 1)).findSome? fun i =>
      let head := if i = 0 then
          match resolve { r with name := segs.headD [], qualified := none, typeArgCount := none }
              ctx ns with
          | .resolved idx _ => some idx
          | _ => none
        else (namespacePrefixes ns).findSome? fun pre =>
          typeCandidate index (under pre (joinDots (segs.take (i + 1)))) none
      head.bind fun start => walkSegments index r.typeArgCount start (segs.drop (i + 1))
  else none

/-- The ladder of a dotted name, after the exact path. -/
def resolveDotted (resolve : Resolver) (r : FragRef) (ctx : FileContext) (ns qualified : Str) :
    Resolution :=
  let written := writtenTypePath qualified
  let expanded := expandAlias ctx written
  match expanded.bind fun path => typeCandidate index path r.typeArgCount with
  | some idx => .resolved idx .qualified
  | none =>
      match ofCandidates .suffix
          (suffixMatches index contexts resolve r ctx ns (expanded.getD written)) with
      | some found => found
      | none =>
          match if extractorVouchesInstance r then none
            else resolveCrossing index resolve r ctx ns qualified with
          | some idx => .resolved idx .qualified
          | none => .external

/-- `resolve_ref`. A dotted name asks for its own qualifier, which is a segment shorter
unless an alias expands it: the fuel bounds how often. -/
def resolveRef : Nat → Resolver
  | 0 => fun _ _ _ => .external
  | fuel + 1 => fun r ctx ns =>
      match r.qualified with
      | none => resolveBare index (inheritsFrom index contexts) r ctx ns
      | some qualified =>
          match resolveExact index r qualified ns with
          | some idx => .resolved idx .qualified
          | none => resolveDotted index contexts (resolveRef fuel) r ctx ns qualified

end Bare

/-! ## What reachability leaves -/

/-- `narrow_by_reachability`. -/
def narrowByReachability (admitted : Nat → Bool) : Resolution → Resolution
  | .ambiguous candidates via =>
      match candidates.filter admitted with
      | [] => .external
      | [idx] => .resolved idx via
      | reachable => .ambiguous reachable via
  | res => res

/-- `narrow_tracked`: also whether candidates were found and none is left. -/
def narrowTracked (admitted : Nat → Bool) (res : Resolution) : Resolution × Bool :=
  let narrowed := narrowByReachability admitted res
  (narrowed, match res with
    | .ambiguous _ _ => decide (narrowed = .external)
    | _ => false)

def AMBIGUOUS_CAP : Nat := 5

end Devscout.Resolve
