/-
# Devscout.Resolve.Assembly -- one resolve of all C# fragments

Every reference of every file goes through its own ladder, in file order: imports are
edges as they stand, a constructor parameter asks for an implementation, a type
reference resolves or stays ambiguous or is dropped, and a member reference passes a
row of tiers, precise ones first, of which the first that claims it decides. Each push
of an edge is beside its own counter; nothing counts the edges afterwards. Once the
references are done come dispatch edges, bus hops, the compiler's own sites, and one
pass that drops repeated guesses.

What the tiers ask about the members of a definition is a record of questions here: the
assembly only acts on the answers.
-/

import Devscout.Resolve.Bus
import Devscout.Resolve.Dispatch
import Devscout.Semantic.Discovered

namespace Devscout.Resolve

open Lib Semantic

/-- A receiver's type read off a declaration, with the file that wrote it down. -/
structure ReceiverFieldType where
  typeName : Str
  qualifiedType : Option Str
  declaringDef : Nat
  declaringFile : Str

inductive BareMemberLookup where
  | typePriority
  | receiverFallback

/-- What the tiers ask of the member and receiver tables, each question under the name
of the function that answers it. -/
structure MemberQuestions where
  baseMemberForRef : Nat → FragRef → Str → Option Nat
  baseMemberDeclared : Nat → Str → Option Nat
  bareReceiverFieldOrPropertyType :
    Str → FragRef → FileContext → BareMemberLookup → Option ReceiverFieldType
  lambdaSlotReceiverType : Str → FileContext → FragRef → FragLambdaSlot → Option ReceiverFieldType
  declaresHereForRef : Nat → FragRef → Bool → Str → Bool
  typedReceiverBaseMember : Nat → FragRef → Bool → Str → Option Nat
  typedReceiverPreciseTarget : Nat → FragRef → Bool → Bool → Str → Option Nat × Bool
  propertyHopTarget : FragRef → FileContext → Str → Str → Option Nat
  extensionClosureKey : Nat → Str → Option (Str × Option (List Str))
  inheritedMemberDeclared : Nat → FragRef → Str → Bool
  memberVouched : Nat → FragRef → Bool
  receiverAdmitsCandidate : Nat → FragRef → Str → Bool

section Assembly

variable (resolve : Resolver) (q : MemberQuestions) (projects : Option Projects)
  (index : DefIndex) (contexts : Contexts)

/-! ## Arity and type arguments -/

structure CallArity where
  values : Nat
  typeArgs : Option Nat

/-- `call_arity`. -/
def callArity (r : FragRef) : Option CallArity :=
  r.argCount.map fun values => ⟨values, r.methodTypeArgCount⟩

/-- `arity_accepts`. -/
def arityAccepts (entry : FragExtensionMethod) (call : CallArity) : Bool :=
  decide (entry.arityMin ≤ call.values ∧ (entry.arityMax = -1 ∨ (call.values : Int) ≤ entry.arityMax)) &&
    match call.typeArgs, entry.typeParamCount with
    | some written, some declared => written == declared
    | _, _ => true

/-- `generic_args_unify`. -/
def genericArgsUnify : Option (List Str) → Option (List Str) → Bool
  | none, none => true
  | some a, some b =>
      a.length == b.length && (a.zip b).all fun (x, y) => x == wildcard || y == wildcard || x == y
  | _, _ => false

/-- `resolve_receiver_type`: an arity of one or more is final where the name is shared. -/
def resolveReceiverType (probe : FragRef) (arity : Option Nat) (ctx : FileContext) (ns : Str) :
    Resolution :=
  if probe.qualified.isSome then resolve { probe with typeArgCount := arity } ctx ns
  else
    let full := (ctx.aliases.get? probe.name).getD probe.name
    let simple := (full.splitOn '.').getLastD full
    let shared := decide (2 ≤ ((index.simpleNameToDefs.get? simple).getD []).length)
    if (arity.getD 0 ≥ 1) ∧ shared then resolve { probe with typeArgCount := arity } ctx ns
    else resolveRefByArity index resolve probe arity ctx ns

/-- `type_qualifier_arm_admits`. -/
def typeQualifierArmAdmits (via : Via) (id : Str) (r : FragRef) : Bool :=
  (decide (via ≠ .global) || id.contains '+') && (r.receiverType.isNone || isThisShapedReceiver r)

/-! ## The tiers of a member reference -/

/-- Where a reference stands. -/
structure Site where
  file : Str
  ctx : FileContext
  unit : Option Nat
  ns : Str

/-- What a tier leaves: the definition it names, if any, and whether it claimed the
reference. -/
structure Claim where
  target : Option Nat
  claimed : Bool

def Claim.nothing : Claim := ⟨none, false⟩

/-- A tier that claims exactly by naming a definition. -/
def Claim.of (target : Option Nat) : Claim := ⟨target, target.isSome⟩

variable (site : Site) (r : FragRef)

/-- A qualifier that resolved as a type. -/
def qualifierClaim (idx : Nat) (via : Via) : Claim :=
  let id := (index.def_ idx).id
  if (index.def_ idx).kind = "enum".toList then
    .of (index.qualifiedNameToDef.get? (id ++ '.' :: r.member.getD []))
  else if !extractorVouchesInstance r &&
      (r.member.bind fun m => typeCandidate index (id ++ '+' :: m) none).isSome then
    -- the member names a nested type: a segment of a longer chain
    ⟨none, true⟩
  else
    let thisShaped := isThisShapedReceiver r
    .of (if q.declaresHereForRef idx r thisShaped site.file then some idx
      else
        match q.typedReceiverBaseMember idx r thisShaped site.file with
        | some target => some target
        | none =>
            if (r.generic ∧ r.qualified.isNone) ∨ (r.qualified.isSome ∧ via = .qualified) then some idx
            else none)

/-- The `base.` rule and the qualifier as a type, with the field found on the way. -/
def firstClaim (result : Resolution) : Claim × Option ReceiverFieldType :=
  if r.receiverBase && r.receiverCallOwner.isNone then
    match result with
    | .resolved start _ => (⟨q.baseMemberForRef start r site.file, true⟩, none)
    | _ => (⟨none, true⟩, none)
  else
    match result with
    | .resolved idx via =>
        let admitted := typeQualifierArmAdmits via (index.def_ idx).id r
        let field :=
          if r.qualified.isNone && !r.generic && !extractorVouchesInstance r &&
              r.receiverLambda.isNone && admitted then
            q.bareReceiverFieldOrPropertyType site.ns r site.ctx .typePriority
          else none
        if field.isNone && admitted then (qualifierClaim q index site r idx via, field)
        else (.nothing, field)
    | _ => (.nothing, none)

/-- The type a call's result has, by what its owner records. -/
def callHopType (owner member : Str) : Option Str :=
  match resolve (nameProbe owner site.ns r.outerTypes) site.ctx site.ns with
  | .resolved oidx _ => do
      let hopOwner ← if r.receiverBase then q.baseMemberDeclared oidx member else some oidx
      let name ← (index.lists hopOwner).methodReturns.get? member
      if r.receiverAwaited ∧ (name = "Task".toList ∨ name = "ValueTask".toList) then
        -- an awaited task is its one recorded argument
        match (index.lists hopOwner).methodReturnArgs.get? member with
        | some [arg] => some (if arg = wildcard then name else arg)
        | _ => some name
      else some name
  | _ => none

/-- The receiver's type name, and the declaration it was read off. -/
def receiverTypeName (field : Option ReceiverFieldType) : Option Str × Option ReceiverFieldType :=
  match r.receiverType.or (field.map ReceiverFieldType.typeName) with
  | some name => (some name, field)
  | none =>
      match r.receiverCallOwner, r.receiverCallMember, r.receiverLambda with
      | some owner, some member, _ => (callHopType resolve q index site r owner member, field)
      | _, _, some slot =>
          let found := q.lambdaSlotReceiverType site.ns site.ctx r slot
          (found.map ReceiverFieldType.typeName, found)
      | _, _, none =>
          if r.qualified.isNone && !r.generic && !r.receiverLocal then
            let found := q.bareReceiverFieldOrPropertyType site.ns r site.ctx .receiverFallback
            (found.map ReceiverFieldType.typeName, found)
          else (none, field)

/-- The receiver's type resolved where its name was written, narrowed by the site. -/
def receiverResolution (receiverType : Str) (field : Option ReceiverFieldType) : Resolution × Bool :=
  let declaring := field.bind fun f =>
    (contexts.get? f.declaringFile).map fun ctx => (index.def_ f.declaringDef, ctx)
  let ctx := (declaring.map Prod.snd).getD site.ctx
  let ns := (declaring.map fun d => d.1.namespace_).getD site.ns
  let outer := (declaring.map fun d => defOuterTypes d.1).getD r.outerTypes
  let qualified := (field.bind ReceiverFieldType.qualifiedType).or r.receiverTypeQualified
  let arity := r.receiverType.map fun _ => (r.receiverArgs.map List.length).getD 0
  narrowTracked (admits projects index site.unit)
    (resolveReceiverType resolve index { nameProbe receiverType ns outer with qualified } arity ctx ns)

/-- The definition a resolution settled on. -/
def Resolution.def? : Resolution → Option Nat
  | .resolved idx _ => some idx
  | _ => none

/-- Tier (e): the receiver's own type, or a base of it, declares the member. -/
def typedReceiverClaim (receiver : Resolution) : Claim :=
  match receiver.def? with
  | none => .nothing
  | some ridx =>
      let found := q.typedReceiverPreciseTarget ridx r (isThisShapedReceiver r) r.receiverNullable
        site.file
      ⟨found.1, found.1.isSome || found.2⟩

/-- The declaring classes an extension lookup leaves, each once. -/
def extensionClasses (receiverType member : Str) (call : CallArity) (receiverDef : Option Nat) :
    List Nat :=
  let exactKey := member ++ ' ' :: receiverType
  let (key, unifyArgs) :=
    if (index.extensionIndex.get? exactKey).isSome then (exactKey, r.receiverArgs)
    else (receiverDef.bind fun ridx => q.extensionClosureKey ridx member).getD
      (exactKey, r.receiverArgs)
  let admitted := ((index.extensionIndex.get? key).getD []).filter fun c =>
    let defNs := (index.def_ c.defIdx).namespace_
    arityAccepts c.entry call && genericArgsUnify c.entry.thisArgs unifyArgs &&
      (decide (defNs ∈ site.ctx.usings.all) || defNs == site.ns || namespaceEncloses defNs site.ns) &&
      admits projects index site.unit c.defIdx
  unionNew [] (admitted.map ExtCandidate.defIdx)

/-- Tier (f): the one extension class the language's lookup leaves, when no instance
member is in its way. -/
def extensionTarget (receiverType : Option Str) (receiverDef : Option Nat) : Option Nat :=
  match receiverType, r.member, callArity r with
  | some receiverType, some member, some call =>
      match extensionClasses q projects index site r receiverType member call receiverDef with
      | [only] =>
          if (receiverDef.map fun ridx => q.inheritedMemberDeclared ridx r site.file).getD false then
            none
          else some only
      | _ => none
  | _, _, _ => none

def SCORED_UNIQUENESS_CAP : Nat := 3

def SCORED_EMIT_CAP : Nat := 3

/-- The candidates of the scored tier before admission. -/
def scoredPool (receiverType : Option Str) (source : Resolution) (narrowedAway : Bool) :
    Option (List Nat) :=
  let pool := match source with
    | .ambiguous candidates _ => some (candidates.filter fun d => q.memberVouched d r)
    | .external =>
        if narrowedAway then some []
        else
          let named := (r.member.bind index.memberNameToDefs.get?).getD []
          if named.length ≤ SCORED_UNIQUENESS_CAP then some (named.filter fun d => q.memberVouched d r)
          else none
    | .resolved _ _ => none
  match receiverType, source, r.member with
  | some receiverType, .external, some _ =>
      pool.map fun candidates => candidates.filter fun d => q.receiverAdmitsCandidate d r receiverType
  | _, _, _ => pool

/-- The definitions the scored tier names, best first. -/
def scoredTargets (receiverType : Option Str) (source : Resolution) (narrowedAway : Bool) : List Nat :=
  match scoredPool q index r receiverType source narrowedAway with
  | none => []
  | some pool =>
      let score d := scoreCandidate (index.def_ d).namespace_ site.ns site.ctx.usings
      let scored := (pool.filter (admits projects index site.unit)).insertionSort fun a b =>
        score b < score a ∨ score a = score b ∧ (index.def_ a).id ≤ (index.def_ b).id
      (scored.take SCORED_EMIT_CAP).filter fun d =>
        !(index.def_ d).id.contains '+' || (index.def_ d).file == site.file

/-- The definitions a member reference names, each with the tier of a guess. -/
def memberTargets : List (Nat × Option HeuristicTier) :=
  let result := narrowTracked (admits projects index site.unit) (resolve r site.ctx site.ns)
  let (first, field) := firstClaim q index site r result.1
  if first.claimed then first.target.toList.map fun t => (t, none)
  else
    let (receiverType, field) := receiverTypeName resolve q index site r field
    let receiver := receiverType.map fun name =>
      receiverResolution resolve projects index contexts site r name field
    let typed := (receiver.map fun rr => typedReceiverClaim q site r rr.1).getD .nothing
    if typed.claimed then typed.target.toList.map fun t => (t, none)
    else if r.receiverCallOwner.isSome && r.receiverCallMember.isSome && receiverType.isNone then
      -- a chain tail whose hop came up empty has nothing else to stand on
      []
    else
      match q.propertyHopTarget r site.ctx site.ns site.file with
      | some target => [(target, none)]
      | none =>
          match extensionTarget q projects index site r receiverType
              (receiver.bind fun rr => rr.1.def?) with
          | some target => [(target, some .ext)]
          | none =>
              let source := receiver.getD result
              (scoredTargets q projects index site r receiverType source.1 source.2).map fun t =>
                (t, some .guess)

/-! ## Pushes, each with its counter -/

/-- A `uses-member` push: a precise one and a guess each have their own counter. -/
def pushMember (l : Ledger) (target : Nat × Option HeuristicTier) : Ledger :=
  let edge := Edge.ofMember site.file r.line (index.def_ target.1).id (index.def_ target.1).file
    r.member target.2
  match target.2 with
  | none =>
      { l with
        edges := l.edges ++ [edge]
        edgesByKind := { l.edgesByKind with usesMember := l.edgesByKind.usesMember + 1 } }
  | some .ext =>
      { l with
        edges := l.edges ++ [edge]
        heuristicEdgeCount := l.heuristicEdgeCount + 1
        heuristicByTier := { l.heuristicByTier with ext := l.heuristicByTier.ext + 1 } }
  | some .guess =>
      { l with
        edges := l.edges ++ [edge]
        heuristicEdgeCount := l.heuristicEdgeCount + 1
        heuristicByTier := { l.heuristicByTier with guess := l.heuristicByTier.guess + 1 } }

def pushImports (l : Ledger) : Ledger :=
  { l with
    edges := l.edges ++ [.imports site.file r.line r.name]
    edgesByKind := { l.edgesByKind with imports := l.edgesByKind.imports + 1 } }

/-- `is_infra_namespace`. -/
def isInfraNamespace (name : Str) : Bool :=
  name == "System".toList || name == "Microsoft".toList ||
    "System.".toList.isPrefixOf name || "Microsoft.".toList.isPrefixOf name

/-- `capped_candidates`. -/
def cappedCandidates (candidates : List Nat) : List Candidate :=
  ((candidates.insertionSort fun a b => (index.def_ a).id ≤ (index.def_ b).id).take AMBIGUOUS_CAP).map
    fun i => ⟨(index.def_ i).id, (index.def_ i).file⟩

inductive CtorDiResolution where
  | plain (idx : Nat)
  | closed (idx : Nat)
  | openGeneric (idx : Nat)
  | ambiguous (candidates : List Nat)
  | infra
  | unresolved

/-- `edge_parts`. -/
def CtorDiResolution.edgeParts : CtorDiResolution → Str × Option Str × List Candidate
  | plain i => ("plain".toList, some (index.def_ i).id, [])
  | closed i => ("closed".toList, some (index.def_ i).id, [])
  | openGeneric i => ("open-generic".toList, some (index.def_ i).id, [])
  | ambiguous candidates => ("ambiguous".toList, none, cappedCandidates index candidates)
  | infra => ("infra".toList, none, [])
  | unresolved => ("unresolved".toList, none, [])

/-- The definitions that list a base name, by `build_implementor_index`. -/
def implementorsOf (baseName : Str) : List Nat :=
  index.defs.zipIdx.flatMap fun e => (e.1.lists.bases.filter (· = baseName)).map fun _ => e.2

/-- Whether a definition's base of that name is the interface, with arguments that unify. -/
def implementsInterface (ifaceIdx cand : Nat) : Bool :=
  cand != ifaceIdx &&
    match contexts.get? (index.def_ cand).file with
    | none => false
    | some ctx =>
        (resolve (nameProbe r.name (index.def_ cand).namespace_ []) ctx
            (index.def_ cand).namespace_).def? == some ifaceIdx &&
          genericArgsUnify ((index.lists cand).baseGenericArgs.lookup r.name) r.args

/-- `resolve_ctor_param`. -/
def resolveCtorParam : CtorDiResolution :=
  match resolve r site.ctx site.ns with
  | .ambiguous candidates _ => .ambiguous candidates
  | .external => if site.ctx.usings.all.any isInfraNamespace then .infra else .unresolved
  | .resolved ifaceIdx _ =>
      let found := (implementorsOf index r.name).filter
        (implementsInterface resolve index contexts r ifaceIdx)
      let isOpen cand := (((index.lists cand).baseGenericArgs.lookup r.name).map
        fun args => decide (wildcard ∈ args)).getD false
      match found.filter (fun c => !isOpen c), found.filter isOpen with
      | [only], _ => if r.args.isSome then .closed only else .plain only
      | _ :: _ :: _, _ => .ambiguous (found.filter fun c => !isOpen c)
      | [], [only] => .openGeneric only
      | [], _ :: _ :: _ => .ambiguous (found.filter isOpen)
      | [], [] => .unresolved

def pushCtorDi (l : Ledger) : Ledger :=
  let parts := (resolveCtorParam resolve index contexts site r).edgeParts index
  { l with
    edges := l.edges ++ [.ctorDi site.file r.line r.name parts.1 r.args parts.2.1 parts.2.2]
    edgesByKind := { l.edgesByKind with ctorDi := l.edgesByKind.ctorDi + 1 } }

/-- A type reference: `inherits` or `uses-type`, an ambiguity, or nothing. -/
def pushTypeEdge (l : Ledger) : Ledger :=
  match narrowByReachability (admits projects index site.unit) (resolve r site.ctx site.ns) with
  | .resolved idx _ =>
      let target := index.def_ idx
      if r.kind = .inherits then
        { l with
          edges := l.edges ++ [.inherits site.file r.line target.id target.file false]
          edgesByKind := { l.edgesByKind with inherits := l.edgesByKind.inherits + 1 } }
      else
        { l with
          edges := l.edges ++ [.usesType site.file r.line target.id target.file false]
          edgesByKind := { l.edgesByKind with usesType := l.edgesByKind.usesType + 1 } }
  | .ambiguous candidates _ =>
      { l with
        edges := l.edges ++ [.ambiguous r.kind site.file r.line r.name
          (cappedCandidates index candidates) candidates.length]
        ambiguousCount := l.ambiguousCount + 1 }
  | .external => { l with unresolvedExternal := l.unresolvedExternal + 1 }

/-! ## The loop -/

variable (layer : Option SemanticLayer)

/-- The ledger and the sites a reference stands at. -/
abbrev LoopState := Ledger × List SiteKey

/-- One reference; no result is a counter that would go below zero. -/
def resolveReference (site : Site) (s : LoopState) (r : FragRef) : Option LoopState :=
  let site := { site with ns := r.namespace_.getD [] }
  match r.kind with
  | .imports => some (pushImports site r s.1, s.2)
  | .usesMember => do
      let sites := trackReference layer s.2 site.file r
      let pushed := (memberTargets resolve q projects index contexts site r).foldl
        (pushMember index site r) s.1
      let l ← apply layer index s.1.edges.length site.file r pushed
      some (l, sites)
  | .ctorParam => some (pushCtorDi resolve index contexts site r s.1, s.2)
  | .inherits | .usesType => some (pushTypeEdge resolve projects index site r s.1, s.2)

/-- One file; every file of the resolve has a context. -/
def resolveFile (s : LoopState) (f : Str × Fragment) : Option LoopState :=
  match contexts.get? f.1 with
  | none => some s
  | some ctx =>
      f.2.refs.foldlM (resolveReference resolve q projects index contexts layer
        ⟨f.1, ctx, projects.bind fun p => p.unitOfFile f.1, []⟩) s

/-! ## Repeated guesses -/

/-- `heuristic_edge_key`. -/
def heuristicEdgeKey (e : Edge) : Option Str :=
  let key (kind fromFile : Str) (fromLine : Nat) (toDef toFile tier member : Str) : Str :=
    List.intercalate [' '] [kind, fromFile, (toString fromLine).toList, toDef, toFile, tier, member]
  let dash := "-".toList
  match e with
  | .inherits fromFile fromLine toDef toFile true =>
      some (key "inherits".toList fromFile fromLine toDef toFile dash dash)
  | .usesType fromFile fromLine toDef toFile true =>
      some (key "uses-type".toList fromFile fromLine toDef toFile dash dash)
  | .usesMember fromFile fromLine toDef toFile true tier member _ _ =>
      let tierText := match tier with
        | some .ext => "ext".toList
        | some .guess => "guess".toList
        | none => dash
      some (key "uses-member".toList fromFile fromLine toDef toFile tierText (member.getD dash))
  | _ => none

/-- What a pass over the edges has kept, and the guesses seen. -/
structure DedupState where
  kept : List Edge
  seen : List Str
  ledger : Ledger

/-- One edge of the pass; a repeated guess is taken off its counters. -/
def dedupEdge (s : DedupState) (e : Edge) : Option DedupState :=
  match heuristicEdgeKey e with
  | none => some { s with kept := s.kept ++ [e] }
  | some key =>
      if key ∈ s.seen then do
        let count ← checkedSub s.ledger.heuristicEdgeCount 1
        let split ← match e.tierOf with
          | some tier => s.ledger.heuristicByTier.takeOne tier
          | none => some s.ledger.heuristicByTier
        some { s with ledger := { s.ledger with heuristicEdgeCount := count, heuristicByTier := split } }
      else some { s with kept := s.kept ++ [e], seen := s.seen ++ [key] }

/-- The pass that drops repeated guesses. -/
def dedupGuesses (l : Ledger) : Option Ledger := do
  let s ← l.edges.foldlM dedupEdge ⟨[], [], l⟩
  some { s.ledger with edges := s.kept }

end Assembly

/-! ## The graph -/

/-- The counters of a graph. -/
structure Stats where
  edgesByKind : EdgesByKind
  ambiguousCount : Nat
  unresolvedExternalCount : Nat
  heuristicEdgeCount : Nat
  heuristicByTier : HeuristicByTier
  busVocabularyDerived : Option Bool
  semantic : Option SemanticStats

structure Graph where
  edges : List Edge
  stats : Stats

/-- `resolve_graph_with_model`, the C# part. -/
def resolveGraphWithModel (resolver : DefIndex → Contexts → Resolver)
    (questions : DefIndex → Contexts → MemberQuestions) (fragments : Fragments)
    (projects : Option Projects) (layer : Option SemanticLayer) : Option Graph := do
  let index := buildDefIndex fragments
  let contexts := buildFileContexts fragments projects index
  let resolve := resolver index contexts
  let (l, sites) ← fragments.foldlM
    (resolveFile resolve (questions index contexts) projects index contexts layer) (Ledger.empty, [])
  let dispatched := appendDispatchEdges resolve fragments index contexts l
  let (hopped, busVocabularyDerived) := appendBusEdges resolve fragments index contexts dispatched
  let (finished, semantic) := finish layer index sites hopped
  let l ← dedupGuesses finished
  some
    { edges := l.edges
      stats :=
        { edgesByKind := l.edgesByKind
          ambiguousCount := l.ambiguousCount
          unresolvedExternalCount := l.unresolvedExternal
          heuristicEdgeCount := l.heuristicEdgeCount
          heuristicByTier := l.heuristicByTier
          busVocabularyDerived, semantic } }

end Devscout.Resolve
