/-
# Devscout.Resolve.Bus -- from a publish site to the handlers of its message

A publish site names a message and a handler names the messages it takes: on its base
list, or on its properties once a base has shown it to be a handler. Both texts resolve
through the ladder, and a hop goes from every site that is kept to every handler of the
identity it sends. Handler facts are gathered declaration by declaration, a base counts
where it is listed first, and all of them are read in the definition's own file.
-/

import Devscout.Resolve.BusVocab
import Devscout.Resolve.Edge

namespace Devscout.Resolve

open Lib

def EVIDENCE_BASE_ARG : Str := "base-arg".toList
def EVIDENCE_NESTED_BASE_ARG : Str := "nested-base-arg".toList
def EVIDENCE_MEDIATOR_REQUEST : Str := "mediator-request".toList
def EVIDENCE_PROPERTY_ARG : Str := "property-arg".toList

def TEST_DOUBLE_DIRECT_VERBS : List Str :=
  ["Setup", "SetupGet", "SetupSet", "SetupSequence", "SetupAllProperties", "Verify", "VerifyGet",
    "VerifySet", "VerifyAll", "VerifyNoOtherCalls"].map String.toList

section Bus

variable (resolve : Resolver) (fragments : Fragments) (index : DefIndex) (contexts : Contexts)

/-! ## Sites that are kept -/

/-- The overloads of a verb that its candidate definitions declare. -/
def declaredOverloads (verb : Str) : List MethodOverloadParams :=
  ((index.memberNameToDefs.get? verb).getD []).flatMap fun defIdx =>
    ((index.lists defIdx).methodParams.get? verb).getD []

/-- `structural_non_dispatch`: some overload fits the call, and every one that does takes
the message. -/
def structuralNonDispatch (publish : FragPublish) (message : MessageIdentity) (ctx : FileContext) :
    Bool :=
  let matched := (declaredOverloads index publish.verb).filter fun o =>
    o.params.length == publish.argCount
  !matched.isEmpty && matched.all fun o => o.params.any fun descriptor =>
    resolveMessageIdentity resolve descriptor publish.namespace_ publish.outerTypes ctx == some message

/-- `total` is absent for an unbounded tail. -/
structure VerbOverload where
  required : Nat
  total : Option Nat
  params : List Str

/-- The overloads of one declaration's method, each with its range. -/
def verbOverloadsOf (d : FragDef) (verb : Str) : List VerbOverload :=
  ((d.methodParams.get? verb).getD []).zipIdx.map fun e =>
    match (d.methodArities.get? verb).bind fun ranges => ranges[e.2]? with
    | some range => ⟨range.1, if range.2 < 0 then none else some range.2.toNat, e.1⟩
    | none => ⟨e.1.length, some e.1.length, e.1⟩

/-- `verb_overloads`, of one verb. -/
def verbOverloads (verb : Str) : List VerbOverload :=
  ((index.memberNameToDefs.get? verb).getD []).flatMap fun defIdx =>
    ((declarations fragments).filter fun e => declaredIndex index e.2 == some defIdx).flatMap
      fun e => verbOverloadsOf e.2 verb

def VerbOverload.inRange (o : VerbOverload) (n : Nat) : Bool :=
  decide (o.required ≤ n) && (o.total.map fun total => decide (n ≤ total)).getD true

/-- Where the lambda may land: the parameter of each admissible reading. -/
def readings (argPosition argCount : Nat) (o : VerbOverload) : List (Option Str) :=
  let isThisExtension := (o.params.head?.map fun p => "this ".toList.isPrefixOf p).getD false
  (if o.inRange argCount && !(isThisExtension && argPosition == 0) then
    [o.params[argPosition]?] else []) ++
  (if isThisExtension && o.inRange (argCount + 1) then [o.params[argPosition + 1]?] else [])

def isExpressionTree (parameter : Option Str) : Bool :=
  (parameter.map fun d => "Expression<".toList.isPrefixOf d).getD false

/-- `is_test_double_lambda`: some overload aligns and every reading of every aligned one
lands on an expression tree, or none aligns and the verb says it by itself. -/
def isTestDoubleLambda (call : FragEnclosingCall) : Bool :=
  match (verbOverloads fragments index call.verb).flatMap (readings call.argPosition call.argCount) with
  | [] => decide (call.verb ∈ TEST_DOUBLE_DIRECT_VERBS)
  | landings => landings.all isExpressionTree

structure KeptPublish where
  file : Str
  line : Nat
  message : MessageIdentity
  deriving DecidableEq

/-- One publish site, when it is kept. -/
def keptPublish (file : Str) (ctx : FileContext) (publish : FragPublish) : Option KeptPublish :=
  -- a forwarding wrapper's own call has no message of its own
  if publish.enclosingMethod.isSome then none
  else if publish.verb ∉ derivePublishVerbs fragments ∧ !hasDispatchRoot publish.verb then none
  else
    match resolveMessageIdentity resolve publish.message publish.namespace_ publish.outerTypes ctx with
    | none => none
    | some message =>
        if structuralNonDispatch resolve index publish message ctx then none
        else if (publish.enclosingCall.map (isTestDoubleLambda fragments index)).getD false then none
        else some ⟨file, publish.line, message⟩

/-- `kept_publish_sites`. -/
def keptPublishSites : List KeptPublish :=
  fragments.flatMap fun f =>
    match contexts.get? f.1 with
    | none => []
    | some ctx => f.2.publishes.filterMap (keptPublish resolve fragments index f.1 ctx)

/-- The identities the corpus sends. -/
def sentMessages : List MessageIdentity :=
  (keptPublishSites resolve fragments index contexts).map KeptPublish.message

/-! ## Handlers -/

structure RawConsumer where
  defIdx : Nat
  message : Str
  evidence : Str

structure ResolvedConsumer where
  defIdx : Nat
  message : MessageIdentity
  evidence : Str

/-- `base_message`. -/
def baseMessage (d : FragDef) (base : Str) : Option (Str × Str) :=
  (baseArgument d base).map fun (message, fromNested) =>
    (message,
      if fromNested then EVIDENCE_NESTED_BASE_ARG
      else if 2 ≤ ((d.baseGenericArgs.get? base).getD []).length then EVIDENCE_MEDIATOR_REQUEST
      else EVIDENCE_BASE_ARG)

/-- What a scan of the declarations has found; `seen` holds the bases and the property
texts taken so far, by definition. -/
structure RawScan where
  out : List RawConsumer
  seen : List (Nat × Str)
  recognized : List Nat

/-- One base of one declaration. -/
def scanBase (vocabulary : BusVocabulary) (defIdx : Nat) (d : FragDef) (acc : RawScan) (base : Str) :
    RawScan :=
  if base ∈ vocabulary.consumerBases then
    if (defIdx, base) ∈ acc.seen then acc
    else
      match baseMessage d base with
      | some (message, evidence) =>
          { out := acc.out ++ [⟨defIdx, message, evidence⟩], seen := acc.seen ++ [(defIdx, base)]
            recognized := acc.recognized ++ [defIdx] }
      | none => { acc with seen := acc.seen ++ [(defIdx, base)] }
  else if base ∈ vocabulary.bindingOnlyBases then
    -- a handler of what its properties bind, not of its own argument
    { acc with recognized := acc.recognized ++ [defIdx] }
  else acc

def scanDeclaration (vocabulary : BusVocabulary) (acc : RawScan) (d : FragDef) : RawScan :=
  match declaredIndex index d with
  | none => acc
  | some defIdx => d.bases.foldl (scanBase vocabulary defIdx d) acc

/-- One message bound on a property. -/
def scanProperty (defIdx : Nat) (acc : RawScan) (message : Str) : RawScan :=
  if (defIdx, message) ∈ acc.seen then acc
  else
    { acc with
      out := acc.out ++ [⟨defIdx, message, EVIDENCE_PROPERTY_ARG⟩]
      seen := acc.seen ++ [(defIdx, message)] }

/-- `append_property_messages`, for one declaration. -/
def scanProperties (recognized : List Nat) (acc : RawScan) (d : FragDef) : RawScan :=
  match declaredIndex index d with
  | none => acc
  | some defIdx =>
      if defIdx ∈ recognized then d.propertyMessageArgs.foldl (scanProperty defIdx) acc else acc

/-- The scan of every base list. -/
def scanBases (vocabulary : BusVocabulary) : RawScan :=
  (allDeclarations fragments).foldl (scanDeclaration index vocabulary) ⟨[], [], []⟩

/-- `raw_consumers`. -/
def rawConsumers (vocabulary : BusVocabulary) : List RawConsumer :=
  let bases := scanBases fragments index vocabulary
  ((allDeclarations fragments).foldl (scanProperties index bases.recognized) bases).out

/-- One handler entry resolved; a definition keeps the first one of an identity. -/
def addResolved (out : List ResolvedConsumer) (c : RawConsumer) : List ResolvedConsumer :=
  match meaningIn resolve index contexts c.defIdx c.message (index.def_ c.defIdx).file with
  | none => out
  | some message =>
      if out.any fun r => r.defIdx == c.defIdx && r.message == message then out
      else out ++ [⟨c.defIdx, message, c.evidence⟩]

/-- `resolved_consumers`. -/
def resolvedConsumers (vocabulary : BusVocabulary) : List ResolvedConsumer :=
  (rawConsumers fragments index vocabulary).foldl (addResolved resolve index contexts) []

/-! ## Hops -/

/-- The vocabulary a run works with. -/
def busVocabulary : Harvest :=
  deriveConsumerBases resolve fragments index contexts
    (sentMessages resolve fragments index contexts)

/-- The handlers of a run. -/
def busConsumers : List ResolvedConsumer :=
  resolvedConsumers resolve fragments index contexts
    (busVocabulary resolve fragments index contexts).1

/-- The handlers one site reaches. -/
def handlersOf (publish : KeptPublish) : List ResolvedConsumer :=
  (busConsumers resolve fragments index contexts).filter fun c => c.message = publish.message

def hopEdge (publish : KeptPublish) (consumer : ResolvedConsumer) : Edge :=
  .busHop publish.file publish.line (publish.message.renderedId index)
    (index.def_ consumer.defIdx).id (index.def_ consumer.defIdx).file consumer.evidence

/-- The hops of a run, site by site. -/
def busHops : List Edge :=
  (keptPublishSites resolve fragments index contexts).flatMap fun publish =>
    (handlersOf resolve fragments index contexts publish).map (hopEdge index publish)

/-- `append_bus_edges`: with the hops their count, and whether the vocabulary came from
registrations. -/
def appendBusEdges (l : Ledger) : Ledger × Option Bool :=
  let hops := busHops resolve fragments index contexts
  if (fragments.all fun f => f.2.publishes.isEmpty) || hops.isEmpty then (l, none)
  else
    ({ l with
        edges := l.edges ++ hops
        edgesByKind := { l.edgesByKind with busHop := some hops.length } },
      some (busVocabulary resolve fragments index contexts).2)

end Bus

end Devscout.Resolve
