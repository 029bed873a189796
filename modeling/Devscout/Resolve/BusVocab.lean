/-
# Devscout.Resolve.BusVocab -- the message-handling names of a repository

A repository says itself which base types are handlers: it registers some types as
handlers, and a registered type that receives a message somebody sends teaches its
generic base. The names so admitted, the seeds among them, spread to every type that
passes its own type parameter through such a base, until nothing new is found.
-/

import Devscout.Lib.Saturate
import Devscout.Resolve.Ladder

namespace Devscout.Resolve

open Lib

/-! ## Seeds -/

def PUBLISH_VERBS : List Str := ["Publish", "PublishAsync", "SubmitJob", "Reply", "Send"].map String.toList

def CONSUMER_BASES : List Str :=
  ["IConsumer", "BaseConsumer", "IAmInitiatedBy", "IWorkHandler", "IRequestHandler"].map String.toList

def DISPATCH_ROOTS : List Str :=
  ["Publish", "Send", "Submit", "Reply", "Dispatch", "Enqueue", "Emit", "Post", "Raise",
    "Notify"].map String.toList

def DISPATCH_GUARDS : List Str :=
  ["Get", "Cancel", "Connect", "Can", "Is", "Has"].map String.toList

/-- `word_ends_here`. -/
def wordEndsHere : Str → Bool
  | [] => true
  | c :: _ => ('A' ≤ c && c ≤ 'Z') || ('0' ≤ c && c ≤ '9') || c == '_'

/-- What follows a head of the text. -/
def stripPrefix (pre text : Str) : Option Str :=
  if pre.isPrefixOf text then some (text.drop pre.length) else none

/-- Whether a root occurs somewhere with its word ending there; occurrences are taken
from the left and do not overlap. -/
def rootOccurs (root : Str) : Nat → Str → Bool
  | _, [] => false
  | skip + 1, _ :: cs => rootOccurs root skip cs
  | 0, c :: cs =>
      match stripPrefix root (c :: cs) with
      | some rest => wordEndsHere rest || rootOccurs root (root.length - 1) cs
      | none => rootOccurs root 0 cs

/-- `has_dispatch_root`. -/
def hasDispatchRoot (verb : Str) : Bool :=
  let tail := (stripPrefix "Try".toList verb).filter fun tail =>
    match tail with
    | c :: _ => 'A' ≤ c && c ≤ 'Z'
    | [] => false
  let first := tail.getD verb
  !(DISPATCH_GUARDS.any fun guard_ => ((stripPrefix guard_ first).map wordEndsHere).getD false) &&
    DISPATCH_ROOTS.any fun root => rootOccurs root 0 verb

/-! ## Message identities -/

/-- The element a message resolves to, and how many array layers wrap it. -/
structure MessageIdentity where
  defIdx : Nat
  rank : Nat
  deriving DecidableEq

/-- `MessageIdentity::plain`. -/
def MessageIdentity.plain (defIdx : Nat) : MessageIdentity := ⟨defIdx, 0⟩

/-- `rendered_id`. -/
def MessageIdentity.renderedId (m : MessageIdentity) (index : DefIndex) : Str :=
  (index.def_ m.defIdx).id ++ (List.replicate m.rank "[]".toList).flatten

/-- The array layers at the end of a reversed text. -/
def stripArrays : Str → Nat → Str × Nat
  | ']' :: '[' :: rest, rank => stripArrays rest (rank + 1)
  | text, rank => (text, rank)

/-- `split_array_suffix`; the rank is a byte and saturates. -/
def splitArraySuffix (text : Str) : Str × Nat :=
  let stripped := stripArrays text.reverse 0
  (stripped.1.reverse, min stripped.2 255)

section Resolve

variable (resolve : Resolver)

/-- `resolve_type_text`. -/
def resolveTypeText (raw ns : Str) (outerTypes : List Str) (ctx : FileContext) : Option Nat :=
  match resolve (typeProbe raw ns outerTypes) ctx ns with
  | .resolved idx _ => some idx
  | _ => none

/-- `resolve_message_identity`. -/
def resolveMessageIdentity (raw ns : Str) (outerTypes : List Str) (ctx : FileContext) :
    Option MessageIdentity :=
  let (element, rank) := splitArraySuffix raw
  (resolveTypeText resolve element ns outerTypes ctx).map fun defIdx => ⟨defIdx, rank⟩

end Resolve

/-! ## Reading descriptors -/

/-- `simple_name`: what stands after the last dot and the last nesting mark. -/
def simpleName (id : Str) : Str :=
  let tail := ((Text.rsplit '.' id).map Prod.snd).getD id
  ((Text.rsplit '+' tail).map Prod.snd).getD tail

/-- The slices of an argument list at bracket depth zero; the current one is carried. -/
def splitArgsFrom : Int → Str → Str → List Str
  | _, current, [] => [current]
  | depth, current, c :: cs =>
      if c = '<' then splitArgsFrom (depth + 1) (current ++ [c]) cs
      else if c = '>' then splitArgsFrom (depth - 1) (current ++ [c]) cs
      else if c = ',' ∧ depth = 0 then current :: splitArgsFrom depth [] cs
      else splitArgsFrom depth (current ++ [c]) cs

/-- `split_top_level_args`. -/
def splitTopLevelArgs (inner : Str) : List Str := splitArgsFrom 0 [] inner

/-- A comma between the brackets of an argument splits nothing. -/
example : splitTopLevelArgs ['M', '<', 'K', ',', 'V', '>', ',', 'T'] =
    [['M', '<', 'K', ',', 'V', '>'], ['T']] := by decide +kernel

/-- The head of a generic descriptor and what its brackets hold. -/
def openGeneric (descriptor : Str) : Option (Str × Str) :=
  match descriptor.dropWhile (· ≠ '<') with
  | _ :: inner =>
      if descriptor.getLast? = some '>' then some (descriptor.takeWhile (· ≠ '<'), inner.dropLast)
      else none
  | [] => none

/-- `single_nested_argument`. -/
def singleNestedArgument (descriptor : Str) : Option Str := do
  let (_, inner) ← openGeneric descriptor
  match splitTopLevelArgs inner with
  | [single] => if single.isEmpty then none else some single
  | _ => none

def wildcard : Str := ['*']

/-- `concrete_base_argument`: the message a base carries, and whether it was nested. -/
def concreteBaseArgument (nested : Option (List Str)) (flat : List Str) (firstArgIsArray : Bool) :
    Option (Str × Bool) := do
  let first ← flat.head?
  guard (first ≠ wildcard)
  match (nested.bind List.head?).bind singleNestedArgument with
  | some inner => some (inner, true)
  | none => some (if firstArgIsArray then first ++ "[]".toList else first, false)

/-- The type texts of a descriptor, its arguments at any depth included. An argument is
shorter than what it is an argument of, so the length is fuel enough. -/
def typeTextsFrom : Nat → Str → List Str
  | 0, _ => []
  | fuel + 1, candidate =>
      match openGeneric candidate with
      | some (head, inner) => head :: (splitTopLevelArgs inner).reverse.flatMap (typeTextsFrom fuel)
      | none => [candidate]

/-- `descriptor_type_texts`. -/
def descriptorTypeTexts (descriptor : Str) : List Str :=
  typeTextsFrom (descriptor.length + 1) ((stripPrefix "this ".toList descriptor).getD descriptor)

/-- `is_reserved_method_params_key`. -/
def isReservedMethodParamsKey (key : Str) : Bool :=
  (["@result:", "@property:", "@field:"].any fun pre => pre.toList.isPrefixOf key) ||
    ["@variant", "@implicit-conversion", "@interpolated-string-handler"].any fun mark =>
      mark.toList == key

/-! ## Publish verbs -/

/-- `harvest_wrappers`: the methods that hand their caller's message to a seed verb. -/
def harvestWrappers (fragments : Fragments) : List Str :=
  (fragments.flatMap fun f => f.2.publishes).filterMap fun publish =>
    if publish.verb ∈ PUBLISH_VERBS then publish.enclosingMethod else none

/-- `derive_publish_verbs`. -/
def derivePublishVerbs (fragments : Fragments) : List Str :=
  PUBLISH_VERBS ++ harvestWrappers fragments

/-! ## Registered handlers -/

/-- `BusVocabulary`, as sets. -/
structure BusVocabulary where
  consumerBases : List Str
  bindingOnlyBases : List Str

/-- The definition a declaration belongs to. -/
def declaredIndex (index : DefIndex) (d : FragDef) : Option Nat :=
  index.qualifiedNameAndArityToDef.get? (d.id, d.typeParams.length)

section Harvest

variable (resolve : Resolver) (fragments : Fragments) (index : DefIndex) (contexts : Contexts)
  (sent : List MessageIdentity)

/-- A text read as a definition's own file reads it. -/
def meaningIn (defIdx : Nat) (text file : Str) : Option MessageIdentity :=
  (contexts.get? file).bind fun ctx =>
    resolveMessageIdentity resolve text (index.def_ defIdx).namespace_
      (defOuterTypes (index.def_ defIdx)) ctx

/-- `property_messages_by_def`, of one definition. -/
def propertyMessages (defIdx : Nat) : List Str :=
  ((declarations fragments).filter fun e => declaredIndex index e.2 == some defIdx).flatMap
    fun e => e.2.propertyMessageArgs

/-- `def_binds_sent_message`. -/
def defBindsSentMessage (defIdx : Nat) : Bool :=
  (propertyMessages fragments index defIdx).any fun message =>
    ((meaningIn resolve index contexts defIdx message (index.def_ defIdx).file).map
      (fun identity => decide (identity ∈ sent))).getD false

/-- `def_receives_message`: each overload is read in the file that declared it. -/
def defReceivesMessage (defIdx : Nat) (message : MessageIdentity) : Bool :=
  ((index.lists defIdx).methodParams.entries.filter fun e => !isReservedMethodParamsKey e.1).any
    fun e => e.2.any fun overload =>
      overload.params.any fun descriptor =>
        (descriptorTypeTexts descriptor).any fun text =>
          meaningIn resolve index contexts defIdx text overload.file == some message

/-- The message a declaration's base carries. -/
def baseArgument (d : FragDef) (base : Str) : Option (Str × Bool) :=
  (d.baseGenericArgs.get? base).bind fun flat =>
    concreteBaseArgument (d.baseTypeArgs.get? base) flat (decide (base ∈ d.arrayMessageBases))

/-- The argument route: the base's own argument is a message somebody sends and the
registered definition receives. -/
def argumentAdmits (defIdx : Nat) (text : Str) : Bool :=
  match meaningIn resolve index contexts defIdx text (index.def_ defIdx).file with
  | some message =>
      decide (message ∈ sent) && defReceivesMessage resolve index contexts defIdx message
  | none => false

/-- The vocabulary so far, and whether a registration contributed. -/
abbrev Harvest := BusVocabulary × Bool

/-- What one base of a registered definition teaches. -/
def learnBase (defIdx : Nat) (d : FragDef) (acc : Harvest) (base : Str) : Harvest :=
  if base ∈ acc.1.consumerBases then acc
  else
    match baseArgument d base with
    | none => acc
    | some (text, _) =>
        if argumentAdmits resolve index contexts sent defIdx text then
          ({ acc.1 with consumerBases := acc.1.consumerBases ++ [base] }, true)
        else if defBindsSentMessage resolve fragments index contexts sent defIdx ∧
            base ∉ acc.1.bindingOnlyBases then
          ({ acc.1 with bindingOnlyBases := acc.1.bindingOnlyBases ++ [base] }, true)
        else acc

/-- What one registration teaches: nothing for a type that is itself sent. Every
declaration of the id contributes. -/
def learnRegistration (file : Str) (acc : Harvest) (registration : FragHandlerRegistration) :
    Harvest :=
  let handler := (contexts.get? file).bind fun ctx =>
    resolveTypeText resolve registration.handler registration.namespace_ [] ctx
  match handler with
  | none => acc
  | some defIdx =>
      if MessageIdentity.plain defIdx ∈ sent ∨
          (contexts.get? (index.def_ defIdx).file).isNone then acc
      else
        ((declarations fragments).filter fun e => e.2.id == (index.def_ defIdx).id).foldl
          (fun acc e => e.2.bases.foldl
            (learnBase resolve fragments index contexts sent defIdx e.2) acc) acc

/-- `harvest_registrations`. -/
def harvestRegistrations (start : Harvest) : Harvest :=
  fragments.foldl (fun acc f => f.2.handlerRegistrations.foldl
    (learnRegistration resolve fragments index contexts sent f.1) acc) start

end Harvest

/-! ## Intermediates -/

section Closure

variable (fragments : Fragments) (index : DefIndex)

/-- Whether a declaration hands its own type parameter to a base. -/
def passesThrough (d : FragDef) (base : Str) : Bool :=
  match d.baseGenericArgs.get? base with
  | some (first :: _) => first == wildcard
  | _ => false

/-- What one declaration adds to the vocabulary, when it adds anything. -/
def spreadThrough (d : FragDef) (vocabulary : BusVocabulary) : Option BusVocabulary :=
  if (declaredIndex index d).isNone ∨ simpleName d.id ∈ vocabulary.consumerBases then none
  else if d.bases.any fun base =>
      passesThrough d base && decide (base ∈ vocabulary.consumerBases) then
    some { vocabulary with
      consumerBases := vocabulary.consumerBases ++ [simpleName d.id] }
  else if (d.bases.any fun base =>
      passesThrough d base && decide (base ∉ vocabulary.consumerBases) &&
        decide (base ∈ vocabulary.bindingOnlyBases)) ∧
      simpleName d.id ∉ vocabulary.bindingOnlyBases then
    some { vocabulary with
      bindingOnlyBases := vocabulary.bindingOnlyBases ++ [simpleName d.id] }
  else none

/-- The declarations without their files. -/
def allDeclarations : List FragDef := (declarations fragments).map Prod.snd

/-- `close_over_intermediates`: a name is added to each set once at most. -/
def closeOverIntermediates (vocabulary : BusVocabulary) : BusVocabulary :=
  saturate (visitAll (spreadThrough index) (allDeclarations fragments))
    (2 * (allDeclarations fragments).length + 1) vocabulary

end Closure

/-- `derive_consumer_bases`: the vocabulary, and whether a registration contributed. -/
def deriveConsumerBases (resolve : Resolver) (fragments : Fragments) (index : DefIndex)
    (contexts : Contexts) (sent : List MessageIdentity) : Harvest :=
  let harvested := harvestRegistrations resolve fragments index contexts sent
    (⟨CONSUMER_BASES, []⟩, false)
  let closed := closeOverIntermediates fragments index harvested.1
  (⟨closed.consumerBases,
    closed.bindingOnlyBases.filter fun base => base ∉ closed.consumerBases⟩, harvested.2)

end Devscout.Resolve
