/-
# Devscout.Resolve.Dispatch -- registered implementations and what they implement

A two-type registration whose both types resolve says that the one implements the
other. For the types so registered, members are matched too: each method of the service
with the implementation's method of that name, each override with the nearest base that
declares the name. A match counts when exactly one pair of overloads shares its range
of arguments.
-/

import Devscout.Resolve.BusVocab
import Devscout.Resolve.Edge

namespace Devscout.Resolve

open Lib

section Members

variable (index : DefIndex) (contexts : Contexts)

/-- `declares_member` for a read: no call shape is asked. -/
def declaresRead (member : Str) (idx : Nat) : Bool :=
  decide (member ∈ (index.def_ idx).methods) || decide (member ∈ (index.lists idx).properties) ||
    decide (member ∈ (index.lists idx).fields)

def isInterface (idx : Nat) : Bool := (index.def_ idx).kind == "interface".toList

/-- Class bases first, then interfaces, each in declaration order. -/
def classesFirst (skipInterfaces : Bool) (bases : List Nat) : List Nat :=
  bases.filter (fun b => !isInterface index b) ++
    if skipInterfaces then [] else bases.filter (isInterface index)

/-- Bases not seen yet, each once, and what has been seen then. -/
def freshBases (seen bases : List Nat) : List Nat × List Nat :=
  bases.foldl (fun acc b => if b ∈ acc.2 then acc else (acc.1 ++ [b], acc.2 ++ [b])) ([], seen)

/-- `declares_in_base_closure`: the answer, and what the branch has seen. Every level is
at a definition not seen before, so there are no more levels than definitions. -/
def declaresInBaseClosure (skipInterfaces : Bool) (declares : Nat → Bool) :
    Nat → List Nat → Nat → Option Nat × List Nat
  | 0, seen, _ => (none, seen)
  | fuel + 1, seen, cur =>
      if declares cur then (some cur, seen)
      else
        let (fresh, seen) := freshBases seen (basesOf index contexts cur)
        (classesFirst index skipInterfaces fresh).foldl (fun acc b =>
          match acc.1 with
          | some _ => acc
          | none => declaresInBaseClosure skipInterfaces declares fuel acc.2 b) (none, seen)

/-- `first_base_declaring`: every direct base is a branch of its own. -/
def firstBaseDeclaring (start : Nat) (skipInterfaces : Bool) (declares : Nat → Bool) : Option Nat :=
  (classesFirst index skipInterfaces (basesOf index contexts start)).findSome? fun b =>
    (declaresInBaseClosure index contexts skipInterfaces declares (index.defs.length + 1)
      [start, b] b).1

/-! ## Members of a registration -/

/-- `matching_overload_count`. -/
def matchingOverloadCount (source target : Nat) (member : Str) : Nat :=
  match (index.lists source).methodArities.get? member,
    (index.lists target).methodArities.get? member with
  | some sourceRanges, some targetRanges => (sourceRanges.map fun r => targetRanges.count r).sum
  | _, _ => 0

structure ResolvedRegistration where
  implementation : Nat
  service : Nat
  deriving DecidableEq

/-- The `implements` edge between two definitions. -/
def implementsEdge (reg : ResolvedRegistration) (member : Option Str) : Edge :=
  .implements (index.def_ reg.implementation).file (index.def_ reg.implementation).line
    (index.def_ reg.service).id (index.def_ reg.service).file member

/-- `resolve_member_implements`. -/
def resolveMemberImplements (reg : ResolvedRegistration) : List Edge :=
  ((index.def_ reg.service).methods.filter fun member =>
    matchingOverloadCount index reg.implementation reg.service member == 1).map fun member =>
      implementsEdge index reg (some member)

/-- One override, when the nearest base declaring it matches. -/
def memberOverride (implIdx : Nat) (member : Str) : Option Edge :=
  match firstBaseDeclaring index contexts implIdx false (declaresRead index member) with
  | none => none
  | some baseIdx =>
      if matchingOverloadCount index implIdx baseIdx member = 1 then
        some (.overrides (index.def_ implIdx).file (index.def_ implIdx).line (index.def_ baseIdx).id
          (index.def_ baseIdx).file (some member))
      else none

/-- `resolve_member_overrides`. -/
def resolveMemberOverrides (implIdx : Nat) : List Edge :=
  (index.lists implIdx).overrideMethods.filterMap (memberOverride index contexts implIdx)

/-- The member edges so far, how many are `implements` and `overrides`, and the
implementations seen. -/
structure MemberDispatch where
  edges : List Edge
  implementsCount : Nat
  overridesCount : Nat
  seenImpls : List Nat

def dispatchRegistration (acc : MemberDispatch) (reg : ResolvedRegistration) : MemberDispatch :=
  let memberEdges := resolveMemberImplements index reg
  let acc := { acc with
    edges := acc.edges ++ memberEdges
    implementsCount := acc.implementsCount + memberEdges.length }
  if reg.implementation ∈ acc.seenImpls then acc
  else
    let overrideEdges := resolveMemberOverrides index contexts reg.implementation
    { acc with
      edges := acc.edges ++ overrideEdges
      overridesCount := acc.overridesCount + overrideEdges.length
      seenImpls := acc.seenImpls ++ [reg.implementation] }

/-- `resolve_member_dispatch`. -/
def resolveMemberDispatch (registrations : List ResolvedRegistration) : MemberDispatch :=
  registrations.foldl (dispatchRegistration index contexts) ⟨[], 0, 0, []⟩

end Members

/-! ## Registrations -/

section Registrations

variable (resolve : Resolver) (fragments : Fragments) (index : DefIndex) (contexts : Contexts)

/-- One registration, when both its types resolve. -/
def resolveRegistration (ctx : FileContext) (reg : FragRegistration) : Option ResolvedRegistration := do
  let service ← resolveTypeText resolve reg.service reg.namespace_ [] ctx
  let implementation ← resolveTypeText resolve reg.implementation reg.namespace_ [] ctx
  some ⟨implementation, service⟩

/-- `resolve_registrations`; the edges are those of the pairs. -/
def resolveRegistrations : List ResolvedRegistration :=
  fragments.flatMap fun f =>
    match contexts.get? f.1 with
    | none => []
    | some ctx => f.2.registrations.filterMap (resolveRegistration resolve ctx)

/-- `append_dispatch_edges`. -/
def appendDispatchEdges (l : Ledger) : Ledger :=
  let resolved := resolveRegistrations resolve fragments contexts
  let registrationEdges := resolved.map fun reg => implementsEdge index reg none
  let members := resolveMemberDispatch index contexts resolved
  { l with
    edges := l.edges ++ registrationEdges ++ members.edges
    edgesByKind :=
      { l.edgesByKind with
        implements := l.edgesByKind.implements + registrationEdges.length + members.implementsCount
        overrides := l.edgesByKind.overrides + members.overridesCount } }

end Registrations

end Devscout.Resolve
