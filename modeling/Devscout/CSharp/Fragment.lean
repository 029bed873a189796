/-
# Devscout.CSharp.Fragment -- the facts extracted from one C# file

A fragment holds what one file says, unresolved: its definitions with their member
tables, its using directives, its references, and its message-bus and registration
facts. A name in it means what it means under the usings and the namespace of that
file.
-/

import Devscout.Lib.OrderedMap
import Devscout.Lib.Text

namespace Devscout.Resolve

open Lib

/-- A declared type: its bare name, its argument descriptors, its path when written
with one. -/
structure FragFact where
  typeName : Str
  args : Option (List Str)
  qualifiedType : Option Str
  deriving DecidableEq

/-- `arityMax` is -1 for an unbounded tail. -/
structure FragExtensionMethod where
  name : Str
  thisType : Str
  arityMin : Nat
  arityMax : Int
  thisArgs : Option (List Str)
  typeParamCount : Option Nat
  deriving DecidableEq

structure FragDelegateSignature where
  returns : Str
  typeParams : List Str
  deriving DecidableEq

/-- Per parameter of one overload, where its own type parameters occur. -/
abbrev FragOverloadSites := List (List (Nat × Int))

/-- One declaration of a definition; a partial type has several. -/
structure FragDef where
  id : Str
  name : Str
  namespace_ : Str
  kind : Str
  line : Nat
  methods : List Str := []
  properties : List Str := []
  fields : List Str := []
  methodReturns : OrderedMap Str Str := .empty
  extensionMethods : List FragExtensionMethod := []
  bases : List Str := []
  typeParams : List Str := []
  baseGenericArgs : OrderedMap Str (List Str) := .empty
  testMethods : List Str := []
  propertyTypes : OrderedMap Str FragFact := .empty
  fieldTypes : OrderedMap Str FragFact := .empty
  methodReturnArgs : OrderedMap Str (List Str) := .empty
  nonPublicMethods : List Str := []
  methodArities : OrderedMap Str (List (Nat × Int)) := .empty
  methodTypeArities : OrderedMap Str (List Nat) := .empty
  methodTypeParamSites : OrderedMap Str (List FragOverloadSites) := .empty
  methodParams : OrderedMap Str (List (List Str)) := .empty
  overrideMethods : List Str := []
  baseTypeArgs : OrderedMap Str (List Str) := .empty
  propertyMessageArgs : List Str := []
  arrayMessageBases : List Str := []
  delegateSignature : Option FragDelegateSignature := none
  endLine : Nat := 0

inductive FragUsing where
  | alias (name target : Str) (global : Bool)
  | plain (text : Str) (global : Bool) (namespace_ : Str)

/-! ## References -/

/-- The kinds of reference the extractors record. -/
inductive RefKind where
  | imports
  | usesMember
  | ctorParam
  | inherits
  | usesType
  deriving DecidableEq

structure FragLambdaSlot where
  owner : Str
  member : Str
  argCount : Nat
  argIndex : Nat
  arity : Nat
  index : Nat

structure FragLambdaShape where
  valueOnly : Bool
  implicitlyTyped : Bool

inductive FragArgType where
  | known (name : Str)
  | member (owner member : Str) (receiverArgs : Option (List Str)) (call : Bool)

structure FragRef where
  kind : RefKind
  name : Str
  qualified : Option Str := none
  member : Option Str := none
  line : Nat := 0
  namespace_ : Option Str := none
  typeArgCount : Option Nat := none
  generic : Bool := false
  receiverType : Option Str := none
  argCount : Option Nat := none
  receiverArgs : Option (List Str) := none
  outerTypes : List Str := []
  args : Option (List Str) := none
  receiverPropertyOwner : Option Str := none
  receiverCallOwner : Option Str := none
  receiverCallMember : Option Str := none
  receiverBase : Bool := false
  receiverAwaited : Bool := false
  receiverLocal : Bool := false
  receiverLambda : Option FragLambdaSlot := none
  receiverNullable : Bool := false
  lambdaArgArity : Option (List (Option Nat)) := none
  methodTypeArgCount : Option Nat := none
  lambdaArgShape : Option (List (Option FragLambdaShape)) := none
  receiverTypeQualified : Option Str := none
  argTypes : Option (List (Option FragArgType)) := none

/-! ## Registrations and publish sites -/

structure FragRegistration where
  service : Str
  implementation : Str
  namespace_ : Str
  line : Nat

structure FragEnclosingCall where
  verb : Str
  argPosition : Nat
  argCount : Nat

structure FragPublish where
  verb : Str
  message : Str
  namespace_ : Str
  line : Nat
  outerTypes : List Str := []
  enclosingMethod : Option Str := none
  argCount : Nat := 0
  enclosingCall : Option FragEnclosingCall := none

structure FragHandlerRegistration where
  handler : Str
  namespace_ : Str
  line : Nat

structure Fragment where
  defs : List FragDef
  usings : List FragUsing := []
  refs : List FragRef := []
  registrations : List FragRegistration := []
  publishes : List FragPublish := []
  handlerRegistrations : List FragHandlerRegistration := []

/-- The fragments of a resolve, in file-walk order. -/
abbrev Fragments := List (Str × Fragment)

end Devscout.Resolve
