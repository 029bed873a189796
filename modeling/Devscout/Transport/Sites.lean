/-
# Devscout.Transport.Sites -- what a file records, and what the facts state

A site is what the syntax of one file says of a call: which member of the catalogue it names,
through which receiver, with which written types and values. A fact is what a graph states of
a site once it is decided to be one of the package. Both are plain records.

A scope says of a bus or an address which broker host, virtual host, region and account it is
in, each part with the class of its evidence. It is put together from the parts that values
state, limited to those that the transport uses.
-/

import Devscout.Transport.Values

namespace Devscout.Transport

open Lib

/-! ## The catalogue -/

/-- What is done with a kept site. -/
inductive Act where
  | bus
  | transport
  | host
  | receive
  | configured
  | registration
  | formatter
  | configureEndpoints
  | send
  | request
  | convention
  | entity
  | topology
  | options
  | optionsKey
  | outbox
  | endpointName
  | pass
  deriving DecidableEq

/-- `Val::word`. -/
def Val.word : Val → Str
  | .name => "name".toList
  | .entityName => "entity-name".toList
  | .address => "address".toList
  | .hostName => "host".toList
  | .virtualHost => "virtual-host".toList
  | .region => "region".toList
  | .hostUri => "host-uri".toList
  | .key => "key".toList
  | .formatterArg => "formatter-argument".toList
  | .ignore => "ignore".toList

/-- One overload of a member, as far as a recorded site is read with it. -/
structure Overload where
  decl : Str
  on : Str
  extension : Bool

/-- One member name. -/
structure Member where
  name : Str
  act : Act
  start : Bool
  word : Option Str

def URI_TYPE : Str := "System.Uri".toList

def FORMATTERS : List (Str × Str) :=
  [("MassTransit.KebabCaseEndpointNameFormatter".toList, "kebab-case".toList),
    ("MassTransit.SnakeCaseEndpointNameFormatter".toList, "snake-case".toList),
    ("MassTransit.DefaultEndpointNameFormatter".toList, "default".toList)]

def TRANSPORTS : List (Str × Str) :=
  [("MassTransit.IRabbitMqBusFactoryConfigurator".toList, "rabbitmq".toList),
    ("MassTransit.IAmazonSqsBusFactoryConfigurator".toList, "amazon-sqs".toList),
    ("MassTransit.IInMemoryBusFactoryConfigurator".toList, "in-memory".toList)]

def DEFINITIONS : List Str :=
  ["MassTransit.ConsumerDefinition`1".toList, "MassTransit.SagaDefinition`1".toList]

def ATTRIBUTES : List (Str × Val) := [("MassTransit.EntityNameAttribute".toList, .entityName)]

def OPTIONS : List (Str × List (Str × Val)) :=
  [("MassTransit.AmazonSqsTransportOptions".toList, [("Region".toList, .region)]),
    ("MassTransit.RabbitMqTransportOptions".toList,
      [("Host".toList, .hostName), ("VHost".toList, .virtualHost)])]

/-- `namespace_of`: what stands before the last dot. -/
def namespaceOf (name : Str) : Str := ((Text.rsplit '.' name).map Prod.fst).getD []

/-! ## Sites -/

structure SiteType where
  role : Str
  name : Str

structure Position where
  line : Nat
  column : Nat

/-- One piece of a joined value. -/
inductive Piece where
  | lit (at_ : Position)
  | ref (path : Str)

/-- A value as the source states it. -/
inductive RawValue where
  | literal (parsed : Parsed)
  | pieces (pieces : List Piece)
  | unknown (reason : Str)

structure SiteValue where
  role : Str
  wrapper : Option Str
  value : RawValue

structure SiteFormatter where
  written : Option Str
  args : List RawValue

/-- A provisional site; `parent` is the position of another one in the list of the file. -/
structure TransportSite where
  line : Nat
  member : Str
  parent : Option Nat := none
  written : Option Str := none
  receiver : Option Str := none
  namespace_ : Str := []
  outerTypes : List Str := []
  types : List SiteType := []
  values : List SiteValue := []
  formatter : Option SiteFormatter := none
  filtered : Bool := false

/-! ## Facts -/

structure FieldRef where
  field : Str
  file : Str
  line : Nat

structure ConfigValue where
  file : Str
  value : Str

/-- A value with the class of its evidence. -/
inductive ValueObj where
  | literal (value : Str) (scheme : Option Str)
  | constant (value : Str) (scheme : Option Str) (fields : List FieldRef)
  | configuration (key : Str) (values : List ConfigValue)
  | unknown (reason : Str) (key : Option Str)
  | notStated

/-- A value that was resolved, and the parts it states when it was read. -/
structure Resolved where
  obj : ValueObj
  parts : Option Parsed
  fields : List FieldRef

def Resolved.unknown (reason : Str) : Resolved := ⟨.unknown reason none, none, []⟩

structure TransportScope where
  host : ValueObj
  virtualHost : ValueObj
  region : ValueObj
  account : ValueObj

structure FactType where
  role : Str
  name : Str
  resolved : Option Str
  resolvedFile : Option Str
  line : Option Nat

structure FactProperty where
  name : Str
  role : Str
  value : ValueObj

structure TransportFact where
  file : Str
  line : Nat
  kind : Str
  member : Str
  busFile : Option Str := none
  busLine : Option Nat := none
  transport : Option Str := none
  registration : Option Str := none
  types : List FactType := []
  formatter : Option Str := none
  formatterSource : Option Str := none
  formatterArguments : List ValueObj := []
  filtered : Bool := false
  address : Option ValueObj := none
  key : Option ValueObj := none
  properties : List FactProperty := []
  scope : Option TransportScope := none

/-! ## Scopes -/

inductive ScopePart where
  | host
  | virtualHost
  | region
  | account
  deriving DecidableEq

def PARTS : List ScopePart := [.host, .virtualHost, .region, .account]

namespace TransportScope

def notStated : TransportScope := ⟨.notStated, .notStated, .notStated, .notStated⟩

def get (scope : TransportScope) : ScopePart → ValueObj
  | .host => scope.host
  | .virtualHost => scope.virtualHost
  | .region => scope.region
  | .account => scope.account

def set (scope : TransportScope) (part : ScopePart) (value : ValueObj) : TransportScope :=
  match part with
  | .host => { scope with host := value }
  | .virtualHost => { scope with virtualHost := value }
  | .region => { scope with region := value }
  | .account => { scope with account := value }

end TransportScope

/-- `used_by`: the parts a transport uses, all of them where none is known. -/
def usedBy : Option Str → List ScopePart
  | some t =>
      if t = "rabbitmq".toList then [.host, .virtualHost]
      else if t = "amazon-sqs".toList then [.region, .account]
      else []
  | none => PARTS

/-- `stated`. -/
def statedPart (parsed : Parsed) : ScopePart → Option Str
  | .host => parsed.host
  | .virtualHost => parsed.virtualHost
  | .region => parsed.region
  | .account => parsed.account

/-- `could_state`: the parts an unreadable value of a kind could have stated. -/
def couldState : Val → List ScopePart
  | .hostName => [.host]
  | .virtualHost => [.virtualHost]
  | .region => [.region]
  | .hostUri | .address => PARTS
  | _ => []

/-- `parts_of`. -/
def partsOf (resolved : Resolved) (val : Val) : List (ScopePart × ValueObj) :=
  match resolved.parts with
  | none =>
      match resolved.obj with
      | .unknown reason _ => (couldState val).map fun p => (p, .unknown reason none)
      | _ => []
  | some parsed =>
      PARTS.filterMap fun part => (statedPart parsed part).map fun value =>
        (part, if resolved.fields.isEmpty then .literal value none
          else .constant value none resolved.fields)

/-- `from_parts`. -/
def fromParts (parts : List (ScopePart × ValueObj)) (transport : Option Str) : TransportScope :=
  parts.foldl (fun scope p => if (usedBy transport).contains p.1 then scope.set p.1 p.2 else scope)
    .notStated

/-- `scope::bus_scope`: that of its one host call; two or more make every used part unknown. -/
def scopeOfHosts (hosts : List TransportScope) (transport : Option Str) : TransportScope :=
  match hosts with
  | [] => .notStated
  | [one] => (usedBy transport).foldl (fun scope part => scope.set part (one.get part)) .notStated
  | _ =>
      (usedBy transport).foldl
        (fun scope part => scope.set part (.unknown "multiple-hosts".toList none)) .notStated

/-- `address_scope`: what the address states itself, then what its bus does. -/
def addressScope (own : List (ScopePart × ValueObj)) (bus : Option TransportScope)
    (transport : Option Str) : TransportScope :=
  (usedBy transport).foldl (fun scope part =>
    scope.set part ((((own.find? fun p => p.1 = part).map Prod.snd).or
      (bus.map fun b => b.get part)).getD .notStated)) .notStated

end Devscout.Transport
