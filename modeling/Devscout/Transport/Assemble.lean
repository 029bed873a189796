/-
# Devscout.Transport.Assemble -- which sites are kept, and the facts they state

A recorded site is kept when its parent is kept, every catalogue name it writes qualifies to
the entry it was matched against, its file imports the namespace of an extension method it
calls, and no method of the repository shadows the start of a chain. What is kept states facts,
and most facts gather from other sites of the file: the bus above, the hosts and formatters
below that bus, the key below an options binding.

The sites come from a cache, so the positions they name as parents may be anything. Every look
at a site by its position can therefore miss, and a way up can go on for ever: the functions
here return nothing then. What they read of the repository and of the catalogue's members is
an argument.
-/

import Devscout.Transport.Sites
import Devscout.Lib.Forest

namespace Devscout.Transport

open Lib

/-- What a written type name qualifies to; of a repository type its id and file. -/
inductive Qual where
  | catalogue (name : Str)
  | repo (id file : Str)
  | nothing
  | ambiguous
  deriving DecidableEq

/-- Where a reference is read from. -/
structure Place where
  file : Str
  ns : Str
  outer : List Str

/-- What the assembly reads of the repository, and of the members and types of the catalogue. -/
structure Ctx where
  memberByKey : Str → Option (Member × Overload)
  catalogueType : Str → Option Str
  imports : (file ns needed : Str) → Bool
  shadows : (name file ns : Str) → Bool
  qualify : (written file ns : Str) → (outer : List Str) → Qual
  receiverFits : (written on file ns : Str) → Bool
  resolve : RawValue → Val → Place → Resolved
  settingsFiles : (file : Str) → List Str
  configuredValue : (files : List Str) → (key : Str) → Val → ValueObj

/-! ## What one site says -/

/-- What the `member` of a recorded site names. -/
inductive Entry where
  | call (member : Member) (overload : Overload)
  | definition
  | attribute (val : Val)

def Entry.act : Entry → Act
  | .call member _ => member.act
  | .definition => .pass
  | .attribute _ => .entity

section Site

variable (ctx : Ctx)

/-- `entry`. -/
def entryOf (key : Str) : Option Entry :=
  match ctx.memberByKey key with
  | some (member, overload) => some (.call member overload)
  | none =>
      if DEFINITIONS.contains key then some .definition
      else (ATTRIBUTES.find? fun a => a.1 = key).map fun a => .attribute a.2

variable (file : Str)

/-- `names_catalogue`. -/
def namesCatalogue (written expected : Str) (site : TransportSite) : Bool :=
  ctx.qualify written file site.namespace_ site.outerTypes = .catalogue expected

/-- `names`. -/
def names (written : Str) (expected : Option Str) (site : TransportSite) : Bool :=
  expected.any fun ty => namesCatalogue ctx file written ty site

/-- `options_type`. -/
def optionsType (site : TransportSite) : Option (Str × List (Str × Val)) := do
  let written ← site.types.head?
  let ty ← ctx.catalogueType written.name
  if !names ctx file written.name (some ty) site then none
  OPTIONS.find? fun o => o.1 = ty

/-- `checks`. -/
def checks (site : TransportSite) : Bool :=
  match entryOf ctx site.member with
  | none => false
  | some entry =>
      (site.written.all fun written => names ctx file written (ctx.catalogueType written) site) &&
        match entry with
        | .call member overload =>
            !(overload.extension && !ctx.imports file site.namespace_ (namespaceOf overload.decl)) &&
              !(member.act == .options && (optionsType ctx file site).isNone) &&
              !(member.start && ctx.shadows member.name file site.namespace_) &&
              match site.receiver with
              | some receiver =>
                  !member.start || ctx.receiverFits receiver overload.on file site.namespace_
              | none => true
        | _ => true

/-- `place`. -/
def placeOf (site : TransportSite) : Place := ⟨file, site.namespace_, site.outerTypes⟩

/-- `value`, once the site is at hand. -/
def siteValue (site : TransportSite) (val : Val) : Option Resolved :=
  (site.values.find? fun v => v.role = val.word).map fun recorded =>
    if recorded.wrapper.any fun wrapper => !names ctx file wrapper (some URI_TYPE) site then
      .unknown "expression".toList
    else ctx.resolve recorded.value val (placeOf file site)

/-- `fact_type`. -/
def factType (site : TransportSite) (written : SiteType) : FactType :=
  let resolved := match ctx.qualify written.name file site.namespace_ site.outerTypes with
    | .repo id declared => some (id, declared)
    | _ => none
  ⟨written.role, written.name, resolved.map Prod.fst, resolved.map Prod.snd, none⟩

/-- `types`. -/
def siteTypes (site : TransportSite) : List FactType := site.types.map (factType ctx file site)

/-- `formatter_word`. -/
def formatterWord (site : TransportSite) (formatter : SiteFormatter) : Str :=
  let word : Option Str := do
    let written ← formatter.written
    let ty ← ctx.catalogueType written
    if !namesCatalogue ctx file written ty site then none
    (FORMATTERS.find? fun f => f.1 = ty).map Prod.snd
  word.getD "unknown".toList

/-- `formatter_arguments`. -/
def formatterArguments (site : TransportSite) (formatter : SiteFormatter) : List ValueObj :=
  formatter.args.map fun raw => (ctx.resolve raw .formatterArg (placeOf file site)).obj

end Site

/-- `word`: the word a member states. -/
def Entry.word : Option Entry → Option Str
  | some (.call member _) => member.word
  | _ => none

/-- `Some(transport).filter(|t| *t != "not-stated")`. -/
def whenStated (transport : Str) : Option Str :=
  if transport = "not-stated".toList then none else some transport

/-! ## The sites of one file -/

structure FileFacts where
  ctx : Ctx
  file : Str
  sites : List TransportSite
  entries : List (Option Entry)
  kept : List Bool

/-- `FileFacts::new`. -/
def FileFacts.new (ctx : Ctx) (file : Str) (sites : List TransportSite) : FileFacts where
  ctx := ctx
  file := file
  sites := sites
  entries := sites.map fun s => entryOf ctx s.member
  kept := Forest.keptOf TransportSite.parent (checks ctx file) sites

namespace FileFacts

variable (f : FileFacts)

def actAt (index : Nat) : Option Act := (f.entries[index]?.bind id).map Entry.act

/-- `ancestor`; the fuel is that of a way up which never comes back. -/
def ancestor (index : Nat) (act : Act) : Option (Option Nat) := do
  let site ← f.sites[index]?
  Forest.climb TransportSite.parent f.sites
    (fun s => (entryOf f.ctx s.member).map Entry.act = some act) f.sites.length site.parent

/-- `definition_of`. -/
def definitionOf (index : Nat) : Option (Option Nat) := do
  let site ← f.sites[index]?
  Forest.climb TransportSite.parent f.sites
    (fun s => match entryOf f.ctx s.member with
      | some .definition => true
      | _ => false) f.sites.length site.parent

/-- `kept_with`. -/
def keptWith (act : Act) : List Nat :=
  (Forest.keptPositions f.kept).filter fun i => f.actAt i = some act

def value (index : Nat) (val : Val) : Option (Option Resolved) :=
  (f.sites[index]?).map fun site => siteValue f.ctx f.file site val

def types (index : Nat) : Option (List FactType) :=
  (f.sites[index]?).map (siteTypes f.ctx f.file)

def word (index : Nat) : Option (Option Str) := (f.entries[index]?).map Entry.word

def base (index : Nat) (kind : String) : Option TransportFact := do
  let site ← f.sites[index]?
  let bus ← f.ancestor index .bus
  let busLine ← bus.mapM fun b => (f.sites[b]?).map TransportSite.line
  pure
    { file := f.file
      line := site.line
      kind := kind.toList
      member := site.member
      busFile := bus.map fun _ => f.file
      busLine := busLine }

/-- `transport`: the word of the bus itself, else of the first transport right below it. -/
def transport (bus : Nat) : Option Str := do
  let own ← f.word bus
  match own with
  | some word => pure word
  | none => do
      let below ← (f.keptWith .transport).filterM fun t =>
        (f.sites[t]?).map fun s => decide (s.parent = some bus)
      let words ← below.mapM f.word
      pure ((words.findSome? id).getD "not-stated".toList)

def transportOf (index : Nat) : Option (Option Str) := do
  let bus ← f.ancestor index .bus
  match bus with
  | none => pure none
  | some b => do
      let t ← f.transport b
      pure (whenStated t)

def hostTransport (index : Nat) : Option (Option Str) := do
  let stated ← f.transportOf index
  match stated with
  | some t => pure (some t)
  | none =>
      (f.entries[index]?).map fun e => match e with
        | some (.call _ overload) => (TRANSPORTS.find? fun t => t.1 = overload.on).map Prod.snd
        | _ => none

def hostScope (index : Nat) : Option TransportScope := do
  let parts ← [Val.hostName, .hostUri, .virtualHost, .region].mapM fun val =>
    (f.value index val).map fun resolved => (resolved.map (partsOf · val)).getD []
  let transport ← f.hostTransport index
  pure (fromParts parts.flatten transport)

def busScope (bus : Nat) : Option TransportScope := do
  let below ← (f.keptWith .host).filterM fun h =>
    (f.ancestor h .bus).map fun above => decide (above = some bus)
  let hosts ← below.mapM f.hostScope
  let transport ← f.transport bus
  pure (scopeOfHosts hosts (whenStated transport))

def addressFact (index : Nat) (kind : String) (val : Val) : Option TransportFact := do
  let fact ← f.base index kind
  let resolved ← f.value index val
  let own := match resolved, val with
    | some r, .address => partsOf r val
    | some r, .entityName => partsOf r val
    | _, _ => []
  let bus ← f.ancestor index .bus
  let scope ← bus.mapM f.busScope
  let transport ← f.transportOf index
  pure
    { fact with
      scope := some (addressScope own scope transport)
      address := resolved.map Resolved.obj }

/-! ## The facts -/

def busFact (index : Nat) : Option TransportFact := do
  let fact ← f.base index "bus"
  let transport ← f.transport index
  let types ← f.types index
  let scope ← f.busScope index
  pure { fact with transport := some transport, types := types, scope := some scope }

def hostFact (index : Nat) : Option TransportFact := do
  let fact ← f.base index "host"
  let scope ← f.hostScope index
  pure { fact with scope := some scope }

/-- The types that the kept sites below a receive endpoint configure on it. -/
def configuredTypes (configured : Nat) : Option (List FactType) :=
  (f.sites[configured]?).map fun site =>
    site.types.map fun written =>
      { factType f.ctx f.file site written with line := some site.line }

def receiveFact (index : Nat) : Option TransportFact := do
  let fact ← f.addressFact index "receive-endpoint" .name
  let below ← (f.keptWith .configured).filterM fun c =>
    (f.ancestor c .receive).map fun above => decide (above = some index)
  let types ← below.mapM f.configuredTypes
  pure { fact with types := fact.types ++ types.flatten }

def registrationFact (index : Nat) : Option TransportFact := do
  let fact ← f.base index "registration"
  let word ← f.word index
  let types ← f.types index
  pure { fact with registration := word, types := types }

def typedAddress (index : Nat) (kind : String) (val : Val) : Option TransportFact := do
  let fact ← f.addressFact index kind val
  let types ← f.types index
  pure { fact with types := types }

def entityFact (index : Nat) : Option TransportFact := do
  let e ← f.entries[index]?
  match e with
  | some (.attribute val) => do
      let fact ← f.addressFact index "entity-name" val
      let types ← f.types index
      pure { fact with types := types }
  | _ => do
      let fact ← f.addressFact index "entity-name" .entityName
      let topology ← f.ancestor index .topology
      let types ← topology.mapM f.types
      pure { fact with types := types.getD [] }

def endpointNameFact (index : Nat) : Option TransportFact := do
  let fact ← f.addressFact index "endpoint-name" .name
  let definition ← f.definitionOf index
  let types ← definition.mapM f.types
  pure { fact with types := types.getD [] }

/-- The last formatter that a bus sets. -/
def setFormatter (bus : Option Nat) : Option (Option Nat) :=
  match bus with
  | none => pure none
  | some b => do
      let below ← (f.keptWith .formatter).filterM fun s =>
        (f.ancestor s .bus).map fun above => decide (above = some b)
      pure below.getLast?

/-- The formatter in force: the call's own argument, else the last that its bus sets, else the
default one. -/
def formatterInForce (index : Nat) : Option (Str × String × List ValueObj) := do
  let site ← f.sites[index]?
  match site.formatter with
  | some formatter =>
      pure (formatterWord f.ctx f.file site formatter, "argument",
        formatterArguments f.ctx f.file site formatter)
  | none => do
      let bus ← f.ancestor index .bus
      let set ← f.setFormatter bus
      match set with
      | none => pure ("default".toList, "default", [])
      | some s => do
          let setter ← f.sites[s]?
          match setter.formatter with
          | some formatter =>
              pure (formatterWord f.ctx f.file setter formatter, "bus",
                formatterArguments f.ctx f.file setter formatter)
          | none => do
              let word ← f.word s
              pure (word.getD "unknown".toList, "bus", [])

def configureEndpointsFact (index : Nat) : Option TransportFact := do
  let fact ← f.base index "configure-endpoints"
  let (word, source, arguments) ← f.formatterInForce index
  let site ← f.sites[index]?
  pure
    { fact with
      formatter := some word
      formatterSource := some source.toList
      formatterArguments := arguments
      filtered := site.filtered }

/-- The key of an options binding: its own, or that of the first key site right below it. -/
def optionsKey (index : Nat) : Option (Option Resolved) := do
  let own ← f.value index .key
  match own with
  | some r => pure (some r)
  | none => do
      let below ← (Forest.keptPositions f.kept).filterM fun k =>
        (f.sites[k]?).map fun s => decide (s.parent = some index)
      match below.find? fun k => f.actAt k = some .optionsKey with
      | none => pure none
      | some k => f.value k .key

def optionsFact (index : Nat) : Option TransportFact := do
  let fact ← f.base index "options-binding"
  let types ← f.types index
  let keyed ← f.optionsKey index
  let site ← f.sites[index]?
  let properties := match keyed.map Resolved.obj, optionsType f.ctx f.file site with
    | some (.configuration key _), some (_, marked) =>
        marked.map fun p =>
          ⟨p.1, p.2.word, f.ctx.configuredValue (f.ctx.settingsFiles f.file) (key ++ ':' :: p.1) p.2⟩
    | _, _ => []
  pure { fact with types := types, properties := properties, key := keyed.map Resolved.obj }

def outboxFact (index : Nat) : Option TransportFact := do
  let fact ← f.base index "outbox"
  let types ← f.types index
  pure { fact with types := types }

/-- `fact`: none for a site that only adds to the facts of others. -/
def fact (index : Nat) : Option (Option TransportFact) :=
  match f.actAt index with
  | none => pure none
  | some .bus => some <$> f.busFact index
  | some .host => some <$> f.hostFact index
  | some .receive => some <$> f.receiveFact index
  | some .configureEndpoints => some <$> f.configureEndpointsFact index
  | some .registration => some <$> f.registrationFact index
  | some .send => some <$> f.addressFact index "send-address" .address
  | some .request => some <$> f.typedAddress index "request-address" .address
  | some .convention => some <$> f.typedAddress index "endpoint-convention" .address
  | some .entity => some <$> f.entityFact index
  | some .endpointName => some <$> f.endpointNameFact index
  | some .options => some <$> f.optionsFact index
  | some .outbox => some <$> f.outboxFact index
  | some _ => pure none

/-- `emit`: the facts of the kept sites, in their order. -/
def emit : Option (List TransportFact) := do
  let facts ← (Forest.keptPositions f.kept).mapM f.fact
  pure (facts.filterMap id)

end FileFacts

end Devscout.Transport
