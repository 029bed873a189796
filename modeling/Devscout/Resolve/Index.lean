/-
# Devscout.Resolve.Index -- the definitions of all fragments, merged

Declarations of one id and one number of type parameters are one definition: the first
makes it, the later ones contribute to it, table by table. What a table does with a
second answer is its own rule: a list of names takes what is new, a table of types
keeps the first answer, the overload tables take the union for each name. Beside the
definitions stand the lookups the ladder reads.
-/

import Devscout.CSharp.Fragment
import Devscout.Lib.Distinct

namespace Devscout.Resolve

open Lib

structure AlsoIn where
  file : Str
  line : Nat
  deriving DecidableEq

/-- The part of a definition that reaches the graph. -/
structure Def where
  id : Str
  name : Str
  namespace_ : Str
  kind : Str
  file : Str
  line : Nat
  methods : List Str
  testMethods : List Str
  alsoIn : List AlsoIn
  endLine : Nat

/-- One overload's own type parameters and where they occur. -/
structure OwnTypeParams where
  count : Nat
  sites : FragOverloadSites
  deriving DecidableEq

/-- One overload's parameters and the file that declared it. -/
structure MethodOverloadParams where
  params : List Str
  file : Str
  typeParams : Option OwnTypeParams
  arity : Option (Nat × Int)

/-- The part of a definition only the resolver reads. -/
structure MemberLists where
  properties : List Str := []
  fields : List Str := []
  extensionMethods : List (Str × Str × Nat × Int) := []
  bases : List Str := []
  typeParams : List Str := []
  baseGenericArgs : List (Str × List Str) := []
  methodReturns : OrderedMap Str Str := .empty
  propertyTypes : OrderedMap Str FragFact := .empty
  fieldTypes : OrderedMap Str FragFact := .empty
  propertyTypeFiles : OrderedMap Str Str := .empty
  fieldTypeFiles : OrderedMap Str Str := .empty
  methodReturnArgs : OrderedMap Str (List Str) := .empty
  nonPublicMethods : List Str := []
  methodArities : OrderedMap Str (List (Nat × Int)) := .empty
  overloadCounts : OrderedMap Str (List (Nat × Int × Nat)) := .empty
  unpairedOverloadNames : List Str := []
  methodParams : OrderedMap Str (List MethodOverloadParams) := .empty
  overrideMethods : List Str := []
  delegateSignature : Option FragDelegateSignature := none

structure ExtCandidate where
  defIdx : Nat
  entry : FragExtensionMethod

/-- A definition and its member lists, which the resolver keeps side by side. -/
structure IndexedDef where
  def_ : Def
  lists : MemberLists

structure DefIndex where
  defs : List IndexedDef
  qualifiedNameToDef : OrderedMap Str Nat
  qualifiedNameAndArityToDef : OrderedMap (Str × Nat) Nat
  simpleNameToDefs : OrderedMap Str (List Nat)
  extensionIndex : OrderedMap Str (List ExtCandidate)
  memberNameToDefs : OrderedMap Str (List Nat)

def DefIndex.empty : DefIndex := ⟨[], .empty, .empty, .empty, .empty, .empty⟩

instance : Inhabited Def := ⟨⟨[], [], [], [], [], 0, [], [], [], 0⟩⟩

instance : Inhabited IndexedDef := ⟨⟨default, {}⟩⟩

/-- The definition at an index; every index a lookup holds has one. -/
def DefIndex.def_ (index : DefIndex) (i : Nat) : Def := (index.defs.getD i default).def_

def DefIndex.lists (index : DefIndex) (i : Nat) : MemberLists := (index.defs.getD i default).lists

/-! ## Merging tables -/

/-- A list with the entries of another that it does not hold, in their order. -/
def unionNew {α : Type} [DecidableEq α] (held more : List α) : List α :=
  more.foldl (fun acc a => if a ∈ acc then acc else acc ++ [a]) held

theorem mem_unionNew {α : Type} [DecidableEq α] {held more : List α} {a : α} :
    a ∈ unionNew held more ↔ a ∈ held ∨ a ∈ more :=
  ⟨mem_of_mem_foldl_new, fun h => h.elim mem_foldl_new_of_held (mem_foldl_new_of_mem fun _ _ => id)⟩

theorem nodup_unionNew {α : Type} [DecidableEq α] {held more : List α} (h : held.Nodup) :
    (unionNew held more).Nodup :=
  nodup_foldl_new (fun _ _ => id) h

/-- A map with the entries of another at keys it does not hold. -/
def keepFirst {α : Type} (held more : OrderedMap Str α) : OrderedMap Str α :=
  more.entries.foldl (fun acc e => if (acc.get? e.1).isNone then acc.insert e.1 e.2 else acc) held

/-- Entries pushed onto the list at a key. -/
def pushAt {K α : Type} [DecidableEq K] (m : OrderedMap K (List α)) (k : K) (a : α) :
    OrderedMap K (List α) :=
  m.insert k ((m.get? k).getD [] ++ [a])

/-- The union of two maps to lists, key by key. -/
def unionPerName {α : Type} [DecidableEq α] (held more : OrderedMap Str (List α)) :
    OrderedMap Str (List α) :=
  more.entries.foldl (fun acc e => acc.insert e.1 (unionNew ((acc.get? e.1).getD []) e.2)) held

/-- `keys_mapped_to_file`. -/
def keysMappedToFile {α : Type} (m : OrderedMap Str α) (file : Str) : OrderedMap Str Str :=
  m.mapValues fun _ => file

/-- The list at a key when it has the wanted length. -/
def alignedAt {α : Type} (m : OrderedMap Str (List α)) (name : Str) (length : Nat) :
    Option (List α) :=
  (m.get? name).filter fun xs => xs.length == length

/-- `overloads_of`, the overloads of one name: each parameter list with the facts at its
own position. -/
def overloadEntries (d : FragDef) (file name : Str) (overloads : List (List Str)) :
    List MethodOverloadParams :=
  let counts := alignedAt d.methodTypeArities name overloads.length
  let sites := alignedAt d.methodTypeParamSites name overloads.length
  let ranges := alignedAt d.methodArities name overloads.length
  overloads.zipIdx.map fun e =>
    { params := e.1
      file
      arity := ranges.bind fun r => r[e.2]?
      typeParams := do
        let count ← (← counts)[e.2]?
        let own ← (← sites)[e.2]?
        if own.length == e.1.length && own.flatten.all (fun site => site.1 < count) then
          some ⟨count, own⟩
        else none }

/-- `overloads_of`. -/
def overloadsOf (d : FragDef) (file : Str) : OrderedMap Str (List MethodOverloadParams) where
  entries := d.methodParams.entries.map fun e => (e.1, overloadEntries d file e.1 e.2)
  nodup := by simpa [Function.comp_def] using d.methodParams.nodup

/-- `pair_overload_counts`, for one name. -/
def pairCounts (d : FragDef) (lists : MemberLists) (e : Str × List (Nat × Int)) : MemberLists :=
  match alignedAt d.methodTypeArities e.1 e.2.length with
  | none =>
      { lists with unpairedOverloadNames := unionNew lists.unpairedOverloadNames [e.1] }
  | some counts =>
      let triples := List.zipWith (fun range count => (range.1, range.2, count)) e.2 counts
      let merged := unionNew ((lists.overloadCounts.get? e.1).getD []) triples
      { lists with overloadCounts := lists.overloadCounts.insert e.1 merged }

/-- `pair_overload_counts`. -/
def pairOverloadCounts (lists : MemberLists) (d : FragDef) : MemberLists :=
  d.methodArities.entries.foldl (pairCounts d) lists

/-! ## One declaration -/

/-- `add_extension_method`. -/
def addExtensionMethod (idx : Nat) (index : DefIndex) (entry : FragExtensionMethod) : DefIndex :=
  let quadruple := (entry.name, entry.thisType, entry.arityMin, entry.arityMax)
  let listed := decide (quadruple ∈ (index.lists idx).extensionMethods)
  let key := entry.name ++ ' ' :: entry.thisType
  let bucket := (index.extensionIndex.get? key).getD []
  let known := bucket.any fun c =>
    c.defIdx == idx && c.entry.arityMin == entry.arityMin &&
      c.entry.arityMax == entry.arityMax && c.entry.typeParamCount == entry.typeParamCount
  if listed && known then index
  else
    { index with
      defs := if listed then index.defs else
        index.defs.modify idx fun row =>
          { row with lists :=
              { row.lists with extensionMethods := row.lists.extensionMethods ++ [quadruple] } }
      extensionIndex := pushAt index.extensionIndex key ⟨idx, entry⟩ }

/-- The row a first declaration makes. -/
def newRow (file : Str) (d : FragDef) : IndexedDef where
  def_ :=
    { id := d.id, name := d.name, namespace_ := d.namespace_, kind := d.kind, file
      line := d.line, methods := d.methods, testMethods := d.testMethods, alsoIn := []
      endLine := d.endLine }
  lists := pairOverloadCounts
    { properties := d.properties
      fields := d.fields
      bases := d.bases
      typeParams := d.typeParams
      baseGenericArgs := d.baseGenericArgs.entries
      methodReturns := d.methodReturns
      propertyTypes := d.propertyTypes
      fieldTypes := d.fieldTypes
      propertyTypeFiles := keysMappedToFile d.propertyTypes file
      fieldTypeFiles := keysMappedToFile d.fieldTypes file
      methodReturnArgs := d.methodReturnArgs
      nonPublicMethods := d.nonPublicMethods
      methodArities := d.methodArities
      methodParams := overloadsOf d file
      overrideMethods := d.overrideMethods
      delegateSignature := d.delegateSignature } d

/-- Overloads of one name with those of another part that say something new. -/
def unionOverloads (held more : List MethodOverloadParams) : List MethodOverloadParams :=
  more.foldl (fun acc o =>
    if acc.any fun p => p.params == o.params && p.typeParams == o.typeParams then acc
    else acc ++ [o]) held

/-- The facts of another map at keys this one lacks, and the file they come from. -/
def keepFirstFrom {α : Type} (file : Str) (held : OrderedMap Str α × OrderedMap Str Str)
    (more : OrderedMap Str α) : OrderedMap Str α × OrderedMap Str Str :=
  more.entries.foldl (fun acc e =>
    if (acc.1.get? e.1).isNone then (acc.1.insert e.1 e.2, acc.2.insert e.1 file) else acc) held

/-- What a later declaration adds to a row. -/
def mergeRow (file : Str) (d : FragDef) (row : IndexedDef) : IndexedDef :=
  let lists := row.lists
  let properties := keepFirstFrom file (lists.propertyTypes, lists.propertyTypeFiles) d.propertyTypes
  let fields := keepFirstFrom file (lists.fieldTypes, lists.fieldTypeFiles) d.fieldTypes
  { def_ :=
      { row.def_ with
        alsoIn := row.def_.alsoIn ++ [⟨file, d.line⟩]
        methods := unionNew row.def_.methods d.methods
        testMethods := unionNew row.def_.testMethods d.testMethods }
    lists :=
      { pairOverloadCounts lists d with
        properties := unionNew lists.properties d.properties
        fields := unionNew lists.fields d.fields
        nonPublicMethods := unionNew lists.nonPublicMethods d.nonPublicMethods
        overrideMethods := unionNew lists.overrideMethods d.overrideMethods
        bases := unionNew lists.bases d.bases
        methodReturns := keepFirst lists.methodReturns d.methodReturns
        propertyTypes := properties.1
        propertyTypeFiles := properties.2
        fieldTypes := fields.1
        fieldTypeFiles := fields.2
        methodReturnArgs := keepFirst lists.methodReturnArgs d.methodReturnArgs
        methodArities := unionPerName lists.methodArities d.methodArities
        methodParams := (overloadsOf d file).entries.foldl (fun acc e =>
          acc.insert e.1 (unionOverloads ((acc.get? e.1).getD []) e.2)) lists.methodParams } }

/-- One declaration of one file. -/
def addDeclaration (index : DefIndex) (file : Str) (d : FragDef) : DefIndex :=
  let key := (d.id, d.typeParams.length)
  match index.qualifiedNameAndArityToDef.get? key with
  | none =>
      let idx := index.defs.length
      let index := d.extensionMethods.foldl (addExtensionMethod idx)
        { index with defs := index.defs ++ [newRow file d] }
      { index with
        qualifiedNameToDef :=
          if (index.qualifiedNameToDef.get? d.id).isNone then index.qualifiedNameToDef.insert d.id idx
          else index.qualifiedNameToDef
        qualifiedNameAndArityToDef := index.qualifiedNameAndArityToDef.insert key idx
        -- an enum member is reachable by its id alone
        simpleNameToDefs :=
          if d.kind = "enum-member".toList then index.simpleNameToDefs
          else pushAt index.simpleNameToDefs d.name idx }
  | some idx =>
      d.extensionMethods.foldl (addExtensionMethod idx)
        { index with defs := index.defs.modify idx (mergeRow file d) }

/-! ## All of them -/

/-- Every declaration with its file, in file-walk order. -/
def declarations (fragments : Fragments) : List (Str × FragDef) :=
  fragments.flatMap fun f => f.2.defs.map fun d => (f.1, d)

/-- The member names a row vouches for, each once. -/
def memberNames (row : IndexedDef) : List Str :=
  unionNew [] (row.def_.methods ++ row.lists.properties ++ row.lists.fields ++
    row.lists.extensionMethods.map Prod.fst)

/-- The second pass: each row into the buckets of its member names. -/
def indexMemberNames (defs : List IndexedDef) : OrderedMap Str (List Nat) :=
  defs.zipIdx.foldl (fun acc e => (memberNames e.1).foldl (fun acc n => pushAt acc n e.2) acc) .empty

/-- `build_def_index`. -/
def buildDefIndex (fragments : Fragments) : DefIndex :=
  let index := (declarations fragments).foldl (fun index e => addDeclaration index e.1 e.2) .empty
  { index with memberNameToDefs := indexMemberNames index.defs }

end Devscout.Resolve
