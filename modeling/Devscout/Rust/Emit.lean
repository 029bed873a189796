/-
# Devscout.Rust.Emit -- the edges reference sites bind to

Once the `use` leaves are resolved, each `impl` block's items are put under the type its
self type resolves to, and each trait's own items under the trait. Then every reference
site is walked, and each segment gives at most one edge: to the definition it binds to, or,
when several candidates were found, one edge that lists them.

An item's id is its file and its path in the file. The tables keep the file by its index,
so what is written of an item is read off the fragments.
-/

import Devscout.Lib.Distinct
import Devscout.Resolve.Ladder
import Devscout.Resolve.Edge
import Devscout.Rust.Bind
import Mathlib

namespace Devscout.Rust

open Lib Resolve

/-! ## Associated items -/

namespace Tables

variable (t : Tables)

def defAt (d : Nat) : DefRef := t.defs.getD d ⟨0, [], .other, []⟩

/-- `def_by_path`: of the items of one path in a file the last. -/
def defByPath (file : Nat) (path : Str) : Option Nat :=
  (List.range t.defs.length).reverse.find? fun d =>
    (t.defAt d).file == file && (t.defAt d).path == path

/-- `add_associated`. -/
def addAssociated (owner item : Nat) : Tables :=
  let name := (t.defAt item).name
  let held := (t.assoc.lookup (owner, name)).getD []
  if item ∈ held then t else { t with assoc := ((owner, name), held ++ [item]) :: t.assoc }

end Tables

/-- The tables with the items put under their types so far, and the type each `impl` block
of a file is for. -/
structure Associated where
  t : Tables
  implSelf : List ((Nat × Nat) × Nat)

section Index

variable (tree : ModTree) (resolved : List Bound)

/-- The definition a whole path binds to, as a type. -/
def boundDef (segs : List Str) (steps : List Step) : Option Nat :=
  match steps.getLast? with
  | some (.bound (.def_ d)) => if steps.length = segs.length then some d else none
  | _ => none

/-- One `impl` block, the `k`th of its file. -/
def indexImpl (file : Nat) (s : Associated) (entry : RsImpl × Nat) : Associated :=
  let (imp, k) := entry
  match tree.nodeOf file imp.scope with
  | none => s
  | some module =>
      let segs := splitColons imp.selfType
      let steps := ((Binder.mk tree s.t).walk resolved ⟨module, file, none, none, false⟩ segs .type).value
      match boundDef segs steps with
      | none => s
      | some owner =>
          if !(s.t.defAt owner).isType || (s.t.defAt owner).kind = .type_ then s
          else
            { t := imp.items.foldl (fun t path =>
                match t.defByPath file path with
                | some item => t.addAssociated owner item
                | none => t) s.t
              implSelf := ((file, k), owner) :: s.implSelf }

/-- One item, put under the trait it is written in. -/
def indexTraitItem (t : Tables) (item : Nat) : Tables :=
  let parent := (splitLast (t.defAt item).path).1
  if parent = [] then t
  else
    match t.defByPath (t.defAt item).file parent with
    | some owner => if (t.defAt owner).kind = .trait_ then t.addAssociated owner item else t
    | none => t

/-- `index_associated`. -/
def indexAssociated (fragments : Fragments) (t : Tables) : Associated :=
  let s := fragments.zipIdx.foldl (fun s (f, file) =>
    f.2.impls.zipIdx.foldl (indexImpl tree resolved file) s) ⟨t, []⟩
  { s with t := (List.range s.t.defs.length).foldl indexTraitItem s.t }

end Index

/-! ## Edges -/

/-- What one bound segment gives. -/
inductive EdgeKind where
  | usesMember
  | usesType
  | implements_
  deriving DecidableEq

def EdgeKind.label : EdgeKind → Str
  | usesMember => "uses-member".toList
  | usesType => "uses-type".toList
  | implements_ => "implements".toList

inductive RsEdge where
  | usesMember (fromFile : Str) (fromLine : Nat) (toDef toFile member : Str)
  | usesType (fromFile : Str) (fromLine : Nat) (toDef toFile : Str)
  | implements_ (fromFile : Str) (fromLine : Nat) (toDef toFile : Str)
  | ambiguous (origin fromFile : Str) (fromLine : Nat) (raw : Str) (candidates : List Candidate)
      (candidateCount : Nat)
  deriving DecidableEq

/-- `rs_def_id`. -/
def rsDefId (file path : Str) : Str := file ++ '#' :: path

/-- `segment_lines`. -/
def RsSite.segmentLines (site : RsSite) : List Nat :=
  let count := (splitColons site.path).length
  if site.lines.length = count then site.lines else List.replicate count site.line

def lastNs : RsRole → Ns
  | .call | .value => .value
  | .type_ | .lit | .impl_ | .pat => .type

section Edges

variable (fragments : Fragments) (b : Binder)

/-- The file an item is in. -/
def relOf (d : Nat) : Str := ((fragments[(b.def_ d).file]?).map Prod.fst).getD []

def idOf (d : Nat) : Str := rsDefId (relOf fragments b d) (b.def_ d).path

/-- The kind a segment bound to an item gives, by its position and the role. -/
def kindOf (d : Nat) (role : RsRole) (last : Bool) : Option EdgeKind :=
  if !last then if (b.def_ d).isType then some .usesType else none
  else
    match role with
    | .call =>
        if (b.def_ d).kind = .fn_ then some .usesMember
        else if (b.def_ d).kind = .struct_ then some .usesType
        else none
    | .value => if (b.def_ d).kind = .struct_ then some .usesType else none
    | .type_ | .lit => if (b.def_ d).isType then some .usesType else none
    | .impl_ => if (b.def_ d).kind = .trait_ then some .implements_ else none
    | .pat => none

def edgeTo (kind : EdgeKind) (rel : Str) (line : Nat) (d : Nat) : RsEdge :=
  match kind with
  | .usesMember => .usesMember rel line (idOf fragments b d) (relOf fragments b d) (b.def_ d).name
  | .usesType => .usesType rel line (idOf fragments b d) (relOf fragments b d)
  | .implements_ => .implements_ rel line (idOf fragments b d) (relOf fragments b d)

def defsIn (targets : List Target) : List Nat :=
  targets.filterMap fun
    | .def_ d => some d
    | .module _ => none

/-- The items among some targets in the order of their ids, one of each id. -/
def candidateDefs (targets : List Target) : List Nat :=
  sortedByKey (idOf fragments b) (defsIn targets)

/-- `ambiguous`: nothing when no candidate would have given an edge. -/
def ambiguous (targets : List Target) (role : RsRole) (last : Bool) (rel : Str) (line : Nat)
    (written : List Str) : Option RsEdge :=
  let defs := candidateDefs fragments b targets
  (defs.findSome? fun d => kindOf b d role last).map fun origin =>
    .ambiguous origin.label rel line (List.intercalate "::".toList written)
      ((defs.take AMBIGUOUS_CAP).map fun d => ⟨idOf fragments b d, relOf fragments b d⟩)
      defs.length

/-- What the `i`th step of a site's walk gives. -/
def stepEdge (rel : Str) (site : RsSite) (i : Nat) (step : Step) : Option RsEdge :=
  let segs := splitColons site.path
  let last := i + 1 == segs.length
  let line := site.segmentLines.getD i site.line
  match step with
  | .bound (.def_ d) =>
      if segs.getD i [] ≠ "Self".toList then
        (kindOf b d site.role last).map fun kind => edgeTo fragments b kind rel line d
      else none
  | .ambiguous targets =>
      ambiguous fragments b targets site.role last rel line (segs.take (i + 1))
  | _ => none

variable (implSelf : List ((Nat × Nat) × Nat)) (resolved : List Bound)

/-- `self_def`. -/
def selfDef (file : Nat) (site : RsSite) : Option Nat :=
  match site.selfImpl with
  | some k => implSelf.lookup (file, k)
  | none => site.selfTrait.bind fun path => b.t.defByPath file path

/-- The steps of a site's walk; none from a scope that is no module. -/
def siteSteps (file : Nat) (site : RsSite) : List Step :=
  match b.tree.nodeOf file site.scope with
  | none => []
  | some module =>
      (b.walk resolved ⟨module, file, site.block, selfDef b implSelf file site, false⟩
        (splitColons site.path) (lastNs site.role)).value

/-- `site_edges`. -/
def siteEdges (file : Nat) (rel : Str) (site : RsSite) : List RsEdge :=
  (siteSteps b implSelf resolved file site).zipIdx.filterMap fun (step, i) =>
    stepEdge fragments b rel site i step

/-- `count`; an ambiguous edge counts for no kind. -/
def count (n : EdgesByKind) : RsEdge → EdgesByKind
  | .usesMember .. => { n with usesMember := n.usesMember + 1 }
  | .usesType .. => { n with usesType := n.usesType + 1 }
  | .implements_ .. => { n with implements := n.implements + 1 }
  | .ambiguous .. => n

/-- `emit::edges`. -/
def edges : List RsEdge × EdgesByKind :=
  let out := fragments.zipIdx.flatMap fun (f, file) =>
    f.2.sites.flatMap (siteEdges fragments b implSelf resolved file f.1)
  (out, out.foldl count ⟨0, 0, 0, 0, 0, 0, 0, none⟩)

end Edges

/-! ## The whole pass -/

/-- Everything the edge pass reads: the binder with its associated items, the types `impl`
blocks are for, and what the leaves resolved to. -/
structure Bindings where
  binder : Binder
  implSelf : List ((Nat × Nat) × Nat)
  resolved : List Bound

/-- The tables as `append_rust_edges` builds them. -/
def bindings (fragments : Fragments) (crates : Option RustCrates) : Bindings :=
  let b := binder fragments crates
  let resolved := b.resolveLeaves
  let s := indexAssociated b.tree resolved fragments b.t
  ⟨⟨b.tree, s.t⟩, s.implSelf, resolved⟩

/-- `append_rust_edges`: the edges it appends, and what it adds to the counts by kind. -/
def appendRustEdges (fragments : Fragments) (crates : Option RustCrates) :
    List RsEdge × EdgesByKind :=
  let s := bindings fragments crates
  edges fragments s.binder s.implSelf s.resolved

end Devscout.Rust
