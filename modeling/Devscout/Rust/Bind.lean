/-
# Devscout.Rust.Bind -- paths, and the fixed point over `use` leaves

A path's first segment is looked up from where the path stands, each later one in the
module or type the one before it named. One candidate binds and the walk goes on; two or
more stop it.

`use` leaves read one another, so they are resolved by evaluation: the module-level ones by
a worklist, then the block-level ones, which only blocks can see, by rounds. Both loops are
cut off by a count.
-/

import Devscout.Rust.Scope

namespace Devscout.Rust

open Lib

/-- How one segment of a path bound. -/
inductive Step where
  | skip
  | bound (target : Target)
  | ambiguous (targets : List Target)
  | nothing
  deriving DecidableEq

/-- Where a path is resolved from. -/
structure From where
  module : Nat
  file : Nat
  block : Option Nat
  selfDef : Option Nat
  isImport : Bool

/-- The module tree and its tables. -/
structure Binder where
  tree : ModTree
  t : Tables

namespace Binder

variable (b : Binder)

def parent (module : Nat) : List Target :=
  ((b.tree.node module).parent.map Target.module).toList

def externNamed (module : Nat) (name : Str) : Option Nat :=
  ((b.tree.externOf module).filter fun e => e.1 == name).map Prod.snd

def def_ (d : Nat) : DefRef := b.t.defs.getD d ⟨0, [], .other, []⟩

/-- The items of a type's `impl` blocks or of a trait that a name has. -/
def associated (d : Nat) (name : Str) (ns : Ns) : List Target :=
  if !(b.def_ d).isType || (b.def_ d).kind = .type_ then []
  else
    (((b.t.assoc.lookup (d, name)).getD []).filter fun i =>
      match (b.def_ i).kind with
      | .type_ => ns = .type
      | _ => ns = .value).map Target.def_

variable (resolved : List Bound)

def inScope (site : From) (name : Str) (ns : Ns) : Logged Nat (List Target) := do
  match ← b.t.inBlocks resolved site.file site.block name ns site.isImport with
  | some v => pure v
  | none =>
      match ← b.t.inModule resolved site.module name ns site.isImport with
      | some v => pure v
      | none =>
          match ns, b.externNamed site.module name with
          | .type, some root => pure [.module root]
          | _, _ => pure []

def segment (site : From) (current : Option Target) (name : Str) (ns : Ns) :
    Logged Nat (List Target) :=
  match current with
  | none =>
      if name = "crate".toList then pure [.module (b.tree.node site.module).root]
      else if name = "self".toList then pure [.module site.module]
      else if name = "super".toList then pure (b.parent site.module)
      else if name = "Self".toList then pure (site.selfDef.map Target.def_).toList
      else b.inScope resolved site name ns
  | some (.module m) =>
      if name = "super".toList then pure (b.parent m)
      else do
        let found ← b.t.inModule resolved m name ns false
        pure (found.getD [])
  | some (.def_ d) => pure (b.associated d name ns)

/-- Each segment in turn, the last in `lastNs` and every other one as a type. -/
def walkFrom (site : From) (lastNs : Ns) : Option Target → List Str → Logged Nat (List Step)
  | _, [] => pure []
  | current, seg :: segs => do
      let found ← b.segment resolved site current seg (if segs.isEmpty then lastNs else .type)
      match found with
      | [] => pure [.nothing]
      | [one] =>
          let steps ← walkFrom site lastNs (some one) segs
          pure (.bound one :: steps)
      | _ => pure [.ambiguous found]

def walk (site : From) (segs : List Str) (lastNs : Ns) : Logged Nat (List Step) :=
  match segs with
  | [] :: rest =>
      match rest.head?.bind (b.externNamed site.module) with
      | some root => do
          let steps ← b.walkFrom resolved site lastNs (some (.module root)) rest.tail
          pure (.skip :: .bound (.module root) :: steps)
      | none => pure [.skip, .nothing]
  | _ => b.walkFrom resolved site lastNs none segs

/-- The targets of a walk that reached the last segment. -/
def lastTargets (segs : List Str) (steps : List Step) : List Target :=
  if steps.length = segs.length then
    match steps.getLast? with
    | some (.bound t) => [t]
    | some (.ambiguous v) => v
    | _ => []
  else []

def isModule : Target → Bool
  | .module _ => true
  | .def_ _ => false

/-- What a leaf binds in one namespace; a glob keeps modules only. -/
def leafTargets (leaf : Leaf) (ns : Ns) : Logged Nat (List Target) := do
  let steps ← b.walk resolved ⟨leaf.module, leaf.file, leaf.block, none, true⟩ leaf.segments ns
  pure ((lastTargets leaf.segments steps).filter fun t => !leaf.isGlob || isModule t)

/-- What one `use` leaf binds, in each namespace its target has. -/
def resolveLeaf (leaf : Leaf) : Logged Nat Bound := do
  let types ← b.leafTargets resolved leaf .type
  if leaf.isGlob then pure ⟨types, []⟩
  else
    let values ← b.leafTargets resolved leaf .value
    pure ⟨types, values⟩

/-! ## The two loops -/

def moduleLeaves : List Nat := b.t.leavesWhere fun l => l.block.isNone

def blockLeaves : List Nat := b.t.leavesWhere fun l => l.block.isSome

/-- The leaves as cells, each under its module. -/
def network : Network Bound Nat where
  keyOf l := (b.t.leaf l).module
  eval resolved l := b.resolveLeaf resolved (b.t.leaf l)

/-- How many evaluations the worklist is allowed. -/
def budget : Nat := b.moduleLeaves.length * 64 + 64

/-- How many rounds block leaves are allowed. -/
def ROUNDS : Nat := 8

def unresolved : List Bound := List.replicate b.t.leaves.length {}

/-- The bindings after so many evaluations of the module-level worklist. -/
def afterEvaluations (n : Nat) : List Bound :=
  (b.network.run n (Network.start b.unresolved b.moduleLeaves)).values

/-- `resolve_leaves`: what every leaf is resolved to. -/
def resolveLeaves : List Bound :=
  b.network.rounds b.blockLeaves ROUNDS (b.afterEvaluations b.budget)

end Binder

/-- The binder of a set of files and a package model, before any leaf is resolved. -/
def binder (fragments : Fragments) (crates : Option RustCrates) : Binder :=
  let tree := build fragments crates
  ⟨tree, tables tree fragments⟩

end Devscout.Rust
