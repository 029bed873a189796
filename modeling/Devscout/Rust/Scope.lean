/-
# Devscout.Rust.Scope -- what each module and each block binds

A module's own items and its explicit imports bind at one level, its globs at the next. An
explicit import that resolved to nothing still shadows a glob of its name. A glob whose
names cannot be listed makes the level opaque: a name not found there stops the lookup,
unless it is the first segment of an import.

Every table but one is fixed once built. What the `use` leaves resolve to so far changes as
they are resolved, and is an argument of its own here. A lookup logs the modules it
consulted. The lookups through globs are made afresh here; `Devscout.Rust.GlobCache` has
the ones that are remembered until the next change of a leaf.
-/

import Devscout.Lib.Worklist
import Devscout.Rust.ModTree
import Mathlib

namespace Devscout.Rust

open Lib

/-- A name's binding: a module node or a recorded item. -/
inductive Target where
  | module (node : Nat)
  | def_ (idx : Nat)
  deriving DecidableEq

inductive Ns where
  | type
  | value
  deriving DecidableEq

structure DefRef where
  file : Nat
  name : Str
  kind : ItemKind
  path : Str

def DefRef.isType (d : DefRef) : Bool :=
  d.kind ∈ [ItemKind.struct_, .enum_, .union_, .trait_, .type_]

/-- The targets one name has in each namespace. -/
structure Bound where
  types : List Target := []
  values : List Target := []
  deriving DecidableEq

namespace Bound

def get (b : Bound) : Ns → List Target
  | .type => b.types
  | .value => b.values

def push (b : Bound) (ns : Ns) (target : Target) : Bound :=
  if target ∈ b.get ns then b
  else match ns with
    | .type => { b with types := b.types ++ [target] }
    | .value => { b with values := b.values ++ [target] }

def isEmpty (b : Bound) : Bool := b.types.isEmpty && b.values.isEmpty

end Bound

/-- One flattened `use` leaf, placed in its module and block. -/
structure Leaf where
  file : Nat
  module : Nat
  block : Option Nat
  segments : List Str
  name : Str

def Leaf.isGlob (leaf : Leaf) : Bool := leaf.name == ['*']

structure Globbed where
  found : List Target
  isOpaque : Bool

inductive Level where
  | found (targets : List Target)
  | shadowed
  | empty

/-- The tables that stay as they were built. The lists of named leaves and of globs of a
module or a block are read off `leaves`, each leaf under the place it records. -/
structure Tables where
  size : Nat
  defs : List DefRef
  items : List ((Nat × Str) × Bound)
  leaves : List Leaf
  blockParent : List (List (Option Nat))
  assoc : List ((Nat × Str) × List Nat)
  opaqueModules : List Bool

namespace Tables

variable (t : Tables)

def leaf (l : Nat) : Leaf := t.leaves.getD l ⟨0, 0, none, [], []⟩

def leavesWhere (p : Leaf → Bool) : List Nat :=
  (List.range t.leaves.length).filter fun l => p (t.leaf l)

def moduleNamed (module : Nat) (name : Str) : List Nat :=
  t.leavesWhere fun l => l.block.isNone && l.module == module && !l.isGlob && l.name == name

def moduleGlobs (module : Nat) : List Nat :=
  t.leavesWhere fun l => l.block.isNone && l.module == module && l.isGlob

def blockNamed (file block : Nat) (name : Str) : List Nat :=
  t.leavesWhere fun l => l.block == some block && l.file == file && !l.isGlob && l.name == name

def blockGlobs (file block : Nat) : List Nat :=
  t.leavesWhere fun l => l.block == some block && l.file == file && l.isGlob

def itemAt (module : Nat) (name : Str) : Bound := (t.items.lookup (module, name)).getD {}

def isOpaque (module : Nat) : Bool := t.opaqueModules.getD module false

end Tables

/-! ## Building the tables -/

section Build

variable (tree : ModTree)

def bindItem (items : List ((Nat × Str) × Bound)) (module : Nat) (name : Str) (ns : Ns)
    (target : Target) : List ((Nat × Str) × Bound) :=
  ((module, name), ((items.lookup (module, name)).getD {}).push ns target) :: items

/-- `add_items`, one item. -/
def addItem (file : Nat) (ctors : List Str) (t : Tables) (item : RsItem) : Tables :=
  let index := t.defs.length
  let t := { t with defs := t.defs ++ [⟨file, item.name, item.kind, item.path⟩] }
  match tree.nodeOf file (splitLast item.path).1 with
  | none => t
  | some module =>
      let bind (t : Tables) (ns : Ns) (target : Target) : Tables :=
        { t with items := bindItem t.items module item.name ns target }
      match item.kind with
      | .mod_ =>
          match (tree.node module).children.lookup item.name with
          | some child => bind t .type (.module child)
          | none => t
      | .struct_ | .enum_ | .union_ | .trait_ | .type_ =>
          let t := bind t .type (.def_ index)
          if item.path ∈ ctors then bind t .value (.def_ index) else t
      | .fn_ | .const_ | .static_ => bind t .value (.def_ index)
      | .other => t

/-- `add_leaves`, one leaf. -/
def addLeaf (file : Nat) (t : Tables) (u : RsUse) : Tables :=
  match tree.nodeOf file u.scope with
  | none => t
  | some module =>
      { t with leaves := t.leaves ++ [⟨file, module, u.block, splitColons u.path, u.name⟩] }

def addOpaque (file : Nat) (t : Tables) (scope : Str) : Tables :=
  match tree.nodeOf file scope with
  | none => t
  | some module => { t with opaqueModules := t.opaqueModules.set module true }

def addFragment (t : Tables) (e : RsFragment × Nat) : Tables :=
  let (f, file) := e
  let t := f.items.foldl (addItem tree file f.ctors) t
  let t := f.uses.foldl (addLeaf tree file) t
  f.opaqueScopes.foldl (addOpaque tree file) t

/-- `scope::tables`. -/
def tables (fragments : Fragments) : Tables :=
  (fragments.map Prod.snd).zipIdx.foldl (addFragment tree)
    { size := tree.nodes.length
      defs := []
      items := []
      leaves := []
      blockParent := fragments.map fun f => f.2.blocks.map RsBlock.parent
      assoc := []
      opaqueModules := List.replicate tree.nodes.length false }

end Build

/-! ## Lookups -/

def extendUnique (out more : List Target) : List Target :=
  more.foldl (fun out t => if t ∈ out then out else out ++ [t]) out

/-- What the items found at a level and its explicit imports make of it. -/
def level (found : List Target) (leaves : List Nat) (resolved : List Bound) (ns : Ns) : Level :=
  let all := leaves.foldl (fun out l => extendUnique out ((resolved.getD l {}).get ns)) found
  if !all.isEmpty then .found all
  else if leaves.any fun l => (resolved.getD l {}).isEmpty then .shadowed
  else .empty

def modulesIn (targets : List Target) : List Nat :=
  targets.filterMap fun
    | .module m => some m
    | .def_ _ => none

/-- The modules a set of globs import so far, and whether one of them reaches none. -/
def globTargets (resolved : List Bound) (globs : List Nat) : List Nat × Bool :=
  let lists := globs.map fun g => modulesIn (resolved.getD g {}).types
  (lists.flatten, lists.any List.isEmpty)

/-- A level's glob result; `none` when an import's first segment may go on. -/
def globbed (g : Globbed) (isImport : Bool) : Option (List Target) :=
  if g.isOpaque then if isImport && g.found.isEmpty then none else some []
  else if !g.found.isEmpty then some g.found
  else none

namespace Tables

variable (t : Tables) (resolved : List Bound)

/-- Items and explicit imports of `name` in a module. -/
def explicit (module : Nat) (name : Str) (ns : Ns) : Logged Nat Level := do
  Logged.look module
  pure (level ((t.itemAt module name).get ns) (t.moduleNamed module name) resolved ns)

/-- The breadth-first walk over glob targets, each module visited once. -/
def globWalk (name : Str) (ns : Ns) : Nat → List Nat → List Nat → Globbed → Logged Nat Globbed
  | 0, _, _, g => pure g
  | fuel + 1, seen, queue, g =>
      match queue.dropWhile fun m => decide (m ∈ seen ∨ t.size ≤ m) with
      | [] => pure g
      | m :: rest => do
          match ← t.explicit resolved m name ns with
          | .found v => globWalk name ns fuel (m :: seen) rest { g with found := extendUnique g.found v }
          | .shadowed => globWalk name ns fuel (m :: seen) rest { g with isOpaque := true }
          | .empty =>
              let (more, unlisted) := globTargets resolved (t.moduleGlobs m)
              globWalk name ns fuel (m :: seen) (rest ++ more)
                { g with isOpaque := g.isOpaque || t.isOpaque m || unlisted }

/-- What `name` is through a set of globs. -/
def throughGlobs (globs : List Nat) (name : Str) (ns : Ns) : Logged Nat Globbed :=
  let (first, unlisted) := globTargets resolved globs
  t.globWalk resolved name ns t.size [] first ⟨[], unlisted⟩

/-- `name` inside a module: its own level, then its globs. -/
def inModule (module : Nat) (name : Str) (ns : Ns) (isImport : Bool) :
    Logged Nat (Option (List Target)) := do
  match ← t.explicit resolved module name ns with
  | .found v => pure (some v)
  | .shadowed => pure (some [])
  | .empty =>
      if t.isOpaque module then pure (if isImport then none else some [])
      else
        let g ← t.throughGlobs resolved (t.moduleGlobs module) name ns
        pure (globbed g isImport)

/-- `name` in a recorded block and the blocks around it, innermost first. -/
def inBlocksFrom (file : Nat) (name : Str) (ns : Ns) (isImport : Bool) :
    Nat → Option Nat → Logged Nat (Option (List Target))
  | 0, _ => pure none
  | _ + 1, none => pure none
  | fuel + 1, some b =>
      match level [] (t.blockNamed file b name) resolved ns with
      | .found v => pure (some v)
      | .shadowed => pure (some [])
      | .empty => do
          let g ← t.throughGlobs resolved (t.blockGlobs file b) name ns
          match globbed g isImport with
          | some v => pure (some v)
          | none =>
              inBlocksFrom file name ns isImport fuel
                (((t.blockParent.getD file [])[b]?).join)

def inBlocks (file : Nat) (block : Option Nat) (name : Str) (ns : Ns) (isImport : Bool) :
    Logged Nat (Option (List Target)) :=
  t.inBlocksFrom resolved file name ns isImport ((t.blockParent.getD file []).length + 1) block

/-! ## The glob walk ends -/

/-- How many modules a walk has not visited. -/
def unseen (seen : List Nat) : Nat := (List.range t.size).countP fun m => decide (m ∉ seen)

variable {t}

theorem unseen_cons_lt {seen : List Nat} {m : Nat} (hseen : m ∉ seen) (hm : m < t.size) :
    t.unseen (m :: seen) < t.unseen seen := by
  refine countP_lt_countP (fun a _ ha => ?_) (List.mem_range.mpr hm) (by simpa using hseen) (by simp)
  have hnot : a ∉ m :: seen := of_decide_eq_true ha
  exact decide_eq_true fun h => hnot (List.mem_cons_of_mem m h)

/-- A walk with a step for every module it has not visited needs no more. -/
theorem globWalk_fuel {name : Str} {ns : Ns} {fuel : Nat} {seen queue : List Nat} {g : Globbed}
    (h : t.unseen seen ≤ fuel) (k : Nat) :
    t.globWalk resolved name ns (fuel + k) seen queue g =
      t.globWalk resolved name ns fuel seen queue g := by
  induction fuel generalizing seen queue g with
  | zero =>
      cases k with
      | zero => rfl
      | succ k =>
          have hall : ∀ m ∈ queue, decide (m ∈ seen ∨ t.size ≤ m) = true := by
            intro m _
            by_contra hm
            have hnot : m ∉ seen ∧ m < t.size := by
              simpa using hm
            have hlt := unseen_cons_lt hnot.1 hnot.2
            omega
          rw [Nat.zero_add, globWalk, globWalk, List.dropWhile_eq_nil_iff.mpr hall]
  | succ fuel ih =>
      rw [Nat.succ_add, globWalk, globWalk]
      cases hdrop : queue.dropWhile fun m => decide (m ∈ seen ∨ t.size ≤ m) with
      | nil => rfl
      | cons m rest =>
          have hhead := List.head?_dropWhile_not (fun m => decide (m ∈ seen ∨ t.size ≤ m)) queue
          rw [hdrop] at hhead
          have hnot : m ∉ seen ∧ m < t.size := by simpa using hhead
          have hlt := unseen_cons_lt hnot.1 hnot.2
          dsimp only
          congr 1
          funext found
          cases found with
          | found v => exact ih (by omega)
          | shadowed => exact ih (by omega)
          | empty => exact ih (by omega)

end Tables

end Devscout.Rust
