/-
# Devscout.Rust.ModTree -- which module every file and inline module is

Crate roots come from the Cargo package model, or by file name without one. Each root is
walked breadth first through its `mod x;` declarations, and the first position to reach a
file keeps it. Files no root reaches become roots of their own, in path order.

A declaration names `x.rs` or `x/mod.rs` in the folder its place decides, and nothing when
both exist. One that carries a `path` attribute names that file or nothing.
-/

import Devscout.Engine

namespace Devscout.Rust

open Lib Text

/-! ## What a file's fragment records -/

inductive ItemKind where
  | mod_
  | struct_
  | enum_
  | union_
  | trait_
  | type_
  | fn_
  | const_
  | static_
  | other
  deriving DecidableEq

structure RsItem where
  name : Str
  kind : ItemKind
  path : Str

/-- One flattened `use` leaf. -/
structure RsUse where
  scope : Str
  block : Option Nat
  path : Str
  name : Str

structure RsBlock where
  parent : Option Nat

/-- A declaration a `path` attribute decides; no literal when it cannot be told. -/
structure RsModPath where
  item : Str
  path : Option Str

/-- One `impl` block whose self type has a path. -/
structure RsImpl where
  scope : Str
  selfType : Str
  items : List Str

/-- What a reference site's path is used as. -/
inductive RsRole where
  | call
  | value
  | type_
  | lit
  | impl_
  | pat
  deriving DecidableEq

/-- A path the edge pass tries to bind. -/
structure RsSite where
  role : RsRole
  path : Str
  line : Nat
  lines : List Nat := []
  scope : Str := []
  block : Option Nat := none
  selfImpl : Option Nat := none
  selfTrait : Option Str := none

structure RsFragment where
  items : List RsItem := []
  modFiles : List Str := []
  ctors : List Str := []
  uses : List RsUse := []
  blocks : List RsBlock := []
  opaqueScopes : List Str := []
  modPaths : List RsModPath := []
  impls : List RsImpl := []
  sites : List RsSite := []

/-- Every Rust file with its fragment. -/
abbrev Fragments := List (Str × RsFragment)

/-! ## Paths -/

/-- The segments between `::`. -/
def splitColons : Str → List Str
  | [] => [[]]
  | ':' :: ':' :: rest => [] :: splitColons rest
  | c :: rest =>
      match splitColons rest with
      | [] => [[c]]
      | seg :: segs => (c :: seg) :: segs

/-- What stands before and after the last `::`. -/
def rsplitColons : Str → Option (Str × Str)
  | [] => none
  | c :: rest =>
      match rsplitColons rest with
      | some (a, b) => some (c :: a, b)
      | none => if c = ':' ∧ rest.head? = some ':' then some ([], rest.tail) else none

/-- `(parent path, last segment)` of an item path. -/
def splitLast (path : Str) : Str × Str := (rsplitColons path).getD ([], path)

example : splitColons "a::b::c".toList = ["a".toList, "b".toList, "c".toList] := by
  decide +kernel

/-- `.` and `..` resolved against the parts so far, the last of them first. -/
def joinParts : List Str → List Str → Option (List Str)
  | parts, [] => some parts.reverse
  | parts, p :: ps =>
      if p = [] ∨ p = ['.'] then joinParts parts ps
      else if p = ['.', '.'] then
        match parts with
        | [] => none
        | _ :: parts => joinParts parts ps
      else joinParts (p :: parts) ps

/-- `crates::join`: `none` when the path is absolute or climbs out of the folder. -/
def join (dir path : Str) : Option Str :=
  if path.head? = some '/' then none
  else
    (joinParts [] (splitSlash path)).map fun parts =>
      if dir.isEmpty then joinSlash parts else dir ++ '/' :: joinSlash parts

/-! ## The tree -/

structure ModNode where
  /-- The fragment index of the file. -/
  file : Nat
  /-- The enclosing module, which `super` names. -/
  parent : Option Nat
  /-- The crate root module, which `crate` names. -/
  root : Nat
  children : List (Str × Nat)

structure ModTree where
  nodes : List ModNode
  /-- Module node by fragment index and inline module path. -/
  byScope : List ((Nat × Str) × Nat)
  /-- For a crate root, the library it reaches by name: the name and the root node. -/
  externLib : List (Nat × (Str × Nat))

namespace ModTree

variable (tree : ModTree)

def node (n : Nat) : ModNode := tree.nodes.getD n ⟨0, none, n, []⟩

def nodeOf (file : Nat) (scope : Str) : Option Nat := tree.byScope.lookup (file, scope)

def externOf (n : Nat) : Option (Str × Nat) := tree.externLib.lookup (tree.node n).root

end ModTree

/-! ## Building it -/

structure Builder where
  tree : ModTree
  fileNode : List (Option Nat)
  /-- Files first reached through a `path` attribute, which own their directory. -/
  pathOwned : List Bool

/-- One `mod x;`: where it sits, its name, and its path fact. -/
structure Decl where
  scope : Str
  name : Str
  path : Option (Option Str)

section Build

variable (fragments : Fragments)

/-- The file index; of two fragments under one path the later one. -/
def fileIndex (path : Str) : Option Nat :=
  (fragments.zipIdx.reverse.find? fun f => f.1.1 == path).map Prod.snd

def fragment (file : Nat) : RsFragment := ((fragments[file]?).map Prod.snd).getD {}

def filePath (file : Nat) : Str := ((fragments[file]?).map Prod.fst).getD []

namespace Builder

def newNode (b : Builder) (file : Nat) (scope : Str) (parent root : Option Nat) : Nat × Builder :=
  let id := b.tree.nodes.length
  let node := { file, parent, root := root.getD id, children := [] }
  (id, { b with tree := { b.tree with
    nodes := b.tree.nodes ++ [node]
    byScope := ((file, scope), id) :: b.tree.byScope } })

/-- The node a file was first reached as. -/
def reached (b : Builder) (file : Nat) : Option Nat := (b.fileNode[file]?).join

/-- Names a child, unless the name is taken. -/
def nameChild (b : Builder) (parent : Nat) (name : Str) (child : Nat) : Builder :=
  { b with tree := { b.tree with
    nodes := b.tree.nodes.modify parent fun n =>
      if (n.children.lookup name).isSome then n
      else { n with children := (name, child) :: n.children } } }

/-- Everything before the last `/`. -/
def dirAndBase (path : Str) : Str × Str := (rsplit '/' path).getD ([], path)

def defaultFolder (b : Builder) (file : Nat) (scope : Str) (root : Nat) : Str :=
  let (dir, base) := dirAndBase (filePath fragments file)
  let ownsDir :=
    base == "mod.rs".toList || b.reached file == some root || b.pathOwned.getD file false
  let stem := if ".rs".toList.isSuffixOf base then base.take (base.length - 3) else base
  let dirs := if dir.isEmpty then [] else [dir]
  let stems := if ownsDir then [] else [stem]
  joinSlash (dirs ++ stems ++ (splitColons scope).filter fun p => !p.isEmpty)

def below (folder tail : Str) : Str := if folder.isEmpty then tail else folder ++ '/' :: tail

/-- The file a plain `mod name;` names. -/
def moduleFile (b : Builder) (file : Nat) (scope name : Str) (root : Nat) : Option Nat :=
  let folder := b.defaultFolder fragments file scope root
  match fileIndex fragments (below folder (name ++ ".rs".toList)),
      fileIndex fragments (below folder (name ++ "/mod.rs".toList)) with
  | some f, none => some f
  | none, some f => some f
  | _, _ => none

/-- The file `#[path = "literal"]` names. -/
def attributeFile (b : Builder) (file : Nat) (scope literal : Str) (root : Nat) : Option Nat :=
  let last := (dirAndBase literal).2
  if literal.head? = some '/' ∨ last = [] ∨ last = ['.'] ∨ last = ['.', '.'] then none
  else
    let folder :=
      if scope.isEmpty then (dirAndBase (filePath fragments file)).1
      else b.defaultFolder fragments file scope root
    (join [] (below folder literal)).bind (fileIndex fragments)

/-- The node of a declared file, and the queue with it when it is reached first here. -/
def declaredFile (b : Builder) (queue : List Nat) (file : Nat) (decl : Decl) (parent root : Nat) :
    Option Nat × Builder × List Nat :=
  let target := match decl.path with
    | some literal => literal.bind fun l => b.attributeFile fragments file decl.scope l root
    | none => b.moduleFile fragments file decl.scope decl.name root
  match target with
  | none => (none, b, queue)
  | some target =>
      match b.reached target with
      | some existing => (some existing, b, queue)
      | none =>
          let (node, b) := b.newNode target [] (some parent) (some root)
          (some node,
            { b with
              fileNode := b.fileNode.set target (some node)
              pathOwned := b.pathOwned.set target decl.path.isSome },
            queue ++ [node])

/-- One `mod` item of a file: an inline module, or a declaration. -/
def expandItem (file root : Nat) (acc : Builder × List Nat) (item : RsItem) : Builder × List Nat :=
  let (b, queue) := acc
  let f := fragment fragments file
  let scope := (splitLast item.path).1
  match b.tree.nodeOf file scope with
  | none => (b, queue)
  | some parent =>
      if item.path ∈ f.modFiles then
        let path := (f.modPaths.reverse.find? fun m => m.item == item.path).map RsModPath.path
        match b.declaredFile fragments queue file ⟨scope, item.name, path⟩ parent root with
        | (some child, b, queue) => (b.nameChild parent item.name child, queue)
        | (none, b, queue) => (b, queue)
      else
        let (child, b) := b.newNode file item.path (some parent) (some root)
        (b.nameChild parent item.name child, queue)

/-- `expand_file`: the modules of one file, each newly reached file queued. -/
def expandFile (b : Builder) (fileRoot : Nat) (queue : List Nat) : Builder × List Nat :=
  let node := b.tree.node fileRoot
  let mods := (fragment fragments node.file).items.filter fun i => i.kind = .mod_
  mods.foldl (expandItem fragments node.file node.root) (b, queue)

/-- The breadth-first walk of one root. -/
def walk : Nat → Builder → List Nat → Builder × List Nat
  | 0, b, queue => (b, queue)
  | _ + 1, b, [] => (b, [])
  | fuel + 1, b, node :: queue =>
      let (b, queue) := b.expandFile fragments node queue
      walk fuel b queue

/-- `walk_root`: each file is queued at most once, so as many steps as files do. -/
def walkRoot (b : Builder) (file : Nat) : Nat × Builder :=
  let (root, b) := b.newNode file [] none none
  let b := { b with fileNode := b.fileNode.set file (some root) }
  (root, (walk fragments (fragments.length + 1) b [root]).1)

/-! The walk queues a file only when it is first reached, so its steps never run out. -/

/-- How many files no walk has reached. -/
def unreached (b : Builder) : Nat := b.fileNode.countP Option.isNone

@[simp] theorem fileNode_newNode (b : Builder) (file : Nat) (scope : Str) (parent root : Option Nat) :
    (b.newNode file scope parent root).2.fileNode = b.fileNode := rfl

@[simp] theorem fileNode_nameChild (b : Builder) (parent : Nat) (name : Str) (child : Nat) :
    (b.nameChild parent name child).fileNode = b.fileNode := rfl

theorem countP_isNone_set {files : List (Option Nat)} {i : Nat} (node : Nat) (hi : i < files.length)
    (hnone : (files[i]?).join = none) :
    (files.set i (some node)).countP Option.isNone + 1 = files.countP Option.isNone := by
  induction files generalizing i with
  | nil => simp at hi
  | cons f files ih =>
      cases i with
      | zero =>
          have hf : f = none := by simpa using hnone
          simp [hf]
      | succ i =>
          have hrest := ih (i := i) (by simpa using hi) (by simpa using hnone)
          rw [List.set_cons_succ, List.countP_cons, List.countP_cons]
          omega

variable {fragments}

theorem fileIndex_lt {path : Str} {i : Nat} (h : fileIndex fragments path = some i) :
    i < fragments.length := by
  unfold fileIndex at h
  obtain ⟨f, hf, rfl⟩ := Option.map_eq_some_iff.mp h
  have hmem := List.mem_reverse.mp (List.mem_of_find?_eq_some hf)
  exact (List.mem_zipIdx' hmem).1

/-- A declaration names a file of the build or none. -/
theorem target_lt {b : Builder} {file root t : Nat} {decl : Decl} (h : (match decl.path with
      | some literal => literal.bind fun l => b.attributeFile fragments file decl.scope l root
      | none => b.moduleFile fragments file decl.scope decl.name root) = some t) :
    t < fragments.length := by
  split at h
  · obtain ⟨l, -, hl⟩ := Option.bind_eq_some_iff.mp h
    unfold attributeFile at hl
    dsimp only at hl
    split at hl
    · cases hl
    · obtain ⟨path, -, hpath⟩ := Option.bind_eq_some_iff.mp hl
      exact fileIndex_lt hpath
  · unfold moduleFile at h
    dsimp only at h
    split at h
    · rename_i hflat _
      exact fileIndex_lt (hflat.trans h)
    · rename_i hnested
      exact fileIndex_lt (hnested.trans h)
    · cases h

/-- What walking may change: nothing is queued but a file just reached. -/
structure Walked (fragments : Fragments) (before after : Builder × List Nat) : Prop where
  files : after.1.fileNode.length = before.1.fileNode.length
  spent : after.2.length + after.1.unreached = before.2.length + before.1.unreached

theorem walked_declaredFile {b : Builder} (queue : List Nat) (file : Nat) (decl : Decl)
    (parent root : Nat) (hlen : b.fileNode.length = fragments.length) :
    Walked fragments (b, queue) (b.declaredFile fragments queue file decl parent root).2 := by
  unfold declaredFile
  dsimp only
  split
  · exact ⟨rfl, rfl⟩
  · rename_i target heq
    split
    · exact ⟨rfl, rfl⟩
    · rename_i hnone
      have hlt : target < b.fileNode.length := hlen ▸ target_lt heq
      have hcount := countP_isNone_set b.tree.nodes.length hlt hnone
      refine ⟨by simp, ?_⟩
      show (queue ++ [b.tree.nodes.length]).length +
          (b.fileNode.set target (some b.tree.nodes.length)).countP Option.isNone =
        queue.length + b.fileNode.countP Option.isNone
      rw [List.length_append, List.length_singleton]
      omega

theorem walked_expandItem (file root : Nat) {acc : Builder × List Nat} (item : RsItem)
    (hlen : acc.1.fileNode.length = fragments.length) :
    Walked fragments acc (expandItem fragments file root acc item) := by
  obtain ⟨b, queue⟩ := acc
  unfold expandItem
  dsimp only
  split
  · exact ⟨rfl, rfl⟩
  · rename_i parent _
    split
    · generalize hdecl : Decl.mk _ _ _ = decl
      have hwalked := walked_declaredFile queue file decl parent root hlen
      split
      · rename_i heq
        rw [heq] at hwalked
        exact ⟨hwalked.files, hwalked.spent⟩
      · rename_i heq
        rw [heq] at hwalked
        exact hwalked
    · exact ⟨rfl, rfl⟩

theorem walked_expandFile {b : Builder} (node : Nat) (queue : List Nat)
    (hlen : b.fileNode.length = fragments.length) :
    Walked fragments (b, queue) (b.expandFile fragments node queue) := by
  unfold expandFile
  dsimp only
  generalize (fragment fragments (b.tree.node node).file).items.filter _ = mods
  have hfold : ∀ acc : Builder × List Nat, acc.1.fileNode.length = fragments.length →
      Walked fragments acc
        (mods.foldl (expandItem fragments (b.tree.node node).file (b.tree.node node).root) acc) := by
    induction mods with
    | nil => exact fun acc _ => ⟨rfl, rfl⟩
    | cons item mods ih =>
        intro acc hacc
        have hitem := walked_expandItem (b.tree.node node).file (b.tree.node node).root item hacc
        have hrest := ih _ (hitem.files.trans hacc)
        exact ⟨hrest.files.trans hitem.files, hrest.spent.trans hitem.spent⟩
  exact hfold (b, queue) hlen

/-- **The walk ends.** With a step for every waiting and every unreached file, nothing is
left in the queue. -/
theorem walk_drained {fuel : Nat} {b : Builder} {queue : List Nat}
    (hlen : b.fileNode.length = fragments.length) (hfuel : queue.length + b.unreached ≤ fuel) :
    (walk fragments fuel b queue).2 = [] := by
  induction fuel generalizing b queue with
  | zero =>
      have hnil : queue.length = 0 := by omega
      exact List.length_eq_zero_iff.mp hnil
  | succ fuel ih =>
      cases queue with
      | nil => rfl
      | cons node queue =>
          have hwalked := walked_expandFile node queue hlen
          have hspent := hwalked.spent
          rw [List.length_cons] at hfuel
          dsimp only at hspent
          show (walk fragments fuel (b.expandFile fragments node queue).1
            (b.expandFile fragments node queue).2).2 = []
          exact ih (hwalked.files.trans hlen) (by omega)

theorem walkRoot_drained {b : Builder} {file : Nat} (hlen : b.fileNode.length = fragments.length) :
    let (root, b) := b.newNode file [] none none
    (walk fragments (fragments.length + 1)
      { b with fileNode := b.fileNode.set file (some root) } [root]).2 = [] := by
  apply walk_drained
  · simpa using hlen
  · have hle : ∀ files : List (Option Nat), files.countP Option.isNone ≤ files.length :=
      fun files => List.countP_le_length
    have hcount := hle (b.fileNode.set file (some b.tree.nodes.length))
    rw [List.length_set, hlen] at hcount
    show 1 + (b.fileNode.set file (some b.tree.nodes.length)).countP Option.isNone ≤ _
    omega

end Builder

/-- A root to walk and, for a root that can name its package's library, the library. -/
abbrev DeclaredRoot := Nat × Option (Str × Nat)

def byPath (files : List Nat) : List Nat :=
  files.insertionSort fun a b => filePath fragments a ≤ filePath fragments b

def reachesLib : RootKind → Bool
  | .bin | .test | .example | .bench => true
  | .lib | .build => false

def declaredRoots (crates : Option RustCrates) : List DeclaredRoot :=
  match crates with
  | none =>
      let named := (List.range fragments.length).filter fun i =>
        let base := (Builder.dirAndBase (filePath fragments i)).2
        base == "lib.rs".toList || base == "main.rs".toList
      (byPath fragments named).map fun r => (r, none)
  | some crates =>
      crates.flatMap fun package =>
        let libFile := (package.roots.find? fun r => r.kind = .lib).bind fun r =>
          fileIndex fragments r.file
        package.roots.filterMap fun root =>
          (fileIndex fragments root.file).map fun file =>
            let lib := match reachesLib root.kind, package.lib, libFile with
              | true, some name, some lib => some (name, lib)
              | _, _, _ => none
            (file, lib)

/-- One declared root; its library is recorded by file until every root is walked. -/
def walkDeclared (b : Builder) (root : DeclaredRoot) : Builder :=
  if (b.reached root.1).isSome then b
  else
    let (node, b) := b.walkRoot fragments root.1
    match root.2 with
    | none => b
    | some lib => { b with tree := { b.tree with externLib := (node, lib) :: b.tree.externLib } }

/-- `resolve_externs`. -/
def resolveExterns (b : Builder) : Builder :=
  { b with tree := { b.tree with
    externLib := b.tree.externLib.filterMap fun (root, name, libFile) =>
      (b.reached libFile).map fun node => (root, name, node) } }

def walkOrphan (b : Builder) (file : Nat) : Builder :=
  if (b.reached file).isSome then b else (b.walkRoot fragments file).2

/-- `modtree::build`. -/
def build (crates : Option RustCrates) : ModTree :=
  let start : Builder :=
    { tree := ⟨[], [], []⟩
      fileNode := List.replicate fragments.length none
      pathOwned := List.replicate fragments.length false }
  let declared := (declaredRoots fragments crates).foldl (walkDeclared fragments) start
  let linked := resolveExterns declared
  ((byPath fragments (List.range fragments.length)).foldl (walkOrphan fragments) linked).tree

end Build

end Devscout.Rust
