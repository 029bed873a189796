/-
# Devscout.Rust.WellFormed -- what the module tree is like when it is built

Every loop of the build ends, every file has one node of its own, and parents lead up to the
root that a node names. The tree is looked up two ways: by the path a module has in its file,
where the last node filed stays, and by the name its parent calls it, where the first one
stays. The two agree on an inline module as long as no `mod` item before it has its place and
its name; of two inline modules of one name only the first is reached by name.
-/

import Devscout.Rust.ModTree

namespace Devscout.Rust

open Lib Text

namespace Builder

/-! ## Adding and naming nodes -/

section Primitives

variable {b : Builder} {file parent child n : Nat} {scope name s : Str} {up root : Option Nat} {f : Nat}

@[simp] theorem length_newNode :
    (b.newNode file scope up root).2.tree.nodes.length = b.tree.nodes.length + 1 := by
  simp [newNode]

theorem length_le_newNode :
    b.tree.nodes.length ≤ (b.newNode file scope up root).2.tree.nodes.length := by
  rw [length_newNode]
  omega

theorem node_newNode : (b.newNode file scope up root).2.tree.node n =
    if n = b.tree.nodes.length then ⟨file, up, root.getD b.tree.nodes.length, []⟩ else b.tree.node n := by
  show (b.tree.nodes ++ [_]).getD n _ = _
  unfold ModTree.node
  rw [List.getD_eq_getElem?_getD, List.getD_eq_getElem?_getD, List.getElem?_append]
  by_cases hlt : n < b.tree.nodes.length
  · rw [if_pos hlt, if_neg (by omega)]
  · rw [if_neg hlt]
    by_cases heq : n = b.tree.nodes.length
    · subst heq
      simp
    · have hgt : 1 ≤ n - b.tree.nodes.length := by omega
      rw [if_neg heq, List.getElem?_eq_none (by simpa using hgt),
        List.getElem?_eq_none (Nat.le_of_not_lt hlt)]

theorem nodeOf_newNode : (b.newNode file scope up root).2.tree.nodeOf f s =
    if f = file ∧ s = scope then some b.tree.nodes.length else b.tree.nodeOf f s := by
  show List.lookup (f, s) (((file, scope), b.tree.nodes.length) :: b.tree.byScope) = _
  rw [List.lookup_cons]
  by_cases h : f = file ∧ s = scope
  · obtain ⟨rfl, rfl⟩ := h
    simp
  · rw [if_neg h]
    have hne : ((f, s) == (file, scope)) = false := by
      rw [beq_eq_false_iff_ne]
      exact fun heq => h (Prod.mk.inj heq)
    rw [hne]
    rfl

@[simp] theorem length_nameChild : (b.nameChild parent name child).tree.nodes.length = b.tree.nodes.length := by
  simp [nameChild]

@[simp] theorem nodeOf_nameChild : (b.nameChild parent name child).tree.nodeOf f s = b.tree.nodeOf f s := rfl

theorem node_nameChild : (b.nameChild parent name child).tree.node n =
    if n = parent ∧ n < b.tree.nodes.length ∧ (b.tree.node n).children.lookup name = none then
      { b.tree.node n with children := (name, child) :: (b.tree.node n).children }
    else b.tree.node n := by
  show (b.tree.nodes.modify parent _).getD n _ = _
  unfold ModTree.node
  rw [List.getD_eq_getElem?_getD, List.getD_eq_getElem?_getD, List.getElem?_modify]
  by_cases hlt : n < b.tree.nodes.length
  · rw [List.getElem?_eq_getElem hlt]
    by_cases heq : n = parent
    · subst heq
      cases hname : (b.tree.nodes[n].children.lookup name) with
      | none => simp [hlt, hname]
      | some c => simp [hname]
    · have hne : parent ≠ n := fun h => heq h.symm
      simp [heq, hne]
  · rw [List.getElem?_eq_none (Nat.le_of_not_lt hlt)]
    simp [hlt]

@[simp] theorem place_nameChild : ((b.nameChild parent name child).tree.node n).file = (b.tree.node n).file ∧
    ((b.nameChild parent name child).tree.node n).parent = (b.tree.node n).parent ∧
    ((b.nameChild parent name child).tree.node n).root = (b.tree.node n).root := by
  rw [node_nameChild]
  split
  · exact ⟨rfl, rfl, rfl⟩
  · exact ⟨rfl, rfl, rfl⟩

/-- A name that is taken stays with the child that has it. -/
theorem lookup_nameChild_of_some {c : Nat} (h : (b.tree.node n).children.lookup s = some c) :
    ((b.nameChild parent name child).tree.node n).children.lookup s = some c := by
  rw [node_nameChild]
  split
  · rename_i hfree
    have hne : s ≠ name := by
      rintro rfl
      rw [hfree.2.2] at h
      cases h
    show List.lookup s ((name, child) :: _) = some c
    rw [List.lookup_cons, beq_eq_false_iff_ne.mpr hne]
    exact h
  · exact h

theorem lookup_nameChild (hlt : parent < b.tree.nodes.length)
    (hfree : (b.tree.node parent).children.lookup name = none) :
    ((b.nameChild parent name child).tree.node parent).children.lookup name = some child := by
  rw [node_nameChild, if_pos ⟨rfl, hlt, hfree⟩]
  show List.lookup name ((name, child) :: _) = some child
  rw [List.lookup_cons, beq_self_eq_true]

/-- Only the parent gains a name, and only the one that was asked for. -/
theorem lookup_of_nameChild (h : ((b.nameChild parent name child).tree.node n).children.lookup s ≠ none) :
    (b.tree.node n).children.lookup s ≠ none ∨ (n = parent ∧ s = name) := by
  rw [node_nameChild] at h
  split at h
  · rename_i hat
    by_cases hs : s = name
    · exact Or.inr ⟨hat.1, hs⟩
    · refine Or.inl fun hnone => h ?_
      show List.lookup s ((name, child) :: _) = none
      rw [List.lookup_cons, beq_eq_false_iff_ne.mpr hs]
      exact hnone
  · exact Or.inl h

end Primitives

/-! ## The shape of the tree -/

/-- A file's own node: a root, or a module declared in another file. -/
def IsFileNode (tree : ModTree) (n : Nat) : Prop :=
  ∀ p, (tree.node n).parent = some p → (tree.node p).file ≠ (tree.node n).file

/-- Parents come before their children and share their root, and a node is filed once. -/
structure Formed (tree : ModTree) : Prop where
  parent : ∀ n < tree.nodes.length, ∀ p, (tree.node n).parent = some p →
    p < n ∧ (tree.node n).root = (tree.node p).root
  root : ∀ n < tree.nodes.length, (tree.node n).parent = none → (tree.node n).root = n
  filed : ∀ f s n, tree.nodeOf f s = some n → n < tree.nodes.length ∧ (tree.node n).file = f
  apart : ∀ f s s' n, tree.nodeOf f s = some n → tree.nodeOf f s' = some n → s = s'

/-- What holds between any two steps of the build. -/
structure Shaped (fragments : Fragments) (b : Builder) : Prop extends Formed b.tree where
  files : b.fileNode.length = fragments.length
  reached : ∀ f n, b.reached f = some n →
    n < b.tree.nodes.length ∧ (b.tree.node n).file = f ∧ IsFileNode b.tree n
  fileNode : ∀ n < b.tree.nodes.length, IsFileNode b.tree n → b.reached (b.tree.node n).file = some n
  unreached : ∀ f s, b.reached f = none → b.tree.nodeOf f s = none

section Shape

variable {fragments : Fragments} {b : Builder} {file parent child n f : Nat} {scope name : Str}
  {up root : Option Nat}

theorem isFileNode_nameChild : IsFileNode (b.nameChild parent name child).tree n ↔ IsFileNode b.tree n := by
  unfold IsFileNode
  simp only [place_nameChild.1, place_nameChild.2.1]

theorem Formed.nameChild (h : Formed b.tree) : Formed (b.nameChild parent name child).tree where
  parent n hn p hp := by
    rw [length_nameChild] at hn
    rw [place_nameChild.2.1] at hp
    rw [place_nameChild.2.2, place_nameChild.2.2]
    exact h.parent n hn p hp
  root n hn hp := by
    rw [length_nameChild] at hn
    rw [place_nameChild.2.1] at hp
    rw [place_nameChild.2.2]
    exact h.root n hn hp
  filed f s n hn := by
    rw [length_nameChild, place_nameChild.1]
    exact h.filed f s n hn
  apart := h.apart

theorem Shaped.nameChild (h : Shaped fragments b) : Shaped fragments (b.nameChild parent name child) where
  toFormed := h.toFormed.nameChild
  files := h.files
  reached f n hn := by
    rw [length_nameChild, place_nameChild.1, isFileNode_nameChild]
    exact h.reached f n hn
  fileNode n hn hnode := by
    rw [length_nameChild] at hn
    rw [place_nameChild.1]
    exact h.fileNode n hn (isFileNode_nameChild.mp hnode)
  unreached := h.unreached

/-- The nodes that were there are as they were. -/
theorem node_newNode_of_lt (hlt : n < b.tree.nodes.length) :
    (b.newNode file scope up root).2.tree.node n = b.tree.node n := by
  rw [node_newNode, if_neg (Nat.ne_of_lt hlt)]

theorem node_newNode_self : (b.newNode file scope up root).2.tree.node b.tree.nodes.length =
    ⟨file, up, root.getD b.tree.nodes.length, []⟩ := by
  rw [node_newNode, if_pos rfl]

theorem Formed.newNode (h : Formed b.tree)
    (hup : ∀ p, up = some p → p < b.tree.nodes.length ∧ root = some (b.tree.node p).root)
    (hroot : up = none → root = none) : Formed (b.newNode file scope up root).2.tree where
  parent n hn p hp := by
    rcases Nat.lt_succ_iff_lt_or_eq.mp (length_newNode ▸ hn) with hlt | rfl
    · rw [node_newNode_of_lt hlt] at hp
      obtain ⟨hpn, hsame⟩ := h.parent n hlt p hp
      rw [node_newNode_of_lt hlt, node_newNode_of_lt (hpn.trans hlt)]
      exact ⟨hpn, hsame⟩
    · rw [node_newNode_self] at hp
      obtain ⟨hpn, rfl⟩ := hup p hp
      rw [node_newNode_self, node_newNode_of_lt hpn]
      exact ⟨hpn, rfl⟩
  root n hn hp := by
    rcases Nat.lt_succ_iff_lt_or_eq.mp (length_newNode ▸ hn) with hlt | rfl
    · rw [node_newNode_of_lt hlt] at hp
      rw [node_newNode_of_lt hlt]
      exact h.root n hlt hp
    · rw [node_newNode_self] at hp
      rw [node_newNode_self, hroot hp]
      rfl
  filed f s n hn := by
    rw [nodeOf_newNode] at hn
    rw [length_newNode]
    split at hn
    · rename_i hat
      cases hn
      rw [node_newNode_self]
      exact ⟨Nat.lt_succ_self _, hat.1.symm⟩
    · obtain ⟨hlt, hf⟩ := h.filed f s n hn
      rw [node_newNode_of_lt hlt]
      exact ⟨Nat.lt_succ_of_lt hlt, hf⟩
  apart f s s' n hn hn' := by
    have hold : ∀ s, b.tree.nodeOf f s = some b.tree.nodes.length → False := by
      intro s hs
      exact Nat.lt_irrefl _ (h.filed f s _ hs).1
    rw [nodeOf_newNode] at hn hn'
    split at hn
    · rename_i hat
      split at hn'
      · rename_i hat'
        exact hat.2.trans hat'.2.symm
      · cases hn
        exact absurd hn' (hold s')
    · split at hn'
      · cases hn'
        exact absurd hn (hold s)
      · exact h.apart f s s' n hn hn'

theorem isFileNode_newNode_of_lt (h : Formed b.tree) (hlt : n < b.tree.nodes.length) :
    IsFileNode (b.newNode file scope up root).2.tree n ↔ IsFileNode b.tree n := by
  unfold IsFileNode
  rw [node_newNode_of_lt hlt]
  refine forall_congr' fun p => forall_congr' fun hp => ?_
  rw [node_newNode_of_lt ((h.parent n hlt p hp).1.trans hlt)]

theorem isFileNode_newNode_self (hup : ∀ p, up = some p → p < b.tree.nodes.length) :
    IsFileNode (b.newNode file scope up root).2.tree b.tree.nodes.length ↔
      ∀ p, up = some p → (b.tree.node p).file ≠ file := by
  unfold IsFileNode
  rw [node_newNode_self]
  refine forall_congr' fun p => forall_congr' fun hp => ?_
  rw [node_newNode_of_lt (hup p hp)]

/-- An inline module of a file that is placed. -/
theorem Shaped.inlineNode (h : Shaped fragments b) (hlt : parent < b.tree.nodes.length)
    (hfile : (b.tree.node parent).file = file) (hplaced : b.reached file ≠ none) :
    Shaped fragments (b.newNode file scope (some parent) (some (b.tree.node parent).root)).2 where
  toFormed := by
    refine h.toFormed.newNode ?_ (fun hnone => by cases hnone)
    rintro p hp
    cases hp
    exact ⟨hlt, rfl⟩
  files := h.files
  reached f n hn := by
    obtain ⟨hn', hf, hnode⟩ := h.reached f n hn
    rw [length_newNode, node_newNode_of_lt hn']
    exact ⟨Nat.lt_succ_of_lt hn', hf, (isFileNode_newNode_of_lt h.toFormed hn').mpr hnode⟩
  fileNode n hn hnode := by
    rcases Nat.lt_succ_iff_lt_or_eq.mp (length_newNode ▸ hn) with hn' | rfl
    · rw [node_newNode_of_lt hn']
      exact h.fileNode n hn' ((isFileNode_newNode_of_lt h.toFormed hn').mp hnode)
    · have hother := (isFileNode_newNode_self fun p hp => by cases hp; exact hlt).mp hnode
      exact absurd hfile (hother parent rfl)
  unreached f s hf := by
    rw [nodeOf_newNode, if_neg fun hat : f = file ∧ s = scope => hplaced (hat.1 ▸ hf)]
    exact h.unreached f s hf

/-- A file is given a node and marked as reached. -/
def place (b : Builder) (file : Nat) (up root : Option Nat) (owned : List Bool) : Builder :=
  { (b.newNode file [] up root).2 with
    fileNode := b.fileNode.set file (some b.tree.nodes.length)
    pathOwned := owned }

theorem reached_place {owned : List Bool} (hlt : file < b.fileNode.length) :
    (b.place file up root owned).reached f = if f = file then some b.tree.nodes.length else b.reached f := by
  show ((b.fileNode.set file _)[f]?).join = _
  rw [List.getElem?_set]
  by_cases heq : f = file
  · subst heq
    simp [hlt]
  · have hne : file ≠ f := fun h => heq h.symm
    rw [if_neg hne, if_neg heq]
    rfl

/-- A file that no step has reached. -/
theorem Shaped.place {owned : List Bool} (h : Shaped fragments b) (hfile : file < fragments.length)
    (hnew : b.reached file = none)
    (hup : ∀ p, up = some p → p < b.tree.nodes.length ∧ root = some (b.tree.node p).root)
    (hroot : up = none → root = none)
    (hother : ∀ p, up = some p → (b.tree.node p).file ≠ file) :
    Shaped fragments (b.place file up root owned) where
  toFormed := h.toFormed.newNode hup hroot
  files := by
    show (b.fileNode.set file _).length = _
    rw [List.length_set, h.files]
  reached f n hn := by
    rw [reached_place (h.files ▸ hfile)] at hn
    show n < (b.newNode file [] up root).2.tree.nodes.length ∧
      ((b.newNode file [] up root).2.tree.node n).file = f ∧
      IsFileNode (b.newNode file [] up root).2.tree n
    rw [length_newNode]
    split at hn
    · rename_i heq
      cases hn
      refine ⟨Nat.lt_succ_self _, ?_, (isFileNode_newNode_self fun p hp => (hup p hp).1).mpr hother⟩
      rw [node_newNode_self]
      exact heq.symm
    · obtain ⟨hn', hf, hnode⟩ := h.reached f n hn
      rw [node_newNode_of_lt hn']
      exact ⟨Nat.lt_succ_of_lt hn', hf, (isFileNode_newNode_of_lt h.toFormed hn').mpr hnode⟩
  fileNode n hn hnode := by
    rw [reached_place (h.files ▸ hfile)]
    change n < (b.newNode file [] up root).2.tree.nodes.length at hn
    change IsFileNode (b.newNode file [] up root).2.tree n at hnode
    show (if ((b.newNode file [] up root).2.tree.node n).file = file then _ else
      b.reached ((b.newNode file [] up root).2.tree.node n).file) = _
    rcases Nat.lt_succ_iff_lt_or_eq.mp (length_newNode ▸ hn) with hn' | rfl
    · rw [node_newNode_of_lt hn']
      have hreached := h.fileNode n hn' ((isFileNode_newNode_of_lt h.toFormed hn').mp hnode)
      rw [if_neg, hreached]
      rintro heq
      rw [heq, hnew] at hreached
      cases hreached
    · rw [node_newNode_self, if_pos rfl]
  unreached f s hf := by
    rw [reached_place (h.files ▸ hfile)] at hf
    show (b.newNode file [] up root).2.tree.nodeOf f s = none
    split at hf
    · cases hf
    · rename_i hne
      rw [nodeOf_newNode, if_neg fun hat : f = file ∧ s = [] => hne hat.1]
      exact h.unreached f s hf

end Shape

/-! ## Where the two lookups agree -/

/-- Where a `mod` item of a file sits. -/
def scopeOf (item : RsItem) : Str := (splitLast item.path).1

theorem rsplitColons_eq_some {path a c : Str} (h : rsplitColons path = some (a, c)) :
    path = a ++ ':' :: ':' :: c := by
  induction path generalizing a c with
  | nil => cases h
  | cons x rest ih =>
      rw [rsplitColons] at h
      cases hrest : rsplitColons rest with
      | some ac =>
          rw [hrest] at h
          cases h
          rw [ih hrest]
          rfl
      | none =>
          rw [hrest] at h
          dsimp only at h
          split at h
          · rename_i hat
            obtain ⟨rfl, hhead⟩ := hat
            cases h
            cases rest with
            | nil => cases hhead
            | cons y rest =>
                cases hhead
                rfl
          · cases h

/-- A module does not sit in itself. -/
theorem scopeOf_ne_path {item : RsItem} (h : item.path ≠ []) : scopeOf item ≠ item.path := by
  unfold scopeOf splitLast
  cases hsplit : rsplitColons item.path with
  | none => exact fun heq => h heq.symm
  | some ac =>
      obtain ⟨a, c⟩ := ac
      intro heq
      have hlen := congrArg List.length (rsplitColons_eq_some hsplit)
      rw [← heq] at hlen
      simp at hlen

section Agreement

variable (fragments : Fragments) (file : Nat)

/-- The `mod` items of a file, in order. -/
def modItems : List RsItem := (fragment fragments file).items.filter fun i => i.kind = .mod_

/-- What the extractor sees to: no two items of a file share a path, none has an empty one,
and a module comes before what sits in it. -/
structure Recorded (mods : List RsItem) : Prop where
  distinct : mods.Pairwise fun i j => i.path ≠ j.path
  outerFirst : mods.Pairwise fun i j => j.path ≠ scopeOf i
  named : ∀ i ∈ mods, i.path ≠ []

/-- No item so far has the place and the name. -/
def FirstOfName (before : List RsItem) (item : RsItem) : Prop :=
  ∀ i ∈ before, scopeOf i = scopeOf item → i.name ≠ item.name

/-- The node filed for a module is the one its parent calls by its name. -/
def Agree (tree : ModTree) (item : RsItem) : Prop :=
  ∀ parent, tree.nodeOf file (scopeOf item) = some parent →
    ∃ child, tree.nodeOf file item.path = some child ∧
      (tree.node parent).children.lookup item.name = some child

/-- The items done so far of a file: all names come from them, and the lookups agree. -/
structure Expanded (tree : ModTree) (done : List RsItem) : Prop where
  names : ∀ s n name, tree.nodeOf file s = some n → (tree.node n).children.lookup name ≠ none →
    ∃ i ∈ done, scopeOf i = s ∧ i.name = name
  agree : ∀ pre item post, done = pre ++ item :: post → item.path ∉ (fragment fragments file).modFiles →
    FirstOfName pre item → Agree file tree item

/-- Nothing about a file has changed. -/
structure SameFile (tree tree' : ModTree) : Prop where
  nodeOf : ∀ s, tree'.nodeOf file s = tree.nodeOf file s
  node : ∀ n < tree.nodes.length, (tree.node n).file = file → tree'.node n = tree.node n

variable {fragments file} {tree tree' : ModTree} {done rest : List RsItem} {item : RsItem}

theorem Expanded.congr (h : Expanded fragments file tree done) (hformed : Formed tree)
    (hsame : SameFile file tree tree') : Expanded fragments file tree' done where
  names s n name hn hname := by
    rw [hsame.nodeOf] at hn
    obtain ⟨hlt, hf⟩ := hformed.filed file s n hn
    rw [hsame.node n hlt hf] at hname
    exact h.names s n name hn hname
  agree pre item post hdone hinline hfirst parent hparent := by
    rw [hsame.nodeOf] at hparent ⊢
    obtain ⟨hlt, hf⟩ := hformed.filed file _ parent hparent
    rw [hsame.node parent hlt hf]
    exact h.agree pre item post hdone hinline hfirst parent hparent

/-- One item more: what was filed and named stays, and only the item's own name is new. -/
theorem Expanded.snoc (h : Expanded fragments file tree done)
    (hrecorded : Recorded (done ++ item :: rest))
    (hscope : ∀ s, s ≠ item.path → tree'.nodeOf file s = tree.nodeOf file s)
    (hkeep : ∀ s n name c, tree.nodeOf file s = some n → (tree.node n).children.lookup name = some c →
      (tree'.node n).children.lookup name = some c)
    (hnames : ∀ s n name, tree'.nodeOf file s = some n → (tree'.node n).children.lookup name ≠ none →
      (tree.nodeOf file s = some n ∧ (tree.node n).children.lookup name ≠ none) ∨
        (scopeOf item = s ∧ item.name = name))
    (hitem : item.path ∉ (fragment fragments file).modFiles → FirstOfName done item →
      Agree file tree' item) : Expanded fragments file tree' (done ++ [item]) where
  names s n name hn hname := by
    rcases hnames s n name hn hname with ⟨hold, hname'⟩ | hnew
    · obtain ⟨i, hi, hrest⟩ := h.names s n name hold hname'
      exact ⟨i, List.mem_append_left _ hi, hrest⟩
    · exact ⟨item, List.mem_append_right _ (List.mem_singleton_self _), hnew⟩
  agree pre i post hdone hinline hfirst := by
    rcases List.eq_nil_or_concat post with rfl | ⟨post, last, rfl⟩
    · obtain ⟨rfl, heq⟩ := List.append_inj' hdone rfl
      cases heq
      exact hitem hinline hfirst
    · have hdone' : done ++ [item] = (pre ++ i :: post) ++ [last] := by
        rw [hdone]
        simp
      obtain ⟨rfl, heq⟩ := List.append_inj' hdone' rfl
      have hi : i ∈ pre ++ i :: post := List.mem_append_right _ List.mem_cons_self
      have hpath : i.path ≠ item.path :=
        (List.pairwise_append.mp hrecorded.distinct).2.2 i hi item List.mem_cons_self
      have hsits : scopeOf i ≠ item.path := fun heq =>
        (List.pairwise_append.mp hrecorded.outerFirst).2.2 i hi item List.mem_cons_self heq.symm
      intro parent hparent
      rw [hscope _ hsits] at hparent
      obtain ⟨child, hchild, hname⟩ := h.agree pre i post rfl hinline hfirst parent hparent
      exact ⟨child, (hscope _ hpath).trans hchild, hkeep _ _ _ _ hparent hname⟩

end Agreement

/-! ## Expanding one file -/

section Expansion

variable {fragments : Fragments} {file root parent child n f : Nat} {b b' : Builder} {queue : List Nat}
  {done rest : List RsItem} {item : RsItem} {name scope : Str} {up up' : Option Nat} {owned : List Bool}

/-- A file that waits to be expanded: all that is filed for it is its own node, without
children. -/
structure Waiting (b : Builder) (n : Nat) : Prop where
  lt : n < b.tree.nodes.length
  reached : b.reached (b.tree.node n).file = some n
  alone : ∀ s m, b.tree.nodeOf (b.tree.node n).file s = some m → m = n
  bare : (b.tree.node n).children = []

/-- Everything but the file at hand: the others wait or have been expanded. -/
structure Others (fragments : Fragments) (file : Nat) (b : Builder) (queue : List Nat) : Prop where
  shaped : Shaped fragments b
  placed : b.reached file ≠ none
  waiting : ∀ n ∈ queue, Waiting b n ∧ (b.tree.node n).file ≠ file
  nodup : queue.Nodup
  settled : ∀ g n, b.reached g = some n → g ≠ file → n ∉ queue → Recorded (modItems fragments g) →
    Expanded fragments g b.tree (modItems fragments g)

/-- A waiting file is not touched by what leaves it as it is. -/
theorem Waiting.congr (h : Waiting b n) (hsame : SameFile (b.tree.node n).file b.tree b'.tree)
    (hlen : b.tree.nodes.length ≤ b'.tree.nodes.length)
    (hreached : b'.reached (b.tree.node n).file = some n) :
    Waiting b' n ∧ (b'.tree.node n).file = (b.tree.node n).file := by
  have hnode := hsame.node n h.lt rfl
  refine
    ⟨⟨h.lt.trans_le hlen, by rw [hnode]; exact hreached, ?_, by rw [hnode]; exact h.bare⟩,
      by rw [hnode]⟩
  intro s m hm
  rw [hnode, hsame.nodeOf] at hm
  exact h.alone s m hm

theorem sameFile_nameChild (hparent : (b.tree.node parent).file = file) (hne : f ≠ file) :
    SameFile f b.tree (b.nameChild parent name child).tree where
  nodeOf s := rfl
  node n hlt hf := by
    rw [node_nameChild, if_neg]
    rintro ⟨rfl, -⟩
    exact hne (hf.symm.trans hparent)

theorem sameFile_newNode (hne : f ≠ file) : SameFile f b.tree (b.newNode file scope up up').2.tree where
  nodeOf s := by rw [nodeOf_newNode, if_neg fun hat : f = file ∧ s = scope => hne hat.1]
  node n hlt hf := node_newNode_of_lt hlt

theorem sameFile_place (hne : f ≠ file) : SameFile f b.tree (b.place file up up' owned).tree :=
  ⟨(sameFile_newNode hne).nodeOf, (sameFile_newNode hne).node⟩

theorem length_le_place : b.tree.nodes.length ≤ (b.place file up up' owned).tree.nodes.length :=
  length_le_newNode

theorem Others.nameChild (h : Others fragments file b queue) (hparent : (b.tree.node parent).file = file) :
    Others fragments file (b.nameChild parent name child) queue where
  shaped := h.shaped.nameChild
  placed := h.placed
  waiting n hn := by
    obtain ⟨hwaiting, hne⟩ := h.waiting n hn
    obtain ⟨hwaiting', hfile⟩ :=
      hwaiting.congr (sameFile_nameChild hparent hne) (Nat.le_of_eq length_nameChild.symm) hwaiting.reached
    exact ⟨hwaiting', hfile ▸ hne⟩
  nodup := h.nodup
  settled g n hn hne hqueue hrecorded :=
    (h.settled g n hn hne hqueue hrecorded).congr h.shaped.toFormed (sameFile_nameChild hparent hne)

theorem Others.inlineNode (h : Others fragments file b queue) (hlt : parent < b.tree.nodes.length)
    (hparent : (b.tree.node parent).file = file) :
    Others fragments file (b.newNode file scope (some parent) (some (b.tree.node parent).root)).2 queue where
  shaped := h.shaped.inlineNode hlt hparent h.placed
  placed := h.placed
  waiting n hn := by
    obtain ⟨hwaiting, hne⟩ := h.waiting n hn
    obtain ⟨hwaiting', hfile⟩ :=
      hwaiting.congr (sameFile_newNode hne) length_le_newNode hwaiting.reached
    exact ⟨hwaiting', hfile ▸ hne⟩
  nodup := h.nodup
  settled g n hn hne hqueue hrecorded :=
    (h.settled g n hn hne hqueue hrecorded).congr h.shaped.toFormed (sameFile_newNode hne)

theorem node_place_self : (b.place file up up' owned).tree.node b.tree.nodes.length =
    ⟨file, up, up'.getD b.tree.nodes.length, []⟩ := node_newNode_self

/-- A file reached for the first time waits. -/
theorem waiting_place (h : Shaped fragments b) (hfile : file < fragments.length)
    (hnew : b.reached file = none) : Waiting (b.place file up up' owned) b.tree.nodes.length where
  lt := by
    show _ < (b.newNode file [] up up').2.tree.nodes.length
    rw [length_newNode]
    omega
  reached := by rw [node_place_self, reached_place (h.files ▸ hfile), if_pos rfl]
  alone s m hm := by
    rw [node_place_self] at hm
    change (b.newNode file [] up up').2.tree.nodeOf file s = some m at hm
    rw [nodeOf_newNode, h.unreached file s hnew] at hm
    split at hm
    · exact (Option.some.inj hm).symm
    · cases hm
  bare := by rw [node_place_self]

theorem Others.place {target : Nat} (h : Others fragments file b queue) (htarget : target < fragments.length)
    (hnew : b.reached target = none) (hlt : parent < b.tree.nodes.length)
    (hparent : (b.tree.node parent).file = file) :
    Others fragments file (b.place target (some parent) (some (b.tree.node parent).root) owned)
      (queue ++ [b.tree.nodes.length]) := by
  have hother : ∀ g n, b.reached g = some n → g ≠ target := by
    rintro g n hn rfl
    rw [hnew] at hn
    cases hn
  have hne : file ≠ target := by
    obtain ⟨n, hn⟩ := Option.ne_none_iff_exists'.mp h.placed
    exact hother file n hn
  have hreached : ∀ g, (b.place target (some parent) (some (b.tree.node parent).root) owned).reached g =
      if g = target then some b.tree.nodes.length else b.reached g :=
    fun g => reached_place (h.shaped.files ▸ htarget)
  constructor
  · refine h.shaped.place htarget hnew ?_ (fun hnone => by cases hnone) ?_
    · rintro p hp
      cases hp
      exact ⟨hlt, rfl⟩
    · rintro p hp
      cases hp
      exact hparent ▸ hne
  · rw [hreached, if_neg hne]
    exact h.placed
  · intro n hn
    rcases List.mem_append.mp hn with hn | hn
    · obtain ⟨hwaiting, hfile⟩ := h.waiting n hn
      have hold := hother _ _ hwaiting.reached
      have hkept : (b.place target (some parent) (some (b.tree.node parent).root) owned).reached
          (b.tree.node n).file = some n := by
        rw [hreached, if_neg hold]
        exact hwaiting.reached
      obtain ⟨hwaiting', hfile'⟩ := hwaiting.congr (sameFile_place hold) length_le_place hkept
      exact ⟨hwaiting', hfile' ▸ hfile⟩
    · obtain rfl := List.mem_singleton.mp hn
      refine ⟨waiting_place h.shaped htarget hnew, ?_⟩
      rw [node_place_self]
      exact hne.symm
  · refine List.nodup_append.mpr ⟨h.nodup, List.nodup_singleton _, ?_⟩
    intro n hn m hm heq
    have hlt' := (h.waiting n hn).1.lt
    rw [heq, List.mem_singleton.mp hm] at hlt'
    exact Nat.lt_irrefl _ hlt'
  · intro g n hn hg hqueue hrecorded
    rw [hreached] at hn
    split at hn
    · cases hn
      exact absurd (List.mem_append_right _ (List.mem_singleton_self _)) hqueue
    · rename_i hgt
      have hold := h.settled g n hn hg (fun hmem => hqueue (List.mem_append_left _ hmem)) hrecorded
      exact hold.congr h.shaped.toFormed (sameFile_place hgt)

/-- A declaration reaches nothing, a file reached before, or a new one, which is placed. -/
theorem declaredFile_cases (b : Builder) (queue : List Nat) (file : Nat) (decl : Decl) (parent root : Nat) :
    b.declaredFile fragments queue file decl parent root = (none, b, queue) ∨
    (∃ child, b.declaredFile fragments queue file decl parent root = (some child, b, queue)) ∨
    ∃ target < fragments.length, b.reached target = none ∧
      b.declaredFile fragments queue file decl parent root =
        (some b.tree.nodes.length,
          b.place target (some parent) (some root) (b.pathOwned.set target decl.path.isSome),
          queue ++ [b.tree.nodes.length]) := by
  unfold declaredFile
  dsimp only
  split
  · exact Or.inl rfl
  · rename_i target htarget
    split
    · rename_i existing _
      exact Or.inr (Or.inl ⟨existing, rfl⟩)
    · rename_i hnew
      exact Or.inr (Or.inr ⟨target, target_lt htarget, hnew, rfl⟩)

/-- A file in the middle of its expansion, some of its items done. -/
structure Expanding (fragments : Fragments) (file root : Nat) (done : List RsItem)
    (acc : Builder × List Nat) : Prop where
  others : Others fragments file acc.1 acc.2
  rooted : ∀ s n, acc.1.tree.nodeOf file s = some n → (acc.1.tree.node n).root = root
  expanded : Recorded (modItems fragments file) → Expanded fragments file acc.1.tree done

/-- Nothing is done for an item that sits nowhere or declares a file that is not there. -/
theorem Expanded.skip {tree : ModTree} (h : Expanded fragments file tree done)
    (hrecorded : Recorded (done ++ item :: rest))
    (hitem : item.path ∉ (fragment fragments file).modFiles → tree.nodeOf file (scopeOf item) = none) :
    Expanded fragments file tree (done ++ [item]) := by
  refine h.snoc hrecorded (fun s _ => rfl) (fun s n name c _ => id) ?_ ?_
  · exact fun s n name hn hname => Or.inl ⟨hn, hname⟩
  · intro hinline _ parent hparent
    rw [hitem hinline] at hparent
    cases hparent

/-- A declared file gets its name, in a tree where nothing else about the file changed. -/
theorem Expanded.declared (h : Expanded fragments file b.tree done) (hformed : Formed b.tree)
    (hrecorded : Recorded (done ++ item :: rest)) (hdeclared : item.path ∈ (fragment fragments file).modFiles)
    (hparent : b.tree.nodeOf file (scopeOf item) = some parent) (hsame : SameFile file b.tree b'.tree) :
    Expanded fragments file (b'.nameChild parent item.name child).tree (done ++ [item]) := by
  have hnode : ∀ s n, b.tree.nodeOf file s = some n → b'.tree.node n = b.tree.node n := by
    intro s n hn
    obtain ⟨hlt, hf⟩ := hformed.filed file s n hn
    exact hsame.node n hlt hf
  refine h.snoc hrecorded ?_ ?_ ?_ ?_
  · intro s _
    exact hsame.nodeOf s
  · intro s n name c hn hname
    refine lookup_nameChild_of_some ?_
    rw [hnode s n hn]
    exact hname
  · intro s n name hn hname
    have hn' : b.tree.nodeOf file s = some n := (hsame.nodeOf s).symm.trans hn
    rcases lookup_of_nameChild hname with hname | ⟨rfl, rfl⟩
    · rw [hnode s n hn'] at hname
      exact Or.inl ⟨hn', hname⟩
    · exact Or.inr ⟨hformed.apart file _ _ _ hparent hn', rfl⟩
  · exact fun hinline => absurd hdeclared hinline

/-- An inline module is filed and named. -/
theorem Expanded.inline (h : Expanded fragments file b.tree done) (hformed : Formed b.tree)
    (hrecorded : Recorded (done ++ item :: rest)) (hparent : b.tree.nodeOf file (scopeOf item) = some parent) :
    Expanded fragments file
      ((b.newNode file item.path (some parent) up).2.nameChild parent item.name b.tree.nodes.length).tree
      (done ++ [item]) := by
  have hne : scopeOf item ≠ item.path :=
    scopeOf_ne_path (hrecorded.named item (List.mem_append_right _ List.mem_cons_self))
  have hscope : ∀ s, s ≠ item.path →
      (b.newNode file item.path (some parent) up).2.tree.nodeOf file s = b.tree.nodeOf file s := by
    intro s hs
    rw [nodeOf_newNode, if_neg fun hat : file = file ∧ s = item.path => hs hat.2]
  have hnode : ∀ s n, b.tree.nodeOf file s = some n →
      (b.newNode file item.path (some parent) up).2.tree.node n = b.tree.node n :=
    fun s n hn => node_newNode_of_lt (hformed.filed file s n hn).1
  refine h.snoc hrecorded ?_ ?_ ?_ ?_
  · exact hscope
  · intro s n name c hn hname
    refine lookup_nameChild_of_some ?_
    rw [hnode s n hn]
    exact hname
  · intro s n name hn hname
    rw [nodeOf_nameChild] at hn
    by_cases hs : s = item.path
    · -- the new node has no children, and it is not its own parent
      rw [hs, nodeOf_newNode, if_pos ⟨rfl, rfl⟩] at hn
      cases hn
      rcases lookup_of_nameChild hname with hname | ⟨heq, -⟩
      · rw [node_newNode_self] at hname
        exact absurd rfl hname
      · exact absurd (hformed.filed file _ _ hparent).1 (by omega)
    · rw [hscope s hs] at hn
      rcases lookup_of_nameChild hname with hname | ⟨rfl, rfl⟩
      · rw [hnode s n hn] at hname
        exact Or.inl ⟨hn, hname⟩
      · exact Or.inr ⟨hformed.apart file _ _ _ hparent hn, rfl⟩
  · intro _ hfirst parent' hparent'
    rw [nodeOf_nameChild, hscope _ hne] at hparent'
    obtain rfl : parent = parent' := Option.some.inj (hparent.symm.trans hparent')
    refine ⟨b.tree.nodes.length, ?_, ?_⟩
    · rw [nodeOf_nameChild, nodeOf_newNode, if_pos ⟨rfl, rfl⟩]
    · have hlt := (hformed.filed file _ _ hparent).1
      refine lookup_nameChild (hlt.trans_le length_le_newNode) ?_
      rw [hnode _ _ hparent]
      by_contra htaken
      obtain ⟨i, hi, hscope', hname⟩ := h.names _ _ _ hparent htaken
      exact hfirst i hi hscope' hname

/-- **One item.** It is filed, named, or passed over, and the file is that much further. -/
theorem expanding_expandItem {acc : Builder × List Nat} (h : Expanding fragments file root done acc)
    (hmods : modItems fragments file = done ++ item :: rest) :
    Expanding fragments file root (done ++ [item]) (expandItem fragments file root acc item) := by
  obtain ⟨b, queue⟩ := acc
  have hformed := h.others.shaped.toFormed
  unfold expandItem
  dsimp only
  rw [show (splitLast item.path).1 = scopeOf item from rfl]
  cases hparent : b.tree.nodeOf file (scopeOf item) with
  | none =>
      refine ⟨h.others, h.rooted, fun hrecorded => ?_⟩
      exact (h.expanded hrecorded).skip (hmods ▸ hrecorded) fun _ => hparent
  | some parent =>
      obtain ⟨hlt, hfile⟩ := hformed.filed file _ _ hparent
      have hroot : (b.tree.node parent).root = root := h.rooted _ _ hparent
      dsimp only
      by_cases hdeclared : item.path ∈ (fragment fragments file).modFiles
      · rw [if_pos hdeclared]
        generalize hdecl : Decl.mk _ _ _ = decl
        rcases @declaredFile_cases fragments b queue file decl parent root with
          heq | ⟨child, heq⟩ | ⟨target, htarget, hnew, heq⟩
        · rw [heq]
          refine ⟨h.others, h.rooted, fun hrecorded => ?_⟩
          exact (h.expanded hrecorded).skip (hmods ▸ hrecorded) fun hinline => absurd hdeclared hinline
        · rw [heq]
          refine ⟨h.others.nameChild hfile, fun s n hn => ?_, fun hrecorded => ?_⟩
          · rw [place_nameChild.2.2]
            exact h.rooted s n hn
          · exact (h.expanded hrecorded).declared hformed (hmods ▸ hrecorded) hdeclared hparent
              ⟨fun s => rfl, fun n _ _ => rfl⟩
        · rw [heq, ← hroot]
          have hne : file ≠ target := by
            rintro rfl
            exact h.others.placed hnew
          have hsame : SameFile file b.tree (b.place target (some parent) (some (b.tree.node parent).root)
              (b.pathOwned.set target decl.path.isSome)).tree := sameFile_place hne
          refine ⟨(h.others.place htarget hnew hlt hfile).nameChild ?_, fun s n hn => ?_, fun hrecorded => ?_⟩
          · rw [hsame.node parent hlt hfile]
            exact hfile
          · rw [nodeOf_nameChild, hsame.nodeOf] at hn
            obtain ⟨hn', hf⟩ := hformed.filed file s n hn
            rw [place_nameChild.2.2, hsame.node n hn' hf, hroot]
            exact h.rooted s n hn
          · exact (h.expanded hrecorded).declared hformed (hmods ▸ hrecorded) hdeclared hparent hsame
      · rw [if_neg hdeclared, ← hroot]
        have hplaced : (b.newNode file item.path (some parent) (some (b.tree.node parent).root)).2.tree.node
            parent = b.tree.node parent := node_newNode_of_lt hlt
        refine ⟨(h.others.inlineNode hlt hfile).nameChild (by rw [hplaced]; exact hfile), fun s n hn => ?_,
          fun hrecorded => ?_⟩
        · change (b.newNode file item.path (some parent) (some (b.tree.node parent).root)).2.tree.nodeOf file s =
            some n at hn
          show (((b.newNode file item.path (some parent) (some (b.tree.node parent).root)).2.nameChild parent
            item.name b.tree.nodes.length).tree.node n).root = _
          rw [place_nameChild.2.2]
          rw [nodeOf_newNode] at hn
          split at hn
          · cases hn
            rw [node_newNode_self]
            rfl
          · rw [node_newNode_of_lt (hformed.filed file s n hn).1, hroot]
            exact h.rooted s n hn
        · exact (h.expanded hrecorded).inline hformed (hmods ▸ hrecorded) hparent

theorem expanding_foldl {acc : Builder × List Nat} (h : Expanding fragments file root done acc)
    (hmods : modItems fragments file = done ++ rest) :
    Expanding fragments file root (modItems fragments file)
      (rest.foldl (expandItem fragments file root) acc) := by
  induction rest generalizing done acc with
  | nil =>
      rw [hmods, List.append_nil]
      exact h
  | cons item rest ih => exact ih (expanding_expandItem h hmods) (by rw [hmods]; simp)

/-- Between two files of a walk: what was reached waits or has been expanded. -/
structure Walking (fragments : Fragments) (b : Builder) (queue : List Nat) : Prop where
  shaped : Shaped fragments b
  waiting : ∀ n ∈ queue, Waiting b n
  nodup : queue.Nodup
  settled : ∀ g n, b.reached g = some n → n ∉ queue → Recorded (modItems fragments g) →
    Expanded fragments g b.tree (modItems fragments g)

/-- **One file.** -/
theorem walking_expandFile {node : Nat} (h : Walking fragments b (node :: queue)) :
    Walking fragments (b.expandFile fragments node queue).1 (b.expandFile fragments node queue).2 := by
  have hnode := h.waiting node List.mem_cons_self
  obtain ⟨hfresh, hnodup⟩ := List.nodup_cons.mp h.nodup
  have hstart : Expanding fragments (b.tree.node node).file (b.tree.node node).root [] (b, queue) := by
    refine ⟨⟨h.shaped, ?_, ?_, hnodup, ?_⟩, ?_, ?_⟩
    · rw [hnode.reached]
      exact Option.some_ne_none node
    · intro n hn
      have hwaiting := h.waiting n (List.mem_cons_of_mem node hn)
      refine ⟨hwaiting, fun heq => hfresh ?_⟩
      rw [show node = n from Option.some.inj (hnode.reached.symm.trans (heq ▸ hwaiting.reached))]
      exact hn
    · intro g n hn hg hqueue
      refine h.settled g n hn fun hmem => ?_
      rcases List.mem_cons.mp hmem with rfl | hmem
      · exact hg (h.shaped.reached g n hn).2.1.symm
      · exact hqueue hmem
    · intro s n hn
      rw [hnode.alone s n hn]
    · refine fun _ => ⟨fun s n name hn hname => ?_, fun pre item post hnil => ?_⟩
      · rw [hnode.alone s n hn, hnode.bare] at hname
        exact absurd rfl hname
      · exact absurd hnil (by simp)
  have hdone := expanding_foldl hstart (List.nil_append _).symm
  refine ⟨hdone.others.shaped, fun n hn => (hdone.others.waiting n hn).1, hdone.others.nodup, ?_⟩
  intro g n hn hqueue hrecorded
  by_cases hg : g = (b.tree.node node).file
  · subst hg
    exact hdone.expanded hrecorded
  · exact hdone.others.settled g n hn hg hqueue hrecorded

theorem walking_walk {fuel : Nat} (h : Walking fragments b queue) :
    Walking fragments (walk fragments fuel b queue).1 (walk fragments fuel b queue).2 := by
  induction fuel generalizing b queue with
  | zero => exact h
  | succ fuel ih =>
      cases queue with
      | nil => exact h
      | cons node queue => exact ih (walking_expandFile h)

/-- **One root.** Its walk ends with nothing waiting. -/
theorem walking_walkRoot (h : Walking fragments b []) (hfile : file < fragments.length)
    (hnew : b.reached file = none) : Walking fragments (b.walkRoot fragments file).2 [] := by
  have hstart : Walking fragments (b.place file none none b.pathOwned) [b.tree.nodes.length] := by
    refine ⟨?_, ?_, List.nodup_singleton _, ?_⟩
    · refine h.shaped.place hfile hnew ?_ (fun _ => rfl) ?_
      · rintro p hp
        cases hp
      · rintro p hp
        cases hp
    · intro n hn
      rw [List.mem_singleton.mp hn]
      exact waiting_place h.shaped hfile hnew
    · intro g n hn hqueue hrecorded
      rw [reached_place (h.shaped.files ▸ hfile)] at hn
      split at hn
      · cases hn
        exact absurd (List.mem_singleton_self _) hqueue
      · rename_i hg
        exact (h.settled g n hn (by simp) hrecorded).congr h.shaped.toFormed (sameFile_place hg)
  have hdone := @walking_walk fragments _ _ (fragments.length + 1) hstart
  rwa [show (walk fragments (fragments.length + 1) (b.place file none none b.pathOwned)
    [b.tree.nodes.length]).2 = [] from walkRoot_drained h.shaped.files] at hdone

/-! ## What was reached stays -/

/-- No file loses its node. -/
def Kept (b b' : Builder) : Prop := ∀ f n, b.reached f = some n → b'.reached f = some n

theorem kept_place (hnew : b.reached file = none) : Kept b (b.place file up up' owned) := by
  intro f n hn
  have hne : file ≠ f := by
    rintro rfl
    rw [hnew] at hn
    cases hn
  show ((b.fileNode.set file _)[f]?).join = some n
  rw [List.getElem?_set_ne hne]
  exact hn

theorem kept_expandItem {acc : Builder × List Nat} :
    Kept acc.1 (expandItem fragments file root acc item).1 := by
  obtain ⟨b, queue⟩ := acc
  unfold expandItem
  dsimp only
  split
  · exact fun f n => id
  · rename_i parent _
    split
    · generalize Decl.mk _ _ _ = decl
      rcases @declaredFile_cases fragments b queue file decl parent root with
        heq | ⟨child, heq⟩ | ⟨target, -, hnew, heq⟩
      · rw [heq]
        exact fun f n => id
      · rw [heq]
        exact fun f n => id
      · rw [heq]
        have hkept : Kept b (b.place target (some parent) (some root)
            (b.pathOwned.set target decl.path.isSome)) := kept_place hnew
        exact hkept
    · exact fun f n => id

theorem kept_walk {fuel : Nat} : Kept b (walk fragments fuel b queue).1 := by
  induction fuel generalizing b queue with
  | zero => exact fun f n => id
  | succ fuel ih =>
      cases queue with
      | nil => exact fun f n => id
      | cons node queue =>
          have hfold : ∀ (mods : List RsItem) (acc : Builder × List Nat), Kept acc.1
              (mods.foldl (expandItem fragments (b.tree.node node).file (b.tree.node node).root) acc).1 := by
            intro mods
            induction mods with
            | nil => exact fun acc f n => id
            | cons item mods ihm => exact fun acc f n h => ihm _ f n (kept_expandItem f n h)
          exact fun f n h => ih f n (hfold _ (b, queue) f n h)

/-- A walk from a root places the root's file. -/
theorem kept_walkRoot (hnew : b.reached file = none) : Kept b (b.walkRoot fragments file).2 :=
  fun f n h => kept_walk f n (kept_place hnew f n h)

theorem reached_walkRoot (hlt : file < b.fileNode.length) :
    (b.walkRoot fragments file).2.reached file = some b.tree.nodes.length := by
  refine kept_walk (b := b.place file none none b.pathOwned) file _ ?_
  rw [reached_place hlt, if_pos rfl]

/-! ## The loops as the source has them -/

/-- The loop of a root's walk, with no bound on its turns, ends in `b'`. -/
inductive Loop (fragments : Fragments) : Builder → List Nat → Builder → Prop
  | done (b : Builder) : Loop fragments b [] b
  | next {b b' : Builder} {node : Nat} {queue : List Nat}
      (h : Loop fragments (b.expandFile fragments node queue).1 (b.expandFile fragments node queue).2 b') :
      Loop fragments b (node :: queue) b'

theorem loop_walk {fuel : Nat} (h : (walk fragments fuel b queue).2 = []) :
    Loop fragments b queue (walk fragments fuel b queue).1 := by
  induction fuel generalizing b queue with
  | zero =>
      obtain rfl : queue = [] := h
      exact .done b
  | succ fuel ih =>
      cases queue with
      | nil => exact .done b
      | cons node queue => exact .next (ih h)

end Expansion

end Builder

/-! ## The whole build -/

section Built

variable {fragments : Fragments} {crates : Option RustCrates} {b : Builder} {file n : Nat}

open Builder

/-- The states a build goes through from root to root. -/
inductive Building (fragments : Fragments) (crates : Option RustCrates) : Builder → Prop
  | start : Building fragments crates ⟨⟨[], [], []⟩, List.replicate fragments.length none,
      List.replicate fragments.length false⟩
  | declared {b : Builder} {root : DeclaredRoot} (h : Building fragments crates b)
      (hroot : root ∈ declaredRoots fragments crates) :
      Building fragments crates (walkDeclared fragments b root)
  | linked {b : Builder} (h : Building fragments crates b) : Building fragments crates (resolveExterns b)
  | orphan {b : Builder} {file : Nat} (h : Building fragments crates b) (hfile : file < fragments.length) :
      Building fragments crates (walkOrphan fragments b file)

theorem mem_byPath {files : List Nat} : n ∈ byPath fragments files ↔ n ∈ files :=
  (List.perm_insertionSort _ files).mem_iff

theorem declaredRoots_lt {root : DeclaredRoot} (h : root ∈ declaredRoots fragments crates) :
    root.1 < fragments.length := by
  unfold declaredRoots at h
  split at h
  · obtain ⟨n, hn, rfl⟩ := List.mem_map.mp h
    exact List.mem_range.mp (List.mem_filter.mp (mem_byPath.mp hn)).1
  · obtain ⟨package, -, h⟩ := List.mem_flatMap.mp h
    obtain ⟨r, -, hr⟩ := List.mem_filterMap.mp h
    obtain ⟨f, hf, rfl⟩ := Option.map_eq_some_iff.mp hr
    exact fileIndex_lt hf

theorem reached_start {tree : ModTree} {k : Nat} {owned : List Bool} {f : Nat} :
    (Builder.mk tree (List.replicate k none) owned).reached f = none := by
  show ((List.replicate k none)[f]?).join = none
  rw [List.getElem?_replicate]
  split <;> rfl

/-- Which library a root reaches by name is no part of the shape. -/
theorem Builder.Walking.extern (h : Walking fragments b []) (lib : List (Nat × (Str × Nat))) :
    Walking fragments { b with tree := { b.tree with externLib := lib } } [] where
  shaped :=
    { parent := h.shaped.parent, root := h.shaped.root, filed := h.shaped.filed, apart := h.shaped.apart
      files := h.shaped.files, reached := h.shaped.reached, fileNode := h.shaped.fileNode
      unreached := h.shaped.unreached }
  waiting n hn := by cases hn
  nodup := List.nodup_nil
  settled g n hn hqueue hrecorded :=
    ⟨(h.settled g n hn hqueue hrecorded).names, (h.settled g n hn hqueue hrecorded).agree⟩

theorem walking_of_building (h : Building fragments crates b) : Walking fragments b [] := by
  induction h with
  | start =>
      refine ⟨⟨⟨?_, ?_, ?_, ?_⟩, by simp, ?_, ?_, fun f s _ => rfl⟩, fun n hn => (by cases hn), List.nodup_nil, ?_⟩
      · exact fun n hn => absurd hn (Nat.not_lt_zero n)
      · exact fun n hn => absurd hn (Nat.not_lt_zero n)
      · intro f s n hn
        cases hn
      · intro f s s' n hn
        cases hn
      · intro f n hn
        exact absurd hn (by rw [reached_start]; simp)
      · exact fun n hn => absurd hn (Nat.not_lt_zero n)
      · intro g n hn
        exact absurd hn (by rw [reached_start]; simp)
  | @declared b root _ hroot ih =>
      unfold walkDeclared
      split
      · exact ih
      · rename_i hnew
        have hwalked := walking_walkRoot ih (declaredRoots_lt hroot) (by simpa using hnew)
        dsimp only
        split
        · exact hwalked
        · exact hwalked.extern _
  | linked _ ih => exact ih.extern _
  | orphan _ hfile ih =>
      unfold walkOrphan
      split
      · exact ih
      · rename_i hnew
        exact walking_walkRoot ih hfile (by simpa using hnew)

/-- Every file has a node once its turn as an orphan is over. -/
theorem reached_orphans {files : List Nat} (hfiles : ∀ f ∈ files, f < fragments.length)
    (h : Building fragments crates b) :
    Building fragments crates (files.foldl (walkOrphan fragments) b) ∧
      ∀ f, (f ∈ files ∨ b.reached f ≠ none) →
        (files.foldl (walkOrphan fragments) b).reached f ≠ none := by
  induction files generalizing b with
  | nil => exact ⟨h, fun f hf => hf.resolve_left List.not_mem_nil⟩
  | cons file files ih =>
      have hfile := hfiles file List.mem_cons_self
      obtain ⟨hbuilt, hreached⟩ := ih (fun f hf => hfiles f (List.mem_cons_of_mem file hf)) (h.orphan hfile)
      refine ⟨hbuilt, fun f hf => hreached f ?_⟩
      have hone : (walkOrphan fragments b file).reached file ≠ none ∧ Kept b (walkOrphan fragments b file) := by
        unfold walkOrphan
        split
        · rename_i hplaced
          exact ⟨Option.isSome_iff_ne_none.mp hplaced, fun f n => id⟩
        · rename_i hnew
          have hnew' : b.reached file = none := by simpa using hnew
          refine ⟨?_, kept_walkRoot hnew'⟩
          rw [reached_walkRoot ((walking_of_building h).shaped.files ▸ hfile)]
          exact Option.some_ne_none _
      rcases hf with hf | hf
      · rcases List.mem_cons.mp hf with rfl | hf
        · exact Or.inr hone.1
        · exact Or.inl hf
      · obtain ⟨n, hn⟩ := Option.ne_none_iff_exists'.mp hf
        refine Or.inr ?_
        rw [hone.2 f n hn]
        exact Option.some_ne_none n

/-- The tree of a build is that of one of its states, in which every file is reached. -/
theorem exists_building (fragments : Fragments) (crates : Option RustCrates) :
    ∃ b, Building fragments crates b ∧ (build fragments crates) = b.tree ∧
      ∀ f < fragments.length, b.reached f ≠ none := by
  have hdeclared : ∀ (roots : List DeclaredRoot) (b : Builder),
      (∀ r ∈ roots, r ∈ declaredRoots fragments crates) →
      Building fragments crates b → Building fragments crates (roots.foldl (walkDeclared fragments) b) := by
    intro roots
    induction roots with
    | nil => exact fun b _ h => h
    | cons root roots ih =>
        intro b hroots h
        refine ih _ (fun r hr => hroots r (List.mem_cons_of_mem root hr)) ?_
        exact h.declared (hroots root List.mem_cons_self)
  have hlinked := (hdeclared _ _ (fun r => id) .start).linked
  have hplaced : ∀ f ∈ byPath fragments (List.range fragments.length), f < fragments.length :=
    fun f hf => List.mem_range.mp (mem_byPath.mp hf)
  obtain ⟨hbuilt, hreached⟩ := reached_orphans hplaced hlinked
  exact ⟨_, hbuilt, rfl, fun f hf => hreached f (Or.inl (mem_byPath.mpr (List.mem_range.mpr hf)))⟩

/-- Following parents from a node ends at `r`, which has none. -/
inductive Up (tree : ModTree) : Nat → Nat → Prop
  | top {r : Nat} (h : (tree.node r).parent = none) : Up tree r r
  | step {n p r : Nat} (h : (tree.node n).parent = some p) (hup : Up tree p r) : Up tree n r

theorem up_root {tree : ModTree} (h : Formed tree) (hn : n < tree.nodes.length) :
    Up tree n (tree.node n).root := by
  induction n using Nat.strong_induction_on with
  | _ n ih =>
      cases hparent : (tree.node n).parent with
      | none =>
          rw [h.root n hn hparent]
          exact .top hparent
      | some p =>
          obtain ⟨hlt, hroot⟩ := h.parent n hn p hparent
          rw [hroot]
          exact .step hparent (ih p hlt (hlt.trans hn))

/-- A well-formed tree: every file has one node of its own, parents come first and lead up
to the node's root, and the two lookups agree on every inline module that no `mod` item
before it has the place and the name of. -/
structure WellFormed (fragments : Fragments) (tree : ModTree) : Prop where
  placed : ∀ f < fragments.length, ∃ n, (n < tree.nodes.length ∧ (tree.node n).file = f ∧ IsFileNode tree n) ∧
    ∀ m, m < tree.nodes.length → (tree.node m).file = f → IsFileNode tree m → m = n
  parents : ∀ n < tree.nodes.length, ∀ p, (tree.node n).parent = some p → p < n
  roots : ∀ n < tree.nodes.length, Up tree n (tree.node n).root
  agree : ∀ f < fragments.length, Recorded (modItems fragments f) →
    ∀ pre item post, modItems fragments f = pre ++ item :: post →
      item.path ∉ (fragment fragments f).modFiles → FirstOfName pre item → Agree f tree item

end Built

/-! ## Two modules of one name -/

/-- `#[cfg(unix)] mod imp {}` and `#[cfg(not(unix))] mod imp {}`; the second one's path is
recorded with a suffix. -/
def cfgTwice : Fragments :=
  [("lib.rs".toList, { items := [⟨"imp".toList, .mod_, "imp".toList⟩, ⟨"imp".toList, .mod_, "imp-1".toList⟩] })]

end Devscout.Rust
