/-
# Devscout.Rust.GlobCache -- lookups through globs, remembered until a leaf changes

A walk over glob targets is remembered under its root, namespace and name: what it found,
whether it met an opaque glob, and the modules it consulted. The next lookup with that key
takes all three from memory. The globs themselves are no part of the key, because a root
has one set of them; nor is what the leaves resolve to, because the two loops that resolve
leaves forget every walk when one of them changes.

So over any run of lookups and changes, the answers are those of walks made afresh.
-/

import Devscout.Lib.Memo
import Devscout.Rust.Bind

namespace Devscout.Rust

open Lib

/-! ## Remembered lookups -/

/-- Where a lookup through globs starts. -/
inductive GlobRoot where
  | module (module : Nat)
  | block (file block : Nat)
  deriving DecidableEq

structure GlobKey where
  root : GlobRoot
  ns : Ns
  name : Str
  deriving DecidableEq

/-- What is found, what is opaque and the probes, under each key. -/
abbrev GlobCache := Memo.Table GlobKey Globbed Nat

abbrev Cached := Memo.Remembering GlobKey Globbed Nat

namespace Tables

variable (t : Tables) (resolved : List Bound)

/-- The globs that a caller hands over with a root. -/
def globsOf : GlobRoot → List Nat
  | .module m => t.moduleGlobs m
  | .block file b => t.blockGlobs file b

/-- The walk of a key. -/
def globWalkOf (key : GlobKey) : Logged Nat Globbed :=
  t.throughGlobs resolved (t.globsOf key.root) key.name key.ns

/-- `through_globs`. -/
def cachedGlobs (root : GlobRoot) (name : Str) (ns : Ns) : Cached Globbed :=
  Memo.recalled (t.globWalkOf resolved) ⟨root, ns, name⟩

/-- `in_module`. -/
def cachedInModule (module : Nat) (name : Str) (ns : Ns) (isImport : Bool) :
    Cached (Option (List Target)) := do
  match ← StateT.lift (t.explicit resolved module name ns) with
  | .found v => pure (some v)
  | .shadowed => pure (some [])
  | .empty =>
      if t.isOpaque module then pure (if isImport then none else some [])
      else
        let g ← t.cachedGlobs resolved (.module module) name ns
        pure (globbed g isImport)

/-- `in_blocks`, from a block on. A block without globs is not looked up. -/
def cachedInBlocksFrom (file : Nat) (name : Str) (ns : Ns) (isImport : Bool) :
    Nat → Option Nat → Cached (Option (List Target))
  | 0, _ => pure none
  | _ + 1, none => pure none
  | fuel + 1, some b =>
      let outer := cachedInBlocksFrom file name ns isImport fuel (((t.blockParent.getD file [])[b]?).join)
      match level [] (t.blockNamed file b name) resolved ns with
      | .found v => pure (some v)
      | .shadowed => pure (some [])
      | .empty =>
          if (t.blockGlobs file b).isEmpty then outer
          else do
            let g ← t.cachedGlobs resolved (.block file b) name ns
            match globbed g isImport with
            | some v => pure (some v)
            | none => outer

def cachedInBlocks (file : Nat) (block : Option Nat) (name : Str) (ns : Ns) (isImport : Bool) :
    Cached (Option (List Target)) :=
  t.cachedInBlocksFrom resolved file name ns isImport ((t.blockParent.getD file []).length + 1) block

/-! ## Each stands for the lookup made afresh -/

theorem cachedGlobs_standsFor (root : GlobRoot) (name : Str) (ns : Ns) :
    Memo.StandsFor (t.globWalkOf resolved) (t.cachedGlobs resolved root name ns)
      (t.throughGlobs resolved (t.globsOf root) name ns) := by
  show Memo.StandsFor _ (Memo.recalled _ _) (t.globWalkOf resolved ⟨root, ns, name⟩)
  exact Memo.standsFor_recalled _

theorem cachedInModule_standsFor (module : Nat) (name : Str) (ns : Ns) (isImport : Bool) :
    Memo.StandsFor (t.globWalkOf resolved) (t.cachedInModule resolved module name ns isImport)
      (t.inModule resolved module name ns isImport) := by
  refine (Memo.standsFor_lift _).bind fun found => ?_
  cases found with
  | found v => exact Memo.standsFor_pure _
  | shadowed => exact Memo.standsFor_pure _
  | empty =>
      show Memo.StandsFor _ (if t.isOpaque module then _ else _) (if t.isOpaque module then _ else _)
      by_cases hopaque : t.isOpaque module = true
      · rw [if_pos hopaque, if_pos hopaque]
        exact Memo.standsFor_pure _
      · rw [if_neg hopaque, if_neg hopaque]
        exact (t.cachedGlobs_standsFor resolved (.module module) name ns).bind
          fun g => Memo.standsFor_pure _

/-- No globs give nothing and consult nothing. -/
theorem throughGlobs_nil (name : Str) (ns : Ns) :
    t.throughGlobs resolved [] name ns = pure ⟨[], false⟩ := by
  show t.globWalk resolved name ns t.size [] [] ⟨[], false⟩ = _
  cases t.size <;> rfl

theorem cachedInBlocksFrom_standsFor (file : Nat) (name : Str) (ns : Ns) (isImport : Bool)
    (fuel : Nat) (block : Option Nat) :
    Memo.StandsFor (t.globWalkOf resolved)
      (t.cachedInBlocksFrom resolved file name ns isImport fuel block)
      (t.inBlocksFrom resolved file name ns isImport fuel block) := by
  induction fuel generalizing block with
  | zero => exact Memo.standsFor_pure _
  | succ fuel ih =>
      cases block with
      | none => exact Memo.standsFor_pure _
      | some b =>
          have houter := ih (((t.blockParent.getD file [])[b]?).join)
          rw [cachedInBlocksFrom, inBlocksFrom]
          cases level [] (t.blockNamed file b name) resolved ns with
          | found v => exact Memo.standsFor_pure _
          | shadowed => exact Memo.standsFor_pure _
          | empty =>
              dsimp only
              by_cases hglobs : (t.blockGlobs file b).isEmpty = true
              · -- the lookup made afresh walks no globs here, and finds nothing
                rw [if_pos hglobs, List.isEmpty_iff.mp hglobs, t.throughGlobs_nil resolved]
                exact houter
              · rw [if_neg hglobs]
                refine (t.cachedGlobs_standsFor resolved (.block file b) name ns).bind fun g => ?_
                cases globbed g isImport with
                | some v => exact Memo.standsFor_pure _
                | none => exact houter

theorem cachedInBlocks_standsFor (file : Nat) (block : Option Nat) (name : Str) (ns : Ns)
    (isImport : Bool) :
    Memo.StandsFor (t.globWalkOf resolved) (t.cachedInBlocks resolved file block name ns isImport)
      (t.inBlocks resolved file block name ns isImport) :=
  t.cachedInBlocksFrom_standsFor resolved file name ns isImport _ block

end Tables

/-! ## Runs -/

/-- A lookup: through the globs of a root, or one of the two that make such lookups. -/
inductive Query where
  | globs (root : GlobRoot) (name : Str) (ns : Ns)
  | inModule (module : Nat) (name : Str) (ns : Ns) (isImport : Bool)
  | inBlocks (file : Nat) (block : Option Nat) (name : Str) (ns : Ns) (isImport : Bool)

inductive Answer where
  | globs (g : Globbed)
  | targets (found : Option (List Target))

namespace Query

variable (t : Tables) (resolved : List Bound)

def cached : Query → Cached Answer
  | .globs root name ns => do
      let g ← t.cachedGlobs resolved root name ns
      pure (.globs g)
  | .inModule module name ns isImport => do
      let found ← t.cachedInModule resolved module name ns isImport
      pure (.targets found)
  | .inBlocks file block name ns isImport => do
      let found ← t.cachedInBlocks resolved file block name ns isImport
      pure (.targets found)

/-- The lookup with every walk made afresh from the bindings as they are. -/
def afresh : Query → Logged Nat Answer
  | .globs root name ns => do
      let g ← t.throughGlobs resolved (t.globsOf root) name ns
      pure (.globs g)
  | .inModule module name ns isImport => do
      let found ← t.inModule resolved module name ns isImport
      pure (.targets found)
  | .inBlocks file block name ns isImport => do
      let found ← t.inBlocks resolved file block name ns isImport
      pure (.targets found)

theorem cached_standsFor (q : Query) :
    Memo.StandsFor (t.globWalkOf resolved) (q.cached t resolved) (q.afresh t resolved) := by
  cases q with
  | globs root name ns =>
      exact (t.cachedGlobs_standsFor resolved root name ns).bind fun _ => Memo.standsFor_pure _
  | inModule module name ns isImport =>
      exact (t.cachedInModule_standsFor resolved module name ns isImport).bind
        fun _ => Memo.standsFor_pure _
  | inBlocks file block name ns isImport =>
      exact (t.cachedInBlocks_standsFor resolved file block name ns isImport).bind
        fun _ => Memo.standsFor_pure _

end Query

/-- What the two loops do between changes of the tables: a lookup, or the result of a leaf. -/
inductive Op where
  | ask (q : Query)
  | assign (leaf : Nat) (result : Bound)

/-- The bindings so far and the remembered walks. -/
structure Memory where
  resolved : List Bound
  cache : GlobCache

/-- A leaf's result in the bindings, unless it is there already. -/
def assignLeaf (resolved : List Bound) (leaf : Nat) (result : Bound) : List Bound :=
  if result = resolved.getD leaf {} then resolved else resolved.set leaf result

/-- `resolve_leaves` and `resolve_block_leaves`: a result that is new is kept, and every
remembered walk is forgotten. -/
def Memory.assign (s : Memory) (leaf : Nat) (result : Bound) : Memory :=
  if result = s.resolved.getD leaf {} then s else ⟨s.resolved.set leaf result, []⟩

/-- The answers of a run, each with the modules it consulted. -/
def answers (t : Tables) : Memory → List Op → List (Logged Nat Answer)
  | _, [] => []
  | s, .ask q :: ops =>
      Memo.answer (q.cached t s.resolved) s.cache ::
        answers t ⟨s.resolved, (q.cached t s.resolved s.cache).value.2⟩ ops
  | s, .assign leaf result :: ops => answers t (s.assign leaf result) ops

/-- The same without any memory. -/
def answersAfresh (t : Tables) : List Bound → List Op → List (Logged Nat Answer)
  | _, [] => []
  | resolved, .ask q :: ops => q.afresh t resolved :: answersAfresh t resolved ops
  | resolved, .assign leaf result :: ops => answersAfresh t (assignLeaf resolved leaf result) ops

/-- The remembered walks are those of the bindings as they are. -/
def Memory.Coherent (t : Tables) (s : Memory) : Prop := Memo.Current (t.globWalkOf s.resolved) s.cache

theorem Memory.Coherent.assign {t : Tables} {s : Memory} (h : s.Coherent t) (leaf : Nat)
    (result : Bound) : (s.assign leaf result).Coherent t ∧
      (s.assign leaf result).resolved = assignLeaf s.resolved leaf result := by
  by_cases hsame : result = s.resolved.getD leaf {}
  · rw [Memory.assign, assignLeaf, if_pos hsame, if_pos hsame]
    exact ⟨h, rfl⟩
  · -- new bindings may change any walk, and none is remembered
    rw [Memory.assign, assignLeaf, if_neg hsame, if_neg hsame]
    exact ⟨Memo.current_nil, rfl⟩

theorem answers_of_coherent (t : Tables) {s : Memory} (h : s.Coherent t) (ops : List Op) :
    answers t s ops = answersAfresh t s.resolved ops := by
  -- over the operations; what carries it is that the memory is coherent
  induction ops generalizing s with
  | nil => rfl
  | cons op ops ih =>
      cases op with
      | ask q =>
          have hstands := q.cached_standsFor t s.resolved
          obtain ⟨-, -, hcurrent⟩ := hstands s.cache h
          rw [answers, answersAfresh, hstands.answer_eq h]
          exact congrArg _ (ih hcurrent)
      | assign leaf result =>
          obtain ⟨hcoherent, hresolved⟩ := h.assign leaf result
          rw [answers, answersAfresh, ih hcoherent, hresolved]

/-- **The memory does not show.** Every lookup of a run, whatever leaves changed before it,
finds the same targets in the same order, is opaque alike and consults the same modules as
with its walks made afresh from the bindings of that moment. -/
theorem answers_eq_afresh (t : Tables) (resolved : List Bound) (ops : List Op) :
    answers t ⟨resolved, []⟩ ops = answersAfresh t resolved ops := by
  have hcoherent : Memory.Coherent t ⟨resolved, []⟩ := Memo.current_nil
  exact answers_of_coherent t hcoherent ops

end Devscout.Rust
