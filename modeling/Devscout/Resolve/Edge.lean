/-
# Devscout.Resolve.Edge -- edges, and the ledger that counts them

The edges the C# resolver pushes, and the counters it keeps beside them as it goes: one
for each kind of precise edge, one for the guesses with its split by tier, and those of
the compiler overrides. A counter is a machine word: taking more from it than it holds
is a fault.
-/

import Devscout.CSharp.Fragment

namespace Devscout.Resolve

open Lib

structure Candidate where
  id : Str
  file : Str
  deriving DecidableEq

/-- Which tier emitted a guess. -/
inductive HeuristicTier where
  | ext
  | guess
  deriving DecidableEq

/-- Which population a compiler-vouched edge belongs to. -/
inductive SemanticProvenance where
  | semantic
  | semanticDiscovered
  deriving DecidableEq

/-- The kinds of edge a C# resolve pushes. -/
inductive Edge where
  | inherits (fromFile : Str) (fromLine : Nat) (toDef toFile : Str) (heuristic : Bool)
  | usesType (fromFile : Str) (fromLine : Nat) (toDef toFile : Str) (heuristic : Bool)
  | usesMember (fromFile : Str) (fromLine : Nat) (toDef toFile : Str) (heuristic : Bool)
      (tier : Option HeuristicTier) (member : Option Str) (source : Option SemanticProvenance)
      (overloadSignature : Option Str)
  | imports (fromFile : Str) (fromLine : Nat) (target : Str)
  | ambiguous (origin : RefKind) (fromFile : Str) (fromLine : Nat) (raw : Str)
      (candidates : List Candidate) (candidateCount : Nat)
  | ctorDi (fromFile : Str) (fromLine : Nat) (iface resolution : Str) (args : Option (List Str))
      (toDef : Option Str) (candidates : List Candidate)
  | implements (fromFile : Str) (fromLine : Nat) (toDef toFile : Str) (member : Option Str)
  | overrides (fromFile : Str) (fromLine : Nat) (toDef toFile : Str) (member : Option Str)
  | busHop (fromFile : Str) (fromLine : Nat) (message toDef toFile evidence : Str)
  deriving DecidableEq

namespace Edge

/-- `tier`. -/
def tierOf : Edge → Option HeuristicTier
  | usesMember _ _ _ _ _ tier _ _ _ => tier
  | _ => none

/-- `is_heuristic`. -/
def isHeuristic : Edge → Bool
  | inherits _ _ _ _ heuristic => heuristic
  | usesType _ _ _ _ heuristic => heuristic
  | usesMember _ _ _ _ heuristic _ _ _ _ => heuristic
  | _ => false

/-- `provenance`. -/
def provenance : Edge → Option SemanticProvenance
  | usesMember _ _ _ _ _ _ _ source _ => source
  | _ => none

/-- `uses_member`: flagged exactly when tiered. -/
def ofMember (fromFile : Str) (fromLine : Nat) (toDef toFile : Str) (member : Option Str)
    (tier : Option HeuristicTier) : Edge :=
  usesMember fromFile fromLine toDef toFile tier.isSome tier member none none

/-- `uses_member_semantic`: never a guess. -/
def ofMemberSemantic (fromFile : Str) (fromLine : Nat) (toDef toFile : Str) (member : Option Str)
    (provenance : SemanticProvenance) (overloadSignature : Option Str) : Edge :=
  usesMember fromFile fromLine toDef toFile false none member (some provenance) overloadSignature

end Edge

/-! ## Counters -/

structure EdgesByKind where
  inherits : Nat
  usesType : Nat
  imports : Nat
  usesMember : Nat
  ctorDi : Nat
  implements : Nat
  overrides : Nat
  /-- Absent without any hop. -/
  busHop : Option Nat
  deriving DecidableEq

structure HeuristicByTier where
  ext : Nat
  guess : Nat
  deriving DecidableEq

/-- Overrides that fired, and how many displaced another target. -/
structure SemanticDiagnostics where
  confirmed : Nat
  disagreements : Nat
  deriving DecidableEq

structure Ledger where
  edges : List Edge
  edgesByKind : EdgesByKind
  ambiguousCount : Nat
  unresolvedExternal : Nat
  heuristicEdgeCount : Nat
  heuristicByTier : HeuristicByTier
  diag : SemanticDiagnostics

def Ledger.empty : Ledger :=
  ⟨[], ⟨0, 0, 0, 0, 0, 0, 0, none⟩, 0, 0, 0, ⟨0, 0⟩, ⟨0, 0⟩⟩

/-- A subtraction that faults when it would go below zero. -/
def checkedSub (a b : Nat) : Option Nat := if b ≤ a then some (a - b) else none

def HeuristicByTier.takeOne (by_ : HeuristicByTier) : HeuristicTier → Option HeuristicByTier
  | .ext => (checkedSub by_.ext 1).map fun n => { by_ with ext := n }
  | .guess => (checkedSub by_.guess 1).map fun n => { by_ with guess := n }

/-- One guess taken off both counters. -/
def Ledger.takeGuess (l : Ledger) (tier : HeuristicTier) : Option Ledger := do
  let count ← checkedSub l.heuristicEdgeCount 1
  let split ← l.heuristicByTier.takeOne tier
  some { l with heuristicEdgeCount := count, heuristicByTier := split }

end Devscout.Resolve
