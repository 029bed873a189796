/-
# Devscout.Semantic.Discovered -- sites only the compiler saw

When every reference has been walked, the layer still holds sites no reference stands
at. Those it confirms for one definition are projected as edges of their own
population: they are counted beside the others, never among them.
-/

import Devscout.Semantic.Precedence
import Mathlib

namespace Devscout.Semantic

open Lib Resolve

/-- The order of site keys: by file, line and member. -/
def siteKeyLe (a b : SiteKey) : Prop :=
  a.1 < b.1 ∨ a.1 = b.1 ∧ (a.2.1 < b.2.1 ∨ a.2.1 = b.2.1 ∧ a.2.2 ≤ b.2.2)

instance : DecidableRel siteKeyLe := fun a b =>
  inferInstanceAs (Decidable
    (a.1 < b.1 ∨ a.1 = b.1 ∧ (a.2.1 < b.2.1 ∨ a.2.1 = b.2.1 ∧ a.2.2 ≤ b.2.2)))

/-- `site_keys`, each once and in order. -/
def SemanticLayer.siteKeys (layer : SemanticLayer) : List SiteKey :=
  (unionNew [] (layer.occurrences.filterMap RawOccurrence.key)).insertionSort siteKeyLe

/-- `push_discovered`. -/
def discoveredEdge (key : SiteKey) (target : SemanticTarget) : Edge :=
  .ofMemberSemantic key.1 key.2.1 target.toDefId target.toFile (some key.2.2) .semanticDiscovered
    target.overloadSignature

/-- What one site projects: one target, or several of one definition; no reference gives
an argument count there. -/
def discoveredAt (layer : SemanticLayer) (index : DefIndex) (key : SiteKey) : List Edge :=
  match layer.lookup index key.1 key.2.1 key.2.2 none with
  | .confirmed target => [discoveredEdge key target]
  | .confirmedMany targets =>
      if targets.all fun t => decide (targets.head?.map (fun u => (u.toDefId, u.toFile)) =
          some (t.toDefId, t.toFile)) then
        targets.map (discoveredEdge key)
      else []
  | _ => []

/-- `project`: the edges of the sites no reference stands at. -/
def project (layer : SemanticLayer) (index : DefIndex) (referencedSites : List SiteKey) : List Edge :=
  (layer.siteKeys.filter fun key => key ∉ referencedSites).flatMap (discoveredAt layer index)

structure SemanticStats where
  confirmed : Nat
  disagreements : Nat
  discovered : Nat
  deriving DecidableEq

/-- `track_reference`. -/
def trackReference (layer : Option SemanticLayer) (sites : List SiteKey) (file : Str) (r : FragRef) :
    List SiteKey :=
  match layer, r.member with
  | some _, some member => unionNew sites [(file, r.line, member)]
  | _, _ => sites

/-- `finish`. -/
def finish (layer : Option SemanticLayer) (index : DefIndex) (sites : List SiteKey) (l : Ledger) :
    Ledger × Option SemanticStats :=
  match layer with
  | none => (l, none)
  | some layer =>
      let projected := project layer index sites
      ({ l with edges := l.edges ++ projected },
        some ⟨l.diag.confirmed, l.diag.disagreements, projected.length⟩)

/-- Every projected edge is a compiler-vouched one of the discovered population. -/
theorem provenance_of_mem_project {layer : SemanticLayer} {index : DefIndex} {sites : List SiteKey}
    {e : Edge} (h : e ∈ project layer index sites) :
    ∃ key target, e = discoveredEdge key target := by
  obtain ⟨key, -, he⟩ := List.mem_flatMap.mp h
  unfold discoveredAt at he
  split at he
  · exact ⟨key, _, List.mem_singleton.mp he⟩
  · split at he
    · obtain ⟨target, -, rfl⟩ := List.mem_map.mp he
      exact ⟨key, target, rfl⟩
    · cases he
  · cases he

end Devscout.Semantic
