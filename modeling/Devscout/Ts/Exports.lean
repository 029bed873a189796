/-
# Devscout.Ts.Exports -- what a name imported from a TypeScript file is

A file declares names and hands names on: by name (`export { imported as exported } from`),
all of another file's at once (`export * from`), or another file as a namespace under one
name (`export * as ns from`). Every statement's module is resolved up front, so a lookup
walks from file to file. It asks for a name in a file, and at every step perhaps for
another name in the next file.

Two walks follow the statements. One looks for the file that declares the name, the other
for one that has the name as a namespace. Both stop after so many steps; what they remember
on the way differs.
-/

import Devscout.Lib.BoundedSearch
import Devscout.Lib.Text

namespace Devscout.Ts

open Lib BoundedSearch

/-- One re-export statement and the file its module resolved to. Of `names`, the first
component is the exported name and the second the imported one. -/
structure ResolvedReexport where
  star : Bool
  names : List (Str × Str)
  namespace_ : Option Str
  to_ : Option Str
  deriving DecidableEq

/-- Every file's own exports, the definition under each name, and its re-export statements in
the order they are written. -/
structure Exports where
  byFile : Str → Str → Option Nat
  reexportsByFile : Str → List ResolvedReexport

/-- A name asked for in a file. -/
abbrev Asked := Str × Str

def BARREL_HOPS : Nat := 8

namespace Exports

variable (e : Exports)

/-! ## The definition a name is -/

/-- What one statement may hand a name on to. -/
def handedOn (name : Str) (row : ResolvedReexport) : List Asked :=
  match row.to_ with
  | none => []
  | some target =>
      if row.star then [(target, name)]
      else (row.names.filter fun n => n.1 = name).map fun n => (target, n.2)

/-- `lookup_export`, with `left` steps left of `BARREL_HOPS`; `visited` has the steps each
pair was asked after. -/
def lookupExport : Nat → Str → Str → Seen Asked → Option Nat × Seen Asked
  | left, file, name, visited =>
      let hops := BARREL_HOPS - left
      if visited.met (file, name) hops then (none, visited)
      else
        let visited : Seen Asked := ((file, name), hops) :: visited
        match e.byFile file name, left with
        | some own, _ => (some own, visited)
        | none, 0 => (none, visited)
        | none, left + 1 =>
            if (e.reexportsByFile file).any fun row => row.namespace_ = some name then (none, visited)
            else
              firstHit (fun (asked : Asked) visited => lookupExport left asked.1 asked.2 visited)
                ((e.reexportsByFile file).flatMap (handedOn name)) visited

/-- `Exports::lookup`. -/
def lookup (file name : Str) : Option Nat := (e.lookupExport BARREL_HOPS file name []).1

/-! ## The namespace a name is -/

/-- The first re-export of a name by a statement that names it: its module, and the name
there. -/
def namedRow (file name : Str) : Option (Option Str × Str) :=
  (e.reexportsByFile file).findSome? fun row =>
    (row.names.find? fun n => n.1 = name).map fun n => (row.to_, n.2)

/-- `namespace_target_in`, with `left` steps left; `visited` has the files met. -/
def namespaceTargetIn : Nat → Str → Str → List Str → Option Str × List Str
  | 0, _, _, visited => (none, visited)
  | left + 1, file, name, visited =>
      if file ∈ visited then (none, visited)
      else
        let visited := file :: visited
        if (e.byFile file name).isSome then (none, visited)
        else
          match (e.reexportsByFile file).find? fun row => row.namespace_ = some name with
          | some row => (row.to_, visited)
          | none =>
              match e.namedRow file name with
              | some (none, _) => (none, visited)
              | some (some target, imported) => namespaceTargetIn left target imported visited
              | none =>
                  firstHit (fun target visited => namespaceTargetIn left target name visited)
                    (((e.reexportsByFile file).filter fun row => row.star).filterMap fun row => row.to_)
                    visited

/-- `Exports::namespace_target`. -/
def namespaceTarget (file name : Str) : Option Str := (e.namespaceTargetIn BARREL_HOPS file name []).1

/-- `Exports::lookup_member`. -/
def lookupMember (file name : Str) (member : Option Str) : Option Nat :=
  match member.bind fun m => (e.namespaceTarget file name).bind fun ns => e.lookup ns m with
  | some d => some d
  | none => e.lookup file name

/-! ## Steps -/

/-- A statement of the file has the name as a namespace. -/
def HasNamespace (asked : Asked) : Prop :=
  ∃ row ∈ e.reexportsByFile asked.1, row.namespace_ = some asked.2

/-- A statement that names the name hands it on. -/
def NamedStep (asked next : Asked) : Prop :=
  ∃ row ∈ e.reexportsByFile asked.1, row.star = false ∧ row.to_ = some next.1 ∧
    (asked.2, next.2) ∈ row.names

/-- An `export *` hands the name on. -/
def StarStep (asked next : Asked) : Prop :=
  ∃ row ∈ e.reexportsByFile asked.1, row.star = true ∧ row.to_ = some next.1 ∧ next.2 = asked.2

/-- A re-export step: from a file that neither declares the name nor has it as a namespace. -/
def Step (asked next : Asked) : Prop :=
  e.byFile asked.1 asked.2 = none ∧ ¬e.HasNamespace asked ∧
    (e.NamedStep asked next ∨ e.StarStep asked next)

/-- The file declares the name. -/
def Declares (asked : Asked) (d : Nat) : Prop := e.byFile asked.1 asked.2 = some d

/-! ## The lookup is a search -/

def declared (asked : Asked) : Option Nat := e.byFile asked.1 asked.2

/-- Where a lookup goes on, in this order. -/
def successors (asked : Asked) : List Asked :=
  if (e.reexportsByFile asked.1).any fun row => row.namespace_ = some asked.2 then []
  else (e.reexportsByFile asked.1).flatMap (handedOn asked.2)

theorem mem_handedOn {name : Str} {row : ResolvedReexport} {next : Asked} :
    next ∈ handedOn name row ↔ row.to_ = some next.1 ∧
      (row.star = false ∧ (name, next.2) ∈ row.names ∨ row.star = true ∧ next.2 = name) := by
  obtain ⟨target, imported⟩ := next
  rw [handedOn]
  cases row.to_ with
  | none => simp
  | some target' =>
      by_cases hstar : row.star = true
      · simp [hstar, Prod.ext_iff, eq_comm]
      · rw [Bool.not_eq_true] at hstar
        simp only [hstar, Bool.false_eq_true, if_false, List.mem_map, List.mem_filter,
          decide_eq_true_eq, false_and, or_false, true_and, Option.some.injEq]
        constructor
        · rintro ⟨⟨exported, imported'⟩, ⟨hmem, rfl⟩, heq⟩
          cases heq
          exact ⟨rfl, hmem⟩
        · rintro ⟨rfl, hmem⟩
          exact ⟨(name, imported), ⟨hmem, rfl⟩, rfl⟩

theorem any_namespace_iff (asked : Asked) :
    ((e.reexportsByFile asked.1).any fun row => row.namespace_ = some asked.2) = true ↔
      e.HasNamespace asked := by
  simp [HasNamespace]

theorem mem_successors {asked next : Asked} :
    next ∈ e.successors asked ↔
      ¬e.HasNamespace asked ∧ (e.NamedStep asked next ∨ e.StarStep asked next) := by
  rw [successors]
  by_cases h : e.HasNamespace asked
  · rw [if_pos ((e.any_namespace_iff asked).mpr h)]
    simp [h]
  · rw [if_neg fun hany => h ((e.any_namespace_iff asked).mp hany)]
    simp only [List.mem_flatMap, mem_handedOn, h, not_false_iff, true_and]
    constructor
    · rintro ⟨row, hrow, hto, ⟨hstar, hname⟩ | ⟨hstar, hname⟩⟩
      · exact .inl ⟨row, hrow, hstar, hto, hname⟩
      · exact .inr ⟨row, hrow, hstar, hto, hname⟩
    · rintro (⟨row, hrow, hstar, hto, hname⟩ | ⟨row, hrow, hstar, hto, hname⟩)
      · exact ⟨row, hrow, hto, .inl ⟨hstar, hname⟩⟩
      · exact ⟨row, hrow, hto, .inr ⟨hstar, hname⟩⟩

theorem step_iff (asked next : Asked) :
    e.Step asked next ↔ e.declared asked = none ∧ next ∈ e.successors asked := by
  rw [mem_successors]
  rfl

theorem lookupExport_eq (left : Nat) (file name : Str) (visited : Seen Asked) :
    e.lookupExport left file name visited =
      ((search e.successors e.declared BARREL_HOPS left (file, name) visited).1.map Prod.snd,
        (search e.successors e.declared BARREL_HOPS left (file, name) visited).2) := by
  induction left generalizing file name visited with
  | zero =>
      rw [lookupExport, search]
      by_cases hmet : visited.met (file, name) BARREL_HOPS = true
      · simp [hmet]
      · cases hown : e.byFile file name <;> simp [hmet, hown, declared]
  | succ left ih =>
      rw [lookupExport, search]
      by_cases hmet : visited.met (file, name) (BARREL_HOPS - (left + 1)) = true
      · simp [hmet]
      · -- only the definition is handed back; the way to it is the search's
        have hfirst := firstHit_map (f := fun (asked : Asked) visited =>
            e.lookupExport left asked.1 asked.2 visited)
          (g := search e.successors e.declared BARREL_HOPS left) Prod.snd
          (fun asked visited => ih asked.1 asked.2 visited)
        cases hown : e.byFile file name with
        | some own => simp [hmet, hown, declared]
        | none =>
            by_cases hns : ((e.reexportsByFile file).any fun row => row.namespace_ = some name) = true
            · -- a name the file has as a namespace ends the lookup with nothing
              simp [hmet, hown, hns, declared, successors, firstHit]
            · simp only [hmet, hown, hns, hfirst, declared, successors, Bool.false_eq_true, if_false,
                Option.map_map]
              rfl

/-- The pairs a successful lookup is in when it comes to the definition, with that. -/
def walked (file name : Str) : Option (List Asked × Nat) :=
  (search e.successors e.declared BARREL_HOPS BARREL_HOPS (file, name) []).1

theorem lookup_eq (file name : Str) : e.lookup file name = (e.walked file name).map Prod.snd := by
  rw [lookup, lookupExport_eq]
  rfl

/-- The namespace of the first statement that has the name as one, where the file does not
declare the name. -/
def namespaceHere (asked : Asked) : Option Str :=
  if (e.byFile asked.1 asked.2).isSome then none
  else
    ((e.reexportsByFile asked.1).find? fun row => row.namespace_ = some asked.2).bind fun row => row.to_

/-- Where the lookup of a namespace goes on: a statement that names the name goes before
every `export *`. -/
def namespaceSuccessors (asked : Asked) : List Asked :=
  if (e.byFile asked.1 asked.2).isSome then []
  else
    match (e.reexportsByFile asked.1).find? fun row => row.namespace_ = some asked.2 with
    | some _ => []
    | none =>
        match e.namedRow asked.1 asked.2 with
        | some (none, _) => []
        | some (some target, imported) => [(target, imported)]
        | none =>
            (((e.reexportsByFile asked.1).filter fun row => row.star).filterMap fun row => row.to_).map
              fun target => (target, asked.2)

theorem namespaceTargetIn_eq (left : Nat) (file name : Str) (visited : List Str) :
    e.namespaceTargetIn left file name visited =
      guarded e.namespaceSuccessors e.namespaceHere Prod.fst left (file, name) visited := by
  induction left generalizing file name visited with
  | zero => rfl
  | succ left ih =>
      rw [namespaceTargetIn, guarded]
      by_cases hmet : file ∈ visited
      · simp [hmet]
      · by_cases hown : (e.byFile file name).isSome = true
        · simp [hmet, hown, namespaceHere, namespaceSuccessors, firstHit]
        · cases hns : (e.reexportsByFile file).find? fun row => row.namespace_ = some name with
          | some row =>
              cases hto : row.to_ <;>
                simp [hmet, hown, hns, hto, namespaceHere, namespaceSuccessors, firstHit]
          | none =>
              have hhere : e.namespaceHere (file, name) = none := by
                simp [namespaceHere, hown, hns]
              simp only [if_neg hmet, if_neg hown, hhere, namespaceSuccessors, hns]
              -- no statement names the name, or one does without or with a module
              rcases hnamed : e.namedRow file name with _ | ⟨_ | target, imported⟩
              · dsimp only
                rw [firstHit_list_map]
                simp only [ih]
              · rfl
              · dsimp only
                rw [firstHit_singleton, ih]

end Exports

end Devscout.Ts
