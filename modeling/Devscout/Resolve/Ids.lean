/-
# Devscout.Resolve.Ids -- the ids of definitions

A type's id is its namespace and its enclosing types, then its name: a dot below a namespace,
a plus below a type. An enum member's is a dot below the id of its enum. No name holds either
separator, so the name of a definition is the last of its id.
-/

import Devscout.Resolve.Ladder
import Devscout.Resolve.Lookups
import Mathlib

namespace Devscout.Resolve

open Lib

/-! ## The last name of an id -/

/-- What stands after the last `.` or `+`. -/
def lastName (id : Str) : Str := id.rtakeWhile fun c => c != '.' && c != '+'

example : lastName ['A', '.', 'B', '+', 'C'] = ['C'] := by decide +kernel

/-- A name between two separators. -/
def PlainName (name : Str) : Prop := '.' ∉ name ∧ '+' ∉ name

theorem lastName_append {scope name : Str} {c : Char} (hc : c = '.' ∨ c = '+') :
    lastName (scope ++ c :: name) = lastName name := by
  have hstop : (c != '.' && c != '+') = false := by rcases hc with rfl | rfl <;> rfl
  unfold lastName List.rtakeWhile
  rw [List.reverse_append, List.reverse_cons, List.append_assoc]
  congr 1
  induction name.reverse with
  | nil => simp [hstop]
  | cons x xs ih =>
      rw [List.cons_append, List.takeWhile_cons, List.takeWhile_cons, ih]

theorem lastName_plain {name : Str} (h : PlainName name) : lastName name = name := by
  refine List.rtakeWhile_eq_self_iff.mpr fun c hc => ?_
  have hdot : c ≠ '.' := fun heq => h.1 (heq ▸ hc)
  have hplus : c ≠ '+' := fun heq => h.2 (heq ▸ hc)
  simp [hdot, hplus]

/-- The last segment between dots is the last name, where no `+` stands. -/
theorem lastName_eq_lastSegment {text : Str} (h : '+' ∉ text) :
    (text.splitOn '.').getLastD text = lastName text := by
  cases hsplit : Text.rsplit '.' text with
  | none =>
      have hdot := Text.rsplit_eq_none_iff.mp hsplit
      rw [List.splitOn_eq_singleton hdot, lastName_plain ⟨hdot, h⟩]
      rfl
  | some parts =>
      obtain ⟨scope, name⟩ := parts
      obtain ⟨rfl, hdot⟩ := Text.rsplit_eq_some hsplit
      have hplain : PlainName name := ⟨hdot, fun hplus => h (by simp [hplus])⟩
      rw [List.splitOn_append_cons_self, List.splitOn_eq_singleton hdot, lastName_append (.inl rfl),
        lastName_plain hplain, List.getLastD_concat]

/-! ## Ids as the extractor makes them -/

/-- `type_id`. -/
def typeId (name ns : Str) (typeStack : List Str) : Str := under ns (joinPlus (typeStack ++ [name]))

/-- A definition as the extractor records it: a type by `type_id`, an enum member below the id
of its enum and without type parameters. -/
structure Shape.Formed (s : Shape) : Prop where
  plain : PlainName s.name
  type : s.isMember = false → ∃ typeStack, s.id = typeId s.name s.namespace_ typeStack
  member : s.isMember = true → s.arity = 0 ∧ ∃ enumId, s.id = enumId ++ '.' :: s.name

/-- The definitions of some fragments are as the extractor records them. -/
def Extracted (fragments : Fragments) : Prop := ∀ f ∈ fragments, ∀ d ∈ f.2.defs, d.shape.Formed

theorem joinPlus_concat {typeStack : List Str} (hne : typeStack ≠ []) (name : Str) :
    joinPlus (typeStack ++ [name]) = joinPlus typeStack ++ '+' :: name :=
  Text.intercalate_concat hne name

theorem lastName_under {name : Str} (ns : Str) : lastName (under ns name) = lastName name := by
  unfold under
  split
  · rfl
  · exact lastName_append (.inl rfl)

theorem lastName_typeId {name ns : Str} (typeStack : List Str) :
    lastName (typeId name ns typeStack) = lastName name := by
  rw [typeId, lastName_under]
  by_cases hne : typeStack = []
  · rw [hne]
    simp [joinPlus, List.intercalate]
  · rw [joinPlus_concat hne, lastName_append (.inr rfl)]

/-- **The name of a definition is the last of its id.** -/
theorem Shape.Formed.lastName {s : Shape} (h : s.Formed) : Resolve.lastName s.id = s.name := by
  cases hmember : s.isMember with
  | false =>
      obtain ⟨typeStack, hid⟩ := h.type hmember
      rw [hid, lastName_typeId, lastName_plain h.plain]
  | true =>
      obtain ⟨-, enumId, hid⟩ := h.member hmember
      rw [hid, lastName_append (.inl rfl), lastName_plain h.plain]

end Devscout.Resolve
