/-
# Devscout.Lib.Memo -- remembered answers

A program asks questions whose answers take work: a value, and the keys that were looked
under on the way. A table remembers answers, and an answer it has is given again, its keys
included, without the work. A computation with a table stands for the one without when on
every table that remembers only what the work would give, it returns the same value, logs
the same keys and leaves such a table. Standing for one another is kept by sequence, so it
is proved along the program; a table that is emptied whenever the answers change remembers
only current ones.
-/

import Devscout.Lib.Worklist

namespace Devscout.Lib.Memo

variable {K A Key α β : Type} [BEq K]

/-- Answers under the questions they are of, the latest first. -/
abbrev Table (K A Key : Type) := List (K × Logged Key A)

/-- A computation that may use and add to a table. -/
abbrev Remembering (K A Key : Type) := StateT (Table K A Key) (Logged Key)

/-- Every remembered answer is what the work gives. -/
def Current (work : K → Logged Key A) (table : Table K A Key) : Prop :=
  ∀ k a, table.lookup k = some a → a = work k

/-- The answer to a question, remembered from then on. -/
def recalled (work : K → Logged Key A) (k : K) : Remembering K A Key A := fun table =>
  match table.lookup k with
  | some a => ⟨(a.value, table), a.keys⟩
  | none => ⟨((work k).value, (k, work k) :: table), (work k).keys⟩

/-- The computation with a table stands for the one without. -/
def StandsFor (work : K → Logged Key A) (p : Remembering K A Key α) (q : Logged Key α) : Prop :=
  ∀ table, Current work table →
    (p table).value.1 = q.value ∧ (p table).keys = q.keys ∧ Current work (p table).value.2

variable {work : K → Logged Key A}

theorem current_nil : Current work [] := by
  intro k a h
  cases h

theorem Current.cons [LawfulBEq K] {table : Table K A Key} (h : Current work table) (k : K) :
    Current work ((k, work k) :: table) := by
  intro k' a ha
  rw [List.lookup_cons] at ha
  by_cases hk : (k' == k) = true
  · rw [hk] at ha
    cases ha
    rw [eq_of_beq hk]
  · rw [Bool.not_eq_true] at hk
    rw [hk] at ha
    exact h k' a ha

theorem standsFor_recalled [LawfulBEq K] (k : K) : StandsFor work (recalled work k) (work k) := by
  intro table htable
  rw [recalled]
  cases ha : table.lookup k with
  | none => exact ⟨rfl, rfl, htable.cons k⟩
  | some a =>
      obtain rfl := htable k a ha
      exact ⟨rfl, rfl, htable⟩

theorem standsFor_pure (a : α) : StandsFor work (pure a) (pure a) :=
  fun _ htable => ⟨rfl, rfl, htable⟩

/-- What asks nothing is the same with any table. -/
theorem standsFor_lift (q : Logged Key α) : StandsFor work (StateT.lift q) q := by
  intro table htable
  refine ⟨rfl, ?_, htable⟩
  show q.keys ++ [] = q.keys
  rw [List.append_nil]

theorem StandsFor.bind {p : Remembering K A Key α} {q : Logged Key α}
    {f : α → Remembering K A Key β} {g : α → Logged Key β} (hp : StandsFor work p q)
    (hf : ∀ a, StandsFor work (f a) (g a)) : StandsFor work (p >>= f) (q >>= g) := by
  intro table htable
  obtain ⟨hvalue, hkeys, hcurrent⟩ := hp table htable
  -- the second computation runs on the table that the first one leaves
  obtain ⟨hvalue', hkeys', hcurrent'⟩ := hf (p table).value.1 (p table).value.2 hcurrent
  refine ⟨?_, ?_, hcurrent'⟩
  · show (f (p table).value.1 (p table).value.2).value.1 = (g q.value).value
    rw [hvalue', hvalue]
  · show (p table).keys ++ (f (p table).value.1 (p table).value.2).keys = q.keys ++ (g q.value).keys
    rw [hkeys, hkeys', hvalue]

/-- The answer a computation gives on a table, with what it logs. -/
def answer (p : Remembering K A Key α) (table : Table K A Key) : Logged Key α :=
  ⟨(p table).value.1, (p table).keys⟩

theorem StandsFor.answer_eq {p : Remembering K A Key α} {q : Logged Key α} (h : StandsFor work p q)
    {table : Table K A Key} (htable : Current work table) : answer p table = q := by
  obtain ⟨hvalue, hkeys, -⟩ := h table htable
  rw [answer, hvalue, hkeys]

end Devscout.Lib.Memo
