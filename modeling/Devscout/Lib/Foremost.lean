/-
# Devscout.Lib.Foremost -- the first of the best

To take the best of some candidates, and among equals the one that comes first, a program sorts
them by a stable sort and takes the head. This module says what that head is without a sort:
nothing before it is as good, and nothing after it is better. The candidates may stand for the
entries of another list, some of which stand for none; the same is then said of the entries.
-/

import Mathlib

namespace Devscout.Lib

variable {α β : Type}

/-- `x` is better than what comes before it in a list, and no worse than what comes after. -/
def Foremost (noWorse : α → α → Prop) (l : List α) (x : α) : Prop :=
  ∃ before after, l = before ++ x :: after ∧
    (∀ y ∈ before, ¬noWorse y x) ∧ ∀ y ∈ after, noWorse x y

namespace Foremost

variable {noWorse : α → α → Prop} {l : List α} {x y : α}

/-- There is one at most. -/
theorem unique (hx : Foremost noWorse l x) (hy : Foremost noWorse l y) : x = y := by
  obtain ⟨before, after, rfl, hbefore, hafter⟩ := hx
  obtain ⟨before', after', heq, hbefore', hafter'⟩ := hy
  rcases List.append_eq_append_iff.mp heq with ⟨mid, h1, h2⟩ | ⟨mid, h1, h2⟩
  · cases mid with
    | nil => exact (List.cons.inj h2).1
    | cons m mid =>
        -- `x` stands before `y`
        obtain ⟨rfl, rfl⟩ := List.cons.inj h2
        exact absurd (hafter y (by simp)) (hbefore' x (by rw [h1]; simp))
  · cases mid with
    | nil => exact (List.cons.inj h2).1.symm
    | cons m mid =>
        obtain ⟨rfl, rfl⟩ := List.cons.inj h2
        exact absurd (hafter' x (by simp)) (hbefore y (by rw [h1]; simp))

/-- A newcomer at the front stays behind the foremost that it is not as good as. -/
theorem cons_of_not {a : α} (h : Foremost noWorse l x) (hax : ¬noWorse a x) :
    Foremost noWorse (a :: l) x := by
  obtain ⟨before, after, rfl, hbefore, hafter⟩ := h
  exact ⟨a :: before, after, rfl, List.forall_mem_cons.mpr ⟨hax, hbefore⟩, hafter⟩

/-- Otherwise it is the foremost. -/
theorem cons_self (htotal : ∀ x y, noWorse x y ∨ noWorse y x)
    (htrans : ∀ x y z, noWorse x y → noWorse y z → noWorse x z) {a : α} (h : Foremost noWorse l x)
    (hax : noWorse a x) : Foremost noWorse (a :: l) a := by
  obtain ⟨before, after, rfl, hbefore, hafter⟩ := h
  refine ⟨[], before ++ x :: after, rfl, by simp, fun y hy => ?_⟩
  rcases List.mem_append.mp hy with hy | hy
  · exact htrans a x y hax ((htotal x y).resolve_right (hbefore y hy))
  · rcases List.mem_cons.mp hy with rfl | hy
    · exact hax
    · exact htrans a x y hax (hafter y hy)

end Foremost

section Sorted

variable {noWorse : α → α → Prop} [DecidableRel noWorse]

theorem head?_orderedInsert_cons (a b : α) (l : List α) :
    ((b :: l).orderedInsert noWorse a).head? = some (if noWorse a b then a else b) := by
  rw [List.orderedInsert_cons]
  split <;> simp

/-- **The head of a sorted list.** -/
theorem foremost_of_head?_insertionSort (htotal : ∀ x y, noWorse x y ∨ noWorse y x)
    (htrans : ∀ x y z, noWorse x y → noWorse y z → noWorse x z) {l : List α} {x : α}
    (h : (l.insertionSort noWorse).head? = some x) : Foremost noWorse l x := by
  induction l generalizing x with
  | nil => cases h
  | cons a l ih =>
      rw [List.insertionSort_cons] at h
      cases hsort : l.insertionSort noWorse with
      | nil =>
          have hnil : l = [] := List.perm_nil.mp (hsort ▸ (List.perm_insertionSort noWorse l).symm)
          rw [hsort] at h
          cases h
          exact ⟨[], l, rfl, by simp, by simp [hnil]⟩
      | cons b rest =>
          rw [hsort, head?_orderedInsert_cons] at h
          have hb : Foremost noWorse l b := ih (by rw [hsort]; rfl)
          -- the newcomer is compared with the head of the rest only
          by_cases hab : noWorse a b
          · obtain rfl : a = x := by simpa [hab] using h
            exact hb.cons_self htotal htrans hab
          · obtain rfl : b = x := by simpa [hab] using h
            exact hb.cons_of_not hab

end Sorted

/-- `x` stands for an entry, is better than what stands for the entries before it, and no worse
than what stands for those after. -/
def ForemostOf (stands : β → α → Prop) (noWorse : α → α → Prop) (entries : List β) (x : α) : Prop :=
  ∃ before e after, entries = before ++ e :: after ∧ stands e x ∧
    (∀ e' ∈ before, ∀ y, stands e' y → ¬noWorse y x) ∧ ∀ e' ∈ after, ∀ y, stands e' y → noWorse x y

theorem foremost_filterMap_iff {f : β → Option α} {stands : β → α → Prop} {noWorse : α → α → Prop}
    (hf : ∀ e x, f e = some x ↔ stands e x) {entries : List β} {x : α} :
    Foremost noWorse (entries.filterMap f) x ↔ ForemostOf stands noWorse entries x := by
  constructor
  · rintro ⟨before, after, heq, hbefore, hafter⟩
    obtain ⟨xs, rest, rfl, rfl, hrest⟩ := List.filterMap_eq_append_iff.mp heq
    obtain ⟨skipped, e, ys, rfl, hskipped, hex, rfl⟩ := List.filterMap_eq_cons_iff.mp hrest
    refine ⟨xs ++ skipped, e, ys, by simp, (hf e x).mp hex, fun e' he' y hy => ?_,
      fun e' he' y hy => ?_⟩
    · rcases List.mem_append.mp he' with he' | he'
      · exact hbefore y (List.mem_filterMap.mpr ⟨e', he', (hf e' y).mpr hy⟩)
      · -- such an entry stands for nothing
        have hnone := hskipped e' he'
        rw [(hf e' y).mpr hy] at hnone
        cases hnone
    · exact hafter y (List.mem_filterMap.mpr ⟨e', he', (hf e' y).mpr hy⟩)
  · rintro ⟨before, e, after, rfl, hex, hbefore, hafter⟩
    refine ⟨before.filterMap f, after.filterMap f, ?_, fun y hy => ?_, fun y hy => ?_⟩
    · rw [List.filterMap_append, List.filterMap_cons_some ((hf e x).mpr hex)]
    · obtain ⟨e', he', hy⟩ := List.mem_filterMap.mp hy
      exact hbefore e' he' y ((hf e' y).mp hy)
    · obtain ⟨e', he', hy⟩ := List.mem_filterMap.mp hy
      exact hafter e' he' y ((hf e' y).mp hy)

end Devscout.Lib
