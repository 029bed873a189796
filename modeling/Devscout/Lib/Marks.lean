/-
# Devscout.Lib.Marks -- what the chains of a search carry

Some steps of a search leave a mark, and a chain carries the last mark it crossed, or none.
What a set of chains comes to is nothing when one of them carries no mark, and else the
least mark among them. A search that keeps one verdict for each thing it went through, and
not all its chains, loses nothing as long as every verdict is that of all the chains so far.
-/

import Devscout.Lib.Layers
import Mathlib

namespace Devscout.Lib

variable {D M : Type}

/-! ## Chains and their marks -/

section Carried

variable {start : D → Prop} {step : D → D → Option M → Prop} {n : Nat} {d e : D} {o : Option M}

/-- A chain of `n` steps to `d` that carries `o`, the last mark it crossed. -/
inductive Carried (start : D → Prop) (step : D → D → Option M → Prop) : Nat → D → Option M → Prop
  | here {d : D} (h : start d) : Carried start step 0 d none
  | next {n : Nat} {d e : D} {o hop : Option M} (h : Carried start step n d o) (hstep : step d e hop) :
      Carried start step (n + 1) e (hop.or o)

theorem carried_succ : Carried start step (n + 1) e o ↔
    ∃ d hop o', Carried start step n d o' ∧ step d e hop ∧ o = hop.or o' := by
  constructor
  · intro h
    cases h with
    | next h hstep => exact ⟨_, _, _, h, hstep, rfl⟩
  · rintro ⟨d, hop, o', h, hstep, rfl⟩
    exact .next h hstep

theorem Carried.chain (h : Carried start step n d o) :
    Chain start (fun d e => ∃ hop, step d e hop) n d := by
  induction h with
  | here h => exact .here h
  | next _ hstep ih => exact .next ih ⟨_, hstep⟩

end Carried

/-! ## Verdicts -/

/-- What a set of marks comes to: nothing when it has a way without one, else the least. -/
def Verdict [LE M] (marks : Option M → Prop) : Option M → Prop
  | none => marks none
  | some o => ¬ marks none ∧ marks (some o) ∧ ∀ o', marks (some o') → o ≤ o'

section Verdicts

variable {marks marks' : Option M → Prop} {r r' : Option M}

theorem Verdict.mem [LE M] (h : Verdict marks r) : marks r := by
  cases r with
  | none => exact h
  | some o => exact h.2.1

theorem Verdict.eq_none_iff [LE M] (h : Verdict marks r) : r = none ↔ marks none := by
  constructor
  · rintro rfl
    exact h
  · intro hnone
    cases r with
    | none => rfl
    | some o => exact absurd hnone h.1

/-- A set comes to one thing only. -/
theorem Verdict.unique [PartialOrder M] (h : Verdict marks r) (h' : Verdict marks r') : r = r' := by
  cases r with
  | none => exact (h'.eq_none_iff.mpr h).symm
  | some o =>
      cases r' with
      | none => exact absurd h' h.1
      | some o' => rw [le_antisymm (h.2.2 o' h'.2.1) (h'.2.2 o h.2.1)]

theorem verdict_congr [LE M] (h : ∀ o, marks o ↔ marks' o) : Verdict marks r ↔ Verdict marks' r := by
  rw [show marks = marks' from funext fun o => propext (h o)]

/-- Leaving out marks that are not the least changes nothing. -/
theorem verdict_of_subset [PartialOrder M] (hsub : ∀ o, marks o → marks' o)
    (hnone : marks' none → marks none)
    (hle : ∀ o, ¬ marks none → marks' (some o) → ∃ o' ≤ o, marks (some o')) :
    Verdict marks r ↔ Verdict marks' r := by
  cases r with
  | none => exact ⟨hsub none, hnone⟩
  | some o =>
      constructor
      · rintro ⟨hplain, hmem, hleast⟩
        refine ⟨fun h => hplain (hnone h), hsub _ hmem, fun o' ho' => ?_⟩
        obtain ⟨o'', hle', ho''⟩ := hle o' hplain ho'
        exact le_trans (hleast o'' ho'') hle'
      · rintro ⟨hplain, hmem, hleast⟩
        obtain ⟨o', hle', ho'⟩ := hle o (fun h => hplain (hsub none h)) hmem
        have heq : o = o' := le_antisymm (hleast o' (hsub _ ho')) hle'
        refine ⟨fun h => hplain (hsub none h), heq ▸ ho', fun o'' ho'' => hleast o'' (hsub _ ho'')⟩

/-- **One verdict for each thing is enough.** Going on from each thing with its verdict
comes to the same as going on with every mark that it was reached with. -/
theorem verdict_through [PartialOrder M] {carried : D → Option M → Prop} {verdict : D → Option M}
    {touch : D → Option M → Prop} (h : ∀ d hop, touch d hop → Verdict (carried d) (verdict d)) :
    Verdict (fun o => ∃ d hop, touch d hop ∧ o = hop.or (verdict d)) r ↔
      Verdict (fun o => ∃ d hop o', touch d hop ∧ carried d o' ∧ o = hop.or o') r := by
  refine verdict_of_subset ?_ ?_ ?_
  · rintro o ⟨d, hop, htouch, rfl⟩
    exact ⟨d, hop, _, htouch, (h d hop htouch).mem, rfl⟩
  · rintro ⟨d, hop, o', htouch, hcarried, hnone⟩
    obtain ⟨rfl, rfl⟩ := Option.or_eq_none_iff.mp hnone.symm
    exact ⟨d, none, htouch, ((h d none htouch).eq_none_iff.mpr hcarried).symm⟩
  · rintro o hplain ⟨d, hop, o', htouch, hcarried, ho⟩
    cases hop with
    | some o'' =>
        cases ho
        exact ⟨o, le_rfl, d, some o, htouch, rfl⟩
    | none =>
        have hverdict := h d none htouch
        rw [Option.none_or] at ho
        subst ho
        cases hv : verdict d with
        | none => exact absurd ⟨d, none, htouch, by rw [hv]; rfl⟩ hplain
        | some o'' =>
            rw [hv] at hverdict
            exact ⟨o'', hverdict.2.2 o hcarried, d, none, htouch, by rw [hv]; rfl⟩

end Verdicts

/-! ## The verdict of a list -/

section Lowest

variable [LinearOrder M] {a b : Option M} {ms : List (Option M)} {o o' : M}

/-- The lower of two marks; no mark is no bound. -/
def lowest : Option M → Option M → Option M
  | none, b => b
  | some a, none => some a
  | some a, some b => if b < a then some b else some a

theorem eq_or_eq_of_lowest (h : lowest a b = some o) : a = some o ∨ b = some o := by
  cases a with
  | none => exact Or.inr h
  | some x =>
      cases b with
      | none => exact Or.inl h
      | some y =>
          unfold lowest at h
          dsimp only at h
          split at h
          · exact Or.inr h
          · exact Or.inl h

theorem exists_lowest_le (h : a = some o' ∨ b = some o') : ∃ o ≤ o', lowest a b = some o := by
  cases a with
  | none => exact ⟨o', le_rfl, h.resolve_left (by simp)⟩
  | some x =>
      cases b with
      | none => exact ⟨o', le_rfl, h.resolve_right (by simp)⟩
      | some y =>
          unfold lowest
          dsimp only
          by_cases hlt : y < x
          · rw [if_pos hlt]
            rcases h with h | h
            · exact ⟨y, Option.some.inj h ▸ hlt.le, rfl⟩
            · exact ⟨y, (Option.some.inj h).le, rfl⟩
          · rw [if_neg hlt]
            rcases h with h | h
            · exact ⟨x, (Option.some.inj h).le, rfl⟩
            · exact ⟨x, Option.some.inj h ▸ not_lt.mp hlt, rfl⟩

/-- Keeping the lower mark throughout a list ends with the least of them. -/
theorem foldl_lowest_eq_some (h : ms.foldl lowest a = some o) :
    (a = some o ∨ some o ∈ ms) ∧ ∀ o', (a = some o' ∨ some o' ∈ ms) → o ≤ o' := by
  induction ms generalizing a with
  | nil =>
      refine ⟨Or.inl h, ?_⟩
      rintro o' (ho' | ho')
      · exact (Option.some.inj (h.symm.trans ho')).le
      · cases ho'
  | cons m ms ih =>
      obtain ⟨hmem, hleast⟩ := ih h
      constructor
      · rcases hmem with hmem | hmem
        · rcases eq_or_eq_of_lowest hmem with ha | hm
          · exact Or.inl ha
          · exact Or.inr (hm ▸ List.mem_cons_self)
        · exact Or.inr (List.mem_cons_of_mem m hmem)
      · intro o' ho'
        have hcases : (a = some o' ∨ m = some o') ∨ some o' ∈ ms := by
          rcases ho' with ho' | ho'
          · exact Or.inl (Or.inl ho')
          · rcases List.mem_cons.mp ho' with ho' | ho'
            · exact Or.inl (Or.inr ho'.symm)
            · exact Or.inr ho'
        rcases hcases with hnow | hlater
        · obtain ⟨o'', hle, ho''⟩ := exists_lowest_le hnow
          exact le_trans (hleast o'' (Or.inl ho'')) hle
        · exact hleast o' (Or.inr hlater)

theorem foldl_lowest_eq_none (h : ms.foldl lowest a = none) : a = none ∧ ∀ m ∈ ms, m = none := by
  induction ms generalizing a with
  | nil => exact ⟨h, fun m hm => by cases hm⟩
  | cons m ms ih =>
      obtain ⟨hlow, hrest⟩ := ih h
      have hnone : ∀ o', ¬ (a = some o' ∨ m = some o') := by
        intro o' ho'
        obtain ⟨o, -, ho⟩ := exists_lowest_le ho'
        rw [hlow] at ho
        cases ho
      have hboth : a = none ∧ m = none :=
        ⟨Option.eq_none_iff_forall_ne_some.mpr fun o' h => hnone o' (Or.inl h),
          Option.eq_none_iff_forall_ne_some.mpr fun o' h => hnone o' (Or.inr h)⟩
      refine ⟨hboth.1, fun m' hm' => ?_⟩
      rcases List.mem_cons.mp hm' with rfl | hm'
      · exact hboth.2
      · exact hrest m' hm'

/-- What a list of marks comes to: the lowest kept throughout, unless one is none. -/
theorem verdict_foldl {r : Option M} (hne : ms ≠ []) (hplain : none ∈ ms → r = none)
    (hfold : none ∉ ms → r = ms.foldl lowest none) : Verdict (· ∈ ms) r := by
  by_cases hnone : none ∈ ms
  · rw [hplain hnone]
    exact hnone
  · rw [hfold hnone]
    cases hlow : ms.foldl lowest none with
    | none =>
        obtain ⟨m, hm⟩ := List.exists_mem_of_ne_nil ms hne
        exact absurd ((foldl_lowest_eq_none hlow).2 m hm ▸ hm) hnone
    | some o =>
        obtain ⟨hmem, hleast⟩ := foldl_lowest_eq_some hlow
        exact ⟨hnone, hmem.resolve_left (by simp), fun o' ho' => hleast o' (Or.inr ho')⟩

end Lowest

end Devscout.Lib
