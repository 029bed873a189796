/-
# Devscout.Lib.EditDistance -- the distance between two lists

An edit inserts, deletes or replaces one element; the distance of two lists is the least number
of edits from one to the other. Edits may come in any order and at any place, also where an
earlier one has been. An alignment puts them in order: it goes through both lists once. Nothing is
lost by that, and on alignments the recurrences, the symmetry, the bound by the lengths and the growth
along a row of the table can be read off.
-/

import Mathlib

namespace Devscout.Lib

variable {α : Type} {a b c d : List α} {m n : Nat}

/-! ## Edits -/

/-- One edit. -/
inductive Edit : List α → List α → Prop
  | insert (y : α) (l : List α) : Edit l (y :: l)
  | delete (x : α) (l : List α) : Edit (x :: l) l
  | replace (x y : α) (l : List α) : Edit (x :: l) (y :: l)
  | skip (x : α) {l l' : List α} (h : Edit l l') : Edit (x :: l) (x :: l')

/-- So many edits, one after the other. -/
inductive Edits : Nat → List α → List α → Prop
  | none (l : List α) : Edits 0 l l
  | more {n : Nat} {l l' l'' : List α} (h : Edits n l l') (hedit : Edit l' l'') : Edits (n + 1) l l''

/-- **The Levenshtein distance**: the least number of edits. -/
noncomputable def levenshtein (a b : List α) : Nat := sInf {n | Edits n a b}

theorem Edits.skip (x : α) (h : Edits n a b) : Edits n (x :: a) (x :: b) := by
  induction h with
  | none l => exact .none _
  | more _ hedit ih => exact .more ih (.skip x hedit)

theorem Edits.trans (h : Edits m a b) (h' : Edits n b c) : Edits (m + n) a c := by
  induction h' with
  | none _ => exact h
  | more _ hedit ih => exact .more (ih h) hedit

/-! ## Alignments -/

/-- So many edits in one pass over both lists. -/
inductive Aligned : Nat → List α → List α → Prop
  | nil : Aligned 0 [] []
  | same (x : α) {n : Nat} {l l' : List α} (h : Aligned n l l') : Aligned n (x :: l) (x :: l')
  | replace (x y : α) {n : Nat} {l l' : List α} (h : Aligned n l l') :
      Aligned (n + 1) (x :: l) (y :: l')
  | delete (x : α) {n : Nat} {l l' : List α} (h : Aligned n l l') : Aligned (n + 1) (x :: l) l'
  | insert (y : α) {n : Nat} {l l' : List α} (h : Aligned n l l') : Aligned (n + 1) l (y :: l')

namespace Aligned

theorem refl (a : List α) : Aligned 0 a a := by
  induction a with
  | nil => exact .nil
  | cons x a ih => exact .same x ih

/-- From nothing, everything is inserted. -/
theorem nil_left (b : List α) : Aligned b.length [] b := by
  induction b with
  | nil => exact .nil
  | cons y b ih => exact .insert y ih

theorem nil_right (a : List α) : Aligned a.length a [] := by
  induction a with
  | nil => exact .nil
  | cons x a ih => exact .delete x ih

/-- An alignment is a run of edits. -/
theorem edits (h : Aligned n a b) : Edits n a b := by
  induction h with
  | nil => exact .none []
  | same x _ ih => exact ih.skip x
  | replace x y _ ih => exact .more (ih.skip x) (.replace x y _)
  | delete x _ ih => exact .more (ih.skip x) (.delete x _)
  | insert y _ ih => exact .more ih (.insert y _)

/-- One more edit at any place can be brought into the pass. -/
theorem edit (h : Aligned n a b) (hedit : Edit b c) : ∃ m ≤ n + 1, Aligned m a c := by
  induction h generalizing c with
  | nil =>
      cases hedit
      exact ⟨1, le_rfl, .insert _ .nil⟩
  | @same x n l l' h ih =>
      cases hedit with
      | insert y => exact ⟨n + 1, le_rfl, .insert y (.same x h)⟩
      | delete => exact ⟨n + 1, le_rfl, .delete x h⟩
      | replace _ y => exact ⟨n + 1, le_rfl, .replace x y h⟩
      | skip _ hrest =>
          obtain ⟨m, hm, hal⟩ := ih hrest
          exact ⟨m, hm, .same x hal⟩
  | @replace x y n l l' h ih =>
      cases hedit with
      | insert z => exact ⟨n + 2, le_rfl, .insert z (.replace x y h)⟩
      | delete => exact ⟨n + 1, Nat.le_succ _, .delete x h⟩
      | replace _ z => exact ⟨n + 1, Nat.le_succ _, .replace x z h⟩
      | skip _ hrest =>
          obtain ⟨m, hm, hal⟩ := ih hrest
          exact ⟨m + 1, Nat.succ_le_succ hm, .replace x y hal⟩
  | @delete x n l l' h ih =>
      obtain ⟨m, hm, hal⟩ := ih hedit
      exact ⟨m + 1, Nat.succ_le_succ hm, .delete x hal⟩
  | @insert y n l l' h ih =>
      cases hedit with
      | insert z => exact ⟨n + 2, le_rfl, .insert z (.insert y h)⟩
      | delete => exact ⟨n, by omega, h⟩
      | replace _ z => exact ⟨n + 1, Nat.le_succ _, .insert z h⟩
      | skip _ hrest =>
          obtain ⟨m, hm, hal⟩ := ih hrest
          exact ⟨m + 1, Nat.succ_le_succ hm, .insert y hal⟩

theorem append (h : Aligned m a b) (h' : Aligned n c d) : Aligned (m + n) (a ++ c) (b ++ d) := by
  induction h with
  | nil => rwa [Nat.zero_add]
  | same x _ ih => exact .same x ih
  | replace x y _ ih => exact Nat.succ_add _ n ▸ .replace x y ih
  | delete x _ ih => exact Nat.succ_add _ n ▸ .delete x ih
  | insert y _ ih => exact Nat.succ_add _ n ▸ .insert y ih

theorem reverse (h : Aligned n a b) : Aligned n a.reverse b.reverse := by
  induction h with
  | nil => exact .nil
  | same x _ ih =>
      rw [List.reverse_cons, List.reverse_cons]
      exact ih.append (.same x .nil)
  | replace x y _ ih =>
      rw [List.reverse_cons, List.reverse_cons]
      exact ih.append (.replace x y .nil)
  | delete x _ ih =>
      have h := ih.append (.delete x .nil)
      rwa [List.append_nil, ← List.reverse_cons] at h
  | insert y _ ih =>
      have h := ih.append (.insert y .nil)
      rwa [List.append_nil, ← List.reverse_cons] at h

/-- What an alignment does to the first part of a list. -/
theorem split (h : Aligned n (a ++ c) b) : ∃ m ≤ n, ∃ k ≤ b.length, Aligned m a (b.take k) := by
  generalize hw : a ++ c = whole at h
  induction h generalizing a with
  | nil =>
      obtain ⟨rfl, -⟩ := List.append_eq_nil_iff.mp hw
      exact ⟨0, le_rfl, 0, le_rfl, .nil⟩
  | @same x n l l' h ih =>
      rcases List.append_eq_cons_iff.mp hw with ⟨rfl, -⟩ | ⟨rest, rfl, hrest⟩
      · exact ⟨0, Nat.zero_le _, 0, Nat.zero_le _, .nil⟩
      · obtain ⟨m, hm, k, hk, hal⟩ := ih hrest.symm
        exact ⟨m, hm, k + 1, Nat.succ_le_succ hk, .same x hal⟩
  | @replace x y n l l' h ih =>
      rcases List.append_eq_cons_iff.mp hw with ⟨rfl, -⟩ | ⟨rest, rfl, hrest⟩
      · exact ⟨0, Nat.zero_le _, 0, Nat.zero_le _, .nil⟩
      · obtain ⟨m, hm, k, hk, hal⟩ := ih hrest.symm
        exact ⟨m + 1, Nat.succ_le_succ hm, k + 1, Nat.succ_le_succ hk, .replace x y hal⟩
  | @delete x n l l' h ih =>
      rcases List.append_eq_cons_iff.mp hw with ⟨rfl, -⟩ | ⟨rest, rfl, hrest⟩
      · exact ⟨0, Nat.zero_le _, 0, Nat.zero_le _, .nil⟩
      · obtain ⟨m, hm, k, hk, hal⟩ := ih hrest.symm
        exact ⟨m + 1, Nat.succ_le_succ hm, k, hk, .delete x hal⟩
  | @insert y n l l' h ih =>
      obtain ⟨m, hm, k, hk, hal⟩ := ih hw
      exact ⟨m + 1, Nat.succ_le_succ hm, k + 1, Nat.succ_le_succ hk, .insert y hal⟩

theorem symm (h : Aligned n a b) : Aligned n b a := by
  induction h with
  | nil => exact .nil
  | same x _ ih => exact .same x ih
  | replace x y _ ih => exact .replace y x ih
  | delete x _ ih => exact .insert x ih
  | insert y _ ih => exact .delete y ih

theorem eq_of_zero (h : Aligned 0 a b) : a = b := by
  generalize hn : 0 = n at h
  induction h with
  | nil => rfl
  | same x _ ih => rw [ih hn]
  | replace _ _ _ _ | delete _ _ _ | insert _ _ _ => omega

/-- The lengths differ by no more than the edits. -/
theorem length_le (h : Aligned n a b) : a.length ≤ b.length + n ∧ b.length ≤ a.length + n := by
  induction h with
  | nil => exact ⟨le_rfl, le_rfl⟩
  | same _ _ ih | replace _ _ _ ih | delete _ _ ih | insert _ _ ih =>
      simp only [List.length_cons]
      omega

end Aligned

/-- Any run of edits comes down to a pass with no more of them. -/
theorem Edits.aligned (h : Edits n a b) : ∃ m ≤ n, Aligned m a b := by
  induction h with
  | none l => exact ⟨0, le_rfl, .refl l⟩
  | more _ hedit ih =>
      obtain ⟨m, hm, hal⟩ := ih
      obtain ⟨k, hk, hal'⟩ := hal.edit hedit
      exact ⟨k, by omega, hal'⟩

/-! ## The distance -/

theorem levenshtein_le (h : Aligned n a b) : levenshtein a b ≤ n := Nat.sInf_le h.edits

theorem aligned_levenshtein (a b : List α) : Aligned (levenshtein a b) a b := by
  have hsome : {n | Edits n a b}.Nonempty := by
    have h := ((Aligned.nil_right a).append (Aligned.nil_left b)).edits
    rw [List.append_nil, List.nil_append] at h
    exact ⟨_, h⟩
  obtain ⟨m, hm, hal⟩ := Edits.aligned (Nat.sInf_mem hsome)
  obtain rfl : m = levenshtein a b := le_antisymm hm (levenshtein_le hal)
  exact hal

theorem levenshtein_comm (a b : List α) : levenshtein a b = levenshtein b a :=
  le_antisymm (levenshtein_le (aligned_levenshtein b a).symm)
    (levenshtein_le (aligned_levenshtein a b).symm)

theorem levenshtein_eq_zero_iff : levenshtein a b = 0 ↔ a = b := by
  constructor
  · intro h
    exact (h ▸ aligned_levenshtein a b).eq_of_zero
  · rintro rfl
    exact Nat.le_zero.mp (levenshtein_le (.refl a))

theorem levenshtein_triangle (a b c : List α) : levenshtein a c ≤ levenshtein a b + levenshtein b c :=
  Nat.sInf_le ((aligned_levenshtein a b).edits.trans (aligned_levenshtein b c).edits)

theorem levenshtein_reverse (a b : List α) : levenshtein a.reverse b.reverse = levenshtein a b := by
  refine le_antisymm (levenshtein_le (aligned_levenshtein a b).reverse) (levenshtein_le ?_)
  have h := (aligned_levenshtein a.reverse b.reverse).reverse
  rwa [List.reverse_reverse, List.reverse_reverse] at h

theorem levenshtein_nil_left (b : List α) : levenshtein [] b = b.length := by
  have h := (aligned_levenshtein [] b).length_le.2
  rw [List.length_nil, Nat.zero_add] at h
  exact le_antisymm (levenshtein_le (.nil_left b)) h

theorem levenshtein_nil_right (a : List α) : levenshtein a [] = a.length := by
  have h := (aligned_levenshtein a []).length_le.1
  rw [List.length_nil, Nat.zero_add] at h
  exact le_antisymm (levenshtein_le (.nil_right a)) h

theorem levenshtein_cons_cons [DecidableEq α] (x y : α) (a b : List α) :
    levenshtein (x :: a) (y :: b) = min (min (levenshtein a (y :: b) + 1) (levenshtein (x :: a) b + 1))
      (levenshtein a b + if x ≠ y then 1 else 0) := by
  apply le_antisymm
  · refine le_min (le_min ?_ ?_) ?_
    · exact levenshtein_le (.delete x (aligned_levenshtein a (y :: b)))
    · exact levenshtein_le (.insert y (aligned_levenshtein (x :: a) b))
    · split
      · exact levenshtein_le (.replace x y (aligned_levenshtein a b))
      · rename_i heq
        obtain rfl : x = y := not_not.mp heq
        exact levenshtein_le (.same x (aligned_levenshtein a b))
  · -- the first move of a shortest pass
    generalize hn : levenshtein (x :: a) (y :: b) = n
    have h := hn ▸ aligned_levenshtein (x :: a) (y :: b)
    cases h with
    | same _ h =>
        have hle := levenshtein_le h
        rw [if_neg (not_not.mpr rfl)]
        omega
    | replace _ _ h =>
        have hle := levenshtein_le h
        split <;> omega
    | delete _ h =>
        have hle := levenshtein_le h
        omega
    | insert _ h =>
        have hle := levenshtein_le h
        omega

/-- The recurrence at the other end. -/
theorem levenshtein_concat_concat [DecidableEq α] (x y : α) (a b : List α) :
    levenshtein (a ++ [x]) (b ++ [y]) =
      min (min (levenshtein a (b ++ [y]) + 1) (levenshtein (a ++ [x]) b + 1))
        (levenshtein a b + if x ≠ y then 1 else 0) := by
  have h := levenshtein_cons_cons x y a.reverse b.reverse
  simp only [← List.reverse_concat, ← List.concat_eq_append, levenshtein_reverse] at h ⊢
  exact h

/-- The distance from a first part of a list to some first part of another is no more than that
from list to list. -/
theorem exists_take_levenshtein_le (a c b : List α) :
    ∃ k ≤ b.length, levenshtein a (b.take k) ≤ levenshtein (a ++ c) b := by
  obtain ⟨m, hm, k, hk, hal⟩ := (aligned_levenshtein (a ++ c) b).split
  exact ⟨k, hk, (levenshtein_le hal).trans hm⟩

theorem length_sub_le_levenshtein (a b : List α) : a.length - b.length ≤ levenshtein a b ∧
    b.length - a.length ≤ levenshtein a b := by
  have h := (aligned_levenshtein a b).length_le
  omega

end Devscout.Lib
