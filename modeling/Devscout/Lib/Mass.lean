/-
# Devscout.Lib.Mass -- mass on finitely many places

Mass is a number at each of finitely many places. A program that moves mass about deposits
shares of it, one place after the other; what it has deposited at a place is a count of how
often it came there, and the whole grows by what was deposited, wherever that was.
-/

import Mathlib

namespace Devscout.Lib.Mass

section Whole

variable {V K : Type} [Fintype V] [Field K]

def total (x : V → K) : K := ∑ v, x v

theorem total_zero : total (fun _ : V => (0 : K)) = 0 := Finset.sum_const_zero

theorem total_add (x y : V → K) : total (fun v => x v + y v) = total x + total y := Finset.sum_add_distrib

theorem total_mul (c : K) (x : V → K) : total (fun v => c * x v) = c * total x :=
  (Finset.mul_sum Finset.univ x c).symm

omit [Fintype V] in
/-- Shares of something divide it up. -/
theorem shares [CharZero K] {vs : List V} (h : vs ≠ []) (m : K) : (vs.length : K) * (m / (vs.length : K)) = m :=
  mul_div_cancel₀ m (Nat.cast_ne_zero.mpr (List.length_pos_iff.mpr h).ne')

end Whole

variable {V K : Type} [DecidableEq V] [Field K]

/-- More mass at one place. -/
def deposit (c : K) (x : V → K) (v : V) : V → K := Function.update x v (x v + c)

theorem deposit_apply (c : K) (x : V → K) (v w : V) : deposit c x v w = x w + if w = v then c else 0 := by
  rw [deposit]
  by_cases h : w = v
  · subst h
    rw [Function.update_self, if_pos rfl]
  · rw [Function.update_of_ne h, if_neg h, add_zero]

/-- One deposit after the other. -/
theorem foldl_deposit_apply (c : K) (vs : List V) (x : V → K) (w : V) :
    vs.foldl (deposit c) x w = x w + (vs.count w : K) * c := by
  induction vs generalizing x with
  | nil => simp
  | cons v vs ih =>
      rw [List.foldl_cons, ih, deposit_apply, List.count_cons]
      by_cases h : w = v
      · subst h
        rw [if_pos rfl, if_pos (beq_self_eq_true w)]
        push_cast
        ring
      · rw [if_neg h, if_neg (by rw [beq_iff_eq]; exact fun hv => h hv.symm), add_zero, Nat.add_zero]

variable [Fintype V]

theorem total_deposit (c : K) (x : V → K) (v : V) : total (deposit c x v) = total x + c := by
  have hpoint : deposit c x v = fun w => x w + if w = v then c else 0 := funext (deposit_apply c x v)
  rw [hpoint, total_add]
  congr 1
  rw [total, Finset.sum_ite_eq' Finset.univ v, if_pos (Finset.mem_univ v)]

/-- **The whole grows by what was deposited.** -/
theorem total_foldl_deposit (c : K) (vs : List V) (x : V → K) :
    total (vs.foldl (deposit c) x) = total x + (vs.length : K) * c := by
  induction vs generalizing x with
  | nil => simp
  | cons v vs ih =>
      rw [List.foldl_cons, ih, total_deposit, List.length_cons]
      push_cast
      ring

end Devscout.Lib.Mass
