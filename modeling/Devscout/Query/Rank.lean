/-
# Devscout.Query.Rank -- how an impact is ranked

The files of an impact are ranked by a power iteration: each passes its rank on in equal shares
to the files it leads to, and what the damping takes goes back to the seeds. Over the rationals
nothing is lost on the way and nothing is made: a file that leads nowhere gives its rank to the
seeds too, and targets outside the list are dropped before the shares are taken.

The adjacency is a table of sets; the order in which a set yields its members is part of the
table here, and none of the results depends on it.
-/

import Mathlib
import Devscout.Lib.Mass
import Devscout.Lib.OrderedMap
import Devscout.Lib.Text

namespace Devscout.Query

open Lib Mass

namespace Rank

variable (nodes : List Str)

/-- A number at each position of the list. -/
abbrev Ranks := Fin nodes.length → ℚ

def nodeAt (i : Fin nodes.length) : Str := nodes.get i

/-- `idx`: where a node stands; of a repeated one the last place. -/
def idx (s : Str) : Option (Fin nodes.length) :=
  (List.finRange nodes.length).reverse.find? fun i => nodeAt nodes i = s

/-- The seeds that are nodes, each with the weight 1, and the sum of the weights. -/
def seedWeights (seeds : List Str) : Ranks nodes × ℚ :=
  seeds.foldl (fun acc s => match idx nodes s with
    | some i => (Function.update acc.1 i 1, acc.2 + 1)
    | none => acc) (fun _ => 0, 0)

def teleport (seeds : List Str) : Ranks nodes :=
  let (weights, wsum) := seedWeights nodes seeds
  if wsum = 0 then fun _ => 1 / (nodes.length : ℚ) else fun i => weights i / wsum

variable (fwdAdj : Str → Option (List Str))

/-- `out_lists`. -/
def outList (i : Fin nodes.length) : List (Fin nodes.length) :=
  match fwdAdj (nodeAt nodes i) with
  | none => []
  | some targets => targets.filterMap (idx nodes)

variable (seeds : List Str) (damping : ℚ)

/-- What one node adds to the next ranks. -/
def spread (rank next : Ranks nodes) (i : Fin nodes.length) : Ranks nodes :=
  let r := rank i
  let outs := outList nodes fwdAdj i
  if r = 0 then next
  else if outs = [] then fun k => next k + damping * r * teleport nodes seeds k
  else outs.foldl (deposit (damping * r / (outs.length : ℚ))) next

/-- One turn of the iteration. -/
def turn (rank : Ranks nodes) : Ranks nodes :=
  let next := (List.finRange nodes.length).foldl (spread nodes fwdAdj seeds damping rank) fun _ => 0
  fun k => next k + (1 - damping) * teleport nodes seeds k

def ranksAfter : Nat → Ranks nodes
  | 0 => teleport nodes seeds
  | n + 1 => turn nodes fwdAdj seeds damping (ranksAfter n)

def personalizedPageRank (iterations : Nat) : OrderedMap Str ℚ :=
  if nodes = [] then .empty
  else OrderedMap.empty.insertAll ((List.finRange nodes.length).map fun i =>
    (nodeAt nodes i, ranksAfter nodes fwdAdj seeds damping iterations i))

/-! ## Teleport targets -/

section Targets

variable {nodes fwdAdj seeds damping}

/-- A node that mass is given to: a seed, or any node when no seed is one. -/
def Target (nodes seeds : List Str) (t : Str) : Prop := t ∈ nodes ∧ (t ∈ seeds ∨ ∀ s ∈ seeds, s ∉ nodes)

theorem nodeAt_mem (i : Fin nodes.length) : nodeAt nodes i ∈ nodes := List.get_mem nodes i

theorem nodeAt_inj (hnodes : nodes.Nodup) {i j : Fin nodes.length} (h : nodeAt nodes i = nodeAt nodes j) : i = j :=
  hnodes.get_inj_iff.mp h

theorem nodeAt_of_idx {s : Str} {i : Fin nodes.length} (h : idx nodes s = some i) : nodeAt nodes i = s := by
  rw [idx] at h
  have hi := List.find?_some h
  exact of_decide_eq_true hi

theorem idx_eq_some_iff (hnodes : nodes.Nodup) {s : Str} {i : Fin nodes.length} :
    idx nodes s = some i ↔ nodeAt nodes i = s := by
  constructor
  · exact nodeAt_of_idx
  · intro h
    have hsome : (idx nodes s).isSome := by
      rw [idx, List.find?_isSome]
      exact ⟨i, List.mem_reverse.mpr (List.mem_finRange i), decide_eq_true h⟩
    obtain ⟨j, hj⟩ := Option.isSome_iff_exists.mp hsome
    rw [hj, nodeAt_inj hnodes ((nodeAt_of_idx hj).trans h.symm)]

theorem idx_eq_none_iff {s : Str} : idx nodes s = none ↔ s ∉ nodes := by
  rw [idx, List.find?_eq_none]
  constructor
  · intro h hs
    obtain ⟨i, hi⟩ : ∃ i, nodeAt nodes i = s := List.mem_iff_get.mp hs
    exact h i (List.mem_reverse.mpr (List.mem_finRange i)) (decide_eq_true hi)
  · intro h i _ hi
    exact h (by rw [← of_decide_eq_true hi]; exact nodeAt_mem i)

/-- The weights of the seeds that are nodes. -/
theorem seedWeights_eq (hnodes : nodes.Nodup) (hseeds : seeds.Nodup) :
    (seedWeights nodes seeds).1 = (fun i => if nodeAt nodes i ∈ seeds then 1 else 0) ∧
      (seedWeights nodes seeds).2 = total (fun i : Fin nodes.length => if nodeAt nodes i ∈ seeds then (1 : ℚ) else 0) := by
  induction seeds using List.reverseRecOn with
  | nil =>
      refine ⟨by simp [seedWeights], ?_⟩
      simp only [List.not_mem_nil, if_false]
      exact total_zero.symm
  | append_singleton seeds s ih =>
      obtain ⟨hfst, hsnd⟩ := ih (List.Nodup.of_append_left hseeds)
      have hs : s ∉ seeds := fun h => (List.disjoint_of_nodup_append hseeds) h List.mem_cons_self
      have hstep : seedWeights nodes (seeds ++ [s]) = match idx nodes s with
          | some i => (Function.update (seedWeights nodes seeds).1 i 1, (seedWeights nodes seeds).2 + 1)
          | none => seedWeights nodes seeds := by
        rw [seedWeights, List.foldl_append]
        rfl
      rw [hstep]
      cases hidx : idx nodes s with
      | none =>
          have hsame : (fun i : Fin nodes.length => if nodeAt nodes i ∈ seeds ++ [s] then (1 : ℚ) else 0) =
              fun i => if nodeAt nodes i ∈ seeds then 1 else 0 := by
            funext i
            have hne : nodeAt nodes i ≠ s := fun h => idx_eq_none_iff.mp hidx (by rw [← h]; exact nodeAt_mem i)
            simp [hne]
          rw [hsame]
          exact ⟨hfst, hsnd⟩
      | some j =>
          have hj := (idx_eq_some_iff hnodes).mp hidx
          -- the new seed stands where no weight was before
          have hzero : (seedWeights nodes seeds).1 j = 0 := by
            rw [hfst]
            show (if nodeAt nodes j ∈ seeds then (1 : ℚ) else 0) = 0
            rw [hj, if_neg hs]
          have hupdate : Function.update (seedWeights nodes seeds).1 j 1 =
              deposit 1 (seedWeights nodes seeds).1 j := by
            rw [deposit, hzero, zero_add]
          have hpoint : (fun i : Fin nodes.length => if nodeAt nodes i ∈ seeds ++ [s] then (1 : ℚ) else 0) =
              deposit 1 (seedWeights nodes seeds).1 j := by
            funext i
            rw [deposit_apply, hfst]
            by_cases hi : i = j
            · subst hi
              simp [hj, hs]
            · have hne : nodeAt nodes i ≠ s := fun h => hi (nodeAt_inj hnodes (h.trans hj.symm))
              simp [hi, hne]
          refine ⟨hupdate.trans hpoint.symm, ?_⟩
          rw [hpoint, total_deposit, hfst, ← hsnd]

theorem total_const (h : nodes ≠ []) : total (fun _ : Fin nodes.length => 1 / (nodes.length : ℚ)) = 1 := by
  have hlen : (nodes.length : ℚ) ≠ 0 := Nat.cast_ne_zero.mpr (List.length_pos_iff.mpr h).ne'
  rw [total, Finset.sum_const, Finset.card_univ, Fintype.card_fin, nsmul_eq_mul, mul_one_div_cancel hlen]

/-- The weights of the seeds, or the same weight everywhere. -/
theorem teleport_eq (hnodes : nodes.Nodup) (hseeds : seeds.Nodup) (i : Fin nodes.length) :
    teleport nodes seeds i =
      if total (fun i : Fin nodes.length => if nodeAt nodes i ∈ seeds then (1 : ℚ) else 0) = 0 then
        1 / (nodes.length : ℚ)
      else (if nodeAt nodes i ∈ seeds then 1 else 0) /
        total fun i : Fin nodes.length => if nodeAt nodes i ∈ seeds then (1 : ℚ) else 0 := by
  obtain ⟨hfst, hsnd⟩ := seedWeights_eq hnodes hseeds
  unfold teleport
  simp only [hfst, hsnd]
  split <;> rfl

theorem weight_nonneg (i : Fin nodes.length) : (0 : ℚ) ≤ if nodeAt nodes i ∈ seeds then 1 else 0 := by
  split
  · exact zero_le_one
  · exact le_refl 0

theorem teleport_nonneg (hnodes : nodes.Nodup) (hseeds : seeds.Nodup) (i : Fin nodes.length) :
    0 ≤ teleport nodes seeds i := by
  rw [teleport_eq hnodes hseeds]
  split
  · exact one_div_nonneg.mpr (Nat.cast_nonneg _)
  · exact div_nonneg (weight_nonneg i) (Finset.sum_nonneg fun j _ => weight_nonneg j)

theorem total_teleport (hnodes : nodes.Nodup) (hseeds : seeds.Nodup) (hne : nodes ≠ []) :
    total (teleport nodes seeds) = 1 := by
  rw [funext (teleport_eq hnodes hseeds)]
  split
  · exact total_const hne
  · rename_i h
    simp only [div_eq_inv_mul, total_mul]
    exact inv_mul_cancel₀ h

/-- Mass is given to the targets only. -/
theorem target_of_teleport (hnodes : nodes.Nodup) (hseeds : seeds.Nodup) {i : Fin nodes.length}
    (h : teleport nodes seeds i ≠ 0) : Target nodes seeds (nodeAt nodes i) := by
  refine ⟨nodeAt_mem i, ?_⟩
  rw [teleport_eq hnodes hseeds] at h
  split at h
  · -- no weight at all, so no seed is a node
    rename_i hzero
    refine .inr fun s hs hmem => ?_
    obtain ⟨j, rfl⟩ : ∃ j, nodeAt nodes j = s := List.mem_iff_get.mp hmem
    have hj := (Finset.sum_eq_zero_iff_of_nonneg fun j _ => weight_nonneg j).mp hzero j (Finset.mem_univ j)
    rw [if_pos hs] at hj
    exact one_ne_zero hj
  · refine .inl ?_
    by_contra hno
    rw [if_neg hno, zero_div] at h
    exact h rfl

end Targets

/-! ## One turn -/

section Turn

variable {nodes fwdAdj seeds damping}

/-- One node of the list leads to another. -/
def Leads (nodes : List Str) (fwdAdj : Str → Option (List Str)) (a b : Str) : Prop :=
  a ∈ nodes ∧ b ∈ nodes ∧ ∃ targets, fwdAdj a = some targets ∧ b ∈ targets

def Reached (nodes : List Str) (fwdAdj : Str → Option (List Str)) (seeds : List Str) (b : Str) : Prop :=
  ∃ t, Target nodes seeds t ∧ Relation.ReflTransGen (Leads nodes fwdAdj) t b

theorem leads_of_mem {i k : Fin nodes.length} (h : k ∈ outList nodes fwdAdj i) :
    Leads nodes fwdAdj (nodeAt nodes i) (nodeAt nodes k) := by
  refine ⟨nodeAt_mem i, nodeAt_mem k, ?_⟩
  unfold outList at h
  split at h
  · cases h
  · rename_i targets htargets
    obtain ⟨s, hs, hidx⟩ := List.mem_filterMap.mp h
    exact ⟨targets, htargets, by rw [nodeAt_of_idx hidx]; exact hs⟩

/-- What holds of the ranks after every turn. -/
structure Distributed (nodes : List Str) (fwdAdj : Str → Option (List Str)) (seeds : List Str)
    (rank : Ranks nodes) : Prop where
  nonneg : ∀ i, 0 ≤ rank i
  whole : total rank = 1
  reached : ∀ i, ¬Reached nodes fwdAdj seeds (nodeAt nodes i) → rank i = 0

variable (hnodes : nodes.Nodup) (hseeds : seeds.Nodup)

include hnodes hseeds

theorem teleport_unreached {i : Fin nodes.length} (h : ¬Reached nodes fwdAdj seeds (nodeAt nodes i)) :
    teleport nodes seeds i = 0 := by
  by_contra hne
  exact h ⟨nodeAt nodes i, target_of_teleport hnodes hseeds hne, .refl⟩

theorem distributed_teleport (hne : nodes ≠ []) :
    Distributed nodes fwdAdj seeds (teleport nodes seeds) where
  nonneg := teleport_nonneg hnodes hseeds
  whole := total_teleport hnodes hseeds hne
  reached _ := teleport_unreached hnodes hseeds

variable {rank next : Ranks nodes} {i : Fin nodes.length}

/-- A node passes on what the damping leaves of its rank. -/
theorem total_spread (hne : nodes ≠ []) :
    total (spread nodes fwdAdj seeds damping rank next i) = total next + damping * rank i := by
  unfold spread
  simp only
  split
  · rename_i hr
    rw [hr, mul_zero, add_zero]
  · split
    · rw [total_add, total_mul, total_teleport hnodes hseeds hne, mul_one]
    · rename_i houts
      rw [total_foldl_deposit, shares houts]

theorem spread_nonneg (hdamping : 0 ≤ damping) (hrank : ∀ i, 0 ≤ rank i) (hnext : ∀ k, 0 ≤ next k)
    (k : Fin nodes.length) : 0 ≤ spread nodes fwdAdj seeds damping rank next i k := by
  have hpassed : 0 ≤ damping * rank i := mul_nonneg hdamping (hrank i)
  unfold spread
  split
  · exact hnext k
  · split
    · exact add_nonneg (hnext k) (mul_nonneg hpassed (teleport_nonneg hnodes hseeds k))
    · rw [foldl_deposit_apply]
      exact add_nonneg (hnext k) (mul_nonneg (Nat.cast_nonneg _) (div_nonneg hpassed (Nat.cast_nonneg _)))

/-- Nothing comes to a node that is not reached. -/
theorem spread_unreached (hrank : ∀ i, ¬Reached nodes fwdAdj seeds (nodeAt nodes i) → rank i = 0)
    {k : Fin nodes.length} (hk : ¬Reached nodes fwdAdj seeds (nodeAt nodes k)) :
    spread nodes fwdAdj seeds damping rank next i k = next k := by
  unfold spread
  split
  · rfl
  · rename_i hr
    split
    · show next k + damping * rank i * teleport nodes seeds k = next k
      rw [teleport_unreached hnodes hseeds hk, mul_zero, add_zero]
    · have hcount : (outList nodes fwdAdj i).count k = 0 := by
        rw [List.count_eq_zero]
        intro hmem
        obtain ⟨t, ht, hpath⟩ := not_not.mp fun hi => hr (hrank i hi)
        exact hk ⟨t, ht, hpath.tail (leads_of_mem hmem)⟩
      rw [foldl_deposit_apply, hcount, Nat.cast_zero, zero_mul, add_zero]

theorem total_foldl_spread (hne : nodes ≠ []) (l : List (Fin nodes.length)) (next : Ranks nodes) :
    total (l.foldl (spread nodes fwdAdj seeds damping rank) next) =
      total next + damping * (l.map rank).sum := by
  induction l generalizing next with
  | nil => simp
  | cons i l ih =>
      rw [List.foldl_cons, ih, total_spread hnodes hseeds hne, List.map_cons, List.sum_cons]
      ring

/-- **One turn** keeps the mass, and gives none to a node that is not reached. -/
theorem distributed_turn (hne : nodes ≠ []) (hlow : 0 ≤ damping) (hhigh : damping ≤ 1)
    (h : Distributed nodes fwdAdj seeds rank) :
    Distributed nodes fwdAdj seeds (turn nodes fwdAdj seeds damping rank) where
  nonneg k := by
    have hall : ∀ (l : List (Fin nodes.length)) (next : Ranks nodes), (∀ k, 0 ≤ next k) →
        ∀ k, 0 ≤ l.foldl (spread nodes fwdAdj seeds damping rank) next k := by
      intro l
      induction l with
      | nil => exact fun next hnext => hnext
      | cons i l ih => exact fun next hnext => ih _ (spread_nonneg hnodes hseeds hlow h.nonneg hnext)
    exact add_nonneg (hall _ _ (fun _ => le_refl 0) k)
      (mul_nonneg (sub_nonneg.mpr hhigh) (teleport_nonneg hnodes hseeds k))
  whole := by
    have hsum : ((List.finRange nodes.length).map rank).sum = 1 := by
      rw [← h.whole, total, Fin.sum_univ_def]
    have hnext : total ((List.finRange nodes.length).foldl (spread nodes fwdAdj seeds damping rank) fun _ => 0) =
        _ := total_foldl_spread hnodes hseeds hne (List.finRange nodes.length) fun _ => 0
    rw [turn, total_add, total_mul, total_teleport hnodes hseeds hne, hnext, total_zero, hsum]
    ring
  reached k hk := by
    have hall : ∀ (l : List (Fin nodes.length)) (next : Ranks nodes),
        l.foldl (spread nodes fwdAdj seeds damping rank) next k = next k := by
      intro l
      induction l with
      | nil => exact fun next => rfl
      | cons i l ih =>
          intro next
          rw [List.foldl_cons, ih, spread_unreached hnodes hseeds h.reached hk]
    show _ + (1 - damping) * teleport nodes seeds k = 0
    rw [hall, teleport_unreached hnodes hseeds hk, mul_zero, add_zero]

/-- And so does every number of turns. -/
theorem distributed_ranksAfter (hne : nodes ≠ []) (hlow : 0 ≤ damping) (hhigh : damping ≤ 1) (n : Nat) :
    Distributed nodes fwdAdj seeds (ranksAfter nodes fwdAdj seeds damping n) := by
  induction n with
  | zero => exact distributed_teleport hnodes hseeds hne
  | succ n ih => exact distributed_turn hnodes hseeds hne hlow hhigh ih

end Turn

/-- **Ranking neither loses nor creates mass.** The ranks are those of the nodes, none is negative,
together they are 1, and a node that is not reached from a target has none. -/
theorem pageRank_distributed {nodes : List Str} (hnodes : nodes.Nodup) (fwdAdj : Str → Option (List Str))
    {seeds : List Str} (hseeds : seeds.Nodup) {damping : ℚ} (hlow : 0 ≤ damping) (hhigh : damping ≤ 1)
    (iterations : Nat) :
    (personalizedPageRank nodes fwdAdj seeds damping iterations).keys = nodes ∧
      (∀ e ∈ (personalizedPageRank nodes fwdAdj seeds damping iterations).entries, 0 ≤ e.2) ∧
      (nodes ≠ [] →
        ((personalizedPageRank nodes fwdAdj seeds damping iterations).entries.map Prod.snd).sum = 1) ∧
      ∀ e ∈ (personalizedPageRank nodes fwdAdj seeds damping iterations).entries,
        ¬Reached nodes fwdAdj seeds e.1 → e.2 = 0 := by
  by_cases hne : nodes = []
  · subst hne
    have hempty : ∀ e, e ∉ (personalizedPageRank [] fwdAdj seeds damping iterations).entries :=
      fun e he => List.not_mem_nil he
    exact ⟨rfl, fun e he => absurd he (hempty e), fun h => absurd rfl h, fun e he => absurd he (hempty e)⟩
  have hdist : Distributed nodes fwdAdj seeds (ranksAfter nodes fwdAdj seeds damping iterations) :=
    distributed_ranksAfter hnodes hseeds hne hlow hhigh iterations
  have hkeys : (List.finRange nodes.length).map (nodeAt nodes) = nodes := List.map_get_finRange nodes
  -- the nodes are distinct, so that the table holds one entry for each position
  have hentries : (personalizedPageRank nodes fwdAdj seeds damping iterations).entries =
      (List.finRange nodes.length).map fun i =>
        (nodeAt nodes i, ranksAfter nodes fwdAdj seeds damping iterations i) := by
    rw [personalizedPageRank, if_neg hne]
    have hdistinct : (((List.finRange nodes.length).map fun i =>
        (nodeAt nodes i, ranksAfter nodes fwdAdj seeds damping iterations i)).map Prod.fst).Nodup := by
      rw [List.map_map]
      show ((List.finRange nodes.length).map (nodeAt nodes)).Nodup
      rw [hkeys]
      exact hnodes
    exact OrderedMap.entries_insertAll hdistinct
  refine ⟨?_, ?_, ?_, ?_⟩
  · rw [OrderedMap.keys, hentries, List.map_map]
    exact hkeys
  · rw [hentries]
    intro e he
    obtain ⟨i, -, rfl⟩ := List.mem_map.mp he
    exact hdist.nonneg i
  · intro _
    rw [hentries, List.map_map, ← hdist.whole, total, Fin.sum_univ_def]
    rfl
  · rw [hentries]
    intro e he hno
    obtain ⟨i, -, rfl⟩ := List.mem_map.mp he
    exact hdist.reached i hno

/-- The first file leads to the second, the second to one outside of the list, the third nowhere. -/
def smallAdjacency : Str → Option (List Str) := fun s =>
  if s = "a".toList then some ["b".toList] else if s = "b".toList then some ["z".toList] else none

theorem pageRank_small :
    ((personalizedPageRank ["a".toList, "b".toList, "c".toList] smallAdjacency ["a".toList] (17 / 20) 20).entries.map
      Prod.snd).sum = 1 :=
  (pageRank_distributed (by decide : ["a".toList, "b".toList, "c".toList].Nodup) smallAdjacency
    (by decide : ["a".toList].Nodup) (by norm_num : (0 : ℚ) ≤ 17 / 20) (by norm_num) 20).2.2.1 (by decide)

end Rank

end Devscout.Query
