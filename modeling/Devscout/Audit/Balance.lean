/-
# Devscout.Audit.Balance -- every edge is counted once

Each edge of the universe adds one to the edges of its tier and one to exactly one of the
verdicts, and each false positive one to exactly one of its ways. What one turn of the loop
keeps, the report has. Recall is a count of records under conditions that get weaker, and what
misses under the weakest is what the table of misses was tallied from.
-/

import Devscout.Audit.Score

namespace Devscout.Audit

open Lib

/-! ## One edge -/

/-- The counters of a tier balance. -/
structure TierStats.Balanced (s : TierStats) : Prop where
  judged : s.edges = s.tp + s.fp + s.unjudged
  ways : s.fp = s.fpNoSite + s.fpExternalSite + s.fpWrongTarget
  structural : s.structural ≤ s.fp

theorem balanced_empty : TierStats.Balanced {} := ⟨rfl, rfl, Nat.le_refl 0⟩

theorem edges_count (s : TierStats) (v : Verdict) (b : Bool) : (s.count v b).edges = s.edges + 1 := by
  rcases v with _ | moved | ⟨class_, evidence⟩ <;> rfl

/-- One verdict keeps the balance. -/
theorem TierStats.Balanced.count {s : TierStats} (h : s.Balanced) (v : Verdict) (b : Bool) :
    (s.count v b).Balanced := by
  obtain ⟨hjudged, hways, hstructural⟩ := h
  rcases v with _ | moved | ⟨class_, evidence⟩
  · refine ⟨?_, hways, hstructural⟩
    show s.edges + 1 = s.tp + s.fp + (s.unjudged + 1)
    omega
  · refine ⟨?_, hways, hstructural⟩
    show s.edges + 1 = s.tp + 1 + s.fp + s.unjudged
    omega
  · refine ⟨?_, ?_, ?_⟩
    · show s.edges + 1 = s.tp + (s.fp + 1) + s.unjudged
      omega
    · -- exactly one way is counted
      show s.fp + 1 = s.fpNoSite + (if class_ = .noSite then 1 else 0) +
        (s.fpExternalSite + if class_ = .external then 1 else 0) +
          (s.fpWrongTarget + if class_ = .wrongTarget then 1 else 0)
      rcases class_ with _ | _ | _ <;> simp <;> omega
    · show s.structural + (if b = true then 1 else 0) ≤ s.fp + 1
      split <;> omega

theorem scoreEdge_tiers (inp : Inputs) (s : Ledger) (e : EdgeRow) :
    (scoreEdge inp s e).tiers =
      Function.update s.tiers e.tier ((s.tiers e.tier).count (judge inp e) ((structuralOf inp e).getD false)) := by
  unfold scoreEdge
  dsimp only
  split <;> simp_all

/-- The edges of all tiers. -/
def edgesOf (tiers : Tier → TierStats) : Nat := (Tier.ORDER.map fun t => (tiers t).edges).sum

theorem edgesOf_update (tiers : Tier → TierStats) (t : Tier) (s : TierStats) :
    edgesOf (Function.update tiers t s) + (tiers t).edges = edgesOf tiers + s.edges := by
  rcases t <;> simp [edgesOf, Tier.ORDER, Function.update] <;> omega

/-! ## The loop -/

/-- What the loop keeps: every tier balances, and together they have every edge so far. -/
theorem foldl_scoreEdge (inp : Inputs) (es : List EdgeRow) (s : Ledger) (hs : ∀ t, (s.tiers t).Balanced) :
    (∀ t, ((es.foldl (scoreEdge inp) s).tiers t).Balanced) ∧
      edgesOf (es.foldl (scoreEdge inp) s).tiers = edgesOf s.tiers + es.length := by
  induction es generalizing s with
  | nil => exact ⟨hs, rfl⟩
  | cons e es ih =>
      have hstep : ∀ t, ((scoreEdge inp s e).tiers t).Balanced := by
        intro t
        rw [scoreEdge_tiers]
        by_cases ht : t = e.tier
        · rw [ht, Function.update_self]
          exact (hs e.tier).count _ _
        · rw [Function.update_of_ne ht]
          exact hs t
      obtain ⟨hbalanced, hedges⟩ := ih (scoreEdge inp s e) hstep
      refine ⟨hbalanced, ?_⟩
      rw [List.foldl_cons, hedges, List.length_cons]
      have hupdate := edgesOf_update s.tiers e.tier
        ((s.tiers e.tier).count (judge inp e) ((structuralOf inp e).getD false))
      rw [edges_count, ← scoreEdge_tiers] at hupdate
      omega

theorem sum_tiersOrdered (tiers : Tier → TierStats) :
    ((tiersOrdered tiers).map fun t => t.2.edges).sum = edgesOf tiers := by
  have hfilter (ts : List Tier) : ((ts.filter fun t => 0 < (tiers t).edges).map fun t => (tiers t).edges).sum =
      (ts.map fun t => (tiers t).edges).sum := by
    induction ts with
    | nil => rfl
    | cons t ts ih =>
        rw [List.filter_cons]
        split
        · rw [List.map_cons, List.map_cons, List.sum_cons, List.sum_cons, ih]
        · rename_i hzero
          rw [ih, List.map_cons, List.sum_cons]
          simp only [decide_eq_true_eq] at hzero
          omega
  rw [tiersOrdered, List.map_map]
  exact hfilter Tier.ORDER

/-! ## Recall -/

section Recall

variable (inp : Inputs)

/-- A weaker condition on the tier hits no less. -/
theorem siteHit_mono {p q : Tier → Bool} (h : ∀ t, p t = true → q t = true) (r : OracleRef)
    (hit : siteHit inp p r = true) : siteHit inp q r = true := by
  unfold siteHit at hit ⊢
  rcases hget : (edgesBySite inp).get? (r.file, r.startLine) with _ | es
  · rw [hget] at hit
    cases hit
  · rw [hget, Option.any_some, List.any_eq_true] at hit
    rw [Option.any_some, List.any_eq_true]
    obtain ⟨e, he, hmatch⟩ := hit
    refine ⟨e, he, ?_⟩
    simp only [Bool.and_eq_true] at hmatch ⊢
    exact ⟨⟨h e.tier hmatch.1.1, hmatch.1.2⟩, hmatch.2⟩

theorem dRecords_target {r : OracleRef} (h : r ∈ dRecords inp) : r.target.isSome = true := by
  have hknown := (List.mem_filter.mp h).2
  simp only [Bool.and_eq_true] at hknown
  have htarget := hknown.2
  unfold targetKnown at htarget
  rcases hr : r.target with _ | t
  · rw [hr] at htarget
    cases htarget
  · rfl

/-- The table of misses has every record that no edge hits. -/
theorem total_missed :
    (missed inp).total + (dRecords inp).countP (siteHit inp anyTier) = (dRecords inp).length := by
  have htargets : (((dRecords inp).filter fun r => !siteHit inp anyTier r).filterMap OracleRef.target).length =
      ((dRecords inp).filter fun r => !siteHit inp anyTier r).length :=
    List.filterMap_length_eq_length.mpr fun r hr => dRecords_target inp (List.mem_filter.mp hr).1
  have hsplit : (dRecords inp).length = (dRecords inp).countP (siteHit inp anyTier) +
      (dRecords inp).countP fun r => !siteHit inp anyTier r := by
    rw [List.length_eq_countP_add_countP (siteHit inp anyTier)]
    congr 1
    exact List.countP_congr fun r _ => by simp
  rw [missed, OrderedMap.total_tally, htargets, ← List.countP_eq_length_filter, hsplit]
  show 0 + _ + _ = _
  omega

end Recall

/-! ## The report -/

/-- The balances of a report. The misses are those tallied before the table is cut. -/
structure AuditReport.Balanced (inp : Inputs) (r : AuditReport) : Prop where
  tiers : ∀ t ∈ r.tiers, t.2.Balanced
  edges : (r.tiers.map fun t => t.2.edges).sum + r.edgesOutsideUniverse = inp.edges.length
  precise : r.recallPrecise ≤ r.recallPreciseExt
  ext : r.recallPreciseExt ≤ r.recallAll
  all : r.recallAll ≤ r.recallDenominator
  misses : (missed inp).total + r.recallAll = r.recallDenominator
  table : r.topMissed = (sorted (missed inp).entries).take 20

/-- **The report balances**, for all inputs. -/
theorem score_balanced (inp : Inputs) : (score inp).Balanced inp := by
  obtain ⟨hbalanced, hedges⟩ := foldl_scoreEdge inp (keptEdges inp) {} fun _ => balanced_empty
  refine ⟨?_, ?_, ?_, ?_, List.countP_le_length, total_missed inp, rfl⟩
  · intro t ht
    obtain ⟨u, -, rfl⟩ := List.mem_map.mp ht
    exact hbalanced u
  · show ((tiersOrdered (ledger inp).tiers).map fun t => t.2.edges).sum + _ = _
    rw [sum_tiersOrdered, ledger, hedges]
    show 0 + (keptEdges inp).length + _ = _
    rw [keptEdges, ← List.countP_eq_length_filter,
      List.length_eq_countP_add_countP fun e : EdgeRow => !unitsMethod inp || inp.universe_.contains e.fromFile,
      Nat.zero_add]
    congr 1
    exact List.countP_congr fun e _ => by simp
  · exact List.countP_mono_left fun r _ => siteHit_mono inp (by rintro (_ | _ | _ | _ | _ | _) <;> decide) r
  · exact List.countP_mono_left fun r _ => siteHit_mono inp (by rintro (_ | _ | _ | _ | _ | _) <;> decide) r

end Devscout.Audit
