/-
# Devscout.Query.Recount -- a walk that counts other referrers

An index knows of each file how many others refer to it, and the walk asks that number in
two places: a row says whether its file is a hub, and a hub that is hit in earnest is not
gone through but reported with its number. So two indexes that differ in nothing but these
numbers answer alike about a seed as long as the files that the walk asks about agree: the
files it records, for being a hub, and those it hits in earnest, for their number.
-/

import Devscout.Query.Brakes
import Devscout.Query.Routes

namespace Devscout.Query

open Lib

/-- The index with other edges in its graph and other referrers, and with the tables it has. -/
def GraphIndex.recount (x : GraphIndex) (edges : List Edge) (referrers : List (Str × Str)) :
    GraphIndex :=
  { x with graph := { x.graph with edges := edges }, hubReferrers := referrers }

section Recount

variable {x : GraphIndex} {edges : List Edge} {referrers : List (Str × Str)} {settings : Settings}
  {seedFiles seedIds : List Str} {hop hops : Nat} {more : Bool} {w : WalkState} {hit : Str × Hit}

/-! ## What the walk asks of a hit -/

theorem isHub_congr {y : GraphIndex} {max : Nat} {f : Str} (h : y.hubIndegree f = x.hubIndegree f) :
    isHub y max f = isHub x max f := by
  unfold isHub
  rw [h]

/-- Two indexes say the same of a hit. -/
structure CountsAlike (x y : GraphIndex) (settings : Settings) (seedFiles : List Str)
    (hit : Str × Hit) : Prop where
  recorded : hit.1 ∉ seedFiles → isHub y settings.hubMaxIndegree hit.1 = isHub x settings.hubMaxIndegree hit.1
  settled : hit.2.onlyGuessed = false → y.hubIndegree hit.1 = x.hubIndegree hit.1

theorem recordVisit_recount
    (h : CountsAlike x (x.recount edges referrers) settings seedFiles hit) :
    recordVisit (x.recount edges referrers) settings seedFiles hop hit.1 hit.2 w =
      recordVisit x settings seedFiles hop hit.1 hit.2 w := by
  unfold recordVisit
  by_cases hseed : hit.1 ∈ seedFiles
  · rw [if_pos (Or.inr hseed), if_pos (Or.inr hseed)]
  · rw [h.recorded hseed]

theorem settle_recount (h : CountsAlike x (x.recount edges referrers) settings seedFiles hit) :
    settle (x.recount edges referrers) settings seedFiles hop more w hit =
      settle x settings seedFiles hop more w hit := by
  unfold settle
  dsimp only
  rw [recordVisit_recount h]
  by_cases hguess : hit.2.onlyGuessed = true
  · rw [if_pos hguess, if_pos hguess]
  · rw [if_neg hguess, if_neg hguess]
    have hcount := h.settled (Bool.eq_false_iff.mpr hguess)
    rw [isHub_congr hcount, hcount]
    rfl

theorem foldl_settle_recount {hits : List (Str × Hit)}
    (h : ∀ hit ∈ hits, CountsAlike x (x.recount edges referrers) settings seedFiles hit) :
    hits.foldl (settle (x.recount edges referrers) settings seedFiles hop more) w =
      hits.foldl (settle x settings seedFiles hop more) w := by
  induction hits generalizing w with
  | nil => rfl
  | cons hit hits ih =>
      rw [List.foldl_cons, List.foldl_cons, settle_recount (h hit List.mem_cons_self)]
      exact ih fun hit' hmem => h hit' (List.mem_cons_of_mem hit hmem)

/-! ## Whole walks -/

/-- Every table a round reads is as it was. -/
theorem round_recount
    (h : ∀ hit ∈ (roundHits x settings w).entries,
      CountsAlike x (x.recount edges referrers) settings seedFiles hit) :
    round (x.recount edges referrers) settings seedFiles hop more w =
      round x settings seedFiles hop more w := by
  show (roundHits x settings w).entries.foldl
    (settle (x.recount edges referrers) settings seedFiles hop more) _ = _
  rw [foldl_settle_recount h]
  rfl

theorem walkAt_recount {n : Nat}
    (h : ∀ m < n, ∀ hit ∈ (hitsAt x settings seedIds hops m).entries,
      CountsAlike x (x.recount edges referrers) settings (seedFilesOf x seedIds) hit) :
    walkAt (x.recount edges referrers) settings seedIds hops n = walkAt x settings seedIds hops n := by
  induction n with
  | zero => rfl
  | succ n ih =>
      rw [walkAt, walkAt, ih fun m hlt => h m (Nat.lt_succ_of_lt hlt)]
      exact round_recount (h n (Nat.lt_succ_self n))

/-- **Where the counts of all hits agree, so do the walks.** -/
theorem impactWalk_recount
    (h : ∀ m < hops, ∀ hit ∈ (hitsAt x settings seedIds hops m).entries,
      CountsAlike x (x.recount edges referrers) settings (seedFilesOf x seedIds) hit) :
    impactWalk (x.recount edges referrers) seedIds hops settings = impactWalk x seedIds hops settings := by
  have hx : rounds x settings (seedFilesOf x seedIds) hops 1 (startState seedIds) =
      walkAt x settings seedIds hops hops := rounds_walkAt (Nat.zero_add hops)
  have hy : rounds (x.recount edges referrers) settings (seedFilesOf (x.recount edges referrers) seedIds)
      hops 1 (startState seedIds) = walkAt (x.recount edges referrers) settings seedIds hops hops :=
    rounds_walkAt (Nat.zero_add hops)
  unfold impactWalk
  dsimp only
  rw [hx, hy, walkAt_recount h]
  rfl

end Recount

/-! ## What a report says -/

section Reports

variable {index : GraphIndex} {settings : Settings} {seedFiles seedIds : List Str} {hop hops : Nat}
  {more : Bool} {w : WalkState}

/-- A report of the walk so far has the number of the index. -/
def Counted (index : GraphIndex) (w : WalkState) : Prop :=
  w.brakedFiles.All fun f n => n = index.hubIndegree f

theorem counted_settle (hit : Str × Hit) (h : Counted index w) :
    Counted index (settle index settings seedFiles hop more w hit) := by
  unfold Counted at h ⊢
  obtain ⟨-, -, -, -, hfiles⟩ := rest_recordVisit index settings seedFiles hop w hit
  rcases settle_cases w hit with ⟨ds, heq, -⟩ | ⟨heq, -⟩
  · rw [heq, rest_foldl_openDef.2.2, hfiles]
    exact h
  · rw [heq]
    dsimp only
    rw [hfiles]
    exact h.insert rfl

theorem counted_foldl_settle {hits : List (Str × Hit)} (h : Counted index w) :
    Counted index (hits.foldl (settle index settings seedFiles hop more) w) := by
  induction hits generalizing w with
  | nil => exact h
  | cons hit hits ih => exact ih (counted_settle hit h)

theorem counted_walkAt {n : Nat} : Counted index (walkAt index settings seedIds hops n) := by
  induction n with
  | zero => exact OrderedMap.All.nil
  | succ n ih => exact counted_foldl_settle (w := { walkAt index settings seedIds hops n with
      frontier := []
      fwdAdj := _
      braked := _ }) ih

/-- A file is reported with the number of others that refer to it. -/
theorem indegree_of_mem_brakedFiles {b : BrakedFile}
    (hb : b ∈ (impactWalk index seedIds hops settings).brakedFiles) :
    b.indegree = index.hubIndegree b.file := by
  have hwalk : rounds index settings (seedFilesOf index seedIds) hops 1 (startState seedIds) =
      walkAt index settings seedIds hops hops := rounds_walkAt (Nat.zero_add hops)
  unfold impactWalk at hb
  dsimp only at hb
  rw [hwalk, List.mem_map] at hb
  obtain ⟨e, he, rfl⟩ := hb
  rw [(List.perm_insertionSort widestFirst _).mem_iff] at he
  exact counted_walkAt e.1 e.2 (OrderedMap.get?_eq_some_of_mem he)

end Reports

end Devscout.Query
